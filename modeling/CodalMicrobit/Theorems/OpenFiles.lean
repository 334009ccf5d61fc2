import CodalMicrobit.Lemmas.Volume

/-!
# Open files

A file that is opened gets an identifier and points to its entry in a directory. For a file that exists, `open` looks for
an identifier that no open file has, and refuses the file if it is open already. For a file that is created it does
neither: the identifier is 0, and the entry is whatever `createDirectoryEntry` hands out. So identifiers stay distinct
when no file is created while the one with identifier 0 is open, and entries stay distinct when none that belongs to an
open file looks available.
-/

namespace CodalMicrobit

open Nor Outcome

namespace FileSystem

variable {L : Layout}

/-! ## What a call does to the open files -/

/-- The file descriptor that `open` adds for a file that exists. -/
structure Existing (s : FileSystem L) (file : FileDescriptor) : Prop where
  dirent : ∀ f ∈ s.openFiles, f.dirent ≠ file.dirent
  id : s.openFiles.length < 2 ^ 16 → ∀ f ∈ s.openFiles, f.id ≠ file.id

/-- A file of the given name can be created. -/
def Creates (s : FileSystem L) (filename : List UInt8) : Prop :=
  ∃ directory dirent v, s.getDirectoryOf filename = .ok (some directory) ∧
    s.getDirectoryEntry filename directory = .ok none ∧ s.createFile filename directory false = .ok (some dirent, v)

/-- The file descriptor that `open` adds for a file it creates. -/
structure Created (s t : FileSystem L) (filename : List UInt8) (file : FileDescriptor) : Prop where
  creates : s.Creates filename
  id : file.id = 0
  entry : ∃ directory, FSEvent.entry file.dirent directory s.flash ∈ t.history.drop s.history.length

/-- What a call does to the chain of open files. -/
inductive Files (s t : FileSystem L) : FSOp → Prop where
  | same {op : FSOp} (h : List.Forall₂ FileDescriptor.Same s.openFiles t.openFiles) : Files s t op
  | closed {fd : Int} (i : Nat) (h : List.Forall₂ FileDescriptor.Same (s.openFiles.eraseIdx i) t.openFiles) :
    Files s t (.close fd)
  | existing {filename : List UInt8} {flags : Nat} (file : FileDescriptor) (h : t.openFiles = file :: s.openFiles)
      (he : s.Existing file) : Files s t (.open filename flags)
  | created {filename : List UInt8} {flags : Nat} (file : FileDescriptor) (h : t.openFiles = file :: s.openFiles)
      (hflag : flags &&& MB_CREAT ≠ 0) (hc : s.Created t filename file) : Files s t (.open filename flags)

/-- The open files are the same as themselves. -/
theorem forall₂_refl (files : List FileDescriptor) : List.Forall₂ FileDescriptor.Same files files :=
  List.forall₂_same.mpr fun file _ => .refl file

/-- A walk that finds the identifier free has seen neither the identifier nor the file. -/
theorem walkFiles_free {dirent id : Nat} : ∀ {files : List FileDescriptor}, walkFiles dirent id files = .free →
    ∀ f ∈ files, f.dirent ≠ dirent ∧ f.id ≠ id
  | [], _, f, hf => by nomatch hf
  | file :: files, h, f, hf => by
    unfold walkFiles at h
    split at h
    · nomatch h
    · split at h
      · nomatch h
      · rename_i hd hi
        rcases List.mem_cons.mp hf with rfl | hf
        · exact ⟨hd, hi⟩
        · exact walkFiles_free h f hf

/-- The identifier found is one that no open file of another entry has. -/
theorem findId_spec (files : List FileDescriptor) (dirent : Nat) (fuel : Nat) : ∀ id,
    Meets (fun r => ∀ k, r = some k → k < id + fuel ∧ ∀ f ∈ files, f.dirent ≠ dirent ∧ f.id ≠ k) Volume.AnyFault
      (findId files dirent id fuel) := by
  induction fuel with
  | zero => exact fun _ => trivial
  | succ fuel ih =>
    intro id
    unfold findId
    split
    · exact nofun
    · refine (ih (id + 1)).imp fun r hr k hk => ⟨?_, (hr k hk).2⟩
      have := (hr k hk).1
      omega
    · rename_i hw
      intro k hk
      cases hk
      exact ⟨by omega, walkFiles_free hw⟩

/-- What `open` does: it fails and leaves the open files as they are, or adds a file that exists or that it creates. -/
theorem open_spec (s : FileSystem L) (filename : List UInt8) (flags : Nat) :
    Meets (fun r => s.Grew r.2.toVolume ∧
      ((∃ e, r.1 = .error e) ∧ r.2.openFiles = s.openFiles ∨
        ∃ file, r.1 = .ok file.id ∧ r.2.openFiles = file :: s.openFiles ∧
          (s.Existing file ∨ flags &&& MB_CREAT ≠ 0 ∧ s.Created r.2 filename file))) Volume.AnyFault
      (s.open filename flags) := by
  have hsame := Volume.Grew.refl s.toVolume
  unfold FileSystem.open
  split
  · exact ⟨hsame, Or.inl ⟨⟨_, rfl⟩, rfl⟩⟩
  · split
    · exact ⟨hsame, Or.inl ⟨⟨_, rfl⟩, rfl⟩⟩
    · refine (Volume.meets_fault fun r hr => hr : Meets (fun r => s.getDirectoryOf filename = .ok r) _ _).bind fun r hd => ?_
      rcases r with _ | directory
      · exact ⟨hsame, Or.inl ⟨⟨_, rfl⟩, rfl⟩⟩
      · refine (Volume.meets_fault fun r hr => hr :
          Meets (fun r => s.getDirectoryEntry filename directory = .ok r) _ _).bind fun r he => ?_
        rcases r with _ | dirent
        · dsimp only
          split
          · exact ⟨hsame, Or.inl ⟨⟨_, rfl⟩, rfl⟩⟩
          · rename_i hflag
            have hspec := Volume.createFile_spec s.toVolume filename directory false
            refine (Volume.meets_fault fun r hr => ⟨hspec.of_ok hr, hr⟩ :
              Meets (fun r => (s.toVolume.Grew r.2 ∧ ∀ d, r.1 = some d → FSEvent.entry d directory s.flash ∈
                r.2.history.drop s.history.length) ∧ s.createFile filename directory false = .ok r) _ _).bind
              fun r hr => ?_
            rcases r with ⟨_ | dirent, v⟩
            · exact ⟨hr.1.1, Or.inl ⟨⟨_, rfl⟩, rfl⟩⟩
            · exact ⟨hr.1.1, Or.inr ⟨_, rfl, rfl, Or.inr ⟨hflag, ⟨directory, dirent, v, hd, he, hr.2⟩, rfl,
                directory, hr.1.2 dirent rfl⟩⟩⟩
        · refine (findId_spec s.openFiles dirent _ 0).bind fun r hr => ?_
          rcases r with _ | id
          · exact ⟨hsame, Or.inl ⟨⟨_, rfl⟩, rfl⟩⟩
          · obtain ⟨hlt, hf⟩ := hr id rfl
            refine ⟨hsame, Or.inr ⟨_, rfl, rfl, Or.inl ⟨fun f hm => (hf f hm).1, fun hlen f hm => ?_⟩⟩⟩
            change f.id ≠ id % 2 ^ 16
            rw [Nat.mod_eq_of_lt (by omega)]
            exact (hf f hm).2

/-- An operation on an open file leaves the same files open. -/
theorem withFile_spec (s : FileSystem L) (fd : Int) {α : Type}
    {f : FileDescriptor → Except FSFault (α × FileDescriptor × Volume L)}
    (hf : ∀ file, Meets (fun r => file.Same r.2.1 ∧ s.toVolume.Grew r.2.2) Volume.AnyFault (f file)) :
    Meets (fun r => s.Grew r.2.toVolume ∧ List.Forall₂ FileDescriptor.Same s.openFiles r.2.openFiles) Volume.AnyFault
      (s.withFile fd f) := by
  unfold withFile
  split
  · exact ⟨Volume.Grew.refl _, forall₂_refl _⟩
  · split
    · exact ⟨Volume.Grew.refl _, forall₂_refl _⟩
    · rename_i i hi
      refine (hf _).bind fun r hr => ⟨hr.2, ?_⟩
      refine List.forall₂_iff_get.mpr ⟨by simp, fun k h₁ h₂ => ?_⟩
      simp only [List.get_eq_getElem, List.getElem_set]
      split
      · rename_i hik
        subst hik
        rw [← List.getD_eq_getElem _ ⟨0, 0, 0, 0, 0, 0, []⟩ h₁]
        exact hr.1
      · exact .refl _

/-- After `open`, the first descriptor with the identifier it returned is the one it added. -/
theorem getFileDescriptor_head {s : FileSystem L} {file : FileDescriptor} {files : List FileDescriptor}
    (h : s.openFiles = file :: files) : s.getFileDescriptor file.id = some 0 := by
  rw [getFileDescriptor, h, List.findIdx?_cons, if_pos (by simp)]

/-- What a call does to the open files. -/
theorem perform_files (s : FileSystem L) (op : FSOp) :
    Meets (fun r => s.Grew r.2.toVolume ∧ s.Files r.2 op) Volume.AnyFault (s.perform op) := by
  cases op with
  | «open» filename flags =>
    refine (open_spec s filename flags).bind fun r hr => ⟨hr.1, ?_⟩
    rcases hr.2 with ⟨-, h⟩ | ⟨file, -, h, he | ⟨hflag, hc⟩⟩
    · exact .same (by rw [h]; exact forall₂_refl _)
    · exact .existing file h he
    · exact .created file h hflag hc
  | createDirectory name =>
    have hsame := Volume.Grew.refl s.toVolume
    refine Meets.bind (P := fun r => s.Grew r.2.toVolume ∧ r.2.openFiles = s.openFiles) ?_ fun r hr =>
      ⟨hr.1, .same (by rw [hr.2]; exact forall₂_refl _)⟩
    unfold createDirectory
    split
    · exact ⟨hsame, rfl⟩
    · split
      · exact ⟨hsame, rfl⟩
      · refine (Volume.meets_fault fun _ _ => trivial : Meets (fun _ => True) _ _).bind fun r _ => ?_
        rcases r with _ | directory
        · exact ⟨hsame, rfl⟩
        · refine (Volume.meets_fault fun _ _ => trivial : Meets (fun _ => True) _ _).bind fun r _ => ?_
          rcases r with _ | dirent
          · refine (Volume.createFile_spec s.toVolume name directory true).bind fun r hr => ?_
            rcases r with ⟨_ | dirent, v⟩
            · exact ⟨hr.1, rfl⟩
            · exact ⟨hr.1, rfl⟩
          · exact ⟨hsame, rfl⟩
  | flush fd =>
    refine Meets.bind (withFile_spec s fd fun file => ?_) fun r hr => ⟨hr.1, .same hr.2⟩
    exact (Volume.flush_grew s.toVolume file).bind fun r hr => hr
  | close fd =>
    refine Meets.bind (P := fun r => s.Grew r.2.toVolume ∧ s.Files r.2 (.close fd)) ?_ fun r hr => ⟨hr.1, hr.2⟩
    refine Meets.bind (withFile_spec s fd fun file => ?_) fun r hr => ?_
    · exact (Volume.flush_grew s.toVolume file).bind fun r hr => hr
    · rcases r with ⟨e | ⟨⟩, t⟩
      · exact ⟨hr.1, .same hr.2⟩
      · refine ⟨hr.1, .closed ((t.getFileDescriptor fd).getD 0) ?_⟩
        have hdrop := List.forall₂_drop ((t.getFileDescriptor fd).getD 0 + 1) hr.2
        have htake := List.forall₂_take ((t.getFileDescriptor fd).getD 0) hr.2
        rw [List.eraseIdx_eq_take_drop_succ]
        dsimp only
        rw [List.eraseIdx_eq_take_drop_succ]
        exact List.rel_append htake hdrop
  | seek fd offset flags =>
    refine Meets.bind (P := fun r => s.Grew r.2.toVolume ∧ List.Forall₂ FileDescriptor.Same s.openFiles r.2.openFiles) ?_
      fun r hr => ⟨hr.1, .same hr.2⟩
    refine Meets.bind (withFile_spec s fd fun file => Volume.seek_grew s.toVolume file offset flags) fun r hr => ?_
    rcases r with ⟨e | _ | position, t⟩
    · exact hr
    · exact hr
    · exact hr
  | read fd size =>
    refine Meets.bind (P := fun r => s.Grew r.2.toVolume ∧ List.Forall₂ FileDescriptor.Same s.openFiles r.2.openFiles) ?_
      fun r hr => ⟨hr.1, .same hr.2⟩
    unfold FileSystem.read
    split
    · exact ⟨Volume.Grew.refl _, forall₂_refl _⟩
    · exact withFile_spec s fd fun file => Volume.read_grew s.toVolume file size
  | write fd buffer =>
    refine Meets.bind (P := fun r => s.Grew r.2.toVolume ∧ List.Forall₂ FileDescriptor.Same s.openFiles r.2.openFiles) ?_
      fun r hr => ⟨hr.1, .same hr.2⟩
    unfold FileSystem.write
    split
    · exact ⟨Volume.Grew.refl _, forall₂_refl _⟩
    · exact withFile_spec s fd fun file => Volume.write_grew s.toVolume file buffer
  | remove filename =>
    refine Meets.bind (P := fun r => s.Grew r.2.toVolume ∧ r.2.openFiles = s.openFiles) ?_ fun r hr =>
      ⟨hr.1, .same (by rw [hr.2]; exact forall₂_refl _)⟩
    unfold FileSystem.remove
    refine (open_spec s filename MB_READ).bind fun r hr => ?_
    rcases r with ⟨e | fd, t⟩
    · rcases hr.2 with ⟨-, h⟩ | ⟨file, h, -⟩
      · exact ⟨hr.1, h⟩
      · nomatch h
    · rcases hr.2 with ⟨⟨e, h⟩, -⟩ | ⟨file, h, hfiles, -⟩
      · nomatch h
      · cases h
        -- the descriptor that was added is the first one, and the one that is removed again
        have hhead := getFileDescriptor_head hfiles
        refine Meets.bind (P := fun u => s.Grew u.toVolume ∧ u.openFiles = s.openFiles) ?_ fun u hu => ⟨hu.1, hu.2⟩
        unfold removeFile
        rw [hhead]
        refine (Volume.deleteChain_grew _ _ _).bind fun v hv => ?_
        refine ⟨hr.1.trans (hv.trans (Volume.Grew.of_history rfl)), ?_⟩
        dsimp only [Option.getD_some]
        rw [hfiles]
        rfl

/-! ## Runs -/

/-- Each call of a run meets `P`, which may depend on the state before it. -/
def Always (P : FileSystem L → FSOp → Prop) (s : FileSystem L) : List FSOp → Prop
  | [] => True
  | op :: ops => P s op ∧ ∀ r t, s.perform op = .ok (r, t) → Always P t ops

instance Always.decidable {P : FileSystem L → FSOp → Prop} [∀ s op, Decidable (P s op)] :
    ∀ (ops : List FSOp) (s : FileSystem L), Decidable (s.Always P ops)
  | [], _ => isTrue trivial
  | op :: ops, s =>
    have : ∀ t : FileSystem L, Decidable (t.Always P ops) := Always.decidable ops
    inferInstanceAs (Decidable (_ ∧ ∀ r t, s.perform op = .ok (r, t) → Always P t ops))

/-- Each call of a run meets a weaker condition, too. -/
theorem Always.imp {P Q : FileSystem L → FSOp → Prop} (hpq : ∀ s op, P s op → Q s op) :
    ∀ {ops : List FSOp} {s : FileSystem L}, s.Always P ops → s.Always Q ops
  | [], _, _ => trivial
  | _ :: _, _, ha => ⟨hpq _ _ ha.1, fun r t ht => (ha.2 r t ht).imp hpq⟩

/-- What each call that meets the condition preserves holds after a run. -/
theorem Always.run {P : FileSystem L → FSOp → Prop} {I : FileSystem L → Prop}
    (hstep : ∀ {s t : FileSystem L} {op : FSOp} {r : FSReply}, I s → P s op → s.perform op = .ok (r, t) → I t) :
    ∀ {ops : List FSOp} {s t : FileSystem L} {rs : List FSReply}, I s → s.Always P ops → s.run ops = .ok (rs, t) →
      I t := by
  intro ops
  induction ops with
  | nil =>
    intro s t rs hi _ hr
    cases hr
    exact hi
  | cons op ops ih =>
    intro s t rs hi ha hr
    obtain ⟨⟨r, u⟩, hu, hr⟩ := bind_eq_ok.mp hr
    obtain ⟨⟨rs', w⟩, hw, hr⟩ := bind_eq_ok.mp hr
    cases hr
    exact ih (hstep hi ha.1 hu) (ha.2 r u hu) hw

/-! ## Identifiers -/

/-- The call does not create a file while the one with identifier 0 is open, and does not open one when there is no
identifier left. -/
def IdFree (s : FileSystem L) (op : FSOp) : Prop :=
  ∀ filename flags, op = .open filename flags →
    s.openFiles.length < 2 ^ 16 ∧ (flags &&& MB_CREAT ≠ 0 → s.Creates filename → ∀ f ∈ s.openFiles, f.id ≠ 0)

/-- An identifier that `open` gives is not in use when the condition holds. -/
theorem open_idFree {s t : FileSystem L} {filename : List UInt8} {flags id : Nat} (hi : s.IdFree (.open filename flags))
    (h : s.open filename flags = .ok (.ok id, t)) : ∀ f ∈ s.openFiles, f.id ≠ id := by
  obtain ⟨hlen, hzero⟩ := hi filename flags rfl
  rcases ((open_spec s filename flags).of_ok h).2 with ⟨⟨e, he⟩, -⟩ | ⟨file, he, -, hex | ⟨hflag, hc⟩⟩
  · nomatch he
  · cases he
    exact hex.id hlen
  · cases he
    rw [hc.id]
    exact hzero hflag hc.creates

/-- Files that stay the same keep their identifiers and entries. -/
theorem map_same {files files' : List FileDescriptor} (h : List.Forall₂ FileDescriptor.Same files files') :
    files'.map (·.id) = files.map (·.id) ∧ files'.map (·.dirent) = files.map (·.dirent) := by
  induction h with
  | nil => exact ⟨rfl, rfl⟩
  | cons h _ ih => exact ⟨by simp [h.id, ih.1], by simp [h.dirent, ih.2]⟩

/-- Closing a file leaves the others different. -/
theorem eraseIdx_nodup {α : Type} {files : List FileDescriptor} {f : FileDescriptor → α}
    (h : (files.map f).Nodup) (i : Nat) : ((files.eraseIdx i).map f).Nodup :=
  h.sublist ((List.eraseIdx_sublist files i).map f)

/-- A new file that differs from the others leaves them all different. -/
theorem nodup_cons_of_ne {α : Type} {files : List FileDescriptor} {file : FileDescriptor} {f : FileDescriptor → α}
    (h : (files.map f).Nodup) (hne : ∀ g ∈ files, f g ≠ f file) : ((file :: files).map f).Nodup := by
  rw [List.map_cons]
  refine List.nodup_cons.mpr ⟨fun hm => ?_, h⟩
  obtain ⟨g, hg, he⟩ := List.mem_map.mp hm
  exact hne g hg he

/-- A call that meets the condition leaves the identifiers different. -/
theorem perform_ids {s t : FileSystem L} {op : FSOp} {r : FSReply} (hs : (s.openFiles.map (·.id)).Nodup)
    (hi : s.IdFree op) (h : s.perform op = .ok (r, t)) : (t.openFiles.map (·.id)).Nodup := by
  cases ((perform_files s op).of_ok h).2 with
  | same hf => exact (map_same hf).1 ▸ hs
  | closed i hf => exact (map_same hf).1 ▸ eraseIdx_nodup hs i
  | existing file hf he => exact hf ▸ nodup_cons_of_ne hs (he.id (hi _ _ rfl).1)
  | created file hf hflag hc =>
    have hne := (hi _ _ rfl).2 hflag hc.creates
    exact hf ▸ nodup_cons_of_ne hs fun g hg => hc.id ▸ hne g hg

/-- Identifiers of open files. In every run in which no call creates a file while the one with identifier 0 is open, the
files that are open have distinct identifiers, and `open` returns one that no open file has. -/
theorem open_ids_distinct (c : FSConfig) (m : Memory) (flashStart flashPages : Nat) (ops : List FSOp)
    (ha : (FileSystem.init c m flashStart flashPages).Always IdFree ops) (rs : List FSReply)
    (s : FileSystem (c.layout m (c.flashStart flashStart) (c.flashPages (c.flashStart flashStart) flashPages)))
    (hr : (FileSystem.init c m flashStart flashPages).run ops = .ok (rs, s)) :
    (s.openFiles.map (·.id)).Nodup ∧
      ∀ filename flags id t, s.IdFree (.open filename flags) → s.open filename flags = .ok (.ok id, t) →
        ∀ f ∈ s.openFiles, f.id ≠ id := by
  have hstart : ((FileSystem.init c m flashStart flashPages).openFiles.map (·.id)).Nodup := List.nodup_nil
  exact ⟨Always.run perform_ids hstart ha hr, fun _ _ _ _ hi h => open_idFree hi h⟩

/-- A file name of one letter. -/
def fileA : List UInt8 := ascii ['a']

/-- Another one. -/
def fileB : List UInt8 := ascii ['b']

/-- A file system of one page on erased flash. -/
def onePage : FileSystem (({} : FSConfig).layout (fun _ => blank) 0x40000 1) :=
  FileSystem.init {} (fun _ => blank) 0x40000 1

/-- And a third. -/
def fileC : List UInt8 := ascii ['c']

/-- Two files are created, one after the other, and both are opened again; the one with identifier 0 is closed, and a third file
is created while the other is open. -/
def thirdFile : List FSOp :=
  [.open fileA (MB_CREAT ||| MB_WRITE), .write 0 [1], .close 0, .open fileB (MB_CREAT ||| MB_WRITE), .write 0 [2], .close 0,
    .open fileA MB_READ, .open fileB MB_READ, .close 0, .open fileC (MB_CREAT ||| MB_WRITE)]

/-- The identifier 0 is free where a file may be created. -/
def ZeroFree (s : FileSystem L) : FSOp → Prop
  | .open _ flags => s.openFiles.length < 2 ^ 16 ∧ (flags &&& MB_CREAT ≠ 0 → ∀ f ∈ s.openFiles, f.id ≠ 0)
  | _ => True

instance (s : FileSystem L) (op : FSOp) : Decidable (s.ZeroFree op) :=
  match op with
  | .open _ _ => inferInstanceAs (Decidable (_ ∧ _))
  | .createDirectory _ | .write _ _ | .read _ _ | .seek _ _ _ | .flush _ | .close _ | .remove _ => isTrue trivial

/-- Where the identifier 0 is free, it is free for the file that is created. -/
theorem ZeroFree.idFree (s : FileSystem L) (op : FSOp) (h : s.ZeroFree op) : s.IdFree op := by
  rintro filename flags rfl
  exact ⟨h.1, fun hflag _ => h.2 hflag⟩

/-- The run ends with two files open. -/
theorem thirdFile_runs : ∃ rs s, onePage.run thirdFile = .ok (rs, s) ∧ s.openFiles.length = 2 := by
  have hrun : (match onePage.run thirdFile with | .ok (_, s) => s.openFiles.length == 2 | .error _ => false) = true := by
    decide +kernel
  split at hrun
  · rename_i rs s hr
    exact ⟨rs, s, hr, beq_iff_eq.mp hrun⟩
  · nomatch hrun

/-- `open_ids_distinct` for a file that is created while another one is open. -/
theorem open_ids_distinct_third :
    ∃ rs s, onePage.run thirdFile = .ok (rs, s) ∧ s.openFiles.length = 2 ∧ (s.openFiles.map (·.id)).Nodup := by
  obtain ⟨rs, s, hr, htwo⟩ := thirdFile_runs
  have hfree : onePage.Always ZeroFree thirdFile := by decide +kernel
  exact ⟨rs, s, hr, htwo,
    (open_ids_distinct {} (fun _ => blank) 0x40000 1 thirdFile (hfree.imp ZeroFree.idFree) rs s hr).1⟩

/-- Two files that are created while both are open have the same identifier. -/
theorem created_ids_clash :
    ∃ rs s, onePage.run [.open fileA (MB_CREAT ||| MB_WRITE), .open fileB (MB_CREAT ||| MB_WRITE)] = .ok (rs, s) ∧
      ¬(s.openFiles.map (·.id)).Nodup := by
  have hrun : (match onePage.run [.open fileA (MB_CREAT ||| MB_WRITE), .open fileB (MB_CREAT ||| MB_WRITE)] with
      | .ok (_, s) => s.openFiles.map (·.id) == [0, 0]
      | .error _ => false) = true := by
    decide +kernel
  split at hrun
  · rename_i rs s hr
    refine ⟨rs, s, hr, ?_⟩
    rw [beq_iff_eq.mp hrun]
    decide
  · nomatch hrun

/-! ## Directory entries -/

/-- A new entry of the directory will not take the place of the entry `dirent`: it does not look free, nor invalid if no
entry looks free, and if the directory has to be extended its block is in use. -/
def Kept (L : Layout) (m : Memory) (directory dirent : Nat) : Prop :=
  (dirent ∈ L.directoryEntries m directory →
    isFree m dirent = false ∧ (isValid m dirent = true ∨ ∃ d ∈ L.directoryEntries m directory, isFree m d = true)) ∧
  ((∃ d ∈ L.directoryEntries m directory, isFree m d = true ∨ isValid m d = false) ∨
    ¬L.Reusable m (L.getBlockNumber dirent))

/-- An entry that is kept is not the one that was chosen. -/
theorem Kept.ne {m : Memory} {directory d dirent : Nat} (hk : Kept L m directory d)
    (hc : L.Chosen m directory dirent) : d ≠ dirent := by
  rintro rfl
  cases hc with
  | free hd hf => exact absurd hf (by simp [(hk.1 hd).1])
  | invalid hn hd hi =>
    rcases (hk.1 hd).2 with hv | ⟨e, he, hf⟩
    · exact absurd hv (by simp [hi])
    · exact absurd hf (by simp [hn e he])
  | extended hn block hlt hb hr =>
    rcases hk.2 with ⟨e, he, hf | hi⟩ | hb'
    · exact absurd hf (by simp [(hn e he).1])
    · exact absurd (hn e he).2 (by simp [hi])
    · rw [hb, L.getBlockNumber_getBlock hlt] at hb'
      exact hb' hr

/-- Whenever the call makes a directory entry, it does not take the place of the entry of an open file that was created
and not written yet; nor, where the call opens a file, of the entry of any open file. -/
def EntryFree (s : FileSystem L) (op : FSOp) : Prop :=
  ∀ r t, s.perform op = .ok (r, t) → ∀ dirent directory before,
    FSEvent.entry dirent directory before ∈ t.history.drop s.history.length → ∀ f ∈ s.openFiles,
      (∃ filename flags, op = .open filename flags) ∨ flagsAt before f.dirent = MBFS_DIRECTORY_ENTRY_NEW →
        Kept L before directory f.dirent

/-- The record says the truth about the entries that a call makes. -/
theorem perform_chosen {s t : FileSystem L} {op : FSOp} {r : FSReply} (h : s.perform op = .ok (r, t))
    {dirent directory : Nat} {before : Memory}
    (he : FSEvent.entry dirent directory before ∈ t.history.drop s.history.length) :
    L.Chosen before directory dirent := by
  obtain ⟨es, hes, hright⟩ := ((perform_files s op).of_ok h).1
  rw [hes, List.drop_left] at he
  exact hright _ he

/-- A call that meets the condition leaves the entries different. -/
theorem perform_dirents {s t : FileSystem L} {op : FSOp} {r : FSReply} (hs : (s.openFiles.map (·.dirent)).Nodup)
    (hf : s.EntryFree op) (h : s.perform op = .ok (r, t)) : (t.openFiles.map (·.dirent)).Nodup := by
  cases ((perform_files s op).of_ok h).2 with
  | same hs' => exact (map_same hs').2 ▸ hs
  | closed i hs' => exact (map_same hs').2 ▸ eraseIdx_nodup hs i
  | existing file hfile he => exact hfile ▸ nodup_cons_of_ne hs he.dirent
  | created file hfile hflag hc =>
    obtain ⟨directory, he⟩ := hc.entry
    refine hfile ▸ nodup_cons_of_ne hs fun g hg => ?_
    exact (hf r t h _ _ _ he g hg (Or.inl ⟨_, _, rfl⟩)).ne (perform_chosen h he)

/-- Directory entries of open files. In every run in which no new entry takes the place of one that belongs to an open
file but looks available, the files that are open have distinct entries, and no call hands out the entry of a file that
was created and not written yet. -/
theorem open_entries_distinct (c : FSConfig) (m : Memory) (flashStart flashPages : Nat) (ops : List FSOp)
    (ha : (FileSystem.init c m flashStart flashPages).Always EntryFree ops) (rs : List FSReply)
    (s : FileSystem (c.layout m (c.flashStart flashStart) (c.flashPages (c.flashStart flashStart) flashPages)))
    (hr : (FileSystem.init c m flashStart flashPages).run ops = .ok (rs, s)) :
    (s.openFiles.map (·.dirent)).Nodup ∧
      ∀ op r t, s.EntryFree op → s.perform op = .ok (r, t) → ∀ dirent directory before,
        FSEvent.entry dirent directory before ∈ t.history.drop s.history.length →
          ∀ f ∈ s.openFiles, flagsAt before f.dirent = MBFS_DIRECTORY_ENTRY_NEW → f.dirent ≠ dirent := by
  have hstart : ((FileSystem.init c m flashStart flashPages).openFiles.map (·.dirent)).Nodup := List.nodup_nil
  refine ⟨Always.run perform_dirents hstart ha hr, fun op r t hf h dirent directory before he f hfm hnew => ?_⟩
  exact (hf r t h dirent directory before he f hfm (Or.inr hnew)).ne (perform_chosen h he)

/-- The directory in which the call makes an entry has a free one, and the entries of the open files are not free. -/
def RoomFree (s : FileSystem L) (op : FSOp) : Prop :=
  ∀ r t, s.perform op = .ok (r, t) → ∀ e ∈ t.history.drop s.history.length,
    match e with
    | .entry _ directory before => (∃ d ∈ L.directoryEntries before directory, isFree before d = true) ∧
        ∀ f ∈ s.openFiles, isFree before f.dirent = false
    | _ => True

instance (s : FileSystem L) (op : FSOp) : Decidable (s.RoomFree op) :=
  have : DecidablePred fun e : FSEvent =>
      match e with
      | .entry _ directory before => (∃ d ∈ L.directoryEntries before directory, isFree before d = true) ∧
          ∀ f ∈ s.openFiles, isFree before f.dirent = false
      | _ => True := fun e =>
    match e with
    | .entry _ _ _ => inferInstanceAs (Decidable (_ ∧ _))
    | .block _ _ | .page _ _ | .recycling _ _ | .data _ _ _ _ => isTrue trivial
  inferInstanceAs (Decidable (∀ r t, s.perform op = .ok (r, t) → ∀ e ∈ t.history.drop s.history.length, _))

/-- Where the directory has a free entry, none of an open file is taken. -/
theorem RoomFree.entryFree (s : FileSystem L) (op : FSOp) (h : s.RoomFree op) : s.EntryFree op := by
  intro r t ht dirent directory before he f hf _
  obtain ⟨hroom, hopen⟩ := h r t ht _ he
  obtain ⟨d, hd, hfree⟩ := hroom
  exact ⟨fun _ => ⟨hopen f hf, Or.inr ⟨d, hd, hfree⟩⟩, Or.inl ⟨d, hd, Or.inl hfree⟩⟩

/-- `open_entries_distinct` for a file that is created while another one is open. -/
theorem open_entries_distinct_third :
    ∃ rs s, onePage.run thirdFile = .ok (rs, s) ∧ s.openFiles.length = 2 ∧ (s.openFiles.map (·.dirent)).Nodup := by
  obtain ⟨rs, s, hr, htwo⟩ := thirdFile_runs
  have hfree : onePage.Always RoomFree thirdFile := by decide +kernel
  exact ⟨rs, s, hr, htwo,
    (open_entries_distinct {} (fun _ => blank) 0x40000 1 thirdFile (hfree.imp RoomFree.entryFree) rs s hr).1⟩

/-- Two files that are created while both are open have the same entry: a created file looks free until it is flushed. -/
theorem created_entry_handed_out_again :
    ∃ rs s, onePage.run [.open fileA (MB_CREAT ||| MB_WRITE), .open fileB (MB_CREAT ||| MB_WRITE)] = .ok (rs, s) ∧
      ¬(s.openFiles.map (·.dirent)).Nodup := by
  have hrun : (match onePage.run [.open fileA (MB_CREAT ||| MB_WRITE), .open fileB (MB_CREAT ||| MB_WRITE)] with
      | .ok (_, s) => s.openFiles.map (·.dirent) == [0x40000 + 256 + 24, 0x40000 + 256 + 24]
      | .error _ => false) = true := by
    decide +kernel
  split at hrun
  · rename_i rs s hr
    refine ⟨rs, s, hr, ?_⟩
    rw [beq_iff_eq.mp hrun]
    decide
  · nomatch hrun

end FileSystem

end CodalMicrobit
