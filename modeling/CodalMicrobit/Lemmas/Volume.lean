import CodalMicrobit.FileSystem.Ops
import CodalMicrobit.Lib.Outcome

/-!
# What the parts of a file system operation record

Every part of an operation adds to the record what it did and takes nothing back. The entries of the record that matter
here say which place of a directory was chosen for a new entry: a free one, or where there is none an invalid one, or
where there is neither the start of a block that was not in use.
-/

namespace CodalMicrobit

open Nor Outcome

/-- The blocks of the chain that starts at `block`. -/
def Layout.chain (L : Layout) (m : Memory) (block : Nat) : Nat → List Nat
  | 0 => []
  | fuel + 1 =>
    block :: if L.getNextFileBlock m block = MBFS_EOF then [] else L.chain m (L.getNextFileBlock m block) fuel

/-- The entries of a directory. -/
def Layout.directoryEntries (L : Layout) (m : Memory) (directory : Nat) : List Nat :=
  (L.chain m (firstBlockAt m directory) blockNumbers).flatMap L.entries

/-- The block is marked as unused or as deleted. -/
def Layout.Reusable (L : Layout) (m : Memory) (block : Nat) : Prop :=
  L.getNextFileBlock m block = MBFS_UNUSED ∨ L.getNextFileBlock m block = MBFS_DELETED

/-- What the place of a new entry in a directory is. -/
inductive Layout.Chosen (L : Layout) (m : Memory) (directory dirent : Nat) : Prop where
  | free (hd : dirent ∈ L.directoryEntries m directory) (hf : isFree m dirent = true)
  | invalid (hn : ∀ d ∈ L.directoryEntries m directory, isFree m d = false)
      (hd : dirent ∈ L.directoryEntries m directory) (hi : isValid m dirent = false)
  | extended (hn : ∀ d ∈ L.directoryEntries m directory, isFree m d = false ∧ isValid m d = true)
      (block : Nat) (hlt : block < 2 ^ 16) (hb : dirent = L.getBlock block) (hr : L.Reusable m block)

/-- The number of a block's address is the block. -/
theorem Layout.getBlockNumber_getBlock (L : Layout) {b : Nat} (hb : b < 2 ^ 16) : L.getBlockNumber (L.getBlock b) = b := by
  unfold getBlockNumber getBlock MBFS_BLOCK_SIZE
  omega

/-- The entry of the record is right about the place it says was chosen. -/
def Layout.Right (L : Layout) : FSEvent → Prop
  | .entry dirent directory before => L.Chosen before directory dirent
  | _ => True

namespace Volume

variable {L : Layout}

/-- The volume `w` has the record of `v` and more, all of it right. -/
def Grew (v w : Volume L) : Prop := ∃ events, w.history = v.history ++ events ∧ ∀ e ∈ events, L.Right e

theorem Grew.refl (v : Volume L) : v.Grew v := ⟨[], (List.append_nil _).symm, List.forall_mem_nil _⟩

theorem Grew.trans {u v w : Volume L} (h : u.Grew v) (h' : v.Grew w) : u.Grew w := by
  obtain ⟨es, he, hr⟩ := h
  obtain ⟨es', he', hr'⟩ := h'
  refine ⟨es ++ es', by rw [he', he, List.append_assoc], fun e hm => ?_⟩
  rcases List.mem_append.mp hm with hm | hm
  · exact hr e hm
  · exact hr' e hm

/-- What changes the flash only leaves the record as it is. -/
theorem Grew.of_history {v w : Volume L} (h : w.history = v.history) : v.Grew w :=
  ⟨[], by rw [h, List.append_nil], List.forall_mem_nil _⟩

/-- Noting a right event makes the record grow by it. -/
theorem grew_note (v : Volume L) {e : FSEvent} (h : L.Right e) : v.Grew (v.note e) :=
  ⟨[e], rfl, fun _ hm => List.mem_singleton.mp hm ▸ h⟩

/-- Programming the flash notes nothing. -/
@[simp] theorem flashWrite_history (v : Volume L) (a : Nat) (bs : List UInt8) (s : Nat) :
    (v.flashWrite a bs s).history = v.history := rfl

/-- Erasing a page notes nothing. -/
@[simp] theorem erasePage_history (v : Volume L) (a : Nat) : (v.erasePage a).history = v.history := rfl

/-- What each turn of a loop leaves as it is, the loop does. -/
theorem foldl_same {α β : Type} {p : Volume L → β} {f : Volume L → α → Volume L} (h : ∀ v a, p (f v a) = p v)
    (l : List α) : ∀ v, p (l.foldl f v) = p v := by
  induction l with
  | nil => exact fun v => rfl
  | cons a l ih => exact fun v => (ih _).trans (h v a)

/-- Copying a block leaves as it is what a write to the flash does. -/
theorem copyBlock_same {β : Type} {p : Volume L → β} (hp : ∀ v a bs, p (flashWrite v a bs) = p v) (block : Nat)
    (type : BlockType) (first scratch : Nat) (v : Volume L) (i : Nat) :
    p (copyBlock block type first scratch v i) = p v := by
  unfold copyBlock
  dsimp only
  split
  · rfl
  · split
    · exact foldl_same (fun v a => by split <;> simp only [hp]) _ v
    · split
      · exact foldl_same (fun v a => by split <;> simp only [hp]) _ v
      · exact hp _ _ _

/-- The condition of a fault: none is excluded. -/
def AnyFault : FSFault → Prop := fun _ => True

/-- Where every fault is allowed, only the result has to be shown. -/
theorem meets_fault {α : Type} {P : α → Prop} {x : Except FSFault α} (h : ∀ a, x = .ok a → P a) :
    Meets P AnyFault x := by
  cases x with
  | ok a => exact h a rfl
  | error e => trivial

/-- `getFreePage` only adds right events. -/
theorem getFreePage_grew (v : Volume L) : Meets (fun r => v.Grew r.2) AnyFault v.getFreePage := by
  unfold getFreePage
  refine (meets_fault fun _ _ => trivial : Meets (fun _ => True) _ _).bind fun r _ => ?_
  rcases r with ⟨_ | page, recyclablePage⟩
  · exact (grew_note v (by exact trivial)).trans (Grew.of_history rfl)
  · exact (grew_note v (by exact trivial)).trans (Grew.of_history rfl)

/-- `recycleBlock` only adds right events. -/
theorem recycleBlock_grew (v : Volume L) (block : Nat) (type : BlockType) :
    Meets (fun w => v.Grew w) AnyFault (v.recycleBlock block type) := by
  unfold recycleBlock
  refine (getFreePage_grew _).bind fun r hr => ?_
  refine (Grew.trans (grew_note v (by exact trivial)) hr).trans (Grew.of_history ?_)
  rw [erasePage_history, flashWrite_history, erasePage_history]
  exact foldl_same (copyBlock_same (fun _ _ _ => rfl) block type _ _) _ _

/-- The loop over deleted blocks only adds right events. -/
theorem recycleDeleted_grew (blocks : List Nat) : ∀ (v : Volume L) (pageRecycled : Bool),
    Meets (fun w => v.Grew w) AnyFault (v.recycleDeleted pageRecycled blocks) := by
  induction blocks with
  | nil => exact fun v _ => Grew.refl v
  | cons block blocks ih =>
    intro v pageRecycled
    unfold recycleDeleted
    generalize (if block % blocksPerPage = 0 then false else pageRecycled) = recycled
    dsimp only
    by_cases hc : v.table block = MBFS_DELETED ∧ recycled = false
    · rw [if_pos hc]
      exact (recycleBlock_grew v block .FILE).bind fun w hw => (ih w true).imp fun u hu => hw.trans hu
    · rw [if_neg hc]
      exact ih v recycled

/-- The loop over the table's blocks only adds right events. -/
theorem recycleTable_grew (blocks : List Nat) : ∀ v : Volume L,
    Meets (fun w => v.Grew w) AnyFault (v.recycleTable blocks) := by
  induction blocks with
  | nil => exact fun v => Grew.refl v
  | cons block blocks ih =>
    exact fun v => (recycleBlock_grew v block .FILE).bind fun w hw => (ih w).imp fun u hu => hw.trans hu

/-- `recycleFileTable` only adds right events. -/
theorem recycleFileTable_grew (v : Volume L) : Meets (fun w => v.Grew w) AnyFault v.recycleFileTable := by
  unfold recycleFileTable
  generalize tablePages L = pages
  refine (recycleDeleted_grew _ v false).bind fun w hw => ?_
  exact (recycleTable_grew pages w).imp fun u hu => hw.trans hu

/-! ## Allocation -/

/-- What the scan for a block finds: an unused block, and a deleted one or none. -/
theorem findBlock_spec (v : Volume L) (fuel : Nat) : ∀ block deletedBlock, block < 2 ^ 16 →
    (deletedBlock ≠ 0 → deletedBlock < 2 ^ 16 ∧ v.table deletedBlock = MBFS_DELETED) →
    (∀ b, (v.findBlock block deletedBlock fuel).1 = some b → b < 2 ^ 16 ∧ v.table b = MBFS_UNUSED) ∧
      ((v.findBlock block deletedBlock fuel).2 ≠ 0 →
        (v.findBlock block deletedBlock fuel).2 < 2 ^ 16 ∧
          v.table (v.findBlock block deletedBlock fuel).2 = MBFS_DELETED) := by
  induction fuel with
  | zero => exact fun block deletedBlock _ hd => ⟨nofun, hd⟩
  | succ fuel ih =>
    intro block deletedBlock hb hd
    unfold findBlock
    split
    · exact ⟨nofun, hd⟩
    · split
      · rename_i hu
        exact ⟨fun b hb' => by cases hb'; exact ⟨hb, hu⟩, hd⟩
      · refine ih _ _ (Nat.mod_lt _ (by decide)) fun hne => ?_
        by_cases hdel : v.table block = MBFS_DELETED
        · rw [if_pos hdel]
          exact ⟨hb, hdel⟩
        · rw [if_neg hdel] at hne ⊢
          exact hd hne

/-- A block that is allocated was unused or deleted. -/
theorem getFreeBlock_spec (v : Volume L) :
    Meets (fun r => v.Grew r.2 ∧ (r.1 ≠ 0 → r.1 < 2 ^ 16 ∧ L.Reusable v.flash r.1)) AnyFault v.getFreeBlock := by
  have hs := findBlock_spec v blockNumbers ((v.lastBlockAllocated + 1) % L.fileSystemSize % 2 ^ 16) 0
    (Nat.mod_lt _ (by decide)) nofun
  unfold getFreeBlock
  split
  · rename_i block _ hf
    rw [hf] at hs
    obtain ⟨hlt, hu⟩ := hs.1 block rfl
    exact ⟨(grew_note v (by exact trivial)).trans (Grew.of_history rfl), fun _ => ⟨hlt, Or.inl hu⟩⟩
  · exact ⟨grew_note v (by exact trivial), nofun⟩
  · rename_i block hne hf
    rw [hf] at hs
    refine (recycleFileTable_grew _).bind fun w hw => ?_
    exact ⟨((grew_note v (by exact trivial)).trans hw).trans (Grew.of_history rfl), fun hb =>
      ⟨(hs.2 hb).1, Or.inr (hs.2 hb).2⟩⟩

/-! ## Directories -/

/-- What the scan over the entries of a block finds. -/
theorem scanEntries_spec (m : Memory) (dirents : List Nat) : ∀ invalid : Option Nat,
    (∀ d, (scanEntries m invalid dirents).1 = some d → d ∈ dirents ∧ isFree m d = true) ∧
      ((scanEntries m invalid dirents).1 = none →
        (∀ d ∈ dirents, isFree m d = false) ∧
        (∀ d, (scanEntries m invalid dirents).2 = some d → invalid = some d ∨ d ∈ dirents ∧ isValid m d = false) ∧
        ((scanEntries m invalid dirents).2 = none → invalid = none ∧ ∀ d ∈ dirents, isValid m d = true)) := by
  induction dirents with
  | nil => exact fun invalid => ⟨nofun, fun _ => ⟨nofun, fun d h => Or.inl h, fun h => ⟨h, nofun⟩⟩⟩
  | cons dirent dirents ih =>
    intro invalid
    unfold scanEntries
    split
    · rename_i hf
      exact ⟨fun d hd => by cases hd; exact ⟨List.mem_cons_self, hf⟩, nofun⟩
    · rename_i hf
      obtain ⟨h1, h2⟩ := ih (if !isValid m dirent && invalid.isNone then some dirent else invalid)
      refine ⟨fun d hd => ⟨List.mem_cons_of_mem _ (h1 d hd).1, (h1 d hd).2⟩, fun hn => ?_⟩
      obtain ⟨h3, h4, h5⟩ := h2 hn
      refine ⟨?_, fun d hd => ?_, fun h => ?_⟩
      · rintro d (_ | ⟨_, hd⟩)
        · simpa using hf
        · exact h3 d hd
      · rcases h4 d hd with hi | ⟨hi, hv⟩
        · split at hi
          · rename_i hc
            cases hi
            rw [Bool.and_eq_true, Bool.not_eq_true'] at hc
            exact Or.inr ⟨List.mem_cons_self, hc.1⟩
          · exact Or.inl hi
        · exact Or.inr ⟨List.mem_cons_of_mem _ hi, hv⟩
      · obtain ⟨hi, hv⟩ := h5 h
        split at hi
        · nomatch hi
        · rename_i hc
          subst hi
          refine ⟨rfl, ?_⟩
          rintro d (_ | ⟨_, hd⟩)
          · simpa using hc
          · exact hv d hd

/-- What the scan over the blocks of a directory finds. -/
theorem scanDirectory_spec (v : Volume L) (fuel : Nat) : ∀ (block : Nat) (invalid : Option Nat),
    Meets (fun r =>
      (∀ d, r.1 = some d → d ∈ (L.chain v.flash block fuel).flatMap L.entries ∧ isFree v.flash d = true) ∧
      (r.1 = none →
        (∀ d ∈ (L.chain v.flash block fuel).flatMap L.entries, isFree v.flash d = false) ∧
        (∀ d, r.2 = some d →
          invalid = some d ∨ d ∈ (L.chain v.flash block fuel).flatMap L.entries ∧ isValid v.flash d = false) ∧
        (r.2 = none → invalid = none ∧ ∀ d ∈ (L.chain v.flash block fuel).flatMap L.entries, isValid v.flash d = true)))
      AnyFault (v.scanDirectory block invalid fuel) := by
  induction fuel with
  | zero => exact fun _ _ => trivial
  | succ fuel ih =>
    intro block invalid
    have hs := scanEntries_spec v.flash (L.entries block) invalid
    unfold scanDirectory Layout.chain
    rw [List.flatMap_cons]
    rcases he : scanEntries v.flash invalid (L.entries block) with ⟨_ | empty, invalid'⟩
    · rw [he] at hs
      obtain ⟨hfree, hinv, hval⟩ := hs.2 rfl
      dsimp only
      by_cases hend : v.table block = MBFS_EOF
      · have hend' : L.getNextFileBlock v.flash block = MBFS_EOF := hend
        rw [if_pos hend', if_pos hend, List.flatMap_nil, List.append_nil]
        exact ⟨nofun, fun _ => ⟨hfree, hinv, hval⟩⟩
      · have hend' : ¬L.getNextFileBlock v.flash block = MBFS_EOF := hend
        rw [if_neg hend', if_neg hend]
        refine (ih (v.table block) invalid').imp fun r hr => ?_
        refine ⟨fun d hd => ⟨List.mem_append_right _ (hr.1 d hd).1, (hr.1 d hd).2⟩, fun hn => ?_⟩
        obtain ⟨h3, h4, h5⟩ := hr.2 hn
        refine ⟨fun d hd => (List.mem_append.mp hd).elim (hfree d) (h3 d), fun d hd => ?_, fun h => ?_⟩
        · rcases h4 d hd with hi | ⟨hi, hv⟩
          · exact (hinv d hi).imp_right fun h => ⟨List.mem_append_left _ h.1, h.2⟩
          · exact Or.inr ⟨List.mem_append_right _ hi, hv⟩
        · obtain ⟨hi, hv⟩ := h5 h
          obtain ⟨hi', hv'⟩ := hval hi
          exact ⟨hi', fun d hd => (List.mem_append.mp hd).elim (hv' d) (hv d)⟩
    · rw [he] at hs
      exact ⟨fun d hd => ⟨List.mem_append_left _ (hs.1 d hd).1, (hs.1 d hd).2⟩, nofun⟩

/-- A directory is extended by a block that could be used again. -/
theorem extendDirectory_spec (v : Volume L) (directory : Nat) :
    Meets (fun r => v.Grew r.2 ∧ ∀ d, r.1 = some d → ∃ b < 2 ^ 16, d = L.getBlock b ∧ L.Reusable v.flash b) AnyFault
      (v.extendDirectory directory) := by
  unfold extendDirectory
  refine (getFreeBlock_spec v).bind fun r hr => ?_
  dsimp only
  split
  · exact ⟨hr.1, nofun⟩
  · rename_i hne
    refine (meets_fault fun _ _ => trivial : Meets (fun _ => True) _ _).bind fun last _ => ?_
    exact ⟨hr.1, fun d hd => by cases hd; exact ⟨r.1, (hr.2 hne).1, rfl, (hr.2 hne).2⟩⟩

/-- The entry chosen is one that `Chosen` allows. -/
theorem chooseEntry_spec (v : Volume L) (directory : Nat) :
    Meets (fun r => v.Grew r.2 ∧ ∀ d, r.1 = some d → L.Chosen v.flash directory d) AnyFault
      (v.chooseEntry directory) := by
  unfold chooseEntry
  refine (scanDirectory_spec v blockNumbers (firstBlockAt v.flash directory) none).bind fun r hr => ?_
  rcases r with ⟨_ | empty, _ | invalid⟩
  · obtain ⟨hfree, -, hvalid⟩ := hr.2 rfl
    refine (extendDirectory_spec v directory).imp fun r hr => ⟨hr.1, fun d hd => ?_⟩
    obtain ⟨b, hlt, hb, hre⟩ := hr.2 d hd
    exact .extended (fun e he => ⟨hfree e he, (hvalid rfl).2 e he⟩) b hlt hb hre
  · obtain ⟨hfree, hinv, -⟩ := hr.2 rfl
    refine (recycleBlock_grew v _ .DIRECTORY).bind fun w hw => ⟨hw, fun d hd => ?_⟩
    cases hd
    obtain ⟨hm, hi⟩ := (hinv invalid rfl).resolve_left nofun
    exact .invalid hfree hm hi
  · exact ⟨Grew.refl v, fun d hd => by cases hd; exact .free (hr.1 _ rfl).1 (hr.1 _ rfl).2⟩
  · exact ⟨Grew.refl v, fun d hd => by cases hd; exact .free (hr.1 _ rfl).1 (hr.1 _ rfl).2⟩

/-- A directory entry that is made is recorded, and was chosen as it should. -/
theorem createDirectoryEntry_spec (v : Volume L) (directory : Nat) :
    Meets (fun r => v.Grew r.2 ∧ ∀ d, r.1 = some d → FSEvent.entry d directory v.flash ∈
      r.2.history.drop v.history.length) AnyFault (v.createDirectoryEntry directory) := by
  unfold createDirectoryEntry
  refine (chooseEntry_spec v directory).bind fun r hr => ?_
  rcases r with ⟨_ | dirent, w⟩
  · exact ⟨hr.1, nofun⟩
  · have hg := hr.1.trans (grew_note w (e := .entry dirent directory v.flash) (hr.2 dirent rfl))
    refine ⟨hg, fun d hd => ?_⟩
    cases hd
    obtain ⟨es, he, -⟩ := hr.1
    have hw : (w.note (.entry dirent directory v.flash)).history =
        v.history ++ (es ++ [.entry dirent directory v.flash]) := by
      rw [← List.append_assoc, ← he]
      rfl
    dsimp only
    rw [hw, List.drop_left]
    simp

/-- Growing keeps what was recorded. -/
theorem Grew.mem_drop {u v w : Volume L} (h : u.Grew v) (h' : v.Grew w) {e : FSEvent}
    (he : e ∈ v.history.drop u.history.length) : e ∈ w.history.drop u.history.length := by
  obtain ⟨es, hv, -⟩ := h
  obtain ⟨es', hw, -⟩ := h'
  rw [hw, List.drop_append_of_le_length (by rw [hv, List.length_append]; omega)]
  exact List.mem_append_left _ he

/-- A file that is created has its entry in the record. -/
theorem createFile_spec (v : Volume L) (filename : List UInt8) (directory : Nat) (isDirectory : Bool) :
    Meets (fun r => v.Grew r.2 ∧ ∀ d, r.1 = some d → FSEvent.entry d directory v.flash ∈
      r.2.history.drop v.history.length) AnyFault (v.createFile filename directory isDirectory) := by
  unfold createFile
  refine (createDirectoryEntry_spec v directory).bind fun r hr => ?_
  rcases r with ⟨_ | dirent, w⟩
  · exact ⟨hr.1, nofun⟩
  · refine (getFreeBlock_spec w).bind fun r' hr' => ?_
    dsimp only
    split
    · exact ⟨hr.1.trans hr'.1, nofun⟩
    · split
      · trivial
      · have hg : w.Grew _ := hr'.1
        refine ⟨(hr.1.trans hg).trans (Grew.of_history rfl), fun d hd => ?_⟩
        cases hd
        exact hr.1.mem_drop hg (hr.2 dirent rfl)

end Volume

/-! ## Data -/

/-- The same file is open: an operation moved in it, or made it longer. -/
structure FileDescriptor.Same (file file' : FileDescriptor) : Prop where
  id : file'.id = file.id
  dirent : file'.dirent = file.dirent
  directory : file'.directory = file.directory

theorem FileDescriptor.Same.refl (file : FileDescriptor) : file.Same file := ⟨rfl, rfl, rfl⟩

theorem FileDescriptor.Same.trans {f g h : FileDescriptor} (h₁ : f.Same g) (h₂ : g.Same h) : f.Same h :=
  ⟨h₂.id.trans h₁.id, h₂.dirent.trans h₁.dirent, h₂.directory.trans h₁.directory⟩

namespace Volume

variable {L : Layout}

/-- `writeSegment` only adds right events. -/
theorem writeSegment_grew (v : Volume L) (address : Nat) (bytes : List UInt8) (overwrite : Bool) :
    Meets (fun w => v.Grew w) AnyFault (v.writeSegment address bytes overwrite) := by
  unfold writeSegment
  by_cases hb : bytes = []
  · rw [if_pos hb]
    exact Grew.refl v
  · rw [if_neg hb]
    cases overwrite with
    | false => exact (grew_note v (by exact trivial)).trans (Grew.of_history rfl)
    | true =>
      refine (getFreePage_grew v).bind fun r hr => ?_
      exact (hr.trans (grew_note _ (by exact trivial))).trans (Grew.of_history rfl)

/-- `writeBuffer`'s loop only adds right events. -/
theorem writeLoop_grew (fuel : Nat) : ∀ (v : Volume L) (length position block offset : Nat) (buffer : List UInt8),
    Meets (fun r => v.Grew r.2) AnyFault (v.writeLoop length position block offset buffer fuel) := by
  induction fuel with
  | zero => exact fun _ _ _ _ _ _ => trivial
  | succ fuel ih =>
    intro v length position block offset buffer
    unfold writeLoop
    by_cases hb : buffer = []
    · rw [if_pos hb]
      exact Grew.refl v
    · rw [if_neg hb]
      refine (writeSegment_grew v _ _ _).bind fun w hw => ?_
      dsimp only
      split
      · refine (getFreeBlock_spec w).bind fun r hr => ?_
        split
        · exact hw.trans hr.1
        · exact (ih _ _ _ _ _ _).bind fun r' hr' => (hw.trans hr.1).trans ((Grew.of_history rfl).trans hr')
      · exact (ih _ _ _ _ _ _).bind fun r' hr' => hw.trans hr'

/-- `writeBuffer` only adds right events and leaves the file the same. -/
theorem writeBuffer_grew (v : Volume L) (file : FileDescriptor) (buffer : List UInt8) :
    Meets (fun r => file.Same r.2.1 ∧ v.Grew r.2.2) AnyFault (v.writeBuffer file buffer) := by
  unfold writeBuffer
  exact (writeLoop_grew _ v _ _ _ _ _).bind fun r hr => ⟨⟨rfl, rfl, rfl⟩, hr⟩

/-- `writeBack` only adds right events and leaves the file the same. -/
theorem writeBack_grew (v : Volume L) (file : FileDescriptor) :
    Meets (fun r => file.Same r.1 ∧ v.Grew r.2) AnyFault (v.writeBack file) := by
  unfold writeBack
  split
  · exact ⟨.refl file, Grew.refl v⟩
  · exact (writeBuffer_grew v file _).bind fun r hr => ⟨⟨hr.1.id, hr.1.dirent, hr.1.directory⟩, hr.2⟩

/-- The loop over the write cache only adds right events and leaves the file the same. -/
theorem writeCached_grew (buffer : List UInt8) (fuel : Nat) : ∀ (v : Volume L) (file : FileDescriptor) (n : Nat),
    Meets (fun r => file.Same r.2.1 ∧ v.Grew r.2.2) AnyFault (v.writeCached file buffer n fuel) := by
  induction fuel with
  | zero => exact fun _ _ _ => trivial
  | succ fuel ih =>
    intro v file n
    unfold writeCached
    by_cases hn : n < buffer.length
    · rw [if_pos hn]
      dsimp only
      split
      · refine (writeBack_grew v _).bind fun r hr => ?_
        refine (ih r.2 r.1 _).imp fun r' hr' => ⟨?_, hr.2.trans hr'.2⟩
        exact (show file.Same r.1 from ⟨hr.1.id, hr.1.dirent, hr.1.directory⟩).trans hr'.1
      · refine (ih v _ _).imp fun r' hr' => ⟨?_, hr'.2⟩
        exact ⟨hr'.1.id, hr'.1.dirent, hr'.1.directory⟩
    · rw [if_neg hn]
      exact ⟨.refl file, Grew.refl v⟩

/-- `write` only adds right events and leaves the file the same. -/
theorem write_grew (v : Volume L) (file : FileDescriptor) (buffer : List UInt8) :
    Meets (fun r => file.Same r.2.1 ∧ v.Grew r.2.2) AnyFault (v.write file buffer) := by
  unfold write
  split
  · exact writeCached_grew buffer _ v file 0
  · refine (writeBack_grew v file).bind fun r hr => ?_
    exact (writeBuffer_grew r.2 r.1 buffer).imp fun r' hr' => ⟨hr.1.trans hr'.1, hr.2.trans hr'.2⟩

/-- `flush` only adds right events and leaves the file the same. -/
theorem flush_grew (v : Volume L) (file : FileDescriptor) :
    Meets (fun r => file.Same r.1 ∧ v.Grew r.2) AnyFault (v.flush file) := by
  unfold flush
  refine (writeBack_grew v file).bind fun r hr => ?_
  dsimp only
  split
  · split
    · exact ⟨hr.1, hr.2.trans (Grew.of_history rfl)⟩
    · refine (createDirectoryEntry_spec _ _).bind fun r' hr' => ⟨hr.1, ?_⟩
      exact (hr.2.trans (Grew.of_history rfl)).trans (hr'.1.trans (Grew.of_history rfl))
  · exact hr

/-- `seek` only adds right events and leaves the file the same. -/
theorem seek_grew (v : Volume L) (file : FileDescriptor) (offset : Int) (flags : Nat) :
    Meets (fun r => file.Same r.2.1 ∧ v.Grew r.2.2) AnyFault (v.seek file offset flags) := by
  unfold seek
  refine (writeBack_grew v file).bind fun r hr => ?_
  dsimp only
  generalize (if flags = MB_SEEK_SET then offset else _ : Int) = position
  split
  · exact hr
  · exact ⟨⟨hr.1.id, hr.1.dirent, hr.1.directory⟩, hr.2⟩

/-- `read` only adds right events and leaves the file the same. -/
theorem read_grew (v : Volume L) (file : FileDescriptor) (size : Nat) :
    Meets (fun r => file.Same r.2.1 ∧ v.Grew r.2.2) AnyFault (v.read file size) := by
  unfold read
  exact (writeBack_grew v file).bind fun r hr => ⟨⟨hr.1.id, hr.1.dirent, hr.1.directory⟩, hr.2⟩

/-- Deleting a file's blocks only adds right events. -/
theorem deleteChain_grew (fuel : Nat) : ∀ (v : Volume L) (block : Nat),
    Meets (fun w => v.Grew w) AnyFault (v.deleteChain block fuel) := by
  induction fuel with
  | zero => exact fun _ _ => trivial
  | succ fuel ih =>
    intro v block
    unfold deleteChain
    split
    · exact Grew.refl v
    · exact (ih _ _).imp fun w hw => (Grew.of_history rfl).trans hw

end Volume

end CodalMicrobit
