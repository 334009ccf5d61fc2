import CodalMicrobit.Lemmas.Format

/-!
# What a log records

Every part of an operation adds to the record of a log and takes nothing back, and the flash is what the operations in the
record make of it. Most of what is added only says what was written and erased; the other entries mark the points at which
a text is appended, a list of headings is stored, or a log that was found is loaded.
-/

namespace CodalMicrobit

open Nor Outcome

/-- The flash operations that an entry of the record tells of. -/
def LogEvent.ops {g : Geometry} : LogEvent g → List Op
  | .wrote _ ops => ops
  | _ => []

namespace Log

variable {g : Geometry}

/-- The record and the flash of `t` are those of `s`. -/
structure SameRecord (s t : Log g) : Prop where
  history : t.history = s.history
  flash : t.cache.flash = s.cache.flash

theorem SameRecord.refl (s : Log g) : SameRecord s s := ⟨rfl, rfl⟩

theorem SameRecord.trans {s t u : Log g} (h : SameRecord s t) (h' : SameRecord t u) : SameRecord s u :=
  ⟨h'.history.trans h.history, h'.flash.trans h.flash⟩

/-- The record of `t` is that of `s` with more entries, of each of which `P` holds, and the flash of `t` is that of `s`
after the operations they tell of. -/
def Adds (P : LogEvent g → Prop) (s t : Log g) : Prop :=
  ∃ es, t.history = s.history ++ es ∧ s.cache.flash.After (es.flatMap LogEvent.ops) t.cache.flash ∧ ∀ e ∈ es, P e

/-- The entry only says what was written or erased. -/
def Quiet : LogEvent g → Prop
  | .wrote _ _ => True
  | .erased _ _ => True
  | _ => False

/-- A record left alone has added nothing. -/
theorem SameRecord.adds {P : LogEvent g → Prop} {s t : Log g} (h : SameRecord s t) : Adds P s t :=
  ⟨[], by rw [h.history, List.append_nil], h.flash ▸ Flash.After.refl _, List.forall_mem_nil _⟩

theorem Adds.refl {P : LogEvent g → Prop} (s : Log g) : Adds P s s := (SameRecord.refl s).adds

theorem Adds.trans {P : LogEvent g → Prop} {s t u : Log g} (h : Adds P s t) (h' : Adds P t u) : Adds P s u := by
  obtain ⟨es, he, hf, hp⟩ := h
  obtain ⟨es', he', hf', hp'⟩ := h'
  refine ⟨es ++ es', by rw [he', he, List.append_assoc], ?_, fun e hm => ?_⟩
  · rw [List.flatMap_append]
    exact hf.trans hf'
  · rcases List.mem_append.mp hm with hm | hm
    · exact hp e hm
    · exact hp' e hm

/-- Events of one kind are events of a wider kind. -/
theorem Adds.mono {P Q : LogEvent g → Prop} {s t : Log g} (h : Adds P s t) (hpq : ∀ e, P e → Q e) : Adds Q s t := by
  obtain ⟨es, he, hf, hp⟩ := h
  exact ⟨es, he, hf, fun e hm => hpq e (hp e hm)⟩

/-- An entry that tells of no operation. -/
theorem adds_note {P : LogEvent g → Prop} (s : Log g) {e : LogEvent g} (h : P e) (hops : e.ops = []) :
    Adds P s (s.note e) := by
  refine ⟨[e], rfl, ?_, fun _ hm => List.mem_singleton.mp hm ▸ h⟩
  rw [List.flatMap_singleton, hops]
  exact Flash.After.refl _

/-- A new cache state whose flash was programmed adds a quiet event. -/
theorem adds_setCache (s : Log g) (w : Writer) {c : FSCache g CONFIG_MICROBIT_LOG_CACHE_BLOCK_SIZE 4}
    (h : ∃ ops, s.cache.flash.After ops c.flash) : Adds Quiet s (s.setCache w c) := by
  obtain ⟨ops, h⟩ := h
  refine ⟨[.wrote w ops], setCache_history h, ?_, fun _ hm => List.mem_singleton.mp hm ▸ trivial⟩
  rw [List.flatMap_singleton]
  exact h

/-- Erasing a page adds a quiet event. -/
theorem adds_erasePage (s : Log g) (w : Writer) (page : Nat) : Adds Quiet s (s.erasePage w page) :=
  (adds_setCache s w (Flash.erase_after _ page)).trans (adds_note _ (by exact trivial) rfl)

/-- What was recorded stays recorded. -/
theorem Adds.mem {P : LogEvent g → Prop} {s t : Log g} (h : Adds P s t) {e : LogEvent g} (he : e ∈ s.history) :
    e ∈ t.history := by
  obtain ⟨es, hh, -⟩ := h
  rw [hh]
  exact List.mem_append_left _ he

/-! ## Loading -/

/-- Reading through the cache notes nothing. -/
theorem cacheRead_record (s : Log g) (a : Nat) (b : List UInt8) : SameRecord s (s.cacheRead a b).2 := by
  have hf := FSCache.read_flash s.cache a b.length
  unfold cacheRead
  split
  · rename_i heq
    rw [heq] at hf
    exact ⟨rfl, hf⟩
  · rename_i heq
    rw [heq] at hf
    exact ⟨rfl, hf⟩

/-- Loading the journal notes nothing. -/
theorem loadJournal_record (fuel : Nat) : ∀ (s : Log g) (a : Nat) (j : List UInt8) (valid : Bool),
    SameRecord s (s.loadJournal a j valid fuel) := by
  induction fuel with
  | zero => exact fun s _ _ _ => .refl s
  | succ fuel ih =>
    intro s a j valid
    have hread := cacheRead_record s a j
    unfold loadJournal
    dsimp only
    split
    · split
      · exact hread
      · split
        · refine SameRecord.trans ?_ (ih _ _ _ _)
          exact ⟨hread.history, hread.flash⟩
        · exact hread.trans (ih _ _ _ _)
    · exact .refl s

/-- Looking for the end of the data notes nothing. -/
theorem walkData_record (fuel : Nat) : ∀ (s : Log g) (d : UInt8), SameRecord s (s.walkData d fuel) := by
  induction fuel with
  | zero => exact fun s _ => .refl s
  | succ fuel ih =>
    intro s d
    have hread := cacheRead_record s s.dataEnd [d]
    unfold walkData
    dsimp only
    split
    · split
      · exact hread
      · refine SameRecord.trans ?_ (ih _ _)
        exact ⟨hread.history, hread.flash⟩
    · exact .refl s

/-- `loadDataEnd` notes nothing. -/
theorem loadDataEnd_record (s : Log g) : SameRecord s s.loadDataEnd := by
  unfold loadDataEnd
  refine SameRecord.trans ?_ (walkData_record _ _ _)
  refine SameRecord.trans ?_ (loadJournal_record _ _ _ _ _)
  exact ⟨rfl, rfl⟩

/-- Scanning for a delimiter notes nothing. -/
theorem scan_record (stop : UInt8 → Bool) (fuel : Nat) : ∀ (s : Log g) (a : Nat) (c : UInt8),
    Meets (fun r => SameRecord s r.2.2) (fun _ => True) (s.scan stop a c fuel) := by
  induction fuel with
  | zero => exact fun _ _ _ => trivial
  | succ fuel ih =>
    intro s a c
    have hread := cacheRead_record s a [c]
    unfold scan
    dsimp only
    split
    · exact hread
    · exact (ih _ _ _).imp fun r hr => hread.trans hr

/-- Looking for the end of a heading notes nothing. -/
theorem headingEnd_record (s : Log g) (a : Nat) (c : UInt8) :
    Meets (fun r => SameRecord s r.2) (fun _ => True) (s.headingEnd a c) := by
  unfold headingEnd
  split
  · exact .refl s
  · exact (scan_record _ _ s _ _).bind fun r hr => hr

/-- Parsing the headings notes nothing. -/
theorem parseHeadings_record (s : Log g) (a l : Nat) : SameRecord s (s.parseHeadings a l) := by
  have hread := cacheRead_record { s with headingLength := l } a (List.replicate l 0)
  unfold parseHeadings
  dsimp only
  split
  · exact ⟨hread.history, hread.flash⟩
  · exact ⟨rfl, rfl⟩

/-- Loading the headings notes nothing. -/
theorem loadHeadings_record (s : Log g) : Meets (SameRecord s) (fun _ => True) s.loadHeadings := by
  unfold loadHeadings
  refine (scan_record _ _ s _ _).bind fun r hr => ?_
  refine (headingEnd_record r.2.2 r.1 r.2.1).bind fun r' hr' => ?_
  exact hr.trans (hr'.trans (parseHeadings_record r'.2 r.1 _))

/-- Loading a log records it first. -/
theorem load_record (s : Log g) : Meets (SameRecord (s.note (.loading s.toLogState))) (fun _ => True) s.load := by
  unfold load
  refine (loadHeadings_record _).bind fun t ht => ?_
  exact (loadDataEnd_record _).trans (ht.trans ⟨rfl, rfl⟩)

/-- `isPresent` notes nothing. -/
theorem isPresent_record (s : Log g) : SameRecord s s.isPresent.2 := by
  unfold isPresent
  split
  · exact .refl s
  · exact ⟨rfl, rfl⟩

/-! ## Formatting -/

/-- Erasing the storage adds quiet events only. -/
theorem eraseStorage_adds (s : Log g) (fullErase : Bool) : Adds Quiet s (s.eraseStorage fullErase) := by
  unfold eraseStorage
  dsimp only
  have hpages : ∀ (pages : List Nat) (t : Log g), Adds Quiet t
      (pages.foldl (fun s i => s.erasePage .format (g.getFlashStart + i * g.getPageSize)) t) := by
    intro pages
    induction pages with
    | nil => exact .refl
    | cons i pages ih => exact fun t => (adds_erasePage t .format _).trans (ih _)
  exact Adds.trans (adds_setCache s .format (c := { s.cache.clear with
    flash := s.cache.flash.write s.logEnd (fun _ => 0) 1 }) (Flash.write_after _ _ _ _)) (hpages _ _)

/-- Writing the header adds quiet events only. -/
theorem writeStorage_adds (s : Log g) : Adds Quiet s s.writeStorage :=
  adds_setCache s .format (Flash.After.exists_trans (Flash.write_after s.cache.flash _ _ _)
    (Flash.After.exists_trans (FSCache.write_after _ _ _) (FSCache.write_after _ _ _)))

/-- `format` adds quiet events only. -/
theorem format_adds (s : Log g) (fullErase : Bool) : Adds Quiet s (s.format fullErase) := by
  obtain ⟨s₁, hs₁⟩ : ∃ s₁ : Log g, s₁ = { s with
    startAddress := g.logStart, journalStart := g.journalStart, dataStart := g.dataStart, logEnd := g.logEnd
    journalPages := CONFIG_MICROBIT_LOG_JOURNAL_PAGES, journalHead := g.journalStart, dataEnd := g.dataStart
    initialized := false, rowStarted := false, full := false
    headingsChanged := false, headingStart := 0, headingLength := 0, rowData := []
    metaData := newMetaData g.logEnd g.dataStart } := ⟨_, rfl⟩
  have h₁ : SameRecord s s₁ := by rw [hs₁]; exact ⟨rfl, rfl⟩
  have h₂ : SameRecord (s₁.eraseStorage fullErase).writeStorage (s.format fullErase) := by rw [hs₁]; exact ⟨rfl, rfl⟩
  exact h₁.adds.trans (((eraseStorage_adds s₁ fullErase).trans (writeStorage_adds _)).trans h₂.adds)

/-- `clear` adds quiet events only. -/
theorem clear_adds (s : Log g) (fullErase : Bool) : Meets (Adds Quiet s) (fun _ => True) (s.clear fullErase) := by
  unfold clear wait
  split
  · trivial
  · obtain ⟨t, ht⟩ : ∃ t, t = ({ s with mutex := true } : Log g).format fullErase := ⟨_, rfl⟩
    have hstamp : SameRecord t (t.applyTimeStamp t.timeStampFormat).notify :=
      ⟨applyTimeStamp_history _ _, congrArg FSCache.flash (applyTimeStamp_ramOnly t _).cache⟩
    rw [ht] at hstamp
    exact (format_adds { s with mutex := true } fullErase).trans hstamp.adds

/-- `invalidate` adds quiet events only. -/
theorem invalidate_adds (s : Log g) : Adds Quiet s s.invalidate := by
  have h := isPresent_record s
  unfold invalidate
  split
  · rename_i t ht
    rw [ht] at h
    refine Adds.trans h.adds ((adds_setCache t .invalidation ?_).trans (SameRecord.adds ⟨rfl, rfl⟩))
    exact Flash.After.exists_trans (Flash.write_after t.cache.flash _ _ _) (Flash.write_after _ _ _ _)
  · rename_i t ht
    rw [ht] at h
    exact (h.trans ⟨rfl, rfl⟩).adds

/-! ## Appending -/

/-- Writing text adds quiet events only. -/
theorem writeData_adds (fuel : Nat) : ∀ (s : Log g) (data : List UInt8),
    Meets (Adds Quiet s) (fun _ => True) (s.writeData data fuel) := by
  induction fuel with
  | zero =>
    intro s data
    unfold writeData
    split
    · exact .refl s
    · trivial
  | succ fuel ih =>
    intro s data
    unfold writeData
    split
    · exact .refl s
    · refine (ih (s.writeTurn data) _).imp fun t ht => Adds.trans ?_ ht
      have herase : Adds Quiet s (s.eraseNextPage data.length) := by
        unfold eraseNextPage
        split
        · exact adds_erasePage s .data _
        · exact .refl s
      exact herase.trans ((adds_setCache _ .data (FSCache.write_after _ _ _)).trans (SameRecord.adds ⟨rfl, rfl⟩))

/-- Writing a journal entry adds quiet events only. -/
theorem writeEntry_adds (s : Log g) (a : Nat) (entry : List UInt8) : Adds Quiet s (s.writeEntry a entry) :=
  adds_setCache s .journal (FSCache.write_after _ _ _)

/-- Writing the journal adds quiet events only. -/
theorem writeJournal_adds (s : Log g) : Adds Quiet s s.writeJournal := by
  have herase : ∀ (t : Log g) (page : Nat), SameRecord s t →
      Adds Quiet s (({ t with cache := t.cache.erase page } : Log g).erasePage .journal page) := by
    intro t page ht
    have h : SameRecord t { t with cache := t.cache.erase page } := ⟨rfl, FSCache.erase_flash _ _⟩
    exact (ht.trans h).adds.trans (adds_erasePage _ .journal page)
  have hadvance : Adds Quiet s s.advanceJournal := by
    unfold advanceJournal
    dsimp only
    split
    · split
      · exact herase _ _ ⟨rfl, rfl⟩
      · exact herase _ _ ⟨rfl, rfl⟩
    · exact SameRecord.adds ⟨rfl, rfl⟩
  exact hadvance.trans ((writeEntry_adds _ _ _).trans (writeEntry_adds _ _ _))

/-- Refusing a text adds quiet events only. -/
theorem refuse_adds (s : Log g) : Adds Quiet s s.refuse := by
  unfold refuse
  split
  · exact .refl s
  · exact (adds_setCache s .marker (FSCache.write_after _ _ _)).trans (SameRecord.adds ⟨rfl, rfl⟩)

/-- Storing a text adds quiet events only; the text itself is noted by its caller. -/
theorem accept_adds (s : Log g) (data : List UInt8) : Meets (Adds Quiet s) (fun _ => True) (s.accept data) := by
  have hmirror : SameRecord s (s.mirror (cleaned data false)) := by
    unfold mirror
    split
    · exact ⟨rfl, rfl⟩
    · exact .refl s
  unfold accept
  refine (writeData_adds _ _ _).bind fun t ht => ?_
  have hst : Adds Quiet s t := hmirror.adds.trans ht
  rw [meets_ok]
  split
  · exact hst.trans (writeJournal_adds t)
  · exact hst

/-- Appending a text records the text first. -/
theorem appendText_adds (s : Log g) (data : List UInt8) :
    Meets (fun r => Adds Quiet (s.note (.logging s.toLogState data)) r.2) (fun _ => True) (s.appendText data) := by
  unfold appendText
  dsimp only
  split
  · exact (refuse_adds _).trans (SameRecord.adds ⟨rfl, rfl⟩)
  · exact (accept_adds _ data).bind fun t ht => ht.trans (SameRecord.adds ⟨rfl, rfl⟩)

/-- Storing headings records them first. -/
theorem storeHeadings_adds (s : Log g) (h : ManagedString) :
    Adds Quiet (s.note (.storing s.toLogState h)) (s.storeHeadings h) := by
  have hwrites : ∀ (t : Log g) (a b : Nat) (u v : List UInt8), SameRecord (s.note (.storing s.toLogState h)) t →
      Adds Quiet (s.note (.storing s.toLogState h)) (({ t.setCache .heading (t.cache.write a u).2 with
        headingStart := b } : Log g).setCache .heading ((t.cache.write a u).2.write b v).2) :=
    fun t a b u v ht => ht.adds.trans ((adds_setCache t .heading (FSCache.write_after _ _ _)).trans
      ((SameRecord.adds ⟨rfl, rfl⟩).trans (adds_setCache _ .heading (FSCache.write_after _ _ _))))
  unfold storeHeadings
  dsimp only
  split
  · exact hwrites _ _ _ _ _ ⟨rfl, rfl⟩
  · exact hwrites _ _ _ _ _ (.refl _)

end Log

end CodalMicrobit
