import CodalMicrobit.Lemmas.TableRun

/-!
# The end of the comment

The text of a log and its headings lie in an HTML comment, which `-->` would end. Each text is cleaned on its own, so what
is stored has these symbols only where one text ends with a part of them and the next one goes on with the rest.
-/

namespace CodalMicrobit

open Nor Outcome FSCache

namespace Log

variable {g : Geometry}

/-- The place for the headings, behind the metadata in its page. -/
def headingText (s : LogState g) : List UInt8 :=
  slice s.mem (s.startAddress + metaDataSize) (s.journalStart - (s.startAddress + metaDataSize))

/-- What is recorded keeps the texts apart: an appended text does not complete the symbols at the end of the data, and
enters no page of which the cache holds stale bytes; a list of headings fits into its page. -/
def KeepsApart : LogEvent g → Prop
  | .logging before text => Accepted before text →
      FreshPages before text.length ∧ ¬Joins (dataText before) (cleaned text false)
  | .storing before h => HeadingFits before h
  | _ => True

instance : DecidablePred (KeepsApart (g := g)) := fun e =>
  match e with
  | .logging _ _ => inferInstanceAs (Decidable (_ → _ ∧ ¬_))
  | .storing _ _ => inferInstanceAs (Decidable (HeadingFits _ _))
  | .wrote _ _ | .erased _ _ | .loading _ => isTrue trivial

/-- A log whose texts do not end the comment. -/
structure Contained (s : Log g) : Prop where
  onePlace : s.OnePlace
  text : ∃ text, s.Stored text ∧ NoCommentEnd text
  headings : NoCommentEnd (headingText s.toLogState)

/-- The text of the headings is the slice of the flash in front of the journal. -/
theorem headingText_eq {s : Log g} (hp : s.Placed) : headingText s.toLogState =
    slice s.mem (g.logStart + metaDataSize) (g.journalStart - (g.logStart + metaDataSize)) := by
  unfold headingText
  rw [hp.startAddress, hp.journalStart]

/-- A change in RAM only leaves the comment unended. -/
theorem Contained.ramOnly {s t : Log g} (h : s.Contained) (hr : RamOnly s t) (hm : t.mutex = false) : t.Contained := by
  obtain ⟨text, hst, hn⟩ := h.text
  refine ⟨h.onePlace.ramOnly hr hm, ⟨text, hr.stored hst, hn⟩, ?_⟩
  rw [hr]
  exact h.headings

/-- A text that keeps apart does not end the comment. -/
theorem Contained.logString (hg : g.Fits) {s t : Log g} (h : s.Contained) {str : List UInt8} {code : ErrorCode}
    (ht : s.logString str = .ok (code, t)) (hc : KeepsApart (.logging { s.toLogState with mutex := true } (cString str))) :
    t.Contained := by
  have hjs := g.journalStart_eq
  have hps : 256 ≤ g.getPageSize := hg.block_le_page
  have h40 : metaDataSize = 40 := rfl
  obtain ⟨text, hst, hn⟩ := h.text
  have hready := h.onePlace.ready
  have hp := hready.placed
  have hroom : s.dataEnd + (cString str).length ≤ s.logEnd → Accepted { s.toLogState with mutex := true } (cString str) := by
    intro hle
    change (cString str).length ≤ u32sub s.logEnd s.dataEnd
    rw [u32sub_of_le (by omega)]
    omega
  have hst' := logString_stored hg hready hst (fun hle => (hc (hroom hle)).1) ht
  obtain ⟨hone, hmem⟩ := h.onePlace.logString hg ht
  refine ⟨hone, ⟨_, hst', ?_⟩, ?_⟩
  · split
    · rename_i hok
      refine noCommentEnd_append hn (by rw [cleaned_eq]; exact noCommentEnd_sanitised _ _) ?_
      rw [← dataText_of_stored hp hst]
      obtain ⟨_, _, ht₂, -, hcases⟩ := logString_members hg hready str
      obtain ⟨rfl, rfl⟩ := Prod.mk.inj (Except.ok.inj (ht.symm.trans ht₂))
      rcases hcases with ⟨-, hle, -⟩ | ⟨hno, -⟩
      · exact (hc (hroom (by rw [hp.logEnd]; exact hle))).2
      · rw [hok] at hno
        nomatch hno
    · rw [List.append_nil]
      exact hn
  · have hsame := slice_congr (a := g.logStart + metaDataSize) (n := g.journalStart - (g.logStart + metaDataSize))
      fun x _ hx => hmem x (by omega)
    rw [headingText_eq hone.ready.placed, hsame, ← headingText_eq hp]
    exact h.headings

/-- Overwriting the start of a text with a line leaves it without the symbols: the line ends with a newline. -/
theorem noCommentEnd_line {fields : List ManagedString} (hf : ∀ f ∈ fields, IsCell f) {rest : List UInt8}
    (hr : NoCommentEnd rest) : NoCommentEnd (csvLine fields ++ rest) := by
  rw [csvLine_eq, List.append_assoc]
  exact noCommentEnd_separated (by decide) (noCommentEnd_intercalate hf) hr

/-- The rest of a text does not end the comment either. -/
theorem noCommentEnd_drop {s : List UInt8} (h : NoCommentEnd s) (n : Nat) : NoCommentEnd (s.drop n) := by
  rintro i ⟨h1, h2, h3⟩
  rw [List.getElem?_drop] at h1 h2 h3
  exact h (n + i) ⟨h1, h2, h3⟩

/-- Headings that keep apart do not end the comment. -/
theorem Contained.storeHeadings (hg : g.Fits) {s : Log g} (h : s.Contained) {fields : List ManagedString}
    (hf : ∀ f ∈ fields, IsCell f) (hc : KeepsApart (.storing s.toLogState (csvLine fields))) :
    (s.storeHeadings (csvLine fields)).Contained := by
  obtain ⟨text, hst, hn⟩ := h.text
  have hp := h.onePlace.ready.placed
  obtain ⟨t, ht⟩ : ∃ t, t = s.storeHeadings (csvLine fields) := ⟨_, rfl⟩
  obtain ⟨hone, ⟨ops, hh⟩, hfit, hcases⟩ := h.onePlace.storeHeadings hg ht hc
  rw [← ht]
  refine ⟨hone, ⟨text, hh.stored hg h.onePlace.le_headingAt hst, hn⟩, ?_⟩
  -- the new list lies over the start of the place for the headings, or nothing was written
  have hold := h.headings
  rw [headingText_eq hp] at hold
  rw [headingText_eq hone.ready.placed]
  rcases hcases with heq | ⟨-, heq⟩
  · rw [heq, slice_put_start s.mem (by omega)]
    exact noCommentEnd_line hf (noCommentEnd_drop hold _)
  · rw [heq]
    exact hold

/-- No step ends the comment. -/
theorem contained_kept (hg : g.Fits) : Kept (g := g) KeepsApart Contained :=
  ⟨fun h hr hm _ => h.ramOnly hr hm, fun h hf _ hc => h.storeHeadings hg hf hc, fun h ht hc => h.logString hg ht hc⟩

/-- A fresh log holds no text, and its place for the headings is erased. -/
theorem Fresh.contained (hg : g.Fits) {s : Log g} (h : s.Fresh) (hm : s.mutex = false) : s.Contained := by
  have hjs := g.journalStart_eq
  have hps : 256 ≤ g.getPageSize := hg.block_le_page
  have h40 : metaDataSize = 40 := rfl
  refine ⟨h.onePlace hm, ⟨[], h.stored hg, noCommentEnd_nil⟩, ?_⟩
  rw [headingText_eq h.placed]
  rintro i ⟨h1, -, -⟩
  obtain ⟨hi, hb⟩ := List.getElem?_eq_some_iff.mp h1
  rw [slice_length] at hi
  rw [slice_getElem, h.headings _ (Nat.le_add_right _ _) (by omega)] at hb
  exact absurd hb (by decide)

/-- The end of the comment. After a `clear`, calls that collect and end rows and append texts return; and if nothing that
was recorded completes the symbols `-->`, enters a stale page or overflows the place for the headings, these symbols
stand neither in the data nor in the place for the headings. -/
theorem comment_contained (hg : g.Fits) (s₀ : Log g) (hm : s₀.mutex = false) (fullErase : Bool) (calls : List LogOp)
    (hcalls : ∀ op ∈ calls, TextCall op) :
    ∃ s t, s₀.clear fullErase = .ok s ∧ s.run calls = .ok t ∧
      ((∀ e ∈ t.history.drop s.history.length, KeepsApart e) →
        NoCommentEnd (dataText t.toLogState) ∧ NoCommentEnd (headingText t.toLogState)) := by
  obtain ⟨s, hs, hfresh, hmu, -⟩ := clear_fresh hg hm fullErase
  obtain ⟨s', hs', htab, ho⟩ := clear_tabled hm fullErase
  obtain rfl : s = s' := Except.ok.inj (hs.symm.trans hs')
  obtain ⟨t, ht, -, es, hes, -, hkeep⟩ := (contained_kept hg).run_moves hg.pos calls ⟨htab, [], Or.inl ⟨ho, rfl⟩⟩ hcalls
  refine ⟨s, t, hs, ht, fun hc => ?_⟩
  rw [hes, List.drop_left] at hc
  have hall := hkeep (hfresh.contained hg hmu) hc
  obtain ⟨text, hst, hn⟩ := hall.text
  exact ⟨by rw [dataText_of_stored hall.onePlace.ready.placed hst]; exact hn, hall.headings⟩

/-- A text of 300 bytes that ends in the first of the symbols, a row whose value is the first two, and a text that is the
last one. -/
def symbolCalls : List LogOp :=
  [.logString (List.replicate 299 'a'.toUInt8 ++ ascii ['-']), .beginRow 0, .logData (ascii ['k', '-']) (ascii ['-', '-']),
    .endRow 0, .logString (ascii ['>'])]

/-- `comment_contained` for these calls on an erased storage: the first text enters a page. -/
theorem comment_contained_symbols :
    ∃ s t, (new (blankFlash sixteenPages) fun _ => 0).clear = .ok s ∧ s.run symbolCalls = .ok t ∧
      t.dataEnd - t.dataStart = 307 ∧ NoCommentEnd (dataText t.toLogState) ∧ NoCommentEnd (headingText t.toLogState) := by
  have hcalls : ∀ op ∈ symbolCalls, TextCall op := by
    simp only [symbolCalls, List.forall_mem_cons, TextCall, true_and]
    exact ⟨⟨by decide, by decide⟩, List.forall_mem_nil _⟩
  obtain ⟨s, t, hs, ht, himp⟩ := comment_contained sixteenPages_fits (new (blankFlash sixteenPages) fun _ => 0) rfl false
    symbolCalls hcalls
  have hrun : (match (new (blankFlash sixteenPages) fun _ => 0).clear with
      | .ok s =>
        match s.run symbolCalls with
        | .ok t => decide (∀ e ∈ t.history.drop s.history.length, KeepsApart e) && t.dataEnd - t.dataStart == 307
        | .error _ => false
      | .error _ => false) = true := by
    decide +kernel
  simp only [hs, ht, Bool.and_eq_true, decide_eq_true_eq, beq_iff_eq] at hrun
  exact ⟨s, t, hs, ht, hrun.2, himp hrun.1⟩

/-- Two texts, each of them without the symbols, that together are exactly these. -/
theorem comment_ended_by_two_texts :
    ∃ s t, (new (blankFlash sixteenPages) fun _ => 0).clear = .ok s ∧
      s.run [.logString (ascii ['-', '-']), .logString (ascii ['>'])] = .ok t ∧
      dataText t.toLogState = ascii ['-', '-', '>'] ∧ ¬NoCommentEnd (dataText t.toLogState) := by
  have hrun : (match (new (blankFlash sixteenPages) fun _ => 0).clear with
      | .ok s =>
        match s.run [.logString (ascii ['-', '-']), .logString (ascii ['>'])] with
        | .ok t => decide (dataText t.toLogState = ascii ['-', '-', '>'])
        | .error _ => false
      | .error _ => false) = true := by
    decide +kernel
  cases hs : (new (blankFlash sixteenPages) fun _ => 0).clear with
  | error e =>
    rw [hs] at hrun
    nomatch hrun
  | ok s =>
    rw [hs] at hrun
    cases ht : s.run [.logString (ascii ['-', '-']), .logString (ascii ['>'])] with
    | error e =>
      simp only [ht] at hrun
      nomatch hrun
    | ok t =>
      simp only [ht, decide_eq_true_eq] at hrun
      refine ⟨s, t, rfl, ht, hrun, fun hn => hn 0 ?_⟩
      rw [hrun]
      decide

end Log

end CodalMicrobit
