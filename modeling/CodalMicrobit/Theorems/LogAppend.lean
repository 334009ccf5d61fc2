import CodalMicrobit.Lemmas.LogString

/-!
# Appending to a log

After a `clear`, the data area holds the accepted texts one after the other, whatever the flash held before, as long as
no accepted text enters a page of which the cache still holds stale bytes. Refusing a text is what can leave some: the
block of the FULL indicator is read in before its page is erased.
-/

namespace CodalMicrobit

open Nor Outcome FSCache

namespace Log

variable {g : Geometry}

/-- Calls of `logString`, one after the other, and the codes they return. -/
def logAll (s : Log g) : List (List UInt8) → Except Fault (List ErrorCode × Log g)
  | [] => .ok ([], s)
  | str :: strs => do
    let r ← s.logString str
    let r' ← r.2.logAll strs
    .ok (r.1 :: r'.1, r'.2)

/-- The texts that were accepted, cleaned, one after the other. -/
def acceptedText : List (List UInt8) → List ErrorCode → List UInt8
  | str :: strs, code :: codes =>
    (if code = .DEVICE_OK then cleaned (cString str) false else []) ++ acceptedText strs codes
  | _, _ => []

/-- At each call, if there is room for the text, no page that it enters has a block in the cache that is not erased. -/
def FreshRun (s : Log g) : List (List UInt8) → Prop
  | [] => True
  | str :: strs =>
    (s.dataEnd + (cString str).length ≤ s.logEnd → FreshPages s.toLogState (cString str).length) ∧
      ∀ code t, s.logString str = .ok (code, t) → t.FreshRun strs

instance FreshRun.decidable : ∀ (strs : List (List UInt8)) (s : Log g), Decidable (s.FreshRun strs)
  | [], _ => isTrue trivial
  | str :: strs, s =>
    have : ∀ t : Log g, Decidable (t.FreshRun strs) := FreshRun.decidable strs
    inferInstanceAs (Decidable ((_ → _) ∧ ∀ code t, s.logString str = .ok (code, t) → t.FreshRun strs))

theorem logAll_cons {s t u : Log g} {str : List UInt8} {strs : List (List UInt8)} {code : ErrorCode}
    {codes : List ErrorCode} (h : s.logString str = .ok (code, t)) (h' : t.logAll strs = .ok (codes, u)) :
    s.logAll (str :: strs) = .ok (code :: codes, u) := by
  unfold logAll
  rw [h]
  change (t.logAll strs >>= _) = _
  rw [h']
  rfl

/-- Calls of `logString` return, and the data grows by the accepted texts. -/
theorem logAll_members (hg : g.Fits) (strs : List (List UInt8)) : ∀ (s : Log g), s.Ready →
    ∃ codes t, s.logAll strs = .ok (codes, t) ∧ t.Ready ∧ t.dataEnd = s.dataEnd + (acceptedText strs codes).length := by
  induction strs with
  | nil => exact fun s h => ⟨[], s, rfl, h, rfl⟩
  | cons str strs ih =>
    intro s h
    obtain ⟨code, t, ht, hready, hcases⟩ := logString_members hg h str
    obtain ⟨codes, u, hu, hready', hend⟩ := ih t hready
    refine ⟨code :: codes, u, logAll_cons ht hu, hready', ?_⟩
    rw [hend, acceptedText, List.length_append]
    rcases hcases with ⟨rfl, -, ht, -⟩ | ⟨rfl, -, ht, -⟩
    · rw [if_pos rfl, cleaned_length]
      omega
    · rw [if_neg nofun, List.length_nil]
      omega

/-- Where no stale page is entered, they add exactly the accepted texts to the data. -/
theorem logAll_stored (hg : g.Fits) (strs : List (List UInt8)) : ∀ {s t : Log g} {text : List UInt8}
    {codes : List ErrorCode}, s.Ready → s.Stored text → s.FreshRun strs → s.logAll strs = .ok (codes, t) →
      t.Stored (text ++ acceptedText strs codes) := by
  induction strs with
  | nil =>
    intro s t text codes _ hs _ ht
    cases ht
    simpa [acceptedText] using hs
  | cons str strs ih =>
    intro s t text codes h hs hf ht
    obtain ⟨code, u, hu, hready, -⟩ := logString_members hg h str
    obtain ⟨codes', t', ht', -⟩ := logAll_members hg strs u hready
    obtain ⟨rfl, rfl⟩ := Prod.mk.inj (Except.ok.inj (ht.symm.trans (logAll_cons hu ht')))
    have hall := ih hready (logString_stored hg h hs hf.1 hu) (hf.2 _ _ hu) ht'
    rwa [List.append_assoc] at hall

/-- Appending after a `clear`. The calls return, the data ends inside the data area and is as long as the accepted texts
are together; and if at each call the cache holds nothing stale of the pages that an accepted text enters, the data is
exactly those texts, in the order of the calls. -/
theorem logString_appends (hg : g.Fits) (s₀ : Log g) (hm : s₀.mutex = false) (fullErase : Bool)
    (strs : List (List UInt8)) :
    ∃ s codes t, s₀.clear fullErase = .ok s ∧ s.logAll strs = .ok (codes, t) ∧ t.dataStart ≤ t.dataEnd ∧
      t.dataEnd ≤ t.logEnd ∧ t.dataEnd - t.dataStart = (acceptedText strs codes).length ∧
      (s.FreshRun strs → slice t.mem t.dataStart (t.dataEnd - t.dataStart) = acceptedText strs codes) := by
  obtain ⟨s, hs, hfresh, hmu, -⟩ := clear_fresh hg hm fullErase
  have hready := hfresh.ready hmu
  obtain ⟨codes, t, ht, hready', hend⟩ := logAll_members hg strs s hready
  have hp := hready'.placed
  rw [hfresh.dataEnd] at hend
  refine ⟨s, codes, t, hs, ht, ?_, ?_, ?_, fun hrun => ?_⟩
  · rw [hp.dataStart]
    exact hp.le_dataEnd
  · rw [hp.logEnd]
    exact hp.dataEnd_le
  · rw [hp.dataStart]
    omega
  · have hst := logAll_stored hg strs hready (hfresh.stored hg) hrun ht
    rw [List.nil_append] at hst
    rw [hp.dataStart, hend, Nat.add_sub_cancel_left]
    exact hst.holds.bytes

/-- A text of 300 bytes and one of 400: each of them enters a page. -/
def longTexts : List (List UInt8) := [List.replicate 300 'a'.toUInt8, List.replicate 400 'b'.toUInt8]

/-- `logString_appends` for these texts on an erased storage: both are there. -/
theorem logString_appends_two :
    ∃ s codes t, (new (blankFlash nineteenPages) fun _ => 0).clear false = .ok s ∧
      s.logAll longTexts = .ok (codes, t) ∧ codes = [.DEVICE_OK, .DEVICE_OK] ∧ t.dataEnd - t.dataStart = 700 ∧
      slice t.mem t.dataStart (t.dataEnd - t.dataStart) = acceptedText longTexts codes := by
  obtain ⟨s, codes, t, hs, ht, -, -, -, himp⟩ := logString_appends nineteenPages_fits
    (new (blankFlash nineteenPages) fun _ => 0) rfl false longTexts
  have hrun : (match (new (blankFlash nineteenPages) fun _ => 0).clear false with
      | .ok s => decide (s.FreshRun longTexts) && match s.logAll longTexts with
        | .ok (codes, t) => codes == [.DEVICE_OK, .DEVICE_OK] && t.dataEnd - t.dataStart == 700
        | .error _ => false
      | .error _ => false) = true := by
    decide +kernel
  simp only [hs, ht, Bool.and_eq_true, decide_eq_true_eq, beq_iff_eq] at hrun
  exact ⟨s, codes, t, hs, ht, hrun.2.1, hrun.2.2, himp hrun.1⟩

/-- A storage that holds old data: zeroes. -/
def zeroedPages : Flash sixteenPages := ⟨fun _ => 0, []⟩

/-- A text of 509 bytes is refused, one of 257 bytes is accepted, and its last byte is not there: refusing the first one
read the block of the FULL indicator into the cache, with the old data that was erased later. -/
theorem stale_page_loses_text :
    ¬∀ s codes t, (new zeroedPages fun _ => 0).clear false = .ok s →
      s.logAll [List.replicate 509 'a'.toUInt8, List.replicate 257 'a'.toUInt8] = .ok (codes, t) →
      slice t.mem t.dataStart (t.dataEnd - t.dataStart) =
        acceptedText [List.replicate 509 'a'.toUInt8, List.replicate 257 'a'.toUInt8] codes := by
  intro h
  have hrun : (match (new zeroedPages fun _ => 0).clear false with
      | .ok s =>
        match s.logAll [List.replicate 509 'a'.toUInt8, List.replicate 257 'a'.toUInt8] with
        | .ok (codes, t) => slice t.mem t.dataStart (t.dataEnd - t.dataStart) ==
            acceptedText [List.replicate 509 'a'.toUInt8, List.replicate 257 'a'.toUInt8] codes
        | .error _ => true
      | .error _ => true) = false := by
    decide +kernel
  obtain ⟨s, hs, hfresh, hmu, -⟩ := clear_fresh sixteenPages_fits (s := new zeroedPages fun _ => 0) rfl false
  obtain ⟨codes, t, ht, -⟩ := logAll_members sixteenPages_fits
    [List.replicate 509 'a'.toUInt8, List.replicate 257 'a'.toUInt8] s (hfresh.ready hmu)
  simp only [hs, ht, beq_eq_false_iff_ne, ne_eq] at hrun
  exact hrun (h s codes t hs ht)

end Log

end CodalMicrobit
