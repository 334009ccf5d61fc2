import CodalMicrobit.Lemmas.History
import CodalMicrobit.Lemmas.Clean

/-!
# Rows and what they append

Appending text and storing headings leave the table of a log as it is: its columns, the values of the open row, the time
stamp. Collecting a row changes nothing else, and sets the value of a key to the last one given for it.
-/

namespace CodalMicrobit

open Nor Outcome

namespace Log

variable {g : Geometry}

/-! ## Appending leaves the table as it is -/

/-- `t` is `s` but for what appending text and storing headings change. -/
def StoreOnly (s t : Log g) : Prop :=
  t = { s with
    cache := t.cache, mutex := t.mutex, full := t.full, journalHead := t.journalHead, dataEnd := t.dataEnd
    headingStart := t.headingStart, serial := t.serial, history := t.history }

theorem StoreOnly.refl (s : Log g) : StoreOnly s s := rfl

theorem StoreOnly.trans {s t u : Log g} (h : StoreOnly s t) (h' : StoreOnly t u) : StoreOnly s u := by
  unfold StoreOnly at h h' ⊢
  rw [h'] at *
  rw [h]

/-- Erasing the next page leaves the row and the end of the data alone. -/
theorem eraseNextPage_storeOnly (s : Log g) (l : Nat) :
    StoreOnly s (s.eraseNextPage l) ∧ (s.eraseNextPage l).dataEnd = s.dataEnd := by
  unfold eraseNextPage
  split
  · exact ⟨rfl, rfl⟩
  · exact ⟨rfl, rfl⟩

/-- Writing text leaves the row alone and moves the end of the data by its length. -/
theorem writeData_storeOnly (fuel : Nat) : ∀ (s : Log g) (data : List UInt8),
    Meets (fun t => StoreOnly s t ∧ t.dataEnd = s.dataEnd + data.length) (fun _ => True) (s.writeData data fuel) := by
  induction fuel with
  | zero =>
    intro s data
    unfold writeData
    split
    · rename_i h
      exact ⟨.refl s, by rw [h]; rfl⟩
    · trivial
  | succ fuel ih =>
    intro s data
    unfold writeData
    split
    · rename_i h
      exact ⟨.refl s, by rw [h]; rfl⟩
    · have hturn : StoreOnly s (s.writeTurn data) ∧
          (s.writeTurn data).dataEnd = s.dataEnd + min data.length s.spaceOnPage := by
        obtain ⟨he, hd⟩ := eraseNextPage_storeOnly s data.length
        refine ⟨he.trans rfl, ?_⟩
        change (s.eraseNextPage data.length).dataEnd + _ = _
        rw [hd]
      refine (ih (s.writeTurn data) _).imp fun t ht => ⟨hturn.1.trans ht.1, ?_⟩
      rw [ht.2, hturn.2, List.length_drop]
      omega

/-- Writing the journal leaves the row and the end of the data alone. -/
theorem writeJournal_storeOnly (s : Log g) : StoreOnly s s.writeJournal ∧ s.writeJournal.dataEnd = s.dataEnd := by
  have hadvance : StoreOnly s s.advanceJournal ∧ s.advanceJournal.dataEnd = s.dataEnd := by
    unfold advanceJournal
    dsimp only
    split
    · split
      · exact ⟨rfl, rfl⟩
      · exact ⟨rfl, rfl⟩
    · exact ⟨rfl, rfl⟩
  exact ⟨hadvance.1.trans rfl, hadvance.2⟩

/-- Refusing a text leaves the row and the end of the data alone. -/
theorem refuse_storeOnly (s : Log g) : StoreOnly s s.refuse ∧ s.refuse.dataEnd = s.dataEnd := by
  unfold refuse
  split
  · exact ⟨rfl, rfl⟩
  · exact ⟨rfl, rfl⟩

/-- Storing a text leaves the row alone and moves the end of the data by its length. -/
theorem accept_storeOnly (s : Log g) (data : List UInt8) :
    Meets (fun t => StoreOnly s t ∧ t.dataEnd = s.dataEnd + data.length) (fun _ => True) (s.accept data) := by
  have hmirror : StoreOnly s (s.mirror (cleaned data false)) ∧ (s.mirror (cleaned data false)).dataEnd = s.dataEnd := by
    unfold mirror
    split
    · exact ⟨rfl, rfl⟩
    · exact ⟨rfl, rfl⟩
  unfold accept
  refine (writeData_storeOnly _ _ _).bind fun t ht => ?_
  rw [cleaned_length, hmirror.2] at ht
  have hst := hmirror.1.trans ht.1
  rw [meets_ok]
  split
  · obtain ⟨hj, hd⟩ := writeJournal_storeOnly t
    exact ⟨hst.trans hj, hd.trans ht.2⟩
  · exact ⟨hst, ht.2⟩

/-- Storing headings leaves the row and the end of the data alone. -/
theorem storeHeadings_storeOnly (s : Log g) (h : ManagedString) :
    StoreOnly s (s.storeHeadings h) ∧ (s.storeHeadings h).dataEnd = s.dataEnd := by
  unfold storeHeadings
  dsimp only
  split
  · exact ⟨rfl, rfl⟩
  · exact ⟨rfl, rfl⟩

/-- Storing headings leaves the lock alone. -/
theorem storeHeadings_mutex (s : Log g) (h : ManagedString) : (s.storeHeadings h).mutex = s.mutex := by
  unfold storeHeadings
  dsimp only
  split <;> rfl

/-- What `clear` erases is in the storage. -/
theorem eraseStorage_storeOnly (s : Log g) (fullErase : Bool) : StoreOnly s (s.eraseStorage fullErase) := by
  have hpages : ∀ (l : List Nat) (t : Log g),
      StoreOnly t (l.foldl (fun t i => t.erasePage .format (g.getFlashStart + i * g.getPageSize)) t) := by
    intro l
    induction l with
    | nil => exact StoreOnly.refl
    | cons i l ih => exact fun t => StoreOnly.trans (t := t.erasePage .format (g.getFlashStart + i * g.getPageSize)) rfl (ih _)
  unfold eraseStorage
  exact StoreOnly.trans (t := s.setCache .format _) rfl (hpages _ _)

/-- Storing text leaves the log initialized. -/
theorem StoreOnly.initialized {s t : Log g} (h : StoreOnly s t) : t.initialized = s.initialized := by
  rw [h]

/-- Appending a text leaves the table as it is. -/
theorem appendText_storeOnly {s : Log g} {data : List UInt8} {r : ErrorCode × Log g} (h : s.appendText data = .ok r) :
    StoreOnly s r.2 := by
  have hnote : StoreOnly s (s.note (.logging s.toLogState data)) := rfl
  unfold appendText at h
  dsimp only at h
  split at h
  · obtain rfl := Except.ok.inj h
    exact (hnote.trans (refuse_storeOnly _).1).trans rfl
  · obtain ⟨u, hu, h⟩ := bind_eq_ok.mp h
    obtain rfl := Except.ok.inj h
    exact (hnote.trans ((accept_storeOnly _ data).of_ok hu).1).trans rfl

/-! ## Calls return -/

/-- Every turn of the loop of `logString` takes a byte at least, so it comes to an end. -/
theorem writeData_returns (hpos : 0 < g.getPageSize) (fuel : Nat) : ∀ (s : Log g) (data : List UInt8),
    data.length ≤ fuel → ∃ t, s.writeData data fuel = .ok t := by
  induction fuel with
  | zero =>
    intro s data h
    exact ⟨s, if_pos (List.length_eq_zero_iff.mp (Nat.le_zero.mp h))⟩
  | succ fuel ih =>
    intro s data h
    unfold writeData
    split
    · exact ⟨s, rfl⟩
    · rename_i hd
      have hspace : 0 < s.spaceOnPage := Nat.sub_pos_of_lt (Nat.mod_lt _ hpos)
      have hlen := List.length_pos_iff.mpr hd
      exact ih (s.writeTurn data) _ (by rw [List.length_drop]; omega)

/-- A call of `logString` on an initialised log returns, and the lock is free again. -/
theorem logString_returns (hpos : 0 < g.getPageSize) {s : Log g} (hi : s.initialized = true) (hm : s.mutex = false)
    (str : List UInt8) : ∃ code t, s.logString str = .ok (code, t) ∧ t.mutex = false := by
  have hw : s.wait = .ok { s with mutex := true } := if_neg (by rw [hm]; nofun)
  have hinit : ({ s with mutex := true } : Log g).init = .ok { s with mutex := true } := if_pos hi
  obtain ⟨s₁, hs₁⟩ : ∃ s₁, s₁ = ({ s with mutex := true } : Log g).note
      (.logging { s.toLogState with mutex := true } (cString str)) := ⟨_, rfl⟩
  have heq : s.logString str = if (cString str).length > u32sub s₁.logEnd s₁.dataEnd then
      .ok (.DEVICE_NO_RESOURCES, s₁.refuse.notify)
      else (s₁.accept (cString str) >>= fun t => .ok (.DEVICE_OK, t.notify)) := by
    unfold logString
    rw [hw]
    change (({ s with mutex := true } : Log g).init >>= _) = _
    rw [hinit, hs₁]
    rfl
  rw [heq]
  split
  · exact ⟨_, _, rfl, rfl⟩
  · obtain ⟨t, ht⟩ := writeData_returns hpos (cleaned (cString str) false).length
      (s₁.mirror (cleaned (cString str) false)) _ (Nat.le_refl _)
    have haccept : ∃ t, s₁.accept (cString str) = .ok t := by
      unfold accept
      dsimp only
      rw [ht]
      exact ⟨_, rfl⟩
    obtain ⟨t, ht⟩ := haccept
    rw [ht]
    exact ⟨_, _, rfl, rfl⟩

/-! ## The text that is appended -/

/-- There was room for the text. -/
def Accepted (before : LogState g) (text : List UInt8) : Prop := text.length ≤ u32sub before.logEnd before.dataEnd

instance (before : LogState g) (text : List UInt8) : Decidable (Accepted before text) :=
  inferInstanceAs (Decidable (_ ≤ _))

/-- The text that the log appended according to its record. -/
def appendedBy (events : List (LogEvent g)) : List UInt8 :=
  events.flatMap fun
    | .logging before text => if Accepted before text then cleaned text false else []
    | _ => []

/-- The text that was appended between `s` and `t`. -/
def appended (s t : Log g) : List UInt8 := appendedBy (t.history.drop s.history.length)

/-- Quiet events append no text. -/
theorem appendedBy_quiet {events : List (LogEvent g)} (h : ∀ e ∈ events, Quiet e) : appendedBy events = [] := by
  refine List.flatMap_eq_nil_iff.mpr fun e he => ?_
  cases e with
  | logging before text => exact (h _ he).elim
  | _ => rfl

theorem appendedBy_append (es es' : List (LogEvent g)) : appendedBy (es ++ es') = appendedBy es ++ appendedBy es' :=
  List.flatMap_append

/-- Behind an entry of the record, quiet events append nothing more. -/
theorem appendedBy_cons_quiet (e : LogEvent g) {es : List (LogEvent g)} (h : ∀ e ∈ es, Quiet e) :
    appendedBy (e :: es) = appendedBy [e] := by
  rw [← List.singleton_append, appendedBy_append, appendedBy_quiet h, List.append_nil]

/-- A text for which there was room is appended, with its symbols cleaned. -/
theorem appendedBy_accepted {before : LogState g} {text : List UInt8} (h : Accepted before text) :
    appendedBy [LogEvent.logging before text] = cleaned text false := by
  rw [appendedBy, List.flatMap_cons, List.flatMap_nil, List.append_nil]
  exact if_pos h

/-- What was appended is read off what was added to the record. -/
theorem appended_of_history {s t : Log g} {es : List (LogEvent g)} (h : t.history = s.history ++ es) :
    appended s t = appendedBy es := by
  rw [appended, h, List.drop_left]

/-- What a call of `logString` does to an initialised log: it records the text, and if there is room for it moves the end
of the data by its length. -/
theorem logString_records {s t : Log g} {str : List UInt8} {code : ErrorCode} (hi : s.initialized = true)
    (h : s.logString str = .ok (code, t)) :
    StoreOnly s t ∧ ∃ before es, before = { s.toLogState with mutex := true } ∧
      t.history = s.history ++ .logging before (cString str) :: es ∧ (∀ e ∈ es, Quiet e) ∧
      t.dataEnd = s.dataEnd + (appendedBy [LogEvent.logging before (cString str)]).length := by
  obtain ⟨s₁, hw, h⟩ := bind_eq_ok.mp h
  obtain ⟨s₂, hs₂, h⟩ := bind_eq_ok.mp h
  obtain rfl : s₁ = { s with mutex := true } := by
    unfold wait at hw
    split at hw
    · nomatch hw
    · exact (Except.ok.inj hw).symm
  obtain rfl : s₂ = { s with mutex := true } := by
    have hinit : ({ s with mutex := true } : Log g).init = .ok { s with mutex := true } := if_pos hi
    exact (Except.ok.inj (hinit.symm.trans hs₂)).symm
  obtain ⟨es, hes, -, hq⟩ := (appendText_adds _ (cString str)).of_ok h
  have hes' : t.history = s.history ++ .logging { s.toLogState with mutex := true } (cString str) :: es := by
    rw [hes]
    exact List.append_assoc s.history [_] es
  have hrest : StoreOnly s t ∧ t.dataEnd =
      s.dataEnd + (appendedBy [LogEvent.logging { s.toLogState with mutex := true } (cString str)]).length := by
    obtain ⟨s₃, hs₃⟩ : ∃ s₃, s₃ = ({ s with mutex := true } : Log g).note
        (.logging { s.toLogState with mutex := true } (cString str)) := ⟨_, rfl⟩
    have h₃ : StoreOnly s s₃ ∧ s₃.dataEnd = s.dataEnd ∧ s₃.logEnd = s.logEnd := by
      rw [hs₃]
      exact ⟨rfl, rfl, rfl⟩
    have hby : appendedBy [LogEvent.logging { s.toLogState with mutex := true } (cString str)] =
        if (cString str).length ≤ u32sub s.logEnd s.dataEnd then cleaned (cString str) false else [] :=
      List.append_nil _
    unfold appendText at h
    dsimp only at h
    rw [← hs₃, h₃.2.1, h₃.2.2] at h
    split at h
    · rename_i hroom
      obtain ⟨-, rfl⟩ := Prod.mk.inj (Except.ok.inj h)
      obtain ⟨hr, hd⟩ := refuse_storeOnly s₃
      refine ⟨(h₃.1.trans hr).trans rfl, ?_⟩
      rw [hby, if_neg (by omega)]
      exact hd.trans h₃.2.1
    · rename_i hroom
      obtain ⟨u, hu, h⟩ := bind_eq_ok.mp h
      obtain ⟨-, rfl⟩ := Prod.mk.inj (Except.ok.inj h)
      obtain ⟨ha, hd⟩ := (accept_storeOnly s₃ (cString str)).of_ok hu
      refine ⟨(h₃.1.trans ha).trans rfl, ?_⟩
      rw [hby, if_pos (by omega), cleaned_length]
      exact hd.trans (by rw [h₃.2.1])
  exact ⟨hrest.1, _, es, rfl, hes', hq, hrest.2⟩

end Log

end CodalMicrobit
