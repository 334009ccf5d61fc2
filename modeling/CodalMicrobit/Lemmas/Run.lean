import CodalMicrobit.Lemmas.Rows

/-!
# Runs of all calls

What a call does to the flash it does in a few parts: it loads a log that it finds, formats the storage, invalidates the
log, stores a list of headings, or appends a text. So an invariant of the log is kept by every run, and a property of what
is recorded holds along it, if each of these parts sees to both, on a condition on the points at which the record says that
a log is loaded, headings are stored, or a text is appended.
-/

namespace CodalMicrobit

open Nor Outcome

namespace Log

variable {g : Geometry}

/-- `P` holds of what was recorded between `s` and `t`. -/
def Gives (P : LogEvent g → Prop) (s t : Log g) : Prop := ∀ es, t.history = s.history ++ es → ∀ e ∈ es, P e

/-- What was added to the record is given by listing it. -/
theorem Gives.of_history {P : LogEvent g → Prop} {s t : Log g} (es : List (LogEvent g))
    (h : t.history = s.history ++ es) (hp : ∀ e ∈ es, P e) : Gives P s t := by
  intro es' h' e he
  have heq : es = es' := List.append_cancel_left (h.symm.trans h')
  exact hp e (heq ▸ he)

/-- With the same record, nothing was added. -/
theorem Gives.of_same {P : LogEvent g → Prop} {s t : Log g} (h : t.history = s.history) : Gives P s t :=
  .of_history [] (h.trans (List.append_nil _).symm) (List.forall_mem_nil _)

/-- `t` is reached from `s`: its flash is what the operations recorded on the way make of that of `s`; and if `C` holds of
what was recorded, then `I` is kept and `P` holds of it. -/
def Steps (C P : LogEvent g → Prop) (I : Log g → Prop) (s t : Log g) : Prop :=
  ∃ es, t.history = s.history ++ es ∧ s.cache.flash.After (es.flatMap LogEvent.ops) t.cache.flash ∧
    (I s → (∀ e ∈ es, C e) → I t ∧ ∀ e ∈ es, P e)

/-- The invariant `I` is kept, and `P` holds of what is recorded, where `C` holds of it. -/
structure Maintains (C P : LogEvent g → Prop) (I : Log g → Prop) : Prop where
  ramOnly : ∀ {s t : Log g}, I s → RamOnly s t → I t
  isPresent : ∀ {s : Log g}, I s → s.initialized = false → I s.isPresent.2
  load : ∀ {s t : Log g}, I s → s.initialized = false → s.isPresent.1 = true → s.isPresent.2.load = .ok t →
    C (.loading s.isPresent.2.toLogState) → I t ∧ P (.loading s.isPresent.2.toLogState)
  format : ∀ {s : Log g}, I s → ∀ fullErase, I (s.format fullErase) ∧ Gives P s (s.format fullErase)
  invalidate : ∀ {s : Log g}, I s → I s.invalidate ∧ Gives P s s.invalidate
  storeHeadings : ∀ {s : Log g}, I s → s.initialized = true → ∀ fields, C (.storing s.toLogState (csvLine fields)) →
    I (s.storeHeadings (csvLine fields)) ∧ Gives P s (s.storeHeadings (csvLine fields))
  appendText : ∀ {s t : Log g} {data : List UInt8} {code : ErrorCode}, I s → s.initialized = true →
    s.appendText data = .ok (code, t) → C (.logging s.toLogState data) → I t ∧ Gives P s t
  reboot : ∀ {s : Log g}, I s → I s.reboot

variable {C P : LogEvent g → Prop} {I : Log g → Prop}

theorem Steps.refl (s : Log g) : Steps C P I s s :=
  ⟨[], (List.append_nil _).symm, Flash.After.refl _, fun h _ => ⟨h, List.forall_mem_nil _⟩⟩

theorem Steps.trans {s t u : Log g} (h : Steps C P I s t) (h' : Steps C P I t u) : Steps C P I s u := by
  obtain ⟨es, he, hf, hi⟩ := h
  obtain ⟨es', he', hf', hi'⟩ := h'
  refine ⟨es ++ es', by rw [he', he, List.append_assoc], ?_, fun hs hc => ?_⟩
  · rw [List.flatMap_append]
    exact hf.trans hf'
  · obtain ⟨ht, hp⟩ := hi hs fun e hm => hc e (List.mem_append_left _ hm)
    obtain ⟨hu, hp'⟩ := hi' ht fun e hm => hc e (List.mem_append_right _ hm)
    refine ⟨hu, fun e hm => ?_⟩
    rcases List.mem_append.mp hm with hm | hm
    · exact hp e hm
    · exact hp' e hm

/-- A part of a call whose effect on the invariant depends on nothing that is recorded. -/
theorem Adds.steps {Q : LogEvent g → Prop} {s t : Log g} (h : Adds Q s t) (hi : I s → I t ∧ Gives P s t) :
    Steps C P I s t := by
  obtain ⟨es, he, hf, -⟩ := h
  refine ⟨es, he, hf, fun hs _ => ?_⟩
  obtain ⟨ht, hp⟩ := hi hs
  exact ⟨ht, hp es he⟩

/-- A part of a call that first records a point at which `C` says something. -/
theorem Adds.steps_note {Q : LogEvent g → Prop} {s t : Log g} {e : LogEvent g} (h : Adds Q (s.note e) t)
    (hops : e.ops = []) (hi : I s → C e → I t ∧ Gives P s t) : Steps C P I s t := by
  obtain ⟨es, he, hf, -⟩ := h
  have hes : t.history = s.history ++ e :: es := he.trans (List.append_assoc _ [e] es)
  refine ⟨e :: es, hes, ?_, fun hs hc => ?_⟩
  · rw [List.flatMap_cons, hops]
    exact hf
  · obtain ⟨ht, hp⟩ := hi hs (hc e List.mem_cons_self)
    exact ⟨ht, hp _ hes⟩

/-- `init`, by what it finds. -/
theorem init_cases (s : Log g) : s.init = if s.initialized then .ok s else
    if s.isPresent.1 then s.isPresent.2.load else s.isPresent.2.clear := by
  unfold init
  split
  · rfl
  · split
    · rename_i heq
      rw [heq]
      rfl
    · rename_i heq
      rw [heq]
      rfl

variable (k : Maintains C P I)
include k

/-- A change in RAM only, with the record as it was, is no step. -/
theorem Maintains.ramOnly_steps {s t : Log g} (hr : RamOnly s t) (hh : t.history = s.history) : Steps C P I s t :=
  ⟨[], hh.trans (List.append_nil _).symm, hr.cache ▸ Flash.After.refl _, fun hs _ => ⟨k.ramOnly hs hr, List.forall_mem_nil _⟩⟩

/-! ## The parts -/

/-- `isPresent` on a log that is not initialized. -/
theorem Maintains.isPresent_steps {s : Log g} (hi : s.initialized = false) : Steps C P I s s.isPresent.2 := by
  have hrec := isPresent_record s
  exact (SameRecord.adds hrec : Adds Quiet _ _).steps fun hs => ⟨k.isPresent hs hi, .of_same hrec.history⟩

/-- `clear` is made of steps and initializes the log. -/
theorem Maintains.clear_steps (s : Log g) (fullErase : Bool) :
    Meets (fun t => Steps C P I s t ∧ t.initialized = true) (fun _ => True) (s.clear fullErase) := by
  obtain ⟨s₁, hs₁⟩ : ∃ s₁ : Log g, s₁ = { s with mutex := true } := ⟨_, rfl⟩
  obtain ⟨t, ht⟩ : ∃ t, t = s₁.format fullErase := ⟨_, rfl⟩
  have hclear : s.clear fullErase = if s.mutex then .error .deadlock else
      .ok (t.applyTimeStamp t.timeStampFormat).notify := by
    unfold clear wait
    split
    · rfl
    · rw [ht, hs₁]
      rfl
  have hlock : Steps C P I s s₁ := k.ramOnly_steps (by rw [hs₁]; rfl) (by rw [hs₁])
  have hformat : Steps C P I s₁ t := by
    rw [ht]
    exact (format_adds s₁ fullErase).steps fun hs => k.format hs fullErase
  have hr : RamOnly t (t.applyTimeStamp t.timeStampFormat).notify := (applyTimeStamp_ramOnly _ _).trans rfl
  have hi : t.initialized = true := by rw [ht]; rfl
  rw [hclear]
  split
  · trivial
  · exact ⟨hlock.trans (hformat.trans (k.ramOnly_steps hr (applyTimeStamp_history t _))),
      (RamOnly.initialized hr).trans hi⟩

/-- Loading the log that `isPresent` found is made of steps and initializes it. -/
theorem Maintains.load_steps {s : Log g} (hi : s.initialized = false) (hp : s.isPresent.1 = true) :
    Meets (fun t => Steps C P I s t ∧ t.initialized = true) (fun _ => True) s.isPresent.2.load := by
  cases hload : s.isPresent.2.load with
  | error e => trivial
  | ok t =>
    have hpresent := isPresent_record s
    have hrec := (load_record s.isPresent.2).of_ok hload
    have hhist : t.history = s.history ++ [.loading s.isPresent.2.toLogState] :=
      hrec.history.trans (congrArg (· ++ [_]) hpresent.history)
    have hnote : SameRecord (s.note (.loading s.isPresent.2.toLogState)) t := ⟨hhist, hrec.flash.trans hpresent.flash⟩
    have ht : t.initialized = true := by
      obtain ⟨u, -, hu⟩ := bind_eq_ok.mp hload
      exact Except.ok.inj hu ▸ rfl
    refine ⟨(SameRecord.adds hnote : Adds Quiet _ _).steps_note rfl fun hs hc => ?_, ht⟩
    obtain ⟨h, hpt⟩ := k.load hs hi hp hload hc
    exact ⟨h, .of_history _ hhist fun e he => List.mem_singleton.mp he ▸ hpt⟩

/-- Where the log is not initialised, `init` loads it or formats the storage. -/
theorem Maintains.init_steps (s : Log g) :
    Meets (fun t => Steps C P I s t ∧ t.initialized = true) (fun _ => True) s.init := by
  rw [init_cases]
  split
  · rename_i hi
    exact ⟨.refl s, hi⟩
  · rename_i hi
    rw [Bool.not_eq_true] at hi
    split
    · rename_i hp
      exact k.load_steps hi hp
    · exact (k.clear_steps _ false).imp fun t ht => ⟨(k.isPresent_steps hi).trans ht.1, ht.2⟩

/-- `invalidate` is made of steps. -/
theorem Maintains.invalidate_steps (s : Log g) : Steps C P I s s.invalidate :=
  (invalidate_adds s).steps fun hs => k.invalidate hs

/-- Storing a line of headings is made of steps. -/
theorem Maintains.storeHeadings_steps {s : Log g} (hi : s.initialized = true) (fields : List ManagedString) :
    Steps C P I s (s.storeHeadings (csvLine fields)) :=
  (storeHeadings_adds s (csvLine fields)).steps_note rfl fun hs hc => k.storeHeadings hs hi fields hc

/-- A text is appended once the lock is held and the log initialised. -/
theorem Maintains.logString_steps (s : Log g) (str : List UInt8) :
    Meets (fun r => Steps C P I s r.2 ∧ r.2.initialized = true) (fun _ => True) (s.logString str) := by
  unfold logString wait
  split
  · trivial
  · refine (k.init_steps { s with mutex := true }).bind fun t ht => ?_
    cases happend : t.appendText (cString str) with
    | error e => trivial
    | ok r =>
      have hadds := (appendText_adds t (cString str)).of_ok happend
      have hlock : Steps C P I s { s with mutex := true } := k.ramOnly_steps rfl rfl
      have hstep : Steps C P I t r.2 := hadds.steps_note rfl fun hs hc => k.appendText hs ht.2 happend hc
      exact ⟨hlock.trans (ht.1.trans hstep), (appendText_storeOnly happend).initialized.trans ht.2⟩

/-! ## Rows -/

/-- `logData` is made of steps and initializes the log. -/
theorem Maintains.logData_steps (s : Log g) (key value : ManagedString) :
    Meets (fun t => Steps C P I s t ∧ t.initialized = true) (fun _ => True) (s.logData key value) := by
  unfold logData
  refine (k.init_steps s).bind fun t ht => ?_
  obtain ⟨u, hu⟩ : ∃ u, u = if t.rowStarted then t else t.startRow := ⟨_, rfl⟩
  have hr : RamOnly t u ∧ u.history = t.history := by
    rw [hu]
    split
    · exact ⟨.refl t, rfl⟩
    · exact ⟨rfl, rfl⟩
  have hr' := hr.1.trans (setColumn_ramOnly u key value)
  rw [← hu]
  exact ⟨ht.1.trans (k.ramOnly_steps hr' ((setColumn_history u key value).trans hr.2)), (RamOnly.initialized hr').trans ht.2⟩

/-- Stamping the row is made of steps. -/
theorem Maintains.stampRow_steps {s : Log g} (hi : s.initialized = true) (now : Nat) :
    Meets (fun t => Steps C P I s t ∧ t.initialized = true) (fun _ => True) (s.stampRow now) := by
  unfold stampRow
  split
  · exact k.logData_steps s _ _
  · exact ⟨.refl s, hi⟩

/-- Storing new columns is made of steps. -/
theorem Maintains.updateHeadings_steps {s : Log g} (hi : s.initialized = true) :
    Meets (fun t => Steps C P I s t ∧ t.initialized = true) (fun _ => True) s.updateHeadings := by
  unfold updateHeadings
  split
  · dsimp only
    have hstore := k.storeHeadings_steps hi (s.rowData.map (·.key))
    generalize s.storeHeadings (csvLine (s.rowData.map (·.key))) = s₁ at hstore ⊢
    refine (k.logString_steps s₁ _).bind fun r hr => ?_
    have hend : Steps C P I r.2 { r.2 with headingsChanged := false } := k.ramOnly_steps rfl rfl
    exact ⟨hstore.trans (hr.1.trans hend), hr.2⟩
  · exact ⟨.refl s, hi⟩

/-- Writing the row is made of steps. -/
theorem Maintains.logRow_steps {s : Log g} (hi : s.initialized = true) :
    Meets (fun t => Steps C P I s t ∧ t.initialized = true) (fun _ => True) s.logRow := by
  unfold logRow
  split
  · exact ⟨.refl s, hi⟩
  · exact (k.logString_steps s _).bind fun r hr => hr

/-- `endRow` is made of steps. -/
theorem Maintains.endRow_steps (s : Log g) (now : Nat) :
    Meets (fun r => Steps C P I s r.2) (fun _ => True) (s.endRow now) := by
  unfold endRow
  split
  · exact .refl s
  · refine (k.init_steps s).bind fun s₁ h₁ => ?_
    refine (k.stampRow_steps h₁.2 now).bind fun s₂ h₂ => ?_
    refine (k.updateHeadings_steps h₂.2).bind fun s₃ h₃ => ?_
    refine (k.logRow_steps h₃.2).bind fun s₄ h₄ => ?_
    have hend : Steps C P I s₄ { s₄ with rowStarted := false } := k.ramOnly_steps rfl rfl
    exact h₁.1.trans (h₂.1.trans (h₃.1.trans (h₄.1.trans hend)))

/-- `beginRow` is made of steps. -/
theorem Maintains.beginRow_steps (s : Log g) (now : Nat) :
    Meets (Steps C P I s) (fun _ => True) (s.beginRow now) := by
  have hstart : ∀ t : Log g, Steps C P I t t.startRow := fun t => k.ramOnly_steps rfl rfl
  unfold beginRow
  refine (k.init_steps s).bind fun t ht => ?_
  split
  · exact (k.endRow_steps t now).bind fun r hr => ht.1.trans (hr.trans (hstart _))
  · exact ht.1.trans (hstart t)

/-! ## Calls and runs -/

/-- Every operation is made of steps. -/
theorem Maintains.perform_steps (s : Log g) (op : LogOp) :
    Meets (Steps C P I s) (fun _ => True) (s.perform op) := by
  cases op with
  | isPresent =>
    cases hi : s.initialized with
    | false => exact k.isPresent_steps hi
    | true =>
      have hp : s.isPresent = (true, s) := if_pos hi
      change Steps C P I s s.isPresent.2
      rw [hp]
      exact .refl s
  | isFull => exact .refl s
  | clear fullErase => exact (k.clear_steps s fullErase).imp fun _ h => h.1
  | invalidate => exact k.invalidate_steps s
  | setTimeStamp format =>
    exact (k.init_steps s).bind fun t ht =>
      ht.1.trans (k.ramOnly_steps (applyTimeStamp_ramOnly t format) (applyTimeStamp_history t format))
  | setSerialMirroring enable => exact k.ramOnly_steps rfl rfl
  | beginRow now => exact k.beginRow_steps s now
  | logData key value => exact (k.logData_steps s key value).imp fun _ h => h.1
  | endRow now => exact (k.endRow_steps s now).bind fun r hr => hr
  | logString str => exact (k.logString_steps s str).bind fun r hr => hr.1
  | reboot =>
    have hrec : SameRecord s s.reboot := ⟨rfl, rfl⟩
    exact (SameRecord.adds hrec : Adds Quiet _ _).steps fun hs => ⟨k.reboot hs, .of_same rfl⟩

/-- A run is made of steps. -/
theorem Maintains.run_steps (ops : List LogOp) : ∀ s : Log g, Meets (Steps C P I s) (fun _ => True) (s.run ops) := by
  induction ops with
  | nil => exact .refl
  | cons op ops ih => exact fun s => (k.perform_steps s op).bind fun t ht => (ih t).imp fun u hu => ht.trans hu

/-- In every run from a log that was just switched on, if `C` holds of what is recorded, then so does `P`, and the
invariant of the log that it ends in; and the flash is what the recorded operations made of it. -/
theorem Maintains.run {flash : Flash g} {header : Nat → UInt8} (h : I (new flash header)) {ops : List LogOp} {s : Log g}
    (hs : (new flash header).run ops = .ok s) (hc : ∀ e ∈ s.history, C e) :
    I s ∧ (∀ e ∈ s.history, P e) ∧ flash.After (s.history.flatMap LogEvent.ops) s.cache.flash := by
  obtain ⟨es, hes, hf, hi⟩ := (k.run_steps ops (new flash header)).of_ok hs
  obtain rfl : s.history = es := hes.trans (List.nil_append es)
  obtain ⟨ht, hp⟩ := hi h hc
  exact ⟨ht, hp, hf⟩

end Log

end CodalMicrobit
