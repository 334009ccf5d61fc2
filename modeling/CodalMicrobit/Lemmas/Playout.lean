import CodalMicrobit.Audio.Playout
import CodalMicrobit.Lemmas.Rendering
import CodalMicrobit.Lib.Streaming
import Mathlib.Algebra.Order.Field.Basic

/-!
# The moves of a playout

`render` makes the moves of the playout, as many as there is room for in the buffer. A move writes a sample of the effect that
is played, and where a step of a tone effect ends it is followed by the next one.
-/

namespace CodalMicrobit

open MachineFloat Output Streaming

namespace Output

variable {out out' : List Output}

@[simp] theorem samples_nil : samples [] = [] := rfl

/-- A sample that was put out comes first. -/
@[simp] theorem samples_cons_sample (j : Nat) (v : UInt16) (out : List Output) :
    samples (sample j v :: out) = v :: samples out := rfl

@[simp] theorem samples_append (out out' : List Output) : samples (out ++ out') = samples out ++ samples out' :=
  List.filterMap_append

@[simp] theorem invocations_append (i : Fin EMOJI_SYNTHESIZER_TONE_EFFECTS) (out out' : List Output) :
    invocations i (out ++ out') = invocations i out ++ invocations i out' :=
  List.filterMap_append

@[simp] theorem ofEffect_append (j : Nat) (out out' : List Output) :
    ofEffect j (out ++ out') = ofEffect j out ++ ofEffect j out' :=
  List.filter_append ..

/-- Where everything is of one effect, nothing is left out. -/
theorem ofEffect_all {j : Nat} (h : ∀ o ∈ out, o.effect = j) : ofEffect j out = out :=
  List.filter_eq_self.mpr fun o ho => decide_eq_true (h o ho)

/-- Where nothing is of the effect, nothing is left. -/
theorem ofEffect_none {j : Nat} (h : ∀ o ∈ out, o.effect ≠ j) : ofEffect j out = [] :=
  List.filter_eq_nil_iff.mpr fun o ho => by simpa using h o ho

end Output

namespace SoundEmojiSynthesizer

variable {L F : Type} [MachineFloat F] {k : FiberLock L} {behind : Nat → SoundEffect F}
  {s s' t : SoundEmojiSynthesizer L F}

/-! ## The invocations -/

omit [MachineFloat F] in
/-- Invoking a tone effect puts out no sample. -/
@[simp] theorem samples_due (ends : Fin EMOJI_SYNTHESIZER_TONE_EFFECTS → Int) (s : SoundEmojiSynthesizer L F)
    (i : Fin EMOJI_SYNTHESIZER_TONE_EFFECTS) : samples (s.due ends i) = [] := by
  unfold due
  split <;> rfl

omit [MachineFloat F] in
/-- Whether a tone effect is due does not depend on the others. -/
theorem due_invokeEffect (ends : Fin EMOJI_SYNTHESIZER_TONE_EFFECTS → Int) (s : SoundEmojiSynthesizer L F)
    {i j : Fin EMOJI_SYNTHESIZER_TONE_EFFECTS} (h : i ≠ j) : (s.invokeEffect ends j).due ends i = s.due ends i := by
  have heffect : (s.invokeEffect ends j).effect = s.effect := by
    unfold invokeEffect
    split <;> rfl
  have hstep : (s.invokeEffect ends j).step i = s.step i := by
    rw [invokeEffect_step, if_neg fun hj => h hj.1, Int.add_zero]
  unfold due
  rw [invokeEffect_samplesWritten, invokeEffect_current, heffect, hstep]

omit [MachineFloat F] in
/-- The tone effects that are due, one after the other. -/
theorem allDue_eq (ends : Fin EMOJI_SYNTHESIZER_TONE_EFFECTS → Int) (s : SoundEmojiSynthesizer L F) :
    s.allDue ends = s.due ends 0 ++ s.due ends 1 ++ s.due ends 2 := by
  rw [allDue, due_invokeEffect ends s (by decide), due_invokeEffect ends _ (by decide),
    due_invokeEffect ends s (by decide)]

omit [MachineFloat F] in
/-- Invoking the tone effects puts out no sample. -/
@[simp] theorem samples_allDue (ends : Fin EMOJI_SYNTHESIZER_TONE_EFFECTS → Int) (s : SoundEmojiSynthesizer L F) :
    samples (s.allDue ends) = [] := by
  simp [allDue]

omit [MachineFloat F] in
/-- A tone effect is invoked at its next step exactly when that step is due. -/
theorem invocations_due (ends : Fin EMOJI_SYNTHESIZER_TONE_EFFECTS → Int) (s : SoundEmojiSynthesizer L F)
    (i j : Fin EMOJI_SYNTHESIZER_TONE_EFFECTS) :
    invocations i (s.due ends j) = if j = i ∧ s.samplesWritten = ends i ∧ s.step i < steps s.current i ∧
      (s.current.effects i).effect.isSome then [s.step i] else [] := by
  unfold due
  by_cases hj : j = i
  · subst hj
    simp only [true_and]
    split
    · simp [invocations, step?]
    · rfl
  · rw [if_neg (show ¬(j = i ∧ _) from fun h => hj h.1)]
    split
    · simp [invocations, step?, hj]
    · rfl

omit [MachineFloat F] in
/-- At the end of a step, each of the tone effects that have come to it is invoked, once. -/
theorem invocations_allDue (ends : Fin EMOJI_SYNTHESIZER_TONE_EFFECTS → Int) (s : SoundEmojiSynthesizer L F)
    (i : Fin EMOJI_SYNTHESIZER_TONE_EFFECTS) :
    invocations i (s.allDue ends) = if s.samplesWritten = ends i ∧ s.step i < steps s.current i ∧
      (s.current.effects i).effect.isSome then [s.step i] else [] := by
  rw [allDue_eq, invocations_append, invocations_append, invocations_due, invocations_due, invocations_due]
  match i with
  | 0 => simp
  | 1 => simp
  | 2 => simp

omit [MachineFloat F] in
/-- What is invoked belongs to the effect being played. -/
theorem effect_allDue (ends : Fin EMOJI_SYNTHESIZER_TONE_EFFECTS → Int) (s : SoundEmojiSynthesizer L F) :
    ∀ o ∈ s.allDue ends, o.effect = s.effect.getD 0 := by
  have hdue : ∀ i, ∀ o ∈ s.due ends i, o.effect = s.effect.getD 0 := by
    intro i o ho
    unfold due at ho
    split at ho
    · rw [List.mem_singleton.mp ho]
      rfl
    · exact absurd ho List.not_mem_nil
  intro o ho
  rw [allDue_eq, List.mem_append, List.mem_append] at ho
  rcases ho with (ho | ho) | ho
  · exact hdue 0 o ho
  · exact hdue 1 o ho
  · exact hdue 2 o ho

/-! ## The moves -/

/-- A sample that is not the last one of its step. -/
theorem move_sample (hlt : s.samplesWritten < s.samplesToWrite) (hmore : s.samplesWritten + 1 < s.stepEndPosition) :
    s.move k behind = some ([.sample (s.effect.getD 0) s.synthesize.1], s.synthesize.2) := by
  have hnext : s.synthesize.2.samplesWritten < s.stepEndPosition := hmore
  rw [move, if_pos hlt]
  dsimp only
  rw [if_pos (show s.samplesWritten < s.stepEndPosition by omega)]
  dsimp only
  rw [if_pos hnext]

/-- The last sample of a step, and the end of the step. -/
theorem move_last (hlt : s.samplesWritten < s.samplesToWrite) (hlast : s.samplesWritten + 1 = s.stepEndPosition) :
    s.move k behind = some (.sample (s.effect.getD 0) s.synthesize.1 :: s.synthesize.2.allDue s.effectStepEnd,
      ((s.synthesize.2.invokeEffect s.effectStepEnd 0).invokeEffect s.effectStepEnd 1).invokeEffect s.effectStepEnd 2) := by
  have hnext : ¬s.synthesize.2.samplesWritten < s.stepEndPosition := by
    change ¬s.samplesWritten + 1 < s.stepEndPosition
    omega
  rw [move, if_pos hlt]
  dsimp only
  rw [if_pos (show s.samplesWritten < s.stepEndPosition by omega)]
  dsimp only
  rw [if_neg hnext]
  rfl

/-- The end of a step. -/
theorem move_end (hlt : s.samplesWritten < s.samplesToWrite) (hend : s.samplesWritten = s.stepEndPosition) :
    s.move k behind = some (s.allDue s.effectStepEnd,
      ((s.invokeEffect s.effectStepEnd 0).invokeEffect s.effectStepEnd 1).invokeEffect s.effectStepEnd 2) := by
  have hnext : ¬s.samplesWritten < s.stepEndPosition := by omega
  rw [move, if_pos hlt]
  dsimp only
  rw [if_neg hnext]
  dsimp only
  rw [if_neg hnext]
  rfl

/-- The loop that writes samples makes moves, and the end of the step is part of the last one. -/
theorem writeSamples_runs (k : FiberLock L) (behind : Nat → SoundEffect F) (n : Nat) :
    ∀ {s t : SoundEmojiSynthesizer L F} {buffer buffer' : List UInt16} {full : Bool},
    s.samplesWritten < s.samplesToWrite → s.stepEndPosition ≤ s.samplesToWrite →
    s.stepEndPosition = s.samplesWritten + n → s.writeSamples n buffer = (full, buffer', t) →
    ∃ out, buffer' = buffer ++ samples out ∧ Runs (move k behind) s out (if full then t else
      ((t.invokeEffect s.effectStepEnd 0).invokeEffect s.effectStepEnd 1).invokeEffect s.effectStepEnd 2) := by
  induction n with
  | zero =>
    intro s t buffer buffer' full hlt _ hn h
    obtain ⟨rfl, rfl, rfl⟩ := by simpa [writeSamples] using h
    exact ⟨s.allDue s.effectStepEnd, by simp, .one (move_end hlt (by omega))⟩
  | succ n ih =>
    intro s t buffer buffer' full hlt hle hn h
    rw [writeSamples] at h
    split at h
    · obtain ⟨rfl, rfl, rfl⟩ := by simpa using h
      exact ⟨[], by simp, .refl s⟩
    · dsimp only at h
      cases n with
      | zero =>
        obtain ⟨rfl, rfl, rfl⟩ := by simpa [writeSamples] using h
        exact ⟨_, by simp, .one (move_last hlt (by omega))⟩
      | succ n =>
        have hmore : s.samplesWritten + 1 < s.stepEndPosition := by omega
        have hnext : s.synthesize.2.samplesWritten < s.synthesize.2.samplesToWrite := hmore.trans_le hle
        obtain ⟨out, rfl, hrun⟩ := ih hnext hle (show s.stepEndPosition = s.samplesWritten + 1 + _ by omega) h
        exact ⟨_, by simp, .move (move_sample hlt hmore) hrun⟩

/-- `render` makes moves. -/
theorem render_runs (k : FiberLock L) (behind : Nat → SoundEffect F) (fuel : Nat) :
    ∀ {s s' : SoundEmojiSynthesizer L F} {buffer buffer' : List UInt16} {full : Bool},
    Pace s → Regular s.sampleRate s.current → s.render fuel buffer = some (full, buffer', s') →
    ∃ out, buffer' = buffer ++ samples out ∧ Runs (move k behind) s out s' := by
  induction fuel with
  | zero => exact fun _ _ h => absurd h nofun
  | succ fuel ih =>
    intro s s' buffer buffer' full hp hr h
    by_cases hlt : s.samplesWritten < s.samplesToWrite
    · obtain ⟨full₁, buffer₁, t, hwrite, -, -, -, hfull, hmore⟩ := render_turn fuel buffer hp hr hlt
      have hge := hp.le_stepEndPosition hlt
      obtain ⟨out, rfl, hrun⟩ :=
        writeSamples_runs k behind _ hlt (hp.stepEndPosition_le hr hlt) (by omega) hwrite
      cases full₁ with
      | true =>
        rw [(hfull rfl).1] at h
        obtain ⟨-, rfl, rfl⟩ := by simpa using h
        exact ⟨out, rfl, hrun⟩
      | false =>
        obtain ⟨u, rfl, heq, hren, -, hpace, -⟩ := hmore rfl
        rw [heq] at h
        obtain ⟨out', rfl, hrun'⟩ := ih hpace (hren.regular hr) h
        exact ⟨out ++ out', by simp, hrun.trans hrun'⟩
    · rw [render_done fuel buffer hlt] at h
      obtain ⟨-, rfl, rfl⟩ := by simpa using h
      exact ⟨[], by simp, .refl s⟩

/-! ## What a move gives out -/

/-- The arithmetic ends the steps of the effect in order, and none but the last ones with the effect itself. -/
structure Timely (sampleRate : Int) (e : SoundEffect F) : Prop extends Regular sampleRate e where
  before : ∀ i a, 0 ≤ a → a + 1 < steps e i → 0 < determineSampleCount sampleRate e.duration →
    stepEnd F (determineSampleCount sampleRate e.duration) (steps e i) a < determineSampleCount sampleRate e.duration

/-- What a move makes of the effect that is played: samples are written, and each tone effect stays at its step or goes on
from it with an invocation. -/
structure Moved (s : SoundEmojiSynthesizer L F) (out : List Output) (t : SoundEmojiSynthesizer L F) : Prop where
  renders : Renders s t
  pace : Pace t
  effect : ∀ o ∈ out, o.effect = s.effect.getD 0
  samples : t.samplesWritten = s.samplesWritten + (samples out).length
  step : ∀ i, t.step i = s.step i ∧ invocations i out = [] ∨
    t.step i = s.step i + 1 ∧ invocations i out = if (s.current.effects i).effect.isSome then [s.step i] else []
  finished : Timely s.sampleRate s.current → t.samplesWritten = t.samplesToWrite → ∀ i, t.step i = steps s.current i

/-- A move that ends a step. -/
theorem end_moved (hp : Pace s) (hr : Regular s.sampleRate s.current) (hlt : s.samplesWritten < s.samplesToWrite)
    {u : SoundEmojiSynthesizer L F} {position : F} (hu : u = { s with samplesWritten := s.stepEndPosition, position })
    (written : List Output) (heffect : ∀ o ∈ written, o.effect = s.effect.getD 0)
    (hsamples : s.stepEndPosition = s.samplesWritten + (samples written).length)
    (hnone : ∀ i, invocations i written = []) :
    Moved s (written ++ u.allDue s.effectStepEnd)
      (((u.invokeEffect s.effectStepEnd 0).invokeEffect s.effectStepEnd 1).invokeEffect s.effectStepEnd 2) := by
  subst hu
  have hren : Renders s { s with samplesWritten := s.stepEndPosition, position } := ⟨_, _, _, _, _, rfl⟩
  have hren := ((hren.trans (invokeEffect_renders s.effectStepEnd _ 0)).trans
    (invokeEffect_renders s.effectStepEnd _ 1)).trans (invokeEffect_renders s.effectStepEnd _ 2)
  have hstep := invokeEffects_step s.effectStepEnd { s with samplesWritten := s.stepEndPosition, position }
  have hw : ((({ s with samplesWritten := s.stepEndPosition, position }.invokeEffect s.effectStepEnd
      0).invokeEffect s.effectStepEnd 1).invokeEffect s.effectStepEnd 2).samplesWritten = s.stepEndPosition := by
    simp
  have hpace := (turn_pace hp hr hlt hren hw hstep).1
  refine ⟨hren, hpace, ?_, ?_, fun i => ?_, fun ht hdone i => ?_⟩
  · intro o ho
    rcases List.mem_append.mp ho with ho | ho
    · exact heffect o ho
    · exact effect_allDue s.effectStepEnd { s with samplesWritten := s.stepEndPosition, position } o ho
  · rw [hw, samples_append, samples_allDue, List.append_nil, ← hsamples]
  · have hlast := (hp.step hlt i).2.1
    have hcur : ({ s with samplesWritten := s.stepEndPosition, position } : SoundEmojiSynthesizer L F).current =
      s.current := rfl
    rw [hstep, invocations_append, hnone, List.nil_append, invocations_allDue, hcur]
    dsimp only
    by_cases hdue : s.stepEndPosition = s.effectStepEnd i
    · exact Or.inr (by simp [hdue, hlast])
    · exact Or.inl (by simp [hdue])
  · have hcount : ((({ s with samplesWritten := s.stepEndPosition, position }.invokeEffect s.effectStepEnd
        0).invokeEffect s.effectStepEnd 1).invokeEffect s.effectStepEnd 2).samplesToWrite = s.samplesToWrite := by
      obtain ⟨_, _, _, _, _, heq⟩ := hren
      rw [heq]
    rw [hw, hcount] at hdone
    -- at the end of the effect all the tone effects are at their last steps
    obtain ⟨h0, hlast, -⟩ := hp.step hlt i
    have hle := s.stepEndPosition_le i
    have hend := effectStepEnd_le hp hr i h0 hlast
    have hfinal : s.step i = steps s.current i - 1 := by
      by_contra hmore
      have hpos := hp.nonneg
      have hbefore := ht.before i (s.step i) h0 (by omega) (by rw [← hp.count]; omega)
      rw [effectStepEnd, if_neg hmore, hp.perStep, hp.count] at hle
      rw [hp.count] at hdone
      unfold stepEnd at hbefore
      omega
    have hcur : ({ s with samplesWritten := s.stepEndPosition, position } : SoundEmojiSynthesizer L F).current =
      s.current := rfl
    rw [hstep, hcur]
    dsimp only
    rw [if_pos ⟨by omega, hlast⟩]
    omega

/-- A move while an effect is played. -/
theorem exists_moved (k : FiberLock L) (behind : Nat → SoundEffect F) (hp : Pace s) (hr : Regular s.sampleRate s.current)
    (hlt : s.samplesWritten < s.samplesToWrite) : ∃ out t, s.move k behind = some (out, t) ∧ Moved s out t := by
  have hge := hp.le_stepEndPosition hlt
  have hle := hp.stepEndPosition_le hr hlt
  by_cases hend : s.samplesWritten = s.stepEndPosition
  · have hs : s = { s with samplesWritten := s.stepEndPosition, position := s.position } := by rw [← hend]
    exact ⟨_, _, move_end hlt hend, end_moved hp hr hlt hs []
      (fun _ ho => absurd ho List.not_mem_nil) (by simpa using hend.symm) fun _ => rfl⟩
  · by_cases hlast : s.samplesWritten + 1 = s.stepEndPosition
    · have hs : s.synthesize.2 = { s with samplesWritten := s.stepEndPosition, position := s.synthesize.2.position } := by
        rw [← hlast]
        rfl
      refine ⟨_, _, move_last hlt hlast, end_moved hp hr hlt hs
        [.sample (s.effect.getD 0) s.synthesize.1] ?_ hlast.symm fun _ => rfl⟩
      intro o ho
      rw [List.mem_singleton.mp ho]
      rfl
    · have hmore : s.samplesWritten + 1 < s.stepEndPosition := by omega
      refine ⟨_, _, move_sample hlt hmore, ⟨_, _, _, _, _, rfl⟩, hp.write hr hlt (by omega) (by omega) _, ?_, rfl,
        fun i => Or.inl ⟨rfl, rfl⟩, fun _ hdone => ?_⟩
      · intro o ho
        rw [List.mem_singleton.mp ho]
        rfl
      · have hw : s.samplesWritten + 1 = s.samplesToWrite := hdone
        omega

/-! ## Without rounding -/

/-- On numbers that are not negative, the conversion to `int` rounds down. -/
theorem toInt_of_nonneg {x : ℚ} (h : 0 ≤ x) : toInt x = ⌊x⌋ := if_pos h

/-- The end of a step over exact numbers, rounded down. -/
theorem stepEnd_eq {n steps a : Int} (hn : 0 ≤ n) (hs : 0 < steps) (ha : 0 ≤ a) :
    stepEnd ℚ n steps a = ⌊(n * a / steps : ℚ)⌋ := by
  have hn : (0 : ℚ) ≤ n := Int.cast_nonneg hn
  have hs : (0 : ℚ) < steps := Int.cast_pos.mpr hs
  have ha : (0 : ℚ) ≤ a := Int.cast_nonneg ha
  have heq : (n / steps : ℚ) * a = n * a / steps := div_mul_eq_mul_div _ _ _
  rw [← heq]
  exact toInt_of_nonneg (mul_nonneg (div_nonneg hn hs.le) ha)

/-- The steps of an effect end in time where the arithmetic does not round. -/
theorem timely_of_nonneg {sampleRate : Int} {e : SoundEffect ℚ} (hrate : 0 ≤ sampleRate) (hd : 0 ≤ e.duration) :
    Timely sampleRate e := by
  have hcount : 0 ≤ determineSampleCount sampleRate e.duration := by
    have hneg : ¬e.duration < (ofInt 0 : ℚ) := not_lt.mpr hd
    have hnonneg : (0 : ℚ) ≤ ofInt sampleRate * (e.duration / ofInt 1000) :=
      mul_nonneg (Int.cast_nonneg hrate) (div_nonneg hd (by decide))
    unfold determineSampleCount
    rw [if_neg hneg, toInt_of_nonneg hnonneg]
    exact Int.floor_nonneg.mpr hnonneg
  have hsteps : ∀ i, 0 < steps e i := fun i => Int.lt_of_lt_of_le Int.zero_lt_one (one_le_steps e i)
  -- the steps divide the samples evenly, and each end is rounded down
  have hmono : ∀ i a b, 0 ≤ a → a ≤ b →
      stepEnd ℚ (determineSampleCount sampleRate e.duration) (steps e i) a ≤
        stepEnd ℚ (determineSampleCount sampleRate e.duration) (steps e i) b := by
    intro i a b ha hab
    rw [stepEnd_eq hcount (hsteps i) ha, stepEnd_eq hcount (hsteps i) (ha.trans hab)]
    have hs : (0 : ℚ) < steps e i := Int.cast_pos.mpr (hsteps i)
    have hn : (0 : ℚ) ≤ determineSampleCount sampleRate e.duration := Int.cast_nonneg hcount
    have hab : (a : ℚ) ≤ b := Int.cast_le.mpr hab
    exact Int.floor_mono (div_le_div_of_nonneg_right (mul_le_mul_of_nonneg_left hab hn) hs.le)
  have hzero : ∀ i, stepEnd ℚ (determineSampleCount sampleRate e.duration) (steps e i) 0 = 0 := by
    intro i
    rw [stepEnd_eq hcount (hsteps i) (Int.le_refl 0), Int.cast_zero, mul_zero, zero_div, Int.floor_zero]
  have hall : ∀ i, stepEnd ℚ (determineSampleCount sampleRate e.duration) (steps e i) (steps e i) =
      determineSampleCount sampleRate e.duration := by
    intro i
    have hs : (steps e i : ℚ) ≠ 0 := Int.cast_ne_zero.mpr (hsteps i).ne'
    rw [stepEnd_eq hcount (hsteps i) (hsteps i).le, mul_div_cancel_right₀ _ hs, Int.floor_intCast]
  refine ⟨⟨hcount, fun i => (hzero i).ge, fun i a ha _ => hmono i a (a + 1) ha (by omega), fun i a ha hlt => ?_⟩,
    fun i a ha hlt hpos => ?_⟩
  · exact (hmono i a _ ha hlt.le).trans (hall i).le
  · have hs : (0 : ℚ) < steps e i := Int.cast_pos.mpr (hsteps i)
    have hn : (0 : ℚ) < determineSampleCount sampleRate e.duration := Int.cast_pos.mpr hpos
    have ha' : (a : ℚ) < steps e i := Int.cast_lt.mpr (by omega)
    rw [stepEnd_eq hcount (hsteps i) ha, Int.floor_lt, div_lt_iff₀ hs]
    exact mul_lt_mul_of_pos_left ha' hn

end SoundEmojiSynthesizer

end CodalMicrobit
