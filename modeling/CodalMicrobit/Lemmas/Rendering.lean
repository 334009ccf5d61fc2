import CodalMicrobit.Audio.SoundEmojiSynthesizer
import Mathlib.Algebra.Order.BigOperators.Group.Finset

/-!
# The rendering of an effect

Generating samples changes the voice of the synthesizer, the number of samples written and the steps of the tone effects,
and nothing else. Where the ends of the steps follow each other within the effect, the loop ends: with a full buffer, or
with all the samples of the effect written.
-/

namespace CodalMicrobit

open MachineFloat

namespace SoundEmojiSynthesizer

section
variable {L F : Type} {s s' s'' : SoundEmojiSynthesizer L F}

/-- `s'` is `s` after some rendering. -/
def Renders (s s' : SoundEmojiSynthesizer L F) : Prop :=
  ∃ samplesWritten step frequency volume position,
    s' = { s with samplesWritten, step, frequency, volume, position }

theorem Renders.refl (s : SoundEmojiSynthesizer L F) : Renders s s := ⟨_, _, _, _, _, rfl⟩

theorem Renders.trans (h : Renders s s') (h' : Renders s' s'') : Renders s s'' := by
  obtain ⟨_, _, _, _, _, rfl⟩ := h
  obtain ⟨w, step, f, v, p, rfl⟩ := h'
  exact ⟨w, step, f, v, p, rfl⟩

/-- Rendering stays within the current effect. -/
theorem Renders.current (h : Renders s s') : s'.current = s.current := by
  obtain ⟨_, _, _, _, _, rfl⟩ := h
  rfl

/-- Rendering leaves the buffer of effects alone. -/
theorem Renders.effectBuffer (h : Renders s s') : s'.effectBuffer = s.effectBuffer := by
  obtain ⟨_, _, _, _, _, rfl⟩ := h
  rfl

/-- Rendering leaves the number of samples to write alone. -/
theorem Renders.samplesToWrite (h : Renders s s') : s'.samplesToWrite = s.samplesToWrite := by
  obtain ⟨_, _, _, _, _, rfl⟩ := h
  rfl

/-- Rendering leaves `stopping` alone. -/
theorem Renders.stopping (h : Renders s s') : s'.stopping = s.stopping := by
  obtain ⟨_, _, _, _, _, rfl⟩ := h
  rfl

/-- Rendering leaves the buffer size alone. -/
theorem Renders.bufferSize (h : Renders s s') : s'.bufferSize = s.bufferSize := by
  obtain ⟨_, _, _, _, _, rfl⟩ := h
  rfl

/-- One tone effect that is invoked is part of rendering. -/
theorem invokeEffect_renders (ends : Fin EMOJI_SYNTHESIZER_TONE_EFFECTS → Int) (s : SoundEmojiSynthesizer L F)
    (i : Fin EMOJI_SYNTHESIZER_TONE_EFFECTS) : Renders s (s.invokeEffect ends i) := by
  unfold invokeEffect
  split
  · exact ⟨_, _, _, _, _, rfl⟩
  · exact Renders.refl s

/-- A tone effect has at least one step. -/
theorem one_le_steps (e : SoundEffect F) (i : Fin EMOJI_SYNTHESIZER_TONE_EFFECTS) : 1 ≤ steps e i := by
  unfold steps
  omega

/-- Invoking a tone effect writes no sample. -/
@[simp] theorem invokeEffect_samplesWritten (ends : Fin EMOJI_SYNTHESIZER_TONE_EFFECTS → Int)
    (s : SoundEmojiSynthesizer L F) (i : Fin EMOJI_SYNTHESIZER_TONE_EFFECTS) :
    (s.invokeEffect ends i).samplesWritten = s.samplesWritten := by
  unfold invokeEffect
  split <;> rfl

/-- Invoking a tone effect changes only its parameters and step. -/
@[simp] theorem invokeEffect_current (ends : Fin EMOJI_SYNTHESIZER_TONE_EFFECTS → Int)
    (s : SoundEmojiSynthesizer L F) (i : Fin EMOJI_SYNTHESIZER_TONE_EFFECTS) :
    (s.invokeEffect ends i).current = s.current := by
  unfold invokeEffect
  split <;> rfl

/-- A tone effect takes its step exactly when it is due and has one left. -/
theorem invokeEffect_step (ends : Fin EMOJI_SYNTHESIZER_TONE_EFFECTS → Int) (s : SoundEmojiSynthesizer L F)
    (i j : Fin EMOJI_SYNTHESIZER_TONE_EFFECTS) :
    (s.invokeEffect ends i).step j =
      s.step j + if j = i ∧ s.samplesWritten = ends i ∧ s.step i < steps s.current i then 1 else 0 := by
  unfold invokeEffect
  by_cases hdue : s.samplesWritten = ends i ∧ s.step i < steps s.current i
  · rw [if_pos hdue]
    by_cases hj : j = i
    · subst hj
      simp [hdue]
    · simp [hj]
  · rw [if_neg hdue, if_neg fun h => hdue h.2, Int.add_zero]

/-- The steps that are done after a turn. -/
theorem invokeEffects_step (ends : Fin EMOJI_SYNTHESIZER_TONE_EFFECTS → Int) (s : SoundEmojiSynthesizer L F)
    (i : Fin EMOJI_SYNTHESIZER_TONE_EFFECTS) :
    (((s.invokeEffect ends 0).invokeEffect ends 1).invokeEffect ends 2).step i =
      s.step i + if s.samplesWritten = ends i ∧ s.step i < steps s.current i then 1 else 0 := by
  simp only [invokeEffect_step, invokeEffect_samplesWritten, invokeEffect_current]
  match i with
  | 0 => simp
  | 1 => simp
  | 2 => simp

end

variable {L F : Type} [MachineFloat F] {s s' : SoundEmojiSynthesizer L F}

/-- The samples up to the end of a step, or up to the end of the buffer. -/
theorem writeSamples_spec (n : Nat) : ∀ (s : SoundEmojiSynthesizer L F) (buffer : List UInt16),
    ∃ full buffer' position,
      s.writeSamples n buffer = (full, buffer',
        { s with samplesWritten := s.samplesWritten + (buffer'.length - buffer.length : Int), position }) ∧
      buffer.length ≤ buffer'.length ∧
      (full = false → buffer'.length = buffer.length + n) ∧
      (full = true → 2 * (buffer'.length : Int) = s.bufferSize ∧ buffer'.length < buffer.length + n) ∧
      ∀ room : Nat, s.bufferSize = 2 * room → buffer.length ≤ room → buffer'.length ≤ room := by
  induction n with
  | zero =>
    intro s buffer
    refine ⟨false, buffer, s.position, ?_, Nat.le_refl _, fun _ => rfl, nofun, fun _ _ h => h⟩
    rw [writeSamples, Int.sub_self, Int.add_zero]
  | succ n ih =>
    intro s buffer
    by_cases hfull : 2 * (buffer.length : Int) = s.bufferSize
    · refine ⟨true, buffer, s.position, ?_, Nat.le_refl _, nofun, fun _ => ⟨hfull, by omega⟩, fun _ _ h => h⟩
      rw [writeSamples, if_pos hfull, Int.sub_self, Int.add_zero]
    · obtain ⟨full, buffer', position, heq, hle, hmore, hend, hroom⟩ :=
        ih s.synthesize.2 (buffer ++ [s.synthesize.1])
      rw [List.length_append, List.length_singleton] at heq hle hmore hend hroom
      refine ⟨full, buffer', position, ?_, by omega, fun h => by have := hmore h; omega,
        fun h => ⟨(hend h).1, by have := (hend h).2; omega⟩, fun room hs hl => hroom room hs (by omega)⟩
      rw [writeSamples, if_neg hfull]
      refine heq.trans ?_
      have hcount : s.samplesWritten + 1 + (buffer'.length - (buffer.length + 1 : Nat) : Int) =
          s.samplesWritten + (buffer'.length - buffer.length : Int) := by omega
      simp only [synthesize, hcount]

/-- The loop that renders samples is rendering, whether or not the buffer is full behind it. -/
theorem render_renders (fuel : Nat) :
    ∀ {s s' : SoundEmojiSynthesizer L F} {buffer buffer' : List UInt16} {full : Bool},
      s.render fuel buffer = some (full, buffer', s') → Renders s s' := by
  induction fuel with
  | zero => intro s s' buffer buffer' full h; simp [render] at h
  | succ fuel ih =>
    intro s s' buffer buffer' full h
    rw [render] at h
    split at h
    · obtain ⟨full₁, buffer₁, position, heq, -⟩ :=
        writeSamples_spec (s.stepEndPosition - s.samplesWritten).toNat s buffer
      rw [heq] at h
      cases full₁ with
      | true =>
        simp only [Option.some.injEq, Prod.mk.injEq] at h
        obtain ⟨-, -, rfl⟩ := h
        exact ⟨_, _, _, _, _, rfl⟩
      | false =>
        have hwrote : Renders s { s with
            samplesWritten := s.samplesWritten + (buffer₁.length - buffer.length : Int), position } :=
          ⟨_, _, _, _, _, rfl⟩
        exact (((hwrote.trans (invokeEffect_renders _ _ 0)).trans (invokeEffect_renders _ _ 1)).trans
          (invokeEffect_renders _ _ 2)).trans (ih h)
    · simp only [Option.some.injEq, Prod.mk.injEq] at h
      obtain ⟨-, -, rfl⟩ := h
      exact Renders.refl s

/-- What is in the buffer stays in it. -/
theorem render_length_le (fuel : Nat) :
    ∀ {s s' : SoundEmojiSynthesizer L F} {buffer buffer' : List UInt16} {full : Bool},
      s.render fuel buffer = some (full, buffer', s') → buffer.length ≤ buffer'.length := by
  induction fuel with
  | zero => exact fun h => absurd h nofun
  | succ fuel ih =>
    intro s s' buffer buffer' full h
    rw [render] at h
    split at h
    · obtain ⟨full₁, buffer₁, position, heq, hle, -⟩ :=
        writeSamples_spec (s.stepEndPosition - s.samplesWritten).toNat s buffer
      rw [heq] at h
      cases full₁ with
      | true =>
        simp only [Option.some.injEq, Prod.mk.injEq] at h
        rwa [← h.2.1]
      | false => exact hle.trans (ih h)
    · simp only [Option.some.injEq, Prod.mk.injEq] at h
      rw [h.2.1]

/-- With no sample due there is nothing to render. -/
theorem render_done (fuel : Nat) (buffer : List UInt16) (h : ¬s.samplesWritten < s.samplesToWrite) :
    s.render (fuel + 1) buffer = some (false, buffer, s) := by
  rw [render, if_neg h]

/-! ## The ends of the steps -/

/-- The sample at which the step `a` of `steps` ends, in an effect of `n` samples. -/
def stepEnd (F : Type) [MachineFloat F] (n steps a : Int) : Int := toInt ((ofInt n / ofInt steps : F) * ofInt a)

/-- The arithmetic gives the effect a number of samples, and the ends of its steps in order and within these. -/
structure Regular (sampleRate : Int) (e : SoundEffect F) : Prop where
  count : 0 ≤ determineSampleCount sampleRate e.duration
  first : ∀ i, 0 ≤ stepEnd F (determineSampleCount sampleRate e.duration) (steps e i) 0
  next : ∀ i a, 0 ≤ a → a + 1 < steps e i →
    stepEnd F (determineSampleCount sampleRate e.duration) (steps e i) a ≤
      stepEnd F (determineSampleCount sampleRate e.duration) (steps e i) (a + 1)
  last : ∀ i a, 0 ≤ a → a < steps e i →
    stepEnd F (determineSampleCount sampleRate e.duration) (steps e i) a ≤
      determineSampleCount sampleRate e.duration

/-- How far the rendering of the effect has come. -/
structure Pace (s : SoundEmojiSynthesizer L F) : Prop where
  count : s.samplesToWrite = determineSampleCount s.sampleRate s.current.duration
  perStep : ∀ i, s.samplesPerStep i = ofInt s.samplesToWrite / ofInt (steps s.current i)
  nonneg : 0 ≤ s.samplesWritten
  le : s.samplesWritten ≤ s.samplesToWrite
  step : s.samplesWritten < s.samplesToWrite → ∀ i,
    0 ≤ s.step i ∧ s.step i < steps s.current i ∧ s.samplesWritten ≤ s.effectStepEnd i

/-- Beginning an effect. -/
theorem begin_pace {i : Nat} (h : Regular s.sampleRate (s.effectBuffer.get i)) : Pace (s.begin i) where
  count := rfl
  perStep _ := rfl
  nonneg := Int.le_refl 0
  le := h.count
  step _ k := by
    refine ⟨Int.le_refl 0, Int.lt_of_lt_of_le Int.zero_lt_one (one_le_steps _ k), ?_⟩
    unfold effectStepEnd
    split
    · exact h.count
    · exact h.first k

/-- In a regular effect a step ends with the last sample at the latest. -/
theorem effectStepEnd_le (hp : Pace s) (hr : Regular s.sampleRate s.current) (i : Fin EMOJI_SYNTHESIZER_TONE_EFFECTS)
    (h0 : 0 ≤ s.step i) (hlt : s.step i < steps s.current i) : s.effectStepEnd i ≤ s.samplesToWrite := by
  unfold effectStepEnd
  split
  · exact Int.le_refl _
  · rw [hp.perStep, hp.count]
    exact hr.last i _ h0 hlt


/-- The next position at which a step ends is no later than the end of any one. -/
theorem stepEndPosition_le (s : SoundEmojiSynthesizer L F) (i : Fin EMOJI_SYNTHESIZER_TONE_EFFECTS) :
    s.stepEndPosition ≤ s.effectStepEnd i := by
  unfold stepEndPosition
  match i with
  | 0 => omega
  | 1 => omega
  | 2 => omega

/-- The earliest of the steps that are due ends a step. -/
theorem exists_stepEndPosition (s : SoundEmojiSynthesizer L F) : ∃ i, s.stepEndPosition = s.effectStepEnd i := by
  unfold stepEndPosition
  rcases min_choice (min (s.effectStepEnd 0) (s.effectStepEnd 1)) (s.effectStepEnd 2) with h | h
  · rcases min_choice (s.effectStepEnd 0) (s.effectStepEnd 1) with h' | h'
    · exact ⟨0, h.trans h'⟩
    · exact ⟨1, h.trans h'⟩
  · exact ⟨2, h⟩

/-- While samples are left, the next end of a step is not behind. -/
theorem Pace.le_stepEndPosition (hp : Pace s) (hlt : s.samplesWritten < s.samplesToWrite) :
    s.samplesWritten ≤ s.stepEndPosition := by
  obtain ⟨i, hi⟩ := exists_stepEndPosition s
  rw [hi]
  exact (hp.step hlt i).2.2

/-- While samples are left, the next end of a step is within them. -/
theorem Pace.stepEndPosition_le (hp : Pace s) (hr : Regular s.sampleRate s.current)
    (hlt : s.samplesWritten < s.samplesToWrite) : s.stepEndPosition ≤ s.samplesToWrite :=
  (s.stepEndPosition_le 0).trans (effectStepEnd_le hp hr 0 (hp.step hlt 0).1 (hp.step hlt 0).2.1)

/-- The end of the step that a tone effect has come to. -/
theorem Renders.effectStepEnd (h : Renders s s') (i : Fin EMOJI_SYNTHESIZER_TONE_EFFECTS) :
    s'.effectStepEnd i = if s'.step i = steps s.current i - 1 then s.samplesToWrite
      else toInt (s.samplesPerStep i * ofInt (s'.step i)) := by
  obtain ⟨_, _, _, _, _, rfl⟩ := h
  rfl

/-- The end of a step that follows a turn is not before the end of the turn. -/
theorem Pace.next_end (hp : Pace s) (hr : Regular s.sampleRate s.current) {i : Fin EMOJI_SYNTHESIZER_TONE_EFFECTS}
    (h0 : 0 ≤ s.step i) (hmore : s.step i + 1 < steps s.current i) {t : SoundEmojiSynthesizer L F}
    (hren : Renders s t) (ht : t.step i = s.step i + 1) : s.effectStepEnd i ≤ t.effectStepEnd i := by
  have hlt : s.step i < steps s.current i := by omega
  rw [hren.effectStepEnd, ht]
  split
  · exact effectStepEnd_le hp hr i h0 hlt
  · rw [SoundEmojiSynthesizer.effectStepEnd, if_neg (by omega), hp.perStep, hp.count]
    exact hr.next i _ h0 hmore

/-- A turn of `render` that does not fill the buffer. -/
theorem turn_pace (hp : Pace s) (hr : Regular s.sampleRate s.current) (hlt : s.samplesWritten < s.samplesToWrite)
    {t : SoundEmojiSynthesizer L F} (hren : Renders s t) (hw : t.samplesWritten = s.stepEndPosition)
    (hstep : ∀ i, t.step i =
      s.step i + if s.stepEndPosition = s.effectStepEnd i ∧ s.step i < steps s.current i then 1 else 0) :
    Pace t ∧ t.renderFuel < s.renderFuel := by
  have hge := hp.le_stepEndPosition hlt
  have hle := hp.stepEndPosition_le hr hlt
  have hcur := hren.current
  have hcount := hren.samplesToWrite
  constructor
  · refine ⟨?_, ?_, by rw [hw]; exact hp.nonneg.trans hge, by rw [hw, hcount]; exact hle, fun hmore i => ?_⟩
    · obtain ⟨_, _, _, _, _, rfl⟩ := hren
      exact hp.count
    · obtain ⟨_, _, _, _, _, rfl⟩ := hren
      exact hp.perStep
    · obtain ⟨h0, hstepLt, -⟩ := hp.step hlt i
      rw [hw, hcount] at hmore
      by_cases hdue : s.stepEndPosition = s.effectStepEnd i
      · -- a step that ends before the effect does is not its last one
        have hnext : s.step i + 1 < steps s.current i := by
          by_contra hlast
          have : s.effectStepEnd i = s.samplesToWrite := by
            rw [effectStepEnd, if_pos (by omega)]
          omega
        have ht := hstep i
        rw [if_pos ⟨hdue, hstepLt⟩] at ht
        rw [hw, hcur, ht, hdue]
        exact ⟨by omega, hnext, hp.next_end hr h0 hnext hren ht⟩
      · have ht := hstep i
        rw [if_neg fun h => hdue h.1, Int.add_zero] at ht
        have hsame : t.effectStepEnd i = s.effectStepEnd i := by
          rw [hren.effectStepEnd, ht]
          rfl
        rw [hw, hcur, ht, hsame]
        exact ⟨h0, hstepLt, s.stepEndPosition_le i⟩
  · obtain ⟨i, hi⟩ := exists_stepEndPosition s
    have hsteps : ∀ j, (steps t.current j - t.step j).toNat ≤ (steps s.current j - s.step j).toNat := by
      intro j
      rw [hcur, hstep j]
      split <;> omega
    have hless : (steps t.current i - t.step i).toNat < (steps s.current i - s.step i).toNat := by
      have := (hp.step hlt i).2.1
      rw [hcur, hstep i, if_pos ⟨hi, this⟩]
      omega
    have hsum := Finset.sum_lt_sum (s := Finset.univ) (fun j _ => hsteps j) ⟨i, Finset.mem_univ i, hless⟩
    unfold renderFuel
    rw [hcount, hw]
    omega

/-- Writing samples up to the end of a step. -/
theorem Pace.write (hp : Pace s) (hr : Regular s.sampleRate s.current) (hlt : s.samplesWritten < s.samplesToWrite)
    {n : Int} (hn : s.samplesWritten ≤ n) (hle : n ≤ s.stepEndPosition) (position : F) :
    Pace { s with samplesWritten := n, position } := by
  refine ⟨hp.count, hp.perStep, hp.nonneg.trans hn, hle.trans (hp.stepEndPosition_le hr hlt), fun _ i => ?_⟩
  obtain ⟨h0, hlast, -⟩ := hp.step hlt i
  exact ⟨h0, hlast, hle.trans (s.stepEndPosition_le i)⟩

/-- An effect that has no samples left. -/
theorem Pace.done (hp : Pace s) (h : ¬s.samplesWritten < s.samplesToWrite) : s.samplesWritten = s.samplesToWrite := by
  have := hp.le
  omega

/-- A turn of `render`: the buffer is full before the step ends, or the step is ended and the loop goes on. -/
theorem render_turn (fuel : Nat) (buffer : List UInt16) (hp : Pace s) (hr : Regular s.sampleRate s.current)
    (hlt : s.samplesWritten < s.samplesToWrite) :
    ∃ full buffer₁ t, s.writeSamples (s.stepEndPosition - s.samplesWritten).toNat buffer = (full, buffer₁, t) ∧
      buffer.length ≤ buffer₁.length ∧
      t.samplesWritten = s.samplesWritten + (buffer₁.length - buffer.length : Int) ∧
      (∀ room : Nat, s.bufferSize = 2 * room → buffer.length ≤ room → buffer₁.length ≤ room) ∧
      (full = true → s.render (fuel + 1) buffer = some (true, buffer₁, t) ∧ Pace t ∧
        2 * (buffer₁.length : Int) = s.bufferSize) ∧
      (full = false → ∃ u, u = ((t.invokeEffect s.effectStepEnd 0).invokeEffect s.effectStepEnd 1).invokeEffect
          s.effectStepEnd 2 ∧ s.render (fuel + 1) buffer = u.render fuel buffer₁ ∧ Renders s u ∧
        u.samplesWritten = t.samplesWritten ∧ Pace u ∧ u.renderFuel < s.renderFuel) := by
  have hge := hp.le_stepEndPosition hlt
  obtain ⟨full, buffer₁, position, heq, hlen, hmore, hend, hroom⟩ :=
    writeSamples_spec (s.stepEndPosition - s.samplesWritten).toNat s buffer
  refine ⟨full, buffer₁, _, heq, hlen, rfl, hroom, ?_, ?_⟩
  · rintro rfl
    obtain ⟨hfull, hshort⟩ := hend rfl
    refine ⟨?_, hp.write hr hlt (by omega) (by omega) position, hfull⟩
    rw [render, if_pos hlt]
    dsimp only
    rw [heq]
  · rintro rfl
    have hcount : s.samplesWritten + (buffer₁.length - buffer.length : Int) = s.stepEndPosition := by
      have := hmore rfl
      omega
    rw [hcount] at heq ⊢
    have hren : Renders s { s with samplesWritten := s.stepEndPosition, position } := ⟨_, _, _, _, _, rfl⟩
    have hdue := invokeEffects_step s.effectStepEnd { s with samplesWritten := s.stepEndPosition, position }
    have hsame : ((({ s with samplesWritten := s.stepEndPosition, position }.invokeEffect s.effectStepEnd
        0).invokeEffect s.effectStepEnd 1).invokeEffect s.effectStepEnd 2).samplesWritten = s.stepEndPosition := by
      simp
    have hren := ((hren.trans (invokeEffect_renders s.effectStepEnd _ 0)).trans
      (invokeEffect_renders s.effectStepEnd _ 1)).trans (invokeEffect_renders s.effectStepEnd _ 2)
    obtain ⟨hpace, hfuel⟩ := turn_pace hp hr hlt hren hsame hdue
    refine ⟨_, rfl, ?_, hren, hsame, hpace, hfuel⟩
    rw [render, if_pos hlt]
    dsimp only
    rw [heq]

/-- Rendering keeps the effect regular. -/
theorem Renders.regular (h : Renders s s') (hr : Regular s.sampleRate s.current) : Regular s'.sampleRate s'.current := by
  obtain ⟨_, _, _, _, _, rfl⟩ := h
  exact hr

/-- The rendering of an effect ends: the buffer is full, or all the samples of the effect are written. -/
theorem render_spec (fuel : Nat) : ∀ {s : SoundEmojiSynthesizer L F} (buffer : List UInt16), Pace s →
    Regular s.sampleRate s.current → s.renderFuel ≤ fuel →
    ∃ full buffer' s', s.render fuel buffer = some (full, buffer', s') ∧ Pace s' ∧
      s'.samplesWritten = s.samplesWritten + (buffer'.length - buffer.length : Int) ∧
      buffer.length ≤ buffer'.length ∧
      (full = true → 2 * (buffer'.length : Int) = s.bufferSize) ∧
      (full = false → s'.samplesWritten = s'.samplesToWrite) ∧
      ∀ room : Nat, s.bufferSize = 2 * room → buffer.length ≤ room → buffer'.length ≤ room := by
  induction fuel with
  | zero =>
    intro s buffer _ _ hfuel
    unfold renderFuel at hfuel
    omega
  | succ fuel ih =>
    intro s buffer hp hr hfuel
    by_cases hlt : s.samplesWritten < s.samplesToWrite
    · obtain ⟨full, buffer₁, t, -, hlen, hw, hroom, hfull, hmore⟩ := render_turn fuel buffer hp hr hlt
      cases full with
      | true =>
        obtain ⟨heq, hpace, hsize⟩ := hfull rfl
        exact ⟨true, buffer₁, t, heq, hpace, hw, hlen, fun _ => hsize, nofun, hroom⟩
      | false =>
        obtain ⟨u, -, heq, hren, hsame, hpace, hless⟩ := hmore rfl
        have hsize := hren.bufferSize
        obtain ⟨full, buffer', s', heq', hpace', hw', hlen', hfull', hdone', hroom'⟩ :=
          ih buffer₁ hpace (hren.regular hr) (by omega)
        exact ⟨full, buffer', s', heq.trans heq', hpace', by omega, by omega, fun h => (hfull' h).trans hsize, hdone',
          fun room hs hl => hroom' room (hsize.trans hs) (hroom room hs hl)⟩
    · exact ⟨false, buffer, s, render_done fuel buffer hlt, hp, by omega, Nat.le_refl _, nofun, fun _ => hp.done hlt,
        fun _ _ h => h⟩

end SoundEmojiSynthesizer

end CodalMicrobit
