import CodalMicrobit.Lemmas.Playout
import CodalMicrobit.Theorems.PlaybackLock

/-!
# The size of the audio buffers

The synthesizer makes the same moves for every size of the buffers that it is asked for: a pull makes as many of them as there
is room for in its buffer. This holds for sizes that are positive and even, and as long as a pull comes to no effect without
samples, with which it ends before its buffer is full.
-/

namespace CodalMicrobit

open MachineFloat Output Streaming

namespace SoundEmojiSynthesizer

variable {L F : Type} [MachineFloat F] {k : FiberLock L} {behind : Nat → SoundEffect F}
  {s s' t : SoundEmojiSynthesizer L F}

/-! ## The pulls make moves -/

/-- The effect at `i` is played in a buffer that ends, and the effects behind it have samples. -/
structure Ending (k : FiberLock L) (i : Nat) (s : SoundEmojiSynthesizer L F) : Prop where
  playing : Playing i s
  stopping : s.stopping = false
  ends : Ends k s.effectBuffer s
  regular : AllRegular s
  counted : ∀ j, i < j → j * SIZEOF_SOUND_EFFECT < s.effectBuffer.length →
    determineSampleCount s.sampleRate (s.effectBuffer.get j).duration ≠ 0

/-- The effect being played is regular. -/
theorem Ending.currentRegular {i : Nat} (h : Ending k i s) : Regular s.sampleRate s.current := h.playing.regular h.regular

/-- The effect being played is in pace. -/
theorem Ending.pace {i : Nat} (h : Ending k i s) : Pace s := h.playing.pace h.currentRegular

/-- The next effect of a sound that ends. -/
theorem Ending.begin {i : Nat} (h : Ending k i s) (hi : (i + 1) * SIZEOF_SOUND_EFFECT < s.effectBuffer.length) :
    Ending k (i + 1) (s.begin (i + 1)) where
  playing := h.playing.begin hi
  stopping := h.stopping
  ends := h.ends
  regular := h.regular
  counted j hj := h.counted j (by omega)

/-- Rendering does not leave the effect. -/
theorem Ending.renders {i : Nat} (h : Ending k i s) (hr : Renders s s') (hp : Playing i s') : Ending k i s' := by
  obtain ⟨_, _, _, _, _, rfl⟩ := hr
  exact ⟨hp, h.stopping, h.ends, h.regular, h.counted⟩

/-- At the end of an effect: the next one begins, or the playout ends. -/
theorem Ending.advance (behind : Nat → SoundEffect F) {i : Nat} (h : Ending k i s) (hw : s.samplesWritten = s.samplesToWrite) :
    (i + 1) * SIZEOF_SOUND_EFFECT < s.effectBuffer.length ∧
        s.advance k behind = (false, s.begin (i + 1)) ∨
      s.effectBuffer.length ≤ (i + 1) * SIZEOF_SOUND_EFFECT ∧
        s.advance k behind = (true, (s.rest behind).complete k) := by
  by_cases hi : (i + 1) * SIZEOF_SOUND_EFFECT < s.effectBuffer.length
  · have hcount : (s.begin (i + 1)).samplesToWrite ≠ 0 := h.counted (i + 1) (Nat.lt_succ_self i) hi
    have ha : s.advance k behind = _ :=
      advance_begin h.stopping hw (nextSoundEffect_more h.stopping h.playing.effect hi)
    rw [decide_eq_false hcount] at ha
    exact Or.inl ⟨hi, ha⟩
  · have hi := Nat.not_lt.mp hi
    refine Or.inr ⟨hi, ?_⟩
    refine (advance_rest (Or.inl hw) (nextSoundEffect_last h.stopping h.playing.effect hi h.ends)).trans ?_
    rw [Bool.true_or, if_pos rfl]

/-- A move at the end of an effect stops exactly when nothing is left to play. -/
theorem move_of_advance {done : Bool} (hw : s.samplesWritten = s.samplesToWrite) (ha : s.advance k behind = (done, s')) :
    s.move k behind = if s'.effect.isSome then some ([], s') else none := by
  rw [move, if_neg (by omega)]
  dsimp only
  rw [ha]

/-- The turns of a pull make moves, until the buffer is full or the playout has ended. -/
theorem pullTurns_runs {room : Nat} (fuel : Nat) : ∀ {s : SoundEmojiSynthesizer L F} {i : Nat}
    {sample : Option (List UInt16)} {r : Option (List UInt16) × SoundEmojiSynthesizer L F}, Ending k i s →
    s.bufferSize = 2 * room → (sample.getD []).length ≤ room → s.pullTurns k behind fuel sample = some r →
    ∃ out t, Runs (move k behind) s out t ∧ r.1.getD [] = sample.getD [] ++ samples out ∧
      (r.1.getD []).length ≤ room ∧ r.2.bufferSize = s.bufferSize ∧
      ((∃ j, Ending k j r.2) ∧ SameLock s r.2 ∧ r.2 = t ∧ (r.1.getD []).length = room ∨
        t.move k behind = none ∧ r.2 = (t.rest behind).complete k) := by
  induction fuel with
  | zero => exact fun _ _ _ h => absurd h nofun
  | succ fuel ih =>
    intro s i sample r h hsize hfit hr
    -- a turn that plays an effect
    have hturn : ∀ {j : Nat} {s₁ : SoundEmojiSynthesizer L F}, s.advance k behind = (false, s₁) → Ending k j s₁ →
        SameLock s s₁ → Runs (move k behind) s [] s₁ →
        ∃ out t, Runs (move k behind) s out t ∧ r.1.getD [] = sample.getD [] ++ samples out ∧
          (r.1.getD []).length ≤ room ∧ r.2.bufferSize = s.bufferSize ∧
          ((∃ j, Ending k j r.2) ∧ SameLock s r.2 ∧ r.2 = t ∧ (r.1.getD []).length = room ∨
            t.move k behind = none ∧ r.2 = (t.rest behind).complete k) := by
      intro j s₁ ha h₁ hsame hrun
      obtain ⟨full, buffer', s₂, hres, hplay, hfit', -, hcase⟩ :=
        pullTurns_render fuel sample ha h₁.playing h₁.currentRegular
      have hsize₁ := hsame.bufferSize.trans hsize
      have hfit' := hfit' room hsize₁ hfit
      obtain ⟨out₁, hbuffer, hrun₁⟩ := render_runs k behind _ h₁.pace h₁.currentRegular hres
      have hren := render_renders _ hres
      have h₂ := h₁.renders hren hplay
      have hsame₂ := hsame.trans hren.sameLock
      rcases hcase with ⟨hwhy, b, hget, heq⟩ | ⟨-, -, sample', hget, heq⟩
      · have hfull := hwhy.resolve_right fun h => absurd h.1 nofun
        have hfull : buffer'.length = room := by omega
        rw [heq] at hr
        obtain rfl := Option.some.inj hr
        dsimp only
        rw [hget]
        exact ⟨_, s₂, hrun.trans hrun₁, hbuffer, hfit', hsame₂.bufferSize, Or.inl ⟨⟨j, h₂⟩, hsame₂, rfl, hfull⟩⟩
      · rw [heq] at hr
        obtain ⟨out₂, t, hrun₂, hout, hle, hkept, hcase⟩ :=
          ih h₂ (hsame₂.bufferSize.trans hsize) (by rw [hget]; exact hfit') hr
        refine ⟨_, t, (hrun.trans hrun₁).trans hrun₂, ?_, hle, hkept.trans hsame₂.bufferSize, ?_⟩
        · rw [hout, hget, hbuffer, samples_append, samples_append, samples_nil, List.nil_append, List.append_assoc]
        · exact hcase.imp_left fun ⟨hj, hl, ht⟩ => ⟨hj, hsame₂.trans hl, ht⟩
    by_cases hw : s.samplesWritten = s.samplesToWrite
    · rcases h.advance behind hw with ⟨hi, ha⟩ | ⟨-, ha⟩
      · exact hturn ha (h.begin hi) ⟨rfl, rfl, rfl, rfl, rfl, rfl, rfl⟩ (.one (move_of_advance hw ha))
      · rw [pullTurns_rest fuel sample ha (rest_ended s).idle] at hr
        obtain rfl := Option.some.inj hr
        dsimp only
        rw [created_getD And.right]
        exact ⟨[], s, .refl s, (List.append_nil _).symm, hfit, rfl, Or.inr ⟨move_of_advance hw ha, rfl⟩⟩
    · exact hturn (advance_stay h.stopping hw) h (SameLock.refl s) (.refl s)

/-- A pull returns the samples of some moves. Where the playout ends, they are followed by silence. -/
theorem pull_runs {i room : Nat} {r : List UInt16 × SoundEmojiSynthesizer L F} (h : Ending k i s)
    (hsize : s.bufferSize = 2 * room) (hr : s.pull k behind = some r) :
    ∃ out t, Runs (move k behind) s out t ∧ r.1.length ≤ room ∧
      ((∃ j, Ending k j r.2) ∧ SameLock s r.2 ∧ r.2 = t ∧ r.1 = samples out ∨
        t.move k behind = none ∧ r.2 = (t.rest behind).complete k ∧
          ∃ pad, r.1 = samples out ++ List.replicate pad r.2.silence) := by
  rw [pull, Option.map_eq_some_iff] at hr
  obtain ⟨⟨buffer, s'⟩, heq, rfl⟩ := hr
  obtain ⟨out, t, hrun, hout, hle, hkept, hcase⟩ := pullTurns_runs _ h hsize (Nat.zero_le _) heq
  rw [Option.getD_none, List.nil_append] at hout
  dsimp only at hcase hle hkept hout ⊢
  refine ⟨out, t, hrun, ?_, ?_⟩
  · cases buffer with
    | none => exact Nat.zero_le _
    | some buffer =>
      rw [Option.map_some, Option.getD_some, List.length_append, List.length_replicate, hkept, hsize]
      change buffer.length ≤ room at hle
      omega
  · rcases hcase with ⟨hj, hsame, rfl, hfull⟩ | ⟨hnone, rfl⟩
    · refine Or.inl ⟨hj, hsame, rfl, ?_⟩
      cases buffer with
      | none => exact hout
      | some buffer =>
        have hzero : ((s'.bufferSize + 1) / 2).toNat - buffer.length = 0 := by
          rw [hkept, hsize]
          change buffer.length = room at hfull
          omega
        rw [← hout, Option.map_some, Option.getD_some, hzero, List.replicate_zero, List.append_nil]
        rfl
    · refine Or.inr ⟨hnone, rfl, ?_⟩
      rw [← hout]
      cases buffer with
      | none => exact ⟨0, rfl⟩
      | some buffer => exact ⟨_, rfl⟩

theorem pulls_succ {r : List UInt16 × SoundEmojiSynthesizer L F} (hr : s.pull k behind = some r) (n : Nat) :
    s.pulls k behind (n + 1) = (r.2.pulls k behind n).map fun (buffers, s) => (r.1 :: buffers, s) := by
  rw [pulls, hr]
  rfl

/-- The buffer does not hold more than `size` bytes. -/
def Fits (size : Int) (buffer : List UInt16) : Prop := 2 * (buffer.length : Int) ≤ max size 0

/-- Some number of pulls ends the playout, and returns the samples of all the moves and then silence. -/
def PlaysOut (k : FiberLock L) (behind : Nat → SoundEffect F) (s : SoundEmojiSynthesizer L F) : Prop :=
  ∃ n buffers s' out t, s.pulls k behind n = some (buffers, s') ∧ (∀ b ∈ buffers, Fits s.bufferSize b) ∧
    Runs (move k behind) s out t ∧ t.move k behind = none ∧ s' = (t.rest behind).complete k ∧
    ∃ pad, buffers.flatten = samples out ++ List.replicate pad s'.silence

/-- Where there is room for samples, enough pulls play a buffer to its end. -/
theorem pulls_runs (behind : Nat → SoundEffect F) {s : SoundEmojiSynthesizer L F} {i room : Nat} (h : Ending k i s)
    (hsize : s.bufferSize = 2 * room) (hroom : 0 < room) : PlaysOut k behind s := by
  obtain ⟨r, hpull, hres⟩ := pull_further behind h.playing (fun hs => absurd hs (by simp [h.stopping]))
    (fun _ => h.ends) h.regular hsize hroom
  obtain ⟨out, t, hrun, hle, hcase⟩ := pull_runs h hsize hpull
  have hfits : Fits s.bufferSize r.1 := by
    rw [Fits, hsize]
    omega
  rcases hcase with ⟨⟨j, hj⟩, hsame, rfl, hbuffer⟩ | ⟨hnone, heq, pad, hbuffer⟩
  · rcases hres with hend | ⟨-, j', hj', hfar⟩
    · exact absurd (hend.idle.effect.symm.trans hj.playing.effect) nofun
    · obtain rfl : j' = j := Option.some.inj (hj'.effect.symm.trans hj.playing.effect)
      have hless := h.playing.left_lt hj' hfar h.regular hsame
      obtain ⟨n, buffers, s', out', t, hpulls, hfit, hrun', hnone, heq, pad, hflat⟩ :=
        pulls_runs behind hj (hsame.bufferSize.trans hsize) hroom
      rw [hsame.bufferSize] at hfit
      refine ⟨n + 1, r.1 :: buffers, s', out ++ out', t, ?_, List.forall_mem_cons.mpr ⟨hfits, hfit⟩, hrun.trans hrun',
        hnone, heq, pad, ?_⟩
      · rw [pulls_succ hpull, hpulls]
        rfl
      · rw [List.flatten_cons, hflat, hbuffer, samples_append, List.append_assoc]
  · refine ⟨1, [r.1], r.2, out, t, ?_, List.forall_mem_singleton.mpr hfits, hrun, hnone, heq, pad, ?_⟩
    · rw [pulls_succ hpull]
      rfl
    · rw [List.flatten_singleton, hbuffer]
termination_by left i s
decreasing_by exact hless

/-! ## What the moves give out -/

/-- The steps from 0 on. -/
def upTo (n : Int) : List Int := (List.range n.toNat).map (↑)

theorem upTo_succ {n : Int} (h : 0 ≤ n) : upTo (n + 1) = upTo n ++ [n] := by
  obtain ⟨m, rfl⟩ := Int.eq_ofNat_of_zero_le h
  have hm : ((m : Int) + 1).toNat = m + 1 := rfl
  rw [upTo, hm, List.range_succ, List.map_append]
  rfl

/-- An effect has given out its samples, and each of its effect functions was invoked at every step. -/
structure Completed (sampleRate : Int) (e : SoundEffect F) (out : List Output) : Prop where
  samples : ((samples out).length : Int) = determineSampleCount sampleRate e.duration
  invocations : 0 < determineSampleCount sampleRate e.duration → ∀ c,
    invocations c out = if (e.effects c).effect.isSome then upTo (steps e c) else []

/-- What has been given out so far, while the effect at `i` is played. -/
structure Scored (k : FiberLock L) (i : Nat) (out : List Output) (s : SoundEmojiSynthesizer L F) : Prop where
  ending : Ending k i s
  timely : ∀ j, j * SIZEOF_SOUND_EFFECT < s.effectBuffer.length → Timely s.sampleRate (s.effectBuffer.get j)
  samples : s.samplesWritten = (samples (ofEffect i out)).length
  invocations : ∀ c, invocations c (ofEffect i out) = if (s.current.effects c).effect.isSome then upTo (s.step c) else []
  finished : s.samplesWritten = s.samplesToWrite → 0 < s.samplesToWrite → ∀ c, s.step c = steps s.current c
  before : ∀ j < i, Completed s.sampleRate (s.effectBuffer.get j) (ofEffect j out)
  le : ∀ o ∈ out, o.effect ≤ i

/-- The current effect is the one the buffer has at its place. -/
theorem Playing.current_eq {i : Nat} (h : Playing i s) : s.current = s.effectBuffer.get i := by
  rw [current, h.effect]
  rfl

/-- At its end, the effect that is played is complete. -/
theorem Scored.completed {i : Nat} {out : List Output} (h : Scored k i out s) (hw : s.samplesWritten = s.samplesToWrite) :
    ∀ j ≤ i, Completed s.sampleRate (s.effectBuffer.get j) (ofEffect j out) := by
  intro j hj
  rcases Nat.lt_or_eq_of_le hj with hj | rfl
  · exact h.before j hj
  · have hcur := h.ending.playing.current_eq
    have hcount := h.ending.pace.count
    rw [hcur] at hcount
    refine ⟨by rw [← h.samples, hw, hcount], fun hpos c => ?_⟩
    rw [h.invocations, h.finished hw (hcount ▸ hpos), hcur]

/-- A move while an effect is played. -/
theorem Scored.moved {i : Nat} {out out' : List Output} (h : Scored k i out s) (hm : Moved s out' t)
    (hlt : s.samplesWritten < s.samplesToWrite) : Scored k i (out ++ out') t := by
  have hp := h.ending.playing
  have hlabel : ∀ o ∈ out', o.effect = i := by
    intro o ho
    rw [hm.effect o ho, hp.effect]
    rfl
  have hcur := hm.renders.current
  have hplay : Playing i t := by
    have hpace' := hm.pace
    obtain ⟨_, _, _, _, _, rfl⟩ := hm.renders
    exact ⟨hp.effect, hp.inside, hp.whole, hp.holder, fun _ => hpace'⟩
  have hbuffer := hm.renders.effectBuffer
  have hrate := hm.renders.sameLock.sampleRate
  have htime : Timely s.sampleRate s.current := by
    rw [hp.current_eq]
    exact h.timely i hp.inside
  have hother : ∀ {j : Nat}, j < i → ∀ o ∈ out', o.effect ≠ j := by
    intro j hj o ho
    rw [hlabel o ho]
    omega
  refine ⟨h.ending.renders hm.renders hplay, ?_, ?_, fun c => ?_, fun hw _ c => ?_, fun j hj => ?_, fun o ho => ?_⟩
  · rw [hbuffer, hrate]
    exact h.timely
  · rw [ofEffect_append, ofEffect_all hlabel, samples_append, List.length_append, hm.samples, h.samples]
    omega
  · rw [ofEffect_append, ofEffect_all hlabel, invocations_append, h.invocations, hcur]
    rcases hm.step c with ⟨hstep, hnone⟩ | ⟨hstep, hone⟩
    · rw [hstep, hnone, List.append_nil]
    · rw [hstep, hone, upTo_succ (h.ending.pace.step hlt c).1]
      split <;> rfl
  · rw [hcur]
    exact hm.finished htime hw c
  · rw [hbuffer, hrate, ofEffect_append, ofEffect_none (hother hj), List.append_nil]
    exact h.before j hj
  · rcases List.mem_append.mp ho with ho | ho
    · exact h.le o ho
    · exact (hlabel o ho).le

/-- The next effect begins. -/
theorem Scored.next {i : Nat} {out : List Output} (h : Scored k i out s) (hw : s.samplesWritten = s.samplesToWrite)
    (hi : (i + 1) * SIZEOF_SOUND_EFFECT < s.effectBuffer.length) : Scored k (i + 1) out (s.begin (i + 1)) := by
  have hnone : ofEffect (i + 1) out = [] := ofEffect_none fun o ho => by
    have := h.le o ho
    omega
  refine ⟨h.ending.begin hi, h.timely, ?_, fun c => ?_, fun hw' hpos => ?_, fun j hj => ?_, fun o ho => ?_⟩
  · rw [hnone]
    rfl
  · rw [hnone]
    exact (ite_self _).symm
  · exact absurd hw' (Int.ne_of_lt hpos)
  · exact h.completed hw j (by omega)
  · exact (h.le o ho).trans (Nat.le_succ i)

/-- One move. -/
theorem Scored.step {i : Nat} {out out' : List Output} (h : Scored k i out s) (hm : s.move k behind = some (out', t)) :
    SameLock s t ∧ t.effectBuffer = s.effectBuffer ∧ ∃ j, Scored k j (out ++ out') t := by
  by_cases hlt : s.samplesWritten < s.samplesToWrite
  · obtain ⟨_, _, heq, hmoved⟩ := exists_moved k behind h.ending.pace h.ending.currentRegular hlt
    obtain ⟨rfl, rfl⟩ := Prod.mk.inj (Option.some.inj (heq.symm.trans hm))
    exact ⟨hmoved.renders.sameLock, hmoved.renders.effectBuffer, i, h.moved hmoved hlt⟩
  · have hw := h.ending.pace.done hlt
    rcases h.ending.advance behind hw with ⟨hi, ha⟩ | ⟨-, ha⟩
    · rw [move_of_advance hw ha] at hm
      obtain ⟨rfl, rfl⟩ := Prod.mk.inj (Option.some.inj hm)
      rw [List.append_nil]
      exact ⟨⟨rfl, rfl, rfl, rfl, rfl, rfl, rfl⟩, rfl, i + 1, h.next hw hi⟩
    · rw [move_of_advance hw ha] at hm
      exact absurd hm nofun

/-- Where no move is left, all the effects of the buffer are complete. -/
theorem Scored.all {i : Nat} {out : List Output} (h : Scored k i out s) (hm : s.move k behind = none) :
    ∀ j, j * SIZEOF_SOUND_EFFECT < s.effectBuffer.length →
      Completed s.sampleRate (s.effectBuffer.get j) (ofEffect j out) := by
  by_cases hlt : s.samplesWritten < s.samplesToWrite
  · obtain ⟨_, _, heq, -⟩ := exists_moved k behind h.ending.pace h.ending.currentRegular hlt
    exact absurd (heq.symm.trans hm) nofun
  · have hw := h.ending.pace.done hlt
    rcases h.ending.advance behind hw with ⟨-, ha⟩ | ⟨hi, -⟩
    · rw [move_of_advance hw ha] at hm
      exact absurd hm nofun
    · intro j hj
      refine h.completed hw j ?_
      have := Nat.lt_of_mul_lt_mul_right (hj.trans_le hi)
      omega

/-- All the moves of a playout. -/
theorem Scored.runs {i : Nat} {out : List Output} (h : Scored k i [] s) (hr : Runs (move k behind) s out t)
    (hm : t.move k behind = none) : SameLock s t ∧ ∀ j, j * SIZEOF_SOUND_EFFECT < s.effectBuffer.length →
      Completed s.sampleRate (s.effectBuffer.get j) (ofEffect j out) := by
  have hkeeps := hr.keeps (P := fun out t => SameLock s t ∧ t.effectBuffer = s.effectBuffer ∧ ∃ j, Scored k j out t)
    (fun out u out' v hu huv => by
      obtain ⟨hsame, hb, j, hj⟩ := hu
      obtain ⟨hsame', hb', hscored⟩ := hj.step huv
      exact ⟨hsame.trans hsame', hb'.trans hb, hscored⟩) ⟨SameLock.refl s, rfl, i, h⟩
  rw [List.nil_append] at hkeeps
  obtain ⟨hsame, hb, j, hj⟩ := hkeeps
  refine ⟨hsame, ?_⟩
  rw [← hb, ← hsame.sampleRate]
  exact hj.all hm

/-! ## The size of the buffers -/

/-- The synthesizer with buffers of this size. -/
def resize (size : Int) (s : SoundEmojiSynthesizer L F) : SoundEmojiSynthesizer L F := { s with bufferSize := size }

omit [MachineFloat F] in
/-- A branch is taken whatever the buffer size. -/
theorem resize_ite (size : Int) (c : Prop) [Decidable c] (s t : SoundEmojiSynthesizer L F) :
    (if c then s else t).resize size = if c then s.resize size else t.resize size :=
  apply_ite (resize size) c s t

omit [MachineFloat F] in
/-- A branch with a result is taken whatever the buffer size. -/
theorem map_resize_ite {α : Type} (size : Int) (c : Prop) [Decidable c] (x y : α × SoundEmojiSynthesizer L F) :
    (if c then x else y).map id (resize size) = if c then x.map id (resize size) else y.map id (resize size) :=
  apply_ite (Prod.map id (resize size)) c x y

omit [MachineFloat F] in
/-- Tone effects do not see the buffer size. -/
theorem invokeEffect_resize (size : Int) (ends : Fin EMOJI_SYNTHESIZER_TONE_EFFECTS → Int) (s : SoundEmojiSynthesizer L F)
    (i : Fin EMOJI_SYNTHESIZER_TONE_EFFECTS) :
    (s.resize size).invokeEffect ends i = (s.invokeEffect ends i).resize size := by
  unfold invokeEffect
  rw [resize_ite]
  rfl

/-- Which effect comes next does not depend on the buffer size. -/
theorem nextSoundEffect_resize (size : Int) (s : SoundEmojiSynthesizer L F) :
    (s.resize size).nextSoundEffect k behind = (s.nextSoundEffect k behind).map id (resize size) := by
  unfold nextSoundEffect
  cases hs : s.stopping with
  | true =>
    rw [show (s.resize size).stopping = true from hs]
    simp only [if_true]
    rw [map_resize_ite, map_resize_ite]
    rfl
  | false =>
    rw [show (s.resize size).stopping = false from hs]
    simp only [Bool.false_eq_true, if_false]
    rw [map_resize_ite, map_resize_ite]
    rfl

/-- `advance` does not see the buffer size. -/
theorem advance_resize (size : Int) (s : SoundEmojiSynthesizer L F) :
    (s.resize size).advance k behind = (s.advance k behind).map id (resize size) := by
  unfold advance
  rw [nextSoundEffect_resize]
  obtain ⟨renderComplete, t⟩ := s.nextSoundEffect k behind
  dsimp only
  simp only [map_resize_ite, Prod.map_apply, resize_ite]
  rfl

omit [MachineFloat F] in
/-- Which tone effects are due does not depend on the buffer size. -/
theorem allDue_resize (size : Int) (ends : Fin EMOJI_SYNTHESIZER_TONE_EFFECTS → Int) (s : SoundEmojiSynthesizer L F) :
    (s.resize size).allDue ends = s.allDue ends := by
  rw [allDue_eq, allDue_eq]
  rfl

/-- The moves do not use the size of the buffers. -/
theorem move_resize (size : Int) (s : SoundEmojiSynthesizer L F) :
    (s.resize size).move k behind = (s.move k behind).map (Prod.map id (resize size)) := by
  have hends : (s.resize size).effectStepEnd = s.effectStepEnd := rfl
  have hend : (s.resize size).stepEndPosition = s.stepEndPosition := rfl
  have hsample : (s.resize size).synthesize = s.synthesize.map id (resize size) := rfl
  by_cases hlt : s.samplesWritten < s.samplesToWrite
  · have hlt' : (s.resize size).samplesWritten < (s.resize size).samplesToWrite := hlt
    rw [move, if_pos hlt', move, if_pos hlt, hends, hend, hsample]
    by_cases hmore : s.samplesWritten < s.stepEndPosition
    · have hmore' : (s.resize size).samplesWritten < s.stepEndPosition := hmore
      rw [if_pos hmore, if_pos hmore']
      dsimp only [Prod.map]
      by_cases hnext : s.synthesize.2.samplesWritten < s.stepEndPosition
      · have hnext' : (s.synthesize.2.resize size).samplesWritten < s.stepEndPosition := hnext
        rw [if_pos hnext, if_pos hnext']
        rfl
      · have hnext' : ¬(s.synthesize.2.resize size).samplesWritten < s.stepEndPosition := hnext
        rw [if_neg hnext, if_neg hnext', allDue_resize, invokeEffect_resize, invokeEffect_resize, invokeEffect_resize]
        rfl
    · have hmore' : ¬(s.resize size).samplesWritten < s.stepEndPosition := hmore
      rw [if_neg hmore, if_neg hmore']
      dsimp only
      rw [if_neg hmore, if_neg hmore', allDue_resize, invokeEffect_resize, invokeEffect_resize, invokeEffect_resize]
      rfl
  · have hlt' : ¬(s.resize size).samplesWritten < (s.resize size).samplesToWrite := hlt
    rw [move, if_neg hlt', move, if_neg hlt, advance_resize]
    dsimp only [Prod.map]
    by_cases he : (s.advance k behind).2.effect.isSome = true
    · have he' : ((s.advance k behind).2.resize size).effect.isSome = true := he
      rw [if_pos he, if_pos he']
      rfl
    · have he' : ¬((s.advance k behind).2.resize size).effect.isSome = true := he
      rw [if_neg he, if_neg he']
      rfl

/-! ## A playout -/

/-- The synthesizer once `play` has scheduled the buffer. -/
def started (k : FiberLock L) (sound : EffectBuffer F) (s : SoundEmojiSynthesizer L F) : SoundEmojiSynthesizer L F :=
  { ({ s with
      lock := (k.wait s.lock).2
      effectBuffer := sound
      history := .entered sound :: s.history }).begin 0 with call := .none }

/-- The scheduled step of `play` begins the first effect. -/
theorem next_schedule (k : FiberLock L) (behind : Nat → SoundEffect F) (hcall : s.call = .schedule) (hs : s.stopping = false)
    (he : s.effect = none) (hl : 0 < s.effectBuffer.length) :
    s.next k behind .schedule = some { s.begin 0 with call := .none } := by
  rw [SoundEmojiSynthesizer.next, hcall]
  dsimp only
  rw [nextSoundEffect_first hs he hl]

/-- `play` while nothing is played. -/
theorem run_play (behind : Nat → SoundEffect F) (hk : k.Lawful) (hidle : Idle behind s) (hcall : s.call = .none)
    (hfree : k.waiters s.lock = none) (sound : EffectBuffer F) (hlen : SIZEOF_SOUND_EFFECT ≤ sound.length) :
    s.run k behind [.play sound, .store, .schedule] = some (s.started k sound) := by
  have hplay : s.next k behind (.play sound) = some ({ s with lock := (k.wait s.lock).2 }.enter sound) := by
    rw [next, hcall]
    dsimp only
    rw [if_neg (Nat.not_lt.mpr hlen), if_pos (hk.wait_free _ hfree).1]
  have hstore : ({ s with lock := (k.wait s.lock).2 }.enter sound).next k behind .store =
      some { ({ s with lock := (k.wait s.lock).2 }.enter sound) with effectBuffer := sound, call := .schedule } := rfl
  have hschedule := next_schedule k behind
    (s := { ({ s with lock := (k.wait s.lock).2 }.enter sound) with effectBuffer := sound, call := .schedule }) rfl
    hidle.stopping hidle.effect (Nat.lt_of_lt_of_le (by decide) hlen)
  rw [run_cons, hplay, Option.bind_some, run_cons, hstore, Option.bind_some, run_cons, hschedule]
  rfl

/-- The buffer `sound`, played with audio buffers of this size, comes out as `out`: it is played to its end by some number of
pulls, which make the moves that give out `out`, and return its samples and then silence, in buffers of no more than this
size. -/
def ComesOut (k : FiberLock L) (behind : Nat → SoundEffect F) (s : SoundEmojiSynthesizer L F) (sound : EffectBuffer F)
    (size : Int) (out : List Output) : Prop :=
  (s.setBufferSize size).1 = .DEVICE_OK ∧
  ∃ s₁, (s.setBufferSize size).2.run k behind [.play sound, .store, .schedule] = some s₁ ∧
  ∃ n buffers s', s₁.pulls k behind n = some (buffers, s') ∧ s'.effect = none ∧
    s'.history = .notify :: .done :: s₁.history ∧ (∀ b ∈ buffers, Fits size b) ∧
    (∃ t, Runs (move k behind) s₁ out t ∧ t.move k behind = none ∧ s' = (t.rest behind).complete k) ∧
    ∃ pad, buffers.flatten = samples out ++ List.replicate pad s'.silence

/-! ### Sizes that do not suit -/

/-- The effect at `i` is played, and there are samples left to write. -/
structure Unfinished (k : FiberLock L) (i : Nat) (s : SoundEmojiSynthesizer L F) : Prop where
  ending : Ending k i s
  more : s.samplesWritten = s.samplesToWrite → (i + 1) * SIZEOF_SOUND_EFFECT < s.effectBuffer.length

/-- A turn plays an effect that has samples left. -/
theorem Unfinished.advance (behind : Nat → SoundEffect F) {i : Nat} (h : Unfinished k i s) :
    ∃ j s₁, s.advance k behind = (false, s₁) ∧ Ending k j s₁ ∧ SameLock s s₁ ∧
      s₁.samplesWritten < s₁.samplesToWrite := by
  by_cases hw : s.samplesWritten = s.samplesToWrite
  · have hi := h.more hw
    rcases h.ending.advance behind hw with ⟨-, ha⟩ | ⟨hlast, -⟩
    · have hcount : (s.begin (i + 1)).samplesToWrite ≠ 0 := h.ending.counted (i + 1) (Nat.lt_succ_self i) hi
      have hge : 0 ≤ (s.begin (i + 1)).samplesToWrite := (h.ending.regular (i + 1) hi).count
      have hzero : (s.begin (i + 1)).samplesWritten = 0 := rfl
      exact ⟨i + 1, _, ha, h.ending.begin hi, ⟨rfl, rfl, rfl, rfl, rfl, rfl, rfl⟩, by omega⟩
    · omega
  · have hle := h.ending.pace.le
    exact ⟨i, s, advance_stay h.ending.stopping hw, h.ending, SameLock.refl s, by omega⟩

/-- In a buffer of size 0 nothing is written. -/
theorem Unfinished.pull_stuck {i : Nat} (h : Unfinished k i s) (hsize : s.bufferSize = 0)
    {r : List UInt16 × SoundEmojiSynthesizer L F} (hr : s.pull k behind = some r) :
    r.2.bufferSize = 0 ∧ ∃ j, Unfinished k j r.2 := by
  rw [pull, Option.map_eq_some_iff] at hr
  obtain ⟨⟨buffer, s'⟩, heq, rfl⟩ := hr
  obtain ⟨j, s₁, ha, h₁, hsame, hlt⟩ := h.advance behind
  have hsize₁ := hsame.bufferSize.trans hsize
  obtain ⟨full, buffer', s₂, hres, hplay, hfit, hw, hcase⟩ :=
    pullTurns_render (s.bufferSize / 2).toNat none ha h₁.playing h₁.currentRegular
  have hfit := hfit 0 hsize₁ (Nat.le_refl 0)
  have hren := render_renders _ hres
  have hcount := hren.samplesToWrite
  have hlt₂ : s₂.samplesWritten < s₂.samplesToWrite := by
    rw [Option.getD_none, List.length_nil] at hw
    omega
  rcases hcase with ⟨-, b, -, heq'⟩ | ⟨-, hall, -⟩
  · obtain ⟨-, rfl⟩ := Prod.mk.inj (Option.some.inj (heq'.symm.trans heq))
    exact ⟨hren.bufferSize.trans hsize₁, j, h₁.renders hren hplay, fun hw => absurd hw (Int.ne_of_lt hlt₂)⟩
  · exact absurd hall (Int.ne_of_lt hlt₂)

/-- With buffers of size 0 no number of pulls ends the playout. -/
theorem Unfinished.pulls_stuck (behind : Nat → SoundEffect F) (n : Nat) :
    ∀ {s : SoundEmojiSynthesizer L F} {i : Nat} {buffers : List (List UInt16)}, Unfinished k i s → s.bufferSize = 0 →
    s.pulls k behind n = some (buffers, s') → s'.effect ≠ none := by
  induction n with
  | zero =>
    intro s i buffers h _ hp
    obtain ⟨-, rfl⟩ := Prod.mk.inj (Option.some.inj hp)
    rw [h.ending.playing.effect]
    exact nofun
  | succ n ih =>
    intro s i buffers h hsize hp
    rw [pulls, Option.bind_eq_some_iff] at hp
    obtain ⟨r, hr, hp⟩ := hp
    obtain ⟨⟨buffers', t⟩, hrest, heq⟩ := Option.map_eq_some_iff.mp hp
    obtain ⟨-, rfl⟩ := Prod.mk.inj heq
    obtain ⟨hsize', j, hj⟩ := h.pull_stuck hsize hr
    exact ih hj hsize' hrest

/-- What is in the buffer stays in it. -/
theorem pullTurns_length_le (fuel : Nat) : ∀ {s : SoundEmojiSynthesizer L F} {buffer : List UInt16}
    {r : Option (List UInt16) × SoundEmojiSynthesizer L F}, s.pullTurns k behind fuel (some buffer) = some r →
    ∃ buffer', r.1 = some buffer' ∧ buffer.length ≤ buffer'.length := by
  induction fuel with
  | zero =>
    intro s buffer r h
    cases h
  | succ fuel ih =>
    intro s buffer r h
    simp only [pullTurns, reduceCtorEq, and_false, if_false, Option.getD_some, Option.map_some] at h
    split at h
    · cases h
    · rename_i buffer' s' hres
      exact ⟨buffer', by rw [← Option.some.inj h], render_length_le _ hres⟩
    · rename_i buffer' s' hres
      have hle := render_length_le _ hres
      split at h
      · exact ⟨buffer', by rw [← Option.some.inj h], hle⟩
      · obtain ⟨buffer'', heq, hle'⟩ := ih h
        exact ⟨buffer'', heq, hle.trans hle'⟩

/-- A buffer whose size is odd, or negative, is never full, and a sample is written beyond its end. -/
theorem Unfinished.pull_overrun {i : Nat} (h : Unfinished k i s) (hsize : ∀ room : Nat, s.bufferSize ≠ 2 * room)
    {r : List UInt16 × SoundEmojiSynthesizer L F} (hr : s.pull k behind = some r) : ¬Fits s.bufferSize r.1 := by
  rw [pull, Option.map_eq_some_iff] at hr
  obtain ⟨⟨buffer, s'⟩, heq, rfl⟩ := hr
  have hkept : s'.bufferSize = s.bufferSize := by
    rcases pullTurns_playing _ h.ending.playing (fun hs => absurd hs (by simp [h.ending.stopping])) heq with
      ⟨_, -, hsame, -⟩ | hend
    · exact hsame.bufferSize
    · exact hend.bufferSize
  obtain ⟨j, s₁, ha, h₁, hsame, hlt⟩ := h.advance behind
  obtain ⟨full, buffer', s₂, hres, -, -, hw, hcase⟩ :=
    pullTurns_render (s.bufferSize / 2).toNat none ha h₁.playing h₁.currentRegular
  have hcount := (render_renders _ hres).samplesToWrite
  rw [Option.getD_none, List.length_nil] at hw
  rcases hcase with ⟨hfull | ⟨hdone, -⟩, -⟩ | ⟨-, hall, sample, hget, heq'⟩
  · exact absurd (hsame.bufferSize.symm.trans hfull.symm) (hsize _)
  · cases hdone
  · rw [heq'] at heq
    cases sample with
    | none =>
      rw [Option.getD_none] at hget
      rw [← hget, List.length_nil] at hw
      omega
    | some sample =>
      obtain rfl : sample = buffer' := hget
      obtain ⟨b, hb, hle⟩ := pullTurns_length_le _ heq
      dsimp only at hb
      subst hb
      have hodd := hsize (s.bufferSize / 2).toNat
      rw [Fits]
      dsimp only
      rw [Option.map_some, Option.getD_some, List.length_append, List.length_replicate, hkept]
      omega

/-! ## The theorem -/

/-- What is asked of the effects of a buffer. Their durations are not negative, the arithmetic ends their steps in time, and
all but the first one have samples. -/
structure Playable (sampleRate : Int) (e : SoundEffect F) (rest : List (SoundEffect F)) : Prop where
  duration : ∀ e' ∈ e :: rest, ofInt 0 ≤ e'.duration
  timely : ∀ e' ∈ e :: rest, Timely sampleRate e'
  counted : ∀ e' ∈ rest, determineSampleCount sampleRate e'.duration ≠ 0

omit [MachineFloat F] in
/-- An effect of the list is found at its place in the buffer. -/
theorem ofList_get (effects : List (SoundEffect F)) (last : SoundEffect F) {j : Nat}
    (hj : j * SIZEOF_SOUND_EFFECT < (EffectBuffer.ofList effects last).length) :
    ∃ hj : j < effects.length, (EffectBuffer.ofList effects last).get j = effects[j] := by
  have hlen : (EffectBuffer.ofList effects last).length = effects.length * SIZEOF_SOUND_EFFECT := Nat.mul_comm _ _
  rw [hlen] at hj
  have hj := Nat.lt_of_mul_lt_mul_right hj
  exact ⟨hj, List.getD_eq_getElem _ _ hj⟩

/-- The playout of the buffer begins. -/
theorem started_scored {e : SoundEffect F} {rest : List (SoundEffect F)} (h : Playable s.sampleRate e rest)
    (hstop : s.stopping = false) (last : SoundEffect F) :
    Scored k 0 [] (s.started k (.ofList (e :: rest) last)) := by
  have hlen : (EffectBuffer.ofList (e :: rest) last).length = SIZEOF_SOUND_EFFECT * (rest.length + 1) := rfl
  have htime : ∀ j, j * SIZEOF_SOUND_EFFECT < (EffectBuffer.ofList (e :: rest) last).length →
      Timely s.sampleRate ((EffectBuffer.ofList (e :: rest) last).get j) := by
    intro j hj
    obtain ⟨hj', heq⟩ := ofList_get _ last hj
    rw [heq]
    exact h.timely _ (List.getElem_mem hj')
  have hplay : Playing 0 (s.started k (.ofList (e :: rest) last)) := by
    refine ⟨rfl, ?_, ⟨?_, Nat.dvd_mul_right _ _⟩, rfl, fun hr => ?_⟩
    · rw [Nat.zero_mul]
      exact Nat.mul_pos (by decide) (Nat.succ_pos _)
    · exact Nat.le_mul_of_pos_right _ (Nat.succ_pos _)
    · have hpace := begin_pace (s := { s with
        lock := (k.wait s.lock).2
        effectBuffer := .ofList (e :: rest) last
        history := .entered (.ofList (e :: rest) last) :: s.history }) (i := 0) hr
      exact ⟨hpace.count, hpace.perStep, hpace.nonneg, hpace.le, hpace.step⟩
  refine ⟨⟨hplay, hstop, Or.inl (h.duration e List.mem_cons_self), fun j hj => (htime j hj).toRegular, fun j hj hin => ?_⟩,
    htime, rfl, fun c => (ite_self _).symm, fun hw hpos => absurd hw (Int.ne_of_lt hpos), nofun, nofun⟩
  obtain ⟨hj', heq⟩ := ofList_get (e :: rest) last hin
  have hcount : determineSampleCount s.sampleRate (e :: rest)[j].duration ≠ 0 := by
    obtain ⟨j, rfl⟩ := Nat.exists_eq_succ_of_ne_zero (Nat.pos_iff_ne_zero.mp hj)
    exact h.counted _ (List.getElem_mem (by simpa using hj'))
  rw [← heq] at hcount
  exact hcount

omit [MachineFloat F] in
/-- A buffer size once set can be set again. -/
theorem setBufferSize_eq (hsize : 0 < s.bufferSize) (size : Int) :
    s.setBufferSize size = (.DEVICE_OK, s.resize size) := by
  rw [setBufferSize, if_neg (Int.not_le.mpr hsize)]
  rfl

/-- A single pull plays an effect without samples, if it is the last one. -/
theorem Ending.pull_last (behind : Nat → SoundEffect F) {i : Nat} (h : Ending k i s)
    (hw : s.samplesWritten = s.samplesToWrite) (hi : s.effectBuffer.length ≤ (i + 1) * SIZEOF_SOUND_EFFECT) :
    s.move k behind = none ∧ s.pull k behind =
      some (if s.silenceAsEmpty then [] else List.replicate ((s.bufferSize + 1) / 2).toNat s.silence,
        (s.rest behind).complete k) := by
  rcases h.advance behind hw with ⟨hmore, -⟩ | ⟨-, ha⟩
  · omega
  · refine ⟨move_of_advance hw ha, ?_⟩
    have hempty : ((s.rest behind).complete k).silenceAsEmpty = s.silenceAsEmpty := rfl
    rw [pull, pullTurns_rest _ none ha (rest_ended s).idle, hempty]
    cases s.silenceAsEmpty <;> rfl

/-- It plays it out, in an empty buffer, where there is no room for silence or none is sent. -/
theorem Ending.plays_last (behind : Nat → SoundEffect F) {i : Nat} (h : Ending k i s)
    (hw : s.samplesWritten = s.samplesToWrite) (hi : s.effectBuffer.length ≤ (i + 1) * SIZEOF_SOUND_EFFECT)
    (hempty : s.bufferSize ≤ 0 ∨ s.silenceAsEmpty = true) : PlaysOut k behind s := by
  obtain ⟨hnone, hpull⟩ := h.pull_last behind hw hi
  have hnil : (if s.silenceAsEmpty then [] else List.replicate ((s.bufferSize + 1) / 2).toNat s.silence) = [] := by
    rcases hempty with hsize | hempty
    · have hzero : ((s.bufferSize + 1) / 2).toNat = 0 := by omega
      rw [hzero, List.replicate_zero, ite_self]
    · rw [if_pos hempty]
  rw [hnil] at hpull
  refine ⟨1, [[]], _, [], s, ?_, List.forall_mem_singleton.mpr (Int.le_max_right _ _), .refl s, hnone, rfl, 0, rfl⟩
  rw [pulls_succ hpull]
  rfl

/-- A playout that has ended was pulled. -/
theorem exists_pull (n : Nat) {buffers : List (List UInt16)} (hp : s.pulls k behind n = some (buffers, s'))
    (hbefore : s.effect ≠ none) (hafter : s'.effect = none) : ∃ r, s.pull k behind = some r ∧ r.1 ∈ buffers := by
  cases n with
  | zero =>
    obtain ⟨-, rfl⟩ := Prod.mk.inj (Option.some.inj hp)
    exact absurd hafter hbefore
  | succ n =>
    rw [pulls, Option.bind_eq_some_iff] at hp
    obtain ⟨r, hr, hp⟩ := hp
    obtain ⟨_, -, heq⟩ := Option.map_eq_some_iff.mp hp
    obtain ⟨rfl, -⟩ := Prod.mk.inj heq
    exact ⟨r, hr, List.mem_cons_self⟩

/-- Where there are samples to write, the pulls end, and stay in their buffers, with sizes that are positive and
even only. -/
theorem Unfinished.size {i n : Nat} (h : Unfinished k i s) {buffers : List (List UInt16)}
    (hp : s.pulls k behind n = some (buffers, s')) (hend : s'.effect = none) (hfits : ∀ b ∈ buffers, Fits s.bufferSize b) :
    0 < s.bufferSize ∧ 2 ∣ s.bufferSize := by
  by_cases hroom : ∃ room : Nat, s.bufferSize = 2 * room
  · obtain ⟨room, hroom⟩ := hroom
    have hne : s.bufferSize ≠ 0 := fun hzero => h.pulls_stuck behind n hzero hp hend
    exact ⟨by omega, by omega⟩
  · have hplaying : s.effect ≠ none := by
      rw [h.ending.playing.effect]
      exact nofun
    obtain ⟨r, hr, hmem⟩ := exists_pull n hp hplaying hend
    exact absurd (hfits _ hmem) (h.pull_overrun (not_exists.mp hroom) hr)

/-- The sizes with which there is nothing to write. -/
theorem Ending.size {i n : Nat} (h : Ending k i s) (hw : s.samplesWritten = s.samplesToWrite)
    (hi : s.effectBuffer.length ≤ (i + 1) * SIZEOF_SOUND_EFFECT) {buffers : List (List UInt16)}
    (hp : s.pulls k behind n = some (buffers, s')) (hend : s'.effect = none) (hfits : ∀ b ∈ buffers, Fits s.bufferSize b) :
    0 < s.bufferSize ∧ 2 ∣ s.bufferSize ∨ s.bufferSize ≤ 0 ∨ s.silenceAsEmpty = true := by
  have hplaying : s.effect ≠ none := by
    rw [h.playing.effect]
    exact nofun
  obtain ⟨r, hr, hmem⟩ := exists_pull n hp hplaying hend
  have hfit := hfits _ hmem
  rw [(h.pull_last behind hw hi).2, Option.some.injEq] at hr
  subst hr
  cases hempty : s.silenceAsEmpty with
  | true => exact Or.inr (Or.inr rfl)
  | false =>
    rw [hempty, if_neg Bool.false_ne_true, Fits, List.length_replicate] at hfit
    omega

/-- A buffer of playable effects comes out the same for every size that has room for samples: each effect gives out its
samples, and invokes its effect functions once at each step, in order. -/
theorem comes_out_iff (hk : k.Lawful) (hidle : Idle behind s) (hcall : s.call = .none) (hfree : k.waiters s.lock = none)
    (hsize : 0 < s.bufferSize) (e : SoundEffect F) (rest : List (SoundEffect F)) (last : SoundEffect F)
    (hp : Playable s.sampleRate e rest) :
    ∃ out, (∀ j (hj : j < (e :: rest).length), Completed s.sampleRate (e :: rest)[j] (ofEffect j out)) ∧
      ∀ size, ComesOut k behind s (.ofList (e :: rest) last) size out ↔
        0 < size ∧ 2 ∣ size ∨
          (rest = [] ∧ determineSampleCount s.sampleRate e.duration = 0) ∧ (size ≤ 0 ∨ s.silenceAsEmpty = true) := by
  have hscored : ∀ size, Scored k 0 [] ((s.resize size).started k (.ofList (e :: rest) last)) := fun size =>
    started_scored (s := s.resize size) hp hidle.stopping last
  have hlen : (EffectBuffer.ofList (e :: rest) last).length = SIZEOF_SOUND_EFFECT * (rest.length + 1) := rfl
  -- what comes out does not depend on the size, so it may be taken from buffers of one sample
  obtain ⟨_, _, _, out, t, -, -, hrun, hnone, -⟩ :=
    pulls_runs behind (hscored (2 * (1 : Nat))).ending rfl Nat.one_pos
  refine ⟨out, fun j hj => ?_, fun size => ?_⟩
  · have hin : j * SIZEOF_SOUND_EFFECT < (EffectBuffer.ofList (e :: rest) last).length := by
      rw [hlen, Nat.mul_comm]
      exact Nat.mul_lt_mul_of_pos_left hj (by decide)
    obtain ⟨_, heq⟩ := ofList_get _ last hin
    rw [← heq]
    exact ((hscored _).runs hrun hnone).2 j hin
  · have hrun' := hrun.map (f := resize size) (move_resize _)
    have hnone' : (t.resize size).move k behind = none := by rw [move_resize, hnone]; rfl
    have hset := setBufferSize_eq hsize size
    have hplay := run_play behind (s := s.resize size) hk
      ⟨hidle.effect, hidle.effectBuffer, hidle.samplesWritten, hidle.samplesToWrite, hidle.stopping⟩ hcall hfree
      (.ofList (e :: rest) last) (Nat.le_mul_of_pos_right _ (Nat.succ_pos _))
    have hending := (hscored size).ending
    have hcount : ((s.resize size).started k (.ofList (e :: rest) last)).samplesToWrite =
      determineSampleCount s.sampleRate e.duration := rfl
    unfold ComesOut
    rw [hset]
    constructor
    · rintro ⟨-, s₁, hs₁, n, buffers, s', hpulls, heffect, -, hfits, -⟩
      obtain rfl := Option.some.inj (hs₁.symm.trans hplay)
      by_cases hzero : rest = [] ∧ determineSampleCount s.sampleRate e.duration = 0
      · obtain ⟨rfl, hzero⟩ := hzero
        exact (hending.size hzero.symm (Nat.le_refl _) hpulls heffect hfits).imp_right fun h => ⟨⟨rfl, hzero⟩, h⟩
      · refine Or.inl (Unfinished.size ⟨hending, fun hw => ?_⟩ hpulls heffect hfits)
        change _ < SIZEOF_SOUND_EFFECT * (rest.length + 1)
        have hmore : rest ≠ [] := fun hr => hzero ⟨hr, hcount.symm.trans hw.symm⟩
        have := List.length_pos_iff.mpr hmore
        rw [Nat.mul_comm]
        exact Nat.mul_lt_mul_of_pos_left (by omega) (by decide)
    · intro hsuits
      have hpulls : PlaysOut k behind ((s.resize size).started k (.ofList (e :: rest) last)) := by
        rcases hsuits with ⟨hpos, half, rfl⟩ | ⟨⟨rfl, hzero⟩, hempty⟩
        · obtain ⟨room, rfl⟩ := Int.eq_ofNat_of_zero_le (show 0 ≤ half by omega)
          exact pulls_runs behind hending rfl (by omega)
        · exact hending.plays_last behind hzero.symm (Nat.le_refl _) hempty
      obtain ⟨n, buffers, s', out', t', hpulls, hfits, hrun₁, hnone₁, rfl, pad, hflat⟩ := hpulls
      obtain ⟨rfl, rfl⟩ := hrun'.unique hnone' hrun₁ hnone₁
      have hsame := ((hscored _).runs hrun₁ hnone₁).1
      refine ⟨rfl, _, hplay, n, buffers, _, hpulls, rfl, ?_, hfits, ⟨_, hrun₁, hnone₁, rfl⟩, pad, hflat⟩
      rw [← hsame.history]
      rfl

/-- An effect of `duration` milliseconds whose volume goes down in three steps. -/
def fading (duration : ℚ) : SoundEffect ℚ :=
  ⟨440, 1, duration, fun position => .ofNat position.toNat, fun _ =>
    ⟨some fun step steps (frequency, volume) => (frequency, volume - volume * step / steps), 3⟩⟩

/-- `comes_out_iff` for two effects. -/
theorem comes_out_two :
    ∃ out, (∀ j (hj : j < [fading 1, fading 2].length),
        Completed synth.sampleRate [fading 1, fading 2][j] (ofEffect j out)) ∧
      ∀ size, ComesOut plainLock (fun _ => silent 0) synth (.ofList [fading 1, fading 2] (silent 0)) size out ↔
        0 < size ∧ 2 ∣ size ∨
          ([fading 2] = [] ∧ determineSampleCount synth.sampleRate (fading 1).duration = 0) ∧
            (size ≤ 0 ∨ synth.silenceAsEmpty = true) := by
  have hnonneg : ∀ e ∈ [fading 1, fading 2], 0 ≤ e.duration := by simp [fading]
  exact comes_out_iff plainLock_lawful ⟨rfl, rfl, rfl, rfl, rfl⟩ rfl rfl (by decide) (fading 1) [fading 2] (silent 0)
    ⟨hnonneg, fun e he => timely_of_nonneg (by decide) (hnonneg e he), by
      intro e he
      rw [List.mem_singleton.mp he]
      decide +kernel⟩

/-- With buffers of size 0, which are accepted, no number of pulls ends a playout; and an effect without samples ends a pull
with silence, which comes at another place in buffers of another size. -/
theorem comes_out_differs :
    ((synth.setBufferSize 0).1 = .DEVICE_OK ∧
      ∃ s₁, (synth.setBufferSize 0).2.run plainLock (fun _ => silent 0)
        [.play (.ofList [silent 1] (silent 0)), .store, .schedule] = some s₁ ∧
      ∀ n buffers s', s₁.pulls plainLock (fun _ => silent 0) n = some (buffers, s') → s'.effect ≠ none) ∧
    (((synth.setBufferSize 16).2.run plainLock (fun _ => silent 0)
        [.play (.ofList [silent (1 / 10), silent 0, silent (1 / 10)] (silent 0)), .store, .schedule]).bind fun s =>
      s.pulls plainLock (fun _ => silent 0) 2).map (·.1.flatten) =
        some [512, 512, 512, 512, 511, 511, 511, 511, 512, 512, 512, 512, 511, 511, 511, 511] ∧
    (((synth.setBufferSize 6).2.run plainLock (fun _ => silent 0)
        [.play (.ofList [silent (1 / 10), silent 0, silent (1 / 10)] (silent 0)), .store, .schedule]).bind fun s =>
      s.pulls plainLock (fun _ => silent 0) 4).map (·.1.flatten) =
        some [512, 512, 512, 512, 511, 511, 512, 512, 512, 512, 511, 511] := by
  refine ⟨⟨rfl, _, run_play _ plainLock_lawful ⟨rfl, rfl, rfl, rfl, rfl⟩ rfl rfl _ (by decide), fun n buffers s' h => ?_⟩,
    by decide +kernel, by decide +kernel⟩
  have hplayable : Playable synth.sampleRate (silent 1) [] :=
    ⟨fun e he => by rw [List.mem_singleton.mp he]; decide, fun e he => by
      rw [List.mem_singleton.mp he]
      exact timely_of_nonneg (by decide) (by decide), nofun⟩
  exact Unfinished.pulls_stuck _ n ⟨(started_scored (s := synth.resize 0) hplayable rfl (silent 0)).ending, fun hw =>
    absurd hw (by decide +kernel)⟩ rfl h

end SoundEmojiSynthesizer

end CodalMicrobit
