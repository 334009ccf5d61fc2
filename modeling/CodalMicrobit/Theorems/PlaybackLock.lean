import CodalMicrobit.Lemmas.Rendering

/-!
# The lock of the sound effects

`play` holds the lock from `lock.wait()` on until its buffer has ended. This holds as long as the interrupt does not come
between the two statements of `play` or of `stop`, and as long as the duration that `nextSoundEffect` reads behind the
empty buffer is not negative.
-/

namespace CodalMicrobit

open MachineFloat

/-- A buffer of one or more whole effects. -/
def EffectBuffer.Whole {F : Type} (b : EffectBuffer F) : Prop :=
  SIZEOF_SOUND_EFFECT ≤ b.length ∧ SIZEOF_SOUND_EFFECT ∣ b.length

namespace SoundEmojiSynthesizer

section
variable {F : Type}

/-- The buffer of the call that has entered last, as long as it is not completed. -/
def holder : List (LockEvent F) → Option (EffectBuffer F)
  | .entered sound :: _ => some sound
  | _ => none

/-- Each call that enters is followed by one event and one `notify`, and only then does the next one enter. -/
def Serial : List (LockEvent F) → Prop
  | [] => True
  | .entered _ :: history => Serial history ∧ holder history = none
  | .notify :: .done :: history => Serial history ∧ holder history ≠ none
  | _ => False

end

variable {L F : Type} [MachineFloat F] {k : FiberLock L} {behind : Nat → SoundEffect F}
  {s s' s'' : SoundEmojiSynthesizer L F}

/-! ## The next effect -/

/-- `nextSoundEffect` finds that the buffer `b` does not begin again. -/
def Ends (k : FiberLock L) (b : EffectBuffer F) (s : SoundEmojiSynthesizer L F) : Prop :=
  ofInt 0 ≤ (b.get 0).duration ∨ 0 < k.getWaitCount s.lock

/-- Asked to stop, the synthesizer drops what it plays and reports whether there was anything. -/
theorem nextSoundEffect_stopping (hs : s.stopping = true) (hb : Ends k (.empty behind) s) :
    s.nextSoundEffect k behind = (s.effect.isSome, s.rest behind) := by
  have hnone : (EffectBuffer.empty behind).length ≤ 0 * SIZEOF_SOUND_EFFECT := Nat.zero_le _
  simp only [nextSoundEffect, hs, if_true]
  unfold Ends at hb
  rw [if_pos hnone, if_pos hb]
  simp only [rest, hs]

/-- With nothing to play it stays at rest. -/
theorem nextSoundEffect_idle (hs : s.stopping = false) (he : s.effect = none) (heb : s.effectBuffer = .empty behind)
    (hb : Ends k (.empty behind) s) : s.nextSoundEffect k behind = (false, s.rest behind) := by
  have hnone : (EffectBuffer.empty behind).length ≤ 0 * SIZEOF_SOUND_EFFECT := Nat.zero_le _
  simp only [nextSoundEffect, hs, he, heb, Bool.false_eq_true, if_false, Option.isSome_none]
  unfold Ends at hb
  rw [if_pos hnone, if_pos hb]

/-- A new sound starts with its first effect. -/
theorem nextSoundEffect_first (hs : s.stopping = false) (he : s.effect = none) (hl : 0 < s.effectBuffer.length) :
    s.nextSoundEffect k behind = (false, s.begin 0) := by
  simp only [nextSoundEffect, hs, he, Bool.false_eq_true, if_false]
  rw [if_neg (by omega)]

/-- Behind an effect comes the next one of the same sound. -/
theorem nextSoundEffect_more {i : Nat} (hs : s.stopping = false) (he : s.effect = some i)
    (hl : (i + 1) * SIZEOF_SOUND_EFFECT < s.effectBuffer.length) :
    s.nextSoundEffect k behind = (false, s.begin (i + 1)) := by
  simp only [nextSoundEffect, hs, he, Bool.false_eq_true, if_false]
  rw [if_neg (by omega)]

/-- Behind the last effect of a sound that ends, the synthesizer is at rest and the sound has finished. -/
theorem nextSoundEffect_last {i : Nat} (hs : s.stopping = false) (he : s.effect = some i)
    (hl : s.effectBuffer.length ≤ (i + 1) * SIZEOF_SOUND_EFFECT) (hb : Ends k s.effectBuffer s) :
    s.nextSoundEffect k behind = (true, s.rest behind) := by
  simp only [nextSoundEffect, hs, he, Bool.false_eq_true, if_false, Option.isSome_some]
  unfold Ends at hb
  rw [if_pos hl, if_pos hb]

/-- A sound that does not end starts over behind its last effect. -/
theorem nextSoundEffect_again {i : Nat} (hs : s.stopping = false) (he : s.effect = some i)
    (hl : s.effectBuffer.length ≤ (i + 1) * SIZEOF_SOUND_EFFECT) (hb : ¬Ends k s.effectBuffer s) :
    s.nextSoundEffect k behind = (false, s.begin 0) := by
  simp only [nextSoundEffect, hs, he, Bool.false_eq_true, if_false]
  unfold Ends at hb
  rw [if_pos hl, if_neg hb]

/-! ## A pull -/

/-- Nothing is played, and nothing is about to be. -/
structure Idle (behind : Nat → SoundEffect F) (s : SoundEmojiSynthesizer L F) : Prop where
  effect : s.effect = none
  effectBuffer : s.effectBuffer = .empty behind
  samplesWritten : s.samplesWritten = 0
  samplesToWrite : s.samplesToWrite = 0
  stopping : s.stopping = false

/-- The effect at `i` of the buffer of the call that holds the lock is played. -/
structure Playing (i : Nat) (s : SoundEmojiSynthesizer L F) : Prop where
  effect : s.effect = some i
  inside : i * SIZEOF_SOUND_EFFECT < s.effectBuffer.length
  whole : s.effectBuffer.Whole
  holder : holder s.history = some s.effectBuffer
  pace : Regular s.sampleRate s.current → Pace s

/-- The two states differ in what is played only. -/
structure SameLock (s s' : SoundEmojiSynthesizer L F) : Prop where
  lock : s'.lock = s.lock
  history : s'.history = s.history
  blocked : s'.blocked = s.blocked
  woken : s'.woken = s.woken
  call : s'.call = s.call
  bufferSize : s'.bufferSize = s.bufferSize
  sampleRate : s'.sampleRate = s.sampleRate

/-- The playout has ended, and the lock was given back. -/
structure Ended (k : FiberLock L) (behind : Nat → SoundEffect F) (s s' : SoundEmojiSynthesizer L F) : Prop where
  idle : Idle behind s'
  lock : s'.lock = (k.notify s.lock).2
  history : s'.history = .notify :: .done :: s.history
  blocked : s'.blocked = s.blocked
  woken : s'.woken = s.woken + (k.notify s.lock).1.toNat
  call : s'.call = s.call
  bufferSize : s'.bufferSize = s.bufferSize
  sampleRate : s'.sampleRate = s.sampleRate

omit [MachineFloat F] in
theorem SameLock.refl (s : SoundEmojiSynthesizer L F) : SameLock s s := ⟨rfl, rfl, rfl, rfl, rfl, rfl, rfl⟩

omit [MachineFloat F] in
theorem SameLock.trans (h : SameLock s s') (h' : SameLock s' s'') : SameLock s s'' where
  lock := h'.lock.trans h.lock
  history := h'.history.trans h.history
  blocked := h'.blocked.trans h.blocked
  woken := h'.woken.trans h.woken
  call := h'.call.trans h.call
  bufferSize := h'.bufferSize.trans h.bufferSize
  sampleRate := h'.sampleRate.trans h.sampleRate

omit [MachineFloat F] in
/-- Steps that leave the lock alone may come before the end of the sound. -/
theorem Ended.after (h : SameLock s s') (h' : Ended k behind s' s'') : Ended k behind s s'' where
  idle := h'.idle
  lock := by rw [h'.lock, h.lock]
  history := by rw [h'.history, h.history]
  blocked := h'.blocked.trans h.blocked
  woken := by rw [h'.woken, h.woken, h.lock]
  call := h'.call.trans h.call
  bufferSize := h'.bufferSize.trans h.bufferSize
  sampleRate := h'.sampleRate.trans h.sampleRate

omit [MachineFloat F] in
/-- Rendering samples leaves the lock alone. -/
theorem Renders.sameLock (h : Renders s s') : SameLock s s' := by
  obtain ⟨_, _, _, _, _, rfl⟩ := h
  exact ⟨rfl, rfl, rfl, rfl, rfl, rfl, rfl⟩

/-- Coming to rest and waking the next player ends the sound. -/
theorem rest_ended (s : SoundEmojiSynthesizer L F) : Ended k behind s ((s.rest behind).complete k) :=
  ⟨⟨rfl, rfl, rfl, rfl, rfl⟩, rfl, rfl, rfl, rfl, rfl, rfl, rfl⟩

/-- Started at an effect inside the buffer, the synthesizer is playing that effect. -/
theorem Playing.begin {i : Nat} (h : Playing i s) {j : Nat} (hj : j * SIZEOF_SOUND_EFFECT < s.effectBuffer.length) :
    Playing j (s.begin j) :=
  ⟨rfl, hj, h.whole, h.holder, fun hr => begin_pace hr⟩

/-- The effect is still played after some rendering. -/
theorem Playing.render {i : Nat} (h : Playing i s) {full : Bool} {buffer buffer' : List UInt16}
    (hres : s.render s.renderFuel buffer = some (full, buffer', s')) : Playing i s' := by
  have hren := render_renders _ hres
  have hpace : Regular s'.sampleRate s'.current → Pace s' := by
    intro hr
    rw [hren.sameLock.sampleRate, hren.current] at hr
    obtain ⟨_, _, t, heq, hpace, -⟩ := render_spec s.renderFuel buffer (h.pace hr) hr (Nat.le_refl _)
    rw [hres] at heq
    simp only [Option.some.injEq, Prod.mk.injEq] at heq
    rw [heq.2.2]
    exact hpace
  obtain ⟨_, _, _, _, _, rfl⟩ := hren
  exact ⟨h.effect, h.inside, h.whole, h.holder, hpace⟩

/-- When the next effect begins, `advance` goes on unless the effect has no samples. -/
theorem advance_begin {j : Nat} (hs : s.stopping = false) (hw : s.samplesWritten = s.samplesToWrite)
    (hn : s.nextSoundEffect k behind = (false, s.begin j)) :
    s.advance k behind = (decide ((s.begin j).samplesToWrite = 0), s.begin j) := by
  have hstill : (s.begin j).stopping = false := hs
  rw [advance, if_pos (Or.inl hw), hn]
  dsimp only
  by_cases h0 : (s.begin j).samplesToWrite = 0
  · rw [if_pos (Or.inl h0), decide_eq_true h0, hstill]
    rfl
  · rw [if_neg (by simp [h0, hstill]), decide_eq_false h0]

/-- When the sound is over, `advance` stops and wakes the next player if something was played. -/
theorem advance_rest {b : Bool} (hw : s.samplesWritten = s.samplesToWrite ∨ s.stopping = true)
    (hn : s.nextSoundEffect k behind = (b, s.rest behind)) :
    s.advance k behind = (true, if b || s.stopping then (s.rest behind).complete k else s.rest behind) := by
  have h0 : (s.rest behind).samplesToWrite = 0 := rfl
  rw [advance, if_pos hw, hn]
  dsimp only
  rw [if_pos (Or.inl h0)]
  rfl

/-- In the middle of an effect `advance` does nothing. -/
theorem advance_stay (hs : s.stopping = false) (hw : s.samplesWritten ≠ s.samplesToWrite) :
    s.advance k behind = (false, s) := by
  rw [advance, if_neg (by simp [hw, hs])]

/-- The start of a turn while an effect is played: the effect goes on, the playout ends, or the next effect begins. -/
theorem advance_cases {i : Nat} (h : Playing i s) (hb : s.stopping = true → Ends k (.empty behind) s) :
    s.advance k behind = (true, (s.rest behind).complete k) ∨
    s.advance k behind = (false, s) ∧ s.samplesWritten ≠ s.samplesToWrite ∧ s.stopping = false ∨
    ∃ j, s.advance k behind = (decide ((s.begin j).samplesToWrite = 0), s.begin j) ∧ Playing j (s.begin j) ∧
      s.stopping = false ∧ (i < j ∨ ¬Ends k s.effectBuffer s) := by
  cases hs : s.stopping with
  | true =>
    have hn := nextSoundEffect_stopping hs (hb hs)
    refine Or.inl ((advance_rest (Or.inr hs) hn).trans ?_)
    rw [hs, Bool.or_true, if_pos rfl]
  | false =>
    by_cases hw : s.samplesWritten = s.samplesToWrite
    · by_cases hl : (i + 1) * SIZEOF_SOUND_EFFECT < s.effectBuffer.length
      · exact Or.inr (Or.inr ⟨i + 1, advance_begin hs hw (nextSoundEffect_more hs h.effect hl), h.begin hl, rfl,
          Or.inl (Nat.lt_succ_self i)⟩)
      · have hl := Nat.not_lt.mp hl
        by_cases hend : Ends k s.effectBuffer s
        · left
          refine (advance_rest (Or.inl hw) (nextSoundEffect_last hs h.effect hl hend)).trans ?_
          rw [Bool.true_or, if_pos rfl]
        · have hpos : 0 * SIZEOF_SOUND_EFFECT < s.effectBuffer.length := by
            have := h.inside
            omega
          exact Or.inr (Or.inr ⟨0, advance_begin hs hw (nextSoundEffect_again hs h.effect hl hend), h.begin hpos, rfl,
            Or.inr hend⟩)
    · exact Or.inr (Or.inl ⟨advance_stay hs hw, hw, rfl⟩)

omit [MachineFloat F] in
/-- The buffer is created with nothing in it. -/
theorem created_getD {p : Prop} [Decidable p] {sample : Option (List UInt16)} (h : p → sample = none) :
    (if p then some [] else sample).getD [] = sample.getD [] := by
  split
  · rename_i hp
    rw [h hp]
    rfl
  · rfl

/-- A turn with nothing to play is the last one. -/
theorem pullTurns_rest (fuel : Nat) (sample : Option (List UInt16)) (ha : s.advance k behind = (true, s'))
    (hidle : Idle behind s') : s.pullTurns k behind (fuel + 1) sample =
      some (if (!s'.silenceAsEmpty) = true ∧ sample = none then some [] else sample, s') := by
  have hnone : ¬s'.samplesWritten < s'.samplesToWrite := by
    rw [hidle.samplesWritten, hidle.samplesToWrite]
    exact Int.lt_irrefl 0
  have hsame : ∀ sample : Option (List UInt16), (sample.map fun _ => sample.getD []) = sample := fun sample => by
    cases sample <;> rfl
  simp only [pullTurns, ha, renderFuel, render_done _ _ hnone, if_true, hnone, false_or, hsame]

/-- What a turn makes of an effect that goes on or begins: the rest of `pull` starts from the rendered state. -/
theorem pullTurns_cases {fuel : Nat} {sample : Option (List UInt16)} {done : Bool} {s₁ : SoundEmojiSynthesizer L F}
    (ha : s.advance k behind = (done, s₁)) {r : Option (List UInt16) × SoundEmojiSynthesizer L F}
    (h : s.pullTurns k behind (fuel + 1) sample = some r) :
    ∃ buffer full buffer' s₂, s₁.render s₁.renderFuel buffer = some (full, buffer', s₂) ∧
      (r.2 = s₂ ∨ ∃ sample', s₂.pullTurns k behind fuel sample' = some r) := by
  simp only [pullTurns, ha] at h
  split at h
  · exact absurd h nofun
  · rename_i buffer s₂ hres
    exact ⟨_, true, buffer, s₂, hres, Or.inl (by rw [← Option.some.inj h])⟩
  · rename_i buffer s₂ hres
    refine ⟨_, false, buffer, s₂, hres, ?_⟩
    split at h
    · exact Or.inl (by rw [← Option.some.inj h])
    · exact Or.inr ⟨_, h⟩

/-- While an effect is played, a pull goes on with the buffer or ends the playout. -/
theorem pullTurns_playing (fuel : Nat) : ∀ {s : SoundEmojiSynthesizer L F} {i : Nat} {sample : Option (List UInt16)}
    {r : Option (List UInt16) × SoundEmojiSynthesizer L F}, Playing i s → (s.stopping = true → Ends k (.empty behind) s) →
    s.pullTurns k behind fuel sample = some r →
    (∃ j, Playing j r.2 ∧ SameLock s r.2 ∧ r.2.stopping = false) ∨ Ended k behind s r.2 := by
  induction fuel with
  | zero => exact fun _ _ h => absurd h nofun
  | succ fuel ih =>
    intro s i sample r hplay hb h
    -- a turn that does not end the playout leaves an effect played
    have hturn : ∀ {done : Bool} {j : Nat} {s₁ : SoundEmojiSynthesizer L F}, s.advance k behind = (done, s₁) →
        Playing j s₁ → SameLock s s₁ → s₁.stopping = false →
        (∃ j, Playing j r.2 ∧ SameLock s r.2 ∧ r.2.stopping = false) ∨ Ended k behind s r.2 := by
      intro done j s₁ ha hplay₁ hsame hs
      obtain ⟨buffer, full, buffer', s₂, hres, hr⟩ := pullTurns_cases ha h
      have hplay₂ := hplay₁.render hres
      have hren := render_renders _ hres
      have hsame := hsame.trans hren.sameLock
      have hs₂ := hren.stopping.trans hs
      rcases hr with rfl | ⟨sample', hr⟩
      · exact Or.inl ⟨j, hplay₂, hsame, hs₂⟩
      · rcases ih hplay₂ (fun h => absurd h (by simp [hs₂])) hr with ⟨j', hj, hsame', hs'⟩ | hend
        · exact Or.inl ⟨j', hj, hsame.trans hsame', hs'⟩
        · exact Or.inr (hend.after hsame)
    rcases advance_cases hplay hb with ha | ⟨ha, -, hs⟩ | ⟨j, ha, hj, hs, -⟩
    · have heq := pullTurns_rest fuel sample ha (rest_ended s).idle
      rw [h] at heq
      rw [Option.some.inj heq]
      exact Or.inr (rest_ended s)
    · exact hturn ha hplay (SameLock.refl s) hs
    · exact hturn ha hj ⟨rfl, rfl, rfl, rfl, rfl, rfl, rfl⟩ hs

/-- A pull while nothing is played. -/
theorem pull_idle (h : Idle behind s) (hb : Ends k (.empty behind) s) {r : List UInt16 × SoundEmojiSynthesizer L F}
    (hr : s.pull k behind = some r) : Idle behind r.2 ∧ SameLock s r.2 := by
  have hw : s.samplesWritten = s.samplesToWrite := h.samplesWritten.trans h.samplesToWrite.symm
  have ha := advance_rest (Or.inl hw) (nextSoundEffect_idle h.stopping h.effect h.effectBuffer hb)
  rw [h.stopping, Bool.false_or, if_neg Bool.false_ne_true] at ha
  have hidle : Idle behind (s.rest behind) := ⟨rfl, rfl, rfl, rfl, h.stopping⟩
  have heq := pullTurns_rest (s.bufferSize / 2).toNat none ha hidle
  rw [pull, heq, Option.map_some, Option.some.injEq] at hr
  rw [← hr]
  exact ⟨hidle, rfl, rfl, rfl, rfl, rfl, rfl, rfl⟩

/-- A pull while playing either plays on with the lock untouched or ends the sound. -/
theorem pull_playing {i : Nat} (h : Playing i s) (hb : s.stopping = true → Ends k (.empty behind) s)
    {r : List UInt16 × SoundEmojiSynthesizer L F} (hr : s.pull k behind = some r) :
    (∃ j, Playing j r.2 ∧ SameLock s r.2 ∧ r.2.stopping = false) ∨ Ended k behind s r.2 := by
  rw [pull, Option.map_eq_some_iff] at hr
  obtain ⟨⟨buffer, s'⟩, heq, rfl⟩ := hr
  exact pullTurns_playing _ h hb heq

/-! ## The steps -/

/-- The lock, the call that holds it, and the fibers that it blocks or has let go on. -/
inductive LockView (k : FiberLock L) (s : SoundEmojiSynthesizer L F) : Prop
  | free (waiters : k.waiters s.lock = none) (holder : holder s.history = none) (woken : s.woken = 0)
      (blocked : s.blocked = [])
  | held (waiters : k.waiters s.lock = some s.blocked.length) (holder : holder s.history ≠ none) (woken : s.woken = 0)
  | passed (n : Nat) (waiters : k.waiters s.lock = some n) (blocked : s.blocked.length = n + 1)
      (holder : holder s.history = none) (woken : s.woken = 1)

/-- Outside of `play`: nothing is played and no call holds the lock, or the buffer of the call that does is played. -/
def Between (behind : Nat → SoundEffect F) (s : SoundEmojiSynthesizer L F) : Prop :=
  Idle behind s ∧ holder s.history = none ∨ ∃ i, Playing i s

/-- What is played, by the statement that comes next. -/
def Phase (behind : Nat → SoundEffect F) (s : SoundEmojiSynthesizer L F) : Prop :=
  match s.call with
  | .none | .setStopping => Between behind s
  | .store sound => Idle behind s ∧ holder s.history = some sound ∧ sound.Whole
  | .schedule => s.effect = none ∧ s.stopping = false ∧ s.effectBuffer.Whole ∧ holder s.history = some s.effectBuffer

/-- What every step keeps. -/
structure Kept (k : FiberLock L) (behind : Nat → SoundEffect F) (s : SoundEmojiSynthesizer L F) : Prop where
  serial : Serial s.history
  lock : LockView k s
  blocked : ∀ sound ∈ s.blocked, sound.Whole
  phase : Phase behind s
  bufferSize : s.bufferSize = EMOJI_SYNTHESIZER_BUFFER_SIZE

/-- What is asked of the interrupt and of the memory, in the state before a step. No pull comes between the two statements
of `play`; the playout that `stop` has seen has not ended when it sets the flag; and a pull that looks at the duration
behind the empty buffer finds it not negative, or finds a fiber waiting. -/
def Orderly (k : FiberLock L) (behind : Nat → SoundEffect F) (s : SoundEmojiSynthesizer L F) : Step F → Prop
  | .pull => s.call ≠ .schedule ∧ (s.effect = none ∨ s.stopping = true → Ends k (.empty behind) s)
  | .setStopping => s.effect ≠ none
  | _ => True

/-- The buffers that are played hold whole effects. -/
def Step.Whole : Step F → Prop
  | .play sound => SIZEOF_SOUND_EFFECT ∣ sound.length
  | _ => True

/-- Playing does not depend on the lock or on who waits for it. -/
theorem Playing.frame {i : Nat} (h : Playing i s) (lock : L) (call : RunningCall F) (blocked : List (EffectBuffer F))
    (woken : Nat) (stopping : Bool) : Playing i { s with lock, call, blocked, woken, stopping } :=
  ⟨h.effect, h.inside, h.whole, h.holder, fun hr =>
    ⟨(h.pace hr).count, (h.pace hr).perStep, (h.pace hr).nonneg, (h.pace hr).le, (h.pace hr).step⟩⟩

/-- Being between two sounds does not depend on the lock or on who waits for it. -/
theorem Between.frame (h : Between behind s) (lock : L) (call : RunningCall F) (blocked : List (EffectBuffer F))
    (woken : Nat) : Between behind { s with lock, call, blocked, woken } := by
  rcases h with ⟨hidle, hh⟩ | ⟨i, hi⟩
  · exact Or.inl ⟨⟨hidle.effect, hidle.effectBuffer, hidle.samplesWritten, hidle.samplesToWrite, hidle.stopping⟩, hh⟩
  · exact Or.inr ⟨i, hi.frame lock call blocked woken s.stopping⟩

/-- Between two sounds and with no holder, the synthesizer is idle. -/
theorem Between.idle (h : Between behind s) (hh : SoundEmojiSynthesizer.holder s.history = none) : Idle behind s := by
  rcases h with ⟨hidle, -⟩ | ⟨i, hi⟩
  · exact hidle
  · exact absurd (hi.holder.symm.trans hh) nofun

/-- With no call running, the phase is the one between two calls. -/
theorem Phase.between (h : Phase behind s) (hc : s.call = .none) : Between behind s := by
  unfold Phase at h
  rwa [hc] at h

/-- Between two calls, or with one that has not set `stopping` yet, the phase holds. -/
theorem Between.phase (h : Between behind s) (hc : s.call = .none ∨ s.call = .setStopping) : Phase behind s := by
  unfold Phase
  rcases hc with hc | hc <;> rwa [hc]

/-- A pull outside of `play`. -/
theorem Between.pull (h : Between behind s) (hb : s.effect = none ∨ s.stopping = true → Ends k (.empty behind) s)
    {r : List UInt16 × SoundEmojiSynthesizer L F} (hr : s.pull k behind = some r) :
    Between behind r.2 ∧ SameLock s r.2 ∨ Ended k behind s r.2 ∧ holder s.history ≠ none := by
  rcases h with ⟨hidle, hh⟩ | ⟨i, hi⟩
  · obtain ⟨hidle', hsame⟩ := pull_idle hidle (hb (Or.inl hidle.effect)) hr
    exact Or.inl ⟨Or.inl ⟨hidle', by rw [hsame.history, hh]⟩, hsame⟩
  · rcases pull_playing hi (fun hs => hb (Or.inr hs)) hr with ⟨j, hj, hsame, -⟩ | hend
    · exact Or.inl ⟨Or.inr ⟨j, hj⟩, hsame⟩
    · exact Or.inr ⟨hend, by rw [hi.holder]; exact nofun⟩

omit [MachineFloat F] in
/-- The view of the lock depends on the lock, the history and the waiting fibers only. -/
theorem LockView.congr (h : LockView k s) (hl : s'.lock = s.lock) (hh : s'.history = s.history)
    (hb : s'.blocked = s.blocked) (hw : s'.woken = s.woken) : LockView k s' := by
  cases h with
  | free waiters holder woken blocked =>
    exact .free (by rw [hl, waiters]) (by rw [hh, holder]) (by rw [hw, woken]) (by rw [hb, blocked])
  | held waiters holder woken =>
    exact .held (by rw [hl, hb, waiters]) (by rw [hh]; exact holder) (by rw [hw, woken])
  | passed n waiters blocked holder woken =>
    exact .passed n (by rw [hl, waiters]) (by rw [hb, blocked]) (by rw [hh, holder]) (by rw [hw, woken])

omit [MachineFloat F] in
/-- The lock is given back at the end of a playout. -/
theorem LockView.ended (hk : k.Lawful) (h : LockView k s) (hh : SoundEmojiSynthesizer.holder s.history ≠ none)
    (he : Ended k behind s s') : LockView k s' := by
  cases h with
  | free _ holder => exact absurd holder hh
  | passed _ _ _ holder => exact absurd holder hh
  | held waiters _ woken =>
    have hnone : SoundEmojiSynthesizer.holder s'.history = none := by
      rw [he.history]
      rfl
    cases hb : s.blocked with
    | nil =>
      rw [hb] at waiters
      obtain ⟨hno, hfree⟩ := hk.notify_last _ waiters
      exact .free (by rw [he.lock, hfree]) hnone (by rw [he.woken, hno, woken]; rfl) (by rw [he.blocked, hb])
    | cons sound rest =>
      rw [hb] at waiters
      obtain ⟨hyes, hpassed⟩ := hk.notify_waiting _ _ waiters
      exact .passed rest.length (by rw [he.lock, hpassed]) (by rw [he.blocked, hb]; rfl) hnone
        (by rw [he.woken, hyes, woken]; rfl)

/-! ### The calls that enter -/

/-- `lock.wait()` returns in the call that plays the buffer. -/
def Entered (k : FiberLock L) (s s' : SoundEmojiSynthesizer L F) (sound : EffectBuffer F) : Prop :=
  holder s.history = none ∧ ∃ lock blocked, k.waiters lock = some blocked.length ∧ (∀ b ∈ blocked, b ∈ s.blocked) ∧
    s' = { s with lock, blocked, woken := 0 }.enter sound

omit [MachineFloat F] in
/-- A call that has the lock keeps its view right. -/
theorem Entered.lockView {sound : EffectBuffer F} (h : Entered k s s' sound) : LockView k s' := by
  obtain ⟨-, lock, blocked, hl, -, rfl⟩ := h
  exact .held hl nofun rfl

/-- A call of `play` comes back, enters or is blocked. -/
theorem play_cases (hk : k.Lawful) (h : LockView k s) {sound : EffectBuffer F}
    (hn : s.next k behind (.play sound) = some s') :
    s.call = .none ∧ (s' = s ∨ SIZEOF_SOUND_EFFECT ≤ sound.length ∧ (Entered k s s' sound ∨
      LockView k s' ∧ ∃ lock, s' = { s with lock, blocked := s.blocked ++ [sound] })) := by
  rw [SoundEmojiSynthesizer.next] at hn
  split at hn
  · rename_i hcall
    refine ⟨hcall, ?_⟩
    split at hn
    · exact Or.inl (Option.some.inj hn).symm
    · rename_i hlen
      refine Or.inr ⟨Nat.not_lt.mp hlen, ?_⟩
      -- a lock that is taken blocks the fiber
      have htaken : ∀ {n : Nat}, k.waiters s.lock = some n →
          s' = { s with lock := (k.wait s.lock).2, blocked := s.blocked ++ [sound] } := by
        intro n hwait
        rw [(hk.wait_taken _ n hwait).1, if_neg Bool.false_ne_true, Option.some.injEq] at hn
        exact hn.symm
      cases h with
      | free waiters holder woken blocked =>
        obtain ⟨hgo, hnew⟩ := hk.wait_free _ waiters
        rw [hgo, if_pos rfl, Option.some.injEq] at hn
        refine Or.inl ⟨holder, (k.wait s.lock).2, s.blocked, by rw [hnew, blocked]; rfl, fun b hb => hb, ?_⟩
        rw [← hn, ← woken]
      | held waiters holder woken =>
        obtain rfl := htaken waiters
        refine Or.inr ⟨.held ?_ holder woken, _, rfl⟩
        rw [(hk.wait_taken _ _ waiters).2, List.length_append]
        rfl
      | passed n waiters blocked holder woken =>
        obtain rfl := htaken waiters
        refine Or.inr ⟨.passed (n + 1) (hk.wait_taken _ _ waiters).2 ?_ holder woken, _, rfl⟩
        rw [List.length_append, blocked]
        rfl
  · exact absurd hn nofun

/-- The lock lets one of the fibers that it has blocked go on. -/
theorem resume_cases (h : LockView k s) {i : Nat} (hn : s.next k behind (.resume i) = some s') :
    s.call = .none ∧ ∃ sound ∈ s.blocked, Entered k s s' sound := by
  rw [SoundEmojiSynthesizer.next] at hn
  split at hn
  · rename_i woken sound hcall hwoken hsound
    obtain rfl := Option.some.inj hn
    cases h with
    | free _ _ hzero => exact absurd (hwoken.symm.trans hzero) (Nat.succ_ne_zero _)
    | held _ _ hzero => exact absurd (hwoken.symm.trans hzero) (Nat.succ_ne_zero _)
    | passed n waiters blocked holder hone =>
      obtain rfl : woken = 0 := by omega
      have hi : i < s.blocked.length := (List.getElem?_eq_some_iff.mp hsound).1
      refine ⟨hcall, sound, List.mem_of_getElem? hsound, holder, s.lock, s.blocked.eraseIdx i, ?_,
        fun b hb => List.mem_of_mem_eraseIdx hb, rfl⟩
      rw [waiters, List.length_eraseIdx_of_lt hi, blocked]
      rfl
  · exact absurd hn nofun

/-- A call enters. -/
theorem Kept.enter (h : Kept k behind s) (hcall : s.call = .none) {sound : EffectBuffer F}
    (he : Entered k s s' sound) (hw : sound.Whole) : Kept k behind s' := by
  have hview := he.lockView
  obtain ⟨hh, lock, blocked, -, hb, rfl⟩ := he
  have hidle := (h.phase.between hcall).idle hh
  exact ⟨⟨h.serial, hh⟩, hview, fun b hm => h.blocked b (hb b hm),
    ⟨⟨hidle.effect, hidle.effectBuffer, hidle.samplesWritten, hidle.samplesToWrite, hidle.stopping⟩, rfl, hw⟩,
    h.bufferSize⟩

/-- A call of `play` keeps the invariant. -/
theorem Kept.play (hk : k.Lawful) (h : Kept k behind s) {sound : EffectBuffer F}
    (hw : SIZEOF_SOUND_EFFECT ∣ sound.length) (hn : s.next k behind (.play sound) = some s') : Kept k behind s' := by
  obtain ⟨hcall, rfl | ⟨hlen, he | ⟨hview, lock, rfl⟩⟩⟩ := play_cases hk h.lock hn
  · exact h
  · exact h.enter hcall he ⟨hlen, hw⟩
  · refine ⟨h.serial, hview, ?_, ?_, h.bufferSize⟩
    · intro b hb
      rcases List.mem_append.mp hb with hb | hb
      · exact h.blocked b hb
      · rw [List.mem_singleton.mp hb]
        exact ⟨hlen, hw⟩
    · exact ((h.phase.between hcall).frame _ s.call _ s.woken).phase (Or.inl hcall)

/-- A woken fiber that goes on keeps the invariant. -/
theorem Kept.resume (h : Kept k behind s) {i : Nat} (hn : s.next k behind (.resume i) = some s') : Kept k behind s' := by
  obtain ⟨hcall, sound, hmem, he⟩ := resume_cases h.lock hn
  exact h.enter hcall he (h.blocked sound hmem)

/-- A pull of the mixer keeps the invariant. -/
theorem Kept.pull (hk : k.Lawful) (h : Kept k behind s) (ho : Orderly k behind s .pull)
    (hn : s.next k behind .pull = some s') : Kept k behind s' := by
  rw [SoundEmojiSynthesizer.next, Option.map_eq_some_iff] at hn
  obtain ⟨r, hr, rfl⟩ := hn
  obtain ⟨hcall, hends⟩ := ho
  -- a pull that leaves the lock alone
  have hsame : SameLock s r.2 → Phase behind r.2 → Kept k behind r.2 := fun hsame hphase =>
    ⟨by rw [hsame.history]; exact h.serial,
      h.lock.congr hsame.lock hsame.history hsame.blocked hsame.woken, by rw [hsame.blocked]; exact h.blocked, hphase,
      hsame.bufferSize.trans h.bufferSize⟩
  have hbetween : Between behind s → (s.call = .none ∨ s.call = .setStopping) → Kept k behind r.2 := by
    intro hb hc
    rcases hb.pull hends hr with ⟨hb', hs⟩ | ⟨hend, hh⟩
    · exact hsame hs (hb'.phase (by rw [hs.call]; exact hc))
    · have hnone : SoundEmojiSynthesizer.holder r.2.history = none := by
        rw [hend.history]
        rfl
      refine ⟨?_, h.lock.ended hk hh hend, by rw [hend.blocked]; exact h.blocked, ?_,
        hend.bufferSize.trans h.bufferSize⟩
      · rw [hend.history]
        exact ⟨h.serial, hh⟩
      · have hb' : Between behind r.2 := Or.inl ⟨hend.idle, hnone⟩
        exact hb'.phase (by rw [hend.call]; exact hc)
  have hphase := h.phase
  unfold Phase at hphase
  split at hphase
  · exact hbetween hphase (Or.inl ‹_›)
  · exact hbetween hphase (Or.inr ‹_›)
  · rename_i sound hstore
    obtain ⟨hidle, hh, hw⟩ := hphase
    obtain ⟨hidle', hs⟩ := pull_idle hidle (hends (Or.inl hidle.effect)) hr
    refine hsame hs ?_
    unfold Phase
    rw [hs.call, hstore]
    exact ⟨hidle', by rw [hs.history, hh], hw⟩
  · exact absurd ‹_› hcall

/-- A step of the running fiber that leaves the lock alone. -/
theorem Kept.moved (h : Kept k behind s) (hl : s'.lock = s.lock) (hh : s'.history = s.history)
    (hb : s'.blocked = s.blocked) (hw : s'.woken = s.woken) (hs : s'.bufferSize = s.bufferSize)
    (hp : Phase behind s') : Kept k behind s' :=
  ⟨by rw [hh]; exact h.serial, h.lock.congr hl hh hb hw, by rw [hb]; exact h.blocked, hp, hs.trans h.bufferSize⟩

/-- One step. -/
theorem Kept.next (hk : k.Lawful) (h : Kept k behind s) {x : Step F} (hw : x.Whole) (ho : Orderly k behind s x)
    (hn : s.next k behind x = some s') : Kept k behind s' := by
  have hphase := h.phase
  unfold Phase at hphase
  cases x with
  | play sound => exact h.play hk hw hn
  | resume i => exact h.resume hn
  | store =>
    rw [SoundEmojiSynthesizer.next] at hn
    split at hn
    · rename_i sound hcall
      rw [hcall] at hphase
      obtain ⟨hidle, hh, hw⟩ := hphase
      obtain rfl := Option.some.inj hn
      exact h.moved rfl rfl rfl rfl rfl ⟨hidle.effect, hidle.stopping, hw, hh⟩
    · exact absurd hn nofun
  | schedule =>
    rw [SoundEmojiSynthesizer.next] at hn
    split at hn
    · rename_i hcall
      rw [hcall] at hphase
      obtain ⟨he, hs, hw, hh⟩ := hphase
      have hpos : 0 < s.effectBuffer.length := Nat.lt_of_lt_of_le (by decide) hw.1
      rw [nextSoundEffect_first hs he hpos] at hn
      obtain rfl := Option.some.inj hn
      have hplay : Playing 0 (s.begin 0) := ⟨rfl, by rw [Nat.zero_mul]; exact hpos, hw, hh, fun hr => begin_pace hr⟩
      exact h.moved rfl rfl rfl rfl rfl (Or.inr ⟨0, hplay.frame _ .none _ _ _⟩)
    · exact absurd hn nofun
  | stop =>
    rw [SoundEmojiSynthesizer.next] at hn
    split at hn
    · rename_i hcall
      rw [hcall] at hphase
      obtain rfl := Option.some.inj hn
      refine h.moved rfl rfl rfl rfl rfl ((hphase.frame s.lock _ s.blocked s.woken).phase ?_)
      split
      · exact Or.inr rfl
      · exact Or.inl rfl
    · exact absurd hn nofun
  | setStopping =>
    rw [SoundEmojiSynthesizer.next] at hn
    split at hn
    · rename_i hcall
      rw [hcall] at hphase
      obtain rfl := Option.some.inj hn
      rcases hphase with ⟨hidle, -⟩ | ⟨i, hi⟩
      · exact absurd hidle.effect ho
      · exact h.moved rfl rfl rfl rfl rfl (Or.inr ⟨i, hi.frame s.lock .none s.blocked s.woken true⟩)
    · exact absurd hn nofun
  | pull => exact h.pull hk ho hn

/-- Every step of the sequence finds the state as `Orderly` asks. -/
def Undisturbed (k : FiberLock L) (behind : Nat → SoundEffect F) (s : SoundEmojiSynthesizer L F) :
    List (Step F) → Prop
  | [] => True
  | x :: steps => Orderly k behind s x ∧ ∀ s', s.next k behind x = some s' → Undisturbed k behind s' steps

theorem run_cons (x : Step F) (steps : List (Step F)) :
    s.run k behind (x :: steps) = (s.next k behind x).bind fun s' => s'.run k behind steps := by
  simp [run, List.foldlM_cons]

/-- Any number of steps. -/
theorem Kept.run (hk : k.Lawful) (steps : List (Step F)) : ∀ {s : SoundEmojiSynthesizer L F}, Kept k behind s →
    (∀ x ∈ steps, x.Whole) → Undisturbed k behind s steps → s.run k behind steps = some s' → Kept k behind s' := by
  induction steps with
  | nil =>
    intro s h _ _ hr
    obtain rfl := Option.some.inj hr
    exact h
  | cons x steps ih =>
    intro s h hw hu hr
    rw [run_cons, Option.bind_eq_some_iff] at hr
    obtain ⟨s₁, hn, hr⟩ := hr
    exact ih (h.next hk (hw x List.mem_cons_self) hu.1 hn) (fun y hy => hw y (List.mem_cons_of_mem x hy)) (hu.2 s₁ hn) hr

/-! ## The end of a playout -/

/-- The arithmetic keeps the steps of all the effects of the buffer in order. -/
def AllRegular (s : SoundEmojiSynthesizer L F) : Prop :=
  ∀ i, i * SIZEOF_SOUND_EFFECT < s.effectBuffer.length → Regular s.sampleRate (s.effectBuffer.get i)

/-- The effect being played is regular when every effect handed in is. -/
theorem Playing.regular {i : Nat} (h : Playing i s) (hr : AllRegular s) : Regular s.sampleRate s.current := by
  unfold current
  rw [h.effect]
  exact hr i h.inside

/-- The pull has come further in the buffer: it plays a later effect, or has written more samples of the same one. -/
def Further (i : Nat) (s s' : SoundEmojiSynthesizer L F) : Prop :=
  ∃ j, Playing j s' ∧ (i < j ∨ i = j ∧ s.samplesWritten < s'.samplesWritten)

/-- A turn that renders returns with the buffer full, returns because it is the last one, or goes on. -/
theorem pullTurns_render {i : Nat} (fuel : Nat) {done : Bool} {s₁ : SoundEmojiSynthesizer L F}
    (sample : Option (List UInt16)) (ha : s.advance k behind = (done, s₁)) (h : Playing i s₁)
    (hr : Regular s₁.sampleRate s₁.current) :
    ∃ full buffer' s₂, s₁.render s₁.renderFuel (sample.getD []) = some (full, buffer', s₂) ∧ Playing i s₂ ∧
      (∀ room : Nat, s₁.bufferSize = 2 * room → (sample.getD []).length ≤ room → buffer'.length ≤ room) ∧
      s₂.samplesWritten = s₁.samplesWritten + (buffer'.length - (sample.getD []).length : Int) ∧
      ((2 * (buffer'.length : Int) = s₁.bufferSize ∨ done = true ∧ s₂.samplesWritten = s₂.samplesToWrite) ∧
          (∃ b, b.getD [] = buffer' ∧ s.pullTurns k behind (fuel + 1) sample = some (b, s₂)) ∨
        done = false ∧ s₂.samplesWritten = s₂.samplesToWrite ∧ ∃ sample', sample'.getD [] = buffer' ∧
          s.pullTurns k behind (fuel + 1) sample = s₂.pullTurns k behind fuel sample') := by
  generalize hnew : (if (s₁.samplesWritten < s₁.samplesToWrite ∨ !s₁.silenceAsEmpty) ∧ sample = none then some []
    else sample : Option (List UInt16)) = sample₁
  have hget : sample₁.getD [] = sample.getD [] := by
    rw [← hnew]
    exact created_getD And.right
  obtain ⟨full, buffer', s₂, heq, -, hw, -, hfull, hdone, hroom⟩ :=
    render_spec s₁.renderFuel (sample₁.getD []) (h.pace hr) hr (Nat.le_refl _)
  have hstart : s.pullTurns k behind (fuel + 1) sample =
      if full then some (some buffer', s₂)
      else if done then some (sample₁.map fun _ => buffer', s₂)
      else s₂.pullTurns k behind fuel (sample₁.map fun _ => buffer') := by
    simp only [pullTurns, ha, hnew, heq]
    cases full <;> rfl
  have hkept : full = false → (sample₁.map fun _ => buffer').getD [] = buffer' := by
    intro _
    cases sample₁ with
    | some buffer => rfl
    | none =>
      -- the buffer is created before the first sample is written
      have hnone : ¬s₁.samplesWritten < s₁.samplesToWrite := by
        intro hlt
        split at hnew
        · exact absurd hnew nofun
        · rename_i hno
          exact hno ⟨Or.inl hlt, hnew⟩
      rw [renderFuel, render_done _ _ hnone, Option.some.injEq, Prod.mk.injEq, Prod.mk.injEq] at heq
      exact heq.2.1
  rw [hget] at heq hw hroom
  refine ⟨full, buffer', s₂, heq, h.render heq, hroom, hw, ?_⟩
  cases full with
  | true => exact Or.inl ⟨Or.inl (hfull rfl), _, rfl, hstart⟩
  | false =>
    cases done with
    | true => exact Or.inl ⟨Or.inr ⟨rfl, hdone rfl⟩, _, hkept rfl, hstart⟩
    | false => exact Or.inr ⟨rfl, hdone rfl, _, hkept rfl, hstart⟩

/-- What does not change while a buffer is played. -/
theorem Playing.stays {i j : Nat} (h : Playing i s) (h' : Playing j s') (hs : SameLock s s') :
    s'.effectBuffer = s.effectBuffer := by
  have hh := h'.holder
  rw [hs.history, h.holder] at hh
  exact (Option.some.inj hh).symm

/-- Regularity stays while buffer and history do. -/
theorem AllRegular.stays (hr : AllRegular s) (hb : s'.effectBuffer = s.effectBuffer) (hs : SameLock s s') :
    AllRegular s' := by
  intro i hi
  rw [hb] at hi ⊢
  rw [hs.sampleRate]
  exact hr i hi

/-- A sound that ends still does while buffer and history stay. -/
theorem Ends.stays (h : Ends k s.effectBuffer s) (hb : s'.effectBuffer = s.effectBuffer) (hs : SameLock s s') :
    Ends k s'.effectBuffer s' := by
  unfold Ends at h ⊢
  rwa [hb, hs.lock]

/-- A pull of a buffer that ends: it returns, and it ends the playout or comes further. -/
theorem pullTurns_further (room fuel : Nat) : ∀ {s : SoundEmojiSynthesizer L F} {i : Nat}
    (sample : Option (List UInt16)), Playing i s → (s.stopping = true → Ends k (.empty behind) s) →
    (s.stopping = false → Ends k s.effectBuffer s) → AllRegular s → s.bufferSize = 2 * room →
    (sample.getD []).length ≤ room → room < (sample.getD []).length + fuel →
    (s.samplesWritten = s.samplesToWrite ∨ (sample.getD []).length < room) →
    ∃ r, s.pullTurns k behind fuel sample = some r ∧
      (Ended k behind s r.2 ∨ s.stopping = false ∧ Further i s r.2) := by
  induction fuel with
  | zero =>
    intro s i sample _ _ _ _ _ hfit hfuel
    omega
  | succ fuel ih =>
    intro s i sample h hb he hr hsize hfit hfuel hgo
    -- a turn that plays the effect at `j`: a later one, or the same one with room in the buffer
    have hturn : ∀ {done : Bool} {j : Nat} {s₁ : SoundEmojiSynthesizer L F}, s.advance k behind = (done, s₁) →
        Playing j s₁ → SameLock s s₁ → s₁.effectBuffer = s.effectBuffer → s₁.stopping = false → Ends k s.effectBuffer s →
        (done = false → s₁.samplesWritten < s₁.samplesToWrite) →
        (i < j ∨ i = j ∧ s₁ = s ∧ done = false ∧ (sample.getD []).length < room) →
        ∃ r, s.pullTurns k behind (fuel + 1) sample = some r ∧ (Ended k behind s r.2 ∨ Further i s r.2) := by
      intro done j s₁ ha hj hsame heb hs he hlt hij
      have hr₁ := hr.stays heb hsame
      obtain ⟨full, buffer', s₂, hres, hplay, hfit', hw, hcase⟩ :=
        pullTurns_render fuel sample ha hj (hj.regular hr₁)
      have hsize₁ := hsame.bufferSize.trans hsize
      have hfit' := hfit' room hsize₁ hfit
      have hren := render_renders _ hres
      have hsame₂ := hsame.trans hren.sameLock
      have hcount := hren.samplesToWrite
      have hs₂ := hren.stopping.trans hs
      rcases hcase with ⟨hwhy, b, -, heq⟩ | ⟨hdone, hall, sample', hget, heq⟩
      · refine ⟨_, heq, Or.inr ⟨j, hplay, ?_⟩⟩
        rcases hij with hij | ⟨rfl, rfl, hdone, hmore⟩
        · exact Or.inl hij
        · refine Or.inr ⟨rfl, ?_⟩
          have hfull := hwhy.resolve_right fun h => absurd (h.1.symm.trans hdone) nofun
          dsimp only
          omega
      · have hlt := hlt hdone
        have hb₂ := hj.stays hplay hren.sameLock
        obtain ⟨r, hr', hres⟩ := ih sample' hplay (fun h => absurd h (by simp [hs₂]))
          (fun _ => he.stays (hb₂.trans heb) hsame₂) (hr₁.stays hb₂ hren.sameLock) (hsame₂.bufferSize.trans hsize)
          (by rw [hget]; exact hfit') (by rw [hget]; omega) (Or.inl hall)
        refine ⟨r, heq.trans hr', ?_⟩
        rcases hres with hend | ⟨-, j', hj', hfar⟩
        · exact Or.inl (hend.after hsame₂)
        · refine Or.inr ⟨j', hj', ?_⟩
          rcases hij with hij | ⟨rfl, rfl, -⟩
          · rcases hfar with hfar | ⟨rfl, -⟩
            · exact Or.inl (hij.trans hfar)
            · exact Or.inl hij
          · rcases hfar with hfar | ⟨rfl, hfar⟩
            · exact Or.inl hfar
            · exact Or.inr ⟨rfl, by omega⟩
    rcases advance_cases h hb with ha | ⟨ha, hne, hs⟩ | ⟨j, ha, hj, hs, hij⟩
    · have heq := pullTurns_rest fuel sample ha (rest_ended s).idle
      exact ⟨_, heq, Or.inl (rest_ended s)⟩
    · have hle := (h.pace (h.regular hr)).le
      obtain ⟨r, heq, hres⟩ := hturn ha h (SameLock.refl s) rfl hs (he hs) (fun _ => by omega)
        (Or.inr ⟨rfl, rfl, rfl, hgo.resolve_left hne⟩)
      exact ⟨r, heq, hres.imp_right fun hfar => ⟨hs, hfar⟩⟩
    · have hcount : 0 ≤ (s.begin j).samplesToWrite := (hr j hj.inside).count
      have hzero : (s.begin j).samplesWritten = 0 := rfl
      obtain ⟨r, heq, hres⟩ := hturn ha hj ⟨rfl, rfl, rfl, rfl, rfl, rfl, rfl⟩ rfl hs (he hs)
        (fun hdone => by have := of_decide_eq_false hdone; omega) (Or.inl (hij.resolve_right fun h => h (he hs)))
      exact ⟨r, heq, hres.imp_right fun hfar => ⟨hs, hfar⟩⟩

/-- A pull of a buffer that ends. -/
theorem pull_further (behind : Nat → SoundEffect F) {i : Nat} (h : Playing i s)
    (hb : s.stopping = true → Ends k (.empty behind) s) (he : s.stopping = false → Ends k s.effectBuffer s)
    (hr : AllRegular s) {room : Nat} (hsize : s.bufferSize = 2 * room) (hroom : 0 < room) :
    ∃ r, s.pull k behind = some r ∧ (Ended k behind s r.2 ∨ s.stopping = false ∧ Further i s r.2) := by
  obtain ⟨⟨buffer, s'⟩, heq, hres⟩ := pullTurns_further room (room + 1) none h hb he hr hsize (Nat.zero_le _)
    (by simp) (Or.inr hroom)
  have hfuel : (s.bufferSize / 2).toNat.succ = room + 1 := by omega
  rw [pull, hfuel, heq]
  exact ⟨_, rfl, hres⟩

/-- How many samples are left does not depend on how much was played. -/
theorem Playing.samplesToWrite_eq {i : Nat} (h : Playing i s) (h' : Playing i s') (hr : AllRegular s)
    (hs : SameLock s s') : s'.samplesToWrite = s.samplesToWrite := by
  have hb := h.stays h' hs
  have hcur : s'.current = s.current := by rw [current, current, h'.effect, h.effect, hb]
  rw [(h'.pace (h'.regular (hr.stays hb hs))).count, (h.pace (h.regular hr)).count, hcur, hs.sampleRate]

/-- What is left to play: the effects behind this one, and the samples of this one. -/
def left (i : Nat) (s : SoundEmojiSynthesizer L F) : Nat × Nat :=
  (s.effectBuffer.length - i, (s.samplesToWrite - s.samplesWritten).toNat)

/-- There is less left to play after a pull that has come further. -/
theorem Playing.left_lt {i j : Nat} (h : Playing i s) (hj : Playing j s')
    (hfar : i < j ∨ i = j ∧ s.samplesWritten < s'.samplesWritten) (hr : AllRegular s) (hsame : SameLock s s') :
    Prod.Lex (· < ·) (· < ·) (left j s') (left i s) := by
  have heb := h.stays hj hsame
  unfold left
  rw [heb]
  rcases hfar with hfar | ⟨rfl, hfar⟩
  · have hin := hj.inside
    rw [heb, SIZEOF_SOUND_EFFECT] at hin
    exact Prod.Lex.left _ _ (by omega)
  · have hle := (hj.pace (hj.regular (hr.stays heb hsame))).le
    have heq := h.samplesToWrite_eq hj hr hsame
    exact Prod.Lex.right _ (by omega)

/-- Enough pulls end the playout of a buffer that ends. -/
theorem pulls_end {s : SoundEmojiSynthesizer L F} {i : Nat} (h : Playing i s)
    (hb : s.stopping = true → Ends k (.empty behind) s) (he : s.stopping = false → Ends k s.effectBuffer s)
    (hr : AllRegular s) {room : Nat} (hsize : s.bufferSize = 2 * room) (hroom : 0 < room) :
    ∃ n s', s.run k behind (List.replicate n .pull) = some s' ∧ Ended k behind s s' := by
  obtain ⟨r, hpull, hres⟩ := pull_further behind h hb he hr hsize hroom
  have hn : s.next k behind .pull = some r.2 := by
    rw [next, hpull]
    rfl
  rcases hres with hend | ⟨hst, j, hj, hfar⟩
  · exact ⟨1, r.2, by rw [List.replicate_one, run_cons, hn]; rfl, hend⟩
  · rcases pull_playing h hb hpull with ⟨_, _, hsame, hs⟩ | hend
    · have heb := h.stays hj hsame
      have hless := h.left_lt hj hfar hr hsame
      obtain ⟨n, s', hrun, hend⟩ := pulls_end hj (fun h => absurd h (by simp [hs])) (fun _ => (he hst).stays heb hsame)
        (hr.stays heb hsame) (hsame.bufferSize.trans hsize) hroom
      refine ⟨n + 1, s', ?_, hend.after hsame⟩
      rw [List.replicate_succ, run_cons, hn]
      exact hrun
    · exact absurd (hend.idle.effect.symm.trans hj.effect) nofun
termination_by left i s
decreasing_by exact hless

/-! ## The theorem -/

/-- What holds of the lock. Each call that enters is completed by one event and one `notify` before the next one enters.
The lock is taken as long as a call holds it, or it is passed on to a fiber that has not gone on yet. Outside of `play` a
call holds the lock exactly while an effect is played, and what is played is the buffer of this call. A buffer that ends is
completed by some number of pulls. -/
structure Sound (k : FiberLock L) (behind : Nat → SoundEffect F) (s : SoundEmojiSynthesizer L F) : Prop where
  serial : Serial s.history
  lock : k.waiters s.lock = none ↔ holder s.history = none ∧ s.woken = 0
  active : s.call = .none ∨ s.call = .setStopping → (s.effect = none ↔ holder s.history = none)
  buffer : s.effect ≠ none → holder s.history = some s.effectBuffer
  completes : s.effect ≠ none → AllRegular s → Ends k (if s.stopping then .empty behind else s.effectBuffer) s →
    ∃ n s', s.run k behind (List.replicate n .pull) = some s' ∧ s'.effect = none ∧
      s'.history = .notify :: .done :: s.history

/-- With an effect under way the synthesizer is playing one of the buffer's effects. -/
theorem Kept.playing (h : Kept k behind s) (he : s.effect ≠ none) : ∃ i, Playing i s := by
  have hphase := h.phase
  unfold Phase at hphase
  have hbetween : Between behind s → ∃ i, Playing i s := fun hb =>
    hb.resolve_left fun hidle => he hidle.1.effect
  split at hphase
  · exact hbetween hphase
  · exact hbetween hphase
  · exact absurd hphase.1.effect he
  · exact absurd hphase.1 he

/-- The invariant gives what the theorem says about a state. -/
theorem Kept.sound (h : Kept k behind s) : Sound k behind s where
  serial := h.serial
  lock := by
    cases h.lock with
    | free waiters holder woken _ => exact iff_of_true waiters ⟨holder, woken⟩
    | held waiters holder _ => exact iff_of_false (by rw [waiters]; exact nofun) fun h => holder h.1
    | passed n waiters _ _ woken =>
      exact iff_of_false (by rw [waiters]; exact nofun) fun h => absurd (woken.symm.trans h.2) Nat.one_ne_zero
  active := by
    intro hc
    have hphase := h.phase
    have hbetween : Between behind s := by
      unfold Phase at hphase
      rcases hc with hc | hc <;> rwa [hc] at hphase
    rcases hbetween with ⟨hidle, hh⟩ | ⟨i, hi⟩
    · exact iff_of_true hidle.effect hh
    · exact iff_of_false (by rw [hi.effect]; exact nofun) (by rw [hi.holder]; exact nofun)
  buffer he := by
    obtain ⟨i, hi⟩ := h.playing he
    exact hi.holder
  completes he hr hends := by
    obtain ⟨i, hi⟩ := h.playing he
    have hsize : EMOJI_SYNTHESIZER_BUFFER_SIZE = 2 * (256 : Nat) := rfl
    obtain ⟨n, s', hrun, hend⟩ := pulls_end hi (fun hs => by rwa [if_pos hs] at hends)
      (fun hs => by rwa [hs, if_neg Bool.false_ne_true] at hends) hr (h.bufferSize.trans hsize) (by decide)
    exact ⟨n, s', hrun, hend.idle.effect, hend.history⟩

/-- A new synthesizer satisfies the invariant. -/
theorem new_kept (hk : k.Lawful) (sampleRange : F) (orMask : UInt16) (silenceAsEmpty : Bool) :
    Kept k behind (new k behind sampleRange orMask silenceAsEmpty) :=
  ⟨trivial, .free hk.free rfl rfl rfl, nofun, Or.inl ⟨⟨rfl, rfl, rfl, rfl, rfl⟩, rfl⟩, rfl⟩

/-- In every run of calls of `play` and `stop` and of pulls between their statements, as long as every step finds the state
as `Orderly` asks. -/
theorem playback_lock (hk : k.Lawful) (sampleRange : F) (orMask : UInt16) (silenceAsEmpty : Bool)
    (steps : List (Step F)) (hw : ∀ x ∈ steps, x.Whole)
    (hu : Undisturbed k behind (new k behind sampleRange orMask silenceAsEmpty) steps)
    (hr : (new k behind sampleRange orMask silenceAsEmpty).run k behind steps = some s) : Sound k behind s :=
  ((new_kept hk sampleRange orMask silenceAsEmpty).run hk steps hw hu hr).sound

/-- A lock that is the number of fibers it blocks. -/
def plainLock : FiberLock (Option Nat) where
  free := none
  wait
    | none => (true, some 0)
    | some n => (false, some (n + 1))
  notify
    | some (n + 1) => (true, some n)
    | _ => (false, none)
  getWaitCount l := l.getD 0
  waiters l := l

/-- The plain lock obeys the laws asked of a lock. -/
theorem plainLock_lawful : plainLock.Lawful where
  free := rfl
  wait_free l hl := by
    obtain rfl : l = none := hl
    exact ⟨rfl, rfl⟩
  wait_taken l n hl := by
    obtain rfl : l = some n := hl
    exact ⟨rfl, rfl⟩
  notify_last l hl := by
    obtain rfl : l = some 0 := hl
    exact ⟨rfl, rfl⟩
  notify_waiting l n hl := by
    obtain rfl : l = some (n + 1) := hl
    exact ⟨rfl, rfl⟩
  getWaitCount _ := rfl

/-- A silent effect of `duration` milliseconds. -/
def silent (duration : ℚ) : SoundEffect ℚ := ⟨0, 0, duration, fun _ => 0, fun _ => ⟨none, 1⟩⟩

/-- A synthesizer that has not played anything yet. -/
def synth : SoundEmojiSynthesizer (Option Nat) ℚ := new plainLock (fun _ => silent 0) 1023 0 true

/-- `playback_lock` for an effect that is played to its end in one pull. -/
theorem playback_lock_one : ∃ s, synth.run plainLock (fun _ => silent 0)
    [.play (.ofList [silent 1] (silent 0)), .store, .schedule, .pull] = some s ∧ Sound plainLock (fun _ => silent 0) s := by
  have hsome : (synth.run plainLock (fun _ => silent 0)
      [.play (.ofList [silent 1] (silent 0)), .store, .schedule, .pull]).isSome = true := by decide +kernel
  obtain ⟨s, hs⟩ := Option.isSome_iff_exists.mp hsome
  refine ⟨s, hs, playback_lock plainLock_lawful 1023 0 true _ ?_ ?_ hs⟩
  · exact List.forall_mem_cons.mpr ⟨Nat.dvd_refl _, by simp [Step.Whole]⟩
  · refine ⟨trivial, fun s₁ h₁ => ⟨trivial, fun s₂ h₂ => ⟨trivial, fun s₃ h₃ => ⟨?_, fun _ _ => trivial⟩⟩⟩⟩
    obtain rfl := Option.some.inj h₁
    obtain rfl := Option.some.inj h₂
    obtain rfl := Option.some.inj h₃
    exact ⟨nofun, fun _ => Or.inl (by decide)⟩

/-- A pull between the two statements of `play` begins the only effect of the buffer, and `play` goes on behind it: the
lock is held for good, with nothing to play. -/
theorem pull_inside_play : ∃ s, synth.run plainLock (fun _ => silent 0)
    [.play (.ofList [silent 10] (silent 0)), .store, .pull, .schedule] = some s ∧
      ¬Sound plainLock (fun _ => silent 0) s := by
  have hp : (synth.run plainLock (fun _ => silent 0)
      [.play (.ofList [silent 10] (silent 0)), .store, .pull, .schedule]).any (fun s =>
        (s.effect.isNone && (holder s.history).isSome) && match s.call with
          | .none => true
          | .store _ | .schedule | .setStopping => false) = true := by
    decide +kernel
  cases hrun : synth.run plainLock (fun _ => silent 0)
      [.play (.ofList [silent 10] (silent 0)), .store, .pull, .schedule] with
  | none =>
    rw [hrun] at hp
    cases hp
  | some s =>
    rw [hrun, Option.any_some, Bool.and_eq_true, Bool.and_eq_true] at hp
    obtain ⟨⟨he, hh⟩, hc⟩ := hp
    refine ⟨s, rfl, fun h => ?_⟩
    have hcall : s.call = .none := by
      cases hcall : s.call with
      | none => rfl
      | store | schedule | setStopping =>
        rw [hcall] at hc
        cases hc
    rw [(h.active (Or.inl hcall)).mp (Option.isNone_iff_eq_none.mp he)] at hh
    cases hh

end SoundEmojiSynthesizer

end CodalMicrobit
