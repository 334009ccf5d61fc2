import CodalMicrobit.FSCache
import CodalMicrobit.FiberLock
import Mathlib.Algebra.BigOperators.Fin
import Mathlib.Data.Rat.Floor

/-!
# The synthesizer of sound effects

`SoundEmojiSynthesizer` plays buffers of sound effects, one buffer at a time: `play` waits for a lock that `pull` gives
back when the buffer has ended or `stop` was called. `play` and `stop` run in fibers, which give up the processor in
`lock.wait()` only; `pull` runs in an interrupt, between any two statements of the two.
-/

namespace CodalMicrobit

/-- `EMOJI_SYNTHESIZER_BUFFER_SIZE` -/
def EMOJI_SYNTHESIZER_BUFFER_SIZE : Int := 512

/-- `EMOJI_SYNTHESIZER_SAMPLE_RATE` -/
def EMOJI_SYNTHESIZER_SAMPLE_RATE : Int := 44100

/-- `EMOJI_SYNTHESIZER_TONE_WIDTH` -/
def EMOJI_SYNTHESIZER_TONE_WIDTH : Int := 1024

/-- `EMOJI_SYNTHESIZER_TONE_EFFECTS` -/
abbrev EMOJI_SYNTHESIZER_TONE_EFFECTS : Nat := 3

instance neZero_toneEffects : NeZero EMOJI_SYNTHESIZER_TONE_EFFECTS := ⟨by decide⟩

/-- `sizeof(SoundEffect)` on the target. -/
def SIZEOF_SOUND_EFFECT : Nat := 80

/-- The operations of the type `float` that the synthesizer uses. -/
class MachineFloat (F : Type) extends Add F, Sub F, Mul F, Div F, Neg F, LT F, LE F where
  ofInt : Int → F
  /-- The conversion to `int`. -/
  toInt : F → Int
  /-- The conversion to `uint16_t`. -/
  toUInt16 : F → UInt16
  /-- The loop that takes the tone width off a position while it is above it. -/
  keepInRange : F → F
  decidableLT : DecidableLT F
  decidableLE : DecidableLE F

attribute [reducible, instance] MachineFloat.decidableLT MachineFloat.decidableLE

open MachineFloat

/-- Numbers without rounding. -/
instance : MachineFloat ℚ where
  ofInt := (↑)
  toInt x := if 0 ≤ x then ⌊x⌋ else ⌈x⌉
  toUInt16 x := .ofNat ⌊x⌋.toNat
  keepInRange x := x - 1024 * (⌈x / 1024⌉ - 1)
  decidableLT := inferInstance
  decidableLE := inferInstance

/-- A `ToneEffect`: its effect function acts on the frequency and the volume of the synthesizer. -/
structure ToneEffect (F : Type) where
  effect : Option (Int → Int → F × F → F × F)
  steps : Int

/-- A `SoundEffect` -/
structure SoundEffect (F : Type) where
  frequency : F
  volume : F
  duration : F
  tonePrint : Int → UInt16
  effects : Fin EMOJI_SYNTHESIZER_TONE_EFFECTS → ToneEffect F

/-- A `ManagedBuffer` of sound effects: its length in bytes, and what is read at each place of the array. -/
structure EffectBuffer (F : Type) where
  length : Nat
  get : Nat → SoundEffect F

/-- The buffer of some effects; `behind` is what the memory behind them reads as. -/
def EffectBuffer.ofList {F : Type} (effects : List (SoundEffect F)) (behind : SoundEffect F) : EffectBuffer F :=
  ⟨SIZEOF_SOUND_EFFECT * effects.length, fun i => effects.getD i behind⟩

/-- `emptyBuffer`, with what is read at its address. -/
def EffectBuffer.empty {F : Type} (behind : Nat → SoundEffect F) : EffectBuffer F := ⟨0, behind⟩

/-- What happens to the lock. -/
inductive LockEvent (F : Type) where
  /-- `lock.wait()` returns in the call that plays this buffer. -/
  | entered (sound : EffectBuffer F)
  /-- `DEVICE_SOUND_EMOJI_SYNTHESIZER_EVT_DONE` -/
  | done
  | notify

/-- The call that the running fiber is in, by the statement that comes next. -/
inductive RunningCall (F : Type) where
  | none
  /-- `effectBuffer = sound` of `play` -/
  | store (sound : EffectBuffer F)
  /-- `nextSoundEffect()` of `play` -/
  | schedule
  /-- `status |= EMOJI_SYNTHESIZER_STATUS_STOPPING` of `stop` -/
  | setStopping

/-- `SoundEmojiSynthesizer`. The steps of the tone effects are kept here and not in the effect that is played: they are
cleared whenever an effect begins. Beside its fields are the call of the running fiber, the buffers of the fibers that are
in `lock.wait()`, how many of these the lock has let go on, and the record of what has happened to the lock, latest
first. -/
structure SoundEmojiSynthesizer (L F : Type) where
  lock : L
  effectBuffer : EffectBuffer F
  effect : Option Nat := Option.none
  step : Fin EMOJI_SYNTHESIZER_TONE_EFFECTS → Int := fun _ => 0
  samplesPerStep : Fin EMOJI_SYNTHESIZER_TONE_EFFECTS → F
  sampleRate : Int := EMOJI_SYNTHESIZER_SAMPLE_RATE
  sampleRange : F
  orMask : UInt16 := 0
  bufferSize : Int := EMOJI_SYNTHESIZER_BUFFER_SIZE
  frequency : F
  volume : F
  samplesToWrite : Int := 0
  samplesWritten : Int := 0
  position : F
  silenceAsEmpty : Bool := false
  stopping : Bool := false
  call : RunningCall F := .none
  blocked : List (EffectBuffer F) := []
  woken : Nat := 0
  history : List (LockEvent F) := []

namespace SoundEmojiSynthesizer

/-- `ToneEffect.steps` once the effect has begun. -/
def steps {F : Type} (e : SoundEffect F) (i : Fin EMOJI_SYNTHESIZER_TONE_EFFECTS) : Int := max (e.effects i).steps 1

section
variable {L F : Type} [MachineFloat F]

/-- `determineSampleCount`, at a sample rate. -/
def determineSampleCount (sampleRate : Int) (playoutTime : F) : Int :=
  let playoutTime := if playoutTime < ofInt 0 then -playoutTime else playoutTime
  toInt (ofInt sampleRate * (playoutTime / ofInt 1000))

/-- The end of `nextSoundEffect`, which sets the synthesizer up for the effect at `i`. -/
def begin (s : SoundEmojiSynthesizer L F) (i : Nat) : SoundEmojiSynthesizer L F :=
  let e := s.effectBuffer.get i
  let samplesToWrite := determineSampleCount s.sampleRate e.duration
  { s with
    effect := some i
    samplesToWrite
    frequency := e.frequency
    volume := e.volume
    samplesWritten := 0
    step := fun _ => 0
    samplesPerStep := fun k => ofInt samplesToWrite / ofInt (steps e k) }

/-- The effect that is played, where there is one. -/
def current (s : SoundEmojiSynthesizer L F) : SoundEffect F := s.effectBuffer.get (s.effect.getD 0)

/-- `effectStepEnd` of `pull` -/
def effectStepEnd (s : SoundEmojiSynthesizer L F) (i : Fin EMOJI_SYNTHESIZER_TONE_EFFECTS) : Int :=
  if s.step i = steps s.current i - 1 then s.samplesToWrite else toInt (s.samplesPerStep i * ofInt (s.step i))

/-- `stepEndPosition` of `pull` -/
def stepEndPosition (s : SoundEmojiSynthesizer L F) : Int :=
  min (min (s.effectStepEnd 0) (s.effectStepEnd 1)) (s.effectStepEnd 2)

/-- One turn of the loop that synthesizes: the sample, and the synthesizer after it. -/
def synthesize (s : SoundEmojiSynthesizer L F) : UInt16 × SoundEmojiSynthesizer L F :=
  let skip := (ofInt EMOJI_SYNTHESIZER_TONE_WIDTH * s.frequency) / ofInt s.sampleRate
  let gain := (s.sampleRange * s.volume) / ofInt 1024
  let offset := ofInt 512 - (ofInt 512 * gain)
  let tone := s.current.tonePrint (toInt s.position)
  (toUInt16 ((ofInt tone.toNat * gain) + offset) ||| s.orMask,
    { s with samplesWritten := s.samplesWritten + 1, position := keepInRange (s.position + skip) })

/-- The loop that writes the samples up to the end of a step, `n` of them, and whether the buffer was full before. -/
def writeSamples : Nat → SoundEmojiSynthesizer L F → List UInt16 → Bool × List UInt16 × SoundEmojiSynthesizer L F
  | 0, s, buffer => (false, buffer, s)
  | n + 1, s, buffer =>
    if 2 * (buffer.length : Int) = s.bufferSize then (true, buffer, s)
    else
      let (sample, s) := s.synthesize
      writeSamples n s (buffer ++ [sample])

/-- The loop that invokes the effect functions that are due, for the tone effect `i`. -/
def invokeEffect (ends : Fin EMOJI_SYNTHESIZER_TONE_EFFECTS → Int) (s : SoundEmojiSynthesizer L F)
    (i : Fin EMOJI_SYNTHESIZER_TONE_EFFECTS) : SoundEmojiSynthesizer L F :=
  if s.samplesWritten = ends i ∧ s.step i < steps s.current i then
    let (frequency, volume) := match (s.current.effects i).effect with
      | some effect => effect (s.step i) (steps s.current i) (s.frequency, s.volume)
      | none => (s.frequency, s.volume)
    { s with frequency, volume, step := Function.update s.step i (s.step i + 1) }
  else s

/-- The loop of `pull` that generates samples with the current effect, and whether the buffer was full before its end;
nothing where the loop does not end. -/
def render : Nat → SoundEmojiSynthesizer L F → List UInt16 → Option (Bool × List UInt16 × SoundEmojiSynthesizer L F)
  | 0, _, _ => none
  | fuel + 1, s, buffer =>
    if s.samplesWritten < s.samplesToWrite then
      let ends := s.effectStepEnd
      match s.writeSamples (s.stepEndPosition - s.samplesWritten).toNat buffer with
      | (true, buffer, s) => some (true, buffer, s)
      | (false, buffer, s) =>
        render fuel (((s.invokeEffect ends 0).invokeEffect ends 1).invokeEffect ends 2) buffer
    else some (false, buffer, s)

/-- A bound on the turns of `render`: each writes a sample or ends a step. -/
def renderFuel (s : SoundEmojiSynthesizer L F) : Nat :=
  (s.samplesToWrite - s.samplesWritten).toNat + ∑ i, (steps s.current i - s.step i).toNat + 1

end

/-! ## The operations -/

section
variable {L F : Type} [MachineFloat F] (k : FiberLock L) (behind : Nat → SoundEffect F)

/-- The constructor, with the values that `setSampleRange`, `setOrMask` and `allowEmptyBuffers` have given. -/
def new (sampleRange : F) (orMask : UInt16) (silenceAsEmpty : Bool) : SoundEmojiSynthesizer L F where
  lock := k.free
  effectBuffer := .empty behind
  samplesPerStep := fun _ => ofInt 0
  sampleRange
  orMask
  frequency := ofInt 0
  volume := ofInt 0
  position := ofInt 0
  silenceAsEmpty

/-- `setBufferSize`: the size that is looked at is the one of before. -/
def setBufferSize (s : SoundEmojiSynthesizer L F) (size : Int) : ErrorCode × SoundEmojiSynthesizer L F :=
  if s.bufferSize ≤ 0 then (.DEVICE_INVALID_PARAMETER, s) else (.DEVICE_OK, { s with bufferSize := size })

/-- The branch of `nextSoundEffect` that records that there is nothing to play. -/
def rest (s : SoundEmojiSynthesizer L F) : SoundEmojiSynthesizer L F :=
  { s with
    effect := none
    effectBuffer := .empty behind
    samplesWritten := 0
    samplesToWrite := 0
    position := ofInt 0 }

/-- `nextSoundEffect` -/
def nextSoundEffect (s : SoundEmojiSynthesizer L F) : Bool × SoundEmojiSynthesizer L F :=
  let hadEffect := s.effect.isSome
  let s := if s.stopping then { s with effect := none, effectBuffer := .empty behind } else s
  let effect := match s.effect with
    | some i => i + 1
    | none => 0
  if s.effectBuffer.length ≤ effect * SIZEOF_SOUND_EFFECT then
    -- the duration of the first effect is looked at in the empty buffer, too
    if ofInt 0 ≤ (s.effectBuffer.get 0).duration ∨ 0 < k.getWaitCount s.lock then (hadEffect, s.rest behind)
    else (false, s.begin 0)
  else (false, s.begin effect)

/-- The end of a playout: the flag is cleared, the event is sent and the lock is given back. -/
def complete (s : SoundEmojiSynthesizer L F) : SoundEmojiSynthesizer L F :=
  { s with
    stopping := false
    lock := (k.notify s.lock).2
    woken := s.woken + (k.notify s.lock).1.toNat
    history := .notify :: .done :: s.history }

/-- The start of a turn of `pull`: whether this turn is the last one, and the synthesizer. -/
def advance (s : SoundEmojiSynthesizer L F) : Bool × SoundEmojiSynthesizer L F :=
  if s.samplesWritten = s.samplesToWrite ∨ s.stopping then
    let (renderComplete, s) := s.nextSoundEffect k behind
    if s.samplesToWrite = 0 ∨ s.stopping then
      (true, if renderComplete || s.stopping then s.complete k else s)
    else (false, s)
  else (false, s)

/-- The turns of `pull`: `sample` is what is in the buffer, where there is one already. The buffer that is returned and the
synthesizer, or nothing where `pull` does not return. -/
def pullTurns : Nat → SoundEmojiSynthesizer L F → Option (List UInt16) →
    Option (Option (List UInt16) × SoundEmojiSynthesizer L F)
  | 0, _, _ => none
  | fuel + 1, s, sample =>
    let (done, s) := s.advance k behind
    let sample := if (s.samplesWritten < s.samplesToWrite ∨ !s.silenceAsEmpty) ∧ sample = none then some [] else sample
    match s.render s.renderFuel (sample.getD []) with
    | none => none
    | some (true, buffer, s) => some (some buffer, s)
    | some (false, buffer, s) =>
      if done then some (sample.map fun _ => buffer, s) else pullTurns fuel s (sample.map fun _ => buffer)

/-- `pull`: the buffer, filled up with silence, or the empty buffer where there is nothing to send. In a buffer of an odd size
the last sample goes beyond its end. -/
def pull (s : SoundEmojiSynthesizer L F) : Option (List UInt16 × SoundEmojiSynthesizer L F) :=
  (s.pullTurns k behind (s.bufferSize / 2).toNat.succ none).map fun (buffer, s) =>
    let silence := toUInt16 (s.sampleRange * (ofInt 1 / ofInt 2)) ||| s.orMask
    ((buffer.map fun samples =>
      samples ++ List.replicate (((s.bufferSize + 1) / 2).toNat - samples.length) silence).getD [], s)

/-! ## The steps -/

/-- What can happen to the synthesizer. -/
inductive Step (F : Type) where
  /-- A fiber calls `play`, up to `lock.wait()`. -/
  | play (sound : EffectBuffer F)
  /-- `lock.wait()` returns in a fiber that was blocked, the one at `i`. -/
  | resume (i : Nat)
  /-- `play` stores the buffer. -/
  | store
  /-- `play` calls `nextSoundEffect`. -/
  | schedule
  /-- A fiber calls `stop`, which looks whether there is an effect. -/
  | stop
  /-- `stop` sets the flag. -/
  | setStopping
  /-- The interrupt, in which the downstream component calls `pull`. -/
  | pull

/-- `lock.wait()` has returned: `play` goes on. -/
def enter (s : SoundEmojiSynthesizer L F) (sound : EffectBuffer F) : SoundEmojiSynthesizer L F :=
  { s with call := .store sound, history := .entered sound :: s.history }

/-- The synthesizer after a step; nothing where the step cannot be taken. -/
def next (s : SoundEmojiSynthesizer L F) : Step F → Option (SoundEmojiSynthesizer L F)
  | .play sound =>
    match s.call with
    | .none =>
      if sound.length < SIZEOF_SOUND_EFFECT then some s
      else if (k.wait s.lock).1 then some ({ s with lock := (k.wait s.lock).2 }.enter sound)
      else some { s with lock := (k.wait s.lock).2, blocked := s.blocked ++ [sound] }
    | _ => none
  | .resume i =>
    match s.call, s.woken, s.blocked[i]? with
    | .none, woken + 1, some sound => some ({ s with woken, blocked := s.blocked.eraseIdx i }.enter sound)
    | _, _, _ => none
  | .store =>
    match s.call with
    | .store sound => some { s with effectBuffer := sound, call := .schedule }
    | _ => none
  | .schedule =>
    match s.call with
    | .schedule => some { (s.nextSoundEffect k behind).2 with call := .none }
    | _ => none
  | .stop =>
    match s.call with
    | .none => some { s with call := if s.effect.isSome then .setStopping else .none }
    | _ => none
  | .setStopping =>
    match s.call with
    | .setStopping => some { s with stopping := true, call := .none }
    | _ => none
  | .pull => (s.pull k behind).map (·.2)

/-- The synthesizer after a sequence of steps. -/
def run (s : SoundEmojiSynthesizer L F) (steps : List (Step F)) : Option (SoundEmojiSynthesizer L F) :=
  steps.foldlM (next k behind) s

end

end SoundEmojiSynthesizer

end CodalMicrobit
