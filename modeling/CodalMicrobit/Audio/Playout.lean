import CodalMicrobit.Audio.SoundEmojiSynthesizer

/-!
# The playout of a buffer, sample by sample

What the synthesizer makes of a buffer of effects, without the buffers that it is asked for: it writes one sample after the
other, invokes the effect functions that are due, and goes from one effect to the next.
-/

namespace CodalMicrobit

/-- What a playout gives out, with the place of the effect in the buffer. -/
inductive Output where
  | sample (effect : Nat) (value : UInt16)
  /-- The effect function of the tone effect `i` is invoked at this step. -/
  | invoked (effect : Nat) (i : Fin EMOJI_SYNTHESIZER_TONE_EFFECTS) (step : Int)
  deriving DecidableEq

namespace Output

/-- The effect that is played. -/
def effect : Output → Nat
  | sample j _ => j
  | invoked j _ _ => j

def value? : Output → Option UInt16
  | sample _ v => some v
  | invoked _ _ _ => none

def step? (i : Fin EMOJI_SYNTHESIZER_TONE_EFFECTS) : Output → Option Int
  | sample _ _ => none
  | invoked _ i' step => if i' = i then some step else none

/-- The samples of a playout. -/
def samples (out : List Output) : List UInt16 := out.filterMap value?

/-- The steps at which the effect function of the tone effect `i` is invoked. -/
def invocations (i : Fin EMOJI_SYNTHESIZER_TONE_EFFECTS) (out : List Output) : List Int := out.filterMap (step? i)

/-- What one effect gives out. -/
def ofEffect (j : Nat) (out : List Output) : List Output := out.filter fun o => o.effect = j

end Output

open MachineFloat Output

namespace SoundEmojiSynthesizer

variable {L F : Type} [MachineFloat F]

/-- The invocation of the effect function of the tone effect `i`, where it is due and there is one. -/
def due (ends : Fin EMOJI_SYNTHESIZER_TONE_EFFECTS → Int) (s : SoundEmojiSynthesizer L F)
    (i : Fin EMOJI_SYNTHESIZER_TONE_EFFECTS) : List Output :=
  if s.samplesWritten = ends i ∧ s.step i < steps s.current i ∧ (s.current.effects i).effect.isSome then
    [.invoked (s.effect.getD 0) i (s.step i)]
  else []

/-- The invocations at the end of a step, in their order. -/
def allDue (ends : Fin EMOJI_SYNTHESIZER_TONE_EFFECTS → Int) (s : SoundEmojiSynthesizer L F) : List Output :=
  s.due ends 0 ++ (s.invokeEffect ends 0).due ends 1 ++ ((s.invokeEffect ends 0).invokeEffect ends 1).due ends 2

/-- One move of the playout: a sample, if the step has one left, and the end of the step if it was the last one; or the
next effect of the buffer. -/
def move (k : FiberLock L) (behind : Nat → SoundEffect F) (s : SoundEmojiSynthesizer L F) :
    Option (List Output × SoundEmojiSynthesizer L F) :=
  if s.samplesWritten < s.samplesToWrite then
    let ends := s.effectStepEnd
    let (written, t) :=
      if s.samplesWritten < s.stepEndPosition then
        ([Output.sample (s.effect.getD 0) s.synthesize.1], s.synthesize.2)
      else ([], s)
    if t.samplesWritten < s.stepEndPosition then some (written, t)
    else some (written ++ t.allDue ends, ((t.invokeEffect ends 0).invokeEffect ends 1).invokeEffect ends 2)
  else
    let s := (s.advance k behind).2
    if s.effect.isSome then some ([], s) else none

/-- `silence` of `pull` -/
def silence (s : SoundEmojiSynthesizer L F) : UInt16 := toUInt16 (s.sampleRange * (ofInt 1 / ofInt 2)) ||| s.orMask

/-- A number of calls of `pull`, with the buffers that they return. -/
def pulls (k : FiberLock L) (behind : Nat → SoundEffect F) :
    Nat → SoundEmojiSynthesizer L F → Option (List (List UInt16) × SoundEmojiSynthesizer L F)
  | 0, s => some ([], s)
  | n + 1, s => (s.pull k behind).bind fun (buffer, s) => (pulls k behind n s).map fun (buffers, s) => (buffer :: buffers, s)

end SoundEmojiSynthesizer

end CodalMicrobit
