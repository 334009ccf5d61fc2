import CodalMicrobit.Log.Text
import CodalMicrobit.Audio.SoundEmojiSynthesizer

/-!
# Sound expressions

A sound is the name of a built-in one, or effects of 72 characters with commas between them. An effect is a sequence of
decimal numbers, some of which come with a second number that says how far the first one may be off.
-/

namespace CodalMicrobit

open MachineFloat

/-- The waveforms of `Synthesizer`. -/
inductive TonePrintFunction where
  | SineTone
  | SawtoothTone
  | TriangleTone
  | SquareWaveTone
  | NoiseTone
  deriving DecidableEq

/-- The effect functions of `SoundSynthesizerEffects` that an expression can name. -/
inductive ToneEffectFunction where
  | noInterpolation
  | linearInterpolation
  | curveInterpolation
  | exponentialRisingInterpolation
  | exponentialFallingInterpolation
  | appregrioAscending
  | appregrioDescending
  | logarithmicInterpolation
  | volumeRampEffect
  | frequencyVibratoEffect
  | volumeVibratoEffect
  | warbleInterpolation
  deriving DecidableEq

/-- The scales of `MusicalProgressions` that an expression can name. -/
inductive Progression where
  | majorScale
  | minorScale
  | diminished
  | chromatic
  | wholeTone
  deriving DecidableEq

/-- `parameter[0]` or `parameter_p[0]`, which share their memory. -/
inductive ToneEffectParameter (F : Type) where
  | parameter (x : F)
  | parameter_p (scale : Progression)

/-- A `ToneEffect` by the names of its functions. -/
structure ParsedToneEffect (F : Type) where
  effect : Option ToneEffectFunction := none
  steps : Int := 0
  parameter : Option (ToneEffectParameter F) := none

/-- A `SoundEffect` by the names of its functions. -/
structure ParsedSoundEffect (F : Type) where
  frequency : F
  volume : F
  duration : F
  tonePrint : Option TonePrintFunction := none
  effects : Fin EMOJI_SYNTHESIZER_TONE_EFFECTS → ParsedToneEffect F := fun _ => {}

/-- A string as `toCharArray` and `length` give it: the length is an `int`. -/
abbrev SoundString := { s : ManagedString // s.length < 2 ^ 31 }

namespace SoundExpressions

/-- What a new `ManagedBuffer` holds in the place of an effect. -/
def zeroed {F : Type} [MachineFloat F] : ParsedSoundEffect F where
  frequency := ofInt 0
  volume := ofInt 0
  duration := ofInt 0

/-! ## Numbers -/

/-- The factor of the switch of `parseDigits`. -/
def factor : Nat → Int
  | 4 => 1000
  | 3 => 100
  | 2 => 10
  | 1 => 1
  | _ => 0

/-- The loop of `parseDigits`, with so many digits to go. A string is followed by a NUL. -/
def parseFrom (input : List UInt8) : Nat → Int → Int
  | 0, result => result
  | powers + 1, result =>
    let n : Int := (input.headD 0).toNat - 48
    if n < 0 ∨ n > 9 then -1 else parseFrom input.tail powers (result + factor (powers + 1) * n)

/-- `parseDigits` -/
def parseDigits (input : List UInt8) (digits : Nat) : Int := parseFrom input digits 0

/-- The numbers that `random` returns: for each call, by the bound it is given. -/
abbrev RandomSource := Nat → Int → Int

/-- `applyRandom`, where `k` calls of `random` have been made before; with the number of calls after it. -/
def applyRandom (random : RandomSource) (k : Nat) (value rand : Int) : Int × Nat :=
  if value < 0 ∨ rand < 0 then (-1, k)
  else
    let delta := random k (rand * 2 + 1) - rand
    (|value + delta|, k + 1)

/-- `CLAMP` -/
def CLAMP (lo v hi : Int) : Int := if v < lo then lo else if v > hi then hi else v

/-! ## Effects -/

/-- The local variables of `parseSoundExpression`. -/
structure EffectFields where
  wave : Int
  effectVolume : Int
  frequency : Int
  duration : Int
  shape : Int
  endFrequency : Int
  endVolume : Int
  steps : Int
  fxChoice : Int
  fxParam : Int
  fxnSteps : Int

/-- The numbers, before anything random is applied. -/
def readFields (soundChars : List UInt8) : EffectFields where
  wave := parseDigits (soundChars.drop 0) 1
  effectVolume := parseDigits (soundChars.drop 1) 4
  frequency := parseDigits (soundChars.drop 5) 4
  duration := parseDigits (soundChars.drop 9) 4
  shape := parseDigits (soundChars.drop 13) 2
  endFrequency := parseDigits (soundChars.drop 18) 4
  endVolume := parseDigits (soundChars.drop 26) 4
  steps := parseDigits (soundChars.drop 30) 4
  fxChoice := parseDigits (soundChars.drop 34) 2
  fxParam := parseDigits (soundChars.drop 36) 4
  fxnSteps := parseDigits (soundChars.drop 40) 4

/-- The seven numbers that something random is applied to. -/
def randomise (random : RandomSource) (k : Nat) (soundChars : List UInt8) (f : EffectFields) : EffectFields × Nat :=
  let (frequency, k) := applyRandom random k f.frequency (parseDigits (soundChars.drop 44) 4)
  let (endFrequency, k) := applyRandom random k f.endFrequency (parseDigits (soundChars.drop 48) 4)
  let (effectVolume, k) := applyRandom random k f.effectVolume (parseDigits (soundChars.drop 52) 4)
  let (endVolume, k) := applyRandom random k f.endVolume (parseDigits (soundChars.drop 56) 4)
  let (duration, k) := applyRandom random k f.duration (parseDigits (soundChars.drop 60) 4)
  let (fxParam, k) := applyRandom random k f.fxParam (parseDigits (soundChars.drop 64) 4)
  let (fxnSteps, k) := applyRandom random k f.fxnSteps (parseDigits (soundChars.drop 68) 4)
  ({ f with frequency, endFrequency, effectVolume, endVolume, duration, fxParam, fxnSteps }, k)

/-- The test of `parseSoundExpression`. -/
def refused (f : EffectFields) : Prop :=
  f.frequency = -1 ∨ f.endFrequency = -1 ∨ f.effectVolume = -1 ∨ f.endVolume = -1 ∨ f.duration = -1 ∨
    f.fxParam = -1 ∨ f.fxnSteps = -1

instance (f : EffectFields) : Decidable (refused f) := by unfold refused; infer_instance

/-- The switch on the wave; any other number leaves the field as it is. -/
def tonePrint (wave : Int) (unset : Option TonePrintFunction) : Option TonePrintFunction :=
  match wave with
  | 0 => some .SineTone
  | 1 => some .SawtoothTone
  | 2 => some .TriangleTone
  | 3 => some .SquareWaveTone
  | 4 => some .NoiseTone
  | _ => unset

section
variable {F : Type} [MachineFloat F]

/-- The first switch on the shape: the effect function, and the parameter of an interpolation. -/
def shapeEffect (shape endFrequency : Int) (e : ParsedToneEffect F) : ParsedToneEffect F :=
  match shape with
  | 0 => { e with effect := some .noInterpolation }
  | 1 => { e with effect := some .linearInterpolation, parameter := some (.parameter (ofInt endFrequency)) }
  | 2 => { e with effect := some .curveInterpolation, parameter := some (.parameter (ofInt endFrequency)) }
  | 5 => { e with effect := some .exponentialRisingInterpolation, parameter := some (.parameter (ofInt endFrequency)) }
  | 6 => { e with effect := some .exponentialFallingInterpolation, parameter := some (.parameter (ofInt endFrequency)) }
  | 8 | 10 | 12 | 14 | 16 => { e with effect := some .appregrioAscending }
  | 9 | 11 | 13 | 15 | 17 => { e with effect := some .appregrioDescending }
  | 18 => { e with effect := some .logarithmicInterpolation }
  | _ => e

/-- The second switch on the shape: the scale. -/
def shapeScale (shape : Int) (e : ParsedToneEffect F) : ParsedToneEffect F :=
  match shape with
  | 8 | 9 => { e with parameter := some (.parameter_p .majorScale) }
  | 10 | 11 => { e with parameter := some (.parameter_p .minorScale) }
  | 12 | 13 => { e with parameter := some (.parameter_p .diminished) }
  | 14 | 15 => { e with parameter := some (.parameter_p .chromatic) }
  | 16 | 17 => { e with parameter := some (.parameter_p .wholeTone) }
  | _ => e

/-- The switch on the fx choice. -/
def vibrato (fxChoice : Int) (normalizedFxnSteps : F) (fxParam : Int) (e : ParsedToneEffect F) : ParsedToneEffect F :=
  match fxChoice with
  | 1 => ⟨some .frequencyVibratoEffect, MachineFloat.toInt normalizedFxnSteps, some (.parameter (ofInt fxParam))⟩
  | 2 => ⟨some .volumeVibratoEffect, MachineFloat.toInt normalizedFxnSteps, some (.parameter (ofInt fxParam))⟩
  | 3 => ⟨some .warbleInterpolation, MachineFloat.toInt normalizedFxnSteps, some (.parameter (ofInt fxParam))⟩
  | _ => e

/-- The end of `parseSoundExpression`: the effect that the numbers make of what `fx` held. (The volumes are divided as
doubles and then rounded, which for floats gives the quotient of the floats.) -/
def fill (f : EffectFields) (fx : ParsedSoundEffect F) : ParsedSoundEffect F :=
  let volumeScaleFactor : F := ofInt 1
  let effectVolumeFloat : F := ofInt (CLAMP 0 f.effectVolume 1023) / ofInt 1023
  let endVolumeFloat : F := ofInt (CLAMP 0 f.endVolume 1023) / ofInt 1023
  let duration : F := ofInt f.duration
  let normalizedFxnSteps := (duration / ofInt 10000) * ofInt f.fxnSteps
  let effect0 := shapeScale f.shape (shapeEffect f.shape f.endFrequency { fx.effects 0 with steps := f.steps })
  let effect1 := ⟨some .volumeRampEffect, 36, some (.parameter (volumeScaleFactor * endVolumeFloat))⟩
  let effect2 := vibrato f.fxChoice normalizedFxnSteps f.fxParam (fx.effects 2)
  { frequency := ofInt f.frequency
    volume := volumeScaleFactor * effectVolumeFloat
    duration
    tonePrint := tonePrint f.wave fx.tonePrint
    effects := ![effect0, effect1, effect2] }

/-- `parseSoundExpression`: the effect, where it succeeds, and the number of calls of `random`. -/
def parseSoundExpression (random : RandomSource) (k : Nat) (soundChars : List UInt8) (fx : ParsedSoundEffect F) :
    Option (ParsedSoundEffect F) × Nat :=
  let (f, k) := randomise random k soundChars (readFields soundChars)
  if refused f then (none, k) else (some (fill f fx), k)

/-- The number of characters of an effect. -/
def charsPerEffect : Nat := 72

/-- The loop of `playAsync`, from effect `i` on, with so many effects to go. -/
def parseEffects (random : RandomSource) (soundChars : List UInt8) : Nat → Nat → Nat → Option (List (ParsedSoundEffect F))
  | 0, _, _ => some []
  | n + 1, i, k =>
    let start := i * charsPerEffect + i
    if start > 0 ∧ soundChars.getD (start - 1) 0 ≠ ','.toUInt8 then none
    else
      let (parsed, k) := parseSoundExpression random k (soundChars.drop start) zeroed
      parsed.bind fun fx => (parseEffects random soundChars n (i + 1) k).map (fx :: ·)

end

/-! ## Sounds -/

/-- The names and the data of the built-in sounds, each effect on a line of its own. -/
def builtIns : List (String × List String) :=
  [("giggle", [
      "010230988019008440044008881023001601003300240000000000000000000000000000",
      "110232570087411440044008880352005901003300010000000000000000010000000000",
      "310232729021105440288908880091006300000000240700020000000000003000000000",
      "310232729010205440288908880091006300000000240700020000000000003000000000",
      "310232729011405440288908880091006300000000240700020000000000003000000000"]),
   ("happy", [
      "010231992066911440044008880262002800001800020500000000000000010000000000",
      "002322129029508440240408880000000400022400110000000000000000007500000000",
      "000002129029509440240408880145000400022400110000000000000000007500000000"]),
   ("hello", [
      "310230673019702440118708881023012800000000240000000000000000000000000000",
      "300001064001602440098108880000012800000100040000000000000000000000000000",
      "310231064029302440098108881023012800000100040000000000000000000000000000"]),
   ("mysterious", [
      "400002390033100440240408880477000400022400110400000000000000008000000000",
      "405512845385000440044008880000012803010500160000000000000000085000500015"]),
   ("sad", [
      "310232226070801440162408881023012800000100240000000000000000000000000000",
      "310231623093602440093908880000012800000100240000000000000000000000000000"]),
   ("slide", [
      "105202325022302440240408881023012801020000110400000000000000010000000000",
      "010232520091002440044008881023012801022400110400000000000000010000000000"]),
   ("soaring", [
      "210234009530905440599908881023002202000400020250000000000000020000000000",
      "402233727273014440044008880000003101024400030000000000000000000000000000"]),
   ("spring", [
      "306590037116312440058708880807003400000000240000000000000000050000000000",
      "010230037116313440058708881023003100000000240000000000000000050000000000"]),
   ("twinkle", [
      "010180007672209440075608880855012800000000240000000000000000000000000000"]),
   ("yawn", [
      "200002281133202440150008881023012801024100240400030000000000010000000000",
      "005312520091002440044008880636012801022400110300000000000000010000000000",
      "008220784019008440044008880681001600005500240000000000000000005000000000",
      "004790784019008440044008880298001600000000240000000000000000005000000000",
      "003210784019008440044008880108001600003300080000000000000000005000000000"])]

/-- `lookupBuiltIn` -/
def lookupBuiltIn (sound : ManagedString) : ManagedString :=
  match builtIns.find? fun b => ascii b.1.toList = sound with
  | some (_, effects) => [','.toUInt8].intercalate (effects.map fun e => ascii e.toList)
  | none => sound

/-- `playAsync`: the buffer that is handed to the synthesizer, if one is. The lengths are 32-bit numbers without a sign. -/
def playAsync {F : Type} [MachineFloat F] (random : RandomSource) (sound : SoundString) :
    Option (List (ParsedSoundEffect F)) :=
  let soundChars := lookupBuiltIn sound.1
  let soundLen := soundChars.length
  let effectCount := (soundLen + 1) % 2 ^ 32 / (charsPerEffect + 1)
  let expectedLength := (effectCount * (charsPerEffect + 1) + (2 ^ 32 - 1)) % 2 ^ 32
  if soundLen ≠ expectedLength then none else parseEffects random soundChars effectCount 0 0

end SoundExpressions

end CodalMicrobit
