import CodalMicrobit.Audio.SoundEmojiSynthesizer
import CodalMicrobit.FSCache

/-!
# The mixer

`Mixer2` adds up what its channels hear. A channel reads the buffers of its source one after the other, each over as many calls
of `pull` as it lasts, and asks for the next one when the source has announced it. Here every channel has the sample rate of the
mixer, so that it goes on by one sample for each sample of the output.
-/

namespace CodalMicrobit

open MachineFloat

/-- `CONFIG_MIXER_BUFFER_SIZE` -/
def CONFIG_MIXER_BUFFER_SIZE : Nat := 512

/-- `CONFIG_MIXER_INTERNAL_RANGE` -/
def CONFIG_MIXER_INTERNAL_RANGE : Int := 1023

/-- `DEVICE_MIXER_EVT_SILENCE` -/
def DEVICE_MIXER_EVT_SILENCE : Nat := 1

/-- `DEVICE_MIXER_EVT_SOUND` -/
def DEVICE_MIXER_EVT_SOUND : Nat := 2

/-- A sample format, with the functions that `StreamNormalizer` has for it. -/
structure SampleFormat (F : Type) where
  bytesPerSample : Nat
  bytesPerSample_pos : 0 < bytesPerSample
  unsigned : Bool
  readSample : List UInt8 → F
  writeSample : Int → List UInt8

/-- `MixerChannel`, with its source: the buffers that the source's `pull` will return, and how many pull requests it makes
meanwhile; an empty one when it has no more. The buffers pulled, the samples heard, and where the channel went on in a buffer
(its place in what was heard, and the place where the buffer began) are a record that no operation reads. -/
structure MixerChannel (F : Type) where
  source : List (List UInt8 × Nat)
  streamFormat : Option (SampleFormat F)
  range : F
  format : Option (SampleFormat F) := none
  volume : F
  gain : F
  offset : F
  buffer : List UInt8 := []
  pullRequests : Nat := 0
  position : Nat := 0
  pulled : List (List UInt8) := []
  heard : List F := []
  resumed : List (Nat × Nat) := []

variable {F : Type} [MachineFloat F]

namespace MixerChannel

/-- `Mixer2::configureChannel` -/
def configureChannel (c : MixerChannel F) : MixerChannel F :=
  { c with
    volume := ofInt 1
    format := c.streamFormat
    gain := ofInt CONFIG_MIXER_INTERNAL_RANGE / c.range
    offset := if c.streamFormat.any (·.unsigned) then c.range * -(ofInt 1 / ofInt 2) else ofInt 0 }

/-- What a sample of a buffer adds to the mix. -/
def level (f : SampleFormat F) (c : MixerChannel F) (buffer : List UInt8) (i : Nat) : F :=
  (f.readSample ((buffer.drop (i * f.bytesPerSample)).take f.bytesPerSample) + c.offset) * c.gain * c.volume

/-- `inLen`: the samples left in the buffer. -/
def inLen (f : SampleFormat F) (c : MixerChannel F) : Nat := c.buffer.length / f.bytesPerSample - c.position

/-- The loop over `len` samples. Its pointer begins at the start of the buffer, and is where the position is from the second
sample on. -/
def mix (f : SampleFormat F) (c : MixerChannel F) (len : Nat) : List F × MixerChannel F :=
  let samples := (List.range len).map fun k => c.level f c.buffer (if k = 0 then 0 else c.position + k)
  (samples,
    { c with
      position := c.position + len
      heard := c.heard ++ samples
      resumed := c.resumed ++
        if 0 < len ∧ 0 < c.position then [(c.heard.length, c.heard.length - c.position)] else [] })

/-- The source's `pull`: `source` is what it returns from the next call on. -/
def pullSource (c : MixerChannel F) (bytes : List UInt8) (requests : Nat) (source : List (List UInt8 × Nat)) :
    MixerChannel F :=
  { c with
    source
    pullRequests := c.pullRequests - 1 + requests
    buffer := bytes
    position := 0
    pulled := c.pulled ++ [bytes] }

/-- The loop over the output, with `outLen` samples to go: what is added to the mix. -/
def fill (f : SampleFormat F) : List (List UInt8 × Nat) → MixerChannel F → Nat → List F × MixerChannel F
  | source, c, outLen =>
    if outLen = 0 then ([], c)
    else
      let inLen := c.inLen f
      let len := min outLen inLen
      let (samples, c) := c.mix f len
      if inLen ≤ outLen then
        if c.pullRequests = 0 then (samples, c)
        else
          match source with
          | [] => (samples, c.pullSource [] 0 [])
          | (bytes, requests) :: source =>
            let c := c.pullSource bytes requests source
            if bytes.length = 0 then (samples, c)
            else
              let (more, c) := fill f source c (outLen - len)
              (samples ++ more, c)
      else (samples, c)

/-- What a channel does in one call of `Mixer2::pull`. -/
def pull (c : MixerChannel F) (outLen : Nat) : List F × MixerChannel F :=
  let c := if c.format.isNone then c.configureChannel else c
  match c.format with
  | none => ([], c)
  | some f => c.fill f c.source outLen

end MixerChannel

/-- `Mixer2`. The events it raised are a record that no operation reads. -/
structure Mixer2 (F : Type) where
  channels : List (MixerChannel F) := []
  outputRange : F
  outputFormat : SampleFormat F
  volume : F
  orMask : UInt32 := 0
  silenceLevel : F
  silent : Bool := true
  raised : List Nat := []

namespace Mixer2

/-- `addChannel`, without a sample rate. -/
def addChannel (m : Mixer2 F) (source : List (List UInt8 × Nat)) (streamFormat : Option (SampleFormat F)) (sampleRange : Int) :
    Mixer2 F :=
  let c : MixerChannel F :=
    { source, streamFormat, range := ofInt sampleRange, volume := ofInt 0, gain := ofInt 0, offset := ofInt 0 }
  { m with channels := c.configureChannel :: m.channels }

/-- `setVolume` -/
def setVolume (m : Mixer2 F) (volume : Int) : ErrorCode × Mixer2 F :=
  if volume < 0 ∨ volume > 1023 then (.DEVICE_INVALID_PARAMETER, m)
  else (.DEVICE_OK, { m with volume := ofInt volume / ofInt 1023 })

/-- `setSampleRange` -/
def setSampleRange (m : Mixer2 F) (sampleRange : UInt16) : Mixer2 F := { m with outputRange := ofInt sampleRange.toNat }

/-- `setSilenceLevel` -/
def setSilenceLevel (m : Mixer2 F) (level : F) : ErrorCode × Mixer2 F :=
  if level < ofInt 0 ∨ level > ofInt 1024 then (.DEVICE_INVALID_PARAMETER, m)
  else (.DEVICE_OK, { m with silenceLevel := level - ofInt 512 })

/-- The samples of an output buffer. -/
def outLen (m : Mixer2 F) : Nat := CONFIG_MIXER_BUFFER_SIZE / m.outputFormat.bytesPerSample

/-- What one channel adds to the mix. -/
def accumulate (mix samples : List F) : List F := List.zipWith (· + ·) mix samples ++ mix.drop samples.length

/-- Scales, clamps and masks a level, and writes it in the output format. -/
def pack (m : Mixer2 F) (r : F) : List UInt8 :=
  let scale := m.volume * m.outputRange / ofInt CONFIG_MIXER_INTERNAL_RANGE
  let offset := if m.outputFormat.unsigned then toInt (m.outputRange / ofInt 2) else 0
  let lo := if m.outputFormat.unsigned then ofInt 0 else -m.outputRange / ofInt 2
  let hi := if m.outputFormat.unsigned then m.outputRange else m.outputRange / ofInt 2
  let sample := r * scale + ofInt offset
  let sample := if sample < lo then lo else sample
  let sample := if sample > hi then hi else sample
  m.outputFormat.writeSample (BitVec.ofInt 32 (toInt sample) ||| m.orMask.toBitVec).toInt

/-- `pull`: the buffer, but for a mixer without channels, which returns one that it has not written to. -/
def pull (m : Mixer2 F) : Option (List UInt8) × Mixer2 F :=
  if m.channels.isEmpty then (none, m)
  else
    let turns := m.channels.map (·.pull m.outLen)
    let mix := turns.foldl (fun mix t => accumulate mix t.1) (List.replicate m.outLen (ofInt 0))
    let silence := turns.all (·.1.isEmpty)
    let nonzero := m.silenceLevel < ofInt 0 ∨ ofInt 0 < m.silenceLevel
    let mix := if silence ∧ nonzero then List.replicate m.outLen m.silenceLevel else mix
    (some (mix.flatMap m.pack),
      { m with
        channels := turns.map Prod.snd
        silent := silence
        raised := m.raised ++
          if m.silent = silence then [] else [if silence then DEVICE_MIXER_EVT_SILENCE else DEVICE_MIXER_EVT_SOUND] })

/-- What happens to a mixer. A source makes a pull request, or decides on its format. -/
inductive Event (F : Type) where
  | addChannel (source : List (List UInt8 × Nat)) (streamFormat : Option (SampleFormat F)) (sampleRange : Int)
  | pullRequest (channel : Nat)
  | formatDecided (channel : Nat) (format : SampleFormat F)
  | pull
  | setVolume (volume : Int)
  | setSampleRange (sampleRange : UInt16)
  | setSilenceLevel (level : F)
  | setOrMask (mask : UInt32)
  | setFormat (format : SampleFormat F)

/-- One of them. -/
def step (m : Mixer2 F) : Event F → Mixer2 F
  | .addChannel source streamFormat sampleRange => m.addChannel source streamFormat sampleRange
  | .pullRequest i => { m with channels := m.channels.modify i fun c => { c with pullRequests := c.pullRequests + 1 } }
  | .formatDecided i format => { m with channels := m.channels.modify i fun c => { c with streamFormat := some format } }
  | .pull => m.pull.2
  | .setVolume volume => (m.setVolume volume).2
  | .setSampleRange sampleRange => m.setSampleRange sampleRange
  | .setSilenceLevel level => (m.setSilenceLevel level).2
  | .setOrMask mask => { m with orMask := mask }
  | .setFormat format => { m with outputFormat := format }

/-- A run of a mixer. -/
def run (m : Mixer2 F) (es : List (Event F)) : Mixer2 F := es.foldl step m

end Mixer2

end CodalMicrobit
