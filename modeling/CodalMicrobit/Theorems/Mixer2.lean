import CodalMicrobit.Audio.Mixer2
import CodalMicrobit.Lib.Digits

/-!
# What a channel of the mixer hears

A channel hears as many samples as its source gives it, and none is left out where one buffer ends and the next begins. But where
a call of `pull` goes on in a buffer that an earlier one has begun, it reads the first sample of the buffer again, in place of the
one it has come to. Buffers of the size of an output buffer are never gone on in.
-/

namespace CodalMicrobit

open MachineFloat

variable {F : Type} [MachineFloat F]

namespace MixerChannel

/-- The samples of a buffer. -/
def samples (f : SampleFormat F) (c : MixerChannel F) (buffer : List UInt8) : List F :=
  (List.range (buffer.length / f.bytesPerSample)).map (c.level f buffer)

/-- The samples of the buffers that a channel has pulled. -/
def stream (f : SampleFormat F) (c : MixerChannel F) : List F := c.pulled.flatMap (c.samples f)

/-- What holds of a channel whose format is known. What was heard is a part of the stream up to the position in the buffer, but
where a call has gone on in a buffer. -/
structure Hears (f : SampleFormat F) (c : MixerChannel F) : Prop where
  format : c.format = some f
  position : c.position ≤ c.buffer.length / f.bytesPerSample
  began : c.position ≤ c.heard.length
  left : (c.stream f).drop (c.heard.length - c.position) = c.samples f c.buffer
  length : c.heard.length + c.inLen f = (c.stream f).length
  agree : ∀ k < c.heard.length, k ∉ c.resumed.map Prod.fst → c.heard[k]? = (c.stream f)[k]?
  resumed : ∀ r ∈ c.resumed, r.2 < r.1 ∧ r.1 < c.heard.length ∧ c.heard[r.1]? = (c.stream f)[r.2]?

variable {f : SampleFormat F} {c : MixerChannel F}

/-- A buffer gives as many samples as it has room for. -/
theorem samples_length (f : SampleFormat F) (c : MixerChannel F) (buffer : List UInt8) :
    (c.samples f buffer).length = buffer.length / f.bytesPerSample := by
  rw [samples, List.length_map, List.length_range]

/-- A sample of the buffer is in the stream. -/
theorem Hears.stream_getElem (h : c.Hears f) {i : Nat} (hi : i < c.buffer.length / f.bytesPerSample) :
    (c.stream f)[c.heard.length - c.position + i]? = some (c.level f c.buffer i) := by
  rw [← List.getElem?_drop, h.left, samples, List.getElem?_map, List.getElem?_range hi]
  rfl

/-- Mixing gives as many samples as are asked for. -/
theorem mix_length (f : SampleFormat F) (c : MixerChannel F) (len : Nat) : (c.mix f len).1.length = len := by
  rw [mix, List.length_map, List.length_range]

/-- Mixing takes as many samples as it gives, while there are any. -/
theorem mix_inLen (f : SampleFormat F) (c : MixerChannel F) (len : Nat) : (c.mix f len).2.inLen f = c.inLen f - len := by
  change c.buffer.length / f.bytesPerSample - (c.position + len) = _
  rw [inLen, Nat.sub_sub]

/-- The loop over the samples. -/
theorem Hears.mix (h : c.Hears f) {len : Nat} (hlen : len ≤ c.inLen f) : (c.mix f len).2.Hears f := by
  have hle : c.position + len ≤ c.buffer.length / f.bytesPerSample := by
    have := h.position
    unfold inLen at hlen
    omega
  have hbegan := h.began
  have hnew : ∀ i < len, (c.heard ++ (c.mix f len).1)[c.heard.length + i]? =
      some (c.level f c.buffer (if i = 0 then 0 else c.position + i)) := fun i hi => by
    rw [List.getElem?_append_right (Nat.le_add_right _ _), Nat.add_sub_cancel_left, MixerChannel.mix, List.getElem?_map,
      List.getElem?_range hi]
    rfl
  refine ⟨h.format, hle, ?_, ?_, ?_, fun k hk hnot => ?_, fun r hr => ?_⟩
  · change c.position + len ≤ (c.heard ++ (c.mix f len).1).length
    rw [List.length_append, mix_length]
    omega
  · change (c.stream f).drop ((c.heard ++ (c.mix f len).1).length - (c.position + len)) = c.samples f c.buffer
    rw [List.length_append, mix_length, Nat.add_sub_add_right]
    exact h.left
  · change (c.heard ++ (c.mix f len).1).length + (c.buffer.length / f.bytesPerSample - (c.position + len)) = (c.stream f).length
    rw [List.length_append, mix_length, ← h.length, inLen]
    omega
  · change (c.heard ++ (c.mix f len).1)[k]? = (c.stream f)[k]?
    change k < (c.heard ++ (c.mix f len).1).length at hk
    change k ∉ List.map Prod.fst (c.resumed ++ _) at hnot
    rw [List.length_append, mix_length] at hk
    rw [List.map_append, List.mem_append, not_or] at hnot
    rcases Nat.lt_or_ge k c.heard.length with hold | hold
    · rw [List.getElem?_append_left hold]
      exact h.agree k hold hnot.1
    · obtain ⟨i, rfl⟩ := Nat.exists_eq_add_of_le hold
      have hstream := h.stream_getElem (i := c.position + i) (by omega)
      rw [← Nat.add_assoc, Nat.sub_add_cancel hbegan] at hstream
      rw [hnew i (by omega), hstream]
      -- the first sample is the one the position has come to, or else the call goes on in the buffer
      by_cases hi : i = 0
      · have hzero : c.position = 0 := by
          by_contra hpos
          refine hnot.2 ?_
          rw [if_pos ⟨by omega, by omega⟩, hi]
          exact List.mem_singleton_self _
        rw [hi, if_pos rfl, hzero]
      · rw [if_neg hi]
  · change r.2 < r.1 ∧ r.1 < (c.heard ++ (c.mix f len).1).length ∧ (c.heard ++ (c.mix f len).1)[r.1]? = (c.stream f)[r.2]?
    rcases List.mem_append.mp hr with hr | hr
    · obtain ⟨hlt, hheard, heq⟩ := h.resumed r hr
      rw [List.getElem?_append_left hheard, List.length_append]
      exact ⟨hlt, by omega, heq⟩
    · split at hr
      · rename_i hpos
        rw [List.mem_singleton.mp hr]
        have hfirst := hnew 0 hpos.1
        have hstream := h.stream_getElem (i := 0) (by omega)
        rw [Nat.add_zero] at hfirst hstream
        rw [List.length_append, mix_length]
        exact ⟨by omega, by omega, hfirst.trans hstream.symm⟩
      · exact absurd hr List.not_mem_nil

/-- The next buffer, when nothing is left of this one. -/
theorem Hears.pullSource (h : c.Hears f) (hleft : c.inLen f = 0) (bytes : List UInt8) (requests : Nat)
    (source : List (List UInt8 × Nat)) : (c.pullSource bytes requests source).Hears f := by
  have hstream : (c.pullSource bytes requests source).stream f = c.stream f ++ c.samples f bytes := by
    unfold stream MixerChannel.pullSource
    rw [List.flatMap_append, List.flatMap_singleton]
    rfl
  have hlength : c.heard.length = (c.stream f).length := by
    rw [← h.length, hleft, Nat.add_zero]
  refine ⟨h.format, Nat.zero_le _, Nat.zero_le _, ?_, ?_, fun k hk hnot => ?_, fun r hr => ?_⟩ <;> rw [hstream]
  · change List.drop c.heard.length _ = c.samples f bytes
    rw [hlength, List.drop_left]
  · change c.heard.length + bytes.length / f.bytesPerSample = _
    rw [List.length_append, samples_length, hlength]
  · rw [List.getElem?_append_left (hlength ▸ hk)]
    exact h.agree k hk hnot
  · obtain ⟨hlt, hheard, heq⟩ := h.resumed r hr
    rw [List.getElem?_append_left (hlength ▸ hlt.trans hheard)]
    exact ⟨hlt, hheard, heq⟩

/-- The loop over the output. What it adds to the mix is what is heard. -/
theorem Hears.fill (h : c.Hears f) (source : List (List UInt8 × Nat)) (outLen : Nat) :
    (fill f source c outLen).2.Hears f ∧ (fill f source c outLen).2.heard = c.heard ++ (fill f source c outLen).1 ∧
      (fill f source c outLen).1.length ≤ outLen := by
  induction source generalizing c outLen with
  | nil =>
    have hmix := h.mix (Nat.min_le_right outLen (c.inLen f))
    have hlen := (mix_length f c (min outLen (c.inLen f))).trans_le (Nat.min_le_left _ _)
    unfold MixerChannel.fill
    dsimp only
    split
    · exact ⟨h, (List.append_nil _).symm, Nat.zero_le _⟩
    · split
      · rename_i hle
        split
        · exact ⟨hmix, rfl, hlen⟩
        · exact ⟨hmix.pullSource (by rw [mix_inLen]; omega) _ _ _, rfl, hlen⟩
      · exact ⟨hmix, rfl, hlen⟩
  | cons chunk source ih =>
    have hmix := h.mix (Nat.min_le_right outLen (c.inLen f))
    have hlen := (mix_length f c (min outLen (c.inLen f))).trans_le (Nat.min_le_left _ _)
    unfold MixerChannel.fill
    dsimp only
    split
    · exact ⟨h, (List.append_nil _).symm, Nat.zero_le _⟩
    · split
      · rename_i hle
        have hpull := hmix.pullSource (by rw [mix_inLen]; omega) chunk.1 chunk.2 source
        split
        · exact ⟨hmix, rfl, hlen⟩
        · split
          · exact ⟨hpull, rfl, hlen⟩
          · obtain ⟨hhears, hheard, hmore⟩ := ih hpull (outLen - min outLen (c.inLen f))
            refine ⟨hhears, ?_, ?_⟩
            · rw [hheard]
              exact List.append_assoc _ _ _
            · rw [List.length_append, mix_length]
              omega
      · exact ⟨hmix, rfl, hlen⟩

/-- What holds of a channel: one whose format is not known has done nothing. -/
structure Sound (c : MixerChannel F) : Prop where
  unknown : c.format = none → c.buffer = [] ∧ c.position = 0 ∧ c.pulled = [] ∧ c.heard = [] ∧ c.resumed = []
  hears : ∀ f, c.format = some f → c.Hears f

/-- Configuring a channel for the first time keeps it sound. -/
theorem Sound.configured (h : c.Sound) (hnone : c.format = none) : c.configureChannel.Sound := by
  obtain ⟨hbuffer, hposition, hpulled, hheard, hresumed⟩ := h.unknown hnone
  refine ⟨fun _ => ⟨hbuffer, hposition, hpulled, hheard, hresumed⟩, fun f hf => ?_⟩
  have hstream : c.configureChannel.stream f = [] := by
    change List.flatMap _ c.pulled = []
    rw [hpulled]
    rfl
  refine ⟨hf, ?_, ?_, ?_, ?_, fun k hk => ?_, fun r hr => ?_⟩
  · exact hposition ▸ Nat.zero_le _
  · exact hposition ▸ Nat.zero_le _
  · rw [hstream, List.drop_nil]
    change [] = List.map _ (List.range (c.buffer.length / f.bytesPerSample))
    rw [hbuffer, List.length_nil, Nat.zero_div]
    rfl
  · change c.heard.length + (c.buffer.length / f.bytesPerSample - c.position) = _
    rw [hstream, hheard, hbuffer, hposition, List.length_nil, List.length_nil, Nat.zero_div]
  · change k < c.heard.length at hk
    rw [hheard] at hk
    exact absurd hk (Nat.not_lt_zero k)
  · change r ∈ c.resumed at hr
    rw [hresumed] at hr
    exact absurd hr List.not_mem_nil

/-- A pull keeps a channel sound. -/
theorem Sound.pull (h : c.Sound) (outLen : Nat) : (c.pull outLen).2.Sound := by
  have hconfigured : (if c.format.isNone then c.configureChannel else c).Sound := by
    split
    · rename_i hnone
      exact h.configured (Option.isNone_iff_eq_none.mp hnone)
    · exact h
  unfold MixerChannel.pull
  dsimp only
  split
  · exact hconfigured
  · rename_i f hf
    have hfill := ((hconfigured.hears f hf).fill (if c.format.isNone then c.configureChannel else c).source outLen).1
    refine ⟨fun hnone => ?_, fun g hg => ?_⟩
    · rw [hfill.format] at hnone
      cases hnone
    · obtain rfl := Option.some.inj (hfill.format.symm.trans hg)
      exact hfill

/-- What a source says outside a call of `pull` changes nothing of what was heard. -/
theorem Sound.told (h : c.Sound) (pullRequests : Nat) (streamFormat : Option (SampleFormat F)) :
    ({ c with pullRequests, streamFormat } : MixerChannel F).Sound := by
  refine ⟨h.unknown, fun f hf => ?_⟩
  have hhears := h.hears f hf
  exact ⟨hhears.format, hhears.position, hhears.began, hhears.left, hhears.length, hhears.agree, hhears.resumed⟩

/-- A channel has heard the beginning of its stream exactly if, wherever it went on in a buffer, the sample it had come to equals
the one the buffer begins with. -/
theorem Hears.samples_iff (h : c.Hears f) :
    c.heard = (c.stream f).take c.heard.length ↔ ∀ r ∈ c.resumed, (c.stream f)[r.1]? = (c.stream f)[r.2]? := by
  constructor
  · intro heq r hr
    obtain ⟨-, hlt, hheard⟩ := h.resumed r hr
    rw [← hheard]
    conv_rhs => rw [heq]
    rw [List.getElem?_take_of_lt hlt]
  · intro heq
    refine List.ext_getElem? fun k => ?_
    rcases Nat.lt_or_ge k c.heard.length with hk | hk
    · rw [List.getElem?_take_of_lt hk]
      by_cases hmem : k ∈ c.resumed.map Prod.fst
      · obtain ⟨r, hr, rfl⟩ := List.mem_map.mp hmem
        rw [heq r hr]
        exact (h.resumed r hr).2.2
      · exact h.agree k hk hmem
    · rw [List.getElem?_eq_none hk, List.getElem?_eq_none]
      rw [List.length_take]
      exact (Nat.min_le_left _ _).trans hk

/-- A channel whose buffers all have `N` samples of `b` bytes, or none, and that has none begun. -/
structure Aligned (N b : Nat) (c : MixerChannel F) : Prop where
  formats : ∀ f, c.format = some f ∨ c.streamFormat = some f → f.bytesPerSample = b
  source : ∀ chunk ∈ c.source, chunk.1 = [] ∨ chunk.1.length = N * b
  buffer : c.position = 0 ∧ c.buffer.length = N * b ∨ c.position = c.buffer.length / b
  resumed : c.resumed = []

variable {N b : Nat}

/-- It hears the whole buffer, or nothing. -/
theorem Aligned.mix (h : c.Aligned N b) (hf : f.bytesPerSample = b) :
    (c.mix f (min N (c.inLen f))).2.Aligned N b ∧ c.inLen f ≤ N ∧ (min N (c.inLen f) = 0 ∨ min N (c.inLen f) = N) := by
  have hb : 0 < b := hf ▸ f.bytesPerSample_pos
  have hinLen : c.inLen f = c.buffer.length / b - c.position := by rw [inLen, hf]
  have hresumed : ∀ len, (0 < len ∧ 0 < c.position → False) → (c.mix f len).2.resumed = [] := fun len hnot => by
    change c.resumed ++ _ = []
    rw [h.resumed, if_neg hnot]
    rfl
  rcases h.buffer with ⟨hzero, hlength⟩ | hend
  · have hN : c.inLen f = N := by rw [hinLen, hlength, Nat.mul_div_cancel _ hb, hzero, Nat.sub_zero]
    rw [hN, Nat.min_self]
    refine ⟨⟨h.formats, h.source, Or.inr ?_, hresumed N fun hpos => ?_⟩, Nat.le_refl _, Or.inr rfl⟩
    · change c.position + N = c.buffer.length / b
      rw [hlength, Nat.mul_div_cancel _ hb, hzero, Nat.zero_add]
    · omega
  · have hnone : c.inLen f = 0 := by rw [hinLen, hend, Nat.sub_self]
    rw [hnone, Nat.min_zero]
    exact ⟨⟨h.formats, h.source, Or.inr hend, hresumed 0 fun hpos => absurd hpos.1 (Nat.lt_irrefl 0)⟩, Nat.zero_le _, Or.inl rfl⟩

/-- Buffers of the right size from the source keep a channel aligned. -/
theorem Aligned.pullSource {F : Type} {c : MixerChannel F} (h : c.Aligned N b) {bytes : List UInt8} (requests : Nat)
    {source : List (List UInt8 × Nat)} (hbytes : bytes = [] ∨ bytes.length = N * b)
    (hsource : ∀ chunk ∈ source, chunk.1 = [] ∨ chunk.1.length = N * b) : (c.pullSource bytes requests source).Aligned N b := by
  refine ⟨h.formats, hsource, ?_, h.resumed⟩
  rcases hbytes with rfl | hlength
  · exact Or.inr (Nat.zero_div b).symm
  · exact Or.inl ⟨rfl, hlength⟩

/-- Filling whole buffers keeps a channel aligned. -/
theorem Aligned.fill (h : c.Aligned N b) (hf : f.bytesPerSample = b) {source : List (List UInt8 × Nat)}
    (hsource : ∀ chunk ∈ source, chunk.1 = [] ∨ chunk.1.length = N * b) {outLen : Nat} (hout : outLen = 0 ∨ outLen = N) :
    (fill f source c outLen).2.Aligned N b := by
  induction source generalizing c outLen with
  | nil =>
    unfold MixerChannel.fill
    dsimp only
    split
    · exact h
    · rename_i hne
      obtain rfl := hout.resolve_left hne
      obtain ⟨hmix, -, -⟩ := h.mix hf
      repeat' split
      · exact hmix
      · exact hmix.pullSource 0 (Or.inl rfl) hsource
      · exact hmix
  | cons chunk source ih =>
    have hrest : ∀ chunk ∈ source, chunk.1 = [] ∨ chunk.1.length = N * b := fun c hc => hsource c (List.mem_cons_of_mem _ hc)
    unfold MixerChannel.fill
    dsimp only
    split
    · exact h
    · rename_i hne
      obtain rfl := hout.resolve_left hne
      obtain ⟨hmix, -, hlen⟩ := h.mix hf
      have hpull := hmix.pullSource chunk.2 (hsource chunk List.mem_cons_self) hrest
      repeat' split
      · exact hmix
      · exact hpull
      · exact ih hpull hrest (by omega)
      · exact hmix

/-- A pull of a whole buffer keeps a channel aligned. -/
theorem Aligned.pull (h : c.Aligned N b) : (c.pull N).2.Aligned N b := by
  have hconfigured : (if c.format.isNone then c.configureChannel else c).Aligned N b := by
    split
    · exact ⟨fun f hf => h.formats f (Or.inr (hf.elim id id)), h.source, h.buffer, h.resumed⟩
    · exact h
  unfold MixerChannel.pull
  dsimp only
  split
  · exact hconfigured
  · rename_i f hf
    exact hconfigured.fill (hconfigured.formats f (Or.inl hf)) hconfigured.source (Or.inr rfl)

end MixerChannel

namespace Mixer2

open MixerChannel

/-- What happens to a mixer happens to its channels one by one. -/
theorem step_channels {P : MixerChannel F → Prop} {m : Mixer2 F} (e : Event F) (h : ∀ c ∈ m.channels, P c)
    (hnew : ∀ source streamFormat sampleRange, e = .addChannel source streamFormat sampleRange →
      ∀ c ∈ (m.addChannel source streamFormat sampleRange).channels.head?, P c)
    (htold : ∀ (c : MixerChannel F) pullRequests streamFormat,
      (streamFormat = c.streamFormat ∨ ∃ i f, e = .formatDecided i f ∧ streamFormat = some f) → P c →
        P { c with pullRequests, streamFormat })
    (hpull : ∀ c, P c → P (c.pull m.outLen).2) : ∀ c ∈ (m.step e).channels, P c := by
  have hmodify : ∀ (i : Nat) (g : MixerChannel F → MixerChannel F), (∀ c, P c → P (g c)) →
      ∀ c ∈ m.channels.modify i g, P c := by
    intro i g hg c hc
    obtain ⟨j, hj⟩ := List.mem_iff_getElem?.mp hc
    rw [List.getElem?_modify, Option.map_eq_map, Option.map_eq_some_iff] at hj
    obtain ⟨c', hc', rfl⟩ := hj
    have hP := h c' (List.mem_of_getElem? hc')
    split
    · exact hg c' hP
    · exact hP
  cases e with
  | addChannel source streamFormat sampleRange =>
    intro c hc
    rcases List.mem_cons.mp hc with rfl | hc
    · exact hnew _ _ _ rfl _ rfl
    · exact h c hc
  | pullRequest i => exact hmodify i _ fun c hc => htold c (c.pullRequests + 1) c.streamFormat (Or.inl rfl) hc
  | formatDecided i f => exact hmodify i _ fun c hc => htold c c.pullRequests (some f) (Or.inr ⟨i, f, rfl, rfl⟩) hc
  | pull =>
    intro c hc
    change c ∈ m.pull.2.channels at hc
    unfold Mixer2.pull at hc
    split at hc
    · exact h c hc
    · dsimp only at hc
      rw [List.map_map] at hc
      obtain ⟨c', hc', rfl⟩ := List.mem_map.mp hc
      exact hpull c' (h c' hc')
  | setVolume volume =>
    change ∀ c ∈ (m.setVolume volume).2.channels, P c
    unfold setVolume
    split <;> exact h
  | setSilenceLevel level =>
    change ∀ c ∈ (m.setSilenceLevel level).2.channels, P c
    unfold setSilenceLevel
    split <;> exact h
  | setSampleRange _ | setOrMask _ | setFormat _ => exact h

/-- Every event keeps all channels sound. -/
theorem step_sound {m : Mixer2 F} (h : ∀ c ∈ m.channels, c.Sound) (e : Event F) : ∀ c ∈ (m.step e).channels, c.Sound := by
  refine step_channels e h (fun source streamFormat sampleRange _ c hc => ?_)
    (fun c pullRequests streamFormat _ hc => hc.told pullRequests streamFormat) fun c hc => hc.pull m.outLen
  obtain rfl := Option.some.inj hc
  exact Sound.configured ⟨fun _ => ⟨rfl, rfl, rfl, rfl, rfl⟩, nofun⟩ rfl

/-- A run keeps all channels sound. -/
theorem run_sound {m : Mixer2 F} (h : ∀ c ∈ m.channels, c.Sound) (es : List (Event F)) : ∀ c ∈ (m.run es).channels, c.Sound := by
  induction es generalizing m with
  | nil => exact h
  | cons e es ih => exact ih (step_sound h e)

/-- A mixer without channels comes to have some, and whatever happens to them: none loses a sample of its source, and it has heard
what its source gave exactly if, wherever it went on in a buffer, the sample it had come to equals the one the buffer begins
with. -/
theorem heard_iff {m : Mixer2 F} (h : m.channels = []) (es : List (Event F)) {c : MixerChannel F} (hc : c ∈ (m.run es).channels)
    {f : SampleFormat F} (hf : c.format = some f) :
    c.heard.length + c.inLen f = (c.stream f).length ∧
      (c.heard = (c.stream f).take c.heard.length ↔ ∀ r ∈ c.resumed, (c.stream f)[r.1]? = (c.stream f)[r.2]?) := by
  have hhears := (run_sound (fun c hc => by rw [h] at hc; exact absurd hc List.not_mem_nil) es c hc).hears f hf
  exact ⟨hhears.length, hhears.samples_iff⟩

/-- Samples of one byte. -/
def sample8 : SampleFormat ℚ where
  bytesPerSample := 1
  bytesPerSample_pos := by decide
  unsigned := true
  readSample b := (b.getD 0 0).toNat
  writeSample s := Digits.bytes 1 (s % 2 ^ 8).toNat

/-- Samples of two bytes. -/
def sample16 : SampleFormat ℚ where
  bytesPerSample := 2
  bytesPerSample_pos := by decide
  unsigned := true
  readSample b := Digits.ofBytes b
  writeSample s := Digits.bytes 2 (s % 2 ^ 16).toNat

/-- A mixer for the speaker, with no channel yet. -/
def speaker : Mixer2 ℚ where
  outputRange := 1023
  outputFormat := sample16
  volume := 1
  silenceLevel := 0

/-- One source with one buffer, which lasts longer than a call. -/
def longBuffer : List (Event ℚ) :=
  [.addChannel [(0 :: List.replicate 299 1, 0)] (some sample8) 255, .pullRequest 0, .pull, .pull]

/-- Its channel. -/
def clicking : MixerChannel ℚ := (speaker.run longBuffer).channels.head (by decide +kernel)

/-- The clicking channel has had a buffer. -/
theorem clicking_known : clicking.format.isSome := by decide +kernel

/-- The samples 256 and 0 of the buffer differ, and the second call begins with the one in place of the other. -/
theorem heard_iff_clicking :
    ¬clicking.heard = (clicking.stream (clicking.format.get clicking_known)).take clicking.heard.length := by
  intro h
  have hresumed := (heard_iff rfl longBuffer (List.head_mem _) (Option.some_get clicking_known).symm).2.mp h
  exact absurd hresumed (by decide +kernel)

/-- Buffers of `N` samples of `b` bytes, for an output of as many samples. -/
def Event.Regular (N b : Nat) : Event F → Prop
  | .addChannel source streamFormat _ =>
    (∀ chunk ∈ source, chunk.1 = [] ∨ chunk.1.length = N * b) ∧ ∀ f ∈ streamFormat, f.bytesPerSample = b
  | .formatDecided _ f => f.bytesPerSample = b
  | .setFormat f => CONFIG_MIXER_BUFFER_SIZE / f.bytesPerSample = N
  | _ => True

/-- A regular event leaves the length of the output alone. -/
theorem step_outLen {m : Mixer2 F} {N b : Nat} {e : Event F} (hN : m.outLen = N) (he : e.Regular N b) : (m.step e).outLen = N := by
  cases e with
  | setFormat f => exact he
  | pull =>
    change m.pull.2.outLen = N
    unfold Mixer2.pull
    split <;> exact hN
  | setVolume volume =>
    change (m.setVolume volume).2.outLen = N
    unfold setVolume
    split <;> exact hN
  | setSilenceLevel level =>
    change (m.setSilenceLevel level).2.outLen = N
    unfold setSilenceLevel
    split <;> exact hN
  | addChannel _ _ _ | pullRequest _ | formatDecided _ _ | setSampleRange _ | setOrMask _ => exact hN

/-- A regular event keeps all channels aligned. -/
theorem step_aligned {m : Mixer2 F} {N b : Nat} {e : Event F} (hN : m.outLen = N) (he : e.Regular N b)
    (h : ∀ c ∈ m.channels, c.Aligned N b) : ∀ c ∈ (m.step e).channels, c.Aligned N b := by
  refine step_channels e h (fun source streamFormat sampleRange heq c hc => ?_)
    (fun c pullRequests streamFormat htold hc => ?_) fun c hc => hN ▸ hc.pull
  · obtain rfl := Option.some.inj hc
    rw [heq] at he
    exact ⟨fun f hf => he.2 f (hf.elim id id), he.1, Or.inr (Nat.zero_div b).symm, rfl⟩
  · refine ⟨fun f hf => ?_, hc.source, hc.buffer, hc.resumed⟩
    rcases hf with hf | hf
    · exact hc.formats f (Or.inl hf)
    · change streamFormat = some f at hf
      rcases htold with hsame | ⟨i, g, rfl, hdecided⟩
      · exact hc.formats f (Or.inr (hsame ▸ hf))
      · obtain rfl := Option.some.inj (hdecided.symm.trans hf)
        exact he

/-- A run of regular events keeps all channels aligned. -/
theorem run_aligned {m : Mixer2 F} {N b : Nat} (hN : m.outLen = N) {es : List (Event F)} (hes : ∀ e ∈ es, e.Regular N b)
    (h : ∀ c ∈ m.channels, c.Aligned N b) : ∀ c ∈ (m.run es).channels, c.Aligned N b := by
  induction es generalizing m with
  | nil => exact h
  | cons e es ih =>
    have he := hes e List.mem_cons_self
    exact ih (step_outLen hN he) (fun e' he' => hes e' (List.mem_cons_of_mem _ he')) (step_aligned hN he h)

/-- Where the buffers of the sources are of the size of the output, as those of the synthesizer are, every channel hears its stream,
sample for sample. -/
theorem heard_of_aligned {m : Mixer2 F} (h : m.channels = []) {N b : Nat} (hN : m.outLen = N) {es : List (Event F)}
    (hes : ∀ e ∈ es, e.Regular N b) {c : MixerChannel F} (hc : c ∈ (m.run es).channels) {f : SampleFormat F}
    (hf : c.format = some f) : c.heard = (c.stream f).take c.heard.length := by
  have hnone : ∀ {P : MixerChannel F → Prop}, ∀ c ∈ m.channels, P c := fun c hc => by
    rw [h] at hc
    exact absurd hc List.not_mem_nil
  refine ((run_sound hnone es c hc).hears f hf).samples_iff.mpr fun r hr => ?_
  rw [(run_aligned hN hes hnone c hc).resumed] at hr
  exact absurd hr List.not_mem_nil

/-- One source with two buffers of 512 bytes. -/
def fullBuffers : List (Event ℚ) :=
  [.addChannel [(List.replicate 512 7, 1), (List.replicate 512 9, 0)] (some sample16) 1023, .pullRequest 0, .pull, .pull, .pull]

/-- Its channel. -/
def steady : MixerChannel ℚ := (speaker.run fullBuffers).channels.head (by decide +kernel)

/-- The steady channel has had a buffer. -/
theorem steady_known : steady.format.isSome := by decide +kernel

/-- The source of full buffers is regular. -/
theorem fullBuffers_regular : ∀ e ∈ fullBuffers, e.Regular 256 2 := by
  intro e he
  simp only [fullBuffers, List.mem_cons, List.not_mem_nil, or_false] at he
  rcases he with rfl | rfl | rfl | rfl | rfl
  · refine ⟨fun chunk hc => Or.inr ?_, fun f hf => ?_⟩
    · simp only [List.mem_cons, List.not_mem_nil, or_false] at hc
      rcases hc with rfl | rfl <;> exact List.length_replicate
    · obtain rfl := Option.some.inj hf
      rfl
  all_goals trivial

/-- The steady channel is heard as it was given. -/
theorem heard_of_aligned_steady :
    steady.heard = (steady.stream (steady.format.get steady_known)).take steady.heard.length :=
  heard_of_aligned rfl rfl fullBuffers_regular (List.head_mem _) (Option.some_get steady_known).symm

end Mixer2

end CodalMicrobit
