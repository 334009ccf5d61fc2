import CodalMicrobit.Theorems.PlaybackLock

/-!
# The effect that is pointed to

`nextSoundEffect` looks at the effect it has come to before it knows whether there is one. What it finds is a whole effect of
the buffer exactly when there is a buffer and the flag of `stop` is clear, as long as the buffers that are played hold whole
effects.
-/

namespace CodalMicrobit

/-- A place that is read through `effect`, in the array of the buffer; nothing for the null pointer. -/
structure EffectRead (F : Type) where
  buffer : EffectBuffer F
  effect : Option Nat

/-- A complete effect lies at this place, inside of the buffer. -/
def EffectRead.Complete {F : Type} (r : EffectRead F) : Prop :=
  (r.effect.any fun i => (i + 1) * SIZEOF_SOUND_EFFECT ≤ r.buffer.length) = true

instance {F : Type} (r : EffectRead F) : Decidable r.Complete := inferInstanceAs (Decidable (_ = true))

namespace SoundEmojiSynthesizer

variable {L F : Type} [MachineFloat F] {k : FiberLock L} {behind : Nat → SoundEffect F}
  {s s' : SoundEmojiSynthesizer L F}

/-! ## What is read -/

section
variable (k : FiberLock L) (behind : Nat → SoundEffect F)

omit [MachineFloat F] in
/-- The place that `nextSoundEffect` reads: the effect it has come to, or the first one where that is behind the end. -/
def nextSoundEffectRead (s : SoundEmojiSynthesizer L F) : EffectRead F :=
  let s := if s.stopping then { s with effect := none, effectBuffer := .empty behind } else s
  let effect := match s.effect with
    | some i => i + 1
    | none => 0
  ⟨s.effectBuffer, some (if s.effectBuffer.length ≤ effect * SIZEOF_SOUND_EFFECT then 0 else effect)⟩

/-- The places that `pull` reads, in `nextSoundEffect` and where it generates samples. -/
def pullReads : Nat → SoundEmojiSynthesizer L F → Option (List UInt16) → List (EffectRead F)
  | 0, _, _ => []
  | fuel + 1, s, sample =>
    let next := if s.samplesWritten = s.samplesToWrite ∨ s.stopping then [s.nextSoundEffectRead behind] else []
    let (done, s) := s.advance k behind
    let sample := if (s.samplesWritten < s.samplesToWrite ∨ !s.silenceAsEmpty) ∧ sample = none then some [] else sample
    let rendered := if s.samplesWritten < s.samplesToWrite then [⟨s.effectBuffer, s.effect⟩] else []
    next ++ rendered ++
      match s.render s.renderFuel (sample.getD []) with
      | some (false, buffer, s) => if done then [] else pullReads fuel s (sample.map fun _ => buffer)
      | _ => []

/-- The places that a step reads, in the first turns of a pull. -/
def reads (turns : Nat) (s : SoundEmojiSynthesizer L F) : Step F → List (EffectRead F)
  | .schedule =>
    match s.call with
    | .schedule => [s.nextSoundEffectRead behind]
    | _ => []
  | .pull => s.pullReads k behind turns none
  | _ => []

end

omit [MachineFloat F] in
/-- There is a buffer, and the flag of `stop` is clear. -/
def Loaded (s : SoundEmojiSynthesizer L F) : Prop := s.stopping = false ∧ 0 < s.effectBuffer.length

/-- A step that comes to `nextSoundEffect` finds a buffer, and the flag of `stop` clear. -/
def Supplied (s : SoundEmojiSynthesizer L F) : Step F → Prop
  | .schedule =>
    match s.call with
    | .schedule => Loaded s
    | _ => True
  | .pull => Loaded s
  | _ => True

/-- Every step of the sequence finds the state as `Supplied` asks. -/
def AllSupplied (k : FiberLock L) (behind : Nat → SoundEffect F) (s : SoundEmojiSynthesizer L F) : List (Step F) → Prop
  | [] => True
  | x :: steps => Supplied s x ∧ ∀ s', s.next k behind x = some s' → AllSupplied k behind s' steps

/-! ## A pull -/

/-- The buffer holds whole effects, and what is played is one of them. -/
structure Pointed (s : SoundEmojiSynthesizer L F) : Prop where
  whole : s.effectBuffer.Whole
  inside : ∀ i, s.effect = some i → (i + 1) * SIZEOF_SOUND_EFFECT ≤ s.effectBuffer.length
  rendered : s.effect = none → s.samplesWritten = s.samplesToWrite
  held : holder s.history ≠ none

/-- There is nothing to play. -/
structure Vacant (s : SoundEmojiSynthesizer L F) : Prop where
  effect : s.effect = none
  effectBuffer : s.effectBuffer.length = 0
  rendered : s.samplesWritten = s.samplesToWrite

omit [MachineFloat F] in
/-- Where the next effect is read to its end, the effect points into the buffer. -/
theorem nextSoundEffectRead_loaded (h : (s.nextSoundEffectRead behind).Complete) : Loaded s := by
  unfold nextSoundEffectRead EffectRead.Complete at h
  rw [Option.any_some, decide_eq_true_eq] at h
  cases hs : s.stopping with
  | true =>
    rw [hs, if_pos rfl] at h
    exact absurd h (by simp [EffectBuffer.empty, SIZEOF_SOUND_EFFECT])
  | false =>
    rw [hs, if_neg Bool.false_ne_true] at h
    refine ⟨hs, Nat.lt_of_lt_of_le ?_ h⟩
    exact Nat.mul_pos (Nat.succ_pos _) (by decide)

omit [MachineFloat F] in
/-- Whole effects end at the end of the buffer. -/
theorem whole_inside {b : EffectBuffer F} (h : b.Whole) {i : Nat} (hi : i * SIZEOF_SOUND_EFFECT < b.length) :
    (i + 1) * SIZEOF_SOUND_EFFECT ≤ b.length := by
  obtain ⟨n, hn⟩ := h.2
  rw [hn, Nat.mul_comm] at hi ⊢
  exact Nat.mul_le_mul_left _ (Nat.lt_of_mul_lt_mul_left hi)

/-- An effect of the buffer that begins points into it. -/
theorem Pointed.begin (h : Pointed s) {i : Nat} (hi : i * SIZEOF_SOUND_EFFECT < s.effectBuffer.length) :
    Pointed (s.begin i) where
  whole := h.whole
  inside j hj := by
    obtain rfl := Option.some.inj hj
    exact whole_inside h.whole hi
  rendered := nofun
  held := h.held

/-- `nextSoundEffect` reads a whole effect. It goes on with an effect of the buffer, or finds the end of it. -/
theorem Pointed.next (k : FiberLock L) (behind : Nat → SoundEffect F) (h : Pointed s) (hs : s.stopping = false) :
    (s.nextSoundEffectRead behind).Complete ∧
      (s.effect ≠ none ∧ s.nextSoundEffect k behind = (true, s.rest behind) ∨
        ∃ j, s.nextSoundEffect k behind = (false, s.begin j) ∧ Pointed (s.begin j)) := by
  have hpos : 0 < s.effectBuffer.length := Nat.lt_of_lt_of_le (by decide) h.whole.1
  have hread : ∀ i, i * SIZEOF_SOUND_EFFECT < s.effectBuffer.length →
      (EffectRead.mk s.effectBuffer (some i)).Complete := fun i hi => by
    unfold EffectRead.Complete
    rw [Option.any_some, decide_eq_true_eq]
    exact whole_inside h.whole hi
  have hfirst : 0 * SIZEOF_SOUND_EFFECT < s.effectBuffer.length := by rwa [Nat.zero_mul]
  unfold nextSoundEffectRead
  rw [hs, if_neg Bool.false_ne_true]
  cases he : s.effect with
  | none =>
    refine ⟨?_, Or.inr ⟨0, nextSoundEffect_first hs he hpos, h.begin hfirst⟩⟩
    dsimp only
    rw [he]
    dsimp only
    rw [if_neg (Nat.not_le.mpr hfirst)]
    exact hread 0 hfirst
  | some i =>
    dsimp only
    rw [he]
    dsimp only
    by_cases hl : (i + 1) * SIZEOF_SOUND_EFFECT < s.effectBuffer.length
    · rw [if_neg (by omega)]
      exact ⟨hread _ hl, Or.inr ⟨i + 1, nextSoundEffect_more hs he hl, h.begin hl⟩⟩
    · have hl := Nat.not_lt.mp hl
      rw [if_pos hl]
      refine ⟨hread 0 hfirst, ?_⟩
      by_cases hend : Ends k s.effectBuffer s
      · exact Or.inl ⟨nofun, nextSoundEffect_last hs he hl hend⟩
      · exact Or.inr ⟨0, nextSoundEffect_again hs he hl hend, h.begin hfirst⟩

/-- The start of a turn: the playout ends, or an effect goes on or begins. -/
theorem Pointed.advance (k : FiberLock L) (behind : Nat → SoundEffect F) (h : Pointed s) (hs : s.stopping = false) :
    s.advance k behind = (true, (s.rest behind).complete k) ∨
      ∃ done s₁, s.advance k behind = (done, s₁) ∧ Pointed s₁ ∧ SameLock s s₁ ∧ s₁.stopping = false ∧
        s₁.effect ≠ none := by
  by_cases hw : s.samplesWritten = s.samplesToWrite
  · obtain ⟨-, ⟨-, hn⟩ | ⟨j, hn, hj⟩⟩ := h.next k behind hs
    · left
      refine (advance_rest (Or.inl hw) hn).trans ?_
      rw [Bool.true_or, if_pos rfl]
    · exact Or.inr ⟨_, _, advance_begin hs hw hn, hj, ⟨rfl, rfl, rfl, rfl, rfl, rfl, rfl⟩, hs, nofun⟩
  · exact Or.inr ⟨false, s, advance_stay hs hw, h, SameLock.refl s, hs, fun he => hw (h.rendered he)⟩

omit [MachineFloat F] in
/-- Rendering leaves the effect where it is. -/
theorem Pointed.render (h : Pointed s) (he : s.effect ≠ none) (hr : Renders s s') : Pointed s' ∧ s'.effect ≠ none := by
  obtain ⟨_, _, _, _, _, rfl⟩ := hr
  exact ⟨⟨h.whole, h.inside, fun hnone => absurd hnone he, h.held⟩, he⟩

/-- All that the turns of a pull read are whole effects. -/
theorem Pointed.reads (fuel : Nat) : ∀ {s : SoundEmojiSynthesizer L F} (sample : Option (List UInt16)), Pointed s →
    s.stopping = false → ∀ r ∈ s.pullReads k behind fuel sample, r.Complete := by
  induction fuel with
  | zero => exact fun _ _ _ _ hr => absurd hr List.not_mem_nil
  | succ fuel ih =>
    intro s sample h hs r hr
    rw [pullReads] at hr
    rcases h.advance k behind hs with ha | ⟨done, s₁, ha, h₁, hsame, hs₁, he₁⟩
    · have hnone : ¬((s.rest behind).complete k).samplesWritten < ((s.rest behind).complete k).samplesToWrite :=
        Int.lt_irrefl 0
      simp only [ha, if_neg hnone, renderFuel, render_done _ _ hnone, if_true, List.append_nil] at hr
      split at hr
      · rw [List.mem_singleton.mp hr]
        exact (h.next k behind hs).1
      · exact absurd hr List.not_mem_nil
    · simp only [ha] at hr
      rcases List.mem_append.mp hr with hr | hr
      · rcases List.mem_append.mp hr with hr | hr
        · split at hr
          · rw [List.mem_singleton.mp hr]
            exact (h.next k behind hs).1
          · exact absurd hr List.not_mem_nil
        · split at hr
          · obtain ⟨i, hi⟩ := Option.ne_none_iff_exists'.mp he₁
            rw [List.mem_singleton.mp hr, EffectRead.Complete, hi, Option.any_some, decide_eq_true_eq]
            exact h₁.inside i hi
          · exact absurd hr List.not_mem_nil
      · split at hr
        · rename_i buffer s₂ hres
          have hren := render_renders _ hres
          have hs₂ := hren.stopping.trans hs₁
          split at hr
          · exact absurd hr List.not_mem_nil
          · exact ih _ (h₁.render he₁ hren).1 hs₂ r hr
        · exact absurd hr List.not_mem_nil

/-- A pull leaves an effect of the buffer to be played, or ends the playout. -/
theorem Pointed.pullTurns (fuel : Nat) : ∀ {s : SoundEmojiSynthesizer L F} {sample : Option (List UInt16)}
    {r : Option (List UInt16) × SoundEmojiSynthesizer L F}, Pointed s → s.stopping = false →
    s.pullTurns k behind fuel sample = some r → Pointed r.2 ∧ SameLock s r.2 ∨ Ended k behind s r.2 := by
  induction fuel with
  | zero => exact fun _ _ h => absurd h nofun
  | succ fuel ih =>
    intro s sample r h hs hr
    rcases h.advance k behind hs with ha | ⟨done, s₁, ha, h₁, hsame, hs₁, he₁⟩
    · have heq := pullTurns_rest fuel sample ha (rest_ended s).idle
      rw [hr] at heq
      rw [Option.some.inj heq]
      exact Or.inr (rest_ended s)
    · obtain ⟨buffer, full, buffer', s₂, hres, hr⟩ := pullTurns_cases ha hr
      have hren := render_renders _ hres
      have h₂ := (h₁.render he₁ hren).1
      have hsame₂ := hsame.trans hren.sameLock
      have hs₂ := hren.stopping.trans hs₁
      rcases hr with rfl | ⟨sample', hr⟩
      · exact Or.inl ⟨h₂, hsame₂⟩
      · rcases ih h₂ hs₂ hr with ⟨hp, hl⟩ | hend
        · exact Or.inl ⟨hp, hsame₂.trans hl⟩
        · exact Or.inr (hend.after hsame₂)

/-! ## The steps -/

/-- What is played or about to be, by the statement that comes next. -/
def Stocked (s : SoundEmojiSynthesizer L F) : Prop :=
  match s.call with
  | .store sound => Vacant s ∧ sound.Whole ∧ holder s.history ≠ none
  | _ => Vacant s ∨ Pointed s

/-- What every step keeps that comes to `nextSoundEffect` with a buffer only. -/
structure Tracked (k : FiberLock L) (s : SoundEmojiSynthesizer L F) : Prop where
  lock : LockView k s
  blocked : ∀ sound ∈ s.blocked, sound.Whole
  stocked : Stocked s

omit [MachineFloat F] in
/-- Whether there is something to play does not depend on the lock or on who waits for it. -/
theorem playable_frame (h : Vacant s ∨ Pointed s) (lock : L) (call : RunningCall F) (blocked : List (EffectBuffer F))
    (woken : Nat) (stopping : Bool) :
    Vacant { s with lock, call, blocked, woken, stopping } ∨ Pointed { s with lock, call, blocked, woken, stopping } :=
  h.imp (fun h => ⟨h.effect, h.effectBuffer, h.rendered⟩) fun h => ⟨h.whole, h.inside, h.rendered, h.held⟩

omit [MachineFloat F] in
/-- Between two stores the synthesizer is vacant or points into its buffer. -/
theorem stocked_iff (hc : ∀ sound, s.call ≠ .store sound) : Stocked s ↔ Vacant s ∨ Pointed s := by
  unfold Stocked
  split
  · exact absurd ‹_› (hc _)
  · rfl

omit [MachineFloat F] in
/-- A buffer that is there is pointed into. -/
theorem Tracked.pointed (h : Tracked k s) (hl : Loaded s) : Pointed s ∧ ∀ sound, s.call ≠ .store sound := by
  have hvacant : ¬Vacant s := fun hv => absurd hl.2 (by rw [hv.effectBuffer]; exact Nat.lt_irrefl 0)
  have hstocked := h.stocked
  unfold Stocked at hstocked
  split at hstocked
  · exact absurd hstocked.1 hvacant
  · rename_i hcall
    exact ⟨hstocked.resolve_left hvacant, fun sound hc => hcall sound hc⟩

omit [MachineFloat F] in
/-- A call enters. -/
theorem Tracked.enter (h : Tracked k s) (hcall : s.call = .none) {sound : EffectBuffer F} (he : Entered k s s' sound)
    (hw : sound.Whole) : Tracked k s' := by
  have hview := he.lockView
  obtain ⟨hh, lock, blocked, -, hb, rfl⟩ := he
  have hv : Vacant s := ((stocked_iff (by simp [hcall])).mp h.stocked).resolve_right fun hp => hp.held hh
  exact ⟨hview, fun b hm => h.blocked b (hb b hm), ⟨hv.effect, hv.effectBuffer, hv.rendered⟩, hw, nofun⟩

/-- A pull of the mixer keeps the invariant. -/
theorem Tracked.pull (hk : k.Lawful) (h : Tracked k s) (hl : Loaded s) (hn : s.next k behind .pull = some s') :
    Tracked k s' := by
  obtain ⟨hp, hcall⟩ := h.pointed hl
  rw [SoundEmojiSynthesizer.next, Option.map_eq_some_iff] at hn
  obtain ⟨r, hr, rfl⟩ := hn
  rw [SoundEmojiSynthesizer.pull, Option.map_eq_some_iff] at hr
  obtain ⟨⟨buffer, t⟩, heq, rfl⟩ := hr
  rcases hp.pullTurns _ hl.1 heq with ⟨hp', hsame⟩ | hend
  · exact ⟨h.lock.congr hsame.lock hsame.history hsame.blocked hsame.woken, by rw [hsame.blocked]; exact h.blocked,
      (stocked_iff (by rw [hsame.call]; exact hcall)).mpr (Or.inr hp')⟩
  · have hv : Vacant t := ⟨hend.idle.effect, by rw [hend.idle.effectBuffer]; rfl, by
      rw [hend.idle.samplesWritten, hend.idle.samplesToWrite]⟩
    exact ⟨h.lock.ended hk hp.held hend, by rw [hend.blocked]; exact h.blocked,
      (stocked_iff (by rw [hend.call]; exact hcall)).mpr (Or.inl hv)⟩

/-- The scheduled step of `play` keeps the invariant. -/
theorem Tracked.schedule (h : Tracked k s) (hc : Supplied s .schedule) (hn : s.next k behind .schedule = some s') :
    Tracked k s' := by
  rw [SoundEmojiSynthesizer.next] at hn
  split at hn
  · rename_i hcall
    unfold Supplied at hc
    rw [hcall] at hc
    obtain ⟨hp, -⟩ := h.pointed hc
    obtain rfl := Option.some.inj hn
    rcases (hp.next k behind hc.1).2 with ⟨-, hn⟩ | ⟨j, hn, hj⟩
    · rw [hn]
      exact ⟨h.lock.congr rfl rfl rfl rfl, h.blocked, Or.inl ⟨rfl, rfl, rfl⟩⟩
    · rw [hn]
      exact ⟨h.lock.congr rfl rfl rfl rfl, h.blocked, Or.inr ⟨hj.whole, hj.inside, hj.rendered, hj.held⟩⟩
  · cases hn

/-- One step. -/
theorem Tracked.next (hk : k.Lawful) (h : Tracked k s) {x : Step F} (hw : x.Whole) (hc : Supplied s x)
    (hn : s.next k behind x = some s') : Tracked k s' := by
  -- a step of the running fiber that leaves alone what is played
  have hmoved : (∀ sound, s.call ≠ .store sound) → ∀ call stopping, (∀ sound, call ≠ .store sound) →
      Tracked k { s with call, stopping } := fun hcall call stopping hnew =>
    ⟨h.lock.congr rfl rfl rfl rfl, h.blocked, (stocked_iff hnew).mpr
      (playable_frame ((stocked_iff hcall).mp h.stocked) s.lock call s.blocked s.woken stopping)⟩
  cases x with
  | play sound =>
    obtain ⟨hcall, rfl | ⟨hlen, he | ⟨hview, lock, rfl⟩⟩⟩ := play_cases hk h.lock hn
    · exact h
    · exact h.enter hcall he ⟨hlen, hw⟩
    · have hstore : ∀ sound, s.call ≠ .store sound := by simp [hcall]
      refine ⟨hview, ?_, (stocked_iff (s := { s with lock, blocked := s.blocked ++ [sound] }) hstore).mpr
        (playable_frame ((stocked_iff hstore).mp h.stocked) lock s.call _ s.woken s.stopping)⟩
      intro b hb
      rcases List.mem_append.mp hb with hb | hb
      · exact h.blocked b hb
      · rw [List.mem_singleton.mp hb]
        exact ⟨hlen, hw⟩
  | resume i =>
    obtain ⟨hcall, sound, hmem, he⟩ := resume_cases h.lock hn
    exact h.enter hcall he (h.blocked sound hmem)
  | store =>
    rw [SoundEmojiSynthesizer.next] at hn
    split at hn
    · rename_i sound hcall
      have hstocked := h.stocked
      unfold Stocked at hstocked
      rw [hcall] at hstocked
      obtain ⟨hv, hw, hh⟩ := hstocked
      obtain rfl := Option.some.inj hn
      refine ⟨h.lock.congr rfl rfl rfl rfl, h.blocked, Or.inr ⟨hw, fun i hi => ?_, fun _ => hv.rendered, hh⟩⟩
      rw [hv.effect] at hi
      cases hi
    · cases hn
  | schedule => exact h.schedule hc hn
  | stop =>
    rw [SoundEmojiSynthesizer.next] at hn
    split at hn
    · rename_i hcall
      obtain rfl := Option.some.inj hn
      refine hmoved (by simp [hcall]) _ s.stopping ?_
      split <;> (intro sound h; cases h)
    · cases hn
  | setStopping =>
    rw [SoundEmojiSynthesizer.next] at hn
    split at hn
    · rename_i hcall
      obtain rfl := Option.some.inj hn
      refine hmoved (by simp [hcall]) .none true fun sound h => ?_
      cases h
    · cases hn
  | pull => exact h.pull hk hc hn

/-- Any number of steps. -/
theorem Tracked.run (hk : k.Lawful) (steps : List (Step F)) : ∀ {s : SoundEmojiSynthesizer L F}, Tracked k s →
    (∀ x ∈ steps, x.Whole) → AllSupplied k behind s steps → s.run k behind steps = some s' → Tracked k s' := by
  induction steps with
  | nil =>
    intro s h _ _ hr
    obtain rfl := Option.some.inj hr
    exact h
  | cons x steps ih =>
    intro s h hw hc hr
    rw [run_cons, Option.bind_eq_some_iff] at hr
    obtain ⟨s₁, hn, hr⟩ := hr
    exact ih (h.next hk (hw x List.mem_cons_self) hc.1 hn) (fun y hy => hw y (List.mem_cons_of_mem x hy)) (hc.2 s₁ hn) hr

/-- A new synthesizer satisfies the invariant. -/
theorem new_tracked (hk : k.Lawful) (sampleRange : F) (orMask : UInt16) (silenceAsEmpty : Bool) :
    Tracked k (new k behind sampleRange orMask silenceAsEmpty) :=
  ⟨.free hk.free rfl rfl rfl, nofun, Or.inl ⟨rfl, rfl, rfl⟩⟩

/-! ## The theorem -/

/-- What a step reads is complete exactly where the step is supplied. -/
theorem Tracked.reads_iff (h : Tracked k s) (x : Step F) :
    (∀ turns, ∀ r ∈ s.reads k behind turns x, r.Complete) ↔ Supplied s x := by
  cases x with
  | schedule =>
    cases hcall : s.call with
    | schedule =>
      simp only [SoundEmojiSynthesizer.reads, Supplied, hcall, List.mem_singleton, forall_eq, forall_const]
      exact ⟨nextSoundEffectRead_loaded, fun hl => ((h.pointed hl).1.next k behind hl.1).1⟩
    | none => simp [SoundEmojiSynthesizer.reads, Supplied, hcall]
    | store sound => simp [SoundEmojiSynthesizer.reads, Supplied, hcall]
    | setStopping => simp [SoundEmojiSynthesizer.reads, Supplied, hcall]
  | pull =>
    unfold SoundEmojiSynthesizer.reads Supplied
    constructor
    · intro hr
      by_cases hnext : s.samplesWritten = s.samplesToWrite ∨ s.stopping = true
      · have hmem : s.nextSoundEffectRead behind ∈ s.pullReads k behind 1 none := by
          rw [pullReads, if_pos hnext]
          exact List.mem_append_left _ (List.mem_append_left _ (List.mem_singleton.mpr rfl))
        exact nextSoundEffectRead_loaded (hr 1 _ hmem)
      · rw [not_or, Bool.not_eq_true] at hnext
        refine ⟨hnext.2, ?_⟩
        have hstocked := h.stocked
        unfold Stocked at hstocked
        split at hstocked
        · exact absurd hstocked.1.rendered hnext.1
        · rcases hstocked with hv | hp
          · exact absurd hv.rendered hnext.1
          · exact Nat.lt_of_lt_of_le (by decide) hp.whole.1
    · intro hl turns
      exact (h.pointed hl).1.reads turns none hl.1
  | play _ => exact iff_of_true (fun _ r hr => absurd hr List.not_mem_nil) trivial
  | resume _ => exact iff_of_true (fun _ r hr => absurd hr List.not_mem_nil) trivial
  | store => exact iff_of_true (fun _ r hr => absurd hr List.not_mem_nil) trivial
  | stop => exact iff_of_true (fun _ r hr => absurd hr List.not_mem_nil) trivial
  | setStopping => exact iff_of_true (fun _ r hr => absurd hr List.not_mem_nil) trivial

/-- In every run whose steps come to `nextSoundEffect` with a buffer, all that is read through `effect` is a complete effect,
and the next step keeps to this exactly if it does, too. -/
theorem effect_complete_iff (hk : k.Lawful) (sampleRange : F) (orMask : UInt16) (silenceAsEmpty : Bool)
    (steps : List (Step F)) (hw : ∀ x ∈ steps, x.Whole)
    (hc : AllSupplied k behind (new k behind sampleRange orMask silenceAsEmpty) steps)
    (hr : (new k behind sampleRange orMask silenceAsEmpty).run k behind steps = some s) (x : Step F) :
    (∀ turns, ∀ r ∈ s.reads k behind turns x, r.Complete) ↔ Supplied s x :=
  ((new_tracked hk sampleRange orMask silenceAsEmpty).run hk steps hw hc hr).reads_iff x

/-- `effect_complete_iff` for the first pull of an effect. -/
theorem effect_complete_first_pull : ∃ s, synth.run plainLock (fun _ => silent 0)
    [.play (.ofList [silent 1] (silent 0)), .store, .schedule] = some s ∧
      ((∀ turns, ∀ r ∈ s.reads plainLock (fun _ => silent 0) turns .pull, r.Complete) ↔ Supplied s .pull) := by
  have hsome : (synth.run plainLock (fun _ => silent 0)
      [.play (.ofList [silent 1] (silent 0)), .store, .schedule]).isSome = true := by decide +kernel
  obtain ⟨s, hs⟩ := Option.isSome_iff_exists.mp hsome
  refine ⟨s, hs, effect_complete_iff plainLock_lawful 1023 0 true _ ?_ ?_ hs .pull⟩
  · exact List.forall_mem_cons.mpr ⟨Nat.dvd_refl _, by simp [Step.Whole]⟩
  · refine ⟨trivial, fun s₁ h₁ => ⟨trivial, fun s₂ h₂ => ⟨?_, fun _ _ => trivial⟩⟩⟩
    obtain rfl := Option.some.inj h₁
    obtain rfl := Option.some.inj h₂
    exact ⟨rfl, by decide⟩

/-- A pull with nothing to play, a pull after `stop`, and the end of the first effect of a buffer of 100 bytes. -/
theorem effect_read_behind :
    ¬(∀ r ∈ synth.reads plainLock (fun _ => silent 0) 1 .pull, r.Complete) ∧
    ((synth.run plainLock (fun _ => silent 0)
      [.play (.ofList [silent 10] (silent 0)), .store, .schedule, .stop, .setStopping]).any fun s =>
        !(s.reads plainLock (fun _ => silent 0) 1 .pull).all fun r => r.Complete) = true ∧
    ((synth.run plainLock (fun _ => silent 0)
      [.play ⟨100, fun _ => silent 1⟩, .store, .schedule]).any fun s =>
        !(s.reads plainLock (fun _ => silent 0) 2 .pull).all fun r => r.Complete) = true := by
  decide +kernel

end SoundEmojiSynthesizer

end CodalMicrobit
