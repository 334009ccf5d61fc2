import CodalMicrobit.Theorems.SoundGrammar

/-!
# Where the random numbers lead

`applyRandom` moves a number by at most its random part and takes the absolute value, so a sum of the two of at most 9999 is
what keeps it to four digits. The volumes are clamped afterwards; the other five numbers are not.
-/

namespace CodalMicrobit

open MachineFloat

namespace SoundExpressions

/-- What `random` returns is below its bound. -/
def Draws (random : RandomSource) : Prop := ∀ k max, 0 < max → 0 ≤ random k max ∧ random k max < max

/-- What rounding keeps of the quotients of whole numbers. -/
structure RoundsQuotients (F : Type) [MachineFloat F] : Prop where
  mono : ∀ a b c : Int, a ≤ b → 0 < c → (ofInt a / ofInt c : F) ≤ ofInt b / ofInt c
  zero_div : ∀ c : Int, 0 < c → (ofInt 0 / ofInt c : F) = ofInt 0
  div_self : ∀ c : Int, 0 < c → (ofInt c / ofInt c : F) = ofInt 1
  one_mul : ∀ x : F, ofInt 1 * x = x

/-- Numbers without rounding. -/
theorem roundsQuotients_rat : RoundsQuotients ℚ where
  mono a b c hab hc := by
    change (a : ℚ) / (c : ℚ) ≤ (b : ℚ) / (c : ℚ)
    have hc' : (0 : ℚ) < c := by exact_mod_cast hc
    have hab' : (a : ℚ) ≤ b := by exact_mod_cast hab
    gcongr
  zero_div c _ := by
    change ((0 : Int) : ℚ) / (c : ℚ) = ((0 : Int) : ℚ)
    simp
  div_self c hc := by
    change (c : ℚ) / (c : ℚ) = ((1 : Int) : ℚ)
    have hc' : (c : ℚ) ≠ 0 := by exact_mod_cast hc.ne'
    simp [hc']
  one_mul x := by
    change ((1 : Int) : ℚ) * x = x
    simp

/-! ## One number -/

/-- A number is moved by at most its random part, and never below zero. -/
theorem applyRandom_range {random : RandomSource} (h : Draws random) (k : Nat) {value rand : Int} (hv : 0 ≤ value)
    (hr : 0 ≤ rand) : 0 ≤ (applyRandom random k value rand).1 ∧ (applyRandom random k value rand).1 ≤ value + rand := by
  have hdraw := h k (rand * 2 + 1) (by omega)
  unfold applyRandom
  rw [if_neg (by omega)]
  dsimp only
  refine ⟨abs_nonneg _, abs_le.mpr ⟨?_, ?_⟩⟩ <;> omega

/-- The largest numbers that `random` can return. -/
def highest : RandomSource := fun _ max => max - 1

/-- The highest draw is one that the generator may give. -/
theorem draws_highest : Draws highest := by
  intro k max hmax
  unfold highest
  omega

/-- With the largest numbers the whole random part is added. -/
theorem applyRandom_highest (k : Nat) {value rand : Int} (hv : 0 ≤ value) (hr : 0 ≤ rand) :
    (applyRandom highest k value rand).1 = value + rand := by
  unfold applyRandom highest
  rw [if_neg (by omega)]
  dsimp only
  rw [abs_of_nonneg (by omega)]
  omega

/-- The number of four digits at a place. -/
def number (e : List UInt8) (start : Nat) : Int := parseDigits (e.drop start) 4

/-- A field of four digits, and its random part. -/
theorem number_moved {random : RandomSource} (h : Draws random) (k : Nat) {e : List UInt8} {p : Nat × Nat}
    (hv : Spells e p.1 4) (hr : Spells e p.2 4) (hsum : number e p.1 + number e p.2 ≤ 9999) :
    0 ≤ (applyRandom random k (number e p.1) (number e p.2)).1 ∧
      (applyRandom random k (number e p.1) (number e p.2)).1 ≤ 9999 := by
  obtain ⟨hlo, hhi⟩ := applyRandom_range h k (parseDigits_of_spells hv).1 (parseDigits_of_spells hr).1
  exact ⟨hlo, hhi.trans hsum⟩

/-- With the highest draw a number gets all of its random part. -/
theorem number_highest (k : Nat) {e : List UInt8} {p : Nat × Nat} (hv : Spells e p.1 4) (hr : Spells e p.2 4) :
    (applyRandom highest k (number e p.1) (number e p.2)).1 = number e p.1 + number e p.2 :=
  applyRandom_highest k (parseDigits_of_spells hv).1 (parseDigits_of_spells hr).1

/-! ## An effect -/

/-- The shapes that have an effect function. -/
def shapes : List Int := [0, 1, 2, 5, 6, 8, 9, 10, 11, 12, 13, 14, 15, 16, 17, 18]

/-- Every field is in the range that is documented for it; for most of them that is all numbers of four digits. -/
structure Documented (e : List UInt8) : Prop where
  length : e.length = 72
  effect : IsEffect e
  effectVolume : number e 1 ≤ 1023
  shape : parseDigits (e.drop 13) 2 ∈ shapes
  endVolume : number e 26 ≤ 1023
  fxChoice : parseDigits (e.drop 34) 2 ≤ 3

/-- The places of the five numbers that are not clamped, each with that of its random part: the frequency, the end
frequency, the duration, the parameter and the steps of the fx. -/
def unclamped : List (Nat × Nat) := [(5, 44), (18, 48), (9, 60), (36, 64), (40, 68)]

/-- The numbers after the random parts were applied have at most four digits. -/
structure FourDigits (f : EffectFields) : Prop where
  frequency : 0 ≤ f.frequency ∧ f.frequency ≤ 9999
  endFrequency : 0 ≤ f.endFrequency ∧ f.endFrequency ≤ 9999
  duration : 0 ≤ f.duration ∧ f.duration ≤ 9999
  fxParam : 0 ≤ f.fxParam ∧ f.fxParam ≤ 9999
  fxnSteps : 0 ≤ f.fxnSteps ∧ f.fxnSteps ≤ 9999

section
variable {F : Type} [MachineFloat F]

/-- Both volumes are between 0 and 1. -/
def UnitVolumes (fx : ParsedSoundEffect F) : Prop :=
  (ofInt 0 ≤ fx.volume ∧ fx.volume ≤ ofInt 1) ∧
    ∃ endVolume, (fx.effects 1).parameter = some (.parameter endVolume) ∧ ofInt 0 ≤ endVolume ∧ endVolume ≤ ofInt 1

/-- A clamped volume is a fraction, whatever it was. -/
theorem clamp_div_range (hF : RoundsQuotients F) (v : Int) :
    (ofInt 0 : F) ≤ ofInt 1 * (ofInt (CLAMP 0 v 1023) / ofInt 1023) ∧
      (ofInt 1 * (ofInt (CLAMP 0 v 1023) / ofInt 1023) : F) ≤ ofInt 1 := by
  have hclamp : 0 ≤ CLAMP 0 v 1023 ∧ CLAMP 0 v 1023 ≤ 1023 := by
    unfold CLAMP
    split
    · decide
    · split <;> omega
  have hlo := hF.mono 0 _ 1023 hclamp.1 (by decide)
  have hhi := hF.mono _ 1023 1023 hclamp.2 (by decide)
  rw [hF.zero_div 1023 (by decide)] at hlo
  rw [hF.div_self 1023 (by decide)] at hhi
  rw [hF.one_mul]
  exact ⟨hlo, hhi⟩

/-- The volumes never leave their range. -/
theorem fill_unitVolumes (hF : RoundsQuotients F) (f : EffectFields) (fx : ParsedSoundEffect F) :
    UnitVolumes (fill f fx) :=
  ⟨clamp_div_range hF _, _, rfl, clamp_div_range hF _⟩

/-- The effect is accepted, the numbers that it is made of have at most four digits, and its volumes are between 0 and 1: for
all that `random` can return, however often it was called before. -/
def StaysInRange (F : Type) [MachineFloat F] (e : List UInt8) : Prop :=
  ∀ random, Draws random → ∀ (k : Nat) (fx : ParsedSoundEffect F),
    let f := (randomise random k e (readFields e)).1
    (parseSoundExpression random k e fx).1 = some (fill f fx) ∧ FourDigits f ∧ UnitVolumes (fill f fx)

end

/-- The numbers have at most four digits, whatever is drawn, exactly when each of the five has room for its random part. -/
theorem fourDigits_iff {e : List UInt8} (h : Passes e) :
    (∀ random, Draws random → ∀ k, FourDigits (randomise random k e (readFields e)).1) ↔
      ∀ p ∈ unclamped, number e p.1 + number e p.2 ≤ 9999 := by
  have hspells : ∀ p ∈ unclamped, Spells e p.1 4 ∧ Spells e p.2 4 := by
    intro p hp
    have htested : ∀ p ∈ unclamped, (p.1, 4) ∈ testedFields ∧ (p.2, 4) ∈ testedFields := by decide
    exact ⟨h _ (htested p hp).1, h _ (htested p hp).2⟩
  constructor
  · intro hall
    have hf := hall highest draws_highest 0
    have hsum : ∀ p ∈ unclamped, ∀ k, (applyRandom highest k (number e p.1) (number e p.2)).1 ≤ 9999 →
        number e p.1 + number e p.2 ≤ 9999 := by
      intro p hp k hk
      rwa [number_highest k (hspells p hp).1 (hspells p hp).2] at hk
    simp only [unclamped, List.forall_mem_cons] at hsum ⊢
    exact ⟨hsum.1 _ hf.frequency.2, hsum.2.1 _ hf.endFrequency.2, hsum.2.2.1 _ hf.duration.2,
      hsum.2.2.2.1 _ hf.fxParam.2, hsum.2.2.2.2.1 _ hf.fxnSteps.2, fun p hp => absurd hp List.not_mem_nil⟩
  · intro hsum random hdraw k
    have hmoved : ∀ p ∈ unclamped, ∀ k, 0 ≤ (applyRandom random k (number e p.1) (number e p.2)).1 ∧
        (applyRandom random k (number e p.1) (number e p.2)).1 ≤ 9999 :=
      fun p hp k => number_moved hdraw k (hspells p hp).1 (hspells p hp).2 (hsum p hp)
    simp only [unclamped, List.forall_mem_cons] at hmoved
    obtain ⟨hfrequency, hendFrequency, hduration, hfxParam, hfxnSteps, -⟩ := hmoved
    exact ⟨hfrequency _, hendFrequency _, hduration _, hfxParam _, hfxnSteps _⟩

/-- A documented effect stays in its ranges exactly when none of the five numbers that are not clamped can be moved above
9999. -/
theorem staysInRange_iff (F : Type) [MachineFloat F] (hF : RoundsQuotients F) (e : List UInt8)
    (h : Documented e) : StaysInRange F e ↔ ∀ p ∈ unclamped, number e p.1 + number e p.2 ≤ 9999 := by
  have hpasses := ((isEffect_iff e).mp h.effect).1
  rw [← fourDigits_iff hpasses]
  constructor
  · intro hstays random hdraw k
    exact (hstays random hdraw k zeroed).2.1
  · intro hfour random hdraw k fx
    refine ⟨?_, hfour random hdraw k, fill_unitVolumes hF _ _⟩
    unfold parseSoundExpression
    dsimp only
    rw [if_neg fun hr => (refused_randomise_iff random k e).mp hr hpasses]

/-- The effect with random parts is within the documented ranges. -/
theorem documented_randomEffect : Documented randomEffect where
  length := by decide +kernel
  effect := by
    unfold IsEffect KnownWave
    decide +kernel
  effectVolume := by decide +kernel
  shape := by decide +kernel
  endVolume := by decide +kernel
  fxChoice := by decide +kernel

/-- Its duration can become 4700, its parameter 155 and its steps 31. -/
theorem staysInRange_randomEffect : RoundsQuotients ℚ ∧ Documented randomEffect ∧ StaysInRange ℚ randomEffect :=
  ⟨roundsQuotients_rat, documented_randomEffect,
    (staysInRange_iff ℚ roundsQuotients_rat _ documented_randomEffect).mpr (by decide +kernel)⟩

/-- The effect with the frequency 9999, the frequency random 0001 and otherwise zeroes. -/
def highFrequency : List UInt8 :=
  List.replicate 5 48 ++ List.replicate 4 57 ++ List.replicate 38 48 ++ [49] ++ List.replicate 24 48

/-- The effect of the highest frequency is within the documented ranges. -/
theorem documented_highFrequency : Documented highFrequency where
  length := by decide
  effect := by
    unfold IsEffect KnownWave
    decide
  effectVolume := by decide
  shape := by decide
  endVolume := by decide
  fxChoice := by decide

/-- Its frequency can become 10000. -/
theorem staysInRange_highFrequency : Documented highFrequency ∧ ¬ StaysInRange ℚ highFrequency := by
  refine ⟨documented_highFrequency, fun hstays => ?_⟩
  have hpasses := ((isEffect_iff _).mp documented_highFrequency.effect).1
  have hsum := (fourDigits_iff hpasses).mp (fun random hdraw k => (hstays random hdraw k zeroed).2.1) (5, 44) (by decide)
  exact absurd hsum (by decide)

end SoundExpressions

end CodalMicrobit
