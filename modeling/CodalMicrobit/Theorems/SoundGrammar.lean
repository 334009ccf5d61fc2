import Mathlib.Tactic.IntervalCases
import CodalMicrobit.Audio.SoundExpressions

/-!
# Which sounds are played

What `playAsync` accepts does not depend on the random numbers: the length fits, the commas are in their places, and the
fields that are tested afterwards consist of digits. The wave, the shape, the steps and the fx choice are not tested, so an
effect can go to the synthesizer without a waveform.
-/

namespace CodalMicrobit

namespace SoundExpressions

/-! ## Numbers -/

/-- A decimal digit. -/
def IsDigit (b : UInt8) : Prop := 48 ≤ b.toNat ∧ b.toNat ≤ 57

instance (b : UInt8) : Decidable (IsDigit b) := by unfold IsDigit; infer_instance

/-- The field of `digits` characters at `start` consists of decimal digits. -/
def Spells (e : List UInt8) (start digits : Nat) : Prop := ∀ k < digits, IsDigit (e.getD (start + k) 0)

instance (e : List UInt8) (start digits : Nat) : Decidable (Spells e start digits) := by unfold Spells; infer_instance

/-- Behind the first byte, the bytes are one place further on. -/
theorem getD_tail (input : List UInt8) (k : Nat) : input.tail.getD k 0 = input.getD (k + 1) 0 := by
  cases input <;> rfl

/-- The first byte is the one at place 0. -/
theorem headD_eq (input : List UInt8) : input.headD 0 = input.getD 0 0 := by
  cases input <;> rfl

theorem spells_succ {input : List UInt8} {d : Nat} :
    Spells input 0 (d + 1) ↔ IsDigit (input.headD 0) ∧ Spells input.tail 0 d := by
  simp only [Spells, getD_tail, headD_eq, Nat.zero_add]
  constructor
  · exact fun h => ⟨h 0 (by omega), fun k hk => h (k + 1) (by omega)⟩
  · rintro ⟨h0, h⟩ k hk
    cases k with
    | zero => exact h0
    | succ k => exact h k (by omega)

/-- Digits behind `start` are digits from `start` on. -/
theorem spells_drop {e : List UInt8} {start d : Nat} : Spells (e.drop start) 0 d ↔ Spells e start d := by
  simp only [Spells, List.getD_eq_getElem?_getD, List.getElem?_drop, Nat.zero_add]

/-- The factor of the first digit is a power of ten. -/
theorem factor_le (d : Nat) : 0 ≤ factor (d + 1) ∧ factor (d + 1) ≤ 10 ^ d := by
  match d with
  | 0 | 1 | 2 | 3 => decide
  | d + 4 => exact ⟨le_refl _, by positivity⟩

/-- The sentinel comes out for anything but digits, whatever has been added up before. -/
theorem parseFrom_of_not {d : Nat} : ∀ {input : List UInt8} {result : Int}, ¬ Spells input 0 d →
    parseFrom input d result = -1 := by
  induction d with
  | zero => exact fun h => absurd (fun k hk => absurd hk (Nat.not_lt_zero k)) h
  | succ d ih =>
    intro input result h
    unfold parseFrom
    dsimp only
    by_cases hd : IsDigit (input.headD 0)
    · rw [if_neg (by unfold IsDigit at hd; omega)]
      exact ih fun hs => h (spells_succ.mpr ⟨hd, hs⟩)
    · rw [if_pos (by unfold IsDigit at hd; omega)]

/-- Digits add up to a number of no more digits. -/
theorem parseFrom_of_spells {d : Nat} : ∀ {input : List UInt8} (result : Int), Spells input 0 d →
    result ≤ parseFrom input d result ∧ parseFrom input d result < result + 10 ^ d := by
  induction d with
  | zero =>
    intro input result _
    simp [parseFrom]
  | succ d ih =>
    intro input result h
    obtain ⟨hd, hs⟩ := spells_succ.mp h
    obtain ⟨hf0, hf⟩ := factor_le d
    unfold IsDigit at hd
    unfold parseFrom
    dsimp only
    rw [if_neg (by omega)]
    obtain ⟨hle, hlt⟩ := ih (result + factor (d + 1) * ((input.headD 0).toNat - 48)) hs
    have hn0 : 0 ≤ factor (d + 1) * ((input.headD 0).toNat - 48 : Int) := mul_nonneg hf0 (by omega)
    have hn9 : factor (d + 1) * ((input.headD 0).toNat - 48 : Int) ≤ 10 ^ d * 9 :=
      mul_le_mul hf (by omega) (by omega) (by positivity)
    have hpow : (10 : Int) ^ (d + 1) = 10 ^ d * 9 + 10 ^ d := by ring
    omega

/-- A field of digits is a number, and any other is the sentinel. -/
theorem parseDigits_of_spells {e : List UInt8} {start d : Nat} (h : Spells e start d) :
    0 ≤ parseDigits (e.drop start) d ∧ parseDigits (e.drop start) d < 10 ^ d := by
  have := parseFrom_of_spells 0 (spells_drop.mpr h)
  rwa [zero_add] at this

/-- What is no number is refused. -/
theorem parseDigits_of_not {e : List UInt8} {start d : Nat} (h : ¬ Spells e start d) :
    parseDigits (e.drop start) d = -1 :=
  parseFrom_of_not fun hs => h (spells_drop.mp hs)

/-- A number is refused exactly when its digits are not all digits. -/
theorem parseDigits_neg_iff {e : List UInt8} {start d : Nat} : parseDigits (e.drop start) d < 0 ↔ ¬ Spells e start d := by
  constructor
  · intro h hs
    have := (parseDigits_of_spells hs).1
    omega
  · intro h
    rw [parseDigits_of_not h]
    decide

/-- Only the sentinel of the value or of its random part makes a sentinel. -/
theorem applyRandom_eq_sentinel (random : RandomSource) (k : Nat) (value rand : Int) :
    (applyRandom random k value rand).1 = -1 ↔ value < 0 ∨ rand < 0 := by
  unfold applyRandom
  by_cases h : value < 0 ∨ rand < 0
  · rw [if_pos h]
    exact iff_of_true rfl h
  · rw [if_neg h]
    have habs : 0 ≤ |value + (random k (rand * 2 + 1) - rand)| := abs_nonneg _
    exact iff_of_false (by dsimp only; omega) h

/-! ## Effects -/

/-- The fields that the test of `parseSoundExpression` looks at, by their places and lengths: seven numbers and what is
random about them. -/
def testedFields : List (Nat × Nat) :=
  [(5, 4), (44, 4), (18, 4), (48, 4), (1, 4), (52, 4), (26, 4), (56, 4), (9, 4), (60, 4), (36, 4), (64, 4), (40, 4), (68, 4)]

/-- The shape, the steps and the fx choice. -/
def untestedFields : List (Nat × Nat) := [(13, 2), (30, 4), (34, 2)]

/-- The fields that are used, in the order of their places; the wave comes first. -/
def usedFields : List (Nat × Nat) :=
  [(0, 1), (1, 4), (5, 4), (9, 4), (13, 2), (18, 4), (26, 4), (30, 4), (34, 2), (36, 4), (40, 4), (44, 4), (48, 4), (52, 4),
    (56, 4), (60, 4), (64, 4), (68, 4)]

/-- The fields that are tested consist of digits. -/
def Passes (e : List UInt8) : Prop := ∀ f ∈ testedFields, Spells e f.1 f.2

/-- The wave is one of those there are. -/
def KnownWave (e : List UInt8) : Prop := 48 ≤ (e.getD 0 0).toNat ∧ (e.getD 0 0).toNat ≤ 52

/-- The fields that are not tested are right. -/
def UntestedRight (e : List UInt8) : Prop := KnownWave e ∧ ∀ f ∈ untestedFields, Spells e f.1 f.2

/-- An effect as it is documented: every used field consists of digits, and the wave is between 0 and 4. -/
def IsEffect (e : List UInt8) : Prop := (∀ f ∈ usedFields, Spells e f.1 f.2) ∧ KnownWave e

/-- The documented effects are those that pass the test and are right where nothing is tested. -/
theorem isEffect_iff (e : List UInt8) : IsEffect e ↔ Passes e ∧ UntestedRight e := by
  have hwave : KnownWave e → Spells e 0 1 := by
    intro h k hk
    obtain rfl : k = 0 := by omega
    exact ⟨h.1, h.2.trans (by decide)⟩
  simp only [IsEffect, Passes, UntestedRight, usedFields, testedFields, untestedFields, List.forall_mem_cons]
  tauto

/-- The test of `parseSoundExpression`, for whatever random numbers. -/
theorem refused_randomise_iff (random : RandomSource) (k : Nat) (e : List UInt8) :
    refused (randomise random k e (readFields e)).1 ↔ ¬ Passes e := by
  unfold refused randomise readFields
  simp only [applyRandom_eq_sentinel, parseDigits_neg_iff]
  simp only [Passes, testedFields, List.forall_mem_cons]
  simp only [List.not_mem_nil, false_imp_iff, implies_true, and_true]
  tauto

/-- A wave is known exactly when its digit is one of the tone prints. -/
theorem tonePrint_isSome_iff (e : List UInt8) : (tonePrint (parseDigits (e.drop 0) 1) none).isSome ↔ KnownWave e := by
  by_cases h : Spells e 0 1
  · have hd : IsDigit (e.getD 0 0) := h 0 (by decide)
    have hvalue : parseDigits (e.drop 0) 1 = (e.getD 0 0).toNat - 48 := by
      unfold IsDigit at hd
      rw [List.drop_zero, parseDigits, parseFrom, headD_eq, if_neg (by omega), parseFrom]
      change (0 : Int) + 1 * _ = _
      omega
    rw [hvalue]
    unfold KnownWave
    unfold IsDigit at hd
    generalize (e.getD 0 0).toNat = n at hd
    obtain ⟨hlo, hhi⟩ := hd
    interval_cases n <;> decide
  · rw [parseDigits_of_not h]
    refine iff_of_false (by decide) fun hw => h fun k hk => ?_
    obtain rfl : k = 0 := by omega
    exact ⟨hw.1, hw.2.trans (by decide)⟩

section
variable {F : Type} [MachineFloat F]

/-- An effect that passes the test is filled in, and its waveform is that of the wave; any other is refused. -/
theorem parseSoundExpression_eq (random : RandomSource) (k : Nat) (e : List UInt8) :
    (Passes e → ∃ fx : ParsedSoundEffect F, (parseSoundExpression random k e zeroed).1 = some fx ∧
      fx.tonePrint = tonePrint (parseDigits (e.drop 0) 1) none) ∧
    (¬ Passes e → (parseSoundExpression (F := F) random k e zeroed).1 = none) := by
  unfold parseSoundExpression
  dsimp only
  constructor
  · intro h
    rw [if_neg (fun hr => (refused_randomise_iff random k e).mp hr h)]
    exact ⟨_, rfl, rfl⟩
  · intro h
    rw [if_pos ((refused_randomise_iff random k e).mpr h)]

/-- Effect `j` of a text is where the loop of `playAsync` looks for it: behind a comma, unless it is the first. -/
def Stands (P : List UInt8 → Prop) (soundChars : List UInt8) (j : Nat) : Prop :=
  (0 < j → soundChars.getD (73 * j - 1) 0 = ','.toUInt8) ∧ P (soundChars.drop (73 * j))

/-- One turn of the loop. -/
theorem parseEffects_succ (random : RandomSource) (soundChars : List UInt8) (n i k : Nat) :
    (Stands Passes soundChars i → ∃ (fx : ParsedSoundEffect F) (k' : Nat),
      fx.tonePrint = tonePrint (parseDigits ((soundChars.drop (73 * i)).drop 0) 1) none ∧
        parseEffects random soundChars (n + 1) i k = (parseEffects random soundChars n (i + 1) k').map (fx :: ·)) ∧
    (¬ Stands Passes soundChars i → parseEffects (F := F) random soundChars (n + 1) i k = none) := by
  have hstart : i * charsPerEffect + i = 73 * i := by
    unfold charsPerEffect
    omega
  obtain ⟨hpass, hfail⟩ := parseSoundExpression_eq (F := F) random k (soundChars.drop (73 * i))
  rw [parseEffects]
  dsimp only
  constructor
  · rintro ⟨hcomma, hp⟩
    obtain ⟨fx, hfx, htone⟩ := hpass hp
    have hcomma' : ¬ (i * charsPerEffect + i > 0 ∧ soundChars.getD (i * charsPerEffect + i - 1) 0 ≠ ','.toUInt8) := by
      rw [hstart]
      rintro ⟨hpos, hne⟩
      exact hne (hcomma (by omega))
    refine ⟨fx, (parseSoundExpression (F := F) random k (soundChars.drop (73 * i)) zeroed).2, htone, ?_⟩
    rw [if_neg hcomma', hstart, hfx, Option.bind_some]
  · intro hn
    by_cases hcomma : i * charsPerEffect + i > 0 ∧ soundChars.getD (i * charsPerEffect + i - 1) 0 ≠ ','.toUInt8
    · rw [if_pos hcomma]
    · have hp : ¬ Passes (soundChars.drop (73 * i)) := by
        refine fun hp => hn ⟨fun h0 => ?_, hp⟩
        by_contra hne
        rw [hstart] at hcomma
        exact hcomma ⟨by omega, hne⟩
      rw [if_neg hcomma, hstart, hfail hp, Option.bind_none]

/-- The loop makes an effect of each of the texts when they are all in their places and pass. -/
theorem parseEffects_of_stands (random : RandomSource) (soundChars : List UInt8) (n : Nat) : ∀ i k : Nat,
    (∀ j, i ≤ j → j < i + n → Stands Passes soundChars j) →
      ∃ buffer : List (ParsedSoundEffect F), parseEffects random soundChars n i k = some buffer ∧
        ∀ fx ∈ buffer, ∃ j, j < i + n ∧
          fx.tonePrint = tonePrint (parseDigits ((soundChars.drop (73 * j)).drop 0) 1) none := by
  induction n with
  | zero => exact fun i k _ => ⟨[], rfl, fun fx h => absurd h List.not_mem_nil⟩
  | succ n ih =>
    intro i k h
    obtain ⟨fx, k', htone, hstep⟩ := (parseEffects_succ (F := F) random soundChars n i k).1 (h i (le_refl _) (by omega))
    obtain ⟨buffer, hb, hmem⟩ := ih (i + 1) k' fun j hj hj' => h j (by omega) (by omega)
    refine ⟨fx :: buffer, by rw [hstep, hb, Option.map_some], fun g hg => ?_⟩
    rcases List.mem_cons.mp hg with rfl | hg
    · exact ⟨i, by omega, htone⟩
    · obtain ⟨j, hj, he⟩ := hmem g hg
      exact ⟨j, by omega, he⟩

/-- It gives up at one that is not, or does not. -/
theorem parseEffects_of_not_stands (random : RandomSource) (soundChars : List UInt8) (n : Nat) : ∀ i k : Nat,
    (∃ j, i ≤ j ∧ j < i + n ∧ ¬ Stands Passes soundChars j) →
      parseEffects (F := F) random soundChars n i k = none := by
  induction n with
  | zero =>
    rintro i k ⟨j, h, h', -⟩
    omega
  | succ n ih =>
    rintro i k ⟨j, hj, hj', hn⟩
    by_cases hi : Stands Passes soundChars i
    · obtain ⟨fx, k', -, hstep⟩ := (parseEffects_succ (F := F) random soundChars n i k).1 hi
      have hne : j ≠ i := by
        rintro rfl
        exact hn hi
      rw [hstep, ih (i + 1) k' ⟨j, by omega, by omega, hn⟩, Option.map_none]
    · exact (parseEffects_succ random soundChars n i k).2 hi

end

/-! ## Sounds -/

/-- The effects with commas between them. -/
def join (effects : List (List UInt8)) : List UInt8 := [','.toUInt8].intercalate effects

/-- A list of at least one effect of 72 characters, with commas between them. -/
def ListOf (P : List UInt8 → Prop) (sound : List UInt8) : Prop :=
  ∃ effects, effects ≠ [] ∧ sound = join effects ∧ ∀ e ∈ effects, e.length = 72 ∧ P e

theorem join_cons_cons (e e' : List UInt8) (rest : List (List UInt8)) :
    join (e :: e' :: rest) = e ++ ','.toUInt8 :: join (e' :: rest) := by
  unfold join
  rw [List.intercalate_cons_cons, List.append_assoc]
  rfl

/-- Texts of one length can be told apart in the list. -/
theorem join_injective : ∀ {as bs : List (List UInt8)}, as ≠ [] → bs ≠ [] → (∀ e ∈ as, e.length = 72) →
    (∀ e ∈ bs, e.length = 72) → join as = join bs → as = bs
  | [a], [b], _, _, _, _, h => by
    simpa [join, List.intercalate] using h
  | [a], b :: b' :: bs, _, _, ha, hb, h => by
    have := congrArg List.length h
    rw [join_cons_cons] at this
    simp [join, List.intercalate, ha a, hb b] at this
  | a :: a' :: as, [b], _, _, ha, hb, h => by
    have := congrArg List.length h
    rw [join_cons_cons] at this
    simp [join, List.intercalate, ha a, hb b] at this
  | a :: a' :: as, b :: b' :: bs, _, _, ha, hb, h => by
    rw [join_cons_cons, join_cons_cons] at h
    obtain ⟨rfl, hrest⟩ := List.append_inj h ((ha a List.mem_cons_self).trans (hb b List.mem_cons_self).symm)
    rw [join_injective (List.cons_ne_nil _ _) (List.cons_ne_nil _ _) (fun e he => ha e (List.mem_cons_of_mem _ he))
      (fun e he => hb e (List.mem_cons_of_mem _ he)) (List.cons.inj hrest).2]

/-- A text that begins with an effect and a comma: its effects are that one and those of the rest. -/
theorem listOf_append {P : List UInt8 → Prop} {e rest : List UInt8} {c : UInt8} (he : e.length = 72) :
    ListOf P (e ++ c :: rest) ↔ P e ∧ c = ','.toUInt8 ∧ ListOf P rest := by
  constructor
  · rintro ⟨effects, hne, hs, hall⟩
    match effects, hne with
    | [a], _ =>
      have ha := (hall a List.mem_cons_self).1
      have := congrArg List.length hs
      simp [join, List.intercalate, ha, he] at this
    | a :: a' :: as, _ =>
      rw [join_cons_cons] at hs
      obtain ⟨rfl, hs2⟩ := List.append_inj hs (he.trans (hall a List.mem_cons_self).1.symm)
      obtain ⟨hc, hs3⟩ := List.cons.inj hs2
      exact ⟨(hall e List.mem_cons_self).2, hc, _, List.cons_ne_nil _ _, hs3, fun x hx => hall x (List.mem_cons_of_mem _ hx)⟩
  · rintro ⟨hP, rfl, effects, hne, hs, hall⟩
    match effects, hne with
    | a :: as, _ =>
      refine ⟨e :: a :: as, List.cons_ne_nil _ _, by rw [join_cons_cons, hs], fun x hx => ?_⟩
      rcases List.mem_cons.mp hx with rfl | hx
      · exact ⟨he, hP⟩
      · exact hall x hx

/-- A list of one effect is the effect. -/
theorem listOf_single {P : List UInt8 → Prop} {e : List UInt8} (he : e.length = 72) : ListOf P e ↔ P e := by
  constructor
  · rintro ⟨effects, hne, hs, hall⟩
    match effects, hne with
    | [a], _ =>
      obtain rfl : e = a := by simpa [join, List.intercalate] using hs
      exact (hall e List.mem_cons_self).2
    | a :: a' :: as, _ =>
      have ha := (hall a List.mem_cons_self).1
      rw [join_cons_cons] at hs
      have := congrArg List.length hs
      simp [ha, he] at this
  · intro hP
    refine ⟨[e], List.cons_ne_nil _ _, by simp [join, List.intercalate], fun x hx => ?_⟩
    obtain rfl := List.mem_singleton.mp hx
    exact ⟨he, hP⟩

/-- A text of the length of so many effects is a list of them exactly when each stands in its place. -/
theorem listOf_iff {P : List UInt8 → Prop} (hP : ∀ e rest, e.length = 72 → (P (e ++ rest) ↔ P e)) (n : Nat) :
    ∀ {s : List UInt8}, s.length + 1 = 73 * (n + 1) → ((∀ j < n + 1, Stands P s j) ↔ ListOf P s) := by
  induction n with
  | zero =>
    intro s hs
    rw [listOf_single (by omega)]
    constructor
    · exact fun h => (h 0 (by omega)).2
    · intro h j hj
      obtain rfl : j = 0 := by omega
      exact ⟨fun h0 => absurd h0 (lt_irrefl 0), h⟩
  | succ n ih =>
    intro s hs
    obtain ⟨e, c, rest, he, rfl⟩ : ∃ e c rest, e.length = 72 ∧ s = e ++ c :: rest := by
      refine ⟨s.take 72, s[72], s.drop 73, by rw [List.length_take]; omega, ?_⟩
      rw [← List.drop_eq_getElem_cons, List.take_append_drop]
    have hrest : rest.length + 1 = 73 * (n + 1) := by
      rw [List.length_append, List.length_cons] at hs
      omega
    -- the effects behind the first one stand in the rest, one place earlier
    have hstep : ∀ j, Stands P (e ++ c :: rest) (j + 1) ↔ (j = 0 → c = ','.toUInt8) ∧ Stands P rest j := by
      intro j
      have hdrop : (e ++ c :: rest).drop (73 * (j + 1)) = rest.drop (73 * j) := by
        rw [List.drop_append, List.drop_eq_nil_of_le (by omega), List.nil_append,
          show 73 * (j + 1) - e.length = 73 * j + 1 by omega, List.drop_succ_cons]
      have hget : (e ++ c :: rest).getD (73 * (j + 1) - 1) 0 = (c :: rest).getD (73 * j) 0 := by
        rw [List.getD_append_right _ _ _ _ (by omega), show 73 * (j + 1) - 1 - e.length = 73 * j by omega]
      unfold Stands
      rw [hdrop, hget]
      cases j with
      | zero => simp
      | succ j =>
        have : (c :: rest).getD (73 * (j + 1)) 0 = rest.getD (73 * (j + 1) - 1) 0 := rfl
        rw [this]
        simp
    rw [listOf_append he, ← ih hrest, ← hP e (c :: rest) he]
    constructor
    · intro h
      exact ⟨(h 0 (by omega)).2, ((hstep 0).mp (h 1 (by omega))).1 rfl, fun j hj => ((hstep j).mp (h (j + 1) (by omega))).2⟩
    · rintro ⟨h0, hc, hr⟩ j hj
      cases j with
      | zero => exact ⟨fun h0 => absurd h0 (lt_irrefl 0), h0⟩
      | succ j => exact (hstep j).mpr ⟨fun _ => hc, hr j (by omega)⟩

/-- A list of effects has 72 bytes each and the commas between. -/
theorem listOf_length {P : List UInt8 → Prop} {s : List UInt8} (h : ListOf P s) : ∃ n, s.length + 1 = 73 * (n + 1) := by
  obtain ⟨effects, hne, rfl, hall⟩ := h
  induction effects with
  | nil => exact absurd rfl hne
  | cons a as ih =>
    cases as with
    | nil =>
      refine ⟨0, ?_⟩
      simp [join, List.intercalate, (hall a List.mem_cons_self).1]
    | cons a' as =>
      obtain ⟨n, hn⟩ := ih (List.cons_ne_nil _ _) fun e he => hall e (List.mem_cons_of_mem _ he)
      refine ⟨n + 1, ?_⟩
      rw [join_cons_cons, List.length_append, List.length_cons, (hall a List.mem_cons_self).1]
      omega

/-- A list of effects of one kind is one of a wider kind. -/
theorem ListOf.mono {P Q : List UInt8 → Prop} {s : List UInt8} (h : ListOf P s) (hPQ : ∀ e, P e → Q e) : ListOf Q s := by
  obtain ⟨effects, hne, hs, hall⟩ := h
  exact ⟨effects, hne, hs, fun e he => ⟨(hall e he).1, hPQ e (hall e he).2⟩⟩

/-- What is behind an effect does not change its fields. -/
theorem spells_append {e : List UInt8} (rest : List UInt8) {start d : Nat} (h : start + d ≤ e.length) :
    Spells (e ++ rest) start d ↔ Spells e start d := by
  have hget : ∀ k < d, (e ++ rest).getD (start + k) 0 = e.getD (start + k) 0 := fun k hk =>
    List.getD_append _ _ _ _ (by omega)
  exact forall₂_congr fun k hk => by rw [hget k hk]

theorem passes_append (e rest : List UInt8) (he : e.length = 72) : Passes (e ++ rest) ↔ Passes e := by
  have hfits : ∀ f ∈ testedFields, f.1 + f.2 ≤ 72 := by decide
  exact forall₂_congr fun f hf => spells_append rest (by have := hfits f hf; omega)

theorem knownWave_append (e rest : List UInt8) (he : e.length = 72) : KnownWave (e ++ rest) ↔ KnownWave e := by
  unfold KnownWave
  rw [List.getD_append _ _ _ _ (by omega)]

/-- A text that names no built-in sound stays itself. -/
theorem lookupBuiltIn_of_not {sound : ManagedString} (h : ∀ b ∈ builtIns, ascii b.1.toList ≠ sound) :
    lookupBuiltIn sound = sound := by
  unfold lookupBuiltIn
  rw [List.find?_eq_none.mpr fun b hb => by simpa using h b hb]

section
variable {F : Type} [MachineFloat F]

/-- A text that has not the length of a list of effects is not accepted. Where it has, the loop decides. -/
theorem playAsync_eq (random : RandomSource) {sound : SoundString} (h : ∀ b ∈ builtIns, ascii b.1.toList ≠ sound.1) :
    (∀ n, sound.1.length + 1 = 73 * (n + 1) →
      playAsync (F := F) random sound = parseEffects random sound.1 (n + 1) 0 0) ∧
    ((∀ n, sound.1.length + 1 ≠ 73 * (n + 1)) → playAsync (F := F) random sound = none) := by
  have hlen := sound.2
  unfold playAsync
  simp only [lookupBuiltIn_of_not h, charsPerEffect]
  constructor
  · intro n hn
    have hcount : (sound.1.length + 1) % 2 ^ 32 / (72 + 1) = n + 1 := by omega
    rw [hcount, if_neg (by omega)]
  · intro hn
    rw [if_pos]
    intro heq
    rcases hcount : (sound.1.length + 1) % 2 ^ 32 / (72 + 1) with - | n
    · rw [hcount] at heq
      omega
    · rw [hcount] at heq
      exact hn n (by omega)

/-- A sound that is no name is handed over exactly when it is a list of effects that pass the test, whatever the random
numbers are. -/
theorem playAsync_isSome_iff (random : RandomSource) {sound : SoundString}
    (h : ∀ b ∈ builtIns, ascii b.1.toList ≠ sound.1) :
    (playAsync (F := F) random sound).isSome ↔ ListOf Passes sound.1 := by
  obtain ⟨hfits, hnot⟩ := playAsync_eq (F := F) random h
  by_cases hlen : ∃ n, sound.1.length + 1 = 73 * (n + 1)
  · obtain ⟨n, hn⟩ := hlen
    rw [hfits n hn, ← listOf_iff passes_append n hn]
    constructor
    · intro hsome j hj
      by_contra hns
      rw [parseEffects_of_not_stands random sound.1 (n + 1) 0 0 ⟨j, by omega, by omega, hns⟩] at hsome
      exact absurd hsome (by simp)
    · intro hall
      obtain ⟨buffer, hb, -⟩ := parseEffects_of_stands (F := F) random sound.1 (n + 1) 0 0 fun j _ hj => hall j (by omega)
      rw [hb]
      rfl
  · rw [hnot fun n hn => hlen ⟨n, hn⟩]
    exact iff_of_false (by simp) fun hlist => hlen (listOf_length hlist)

/-- With a known wave each effect has a waveform. -/
theorem playAsync_tonePrint (random : RandomSource) {sound : SoundString}
    (h : ∀ b ∈ builtIns, ascii b.1.toList ≠ sound.1) (hs : ListOf (fun e => Passes e ∧ KnownWave e) sound.1)
    {buffer : List (ParsedSoundEffect F)} (hb : playAsync random sound = some buffer) :
    ∀ fx ∈ buffer, fx.tonePrint.isSome := by
  obtain ⟨n, hn⟩ := listOf_length hs
  have hstands := (listOf_iff (fun e rest he => and_congr (passes_append e rest he) (knownWave_append e rest he)) n hn).mpr hs
  obtain ⟨buffer', hb', hmem⟩ := parseEffects_of_stands (F := F) random sound.1 (n + 1) 0 0 fun j _ hj =>
    ⟨(hstands j (by omega)).1, (hstands j (by omega)).2.1⟩
  rw [(playAsync_eq random h).1 n hn, hb'] at hb
  obtain rfl := Option.some.inj hb
  intro fx hfx
  obtain ⟨j, hj, htone⟩ := hmem fx hfx
  rw [htone, tonePrint_isSome_iff]
  exact (hstands j (by omega)).2.2

/-- A sound is handed over exactly when it is a list of effects as they are documented, and then every effect has a
waveform. -/
def FollowsGrammar (F : Type) [MachineFloat F] (random : RandomSource) (sound : SoundString) : Prop :=
  ((playAsync (F := F) random sound).isSome ↔ ListOf IsEffect sound.1) ∧
    ∀ buffer, playAsync (F := F) random sound = some buffer → ∀ fx ∈ buffer, fx.tonePrint.isSome

/-- A sound is treated by the grammar unless it is a list of effects that pass the test, one of which has an unknown wave
or something else than digits in its shape, its steps or its fx choice. -/
theorem followsGrammar_iff (F : Type) [MachineFloat F] (random : RandomSource) (sound : SoundString)
    (h : ∀ b ∈ builtIns, ascii b.1.toList ≠ sound.1) :
    FollowsGrammar F random sound ↔ ∀ effects, effects ≠ [] → sound.1 = join effects →
      (∀ e ∈ effects, e.length = 72 ∧ Passes e) → ∀ e ∈ effects, UntestedRight e := by
  unfold FollowsGrammar
  rw [playAsync_isSome_iff random h]
  constructor
  · rintro ⟨hgrammar, -⟩ effects hne hs hall e he
    obtain ⟨effects', hne', hs', hall'⟩ := hgrammar.mp ⟨effects, hne, hs, hall⟩
    obtain rfl : effects = effects' := join_injective hne hne' (fun e he => (hall e he).1) (fun e he => (hall' e he).1)
      (hs.symm.trans hs')
    exact ((isEffect_iff e).mp (hall' e he).2).2
  · intro hright
    have hgrammar : ListOf Passes sound.1 → ListOf IsEffect sound.1 := by
      rintro ⟨effects, hne, hs, hall⟩
      exact ⟨effects, hne, hs, fun e he =>
        ⟨(hall e he).1, (isEffect_iff e).mpr ⟨(hall e he).2, hright effects hne hs hall e he⟩⟩⟩
    refine ⟨⟨hgrammar, fun hlist => hlist.mono fun e he => ((isEffect_iff e).mp he).1⟩, fun buffer hb => ?_⟩
    have hlist := hgrammar ((playAsync_isSome_iff random h).mp (by rw [hb]; rfl))
    exact playAsync_tonePrint random h (hlist.mono fun e he => ⟨((isEffect_iff e).mp he).1, he.2⟩) hb

end

/-- An effect with random parts for the duration, the parameter and the steps of the fx. -/
def randomEffect : List UInt8 :=
  ascii "405512845385000440044008880000012803010500160000000000000000085000500015".toList

/-- Two effects, none of them zeroes. -/
def twoEffects : List (List UInt8) :=
  [ascii "400002390033100440240408880477000400022400110400000000000000008000000000".toList, randomEffect]

/-- The two effects are handed over, and both are as documented. -/
theorem followsGrammar_twoEffects :
    (∀ b ∈ builtIns, ascii b.1.toList ≠ join twoEffects) ∧
      FollowsGrammar ℚ (fun _ _ => 0) ⟨join twoEffects, by decide +kernel⟩ := by
  have hnames : ∀ b ∈ builtIns, ascii b.1.toList ≠ join twoEffects := by decide +kernel
  have hlength : ∀ e ∈ twoEffects, e.length = 72 := by decide +kernel
  have hright : ∀ e ∈ twoEffects, UntestedRight e := by
    unfold UntestedRight KnownWave
    decide +kernel
  refine ⟨hnames, (followsGrammar_iff ℚ _ _ hnames).mpr fun effects hne hs hall => ?_⟩
  obtain rfl : twoEffects = effects :=
    join_injective (List.cons_ne_nil _ _) hne hlength (fun e he => (hall e he).1) hs
  exact hright

/-- The effect with the wave 9 and otherwise zeroes: it is handed over. -/
theorem followsGrammar_wave_9 :
    ¬ FollowsGrammar ℚ (fun _ _ => 0) ⟨57 :: List.replicate 71 48, by decide⟩ := by
  rintro ⟨h, -⟩
  have hpasses : Passes (57 :: List.replicate 71 48) := by
    unfold Passes
    decide
  have hsome : (playAsync (F := ℚ) (fun _ _ => 0) ⟨57 :: List.replicate 71 48, by decide⟩).isSome :=
    (playAsync_isSome_iff (fun _ _ => 0) (by decide)).mpr ((listOf_single rfl).mpr hpasses)
  have hwave := ((listOf_single rfl).mp (h.mp hsome)).2
  exact absurd hwave (by unfold KnownWave; decide)

end SoundExpressions

end CodalMicrobit
