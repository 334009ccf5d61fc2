import CodalMicrobit.Lib.SquareRoots
import CodalMicrobit.Theorems.CompassCentre

/-!
# The scale of the axes

`spherify` divides by the distance of each sample from the centre, and by the magnitude of the weights. The weights are sums of
square roots. They cancel out only if all samples are at one distance from the centre, and that distance is a whole number.
-/

namespace CodalMicrobit

open Climb

namespace MicroBitCompassCalibrator

/-! ## Distances -/

/-- The square of the distance, as a natural number. -/
def square (c s : Sample3D) : ℕ := (c.dSquared s).toNat

/-- The parts of the distance along the axes. -/
def axes (c : Sample3D) : List (Sample3D → Int) := [fun s => s.x - c.x, fun s => s.y - c.y, fun s => s.z - c.z]

variable {c s : Sample3D} {data : List Sample3D}

/-- The sum of squares in `int` is the squared distance. -/
theorem square_cast (c s : Sample3D) : (square c s : Int) = c.dSquared s := by
  refine Int.toNat_of_nonneg ?_
  unfold Sample3D.dSquared
  positivity

/-- The distance is the root of the sum of squares. -/
theorem distance_eq (c s : Sample3D) : distance c s = √(square c s : ℝ) := by
  rw [distance, ← square_cast, Int.cast_natCast]

/-- Another point has a distance along some axis. -/
theorem exists_axis (h : s ≠ c) : ∃ δ ∈ axes c, δ s ≠ 0 := by
  by_contra hall
  simp only [axes, List.mem_cons, List.not_mem_nil, or_false, exists_eq_or_imp, exists_eq_left, not_or, ne_eq, not_not] at hall
  obtain ⟨hx, hy, hz⟩ := hall
  apply h
  cases s
  cases c
  simp only [Sample3D.mk.injEq]
  dsimp only at hx hy hz
  omega

/-- No part of a distance is larger than the distance. -/
theorem sq_le_square {δ : Sample3D → Int} (hδ : δ ∈ axes c) (s : Sample3D) : δ s ^ 2 ≤ square c s := by
  have hx := sq_nonneg (c.x - s.x)
  have hy := sq_nonneg (c.y - s.y)
  have hz := sq_nonneg (c.z - s.z)
  simp only [axes, List.mem_cons, List.not_mem_nil, or_false] at hδ
  rw [square_cast, Sample3D.dSquared]
  rcases hδ with rfl | rfl | rfl
  · rw [sub_sq_comm]
    linarith
  · rw [sub_sq_comm]
    linarith
  · rw [sub_sq_comm]
    linarith

/-- Only a point itself is at distance zero. -/
theorem square_eq_zero_iff : square c s = 0 ↔ s = c := by
  refine ⟨fun h => ?_, ?_⟩
  · by_contra hne
    obtain ⟨δ, hδ, hδs⟩ := exists_axis hne
    have hle := sq_le_square hδ s
    rw [h] at hle
    exact absurd hle (not_le.mpr (sq_pos_of_ne_zero hδs))
  · rintro rfl
    rw [← Int.natCast_eq_zero, square_cast, Sample3D.dSquared]
    simp

/-- Other points are at a distance. -/
theorem distance_ne_zero_iff : distance c s ≠ 0 ↔ s ≠ c := by
  rw [distance_eq, Ne, Real.sqrt_eq_zero (Nat.cast_nonneg _), Nat.cast_eq_zero, square_eq_zero_iff]

/-- The truncated distance is the integer root. -/
theorem truncate_distance (c s : Sample3D) : truncate (distance c s) = (square c s).sqrt := by
  rw [distance_eq, truncate, if_pos (Real.sqrt_nonneg _), Real.floor_real_sqrt_eq_nat_sqrt]

/-- The radius is the largest of the distances, cut off. -/
theorem enclosingRadius_spec (c : Sample3D) (data : List Sample3D) :
    (∀ s ∈ data, (square c s).sqrt ≤ enclosingRadius c data) ∧
      (enclosingRadius c data = 0 ∨ ∃ s ∈ data, enclosingRadius c data = (square c s).sqrt) := by
  -- the radius so far is never lowered
  suffices h : ∀ (data : List Sample3D) (r : Int), let r' := data.foldl (fun radius s =>
      if truncate (distance c s) > radius then truncate (distance c s) else radius) r
      r ≤ r' ∧ (∀ s ∈ data, (square c s).sqrt ≤ r') ∧ (r' = r ∨ ∃ s ∈ data, r' = (square c s).sqrt) from (h data 0).2
  intro data
  induction data with
  | nil => exact fun r => ⟨le_rfl, nofun, Or.inl rfl⟩
  | cons s data ih =>
    intro r
    rw [List.foldl_cons, truncate_distance]
    obtain ⟨hle, hall, hfrom⟩ := ih (if ((square c s).sqrt : Int) > r then ((square c s).sqrt : Int) else r)
    refine ⟨le_trans ?_ hle, List.forall_mem_cons.mpr ⟨le_trans ?_ hle, hall⟩, ?_⟩
    · split <;> omega
    · split <;> omega
    · rcases hfrom with hfrom | ⟨t, ht, hfrom⟩
      · rw [hfrom]
        split
        · exact Or.inr ⟨s, List.mem_cons_self, rfl⟩
        · exact Or.inl rfl
      · exact Or.inr ⟨t, List.mem_cons_of_mem _ ht, hfrom⟩

/-! ## Weights -/

/-- What a sample adds to the weight of an axis: the square of its distance is `k`, and `δ` the part along the axis. -/
noncomputable def weight (radius : Int) (k : ℕ) (δ : Int) : ℝ := (radius / √(k : ℝ) - 1) * |(δ : ℝ) / √(k : ℝ)|

/-- A weight has a rational part, and one that is a multiple of the root. -/
theorem weight_eq {k : ℕ} (hk : k ≠ 0) (radius δ : Int) :
    weight radius k δ = ((radius * |δ| / k : ℚ) : ℝ) - ((|δ| / k : ℚ) : ℝ) * √(k : ℝ) := by
  have hpos : 0 < √(k : ℝ) := Real.sqrt_pos.mpr (Nat.cast_pos.mpr (Nat.pos_of_ne_zero hk))
  have hsq := Real.mul_self_sqrt (k.cast_nonneg (α := ℝ))
  have hcast : ((radius * |δ| / k : ℚ) : ℝ) = radius * |(δ : ℝ)| / k ∧ ((|δ| / k : ℚ) : ℝ) = |(δ : ℝ)| / k := by
    push_cast
    exact ⟨rfl, rfl⟩
  rw [hcast.1, hcast.2, weight, abs_div, abs_of_pos hpos]
  generalize √(k : ℝ) = r at hpos hsq ⊢
  rw [← hsq]
  field_simp

/-- If the weights of an axis cancel out, all distances with a part along the axis are whole numbers. -/
theorem isSquare_of_weights {radius : Int} {δ : Sample3D → Int} (hne : ∀ s ∈ data, s ≠ c)
    (h : (data.map fun s => weight radius (square c s) (δ s)).sum = 0) : ∀ s ∈ data, δ s ≠ 0 → IsSquare (square c s) := by
  have hsum : (data.map fun s => ((|δ s| / square c s : ℚ) : ℝ) * √(square c s : ℝ)).sum =
      ((data.map fun s => (radius * |δ s| / square c s : ℚ)).sum : ℚ) := by
    rw [Rat.cast_list_sum, List.map_map, ← zero_add (List.sum _), ← h, ← List.sum_map_add]
    refine congrArg List.sum (List.map_congr_left fun s hs => ?_)
    rw [weight_eq fun h0 => hne s hs (square_eq_zero_iff.mp h0), sub_add_cancel]
    rfl
  intro s hs hδs
  refine SquareRoots.isSquare_of_sum _ _ data (fun s _ => by positivity) hsum s hs ?_
  have hk : square c s ≠ 0 := fun h0 => hne s hs (square_eq_zero_iff.mp h0)
  positivity

/-- With whole distances the weights are those of points inside of the sphere, and add up to nothing only if all are on it. -/
theorem sqrt_eq_of_weights {radius : Int} {δ : Sample3D → Int} (hne : ∀ s ∈ data, s ≠ c)
    (hsquare : ∀ s ∈ data, IsSquare (square c s)) (hle : ∀ s ∈ data, (square c s).sqrt ≤ radius)
    (h : (data.map fun s => weight radius (square c s) (δ s)).sum = 0) :
    ∀ s ∈ data, δ s ≠ 0 → (square c s).sqrt = radius := by
  have hroot : ∀ s ∈ data, √(square c s : ℝ) = (square c s).sqrt ∧ (0 : ℝ) < (square c s).sqrt := fun s hs => by
    obtain ⟨m, hm⟩ := hsquare s hs
    have hm0 : m ≠ 0 := by
      rintro rfl
      exact hne s hs (square_eq_zero_iff.mp hm)
    rw [hm, Nat.sqrt_eq, Nat.cast_mul, Real.sqrt_mul_self m.cast_nonneg]
    exact ⟨rfl, Nat.cast_pos.mpr (Nat.pos_of_ne_zero hm0)⟩
  have hfactor : ∀ s ∈ data, (0 : ℝ) ≤ radius / √(square c s : ℝ) - 1 := fun s hs => by
    obtain ⟨hr, hpos⟩ := hroot s hs
    rw [hr, sub_nonneg, one_le_div hpos]
    exact_mod_cast hle s hs
  intro s hs hδs
  by_contra hlt
  obtain ⟨hr, hpos⟩ := hroot s hs
  have hsum : 0 < (data.map fun s => weight radius (square c s) (δ s)).sum := by
    have := List.sum_lt_sum (l := data) (fun _ => (0 : ℝ)) (fun s => weight radius (square c s) (δ s))
      (fun t ht => mul_nonneg (hfactor t ht) (abs_nonneg _)) ⟨s, hs, mul_pos ?_ ?_⟩
    · rwa [List.map_const', List.sum_replicate, smul_zero] at this
    · rw [hr, sub_pos, one_lt_div hpos]
      exact_mod_cast lt_of_le_of_ne (hle s hs) hlt
    · rw [hr]
      exact abs_pos.mpr (div_ne_zero (Int.cast_ne_zero.mpr hδs) hpos.ne')
  rw [h] at hsum
  exact lt_irrefl _ hsum

/-- The weights of all axes cancel out exactly if all samples are at the same whole distance from the centre. -/
theorem weights_eq_zero_iff (hne : ∀ s ∈ data, s ≠ c) :
    (∀ δ ∈ axes c, (data.map fun s => weight (enclosingRadius c data) (square c s) (δ s)).sum = 0) ↔
      ∃ m : ℕ, ∀ s ∈ data, square c s = m ^ 2 := by
  obtain ⟨hle, hfrom⟩ := enclosingRadius_spec c data
  refine ⟨fun h => ?_, ?_⟩
  · have hsquare : ∀ s ∈ data, IsSquare (square c s) := fun s hs => by
      obtain ⟨δ, hδ, hδs⟩ := exists_axis (hne s hs)
      exact isSquare_of_weights hne (h δ hδ) s hs hδs
    refine ⟨(enclosingRadius c data).toNat, fun s hs => ?_⟩
    obtain ⟨δ, hδ, hδs⟩ := exists_axis (hne s hs)
    rw [← sqrt_eq_of_weights hne hsquare hle (h δ hδ) s hs hδs]
    obtain ⟨m, hm⟩ := hsquare s hs
    rw [hm, Nat.sqrt_eq, Int.toNat_natCast, pow_two]
  · rintro ⟨m, hm⟩ δ -
    refine List.sum_eq_zero fun w hw => ?_
    obtain ⟨s, hs, rfl⟩ := List.mem_map.mp hw
    have hm0 : m ≠ 0 := by
      rintro rfl
      exact hne s hs (square_eq_zero_iff.mp (hm s hs))
    have hradius : enclosingRadius c data = m := by
      have hms := hle s hs
      rw [hm s hs, Nat.sqrt_eq'] at hms
      rcases hfrom with h0 | ⟨t, ht, hfrom⟩
      · omega
      · rw [hfrom, hm t ht, Nat.sqrt_eq']
    rw [weight, hradius, hm s hs, Nat.cast_pow, Real.sqrt_sq m.cast_nonneg, Int.cast_natCast,
      div_self (Nat.cast_ne_zero.mpr hm0), sub_self, zero_mul]

/-! ## The divisions -/

/-- Division by a number that is not zero. -/
theorem divide_of_ne (a : ℝ) {b : ℝ} (h : b ≠ 0) : divide a b = some (a / b) := if_neg h

theorem divide_zero (a : ℝ) : divide a 0 = none := if_pos rfl

/-- A turn of the second loop divides by the distance of the sample. -/
theorem addWeight_eq (radius : Int) (w : Weights) (h : s ≠ c) : ∃ scale, addWeight c radius w s =
    some ⟨scale, w.x + weight radius (square c s) (s.x - c.x), w.y + weight radius (square c s) (s.y - c.y),
      w.z + weight radius (square c s) (s.z - c.z)⟩ := by
  have hd := distance_ne_zero_iff.mpr h
  refine ⟨max w.scale (radius / distance c s - 1), ?_⟩
  simp only [addWeight, divide_of_ne _ hd, weight, ← distance_eq, Int.cast_sub]
  rfl

theorem addWeight_self (radius : Int) (w : Weights) : addWeight c radius w c = none := by
  have hd : distance c c = 0 := not_not.mp fun h => distance_ne_zero_iff.mp h rfl
  simp only [addWeight, hd, divide_zero]
  rfl

/-- The second loop adds up the weights of all samples, if none is the centre. -/
theorem foldlM_addWeight (radius : Int) (data : List Sample3D) : ∀ w : Weights, (∀ s ∈ data, s ≠ c) →
    ∃ scale, data.foldlM (addWeight c radius) w =
      some ⟨scale, w.x + (data.map fun s => weight radius (square c s) (s.x - c.x)).sum,
        w.y + (data.map fun s => weight radius (square c s) (s.y - c.y)).sum,
        w.z + (data.map fun s => weight radius (square c s) (s.z - c.z)).sum⟩ := by
  induction data with
  | nil =>
    intro w _
    refine ⟨w.scale, ?_⟩
    simp only [List.map_nil, List.sum_nil, add_zero]
    rfl
  | cons s data ih =>
    intro w hne
    rw [List.forall_mem_cons] at hne
    obtain ⟨scale, hturn⟩ := addWeight_eq radius w hne.1
    obtain ⟨scale', hrest⟩ := ih ⟨scale, _, _, _⟩ hne.2
    refine ⟨scale', ?_⟩
    rw [List.foldlM_cons, hturn]
    refine hrest.trans ?_
    simp only [List.map_cons, List.sum_cons, add_assoc]

/-- With a sample in the centre, the weights have no result. -/
theorem foldlM_of_mem (radius : Int) (data : List Sample3D) : ∀ w : Weights, c ∈ data →
    data.foldlM (addWeight c radius) w = none := by
  induction data with
  | nil => exact fun _ h => nomatch h
  | cons s data ih =>
    intro w hmem
    rw [List.foldlM_cons]
    by_cases hs : s = c
    · rw [hs, addWeight_self]
      rfl
    · obtain ⟨scale, hturn⟩ := addWeight_eq radius w hs
      rw [hturn]
      exact ih _ ((List.mem_cons.mp hmem).resolve_left (Ne.symm hs))

/-- The magnitude of three numbers is zero only if all of them are. -/
theorem magnitude_eq_zero_iff (x y z : ℝ) : √(x * x + y * y + z * z) = 0 ↔ x = 0 ∧ y = 0 ∧ z = 0 := by
  have hx := mul_self_nonneg x
  have hy := mul_self_nonneg y
  have hz := mul_self_nonneg z
  rw [Real.sqrt_eq_zero (by positivity), add_eq_zero_iff_of_nonneg (by positivity) hz, add_eq_zero_iff_of_nonneg hx hy,
    mul_self_eq_zero, mul_self_eq_zero, mul_self_eq_zero, and_assoc]

/-- `spherify` never divides by zero exactly if no sample is the centre, and the samples are not all at the same whole distance
from it. -/
theorem spherify_isSome_iff (c : Sample3D) (data : List Sample3D) : (spherify c data).isSome ↔
    (∀ s ∈ data, s ≠ c) ∧ ¬∃ m : ℕ, ∀ s ∈ data, c.dSquared s = m ^ 2 := by
  have hsquare : (∃ m : ℕ, ∀ s ∈ data, c.dSquared s = m ^ 2) ↔ ∃ m : ℕ, ∀ s ∈ data, square c s = m ^ 2 := by
    simp only [← square_cast]
    exact_mod_cast Iff.rfl
  rw [hsquare]
  by_cases hne : ∀ s ∈ data, s ≠ c
  · rw [← weights_eq_zero_iff hne, spherify]
    obtain ⟨scale, hloop⟩ := foldlM_addWeight (enclosingRadius c data) data {} hne
    dsimp only
    rw [hloop]
    simp only [axes, List.forall_mem_cons, List.not_mem_nil, false_implies, implies_true, and_true, zero_add]
    rw [← magnitude_eq_zero_iff]
    generalize (data.map fun s => weight _ (square c s) (s.x - c.x)).sum = x
    generalize (data.map fun s => weight _ (square c s) (s.y - c.y)).sum = y
    generalize (data.map fun s => weight _ (square c s) (s.z - c.z)).sum = z
    by_cases hmag : √(x * x + y * y + z * z) = 0
    · refine iff_of_false ?_ fun h => h.2 hmag
      simp only [Option.bind_eq_bind, Option.bind_some, hmag, divide_zero]
      exact Bool.false_ne_true
    · refine iff_of_true ?_ ⟨hne, hmag⟩
      simp only [Option.bind_eq_bind, Option.bind_some, divide_of_ne _ hmag]
      rfl
  · refine iff_of_false ?_ fun h => hne h.1
    have hmem : c ∈ data := by
      simpa using hne
    rw [spherify]
    dsimp only
    rw [foldlM_of_mem _ _ _ hmem]
    exact Bool.false_ne_true

/-- `calibrate` comes back. It never divides by zero exactly if no sample is the centre that `approximateCentre` gives, and the
samples are not all at the same whole distance from it. -/
theorem calibrate_divides_iff (data : List Sample3D) : ∃ n c, ∀ fuel, n ≤ fuel → approximateCentre data fuel = some c ∧
    ((∃ r, calibrate data fuel = some (some r)) ↔
      (∀ s ∈ data, s ≠ c) ∧ ¬∃ m : ℕ, ∀ s ∈ data, c.dSquared s = m ^ 2) := by
  obtain ⟨c, n, hn⟩ := ends (measureScore_wf data) neighbours (centreOfMass data)
    (measureScore data (centreOfMass data), ⟨0, 0, 0⟩)
  refine ⟨n, c, fun fuel hfuel => ?_⟩
  have hc : approximateCentre data fuel = some c := hn fuel hfuel
  rw [← spherify_isSome_iff, calibrate, hc, Option.map_some, Option.isSome_iff_exists]
  simp only [Option.some.injEq, true_and]

/-- Twelve samples at a distance of 300 from the origin. -/
def sphere : List Sample3D :=
  [⟨300, 0, 0⟩, ⟨-300, 0, 0⟩, ⟨0, 300, 0⟩, ⟨0, -300, 0⟩, ⟨0, 0, 300⟩, ⟨0, 0, -300⟩, ⟨180, 240, 0⟩, ⟨-180, -240, 0⟩,
    ⟨0, 180, 240⟩, ⟨0, -180, -240⟩, ⟨240, 0, 180⟩, ⟨-240, 0, -180⟩]

/-- The magnitude of the weights is zero. -/
theorem calibrate_sphere : calibrate sphere 1 = some none := by
  have hc : approximateCentre sphere 1 = some ⟨0, 0, 0⟩ := by decide +kernel
  have hnone : ¬(spherify ⟨0, 0, 0⟩ sphere).isSome := fun h =>
    ((spherify_isSome_iff _ _).mp h).2 ⟨300, by decide⟩
  rw [calibrate, hc, Option.map_some, Option.not_isSome_iff_eq_none.mp hnone]

end MicroBitCompassCalibrator

end CodalMicrobit
