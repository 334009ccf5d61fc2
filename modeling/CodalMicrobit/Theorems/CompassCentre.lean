import CodalMicrobit.MicroBitCompassCalibrator
import Mathlib.Tactic.Linarith

/-!
# The centre of the samples

The climb starts at the centre of mass, but its best point is the origin until something better is found. Where nothing near the
centre of mass is better, it moves to the origin with the score of the centre of mass.
-/

namespace CodalMicrobit

open Climb

namespace MicroBitCompassCalibrator

/-- What the centre that is found is meant to be: a point with a score no worse than that of the centre of mass, and no worse
than that of any point next to it. -/
structure Climbed (data : List Sample3D) (c : Sample3D) : Prop where
  start : measureScore data c ≤ measureScore data (centreOfMass data)
  neighbours : ∀ t ∈ neighbours c, measureScore data c ≤ measureScore data t

/-- The condition: some point next to the centre of mass is better than it is, or some point next to the origin is, or the origin
is no worse. -/
def Rises (data : List Sample3D) : Prop :=
  (∃ t ∈ neighbours (centreOfMass data), measureScore data t < measureScore data (centreOfMass data)) ∨
    (∃ t ∈ neighbours ⟨0, 0, 0⟩, measureScore data t < measureScore data (centreOfMass data)) ∨
    measureScore data ⟨0, 0, 0⟩ ≤ measureScore data (centreOfMass data)

instance (data : List Sample3D) : Decidable (Rises data) := inferInstanceAs (Decidable (_ ∨ _ ∨ _))

/-- Two numbers stay in order along a list, if they do at each element. -/
theorem foldl_le_of_step (f : Int × Int → Sample3D → Int × Int) (hf : ∀ d s, d.1 ≤ d.2 → (f d s).1 ≤ (f d s).2) (l : List Sample3D) :
    ∀ d : Int × Int, d.1 ≤ d.2 → (l.foldl f d).1 ≤ (l.foldl f d).2 := by
  induction l with
  | nil => exact fun d h => h
  | cons s l ih => exact fun d h => ih _ (hf d s h)

/-- A score is a difference of two distances, the larger one first. -/
theorem measureScore_nonneg (data : List Sample3D) (c : Sample3D) : 0 ≤ measureScore data c := by
  cases data with
  | nil => exact le_rfl
  | cons s data =>
    refine Int.sub_nonneg_of_le (foldl_le_of_step _ (fun d s h => ?_) data _ le_rfl)
    dsimp only
    split <;> split <;> omega

/-- Scores cannot get better for ever. -/
theorem measureScore_wf (data : List Sample3D) : WellFounded fun a b => measureScore data a < measureScore data b := by
  refine Subrelation.wf (fun {a b} h => ?_) (measure fun c => (measureScore data c).toNat).wf
  have ha := measureScore_nonneg data a
  change (measureScore data a).toNat < (measureScore data b).toNat
  omega

/-- `approximateCentre` comes back. The centre it gives is as it is meant to be exactly under the condition. -/
theorem approximateCentre_climbed_iff (data : List Sample3D) :
    ∃ n c, (∀ fuel, n ≤ fuel → approximateCentre data fuel = some c) ∧ (Climbed data c ↔ Rises data) := by
  have hwf := measureScore_wf data
  suffices h : ∃ c, Ends (measureScore data) neighbours (centreOfMass data) (measureScore data (centreOfMass data), ⟨0, 0, 0⟩) c ∧
      (Climbed data c ↔ Rises data) by
    obtain ⟨c, ⟨n, hn⟩, h⟩ := h
    exact ⟨n, c, hn, h⟩
  rcases foldl_keepBest (measureScore data) (neighbours (centreOfMass data))
    (measureScore data (centreOfMass data), (⟨0, 0, 0⟩ : Sample3D)) with ⟨hfold, hle⟩ | ⟨t, ht, hfold, hlt, -⟩
  · by_cases horigin : (⟨0, 0, 0⟩ : Sample3D) = centreOfMass data
    · refine ⟨_, .stay (by rw [hfold, horigin]), iff_of_true ⟨le_rfl, hle⟩ (Or.inr (Or.inr ?_))⟩
      rw [horigin]
    · -- nothing near the centre of mass is better: the climb moves to the origin
      obtain ⟨r, hr, hcases⟩ := ends_of_score hwf neighbours ⟨0, 0, 0⟩ (measureScore data (centreOfMass data))
      refine ⟨r, .move (by rwa [hfold]) (by rwa [hfold]), ?_⟩
      rcases hcases with ⟨rfl, hnear⟩ | ⟨hbetter, hlt, hmin⟩
      · refine ⟨fun h => Or.inr (Or.inr h.start), ?_⟩
        rintro (⟨t, ht, hlt⟩ | ⟨t, ht, hlt⟩ | h)
        · exact absurd (hle t ht) (not_le.mpr hlt)
        · exact absurd (hnear t ht) (not_le.mpr hlt)
        · exact ⟨h, fun t ht => h.trans (hnear t ht)⟩
      · exact iff_of_true ⟨hlt.le, hmin⟩ (Or.inr (Or.inl hbetter))
  · -- the climb goes on at a better point
    obtain ⟨r, hr, hrt, hmin⟩ := ends_localMin hwf neighbours t
    refine ⟨r, .move ?_ (by rwa [hfold]), iff_of_true ⟨hrt.trans hlt.le, hmin⟩ (Or.inl ⟨t, ht, hlt⟩)⟩
    rw [hfold]
    rintro rfl
    exact lt_irrefl _ hlt

/-- Two samples that are close to each other, and far from the origin. -/
def twoSamples : List Sample3D := [⟨1000, 0, 0⟩, ⟨1002, 0, 0⟩]

/-- The climb leaves the point between them for the origin. -/
theorem approximateCentre_two_samples : approximateCentre twoSamples 2 = some ⟨0, 0, 0⟩ ∧ ¬Climbed twoSamples ⟨0, 0, 0⟩ :=
  ⟨by decide +kernel, fun h => absurd h.start (by decide +kernel)⟩

end MicroBitCompassCalibrator

end CodalMicrobit
