import Mathlib.Order.WellFounded
import Mathlib.Tactic.Common

/-!
# Hill climbing

A climb looks at the places near the one it is at, goes to the best of them as long as that is an improvement, and ends where
none is. It ends if scores cannot get better for ever.
-/

namespace Climb

variable {α β : Type*}

section

variable [LT β] [DecidableLT β]

/-- The best place so far, with its score, when one more place was looked at. -/
def keepBest (score : α → β) (best : β × α) (t : α) : β × α := if score t < best.1 then (score t, t) else best

variable [DecidableEq α]

/-- The loop of a climb: it is at `c`, and `best` is the best place so far. `fuel` bounds the turns. -/
def climb (score : α → β) (near : α → List α) (c : α) (best : β × α) : Nat → Option α
  | 0 => none
  | fuel + 1 =>
    let best := (near c).foldl (keepBest score) best
    if best.2 = c then some c else climb score near best.2 best fuel

end

variable [LinearOrder β] {score : α → β} {near : α → List α}

/-- No place near this one is better. -/
def LocalMin (score : α → β) (near : α → List α) (c : α) : Prop := ∀ t ∈ near c, score c ≤ score t

/-- Either none of the places is better than the best one before, and that is kept, or the best of them is taken. -/
theorem foldl_keepBest (score : α → β) (l : List α) : ∀ best : β × α,
    l.foldl (keepBest score) best = best ∧ (∀ t ∈ l, best.1 ≤ score t) ∨
      ∃ t ∈ l, l.foldl (keepBest score) best = (score t, t) ∧ score t < best.1 ∧ ∀ t' ∈ l, score t ≤ score t' := by
  induction l with
  | nil => exact fun best => Or.inl ⟨rfl, nofun⟩
  | cons a l ih =>
    intro best
    rw [List.foldl_cons, keepBest]
    by_cases ha : score a < best.1
    · rw [if_pos ha]
      rcases ih (score a, a) with ⟨hfold, hle⟩ | ⟨t, ht, hfold, hlt, hle⟩
      · exact Or.inr ⟨a, List.mem_cons_self, hfold, ha, List.forall_mem_cons.mpr ⟨le_rfl, hle⟩⟩
      · exact Or.inr ⟨t, List.mem_cons_of_mem _ ht, hfold, hlt.trans ha, List.forall_mem_cons.mpr ⟨hlt.le, hle⟩⟩
    · rw [if_neg ha]
      rcases ih best with ⟨hfold, hle⟩ | ⟨t, ht, hfold, hlt, hle⟩
      · exact Or.inl ⟨hfold, List.forall_mem_cons.mpr ⟨not_lt.mp ha, hle⟩⟩
      · exact Or.inr ⟨t, List.mem_cons_of_mem _ ht, hfold, hlt, List.forall_mem_cons.mpr ⟨hlt.le.trans (not_lt.mp ha), hle⟩⟩

variable [DecidableEq α]

/-- The climb ends at this place, after so many turns at most. -/
def Ends (score : α → β) (near : α → List α) (c : α) (best : β × α) (r : α) : Prop :=
  ∃ n, ∀ fuel, n ≤ fuel → climb score near c best fuel = some r

/-- A turn that stays where it is. -/
theorem Ends.stay {c : α} {best : β × α} (h : ((near c).foldl (keepBest score) best).2 = c) : Ends score near c best c := by
  refine ⟨1, fun fuel hfuel => ?_⟩
  obtain ⟨fuel, rfl⟩ := Nat.exists_eq_add_of_le' hfuel
  rw [climb, if_pos h]

/-- A turn that moves on. -/
theorem Ends.move {c r : α} {best : β × α} (h : ((near c).foldl (keepBest score) best).2 ≠ c)
    (hr : Ends score near ((near c).foldl (keepBest score) best).2 ((near c).foldl (keepBest score) best) r) :
    Ends score near c best r := by
  obtain ⟨n, hn⟩ := hr
  refine ⟨n + 1, fun fuel hfuel => ?_⟩
  obtain ⟨fuel, rfl⟩ := Nat.exists_eq_add_of_le' (Nat.le_of_add_left_le hfuel)
  rw [climb, if_neg h]
  exact hn fuel (by omega)

variable (hwf : WellFounded fun a b : α => score a < score b)
include hwf

/-- A climb that starts with its own score ends at a place that is no worse, and than which no place nearby is better. -/
theorem ends_localMin (near : α → List α) (c : α) : ∃ r, Ends score near c (score c, c) r ∧ score r ≤ score c ∧ LocalMin score near r := by
  induction c using hwf.induction with
  | _ c ih =>
    rcases foldl_keepBest score (near c) (score c, c) with ⟨hfold, hle⟩ | ⟨t, -, hfold, hlt, -⟩
    · exact ⟨c, .stay (by rw [hfold]), le_rfl, hle⟩
    · obtain ⟨r, hr, hle, hmin⟩ := ih t hlt
      refine ⟨r, .move ?_ (by rwa [hfold]), hle.trans hlt.le, hmin⟩
      rw [hfold]
      rintro rfl
      exact lt_irrefl _ hlt

/-- A climb that starts with any score stays where it is if nothing nearby is better than that score. Otherwise it ends at a
place that is better than the score, and than which no place nearby is better. -/
theorem ends_of_score (near : α → List α) (c : α) (s : β) : ∃ r, Ends score near c (s, c) r ∧
    (r = c ∧ (∀ t ∈ near c, s ≤ score t) ∨ (∃ t ∈ near c, score t < s) ∧ score r < s ∧ LocalMin score near r) := by
  rcases foldl_keepBest score (near c) (s, c) with ⟨hfold, hle⟩ | ⟨t, ht, hfold, hlt, hle⟩
  · exact ⟨c, .stay (by rw [hfold]), Or.inl ⟨rfl, hle⟩⟩
  · by_cases htc : t = c
    · subst htc
      exact ⟨t, .stay (by rw [hfold]), Or.inr ⟨⟨t, ht, hlt⟩, hlt, hle⟩⟩
    · obtain ⟨r, hr, hrt, hmin⟩ := ends_localMin hwf near t
      exact ⟨r, .move (by rwa [hfold]) (by rwa [hfold]), Or.inr ⟨⟨t, ht, hlt⟩, hrt.trans_lt hlt, hmin⟩⟩

/-- Every climb ends. -/
theorem ends (near : α → List α) (c : α) (best : β × α) : ∃ r, Ends score near c best r := by
  by_cases h : ((near c).foldl (keepBest score) best).2 = c
  · exact ⟨c, .stay h⟩
  · obtain ⟨r, hr, -⟩ := ends_of_score hwf near _ ((near c).foldl (keepBest score) best).1
    exact ⟨r, .move h hr⟩

end Climb
