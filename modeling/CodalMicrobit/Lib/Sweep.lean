import Mathlib.Data.Int.CardIntervalMod
import Mathlib.Data.List.Range

/-!
# Sweeps

A loop whose turns `0` to `n - 1` each write cells of their own, and a counter that goes around: each of the two reaches every index
exactly once.
-/

namespace Sweep

section

variable {σ : Type*} {f : σ → Nat → σ} {n : Nat}

theorem foldl_range_succ (f : σ → Nat → σ) (s : σ) (n : Nat) :
    (List.range (n + 1)).foldl f s = f ((List.range n).foldl f s) n := by
  rw [List.range_succ, List.foldl_append, List.foldl_cons, List.foldl_nil]

/-- What every turn keeps holds after the loop. -/
theorem keeps {I : σ → Prop} (hI : ∀ s, ∀ k < n, I s → I (f s k)) {s : σ} (h : I s) : I ((List.range n).foldl f s) := by
  induction n with
  | zero => exact h
  | succ n ih =>
    rw [foldl_range_succ]
    exact hI _ n (Nat.lt_succ_self n) (ih fun s k hk => hI s k (Nat.lt_succ_of_lt hk))

/-- What the turn `k` brings about, and no other turn undoes, holds after the loop for every `k`. -/
theorem reaches {I : σ → Prop} {P : Nat → σ → Prop} (hI : ∀ s, ∀ k < n, I s → I (f s k))
    (hset : ∀ s, ∀ k < n, I s → P k (f s k)) (hkeep : ∀ s, ∀ j < n, ∀ k < n, k ≠ j → P k s → P k (f s j)) {s : σ}
    (h : I s) : ∀ k < n, P k ((List.range n).foldl f s) := by
  induction n with
  | zero => exact fun k hk => absurd hk (Nat.not_lt_zero k)
  | succ n ih =>
    intro k hk
    have hsub : ∀ {j}, j < n → j < n + 1 := Nat.lt_succ_of_lt
    rw [foldl_range_succ]
    by_cases hkn : k = n
    · rw [hkn]
      exact hset _ n (Nat.lt_succ_self n) (keeps (fun s k hk => hI s k (hsub hk)) h)
    · refine hkeep _ n (Nat.lt_succ_self n) k hk hkn ?_
      exact ih (fun s k hk => hI s k (hsub hk)) (fun s k hk => hset s k (hsub hk))
        (fun s j hj k hk => hkeep s j (hsub hj) k (hsub hk)) k (by omega)

end

/-- A counter that goes around comes to every place once in a round. -/
theorem count_round (k : Nat) {j n : Nat} (hj : j < n) : Nat.count (fun i => (k + i) % n = j) n = 1 := by
  have hfirst : Nat.count (fun i => i % n = j) n = 1 := by
    have h := Nat.count_modEq_card n (Nat.zero_lt_of_lt hj) j
    rw [Nat.div_self (Nat.zero_lt_of_lt hj), Nat.mod_self, if_neg (Nat.not_lt_zero _)] at h
    refine Eq.trans ?_ h
    congr 1
    funext i
    rw [Nat.ModEq, Nat.mod_eq_of_lt hj]
  have hsplit := Nat.count_add (fun i => i % n = j) k n
  have hsplit' := Nat.count_add (fun i => i % n = j) n k
  simp only [Nat.add_mod_left] at hsplit'
  rw [Nat.add_comm n k, hsplit] at hsplit'
  omega

end Sweep
