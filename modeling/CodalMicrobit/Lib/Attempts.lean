/-!
# Attempts in a row

A party that makes attempts one after the other, and gives up at the first that is not answered. Such an attempt may still have
been carried out: only the other side knows. A script says how each attempt comes out.
-/

namespace Attempts

/-- How an attempt comes out: it is carried out and answered, carried out without an answer, or neither. -/
inductive Reply where
  | done
  | unanswered
  | refused
  deriving DecidableEq, Repr

/-- What is to come, attempt by attempt. -/
abbrev Script := Nat → Reply

/-- What is to come after `n` attempts. -/
def after (o : Script) (n : Nat) : Script := fun k => o (n + k)

/-- All of `n` attempts are answered. -/
def answered (o : Script) : Nat → Bool
  | 0 => true
  | n + 1 => o 0 == .done && answered (after o 1) n

/-- How many attempts are made on the way to `n` answers. -/
def issued (o : Script) : Nat → Nat
  | 0 => 0
  | n + 1 => if o 0 = .done then issued (after o 1) n + 1 else 1

/-- How many of these attempts are carried out. -/
def effective (o : Script) : Nat → Nat
  | 0 => 0
  | n + 1 =>
    match o 0 with
    | .done => effective (after o 1) n + 1
    | .unanswered => 1
    | .refused => 0

@[simp] theorem after_zero (o : Script) : after o 0 = o := funext fun k => congrArg o (Nat.zero_add k)

/-- Attempts, one after the other. -/
theorem after_after (o : Script) (m n : Nat) : after (after o m) n = after o (m + n) :=
  funext fun k => congrArg o (Nat.add_assoc m n k).symm

/-- No more attempts take effect than are made. -/
theorem effective_le (o : Script) (n : Nat) : effective o n ≤ n := by
  induction n generalizing o with
  | zero => exact Nat.le_refl _
  | succ n ih =>
    have := ih (after o 1)
    unfold effective
    split <;> omega

/-- When all attempts are answered, each has been made once and carried out. -/
theorem of_answered {o : Script} {n : Nat} (h : answered o n = true) : issued o n = n ∧ effective o n = n := by
  induction n generalizing o with
  | zero => exact ⟨rfl, rfl⟩
  | succ n ih =>
    simp only [answered, Bool.and_eq_true, beq_iff_eq] at h
    obtain ⟨hi, he⟩ := ih h.2
    refine ⟨?_, ?_⟩
    · rw [issued, if_pos h.1, hi]
    · simp only [effective, h.1, he]

/-- Anything at all is carried out exactly when the first attempt is. -/
theorem effective_eq_zero_iff (o : Script) (n : Nat) : effective o n = 0 ↔ n = 0 ∨ o 0 = .refused := by
  cases n with
  | zero => exact iff_of_true rfl (Or.inl rfl)
  | succ n => cases h : o 0 <;> simp [effective, h]

/-- All attempts are answered exactly when each is. -/
theorem answered_iff (o : Script) (n : Nat) : answered o n = true ↔ ∀ k < n, o k = .done := by
  induction n generalizing o with
  | zero => exact iff_of_true rfl nofun
  | succ n ih =>
    rw [answered, Bool.and_eq_true, beq_iff_eq, ih]
    refine ⟨?_, fun h => ⟨h 0 (Nat.succ_pos n), fun k hk => h (1 + k) (by omega)⟩⟩
    rintro ⟨h0, h⟩ k hk
    cases k with
    | zero => exact h0
    | succ k => exact Nat.add_comm k 1 ▸ h k (by omega)

/-- Where every attempt is answered. -/
theorem answered_of_done {o : Script} (h : ∀ k, o k = .done) (n : Nat) : answered o n = true :=
  (answered_iff o n).mpr fun k _ => h k

end Attempts
