/-!
# Programs that return or fail

A step of a program is an `Except`: it returns a value, or it ends in a fault. `Meets P E` says that `P` holds of the
value it returns, or `E` of the fault it ends in; the rules below follow the way such steps are put together.
-/

namespace Outcome

variable {ε α β : Type _}

/-- The program returns a value of which `P` holds, or ends in a fault of which `E` holds. -/
def Meets (P : α → Prop) (E : ε → Prop) : Except ε α → Prop
  | .ok a => P a
  | .error e => E e

/-- A result meets what is asked of results. -/
@[simp] theorem meets_ok {P : α → Prop} {E : ε → Prop} {a : α} : Meets P E (.ok a) ↔ P a := Iff.rfl

/-- A fault meets what is asked of faults. -/
@[simp] theorem meets_error {P : α → Prop} {E : ε → Prop} {e : ε} : Meets P E (.error e) ↔ E e := Iff.rfl

/-- Less may be asked of the result. -/
theorem Meets.imp {P Q : α → Prop} {E : ε → Prop} {x : Except ε α} (h : Meets P E x) (hpq : ∀ a, P a → Q a) :
    Meets Q E x := by
  cases x with
  | ok a => exact hpq a h
  | error e => exact h

/-- One step after another: the second one may rely on what the first one returns. -/
theorem Meets.bind {P : α → Prop} {Q : β → Prop} {E : ε → Prop} {x : Except ε α} {f : α → Except ε β}
    (h : Meets P E x) (hf : ∀ a, P a → Meets Q E (f a)) : Meets Q E (x >>= f) := by
  cases x with
  | ok a => exact hf a h
  | error e => exact h

/-- What is known of the result there is. -/
theorem Meets.of_ok {P : α → Prop} {E : ε → Prop} {x : Except ε α} {a : α} (h : Meets P E x) (hx : x = .ok a) :
    P a := by
  rw [hx] at h
  exact h

/-- What is known of the fault there is. -/
theorem Meets.of_error {P : α → Prop} {E : ε → Prop} {x : Except ε α} {e : ε} (h : Meets P E x)
    (hx : x = .error e) : E e := by
  rw [hx] at h
  exact h

/-- What is asked of every result is asked of the one there is. -/
theorem forall_ok_iff {x : Except ε α} {P : α → Prop} {a : α} (hx : x = .ok a) : (∀ b, x = .ok b → P b) ↔ P a := by
  rw [hx]
  exact ⟨fun h => h a rfl, fun h b hb => Except.ok.inj hb ▸ h⟩

/-- What is asked of the result of a program that can be run is decided by running it. -/
instance decidableOfOk {x : Except ε α} {P : α → Prop} [DecidablePred P] : Decidable (∀ a, x = .ok a → P a) :=
  match x with
  | .ok a => decidable_of_iff (P a) (forall_ok_iff rfl).symm
  | .error _ => isTrue nofun

/-- The same of a program that returns a pair. -/
instance decidableOfOkPair {x : Except ε (α × β)} {P : α → β → Prop} [∀ a b, Decidable (P a b)] :
    Decidable (∀ a b, x = .ok (a, b) → P a b) :=
  decidable_of_iff (∀ r, x = .ok r → P r.1 r.2) ⟨fun h a b => h (a, b), fun h r => h r.1 r.2⟩

/-- A sequence returns exactly when each part does. -/
theorem bind_eq_ok {x : Except ε α} {f : α → Except ε β} {b : β} :
    (x >>= f) = .ok b ↔ ∃ a, x = .ok a ∧ f a = .ok b := by
  cases x with
  | ok a =>
    refine ⟨fun h => ⟨a, rfl, h⟩, ?_⟩
    rintro ⟨a', h, hf⟩
    cases h
    exact hf
  | error e =>
    refine ⟨nofun, ?_⟩
    rintro ⟨a', h, -⟩
    nomatch h

end Outcome
