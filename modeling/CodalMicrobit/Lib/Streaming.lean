import Mathlib.Logic.Basic

/-!
# Machines that give out a stream

A machine makes one move after the other until there is none left, and every move gives out some items. What it gives out up to
its end does not depend on the places where it is stopped in between and taken up again.
-/

namespace Streaming

variable {σ ε : Type*} {move : σ → Option (List ε × σ)} {s t u : σ} {out out' : List ε}

/-- The machine comes from a state to another one and gives out these items. -/
inductive Runs (move : σ → Option (List ε × σ)) : σ → List ε → σ → Prop
  | refl (s : σ) : Runs move s [] s
  | move {s t u : σ} {out out' : List ε} (h : move s = some (out, t)) (h' : Runs move t out' u) :
    Runs move s (out ++ out') u

/-- One move. -/
theorem Runs.one (h : move s = some (out, t)) : Runs move s out t := by
  have := Runs.move h (.refl t)
  rwa [List.append_nil] at this

theorem Runs.trans (h : Runs move s out t) (h' : Runs move t out' u) : Runs move s (out ++ out') u := by
  induction h with
  | refl s => exact h'
  | move h _ ih =>
    rw [List.append_assoc]
    exact .move h (ih h')

/-- A machine has one run to its end. -/
theorem Runs.unique (h : Runs move s out t) (ht : move t = none) (h' : Runs move s out' u) (hu : move u = none) :
    out = out' ∧ t = u := by
  induction h generalizing out' with
  | refl s =>
    cases h' with
    | refl _ => exact ⟨rfl, rfl⟩
    | move h _ => exact absurd (ht.symm.trans h) nofun
  | move h _ ih =>
    cases h' with
    | refl _ => exact absurd (hu.symm.trans h) nofun
    | move h₁ h₁' =>
      obtain ⟨rfl, rfl⟩ := Prod.mk.inj (Option.some.inj (h.symm.trans h₁))
      obtain ⟨rfl, rfl⟩ := ih ht h₁'
      exact ⟨rfl, rfl⟩

/-- What every move keeps, of what has been given out and of the state. -/
theorem Runs.keeps {P : List ε → σ → Prop}
    (hmove : ∀ out s out' t, P out s → move s = some (out', t) → P (out ++ out') t) {before : List ε} (h : Runs move s out t)
    (hs : P before s) : P (before ++ out) t := by
  induction h generalizing before with
  | refl s => rwa [List.append_nil]
  | move h _ ih =>
    rw [← List.append_assoc]
    exact ih (hmove _ _ _ _ hs h)

/-- A part of the state that the moves neither use nor change. -/
theorem Runs.map {f : σ → σ} (hf : ∀ s, move (f s) = (move s).map (Prod.map id f)) (h : Runs move s out t) :
    Runs move (f s) out (f t) := by
  induction h with
  | refl s => exact .refl (f s)
  | move h _ ih => exact .move (by rw [hf, h]; rfl) ih

end Streaming
