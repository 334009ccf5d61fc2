import Mathlib.Data.List.Forall2
import Mathlib.Logic.Function.Basic

/-!
# Broadcasts

A medium that carries the messages of some stations to the others. A message goes into the receiver of every station that
hears it, where it stays until the station takes it or it is lost; a receiver holds one message. So what a station takes is a
part of what was sent, in the order of sending and nothing twice.
-/

namespace Broadcast

/-- The messages sent, the number of the one in each receiver, and the numbers of those that each station has taken. -/
structure Medium (ι α : Type*) where
  sent : List α := []
  receiver : ι → Option Nat := fun _ => none
  taken : ι → List Nat := fun _ => []

namespace Medium

variable {ι α : Type*}

/-- A message goes out, to the free receivers that hear it. -/
def send (m : Medium ι α) (a : α) (hears : ι → Bool) : Medium ι α :=
  { m with
    sent := m.sent ++ [a]
    receiver := fun i => if (m.receiver i).isNone && hears i then some m.sent.length else m.receiver i }

section

variable [DecidableEq ι]

/-- What is in a receiver is lost. -/
def drop (m : Medium ι α) (i : ι) : Medium ι α := { m with receiver := Function.update m.receiver i none }

/-- A station takes what is in its receiver. -/
def take (m : Medium ι α) (i : ι) : Medium ι α :=
  { m with
    receiver := Function.update m.receiver i none
    taken := Function.update m.taken i (m.taken i ++ (m.receiver i).toList) }

end

/-- The numbers of the messages that have come to a station and are not lost. -/
def line (m : Medium ι α) (i : ι) : List Nat := m.taken i ++ (m.receiver i).toList

/-- What holds of a medium: `P` says who may hear a message. -/
structure Ordered (P : ι → α → Prop) (m : Medium ι α) : Prop where
  heard : ∀ i, ∀ k ∈ m.line i, ∃ a, m.sent[k]? = some a ∧ P i a
  order : ∀ i, (m.line i).Pairwise (· < ·)

section

variable {P : ι → α → Prop} {m m' : Medium ι α}

/-- A medium on which nothing was sent is ordered. -/
theorem ordered_empty : ({} : Medium ι α).Ordered P where
  heard _ _ hk := absurd hk List.not_mem_nil
  order _ := List.Pairwise.nil

/-- Losing messages keeps a medium ordered. -/
theorem Ordered.lose (h : m.Ordered P) (hsent : m'.sent = m.sent) (hline : ∀ i, (m'.line i).Sublist (m.line i)) :
    m'.Ordered P where
  heard i k hk := by
    rw [hsent]
    exact h.heard i k ((hline i).subset hk)
  order i := (h.order i).sublist (hline i)

/-- What is sent is added to the line of those who hear it. -/
theorem line_send (m : Medium ι α) (a : α) (hears : ι → Bool) (i : ι) :
    (m.send a hears).line i = m.line i ∨ hears i = true ∧ (m.send a hears).line i = m.line i ++ [m.sent.length] := by
  unfold line send
  dsimp only
  by_cases hfree : (m.receiver i).isNone && hears i
  · obtain ⟨hnone, hhears⟩ := Bool.and_eq_true_iff.mp hfree
    rw [if_pos hfree, Option.isNone_iff_eq_none.mp hnone]
    exact Or.inr ⟨hhears, by rw [Option.toList_none, List.append_nil, Option.toList_some]⟩
  · rw [if_neg hfree]
    exact Or.inl rfl

/-- What is in a line was sent. -/
theorem Ordered.line_lt (h : m.Ordered P) {i : ι} {k : Nat} (hk : k ∈ m.line i) : k < m.sent.length := by
  obtain ⟨a, ha, -⟩ := h.heard i k hk
  exact (List.getElem?_eq_some_iff.mp ha).1

/-- Sending keeps the medium ordered. -/
theorem Ordered.send (h : m.Ordered P) {a : α} {hears : ι → Bool} (ha : ∀ i, hears i = true → P i a) :
    (m.send a hears).Ordered P where
  heard i k hk := by
    change ∃ b, (m.sent ++ [a])[k]? = some b ∧ P i b
    have hold : k ∈ m.line i → ∃ b, (m.sent ++ [a])[k]? = some b ∧ P i b := fun hk => by
      rw [List.getElem?_append_left (h.line_lt hk)]
      exact h.heard i k hk
    rcases line_send m a hears i with hl | ⟨hhears, hl⟩ <;> rw [hl] at hk
    · exact hold hk
    · rcases List.mem_append.mp hk with hk | hk
      · exact hold hk
      · rw [List.mem_singleton.mp hk, List.getElem?_concat_length]
        exact ⟨a, rfl, ha i hhears⟩
  order i := by
    rcases line_send m a hears i with hl | ⟨-, hl⟩ <;> rw [hl]
    · exact h.order i
    · refine List.pairwise_append.mpr ⟨h.order i, List.pairwise_singleton _ _, fun k hk l hl => ?_⟩
      rw [List.mem_singleton.mp hl]
      exact h.line_lt hk

variable [DecidableEq ι]

/-- Losing the first of a line keeps the medium ordered. -/
theorem Ordered.drop (h : m.Ordered P) (i : ι) : (m.drop i).Ordered P := by
  refine h.lose rfl fun j => ?_
  unfold line Medium.drop
  dsimp only
  by_cases hj : j = i
  · rw [hj, Function.update_self, Option.toList_none, List.append_nil]
    exact List.sublist_append_left _ _
  · rw [Function.update_of_ne hj]

/-- Taking the first of a line keeps the medium ordered. -/
theorem Ordered.take (h : m.Ordered P) (i : ι) : (m.take i).Ordered P := by
  refine h.lose rfl fun j => ?_
  unfold line Medium.take
  dsimp only
  by_cases hj : j = i
  · rw [hj, Function.update_self, Function.update_self, Option.toList_none, List.append_nil]
  · rw [Function.update_of_ne hj, Function.update_of_ne hj]

end

end Medium

/-- What belongs to the entries at ascending places belongs to a part of the list. -/
theorem sublistForall₂_of_places {α β : Type*} {R : β → α → Prop} {l : List α} {places : List Nat} {bs : List β}
    (horder : places.Pairwise (· < ·)) (h : List.Forall₂ (fun b k => ∃ a, l[k]? = some a ∧ R b a) bs places) :
    List.SublistForall₂ R bs l := by
  -- the part lies behind every place that none of the places left is before
  suffices hn : ∀ n, (∀ k ∈ places, n ≤ k) → List.SublistForall₂ R bs (l.drop n) from hn 0 fun k _ => Nat.zero_le k
  induction h with
  | nil => exact fun n _ => .nil
  | @cons b k bs ks hkb hrest ih =>
    intro n hn
    obtain ⟨a, ha, hab⟩ := hkb
    obtain ⟨hk, rfl⟩ := List.getElem?_eq_some_iff.mp ha
    obtain ⟨hlt, hks⟩ := List.pairwise_cons.mp horder
    have hfrom : List.SublistForall₂ R (b :: bs) (l.drop k) := by
      rw [List.drop_eq_getElem_cons hk]
      exact .cons hab (ih hks (k + 1) fun j hj => hlt j hj)
    obtain ⟨as, hall, hsub⟩ := List.sublistForall₂_iff.mp hfrom
    exact List.sublistForall₂_iff.mpr ⟨as, hall, hsub.trans (List.drop_sublist_drop_left l (hn k List.mem_cons_self))⟩

end Broadcast
