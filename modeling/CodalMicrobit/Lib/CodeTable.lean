import Mathlib.Data.List.Basic
import Mathlib.Data.List.Infix
import Mathlib.Tactic.Common

/-!
# Code tables

Text that is written with one byte for each of the words of a table: a byte below the length of the table stands for a word, any
other for itself. The text is encoded from the left, each time with the first word of the table that comes next. For a table whose
words all begin with a mark that stands nowhere else in them, and of which none is a prefix of a later one, nothing shorter is
missed.
-/

namespace CodeTable

variable (table : List (List UInt8))

/-- What a byte stands for. -/
def spell (b : UInt8) : List UInt8 := (table[b.toNat]?).getD [b]

/-- What bytes stand for. -/
def expand (body : List UInt8) : List UInt8 := body.flatMap (spell table)

/-- The word with the given number. -/
def word (i : Nat) : List UInt8 := (table[i]?).getD []

/-- The first word of the table that the text begins with. -/
def code (s : List UInt8) : Option Nat := table.findIdx? (·.isPrefixOf s)

/-- Encoding a text in at most so many bytes. The second component is what does not fit. -/
def encode : Nat → List UInt8 → List UInt8 × List UInt8
  | 0, s => ([], s)
  | _ + 1, [] => ([], [])
  | room + 1, c :: s =>
    match code table (c :: s) with
    | some i =>
      let r := encode room ((c :: s).drop (word table i).length)
      (i.toUInt8 :: r.1, r.2)
    | none =>
      let r := encode room s
      (c :: r.1, r.2)

/-- A table of words that a text can be encoded with from the left without a loss. -/
structure Marked (mark : UInt8) : Prop where
  small : table.length ≤ 256
  head : ∀ w ∈ table, w.head? = some mark
  tail : ∀ w ∈ table, mark ∉ w.tail
  order : table.Pairwise fun w w' => ¬ w <+: w'

/-- A text none of whose characters is a code of the table. -/
def Plain (s : List UInt8) : Prop := ∀ c ∈ s, table.length ≤ c.toNat

variable {table} {s body : List UInt8} {mark : UInt8} {room i : Nat}

theorem expand_cons (b : UInt8) (body : List UInt8) : expand table (b :: body) = spell table b ++ expand table body :=
  List.flatMap_cons

/-- A code is spelled as its word. -/
theorem spell_of_lt {b : UInt8} (h : b.toNat < table.length) : spell table b = table[b.toNat] := by
  rw [spell, List.getElem?_eq_getElem h, Option.getD_some]

/-- A byte that is no code is spelled as itself. -/
theorem spell_of_le {b : UInt8} (h : table.length ≤ b.toNat) : spell table b = [b] := by
  rw [spell, List.getElem?_eq_none h, Option.getD_none]

/-- The word of a code of the table. -/
theorem word_of_lt (h : i < table.length) : word table i = table[i] := by
  rw [word, List.getElem?_eq_getElem h, Option.getD_some]

/-- The code found is that of a word that the text begins with, and no earlier word does. -/
theorem code_eq_some_iff : code table s = some i ↔
    ∃ h : i < table.length, table[i] <+: s ∧ ∀ j (hj : j < i), ¬ table[j] <+: s := by
  rw [code, List.findIdx?_eq_some_iff_getElem]
  simp only [List.isPrefixOf_iff_prefix]

/-- No code is found exactly when no word of the table comes first. -/
theorem code_eq_none_iff : code table s = none ↔ ∀ w ∈ table, ¬ w <+: s := by
  rw [code, List.findIdx?_eq_none_iff]
  refine forall₂_congr fun w _ => ?_
  rw [← Bool.not_eq_true, List.isPrefixOf_iff_prefix]

/-- A word that comes first is replaced by its code. -/
theorem encode_of_some {c : UInt8} (h : code table (c :: s) = some i) : encode table (room + 1) (c :: s) =
    (i.toUInt8 :: (encode table room ((c :: s).drop (word table i).length)).1,
      (encode table room ((c :: s).drop (word table i).length)).2) := by
  rw [encode, h]

/-- Where no word comes first, the byte is taken over. -/
theorem encode_of_none {c : UInt8} (h : code table (c :: s) = none) :
    encode table (room + 1) (c :: s) = (c :: (encode table room s).1, (encode table room s).2) := by
  rw [encode, h]

/-- A text comes apart into a word of the table that it begins with and the rest. -/
theorem append_drop_of_code (h : code table s = some i) : word table i ++ s.drop (word table i).length = s := by
  obtain ⟨hi, ⟨t, rfl⟩, -⟩ := code_eq_some_iff.mp h
  rw [word_of_lt hi, List.drop_left]

/-! ## Nothing is lost -/

/-- No more bytes are given than there is room for. -/
theorem encode_length_le (room : Nat) (s : List UInt8) : (encode table room s).1.length ≤ room := by
  induction room generalizing s with
  | zero => exact Nat.le_refl 0
  | succ room ih =>
    cases s with
    | nil => exact Nat.zero_le _
    | cons c s =>
      cases h : code table (c :: s) with
      | some i =>
        rw [encode_of_some h]
        exact Nat.succ_le_succ (ih _)
      | none =>
        rw [encode_of_none h]
        exact Nat.succ_le_succ (ih _)

/-- The rest of a plain text is plain. -/
theorem Plain.drop (h : Plain table s) (n : Nat) : Plain table (s.drop n) := fun c hc => h c (List.mem_of_mem_drop hc)

/-- A word's own code spells it. -/
theorem spell_code (ht : table.length ≤ 256) (h : code table s = some i) : spell table i.toUInt8 = word table i := by
  obtain ⟨hi, -⟩ := code_eq_some_iff.mp h
  have hnat : i.toUInt8.toNat = i := UInt8.toNat_ofNat_of_lt' (Nat.lt_of_lt_of_le hi ht)
  rw [spell, hnat, word, List.getElem?_eq_getElem hi, Option.getD_some, Option.getD_some]

/-- The bytes stand for the text as far as it fits. -/
theorem expand_encode (ht : table.length ≤ 256) (room : Nat) (s : List UInt8) (hs : Plain table s) :
    expand table (encode table room s).1 ++ (encode table room s).2 = s := by
  induction room generalizing s with
  | zero => rfl
  | succ room ih =>
    cases s with
    | nil => rfl
    | cons c s =>
      cases h : code table (c :: s) with
      | some i =>
        have hrest := ih _ (hs.drop (word table i).length)
        rw [encode_of_some h, expand_cons, spell_code ht h, List.append_assoc, hrest]
        exact append_drop_of_code h
      | none =>
        have hrest := ih s (hs.drop 1)
        rw [encode_of_none h, expand_cons, spell_of_le (hs c List.mem_cons_self), List.append_assoc, hrest]
        rfl

/-! ## Nothing shorter is missed -/

/-- A word is the mark with letters behind it that are none. -/
theorem Marked.eq_cons (ht : Marked table mark) {w : List UInt8} (hw : w ∈ table) : ∃ v, w = mark :: v ∧ mark ∉ v := by
  have hhead := ht.head w hw
  have htail := ht.tail w hw
  cases w with
  | nil => nomatch hhead
  | cons x v => exact ⟨v, by rw [Option.some.inj hhead], htail⟩

/-- A text without the mark is spelled letter by letter, so it ends between two bytes. -/
theorem exists_rest_of_no_mark (ht : Marked table mark) (v t : List UInt8) (hv : mark ∉ v)
    (h : expand table body = v ++ t) : ∃ body', body'.length ≤ body.length ∧ expand table body' = t := by
  induction v generalizing body with
  | nil => exact ⟨body, Nat.le_refl _, h⟩
  | cons x v ih =>
    cases body with
    | nil => nomatch h
    | cons b body =>
      rw [expand_cons] at h
      rcases Nat.lt_or_ge b.toNat table.length with hb | hb
      · -- a word begins with the mark, which the text does not
        obtain ⟨w, hw, -⟩ := ht.eq_cons (List.getElem_mem hb)
        rw [spell_of_lt hb, hw] at h
        exact absurd (List.mem_cons.mpr (Or.inl (List.cons.inj h).1)) hv
      · rw [spell_of_le hb] at h
        obtain ⟨body', hle, hrest⟩ := ih (fun hmem => hv (List.mem_cons_of_mem x hmem)) (List.cons.inj h).2
        exact ⟨body', Nat.le_succ_of_le hle, hrest⟩

/-- Bytes that stand for a text that begins with a word leave the rest of it to fewer of them. -/
theorem exists_shorter (ht : Marked table mark) {b : UInt8} (h : code table s = some i)
    (hbody : expand table (b :: body) = s) :
    ∃ body', body'.length ≤ body.length ∧ expand table body' = s.drop (word table i).length := by
  obtain ⟨hi, ⟨t, hs⟩, hfirst⟩ := code_eq_some_iff.mp h
  obtain ⟨v, hv, hmark⟩ := ht.eq_cons (List.getElem_mem hi)
  rw [word_of_lt hi, ← hs, List.drop_left]
  rw [← hs, expand_cons] at hbody
  rcases Nat.lt_or_ge b.toNat table.length with hb | hb
  · rw [spell_of_lt hb] at hbody
    rcases List.append_eq_append_iff.mp hbody with ⟨u, hu, hrest⟩ | ⟨u, hu, hrest⟩
    · -- the first byte stands for a beginning of the word
      obtain ⟨v', hv', -⟩ := ht.eq_cons (List.getElem_mem hb)
      rw [hv, hv'] at hu
      have hnot : mark ∉ u := fun hmem => hmark (by
        rw [(List.cons.inj hu).2]
        exact List.mem_append_right v' hmem)
      exact exists_rest_of_no_mark ht u t hnot hrest
    · -- or for a longer word, which would be the one found
      have hij : b.toNat = i := by
        rcases Nat.lt_trichotomy b.toNat i with hlt | heq | hgt
        · exact absurd ⟨expand table body, by rw [← hs, hbody]⟩ (hfirst _ hlt)
        · exact heq
        · exact absurd ⟨u, hu.symm⟩ (List.pairwise_iff_getElem.mp ht.order i _ hi hb hgt)
      have hnil : u = [] := by
        have hlen := congrArg List.length hu
        simp only [hij, List.length_append] at hlen
        exact List.length_eq_zero_iff.mp (by omega)
      exact ⟨body, Nat.le_refl _, by rw [hrest, hnil, List.nil_append]⟩
  · rw [spell_of_le hb, hv] at hbody
    exact exists_rest_of_no_mark ht v t hmark (List.cons.inj hbody).2

/-- What can be written in so many bytes is encoded in as many. -/
theorem encode_complete (ht : Marked table mark) (room : Nat) (s : List UInt8)
    (h : ∃ body, body.length ≤ room ∧ expand table body = s) : (encode table room s).2 = [] := by
  induction room generalizing s with
  | zero =>
    obtain ⟨body, hlen, hbody⟩ := h
    rw [List.length_eq_zero_iff.mp (Nat.le_zero.mp hlen)] at hbody
    exact hbody.symm
  | succ room ih =>
    obtain ⟨body, hlen, hbody⟩ := h
    cases s with
    | nil => rfl
    | cons c s =>
      cases body with
      | nil => nomatch hbody
      | cons b body =>
        have hroom : body.length ≤ room := Nat.le_of_succ_le_succ hlen
        cases hcode : code table (c :: s) with
        | some i =>
          obtain ⟨body', hle, hrest⟩ := exists_shorter ht hcode hbody
          rw [encode_of_some hcode]
          exact ih _ ⟨body', Nat.le_trans hle hroom, hrest⟩
        | none =>
          -- no word comes next, so the first byte stands for itself
          have hb : table.length ≤ b.toNat := by
            by_contra hlt
            have hlt := Nat.lt_of_not_le hlt
            rw [expand_cons, spell_of_lt hlt] at hbody
            exact code_eq_none_iff.mp hcode _ (List.getElem_mem hlt) ⟨_, hbody⟩
          rw [expand_cons, spell_of_le hb] at hbody
          rw [encode_of_none hcode]
          exact ih s ⟨body, hroom, (List.cons.inj hbody).2⟩

end CodeTable
