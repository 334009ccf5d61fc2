import CodalMicrobit.Lemmas.Text

/-!
# What cleaning does

The log is an HTML comment, and the symbols `-->` would end it; commas and newlines separate the cells of its table.
`cleanBuffer` replaces them, in a copy it makes on the first change. Seen from outside it replaces exactly the invalid
bytes, and what it returns has none.
-/

namespace CodalMicrobit

/-- The symbols `-->` stand at place `i`. -/
def EndsComment (s : List UInt8) (i : Nat) : Prop :=
  s[i]? = some '-'.toUInt8 ∧ s[i + 1]? = some '-'.toUInt8 ∧ s[i + 2]? = some '>'.toUInt8

instance (s : List UInt8) (i : Nat) : Decidable (EndsComment s i) := inferInstanceAs (Decidable (_ ∧ _))

/-- The symbols `-->` do not occur. -/
def NoCommentEnd (s : List UInt8) : Prop := ∀ i, ¬EndsComment s i

/-- A tab, or where they are to be removed a separator, stands at place `i`. -/
def IsInvalidByte (s : List UInt8) (removeSeparators : Bool) (i : Nat) : Prop :=
  s[i]? = some '\t'.toUInt8 ∨ removeSeparators = true ∧ (s[i]? = some ','.toUInt8 ∨ s[i]? = some '\n'.toUInt8)

instance (s : List UInt8) (r : Bool) (i : Nat) : Decidable (IsInvalidByte s r i) := inferInstanceAs (Decidable (_ ∨ _))

/-- The byte at place `i` is invalid: on its own, or as one of `-->`. -/
def Invalid (s : List UInt8) (removeSeparators : Bool) (i : Nat) : Prop :=
  (∃ k, k < 3 ∧ k ≤ i ∧ EndsComment s (i - k)) ∨ IsInvalidByte s removeSeparators i

instance (s : List UInt8) (r : Bool) (i : Nat) : Decidable (Invalid s r i) := inferInstanceAs (Decidable (_ ∨ _))

/-- The text with every invalid byte replaced. -/
def sanitised (s : List UInt8) (removeSeparators : Bool := true) : List UInt8 :=
  (List.range s.length).map fun i =>
    if Invalid s removeSeparators i then CONFIG_MICROBIT_LOG_INVALID_CHAR_VALUE else s.getD i 0

/-- Cleaning leaves the length alone. -/
theorem sanitised_length (s : List UInt8) (r : Bool) : (sanitised s r).length = s.length := by
  simp [sanitised]

/-- Each byte is replaced or stays, as it is invalid or not. -/
theorem sanitised_getElem? (s : List UInt8) (r : Bool) {i : Nat} (h : i < s.length) : (sanitised s r)[i]? =
    if Invalid s r i then some CONFIG_MICROBIT_LOG_INVALID_CHAR_VALUE else s[i]? := by
  rw [sanitised, List.getElem?_map, List.getElem?_range h, Option.map_some]
  split
  · rfl
  · rw [List.getD_eq_getElem _ _ h, List.getElem?_eq_getElem h]

/-! ## The loop -/

/-- The copy that is used: the text itself until the first change. -/
def copyOf (s out : List UInt8) : List UInt8 := if out.length = 0 then s else out

/-- The byte at place `i` was found to be invalid in the first `n` turns. -/
def InvalidBelow (s : List UInt8) (r : Bool) (n i : Nat) : Prop :=
  (∃ j, j < n ∧ j ≤ i ∧ i ≤ j + 2 ∧ EndsComment s j) ∨ i < n ∧ IsInvalidByte s r i

/-- Looking at the whole text finds every invalid byte. -/
theorem invalidBelow_length {s : List UInt8} {r : Bool} {i : Nat} (h : i < s.length) :
    InvalidBelow s r s.length i ↔ Invalid s r i := by
  constructor
  · rintro (⟨j, -, h1, h2, hj⟩ | ⟨-, hi⟩)
    · exact Or.inl ⟨i - j, by omega, by omega, by rwa [show i - (i - j) = j by omega]⟩
    · exact Or.inr hi
  · rintro (⟨k, h1, h2, hk⟩ | hi)
    · exact Or.inl ⟨i - k, by omega, by omega, by omega, hk⟩
    · exact Or.inr ⟨h, hi⟩

theorem invalidBelow_succ (s : List UInt8) (r : Bool) (n i : Nat) : InvalidBelow s r (n + 1) i ↔
    InvalidBelow s r n i ∨ (EndsComment s n ∧ n ≤ i ∧ i ≤ n + 2) ∨ (i = n ∧ IsInvalidByte s r n) := by
  constructor
  · rintro (⟨j, h0, h1, h2, hj⟩ | ⟨h, hi⟩)
    · rcases Nat.lt_succ_iff_lt_or_eq.mp h0 with h0 | rfl
      · exact Or.inl (Or.inl ⟨j, h0, h1, h2, hj⟩)
      · exact Or.inr (Or.inl ⟨hj, h1, h2⟩)
    · rcases Nat.lt_succ_iff_lt_or_eq.mp h with h | rfl
      · exact Or.inl (Or.inr ⟨h, hi⟩)
      · exact Or.inr (Or.inr ⟨rfl, hi⟩)
  · rintro ((⟨j, h0, h1, h2, hj⟩ | ⟨h, hi⟩) | ⟨hj, h1, h2⟩ | ⟨rfl, hi⟩)
    · exact Or.inl ⟨j, by omega, h1, h2, hj⟩
    · exact Or.inr ⟨by omega, hi⟩
    · exact Or.inl ⟨n, by omega, h1, h2, hj⟩
    · exact Or.inr ⟨by omega, hi⟩

/-- What a turn of the loop does to the copy. -/
theorem copyOf_cleanStep {s out : List UInt8} (r : Bool) {n : Nat} (hn : n < s.length)
    (hl : (copyOf s out).length = s.length) :
    (copyOf s (cleanStep s r out n)).length = s.length ∧
      ∀ i, i < s.length → (copyOf s (cleanStep s r out n))[i]? =
        if (EndsComment s n ∧ n ≤ i ∧ i ≤ n + 2) ∨ (i = n ∧ IsInvalidByte s r n) then
          some CONFIG_MICROBIT_LOG_INVALID_CHAR_VALUE
        else (copyOf s out)[i]? := by
  have hcopy : ∀ c : List UInt8, c.length = s.length → copyOf s c = c := fun c hc => if_neg (by omega)
  have hset : ∀ (c : List UInt8) (k i : Nat), c.length = s.length → i < s.length →
      (c.set k CONFIG_MICROBIT_LOG_INVALID_CHAR_VALUE)[i]? =
        if k = i then some CONFIG_MICROBIT_LOG_INVALID_CHAR_VALUE else (c)[i]? := by
    intro c k i hc hi
    rw [List.getElem?_set]
    split
    · exact if_pos (by omega)
    · rfl
  -- the part of the turn that deals with the end of a comment
  obtain ⟨c₁, hc₁⟩ : ∃ c₁, c₁ = if EndsComment s n then
      (((copyOf s out).set n CONFIG_MICROBIT_LOG_INVALID_CHAR_VALUE).set (n + 1)
        CONFIG_MICROBIT_LOG_INVALID_CHAR_VALUE).set (n + 2) CONFIG_MICROBIT_LOG_INVALID_CHAR_VALUE
      else out := ⟨_, rfl⟩
  have hl₁ : (copyOf s c₁).length = s.length := by
    rw [hc₁]
    split
    · rw [hcopy _ (by simpa using hl)]
      simpa using hl
    · exact hl
  have hb₁ : ∀ i, i < s.length → (copyOf s c₁)[i]? =
      if EndsComment s n ∧ n ≤ i ∧ i ≤ n + 2 then some CONFIG_MICROBIT_LOG_INVALID_CHAR_VALUE else (copyOf s out)[i]? := by
    intro i hi
    rw [hc₁]
    by_cases he : EndsComment s n
    · rw [if_pos he, hcopy _ (by simpa using hl), hset _ _ _ (by simpa using hl) hi, hset _ _ _ (by simpa using hl) hi,
        hset _ _ _ hl hi]
      by_cases h0 : n ≤ i ∧ i ≤ n + 2
      · rw [if_pos (show EndsComment s n ∧ n ≤ i ∧ i ≤ n + 2 from ⟨he, h0⟩)]
        split
        · rfl
        · split
          · rfl
          · exact if_pos (by omega)
      · have h1 : ¬n + 2 = i := by omega
        have h2 : ¬n + 1 = i := by omega
        have h3 : ¬n = i := by omega
        rw [if_neg h1, if_neg h2, if_neg h3, if_neg fun h => h0 h.2]
    · rw [if_neg he, if_neg fun h => he h.1]
  have hstep : cleanStep s r out n =
      if IsInvalidByte s r n then (copyOf s c₁).set n CONFIG_MICROBIT_LOG_INVALID_CHAR_VALUE else c₁ := by
    have hcond : (n + 2 < s.length ∧ s[n]? = some '-'.toUInt8 ∧ s[n + 1]? = some '-'.toUInt8 ∧
        s[n + 2]? = some '>'.toUInt8) ↔ EndsComment s n := by
      refine ⟨And.right, fun h => ⟨?_, h⟩⟩
      obtain ⟨hlt, -⟩ := List.getElem?_eq_some_iff.mp h.2.2
      exact hlt
    rw [hc₁]
    unfold cleanStep copyOf
    dsimp only
    simp only [hcond]
    rfl
  rw [hstep]
  by_cases hb : IsInvalidByte s r n
  · rw [if_pos hb, hcopy _ (by simpa using hl₁)]
    refine ⟨by simpa using hl₁, fun i hi => ?_⟩
    rw [hset _ _ _ hl₁ hi, hb₁ i hi]
    by_cases hni : n = i
    · rw [if_pos hni, if_pos (Or.inr ⟨hni.symm, hb⟩)]
    · rw [if_neg hni]
      refine if_congr ⟨Or.inl, ?_⟩ rfl rfl
      rintro (h | ⟨h, -⟩)
      · exact h
      · exact absurd h.symm hni
  · rw [if_neg hb]
    refine ⟨hl₁, fun i hi => (hb₁ i hi).trans ?_⟩
    exact if_congr ⟨Or.inl, fun h => h.resolve_right fun h => hb h.2⟩ rfl rfl

/-- `cleanBuffer` replaces exactly the invalid bytes. -/
theorem cleaned_eq (s : List UInt8) (r : Bool) : cleaned s r = sanitised s r := by
  have hloop : ∀ n, n ≤ s.length →
      (copyOf s ((List.range n).foldl (cleanStep s r) [])).length = s.length ∧
        ∀ i, i < s.length → (¬InvalidBelow s r n i →
          (copyOf s ((List.range n).foldl (cleanStep s r) []))[i]? = s[i]?) ∧
          (InvalidBelow s r n i → (copyOf s ((List.range n).foldl (cleanStep s r) []))[i]? =
            some CONFIG_MICROBIT_LOG_INVALID_CHAR_VALUE) := by
    intro n
    induction n with
    | zero =>
      refine fun _ => ⟨rfl, fun i _ => ⟨fun _ => rfl, ?_⟩⟩
      rintro (⟨j, hj, -⟩ | ⟨hi, -⟩)
      · exact absurd hj (Nat.not_lt_zero j)
      · exact absurd hi (Nat.not_lt_zero i)
    | succ n ih =>
      intro hn
      obtain ⟨hl, hb⟩ := ih (by omega)
      obtain ⟨hl', hb'⟩ := copyOf_cleanStep r (show n < s.length by omega) hl
      rw [List.range_succ, List.foldl_append, List.foldl_cons, List.foldl_nil]
      refine ⟨hl', fun i hi => ?_⟩
      rw [hb' i hi, invalidBelow_succ]
      constructor
      · intro h
        rw [if_neg (fun h' => h (Or.inr h'))]
        exact (hb i hi).1 fun h' => h (Or.inl h')
      · rintro (h | h)
        · split
          · rfl
          · exact (hb i hi).2 h
        · exact if_pos h
  obtain ⟨hl, hb⟩ := hloop s.length (Nat.le_refl _)
  have hc : cleaned s r = copyOf s ((List.range s.length).foldl (cleanStep s r) []) := rfl
  refine List.ext_getElem? fun i => ?_
  rcases Nat.lt_or_ge i s.length with hi | hi
  · rw [hc, sanitised_getElem? s r hi]
    split
    · rename_i h
      exact (hb i hi).2 ((invalidBelow_length hi).mpr h)
    · rename_i h
      exact (hb i hi).1 fun h' => h ((invalidBelow_length hi).mp h')
  · rw [List.getElem?_eq_none (by rw [cleaned_length]; exact hi),
      List.getElem?_eq_none (by rw [sanitised_length]; exact hi)]

/-! ## What cleaned text has none of -/

/-- A byte that is not the symbol for invalid ones is valid, and the text's own. -/
theorem sanitised_eq_some {s : List UInt8} {r : Bool} {i : Nat} {b : UInt8} (h : (sanitised s r)[i]? = some b)
    (hb : b ≠ CONFIG_MICROBIT_LOG_INVALID_CHAR_VALUE) : s[i]? = some b ∧ ¬Invalid s r i := by
  obtain ⟨hlt, -⟩ := List.getElem?_eq_some_iff.mp h
  rw [sanitised_getElem? s r (by simpa [sanitised_length] using hlt)] at h
  split at h
  · exact absurd (Option.some.inj h).symm hb
  · rename_i hi
    exact ⟨h, hi⟩

/-- A clean text does not end the comment in the header. -/
theorem noCommentEnd_sanitised (s : List UInt8) (r : Bool) : NoCommentEnd (sanitised s r) := by
  rintro i ⟨h1, h2, h3⟩
  obtain ⟨h1, hi⟩ := sanitised_eq_some h1 (by decide)
  exact hi (Or.inl ⟨0, by decide, Nat.zero_le i, h1, (sanitised_eq_some h2 (by decide)).1,
    (sanitised_eq_some h3 (by decide)).1⟩)

/-- A clean text has no tab. -/
theorem tab_not_mem_sanitised (s : List UInt8) (r : Bool) : '\t'.toUInt8 ∉ sanitised s r := by
  intro h
  obtain ⟨i, hi⟩ := List.mem_iff_getElem?.mp h
  obtain ⟨h1, h2⟩ := sanitised_eq_some hi (by decide)
  exact h2 (Or.inr (Or.inl h1))

/-- A clean text has neither comma nor line break. -/
theorem separator_not_mem_sanitised (s : List UInt8) : ','.toUInt8 ∉ sanitised s ∧ '\n'.toUInt8 ∉ sanitised s := by
  constructor
  · intro h
    obtain ⟨i, hi⟩ := List.mem_iff_getElem?.mp h
    obtain ⟨h1, h2⟩ := sanitised_eq_some hi (by decide)
    exact h2 (Or.inr (Or.inr ⟨rfl, Or.inl h1⟩))
  · intro h
    obtain ⟨i, hi⟩ := List.mem_iff_getElem?.mp h
    obtain ⟨h1, h2⟩ := sanitised_eq_some hi (by decide)
    exact h2 (Or.inr (Or.inr ⟨rfl, Or.inr h1⟩))

/-- A byte that the text does not have, and that is not the symbol for invalid ones. -/
theorem not_mem_sanitised {s : List UInt8} {b : UInt8} (h : b ∉ s) (hb : b ≠ CONFIG_MICROBIT_LOG_INVALID_CHAR_VALUE)
    (r : Bool) : b ∉ sanitised s r := by
  intro h0
  obtain ⟨i, hi⟩ := List.mem_iff_getElem?.mp h0
  exact h (List.mem_of_getElem? (sanitised_eq_some hi hb).1)

/-- Cleaning puts no zero byte into a text. -/
theorem nul_not_mem_sanitised {s : List UInt8} (h : (0 : UInt8) ∉ s) (r : Bool) : (0 : UInt8) ∉ sanitised s r :=
  not_mem_sanitised h (by decide) r

/-- Text that has none of the symbols that are replaced is left as it is. -/
theorem sanitised_of_clean {s : List UInt8} {r : Bool} (hc : NoCommentEnd s) (ht : '\t'.toUInt8 ∉ s)
    (hs : r = true → ','.toUInt8 ∉ s ∧ '\n'.toUInt8 ∉ s) : sanitised s r = s := by
  refine List.ext_getElem? fun i => ?_
  rcases Nat.lt_or_ge i s.length with hi | hi
  · rw [sanitised_getElem? s r hi]
    refine if_neg ?_
    rintro (⟨k, -, -, hk⟩ | h | ⟨hr, h | h⟩)
    · exact hc _ hk
    · exact ht (List.mem_of_getElem? h)
    · exact (hs hr).1 (List.mem_of_getElem? h)
    · exact (hs hr).2 (List.mem_of_getElem? h)
  · rw [List.getElem?_eq_none (by rw [sanitised_length]; exact hi), List.getElem?_eq_none hi]

/-! ## Texts one after the other -/

/-- The end of `s` and the start of `t` make up `-->`. -/
def Joins (s t : List UInt8) : Prop :=
  ascii ['-', '-'] <:+ s ∧ ascii ['>'] <+: t ∨ ascii ['-'] <:+ s ∧ ascii ['-', '>'] <+: t

instance (s t : List UInt8) : Decidable (Joins s t) := inferInstanceAs (Decidable (_ ∧ _ ∨ _ ∧ _))

theorem noCommentEnd_append {s t : List UInt8} (hs : NoCommentEnd s) (ht : NoCommentEnd t) (hj : ¬Joins s t) :
    NoCommentEnd (s ++ t) := by
  rintro i ⟨h1, h2, h3⟩
  have hend : ∀ k, s.drop k <:+ s := List.drop_suffix (l := s)
  rcases Nat.lt_or_ge (i + 2) s.length with hlt | hge
  · rw [List.getElem?_append_left (by omega)] at h1 h2
    rw [List.getElem?_append_left hlt] at h3
    exact hs i ⟨h1, h2, h3⟩
  · rw [List.getElem?_append_right hge] at h3
    rcases Nat.lt_or_ge (i + 1) s.length with hlt | hge'
    · -- two symbols at the end of `s`
      rw [List.getElem?_append_left (by omega)] at h1 h2
      rw [show i + 2 - s.length = 0 by omega] at h3
      obtain ⟨_, h1⟩ := List.getElem?_eq_some_iff.mp h1
      obtain ⟨_, h2⟩ := List.getElem?_eq_some_iff.mp h2
      refine hj (Or.inl ⟨?_, ?_⟩)
      · have hd : s.drop i = ascii ['-', '-'] := by
          rw [List.drop_eq_getElem_cons (by omega), List.drop_eq_getElem_cons (by omega),
            List.drop_eq_nil_of_le (by omega), h1, h2]
          rfl
        exact hd ▸ hend i
      · cases t with
        | nil => nomatch h3
        | cons b t =>
          obtain rfl : b = '>'.toUInt8 := Option.some.inj h3
          exact ⟨t, rfl⟩
    · rw [List.getElem?_append_right hge'] at h2
      rcases Nat.lt_or_ge i s.length with hlt | hge''
      · -- one symbol at the end of `s`
        rw [List.getElem?_append_left hlt] at h1
        rw [show i + 1 - s.length = 0 by omega] at h2
        rw [show i + 2 - s.length = 1 by omega] at h3
        obtain ⟨_, h1⟩ := List.getElem?_eq_some_iff.mp h1
        refine hj (Or.inr ⟨?_, ?_⟩)
        · have hd : s.drop i = ascii ['-'] := by
            rw [List.drop_eq_getElem_cons hlt, List.drop_eq_nil_of_le (by omega), h1]
            rfl
          exact hd ▸ hend i
        · match t, h2, h3 with
          | b :: c :: t, h2, h3 =>
            obtain rfl : b = '-'.toUInt8 := Option.some.inj h2
            obtain rfl : c = '>'.toUInt8 := Option.some.inj h3
            exact ⟨t, rfl⟩
      · rw [List.getElem?_append_right hge''] at h1
        refine ht (i - s.length) ⟨h1, ?_, ?_⟩
        · rwa [show i - s.length + 1 = i + 1 - s.length by omega]
        · rwa [show i - s.length + 2 = i + 2 - s.length by omega]

theorem noCommentEnd_nil : NoCommentEnd [] := fun _ h => nomatch h.1

/-- After a symbol that is none of the three, or nothing, a text does not complete them. -/
theorem not_joins_of_last {s : List UInt8} {b : UInt8} (hb : b ≠ '-'.toUInt8) (t : List UInt8) : ¬Joins (s ++ [b]) t := by
  have hlast : ∀ {u : List UInt8}, u ++ ascii ['-'] <:+ s ++ [b] → False := by
    rintro u ⟨v, hv⟩
    rw [← List.append_assoc] at hv
    exact hb (List.cons.inj (List.append_inj_right' hv rfl)).1.symm
  rintro (⟨h, -⟩ | ⟨h, -⟩)
  · exact @hlast (ascii ['-']) h
  · exact @hlast [] h

/-- A byte between that is no part of the end keeps two texts apart. -/
theorem noCommentEnd_separated {s t : List UInt8} {b : UInt8} (hb : b ≠ '-'.toUInt8 ∧ b ≠ '>'.toUInt8)
    (hs : NoCommentEnd s) (ht : NoCommentEnd t) : NoCommentEnd (s ++ b :: t) := by
  have h1 : NoCommentEnd [b] := by
    rintro (_ | i) ⟨h1, -, -⟩
    · exact hb.1 (Option.some.inj h1)
    · nomatch h1
  have h2 : NoCommentEnd (s ++ [b]) := by
    refine noCommentEnd_append hs h1 ?_
    rintro (⟨-, u, hu⟩ | ⟨-, u, hu⟩)
    · exact hb.2 (List.cons.inj hu).1.symm
    · exact hb.1 (List.cons.inj hu).1.symm
  have h3 := noCommentEnd_append h2 ht (not_joins_of_last hb.1 t)
  rwa [List.append_assoc] at h3

end CodalMicrobit
