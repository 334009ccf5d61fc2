import CodalMicrobit.Theorems.LogLock
import CodalMicrobit.Lemmas.Table
import CodalMicrobit.Lemmas.Layout
import CodalMicrobit.Lib.Decimal

/-!
# The text of a time stamp

`endRow` splits the time in billions, units and a fraction, since it prints 32-bit numbers only. The billions are divided by
100 on their own, and the remainder of that division is lost: the text is the decimal number it should be for milliseconds, and
otherwise as long as there is no such remainder.
-/

namespace CodalMicrobit

open Outcome Decimal

/-! ## Numbers -/

/-- The digits of `ManagedString(int)` are those of the number. -/
theorem decimalDigits_eq (fuel : Nat) : ∀ {n : Nat}, n < 10 ^ (fuel + 1) →
    (decimalDigits n (fuel + 1)).reverse = digits n := by
  induction fuel with
  | zero =>
    intro n hn
    have hlt : n < 10 := hn
    rw [decimalDigits, if_pos hlt, digits_of_lt hlt, Nat.mod_eq_of_lt hlt]
    rfl
  | succ fuel ih =>
    intro n hn
    rw [decimalDigits]
    rcases Nat.lt_or_ge n 10 with hlt | hge
    · rw [if_pos hlt, digits_of_lt hlt, Nat.mod_eq_of_lt hlt]
      rfl
    · have hn' : n / 10 < 10 ^ (fuel + 1) := by
        rw [Nat.pow_succ] at hn
        omega
      rw [if_neg (Nat.not_lt.mpr hge), List.reverse_cons, ih hn', digits_of_le hge]
      rfl

/-- Up to ten digits, the conversion gives the decimal digits. -/
theorem decimal_eq {n : Nat} (h : n < 10 ^ 10) : decimal n = digits n := by
  unfold decimal
  dsimp only
  rw [if_neg (by omega), Int.natAbs_natCast]
  exact decimalDigits_eq 9 h

/-- A number that fits is padded with zeros to its width. -/
theorem padString_eq (k : Nat) {n : Nat} (hn : n < 10 ^ (k + 1)) (h : n < 10 ^ 10) :
    padString (decimal n) (k + 1) = padded (k + 1) n := by
  rw [decimal_eq h, (padded_eq k hn).2]
  rfl

/-- The billions and what is left of a number, put together. -/
theorem billions_units {b u : Nat} (hb : b < 2 ^ 31) (hu : u < 10 ^ 9) :
    (if (b : Int) ≠ 0 then decimal b ++ padString (decimal u) 9 else decimal u) = digits (b * 10 ^ 9 + u) := by
  rcases Nat.eq_zero_or_pos b with rfl | hpos
  · rw [if_neg (by simp), Nat.zero_mul, Nat.zero_add]
    exact decimal_eq (by omega)
  · rw [if_pos (by omega), digits_append_padded hpos 9 hu, decimal_eq (by omega)]
    exact congrArg _ (padString_eq 8 hu (by omega))

/-! ## Texts without symbols -/

/-- None of the bytes is one that cleaning looks for. -/
def Plain (s : List UInt8) : Prop :=
  ∀ b ∈ s, b ≠ '-'.toUInt8 ∧ b ≠ '\t'.toUInt8 ∧ b ≠ ','.toUInt8 ∧ b ≠ '\n'.toUInt8

/-- Cleaning leaves such a text as it is. -/
theorem Plain.cleaned {s : List UInt8} (h : Plain s) (r : Bool) : cleaned s r = s := by
  rw [cleaned_eq]
  refine List.ext_getElem? fun i => ?_
  rcases Nat.lt_or_ge i s.length with hi | hi
  · rw [sanitised_getElem? s r hi, if_neg]
    rintro (⟨k, -, -, hk, -, -⟩ | hb | ⟨-, hb | hb⟩)
    · exact (h _ (List.mem_of_getElem? hk)).1 rfl
    · exact (h _ (List.mem_of_getElem? hb)).2.1 rfl
    · exact (h _ (List.mem_of_getElem? hb)).2.2.1 rfl
    · exact (h _ (List.mem_of_getElem? hb)).2.2.2 rfl
  · rw [List.getElem?_eq_none (by rwa [sanitised_length]), List.getElem?_eq_none hi]

theorem Plain.append {s t : List UInt8} (hs : Plain s) (ht : Plain t) : Plain (s ++ t) :=
  fun b hb => (List.mem_append.mp hb).elim (hs b) (ht b)

/-- A digit is plain. -/
theorem plain_digit {d : Nat} (h : d < 10) : Plain [digit d] := by
  intro b hb
  rw [List.mem_singleton.mp hb]
  have hall : ∀ d < 10, digit d ≠ '-'.toUInt8 ∧ digit d ≠ '\t'.toUInt8 ∧ digit d ≠ ','.toUInt8 ∧ digit d ≠ '\n'.toUInt8 := by
    decide
  exact hall d h

/-- Decimal digits are plain. -/
theorem plain_digits (n : Nat) : Plain (digits n) := by
  induction n using Nat.strongRecOn with
  | ind n ih =>
    rcases Nat.lt_or_ge n 10 with h | h
    · rw [digits_of_lt h]
      exact plain_digit h
    · rw [digits_of_le h]
      exact (ih (n / 10) (Nat.div_lt_self (by omega) (by decide))).append (plain_digit (Nat.mod_lt _ (by decide)))

/-- Padded digits are plain. -/
theorem plain_padded (k n : Nat) : Plain (padded k n) := by
  induction k generalizing n with
  | zero => exact fun _ hb => nomatch hb
  | succ k ih => exact (ih (n / 10)).append (plain_digit (Nat.mod_lt _ (by decide)))

namespace Log

/-! ## The time stamp -/

/-- The text a time stamp should be: the milliseconds, or the hundredths of a larger unit with two decimals. -/
def timeStampText (format : TimeStampFormat) (now : Nat) : ManagedString :=
  if format = .Milliseconds then digits now
  else digits (now / format.value / 100) ++ ascii ['.'] ++ padded 2 (now / format.value % 100)

/-- The billions of the time, of which only the hundreds are kept. -/
def billionsOf (format : TimeStampFormat) (now : Nat) : Nat := now / format.value / 1000000000

/-- A number below `2 ^ 31` is itself as an `int`. -/
theorem toInt_of_lt {n : Nat} (h : n < 2 ^ 31) : toInt n = n := by
  unfold toInt
  rw [Int.bmod_eq_of_le]
  all_goals omega

/-- What `endRow` makes of the time. -/
theorem timeStamp_eq {format : TimeStampFormat} (hf : format ≠ .None) {now : Nat}
    (h : now / format.value < 2 ^ 31 * 1000000000) :
    timeStamp format now = if format = .Milliseconds then digits now
      else digits (billionsOf format now / 100 * 10 ^ 9 + now / format.value % 1000000000 / 100) ++ ascii ['.'] ++
        padded 2 (now / format.value % 100) := by
  have hb : billionsOf format now < 2 ^ 31 := by
    unfold billionsOf
    omega
  have hu : now / format.value % 1000000000 < 10 ^ 9 := Nat.mod_lt _ (by decide)
  have hone : format.value > 1 ↔ format ≠ .Milliseconds := by
    cases format with
    | None => exact absurd rfl hf
    | _ => decide
  have hbillions : toInt (now / format.value / 1000000000) = (billionsOf format now : Int) := toInt_of_lt hb
  unfold timeStamp
  dsimp only
  rw [hbillions]
  by_cases hm : format = .Milliseconds
  · have hle : ¬format.value > 1 := fun hgt => hone.mp hgt hm
    simp only [if_neg hle]
    have hval : now / format.value = now := by
      rw [hm]
      exact Nat.div_one now
    have hsum : billionsOf format now * 10 ^ 9 + now / format.value % 1000000000 = now := by
      unfold billionsOf
      rw [hval]
      omega
    rw [if_pos hm, billions_units hb hu, hsum]
  · have hgt : format.value > 1 := hone.mpr hm
    have hdiv : ((billionsOf format now : Nat) : Int).tdiv 100 = ((billionsOf format now / 100 : Nat) : Int) := rfl
    have hfrac : now / format.value % 1000000000 % 100 = now / format.value % 100 := by omega
    simp only [if_pos hgt]
    rw [if_neg hm, hdiv, billions_units (by omega) (by omega), hfrac]
    exact congrArg _ (padString_eq 1 (by omega) (by omega))

/-- The text is right exactly if no billions are lost. -/
theorem timeStamp_iff {format : TimeStampFormat} (hf : format ≠ .None) {now : Nat}
    (h : now / format.value < 2 ^ 31 * 1000000000) :
    timeStamp format now = timeStampText format now ↔ format = .Milliseconds ∨ billionsOf format now % 100 = 0 := by
  rw [timeStamp_eq hf h]
  unfold timeStampText
  by_cases hm : format = .Milliseconds
  · rw [if_pos hm, if_pos hm]
    exact ⟨fun _ => Or.inl hm, fun _ => rfl⟩
  · rw [if_neg hm, if_neg hm, List.append_cancel_right_eq, List.append_cancel_right_eq]
    unfold billionsOf
    constructor
    · intro heq
      have hnum := digits_injective heq
      exact Or.inr (by omega)
    · intro hcase
      have hmod := hcase.resolve_left hm
      congr 1
      omega

/-- A time stamp is plain as long as its number fits in an `int`. -/
theorem plain_timeStamp {format : TimeStampFormat} (hf : format ≠ .None) {now : Nat}
    (h : now / format.value < 2 ^ 31 * 1000000000) : Plain (timeStamp format now) := by
  have hdot : Plain (ascii ['.']) := by
    intro b hb
    rw [List.mem_singleton.mp hb]
    decide
  rw [timeStamp_eq hf h]
  split
  · exact plain_digits now
  · exact ((plain_digits _).append hdot).append (plain_padded _ _)

/-! ## The column of the time stamp -/

variable {g : Geometry}

/-- The value of the first column with the given key. -/
def columnValue (s : Log g) (key : ManagedString) : Option ManagedString :=
  (s.rowData.find? fun column => column.key == key).map (·.value)

/-- Setting a column sets the value of its key. -/
theorem columnValue_setColumn (s : Log g) (key value : ManagedString) :
    (s.setColumn key value).columnValue (cleaned key) = some (cleaned value) := by
  have hset : ∀ cols : List ColumnEntry, cols.any (·.key == cleaned key) = true →
      ((setValue (cleaned key) (cleaned value) cols).find? fun column => column.key == cleaned key).map (·.value) =
        some (cleaned value) := by
    intro cols
    induction cols with
    | nil => exact nofun
    | cons c cols ih =>
      intro hany
      unfold setValue
      by_cases hk : c.key = cleaned key
      · rw [if_pos hk, List.find?_cons_of_pos (by simpa using hk)]
        rfl
      · rw [if_neg hk, List.find?_cons_of_neg (by simpa using hk)]
        rw [List.any_cons, beq_eq_false_iff_ne.mpr hk, Bool.false_or] at hany
        exact ih hany
  unfold setColumn columnValue
  dsimp only
  by_cases hany : s.rowData.any (·.key == cleaned key) = true
  · rw [if_pos hany]
    exact hset s.rowData hany
  · have hnone : s.rowData.find? (fun column => column.key == cleaned key) = none := by
      rw [List.find?_eq_none]
      exact fun c hc hk => hany (List.any_eq_true.mpr ⟨c, hc, hk⟩)
    rw [if_neg hany]
    unfold addHeading
    rw [if_neg hany]
    simp [List.find?_append, hnone]

/-- Logging a text leaves the columns as they are. -/
theorem logString_rowData {s : Log g} (hi : s.initialized = true) {str : List UInt8} {r : ErrorCode × Log g}
    (h : s.logString str = .ok r) : r.2.rowData = s.rowData ∧ r.2.initialized = true := by
  obtain ⟨s₁, h₁, h⟩ := bind_eq_ok.mp h
  obtain ⟨s₂, h₂, h⟩ := bind_eq_ok.mp h
  have hw : s₁ = { s with mutex := true } := by
    unfold wait at h₁
    split at h₁
    · nomatch h₁
    · exact (Except.ok.inj h₁).symm
  have hi₁ : s₁.initialized = true := by rw [hw]; exact hi
  rw [init_of_initialized hi₁] at h₂
  obtain rfl := Except.ok.inj h₂
  have hs := appendText_storeOnly h
  refine ⟨?_, hs.initialized.trans hi₁⟩
  rw [hs, hw]

/-- Storing new columns leaves the row alone. -/
theorem updateHeadings_rowData {s t : Log g} (hi : s.initialized = true) (h : s.updateHeadings = .ok t) :
    t.rowData = s.rowData ∧ t.initialized = true := by
  unfold updateHeadings at h
  dsimp only at h
  split at h
  · obtain ⟨r, hr, h⟩ := bind_eq_ok.mp h
    obtain ⟨hs, -⟩ := storeHeadings_storeOnly s (csvLine (s.rowData.map (·.key)))
    obtain ⟨hrow, hinit⟩ := logString_rowData (hs.initialized.trans hi) hr
    obtain rfl := Except.ok.inj h
    refine ⟨hrow.trans ?_, hinit⟩
    rw [hs]
  · obtain rfl := Except.ok.inj h
    exact ⟨rfl, hi⟩

/-- Writing the row leaves it alone. -/
theorem logRow_rowData {s t : Log g} (hi : s.initialized = true) (h : s.logRow = .ok t) : t.rowData = s.rowData := by
  unfold logRow at h
  split at h
  · rw [Except.ok.inj h]
  · obtain ⟨r, hr, h⟩ := bind_eq_ok.mp h
    obtain rfl := Except.ok.inj h
    exact (logString_rowData hi hr).1

/-- What `endRow` leaves in the column of the time stamp. -/
theorem endRow_columnValue {s s' t : Log g} {now : Nat} {code : ErrorCode} (hopen : s.rowStarted = true)
    (hinit : s.init = .ok s') (hv : s'.rowData.any (·.value != []) = true) (hf : s'.timeStampFormat ≠ .None)
    (h : s.endRow now = .ok (code, t)) :
    t.columnValue (cleaned s'.timeStampHeading) = some (cleaned (timeStamp s'.timeStampFormat now)) := by
  have hi : s'.initialized = true := init_initialized hinit
  unfold endRow at h
  rw [hopen] at h
  obtain ⟨u, hu, h⟩ := bind_eq_ok.mp h
  obtain rfl := Except.ok.inj (hinit.symm.trans hu)
  obtain ⟨s₁, h₁, h⟩ := bind_eq_ok.mp h
  obtain ⟨s₂, h₂, h⟩ := bind_eq_ok.mp h
  obtain ⟨s₃, h₃, h⟩ := bind_eq_ok.mp h
  unfold stampRow logData at h₁
  rw [if_pos ⟨hv, hf⟩, init_of_initialized hi] at h₁
  have hi₁ : s₁.initialized = true ∧
      s₁.columnValue (cleaned s'.timeStampHeading) = some (cleaned (timeStamp s'.timeStampFormat now)) := by
    obtain rfl := Except.ok.inj h₁
    refine ⟨?_, columnValue_setColumn _ _ _⟩
    obtain ⟨u, hu⟩ : ∃ u, u = if s'.rowStarted = true then s' else s'.startRow := ⟨_, rfl⟩
    have hiu : u.initialized = true := by
      rw [hu]
      split
      · exact hi
      · exact hi
    rw [← hu]
    unfold setColumn addHeading
    dsimp only
    split
    · exact hiu
    · split
      · exact hiu
      · exact hiu
  obtain ⟨hrow₂, hi₂⟩ := updateHeadings_rowData hi₁.1 h₂
  have hrow₃ := logRow_rowData hi₂ h₃
  obtain ⟨-, rfl⟩ := Prod.mk.inj (Except.ok.inj h)
  unfold columnValue at hi₁ ⊢
  dsimp only
  rw [hrow₃, hrow₂]
  exact hi₁.2

/-- The time stamp of a row. Whenever a row with a value is ended at a time, in a format other than none, within the range of
the billions, the column of the time stamp then holds the decimal number of milliseconds, or the larger units with two
decimals, exactly if the format is milliseconds or the billions of the hundredths of a unit are a multiple of 100. -/
theorem stored_time_stamp (s s' t : Log g) (now : Nat) (code : ErrorCode) (hopen : s.rowStarted = true)
    (hinit : s.init = .ok s') (hv : s'.rowData.any (·.value != []) = true) (hf : s'.timeStampFormat ≠ .None)
    (hnow : now / s'.timeStampFormat.value < 2 ^ 31 * 1000000000) (ht : s.endRow now = .ok (code, t)) :
    t.columnValue (cleaned s'.timeStampHeading) = some (timeStampText s'.timeStampFormat now) ↔
      s'.timeStampFormat = .Milliseconds ∨ billionsOf s'.timeStampFormat now % 100 = 0 := by
  rw [endRow_columnValue hopen hinit hv hf ht, (plain_timeStamp hf hnow).cleaned true, Option.some_inj]
  exact timeStamp_iff hf hnow

/-- A device that has logged seconds for an hour. -/
theorem stored_time_stamp_one :
    ∃ s t code, (new (blankFlash sixteenPages) fun _ => 0).run
        [.clear false, .setTimeStamp .Seconds, .logData (ascii ['k']) (ascii ['1'])] = .ok s ∧
      s.endRow 3600000 = .ok (code, t) ∧
      (t.columnValue (cleaned s.timeStampHeading) = some (timeStampText s.timeStampFormat 3600000) ↔
        s.timeStampFormat = .Milliseconds ∨ billionsOf s.timeStampFormat 3600000 % 100 = 0) := by
  have hrun : (match (new (blankFlash sixteenPages) fun _ => 0).run
        [.clear false, .setTimeStamp .Seconds, .logData (ascii ['k']) (ascii ['1'])] with
      | .ok s => decide (s.initialized = true ∧ s.rowStarted = true ∧ s.rowData.any (·.value != []) = true ∧
          s.timeStampFormat = .Seconds) &&
        match s.endRow 3600000 with
        | .ok _ => true
        | .error _ => false
      | .error _ => false) = true := by
    decide +kernel
  cases hs : (new (blankFlash sixteenPages) fun _ => 0).run
      [.clear false, .setTimeStamp .Seconds, .logData (ascii ['k']) (ascii ['1'])] with
  | error e =>
    rw [hs] at hrun
    nomatch hrun
  | ok s =>
    simp only [hs, Bool.and_eq_true, decide_eq_true_eq] at hrun
    obtain ⟨⟨hi, hopen, hv, hf⟩, hend⟩ := hrun
    cases ht : s.endRow 3600000 with
    | error e =>
      simp only [ht] at hend
      nomatch hend
    | ok r =>
      refine ⟨s, r.2, r.1, rfl, ht, ?_⟩
      exact stored_time_stamp s s r.2 3600000 r.1 hopen (init_of_initialized hi) hv (by rw [hf]; decide)
        (by rw [hf]; decide) ht

/-- After 10000000000 ms, which are 10000000 s, the stamp in seconds begins anew: it is "0.00". -/
theorem time_stamp_begins_anew :
    ∃ s t code, (new (blankFlash sixteenPages) fun _ => 0).run
        [.clear false, .setTimeStamp .Seconds, .logData (ascii ['k']) (ascii ['1'])] = .ok s ∧
      s.endRow 10000000000 = .ok (code, t) ∧
      t.columnValue (cleaned s.timeStampHeading) = some (ascii ['0', '.', '0', '0']) ∧
      timeStampText s.timeStampFormat 10000000000 =
        ascii ['1', '0', '0', '0', '0', '0', '0', '0', '.', '0', '0'] := by
  have hrun : (match (new (blankFlash sixteenPages) fun _ => 0).run
        [.clear false, .setTimeStamp .Seconds, .logData (ascii ['k']) (ascii ['1'])] with
      | .ok s =>
        match s.endRow 10000000000 with
        | .ok r => decide (r.2.columnValue (cleaned s.timeStampHeading) = some (ascii ['0', '.', '0', '0']) ∧
            s.timeStampFormat = .Seconds)
        | .error _ => false
      | .error _ => false) = true := by
    decide +kernel
  cases hs : (new (blankFlash sixteenPages) fun _ => 0).run
      [.clear false, .setTimeStamp .Seconds, .logData (ascii ['k']) (ascii ['1'])] with
  | error e =>
    rw [hs] at hrun
    nomatch hrun
  | ok s =>
    simp only [hs] at hrun
    cases ht : s.endRow 10000000000 with
    | error e =>
      simp only [ht] at hrun
      nomatch hrun
    | ok r =>
      simp only [ht, decide_eq_true_eq] at hrun
      refine ⟨s, r.2, r.1, rfl, ht, hrun.1, ?_⟩
      rw [hrun.2]
      decide +kernel

end Log

end CodalMicrobit
