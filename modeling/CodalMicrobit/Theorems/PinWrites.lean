import CodalMicrobit.Bluetooth.IOPinService

/-!
# Writes to the pins

The tests of a pin number shift a bit by it, and `edgePin` takes a number that is too great for pin 0. So a pair for a pin that
does not exist drives pin 0, unless its bit is set among the inputs; and the PWM characteristic does not look at the inputs at all.
-/

namespace CodalMicrobit

namespace IOPinService

/-- The pins that a write may drive: those of the edge connector that are not configured as inputs. -/
def Permitted (s : IOPinService) (pin : UInt8) : Prop :=
  pin.toNat < MICROBIT_IO_PIN_SERVICE_PINCOUNT ∧ s.ioPinServiceIOCharacteristicBuffer.toNat.testBit pin.toNat = false

/-- The pins that a write to the Data or the PWM characteristic names, each with the calls made for it. -/
def entries (shl : Nat → UInt32) (s : IOPinService) (params : PinWrite) : List (UInt8 × List PinAccess) :=
  match params.handle with
  | .data => (ioData params.data).map fun e => (e.pin, s.setPin shl e)
  | .pwm => (pwmData params.data).map fun e => (e.pin, setPWM e)
  | _ => []

/-- The calls that drive a pin. -/
def Drives : PinCall → Prop
  | .getDigitalValue | .getAnalogValue => False
  | .setDigitalValue _ | .setAnalogValue _ | .setAnalogPeriodUs _ => True

/-- The only pins driven are permitted ones that the write names, and nothing comes of the entries for other pins. -/
structure DrivesNamed (shl : Nat → UInt32) (s : IOPinService) (params : PinWrite) : Prop where
  driven : ∀ a ∈ (s.onDataWritten shl params).1, Drives a.call →
    ∃ e ∈ s.entries shl params, a.pin = e.1.toNat ∧ s.Permitted e.1
  others : ∀ e ∈ s.entries shl params, ¬ s.Permitted e.1 → e.2 = []

/-- The condition on a write. -/
def NamesPins (shl : Nat → UInt32) (s : IOPinService) (params : PinWrite) : Prop :=
  match params.handle with
  | .data =>
    ∀ e ∈ ioData params.data, MICROBIT_IO_PIN_SERVICE_PINCOUNT ≤ e.pin.toNat → s.isActiveInput shl e.pin.toNat = true
  | .pwm => ∀ e ∈ pwmData params.data, s.Permitted e.pin
  | _ => True

variable {shl : Nat → UInt32} {s : IOPinService} {params : PinWrite}

/-- The clamping of `edgePin` leaves the pins alone that exist. -/
theorem edgePin_of_lt {i : Nat} (h : i < MICROBIT_IO_PIN_SERVICE_PINCOUNT) : edgePin i = i := by
  rw [edgePin, if_neg, Int.toNat_natCast]
  omega

/-- Masking with the bit of a pin leaves nothing exactly if the bit is clear. -/
theorem and_two_pow_eq_zero_iff (n i : Nat) : n &&& 2 ^ i = 0 ↔ n.testBit i = false := by
  refine ⟨fun h => ?_, fun h => Nat.eq_of_testBit_eq fun j => ?_⟩
  · have hbit : (n &&& 2 ^ i).testBit i = n.testBit i := by
      rw [Nat.testBit_and, Nat.testBit_two_pow_self, Bool.and_true]
    rw [← hbit, h, Nat.zero_testBit]
  · rw [Nat.testBit_and, Nat.testBit_two_pow, Nat.zero_testBit]
    by_cases hij : i = j
    · rw [← hij, h, Bool.false_and]
    · rw [decide_eq_false hij, Bool.and_false]

/-- `isActiveInput` reads the bit of the pin where the shift is defined. -/
theorem isActiveInput_eq_testBit (hshl : ∀ i < 31, (shl i).toNat = 2 ^ i) {i : Nat} (h : i < 31) :
    s.isActiveInput shl i = s.ioPinServiceIOCharacteristicBuffer.toNat.testBit i := by
  have hand : s.ioPinServiceIOCharacteristicBuffer &&& shl i = 0 ↔
      s.ioPinServiceIOCharacteristicBuffer.toNat.testBit i = false := by
    rw [← and_two_pow_eq_zero_iff, ← hshl i h, ← UInt32.toNat_and]
    exact UInt32.toNat_inj.symm
  rw [isActiveInput, Bool.eq_iff_iff, bne_iff_ne, ne_eq, hand, Bool.not_eq_false]

/-- A pair comes to nothing exactly if its pin is an input. -/
theorem setPin_eq_nil_iff (e : IOData) : s.setPin shl e = [] ↔ s.isActiveInput shl e.pin.toNat = true := by
  unfold setPin
  cases s.isActiveInput shl e.pin.toNat with
  | true => exact iff_of_true rfl rfl
  | false =>
    refine iff_of_false ?_ nofun
    rw [Bool.not_false, if_pos rfl]
    split_ifs <;> nofun

/-- The calls for an entry are for the pin that `edgePin` makes of its number. -/
theorem pin_of_mem_setPin {e : IOData} {a : PinAccess} (h : a ∈ s.setPin shl e) : a.pin = edgePin e.pin.toNat := by
  unfold setPin at h
  split at h
  · split at h <;> rw [List.mem_singleton.mp h]
  · exact absurd h List.not_mem_nil

/-- `setPWM` drives no pin but the one named. -/
theorem pin_of_mem_setPWM {e : IOPWMData} {a : PinAccess} (h : a ∈ setPWM e) : a.pin = edgePin e.pin.toNat := by
  rcases List.mem_pair.mp h with rfl | rfl <;> rfl

/-- A pin for which nothing is to be done is not named, or named and permitted, in the terms of a pair. -/
theorem setPin_others_iff (hshl : ∀ i < 31, (shl i).toNat = 2 ^ i) (e : IOData) :
    (¬ s.Permitted e.pin → s.setPin shl e = []) ↔
      (MICROBIT_IO_PIN_SERVICE_PINCOUNT ≤ e.pin.toNat → s.isActiveInput shl e.pin.toNat = true) := by
  rw [setPin_eq_nil_iff]
  by_cases hpin : e.pin.toNat < MICROBIT_IO_PIN_SERVICE_PINCOUNT
  · refine iff_of_true (fun h => ?_) fun h => absurd hpin (Nat.not_lt.mpr h)
    rw [isActiveInput_eq_testBit hshl (hpin.trans (by decide))]
    by_contra hbit
    exact h ⟨hpin, Bool.eq_false_iff.mpr hbit⟩
  · exact ⟨fun h _ => h fun hp => hpin hp.1, fun h _ => h (Nat.le_of_not_lt hpin)⟩

/-- Where the calls are those of the entries, it is enough that nothing comes of the entries for other pins. -/
theorem drivesNamed_iff_others (hcalls : (s.onDataWritten shl params).1 = (s.entries shl params).flatMap (·.2))
    (hpin : ∀ e ∈ s.entries shl params, ∀ a ∈ e.2, a.pin = edgePin e.1.toNat) :
    s.DrivesNamed shl params ↔ ∀ e ∈ s.entries shl params, ¬ s.Permitted e.1 → e.2 = [] := by
  refine ⟨DrivesNamed.others, fun hothers => ⟨fun a ha _ => ?_, hothers⟩⟩
  rw [hcalls] at ha
  obtain ⟨e, he, hae⟩ := List.mem_flatMap.mp ha
  have hperm : s.Permitted e.1 := by
    by_contra hperm
    rw [hothers e he hperm] at hae
    exact absurd hae List.not_mem_nil
  exact ⟨e, he, (hpin e he a hae).trans (edgePin_of_lt hperm.1), hperm⟩

/-- The pins in the selection of the inputs are not driven. -/
theorem not_drives_of_mem_selectInputs {a : PinAccess} (h : a ∈ s.selectInputs shl) : ¬ Drives a.call := by
  obtain ⟨i, -, ha⟩ := List.mem_flatMap.mp h
  rcases List.mem_append.mp ha with ha | ha
  · split_ifs at ha
    · rw [List.mem_singleton.mp ha]
      exact id
    · exact absurd ha List.not_mem_nil
  · split_ifs at ha
    · rw [List.mem_singleton.mp ha]
      exact id
    · exact absurd ha List.not_mem_nil

/-- A write to another characteristic drives no pin. -/
theorem drivesNamed_of_reads (hentries : s.entries shl params = [])
    (hcalls : ∀ a ∈ (s.onDataWritten shl params).1, ¬ Drives a.call) : s.DrivesNamed shl params :=
  ⟨fun a ha hd => absurd hd (hcalls a ha), fun e he => by rw [hentries] at he; exact absurd he List.not_mem_nil⟩

/-- A write drives only the pins it names, and only permitted ones, exactly if each pair for a pin that does not exist passes for an
input, and the PWM characteristic is given permitted pins alone. -/
theorem onDataWritten_drivesNamed_iff (hshl : ∀ i < 31, (shl i).toNat = 2 ^ i) (s : IOPinService) (params : PinWrite) :
    s.DrivesNamed shl params ↔ s.NamesPins shl params := by
  obtain ⟨handle, data, len⟩ := params
  cases handle with
  | adcConfiguration =>
    refine iff_of_true (drivesNamed_of_reads rfl fun a ha => ?_) trivial
    unfold onDataWritten at ha
    dsimp only at ha
    split at ha
    · exact not_drives_of_mem_selectInputs ha
    · exact absurd ha List.not_mem_nil
  | ioConfiguration =>
    refine iff_of_true (drivesNamed_of_reads rfl fun a ha => ?_) trivial
    unfold onDataWritten at ha
    dsimp only at ha
    split at ha
    · exact not_drives_of_mem_selectInputs ha
    · exact absurd ha List.not_mem_nil
  | pwm =>
    have hcalls : (s.onDataWritten shl ⟨.pwm, data, len⟩).1 =
        (s.entries shl ⟨.pwm, data, len⟩).flatMap (·.2) := by
      rw [entries, List.flatMap_map]
      rfl
    refine (drivesNamed_iff_others hcalls (List.forall_mem_map.mpr fun e _ a => pin_of_mem_setPWM)).trans ?_
    refine List.forall_mem_map.trans (forall₂_congr fun e _ => ?_)
    refine ⟨fun h => ?_, fun hperm hn => absurd hperm hn⟩
    by_contra hperm
    nomatch h hperm
  | data =>
    have hcalls : (s.onDataWritten shl ⟨.data, data, len⟩).1 =
        (s.entries shl ⟨.data, data, len⟩).flatMap (·.2) := by
      rw [entries, List.flatMap_map]
      rfl
    refine (drivesNamed_iff_others hcalls (List.forall_mem_map.mpr fun e _ a => pin_of_mem_setPin)).trans ?_
    exact List.forall_mem_map.trans (forall₂_congr fun e _ => setPin_others_iff hshl e)

/-- The shift of the processor, which leaves nothing of a bit that is shifted too far. -/
def lsl (i : Nat) : UInt32 := if i < 32 then UInt32.ofNat (2 ^ i) else 0

/-- The bit of a pin, as a number. -/
theorem toNat_lsl (i : Nat) (h : i < 31) : (lsl i).toNat = 2 ^ i := by
  have h32 : i < 32 := h.trans (Nat.lt_succ_self 31)
  rw [lsl, if_pos h32]
  exact UInt32.toNat_ofNat_of_lt' (Nat.pow_lt_pow_right Nat.one_lt_two h32)

/-- One write to pin 3. -/
theorem onDataWritten_drivesNamed_pin : DrivesNamed lsl {} ⟨.data, [3, 1], by decide⟩ :=
  (onDataWritten_drivesNamed_iff toNat_lsl {} _).mpr (by
    intro e he hle
    rw [List.mem_singleton.mp he] at hle
    exact absurd hle (by decide))

/-- A service for which pin 0 is an input. -/
def inputZero : IOPinService := { ioPinServiceIOCharacteristicBuffer := 1 }

/-- A pair for pin 25 drives it, and so does the PWM characteristic. -/
theorem onDataWritten_drives_input :
    ¬ DrivesNamed lsl inputZero ⟨.data, [25, 1], by decide⟩ ∧
      ¬ DrivesNamed lsl inputZero ⟨.pwm, [0, 0, 2, 16, 39, 0, 0], by decide⟩ := by
  refine ⟨fun h => ?_, fun h => ?_⟩
  · have he := h.others (25, [⟨0, .setDigitalValue 1⟩]) (by decide +kernel) fun hp => absurd hp.1 (by decide)
    exact absurd he nofun
  · have he := h.others (0, [⟨0, .setAnalogValue 512⟩, ⟨0, .setAnalogPeriodUs 10000⟩]) (by decide +kernel) fun hp =>
      absurd hp.2 (by decide)
    exact absurd he nofun

end IOPinService

end CodalMicrobit
