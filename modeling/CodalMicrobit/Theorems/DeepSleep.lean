import CodalMicrobit.Power.DeepSleep

/-!
# The budget of a deep sleep

Twice the measured time of the power-down is taken off the budget, in numbers without a sign: a power-down of half the time
that is left makes a budget of nearly 2^64 ticks. A budget that is not larger than the time that is left is kept: the
intervals that are programmed add up to no more than it, and the loop ends when it is used up.
-/

namespace CodalMicrobit

namespace MicroBitPowerManager

/-- What `canDeepSleep` accepts for a wake-up on time. -/
theorem canDeepSleep_eq_ok {sysTimer wakeUpSources wakeUpPin : Bool} {timeEntry wakeUpTime : CODAL_TIMESTAMP} {count : Nat}
    (h : canDeepSleep sysTimer timeEntry true wakeUpTime wakeUpSources count wakeUpPin = .DEVICE_OK) :
    timeEntry.toNat + 100000 ≤ wakeUpTime.toNat := by
  unfold canDeepSleep at h
  split at h
  · nomatch h
  · rw [if_pos rfl] at h
    split at h
    · nomatch h
    · rename_i hn
      rw [not_or, UInt64.not_lt, UInt64.not_lt] at hn
      obtain ⟨hle, hmin⟩ := hn
      have hsub := UInt64.toNat_sub_of_le _ _ hle
      rw [UInt64.le_iff_toNat_le] at hle hmin
      have hc : (CONFIG_MINIMUM_DEEP_SLEEP_TIME * 1000).toNat = 100000 := by decide
      omega

/-- The budget is right exactly when what is taken off is not more than the time that is left. -/
theorem totalTicks_le_iff {wakeUpTime timeEntry timeStart : CODAL_TIMESTAMP} (hwake : timeEntry.toNat ≤ wakeUpTime.toNat)
    (hstart : timeEntry.toNat ≤ timeStart.toNat) :
    (totalTicks wakeUpTime timeEntry timeStart).toNat ≤ wakeUpTime.toNat - timeEntry.toNat ↔
      (2 * (timeStart.toNat - timeEntry.toNat) + 13) % 2 ^ 64 ≤ wakeUpTime.toNat - timeEntry.toNat := by
  have hw := UInt64.toNat_sub_of_le _ _ (UInt64.le_iff_toNat_le.mpr hwake)
  have hs := UInt64.toNat_sub_of_le _ _ (UInt64.le_iff_toNat_le.mpr hstart)
  have h13 : (13 : UInt64).toNat = 13 := by decide
  have h2 : (2 : UInt64).toNat = 2 := by decide
  have h1 : usPerTick.toNat = 1 := by decide
  have hlt := wakeUpTime.toNat_lt
  unfold totalTicks
  rw [UInt64.toNat_sub, UInt64.toNat_sub, hw, h13, UInt64.toNat_div, UInt64.toNat_mul, hs, h2, h1]
  omega

/-! ## The loop -/

namespace Sleep

/-- The sum of the intervals that were programmed. -/
def total (s : Sleep) : Nat := (s.programmed.map UInt32.toNat).sum

/-- What the timer does: it interrupts when the counter has come to the value that was programmed last, which is then the
least that is captured; and no sleep lasts as long as 2^64 ticks. -/
def Possible (s : Sleep) (w : Wake) : Prop :=
  (w.timer = true → ∀ remain ∈ s.programmed.head?, remain.toNat ≤ (w.tick1 - s.tick0).toNat) ∧
    s.sleepTicks.toNat + (w.tick1 - s.tick0).toNat < 2 ^ 64

/-- The intervals add up to no more than the budget, each leaves the timer a second before it wraps, and the loop has ended
when the budget is used up. -/
structure Within (totalTicks : UInt64) (s : Sleep) : Prop where
  total_le : s.total ≤ totalTicks.toNat
  fits : ∀ remain ∈ s.programmed, remain.toNat + 1000000 < 2 ^ 32
  ends : totalTicks ≤ s.sleepTicks → s.ended = true

/-- Before the loop goes on, after `n` turns: the intervals are used up, and all but the last were as long as they can be. -/
structure Resumed (totalTicks : UInt64) (n : Nat) (s : Sleep) : Prop where
  total_le : s.total ≤ totalTicks.toNat
  fits : ∀ remain ∈ s.programmed, remain.toNat + 1000000 < 2 ^ 32
  passed : s.total ≤ s.sleepTicks.toNat
  turns : s.sleepTicks < totalTicks → n * ticksMax.toNat ≤ s.sleepTicks.toNat
  goesOn : s.ended = false

/-- While the processor sleeps, after `n` turns: the last interval is what is left of the budget, or the longest. -/
structure Armed (totalTicks : UInt64) (n : Nat) (s : Sleep) : Prop where
  left : s.sleepTicks.toNat < totalTicks.toNat
  turns : n * ticksMax.toNat ≤ s.sleepTicks.toNat
  last : ∃ remain rest, s.programmed = remain :: rest ∧
    remain.toNat = min (totalTicks.toNat - s.sleepTicks.toNat) ticksMax.toNat ∧
    (rest.map UInt32.toNat).sum ≤ s.sleepTicks.toNat

/-- What every turn keeps. -/
structure Kept (totalTicks : UInt64) (n : Nat) (s : Sleep) : Prop where
  within : Within totalTicks s
  armed : s.ended = false → Armed totalTicks n s

variable {totalTicks : UInt64} {n : Nat} {s : Sleep}

/-- The longest wait is a second short of all the ticks. -/
theorem ticksMax_toNat : ticksMax.toNat + 1000000 = 2 ^ 32 - 1 := by decide

/-- The interval that is programmed: the cast to 32 bits loses nothing. -/
theorem remain_toNat (h : s.sleepTicks.toNat < totalTicks.toNat) :
    (if totalTicks - s.sleepTicks > ticksMax.toUInt64 then ticksMax
      else (totalTicks - s.sleepTicks).toUInt32).toNat =
      min (totalTicks.toNat - s.sleepTicks.toNat) ticksMax.toNat := by
  have hsub := UInt64.toNat_sub_of_le _ _ (UInt64.le_iff_toNat_le.mpr h.le)
  have hmax := ticksMax_toNat
  split
  · rename_i hgt
    rw [gt_iff_lt, UInt64.lt_iff_toNat_lt, hsub, UInt32.toNat_toUInt64] at hgt
    exact (Nat.min_eq_right hgt.le).symm
  · rename_i hle
    rw [gt_iff_lt, UInt64.lt_iff_toNat_lt, hsub, UInt32.toNat_toUInt64] at hle
    rw [UInt64.toNat_toUInt32 (totalTicks - s.sleepTicks), hsub]
    generalize ticksMax.toNat = longest at hmax hle ⊢
    rw [Nat.min_eq_left (by omega), Nat.mod_eq_of_lt (by omega)]

/-- The top of the loop. -/
theorem Resumed.arm (h : Resumed totalTicks n s) : Kept totalTicks n (s.arm true totalTicks) := by
  unfold Sleep.arm
  rw [if_pos rfl]
  by_cases hend : s.sleepTicks ≥ totalTicks
  · rw [if_pos hend]
    exact ⟨⟨h.total_le, h.fits, fun _ => rfl⟩, fun hgo => nomatch hgo⟩
  · rw [if_neg hend]
    have hlt : s.sleepTicks < totalTicks := UInt64.not_le.mp hend
    have hlt' := UInt64.lt_iff_toNat_lt.mp hlt
    have hremain := remain_toNat hlt'
    have hmax := ticksMax_toNat
    have hpassed := h.passed
    unfold Sleep.total at hpassed
    dsimp only
    refine ⟨⟨?_, ?_, fun hle => absurd hle hend⟩, fun _ => ⟨hlt', h.turns hlt, _, _, rfl, hremain, hpassed⟩⟩
    · unfold Sleep.total
      rw [List.map_cons, List.sum_cons, hremain]
      omega
    · intro remain hmem
      rcases List.mem_cons.mp hmem with rfl | hmem
      · rw [hremain]
        omega
      · exact h.fits remain hmem

/-- One wake-up. -/
theorem Kept.turn (h : Kept totalTicks n s) {w : Wake} (hw : s.ended = false → s.Possible w) :
    Kept totalTicks (n + 1) (s.turn true totalTicks w) := by
  unfold Sleep.turn
  cases hended : s.ended with
  | true =>
    rw [if_pos rfl]
    exact ⟨h.within, fun hgo => by rw [hended] at hgo; nomatch hgo⟩
  | false =>
    rw [if_neg (by decide)]
    obtain ⟨hdue, hfits⟩ := hw hended
    obtain ⟨hleft, hturns, remain, rest, hprog, hremain, hrest⟩ := h.armed hended
    have hticks : (s.resume w).sleepTicks.toNat = s.sleepTicks.toNat + (w.tick1 - s.tick0).toNat := by
      unfold Sleep.resume
      dsimp only
      rw [UInt64.toNat_add, UInt32.toNat_toUInt64]
      omega
    dsimp only
    cases htimer : w.timer with
    | false =>
      have hleave : (s.resume w).ended = true := by
        unfold Sleep.resume
        rw [htimer]
        rfl
      rw [if_pos hleave]
      exact ⟨⟨h.within.total_le, h.within.fits, fun _ => hleave⟩, fun hgo => by rw [hleave] at hgo; nomatch hgo⟩
    | true =>
      have hgo : (s.resume w).ended = false := by
        unfold Sleep.resume
        rw [htimer]
        rfl
      rw [if_neg (by rw [hgo]; decide)]
      have hdue' := hdue htimer remain (by rw [hprog]; rfl)
      refine Resumed.arm ⟨h.within.total_le, h.within.fits, ?_, fun hlt => ?_, hgo⟩
      · rw [hticks]
        change s.total ≤ _
        unfold Sleep.total
        rw [hprog, List.map_cons, List.sum_cons]
        omega
      · rw [UInt64.lt_iff_toNat_lt, hticks] at hlt
        rw [hticks, Nat.add_mul]
        omega

variable {tickStart : UInt32} {wakes : List Wake}

/-- Every wake-up of the run is one that the timer can give. -/
def PossibleRun (totalTicks : UInt64) (tickStart : UInt32) (wakes : List Wake) : Prop :=
  ∀ before w, before ++ [w] <+: wakes → (run true totalTicks tickStart before).ended = false →
    (run true totalTicks tickStart before).Possible w

/-- The whole run. -/
theorem kept_run (h : PossibleRun totalTicks tickStart wakes) :
    Kept totalTicks wakes.length (run true totalTicks tickStart wakes) := by
  induction wakes using List.reverseRecOn with
  | nil =>
    refine Resumed.arm ⟨Nat.zero_le _, fun _ hr => absurd hr List.not_mem_nil, Nat.zero_le _, fun _ => ?_, rfl⟩
    rw [List.length_nil, Nat.zero_mul]
    exact Nat.zero_le _
  | append_singleton wakes w ih =>
    have hkept := ih fun before v hv => h before v (hv.trans (List.prefix_append wakes [w]))
    unfold run at hkept ⊢
    rw [List.foldl_append, List.length_append, List.length_singleton]
    exact hkept.turn (h wakes w (List.prefix_refl _))

end Sleep

/-! ## Both together -/

/-- The budget is at most the time that is left, it is kept in every state of every run, and every run ends. -/
structure Budgeted (wakeUpTime timeEntry timeStart : CODAL_TIMESTAMP) (tickStart : UInt32) : Prop where
  total_le : (totalTicks wakeUpTime timeEntry timeStart).toNat ≤ wakeUpTime.toNat - timeEntry.toNat
  within : ∀ wakes, Sleep.PossibleRun (totalTicks wakeUpTime timeEntry timeStart) tickStart wakes →
    Sleep.Within (totalTicks wakeUpTime timeEntry timeStart)
      (Sleep.run true (totalTicks wakeUpTime timeEntry timeStart) tickStart wakes)
  ends : ∀ wakes, Sleep.PossibleRun (totalTicks wakeUpTime timeEntry timeStart) tickStart wakes →
    (totalTicks wakeUpTime timeEntry timeStart).toNat / ticksMax.toNat < wakes.length →
    (Sleep.run true (totalTicks wakeUpTime timeEntry timeStart) tickStart wakes).ended = true

/-- The arithmetic is right exactly when twice the time of the power-down, and the latency, are not more than the time that is
left. -/
theorem budgeted_iff (sysTimer wakeUpSources wakeUpPin : Bool) (count : Nat)
    (timeEntry timeCheck wakeUpTime timeStart : CODAL_TIMESTAMP) (tickStart : UInt32)
    (hcan : canDeepSleep sysTimer timeCheck true wakeUpTime wakeUpSources count wakeUpPin = .DEVICE_OK)
    (hcheck : timeEntry ≤ timeCheck) (hstart : timeEntry ≤ timeStart) :
    Budgeted wakeUpTime timeEntry timeStart tickStart ↔
      (2 * (timeStart.toNat - timeEntry.toNat) + 13) % 2 ^ 64 ≤ wakeUpTime.toNat - timeEntry.toNat := by
  have hok := canDeepSleep_eq_ok hcan
  rw [UInt64.le_iff_toNat_le] at hcheck hstart
  rw [← totalTicks_le_iff (by omega) hstart]
  constructor
  · exact fun h => h.total_le
  · intro hle
    refine ⟨hle, fun wakes hrun => (Sleep.kept_run hrun).within, fun wakes hrun hlen => ?_⟩
    by_contra hgo
    obtain ⟨hleft, hturns, -⟩ := (Sleep.kept_run hrun).armed (by simpa using hgo)
    have hmax : 0 < ticksMax.toNat := by decide
    exact absurd ((Nat.le_div_iff_mul_le hmax).mpr (hturns.trans hleft.le)) (by omega)

/-- A wake-up in 200 ms after a power-down of 10 ms. -/
theorem budgeted_200ms :
    canDeepSleep true 0 true 200000 true 1 false = .DEVICE_OK ∧ (0 : CODAL_TIMESTAMP) ≤ 0 ∧ (0 : CODAL_TIMESTAMP) ≤ 10000 ∧
      (Budgeted 200000 0 10000 0 ↔ (2 * ((10000 : CODAL_TIMESTAMP).toNat - (0 : CODAL_TIMESTAMP).toNat) + 13) % 2 ^ 64 ≤
        (200000 : CODAL_TIMESTAMP).toNat - (0 : CODAL_TIMESTAMP).toNat) :=
  ⟨by decide, by decide, by decide, budgeted_iff true true false 1 0 0 200000 10000 0 (by decide) (by decide) (by decide)⟩

/-- A wake-up in 100 ms, which is accepted, after a power-down of 50 ms: the budget is nearly 2^64 ticks. -/
theorem budgeted_100ms :
    canDeepSleep true 0 true 100000 true 1 false = .DEVICE_OK ∧ ¬ Budgeted 100000 0 50000 0 :=
  ⟨by decide, fun h => absurd h.total_le (by decide)⟩

end MicroBitPowerManager

end CodalMicrobit
