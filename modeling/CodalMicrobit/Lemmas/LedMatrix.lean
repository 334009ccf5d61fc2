import CodalMicrobit.Lib.Sweep
import CodalMicrobit.NRF52LedMatrix

/-!
# What the calls of the LED matrix do

Every call is given by the members and registers that it sets. The loops over the columns set the registers of each column once.
-/

namespace CodalMicrobit

namespace MatrixMap

variable (M : MatrixMap)

/-- The number of slots in a mode. -/
def slots (mode : DisplayMode) : Nat := if mode.senses then M.rows + 1 else M.rows

/-- How long a slot of a row lasts in a mode. -/
def period (mode : DisplayMode) : Nat := NRF52_LED_MATRIX_CLOCK_FREQUENCY / (NRF52_LED_MATRIX_FREQUENCY * M.slots mode)

/-- The GPIOTE configuration of a task on a pin that is low at first. -/
def taskOn (pin : Nat) : BitVec 32 := 0x00010003 ||| BitVec.ofNat 32 pin <<< 8

/-- The GPIOTE configuration of a column whose pin is low at first. -/
def wiring (column : Nat) : BitVec 32 := taskOn (M.columnPins column)

variable {M}

/-- There is at least one slot. -/
theorem slots_pos (mode : DisplayMode) : 0 < M.slots mode := by
  have := M.rows_pos
  unfold slots
  split <;> omega

/-- Every row has its slot. -/
theorem rows_le_slots (mode : DisplayMode) : M.rows ≤ M.slots mode := by
  unfold slots
  split <;> omega

/-- There is at most one slot besides the rows. -/
theorem slots_le (mode : DisplayMode) : M.slots mode ≤ M.rows + 1 := by
  unfold slots
  split <;> omega

/-- A slot lasts some ticks, as there are less than 256 of them. -/
theorem period_pos (mode : DisplayMode) : 0 < M.period mode := by
  have hlt := M.rows_lt
  have hpos := M.slots_pos mode
  have hle := M.slots_le mode
  unfold period NRF52_LED_MATRIX_CLOCK_FREQUENCY NRF52_LED_MATRIX_FREQUENCY
  exact Nat.div_pos (by omega) (by omega)

end MatrixMap

open MatrixMap

namespace NRF52LEDMatrix

variable {M : MatrixMap} {s : NRF52LEDMatrix M} {c r : Nat}

/-- The timer switches the column off when it reaches the compare register of the column. -/
structure Wired (s : NRF52LEDMatrix M) (c : Nat) : Prop where
  config : s.CONFIG (gpiote c) = M.wiring c ∨ s.CONFIG (gpiote c) = M.wiring c ||| OUTINIT
  event : s.EEP (ppi c) = some (.EVENTS_COMPARE (c + 1))
  task : s.TEP (ppi c) = some (.TASKS_SET (gpiote c))
  enabled : s.CHEN (ppi c) = true

/-- Only the registers of the GPIOTE and the PPI matter. -/
theorem Wired.congr {t : NRF52LEDMatrix M} (h : s.Wired c) (hconfig : t.CONFIG = s.CONFIG) (hevent : t.EEP = s.EEP)
    (htask : t.TEP = s.TEP) (henabled : t.CHEN = s.CHEN) : t.Wired c where
  config := hconfig ▸ h.config
  event := hevent ▸ h.event
  task := htask ▸ h.task
  enabled := henabled ▸ h.enabled

/-- Two columns have two GPIOTE channels. -/
theorem gpiote_ne {c c' : Nat} (h : c ≠ c') : gpiote c ≠ gpiote c' := by
  unfold gpiote
  omega

/-- Two columns have two PPI channels. -/
theorem ppi_ne {c c' : Nat} (h : c ≠ c') : ppi c ≠ ppi c' := by
  unfold ppi
  omega

/-- A capture of the timer sets the compare register that the light level is read from. -/
def Captures (TEP : Nat → Option PPITask) : Prop := ∀ k register, TEP k = some (.TASKS_CAPTURE register) → register = 1

/-- A capture in the first register may be added. -/
theorem Captures.update {TEP : Nat → Option PPITask} (h : Captures TEP) (k : Nat) {task : PPITask}
    (ht : ∀ register, task = .TASKS_CAPTURE register → register = 1) : Captures (Function.update TEP k (some task)) := by
  intro j register hj
  by_cases hjk : j = k
  · rw [hjk, Function.update_self] at hj
    exact ht register (Option.some.inj hj)
  · rw [Function.update_of_ne hjk] at hj
    exact h j register hj

/-- `enable`'s loop wires every column and keeps what it finds of captures. -/
theorem allocate_loop (s : NRF52LEDMatrix M) : ∃ CONFIG EEP TEP CHEN,
    (List.range M.columns).foldl allocate s = { s with CONFIG, EEP, TEP, CHEN } ∧ (Captures s.TEP → Captures TEP) ∧
      ∀ c < M.columns, ({ s with CONFIG, EEP, TEP, CHEN } : NRF52LEDMatrix M).Wired c := by
  let I (t : NRF52LEDMatrix M) : Prop := ∃ CONFIG EEP TEP CHEN,
    t = { s with CONFIG, EEP, TEP, CHEN } ∧ (Captures s.TEP → Captures TEP)
  have hkeeps : ∀ t, ∀ k < M.columns, I t → I (t.allocate k) := by
    rintro _ k _ ⟨CONFIG, EEP, TEP, CHEN, rfl, ht⟩
    exact ⟨_, _, _, _, rfl, fun hs => (ht hs).update _ fun _ h => PPITask.noConfusion h⟩
  obtain ⟨CONFIG, EEP, TEP, CHEN, h, hcaptures⟩ := Sweep.keeps (I := I) hkeeps (s := s) ⟨_, _, _, _, rfl, id⟩
  have hwired : ∀ c < M.columns, ((List.range M.columns).foldl allocate s).Wired c :=
    Sweep.reaches (P := fun c (t : NRF52LEDMatrix M) => t.Wired c) (I := fun _ => True) (fun _ _ _ _ => trivial)
      (fun t k _ _ => ⟨.inl (Function.update_self ..), Function.update_self .., Function.update_self .., Function.update_self ..⟩)
      (fun t j _ k _ hne ht => by
        obtain ⟨hconfig, hevent, htask, henabled⟩ := ht
        refine ⟨?_, ?_, ?_, ?_⟩
        · rwa [show (t.allocate j).CONFIG (gpiote k) = _ from Function.update_of_ne (gpiote_ne hne) ..]
        · exact (Function.update_of_ne (ppi_ne hne) ..).trans hevent
        · exact (Function.update_of_ne (ppi_ne hne) ..).trans htask
        · exact (Function.update_of_ne (ppi_ne hne) ..).trans henabled) trivial
  rw [h] at hwired
  exact ⟨CONFIG, EEP, TEP, CHEN, h, hcaptures, hwired⟩

/-- The slots are as many as the mode needs, and as long as they are to be. -/
structure Timed (s : NRF52LEDMatrix M) : Prop where
  slots : s.timeslots = M.slots s.mode
  period : s.timerPeriod = M.period s.mode
  quantum : s.quantum = s.timerPeriod * s.brightness / (256 * 255)

/-- A change of the mode. All columns are wired when the display is disabled or `status` says so, and none is otherwise. -/
theorem setDisplayMode_spec (s : NRF52LEDMatrix M) (mode : DisplayMode) : ∃ CONFIG EEP TEP CHEN,
    s.setDisplayMode mode =
      { s with
        CONFIG, EEP, TEP, CHEN, mode
        statusReset := false
        timeslots := M.slots mode
        timerPeriod := M.period mode
        quantum := M.period mode * s.brightness / (256 * 255)
        CC := Function.update s.CC 0 (M.period mode) } ∧ (Captures s.TEP → Captures TEP) ∧
      ((∀ c < M.columns, ({ s with CONFIG, EEP, TEP, CHEN } : NRF52LEDMatrix M).Wired c) ∨
        s.enabled = true ∧ s.statusReset = false ∧ CONFIG = s.CONFIG ∧ EEP = s.EEP ∧ TEP = s.TEP ∧ CHEN = s.CHEN) := by
  have hlt := M.rows_lt
  have hslots : (if mode.senses then (M.rows % 2 ^ 8 + 1) % 2 ^ 8 else M.rows % 2 ^ 8) = M.slots mode := by
    unfold MatrixMap.slots
    split <;> omega
  by_cases hwire : s.enabled = true ∧ s.statusReset = false
  · obtain ⟨hon, hreset⟩ := hwire
    have hcond : ¬(!s.enabled || s.statusReset) = true := by
      rw [hon, hreset]
      decide
    refine ⟨s.CONFIG, s.EEP, s.TEP, s.CHEN, ?_, id, .inr ⟨hon, hreset, rfl, rfl, rfl, rfl⟩⟩
    unfold setDisplayMode
    dsimp only
    rw [hslots, if_neg hcond, hreset]
    rfl
  · obtain ⟨CONFIG, EEP, TEP, CHEN, hloop, hcaptures, hwired⟩ := allocate_loop s
    have hcond : (!s.enabled || s.statusReset) = true := by
      cases hon : s.enabled <;> cases hreset : s.statusReset
      case true.false => exact absurd ⟨hon, hreset⟩ hwire
      all_goals rfl
    refine ⟨CONFIG, EEP, TEP, CHEN, ?_, hcaptures, .inl hwired⟩
    unfold setDisplayMode
    dsimp only
    rw [hslots, if_pos hcond, hloop]
    rfl

/-- Pins that are made inputs, one after the other. -/
theorem getDigitalValue_loop (s : NRF52LEDMatrix M) (pin : Nat → Nat) (n : Nat) : ∃ pins,
    (List.range n).foldl (fun s k => s.getDigitalValue (pin k)) s = { s with pins } ∧ (∀ k < n, pins (pin k) = .none) ∧
      ∀ p, s.pins p = .none → pins p = .none := by
  induction n with
  | zero => exact ⟨s.pins, rfl, fun k hk => absurd hk (Nat.not_lt_zero k), fun _ h => h⟩
  | succ n ih =>
    obtain ⟨pins, hloop, hset, hkeep⟩ := ih
    have hkept : ∀ p, pins p = .none → Function.update pins (pin n) .none p = .none := fun p hp => by
      by_cases hpn : p = pin n
      · rw [hpn, Function.update_self]
      · rw [Function.update_of_ne hpn, hp]
    refine ⟨Function.update pins (pin n) .none, by rw [Sweep.foldl_range_succ, hloop]; rfl, fun k hk => ?_,
      fun p hp => hkept p (hkeep p hp)⟩
    by_cases hkn : k = n
    · rw [hkn, Function.update_self]
    · exact hkept _ (hset k (by omega))

/-- A display that was disabled is enabled: every column is wired, and every pin of the matrix is an input. -/
theorem enable_spec (h : s.enabled = false) : ∃ CONFIG EEP TEP CHEN pins,
    s.enable =
      { s with
        CONFIG, EEP, TEP, CHEN, pins
        statusReset := false
        timeslots := M.slots s.mode
        timerPeriod := M.period s.mode
        quantum := M.period s.mode * s.brightness / (256 * 255)
        CC := Function.update s.CC 0 (M.period s.mode)
        timer := true
        enabled := true } ∧ (Captures s.TEP → Captures TEP) ∧
      (∀ c < M.columns, ({ s with CONFIG, EEP, TEP, CHEN } : NRF52LEDMatrix M).Wired c) ∧
      (∀ r < M.rows, pins (M.rowPins r) = .none) ∧ ∀ c < M.columns, pins (M.columnPins c) = .none := by
  obtain ⟨CONFIG, EEP, TEP, CHEN, hmode, hcaptures, hwired⟩ := s.setDisplayMode_spec s.mode
  obtain ⟨pins, hrows, hset, -⟩ := getDigitalValue_loop (s.setDisplayMode s.mode) M.rowPins M.rows
  obtain ⟨pins', hcolumns, hset', hkeep⟩ := getDigitalValue_loop { s.setDisplayMode s.mode with pins } M.columnPins M.columns
  refine ⟨CONFIG, EEP, TEP, CHEN, pins', ?_, hcaptures, hwired.resolve_right fun hon => ?_, fun r hr => hkeep _ (hset r hr), hset'⟩
  · unfold enable
    rw [h, if_neg Bool.false_ne_true]
    dsimp only
    rw [hrows, hcolumns, hmode]
  · rw [h] at hon
    exact Bool.false_ne_true hon.1

/-- A display that was enabled is disabled: the GPIOTE has let go of the columns, and every pin of the matrix is an input. -/
theorem disable_spec (h : s.enabled = true) : ∃ CONFIG pins,
    s.disable = { s with CONFIG, pins, timer := false, statusLightReady := false, enabled := false } ∧
      (∀ c < M.columns, CONFIG (gpiote c) = 0) ∧ (∀ r < M.rows, pins (M.rowPins r) = .none) ∧
      ∀ c < M.columns, pins (M.columnPins c) = .none := by
  let t : NRF52LEDMatrix M := { s with timer := false }
  obtain ⟨CONFIG, hrelease⟩ : ∃ CONFIG, (List.range M.columns).foldl release t = { t with CONFIG } :=
    Sweep.keeps (I := fun u => ∃ CONFIG, u = { t with CONFIG }) (by rintro _ k _ ⟨_, rfl⟩; exact ⟨_, rfl⟩) ⟨_, rfl⟩
  have hzero : ∀ c < M.columns, ((List.range M.columns).foldl release t).CONFIG (gpiote c) = 0 :=
    Sweep.reaches (P := fun c (t : NRF52LEDMatrix M) => t.CONFIG (gpiote c) = 0) (I := fun _ => True) (fun _ _ _ _ => trivial)
      (fun _ _ _ _ => Function.update_self ..) (fun _ _ _ _ _ hne ht => (Function.update_of_ne (gpiote_ne hne) ..).trans ht) trivial
  rw [hrelease] at hzero
  obtain ⟨pins, hcolumns, hset, -⟩ := getDigitalValue_loop { t with CONFIG } M.columnPins M.columns
  obtain ⟨pins', hrows, hset', hkeep⟩ := getDigitalValue_loop { t with CONFIG, pins } M.rowPins M.rows
  refine ⟨CONFIG, pins', ?_, hzero, hset', fun c hc => hkeep _ (hset c hc)⟩
  unfold disable
  rw [if_neg (by rw [h]; decide)]
  dsimp only
  rw [hrelease, hcolumns, hrows]

/-! ## Configurations -/

/-- The bit for the initial level is apart from the others of a channel's configuration. -/
theorem taskOn_initial : ∀ n < 64, taskOn n &&& ~~~OUTINIT = taskOn n ∧ (taskOn n ||| OUTINIT) &&& ~~~OUTINIT = taskOn n ∧
    taskOn n &&& OUTINIT = 0 ∧ (taskOn n ||| OUTINIT) &&& OUTINIT ≠ 0 := by
  decide +kernel

/-- The configuration of a channel in task mode names its pin. -/
theorem taskOn_reads : ∀ n < 64, (taskOn n &&& 3 = 3 ∧ taskOn n >>> 8 &&& 63 = BitVec.ofNat 32 n) ∧
    (taskOn n ||| OUTINIT) &&& 3 = 3 ∧ (taskOn n ||| OUTINIT) >>> 8 &&& 63 = BitVec.ofNat 32 n := by
  decide +kernel

/-- The configuration of a channel in event mode names its pin. -/
theorem event_reads : ∀ n < 64, (0x00010001 ||| BitVec.ofNat 32 n <<< 8) >>> 8 &&& 63 = BitVec.ofNat 32 n := by
  decide +kernel

/-- The initial level of a wired column can be set. -/
theorem Wired.initial (h : s.Wired c) (hc : c < M.columns) (lit : Prop) [Decidable lit] :
    (if lit then s.CONFIG (gpiote c) &&& ~~~OUTINIT else s.CONFIG (gpiote c) ||| OUTINIT) =
      if lit then M.wiring c else M.wiring c ||| OUTINIT := by
  split
  · obtain ⟨hlow, hhigh, -⟩ := taskOn_initial _ (M.columnPins_lt c hc)
    rcases h.config with hconfig | hconfig <;> rw [hconfig]
    · exact hlow
    · exact hhigh
  · rcases h.config with hconfig | hconfig <;> rw [hconfig]
    rw [BitVec.or_assoc, BitVec.or_self]

/-! ## The slots -/

/-- How long a pixel is lit. -/
def shine (s : NRF52LEDMatrix M) (r c : Nat) : Nat := s.level r c * s.quantum

/-- What a slot of a row sets for a column. -/
structure Strobed (s : NRF52LEDMatrix M) (r c : Nat) (CC : Nat → Nat) (CONFIG : Nat → BitVec 32) : Prop where
  compare : CC (c + 1) = s.shine r c
  config : CONFIG (gpiote c) = if s.shine r c ≠ 0 then M.wiring c else M.wiring c ||| OUTINIT

/-- `strobe` sets the compare registers and the initial levels of the columns. -/
theorem strobe_spec (hwired : ∀ c < M.columns, s.Wired c) : ∃ CC CONFIG,
    s.strobe = { s with CC, CONFIG, pins := Function.update s.pins (M.rowPins s.strobeRow) .high } ∧
      (∀ j, (∀ c < M.columns, j ≠ c + 1) → CC j = s.CC j) ∧ ∀ c < M.columns, s.Strobed s.strobeRow c CC CONFIG := by
  let I (k : Nat) (t : NRF52LEDMatrix M) : Prop := ∃ CC CONFIG, t = { s with CC, CONFIG } ∧
    (∀ j, (∀ c < M.columns, j ≠ c + 1) → CC j = s.CC j) ∧ (∀ c < k, s.Strobed s.strobeRow c CC CONFIG) ∧
    ∀ c, k ≤ c → CONFIG (gpiote c) = s.CONFIG (gpiote c)
  suffices h : ∀ k ≤ M.columns, I k ((List.range k).foldl strobeColumn s) by
    obtain ⟨CC, CONFIG, hloop, htop, hset, -⟩ := h M.columns (Nat.le_refl _)
    refine ⟨CC, CONFIG, ?_, htop, hset⟩
    unfold strobe
    rw [hloop]
    rfl
  intro k
  induction k with
  | zero => exact fun _ => ⟨s.CC, s.CONFIG, rfl, fun _ _ => rfl, fun c hc => absurd hc (Nat.not_lt_zero c), fun _ _ => rfl⟩
  | succ k ih =>
    intro hk
    obtain ⟨CC, CONFIG, hloop, htop, hset, hkeep⟩ := ih (by omega)
    have hconfig := (hwired k hk).initial hk (s.shine s.strobeRow k ≠ 0)
    rw [Sweep.foldl_range_succ, hloop]
    refine ⟨_, _, rfl, fun j hj => ?_, fun c hc => ?_, fun c hc => ?_⟩
    · exact (Function.update_of_ne (hj k hk) ..).trans (htop j hj)
    · by_cases hck : c = k
      · rw [hck]
        refine ⟨Function.update_self .., (Function.update_self ..).trans ?_⟩
        rw [← hconfig, ← hkeep k (Nat.le_refl k)]
        rfl
      · obtain ⟨hcompare, hset⟩ := hset c (by omega)
        exact ⟨(Function.update_of_ne (by omega) ..).trans hcompare, (Function.update_of_ne (gpiote_ne hck) ..).trans hset⟩
    · exact (Function.update_of_ne (gpiote_ne (by omega)) ..).trans (hkeep c (by omega))

/-- In the slot that senses light the columns are high, and no row is. -/
theorem sense_spec (s : NRF52LEDMatrix M) : ∃ CC CONFIG EEP TEP pins, s.sense = { s with CC, CONFIG, EEP, TEP, pins } ∧
    (Captures s.TEP → Captures TEP) ∧
    (∀ c < M.columns, c ≠ 0 → CONFIG (gpiote c) = 0) ∧ CONFIG (gpiote 0) = 0x00010001 ||| BitVec.ofNat 32 (M.rowPins 0) <<< 8 ∧
    (∀ c < M.columns, pins (M.columnPins c) = .high) ∧ pins (M.rowPins 0) = .low ∧
    ∀ r < M.rows, r ≠ 0 → pins (M.rowPins r) = s.pins (M.rowPins r) := by
  have hrows := M.rows_pos
  let t : NRF52LEDMatrix M := { s with CC := Function.update s.CC 0 (s.timerPeriod * NRF52_LED_MATRIX_LIGHTSENSE_STROBES) }
  let I (u : NRF52LEDMatrix M) : Prop := ∃ CC CONFIG pins, u = { s with CC, CONFIG, pins } ∧
    ∀ r < M.rows, pins (M.rowPins r) = s.pins (M.rowPins r)
  have hkeeps : ∀ u, ∀ k < M.columns, I u → I (u.senseColumn k) := by
    rintro _ k hk ⟨CC, CONFIG, pins, rfl, hpins⟩
    exact ⟨Function.update CC (k + 1) (s.timerPeriod * 4), Function.update CONFIG (gpiote k) 0,
      Function.update pins (M.columnPins k) .high, rfl,
      fun r hr => (Function.update_of_ne (M.apart r hr k hk) ..).trans (hpins r hr)⟩
  have hstart : I t := ⟨_, _, _, rfl, fun _ _ => rfl⟩
  have hset : ∀ c < M.columns, ((List.range M.columns).foldl senseColumn t).CONFIG (gpiote c) = 0 ∧
      ((List.range M.columns).foldl senseColumn t).pins (M.columnPins c) = .high :=
    Sweep.reaches (P := fun c (t : NRF52LEDMatrix M) => t.CONFIG (gpiote c) = 0 ∧ t.pins (M.columnPins c) = .high) (I := I) hkeeps
      (fun _ _ _ _ => ⟨Function.update_self .., Function.update_self ..⟩)
      (fun _ j hj k hk hne ht => ⟨(Function.update_of_ne (gpiote_ne hne) ..).trans ht.1,
        (Function.update_of_ne (M.columnPins_inj k hk j hj hne) ..).trans ht.2⟩) hstart
  obtain ⟨CC, CONFIG, pins, hloop, hpins⟩ := Sweep.keeps (I := I) hkeeps hstart
  rw [hloop] at hset
  refine ⟨CC, Function.update CONFIG (gpiote 0) (0x00010001 ||| BitVec.ofNat 32 (M.rowPins 0) <<< 8),
    Function.update s.EEP (ppi 0) (some (.EVENTS_IN (gpiote 0))), Function.update s.TEP (ppi 0) (some (.TASKS_CAPTURE 1)),
    Function.update pins (M.rowPins 0) .low, ?_, fun hs => hs.update _ fun _ h => (PPITask.TASKS_CAPTURE.inj h).symm,
    fun c hc hne => ?_, Function.update_self .., fun c hc => ?_,
    Function.update_self .., fun r hr hne => ?_⟩
  · unfold sense
    dsimp only
    rw [show (List.range M.columns).foldl senseColumn t = _ from hloop]
    rfl
  · exact (Function.update_of_ne (gpiote_ne hne) ..).trans (hset c hc).1
  · exact (Function.update_of_ne (M.apart 0 hrows c hc).symm ..).trans (hset c hc).2
  · exact (Function.update_of_ne (M.rowPins_inj r hr 0 hrows hne) ..).trans (hpins r hr)

/-! ## What the pins do -/

/-- The pin of a configuration, and that it is a task, whatever the initial level is. -/
theorem wiring_reads (hc : c < M.columns) (config : BitVec 32) (h : config = M.wiring c ∨ config = M.wiring c ||| OUTINIT) :
    config &&& 3 = 3 ∧ config >>> 8 &&& 63 = BitVec.ofNat 32 (M.columnPins c) := by
  obtain ⟨hlow, hhigh⟩ := taskOn_reads _ (M.columnPins_lt c hc)
  rcases h with rfl | rfl
  · exact hlow
  · exact hhigh

/-- A column starts low exactly when its pixel is lit. -/
theorem initial_iff (hc : c < M.columns) (lit : Prop) [Decidable lit] :
    (if lit then M.wiring c else M.wiring c ||| OUTINIT) &&& OUTINIT ≠ 0 ↔ ¬lit := by
  obtain ⟨-, -, hlow, hhigh⟩ := taskOn_initial _ (M.columnPins_lt c hc)
  split
  · rename_i h
    exact ⟨fun hne => absurd hlow hne, fun hn => absurd h hn⟩
  · rename_i h
    exact ⟨fun _ => h, fun _ => hhigh⟩

/-- Pin numbers below 64 stay different in 32 bits. -/
theorem name_injective {n m : Nat} (hn : n < 64) (hm : m < 64) (h : BitVec.ofNat 32 n = BitVec.ofNat 32 m) : n = m := by
  have hnat := congrArg BitVec.toNat h
  rw [BitVec.toNat_ofNat, BitVec.toNat_ofNat] at hnat
  omega

/-- A wired channel holds the pin of its column and no other. -/
theorem Wired.holds_iff (h : s.Wired c) (hc : c < M.columns) {pin : Nat} (hpin : pin < 64) :
    s.Holds pin c ↔ pin = M.columnPins c := by
  obtain ⟨htask, hname⟩ := wiring_reads hc _ h.config
  unfold Holds
  rw [htask, hname]
  refine ⟨fun hboth => (name_injective (M.columnPins_lt c hc) hpin hboth.2).symm, fun heq => ⟨by decide, by rw [heq]⟩⟩

/-- A wired column is set from its compare value on. -/
theorem Wired.isSet_iff (hwired : ∀ c < M.columns, s.Wired c) (hc : c < M.columns) (tick : Nat) :
    s.isSet (gpiote c) tick = true ↔ s.CC (c + 1) ≤ tick := by
  unfold isSet
  rw [List.any_eq_true]
  constructor
  · rintro ⟨k, hk, hset⟩
    have hk := List.mem_range.mp hk
    obtain ⟨-, hevent, htask, henabled⟩ := hwired k hk
    rw [hevent, htask, henabled, Bool.true_and, Bool.and_eq_true, beq_iff_eq, Option.some.injEq, PPITask.TASKS_SET.injEq] at hset
    obtain ⟨hchannel, hset⟩ := hset
    obtain rfl : k = c := by
      by_contra hne
      exact gpiote_ne hne hchannel
    exact of_decide_eq_true hset
  · intro hle
    obtain ⟨-, hevent, htask, henabled⟩ := hwired c hc
    refine ⟨c, List.mem_range.mpr hc, ?_⟩
    rw [hevent, htask, henabled, beq_self_eq_true]
    exact decide_eq_true hle

/-- No column has the pin of a row. -/
theorem Wired.drive_row (hwired : ∀ c < M.columns, s.Wired c) (hr : r < M.rows) (tick : Nat) :
    s.drive (M.rowPins r) tick = s.pins (M.rowPins r) := by
  unfold drive
  rw [List.find?_eq_none.mpr]
  intro c hc hholds
  have hc := List.mem_range.mp hc
  exact M.apart r hr c hc (((hwired c hc).holds_iff hc (M.rowPins_lt r hr)).mp (of_decide_eq_true hholds))

/-- A column goes high when its compare register is reached, if it was low at first. -/
theorem Wired.drive_column (hwired : ∀ c < M.columns, s.Wired c) (hc : c < M.columns) (tick : Nat) :
    s.drive (M.columnPins c) tick = if s.CONFIG (gpiote c) &&& OUTINIT ≠ 0 ∨ s.CC (c + 1) ≤ tick then .high else .low := by
  have hholds := ((hwired c hc).holds_iff hc (M.columnPins_lt c hc)).mpr rfl
  obtain ⟨k, hk⟩ : ∃ k, (List.range M.columns).find? (fun column => s.Holds (M.columnPins c) column) = some k :=
    Option.isSome_iff_exists.mp (List.find?_isSome.mpr ⟨c, List.mem_range.mpr hc, decide_eq_true hholds⟩)
  have hlt := List.mem_range.mp (List.mem_of_find?_eq_some hk)
  have hfound := List.find?_some hk
  have hpin := ((hwired k hlt).holds_iff hlt (M.columnPins_lt c hc)).mp (of_decide_eq_true hfound)
  obtain rfl : k = c := by
    by_contra hne
    exact M.columnPins_inj k hlt c hc hne hpin.symm
  unfold drive
  rw [hk]
  dsimp only
  rw [if_pos (wiring_reads hc _ (hwired k hc).config).1]
  exact if_congr (or_congr_right (Wired.isSet_iff hwired hc tick)) rfl rfl

/-- A column that the sense pin's channel has let go of is driven by its output. -/
theorem drive_sensing (hfirst : s.CONFIG (gpiote 0) = 0x00010001 ||| BitVec.ofNat 32 (M.rowPins 0) <<< 8)
    (hrest : ∀ c < M.columns, c ≠ 0 → s.CONFIG (gpiote c) = 0) (hc : c < M.columns) (tick : Nat) :
    s.drive (M.columnPins c) tick = s.pins (M.columnPins c) := by
  have hrows := M.rows_pos
  unfold drive
  rw [List.find?_eq_none.mpr]
  intro k hk hholds
  obtain ⟨hmode, hname⟩ : s.Holds (M.columnPins c) k := of_decide_eq_true hholds
  by_cases hk0 : k = 0
  · rw [hk0, hfirst, event_reads _ (M.rowPins_lt 0 hrows)] at hname
    exact M.apart 0 hrows c hc (name_injective (M.rowPins_lt 0 hrows) (M.columnPins_lt c hc) hname)
  · rw [hrest k (List.mem_range.mp hk) hk0] at hmode
    exact hmode rfl

/-- How long an LED is lit that is switched off once. -/
theorem count_lt {p : Nat → Prop} [DecidablePred p] {v n : Nat} (h : v ≤ n) (hp : ∀ k, p k ↔ k < v) : Nat.count p n = v := by
  obtain ⟨w, rfl⟩ := Nat.exists_eq_add_of_le h
  rw [Nat.count_add, Nat.count_iff_forall.mpr fun k hk => (hp k).mpr hk, Nat.count_iff_forall_not.mpr fun k _ hk => ?_]
  · rfl
  · have := (hp _).mp hk
    omega

end NRF52LEDMatrix

end CodalMicrobit
