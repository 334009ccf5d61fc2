import CodalMicrobit.Lemmas.LedMatrix

/-!
# What the LED matrix shows

Whatever is called while the timer interrupts, at most one row is driven at a time and none while the display is disabled. Over a
frame, every LED is lit for as long as its pixel is bright.
-/

namespace CodalMicrobit

namespace NRF52LEDMatrix

variable {M : MatrixMap} {s : NRF52LEDMatrix M} {c r : Nat}

/-! ## The invariant -/

/-- What holds at any time between two events. -/
structure Good (s : NRF52LEDMatrix M) : Prop where
  brightness : s.brightness ≤ 255
  settled : s.statusReset = false
  timed : s.Timed
  strobeRow : s.strobeRow ≤ M.rows
  idle : ∀ r < M.rows, r ≠ s.strobeRow → s.pins (M.rowPins r) ≠ .high
  off : s.enabled = false → s.timer = false ∧ ∀ r < M.rows, s.pins (M.rowPins r) = .none
  on : s.enabled = true → s.timer = true
  wired : s.enabled = true → s.strobeRow < M.rows → (∀ c < M.columns, s.Wired c) ∧ s.CC 0 = s.timerPeriod
  captures : Captures s.TEP

/-- The timer runs only while the display is enabled. -/
theorem Good.of_timer (h : s.Good) (ht : s.timer = true) : s.enabled = true := by
  by_contra hoff
  obtain ⟨hf, -⟩ := h.off (Bool.eq_false_iff.mpr hoff)
  rw [ht] at hf
  exact Bool.noConfusion hf

/-- A pixel is lit for less than a slot. -/
theorem Timed.shine_le (h : s.Timed) (hb : s.brightness ≤ 255) (r c : Nat) : s.shine r c ≤ s.timerPeriod := by
  have hlevel : s.level r c ≤ 255 := by
    unfold level
    dsimp only
    have := (s.image ((M.map (r + c * M.rows)).y * M.width + (M.map (r + c * M.rows)).x)).toNat_lt
    split
    · split <;> omega
    · omega
  have hquantum : s.quantum ≤ s.timerPeriod * 255 / (256 * 255) := by
    rw [h.quantum]
    exact Nat.div_le_div_right (Nat.mul_le_mul_left _ hb)
  calc s.shine r c ≤ 255 * (s.timerPeriod * 255 / (256 * 255)) := Nat.mul_le_mul hlevel hquantum
    _ ≤ s.timerPeriod := by omega

/-- Setting a display mode keeps the invariant. -/
theorem good_setDisplayMode (h : s.Good) (mode : DisplayMode) : (s.setDisplayMode mode).Good := by
  obtain ⟨CONFIG, EEP, TEP, CHEN, heq, hcaptures, hwired⟩ := s.setDisplayMode_spec mode
  rw [heq]
  refine ⟨h.brightness, rfl, ⟨rfl, rfl, rfl⟩, h.strobeRow, h.idle, h.off, h.on, fun hon hrow =>
    ⟨fun c hc => ?_, Function.update_self 0 (M.period mode) s.CC⟩, hcaptures h.captures⟩
  rcases hwired with hwired | ⟨-, -, rfl, rfl, rfl, rfl⟩
  · exact (hwired c hc).congr rfl rfl rfl rfl
  · exact ((h.wired hon hrow).1 c hc).congr rfl rfl rfl rfl

/-- Enabling from off gives a good state. -/
theorem enable_good (hoff : s.enabled = false) (hb : s.brightness ≤ 255) (hrow : s.strobeRow ≤ M.rows)
    (hs : Captures s.TEP) : s.enable.Good := by
  obtain ⟨CONFIG, EEP, TEP, CHEN, pins, heq, hcaptures, hwired, hrows, -⟩ := enable_spec hoff
  rw [heq]
  refine ⟨hb, rfl, ⟨rfl, rfl, rfl⟩, hrow, fun r hr _ hhigh => ?_, fun hoff => Bool.noConfusion hoff, fun _ => rfl,
    fun _ _ => ⟨fun c hc => (hwired c hc).congr rfl rfl rfl rfl, Function.update_self 0 (M.period s.mode) s.CC⟩, hcaptures hs⟩
  exact Drive.noConfusion ((hrows r hr).symm.trans hhigh)

/-- `enable` keeps the invariant. -/
theorem good_enable (h : s.Good) : s.enable.Good := by
  cases hon : s.enabled with
  | true =>
    unfold enable
    rwa [if_pos hon]
  | false => exact enable_good hon h.brightness h.strobeRow h.captures

/-- `disable` keeps the invariant. -/
theorem good_disable (h : s.Good) : s.disable.Good := by
  cases hon : s.enabled with
  | false =>
    unfold disable
    rwa [if_pos (by rw [hon]; rfl)]
  | true =>
    obtain ⟨CONFIG, pins, heq, -, hrows, -⟩ := disable_spec hon
    rw [heq]
    exact ⟨h.brightness, h.settled, ⟨h.timed.slots, h.timed.period, h.timed.quantum⟩, h.strobeRow,
      fun r hr _ hhigh => Drive.noConfusion ((hrows r hr).symm.trans hhigh), fun _ => ⟨rfl, hrows⟩,
      fun hon => Bool.noConfusion hon, fun hon => Bool.noConfusion hon, h.captures⟩

/-! ## The end of a slot -/

/-- What holds when a slot is complete and the next one has not begun: no row is driven, and every column is wired. -/
structure Between (s : NRF52LEDMatrix M) : Prop where
  brightness : s.brightness ≤ 255
  settled : s.statusReset = false
  timed : s.Timed
  strobeRow : s.strobeRow ≤ M.rows
  dark : ∀ r < M.rows, s.pins (M.rowPins r) ≠ .high
  enabled : s.enabled = true
  timer : s.timer = true
  wired : ∀ c < M.columns, s.Wired c
  top : s.CC 0 = s.timerPeriod
  captures : Captures s.TEP

/-- The members that a slot does not change. -/
structure SameDisplay (s t : NRF52LEDMatrix M) : Prop where
  mode : t.mode = s.mode
  brightness : t.brightness = s.brightness
  image : t.image = s.image
  strobeRow : t.strobeRow = s.strobeRow

/-- The end of a slot clears the row and leaves the picture alone. -/
theorem completeSlot_spec (h : s.Good) (ht : s.timer = true) : s.completeSlot.Between ∧ s.SameDisplay s.completeSlot := by
  have hon := h.of_timer ht
  unfold completeSlot
  by_cases hrow : s.strobeRow < M.rows
  · rw [if_pos hrow]
    obtain ⟨hwired, htop⟩ := h.wired hon hrow
    refine ⟨⟨h.brightness, h.settled, ⟨h.timed.slots, h.timed.period, h.timed.quantum⟩, h.strobeRow, fun r hr hhigh => ?_, hon, ht,
      fun c hc => (hwired c hc).congr rfl rfl rfl rfl, htop, h.captures⟩, ⟨rfl, rfl, rfl, rfl⟩⟩
    by_cases hr' : r = s.strobeRow
    · rw [hr', show (s.setDigitalValue _ false).pins _ = .low from Function.update_self ..] at hhigh
      exact Drive.noConfusion hhigh
    · refine h.idle r hr hr' ?_
      rwa [show (s.setDigitalValue _ false).pins (M.rowPins r) = s.pins (M.rowPins r) from
        Function.update_of_ne (M.rowPins_inj r hr _ hrow hr') ..] at hhigh
  · rw [if_neg hrow]
    obtain ⟨CONFIG, EEP, TEP, CHEN, heq, hcaptures, hwired⟩ := setDisplayMode_spec
      { s with
        lightLevel := u32sub 255 (u32 (255 * s.CC 1) / (s.timerPeriod * NRF52_LED_MATRIX_LIGHTSENSE_STROBES))
        statusLightReady := true
        statusReset := true } s.mode
    rw [heq]
    refine ⟨⟨h.brightness, rfl, ⟨rfl, rfl, rfl⟩, h.strobeRow, fun r hr => h.idle r hr (by omega), hon, ht, fun c hc => ?_,
      Function.update_self 0 (M.period s.mode) s.CC, hcaptures h.captures⟩, ⟨rfl, rfl, rfl, rfl⟩⟩
    exact (hwired.resolve_right (fun hset => Bool.noConfusion hset.2.1) c hc).congr rfl rfl rfl rfl

/-! ## The next slot -/

/-- A column is low until its compare register is reached. -/
theorem lit_iff {v tick : Nat} {initial : Prop} [Decidable initial] (h : initial ↔ ¬v ≠ 0) :
    (Drive.high == Drive.high && (if initial ∨ v ≤ tick then Drive.high else Drive.low) == Drive.low) = true ↔ tick < v := by
  by_cases hlt : tick < v
  · rw [if_neg (not_or.mpr ⟨mt h.mp (not_not.mpr (by omega)), by omega⟩)]
    exact ⟨fun _ => hlt, fun _ => rfl⟩
  · rw [if_pos (.inr (by omega))]
    exact ⟨fun hf => Bool.noConfusion hf, fun hl => absurd hl hlt⟩

/-- In a slot of a row the LEDs of the row are lit as their pixels are, and no other LED is. -/
theorem strobe_shows (h : s.Between) (hrow : s.strobeRow < M.rows) : s.strobe.Good ∧ s.SameDisplay s.strobe ∧ s.strobe.timer = true ∧
    ∀ r < M.rows, ∀ c < M.columns, s.strobe.exposure r c = if s.strobeRow = r then s.shine r c else 0 := by
  obtain ⟨CC, CONFIG, heq, hkeep, hset⟩ := strobe_spec h.wired
  have htop : CC 0 = s.timerPeriod := (hkeep 0 fun c _ => (Nat.succ_ne_zero c).symm).trans h.top
  have hconfig : ∀ c < M.columns, CONFIG (gpiote c) = M.wiring c ∨ CONFIG (gpiote c) = M.wiring c ||| OUTINIT := fun c hc => by
    rw [(hset c hc).config]
    exact (ite_eq_or_eq ..)
  rw [heq]
  generalize ht : ({ s with CC, CONFIG, pins := Function.update s.pins (M.rowPins s.strobeRow) .high } : NRF52LEDMatrix M) = t
  have hwired : ∀ c < M.columns, t.Wired c := fun c hc => by
    obtain ⟨-, hevent, htask, henabled⟩ := h.wired c hc
    rw [← ht]
    exact ⟨hconfig c hc, hevent, htask, henabled⟩
  have hpins : ∀ r < M.rows, t.pins (M.rowPins r) = if r = s.strobeRow then .high else s.pins (M.rowPins r) := fun r hr => by
    rw [← ht]
    by_cases hr' : r = s.strobeRow
    · rw [if_pos hr', hr']
      exact Function.update_self ..
    · rw [if_neg hr']
      exact Function.update_of_ne (M.rowPins_inj r hr _ hrow hr') ..
  refine ⟨?_, by rw [← ht]; exact ⟨rfl, rfl, rfl, rfl⟩, by rw [← ht]; exact h.timer, fun r hr c hc => ?_⟩
  · have hidle : ∀ r < M.rows, r ≠ s.strobeRow → t.pins (M.rowPins r) ≠ .high := fun r hr hne => by
      rw [hpins r hr, if_neg hne]
      exact h.dark r hr
    subst ht
    exact ⟨h.brightness, h.settled, ⟨h.timed.slots, h.timed.period, h.timed.quantum⟩, h.strobeRow, hidle,
      fun hoff => Bool.noConfusion (h.enabled.symm.trans hoff), fun _ => h.timer, fun _ _ => ⟨hwired, htop⟩, h.captures⟩
  · obtain ⟨hcompare, hinit⟩ := hset c hc
    have hcompare : t.CC (c + 1) = s.shine s.strobeRow c := by rw [← ht]; exact hcompare
    have hinit : t.CONFIG (gpiote c) = if s.shine s.strobeRow c ≠ 0 then M.wiring c else M.wiring c ||| OUTINIT := by
      rw [← ht]
      exact hinit
    unfold exposure
    by_cases hr' : s.strobeRow = r
    · subst hr'
      rw [if_pos rfl, show t.CC 0 = s.timerPeriod by rw [← ht]; exact htop]
      refine count_lt (h.timed.shine_le h.brightness _ _) fun tick => ?_
      unfold lit
      rw [Wired.drive_row hwired hr, hpins _ hr, if_pos rfl, Wired.drive_column hwired hc, hcompare, hinit]
      exact lit_iff (initial_iff hc _)
    · rw [if_neg hr', Nat.count_iff_forall_not]
      intro tick _ hlit
      unfold lit at hlit
      rw [Wired.drive_row hwired hr, hpins r hr, if_neg (Ne.symm hr'), Bool.and_eq_true, beq_iff_eq] at hlit
      exact h.dark r hr hlit.1

/-- In the slot that senses light no LED is lit. -/
theorem sense_shows (h : s.Between) (hrow : s.strobeRow = M.rows) :
    s.sense.Good ∧ s.SameDisplay s.sense ∧ s.sense.timer = true ∧ ∀ r, ∀ c < M.columns, s.sense.exposure r c = 0 := by
  have hpos := M.rows_pos
  obtain ⟨CC, CONFIG, EEP, TEP, pins, heq, hcaptures, hrest, hfirst, hcolumns, hsense, hrows⟩ := sense_spec s
  rw [heq]
  refine ⟨⟨h.brightness, h.settled, ⟨h.timed.slots, h.timed.period, h.timed.quantum⟩, h.strobeRow, fun r hr _ hhigh => ?_,
    fun hoff => Bool.noConfusion (h.enabled.symm.trans hoff), fun _ => h.timer, fun _ hlt => absurd hrow (Nat.ne_of_lt hlt),
    hcaptures h.captures⟩, ⟨rfl, rfl, rfl, rfl⟩, h.timer, fun r c hc => ?_⟩
  · by_cases hr0 : r = 0
    · rw [hr0] at hhigh
      exact Drive.noConfusion (hsense.symm.trans hhigh)
    · exact h.dark r hr ((hrows r hr hr0).symm.trans hhigh)
  · unfold exposure
    rw [Nat.count_iff_forall_not]
    intro tick _ hlit
    unfold lit at hlit
    rw [drive_sensing hfirst hrest hc, Bool.and_eq_true, beq_iff_eq, beq_iff_eq] at hlit
    exact Drive.noConfusion ((hcolumns c hc).symm.trans hlit.2)

/-- The next slot shows its row. -/
theorem beginSlot_shows (h : s.Between) : s.beginSlot.Good ∧ s.beginSlot.timer = true ∧
    ({ s with strobeRow := (s.strobeRow + 1) % M.slots s.mode } : NRF52LEDMatrix M).SameDisplay s.beginSlot ∧
    ∀ r < M.rows, ∀ c < M.columns, s.beginSlot.exposure r c = if (s.strobeRow + 1) % M.slots s.mode = r then s.shine r c else 0 := by
  have hlt := Nat.mod_lt (s.strobeRow + 1) (M.slots_pos s.mode)
  have hle := M.slots_le s.mode
  have hbegin : s.beginSlot = let t : NRF52LEDMatrix M := { s with strobeRow := (s.strobeRow + 1) % M.slots s.mode }
      if t.strobeRow < M.rows then t.strobe else t.sense := by
    unfold beginSlot
    rw [h.timed.slots]
  have hnext : ({ s with strobeRow := (s.strobeRow + 1) % M.slots s.mode } : NRF52LEDMatrix M).Between :=
    ⟨h.brightness, h.settled, ⟨h.timed.slots, h.timed.period, h.timed.quantum⟩, by dsimp only; omega, h.dark, h.enabled, h.timer,
      fun c hc => (h.wired c hc).congr rfl rfl rfl rfl, h.top, h.captures⟩
  rw [hbegin]
  dsimp only
  split
  · rename_i hrow
    obtain ⟨hgood, hsame, htimer, hshows⟩ := strobe_shows hnext hrow
    exact ⟨hgood, htimer, hsame, hshows⟩
  · rename_i hrow
    obtain ⟨hgood, hsame, htimer, hshows⟩ := sense_shows hnext (by dsimp only; omega)
    refine ⟨hgood, htimer, hsame, fun r hr c hc => ?_⟩
    rw [hshows r c hc, if_neg (by omega)]

/-! ## Every event -/

/-- `render` keeps the invariant. -/
theorem good_render (h : s.Good) (ht : s.timer = true) : s.render.Good := (beginSlot_shows (completeSlot_spec h ht).1).1

/-- A capture keeps the invariant. -/
theorem good_edge (h : s.Good) (column tick : Nat) : (s.edge column tick).Good := by
  unfold edge
  split
  · split
    · rename_i register htask
      obtain rfl := h.captures _ _ htask
      refine ⟨h.brightness, h.settled, ⟨h.timed.slots, h.timed.period, h.timed.quantum⟩, h.strobeRow, h.idle, h.off, h.on,
        fun hon hrow => ⟨fun c hc => ((h.wired hon hrow).1 c hc).congr rfl rfl rfl rfl, ?_⟩, h.captures⟩
      exact (Function.update_of_ne Nat.zero_ne_one tick s.CC).trans (h.wired hon hrow).2
    · exact h
  · exact h

/-- The invariant is about neither the image, nor whether a light level was sensed, nor whether the display is to wake up. -/
theorem Good.mark (h : s.Good) (image : Nat → UInt8) (statusLightReady wasEnabled : Bool) :
    ({ s with image, statusLightReady, wasEnabled } : NRF52LEDMatrix M).Good :=
  ⟨h.brightness, h.settled, ⟨h.timed.slots, h.timed.period, h.timed.quantum⟩, h.strobeRow, h.idle, h.off, h.on,
    fun hon hrow => ⟨fun c hc => ((h.wired hon hrow).1 c hc).congr rfl rfl rfl rfl, (h.wired hon hrow).2⟩, h.captures⟩

/-- `setBrightness` keeps the invariant. -/
theorem good_setBrightness (h : s.Good) (b : Int) : (s.setBrightness b).2.Good := by
  unfold setBrightness
  split
  · exact h
  · exact ⟨by dsimp only; omega, h.settled, ⟨h.timed.slots, h.timed.period, rfl⟩, h.strobeRow, h.idle, h.off, h.on,
      fun hon hrow => ⟨fun c hc => ((h.wired hon hrow).1 c hc).congr rfl rfl rfl rfl, (h.wired hon hrow).2⟩,
      h.captures⟩

/-- `readLightLevel` keeps the invariant. -/
theorem good_readLightLevel (h : s.Good) : s.readLightLevel.Good := by
  have hset : ∀ {t : NRF52LEDMatrix M}, t.Good → ∀ mode,
      ({ t.setDisplayMode mode with statusLightReady := false } : NRF52LEDMatrix M).Good :=
    fun ht mode => (good_setDisplayMode ht mode).mark _ false _
  unfold readLightLevel
  dsimp only
  split
  · split
    · exact hset (hset h _) _
    · exact hset h _
  · split
    · exact hset h _
    · exact h

/-- `setSleep` keeps the invariant. -/
theorem good_setSleep (h : s.Good) (doSleep : Bool) : (s.setSleep doSleep).Good := by
  unfold setSleep
  cases doSleep with
  | true => exact good_disable (h.mark s.image s.statusLightReady s.enabled)
  | false =>
    change (if s.wasEnabled = true then s.enable else s).Good
    split
    · exact good_enable h
    · exact h

/-- Every possible event keeps the invariant. -/
theorem good_step {e : Event} (h : s.Good) (he : s.Possible e) : (s.step e).Good := by
  cases e with
  | setDisplayMode mode => exact good_setDisplayMode h mode
  | enable => exact good_enable h
  | disable => exact good_disable h
  | setBrightness b => exact good_setBrightness h b
  | readLightLevel => exact good_readLightLevel h
  | setSleep doSleep => exact good_setSleep h doSleep
  | draw image => exact h.mark image _ _
  | interrupt => exact good_render h he
  | edge column tick => exact good_edge h column tick

/-- A run keeps the invariant. -/
theorem Run.good {es : List Event} {t : NRF52LEDMatrix M} (h : s.Run es t) (hs : s.Good) : t.Good := by
  induction h with
  | nil => exact hs
  | cons he _ ih => exact ih (good_step hs he)

/-- Every reachable state satisfies the invariant. -/
theorem Reachable.good (h : s.Reachable) : s.Good := by
  obtain ⟨mode, brightness, pins, es, hb, hrun⟩ := h
  exact hrun.good (enable_good rfl hb (Nat.zero_le _) fun _ _ hnone => by cases hnone)

/-- The next slot leaves the light level that was sensed. -/
theorem beginSlot_lightLevel (h : s.Between) : s.beginSlot.lightLevel = s.lightLevel := by
  unfold beginSlot
  dsimp only
  split
  · obtain ⟨CC, CONFIG, heq, -, -⟩ :=
      strobe_spec (s := { s with strobeRow := (s.strobeRow + 1) % s.timeslots }) fun c hc => (h.wired c hc).congr rfl rfl rfl rfl
    rw [heq]
  · obtain ⟨CC, CONFIG, EEP, TEP, pins, heq, -⟩ := sense_spec { s with strobeRow := (s.strobeRow + 1) % s.timeslots }
    rw [heq]

/-- After the slot that senses light, the level is what the rise time of the sense pin leaves of 255. -/
theorem render_lightLevel (h : s.Good) (ht : s.timer = true) (hrow : s.strobeRow = M.rows) : s.render.lightLevel =
    u32sub 255 (u32 (255 * s.CC 1) / (s.timerPeriod * NRF52_LED_MATRIX_LIGHTSENSE_STROBES)) := by
  have hcomplete : s.completeSlot.lightLevel =
      u32sub 255 (u32 (255 * s.CC 1) / (s.timerPeriod * NRF52_LED_MATRIX_LIGHTSENSE_STROBES)) := by
    unfold completeSlot
    rw [if_neg (by omega)]
    obtain ⟨CONFIG, EEP, TEP, CHEN, heq, -⟩ := setDisplayMode_spec
      { s with
        lightLevel := u32sub 255 (u32 (255 * s.CC 1) / (s.timerPeriod * NRF52_LED_MATRIX_LIGHTSENSE_STROBES))
        statusLightReady := true
        statusReset := true } s.mode
    rw [heq]
  exact (beginSlot_lightLevel (completeSlot_spec h ht).1).trans hcomplete

/-- The subtraction stays a byte as long as it does not pass zero. -/
theorem u32sub_byte_iff {n d : Nat} (hn : n < 2 ^ 32) (hd : 4 ≤ d) : u32sub 255 (n / d) ≤ 255 ↔ n < 256 * d := by
  have hq : n / d ≤ n / 4 := Nat.div_le_div_left hd (by decide)
  rw [← Nat.div_lt_iff_lt_mul (by omega)]
  generalize n / d = q at hq ⊢
  unfold u32sub
  split
  · omega
  · omega

/-- At most one row is driven, none while the display is disabled, and the light level is a byte after a slot that sensed light if
the sense pin rose in time. -/
theorem one_row_driven (h : s.Reachable) :
    (∀ r < M.rows, s.pins (M.rowPins r) = .high → s.enabled = true ∧ r = s.strobeRow) ∧
      (s.enabled = false → ∀ r < M.rows, s.pins (M.rowPins r) = .none) ∧
      (s.timer = true → s.strobeRow = M.rows → (s.render.lightLevel ≤ 255 ↔
        u32 (255 * s.CC 1) < 256 * (s.timerPeriod * NRF52_LED_MATRIX_LIGHTSENSE_STROBES))) := by
  have hgood := h.good
  refine ⟨fun r hr hhigh => ?_, fun hoff => (hgood.off hoff).2, fun ht hrow => ?_⟩
  swap
  · have hpos : 0 < s.timerPeriod := by
      rw [hgood.timed.period]
      exact MatrixMap.period_pos s.mode
    rw [render_lightLevel hgood ht hrow]
    have hsensed : 4 ≤ s.timerPeriod * NRF52_LED_MATRIX_LIGHTSENSE_STROBES := by
      unfold NRF52_LED_MATRIX_LIGHTSENSE_STROBES
      omega
    exact u32sub_byte_iff (u32_lt _) hsensed
  by_contra hne
  rw [not_and_or, Bool.not_eq_true] at hne
  rcases hne with hoff | hne
  · rw [(hgood.off hoff).2 r hr] at hhigh
    exact Drive.noConfusion hhigh
  · exact hgood.idle r hr hne hhigh

/-- The display of the micro:bit with a pixel in its first row. -/
def lettered : NRF52LEDMatrix ledMatrixMap :=
  (create ledMatrixMap .DISPLAY_MODE_GREYSCALE 255 fun _ => .none).step (.draw fun k => if k = 2 then 100 else 0)

/-- The lettered display in the mode that senses light, before the slot of the sense pin. -/
def sensing : NRF52LEDMatrix ledMatrixMap :=
  (lettered.step (.setDisplayMode .DISPLAY_MODE_GREYSCALE_LIGHT_SENSE)).render.render.render.render

/-- What happens to the micro:bit's display until then. -/
def sensingEvents : List Event :=
  (.draw fun k => if k = 2 then 100 else 0) :: .setDisplayMode .DISPLAY_MODE_GREYSCALE_LIGHT_SENSE :: List.replicate 4 .interrupt

/-- The run that ends with the light sensed. -/
theorem sensing_run : (create ledMatrixMap .DISPLAY_MODE_GREYSCALE 255 fun _ => .none).Run sensingEvents sensing :=
  .cons trivial (.cons trivial (.cons rfl (.cons rfl (.cons rfl (.cons rfl (.nil _))))))

/-- The state with the light sensed is reachable. -/
theorem sensing_reachable : sensing.Reachable :=
  ⟨.DISPLAY_MODE_GREYSCALE, 255, fun _ => .none, sensingEvents, by decide, sensing_run⟩

theorem Run.append {es es' : List Event} {t u : NRF52LEDMatrix M} (h : s.Run es t) (h' : t.Run es' u) : s.Run (es ++ es') u := by
  induction h with
  | nil => exact h'
  | cons he _ ih => exact .cons he (ih h')

/-- The sense pin rises at this tick of its slot. -/
theorem rises_reachable {tick : Nat} (htick : tick < 2 ^ 32) : (sensing.render.edge 0 tick).Reachable := by
  have hrise : sensing.Run [.interrupt, .edge 0 tick] (sensing.render.edge 0 tick) :=
    .cons (e := .interrupt) rfl (.cons (e := .edge 0 tick) ⟨by decide, htick⟩ (.nil _))
  exact ⟨.DISPLAY_MODE_GREYSCALE, 255, fun _ => .none, _, by decide, sensing_run.append hrise⟩

/-- No row but the strobed one is driven, and a pin that rises soon after the end of its slot leaves a level that is no byte. -/
theorem one_row_driven_sensing : ¬sensing.pins (ledMatrixMap.rowPins 3) = .high ∧
    (sensing.render.edge 0 1000).render.lightLevel ≤ 255 ∧ ¬(sensing.render.edge 0 180000).render.lightLevel ≤ 255 := by
  refine ⟨fun hhigh => ?_, ?_, fun hbyte => ?_⟩
  · have hrow : 3 = 4 := ((one_row_driven sensing_reachable).1 3 (by decide) hhigh).2
    exact absurd hrow (by decide)
  · exact ((one_row_driven (rises_reachable (by decide))).2.2 rfl rfl).mpr (by decide +kernel)
  · exact absurd (((one_row_driven (rises_reachable (by decide))).2.2 rfl rfl).mp hbyte) (by decide +kernel)

/-! ## A frame -/

/-- The end of a slot. -/
def Event.isInterrupt : Event → Bool
  | .interrupt => true
  | _ => false

/-- What the hardware does by itself. -/
def Event.isHardware : Event → Bool
  | .interrupt => true
  | .edge _ _ => true
  | _ => false

/-- For how many ticks an LED is lit in the slots that begin in a run. -/
def shown (s : NRF52LEDMatrix M) (r c : Nat) : List Event → Nat
  | [] => 0
  | e :: es => (if e.isInterrupt then (s.step e).exposure r c else 0) + (s.step e).shown r c es

/-- The end of a slot leaves what the pixels are shown with. -/
theorem render_shows (h : s.Good) (ht : s.timer = true) : s.render.Good ∧ s.render.timer = true ∧ s.render.timeslots = s.timeslots ∧
    (∀ r c, s.render.shine r c = s.shine r c) ∧ s.render.strobeRow = (s.strobeRow + 1) % s.timeslots ∧
    ∀ r < M.rows, ∀ c < M.columns, s.render.exposure r c = if (s.strobeRow + 1) % s.timeslots = r then s.shine r c else 0 := by
  obtain ⟨hbetween, hcomplete⟩ := completeSlot_spec h ht
  obtain ⟨hgood, htimer, hbegin, hshows⟩ := beginSlot_shows hbetween
  have hmode : s.render.mode = s.mode := hbegin.mode.trans hcomplete.mode
  have hrow : s.completeSlot.strobeRow = s.strobeRow := hcomplete.strobeRow
  have hshine : ∀ {t : NRF52LEDMatrix M}, t.Timed → t.mode = s.mode → t.brightness = s.brightness → t.image = s.image →
      ∀ r c, t.shine r c = s.shine r c := fun ht hm hb hi r c => by
    unfold shine level
    rw [ht.quantum, h.timed.quantum, ht.period, h.timed.period, hm, hb, hi]
  rw [hcomplete.mode, hrow, ← h.timed.slots] at hshows
  have hslots : s.render.timeslots = s.timeslots := by
    rw [h.timed.slots, ← hmode]
    exact hgood.timed.slots
  refine ⟨hgood, htimer, hslots, fun r c => ?_, ?_, fun r hr c hc => ?_⟩
  · exact hshine hgood.timed hmode (hbegin.brightness.trans hcomplete.brightness) (hbegin.image.trans hcomplete.image) r c
  · rw [h.timed.slots, ← hcomplete.mode, ← hrow]
    exact hbegin.strobeRow
  · rw [← hshine hbetween.timed hcomplete.mode hcomplete.brightness hcomplete.image r c]
    exact hshows r hr c hc

/-- A capture changes the compare channels and nothing else. -/
theorem edge_same (s : NRF52LEDMatrix M) (column tick : Nat) : ∃ CC, s.edge column tick = { s with CC } := by
  unfold edge
  split
  · split
    · exact ⟨_, rfl⟩
    · exact ⟨_, rfl⟩
  · exact ⟨_, rfl⟩

/-- Over a run of the hardware an LED is lit as its pixel is, whenever its row comes around. -/
theorem Run.shown_eq {es : List Event} {t : NRF52LEDMatrix M} (h : s.Run es t) (hr : r < M.rows) (hc : c < M.columns)
    (hes : ∀ e ∈ es, e.isHardware = true) (hs : s.Good) (ht : s.timer = true) :
    s.shown r c es = s.shine r c * Nat.count (fun i => (s.strobeRow + 1 + i) % s.timeslots = r) (es.countP (·.isInterrupt)) := by
  induction h with
  | nil => rfl
  | @cons s t e es he _ ih =>
    obtain ⟨hhard, hrest⟩ := List.forall_mem_cons.mp hes
    cases e with
    | interrupt =>
      obtain ⟨hgood, htimer, hslots, hshine, hrow, hshows⟩ := render_shows hs ht
      have hlater : s.render.shown r c es = s.render.shine r c *
          Nat.count (fun i => (s.render.strobeRow + 1 + i) % s.render.timeslots = r) (es.countP (·.isInterrupt)) :=
        ih hrest hgood htimer
      have hround : Nat.count (fun i => ((s.strobeRow + 1) % s.timeslots + 1 + i) % s.timeslots = r) (es.countP (·.isInterrupt)) =
          Nat.count (fun i => (s.strobeRow + 1 + (i + 1)) % s.timeslots = r) (es.countP (·.isInterrupt)) := by
        congr 1
        funext i
        rw [Nat.add_assoc, Nat.mod_add_mod, Nat.add_comm 1 i]
      have hnow : s.shown r c (.interrupt :: es) = s.render.exposure r c + s.render.shown r c es := rfl
      rw [hnow, hlater, hshine, hrow, hslots, hshows r hr c hc, hround, List.countP_cons_of_pos rfl, Nat.count_succ', Nat.mul_add,
        Nat.add_comm, Nat.add_zero, mul_ite, Nat.mul_one, Nat.mul_zero]
    | edge column tick =>
      obtain ⟨CC, heq⟩ := s.edge_same column tick
      have hlater : (s.edge column tick).shown r c es = (s.edge column tick).shine r c *
          Nat.count (fun i => ((s.edge column tick).strobeRow + 1 + i) % (s.edge column tick).timeslots = r)
            (es.countP (·.isInterrupt)) :=
        ih hrest (good_step hs he) (by change (s.edge column tick).timer = true; rw [heq]; exact ht)
      have hnow : s.shown r c (.edge column tick :: es) = 0 + (s.edge column tick).shown r c es := rfl
      rw [hnow, Nat.zero_add, List.countP_cons_of_neg Bool.false_ne_true, hlater, heq]
      rfl
    | _ => exact Bool.noConfusion hhard

/-- The hardware does not stop the timer. -/
theorem Run.timer {es : List Event} {t : NRF52LEDMatrix M} (h : s.Run es t) (hes : ∀ e ∈ es, e.isHardware = true) (hs : s.Good)
    (ht : s.timer = true) : t.timer = true := by
  induction h with
  | nil => exact ht
  | @cons s t e es he _ ih =>
    obtain ⟨hhard, hrest⟩ := List.forall_mem_cons.mp hes
    refine ih hrest (good_step hs he) ?_
    cases e with
    | interrupt => exact (render_shows hs ht).2.1
    | edge column tick =>
      obtain ⟨CC, heq⟩ := s.edge_same column tick
      change (s.edge column tick).timer = true
      rw [heq]
      exact ht
    | _ => exact Bool.noConfusion hhard

/-- As many interrupts as there are slots show the image: every LED is lit for the quantum, as often as its pixel is bright, and
none is lit in the slot that senses light. -/
theorem frame_shows_image {es : List Event} {t : NRF52LEDMatrix M} (hs : s.Reachable) (ht : s.timer = true) (h : s.Run es t)
    (hes : ∀ e ∈ es, e.isHardware = true) (hn : es.countP (·.isInterrupt) = s.timeslots) :
    (∀ r < M.rows, ∀ c < M.columns, s.shown r c es =
      s.level r c * ((NRF52_LED_MATRIX_CLOCK_FREQUENCY / (NRF52_LED_MATRIX_FREQUENCY * s.timeslots)) * s.brightness / (256 * 255))) ∧
    ∀ before after u, es = before ++ .interrupt :: after → s.Run before u → (u.strobeRow + 1) % u.timeslots = M.rows →
      ∀ r < M.rows, ∀ c < M.columns, u.render.exposure r c = 0 := by
  have hgood := hs.good
  refine ⟨fun r hr c hc => ?_, fun before after u heq hu hsense r hr c hc => ?_⟩
  · have hlt : r < s.timeslots := by
      rw [hgood.timed.slots]
      exact hr.trans_le (M.rows_le_slots s.mode)
    rw [h.shown_eq hr hc hes hgood ht, hn, Sweep.count_round _ hlt, Nat.mul_one]
    unfold shine
    rw [hgood.timed.quantum, hgood.timed.period, hgood.timed.slots]
    rfl
  · have hbefore : ∀ e ∈ before, e.isHardware = true := fun e he => hes e (by rw [heq]; exact List.mem_append_left _ he)
    obtain ⟨-, -, -, -, -, hshows⟩ := render_shows (hu.good hgood) (hu.timer hbefore hgood ht)
    rw [hshows r hr c hc, hsense, if_neg (by omega)]

/-- Six interrupts show a pixel for its brightness, and the sensing slot lights nothing. -/
theorem frame_shows_image_sensing : sensing.shown 0 2 (List.replicate 6 .interrupt) = 100 * 173 ∧
    sensing.render.exposure 0 2 = 0 := by
  have hrun : sensing.Run (List.replicate 6 .interrupt) sensing.render.render.render.render.render.render :=
    .cons rfl (.cons rfl (.cons rfl (.cons rfl (.cons rfl (.cons rfl (.nil _))))))
  obtain ⟨hshown, hdark⟩ := frame_shows_image sensing_reachable rfl hrun (fun e he => by rw [List.eq_of_mem_replicate he]; rfl) rfl
  exact ⟨hshown 0 (by decide) 2 (by decide), hdark [] _ _ rfl (.nil _) rfl 0 (by decide) 2 (by decide)⟩

/-! ## The pins of a disabled display -/

/-- No pin of the matrix is driven. -/
def Released (s : NRF52LEDMatrix M) : Prop :=
  (∀ r < M.rows, s.pins (M.rowPins r) = .none) ∧ ∀ c < M.columns, ∀ tick, s.drive (M.columnPins c) tick = .none

/-- The call sets the mode of a display that is in this one: reading the light level does if the mode does not sense light. -/
def Event.setsMode (mode : DisplayMode) : Event → Bool
  | .setDisplayMode _ => true
  | .readLightLevel => !mode.senses
  | _ => false

/-- The display is disabled after every event of a run. -/
def StaysOff (s : NRF52LEDMatrix M) : List Event → Prop
  | [] => True
  | e :: es => (s.step e).enabled = false ∧ (s.step e).StaysOff es

/-- A disabled display whose mode was not set since: the GPIOTE has let go of the columns. -/
structure Quiet (s : NRF52LEDMatrix M) (mode : DisplayMode) : Prop where
  enabled : s.enabled = false
  timer : s.timer = false
  mode : s.mode = mode
  config : ∀ c < M.columns, s.CONFIG (gpiote c) = 0
  rows : ∀ r < M.rows, s.pins (M.rowPins r) = .none
  columns : ∀ c < M.columns, s.pins (M.columnPins c) = .none

/-- A disabled display whose mode was set: the GPIOTE has the columns again. -/
structure Taken (s : NRF52LEDMatrix M) : Prop where
  enabled : s.enabled = false
  timer : s.timer = false
  wired : ∀ c < M.columns, s.Wired c

/-- With the display off and its pins let go, the pins are released. -/
theorem Quiet.released {mode : DisplayMode} (h : s.Quiet mode) : s.Released := by
  refine ⟨h.rows, fun c hc tick => ?_⟩
  unfold drive
  rw [List.find?_eq_none.mpr]
  · exact h.columns c hc
  · intro k hk hholds
    obtain ⟨hmode, -⟩ : s.Holds (M.columnPins c) k := of_decide_eq_true hholds
    rw [h.config k (List.mem_range.mp hk)] at hmode
    exact hmode rfl

/-- Pins that are driven are not released. -/
theorem Taken.not_released (h : s.Taken) (hcol : 0 < M.columns) : ¬s.Released := by
  rintro ⟨-, hcolumns⟩
  have hnone := hcolumns 0 hcol 0
  rw [Wired.drive_column h.wired hcol] at hnone
  split at hnone
  · exact Drive.noConfusion hnone
  · exact Drive.noConfusion hnone

/-- Setting a mode on a disabled display takes the pins. -/
theorem taken_setDisplayMode (hoff : s.enabled = false) (ht : s.timer = false) (mode : DisplayMode) : (s.setDisplayMode mode).Taken := by
  obtain ⟨CONFIG, EEP, TEP, CHEN, heq, -, hwired⟩ := s.setDisplayMode_spec mode
  rw [heq]
  refine ⟨hoff, ht, fun c hc => ?_⟩
  exact (hwired.resolve_right (fun hset => Bool.false_ne_true (hoff.symm.trans hset.1)) c hc).congr rfl rfl rfl rfl

/-- `enable` enables the display. -/
theorem enable_enabled (hoff : s.enabled = false) : s.enable.enabled = true := by
  obtain ⟨CONFIG, EEP, TEP, CHEN, pins, heq, -⟩ := enable_spec hoff
  rw [heq]

/-- `disable` does nothing on a disabled display. -/
theorem disable_idle (hoff : s.enabled = false) : s.disable = s := by
  unfold disable
  rw [if_pos (by rw [hoff]; rfl)]

/-- What an event does to a disabled display, other than to enable it or to set its mode: nothing that drives a pin. -/
theorem step_idle {e : Event} (hoff : s.enabled = false) (ht : s.timer = false) (he : s.Possible e) (hen : (s.step e).enabled = false)
    (hset : e.setsMode s.mode = false) : ∃ brightness quantum image wasEnabled,
      s.step e = { s with brightness, quantum, image, wasEnabled } := by
  cases e with
  | setDisplayMode mode => exact Bool.noConfusion hset
  | enable => exact Bool.noConfusion ((enable_enabled hoff).symm.trans hen)
  | disable => exact ⟨_, _, _, _, disable_idle hoff⟩
  | setBrightness b =>
    change ∃ brightness quantum image wasEnabled, (s.setBrightness b).2 = { s with brightness, quantum, image, wasEnabled }
    unfold setBrightness
    split
    · exact ⟨_, _, _, _, rfl⟩
    · exact ⟨_, _, _, _, rfl⟩
  | readLightLevel =>
    refine ⟨s.brightness, s.quantum, s.image, s.wasEnabled, ?_⟩
    have hne : s.mode ≠ .DISPLAY_MODE_BLACK_AND_WHITE ∧ s.mode ≠ .DISPLAY_MODE_GREYSCALE := by
      constructor <;> intro hmode <;> rw [hmode] at hset <;> exact Bool.noConfusion hset
    change s.readLightLevel = s
    unfold readLightLevel
    dsimp only
    rw [if_neg hne.1, if_neg hne.2]
  | setSleep doSleep =>
    cases doSleep with
    | true => exact ⟨_, _, _, _, disable_idle (s := { s with wasEnabled := s.enabled }) hoff⟩
    | false =>
      cases hwas : s.wasEnabled with
      | true =>
        have heq : s.step (.setSleep false) = s.enable := if_pos hwas
        rw [heq, enable_enabled hoff] at hen
        exact Bool.noConfusion hen
      | false =>
        refine ⟨s.brightness, s.quantum, s.image, s.wasEnabled, if_neg ?_⟩
        change ¬s.wasEnabled = true
        rw [hwas]
        exact Bool.false_ne_true
  | draw image => exact ⟨_, _, _, _, rfl⟩
  | interrupt => exact Bool.noConfusion (ht.symm.trans he)
  | edge column tick =>
    refine ⟨s.brightness, s.quantum, s.image, s.wasEnabled, ?_⟩
    change s.edge column tick = s
    unfold edge
    rw [if_neg fun hand => Bool.false_ne_true (ht.symm.trans hand.1)]

/-- A call that sets the mode takes the columns. -/
theorem step_taken {e : Event} (hoff : s.enabled = false) (ht : s.timer = false) (hset : e.setsMode s.mode = true) :
    (s.step e).Taken := by
  have hready : ∀ mode, ({ s.setDisplayMode mode with statusLightReady := false } : NRF52LEDMatrix M).Taken := fun mode => by
    obtain ⟨hoff', ht', hwired⟩ := taken_setDisplayMode hoff ht mode
    exact ⟨hoff', ht', fun c hc => (hwired c hc).congr rfl rfl rfl rfl⟩
  cases e with
  | setDisplayMode mode => exact taken_setDisplayMode hoff ht mode
  | readLightLevel =>
    change s.readLightLevel.Taken
    unfold readLightLevel
    dsimp only
    split
    · rw [if_neg (fun hmode => DisplayMode.noConfusion hmode)]
      exact hready _
    · split
      · exact hready _
      · rename_i hbw hgrey
        cases hmode : s.mode with
        | DISPLAY_MODE_BLACK_AND_WHITE => exact absurd hmode hbw
        | DISPLAY_MODE_GREYSCALE => exact absurd hmode hgrey
        | _ =>
          rw [hmode] at hset
          exact Bool.noConfusion hset
  | _ => exact Bool.noConfusion hset

/-- Taken pins stay taken while the display stays off. -/
theorem Taken.step {e : Event} (h : s.Taken) (he : s.Possible e) (hen : (s.step e).enabled = false) : (s.step e).Taken := by
  cases hset : e.setsMode s.mode with
  | true => exact step_taken h.enabled h.timer hset
  | false =>
    obtain ⟨brightness, quantum, image, wasEnabled, heq⟩ := step_idle h.enabled h.timer he hen hset
    rw [heq]
    exact ⟨h.enabled, h.timer, fun c hc => (h.wired c hc).congr rfl rfl rfl rfl⟩

/-- Released pins stay released by an event that does not set the mode. -/
theorem Quiet.step {e : Event} {mode : DisplayMode} (h : s.Quiet mode) (he : s.Possible e)
    (hen : (s.step e).enabled = false) (hset : e.setsMode mode = false) : (s.step e).Quiet mode := by
  obtain ⟨brightness, quantum, image, wasEnabled, heq⟩ := step_idle h.enabled h.timer he hen (by rw [h.mode]; exact hset)
  rw [heq]
  exact ⟨h.enabled, h.timer, h.mode, h.config, h.rows, h.columns⟩

/-- Taken pins stay taken through a run that leaves the display off. -/
theorem Run.taken {es : List Event} {t : NRF52LEDMatrix M} (h : s.Run es t) (hs : s.Taken) (hen : s.StaysOff es) : t.Taken := by
  induction h with
  | nil => exact hs
  | cons he _ ih => exact ih (hs.step he hen.1) hen.2

/-- The pins stay released exactly when no event of the run sets the mode. -/
theorem Run.released_iff {es : List Event} {t : NRF52LEDMatrix M} {mode : DisplayMode} (h : s.Run es t) (hs : s.Quiet mode)
    (hcol : 0 < M.columns) (hen : s.StaysOff es) : t.Released ↔ ∀ e ∈ es, e.setsMode mode = false := by
  induction h with
  | nil => exact ⟨fun _ => List.forall_mem_nil _, fun _ => hs.released⟩
  | @cons s t e es he hrun ih =>
    obtain ⟨hfirst, hrest⟩ := hen
    rw [List.forall_mem_cons]
    cases hset : e.setsMode mode with
    | true =>
      have htaken := hrun.taken (step_taken hs.enabled hs.timer (by rw [hs.mode]; exact hset)) hrest
      exact ⟨fun hr => absurd hr (htaken.not_released hcol), fun hall => Bool.noConfusion hall.1⟩
    | false => exact (ih (hs.step he hfirst hset) hrest).trans (and_iff_right rfl).symm

/-- After `disable`, as long as the display stays disabled, its pins are free exactly as long as the mode is not set. -/
theorem disable_releases_iff {es : List Event} {t : NRF52LEDMatrix M} (hon : s.enabled = true) (hcol : 0 < M.columns)
    (h : s.disable.Run es t) (hen : s.disable.StaysOff es) : t.Released ↔ ∀ e ∈ es, e.setsMode s.mode = false := by
  obtain ⟨CONFIG, pins, heq, hzero, hrows, hcolumns⟩ := disable_spec hon
  refine h.released_iff ?_ hcol hen
  rw [heq]
  exact ⟨rfl, rfl, rfl, hzero, hrows, hcolumns⟩

/-- A display that was disabled before it was put to sleep does not wake up enabled, and its pins stay free until its mode is set. -/
theorem disable_releases_iff_asleep :
    (((lettered.disable.step (.setSleep true)).step (.setSleep false)).Released) ∧
      ¬((lettered.disable.step (.setSleep true)).step (.setSleep false)).readLightLevel.Released := by
  have hslept : lettered.disable.Run [.setSleep true, .setSleep false] ((lettered.disable.step (.setSleep true)).step (.setSleep false)) :=
    .cons trivial (.cons trivial (.nil _))
  have hread : lettered.disable.Run [.setSleep true, .setSleep false, .readLightLevel]
      ((lettered.disable.step (.setSleep true)).step (.setSleep false)).readLightLevel :=
    .cons trivial (.cons trivial (.cons trivial (.nil _)))
  refine ⟨(disable_releases_iff rfl (by decide) hslept ⟨rfl, rfl, trivial⟩).mpr (by decide), fun h => ?_⟩
  exact absurd ((disable_releases_iff rfl (by decide) hread ⟨rfl, rfl, rfl, trivial⟩).mp h) (by decide)

end NRF52LEDMatrix

end CodalMicrobit
