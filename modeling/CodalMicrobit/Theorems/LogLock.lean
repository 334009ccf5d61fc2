import CodalMicrobit.FiberLock
import CodalMicrobit.Lemmas.Layout
import CodalMicrobit.Lib.Outcome

/-!
# The lock of a log

`clear` and `logString` take the lock, and `init`, which every operation starts with, calls `clear` when it finds no
log. So the lock is balanced, except that `logString` calls `init` with the lock held: where there is no log to load,
it waits for itself.
-/

namespace CodalMicrobit

open Nor Outcome

namespace Log

variable {g : Geometry}

/-- The operation does not wait for a lock it holds, and it returns with the lock free, or held, as `m` says. -/
def Leaves (m : Bool) (x : Except Fault (Log g)) : Prop := Meets (fun s => s.mutex = m) (fun e => e ≠ .deadlock) x

/-! ## The lock as a `FiberLock` -/

section

variable {L : Type} {k : FiberLock L} {l : L} {s : Log g}

/-- The log stands for a lock that is taken when the log says so, and blocks no other fiber. -/
def Stands (k : FiberLock L) (l : L) (s : Log g) : Prop := k.waiters l = if s.mutex then some 0 else none

/-- `wait` goes on where the lock lets the fiber go on, and is a deadlock where the lock blocks the only fiber. -/
theorem Stands.wait (hk : k.Lawful) (h : s.Stands k l) :
    (k.wait l).1 = true ∧ (∃ t, s.wait = .ok t ∧ t.Stands k (k.wait l).2) ∨
      (k.wait l).1 = false ∧ s.wait = .error .deadlock := by
  unfold Stands at h
  cases hm : s.mutex with
  | false =>
    rw [hm] at h
    obtain ⟨hgoes, htaken⟩ := hk.wait_free l h
    exact Or.inl ⟨hgoes, _, if_neg (by rw [hm]; nofun), htaken⟩
  | true =>
    rw [hm] at h
    exact Or.inr ⟨(hk.wait_taken l 0 h).1, if_pos hm⟩

/-- `notify` frees the lock, and there is no fiber to wake. -/
theorem Stands.notify (hk : k.Lawful) (h : s.Stands k l) (hm : s.mutex = true) :
    (k.notify l).1 = false ∧ s.notify.Stands k (k.notify l).2 := by
  unfold Stands at h
  rw [hm] at h
  exact hk.notify_last l h

end

/-! ## Parts that do not touch the lock -/

/-- Reading through the cache leaves the lock alone. -/
@[simp] theorem cacheRead_mutex (s : Log g) (a : Nat) (b : List UInt8) : (s.cacheRead a b).2.mutex = s.mutex := by
  unfold cacheRead
  split <;> rfl

/-- `isPresent` leaves the lock alone. -/
@[simp] theorem isPresent_mutex (s : Log g) : s.isPresent.2.mutex = s.mutex := by
  unfold isPresent
  split <;> rfl

/-- Loading the journal leaves the lock alone. -/
@[simp] theorem loadJournal_mutex (fuel : Nat) :
    ∀ (s : Log g) (a : Nat) (j : List UInt8) (v : Bool), (s.loadJournal a j v fuel).mutex = s.mutex := by
  induction fuel with
  | zero => exact fun s a j v => rfl
  | succ fuel ih =>
    intro s a j v
    unfold loadJournal
    split
    · dsimp only
      split
      · exact cacheRead_mutex s a j
      · split
        · rw [ih]
          exact cacheRead_mutex s a j
        · rw [ih]
          exact cacheRead_mutex s a j
    · rfl

/-- Looking for the end of the data leaves the lock alone. -/
@[simp] theorem walkData_mutex (fuel : Nat) : ∀ (s : Log g) (d : UInt8), (s.walkData d fuel).mutex = s.mutex := by
  induction fuel with
  | zero => exact fun s d => rfl
  | succ fuel ih =>
    intro s d
    unfold walkData
    split
    · dsimp only
      split
      · exact cacheRead_mutex s _ _
      · rw [ih]
        exact cacheRead_mutex s _ _
    · rfl

/-- Scanning for a delimiter leaves the lock alone and never waits for it. -/
theorem scan_leaves (stop : UInt8 → Bool) (fuel : Nat) :
    ∀ (s : Log g) (a : Nat) (c : UInt8),
      Meets (fun r => r.2.2.mutex = s.mutex) (fun e => e ≠ .deadlock) (s.scan stop a c fuel) := by
  induction fuel with
  | zero => exact fun s a c => by simp [scan]
  | succ fuel ih =>
    intro s a c
    unfold scan
    dsimp only
    split
    · exact cacheRead_mutex s a [c]
    · exact (ih _ _ _).imp fun r h => h.trans (cacheRead_mutex s a [c])

/-- Parsing the headings leaves the lock alone. -/
@[simp] theorem parseHeadings_mutex (s : Log g) (a l : Nat) : (s.parseHeadings a l).mutex = s.mutex := by
  unfold parseHeadings
  dsimp only
  split
  · exact cacheRead_mutex _ _ _
  · rfl

/-- Looking for the end of a heading leaves the lock alone and never waits for it. -/
theorem headingEnd_leaves (s : Log g) (a : Nat) (c : UInt8) :
    Meets (fun r => r.2.mutex = s.mutex) (fun e => e ≠ .deadlock) (s.headingEnd a c) := by
  rw [headingEnd]
  split
  · rfl
  · exact (scan_leaves _ _ s _ _).bind fun r hr => hr

/-- Loading the headings leaves the lock as it is. -/
theorem loadHeadings_leaves (s : Log g) : Leaves s.mutex s.loadHeadings := by
  rw [loadHeadings]
  refine (scan_leaves _ _ s _ _).bind fun r hr => ?_
  refine (headingEnd_leaves r.2.2 r.1 r.2.1).bind fun r' hr' => ?_
  exact (parseHeadings_mutex r'.2 r.1 _).trans (hr'.trans hr)

/-- `loadDataEnd` leaves the lock alone. -/
@[simp] theorem loadDataEnd_mutex (s : Log g) : s.loadDataEnd.mutex = s.mutex := by
  unfold loadDataEnd
  rw [walkData_mutex, loadJournal_mutex]

/-- Loading a log leaves the lock as it is. -/
theorem load_leaves (s : Log g) : Leaves s.mutex s.load := by
  unfold load
  refine (loadHeadings_leaves _).bind fun r hr => ?_
  rw [loadDataEnd_mutex] at hr
  exact hr

/-- Storing the headings leaves the lock and `initialized` alone. -/
theorem storeHeadings_flags (s : Log g) (h : ManagedString) :
    (s.storeHeadings h).mutex = s.mutex ∧ (s.storeHeadings h).initialized = s.initialized := by
  unfold storeHeadings
  dsimp only [setCache]
  split <;> exact ⟨rfl, rfl⟩

/-- Erasing the next page leaves the lock and `initialized` alone. -/
theorem eraseNextPage_flags (s : Log g) (l : Nat) :
    (s.eraseNextPage l).mutex = s.mutex ∧ (s.eraseNextPage l).initialized = s.initialized := by
  unfold eraseNextPage
  split <;> exact ⟨rfl, rfl⟩

/-- Writing text leaves the lock and `initialized` alone, and never waits for the lock. -/
theorem writeData_flags (fuel : Nat) :
    ∀ (s : Log g) (data : List UInt8), Meets (fun t => t.mutex = s.mutex ∧ t.initialized = s.initialized)
      (fun e => e ≠ .deadlock) (s.writeData data fuel) := by
  induction fuel with
  | zero =>
    intro s data
    unfold writeData
    split
    · exact ⟨rfl, rfl⟩
    · nofun
  | succ fuel ih =>
    intro s data
    unfold writeData
    split
    · exact ⟨rfl, rfl⟩
    · obtain ⟨hm, hi⟩ := eraseNextPage_flags s data.length
      exact (ih _ _).imp fun _ h => ⟨h.1.trans hm, h.2.trans hi⟩

/-- Writing the journal leaves `initialized` alone. -/
theorem writeJournal_initialized (s : Log g) : s.writeJournal.initialized = s.initialized := by
  unfold writeJournal advanceJournal
  dsimp only [writeEntry, setCache, erasePage, note]
  split
  · split <;> rfl
  · rfl

/-! ## Parts that do -/

/-- `clear`, called with the lock free, releases it. -/
theorem clear_leaves {s : Log g} (h : s.mutex = false) (fullErase : Bool) : Leaves false (s.clear fullErase) := by
  unfold clear wait
  rw [h]
  rfl

/-- `init`, called with the lock free, releases it. -/
theorem init_leaves {s : Log g} (h : s.mutex = false) : Leaves false s.init := by
  have hp := isPresent_mutex s
  unfold init
  split
  · exact h
  · split
    · rename_i t heq
      rw [heq] at hp
      exact h ▸ hp ▸ load_leaves t
    · rename_i t heq
      rw [heq] at hp
      exact clear_leaves (hp.trans h) false

/-- `init`, called with the lock held, keeps it, if there is nothing to clear. -/
theorem init_leaves_of_present {s : Log g} (h : s.initialized = true ∨ s.isPresent.1 = true) :
    Leaves s.mutex s.init := by
  have hp := isPresent_mutex s
  unfold init
  split
  · rfl
  · rename_i hi
    split
    · rename_i t heq
      rw [heq] at hp
      exact hp ▸ load_leaves t
    · rename_i t heq
      rw [heq] at h
      simp [hi] at h

/-- `init`, called with the lock held, blocks if there is no log. -/
theorem init_deadlock {s : Log g} (hm : s.mutex = true) (hi : s.initialized = false) (hp : s.isPresent.1 = false) :
    s.init = .error .deadlock := by
  have hm' := isPresent_mutex s
  unfold init
  rw [if_neg (by simp [hi])]
  split
  · rename_i t heq
    rw [heq] at hp
    nomatch hp
  · rename_i t heq
    rw [heq] at hm'
    unfold clear wait
    rw [hm'.trans hm]
    rfl

/-- A log is initialised when `init` returns. -/
theorem init_initialized {s t : Log g} (h : s.init = .ok t) : t.initialized = true := by
  unfold init at h
  split at h
  · rename_i hi
    cases h
    exact hi
  · split at h
    · unfold load at h
      obtain ⟨r, -, hr⟩ := bind_eq_ok.mp h
      cases hr
      rfl
    · unfold clear at h
      obtain ⟨r, -, hr⟩ := bind_eq_ok.mp h
      cases hr
      unfold applyTimeStamp addHeading
      dsimp only [notify]
      split
      · rfl
      · split <;> rfl

/-- The lock is free and the log is initialised: what the operations start from after their `init`. -/
def Open (s : Log g) : Prop := s.mutex = false ∧ s.initialized = true

/-- The operation leaves the log open, and does not wait for a lock it holds. -/
def LeavesOpen (x : Except Fault (Log g)) : Prop := Meets Open (fun e => e ≠ .deadlock) x

/-- `init` leaves the lock free, on an initialized log. -/
theorem init_leavesOpen {s : Log g} (h : s.mutex = false) : LeavesOpen s.init := by
  have hl := init_leaves h
  cases hi : s.init with
  | ok t => exact ⟨hl.of_ok hi, init_initialized hi⟩
  | error e => exact hl.of_error hi

/-- Appending releases the lock. -/
theorem appendText_flags (s : Log g) (data : List UInt8) :
    Meets (fun r => r.2.mutex = false ∧ r.2.initialized = s.initialized) (fun e => e ≠ .deadlock)
      (s.appendText data) := by
  unfold appendText
  dsimp only
  split
  · refine ⟨rfl, ?_⟩
    unfold refuse
    split <;> rfl
  · refine Meets.bind (P := fun t => t.initialized = s.initialized) ?_ fun t ht => ⟨rfl, ht⟩
    unfold accept
    refine (writeData_flags _ _ _).bind fun t ht => ?_
    have hi : t.initialized = s.initialized := by
      refine ht.2.trans ?_
      unfold mirror
      split <;> rfl
    rw [meets_ok]
    split
    · exact (writeJournal_initialized t).trans hi
    · exact hi

/-- `isPresent` looks at the flash, not at the lock. -/
theorem isPresent_wait (s : Log g) : ({ s with mutex := true } : Log g).isPresent.1 = s.isPresent.1 := by
  unfold isPresent
  split <;> rfl

/-- `logString`, called with the lock free on a log that is initialised or present, releases it. -/
theorem logString_leavesOpen {s : Log g} (h : s.mutex = false) (hp : s.initialized = true ∨ s.isPresent.1 = true)
    (str : List UInt8) : Meets (fun r => Open r.2) (fun e => e ≠ .deadlock) (s.logString str) := by
  have hl : Leaves true ({ s with mutex := true } : Log g).init :=
    init_leaves_of_present (hp.imp_right fun hp => (isPresent_wait s).trans hp)
  unfold logString wait
  rw [h]
  change Meets _ _ (({ s with mutex := true } : Log g).init >>= fun t => t.appendText (cString str))
  cases hi : ({ s with mutex := true } : Log g).init with
  | ok t => exact (appendText_flags t _).imp fun r hr => ⟨hr.1, hr.2.trans (init_initialized hi)⟩
  | error e => exact hl.of_error hi

/-- `logString` blocks where there is no log. -/
theorem logString_deadlock {s : Log g} (h : s.mutex = false) (hi : s.initialized = false)
    (hp : s.isPresent.1 = false) (str : List UInt8) : s.logString str = .error .deadlock := by
  have hd : ({ s with mutex := true } : Log g).init = .error .deadlock :=
    init_deadlock rfl hi ((isPresent_wait s).trans hp)
  unfold logString wait
  rw [h]
  change (({ s with mutex := true } : Log g).init >>= fun t => t.appendText (cString str)) = _
  rw [hd]
  rfl

/-! ## Rows -/

/-- A new column leaves the log open. -/
theorem addHeading_open {s : Log g} (h : s.Open) (k v : ManagedString) (head : Bool) : (s.addHeading k v head).Open := by
  unfold addHeading
  split <;> exact h

/-- A column for the time leaves the log open. -/
theorem applyTimeStamp_open {s : Log g} (h : s.Open) (f : TimeStampFormat) : (s.applyTimeStamp f).Open := by
  unfold applyTimeStamp
  dsimp only
  split
  · exact h
  · exact addHeading_open (s := { s with timeStampFormat := f, timeStampHeading := _ }) h _ _ _

/-- A value in a column leaves the log open. -/
theorem setColumn_open {s : Log g} (h : s.Open) (k v : ManagedString) : (s.setColumn k v).Open := by
  unfold setColumn
  dsimp only
  split
  · exact h
  · exact addHeading_open h _ _ _

/-- `logData` leaves the log open. -/
theorem logData_leavesOpen {s : Log g} (h : s.mutex = false) (k v : ManagedString) : LeavesOpen (s.logData k v) := by
  unfold logData
  refine (init_leavesOpen h).bind fun t ht => setColumn_open ?_ k v
  split <;> exact ht

/-- Stamping the row leaves the log open. -/
theorem stampRow_leavesOpen {s : Log g} (h : s.Open) (now : Nat) : LeavesOpen (s.stampRow now) := by
  unfold stampRow
  split
  · exact logData_leavesOpen h.1 _ _
  · exact h

/-- Storing new columns leaves the log open. -/
theorem updateHeadings_leavesOpen {s : Log g} (h : s.Open) : LeavesOpen s.updateHeadings := by
  unfold updateHeadings
  split
  · obtain ⟨hm, hi⟩ := storeHeadings_flags s (csvLine (s.rowData.map (·.key)))
    exact (logString_leavesOpen (hm.trans h.1) (Or.inl (hi.trans h.2)) _).bind fun r hr => hr
  · exact h

/-- Writing the row leaves the log open. -/
theorem logRow_leavesOpen {s : Log g} (h : s.Open) : LeavesOpen s.logRow := by
  unfold logRow
  split
  · exact h
  · exact (logString_leavesOpen h.1 (Or.inl h.2) _).bind fun r hr => hr

/-- `endRow` gives the lock back and never deadlocks. -/
theorem endRow_leaves {s : Log g} (h : s.mutex = false) (now : Nat) :
    Meets (fun r => r.2.mutex = false) (fun e => e ≠ .deadlock) (s.endRow now) := by
  unfold endRow
  split
  · exact h
  · refine (init_leavesOpen h).bind fun t ht => ?_
    refine (stampRow_leavesOpen ht now).bind fun t ht => ?_
    refine (updateHeadings_leavesOpen ht).bind fun t ht => ?_
    exact (logRow_leavesOpen ht).bind fun t ht => ht.1

/-- `beginRow` gives the lock back. -/
theorem beginRow_leaves {s : Log g} (h : s.mutex = false) (now : Nat) : Leaves false (s.beginRow now) := by
  unfold beginRow
  refine (init_leavesOpen h).bind fun t ht => ?_
  split
  · exact (endRow_leaves ht.1 now).bind fun r hr => hr
  · exact ht.1

/-! ## Any operation, in any state -/

/-- The call that blocks: `logString` on a log that is not initialised, where there is no log on the flash. -/
def Blocks (s : Log g) (op : LogOp) : Prop :=
  (∃ str, op = .logString str) ∧ s.initialized = false ∧ s.isPresent.1 = false

/-- An operation that does not block gives the lock back. -/
theorem perform_leaves {s : Log g} (h : s.mutex = false) {op : LogOp} (hb : ¬s.Blocks op) :
    Leaves false (s.perform op) := by
  cases op with
  | isPresent => exact (isPresent_mutex s).trans h
  | isFull => exact h
  | clear fullErase => exact clear_leaves h fullErase
  | invalidate =>
    have hp := isPresent_mutex s
    change s.invalidate.mutex = false
    unfold invalidate
    split <;> rename_i t heq <;> rw [heq] at hp <;> exact hp.trans h
  | setTimeStamp format => exact (init_leavesOpen h).bind fun t ht => (applyTimeStamp_open ht format).1
  | setSerialMirroring enable => exact h
  | beginRow now => exact beginRow_leaves h now
  | logData key value => exact (logData_leavesOpen h key value).imp fun _ ht => ht.1
  | endRow now => exact (endRow_leaves h now).bind fun r hr => hr
  | logString str =>
    refine (logString_leavesOpen h ?_ str).bind fun r hr => hr.1
    by_contra hc
    rw [not_or, Bool.not_eq_true, Bool.not_eq_true] at hc
    exact hb ⟨⟨str, rfl⟩, hc⟩
  | reboot => rfl

/-- An operation that blocks waits for the lock it holds. -/
theorem perform_deadlock {s : Log g} (h : s.mutex = false) {op : LogOp} (hb : s.Blocks op) :
    s.perform op = .error .deadlock := by
  obtain ⟨⟨str, rfl⟩, hi, hp⟩ := hb
  change (s.logString str >>= _) = _
  rw [logString_deadlock h hi hp str]
  rfl

/-- Whenever a call returns, the lock is free. -/
theorem run_mutex (ops : List LogOp) : ∀ {s t : Log g}, s.mutex = false → s.run ops = .ok t → t.mutex = false := by
  induction ops with
  | nil =>
    intro s t h hr
    cases hr
    exact h
  | cons op ops ih =>
    intro s t h hr
    obtain ⟨u, hu, hr⟩ := bind_eq_ok.mp hr
    refine ih ?_ hr
    by_cases hb : s.Blocks op
    · rw [perform_deadlock h hb] at hu
      nomatch hu
    · exact (perform_leaves h hb).of_ok hu

/-- In every state that a log can reach it stands for a free `FiberLock`. -/
theorem reachable_stands {L : Type} {k : FiberLock L} (hk : k.Lawful) {flash : Flash g} {header : Nat → UInt8} {ops : List LogOp}
    {s : Log g} (hs : (new flash header).run ops = .ok s) : s.Stands k k.free := by
  unfold Stands
  rw [run_mutex ops rfl hs]
  exact hk.free

/-- The lock. In every state a log can reach, whatever was on the flash when it was first used, a call does not wait for
the lock it holds, and leaves it free on return, exactly when it is not a `logString` on a log that is not initialised
and not present. -/
theorem lock_balanced (flash : Flash g) (header : Nat → UInt8) (ops : List LogOp) (s : Log g)
    (hs : (new flash header).run ops = .ok s) (op : LogOp) :
    (s.perform op ≠ .error .deadlock ∧ ∀ t, s.perform op = .ok t → t.mutex = false) ↔
      ¬((∃ str, op = .logString str) ∧ s.initialized = false ∧ s.isPresent.1 = false) := by
  have hm : s.mutex = false := run_mutex ops rfl hs
  constructor
  · rintro ⟨h, -⟩ hb
    exact h (perform_deadlock hm hb)
  · intro hb
    have hl := perform_leaves hm hb
    exact ⟨fun h => hl.of_error h rfl, fun t ht => hl.of_ok ht⟩

/-- `lock_balanced` for the first `clear` on an erased storage, followed by `logString`. -/
theorem lock_balanced_after_clear :
    ((new (blankFlash sixteenPages) fun _ => 0).format false).notify.perform (.logString (ascii ['h', 'i'])) ≠
      .error .deadlock := by
  refine ((lock_balanced (blankFlash sixteenPages) (fun _ => 0) [.clear false] _ rfl _).mpr ?_).1
  rintro ⟨-, h, -⟩
  nomatch h

/-- `logString` as the first call, on an erased storage: it waits for the lock it holds. -/
theorem logString_on_erased_flash_blocks :
    (new (blankFlash sixteenPages) fun _ => 0).perform (.logString (ascii ['h', 'i'])) = .error .deadlock := by
  refine perform_deadlock rfl ⟨⟨_, rfl⟩, rfl, ?_⟩
  decide +kernel

end Log

end CodalMicrobit
