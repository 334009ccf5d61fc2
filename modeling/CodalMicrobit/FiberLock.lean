/-!
# Locks of the scheduler

The synthesizer and the log each have a `FiberLock`. The scheduler is not part of the repository, so a lock is what its
interface promises.
-/

namespace CodalMicrobit

/-- A `FiberLock` of the scheduler: `wait` says whether the caller goes on at once, `notify` whether a blocked fiber may go
on. What the lock stands for is in `waiters`: nothing while it is free, and how many fibers it blocks while it is taken. -/
structure FiberLock (L : Type) where
  free : L
  wait : L → Bool × L
  notify : L → Bool × L
  getWaitCount : L → Nat
  waiters : L → Option Nat

/-- What a `FiberLock` does: `wait` blocks until the lock is free, `notify` frees it or passes it on to a blocked fiber. -/
structure FiberLock.Lawful {L : Type} (k : FiberLock L) : Prop where
  free : k.waiters k.free = none
  wait_free : ∀ l, k.waiters l = none → (k.wait l).1 = true ∧ k.waiters (k.wait l).2 = some 0
  wait_taken : ∀ l n, k.waiters l = some n → (k.wait l).1 = false ∧ k.waiters (k.wait l).2 = some (n + 1)
  notify_last : ∀ l, k.waiters l = some 0 → (k.notify l).1 = false ∧ k.waiters (k.notify l).2 = none
  notify_waiting : ∀ l n, k.waiters l = some (n + 1) → (k.notify l).1 = true ∧ k.waiters (k.notify l).2 = some n
  getWaitCount : ∀ l, k.getWaitCount l = (k.waiters l).getD 0

end CodalMicrobit
