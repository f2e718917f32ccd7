import Mathlib.Algebra.Order.Ring.Int
import ChibiScheme.Lib.Chain

/-!
# Threads

A thread is a context.  Here are its fields that the thread library reads or writes, and the rest of
what the operations share: mutexes, the descriptors to be polled, and deadlines.
-/

namespace ChibiScheme.Thread

/-- A context. -/
abbrev ThreadId := ℕ

/-! ## Deadlines -/

/-- `struct timeval` -/
structure Timeval where
  sec : ℤ
  usec : ℤ
deriving DecidableEq

/-- No deadline. -/
def Timeval.zero : Timeval := ⟨0, 0⟩

/-- `timeval_le`, which is strict. -/
def timevalLe (a b : Timeval) : Prop :=
  a.sec < b.sec ∨ (a.sec = b.sec ∧ a.usec < b.usec)

instance (a b : Timeval) : Decidable (timevalLe a b) :=
  inferInstanceAs (Decidable (_ ∨ _))

/-- `sexp_context_before`, of the deadline of the context. -/
def sexpContextBefore (c t : Timeval) : Bool :=
  decide ((c.sec ≠ 0 ∨ c.usec ≠ 0) ∧ timevalLe c t)

/-- The timeout of a blocking operation: an exact integer, a flonum or ratio, a thread, or anything
else. -/
inductive Timeout where
  | fixnum (n : ℤ)
  | bignum
  /-- what adding the whole seconds and the microseconds in floating point does to the clock -/
  | inexact (addSec addUsec : ℤ → ℤ)
  | context (thread : ThreadId)
  | other

/-- `sexp_realp(timeout)` -/
def Timeout.isReal : Timeout → Bool
  | .fixnum _ | .bignum | .inexact _ _ => true
  | .context _ | .other => false

/-- `sexp_realp(timeout) || sexp_contextp(timeout)` -/
def Timeout.isTimed : Timeout → Bool
  | .other => false
  | _ => true

/-! ## Contexts -/

/-- What a thread waits for. -/
inductive Event where
  | none
  | thread (t : ThreadId)
  | mutex (m : ℕ)
  | condvar (c : ℕ)
  | port (fileno : ℤ) (output : Bool)
  | fileno (fd : ℤ)
  | fixnum (n : ℤ)
deriving DecidableEq

/-- A context.  `arg1` is the top of its stack, `children` are the contexts reached through
`sexp_context_child`. -/
structure Context (V : Type) where
  refuel : ℤ
  errorp : Bool
  waitp : Bool
  timeoutp : Bool
  event : Event
  timeval : Timeval
  result : Option V
  arg1 : V
  children : List ThreadId

/-- A mutex, with the thread that it is locked for, if any. -/
structure Mutex where
  lockp : Bool
  thread : Option ThreadId

/-- `struct pollfd` -/
structure Pollfd where
  fd : ℤ
  events : ℕ

/-- What the operations share, apart from the queues. -/
structure Globals (V : Type) where
  threads : ThreadId → Context V
  mutexes : ℕ → Mutex
  pollfds : List Pollfd
  /-- `SEXP_G_THREAD_TERMINATE_ERROR` -/
  terminateError : V

namespace Globals

variable {V : Type} (g : Globals V)

/-- A thread with a changed context. -/
def setThread (t : ThreadId) (f : Context V → Context V) : Globals V :=
  { g with threads := Function.update g.threads t (f (g.threads t)) }

/-- A mutex with new slots. -/
def setMutex (m : ℕ) (mutex : Mutex) : Globals V :=
  { g with mutexes := Function.update g.mutexes m mutex }

variable (t : ThreadId) (f : Context V → Context V)

@[simp] theorem setThread_self : (g.setThread t f).threads t = f (g.threads t) := by
  simp [setThread]

theorem setThread_of_ne {t u : ThreadId} (hne : u ≠ t) :
    (g.setThread t f).threads u = g.threads u := by
  simp [setThread, hne]

theorem setThread_threads (u : ThreadId) (f : Context V → Context V) :
    (g.setThread t f).threads u = if u = t then f (g.threads t) else g.threads u := by
  by_cases heq : u = t
  · rw [if_pos heq, heq, setThread_self]
  · rw [if_neg heq, setThread_of_ne g f heq]

/-- The deadline that `sexp_insert_timed` computes.  A bignum passes the first test for a number and
none of those that add it to the clock. -/
def deadline (timeout : Timeout) (now : Timeval) : Timeval :=
  match timeout with
  | .fixnum n => ⟨now.sec + n, now.usec⟩
  | .inexact addSec addUsec =>
    if 1000000 < addUsec now.usec then ⟨addSec now.sec + 1, addUsec now.usec - 1000000⟩
    else ⟨addSec now.sec, addUsec now.usec⟩
  | .context thread => (g.threads thread).timeval
  | .bignum | .other => .zero

/-- The thread waits for the event. -/
def wait (t : ThreadId) (event : Event) : Globals V :=
  g.setThread t fun c => { c with waitp := true, event := event }

/-- Where the waiting thread goes: behind the threads for which this holds. -/
def behind (timeout : Timeout) (tv : Timeval) (t : ThreadId) : Bool :=
  if timeout.isTimed then sexpContextBefore (g.threads t).timeval tv
  else decide ((g.threads t).timeval.sec ≠ 0)

/-- `sexp_insert_pollfd` -/
def insertPollfd (fd : ℤ) (events : ℕ) : Globals V :=
  let found := fun p : Pollfd => decide (p.fd = fd)
  let addEvents := fun p : Pollfd => { p with events := p.events ||| events }
  if g.pollfds.any found then
    { g with pollfds := g.pollfds.modify (g.pollfds.findIdx found) addEvents }
  else { g with pollfds := g.pollfds ++ [⟨fd, events⟩] }

@[simp] theorem insertPollfd_threads (fd : ℤ) (events : ℕ) :
    (g.insertPollfd fd events).threads = g.threads := by
  unfold insertPollfd
  dsimp only
  split <;> rfl

@[simp] theorem insertPollfd_terminateError (fd : ℤ) (events : ℕ) :
    (g.insertPollfd fd events).terminateError = g.terminateError := by
  unfold insertPollfd
  dsimp only
  split <;> rfl

/-- `pfds[i] = pfds[num_fds - 1]; num_fds -= 1` -/
def removePollfd (i : ℕ) : Globals V :=
  { g with pollfds :=
      match g.pollfds.getLast? with
      | some p => (g.pollfds.set i p).dropLast
      | none => [] }

end Globals

/-! ## Waking a thread -/

section

variable {V : Type}

/-- `waitp = timeoutp = 0` -/
def Context.wake (c : Context V) : Context V :=
  { c with waitp := false, timeoutp := false }

/-- A descriptor is ready: the thread also waits for nothing any more. -/
def Context.wakeReady (c : Context V) : Context V :=
  { c with waitp := false, timeoutp := false, event := .none }

/-- `timeoutp = 1; waitp = 0` -/
def Context.wakeTimeout (c : Context V) : Context V :=
  { c with timeoutp := true, waitp := false }

end

/-- Does the event wait for the descriptor? -/
def Event.onFd (fd : ℤ) : Event → Bool
  | .port n _ => decide (n = fd)
  | .fixnum n => decide (n = fd)
  | _ => false

/-- `sexp_fixnump(evt) || sexp_portp(evt)` -/
def Event.isInput : Event → Bool
  | .port _ _ => true
  | .fixnum _ => true
  | _ => false

/-! ## The thread operations

The run queue and the paused list are pairs in memory: the queue from `SEXP_G_THREADS_FRONT` to the
cell in `SEXP_G_THREADS_BACK`, the list from `SEXP_G_THREADS_PAUSED`.  The operations relink them in
place.  A loop along one of them has as many turns as there are pairs; without that bound it would
not end on a cyclic list, and there is no result. -/

open Linked

/-- The end of a list: `SEXP_NULL`, or the `SEXP_VOID` that a global starts with. -/
inductive Tail where
  | null
  | void
deriving DecidableEq

/-- A cdr: a pair, or what the list ends in. -/
abbrev Pointer := Link ℕ Tail

/-- `SEXP_NULL` -/
def null : Pointer := .stop .null

/-- The threads, the pairs and the three globals that hold queues. -/
structure World (V : Type) extends Globals V where
  car : ℕ → ThreadId
  cdr : ℕ → Pointer
  /-- the number of pairs that were ever made -/
  cells : ℕ
  front : Pointer
  back : Pointer
  paused : Pointer

namespace World

variable {V : Type} (w : World V)

/-- A change of what is no pair. -/
def onGlobals (f : Globals V → Globals V) : World V := { w with toGlobals := f w.toGlobals }

/-- A thread with a changed context. -/
def setThread (t : ThreadId) (f : Context V → Context V) : World V :=
  w.onGlobals fun g => g.setThread t f

/-- `sexp_car(c) = t` -/
def setCar (c : ℕ) (t : ThreadId) : World V := { w with car := Function.update w.car c t }

/-- `sexp_cdr(c) = link` -/
def setCdr (c : ℕ) (link : Pointer) : World V := { w with cdr := Function.update w.cdr c link }

/-- `sexp_cons`: the new pair is the next one. -/
def sexpCons (t : ThreadId) (link : Pointer) : ℕ × World V :=
  (w.cells, { w with
    car := Function.update w.car w.cells t
    cdr := Function.update w.cdr w.cells link
    cells := w.cells + 1 })

/-- Enough turns for a loop along a list. -/
def fuel : ℕ := w.cells + 1

/-- `if (ls1) sexp_cdr(ls1) = rest; else sexp_global(ctx, SEXP_G_THREADS_PAUSED) = rest` -/
def setPausedAfter (prev : Option ℕ) (rest : Pointer) : World V :=
  match prev with
  | some p => w.setCdr p rest
  | none => { w with paused := rest }

/-- Put a pair at the back of the run queue. -/
def pushBack (c : ℕ) : World V :=
  match w.back with
  | .cell back => { w.setCdr back (.cell c) with back := .cell c }
  | .stop _ => { w with front := .cell c, back := .cell c }

/-- Put a pair in front of the run queue. -/
def pushFront (c : ℕ) : World V :=
  let w' := { w.setCdr c w.front with front := .cell c }
  match w.front with
  | .cell _ => w'
  | .stop _ => { w' with back := .cell c }

/-- The first paused thread of a kind, with the pair before it. -/
def scanPaused (here : ThreadId → Bool) : Option (Option ℕ × Pointer) :=
  scan w.cdr (fun c => here (w.car c)) w.fuel none w.paused

/-- `sexp_truep(sexp_memq(ctx, x, paused))` -/
def pausedMem (x : ThreadId) : Option Bool := do
  let (_, link) ← w.scanPaused fun t => decide (t = x)
  match link with
  | .cell _ => some true
  | .stop _ => some false

/-- `sexp_thread_start` -/
def sexpThreadStart (thread : ThreadId) : World V :=
  let w := w.setThread thread fun c => { c with errorp := false }
  let (cell, w) := w.sexpCons thread null
  w.pushBack cell

/-- `sexp_delete_list` of the paused list: whether the thread was there. -/
def sexpDeleteList (x : ThreadId) : Option (Bool × World V) := do
  let (prev, link) ← w.scanPaused fun t => decide (t = x)
  match link with
  | .cell c => some (true, w.setPausedAfter prev (w.cdr c))
  | .stop _ => some (false, w)

/-- The loop of `sexp_thread_terminate` over the thread and its children. -/
def terminateAll (ctx : ThreadId) : List ThreadId → World V → Option (World V)
  | [], w => some w
  | thread :: rest, w => do
      let w :=
        if 0 < (w.threads ctx).refuel then
          w.setThread thread fun c =>
            { c with errorp := true, result := some w.terminateError, refuel := 0 }
        else w
      let (unblocked, w) ← w.sexpDeleteList thread
      terminateAll ctx rest (if unblocked then w.sexpThreadStart thread else w)

/-- `sexp_thread_terminate` -/
def sexpThreadTerminate (ctx thread : ThreadId) : Option (World V) :=
  terminateAll ctx (thread :: (w.threads thread).children) w

/-- `sexp_insert_timed` -/
def sexpInsertTimed (thread : ThreadId) (timeout : Timeout) (now : Timeval) :
    Option (World V) := do
  let (_, w) ← w.sexpDeleteList thread
  let tv := w.deadline timeout now
  let w := w.setThread thread fun c => { c with timeval := tv }
  let (prev, rest) ← w.scanPaused fun t => !w.behind timeout tv t
  let (cell, w) := w.sexpCons thread rest
  some (w.setPausedAfter prev (.cell cell))

/-- `sexp_thread_join`, with the result false where the thread has to wait. -/
def sexpThreadJoin (ctx thread : ThreadId) (timeout : Timeout) (now : Timeval) :
    Option (Bool × World V) :=
  if (w.threads thread).refuel ≤ 0 then some (true, w)
  else do
    let w := w.setThread ctx fun c => { c with timeoutp := false }
    let w := w.onGlobals fun g => g.wait ctx (.thread thread)
    some (false, ← w.sexpInsertTimed ctx timeout now)

/-- `sexp_thread_sleep`; the timeout `#t` is none.  Any other timeout that is no real number is a type
error, which is found after `waitp` is set. -/
def sexpThreadSleep (ctx : ThreadId) (timeout : Option Timeout) (now : Timeval) :
    Option (World V) :=
  let w := w.setThread ctx fun c => { c with waitp := true }
  match timeout with
  | none => some w
  | some timeout =>
    if timeout.isReal then
      (w.setThread ctx fun c => { c with event := .none }).sexpInsertTimed ctx timeout now
    else some w

/-- `sexp_mutex_lock` -/
def sexpMutexLock (ctx : ThreadId) (mutex : ℕ) (timeout : Timeout) (thread : Option ThreadId)
    (now : Timeval) : Option (Bool × World V) :=
  if (w.mutexes mutex).lockp then do
    let w := w.onGlobals fun g => g.wait ctx (.mutex mutex)
    some (false, ← w.sexpInsertTimed ctx timeout now)
  else some (true, w.onGlobals fun g => g.setMutex mutex ⟨true, thread⟩)

/-- Move the first thread that is paused for the event to the front of the run queue: the loop of
`sexp_mutex_unlock` and of `sexp_condition_variable_signal`. -/
def wakeFirst (event : Event) : Option (Bool × World V) := do
  let (prev, link) ← w.scanPaused fun t => decide ((w.threads t).event = event)
  match link with
  | .cell c => some (true, ((w.setPausedAfter prev (w.cdr c)).pushFront c).setThread (w.car c) .wake)
  | .stop _ => some (false, w)

/-- The part of `sexp_mutex_unlock` that wakes a thread. -/
def unlockFirst (ctx : ThreadId) (mutex : ℕ) : Option (World V) :=
  if (w.mutexes mutex).lockp then
    ((w.onGlobals fun g => g.setMutex mutex ⟨false, some ctx⟩).wakeFirst (.mutex mutex)).map Prod.snd
  else some w

/-- `sexp_mutex_unlock` -/
def sexpMutexUnlock (ctx : ThreadId) (mutex : ℕ) (condvar : Option Event) (timeout : Timeout)
    (now : Timeval) : Option (Bool × World V) := do
  let w ← w.unlockFirst ctx mutex
  match condvar with
  | none => some (true, w)
  | some condvar =>
    some (false, ← (w.onGlobals fun g => g.wait ctx condvar).sexpInsertTimed ctx timeout now)

/-- `sexp_condition_variable_signal` -/
def sexpConditionVariableSignal (condvar : Event) : Option (Bool × World V) :=
  w.wakeFirst condvar

/-- The loop of `sexp_condition_variable_broadcast`. -/
def broadcastLoop (condvar : Event) : ℕ → World V → Option (World V)
  | 0, _ => none
  | fuel + 1, w => do
      let (woken, w) ← w.sexpConditionVariableSignal condvar
      if woken then broadcastLoop condvar fuel w else some w

/-- `sexp_condition_variable_broadcast` -/
def sexpConditionVariableBroadcast (condvar : Event) : Option (World V) :=
  broadcastLoop condvar w.fuel w

/-- The descriptor of a port, a file descriptor object or a number. -/
def portFd : Event → Option ℤ
  | .port fileno _ => some fileno
  | .fileno fd => some fd
  | .fixnum n => some n
  | _ => none

/-- `POLLOUT` for an output port, `POLLIN` else. -/
def pollEvents : Event → ℕ
  | .port _ true => 4
  | _ => 1

/-- `sexp_blocker`; anything but a port, a file descriptor or a number is an error. -/
def sexpBlocker (ctx : ThreadId) (portorfd : Event) (timeout : Timeout) (now : Timeval) :
    Option (World V) :=
  match portFd portorfd with
  | none => some w
  | some fd =>
    let w := if 0 ≤ fd then w.onGlobals fun g => g.insertPollfd fd (pollEvents portorfd) else w
    (w.onGlobals fun g => g.wait ctx portorfd).sexpInsertTimed ctx timeout now

end World

end ChibiScheme.Thread
