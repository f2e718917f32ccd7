import ChibiScheme.Thread.Operations

/-!
# The scheduler

`sexp_scheduler` without signals: it wakes the threads whose descriptors are ready, those that join
the current thread if it has terminated, and those whose deadlines have passed, and then picks the
next thread.  The virtual machine runs it when the fuel of the current thread is used up; every other
step is an operation of the current thread.
-/

namespace ChibiScheme.Thread

open Linked

/-- What the outside world answers to one run of the scheduler: the result of `poll`, whether
something happened on the descriptor with that index, and the clock, read at most twice.  It counts
from the epoch. -/
structure Tick where
  ready : ℤ
  revents : ℕ → Bool
  now : Timeval
  later : Timeval
  epoch : 0 ≤ now.sec ∧ 0 ≤ now.usec

/-- A clock at five seconds is not before the epoch. -/
theorem epoch_five : (0 : ℤ) ≤ 5 ∧ (0 : ℤ) ≤ 0 := by
  decide

namespace World

variable {V : Type}

/-- The loops along the paused list that wake every thread with the event: each leaves the list,
and enters the run queue at the back if it is to be queued. -/
def wakeLoop (hit : Event → Bool) (wake : Context V → Context V) (queued : ThreadId → Bool) :
    ℕ → Option ℕ → Pointer → World V → Option (World V)
  | 0, _, _, _ => none
  | _ + 1, _, .stop _, w => some w
  | fuel + 1, prev, .cell c, w =>
    if hit (w.threads (w.car c)).event then
      let rest := w.cdr c
      let w := (((w.setThread (w.car c) wake).setPausedAfter prev rest)).setCdr c null
      let w := if queued (w.car c) then w.pushBack c else w
      wakeLoop hit wake queued fuel prev rest w
    else wakeLoop hit wake queued fuel (some c) (w.cdr c) w

variable (w : World V)

/-- The threads that wait for a descriptor are woken. -/
def wakeFd (ctx : ThreadId) (fd : ℤ) : Option (World V) :=
  let w :=
    if (w.threads ctx).event.onFd fd then w.setThread ctx .wakeReady else w
  wakeLoop (Event.onFd fd) .wakeReady (fun t => decide (t ≠ ctx)) w.fuel none w.paused w

/-- The loop over the polled descriptors, from the last one down. -/
def pollLoop (ctx : ThreadId) (revents : ℕ → Bool) : ℕ → ℤ → World V → Option (World V)
  | 0, _, w => some w
  | i + 1, k, w =>
    if 0 < k then
      match revents i, w.pollfds[i]? with
      | true, some pfd => do
          let w ← w.wakeFd ctx pfd.fd
          pollLoop ctx revents i (k - 1) (w.onGlobals fun g => g.removePollfd i)
      | _, _ => pollLoop ctx revents i k w
    else some w

/-- The descriptors that are ready wake their threads. -/
def checkFds (ctx : ThreadId) (tick : Tick) : Option (World V) :=
  pollLoop ctx tick.revents w.pollfds.length tick.ready w

/-- A thread that has ended wakes those that join it. -/
def checkJoins (ctx : ThreadId) : Option (World V) :=
  if (w.threads ctx).refuel ≤ 0 then
    wakeLoop (fun e => decide (e = .thread ctx)) .wake (fun _ => true) w.fuel none w.paused w
  else some w

/-- The loop along the paused threads whose deadline has passed: the last of them, and the link
behind it. -/
def timeoutLoop (now : Timeval) :
    ℕ → Option ℕ → Pointer → World V → Option (Option ℕ × Pointer × World V)
  | 0, _, _, _ => none
  | _ + 1, prev, .stop e, w => some (prev, .stop e, w)
  | fuel + 1, prev, .cell c, w =>
    if sexpContextBefore (w.threads (w.car c)).timeval now then
      timeoutLoop now fuel (some c) (w.cdr c) (w.setThread (w.car c) .wakeTimeout)
    else some (prev, .cell c, w)

/-- The paused list up to the pair `last` goes to the back of the run queue. -/
def splice (last : ℕ) (rest : Pointer) : World V :=
  let w := w.setCdr last null
  let w :=
    match w.back with
    | .cell back => w.setCdr back w.paused
    | .stop _ => { w with front := w.paused }
  { w with back := .cell last, paused := rest }

/-- The threads at the front with a passed deadline are woken. -/
def checkTimeouts (now : Timeval) : Option (World V) := do
  let (last, rest, w) ← timeoutLoop now w.fuel none w.paused w
  match last with
  | none => some w
  | some last => some (w.splice last rest)

/-- The first pair of the run queue is taken out. -/
def popFront (front : ℕ) : World V :=
  let w := { w with front := w.cdr front }
  match w.front with
  | .cell _ => w
  | .stop _ => { w with back := null }

/-- The current thread is terminated or waits: the first thread of the queue is taken. -/
def dequeueNext (ctx : ThreadId) (front : ℕ) (now : Timeval) : Option (World V) :=
  let w := w.popFront front
  if 0 < (w.threads ctx).refuel then do
    if ← w.pausedMem ctx then some w else w.sexpInsertTimed ctx .other now
  else some w

/-- The current thread changes places with the first one of the queue, which is then rotated. -/
def rotate (ctx : ThreadId) (front : ℕ) : Option (World V) :=
  match w.back with
  | .cell back =>
    let w := (w.setCar front ctx).setCdr back (.cell front)
    let w := { w with front := w.cdr front }
    match w.cdr back with
    | .cell back' => some ({ w with back := .cell back' }.setCdr back' null)
    | .stop _ => none
  | .stop _ => none

/-- The thread that runs next. -/
def dequeue (ctx : ThreadId) (now : Timeval) : Option (ThreadId × World V) :=
  match w.front with
  | .cell front => do
      let res := w.car front
      if (w.threads ctx).refuel ≤ 0 ∨ (w.threads ctx).waitp then
        some (res, ← w.dequeueNext ctx front now)
      else some (res, ← w.rotate ctx front)
  | .stop _ =>
    if (w.threads ctx).refuel ≤ 0 then do
      let (_, link) ← w.scanPaused fun t => (w.threads t).event.isInput
      match link with
      | .cell c => some (w.car c, w)
      | .stop _ => some (ctx, w)
    else some (ctx, w)

/-- The microseconds to sleep: up to the deadline, and ten milliseconds without one. -/
def napTime (tv now : Timeval) : ℤ :=
  if tv = .zero then 10 * 1000
  else if now.sec ≤ tv.sec then
    let usecs := (tv.sec - now.sec) * 1000000
    if now.usec < tv.usec ∨ 0 < usecs then usecs + (tv.usec - now.usec) else usecs
  else 0

/-- The only thread available is waiting: prefer the one with the first deadline. -/
def earliest (res : ThreadId) (now : Timeval) : Option (ThreadId × World V) :=
  match w.paused with
  | .cell c =>
    if sexpContextBefore (w.threads (w.car c)).timeval (w.threads res).timeval then do
      let w' := { w with paused := w.cdr c }
      if ← w'.pausedMem res then some (w.car c, w')
      else some (w.car c, ← w'.sexpInsertTimed res (.context res) now)
    else (w.sexpDeleteList res).map fun (_, w) => (res, w)
  | .stop _ => (w.sexpDeleteList res).map fun (_, w) => (res, w)

/-- Wait for the thread, for ten milliseconds at most. -/
def nap (res : ThreadId) (now : Timeval) : World V :=
  let tv := (w.threads res).timeval
  if tv = .zero then w
  else if 10 * 1000 < napTime tv now then w
  else w.setThread res .wakeTimeout

/-- `sexp_scheduler` -/
def sexpScheduler (ctx : ThreadId) (tick : Tick) : Option (ThreadId × World V) := do
  let w ← w.checkFds ctx tick
  let w ← w.checkJoins ctx
  let w ← w.checkTimeouts tick.now
  let (res, w) ← w.dequeue ctx tick.now
  if (w.threads res).waitp then
    let (res, w) ← w.earliest res tick.later
    some (res, w.nap res tick.later)
  else some (res, w)

end World

/-! ## Runs -/

/-- What the current thread can do between two calls of the scheduler. -/
inductive Operation (V : Type) where
  /-- instructions that are no thread operation leave a new top of the stack -/
  | compute (arg1 : V)
  | start (thread : ThreadId)
  | terminate (thread : ThreadId)
  | join (thread : ThreadId) (timeout : Timeout)
  | sleep (timeout : Option Timeout)
  | lock (mutex : ℕ) (timeout : Timeout) (thread : Option ThreadId)
  | unlock (mutex : ℕ) (condvar : Option Event) (timeout : Timeout)
  | signal (condvar : Event)
  | broadcast (condvar : Event)
  | block (portorfd : Event) (timeout : Timeout)
  /-- the code of the thread ends, in an error that nobody handles or not -/
  | finish (errorp : Bool)

/-- The timeout with which the operation puts the current thread into the paused list. -/
def Globals.pauses {V : Type} (g : Globals V) : Operation V → Option Timeout
  | .join thread timeout => if (g.threads thread).refuel ≤ 0 then none else some timeout
  | .sleep timeout => timeout.filter Timeout.isReal
  | .lock mutex timeout _ => if (g.mutexes mutex).lockp then some timeout else none
  | .unlock _ condvar timeout => condvar.map fun _ => timeout
  | .block portorfd timeout => (World.portFd portorfd).map fun _ => timeout
  | _ => none

/-- The effect of an operation of the current thread, at the given time. -/
def World.perform {V : Type} (w : World V) (ctx : ThreadId) (now : Timeval) :
    Operation V → Option (World V)
  | .compute arg1 => some (w.setThread ctx fun c => { c with arg1 := arg1 })
  | .start thread => some (w.sexpThreadStart thread)
  | .terminate thread => w.sexpThreadTerminate ctx thread
  | .join thread timeout => (w.sexpThreadJoin ctx thread timeout now).map Prod.snd
  | .sleep timeout => w.sexpThreadSleep ctx timeout now
  | .lock mutex timeout thread => (w.sexpMutexLock ctx mutex timeout thread now).map Prod.snd
  | .unlock mutex condvar timeout =>
    (w.sexpMutexUnlock ctx mutex condvar timeout now).map Prod.snd
  | .signal condvar => (w.sexpConditionVariableSignal condvar).map Prod.snd
  | .broadcast condvar => w.sexpConditionVariableBroadcast condvar
  | .block portorfd timeout => w.sexpBlocker ctx portorfd timeout now
  | .finish errorp => some (w.setThread ctx fun c => { c with errorp := errorp || c.errorp })

/-- What a machine needs to know of the threads and their queues. -/
structure Level (V W : Type) where
  threads : W → ThreadId → Context V
  setThread : W → ThreadId → (Context V → Context V) → W
  pauses : W → Operation V → Option Timeout
  perform : W → ThreadId → Timeval → Operation V → Option W
  scheduler : W → ThreadId → Tick → Option (ThreadId × W)

/-- The pairs as a level of the machine. -/
def World.level (V : Type) : Level V (World V) where
  threads w := w.threads
  setThread := World.setThread
  pauses w := w.pauses
  perform := World.perform
  scheduler := World.sexpScheduler

/-- A virtual machine that runs threads: the current one, the one it was entered for, and those that
were ever started. -/
structure Machine (W : Type) where
  queues : W
  current : ThreadId
  root : ThreadId
  started : List ThreadId
  returned : Bool
  /-- the current thread goes on after an exception that has left its `waitp` set -/
  raised : Bool

/-- One step of the machine. -/
inductive Action (V : Type) where
  /-- the current thread runs an operation -/
  | perform (now : Timeval) (op : Operation V)
  /-- its fuel is used up -/
  | schedule (tick : Tick)

section

variable {V W : Type} (level : Level V W) (m : Machine W)

/-- The context of a thread. -/
def Machine.thread (t : ThreadId) : Context V := level.threads m.queues t

/-- The code of `sexp_apply` after `end_loop`. -/
def Machine.endLoop : Machine W :=
  let q := level.setThread m.queues m.current fun c => { c with result := some c.arg1 }
  if m.current = m.root ∨ (level.threads q m.root).refuel ≤ 0 then
    { m with queues := q, returned := true }
  else { m with queues := level.setThread q m.current fun c => { c with refuel := 0 } }

/-- The current thread can run an operation: one that blocks yields to the scheduler at once. -/
def Machine.Running : Prop :=
  m.returned = false ∧ 0 < (m.thread level m.current).refuel ∧
    ((m.thread level m.current).waitp = false ∨ m.raised = true)

instance : Decidable (m.Running level) := inferInstanceAs (Decidable (_ ∧ _))

/-- No thread is started twice. -/
def Machine.mayStart : Operation V → Prop
  | .start thread => thread ∉ m.started
  | _ => True

instance (op : Operation V) : Decidable (m.mayStart op) :=
  match op with
  | .start thread => inferInstanceAs (Decidable (thread ∉ m.started))
  | .compute _ | .terminate _ | .join _ _ | .sleep _ | .lock _ _ _ | .unlock _ _ _ | .signal _
  | .broadcast _ | .block _ _ | .finish _ => inferInstanceAs (Decidable True)

/-- The started threads after the operation. -/
def Machine.startedBy : Operation V → List ThreadId
  | .start thread => thread :: m.started
  | _ => m.started

/-- A sleep that is a type error raises an exception; the thread then goes on until it blocks. -/
def Machine.raisedBy : Operation V → Bool
  | .sleep timeout => timeout.any fun t => !t.isReal
  | op => m.raised && (level.pauses m.queues op).isNone

/-- The machine after an operation; the last one of a thread is followed by `end_loop`. -/
def Machine.after : Operation V → Machine W
  | .finish _ => m.endLoop level
  | _ => m

/-- The current thread runs an operation. -/
def Machine.performStep (now : Timeval) (op : Operation V) : Option (Machine W) :=
  if m.Running level ∧ m.mayStart op then
    (level.perform m.queues m.current now op).map fun q =>
      { m with
        queues := q
        started := m.startedBy op
        raised := m.raisedBy level op }.after level op
  else none

/-- The scheduler picks a thread; one that has terminated gets to `end_loop` at once. -/
def Machine.scheduleStep (tick : Tick) : Option (Machine W) :=
  if m.returned then none
  else (level.scheduler m.queues m.current tick).map fun (res, q) =>
    let m' := { m with queues := q, current := res, raised := false }
    if (m'.thread level res).refuel ≤ 0 then m'.endLoop level else m'

/-- One step; `none` if it does not apply. -/
def Machine.step : Action V → Option (Machine W)
  | .perform now op => m.performStep level now op
  | .schedule tick => m.scheduleStep level tick

/-- The machine gets from one state to another by steps that are all `ok`. -/
inductive Machine.Reaches (ok : Machine W → Action V → Prop) : Machine W → Machine W → Prop
  | refl (m : Machine W) : Reaches ok m m
  | step {m m' m'' : Machine W} {a : Action V} :
      Reaches ok m m' → ok m' a → m'.step level a = some m'' → Reaches ok m m''

/-- Some steps. -/
def Machine.run (m : Machine W) : List (Action V) → Option (Machine W)
  | [] => some m
  | a :: actions => (m.step level a).bind fun m' => m'.run actions

/-- A run whose steps all pass a test. -/
def Machine.runWhile (p : Machine W → Action V → Bool) (m : Machine W) :
    List (Action V) → Option (Machine W)
  | [] => some m
  | a :: actions =>
    if p m a then (m.step level a).bind fun m' => m'.runWhile p actions else none

end

/-- A machine that has just been entered.  The paused list may end in any mark. -/
structure Machine.Initial {V : Type} (e : Tail) (m : Machine (World V)) : Prop where
  front : m.queues.front = null
  back : m.queues.back = null
  paused : m.queues.paused = .stop e
  started : m.started = [m.root]
  current : m.current = m.root
  raised : m.raised = false
  refuel : 0 < (m.queues.threads m.root).refuel
  waiting : ∀ t, (m.queues.threads t).waitp = false
  timeval : ∀ t, (m.queues.threads t).timeval = .zero

/-- A new context, with this on top of its stack. -/
def Context.fresh {V : Type} (arg1 : V) : Context V where
  refuel := 500
  errorp := false
  waitp := false
  timeoutp := false
  event := .none
  timeval := .zero
  result := none
  arg1 := arg1
  children := []

/-- A machine that has just been entered, with new contexts. -/
def Machine.fresh {V : Type} (e : Tail) (arg1 : ThreadId → V) (terminateError : V) :
    Machine (World V) where
  queues := {
    threads := fun t => .fresh (arg1 t)
    mutexes := fun _ => ⟨false, none⟩
    pollfds := []
    terminateError := terminateError
    car := fun _ => 0
    cdr := fun _ => null
    cells := 0
    front := null
    back := null
    paused := .stop e }
  current := 0
  root := 0
  started := [0]
  returned := false
  raised := false

theorem Machine.fresh_initial {V : Type} (e : Tail) (arg1 : ThreadId → V) (terminateError : V) :
    (Machine.fresh e arg1 terminateError).Initial e where
  front := rfl
  back := rfl
  paused := rfl
  started := rfl
  current := rfl
  raised := rfl
  refuel := by
    show (0 : ℤ) < 500
    decide
  waiting _ := rfl
  timeval _ := rfl

end ChibiScheme.Thread
