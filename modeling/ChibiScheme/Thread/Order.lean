import ChibiScheme.Thread.SchedulerRefinement

/-!
# The order of the paused list

The paused list has the threads with a deadline first, in the order of their deadlines.  An insertion
finds the place for a thread as long as a deadline is told from none by its seconds.
-/

namespace ChibiScheme.Thread

open List Option

variable {V : Type}

/-! ## Deadlines -/

theorem sexpContextBefore_iff {c t : Timeval} :
    sexpContextBefore c t = true ↔ c ≠ .zero ∧ timevalLe c t := by
  obtain ⟨sec, usec⟩ := c
  simp only [sexpContextBefore, decide_eq_true_eq, Timeval.zero, ne_eq, Timeval.mk.injEq,
    not_and_or]

/-- In the paused list `x` may stand before `y`: `y` is no deadline, or both are and `x` is not the
later one. -/
def Timeval.precedes (x y : Timeval) : Prop :=
  y = .zero ∨ (x ≠ .zero ∧ ¬ timevalLe y x)

/-- The seconds tell a deadline from none. -/
def Timeval.Proper (tv : Timeval) : Prop :=
  tv = .zero ∨ tv.sec ≠ 0

theorem not_timevalLe_trans {x y z : Timeval} (hxy : ¬ timevalLe y x) (hyz : ¬ timevalLe z y) :
    ¬ timevalLe z x := by
  unfold timevalLe at *
  omega

@[simp] theorem Context.wake_timeval (c : Context V) : c.wake.timeval = c.timeval := rfl

@[simp] theorem Context.wakeReady_timeval (c : Context V) : c.wakeReady.timeval = c.timeval := rfl

@[simp] theorem Context.wakeTimeout_timeval (c : Context V) :
    c.wakeTimeout.timeval = c.timeval := rfl

namespace Queues

variable {q : Queues V} {ctx t thread : ThreadId}

/-- The deadline of a thread. -/
def tv (q : Queues V) (t : ThreadId) : Timeval := (q.threads t).timeval

/-- Every deadline is told from none by its seconds, and the paused list is in order. -/
structure Ordered (q : Queues V) : Prop where
  proper : ∀ t, (q.tv t).Proper
  nodup : q.paused.Nodup
  sorted : q.paused.Pairwise fun a b => (q.tv a).precedes (q.tv b)

theorem Ordered.shrink {q' : Queues V} (hordered : q.Ordered) (htv : ∀ t, q'.tv t = q.tv t)
    (hpaused : q'.paused.Sublist q.paused) : q'.Ordered := by
  refine ⟨fun t => htv t ▸ hordered.proper t, hordered.nodup.sublist hpaused, ?_⟩
  simp only [htv]
  exact hordered.sorted.sublist hpaused

variable {f : Context V → Context V}

theorem Ordered.setThread (hordered : q.Ordered) (t : ThreadId)
    (hf : ∀ c, (f c).timeval = c.timeval) : (q.setThread t f).Ordered := by
  refine hordered.shrink (fun u => ?_) (List.Sublist.refl _)
  show ((q.toGlobals.setThread t f).threads u).timeval = _
  rw [Globals.setThread_threads]
  split
  · rename_i heq
    rw [hf, heq]
    rfl
  · rfl

theorem Ordered.onGlobals (hordered : q.Ordered) {f : Globals V → Globals V}
    (hf : ∀ g, (f g).threads = g.threads) : (q.onGlobals f).Ordered := by
  refine hordered.shrink (fun u => ?_) (List.Sublist.refl _)
  show ((f q.toGlobals).threads u).timeval = _
  rw [hf]
  rfl

theorem pairwise_insert {R : ThreadId → ThreadId → Prop} {l : List ThreadId} {p : ThreadId → Bool}
    (hl : l.Pairwise R) (hbefore : ∀ a ∈ l.takeWhile p, R a t) (hafter : ∀ b ∈ l.dropWhile p, R t b) :
    (l.takeWhile p ++ t :: l.dropWhile p).Pairwise R := by
  have hsplit : (l.takeWhile p ++ l.dropWhile p).Pairwise R := by
    rwa [takeWhile_append_dropWhile]
  rw [pairwise_append] at hsplit ⊢
  refine ⟨hsplit.1, pairwise_cons.mpr ⟨hafter, hsplit.2.1⟩, ?_⟩
  intro a ha b hb
  rcases mem_cons.mp hb with rfl | hb
  · exact hbefore a ha
  · exact hsplit.2.2 a ha b hb

theorem forall_dropWhile {R : ThreadId → ThreadId → Prop} {l : List ThreadId}
    {p : ThreadId → Bool} {P : ThreadId → Prop} (hl : l.Pairwise R)
    (hfirst : ∀ b ∈ l, p b = false → P b) (hnext : ∀ b c, P b → R b c → P c) :
    ∀ b ∈ l.dropWhile p, P b := by
  have hsorted := hl.sublist (dropWhile_sublist p)
  have hsub := dropWhile_subset p (l := l)
  cases hdrop : l.dropWhile p with
  | nil =>
    intro b hb
    cases hb
  | cons first rest =>
    have hhead := head?_dropWhile_not p l
    rw [hdrop] at hhead hsorted hsub
    have hfirst' : P first := hfirst first (hsub mem_cons_self) (by simpa using hhead)
    intro b hb
    rcases mem_cons.mp hb with rfl | hb
    · exact hfirst'
    · exact hnext first b hfirst' ((pairwise_cons.mp hsorted).1 b hb)

theorem Ordered.insertTimed (hordered : q.Ordered) (t : ThreadId) (timeout : Timeout)
    (now : Timeval) (hdeadline : timeout.isTimed = true → (q.deadline timeout now).sec ≠ 0) :
    (q.insertTimed t timeout now).Ordered := by
  let d := q.deadline timeout now
  have hnotimed : timeout.isTimed = false → d = .zero := by
    intro htimed
    cases timeout with
    | other => rfl
    | fixnum | bignum | inexact | context => cases htimed
  have hproper : d.Proper := by
    cases htimed : timeout.isTimed with
    | true => exact .inr (hdeadline htimed)
    | false => exact .inl (hnotimed htimed)
  have hnot : t ∉ (q.delete t).paused := hordered.nodup.not_mem_erase
  have hpaused : (q.delete t).Ordered := hordered.shrink (fun _ => rfl) erase_sublist
  -- the deadlines after the insertion
  have htv : ∀ u, (q.insertTimed t timeout now).tv u = if u = t then d else q.tv u := by
    intro u
    show (((q.delete t).toGlobals.setThread t fun c => { c with timeval := d }).threads u).timeval
      = _
    rw [Globals.setThread_threads]
    split <;> rfl
  have htv_of_mem : ∀ u ∈ (q.delete t).paused, (q.insertTimed t timeout now).tv u = q.tv u := by
    intro u hu
    rw [htv, if_neg]
    rintro rfl
    exact hnot hu
  have htv_self : (q.insertTimed t timeout now).tv t = d := by rw [htv, if_pos rfl]
  -- the place of the insertion
  let behind := ((q.delete t).setThread t fun c => { c with timeval := d }).behind timeout d
  have hbehind : ∀ u ∈ (q.delete t).paused, behind u =
      if timeout.isTimed then sexpContextBefore (q.tv u) d else decide ((q.tv u).sec ≠ 0) := by
    intro u hu
    have hsame : (((q.delete t).setThread t fun c => { c with timeval := d }).threads u).timeval =
        q.tv u := htv_of_mem u hu
    simp only [behind, Globals.behind, hsame]
  have hsorted : (q.delete t).paused.Pairwise fun a b =>
      ((q.insertTimed t timeout now).tv a).precedes ((q.insertTimed t timeout now).tv b) := by
    refine hpaused.sorted.imp_of_mem fun ha hb hab => ?_
    rwa [htv_of_mem _ ha, htv_of_mem _ hb]
  refine ⟨?_, ?_, ?_⟩
  · intro u
    rw [htv]
    split
    · exact hproper
    · exact hordered.proper u
  · show ((q.delete t).paused.takeWhile behind ++ t :: (q.delete t).paused.dropWhile behind).Nodup
    rw [nodup_middle, takeWhile_append_dropWhile, nodup_cons]
    exact ⟨hnot, hpaused.nodup⟩
  · show ((q.delete t).paused.takeWhile behind ++
      t :: (q.delete t).paused.dropWhile behind).Pairwise _
    refine pairwise_insert hsorted (fun a ha => ?_) fun b hb => ?_
    · have hmem := takeWhile_subset behind ha
      have htrue := mem_takeWhile_imp ha
      rw [hbehind a hmem] at htrue
      rw [htv_of_mem a hmem, htv_self]
      cases htimed : timeout.isTimed with
      | true =>
        rw [htimed, if_pos rfl, sexpContextBefore_iff] at htrue
        refine .inr ⟨htrue.1, ?_⟩
        have hbefore := htrue.2
        unfold timevalLe at hbefore ⊢
        omega
      | false => exact .inl (hnotimed htimed)
    · have hmem := dropWhile_subset behind hb
      rw [htv_of_mem b hmem, htv_self]
      cases htimed : timeout.isTimed with
      | true =>
        have hd : d ≠ .zero := fun heq => hdeadline htimed (by
          show d.sec = 0
          rw [heq]
          rfl)
        refine forall_dropWhile (P := fun b => d.precedes (q.tv b)) hpaused.sorted ?_ ?_ b hb
        · intro u hu hfalse
          rw [hbehind u hu, htimed, if_pos rfl, ← Bool.not_eq_true, sexpContextBefore_iff,
            not_and] at hfalse
          by_cases hzero : q.tv u = .zero
          · exact .inl hzero
          · exact .inr ⟨hd, hfalse hzero⟩
        · rintro u v (hzero | ⟨-, hle⟩) (hzero' | ⟨hne, hle'⟩)
          · exact .inl hzero'
          · exact absurd hzero hne
          · exact .inl hzero'
          · exact .inr ⟨hd, not_timevalLe_trans hle hle'⟩
      | false =>
        rw [hnotimed htimed]
        refine .inl (forall_dropWhile (P := fun b => q.tv b = .zero) hpaused.sorted ?_ ?_ b hb)
        · intro u hu hfalse
          rw [hbehind u hu, htimed, if_neg (by decide), decide_eq_false_iff_not, not_not] at hfalse
          exact (hordered.proper u).resolve_right fun hne => hne hfalse
        · rintro u v hzero (hzero' | ⟨hne, -⟩)
          · exact hzero'
          · exact absurd hzero hne

/-! ## Operations -/

theorem deadline_congr {q q' : Queues V} (htv : ∀ t, q'.tv t = q.tv t) (timeout : Timeout)
    (now : Timeval) : q'.deadline timeout now = q.deadline timeout now := by
  cases timeout with
  | context u => exact htv u
  | fixnum | bignum | inexact | other => rfl

theorem setThread_tv (q : Queues V) (t : ThreadId) (hf : ∀ c, (f c).timeval = c.timeval)
    (u : ThreadId) : (q.setThread t f).tv u = q.tv u := by
  show ((q.toGlobals.setThread t f).threads u).timeval = _
  rw [Globals.setThread_threads]
  split
  · rename_i heq
    rw [hf, heq]
    rfl
  · rfl

theorem wakeFirst_tv (q : Queues V) (event : Event) (t : ThreadId) :
    (q.wakeFirst event).2.tv t = q.tv t := by
  unfold Queues.wakeFirst
  split
  · exact q.setThread_tv _ (f := Context.wake) (fun _ => rfl) t
  · rfl

theorem unlockFirst_tv (q : Queues V) (ctx : ThreadId) (mutex : ℕ) (t : ThreadId) :
    (q.unlockFirst ctx mutex).tv t = q.tv t := by
  unfold Queues.unlockFirst
  split
  · exact wakeFirst_tv _ _ t
  · rfl

variable (hordered : q.Ordered)
include hordered

theorem Ordered.block (ctx : ThreadId) (event : Event) (timeout : Timeout)
    (now : Timeval) (hdeadline : timeout.isTimed = true → (q.deadline timeout now).sec ≠ 0) :
    (q.block ctx event timeout now).Ordered := by
  let wait := fun c : Context V => { c with waitp := true, event := event }
  have hwait : (q.setThread ctx wait).Ordered := hordered.setThread ctx fun _ => rfl
  refine hwait.insertTimed ctx timeout now fun htimed => ?_
  rw [deadline_congr (q.setThread_tv ctx (f := wait) fun _ => rfl)]
  exact hdeadline htimed

theorem Ordered.start (t : ThreadId) : (q.start t).Ordered :=
  (hordered.setThread t (f := fun c => { c with errorp := false }) fun _ => rfl).shrink
    (fun _ => rfl) (List.Sublist.refl _)

theorem Ordered.terminateOne (ctx t : ThreadId) :
    (q.terminateOne ctx t).Ordered := by
  have hmarked : (q.markTerminated ctx t).Ordered := by
    unfold Queues.markTerminated
    split
    · exact hordered.setThread t fun _ => rfl
    · exact hordered
  rw [Queues.terminateOne_eq]
  generalize q.markTerminated ctx t = q' at hmarked ⊢
  have hdelete : (q'.delete t).Ordered := hmarked.shrink (fun _ => rfl) erase_sublist
  split
  · exact hdelete.start t
  · exact hmarked

theorem Ordered.terminate (ctx t : ThreadId) :
    (q.terminate ctx t).Ordered := by
  unfold Queues.terminate
  generalize t :: (q.threads t).children = threads
  induction threads generalizing q with
  | nil => exact hordered
  | cons u threads ih => exact ih (hordered.terminateOne ctx u)

theorem Ordered.wakeFirst (event : Event) :
    (q.wakeFirst event).2.Ordered := by
  unfold Queues.wakeFirst
  split
  · rename_i t _
    exact (hordered.setThread t (f := Context.wake) fun _ => rfl).shrink (fun _ => rfl)
      erase_sublist
  · exact hordered

theorem Ordered.unlockFirst (ctx : ThreadId) (mutex : ℕ) :
    (q.unlockFirst ctx mutex).Ordered := by
  unfold Queues.unlockFirst
  split
  · have hunlocked : (q.onGlobals fun g => g.setMutex mutex ⟨false, some ctx⟩).Ordered :=
      hordered.onGlobals fun _ => rfl
    exact hunlocked.wakeFirst _
  · exact hordered

theorem Ordered.broadcast (condvar : Event) :
    (q.broadcast condvar).Ordered := by
  unfold Queues.broadcast
  generalize q.paused.length + 1 = turns
  induction turns generalizing q with
  | zero => exact hordered
  | succ turns ih =>
    unfold Queues.broadcastLoop
    dsimp only
    split
    · exact ih (hordered.wakeFirst condvar)
    · exact hordered.wakeFirst condvar

theorem Ordered.join (ctx t : ThreadId) (timeout : Timeout) (now : Timeval)
    (hdeadline : 0 < (q.threads t).refuel → timeout.isTimed = true →
      (q.deadline timeout now).sec ≠ 0) :
    (q.join ctx t timeout now).Ordered := by
  unfold Queues.join
  split
  · exact hordered
  rename_i hrefuel
  let reset := fun c : Context V => { c with timeoutp := false }
  have hreset : (q.setThread ctx reset).Ordered := hordered.setThread ctx fun _ => rfl
  refine hreset.block ctx _ timeout now fun htimed => ?_
  rw [deadline_congr (q.setThread_tv ctx (f := reset) fun _ => rfl)]
  exact hdeadline (not_le.mp hrefuel) htimed

theorem Ordered.lock (ctx : ThreadId) (mutex : ℕ) (timeout : Timeout)
    (owner : Option ThreadId) (now : Timeval)
    (hdeadline : (q.mutexes mutex).lockp = true → timeout.isTimed = true →
      (q.deadline timeout now).sec ≠ 0) :
    (q.lock ctx mutex timeout owner now).Ordered := by
  unfold Queues.lock
  split
  · rename_i hlocked
    exact hordered.block ctx _ timeout now (hdeadline hlocked)
  · exact hordered.onGlobals fun _ => rfl

theorem Ordered.blocker (ctx : ThreadId) (portorfd : Event)
    (timeout : Timeout) (now : Timeval)
    (hdeadline : World.portFd portorfd ≠ none → timeout.isTimed = true →
      (q.deadline timeout now).sec ≠ 0) :
    (q.blocker ctx portorfd timeout now).Ordered := by
  unfold Queues.blocker
  split
  · exact hordered
  rename_i fd hfd
  have hsome : World.portFd portorfd ≠ none := by
    rw [hfd]
    exact some_ne_none fd
  dsimp only
  split
  · have hpolled : (q.onGlobals fun g => g.insertPollfd fd (World.pollEvents portorfd)).Ordered :=
      hordered.onGlobals fun g => g.insertPollfd_threads fd _
    refine hpolled.block ctx _ timeout now fun htimed => ?_
    rw [deadline_congr (q := q) fun t => ?_]
    · exact hdeadline hsome htimed
    · show ((q.insertPollfd fd (World.pollEvents portorfd)).threads t).timeval = _
      rw [Globals.insertPollfd_threads]
      rfl
  · exact hordered.block ctx _ timeout now (hdeadline hsome)

/-- An operation keeps the order, unless it pauses the current thread for a timeout that yields no
proper deadline. -/
theorem Ordered.perform (ctx : ThreadId) (now : Timeval) (op : Operation V)
    (hdeadline : ∀ timeout, q.pauses op = some timeout → timeout.isTimed = true →
      (q.deadline timeout now).sec ≠ 0) :
    (q.perform ctx now op).Ordered := by
  cases op with
  | compute arg1 => exact hordered.setThread ctx fun _ => rfl
  | start t => exact hordered.start t
  | terminate t => exact hordered.terminate ctx t
  | join t timeout =>
    exact hordered.join ctx t timeout now fun hrefuel =>
      hdeadline timeout (if_neg (not_le.mpr hrefuel))
  | sleep timeout =>
    cases timeout with
    | none => exact hordered.setThread ctx fun _ => rfl
    | some timeout =>
      show (q.sleep ctx (some timeout) now).Ordered
      unfold Queues.sleep
      dsimp only
      split
      · rename_i hreal
        exact hordered.block ctx _ timeout now (hdeadline timeout (Option.filter_some_pos hreal))
      · exact hordered.setThread ctx fun _ => rfl
  | lock mutex timeout owner =>
    exact hordered.lock ctx mutex timeout owner now fun hlocked =>
      hdeadline timeout (if_pos hlocked)
  | unlock mutex condvar timeout =>
    cases condvar with
    | none => exact hordered.unlockFirst ctx mutex
    | some condvar =>
      refine (hordered.unlockFirst ctx mutex).block ctx _ timeout now fun htimed => ?_
      rw [deadline_congr (q.unlockFirst_tv ctx mutex)]
      exact hdeadline timeout rfl htimed
  | signal condvar => exact hordered.wakeFirst condvar
  | broadcast condvar => exact hordered.broadcast condvar
  | block portorfd timeout =>
    refine hordered.blocker ctx portorfd timeout now fun hfd => ?_
    obtain ⟨fd, hfd⟩ := ne_none_iff_exists'.mp hfd
    refine hdeadline timeout ?_
    show (World.portFd portorfd).map (fun _ => timeout) = some timeout
    rw [hfd]
    rfl
  | finish errorp => exact hordered.setThread ctx fun _ => rfl

omit hordered

/-! ## The scheduler -/

theorem setThreads_tv (q : Queues V) (some : ThreadId → Bool) (hf : ∀ c, (f c).timeval = c.timeval)
    (t : ThreadId) : (q.setThreads some f).tv t = q.tv t := by
  show (if some t then f (q.threads t) else q.threads t).timeval = _
  split
  · exact hf _
  · rfl

theorem Ordered.wakeAll (hordered : q.Ordered) (hit : Event → Bool)
    {wake : Context V → Context V} (hwake : ∀ c, (wake c).timeval = c.timeval)
    (queued : ThreadId → Bool) : (q.wakeAll hit wake queued).Ordered :=
  hordered.shrink (fun t => q.setThreads_tv _ hwake t) filter_sublist

theorem Ordered.wakeFd (hordered : q.Ordered) (ctx : ThreadId) (fd : ℤ) :
    (q.wakeFd ctx fd).Ordered := by
  unfold Queues.wakeFd
  dsimp only
  split
  · exact (hordered.setThread ctx Context.wakeReady_timeval).wakeAll _ Context.wakeReady_timeval _
  · exact hordered.wakeAll _ Context.wakeReady_timeval _

theorem Ordered.pollLoop (hordered : q.Ordered) (ctx : ThreadId) (revents : ℕ → Bool) (i : ℕ)
    (k : ℤ) : (Queues.pollLoop ctx revents i k q).Ordered := by
  induction i generalizing k q with
  | zero => exact hordered
  | succ i ih =>
    unfold Queues.pollLoop
    split
    · split
      · rename_i pfd _ _
        have hremoved : ((q.wakeFd ctx pfd.fd).onGlobals fun g => g.removePollfd i).Ordered :=
          (hordered.wakeFd ctx pfd.fd).onGlobals fun _ => rfl
        exact ih hremoved (k - 1)
      · exact ih hordered k
    · exact hordered

theorem Ordered.checkJoins (hordered : q.Ordered) (ctx : ThreadId) :
    (q.checkJoins ctx).Ordered := by
  unfold Queues.checkJoins
  split
  · exact hordered.wakeAll _ Context.wake_timeval _
  · exact hordered

theorem Ordered.checkTimeouts (hordered : q.Ordered) (now : Timeval) :
    (q.checkTimeouts now).Ordered :=
  hordered.shrink (fun t => q.setThreads_tv _ Context.wakeTimeout_timeval t)
    (dropWhile_sublist _)

/-- No thread is paused whose deadline has passed. -/
def Future (q : Queues V) (now : Timeval) : Prop :=
  ∀ t ∈ q.paused, sexpContextBefore (q.tv t) now = false

theorem sexpContextBefore_eq_false {c t : Timeval} :
    sexpContextBefore c t = false ↔ c = .zero ∨ ¬ timevalLe c t := by
  rw [← Bool.not_eq_true, sexpContextBefore_iff, not_and_or, not_not]

theorem Ordered.future_checkTimeouts (hordered : q.Ordered) (now : Timeval) :
    (q.checkTimeouts now).Future now := by
  intro t ht
  have htv : (q.checkTimeouts now).tv t = q.tv t :=
    q.setThreads_tv _ Context.wakeTimeout_timeval t
  rw [htv]
  refine forall_dropWhile (P := fun t => sexpContextBefore (q.tv t) now = false) hordered.sorted
    (fun _ _ hfirst => hfirst) (fun a b ha hab => ?_) t ht
  simp only [sexpContextBefore_eq_false] at ha ⊢
  rcases hab with hb | ⟨hne, hle⟩
  · exact .inl hb
  · exact .inr (not_timevalLe_trans (ha.resolve_left hne) hle)

theorem Ordered.dequeue (hordered : q.Ordered) (ctx : ThreadId) (now : Timeval) :
    (q.dequeue ctx now).2.Ordered := by
  have hrun : ∀ run, ({ q with run := run } : Queues V).Ordered :=
    fun run => hordered.shrink (fun _ => rfl) (List.Sublist.refl _)
  unfold Queues.dequeue
  split
  · rename_i res rest _
    split
    · dsimp only
      split
      · exact (hrun rest).insertTimed ctx .other now fun htimed => by cases htimed
      · exact hrun rest
    · exact hrun _
  · split <;> exact hordered

theorem insertTimed_tv (q : Queues V) (t : ThreadId) (timeout : Timeout) (now : Timeval)
    (u : ThreadId) :
    (q.insertTimed t timeout now).tv u = if u = t then q.deadline timeout now else q.tv u := by
  show (((q.delete t).toGlobals.setThread t fun c =>
    { c with timeval := q.deadline timeout now }).threads u).timeval = _
  rw [Globals.setThread_threads]
  split <;> rfl

variable {now : Timeval}

theorem mem_insertTimed {u : ThreadId} {timeout : Timeout}
    (hmem : u ∈ (q.insertTimed t timeout now).paused) : u = t ∨ u ∈ q.paused := by
  let behind := ((q.delete t).setThread t fun c =>
    { c with timeval := q.deadline timeout now }).behind timeout (q.deadline timeout now)
  have hmem' : u ∈ (q.delete t).paused.takeWhile behind ++
      t :: (q.delete t).paused.dropWhile behind := hmem
  rw [mem_append, mem_cons] at hmem'
  rcases hmem' with hmem' | heq | hmem'
  · exact .inr (mem_of_mem_erase (takeWhile_subset _ hmem'))
  · exact .inl heq
  · exact .inr (mem_of_mem_erase (dropWhile_subset _ hmem'))

theorem Future.dequeue (hfuture : q.Future now) (ctx : ThreadId) :
    (q.dequeue ctx now).2.Future now := by
  unfold Queues.dequeue
  split
  · split
    · dsimp only
      split
      · intro u hu
        rw [insertTimed_tv]
        split
        · rfl
        · rename_i hne
          exact hfuture u ((mem_insertTimed hu).resolve_left hne)
      · exact hfuture
    · exact hfuture
  · split <;> exact hfuture

theorem Ordered.earliest {later : Timeval} (hordered : q.Ordered) (hfuture : q.Future now)
    (hepoch : 0 ≤ now.sec) (res : ThreadId) : (q.earliest res later).2.Ordered := by
  unfold Queues.earliest
  split
  · rename_i first rest hpaused
    have hrest : ({ q with paused := rest } : Queues V).Ordered := by
      refine hordered.shrink (fun _ => rfl) ?_
      rw [hpaused]
      exact sublist_cons_self first rest
    split
    · rename_i hbefore
      dsimp only
      split
      · exact hrest
      refine hrest.insertTimed res (.context res) later fun _ => ?_
      show (q.tv res).sec ≠ 0
      -- the thread has a deadline: no deadline of the list is before the epoch
      refine (hordered.proper res).resolve_left fun hzero => ?_
      have hmem : first ∈ q.paused := by
        rw [hpaused]
        exact mem_cons_self
      have hfirst := sexpContextBefore_eq_false.mp (hfuture first hmem)
      obtain ⟨hne, hle⟩ := sexpContextBefore_iff.mp hbefore
      have hproper : (q.tv first).sec ≠ 0 := (hordered.proper first).resolve_left hne
      have hle' : timevalLe (q.tv first) (q.tv res) := hle
      have hnot : ¬ timevalLe (q.tv first) now := hfirst.resolve_left hne
      rw [hzero] at hle'
      simp only [timevalLe, Timeval.zero] at hle' hnot
      omega
    · exact hordered.shrink (fun _ => rfl) erase_sublist
  · exact hordered

theorem Ordered.nap (hordered : q.Ordered) (res : ThreadId) (now : Timeval) :
    (q.nap res now).Ordered := by
  unfold Queues.nap
  dsimp only
  split
  · exact hordered
  · split
    · exact hordered
    · exact hordered.setThread res fun _ => rfl

theorem Ordered.scheduler (hordered : q.Ordered) (ctx : ThreadId) (tick : Tick) :
    (q.scheduler ctx tick).2.Ordered := by
  have hwoken : (q.wakePhases ctx tick).Ordered :=
    ((hordered.pollLoop ctx _ _ _).checkJoins ctx).checkTimeouts tick.now
  have hfuture : (q.wakePhases ctx tick).Future tick.now :=
    ((hordered.pollLoop ctx _ _ _).checkJoins ctx).future_checkTimeouts tick.now
  have hdequeued := hwoken.dequeue ctx tick.now
  have hfuture' := hfuture.dequeue ctx
  unfold Queues.scheduler Queues.settle
  dsimp only
  split
  · exact (hdequeued.earliest hfuture' tick.epoch.1 _).nap _ _
  · exact hdequeued

end Queues

/-! ## Runs -/

/-- The run queue is a null-terminated list that ends at its back.  The paused list ends in the mark,
no thread is in it twice, and those with a deadline come first, in the order of their deadlines. -/
def World.QueueInvariant (e : Tail) (w : World V) : Prop :=
  ∃ rc pc, w.Cells e rc pc ∧ (pc.map w.car).Nodup ∧
    (pc.map w.car).Pairwise fun a b => (w.threads a).timeval.precedes (w.threads b).timeval

/-- If the step pauses the current thread with a timeout, the seconds of its deadline are not 0. -/
def Globals.ProperDeadline (g : Globals V) : Action V → Prop
  | .perform now op => ∀ timeout, g.pauses op = some timeout → timeout.isTimed = true →
      (g.deadline timeout now).sec ≠ 0
  | .schedule _ => True

instance (g : Globals V) (a : Action V) : Decidable (g.ProperDeadline a) :=
  match a with
  | .perform now op => inferInstanceAs (Decidable (∀ timeout ∈ g.pauses op,
      timeout.isTimed = true → (g.deadline timeout now).sec ≠ 0))
  | .schedule _ => inferInstanceAs (Decidable True)

theorem Represents.queueInvariant_iff {e e' : Tail} {w : World V} {q : Queues V}
    (hrep : Represents e w q) :
    w.QueueInvariant e' ↔
      e = e' ∧ q.paused.Pairwise fun a b => (q.tv a).precedes (q.tv b) := by
  obtain ⟨rc, pc, hcells, -, hpaused⟩ := hrep.cells
  have htv : ∀ t, (w.threads t).timeval = q.tv t := fun t => by
    rw [hrep.globals]
    rfl
  constructor
  · rintro ⟨rc', pc', hcells', -, hsorted⟩
    obtain ⟨rfl, rfl⟩ := hcells.paused.stop_unique hcells'.paused
    rw [hpaused]
    simp only [htv] at hsorted
    exact ⟨rfl, hsorted⟩
  · rintro ⟨rfl, hsorted⟩
    refine ⟨rc, pc, hcells, hpaused ▸ hrep.nodup, ?_⟩
    rw [hpaused] at hsorted
    simp only [htv]
    exact hsorted

namespace Machine

variable {n n' : Machine (Queues V)}

theorem ordered_endLoop (hordered : n.queues.Ordered) :
    (n.endLoop (Queues.level V)).queues.Ordered := by
  have hresult : (n.queues.setThread n.current fun c =>
      { c with result := some c.arg1 }).Ordered := hordered.setThread _ fun _ => rfl
  unfold endLoop
  dsimp only
  split
  · exact hresult
  · exact hresult.setThread _ fun _ => rfl

/-- A proper step keeps the order. -/
theorem ordered_step {a : Action V} (hordered : n.queues.Ordered)
    (hproper : n.queues.ProperDeadline a) (hstep : n.step (Queues.level V) a = some n') :
    n'.queues.Ordered := by
  cases a with
  | perform now op =>
    obtain ⟨-, -, rfl⟩ := step_perform hstep
    have hperformed : (n.performed now op).queues.Ordered :=
      hordered.perform n.current now op hproper
    cases op with
    | finish errorp => exact ordered_endLoop hperformed
    | compute | start | terminate | join | sleep | lock | unlock | signal | broadcast | block =>
      exact hperformed
  | schedule tick =>
    obtain ⟨-, rfl⟩ := step_schedule hstep
    have hscheduled : (n.scheduled tick).queues.Ordered := hordered.scheduler n.current tick
    unfold resumed
    split
    · exact ordered_endLoop hscheduled
    · exact hscheduled

/-- So does a run. -/
theorem ordered_reaches (hordered : n.queues.Ordered)
    (hreaches : n.Reaches (Queues.level V) (fun n a => n.queues.ProperDeadline a) n') :
    n'.queues.Ordered := by
  induction hreaches with
  | refl => exact hordered
  | step _ hproper hstep ih => exact ordered_step ih hproper hstep

theorem Initial.ordered {e : Tail} {m : Machine (World V)} (hinitial : m.Initial e) :
    m.empty.queues.Ordered where
  proper t := .inl (hinitial.timeval t)
  nodup := nodup_nil
  sorted := List.Pairwise.nil

end Machine

/-- In every run in which no thread is paused with a timeout that yields no proper deadline, the
queues keep their shape.  The end of the paused list is the mark that it started with. -/
theorem queueInvariant_of_properDeadline {e : Tail} {m m' : Machine (World V)}
    (hinitial : m.Initial e)
    (hreaches : m.Reaches (World.level V) (fun m a => m.queues.ProperDeadline a) m') :
    m'.queues.QueueInvariant e ∧ (m'.queues.QueueInvariant .null ↔ e = .null) := by
  have hok : ∀ (m : Machine (World V)) (n : Machine (Queues V)) a, Machine.Represents e m n →
      m.queues.ProperDeadline a → n.queues.ProperDeadline a := by
    intro m n a hrep hproper
    rw [hrep.queues.globals] at hproper
    exact hproper
  obtain ⟨n', hreaches', hrep⟩ := hreaches.lists hok hinitial.represents
  have hsorted := (Machine.ordered_reaches hinitial.ordered hreaches').sorted
  constructor
  · exact hrep.queues.queueInvariant_iff.mpr ⟨rfl, hsorted⟩
  · rw [hrep.queues.queueInvariant_iff]
    exact and_iff_left hsorted

/-- Somebody sleeps until the clock shows 15, and then somebody else for more seconds than fit into a
fixnum. -/
def bignumSleep : List (Action Unit) :=
  let tick : Tick := ⟨0, fun _ => false, ⟨5, 0⟩, ⟨5, 0⟩, epoch_five⟩
  [.perform ⟨5, 0⟩ (.start 1), .perform ⟨5, 0⟩ (.sleep (some (.fixnum 10))), .schedule tick,
    .perform ⟨5, 0⟩ (.sleep (some .bignum))]

/-- A sleep for a bignum puts its thread in front, without a deadline. -/
theorem bignumSleep_out_of_order :
    ∃ m', (Machine.fresh .void (fun _ => ()) ()).run (World.level Unit) bignumSleep = some m' ∧
      ∀ e, ¬ m'.queues.QueueInvariant e := by
  let start : Machine (World Unit) := Machine.fresh .void (fun _ => ()) ()
  have hinitial : start.Initial .void := Machine.fresh_initial _ _ _
  -- the second sleeper is put in front of the first one
  have hlists : (start.empty.run (Queues.level Unit) bignumSleep).map
      (fun n => (n.queues.paused, n.queues.tv 1, n.queues.tv 0)) =
        some ([1, 0], .zero, ⟨15, 0⟩) := by decide
  obtain ⟨n', hrun, hqueues⟩ := map_eq_some_iff.mp hlists
  obtain ⟨hpaused, hfirst, hsecond⟩ : n'.queues.paused = [1, 0] ∧ n'.queues.tv 1 = .zero ∧
      n'.queues.tv 0 = ⟨15, 0⟩ := by simpa using hqueues
  obtain ⟨m', hpairs, hrep⟩ := hinitial.represents.run hrun
  refine ⟨m', hpairs, fun e hinvariant => ?_⟩
  have hsorted := (hrep.queues.queueInvariant_iff.mp hinvariant).2
  rw [hpaused, pairwise_cons] at hsorted
  have hprecedes := hsorted.1 0 (mem_singleton_self 0)
  rw [hfirst, hsecond] at hprecedes
  rcases hprecedes with hzero | ⟨hne, -⟩
  · exact absurd hzero (by decide)
  · exact hne rfl

/-- The root thread sleeps until the clock shows 25, and the other thread until it shows 15. -/
def shorterSleep : List (Action Unit) :=
  let tick : Tick := ⟨0, fun _ => false, ⟨5, 0⟩, ⟨5, 0⟩, epoch_five⟩
  [.perform ⟨5, 0⟩ (.start 1), .perform ⟨5, 0⟩ (.sleep (some (.fixnum 20))), .schedule tick,
    .perform ⟨5, 0⟩ (.sleep (some (.fixnum 10)))]

/-- The thread that sleeps less comes first. -/
theorem queueInvariant_shorterSleep :
    ∃ m', (Machine.fresh .null (fun _ => ()) ()).run (World.level Unit) shorterSleep = some m' ∧
      (∃ c c', m'.queues.paused = .cell c ∧ m'.queues.cdr c = .cell c' ∧
        m'.queues.cdr c' = null ∧ m'.queues.car c = 1 ∧ m'.queues.car c' = 0) ∧
      m'.queues.QueueInvariant .null := by
  let start : Machine (World Unit) := Machine.fresh .null (fun _ => ()) ()
  let proper : Machine (Queues Unit) → Action Unit → Bool := fun n a =>
    decide (n.queues.ProperDeadline a)
  have hinitial : start.Initial .null := Machine.fresh_initial _ _ _
  have hok : ∀ (m : Machine (World Unit)) (n : Machine (Queues Unit)) (a : Action Unit),
      Machine.Represents .null m n → proper n a = true → m.queues.ProperDeadline a := by
    intro m n a hrep hpasses
    rw [hrep.queues.globals]
    exact of_decide_eq_true hpasses
  have hlists : (start.empty.runWhile (Queues.level Unit) proper shorterSleep).map
      (fun n => n.queues.paused) = some [1, 0] := by decide
  obtain ⟨n', hrun, hpaused⟩ := map_eq_some_iff.mp hlists
  obtain ⟨m', hpairs, hreaches, hrep⟩ :=
    Machine.Represents.runWhile hok (.refl start) hinitial.represents hrun
  refine ⟨m', hpairs, ?_, (queueInvariant_of_properDeadline hinitial hreaches).1⟩
  obtain ⟨rc, pc, hcells, -, hthreads⟩ := hrep.queues.cells
  rw [hpaused] at hthreads
  obtain ⟨c, rest, rfl, hc, hrest⟩ := map_eq_cons_iff.mp hthreads.symm
  obtain ⟨c', rest', rfl, hc', hnil⟩ := map_eq_cons_iff.mp hrest
  rw [map_eq_nil_iff] at hnil
  subst hnil
  have hchain := hcells.paused
  simp only [Linked.chain_cons, Linked.chain_nil] at hchain
  exact ⟨c, c', hchain.1, hchain.2.1, hchain.2.2, hc, hc'⟩

end ChibiScheme.Thread
