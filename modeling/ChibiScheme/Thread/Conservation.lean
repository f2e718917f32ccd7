import ChibiScheme.Thread.Conserved

/-!
# Conservation of threads

The scheduler keeps every thread in one place unless it wakes the current thread itself while that is
in the paused list: nobody takes its pair out of the queues then.
-/

namespace ChibiScheme.Thread

open List

variable {V : Type}

/-! ## What the scheduler does to the current thread -/

/-- The descriptors that the loop over `poll`'s answer finds ready, among the first `i`. -/
def readyFds (pollfds : List Pollfd) (revents : ℕ → Bool) : ℕ → ℤ → List ℤ
  | 0, _ => []
  | i + 1, k =>
    if 0 < k then
      match revents i, pollfds[i]? with
      | true, some pfd => pfd.fd :: readyFds pollfds revents i (k - 1)
      | _, _ => readyFds pollfds revents i k
    else []

/-- The thread waits for a descriptor that `poll` has reported. -/
def Globals.isReady (g : Globals V) (tick : Tick) (t : ThreadId) : Bool :=
  (readyFds g.pollfds tick.revents g.pollfds.length tick.ready).any fun fd =>
    (g.threads t).event.onFd fd

/-- If the thread is in the paused list, it stays there: no descriptor that it waits for is ready, and
its deadline has not passed, or a thread in front of it stays there. -/
def Globals.StaysPaused (g : Globals V) (paused : List ThreadId) (tick : Tick) (t : ThreadId) :
    Prop :=
  t ∈ paused → g.isReady tick t = false ∧
    t ∉ (paused.filter fun u => !g.isReady tick u).takeWhile fun u =>
      sexpContextBefore (g.threads u).timeval tick.now

instance (g : Globals V) (paused : List ThreadId) (tick : Tick) (t : ThreadId) :
    Decidable (g.StaysPaused paused tick t) := inferInstanceAs (Decidable (_ → _))

variable {i : ℕ}

theorem readyFds_congr {pollfds pollfds' : List Pollfd} (revents : ℕ → Bool) (k : ℤ)
    (hsame : ∀ j < i, pollfds'[j]? = pollfds[j]?) :
    readyFds pollfds' revents i k = readyFds pollfds revents i k := by
  induction i generalizing k with
  | zero => rfl
  | succ i ih =>
    have hsame' : ∀ j < i, pollfds'[j]? = pollfds[j]? := fun j hj => hsame j (Nat.lt_succ_of_lt hj)
    unfold readyFds
    rw [hsame i (Nat.lt_succ_self i)]
    simp only [ih _ hsame']

theorem Globals.removePollfd_getElem? (g : Globals V) {j : ℕ} (hi : i < g.pollfds.length)
    (hj : j < i) : (g.removePollfd i).pollfds[j]? = g.pollfds[j]? := by
  unfold removePollfd
  dsimp only
  cases hlast : g.pollfds.getLast? with
  | none =>
    rw [getLast?_eq_none_iff] at hlast
    rw [hlast] at hi
    cases hi
  | some p =>
    dsimp only
    rw [dropLast_eq_take, getElem?_take_of_lt (by simp; omega), getElem?_set_ne]
    omega

theorem Globals.le_removePollfd_length (g : Globals V) (hi : i < g.pollfds.length) :
    i ≤ (g.removePollfd i).pollfds.length := by
  unfold removePollfd
  dsimp only
  cases hlast : g.pollfds.getLast? with
  | none =>
    rw [getLast?_eq_none_iff] at hlast
    rw [hlast] at hi
    cases hi
  | some p =>
    dsimp only
    rw [length_dropLast, length_set]
    omega

namespace Queues

variable {q q' : Queues V} {cur t : ThreadId} {started : List ThreadId}

theorem Conserved.wakeAll (hconserved : q.Conserved cur started) (hit : Event → Bool)
    (wake : Context V → Context V) (queued : ThreadId → Bool)
    (hrefuel : ∀ c, (wake c).refuel = c.refuel)
    (hcur : cur ∈ q.paused → hit (q.threads cur).event = false)
    (hqueued : ∀ t, t ≠ cur → queued t = true) :
    (q.wakeAll hit wake queued).Conserved cur started := by
  have hall : (q.paused.filter fun t => hit (q.threads t).event).filter queued =
      q.paused.filter fun t => hit (q.threads t).event := by
    refine filter_eq_self.mpr fun t ht => hqueued t ?_
    rintro rfl
    obtain ⟨hmem, hhit⟩ := mem_filter.mp ht
    rw [hcur hmem] at hhit
    cases hhit
  have hrun : (q.wakeAll hit wake queued).run =
      q.run ++ q.paused.filter fun t => hit (q.threads t).event := congrArg (q.run ++ ·) hall
  have hthreads : ∀ u, (q.wakeAll hit wake queued).threads u =
      if u ∈ q.paused ∧ hit (q.threads u).event = true then wake (q.threads u)
      else q.threads u := by
    intro u
    show (if _ then _ else _) = _
    simp only [Bool.and_eq_true, decide_eq_true_eq]
  refine hconserved.rearrange ?_ ?_ (fun u hu => ?_) fun u hpos => ?_
  · rw [hrun, append_assoc]
    exact List.Perm.append_left _ (filter_append_perm _ _)
  · rw [hrun, mem_append, not_or]
    refine ⟨hconserved.current, fun hwoken => ?_⟩
    obtain ⟨hmem, hhit⟩ := mem_filter.mp hwoken
    rw [hcur hmem] at hhit
    cases hhit
  · have hu' : u ∈ q.paused.filter fun t => !hit (q.threads t).event := hu
    rw [mem_filter, Bool.not_eq_true'] at hu'
    rw [hthreads, if_neg (by simp [hu'.2])]
    exact hconserved.waiting u hu'.1
  · rw [hthreads] at hpos
    split at hpos
    · rwa [hrefuel] at hpos
    · exact hpos

theorem wakeAll_run_of_idle {hit : Event → Bool} {wake : Context V → Context V}
    {queued : ThreadId → Bool} (hidle : ∀ t ∈ q.paused, hit (q.threads t).event = false) :
    (q.wakeAll hit wake queued).run = q.run := by
  have hnone : (q.paused.filter fun t => hit (q.threads t).event) = [] :=
    filter_eq_nil_iff.mpr fun t ht => by simp [hidle t ht]
  show q.run ++ (q.paused.filter fun t => hit (q.threads t).event).filter queued = q.run
  rw [hnone, filter_nil, append_nil]

theorem wakeAll_threads_of_paused {hit : Event → Bool} {wake : Context V → Context V}
    {queued : ThreadId → Bool} (ht : t ∈ (q.wakeAll hit wake queued).paused) :
    (q.wakeAll hit wake queued).threads t = q.threads t := by
  have ht' : t ∈ q.paused.filter fun t => !hit (q.threads t).event := ht
  rw [mem_filter, Bool.not_eq_true'] at ht'
  show (if decide (t ∈ q.paused) && hit (q.threads t).event then _ else _) = _
  rw [ht'.2, Bool.and_false, if_neg Bool.false_ne_true]

theorem wakeFd_paused {fd : ℤ} (hcur : cur ∈ q.paused → (q.threads cur).event.onFd fd = false) :
    (q.wakeFd cur fd).paused = (q.paused.filter fun t => !(q.threads t).event.onFd fd) ∧
      (∀ t ∈ (q.wakeFd cur fd).paused, (q.wakeFd cur fd).threads t = q.threads t) ∧
      ((∀ t ∈ q.paused, (q.threads t).event.onFd fd = false) → (q.wakeFd cur fd).run = q.run) := by
  unfold Queues.wakeFd
  dsimp only
  split
  · rename_i hready
    have hsame : ∀ t ∈ q.paused, (q.setThread cur .wakeReady).threads t = q.threads t := by
      intro t ht
      rw [setThread_threads, if_neg]
      rintro rfl
      rw [hcur ht] at hready
      cases hready
    refine ⟨?_, fun t ht => ?_, fun hidle => ?_⟩
    · refine filter_congr fun t ht => ?_
      dsimp only
      rw [hsame t ht]
    · rw [wakeAll_threads_of_paused ht]
      exact hsame t (mem_of_mem_filter ht)
    · refine wakeAll_run_of_idle fun t ht => ?_
      rw [hsame t ht]
      exact hidle t ht
  · exact ⟨rfl, fun t ht => wakeAll_threads_of_paused ht, fun hidle => wakeAll_run_of_idle hidle⟩

theorem Conserved.wakeFd (hconserved : q.Conserved cur started) {fd : ℤ}
    (hcur : cur ∈ q.paused → (q.threads cur).event.onFd fd = false) :
    (q.wakeFd cur fd).Conserved cur started := by
  unfold Queues.wakeFd
  dsimp only
  split
  · rename_i hready
    have hnot : cur ∉ q.paused := fun hmem => by
      rw [hcur hmem] at hready
      cases hready
    have hwoken : (q.setThread cur .wakeReady).Conserved cur started :=
      hconserved.setThread cur (fun hmem => absurd hmem hnot) id
    exact hwoken.wakeAll _ _ _ (fun _ => rfl) (fun hmem => absurd hmem hnot) fun t ht => by simpa
  · exact hconserved.wakeAll _ _ _ (fun _ => rfl) hcur fun t ht => by simpa

/-! ### The loop over the descriptors -/

/-- Some descriptors, one after the other. -/
def wakeFds (cur : ThreadId) (fds : List ℤ) (q : Queues V) : Queues V :=
  fds.foldl (fun q fd => q.wakeFd cur fd) q

/-- New descriptors to poll. -/
def setPollfds (q : Queues V) (pollfds : List Pollfd) : Queues V :=
  q.onGlobals fun g => { g with pollfds := pollfds }

theorem wakeFd_setPollfds (q : Queues V) (cur : ThreadId) (fd : ℤ) (pollfds : List Pollfd) :
    (q.setPollfds pollfds).wakeFd cur fd = (q.wakeFd cur fd).setPollfds pollfds := by
  unfold Queues.wakeFd
  dsimp only
  by_cases hready : (q.threads cur).event.onFd fd = true
  · rw [if_pos hready, if_pos (show ((q.setPollfds pollfds).threads cur).event.onFd fd = true from
      hready)]
    rfl
  · rw [if_neg hready, if_neg (show ¬ ((q.setPollfds pollfds).threads cur).event.onFd fd = true from
      hready)]
    rfl

theorem wakeFds_setPollfds (fds : List ℤ) (pollfds : List Pollfd) (q : Queues V) :
    wakeFds cur fds (q.setPollfds pollfds) = (wakeFds cur fds q).setPollfds pollfds := by
  induction fds generalizing q with
  | nil => rfl
  | cons fd fds ih =>
    show wakeFds cur fds ((q.setPollfds pollfds).wakeFd cur fd) = _
    rw [wakeFd_setPollfds, ih]
    rfl

theorem wakeFd_pollfds (q : Queues V) (ctx : ThreadId) (fd : ℤ) :
    (q.wakeFd ctx fd).pollfds = q.pollfds := by
  unfold Queues.wakeFd
  dsimp only
  split <;> rfl

/-- The loop wakes the threads that wait for the descriptors that it finds ready, and removes these
from the table. -/
theorem pollLoop_eq (q : Queues V) (cur : ThreadId) (revents : ℕ → Bool) {i : ℕ} (hi : i ≤ q.pollfds.length) (k : ℤ) :
    ∃ pollfds, pollLoop cur revents i k q =
      (wakeFds cur (readyFds q.pollfds revents i k) q).setPollfds pollfds := by
  induction i generalizing k q with
  | zero => exact ⟨q.pollfds, rfl⟩
  | succ i ih =>
    unfold Queues.pollLoop readyFds
    split
    · cases hrevents : revents i with
      | false => exact ih _ (Nat.le_of_succ_le hi) k
      | true =>
        cases hpfd : q.pollfds[i]? with
        | none => exact ih _ (Nat.le_of_succ_le hi) k
        | some pfd =>
          -- the rest of the loop
          let q₁ := q.wakeFd cur pfd.fd
          have hi' : i < q₁.pollfds.length := by
            rw [wakeFd_pollfds]
            exact hi
          let q₂ := q₁.onGlobals fun g => g.removePollfd i
          have hrest : q₂ = q₁.setPollfds q₂.pollfds := rfl
          have hfds : readyFds q₂.pollfds revents i (k - 1) =
              readyFds q.pollfds revents i (k - 1) := by
            refine readyFds_congr revents _ fun j hj => ?_
            rw [← wakeFd_pollfds q cur pfd.fd]
            exact Globals.removePollfd_getElem? _ hi' hj
          obtain ⟨pollfds, heq⟩ := ih (q := q₂) (Globals.le_removePollfd_length _ hi') (k - 1)
          refine ⟨pollfds, ?_⟩
          dsimp only
          rw [heq, hfds, hrest, wakeFds_setPollfds]
          rfl
    · exact ⟨q.pollfds, rfl⟩

theorem wakeFds_paused {fds : List ℤ}
    (hcur : cur ∈ q.paused → fds.any (fun fd => (q.threads cur).event.onFd fd) = false) :
    (wakeFds cur fds q).paused =
        (q.paused.filter fun t => !fds.any fun fd => (q.threads t).event.onFd fd) ∧
      ∀ t ∈ (wakeFds cur fds q).paused, (wakeFds cur fds q).threads t = q.threads t := by
  induction fds generalizing q with
  | nil => exact ⟨(filter_true _).symm, fun _ _ => rfl⟩
  | cons fd fds ih =>
    simp only [any_cons, Bool.or_eq_false_iff] at hcur ⊢
    obtain ⟨hpaused, hthreads, -⟩ := wakeFd_paused fun hmem => (hcur hmem).1
    have hsub : ∀ t ∈ (q.wakeFd cur fd).paused, t ∈ q.paused := by
      rw [hpaused]
      exact fun t ht => mem_of_mem_filter ht
    obtain ⟨hpaused', hthreads'⟩ := ih (q := q.wakeFd cur fd) fun hmem => by
      rw [hthreads cur hmem]
      exact (hcur (hsub cur hmem)).2
    refine ⟨?_, fun t ht => ?_⟩
    · show (wakeFds cur fds (q.wakeFd cur fd)).paused = _
      rw [hpaused', filter_congr fun t ht => by rw [hthreads t ht], hpaused,
        filter_filter]
      refine filter_congr fun t _ => ?_
      rw [Bool.not_or, Bool.and_comm]
    · have ht' : t ∈ (wakeFds cur fds (q.wakeFd cur fd)).paused := ht
      show (wakeFds cur fds (q.wakeFd cur fd)).threads t = _
      rw [hthreads' t ht']
      rw [hpaused'] at ht'
      exact hthreads t (mem_of_mem_filter ht')

theorem Conserved.wakeFds (hconserved : q.Conserved cur started) {fds : List ℤ}
    (hcur : cur ∈ q.paused → fds.any (fun fd => (q.threads cur).event.onFd fd) = false) :
    (wakeFds cur fds q).Conserved cur started := by
  induction fds generalizing q with
  | nil => exact hconserved
  | cons fd fds ih =>
    simp only [any_cons, Bool.or_eq_false_iff] at hcur
    obtain ⟨hpaused, hthreads, -⟩ := wakeFd_paused fun hmem => (hcur hmem).1
    refine ih (hconserved.wakeFd fun hmem => (hcur hmem).1) fun hmem => ?_
    rw [hthreads cur hmem]
    rw [hpaused] at hmem
    exact (hcur (mem_of_mem_filter hmem)).2

theorem Conserved.checkTimeouts (hconserved : q.Conserved cur started) (now : Timeval)
    (hcur : cur ∉ q.paused.takeWhile (q.expired now)) :
    (q.checkTimeouts now).Conserved cur started := by
  have hthreads : ∀ u, (q.checkTimeouts now).threads u =
      if u ∈ q.paused.takeWhile (q.expired now) then (q.threads u).wakeTimeout
      else q.threads u := by
    intro u
    show (if _ then _ else _) = _
    simp only [decide_eq_true_eq]
  have hsplit := takeWhile_append_dropWhile (p := q.expired now) (l := q.paused)
  have hdisjoint : ∀ u ∈ q.paused.dropWhile (q.expired now),
      u ∉ q.paused.takeWhile (q.expired now) := by
    intro u hu hmem
    have hnodup := hconserved.nodup_paused
    rw [← hsplit, nodup_append] at hnodup
    exact hnodup.2.2 u hmem u hu rfl
  refine hconserved.rearrange ?_ ?_ (fun u hu => ?_) fun u hpos => ?_
  · show (q.run ++ q.paused.takeWhile (q.expired now) ++ q.paused.dropWhile (q.expired now)).Perm _
    rw [append_assoc, hsplit]
  · show cur ∉ q.run ++ q.paused.takeWhile (q.expired now)
    rw [mem_append, not_or]
    exact ⟨hconserved.current, hcur⟩
  · have hu' : u ∈ q.paused.dropWhile (q.expired now) := hu
    rw [hthreads, if_neg (hdisjoint u hu')]
    exact hconserved.waiting u (dropWhile_subset _ hu')
  · rw [hthreads] at hpos
    split at hpos
    · exact hpos
    · exact hpos

theorem takeWhile_congr {p p' : ThreadId → Bool} {l : List ThreadId}
    (hsame : ∀ u ∈ l, p u = p' u) : l.takeWhile p = l.takeWhile p' := by
  induction l with
  | nil => rfl
  | cons u l ih =>
    rw [takeWhile_cons, takeWhile_cons, hsame u mem_cons_self,
      ih fun v hv => hsame v (mem_cons_of_mem u hv)]

/-- The phases that wake threads keep the invariant if they leave the current thread paused. -/
theorem Conserved.wakePhases (hconserved : q.Conserved cur started) {tick : Tick}
    (halive : cur ∈ q.paused → 0 < (q.threads cur).refuel)
    (hstays : q.StaysPaused q.paused tick cur) :
    (q.wakePhases cur tick).Conserved cur started := by
  have hnone : cur ∈ q.paused → q.isReady tick cur = false := fun hmem => (hstays hmem).1
  obtain ⟨pollfds, hpoll⟩ := q.pollLoop_eq cur tick.revents (le_refl _) tick.ready
  have hpolled : (q.checkFds cur tick).Conserved cur started := by
    unfold Queues.checkFds
    rw [hpoll]
    exact (hconserved.wakeFds hnone).onGlobals fun _ => rfl
  obtain ⟨hpaused, hthreads⟩ : (q.checkFds cur tick).paused =
        (q.paused.filter fun t => !q.isReady tick t) ∧
      ∀ t ∈ (q.checkFds cur tick).paused, (q.checkFds cur tick).threads t = q.threads t := by
    unfold Queues.checkFds
    rw [hpoll]
    exact wakeFds_paused hnone
  unfold Queues.wakePhases
  generalize q.checkFds cur tick = q₁ at hpolled hpaused hthreads
  have hsub : ∀ t ∈ q₁.paused, t ∈ q.paused := by
    rw [hpaused]
    exact fun t ht => mem_of_mem_filter ht
  -- the current thread does not join itself
  have hcurrent : cur ∈ q₁.paused → 0 < (q₁.threads cur).refuel := fun hmem => by
    rw [hthreads cur hmem]
    exact halive (hsub cur hmem)
  unfold Queues.checkJoins
  split
  · rename_i hdone
    have hnot : cur ∉ q₁.paused := fun hmem => absurd (hcurrent hmem) (not_lt.mpr hdone)
    have hjoined := hpolled.wakeAll (fun e => decide (e = .thread cur)) .wake
      (fun _ => true) (fun _ => rfl) (fun hmem => absurd hmem hnot) fun _ _ => rfl
    refine hjoined.checkTimeouts tick.now fun hmem => hnot ?_
    exact mem_of_mem_filter (takeWhile_subset _ hmem)
  · refine hpolled.checkTimeouts tick.now fun hmem => ?_
    have hmem₁ := takeWhile_subset _ hmem
    refine (hstays (hsub cur hmem₁)).2 ?_
    rw [← hpaused]
    have hsame : q₁.paused.takeWhile (q₁.expired tick.now) =
        q₁.paused.takeWhile fun u => sexpContextBefore (q.threads u).timeval tick.now := by
      refine takeWhile_congr fun u hu => ?_
      unfold Queues.expired
      rw [hthreads u hu]
    rwa [← hsame]

variable {res : ThreadId} {rest : List ThreadId}

variable (hconserved : q.Conserved cur started)
include hconserved

theorem Conserved.popFront (hrun : q.run = res :: rest)
    (hgone : 0 < (q.threads cur).refuel → cur ∈ q.paused) :
    ({ q with run := rest } : Queues V).Conserved res started := by
  have hnodup := hconserved.nodup
  rw [hrun, cons_append, nodup_cons] at hnodup
  refine ⟨hnodup.2, fun hmem => hnodup.1 (mem_append_left _ hmem), hconserved.waiting,
    fun t ht => hconserved.queued t ?_, hconserved.queued res ?_, fun t ht hpos => ?_⟩
  · rw [hrun]
    exact mem_cons_of_mem res ht
  · rw [hrun]
    exact mem_cons_self
  · rcases hconserved.kept t ht hpos with rfl | hqueued
    · exact .inr (mem_append_right _ (hgone hpos))
    · rw [hrun, cons_append, mem_cons] at hqueued
      exact hqueued

theorem Conserved.rotate (hrun : q.run = res :: rest)
    (hnot : cur ∉ q.paused) :
    ({ q with run := rest ++ [cur] } : Queues V).Conserved res started := by
  have hnodup := hconserved.nodup
  have hcurrent := hconserved.current
  rw [hrun, cons_append, nodup_cons] at hnodup
  rw [hrun, mem_cons, not_or] at hcurrent
  have hmem : ∀ t, t ∈ rest ++ [cur] ++ q.paused ↔ t = cur ∨ t ∈ rest ++ q.paused := by
    intro t
    simp only [mem_append, mem_singleton]
    tauto
  refine ⟨?_, ?_, hconserved.waiting, fun t ht => ?_, hconserved.queued res ?_,
    fun t ht hpos => ?_⟩
  · show (rest ++ [cur] ++ q.paused).Nodup
    rw [append_assoc, singleton_append]
    refine nodup_middle.mpr (nodup_cons.mpr ⟨?_, hnodup.2⟩)
    rw [mem_append, not_or]
    exact ⟨hcurrent.2, hnot⟩
  · show res ∉ rest ++ [cur]
    rw [mem_append, mem_singleton, not_or]
    exact ⟨fun hmem => hnodup.1 (mem_append_left _ hmem), Ne.symm hcurrent.1⟩
  · rcases (hmem t).mp ht with rfl | ht
    · exact hconserved.began
    · refine hconserved.queued t ?_
      rw [hrun]
      exact mem_cons_of_mem res ht
  · rw [hrun]
    exact mem_cons_self
  · show t = res ∨ t ∈ rest ++ [cur] ++ q.paused
    rw [hmem]
    rcases hconserved.kept t ht hpos with heq | hqueued
    · exact .inr (.inl heq)
    · rw [hrun, cons_append, mem_cons] at hqueued
      tauto

theorem Conserved.resume (hrun : q.run = [])
    (hres : res ∈ q.paused) (hgone : 0 < (q.threads cur).refuel → cur ∈ q.paused) :
    q.Conserved res started := by
  refine ⟨hconserved.nodup, ?_, hconserved.waiting, hconserved.queued,
    hconserved.queued res (mem_append_right _ hres), fun t ht hpos => ?_⟩
  · rw [hrun]
    exact not_mem_nil
  · rcases hconserved.kept t ht hpos with rfl | hqueued
    · exact .inr (mem_append_right _ (hgone hpos))
    · exact .inr hqueued

theorem Conserved.dequeue (now : Timeval) :
    (q.dequeue cur now).2.Conserved (q.dequeue cur now).1 started := by
  unfold Queues.dequeue
  cases hrun : q.run with
  | cons res rest =>
    dsimp only
    split
    · rename_i hgives
      dsimp only
      split
      · rename_i hpaused
        have hwait : (q.threads cur).waitp = true := hgives.resolve_left (not_le.mpr hpaused.1)
        have hinserted := hconserved.insertTimed hconserved.current hconserved.began hwait
          .other now
        refine hinserted.popFront hrun fun _ => ?_
        exact (q.mem_paused_insertTimed cur .other now cur).mpr (.inl rfl)
      · rename_i hpaused
        refine hconserved.popFront hrun fun hpos => ?_
        by_contra hnot
        exact hpaused ⟨hpos, hnot⟩
    · rename_i hgives
      rw [not_or, not_le, Bool.not_eq_true] at hgives
      exact hconserved.rotate hrun (hconserved.not_paused hgives.2)
  | nil =>
    dsimp only
    split
    · rename_i hdone
      cases hfind : q.paused.find? fun t => (q.threads t).event.isInput with
      | none => exact hconserved
      | some res =>
        exact hconserved.resume hrun (mem_of_find?_eq_some hfind) fun hpos =>
          absurd hpos (not_lt.mpr hdone)
    · exact hconserved

theorem Conserved.takePaused {first : ThreadId}
    (hpaused : q.paused = first :: rest) (hne : cur ≠ first) (hwait : (q.threads cur).waitp = true)
    (timeout : Timeout) (now : Timeval) :
    (({ q with paused := rest } : Queues V).insertTimed cur timeout now).Conserved first started ∧
      first ∉ (({ q with paused := rest } : Queues V).insertTimed cur timeout now).paused := by
  let q₁ : Queues V := { q with paused := rest }
  have hnodup := hconserved.nodup
  rw [hpaused] at hnodup
  obtain ⟨hfirst, hnodup₁⟩ := nodup_cons.mp (nodup_middle.mp hnodup)
  rw [mem_append, not_or] at hfirst
  have hmem := q₁.mem_paused_insertTimed cur timeout now
  have hnot : first ∉ (q₁.insertTimed cur timeout now).paused := fun hpaused₁ =>
    ((hmem first).mp hpaused₁).elim (fun heq => hne heq.symm) hfirst.2
  have hsub : ∀ t ∈ rest, t ∈ q.paused := fun t ht => by
    rw [hpaused]
    exact mem_cons_of_mem first ht
  refine ⟨⟨insertTimed_nodup (q := q₁) hnodup₁ hconserved.current timeout now, hfirst.1, fun t ht => ?_,
    fun t ht => ?_, ?_, fun t ht hpos => ?_⟩, hnot⟩
  · rw [insertTimed_waitp]
    rcases (hmem t).mp ht with rfl | ht
    · exact hwait
    · exact hconserved.waiting t (hsub t ht)
  · rcases mem_append.mp ht with ht | ht
    · exact hconserved.queued t (mem_append_left _ ht)
    · rcases (hmem t).mp ht with rfl | ht
      · exact hconserved.began
      · exact hconserved.queued t (mem_append_right _ (hsub t ht))
  · refine hconserved.queued first (mem_append_right _ ?_)
    rw [hpaused]
    exact mem_cons_self
  · rw [insertTimed_refuel] at hpos
    rcases hconserved.kept t ht hpos with rfl | hqueued
    · exact .inr (mem_append_right _ ((hmem t).mpr (.inl rfl)))
    rcases mem_append.mp hqueued with hrun | hqueued
    · exact .inr (mem_append_left _ hrun)
    · rw [hpaused, mem_cons] at hqueued
      rcases hqueued with heq | hrest
      · exact .inl heq
      · exact .inr (mem_append_right _ ((hmem t).mpr (.inr hrest)))

/-- The current thread, if it waits, gives way to one with an earlier deadline.  The new current
thread is not paused. -/
theorem Conserved.earliest (now : Timeval)
    (hwait : (q.threads cur).waitp = true) :
    (q.earliest cur now).2.Conserved (q.earliest cur now).1 started ∧
      (q.earliest cur now).1 ∉ (q.earliest cur now).2.paused := by
  unfold Queues.earliest
  cases hpaused : q.paused with
  | nil =>
    dsimp only
    rw [hpaused]
    exact ⟨hconserved, not_mem_nil⟩
  | cons first rest =>
    dsimp only
    have hnodup := hconserved.nodup
    rw [hpaused] at hnodup
    obtain ⟨hfirst, hnodup₁⟩ := nodup_cons.mp (nodup_middle.mp hnodup)
    rw [mem_append, not_or] at hfirst
    split
    · rename_i hbefore
      have hne : cur ≠ first := by
        rintro rfl
        have hle := (sexpContextBefore_iff.mp hbefore).2
        unfold timevalLe at hle
        omega
      split
      · rename_i hrest
        refine ⟨⟨hnodup₁, hfirst.1, fun t ht => hconserved.waiting t ?_,
          fun t ht => hconserved.queued t ?_, hconserved.queued first ?_, fun t ht hpos => ?_⟩,
          hfirst.2⟩
        · rw [hpaused]
          exact mem_cons_of_mem first ht
        · rw [hpaused, mem_append, mem_cons]
          exact (mem_append.mp ht).imp id .inr
        · rw [hpaused]
          exact mem_append_right _ mem_cons_self
        · show t = first ∨ t ∈ q.run ++ rest
          rcases hconserved.kept t ht hpos with rfl | hqueued
          · exact .inr (mem_append_right _ hrest)
          · rw [hpaused, mem_append, mem_cons] at hqueued
            rw [mem_append]
            tauto
      · exact hconserved.takePaused hpaused hne hwait (.context cur) now
    · have hnot : cur ∉ q.paused.erase cur := hconserved.nodup_paused.not_mem_erase
      refine ⟨⟨hconserved.nodup.sublist (List.Sublist.append_left erase_sublist _),
        hconserved.current, fun t ht => hconserved.waiting t (mem_of_mem_erase ht),
        fun t ht => hconserved.queued t ?_, hconserved.began, fun t ht hpos => ?_⟩, hnot⟩
      · exact mem_append.mpr ((mem_append.mp ht).imp id mem_of_mem_erase)
      · by_cases heq : t = cur
        · exact .inl heq
        · refine .inr (mem_append.mpr ?_)
          exact (mem_append.mp ((hconserved.kept t ht hpos).resolve_left heq)).imp id
            (mem_erase_of_ne heq).mpr

theorem Conserved.nap (hnot : cur ∉ q.paused)
    (now : Timeval) : (q.nap cur now).Conserved cur started ∧ cur ∉ (q.nap cur now).paused := by
  unfold Queues.nap
  dsimp only
  split
  · exact ⟨hconserved, hnot⟩
  · split
    · exact ⟨hconserved, hnot⟩
    · exact ⟨hconserved.setThread cur (fun hmem => absurd hmem hnot) id, hnot⟩

theorem Conserved.scheduler {tick : Tick}
    (halive : cur ∈ q.paused → 0 < (q.threads cur).refuel)
    (hstays : q.StaysPaused q.paused tick cur) :
    (q.scheduler cur tick).2.Conserved (q.scheduler cur tick).1 started ∧
      (q.scheduler cur tick).1 ∉ (q.scheduler cur tick).2.paused := by
  have hdequeued := (hconserved.wakePhases halive hstays).dequeue tick.now
  unfold Queues.scheduler
  dsimp only
  generalize (q.wakePhases cur tick).dequeue cur tick.now = result at hdequeued
  obtain ⟨res, q'⟩ := result
  unfold Queues.settle
  split
  · rename_i hwait
    obtain ⟨hearliest, hnot⟩ := hdequeued.earliest tick.later hwait
    exact hearliest.nap hnot tick.later
  · rename_i hwait
    exact ⟨hdequeued, hdequeued.not_paused (Bool.eq_false_of_not_eq_true hwait)⟩

end Queues

/-! ## Runs -/

namespace Machine

variable {n n' : Machine (Queues V)}

/-- Every thread is in one place; the current one has not terminated if it is paused, and it is not
if it goes on after an exception. -/
structure Conserved (n : Machine (Queues V)) : Prop where
  queues : n.queues.Conserved n.current n.started
  alive : n.current ∈ n.queues.paused → 0 < (n.queues.threads n.current).refuel
  raised : n.raised = true → n.current ∉ n.queues.paused

theorem Conserved.not_paused (hconserved : n.Conserved) (hrunning : n.Running (Queues.level V)) :
    n.current ∉ n.queues.paused :=
  hrunning.2.2.elim hconserved.queues.not_paused hconserved.raised

theorem Conserved.endLoop (hconserved : n.Conserved) (hnot : n.current ∉ n.queues.paused) :
    (n.endLoop (Queues.level V)).Conserved ∧
      (n.endLoop (Queues.level V)).current ∉ (n.endLoop (Queues.level V)).queues.paused := by
  have hresult : (n.queues.setThread n.current fun c =>
      { c with result := some c.arg1 }).Conserved n.current n.started :=
    hconserved.queues.setThread _ (hconserved.queues.waiting _) id
  unfold Machine.endLoop
  dsimp only
  split
  · exact ⟨⟨hresult, fun hmem => absurd hmem hnot, fun _ => hnot⟩, hnot⟩
  · exact ⟨⟨hresult.setThread _ (fun hmem => absurd hmem hnot)
      fun hpos => absurd hpos (lt_irrefl _), fun hmem => absurd hmem hnot, fun _ => hnot⟩, hnot⟩

theorem Conserved.schedule {tick : Tick} (hconserved : n.Conserved)
    (hstays : n.queues.StaysPaused n.queues.paused tick n.current)
    (hstep : n.step (Queues.level V) (.schedule tick) = some n') :
    n'.Conserved ∧ n'.current ∉ n'.queues.paused := by
  obtain ⟨-, rfl⟩ := step_schedule hstep
  obtain ⟨hscheduled, hnot⟩ := hconserved.queues.scheduler hconserved.alive hstays
  have hconserved' : (n.scheduled tick).Conserved :=
    ⟨hscheduled, fun hmem => absurd hmem hnot, fun _ => hnot⟩
  unfold resumed
  split
  · exact hconserved'.endLoop hnot
  · exact ⟨hconserved', hnot⟩

/-- The steps that leave the current thread in the paused list if it is there. -/
def staysPaused (paused : List ThreadId) (g : Globals V) (cur : ThreadId) : Action V → Prop
  | .perform _ _ => True
  | .schedule tick => g.StaysPaused paused tick cur

theorem Conserved.step {a : Action V} (hconserved : n.Conserved)
    (hok : staysPaused n.queues.paused n.queues.toGlobals n.current a)
    (hstep : n.step (Queues.level V) a = some n') : n'.Conserved := by
  cases a with
  | perform now op =>
    obtain ⟨hrunning, hmay, rfl⟩ := step_perform hstep
    have hnot := hconserved.not_paused hrunning
    have hperformed : (n.performed now op).Conserved := by
      refine ⟨hconserved.queues.perform hnot now op hmay, fun hpaused => ?_,
        fun hgoes hpaused => ?_⟩
      · obtain ⟨timeout, hpauses⟩ := hconserved.queues.pauses_of_paused hnot now op hpaused
        show 0 < ((n.queues.perform n.current now op).threads n.current).refuel
        rw [Queues.pauses_refuel hpauses]
        exact hrunning.2.1
      · obtain ⟨timeout, hpauses⟩ := hconserved.queues.pauses_of_paused hnot now op hpaused
        rw [show (n.performed now op).raised = false from raisedBy_of_pauses hpauses] at hgoes
        cases hgoes
    cases op with
    | finish errorp => exact (hperformed.endLoop hnot).1
    | compute | start | terminate | join | sleep | lock | unlock | signal | broadcast | block =>
      exact hperformed
  | schedule tick => exact (hconserved.schedule hok hstep).1

theorem Conserved.reaches (hconserved : n.Conserved)
    (hreaches : n.Reaches (Queues.level V)
      (fun n a => staysPaused n.queues.paused n.queues.toGlobals n.current a) n') :
    n'.Conserved := by
  induction hreaches with
  | refl => exact hconserved
  | step _ hok hstep ih => exact ih.step hok hstep

theorem Initial.conserved {e : Tail} {m : Machine (World V)} (hinitial : m.Initial e) :
    m.empty.Conserved where
  queues := by
    refine ⟨nodup_nil, not_mem_nil, fun t ht => ?_, fun t ht => ?_, ?_, fun t ht _ => ?_⟩
    · cases ht
    · cases ht
    · show m.current ∈ m.started
      rw [hinitial.started, hinitial.current]
      exact mem_singleton_self _
    · have ht' : t ∈ m.started := ht
      rw [hinitial.started, mem_singleton] at ht'
      exact .inl (ht'.trans hinitial.current.symm)
  alive hmem := by cases hmem
  raised _ := not_mem_nil

end Machine

/-! ## The queues in memory -/

/-- The threads of a list of pairs. -/
def World.listThreads (w : World V) : ℕ → Pointer → List ThreadId
  | 0, _ => []
  | _ + 1, .stop _ => []
  | fuel + 1, .cell c => w.car c :: w.listThreads fuel (w.cdr c)

/-- The threads of the run queue. -/
def World.runThreads (w : World V) : List ThreadId := w.listThreads w.fuel w.front

/-- The threads of the paused list. -/
def World.pausedThreads (w : World V) : List ThreadId := w.listThreads w.fuel w.paused

variable {w : World V} {e : Tail}

theorem World.listThreads_eq {start : Pointer} {cells : List ℕ} {fuel : ℕ}
    (hchain : Linked.Chain w.cdr start cells (.stop e)) (hfuel : cells.length < fuel) :
    w.listThreads fuel start = cells.map w.car := by
  induction cells generalizing start fuel with
  | nil =>
    rw [Linked.chain_nil] at hchain
    rw [hchain]
    cases fuel with
    | zero => cases hfuel
    | succ fuel => rfl
  | cons c cells ih =>
    rw [Linked.chain_cons] at hchain
    rw [hchain.1]
    cases fuel with
    | zero => cases hfuel
    | succ fuel =>
      show w.car c :: w.listThreads fuel (w.cdr c) = _
      rw [ih hchain.2 (Nat.lt_of_succ_lt_succ hfuel)]
      rfl

theorem Represents.runThreads {q : Queues V} (hrep : Represents e w q) : w.runThreads = q.run := by
  obtain ⟨rc, pc, hcells, hrun, -⟩ := hrep.cells
  rw [hrun]
  exact World.listThreads_eq hcells.run hcells.run_length_lt_fuel

theorem Represents.pausedThreads {q : Queues V} (hrep : Represents e w q) :
    w.pausedThreads = q.paused := by
  obtain ⟨rc, pc, hcells, -, hpaused⟩ := hrep.cells
  rw [hpaused]
  exact World.listThreads_eq hcells.paused hcells.length_lt_fuel

/-- The thread is in exactly one place: it is the current one, or once in one of the queues. -/
def Machine.InOnePlace (m : Machine (World V)) (t : ThreadId) : Prop :=
  (t = m.current ∧ t ∉ m.queues.runThreads) ∨
    (t ≠ m.current ∧ m.queues.runThreads.count t = 1 ∧ t ∉ m.queues.pausedThreads) ∨
    (t ≠ m.current ∧ m.queues.pausedThreads.count t = 1 ∧ t ∉ m.queues.runThreads)

/-- The step leaves the current thread in the paused list if it is there. -/
def Machine.StaysPaused (m : Machine (World V)) : Action V → Prop :=
  Machine.staysPaused m.queues.pausedThreads m.queues.toGlobals m.current

theorem Machine.Represents.inOnePlace {m : Machine (World V)} {n : Machine (Queues V)}
    (hrep : Machine.Represents e m n) (hconserved : n.Conserved) {t : ThreadId}
    (hstarted : t ∈ m.started) (hpos : 0 < (m.queues.threads t).refuel) : m.InOnePlace t := by
  have hqueues := hconserved.queues
  unfold Machine.InOnePlace
  rw [hrep.queues.runThreads, hrep.queues.pausedThreads, hrep.current]
  rw [hrep.queues.globals] at hpos
  rw [hrep.started] at hstarted
  by_cases heq : t = n.current
  · exact .inl ⟨heq, heq ▸ hqueues.current⟩
  have hmem := (hqueues.kept t hstarted hpos).resolve_left heq
  have hnodup := nodup_append.mp hqueues.nodup
  rcases mem_append.mp hmem with hrun | hpaused
  · exact .inr (.inl ⟨heq, count_eq_one_of_mem hnodup.1 hrun,
      hqueues.not_paused_of_run hrun⟩)
  · exact .inr (.inr ⟨heq, count_eq_one_of_mem hnodup.2.1 hpaused,
      fun hrun => hqueues.not_paused_of_run hrun hpaused⟩)

/-- In every run in which the scheduler does not wake the current thread while that is paused, every
started thread that has not terminated is in one place, and the thread that the scheduler picks is in
no queue. -/
theorem Machine.conservation_of_staysPaused {e : Tail} {m m' : Machine (World V)}
    (hinitial : m.Initial e)
    (hreaches : m.Reaches (World.level V) Machine.StaysPaused m') :
    (∀ t ∈ m'.started, 0 < (m'.queues.threads t).refuel → m'.InOnePlace t) ∧
      ∀ tick m'', m'.StaysPaused (.schedule tick) →
        m'.step (World.level V) (.schedule tick) = some m'' →
        m''.current ∉ m''.queues.runThreads ∧ m''.current ∉ m''.queues.pausedThreads := by
  have hok : ∀ (m : Machine (World V)) (n : Machine (Queues V)) a, Machine.Represents e m n →
      m.StaysPaused a → staysPaused n.queues.paused n.queues.toGlobals n.current a := by
    intro m n a hrep hstays
    unfold Machine.StaysPaused at hstays
    rwa [hrep.queues.pausedThreads, hrep.queues.globals, hrep.current] at hstays
  obtain ⟨n', hreaches', hrep⟩ := hreaches.lists hok hinitial.represents
  have hconserved := hinitial.conserved.reaches hreaches'
  refine ⟨fun t ht hpos => hrep.inOnePlace hconserved ht hpos, fun tick m'' hstays hstep => ?_⟩
  rcases hrep.step (.schedule tick) with ⟨hnone, -⟩ | ⟨m₂, n₂, hm, hn, hrep₂⟩
  · rw [hstep] at hnone
    cases hnone
  · obtain rfl : m'' = m₂ := Option.some.inj (hstep.symm.trans hm)
    obtain ⟨hconserved₂, hnot⟩ := hconserved.schedule (hok m' n' _ hrep hstays) hn
    rw [hrep₂.queues.runThreads, hrep₂.queues.pausedThreads, hrep₂.current]
    exact ⟨hconserved₂.queues.current, hnot⟩

/-- The clock has passed the deadline of the root thread when the scheduler runs. -/
def lateSleep : List (Action Unit) :=
  [.perform ⟨1, 0⟩ (.sleep (some (.fixnum 0))),
    .schedule ⟨0, fun _ => false, ⟨1, 1⟩, ⟨1, 1⟩, by decide⟩]

/-- The sleeper whose deadline has just passed is current and in the run queue. -/
theorem lateSleep_both_current_and_queued :
    ∃ m', (Machine.fresh .null (fun _ => ()) ()).run (World.level Unit) lateSleep = some m' ∧
      m'.current ∈ m'.started ∧ 0 < (m'.queues.threads m'.current).refuel ∧
      m'.current ∈ m'.queues.runThreads ∧ ¬ m'.InOnePlace m'.current := by
  let start : Machine (World Unit) := Machine.fresh .null (fun _ => ()) ()
  have hinitial : start.Initial .null := Machine.fresh_initial _ _ _
  have hlists : (start.empty.run (Queues.level Unit) lateSleep).map
      (fun n => (n.current, n.started, n.queues.run, (n.queues.threads 0).refuel)) =
        some (0, [0], [0], 500) := by decide
  obtain ⟨n', hrun, hqueues⟩ := Option.map_eq_some_iff.mp hlists
  obtain ⟨hcurrent, hstarted, hqueue, hrefuel⟩ : n'.current = 0 ∧ n'.started = [0] ∧
      n'.queues.run = [0] ∧ (n'.queues.threads 0).refuel = 500 := by simpa using hqueues
  obtain ⟨m', hpairs, hrep⟩ := hinitial.represents.run hrun
  have hmem : m'.current ∈ m'.queues.runThreads := by
    rw [hrep.queues.runThreads, hqueue, hrep.current, hcurrent]
    exact mem_singleton_self 0
  refine ⟨m', hpairs, ?_, ?_, hmem, ?_⟩
  · rw [hrep.started, hstarted, hrep.current, hcurrent]
    exact mem_singleton_self 0
  · rw [hrep.queues.globals, hrep.current, hcurrent, hrefuel]
    decide
  · rintro (⟨-, hnot⟩ | ⟨hne, -⟩ | ⟨hne, -⟩)
    · exact hnot hmem
    · exact hne rfl
    · exact hne rfl

/-- The root thread sleeps until the clock shows 15, and the other thread for longer.  The scheduler
takes the root thread out of the paused list, and wakes it when there are five milliseconds left. -/
def twoSleepers : List (Action Unit) :=
  let idle : Tick := ⟨0, fun _ => false, ⟨5, 0⟩, ⟨5, 0⟩, epoch_five⟩
  [.perform ⟨5, 0⟩ (.start 1), .perform ⟨5, 0⟩ (.sleep (some (.fixnum 10))), .schedule idle,
    .perform ⟨5, 0⟩ (.sleep (some (.fixnum 20))), .schedule idle,
    .schedule ⟨0, fun _ => false, ⟨14, 995000⟩, ⟨14, 995000⟩, by decide⟩]

/-- The scheduler leaves the current thread in the paused list if it is there. -/
def currentStays (n : Machine (Queues Unit)) : Action Unit → Bool
  | .perform _ _ => true
  | .schedule tick => decide (n.queues.StaysPaused n.queues.paused tick n.current)

/-- Of two threads that sleep each is in one place. -/
theorem conservation_of_twoSleepers :
    ∃ m', (Machine.fresh .null (fun _ => ()) ()).run (World.level Unit) twoSleepers = some m' ∧
      m'.current = 0 ∧ (m'.queues.threads 0).waitp = false ∧ m'.queues.pausedThreads = [1] ∧
      m'.InOnePlace 0 ∧ m'.InOnePlace 1 := by
  let start : Machine (World Unit) := Machine.fresh .null (fun _ => ()) ()
  have hinitial : start.Initial .null := Machine.fresh_initial _ _ _
  have hok : ∀ (m : Machine (World Unit)) (n : Machine (Queues Unit)) (a : Action Unit),
      Machine.Represents .null m n → currentStays n a = true → m.StaysPaused a := by
    intro m n a hrep hpasses
    unfold Machine.StaysPaused
    rw [hrep.queues.pausedThreads, hrep.queues.globals, hrep.current]
    cases a with
    | perform now op => exact True.intro
    | schedule tick =>
      exact (of_decide_eq_true hpasses : n.queues.StaysPaused n.queues.paused tick n.current)
  have hlists : (start.empty.runWhile (Queues.level Unit) currentStays twoSleepers).map (fun n =>
      (n.current, (n.queues.threads 0).waitp, n.queues.paused, n.started,
        (n.queues.threads 0).refuel, (n.queues.threads 1).refuel)) =
      some (0, false, [1], [1, 0], 500, 500) := by decide
  obtain ⟨n', hrun, hqueues⟩ := Option.map_eq_some_iff.mp hlists
  simp only [Prod.mk.injEq] at hqueues
  obtain ⟨hcurrent, hwait, hpaused, hstarted, hrefuel₀, hrefuel₁⟩ := hqueues
  obtain ⟨m', hpairs, hreaches, hrep⟩ :=
    Machine.Represents.runWhile hok (.refl start) hinitial.represents hrun
  have hplaces := (Machine.conservation_of_staysPaused hinitial hreaches).1
  rw [hrep.started, hstarted, hrep.queues.globals] at hplaces
  refine ⟨m', hpairs, hrep.current.trans hcurrent, ?_, ?_, ?_, ?_⟩
  · rw [hrep.queues.globals]
    exact hwait
  · rw [hrep.queues.pausedThreads]
    exact hpaused
  · exact hplaces 0 (by decide) (by rw [hrefuel₀]; decide)
  · exact hplaces 1 (by decide) (by rw [hrefuel₁]; decide)

end ChibiScheme.Thread
