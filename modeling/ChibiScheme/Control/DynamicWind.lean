import Mathlib.Data.List.Chain
import Mathlib.Data.List.Nodup

/-!
# dynamic-wind

A call of `dynamic-wind` makes a point, whose parent is the point that was current.  A continuation is
kept with the point that was current at its capture, and its call first travels there.

The in and out thunks do not escape; of each call only the point is recorded.  A continuation is the
list of the calls of `dynamic-wind` whose bodies have not returned.
-/

namespace ChibiScheme.Control

/-! ## Points -/

/-- A point.  Every point that `%make-point` makes is a new vector, so it has a number of its own; `eq?`
compares these vectors. -/
inductive Point where
  | rootPoint
  | makePoint (number depth : ℕ) (parent : Point)
deriving DecidableEq

namespace Point

/-- `%point-depth` -/
def depth : Point → ℕ
  | rootPoint => 0
  | makePoint _ depth _ => depth

/-- `%point-parent` -/
def parent : Point → Option Point
  | rootPoint => none
  | makePoint _ _ parent => some parent

/-- How many points stand between a point and the root. -/
def height : Point → ℕ
  | rootPoint => 0
  | makePoint _ _ parent => parent.height + 1

/-- The points from a point up to the root, the root left out. -/
def path : Point → List Point
  | rootPoint => []
  | makePoint number depth parent => makePoint number depth parent :: parent.path

end Point

open Point

/-- The calls of the in and out thunks of points. -/
inductive Event where
  | enter (point : Point)
  | leave (point : Point)
deriving DecidableEq

/-- `travel-to-point!`: the thunks that are called.  There is no result if a thunk of the root is called
or the parent of the root is needed, which are errors. -/
def travelToPoint (here target : Point) : Option (List Event) :=
  if here = target then some []
  else if here.depth < target.depth then
    match target with
    | rootPoint => none
    | makePoint number depth parent =>
      (travelToPoint here parent).map fun events =>
        events ++ [.enter (makePoint number depth parent)]
  else
    match here with
    | rootPoint => none
    | makePoint number depth parent =>
      (travelToPoint parent target).map fun events =>
        .leave (makePoint number depth parent) :: events
termination_by here.height + target.height
decreasing_by
  all_goals
    simp only [height]
    omega

/-! ## Runs -/

/-- A call of `dynamic-wind` whose body has not returned. -/
structure Frame where
  point : Point
  here : Point
deriving DecidableEq

/-- `continuation->procedure`: the continuation and the point. -/
structure Continuation where
  frames : List Frame
  point : Point
deriving DecidableEq

/-- The running frames, the current point and what has happened. -/
structure State where
  frames : List Frame
  /-- `%dk` -/
  dk : Point
  /-- How many points have been made. -/
  made : ℕ
  continuations : List Continuation
  log : List Event
deriving DecidableEq

/-- Nothing is running. -/
def initial : State where
  frames := []
  dk := rootPoint
  made := 0
  continuations := []
  log := []

/-- What a program does next. -/
inductive Op where
  /-- `dynamic-wind` is called and calls its body. -/
  | enter
  /-- The body of the last call returns. -/
  | exit
  | capture
  /-- The continuation with this number is called. -/
  | invoke (k : ℕ)

/-- One operation.  There is no result if it is not possible or ends in an error. -/
def Op.perform (s : State) : Op → Option State
  | enter =>
    let point := makePoint s.made (s.dk.depth + 1) s.dk
    some { s with
      frames := ⟨point, s.dk⟩ :: s.frames
      dk := point
      made := s.made + 1
      log := s.log ++ [.enter point] }
  | exit =>
    match s.frames with
    | [] => none
    | frame :: frames =>
      some { s with frames, dk := frame.here, log := s.log ++ [.leave frame.point] }
  | capture => some { s with continuations := s.continuations ++ [⟨s.frames, s.dk⟩] }
  | invoke k =>
    match s.continuations[k]? with
    | none => none
    | some cont =>
      (travelToPoint s.dk cont.point).map fun events =>
        { s with frames := cont.frames, dk := cont.point, log := s.log ++ events }

/-- A run of the program; `none` where an operation does not apply. -/
def runOps (s : State) : List Op → Option State
  | [] => some s
  | op :: ops => (op.perform s).bind fun s => runOps s ops

/-! ## What is entered -/

/-- The calls of the thunks of a point in order: whether they are calls of its in thunk. -/
def kinds (point : Point) (log : List Event) : List Bool :=
  log.filterMap fun
    | .enter p => if p = point then some true else none
    | .leave p => if p = point then some false else none

/-- In and out thunks alternate, the first is an in thunk. -/
def Alternating (calls : List Bool) : Prop :=
  calls.IsChain (· ≠ ·) ∧ calls.head? ≠ some false

/-- The last thing that happened to the point is that it was entered. -/
def Entered (point : Point) (log : List Event) : Prop :=
  (kinds point log).getLast? = some true

/-! ## Travelling between points

The way from one point to another goes up to the deepest common ancestor and down again.  Along a run
the in and out thunks of every point alternate, and the points that are entered are those on the path
of the current one. -/

open List

variable {p h t : Point} {ps outs ins common : List Point} {log : List Event} {calls : List Bool}

/-! ## Paths -/

namespace Point

/-- The depth is the number of points on the way to the root. -/
def Ok : Point → Prop
  | rootPoint => True
  | makePoint _ depth parent => depth = parent.height + 1 ∧ parent.Ok

theorem Ok.depth_eq (hok : p.Ok) : p.depth = p.height := by
  cases p with
  | rootPoint => rfl
  | makePoint number depth parent => exact hok.1

theorem height_le_of_mem_path (hmem : p ∈ t.path) : p.height ≤ t.height := by
  induction t with
  | rootPoint => exact absurd hmem not_mem_nil
  | makePoint number depth parent ih =>
    rcases mem_cons.mp hmem with rfl | hmem
    · exact le_refl _
    · exact (ih hmem).trans (Nat.le_succ _)

theorem eq_of_mem_path (hmem : p ∈ t.path) (hheight : t.height ≤ p.height) : p = t := by
  cases t with
  | rootPoint => exact absurd hmem not_mem_nil
  | makePoint number depth parent =>
    rcases mem_cons.mp hmem with rfl | hmem
    · rfl
    · have hle := height_le_of_mem_path hmem
      exact absurd (hheight.trans hle) (Nat.not_succ_le_self _)

theorem nodup_path (p : Point) : p.path.Nodup := by
  induction p with
  | rootPoint => exact nodup_nil
  | makePoint number depth parent ih =>
    refine nodup_cons.mpr ⟨fun hmem => ?_, ih⟩
    exact absurd (height_le_of_mem_path hmem) (Nat.not_succ_le_self _)

end Point

/-- The way goes from `h` up to the deepest common ancestor, then down to `t`. -/
structure Way (h t : Point) (outs ins common : List Point) : Prop where
  here : h.path = outs ++ common
  target : t.path = ins ++ common
  deepest : ∀ p ∈ h.path, p ∈ t.path → p ∈ common

/-- The thunks run on the way to another point. -/
theorem travelToPoint_spec (hhere : h.Ok) (htarget : t.Ok) :
    ∃ outs ins common, Way h t outs ins common ∧
      travelToPoint h t = some (outs.map .leave ++ ins.reverse.map .enter) := by
  fun_induction travelToPoint h t with
  | case1 t => exact ⟨[], [], t.path, ⟨rfl, rfl, fun p hmem _ => hmem⟩, rfl⟩
  | case2 h hne hlt => exact absurd hlt (Nat.not_lt_zero _)
  | case3 h number depth parent hne hlt ih =>
    obtain ⟨outs, ins, common, hway, hrun⟩ := ih hhere htarget.2
    refine ⟨outs, makePoint number depth parent :: ins, common, ⟨hway.here, ?_, ?_⟩, ?_⟩
    · rw [path, hway.target, cons_append]
    · intro p hmem hmem'
      rcases mem_cons.mp hmem' with rfl | hmem'
      · -- the target is deeper than everything on the path to here
        have hle := height_le_of_mem_path hmem
        rw [hhere.depth_eq, htarget.depth_eq] at hlt
        exact absurd hle (not_le.mpr hlt)
      · exact hway.deepest p hmem hmem'
    · rw [hrun, Option.map_some, reverse_cons, map_append, append_assoc]
      rfl
  | case4 t hne hge =>
    -- both are the root
    cases t with
    | rootPoint => exact absurd rfl hne
    | makePoint number depth parent =>
      have hdepth : depth = parent.height + 1 := htarget.1
      exact absurd (show 0 < depth by omega) hge
  | case5 t number depth parent hne hge ih =>
    obtain ⟨outs, ins, common, hway, hrun⟩ := ih hhere.2 htarget
    refine ⟨makePoint number depth parent :: outs, ins, common, ⟨?_, hway.target, ?_⟩, ?_⟩
    · rw [path, hway.here, cons_append]
    · intro p hmem hmem'
      rcases mem_cons.mp hmem with rfl | hmem
      · rw [hhere.depth_eq, htarget.depth_eq] at hge
        exact absurd (eq_of_mem_path hmem' (not_lt.mp hge)) hne
      · exact hway.deepest p hmem hmem'
    · rw [hrun]
      rfl

/-! ## Alternation -/

theorem kinds_append (p : Point) (log log' : List Event) :
    kinds p (log ++ log') = kinds p log ++ kinds p log' :=
  filterMap_append

theorem kinds_enter (p q : Point) : kinds p [.enter q] = if q = p then [true] else [] := by
  unfold kinds
  split <;> simp_all

theorem kinds_leave (p q : Point) : kinds p [.leave q] = if q = p then [false] else [] := by
  unfold kinds
  split <;> simp_all

theorem alternating_snoc {b : Bool} (hcalls : Alternating calls)
    (hb : b = true ↔ calls.getLast? ≠ some true) : Alternating (calls ++ [b]) := by
  refine ⟨?_, ?_⟩
  · rw [isChain_append]
    refine ⟨hcalls.1, isChain_singleton b, ?_⟩
    intro x hx y hy heq
    have hx : calls.getLast? = some x := hx
    obtain rfl : b = y := by simpa using hy
    rw [hx, heq] at hb
    cases b <;> simp at hb
  · cases calls with
    | nil =>
      rw [nil_append, head?_cons]
      intro hfalse
      cases hfalse
      simp at hb
    | cons c calls => exact hcalls.2

/-- The thunks of every point alternate, and the points of the list are those entered. -/
def LogOk (log : List Event) (ps : List Point) : Prop :=
  ∀ p, Alternating (kinds p log) ∧ (Entered p log ↔ p ∈ ps)

theorem logOk_nil : LogOk [] [] := fun _ =>
  ⟨⟨isChain_nil, nofun⟩, iff_of_false nofun not_mem_nil⟩

theorem LogOk.enter (hlog : LogOk log ps) (hnot : p ∉ ps) :
    LogOk (log ++ [.enter p]) (p :: ps) := by
  intro q
  obtain ⟨halternating, hentered⟩ := hlog q
  unfold Entered
  rw [kinds_append, kinds_enter]
  split
  · rename_i heq
    subst heq
    refine ⟨alternating_snoc halternating ?_, ?_⟩
    · exact iff_of_true rfl fun h => hnot (hentered.mp h)
    · exact iff_of_true getLast?_concat mem_cons_self
  · rename_i hne
    rw [append_nil, mem_cons, or_iff_right (fun h => hne h.symm)]
    exact ⟨halternating, hentered⟩

theorem LogOk.leave (hlog : LogOk log (p :: ps)) (hnot : p ∉ ps) :
    LogOk (log ++ [.leave p]) ps := by
  intro q
  obtain ⟨halternating, hentered⟩ := hlog q
  unfold Entered
  rw [kinds_append, kinds_leave]
  split
  · rename_i heq
    subst heq
    have hlast : (kinds p log).getLast? = some true := hentered.mpr mem_cons_self
    refine ⟨alternating_snoc halternating ?_, ?_⟩
    · exact iff_of_false nofun fun h => h hlast
    · rw [getLast?_concat]
      exact iff_of_false nofun hnot
  · rename_i hne
    rw [mem_cons, or_iff_right (fun h => hne h.symm)] at hentered
    rw [append_nil]
    exact ⟨halternating, hentered⟩

theorem LogOk.leaves (hlog : LogOk log (outs ++ common)) (hnodup : (outs ++ common).Nodup) :
    LogOk (log ++ outs.map .leave) common := by
  induction outs generalizing log with
  | nil =>
    rw [map_nil, append_nil]
    exact hlog
  | cons p outs ih =>
    obtain ⟨hnot, hnodup⟩ := nodup_cons.mp hnodup
    rw [map_cons, append_cons]
    exact ih (hlog.leave hnot) hnodup

theorem LogOk.enters (hlog : LogOk log common) (hnodup : (ins ++ common).Nodup) :
    LogOk (log ++ ins.reverse.map .enter) (ins ++ common) := by
  induction ins with
  | nil =>
    rw [reverse_nil, map_nil, append_nil]
    exact hlog
  | cons p ins ih =>
    obtain ⟨hnot, hnodup⟩ := nodup_cons.mp hnodup
    rw [reverse_cons, map_append, ← append_assoc]
    exact (ih hnodup).enter hnot

/-! ## Runs -/

/-- The frames are the calls that made the points on the path. -/
def FramesOf : List Frame → Point → Prop
  | [], p => p = rootPoint
  | frame :: frames, p =>
    frame.point = p ∧ p.parent = some frame.here ∧ FramesOf frames frame.here

/-- What holds between two operations. -/
structure Inv (s : State) : Prop where
  ok : s.dk.Ok
  frames : FramesOf s.frames s.dk
  continuations : ∀ cont ∈ s.continuations, cont.point.Ok ∧ FramesOf cont.frames cont.point
  log : LogOk s.log s.dk.path

theorem initial_inv : Inv initial where
  ok := trivial
  frames := rfl
  continuations _ hmem := absurd hmem not_mem_nil
  log := logOk_nil

theorem Way.logOk (hway : Way h t outs ins common) (hlog : LogOk log h.path) :
    LogOk (log ++ (outs.map .leave ++ ins.reverse.map .enter)) t.path := by
  have hhere := nodup_path h
  have htarget := nodup_path t
  rw [hway.here] at hlog hhere
  rw [hway.target] at htarget ⊢
  rw [← append_assoc]
  exact (hlog.leaves hhere).enters htarget

/-- What a call of a continuation does. -/
theorem invoke_spec {s : State} (hinv : Inv s) {k : ℕ} {cont : Continuation}
    (hcont : s.continuations[k]? = some cont) :
    ∃ outs ins common, Way s.dk cont.point outs ins common ∧
      Op.perform s (.invoke k) = some { s with
        frames := cont.frames
        dk := cont.point
        log := s.log ++ (outs.map .leave ++ ins.reverse.map .enter) } := by
  obtain ⟨hok, -⟩ := hinv.continuations cont (mem_of_getElem? hcont)
  obtain ⟨outs, ins, common, hway, hrun⟩ := travelToPoint_spec hinv.ok hok
  refine ⟨outs, ins, common, hway, ?_⟩
  simp only [Op.perform, hcont, hrun, Option.map_some]

/-- Every operation keeps the invariant. -/
theorem perform_inv {s s' : State} {op : Op} (hinv : Inv s) (hrun : op.perform s = some s') :
    Inv s' := by
  cases op with
  | enter =>
    cases hrun
    refine ⟨⟨?_, hinv.ok⟩, ⟨rfl, rfl, hinv.frames⟩, hinv.continuations, ?_⟩
    · rw [hinv.ok.depth_eq]
    · refine hinv.log.enter fun hmem => ?_
      exact absurd (height_le_of_mem_path hmem) (Nat.not_succ_le_self _)
  | exit =>
    cases hframes : s.frames with
    | nil =>
      rw [Op.perform, hframes] at hrun
      cases hrun
    | cons frame frames =>
      obtain ⟨hpoint, hhere, hrest⟩ : FramesOf (frame :: frames) s.dk := hframes ▸ hinv.frames
      have hok := hinv.ok
      have hlog := hinv.log
      rw [Op.perform, hframes] at hrun
      cases hrun
      -- the current point is the one of the frame, and what was current before is its parent
      cases hdk : s.dk with
      | rootPoint =>
        rw [hdk] at hhere
        cases hhere
      | makePoint number depth parent =>
        rw [hdk] at hpoint hhere hok hlog
        cases hhere
        refine ⟨hok.2, hrest, hinv.continuations, ?_⟩
        rw [hpoint]
        exact hlog.leave (nodup_cons.mp (nodup_path (makePoint number depth _))).1
  | capture =>
    cases hrun
    refine ⟨hinv.ok, hinv.frames, ?_, hinv.log⟩
    intro cont hmem
    rcases mem_append.mp hmem with hmem | hmem
    · exact hinv.continuations cont hmem
    · obtain rfl := mem_singleton.mp hmem
      exact ⟨hinv.ok, hinv.frames⟩
  | invoke k =>
    cases hcont : s.continuations[k]? with
    | none =>
      rw [Op.perform, hcont] at hrun
      cases hrun
    | some cont =>
      obtain ⟨outs, ins, common, hway, hinvoke⟩ := invoke_spec hinv hcont
      rw [hinvoke] at hrun
      cases hrun
      obtain ⟨hok, hframes⟩ := hinv.continuations cont (mem_of_getElem? hcont)
      exact ⟨hok, hframes, hinv.continuations, hway.logOk hinv.log⟩

/-- Every run keeps the invariant. -/
theorem runOps_inv {s s' : State} {ops : List Op} (hinv : Inv s) (hrun : runOps s ops = some s') :
    Inv s' := by
  induction ops generalizing s with
  | nil =>
    cases hrun
    exact hinv
  | cons op ops ih =>
    obtain ⟨s₁, hop, hrest⟩ := Option.bind_eq_some_iff.mp hrun
    exact ih (perform_inv hinv hop) hrest

/-- A call of a continuation runs the out thunks up to the deepest common ancestor and then the in
thunks down to the point of the continuation, each once.  The thunks of every point alternate, and the
points entered are those on the path of the current one. -/
structure WindsOk (s : State) : Prop where
  invoke : ∀ k cont, s.continuations[k]? = some cont →
    ∃ outs ins common, Way s.dk cont.point outs ins common ∧ outs.Nodup ∧ ins.Nodup ∧
      Op.perform s (.invoke k) = some { s with
        frames := cont.frames
        dk := cont.point
        log := s.log ++ (outs.map .leave ++ ins.reverse.map .enter) }
  thunks : ∀ p, Alternating (kinds p s.log) ∧ (Entered p s.log ↔ p ∈ s.dk.path)

/-- In every run the calls of continuations and the thunks are as they should be. -/
theorem dynamicWind_run {s : State} {ops : List Op} (hrun : runOps initial ops = some s) :
    WindsOk s := by
  have hinv := runOps_inv initial_inv hrun
  refine ⟨fun k cont hcont => ?_, hinv.log⟩
  obtain ⟨outs, ins, common, hway, hinvoke⟩ := invoke_spec hinv hcont
  have hhere : (outs ++ common).Nodup := hway.here ▸ nodup_path s.dk
  have htarget : (ins ++ common).Nodup := hway.target ▸ nodup_path cont.point
  exact ⟨outs, ins, common, hway, hhere.of_append_left, htarget.of_append_left, hinvoke⟩

/-- A body is left, and another one entered, before the continuation captured in the first is called. -/
theorem dynamicWind_run_reentry :
    WindsOk
      { frames := [⟨makePoint 1 1 rootPoint, rootPoint⟩]
        dk := makePoint 1 1 rootPoint
        made := 2
        continuations := [⟨[⟨makePoint 0 1 rootPoint, rootPoint⟩], makePoint 0 1 rootPoint⟩]
        log := [.enter (makePoint 0 1 rootPoint), .leave (makePoint 0 1 rootPoint),
          .enter (makePoint 1 1 rootPoint)] } :=
  @dynamicWind_run _ [.enter, .capture, .exit, .enter] rfl

end ChibiScheme.Control
