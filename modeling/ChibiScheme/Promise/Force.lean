import Mathlib.Data.Nat.Notation
import Mathlib.Logic.Relation

/-!
# Promises

A promise is a pair that points to a box, and the box holds either the value or the thunk still to be
called.  `force` calls the thunk, lets `promise-update!` merge the promise it returns into the one
that is forced, and starts again.  Programs are given by what they do with promises and with the
variables they share; a thunk is such a program too.
-/

namespace ChibiScheme

namespace Promise

/-- A promise, by its number, or a datum. -/
inductive Value (α : Type) where
  | promise (p : ℕ)
  | datum (a : α)
deriving DecidableEq

/-- A program over variables `σ`: what it does next, and the rest of it -/
inductive Program (σ α : Type) where
  /-- It is done. -/
  | value (v : Value α)
  /-- `(promise #t v)` -/
  | makePromise (v : Value α) (rest : ℕ → Program σ α)
  /-- `(delay-force body)` -/
  | delayForce (body : Program σ α) (rest : ℕ → Program σ α)
  /-- `(force v)` -/
  | force (v : Value α) (rest : Value α → Program σ α)
  /-- An expression that reads or sets the variables -/
  | access (f : σ → Value α × σ) (rest : Value α → Program σ α)

namespace Program

variable {σ α : Type}

/-- One program after the other. -/
def bind (e : Program σ α) (k : Value α → Program σ α) : Program σ α :=
  match e with
  | value v => k v
  | makePromise v rest => makePromise v fun p => (rest p).bind k
  | delayForce body rest => delayForce body fun p => (rest p).bind k
  | force v rest => force v fun x => (rest x).bind k
  | access f rest => access f fun x => (rest x).bind k

/-- `(delay e)`, which is `(delay-force (promise #t e))` -/
def delay (e : Program σ α) (rest : ℕ → Program σ α) : Program σ α :=
  delayForce (e.bind fun v => makePromise v fun p => value (.promise p)) rest

end Program

/-- The content of a promise: a value, or what is still to be computed. -/
inductive Box (σ α : Type) where
  | done (v : Value α)
  | lazy (thunk : Program σ α)

/-- A call of `force` that waits for the thunk of its promise -/
structure Frame (σ α : Type) where
  promise : ℕ
  rest : Value α → Program σ α

/-- The store of promises and boxes, the variables, and what is left to do -/
structure State (σ α : Type) where
  /-- the box each promise points to -/
  promises : List ℕ
  boxes : List (Box σ α)
  vars : σ
  stack : List (Frame σ α)
  control : Program σ α
  /-- which promise was updated from which, a record that no step reads -/
  links : List (ℕ × ℕ)
  /-- what the forced promises returned, a record that no step reads -/
  forced : List (ℕ × Value α)

namespace State

variable {σ α : Type}

/-- The content of a promise, through the box it shares. -/
def box (s : State σ α) (p : ℕ) : Option (Box σ α) := s.promises[p]?.bind fun b => s.boxes[b]?

/-- `(promise done? proc)` -/
def allocate (s : State σ α) (b : Box σ α) (rest : ℕ → Program σ α) : State σ α :=
  { s with
    promises := s.promises ++ [s.boxes.length]
    boxes := s.boxes ++ [b]
    control := rest s.promises.length }

/-- `promise-update!`: the content of `new` goes to the box of `old`, and `new` shares that box from
now on. -/
def promiseUpdate (s : State σ α) (new old : ℕ) : Option (State σ α) :=
  match s.promises[old]?, s.box new with
  | some b, some content =>
    some { s with
      boxes := s.boxes.set b content
      promises := s.promises.set new b
      links := (old, new) :: s.links }
  | _, _ => none

/-- One step; none is left when the program is done or what it forces is no promise. -/
def step (s : State σ α) : Option (State σ α) :=
  match s.control with
  | .makePromise v rest => some (s.allocate (.done v) rest)
  | .delayForce body rest => some (s.allocate (.lazy body) rest)
  | .access f rest => some { s with control := rest (f s.vars).1, vars := (f s.vars).2 }
  | .force (.datum _) _ => none
  | .force (.promise p) rest =>
    match s.box p with
    | none => none
    | some (.done v) => some { s with control := rest v, forced := (p, v) :: s.forced }
    | some (.lazy thunk) => some { s with control := thunk, stack := ⟨p, rest⟩ :: s.stack }
  | .value v =>
    match s.stack with
    | [] => none
    | frame :: stack =>
      -- the thunk has returned: update unless the promise got done meanwhile, and force again
      let s := { s with stack := stack, control := .force (.promise frame.promise) frame.rest }
      match s.box frame.promise with
      | none => none
      | some (.done _) => some s
      | some (.lazy _) =>
        match v with
        | .promise new => s.promiseUpdate new frame.promise
        | .datum _ => none

/-- A program before its first step -/
def start (program : Program σ α) (vars : σ) : State σ α :=
  { promises := [], boxes := [], vars := vars, stack := [], control := program, links := [],
    forced := [] }

/-- Some steps. -/
def Reaches : State σ α → State σ α → Prop := Relation.ReflTransGen fun s s' => s.step = some s'

/-- The promise is forced and has this value. -/
def HasValue (s : State σ α) (p : ℕ) (v : Value α) : Prop := s.box p = some (.done v)

/-- A chain of `delay-force` links the promises. -/
def Linked (s : State σ α) : ℕ → ℕ → Prop := Relation.EqvGen fun p q => (p, q) ∈ s.links

/-! ## What an update does -/

variable {s s' : State σ α}

theorem box_eq_some {p : ℕ} {content : Box σ α} :
    s.box p = some content ↔ ∃ b, s.promises[p]? = some b ∧ s.boxes[b]? = some content := by
  rw [box, Option.bind_eq_some_iff]

theorem promiseUpdate_eq_some {new old : ℕ} (h : s.promiseUpdate new old = some s') :
    ∃ b content, s.promises[old]? = some b ∧ s.box new = some content ∧
      s' = { s with
        boxes := s.boxes.set b content
        promises := s.promises.set new b
        links := (old, new) :: s.links } := by
  unfold promiseUpdate at h
  split at h
  · rename_i b content hold hnew
    exact ⟨b, content, hold, hnew, (Option.some.inj h).symm⟩
  · cases h

/-- What one step can do to the store: nothing, a new promise with a box of its own, or an update of
a promise that is not done -/
theorem step_cases (h : s.step = some s') :
    (s'.promises = s.promises ∧ s'.boxes = s.boxes ∧ s'.links = s.links) ∨
    (∃ content, s'.promises = s.promises ++ [s.boxes.length] ∧ s'.boxes = s.boxes ++ [content] ∧
      s'.links = s.links) ∨
    (∃ new frame stack b thunk content, s.control = .value (.promise new) ∧
      s.stack = frame :: stack ∧ s.promises[frame.promise]? = some b ∧
      s.boxes[b]? = some (.lazy thunk) ∧ s.box new = some content ∧
      s'.promises = s.promises.set new b ∧ s'.boxes = s.boxes.set b content ∧
      s'.links = (frame.promise, new) :: s.links) := by
  unfold step at h
  split at h
  · cases h
    exact Or.inr (Or.inl ⟨_, rfl, rfl, rfl⟩)
  · cases h
    exact Or.inr (Or.inl ⟨_, rfl, rfl, rfl⟩)
  · cases h
    exact Or.inl ⟨rfl, rfl, rfl⟩
  · cases h
  · split at h
    · cases h
    · cases h
      exact Or.inl ⟨rfl, rfl, rfl⟩
    · cases h
      exact Or.inl ⟨rfl, rfl, rfl⟩
  · rename_i v hcontrol
    split at h
    · cases h
    rename_i frame stack hstack
    dsimp only at h
    split at h
    · cases h
    · cases h
      exact Or.inl ⟨rfl, rfl, rfl⟩
    · rename_i thunk hlazy
      cases v with
      | datum a => cases h
      | promise new =>
        obtain ⟨b, content, hold, hnew, rfl⟩ := promiseUpdate_eq_some h
        obtain ⟨b', hold', hbox⟩ := box_eq_some.mp hlazy
        have hsame : b' = b := Option.some.inj (hold'.symm.trans hold)
        subst hsame
        exact Or.inr (Or.inr ⟨new, frame, stack, b', thunk, content, hcontrol, hstack, hold,
          hbox, hnew, rfl, rfl, rfl⟩)

/-- A step forces nothing but what has a value. -/
theorem forced_step (h : s.step = some s') {p : ℕ} {v : Value α} (hforced : (p, v) ∈ s'.forced) :
    (p, v) ∈ s.forced ∨ s.HasValue p v := by
  unfold step at h
  split at h
  · cases h
    exact Or.inl hforced
  · cases h
    exact Or.inl hforced
  · cases h
    exact Or.inl hforced
  · cases h
  · split at h
    · cases h
    · rename_i hdone
      cases h
      rcases List.mem_cons.mp hforced with hnew | hold
      · cases hnew
        exact Or.inr hdone
      · exact Or.inl hold
    · cases h
      exact Or.inl hforced
  · rename_i v hcontrol
    split at h
    · cases h
    dsimp only at h
    split at h
    · cases h
    · cases h
      exact Or.inl hforced
    · cases v with
      | datum a => cases h
      | promise new =>
        obtain ⟨b, content, -, -, rfl⟩ := promiseUpdate_eq_some h
        exact Or.inl hforced

end State

/-! ## What the promises of a run share

A promise that is done keeps its value: a box is written only while it is not done, and a promise
that is led to another box takes its content along.  Linked promises share their box as long as no
update leads one of several promises with the same unfinished box away from it. -/

open List

namespace State

variable {σ α : Type} {s s' : State σ α}

/-! ## Values stay -/

/-- Every promise points to a box. -/
def BoxesExist (s : State σ α) : Prop := ∀ b ∈ s.promises, b < s.boxes.length

theorem BoxesExist.step (hboxes : s.BoxesExist) (h : s.step = some s') : s'.BoxesExist := by
  rcases step_cases h with ⟨hpromises, hsame, -⟩ | ⟨content, hpromises, hsame, -⟩ |
    ⟨new, frame, stack, b, thunk, content, -, -, hold, -, -, hpromises, hsame, -⟩
  · intro b hb
    rw [hpromises] at hb
    rw [hsame]
    exact hboxes b hb
  · intro b hb
    rw [hpromises, mem_append, mem_singleton] at hb
    rw [hsame, length_append, length_singleton]
    rcases hb with hb | rfl
    · exact Nat.lt_succ_of_lt (hboxes b hb)
    · exact Nat.lt_succ_self _
  · intro b' hb
    rw [hpromises] at hb
    rw [hsame, length_set]
    rcases mem_or_eq_of_mem_set hb with hb | rfl
    · exact hboxes b' hb
    · exact hboxes _ (mem_of_getElem? hold)

variable {program : Program σ α} {vars : σ}

/-- Every promise has its box. -/
theorem boxesExist_of_reaches (h : (start program vars).Reaches s) : s.BoxesExist := by
  induction h with
  | refl => exact fun b hb => absurd hb not_mem_nil
  | tail _ hstep ih => exact ih.step hstep

variable {p b : ℕ}

theorem box_append {content : Box σ α} (hboxes : s.BoxesExist) (hbox : s.box p = some content)
    {new : Box σ α} (hpromises : s'.promises = s.promises ++ [b])
    (hsame : s'.boxes = s.boxes ++ [new]) : s'.box p = some content := by
  obtain ⟨b', hp, hcontent⟩ := box_eq_some.mp hbox
  refine box_eq_some.mpr ⟨b', ?_, ?_⟩
  · rw [hpromises, getElem?_append_left (List.getElem?_eq_some_iff.mp hp).1]
    exact hp
  · rw [hsame, getElem?_append_left (hboxes b' (mem_of_getElem? hp))]
    exact hcontent

variable {v : Value α}

theorem HasValue.step (hvalue : s.HasValue p v) (hboxes : s.BoxesExist) (h : s.step = some s') :
    s'.HasValue p v := by
  rcases step_cases h with ⟨hpromises, hsame, -⟩ | ⟨content, hpromises, hsame, -⟩ |
    ⟨new, frame, stack, b, thunk, content, -, -, hold, hlazy, hnew, hpromises, hsame, -⟩
  · rw [HasValue, box, hpromises, hsame]
    exact hvalue
  · exact box_append hboxes hvalue hpromises hsame
  · obtain ⟨b', hp, hdone⟩ := box_eq_some.mp hvalue
    -- the box that is written is not done, so it is not the one with the value
    have hne : b ≠ b' := by
      intro heq
      rw [heq, hdone] at hlazy
      cases hlazy
    have hb : b < s.boxes.length := hboxes b (mem_of_getElem? hold)
    by_cases hredirected : new = p
    · subst hredirected
      have hcontent : content = .done v := Option.some.inj (hnew.symm.trans hvalue)
      refine box_eq_some.mpr ⟨b, ?_, ?_⟩
      · rw [hpromises, getElem?_set_self (List.getElem?_eq_some_iff.mp hp).1]
      · rw [hsame, getElem?_set_self hb, hcontent]
    · refine box_eq_some.mpr ⟨b', ?_, ?_⟩
      · rw [hpromises, getElem?_set_ne hredirected]
        exact hp
      · rw [hsame, getElem?_set_ne hne]
        exact hdone

theorem HasValue.reaches (hstart : (start program vars).Reaches s) (h : s.Reaches s')
    (hvalue : s.HasValue p v) :
    s'.HasValue p v := by
  induction h with
  | refl => exact hvalue
  | tail hreaches hstep ih =>
    exact ih.step (boxesExist_of_reaches (hstart.trans hreaches)) hstep

theorem hasValue_of_forced (h : (start program vars).Reaches s) (hforced : (p, v) ∈ s.forced) :
    s.HasValue p v := by
  induction h with
  | refl => exact absurd hforced not_mem_nil
  | tail hreaches hstep ih =>
    have hboxes := boxesExist_of_reaches hreaches
    rcases forced_step hstep hforced with hold | hvalue
    · exact (ih hold).step hboxes hstep
    · exact hvalue.step hboxes hstep

/-! ## Linked promises -/

/-- The promise that the thunk returned is not one of several promises with an unfinished box that
the update would part. -/
def Unparted (s : State σ α) : Prop :=
  match s.control, s.stack with
  | .value (.promise new), frame :: _ =>
    ∀ thunk thunk', s.box frame.promise = some (.lazy thunk) → s.box new = some (.lazy thunk') →
      s.promises[new]? = s.promises[frame.promise]? ∨
        ∀ other, other ≠ new → s.promises[other]? ≠ s.promises[new]?
  | _, _ => True

/-- Steps that part no promises lead from one state to the other. -/
def ReachesUnparted : State σ α → State σ α → Prop :=
  Relation.ReflTransGen fun s s' => s.step = some s' ∧ s.Unparted

theorem ReachesUnparted.reaches (h : s.ReachesUnparted s') : s.Reaches s' := by
  induction h with
  | refl => exact Relation.ReflTransGen.refl
  | tail _ hstep ih => exact ih.tail hstep.1

/-- Two promises share one box, or both are done with the same value. -/
def Share (s : State σ α) (p q : ℕ) : Prop :=
  (∃ b, s.promises[p]? = some b ∧ s.promises[q]? = some b) ∨ ∃ v, s.HasValue p v ∧ s.HasValue q v

variable {q : ℕ}

theorem Share.hasValue_iff (h : s.Share p q) (v : Value α) : s.HasValue p v ↔ s.HasValue q v := by
  rcases h with ⟨b, hp, hq⟩ | ⟨w, hp, hq⟩
  · rw [HasValue, HasValue, box, box, hp, hq]
  · rw [HasValue, HasValue, hp, hq]

theorem getElem?_of_set {promises : List ℕ} {new b' : ℕ} (hp : promises[p]? = some b') :
    (promises.set new b)[p]? = some (if p = new then b else b') := by
  rw [getElem?_set]
  split
  · rename_i heq
    subst heq
    rw [if_pos rfl, if_pos (List.getElem?_eq_some_iff.mp hp).1]
  · rename_i hne
    rw [hp, if_neg (Ne.symm hne)]

/-- An update keeps two promises together: where it leads one of them to another box, the two were
done, or alone in their box. -/
theorem Share.step (hshare : s.Share p q) (hboxes : s.BoxesExist) (h : s.step = some s')
    (hunparted : s.Unparted) : s'.Share p q := by
  rcases hshare with ⟨b, hp, hq⟩ | ⟨v, hp, hq⟩
  · rcases step_cases h with ⟨hpromises, -, -⟩ | ⟨content, hpromises, -, -⟩ |
      ⟨new, frame, stack, b', thunk, content, hcontrol, hstack, hold, hlazy, hnew, hpromises,
        hsame, -⟩
    · exact Or.inl ⟨b, by rw [hpromises]; exact hp, by rw [hpromises]; exact hq⟩
    · refine Or.inl ⟨b, ?_, ?_⟩
      · rw [hpromises, getElem?_append_left (List.getElem?_eq_some_iff.mp hp).1]
        exact hp
      · rw [hpromises, getElem?_append_left (List.getElem?_eq_some_iff.mp hq).1]
        exact hq
    · rw [Share, hpromises]
      rw [State.Unparted, hcontrol, hstack] at hunparted
      by_cases hmoved : p = new ∨ q = new
      · have hb : s.promises[new]? = some b := by
          rcases hmoved with rfl | rfl
          · exact hp
          · exact hq
        cases content with
        | done v =>
          have hcontent : s.boxes[b]? = some (.done v) := by
            rw [box, hb] at hnew
            exact hnew
          have hp' : s.HasValue p v := box_eq_some.mpr ⟨b, hp, hcontent⟩
          have hq' : s.HasValue q v := box_eq_some.mpr ⟨b, hq, hcontent⟩
          exact Or.inr ⟨v, hp'.step hboxes h, hq'.step hboxes h⟩
        | lazy thunk' =>
          rcases hunparted thunk thunk' (box_eq_some.mpr ⟨b', hold, hlazy⟩) hnew with
            hsame_box | halone
          · -- the promise stays in its box
            have heq : b = b' := by
              rw [hb, hold] at hsame_box
              exact Option.some.inj hsame_box
            refine Or.inl ⟨b, ?_, ?_⟩
            · rw [getElem?_of_set hp, ← heq, ite_self]
            · rw [getElem?_of_set hq, ← heq, ite_self]
          · have hp' : p = new :=
              Decidable.byContradiction fun hne => halone p hne (hp.trans hb.symm)
            have hq' : q = new :=
              Decidable.byContradiction fun hne => halone q hne (hq.trans hb.symm)
            refine Or.inl ⟨b', ?_, ?_⟩
            · rw [getElem?_of_set hp, if_pos hp']
            · rw [getElem?_of_set hq, if_pos hq']
      · refine Or.inl ⟨b, ?_, ?_⟩
        · rw [getElem?_of_set hp, if_neg (fun heq => hmoved (Or.inl heq))]
        · rw [getElem?_of_set hq, if_neg (fun heq => hmoved (Or.inr heq))]
  · exact Or.inr ⟨v, hp.step hboxes h, hq.step hboxes h⟩

theorem share_of_update {new old : ℕ} {content : Box σ α} (hold : s.promises[old]? = some b)
    (hnew : s.box new = some content) (hpromises : s'.promises = s.promises.set new b) :
    s'.Share old new := by
  obtain ⟨b', hb', -⟩ := box_eq_some.mp hnew
  refine Or.inl ⟨b, ?_, ?_⟩
  · rw [hpromises, getElem?_of_set hold, ite_self]
  · rw [hpromises, getElem?_of_set hb', if_pos rfl]

theorem share_of_links (h : (start program vars).ReachesUnparted s) :
    ∀ p q, (p, q) ∈ s.links → s.Share p q := by
  induction h with
  | refl => exact fun p q hlink => absurd hlink not_mem_nil
  | tail hreaches hstep ih =>
    intro p q hlink
    have hboxes := boxesExist_of_reaches (ReachesUnparted.reaches hreaches)
    have hkept : ∀ {p q}, (p, q) ∈ _ → State.Share _ p q := fun hlink =>
      (ih _ _ hlink).step hboxes hstep.1 hstep.2
    rcases step_cases hstep.1 with ⟨-, -, hlinks⟩ | ⟨content, -, -, hlinks⟩ |
      ⟨new, frame, stack, b, thunk, content, -, -, hold, -, hnew, hpromises, -, hlinks⟩
    · exact hkept (hlinks ▸ hlink)
    · exact hkept (hlinks ▸ hlink)
    · rw [hlinks] at hlink
      rcases mem_cons.mp hlink with hlast | hlink
      · cases hlast
        exact share_of_update hold hnew hpromises
      · exact hkept hlink

theorem hasValue_iff_of_linked (h : (start program vars).ReachesUnparted s)
    (hlinked : s.Linked p q) (v : Value α) :
    s.HasValue p v ↔ s.HasValue q v := by
  induction hlinked with
  | rel p q hlink => exact (share_of_links h p q hlink).hasValue_iff v
  | refl p => exact Iff.rfl
  | symm p q _ ih => exact ih.symm
  | trans p q r _ _ ih ih' => exact ih.trans ih'

/-- Over every run a promise keeps its value and `force` returns it; as long as no update parts
promises with the same unfinished box, linked promises have one value. -/
theorem promises_keep_values (program : Program σ α) (vars : σ) :
    (∀ s s', (start program vars).Reaches s → s.Reaches s' →
        (∀ p v, s.HasValue p v → s'.HasValue p v) ∧
        (∀ p v, (p, v) ∈ s.forced → s'.HasValue p v)) ∧
      (∀ s, (start program vars).ReachesUnparted s →
        ∀ p q, s.Linked p q → ∀ v, s.HasValue p v ↔ s.HasValue q v) := by
  refine ⟨fun s s' hstart h => ⟨fun p v hvalue => ?_, fun p v hforced => ?_⟩, ?_⟩
  · exact hvalue.reaches hstart h
  · exact (hasValue_of_forced hstart hforced).reaches hstart h
  · exact fun s h p q hlinked v => hasValue_iff_of_linked h hlinked v

/-- A state reached by so many steps, or before if the program ends -/
def run : ℕ → State σ α → State σ α
  | 0, s => s
  | fuel + 1, s =>
    match s.step with
    | none => s
    | some s' => run fuel s'

theorem reaches_run (fuel : ℕ) (s : State σ α) : s.Reaches (run fuel s) := by
  induction fuel generalizing s with
  | zero => exact Relation.ReflTransGen.refl
  | succ fuel ih =>
    rw [run]
    split
    · exact Relation.ReflTransGen.refl
    · rename_i s' hstep
      exact Relation.ReflTransGen.head hstep (ih s')

end State

/-! ## A promise that is forced while its thunk runs -/

/-- The thunk counts its calls; its first call forces the other promise before it returns 1. -/
def countingThunk : Program (ℕ × ℕ) ℕ :=
  .access (fun vars => (.datum (vars.1 + 1), (vars.1 + 1, vars.2))) fun n =>
    if n = .datum 1 then
      .access (fun vars => (.promise vars.2, vars)) fun other =>
        .force other fun _ => .makePromise n fun p => .value (.promise p)
    else .makePromise n fun p => .value (.promise p)

/-- Promise 0 counts, promises 1 and 2 are `(delay-force counting)` each, and 1 is forced. -/
def partingProgram : Program (ℕ × ℕ) ℕ :=
  .delayForce countingThunk fun counting =>
    .delayForce (.value (.promise counting)) fun first =>
      .delayForce (.value (.promise counting)) fun other =>
        .access (fun vars => (.promise other, (vars.1, other))) fun _ =>
          .force (.promise first) .value

/-- Promise 1 is linked to promise 0, and they end with the values 1 and 2. -/
theorem linked_promises_part :
    ∃ s : State (ℕ × ℕ) ℕ, (State.start partingProgram (0, 0)).Reaches s ∧ s.Linked 1 0 ∧
      s.HasValue 1 (.datum 1) ∧ s.HasValue 0 (.datum 2) := by
  refine ⟨State.run 40 (State.start partingProgram (0, 0)), State.reaches_run _ _, ?_, rfl, rfl⟩
  apply Relation.EqvGen.rel
  decide

end Promise

end ChibiScheme
