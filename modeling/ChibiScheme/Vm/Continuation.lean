import ChibiScheme.Vm.Hidden

/-!
# First-class continuations

Invoking a continuation copies the saved stack over the stack object of the context and goes on
from the frame that was saved with it.  The copy is exact, whatever a later run did to the live
stack, but the loop reads the result through its local variable `stack`: when the restore has to
grow the stack, or when another run has replaced the stack object of the context, the loop goes on
with the old array, which the copy did not reach.
-/

namespace ChibiScheme.Vm

open Relation List Option

/-! ## The state in which a continuation is captured -/

/-- The value names no vector beyond the first `n`. -/
def Within (n : ℕ) : Val → Prop
  | .vector a => a < n
  | .proc p => ∀ a, p.vars = some a → a < n
  | _ => True

/-- A state of the machine: every vector that a value names exists, the resumer is in place and
the stack objects that are named exist. -/
structure WellFormed (s : State) : Prop where
  pairs : ∀ p ∈ s.pairs, Within s.vectors.length p.car ∧ Within s.vectors.length p.cdr
  vectors : ∀ v ∈ s.vectors, ∀ x ∈ v.items, Within s.vectors.length x
  stackObjs : ∀ k i, Within s.vectors.length ((s.stackObjs k).data i)
  self : Within s.vectors.length (.proc s.self)
  literals : ∀ k bc, s.bytecodes k = some bc → ∀ i ∈ bc.data, ∀ v, .obj v ∈ i.words →
    Within s.vectors.length v
  code : ∃ depth, s.bytecodes s.resumeccBytecode = some ⟨resumerCode, depth⟩
  live : s.stack < s.stackCount
  context : s.contextStack < s.stackCount

variable {n : ℕ} {v : Val}

theorem Within.sealed {resumer : ℕ} (h : Within n v) : Sealed n (n + 1) resumer v := by
  cases v with
  | vector a =>
    have ha : a < n := h
    exact ⟨by omega, by omega⟩
  | proc p =>
    constructor
    · intro hvars
      have hlt := h _ hvars
      omega
    · intro hvars
      have hlt := h _ hvars
      omega
  | _ => trivial

/-- The slots that `SEXP_OP_CALLCC` saves: the stack and the frame above it. -/
def savedItems (s : State) : List Val :=
  (List.range (s.top + 4)).map (callccFrame s).slot

theorem savedItems_length (s : State) : (savedItems s).length = s.top + 4 := by
  simp [savedItems]

theorem callccFrame_slot_below (s : State) {i : ℕ} (hi : i < s.top) :
    (callccFrame s).slot i = s.slot i := by
  have h0 : i ≠ s.top := by omega
  have h1 : i ≠ s.top + 1 := by omega
  have h2 : i ≠ s.top + 2 := by omega
  have h3 : i ≠ s.top + 3 := by omega
  simp [callccFrame, State.slot, State.write, h0, h1, h2, h3]

theorem callccFrame_slot_ip (s : State) : (callccFrame s).slot (s.top + 1) = .fixnum s.ip := by
  simp [callccFrame, State.slot, State.write]

theorem callccFrame_slot_self (s : State) : (callccFrame s).slot (s.top + 2) = .proc s.self := by
  simp [callccFrame, State.slot, State.write]

theorem callccFrame_slot_fp (s : State) : (callccFrame s).slot (s.top + 3) = .fixnum s.fp := by
  simp [callccFrame, State.slot, State.write]

theorem savedItems_getD (s : State) {i : ℕ} (hi : i < s.top + 4) (v : Val) :
    (savedItems s).getD i v = (callccFrame s).slot i := by
  simp [savedItems, hi]

variable {s : State}

theorem within_write (h : ∀ k i, Within n ((s.stackObjs k).data i)) (hv : Within n v) (j k i : ℕ) :
    Within n (((s.write j v).stackObjs k).data i) := by
  simp only [State.write, Function.update_apply]
  split
  · simp only [Function.update_apply]
    split
    · exact hv
    · exact h _ i
  · exact h k i

theorem WellFormed.callccFrame_stacks (h : WellFormed s) (k i : ℕ) :
    Within s.vectors.length (((callccFrame s).stackObjs k).data i) := by
  have hone := within_write h.stackObjs (v := .fixnum 1) trivial s.top
  have hip := within_write hone (v := .fixnum s.ip) trivial (s.top + 1)
  have hself := within_write hip h.self (s.top + 2)
  exact within_write hself (v := .fixnum s.fp) trivial (s.top + 3) k i

theorem capture_vectors (s : State) :
    (capture (callccFrame s)).vectors =
      ((s.vectors ++ [VectorObj.mk [.imm .undef] false]) ++
        [VectorObj.mk (savedItems s) false]).set s.vectors.length
        ⟨[.vector (s.vectors ++ [VectorObj.mk [.imm .undef] false]).length], false⟩ :=
  rfl

theorem capture_hidden (h : WellFormed s) :
    Hidden s.vectors.length (s.vectors.length + 1) s.resumeccBytecode (savedItems s)
      (capture (callccFrame s)) := by
  have hvectors := capture_vectors s
  constructor
  · rw [hvectors]
    simp
  · rw [hvectors]
    simp
  · intro p hp
    exact ⟨(h.pairs p hp).1.sealed, (h.pairs p hp).2.sealed⟩
  · intro a v ha hv x hx
    rw [hvectors, getElem?_set_ne (Ne.symm ha)] at hv
    rcases mem_append.mp (mem_of_getElem? hv) with hfirst | hlast
    · rcases mem_append.mp hfirst with hold | hundef
      · exact (h.vectors v hold x hx).sealed
      · rw [mem_singleton] at hundef
        subst hundef
        rw [mem_singleton] at hx
        subst hx
        trivial
    · rw [mem_singleton] at hlast
      subst hlast
      obtain ⟨i, -, rfl⟩ := List.mem_map.mp hx
      exact (h.callccFrame_stacks _ i).sealed
  · intro k i
    exact (h.callccFrame_stacks k i).sealed
  · exact h.self.sealed
  · intro k bc hbc i hi v hv
    exact (h.literals k bc hbc i hi v hv).sealed
  · rfl
  · exact h.code
  · exact h.live
  · exact h.context

variable {limit : Option ℕ} {t : State}

theorem callcc_hidden (h : WellFormed s) (hcall : callcc limit s = some t) :
    Hidden s.vectors.length (s.vectors.length + 1) s.resumeccBytecode (savedItems s) t := by
  have hcaptured := capture_hidden h
  have hproc : Sealed s.vectors.length (s.vectors.length + 1) s.resumeccBytecode
      (.proc (continuationOf s)) := by
    constructor
    · simp [continuationOf]
    · intro
      rfl
  have hcallee : Sealed s.vectors.length (s.vectors.length + 1) s.resumeccBytecode
      ((callccFrame s).arg 1) := (h.callccFrame_stacks _ _).sealed
  exact ((hcaptured.setArg (n := 1) hproc).withTop (s.top + 1)).makeCall hcallee hcall

theorem unboxFixnum_eq_some {n : ℤ} (h : unboxFixnum v = some n) : v = .fixnum n := by
  cases v with
  | fixnum m =>
    cases h
    rfl
  | _ => cases h

theorem asProcedure_eq_some {p : Procedure} (h : asProcedure v = some p) : v = .proc p := by
  cases v with
  | proc q =>
    cases h
    rfl
  | _ => cases h

/-! ## What a restore leaves in the live array -/

/-- The restore of `length` slots writes the array that the loop reads: no growth is needed and
the local variable `stack` is the stack object of the context. -/
def InPlace (s : State) (length : ℕ) : Prop :=
  s.stack = s.contextStack ∧ length + 64 < s.stackLength

/-- There is room for a stack of this length. -/
def CanRestore (limit : Option ℕ) (s : State) (length : ℕ) : Prop :=
  length + 64 < s.stackLength ∨ (grownSize limit s.stackLength (length + 64)).isSome

instance (s : State) (length : ℕ) : Decidable (InPlace s length) :=
  inferInstanceAs (Decidable (_ ∧ _))

theorem InPlace.canRestore {length : ℕ} (h : InPlace s length) : CanRestore limit s length :=
  Or.inl h.2

/-- The saved items are back, or the stack is another one. -/
theorem restoreStack_spec {items : List Val} (hlive : s.stack < s.stackCount)
    (hrestore : restoreStack limit s items = some t) :
    t.contextTop = items.length ∧
      ∀ i, t.slot i = if InPlace s items.length then items.getD i (s.slot i) else s.slot i := by
  simp only [restoreStack, bind_eq_bind, bind_eq_some_iff] at hrestore
  obtain ⟨grown, hgrown, hresult⟩ := hrestore
  split at hgrown
  · rename_i hfull
    -- the copy goes to the new stack object, the loop keeps the old one
    have hplace : ¬ InPlace s items.length := fun h => by
      have hroom := h.2
      omega
    simp only [growStack] at hgrown
    split at hgrown
    · cases hgrown
    · cases hgrown
      cases hresult
      refine ⟨rfl, fun i => ?_⟩
      rw [if_neg hplace]
      simp [State.slot, Nat.ne_of_lt hlive]
  · rename_i hroom
    cases hgrown
    cases hresult
    refine ⟨rfl, fun i => ?_⟩
    by_cases hsame : s.stack = s.contextStack
    · rw [if_pos ⟨hsame, by omega⟩]
      simp [State.slot, hsame, copyOver]
    · rw [if_neg (fun h => hsame h.1)]
      simp [State.slot, hsame]

theorem restoreStack_isSome (limit : Option ℕ) (s : State) (items : List Val) :
    (∃ t, restoreStack limit s items = some t) ↔ CanRestore limit s items.length := by
  unfold restoreStack CanRestore growStack
  by_cases hfull : s.stackLength ≤ items.length + 64
  · rw [if_pos hfull]
    cases hsize : grownSize limit s.stackLength (items.length + 64) with
    | none =>
      simp
      omega
    | some newSize => simp
  · rw [if_neg hfull]
    have hroom : items.length + 64 < s.stackLength := by omega
    simp [hroom]

/-! ## Invoking a continuation -/

/-- The machine `t` goes on where `s` captured its continuation, with `v` for the operand. -/
structure Resumed (s : State) (v : Val) (t : State) : Prop where
  top : t.top = s.top
  fp : t.fp = s.fp
  self : t.self = s.self
  ip : t.ip = s.ip + 1
  below : ∀ i, i + 1 < s.top → t.slot i = s.slot i
  operand : t.slot (s.top - 1) = v

/-- The array that the loop of `t` reads still holds what the state `s` saved. -/
structure StillThere (s t : State) : Prop where
  below : ∀ i, i + 1 < s.top → t.slot i = s.slot i
  ip : t.slot (s.top + 1) = .fixnum (s.ip + 1)
  self : t.slot (s.top + 2) = .proc s.self
  fp : t.slot (s.top + 3) = .fixnum s.fp

theorem resumecc_resumed_iff {restored : State} {x : Val} {items : List Val}
    (hslot : closureSlot t 0 = some x) (hitems : vectorItems t x = some items)
    (hlength : items.length = s.top + 4)
    (hrestore : restoreStack limit { t with contextTop := t.top } items = some restored)
    (htop : restored.contextTop = items.length) :
    (∃ u, resumecc limit t = some u ∧ Resumed s (t.slot (t.fp - 1).toNat) u) ↔
      StillThere s restored := by
  have hslot' : closureSlot { t with contextTop := t.top } 0 = some x := hslot
  have hitems' : vectorItems { t with contextTop := t.top } x = some items := hitems
  have harg1 : restored.contextTop - 1 = s.top + 3 := by omega
  have harg2 : restored.contextTop - 2 = s.top + 2 := by omega
  have harg3 : restored.contextTop - 3 = s.top + 1 := by omega
  have hnew : restored.contextTop - 4 = s.top := by omega
  constructor
  · rintro ⟨u, hresume, hresumed⟩
    simp only [resumecc, bind_eq_bind, hslot', hitems', hrestore, bind_some,
      bind_eq_some_iff, State.arg, harg1, harg2, harg3] at hresume
    obtain ⟨fp, hfp, self, hself, ip, hip, hu⟩ := hresume
    cases hu
    constructor
    · intro i hi
      have hbelow := hresumed.below i hi
      have hne : i ≠ s.top - 1 := by omega
      simpa [State.setArg, State.slot, State.write, hnew, hne] using hbelow
    · have hip' := hresumed.ip
      simp only [State.setArg, State.write] at hip'
      have hpos : ip = s.ip + 1 := by omega
      subst hpos
      exact unboxFixnum_eq_some hip
    · have hself' := hresumed.self
      simp only [State.setArg, State.write] at hself'
      subst hself'
      exact asProcedure_eq_some hself
    · have hfp' := hresumed.fp
      simp only [State.setArg, State.write] at hfp'
      subst hfp'
      exact unboxFixnum_eq_some hfp
  · intro hthere
    have hfp : unboxFixnum (restored.slot (s.top + 3)) = some s.fp := by rw [hthere.fp]; rfl
    have hself : asProcedure (restored.slot (s.top + 2)) = some s.self := by rw [hthere.self]; rfl
    have hip : unboxFixnum (restored.slot (s.top + 1)) = some (s.ip + 1 : ℤ) := by
      rw [hthere.ip]
      rfl
    refine ⟨State.setArg { restored with
      fp := s.fp, self := s.self, ip := (s.ip + 1 : ℤ).toNat, top := restored.contextTop - 4 } 1
      (t.slot (t.fp - 1).toNat), ?_, ?_⟩
    · simp only [resumecc, bind_eq_bind, hslot', hitems', hrestore, bind_some,
        State.arg, harg1, harg2, harg3]
      simp only [State.slot] at hfp hself hip
      simp only [State.slot, hfp, hself, hip, bind_some]
    · constructor
      · simp [State.setArg, State.write, hnew]
      · simp [State.setArg, State.write]
      · simp [State.setArg, State.write]
      · simp only [State.setArg, State.write]
        omega
      · intro i hi
        have hne : i ≠ s.top - 1 := by omega
        simpa [State.setArg, State.slot, State.write, hnew, hne] using hthere.below i hi
      · simp [State.setArg, State.slot, State.write, hnew]

/-- However the run between went on, invoking a continuation resumes the state that captured it
exactly if the restore is in place, or the array that the loop reads happens to hold the saved
stack already. -/
theorem continuation_resumes_iff {limit : Option ℕ} {other : State → State → Prop}
    (hother : RespectsHidden other) {s first t : State} (hs : WellFormed s)
    (hcallcc : currentInstr s = some ⟨.callcc, []⟩) (hfirst : step limit s = some first)
    (hrun : ReflTransGen (SystemStep limit other) first t) (hself : t.self = continuationOf s)
    (hip : t.ip = 0) :
    (∃ u, step limit t = some u ∧ Resumed s (t.slot (t.fp - 1).toNat) u) ↔
      InPlace t (s.top + 4) ∨ (CanRestore limit t (s.top + 4) ∧ StillThere s t) := by
  -- `captured` is the state inside the instruction, with `ip` past the opcode byte
  let captured : State := { s with ip := s.ip + 1 }
  have hcaptured : WellFormed captured :=
    { hs with }
  have hcall : callcc limit captured = some first := by
    simpa [step, hcallcc, exec] using hfirst
  have hhidden := (callcc_hidden hcaptured hcall).run hother hrun
  obtain ⟨depth, hcode⟩ := hhidden.code
  have hstep : step limit t = resumecc limit { t with ip := t.ip + 1 } := by
    have hinstr : currentInstr t = some ⟨.resumecc, []⟩ := by
      have hbytecode : t.bytecodes t.self.code = some ⟨resumerCode, depth⟩ := by
        rw [hself]
        exact hcode
      simp [currentInstr, hbytecode, hip, resumerCode, fetch]
    simp [step, hinstr, exec]
  have hslot : closureSlot { t with ip := t.ip + 1 } 0 =
      some (.vector (s.vectors.length + 1)) :=
    (hhidden.withIp (t.ip + 1)).closureSlot_holder (by rw [hself]; rfl)
  have hitems : vectorItems { t with ip := t.ip + 1 } (.vector (s.vectors.length + 1)) =
      some (savedItems captured) := (hhidden.withIp (t.ip + 1)).vectorItems_saved
  have hlength : (savedItems captured).length = s.top + 4 := savedItems_length captured
  rw [hstep]
  by_cases hcan : CanRestore limit t (s.top + 4)
  · obtain ⟨restored, hrestore⟩ := (restoreStack_isSome limit
      { t with ip := t.ip + 1, contextTop := t.top } (savedItems captured)).mpr (by
        rw [hlength]
        exact hcan)
    obtain ⟨htop, hspec⟩ := restoreStack_spec
      ((hhidden.withIp (t.ip + 1)).withContextTop t.top).live hrestore
    rw [hlength] at hspec
    have hslots : ∀ i, restored.slot i =
        if InPlace t (s.top + 4) then (savedItems captured).getD i (t.slot i) else t.slot i := hspec
    refine Iff.trans (resumecc_resumed_iff hslot hitems hlength hrestore htop) ?_
    by_cases hplace : InPlace t (s.top + 4)
    · -- the copy reached the array: it holds the saved slots
      have hread : ∀ i, i < s.top + 4 → restored.slot i = (callccFrame captured).slot i := by
        intro i hi
        rw [hslots i, if_pos hplace, savedItems_getD captured hi]
      refine iff_of_true ?_ (Or.inl hplace)
      constructor
      · intro i hi
        rw [hread i (by omega), callccFrame_slot_below captured (show i < s.top by omega)]
        rfl
      · rw [hread _ (by omega)]
        exact callccFrame_slot_ip captured
      · rw [hread _ (by omega)]
        exact callccFrame_slot_self captured
      · rw [hread _ (by omega)]
        exact callccFrame_slot_fp captured
    · -- the copy went elsewhere: the array is as it was
      have hread : ∀ i, restored.slot i = t.slot i := by
        intro i
        rw [hslots i, if_neg hplace]
      have hthere : StillThere s restored ↔ StillThere s t := by
        constructor
        · intro h
          exact ⟨fun i hi => (hread i).symm.trans (h.below i hi), (hread _).symm.trans h.ip,
            (hread _).symm.trans h.self, (hread _).symm.trans h.fp⟩
        · intro h
          exact ⟨fun i hi => (hread i).trans (h.below i hi), (hread _).trans h.ip,
            (hread _).trans h.self, (hread _).trans h.fp⟩
      rw [hthere]
      exact ⟨fun h => Or.inr ⟨hcan, h⟩, fun h => h.elim (fun hin => absurd hin hplace) And.right⟩
  · have hplace : ¬ InPlace t (s.top + 4) := fun h => hcan h.canRestore
    have hnone : ¬ ∃ u, resumecc limit { t with ip := t.ip + 1 } = some u ∧
        Resumed s (t.slot (t.fp - 1).toNat) u := by
      rintro ⟨u, hresume, -⟩
      simp only [resumecc, bind_eq_bind, bind_eq_some_iff] at hresume
      obtain ⟨x, hx, items, hitems', restored, hrestore, -⟩ := hresume
      cases hslot.symm.trans hx
      cases hitems.symm.trans hitems'
      have hsome := (restoreStack_isSome limit _ _).mp ⟨restored, hrestore⟩
      rw [hlength] at hsome
      exact hcan hsome
    exact iff_of_false hnone (fun h => h.elim hplace fun hstill => hcan hstill.1)

/-- Repeated turns of the loop. -/
def run (limit : Option ℕ) : ℕ → State → Option State
  | 0, s => some s
  | n + 1, s => (step limit s).bind (run limit n)

theorem run_systemStep {other : State → State → Prop} (hrun : run limit n s = some t) :
    ReflTransGen (SystemStep limit other) s t := by
  induction n generalizing s with
  | zero =>
    cases hrun
    exact ReflTransGen.refl
  | succ n ih =>
    obtain ⟨u, hstep, hrest⟩ := bind_eq_some_iff.mp hrun
    exact ReflTransGen.head (Or.inl hstep) (ih hrest)

/-- A procedure that runs `((%call/cc (lambda (k) k)) 5)` on a stack of `SEXP_INIT_STACK_SIZE`
slots, with the two operands pushed up to `top`. -/
def applyContinuation (top : ℕ) : State where
  pairs := []
  vectors := []
  bytecodes := fun k =>
    if k = 0 then some ⟨resumerCode, 0⟩
    else if k = 1 then some ⟨[⟨.callcc, []⟩, ⟨.call, [.num 1]⟩, ⟨.ret, []⟩], 2⟩
    else if k = 2 then some ⟨[⟨.localRef, [.num 0]⟩, ⟨.ret, []⟩], 1⟩
    else none
  resumeccBytecode := 0
  stackObjs := fun _ => ⟨1024, fun i =>
    if i + 2 = top then .fixnum 5
    else if i + 1 = top then .proc ⟨false, false, 1, 2, none⟩
    else .imm .void⟩
  stackCount := 1
  contextStack := 0
  contextTop := top
  stack := 0
  top := top
  fp := top - 6
  ip := 0
  self := ⟨false, false, 0, 1, none⟩
  updates := []

theorem applyContinuation_wellFormed (top : ℕ) : WellFormed (applyContinuation top) := by
  constructor
  · intro p hp
    cases hp
  · intro v hv
    cases hv
  · intro k i
    simp only [applyContinuation]
    split
    · trivial
    · split
      · intro a ha
        cases ha
      · trivial
  · intro a ha
    cases ha
  · intro k bc hbc i hi v hv
    simp only [applyContinuation] at hbc
    split at hbc
    · cases hbc
      simp only [resumerCode, mem_cons, not_mem_nil, or_false] at hi
      rcases hi with rfl | rfl <;> simp at hv
    · split at hbc
      · cases hbc
        simp only [mem_cons, not_mem_nil, or_false] at hi
        rcases hi with rfl | rfl | rfl <;> simp at hv
      · split at hbc
        · cases hbc
          simp only [mem_cons, not_mem_nil, or_false] at hi
          rcases hi with rfl | rfl <;> simp at hv
        · cases hbc
  · exact ⟨0, rfl⟩
  · exact Nat.one_pos
  · exact Nat.one_pos

/-- With the operands near the bottom of the stack the restore is in place. -/
theorem continuation_resumes_shallow :
    ∃ t, run (some 1024000) 4 (applyContinuation 8) = some t ∧
      ∃ u, step (some 1024000) t = some u ∧ Resumed (applyContinuation 8) (.fixnum 5) u := by
  obtain ⟨first, hfirst⟩ := isSome_iff_exists.mp
    (show (step (some 1024000) (applyContinuation 8)).isSome by decide +kernel)
  obtain ⟨t, ht⟩ := isSome_iff_exists.mp
    (show (run (some 1024000) 4 (applyContinuation 8)).isSome by decide +kernel)
  have hrest : run (some 1024000) 3 first = some t := by
    simpa [run, hfirst] using ht
  have hself : ((run (some 1024000) 4 (applyContinuation 8)).map State.self) =
      some (continuationOf (applyContinuation 8)) := by decide +kernel
  have hip : ((run (some 1024000) 4 (applyContinuation 8)).map State.ip) = some 0 := by
    decide +kernel
  have hplace : ((run (some 1024000) 4 (applyContinuation 8)).map
      fun t => decide (InPlace t 12)) = some true := by decide +kernel
  have hvalue : ((run (some 1024000) 4 (applyContinuation 8)).map
      fun t => t.slot (t.fp - 1).toNat) = some (.fixnum 5) := by decide +kernel
  rw [ht] at hself hip hplace hvalue
  have hresumes := (@continuation_resumes_iff _ (fun _ _ => False)
    (fun _ _ _ _ _ _ _ hfalse => hfalse.elim) _ _ _ (applyContinuation_wellFormed 8)
    (by decide +kernel) hfirst (run_systemStep hrest) (some.inj hself)
    (some.inj hip)).mpr (Or.inl (of_decide_eq_true (some.inj hplace)))
  rw [show t.slot (t.fp - 1).toNat = .fixnum 5 from some.inj hvalue] at hresumes
  exact ⟨t, ht, hresumes⟩

/-- Near the end of the stack the restore grows it, the loop reads the old array, and the word it
takes for the procedure to go on with is the frame pointer of the call. -/
theorem continuation_lost_near_end :
    WellFormed (applyContinuation 957) ∧
      currentInstr (applyContinuation 957) = some ⟨.callcc, []⟩ ∧
      ∃ t, run (some 1024000) 4 (applyContinuation 957) = some t ∧
        t.self = continuationOf (applyContinuation 957) ∧ t.ip = 0 ∧
        ¬ ∃ u, step (some 1024000) t = some u ∧
          Resumed (applyContinuation 957) (t.slot (t.fp - 1).toNat) u := by
  obtain ⟨t, ht⟩ := isSome_iff_exists.mp
    (show (run (some 1024000) 4 (applyContinuation 957)).isSome by decide +kernel)
  have hself : ((run (some 1024000) 4 (applyContinuation 957)).map State.self) =
      some (continuationOf (applyContinuation 957)) := by decide +kernel
  have hip : ((run (some 1024000) 4 (applyContinuation 957)).map State.ip) = some 0 := by
    decide +kernel
  have hstuck : ((run (some 1024000) 4 (applyContinuation 957)).map
      fun t => (step (some 1024000) t).isSome) = some false := by decide +kernel
  rw [ht] at hself hip hstuck
  refine ⟨applyContinuation_wellFormed 957, by decide +kernel, t, ht, some.inj hself,
    some.inj hip, ?_⟩
  rintro ⟨u, hstep, -⟩
  have hnone : (step (some 1024000) t).isSome = false := some.inj hstuck
  rw [hstep] at hnone
  cases hnone

end ChibiScheme.Vm
