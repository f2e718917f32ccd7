import ChibiScheme.Vm.Machine

/-!
# The saved stack of a continuation is out of reach

`SEXP_OP_CALLCC` puts the saved stack into a vector, and that vector into the one slot of a second
vector, the variables of the continuation.  No instruction hands either vector to the program: the
only code that runs with these variables is the two-instruction bytecode of the resumer.  So
whatever a later run does, the two vectors keep their contents.
-/

namespace ChibiScheme.Vm

open Relation List Option

section

variable (holder saved resumer : ℕ)

/-- A procedure that does not lay the two vectors open: its variables are not the saved stack,
and if they are the holder then its code is the resumer's. -/
def SealedProcedure (p : Procedure) : Prop :=
  p.vars ≠ some saved ∧ (p.vars = some holder → p.code = resumer)

/-- A value that neither is one of the two vectors nor lays them open. -/
def Sealed : Val → Prop
  | .vector a => a ≠ holder ∧ a ≠ saved
  | .proc p => SealedProcedure holder saved resumer p
  | _ => True

end

/-- The bytecode of the resumer, made by `sexp_init_eval_context_bytecodes`. -/
def resumerCode : List Instr :=
  [⟨.resumecc, []⟩, ⟨.ret, []⟩]

/-- The vectors `holder` and `saved` of a continuation have the contents that `SEXP_OP_CALLCC`
gave them, and no value that the program can get hold of leads to them. -/
structure Hidden (holder saved resumer : ℕ) (items : List Val) (s : State) : Prop where
  holderItems : s.vectors[holder]? = some ⟨[.vector saved], false⟩
  savedItems : s.vectors[saved]? = some ⟨items, false⟩
  pairs : ∀ p ∈ s.pairs, Sealed holder saved resumer p.car ∧
    Sealed holder saved resumer p.cdr
  vectors : ∀ a v, a ≠ holder → s.vectors[a]? = some v →
    ∀ x ∈ v.items, Sealed holder saved resumer x
  stackObjs : ∀ k i, Sealed holder saved resumer ((s.stackObjs k).data i)
  self : SealedProcedure holder saved resumer s.self
  literals : ∀ k bc, s.bytecodes k = some bc → ∀ i ∈ bc.data, ∀ v, .obj v ∈ i.words →
    Sealed holder saved resumer v
  resumerId : s.resumeccBytecode = resumer
  code : ∃ depth, s.bytecodes resumer = some ⟨resumerCode, depth⟩
  live : s.stack < s.stackCount
  context : s.contextStack < s.stackCount

namespace Hidden

variable {holder saved resumer : ℕ} {items : List Val} {s t : State}
  (h : Hidden holder saved resumer items s)

include h

theorem of_eq (hpairs : t.pairs = s.pairs) (hvectors : t.vectors = s.vectors)
    (hbytecodes : t.bytecodes = s.bytecodes) (hresumer : t.resumeccBytecode = s.resumeccBytecode)
    (hstacks : t.stackObjs = s.stackObjs) (hself : SealedProcedure holder saved resumer t.self)
    (hlive : t.stack < t.stackCount) (hcontext : t.contextStack < t.stackCount) :
    Hidden holder saved resumer items t := by
  constructor
  · rw [hvectors]
    exact h.holderItems
  · rw [hvectors]
    exact h.savedItems
  · rw [hpairs]
    exact h.pairs
  · rw [hvectors]
    exact h.vectors
  · rw [hstacks]
    exact h.stackObjs
  · exact hself
  · rw [hbytecodes]
    exact h.literals
  · exact hresumer.trans h.resumerId
  · rw [hbytecodes]
    exact h.code
  · exact hlive
  · exact hcontext

theorem holder_lt : holder < s.vectors.length :=
  (List.getElem?_eq_some_iff.mp h.holderItems).1

theorem saved_lt : saved < s.vectors.length :=
  (List.getElem?_eq_some_iff.mp h.savedItems).1

theorem slot (i : ℕ) : Sealed holder saved resumer (s.slot i) :=
  h.stackObjs s.stack i

theorem withStacks (stackObjs : ℕ → StackObj)
    (hstacks : ∀ k i, Sealed holder saved resumer ((stackObjs k).data i)) :
    Hidden holder saved resumer items { s with stackObjs := stackObjs } :=
  { h with stackObjs := hstacks }

variable {i : ℕ} {v : Val}

theorem write (hvalue : Sealed holder saved resumer v) :
    Hidden holder saved resumer items (s.write i v) := by
  refine h.withStacks _ ?_
  intro k j
  by_cases hk : k = s.stack
  · subst hk
    by_cases hj : j = i
    · subst hj
      simpa using hvalue
    · simpa [hj] using h.stackObjs s.stack j
  · simpa [hk] using h.stackObjs k j

theorem withTop (top : ℕ) : Hidden holder saved resumer items { s with top := top } :=
  h.of_eq rfl rfl rfl rfl rfl h.self h.live h.context

theorem withIp (ip : ℕ) : Hidden holder saved resumer items { s with ip := ip } :=
  h.of_eq rfl rfl rfl rfl rfl h.self h.live h.context

theorem withFp (fp : ℤ) : Hidden holder saved resumer items { s with fp := fp } :=
  h.of_eq rfl rfl rfl rfl rfl h.self h.live h.context

theorem withContextTop (top : ℕ) : Hidden holder saved resumer items { s with contextTop := top } :=
  h.of_eq rfl rfl rfl rfl rfl h.self h.live h.context

theorem withSelf {p : Procedure} (hself : SealedProcedure holder saved resumer p) :
    Hidden holder saved resumer items { s with self := p } :=
  h.of_eq rfl rfl rfl rfl rfl hself h.live h.context

variable {n : ℕ}

theorem setArg (hvalue : Sealed holder saved resumer v) :
    Hidden holder saved resumer items (s.setArg n v) :=
  h.write hvalue

theorem push (hvalue : Sealed holder saved resumer v) :
    Hidden holder saved resumer items (s.push v) :=
  (h.write hvalue).withTop _

theorem drop (n : ℕ) : Hidden holder saved resumer items (s.drop n) :=
  h.withTop _

theorem skip (n : ℕ) : Hidden holder saved resumer items (s.skip n) :=
  h.withIp _

theorem withPairs (pairs : List PairObj)
    (hpairs : ∀ p ∈ pairs, Sealed holder saved resumer p.car ∧
      Sealed holder saved resumer p.cdr) :
    Hidden holder saved resumer items { s with pairs := pairs } :=
  { h with pairs := hpairs }

theorem cons {car cdr : Val} (hcar : Sealed holder saved resumer car)
    (hcdr : Sealed holder saved resumer cdr) :
    Hidden holder saved resumer items (s.cons car cdr).1 := by
  refine h.withPairs _ ?_
  intro p hp
  rcases mem_append.mp hp with hold | hnew
  · exact h.pairs p hold
  · rw [mem_singleton] at hnew
    subst hnew
    exact ⟨hcar, hcdr⟩

theorem withVectors (vectors : List VectorObj)
    (hholder : vectors[holder]? = some ⟨[.vector saved], false⟩)
    (hsaved : vectors[saved]? = some ⟨items, false⟩)
    (hvectors : ∀ a v, a ≠ holder → vectors[a]? = some v →
      ∀ x ∈ v.items, Sealed holder saved resumer x) :
    Hidden holder saved resumer items { s with vectors := vectors } :=
  { h with holderItems := hholder, savedItems := hsaved, vectors := hvectors }

variable {contents : List Val}

theorem makeVector (hcontents : ∀ x ∈ contents, Sealed holder saved resumer x) :
    Hidden holder saved resumer items (s.makeVector contents).1 := by
  refine h.withVectors _ ?_ ?_ ?_
  · rw [getElem?_append_left h.holder_lt]
    exact h.holderItems
  · rw [getElem?_append_left h.saved_lt]
    exact h.savedItems
  · intro a v ha hv x hx
    by_cases hlt : a < s.vectors.length
    · rw [getElem?_append_left hlt] at hv
      exact h.vectors a v ha hv x hx
    · rw [getElem?_append_right (by omega)] at hv
      have hv' := mem_of_getElem? hv
      rw [mem_singleton] at hv'
      subst hv'
      exact hcontents x hx

variable {a : ℕ}

theorem setVector {v : VectorObj} (hholder : a ≠ holder) (hsaved : a ≠ saved)
    (hitems : ∀ x ∈ v.items, Sealed holder saved resumer x) :
    Hidden holder saved resumer items { s with vectors := s.vectors.set a v } := by
  refine h.withVectors _ ?_ ?_ ?_
  · rw [getElem?_set_ne hholder]
    exact h.holderItems
  · rw [getElem?_set_ne hsaved]
    exact h.savedItems
  · intro b w hb hw x hx
    by_cases hab : a = b
    · subst hab
      rw [getElem?_set] at hw
      simp only [if_true] at hw
      split at hw
      · cases hw
        exact hitems x hx
      · cases hw
    · rw [getElem?_set_ne hab] at hw
      exact h.vectors b w hb hw x hx

omit h in
theorem foldl {α : Type} (body : State → α → State) (ks : List α)
    (hbody : ∀ t k, Hidden holder saved resumer items t → Hidden holder saved resumer items (body t k))
    (h : Hidden holder saved resumer items s) : Hidden holder saved resumer items (ks.foldl body s) := by
  induction ks generalizing s with
  | nil => exact h
  | cons k rest ih => exact ih (hbody s k h)

theorem vectorItems_sealed (ha : a ≠ holder) (hcontents : vectorItems s (.vector a) = some contents) :
    ∀ x ∈ contents, Sealed holder saved resumer x := by
  simp only [vectorItems, map_eq_some_iff] at hcontents
  obtain ⟨v, hv, rfl⟩ := hcontents
  exact h.vectors a v ha hv

theorem closureSlot_holder (hvars : s.self.vars = some holder) :
    closureSlot s 0 = some (.vector saved) := by
  simp [closureSlot, hvars, vectorItems, h.holderItems]

theorem vectorItems_saved : vectorItems s (.vector saved) = some items := by
  simp [vectorItems, h.savedItems]

theorem closureSlot_sealed (hvars : s.self.vars ≠ some holder) {k : ℕ}
    (hslot : closureSlot s k = some v) :
    Sealed holder saved resumer v := by
  simp only [closureSlot, bind_eq_bind, bind_eq_some_iff] at hslot
  obtain ⟨a, hself, vars, hvariables, hget⟩ := hslot
  have ha : a ≠ holder := by
    intro heq
    exact hvars (heq ▸ hself)
  exact h.vectorItems_sealed ha hvariables v (mem_of_getElem? hget)

/-! ## The stack object -/

variable {limit : Option ℕ}

theorem growStack {minSize : ℕ} (hgrow : growStack limit s minSize = some t) :
    Hidden holder saved resumer items t := by
  simp only [Vm.growStack] at hgrow
  split at hgrow
  · cases hgrow
  cases hgrow
  refine { h with
    stackObjs := fun k i => ?_
    live := Nat.lt_succ_of_lt h.live
    context := Nat.lt_succ_self _ }
  by_cases hk : k = s.stackCount
  · subst hk
    simp only [Function.update_self]
    split
    · exact h.stackObjs _ i
    · trivial
  · simpa [hk] using h.stackObjs k i

theorem ensureStack (hensure : ensureStack limit s n = some t) :
    Hidden holder saved resumer items t := by
  simp only [Vm.ensureStack] at hensure
  split at hensure
  · split at hensure
    · cases hensure
    · cases hensure
      have hgrown := (h.withContextTop s.top).growStack (by assumption)
      exact hgrown.of_eq rfl rfl rfl rfl rfl hgrown.self hgrown.context hgrown.context
  · cases hensure
    exact h

theorem restoreStack (hcontents : ∀ x ∈ contents, Sealed holder saved resumer x)
    (hrestore : restoreStack limit s contents = some t) : Hidden holder saved resumer items t := by
  simp only [Vm.restoreStack, bind_eq_bind, bind_eq_some_iff] at hrestore
  obtain ⟨grown, hgrown, hresult⟩ := hrestore
  have hhidden : Hidden holder saved resumer items grown := by
    split at hgrown
    · exact h.growStack hgrown
    · cases hgrown
      exact h
  cases hresult
  refine (hhidden.withContextTop contents.length).withStacks _ ?_
  intro k i
  by_cases hk : k = grown.contextStack
  · subst hk
    simp only [Function.update_self, copyOver, getD_eq_getElem?_getD]
    cases hget : contents[i]? with
    | none => exact hhidden.stackObjs _ i
    | some x => exact hcontents x (mem_of_getElem? hget)
  · simpa [hk] using hhidden.stackObjs k i

/-! ## Calls -/

theorem collectRest (i j : ℕ) : Hidden holder saved resumer items (collectRest s i j) := by
  have hfirst := (h.cons (h.slot (s.top - i - 1)) (show Sealed holder saved resumer (.imm .null) from trivial)).write
    (i := s.top - i - 1) (v := .pair s.pairs.length) trivial
  have hlist := hfirst.foldl (fun (t : State) (k : ℕ) =>
    (t.cons (t.slot (s.top - i - 1 + 1 + k)) (t.slot (s.top - i - 1))).1.write (s.top - i - 1)
      (t.cons (t.slot (s.top - i - 1 + 1 + k)) (t.slot (s.top - i - 1))).2) (List.range (j - 1))
    (fun t k ht => (ht.cons (ht.slot _) (ht.slot _)).write trivial)
  have hmoved := hlist.foldl (fun (t : State) (k : ℕ) =>
    t.write (s.top - i - 1 + 1 + k) (t.slot (s.top - i - 1 + j + k))) (List.range (i - j + 1))
    (fun t k ht => ht.write (ht.slot _))
  exact hmoved.drop (j - 1)

theorem shiftRest (i : ℕ) : Hidden holder saved resumer items (shiftRest s i) := by
  have hmoved := h.foldl (fun (t : State) (k : ℕ) => t.write (t.top - k) (t.slot (t.top - k - 1)))
    (List.range (i + 1)) (fun t k ht => ht.write (ht.slot _))
  exact (hmoved.write (show Sealed holder saved resumer (.imm .null) from trivial)).withTop _

theorem enterFrame {p : Procedure} (i returnIp : ℕ) (hp : SealedProcedure holder saved resumer p) :
    Hidden holder saved resumer items (enterFrame s p i returnIp) := by
  have hframe := (((h.setArg (n := 1) (v := .fixnum i) trivial).write (i := s.top)
    (v := .fixnum returnIp) trivial).write (i := s.top + 1) (v := .proc s.self) h.self).write
    (i := s.top + 2) (v := .fixnum s.fp) trivial
  exact hframe.of_eq rfl rfl rfl rfl rfl hp hframe.live hframe.context

theorem makeCall {callee : Val} {returnIp : ℕ} (hcallee : Sealed holder saved resumer callee)
    (hcall : makeCall limit s callee i returnIp = some t) :
    Hidden holder saved resumer items t := by
  simp only [Vm.makeCall, bind_eq_bind, bind_eq_some_iff] at hcall
  obtain ⟨p, hp, bc, hbc, hcall⟩ := hcall
  have hsealed : SealedProcedure holder saved resumer p := by
    cases callee with
    | proc q =>
      cases hp
      exact hcallee
    | _ => cases hp
  split at hcall
  · cases hcall
  rw [bind_eq_some_iff] at hcall
  obtain ⟨u, hu, hcall⟩ := hcall
  have hhidden := (h.withContextTop s.top).ensureStack hu
  split at hcall
  · split at hcall
    · split at hcall
      · cases hcall
        exact hhidden.enterFrame _ _ hsealed
      · cases hcall
        exact (hhidden.collectRest _ _).enterFrame _ _ hsealed
    · cases hcall
  · split at hcall
    · cases hcall
      exact (hhidden.shiftRest _).enterFrame _ _ hsealed
    · cases hcall
      exact hhidden.enterFrame _ _ hsealed

theorem asProcedure {p : Procedure} (hp : asProcedure (s.slot i) = some p) :
    SealedProcedure holder saved resumer p := by
  have hslot := h.slot i
  revert hp hslot
  cases s.slot i with
  | proc q =>
    intro hp hslot
    cases hp
    exact hslot
  | _ =>
    intro hp
    cases hp

theorem tailCall (hcall : tailCall limit s i = some t) : Hidden holder saved resumer items t := by
  simp only [Vm.tailCall, bind_eq_bind, bind_eq_some_iff] at hcall
  obtain ⟨previousFp, -, j, -, self, hself, returnIp, -, hcall⟩ := hcall
  have hmoved := (h.withSelf (h.asProcedure hself)).foldl (fun (t : State) (k : ℕ) =>
    t.write ((s.fp - j).toNat + k) (t.slot (t.top - 1 - i + k))) (List.range i)
    (fun t k ht => ht.write (ht.slot _))
  have hpushed := ((hmoved.withTop ((s.fp - j).toNat + i)).push (h.slot (s.top - 1))).withFp
    previousFp
  exact hpushed.makeCall (h.slot (s.top - 1)) hcall

theorem ret (hret : ret s = some t) : Hidden holder saved resumer items t := by
  simp only [Vm.ret, bind_eq_bind, bind_eq_some_iff] at hret
  obtain ⟨i, -, self, hself, returnIp, -, previousFp, -, hret⟩ := hret
  have hwritten := h.write (i := (s.fp - i).toNat) (h.slot (s.top - 1))
  cases hret
  exact hwritten.of_eq rfl rfl rfl rfl rfl (hwritten.asProcedure hself) hwritten.live
    hwritten.context

/-! ## Continuations -/

theorem callccFrame : Hidden holder saved resumer items (callccFrame s) := by
  have hframe := (((h.write (i := s.top) (v := .fixnum 1) trivial).write (i := s.top + 1)
    (v := .fixnum s.ip) trivial).write (i := s.top + 2) (v := .proc s.self) h.self).write
    (i := s.top + 3) (v := .fixnum s.fp) trivial
  exact hframe.withContextTop s.top

theorem capture : Hidden holder saved resumer items (capture s) := by
  have hholderLt := h.holder_lt
  have hsavedLt := h.saved_lt
  have hholder : Hidden holder saved resumer items (s.makeVector [.imm .undef]).1 :=
    h.makeVector (by simp [Sealed])
  have hsaved : Hidden holder saved resumer items
      (saveStack (s.makeVector [.imm .undef]).1 (s.top + 4)).1 := by
    refine hholder.makeVector ?_
    intro x hx
    obtain ⟨i, -, rfl⟩ := List.mem_map.mp hx
    exact hholder.slot i
  refine hsaved.setVector (Nat.ne_of_gt hholderLt) (Nat.ne_of_gt hsavedLt) ?_
  intro x hx
  rw [mem_singleton] at hx
  subst hx
  -- the new saved stack lies behind every vector there was
  have hlength : (s.makeVector [.imm .undef]).1.vectors.length = s.vectors.length + 1 := by
    simp [State.makeVector]
  constructor
  · simp only [State.makeVector] at hlength ⊢
    omega
  · simp only [State.makeVector] at hlength ⊢
    omega

theorem continuationOf_sealed : SealedProcedure holder saved resumer (continuationOf s) := by
  have hsavedLt := h.saved_lt
  constructor
  · intro heq
    cases heq
    omega
  · intro
    exact h.resumerId

theorem callcc (hcall : callcc limit s = some t) : Hidden holder saved resumer items t := by
  have hargument := (h.callccFrame.capture.setArg (n := 1) (v := .proc (continuationOf s))
    h.continuationOf_sealed).withTop (s.top + 1)
  exact hargument.makeCall (h.callccFrame.slot (s.top - 1)) hcall

theorem resumed_sealed {x : Val} (hslot : closureSlot s 0 = some x)
    (hcontents : vectorItems s x = some contents) :
    ∀ v ∈ contents, Sealed holder saved resumer v := by
  by_cases hvars : s.self.vars = some holder
  · rw [h.closureSlot_holder hvars] at hslot
    cases hslot
    have hdistinct : saved ≠ holder := by
      intro heq
      exact h.self.1 (hvars.trans (congrArg some heq.symm))
    exact h.vectorItems_sealed hdistinct hcontents
  · have hx := h.closureSlot_sealed hvars hslot
    cases x with
    | vector a => exact h.vectorItems_sealed hx.1 hcontents
    | _ => cases hcontents

theorem resumecc (hresume : resumecc limit s = some t) : Hidden holder saved resumer items t := by
  simp only [Vm.resumecc, bind_eq_bind, bind_eq_some_iff] at hresume
  obtain ⟨x, hslot, contents, hcontents, restored, hrestore, fp, -, self, hself, ip, -, hresult⟩ :=
    hresume
  have hcontext := h.withContextTop s.top
  have hrestored := (hcontext.restoreStack (hcontext.resumed_sealed hslot hcontents)
    hrestore).withTop restored.contextTop
  have hself' := hrestored.asProcedure hself
  cases hresult
  exact ((((hrestored.withSelf hself').withFp fp).withIp ip.toNat).withTop
    (restored.contextTop - 4)).setArg (h.slot _)

/-! ## Objects -/

theorem pairOf {x : Val} {p : PairObj} (hp : pairOf s x = some p) :
    Sealed holder saved resumer p.car ∧ Sealed holder saved resumer p.cdr := by
  cases x with
  | pair a => exact h.pairs p (mem_of_getElem? hp)
  | _ => cases hp

theorem setPair {p : PairObj} (hcar : Sealed holder saved resumer p.car)
    (hcdr : Sealed holder saved resumer p.cdr) :
    Hidden holder saved resumer items { s with pairs := s.pairs.set a p } := by
  refine h.withPairs _ ?_
  intro q hq
  rcases mem_or_eq_of_mem_set hq with hold | rfl
  · exact h.pairs q hold
  · exact ⟨hcar, hcdr⟩

theorem setCdr (hset : setCdr s = some t) : Hidden holder saved resumer items t := by
  simp only [Vm.setCdr] at hset
  split at hset
  · rename_i a ha
    split at hset
    · split at hset
      · cases hset
      · rename_i p hp himmutable
        cases hset
        have hpair := h.setPair (a := a) (p := { p with cdr := s.arg 2 })
          (h.pairs p (mem_of_getElem? hp)).1 (h.slot _)
        exact hpair.of_eq rfl rfl rfl rfl rfl h.self h.live h.context
    · cases hset
  · cases hset

theorem setCar (hset : setCar s = some t) : Hidden holder saved resumer items t := by
  simp only [Vm.setCar] at hset
  split at hset
  · rename_i a ha
    split at hset
    · split at hset
      · cases hset
      · rename_i p hp himmutable
        cases hset
        exact (h.setPair (a := a) (p := { p with car := s.arg 2 }) (h.slot _)
          (h.pairs p (mem_of_getElem? hp)).2).drop 2
    · cases hset
  · cases hset

theorem vectorArg (ha : s.arg n = .vector a) : a ≠ holder ∧ a ≠ saved := by
  have hslot := h.slot (s.top - n)
  rw [show s.slot (s.top - n) = .vector a from ha] at hslot
  exact hslot

theorem vectorRef (href : vectorRef s = some t) : Hidden holder saved resumer items t := by
  simp only [Vm.vectorRef] at href
  split at href
  · rename_i a i ha hi
    split at href
    · rename_i v hv
      split at href
      · cases href
      · obtain ⟨x, hx, rfl⟩ := map_eq_some_iff.mp href
        have hx' := h.vectors a v (h.vectorArg ha).1 hv x (mem_of_getElem? hx)
        exact (h.setArg hx').drop 1
    · cases href
  · cases href

theorem vectorSet (hset : vectorSet s = some t) : Hidden holder saved resumer items t := by
  simp only [Vm.vectorSet] at hset
  split at hset
  · rename_i a i ha hi
    split at hset
    · rename_i v hv
      split at hset
      · cases hset
      cases hset
      obtain ⟨hholder, hsaved⟩ := h.vectorArg ha
      refine (h.setVector hholder hsaved ?_).drop 3
      intro x hx
      rcases mem_or_eq_of_mem_set hx with hold | rfl
      · exact h.vectors a v hholder hv x hold
      · exact h.slot _
    · cases hset
  · cases hset

theorem makeVectorOp (hmake : makeVectorOp s = some t) : Hidden holder saved resumer items t := by
  simp only [Vm.makeVectorOp] at hmake
  split at hmake
  · split at hmake
    · cases hmake
    rename_i n hn hnonneg
    cases hmake
    have hholderLt := h.holder_lt
    have hsavedLt := h.saved_lt
    have hmade : Hidden holder saved resumer items
        (s.makeVector (List.replicate n.toNat (s.arg 2))).1 := by
      refine h.makeVector ?_
      intro x hx
      rw [eq_of_mem_replicate hx]
      exact h.slot _
    exact (hmade.setArg (n := 2) (v := .vector s.vectors.length)
      ⟨Nat.ne_of_gt hholderLt, Nat.ne_of_gt hsavedLt⟩).drop 1
  · cases hmake

theorem makeProcedure (flags numArgs : ℤ) (code : ℕ) :
    Sealed holder saved resumer (makeProcedure flags numArgs code (s.arg 1)) := by
  simp only [Vm.makeProcedure, Sealed, SealedProcedure]
  split
  · rename_i a ha
    obtain ⟨hholder, hsaved⟩ := h.vectorArg ha
    exact ⟨by simpa using hsaved, fun heq => absurd (some.inj heq) hholder⟩
  · exact ⟨by simp, by simp⟩

/-! ## The loop -/

/-- One instruction keeps the vectors hidden, given that its literals are sealed and that it is no
`CLOSURE_REF` of the holder. -/
theorem exec {i : Instr} (hliterals : ∀ v, .obj v ∈ i.words → Sealed holder saved resumer v)
    (hclosure : i.op = .closureRef → s.self.vars ≠ some holder) (hexec : exec limit i s = some t) :
    Hidden holder saved resumer items t := by
  simp only [Vm.exec] at hexec
  split at hexec
  case h_1 => cases hexec; exact h
  case h_2 => exact h.resumecc hexec
  case h_3 => exact h.callcc hexec
  case h_4 => exact h.tailCall hexec
  case h_5 => exact h.makeCall (h.slot _) hexec
  case h_6 =>
    split at hexec
    · cases hexec
      exact (h.drop 1).withIp _
    · cases hexec
      exact (h.drop 1).skip 1
  case h_7 => cases hexec; exact h.withIp _
  case h_8 v hop hwords =>
    cases hexec
    exact (h.push (hliterals v (by simp [hwords]))).skip 1
  case h_9 => cases hexec; exact h.drop 1
  case h_10 =>
    obtain ⟨p, hp, hexec⟩ := bind_eq_some_iff.mp hexec
    split at hexec
    · cases hexec
    · cases hexec
      exact (h.push (h.pairOf hp).2).skip 1
  case h_11 =>
    obtain ⟨p, hp, hexec⟩ := bind_eq_some_iff.mp hexec
    cases hexec
    exact (h.push (h.pairOf hp).2).skip 1
  case h_12 => cases hexec; exact (h.push (h.slot _)).skip 1
  case h_13 => cases hexec; exact (h.push (h.slot _)).skip 1
  case h_14 => cases hexec; exact ((h.drop 1).write (h.slot _)).skip 1
  case h_15 hop hwords =>
    obtain ⟨v, hv, rfl⟩ := map_eq_some_iff.mp hexec
    exact (h.push (h.closureSlot_sealed (hclosure hop) hv)).skip 1
  case h_16 => exact h.vectorRef hexec
  case h_17 => exact h.vectorSet hexec
  case h_18 => cases hexec; exact (h.setArg (h.makeProcedure _ _ _)).skip 3
  case h_19 => exact h.makeVectorOp hexec
  case h_20 =>
    obtain ⟨p, hp, rfl⟩ := map_eq_some_iff.mp hexec
    exact h.setArg (h.pairOf hp).1
  case h_21 =>
    obtain ⟨p, hp, rfl⟩ := map_eq_some_iff.mp hexec
    exact h.setArg (h.pairOf hp).2
  case h_22 => exact h.setCar hexec
  case h_23 => exact h.setCdr hexec
  case h_24 =>
    cases hexec
    exact ((h.cons (h.slot _) (h.slot _)).setArg (n := 2) (v := .pair s.pairs.length)
      trivial).drop 1
  case h_25 => exact h.ret hexec
  case h_26 => cases hexec

theorem step (hstep : step limit s = some t) : Hidden holder saved resumer items t := by
  simp only [Vm.step, currentInstr, bind_eq_bind, bind_eq_some_iff] at hstep
  obtain ⟨i, ⟨bc, hbc, hfetch⟩, hexec⟩ := hstep
  have hmem := fetch_mem hfetch
  refine (h.withIp (s.ip + 1)).exec (h.literals _ bc hbc i hmem) ?_ hexec
  -- the holder is the variables of the resumer only, and the resumer has no `CLOSURE_REF`
  intro hop hvars
  obtain ⟨depth, hcode⟩ := h.code
  rw [h.self.2 hvars, hcode] at hbc
  cases hbc
  simp only [resumerCode, mem_cons, not_mem_nil, or_false] at hmem
  rcases hmem with rfl | rfl
  · cases hop
  · cases hop

end Hidden

/-- One step of the whole system: a turn of the modelled loop, or anything else that the
interpreter does in between (primitives, foreign calls, error handlers, other threads). -/
def SystemStep (limit : Option ℕ) (other : State → State → Prop) (s t : State) : Prop :=
  step limit s = some t ∨ other s t

/-- What is relied on for the parts of the interpreter that are not modelled: they do not look
into the variables of a procedure, so hidden vectors stay hidden. -/
def RespectsHidden (other : State → State → Prop) : Prop :=
  ∀ holder saved resumer items s t, Hidden holder saved resumer items s → other s t →
    Hidden holder saved resumer items t

theorem Hidden.run {holder saved resumer : ℕ} {items : List Val} {limit : Option ℕ}
    {other : State → State → Prop} (hother : RespectsHidden other) {s t : State}
    (h : Hidden holder saved resumer items s)
    (hrun : ReflTransGen (SystemStep limit other) s t) : Hidden holder saved resumer items t := by
  induction hrun with
  | refl => exact h
  | tail _ hstep ih =>
    rcases hstep with hstep | hstep
    · exact ih.step hstep
    · exact hother _ _ _ _ _ _ ih hstep

end ChibiScheme.Vm
