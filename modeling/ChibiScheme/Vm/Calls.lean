import ChibiScheme.Vm.Machine

/-!
# Calls, tail calls and `apply`

What lies on the stack when a body is entered, by whichever of the three ways, and what a return
leaves of it.  The arguments lie below the procedure, the last one lowest; the four words of the
frame take the place of the procedure and the slots above it.  A rest parameter that is not read has
no slot if there are no arguments for it; the code of a body that assigns it stores there all the same,
into a slot of the caller.
-/

namespace ChibiScheme.Vm

/-- The list that `SEXP_OP_APPLY1` takes apart; there is none if it is circular or improper. -/
def listItems (s : State) : ℕ → Val → Option (List Val)
  | _, .imm .null => some []
  | fuel + 1, .pair a => do
    let p ← s.pairs[a]?
    (listItems s fuel p.cdr).map (p.car :: ·)
  | _, _ => none

/-- `SEXP_OP_APPLY1`: the items of the list replace the frame. -/
def apply1 (limit : Option ℕ) (s : State) : Option State := do
  let callee := s.arg 1
  let args ← listItems s (s.pairs.length + 1) (s.arg 2)
  let i := args.length
  let p ← asProcedure callee
  let bc ← s.bytecodes p.code
  let s ← ensureStack limit s (i + 64 + bc.maxDepth)
  let previousFp ← unboxFixnum (s.slot (s.fp + 3).toNat)
  let j ← unboxFixnum (s.slot s.fp.toNat)
  let self ← asProcedure (s.slot (s.fp + 2).toNat)
  let returnIp ← unboxFixnum (s.slot (s.fp + 1).toNat)
  let s := { s with self := self }
  let base := (s.fp - j).toNat
  let s := (List.range i).foldl (fun s k => s.write (base + i - 1 - k) (args.getD k (.imm .void))) s
  let s := { s with top := base + i }
  let s := { s.push callee with fp := previousFp }
  makeCall limit s callee i returnIp.toNat

/-! ## Slots -/

variable {s t u : State} {xs ys args : List Val} {base : ℕ} {limit : Option ℕ} {p : Procedure}

theorem State.slot_write (s : State) (i x : ℕ) (v : Val) :
    (s.write i v).slot x = if x = i then v else s.slot x := by
  simp [State.slot, State.write, Function.update_apply]

@[simp] theorem State.top_write (s : State) (i : ℕ) (v : Val) : (s.write i v).top = s.top := rfl

theorem State.length_pairs_cons (s : State) (x v : Val) :
    (s.cons x v).1.pairs.length = s.pairs.length + 1 := List.length_append

/-- The slots from `base` on hold these values. -/
def Holds (s : State) (base : ℕ) (xs : List Val) : Prop :=
  ∀ k (h : k < xs.length), s.slot (base + k) = xs[k]

theorem Holds.agree (h : Holds s base xs)
    (hslots : ∀ k, base ≤ k → k < base + xs.length → t.slot k = s.slot k) : Holds t base xs := by
  intro k hk
  rw [hslots _ (by omega) (by omega)]
  exact h k hk

theorem holds_append : Holds s base (xs ++ ys) ↔
    Holds s base xs ∧ Holds s (base + xs.length) ys := by
  constructor
  · intro h
    constructor
    · intro k hk
      rw [h k (by rw [List.length_append]; omega), List.getElem_append_left hk]
    · intro k hk
      rw [Nat.add_assoc, h (xs.length + k) (by rw [List.length_append]; omega),
        List.getElem_append_right (Nat.le_add_right _ _)]
      simp
  · rintro ⟨hxs, hys⟩ k hk
    by_cases hleft : k < xs.length
    · rw [List.getElem_append_left hleft]
      exact hxs k hleft
    · rw [List.getElem_append_right (Nat.le_of_not_lt hleft)]
      rw [List.length_append] at hk
      rw [← hys (k - xs.length) (by omega)]
      congr 1
      omega

theorem holds_cons {x : Val} : Holds s base (x :: xs) ↔ s.slot base = x ∧ Holds s (base + 1) xs := by
  have happend := @holds_append s [x] xs base
  rw [List.singleton_append] at happend
  rw [happend]
  refine and_congr_left fun _ => ⟨fun h => h 0 Nat.one_pos, ?_⟩
  intro h k hk
  obtain rfl := Nat.lt_one_iff.mp hk
  exact h

/-- The states differ in their slots and stack objects only. -/
def SameBut (s t : State) : Prop :=
  t.pairs = s.pairs ∧ t.top = s.top ∧ t.fp = s.fp ∧ t.self = s.self ∧ t.bytecodes = s.bytecodes ∧
    t.contextStack = s.contextStack ∧ t.stack = s.stack

/-- A loop that stores values in different slots, none of which depends on an earlier store. -/
theorem foldl_write {n : ℕ} (body : State → ℕ → State) (dst : ℕ → ℕ) (val : ℕ → Val) (s : State)
    (hdst : ∀ k k', k < k' → k' < n → dst k ≠ dst k')
    (hbody : ∀ t k, k < n → SameBut s t → (∀ x, (∀ k' < k, x ≠ dst k') → t.slot x = s.slot x) →
      body t k = t.write (dst k) (val k)) :
    SameBut s ((List.range n).foldl body s) ∧
      (∀ k < n, ((List.range n).foldl body s).slot (dst k) = val k) ∧
      ∀ x, (∀ k < n, x ≠ dst k) → ((List.range n).foldl body s).slot x = s.slot x := by
  induction n with
  | zero =>
    exact ⟨⟨rfl, rfl, rfl, rfl, rfl, rfl, rfl⟩, fun _ h => absurd h (Nat.not_lt_zero _), fun _ _ => rfl⟩
  | succ n ih =>
    obtain ⟨hsame, hstored, hkept⟩ := ih (fun k k' hlt hle => hdst k k' hlt (by omega))
      fun t k hk => hbody t k (by omega)
    rw [List.range_succ, List.foldl_append, List.foldl_cons, List.foldl_nil,
      hbody _ n (Nat.lt_succ_self n) hsame hkept]
    refine ⟨hsame, ?_, ?_⟩
    · intro k hk
      rw [State.slot_write]
      by_cases heq : k = n
      · rw [heq, if_pos rfl]
      · rw [if_neg (hdst k n (by omega) (Nat.lt_succ_self n)), hstored k (by omega)]
    · intro x hx
      rw [State.slot_write, if_neg (hx n (Nat.lt_succ_self n))]
      exact hkept x fun k hk => hx k (by omega)

/-! ## Rest lists -/

/-- A list of these items whose pairs are mutable and at addresses from `fresh` on. -/
def ListOf (pairs : List PairObj) (fresh : ℕ) : Val → List Val → Prop
  | v, [] => v = .imm .null
  | v, x :: xs => ∃ a d, v = .pair a ∧ fresh ≤ a ∧ pairs[a]? = some ⟨x, d, false⟩ ∧
      ListOf pairs fresh d xs

theorem ListOf.append {pairs : List PairObj} {fresh : ℕ} {v : Val} (h : ListOf pairs fresh v xs)
    (more : List PairObj) : ListOf (pairs ++ more) fresh v xs := by
  induction xs generalizing v with
  | nil => exact h
  | cons x xs ih =>
    obtain ⟨a, d, hv, ha, hpair, hrest⟩ := h
    have hlt := (List.getElem?_eq_some_iff.mp hpair).1
    exact ⟨a, d, hv, ha, (List.getElem?_append_left hlt).trans hpair, ih hrest⟩

theorem ListOf.cons {fresh : ℕ} {v : Val} (h : ListOf s.pairs fresh v xs)
    (hfresh : fresh ≤ s.pairs.length) (x : Val) :
    ListOf (s.cons x v).1.pairs fresh (s.cons x v).2 (x :: xs) :=
  ⟨_, v, rfl, hfresh, List.getElem?_concat_length, h.append _⟩

/-- In `t` the values lie at the top of the stack, above what lies there in `s`. -/
structure Ready (s : State) (base : ℕ) (xs : List Val) (t : State) : Prop where
  holds : Holds t base xs
  top : t.top = base + xs.length
  below : ∀ k < base, t.slot k = s.slot k
  fp : t.fp = s.fp
  self : t.self = s.self
  stack : t.contextStack = t.stack

/-- After each round the lowest slot holds the list of the arguments that were collected. -/
theorem collectRest_loop {start : State} {fresh : ℕ} {x : Val} (hholds : Holds s base (x :: xs))
    (hstart : start = ((s.cons x (.imm .null)).1.write base (s.cons x (.imm .null)).2))
    (hfresh : fresh = s.pairs.length) (n : ℕ) (hn : n ≤ xs.length) :
    let t := (List.range n).foldl (fun s k =>
      let (s, p) := s.cons (s.slot (base + 1 + k)) (s.slot base)
      s.write base p) start
    (t.top = s.top ∧ t.fp = s.fp ∧ t.self = s.self ∧ t.contextStack = s.contextStack ∧
      t.stack = s.stack) ∧ fresh ≤ t.pairs.length ∧
      (∀ k, k ≠ base → t.slot k = s.slot k) ∧
      ListOf t.pairs fresh (t.slot base) ((x :: xs).take (n + 1)).reverse := by
  induction n with
  | zero =>
    subst hstart hfresh
    refine ⟨⟨rfl, rfl, rfl, rfl, rfl⟩, ?_, ?_, ?_⟩
    · exact (Nat.le_succ _).trans_eq (s.length_pairs_cons x _).symm
    · intro k hk
      exact (State.slot_write _ base k _).trans (if_neg hk)
    · have hnil : ListOf s.pairs s.pairs.length (.imm .null) [] := rfl
      simp only [List.range_zero, List.foldl_nil, State.slot_write, if_pos]
      exact hnil.cons le_rfl x
  | succ n ih =>
    obtain ⟨hsame, hle, hkept, hlist⟩ := ih (by omega)
    simp only [List.range_succ, List.foldl_append, List.foldl_cons, List.foldl_nil]
    generalize (List.range n).foldl _ start = t at *
    have hnext : t.slot (base + 1 + n) = xs[n] := by
      rw [hkept _ (by omega)]
      exact (holds_cons.mp hholds).2 n hn
    refine ⟨hsame, ?_, ?_, ?_⟩
    · exact hle.trans ((Nat.le_succ _).trans_eq (t.length_pairs_cons _ _).symm)
    · intro k hk
      exact ((State.slot_write _ base k _).trans (if_neg hk)).trans (hkept k hk)
    · rw [State.slot_write, if_pos rfl, hnext, List.take_succ_cons, List.take_add_one,
        List.getElem?_eq_getElem hn, Option.toList_some, ← List.cons_append, List.reverse_concat,
        ← List.take_succ_cons]
      exact hlist.cons hle xs[n]

/-- The loop makes a list of the rest arguments. -/
theorem collectRest_spec {x : Val} {i : ℕ} (h : Ready s base ((x :: xs) ++ ys) t)
    (hi : i + 1 = xs.length + 1 + ys.length) (hys : 0 < ys.length) :
    ∃ rest, Ready s base (rest :: ys) (collectRest t i (xs.length + 1)) ∧
      ListOf (collectRest t i (xs.length + 1)).pairs t.pairs.length rest (x :: xs).reverse := by
  have htop := h.top
  rw [List.length_append, List.length_cons] at htop
  have hbase : t.top - i - 1 = base := by omega
  obtain ⟨hcells, hitems⟩ := holds_append.mp h.holds
  obtain rfl : t.slot base = x := (holds_cons.mp hcells).1
  obtain ⟨hsame, -, hkept, hlist⟩ := collectRest_loop hcells rfl rfl xs.length le_rfl
  simp only [collectRest, hbase, Nat.add_sub_cancel]
  generalize (List.range xs.length).foldl _ _ = c at *
  have hn : i - (xs.length + 1) + 1 = ys.length := by omega
  rw [hn]
  -- The slots above are moved down; each is read before it is written.
  obtain ⟨hmoved, hstored, hrest⟩ := foldl_write (n := ys.length)
    (fun s k => s.write (base + 1 + k) (s.slot (base + (xs.length + 1) + k)))
    (fun k => base + 1 + k) (fun k => c.slot (base + (xs.length + 1) + k)) c
    (fun k k' _ _ => by omega) fun t' k hk _ hslots => by
      rw [hslots _ fun k' hk' => by omega]
  generalize (List.range ys.length).foldl _ c = d at *
  have hdrop : ∀ n k, (d.drop n).slot k = d.slot k := fun _ _ => rfl
  have hlow : ∀ k, k ≤ base → d.slot k = c.slot k := fun k hk => hrest k fun _ _ => by omega
  refine ⟨c.slot base, ⟨?_, ?_, ?_, ?_, ?_, ?_⟩, ?_⟩
  · refine holds_cons.mpr ⟨hlow base le_rfl, fun k hk => ?_⟩
    rw [hdrop, hstored k hk, hkept _ (by omega)]
    exact hitems k hk
  · show d.top - xs.length = _
    rw [hmoved.2.1, hsame.1, List.length_cons]
    omega
  · intro k hk
    rw [hdrop, hlow k hk.le, hkept k hk.ne]
    exact h.below k hk
  · exact (hmoved.2.2.1.trans hsame.2.1).trans h.fp
  · exact (hmoved.2.2.2.1.trans hsame.2.2.1).trans h.self
  · show d.contextStack = d.stack
    rw [hmoved.2.2.2.2.2.1, hmoved.2.2.2.2.2.2, hsame.2.2.2.1, hsame.2.2.2.2, h.stack]
  · rw [List.take_of_length_le (by simp)] at hlist
    exact hmoved.1 ▸ hlist

/-- The arguments move up for an empty rest. -/
theorem shiftRest_spec {i : ℕ} (h : Ready s base xs t) (hi : xs.length = i + 1) :
    Ready s base (.imm .null :: xs) (shiftRest t i) ∧ (shiftRest t i).pairs = t.pairs := by
  have htop := h.top
  obtain ⟨hmoved, hstored, hrest⟩ := foldl_write (n := i + 1)
    (fun s k => s.write (s.top - k) (s.slot (s.top - k - 1)))
    (fun k => t.top - k) (fun k => t.slot (t.top - k - 1)) t
    (fun k k' _ _ => by omega) fun t' k hk hsame hslots => by
      rw [hsame.2.1, hslots _ fun k' hk' => by omega]
  have hslot : ∀ k, (shiftRest t i).slot k = if k = base then .imm .null
      else ((List.range (i + 1)).foldl (fun s k => s.write (s.top - k) (s.slot (s.top - k - 1)))
        t).slot k := by
    intro k
    simp only [shiftRest, hmoved.2.1]
    rw [show t.top - i - 1 = base by omega]
    exact State.slot_write _ base k _
  refine ⟨⟨?_, ?_, ?_, ?_, ?_, ?_⟩, hmoved.1⟩
  · refine holds_cons.mpr ⟨(hslot base).trans (if_pos rfl), fun k hk => ?_⟩
    have hdst := hstored (i - k) (by omega)
    rw [show t.top - (i - k) = base + 1 + k by omega,
      show base + 1 + k - 1 = base + k by omega] at hdst
    rw [hslot, if_neg (by omega), hdst]
    exact h.holds k hk
  · show ((List.range (i + 1)).foldl _ t).top + 1 = _
    rw [hmoved.2.1, List.length_cons]
    omega
  · intro k hk
    rw [hslot, if_neg (by omega), hrest k fun k' hk' => by omega]
    exact h.below k hk
  · exact hmoved.2.2.1.trans h.fp
  · exact hmoved.2.2.2.1.trans h.self
  · exact hmoved.2.2.2.2.2.1.trans (h.stack.trans hmoved.2.2.2.2.2.2.symm)

/-! ## Frames -/

/-- `t` runs in a frame over the slots of `c`, to which it returns at `ip`. -/
structure Frame (c : State) (ip base : ℕ) (actuals : List Val) (t : State) : Prop where
  fp : t.fp = base + actuals.length
  holds : Holds t base (actuals.reverse ++
    [.fixnum actuals.length, .fixnum ip, .proc c.self, .fixnum c.fp])
  below : ∀ k < base, t.slot k = c.slot k
  stack : t.contextStack = t.stack

/-- What a body is entered with: the arguments, or the fixed ones and a new list of the others. -/
def Actuals (p : Procedure) (args : List Val) (pairs : List PairObj) (fresh : ℕ)
    (actuals : List Val) : Prop :=
  if p.variadic && !p.unusedRest then
    ∃ rest, actuals = args.take p.numArgs ++ [rest] ∧ ListOf pairs fresh rest (args.drop p.numArgs)
  else actuals = args

/-- The body of `p` is entered. -/
def BodyEntered (c : State) (ip base : ℕ) (p : Procedure) (args : List Val) (fresh : ℕ) (t : State) :
    Prop :=
  t.self = p ∧ t.ip = 0 ∧ ∃ actuals, Actuals p args t.pairs fresh actuals ∧
    Frame c ip base actuals t ∧ t.top = base + actuals.length + 4

/-- The frame of a call. -/
theorem enterFrame_spec {ip : ℕ} {actuals : List Val} {callee : Val}
    (h : Ready s base (actuals.reverse ++ [callee]) t) :
    Frame s ip base actuals (enterFrame t p actuals.length ip) ∧
      (enterFrame t p actuals.length ip).top = base + actuals.length + 4 := by
  have htop := h.top
  rw [List.length_append, List.length_reverse, List.length_singleton] at htop
  have htop' : t.top = base + actuals.length + 1 := htop
  have hslot : ∀ k, (enterFrame t p actuals.length ip).slot k =
      if k = base + actuals.length + 3 then .fixnum t.fp
      else if k = base + actuals.length + 2 then .proc t.self
      else if k = base + actuals.length + 1 then .fixnum ip
      else if k = base + actuals.length then .fixnum actuals.length else t.slot k := by
    intro k
    have hchain : (enterFrame t p actuals.length ip).slot k =
        ((((t.write (base + actuals.length) (.fixnum actuals.length)).write
          (base + actuals.length + 1) (.fixnum ip)).write (base + actuals.length + 2)
          (.proc t.self)).write (base + actuals.length + 3) (.fixnum t.fp)).slot k := by
      unfold enterFrame State.setArg
      simp only [State.top_write, htop']
      rfl
    rw [hchain, State.slot_write, State.slot_write, State.slot_write, State.slot_write]
  refine ⟨⟨?_, holds_append.mpr ⟨?_, ?_⟩, ?_, h.stack⟩, ?_⟩
  · show (t.top : ℤ) - 1 = _
    omega
  · refine (holds_append.mp h.holds).1.agree fun k hle hlt => ?_
    rw [List.length_reverse] at hlt
    rw [hslot]
    simp only [show k ≠ base + actuals.length + 3 by omega, show k ≠ base + actuals.length + 2 by omega,
      show k ≠ base + actuals.length + 1 by omega, show k ≠ base + actuals.length by omega, if_false]
  · rw [List.length_reverse, ← h.fp, ← h.self]
    simp only [holds_cons, hslot]
    refine ⟨?_, ?_, ?_, ?_, fun k hk => absurd hk (Nat.not_lt_zero _)⟩ <;> simp
  · intro k hk
    rw [hslot, ← h.below k hk]
    simp only [show k ≠ base + actuals.length + 3 by omega, show k ≠ base + actuals.length + 2 by omega,
      show k ≠ base + actuals.length + 1 by omega, show k ≠ base + actuals.length by omega, if_false]
  · show t.top + 3 = _
    omega

theorem ensureStack_ready {n : ℕ} (h : Ready s base xs t) (hensure : ensureStack limit t n = some u) :
    Ready s base xs u ∧ u.pairs = t.pairs ∧ u.bytecodes = t.bytecodes := by
  unfold ensureStack at hensure
  split at hensure
  · simp only [growStack] at hensure
    split at hensure
    · cases hensure
    rename_i grown hgrown
    cases hensure
    split at hgrown
    · cases hgrown
    rename_i newSize hsize
    cases hgrown
    have hslot : ∀ k, k ≤ t.top + 1 → (Function.update t.stackObjs t.stackCount
        ⟨newSize, fun i => if i ≤ t.top + 1 then (t.stackObjs t.contextStack).data i
          else .imm .void⟩ t.stackCount).data k = t.slot k := by
      intro k hk
      rw [Function.update_self, h.stack]
      exact if_pos hk
    have htop := h.top
    refine ⟨⟨h.holds.agree fun k _ _ => hslot k (by omega), h.top, ?_, h.fp, h.self, rfl⟩,
      rfl, rfl⟩
    intro k hk
    exact (hslot k (by omega)).trans (h.below k hk)
  · cases hensure
    exact ⟨h, rfl, rfl⟩

theorem ensureStack_none (t : State) (n : ℕ) : ensureStack none t n ≠ none := by
  unfold ensureStack
  split <;> simp [growStack, grownSize]

/-- The procedure takes this many arguments. -/
def ArityOk (p : Procedure) (n : ℕ) : Prop := p.numArgs ≤ n ∧ (n ≤ p.numArgs ∨ p.variadic)

instance (p : Procedure) (n : ℕ) : Decidable (ArityOk p n) := inferInstanceAs (Decidable (_ ∧ _))

theorem makeCall_ne_none {n ip : ℕ} (hbc : (t.bytecodes p.code).isSome) (harity : ArityOk p n) :
    makeCall none t (.proc p) n ip ≠ none := by
  obtain ⟨bc, hbc⟩ := Option.isSome_iff_exists.mp hbc
  intro hnone
  simp only [makeCall, asProcedure, hbc, Option.bind_eq_bind, Option.bind_some,
    if_neg (Nat.not_lt.mpr harity.1)] at hnone
  cases hensure : ensureStack none { t with contextTop := t.top } (bc.maxDepth + 64) with
  | none => exact ensureStack_none _ _ hensure
  | some e =>
    rw [hensure, Option.bind_some] at hnone
    split at hnone
    · rw [if_pos (harity.2.resolve_left (by omega))] at hnone
      split at hnone <;> cases hnone
    · split at hnone <;> cases hnone

/-- A call enters the body with its arguments, defaults and rest. -/
theorem makeCall_spec (ip : ℕ) (h : Ready s base (args.reverse ++ [.proc p]) t)
    (hcall : makeCall limit t (.proc p) args.length ip = some u) :
    ArityOk p args.length ∧ BodyEntered s ip base p args t.pairs.length u := by
  obtain ⟨bc, hbc, hcall⟩ := Option.bind_eq_some_iff.mp hcall
  split at hcall
  · cases hcall
  rename_i hargs
  obtain ⟨e, hensure, hcall⟩ := Option.bind_eq_some_iff.mp hcall
  have htop : Ready s base (args.reverse ++ [.proc p]) { t with contextTop := t.top } :=
    ⟨h.holds, h.top, h.below, h.fp, h.self, h.stack⟩
  obtain ⟨hready, hpairs, -⟩ := ensureStack_ready htop hensure
  have hpairs' : e.pairs = t.pairs := hpairs
  simp only at hcall
  split at hcall
  · -- more arguments than parameters: only a variadic procedure takes them
    rename_i hextra
    split at hcall
    · rename_i hvariadic
      refine ⟨⟨Nat.le_of_not_lt hargs, .inr hvariadic⟩, ?_⟩
      split at hcall
      · -- the rest list is made, which moves the arguments
        rename_i hunused
        cases hcall
        exact ⟨rfl, rfl, args, by simp [Actuals, hunused], enterFrame_spec hready⟩
      · rename_i hunused
        have hsplit : args.reverse =
            (args.drop p.numArgs).reverse ++ (args.take p.numArgs).reverse := by
          rw [← List.reverse_append, List.take_append_drop]
        have hlength : (args.drop p.numArgs).reverse.length = args.length - p.numArgs := by simp
        rw [hsplit, List.append_assoc] at hready
        cases hcells : (args.drop p.numArgs).reverse with
        | nil =>
          rw [hcells, List.length_nil] at hlength
          omega
        | cons x xs =>
          rw [hcells, List.length_cons] at hlength
          rw [hcells] at hready
          have hfixed : (args.take p.numArgs).length = p.numArgs :=
            List.length_take_of_le (Nat.le_of_not_lt hargs)
          obtain ⟨rest, hcollected, hlist⟩ := collectRest_spec (i := args.length) hready
            (by simp only [List.length_append, List.length_reverse, List.length_singleton]; omega)
            (by simp)
          rw [hlength] at hcollected hlist
          rw [← hcells, List.reverse_reverse, hpairs'] at hlist
          cases hcall
          refine ⟨rfl, rfl, args.take p.numArgs ++ [rest], ?_, ?_⟩
          · rw [Actuals, if_pos (by simp [hvariadic, hunused])]
            exact ⟨rest, rfl, hlist⟩
          · have hactuals : args.length - (args.length - p.numArgs - 1) =
                (args.take p.numArgs ++ [rest]).length := by
              rw [List.length_append, hfixed, List.length_singleton]
              omega
            rw [hactuals]
            apply enterFrame_spec
            rw [List.reverse_concat]
            exact hcollected
    · cases hcall
  · rename_i hextra
    have harity : args.length = p.numArgs := by omega
    refine ⟨⟨harity.ge, .inl harity.le⟩, ?_⟩
    split at hcall
    · rename_i hused
      obtain ⟨hshifted, hkept⟩ := shiftRest_spec (i := args.length) hready (by simp)
      cases hcall
      refine ⟨rfl, rfl, args ++ [.imm .null], ?_, ?_⟩
      · rw [Actuals, if_pos hused, ← harity, List.take_length, List.drop_length]
        exact ⟨_, rfl, rfl⟩
      · have hlength : args.length + 1 = (args ++ [Val.imm .null]).length := by simp
        rw [hlength]
        apply enterFrame_spec
        rw [List.reverse_concat]
        exact hshifted
    · rename_i hunused
      cases hcall
      exact ⟨rfl, rfl, args, by rw [Actuals, if_neg hunused], enterFrame_spec hready⟩

/-! ## Replacing and leaving a frame -/

variable {c : State} {ip : ℕ} {old : List Val}

theorem Frame.words (h : Frame c ip base old t) :
    t.slot t.fp.toNat = .fixnum old.length ∧ t.slot (t.fp + 1).toNat = .fixnum ip ∧
      t.slot (t.fp + 2).toNat = .proc c.self ∧ t.slot (t.fp + 3).toNat = .fixnum c.fp := by
  have hwords := (holds_append.mp h.holds).2
  rw [List.length_reverse] at hwords
  simp only [holds_cons] at hwords
  have hindex : ∀ n : ℕ, (t.fp + n).toNat = base + old.length + n := by
    intro n
    rw [h.fp]
    omega
  refine ⟨?_, ?_, ?_, ?_⟩
  · rw [h.fp]
    exact hwords.1
  · exact (congrArg t.slot (hindex 1)).trans hwords.2.1
  · exact (congrArg t.slot (hindex 2)).trans hwords.2.2.1
  · exact (congrArg t.slot (hindex 3)).trans hwords.2.2.2.1

/-- The arguments are at the bottom of the frame, and the procedure is pushed. -/
theorem ready_replaced (args : List Val) (callee : Val) (hargs : Holds t base args.reverse)
    (hbelow : ∀ k < base, t.slot k = c.slot k) (hself : t.self = c.self)
    (hstack : t.contextStack = t.stack) :
    Ready c base (args.reverse ++ [callee])
      { ({ t with top := base + args.length } : State).push callee with fp := c.fp } := by
  have hslot : ∀ k, (({ t with top := base + args.length } : State).push callee).slot k =
      if k = base + args.length then callee else t.slot k :=
    fun k => State.slot_write { t with top := base + args.length } _ k callee
  refine ⟨holds_append.mpr ⟨?_, ?_⟩, ?_, ?_, rfl, hself, hstack⟩
  · refine hargs.agree fun k _ hk => (hslot k).trans (if_neg ?_)
    rw [List.length_reverse] at hk
    omega
  · rw [List.length_reverse, holds_cons]
    exact ⟨(hslot _).trans (if_pos rfl), fun k hk => absurd hk (Nat.not_lt_zero _)⟩
  · show base + args.length + 1 = _
    rw [List.length_append, List.length_reverse]
    rfl
  · intro k hk
    exact ((hslot k).trans (if_neg (by omega))).trans (hbelow k hk)

/-- A tail call is a call from the frame's place. -/
theorem tailCall_spec {high : ℕ} (hframe : Frame c ip base old t)
    (hargs : Ready t high (args.reverse ++ [.proc p]) t) (hhigh : base + old.length + 4 ≤ high) :
    ∃ s, Ready c base (args.reverse ++ [.proc p]) s ∧ s.pairs = t.pairs ∧
      s.bytecodes = t.bytecodes ∧
      tailCall limit t args.length = makeCall limit s (.proc p) args.length ip := by
  obtain ⟨hcount, hip, hself, hfp⟩ := hframe.words
  obtain ⟨hvalues, hcallee⟩ := holds_append.mp hargs.holds
  have htop := hargs.top
  rw [List.length_append, List.length_reverse, List.length_singleton] at htop
  have hcallee' : t.arg 1 = .proc p := by
    rw [List.length_reverse, holds_cons] at hcallee
    rw [State.arg, show t.top - 1 = high + args.length by omega]
    exact hcallee.1
  have hbase : (t.fp - old.length).toNat = base := by
    rw [hframe.fp]
    omega
  obtain ⟨hmoved, hstored, hkept⟩ := foldl_write (n := args.length)
    (fun s k => s.write (base + k) (s.slot (s.top - 1 - args.length + k)))
    (fun k => base + k) (fun k => t.slot (high + k)) { t with self := c.self }
    (fun k k' _ _ => by omega) fun t' k hk hsame hslots => by
      have htop' : t'.top - 1 - args.length = high := by
        rw [hsame.2.1]
        show t.top - 1 - args.length = high
        omega
      rw [htop', hslots _ fun k' hk' => by omega]
      rfl
  refine ⟨_, ready_replaced args (.proc p) ?_ ?_ hmoved.2.2.2.1 ?_, hmoved.1,
    hmoved.2.2.2.2.1, ?_⟩
  · intro k hk
    rw [hstored k (by simpa using hk)]
    exact hvalues k hk
  · intro k hk
    exact (hkept k fun _ _ => by omega).trans (hframe.below k hk)
  · exact hmoved.2.2.2.2.2.1.trans (hframe.stack.trans hmoved.2.2.2.2.2.2.symm)
  · simp only [tailCall, hcallee', hcount, hip, hself, hfp, unboxFixnum, asProcedure, hbase,
      Option.bind_eq_bind, Option.bind_some, Int.toNat_natCast]

/-- `apply` is a call with the elements of its list. -/
theorem apply1_spec (hframe : Frame c ip base old t) (htop : base + old.length + 4 ≤ t.top)
    (hcallee : t.arg 1 = .proc p) (hlist : listItems t (t.pairs.length + 1) (t.arg 2) = some args)
    (hbc : (t.bytecodes p.code).isSome) : apply1 limit t = none ∧ limit ≠ none ∨
      ∃ s, Ready c base (args.reverse ++ [.proc p]) s ∧ s.pairs = t.pairs ∧
        s.bytecodes = t.bytecodes ∧
        apply1 limit t = makeCall limit s (.proc p) args.length ip := by
  obtain ⟨bc, hbc⟩ := Option.isSome_iff_exists.mp hbc
  cases hensure : ensureStack limit t (args.length + 64 + bc.maxDepth) with
  | none =>
    refine .inl ⟨?_, fun hlimit => ensureStack_none t _ (hlimit ▸ hensure)⟩
    simp only [apply1, hcallee, hlist, asProcedure, hbc, hensure, Option.bind_eq_bind,
      Option.bind_some, Option.bind_none]
  | some e =>
    have hall : Ready t t.top [] t :=
      ⟨fun k hk => absurd hk (Nat.not_lt_zero _), rfl, fun _ _ => rfl, rfl, rfl, hframe.stack⟩
    obtain ⟨hkept, hpairs, hbytecodes⟩ := ensureStack_ready hall hensure
    have hframe' : Frame c ip base old e := by
      refine ⟨hkept.fp.trans hframe.fp, hframe.holds.agree fun k _ hk => hkept.below k ?_, ?_,
        hkept.stack⟩
      · simp only [List.length_append, List.length_reverse, List.length_cons, List.length_nil] at hk
        omega
      · intro k hk
        rw [hkept.below k (by omega)]
        exact hframe.below k hk
    obtain ⟨hcount, hip, hself, hfp⟩ := hframe'.words
    have hbase : (e.fp - old.length).toNat = base := by
      rw [hframe'.fp]
      omega
    obtain ⟨hmoved, hstored, hrest⟩ := foldl_write (n := args.length)
      (fun s k => s.write (base + args.length - 1 - k) (args.getD k (.imm .void)))
      (fun k => base + args.length - 1 - k) (fun k => args.getD k (.imm .void))
      { e with self := c.self } (fun k k' _ _ => by omega) fun _ _ _ _ _ => rfl
    refine .inr ⟨_, ready_replaced args (.proc p) ?_ ?_ hmoved.2.2.2.1 ?_,
      hmoved.1.trans hpairs, hmoved.2.2.2.2.1.trans hbytecodes, ?_⟩
    · intro k hk
      rw [List.length_reverse] at hk
      have hdst := hstored (args.length - 1 - k) (by omega)
      rw [show base + args.length - 1 - (args.length - 1 - k) = base + k by omega] at hdst
      rw [hdst, List.getElem_reverse, List.getD_eq_getElem?_getD, List.getElem?_eq_getElem (by omega),
        Option.getD_some]
    · intro k hk
      exact (hrest k fun _ _ => by omega).trans (hframe'.below k hk)
    · exact hmoved.2.2.2.2.2.1.trans (hframe'.stack.trans hmoved.2.2.2.2.2.2.symm)
    · simp only [apply1, hcallee, hlist, asProcedure, hbc, hensure, hcount, hip, hself, hfp,
        unboxFixnum, hbase, Option.bind_eq_bind, Option.bind_some, Int.toNat_natCast]

/-- The caller goes on with the result in the place of the arguments. -/
structure Returned (c : State) (ip base : ℕ) (result : Val) (t : State) : Prop where
  ready : Ready c base [result] t
  ip : t.ip = ip

/-- A return leaves the result in the caller's place. -/
theorem ret_spec (h : Frame c ip base old t) :
    ∃ u, ret t = some u ∧ Returned c ip base (t.arg 1) u := by
  obtain ⟨hcount, hip, hself, hfp⟩ := h.words
  have hbase : (t.fp - old.length).toNat = base := by
    rw [h.fp]
    omega
  have hfpBase := h.fp
  -- The result is stored below the words of the frame.
  have hslot : ∀ k, k ≠ base → (t.write base (t.arg 1)).slot k = t.slot k :=
    fun k hk => (State.slot_write t base k _).trans (if_neg hk)
  refine ⟨{ t.write base (t.arg 1) with
    top := base + 1, self := c.self, ip := ip, fp := c.fp }, ?_, ⟨?_, rfl, ?_, rfl, rfl, h.stack⟩, rfl⟩
  · have hfpWrite : (t.write base (t.arg 1)).fp = t.fp := rfl
    simp only [ret, hcount, unboxFixnum, Option.bind_eq_bind, Option.bind_some, hbase, hfpWrite]
    rw [hslot _ (by omega), hslot _ (by omega), hslot _ (by omega), hself, hip, hfp]
    rfl
  · refine holds_cons.mpr ⟨(State.slot_write t base base _).trans (if_pos rfl), ?_⟩
    exact fun k hk => absurd hk (Nat.not_lt_zero _)
  · intro k hk
    exact (hslot k (by omega)).trans (h.below k hk)

/-! ## The three sequences -/

/-- The three ways to call `p` with these arguments, and what the sequence comes to: `c` is the state
to which the body returns. -/
inductive Calls (limit : Option ℕ) (c : State) (ip base : ℕ) (p : Procedure) (args : List Val) :
    State → Option State → Prop
  | call (hbc : (c.bytecodes p.code).isSome) (h : Ready c base (args.reverse ++ [.proc p]) c) :
    Calls limit c ip base p args c (makeCall limit c (.proc p) args.length ip)
  | tailCall {s : State} {old : List Val} {high : ℕ} (hbc : (s.bytecodes p.code).isSome)
    (hframe : Frame c ip base old s) (h : Ready s high (args.reverse ++ [.proc p]) s)
    (hhigh : base + old.length + 4 ≤ high) :
    Calls limit c ip base p args s (tailCall limit s args.length)
  | apply {s : State} {old : List Val} (hbc : (s.bytecodes p.code).isSome)
    (hframe : Frame c ip base old s) (htop : base + old.length + 4 ≤ s.top)
    (hcallee : s.arg 1 = .proc p)
    (hlist : listItems s (s.pairs.length + 1) (s.arg 2) = some args) :
    Calls limit c ip base p args s (apply1 limit s)

/-- An instruction that computes with the operands: it leaves the words of the frame and the slots below
them as they are. -/
structure OperandStep (s t : State) : Prop where
  fp : t.fp = s.fp
  kept : ∀ k : ℕ, k < s.fp + 4 → t.slot k = s.slot k
  stack : t.contextStack = t.stack

/-- `LOCAL_SET k` stores into a local variable above the words of the frame, or into one of as many
arguments as the frame says it has. -/
def StoresInFrame (s : State) (k : ℤ) : Prop :=
  k ≤ -5 ∨ ∃ n, s.slot s.fp.toNat = .fixnum n ∧ 0 ≤ k ∧ k < n

/-- From `s`, in the frame of a body, to the state behind its return, with the value returned, by
instructions that compute with operands or store into the frame, further tail calls, and calls with
the runs of their bodies. -/
inductive Runs (limit : Option ℕ) : State → Val → State → Prop
  | ret {s t : State} (h : ret s = some t) : Runs limit s (s.arg 1) t
  | operand {s t u : State} {result : Val} (h : OperandStep s t) (hrun : Runs limit t result u) :
    Runs limit s result u
  | localSet {s t u : State} {result : Val} {k : ℤ}
    (hinstr : currentInstr s = some ⟨.localSet, [.num k]⟩) (hstores : StoresInFrame s k)
    (hstep : step limit s = some t) (hrun : Runs limit t result u) : Runs limit s result u
  | again {s t u : State} {result : Val} {p : Procedure} {args : List Val}
    (h : ∀ c ip base actuals, Frame c ip base actuals s →
      Calls limit c ip base p args s (some t)) (hrun : Runs limit t result u) : Runs limit s result u
  | call {s t u v : State} {result inner : Val} {ip base : ℕ} {p : Procedure} {args : List Val}
    (h : Ready s base (args.reverse ++ [.proc p]) s) (hframe : s.fp + 4 ≤ base)
    (hcall : makeCall limit s (.proc p) args.length ip = some t) (hbody : Runs limit t inner u)
    (hrun : Runs limit u result v) : Runs limit s result v

theorem OperandStep.frame {actuals : List Val} (h : OperandStep s t)
    (hframe : Frame c ip base actuals s) : Frame c ip base actuals t := by
  have hfp := hframe.fp
  refine ⟨h.fp.trans hfp, hframe.holds.agree fun k _ hk => h.kept k ?_, fun k hk => ?_, h.stack⟩
  · simp only [List.length_append, List.length_reverse, List.length_cons, List.length_nil] at hk
    omega
  · rw [h.kept k (by omega)]
    exact hframe.below k hk

/-- How many operands the instruction takes from the top of the stack. -/
def Op.operands : Op → ℕ
  | .jumpUnless | .drop | .localSet | .makeProcedure | .car | .cdr => 1
  | .vectorRef | .makeVector | .setCar | .setCdr | .cons => 2
  | .vectorSet => 3
  | _ => 0

/-- The instructions that call or return, or store into the frame. -/
def Op.touchesFrame : Op → Bool
  | .call | .tailCall | .callcc | .resumecc | .ret | .localSet => true
  | _ => false

theorem operandStep_of_write {i : ℕ} {v : Val} (hi : s.fp + 4 ≤ i) (hstack : s.contextStack = s.stack)
    (hfp : t.fp = s.fp) (hkept : t.contextStack = s.contextStack ∧ t.stack = s.stack)
    (hslot : t.slot = (s.write i v).slot) : OperandStep s t := by
  refine ⟨hfp, fun x hx => ?_, hkept.1.trans (hstack.trans hkept.2.symm)⟩
  rw [hslot, State.slot_write, if_neg (by omega)]

/-- Any other instruction whose operands lie above the words of the frame computes with them only. -/
theorem operandStep_of_exec {i : Instr} (hop : i.op.touchesFrame = false)
    (hdepth : s.fp + 4 + i.op.operands ≤ s.top) (hstack : s.contextStack = s.stack)
    (hexec : exec limit i s = some t) : OperandStep s t := by
  have hkeeps : ∀ u : State, u.fp = s.fp → u.contextStack = s.contextStack → u.stack = s.stack →
      u.slot = s.slot → OperandStep s u := fun u hfp hcontext hsame hslot =>
    ⟨hfp, fun x _ => congrFun hslot x, hcontext.trans (hstack.trans hsame.symm)⟩
  have hwrite : ∀ (u : State) (n : ℕ) (v : Val), n ≤ i.op.operands → u.fp = s.fp →
      u.contextStack = s.contextStack → u.stack = s.stack →
      u.slot = (s.write (s.top - n) v).slot → OperandStep s u := fun u n v hn hfp hcontext hsame =>
    operandStep_of_write (by omega) hstack hfp ⟨hcontext, hsame⟩
  obtain ⟨op, words⟩ := i
  simp only [exec] at hexec
  split at hexec
  case h_2 | h_3 | h_4 | h_5 | h_14 | h_25 => cases hop
  case h_26 => cases hexec
  case h_1 | h_7 | h_9 =>
    cases hexec
    exact hkeeps _ rfl rfl rfl rfl
  case h_6 =>
    split at hexec <;> cases hexec <;> exact hkeeps _ rfl rfl rfl rfl
  case h_8 | h_12 | h_13 =>
    cases hexec
    exact hwrite _ 0 _ (Nat.zero_le _) rfl rfl rfl rfl
  case h_10 =>
    obtain ⟨p, -, hexec⟩ := Option.bind_eq_some_iff.mp hexec
    split at hexec
    · cases hexec
    · cases hexec
      exact hwrite _ 0 _ (Nat.zero_le _) rfl rfl rfl rfl
  case h_11 =>
    obtain ⟨p, -, hexec⟩ := Option.bind_eq_some_iff.mp hexec
    cases hexec
    exact hwrite _ 0 _ (Nat.zero_le _) rfl rfl rfl rfl
  case h_15 =>
    obtain ⟨v, -, hexec⟩ := Option.map_eq_some_iff.mp hexec
    cases hexec
    exact hwrite _ 0 _ (Nat.zero_le _) rfl rfl rfl rfl
  case h_16 =>
    simp only [vectorRef] at hexec
    repeat' split at hexec
    all_goals first | cases hexec | skip
    obtain ⟨v, -, hexec⟩ := Option.map_eq_some_iff.mp hexec
    cases hexec
    exact hwrite _ 2 _ (le_refl _) rfl rfl rfl rfl
  case h_17 =>
    simp only [vectorSet] at hexec
    repeat' split at hexec
    all_goals cases hexec
    exact hkeeps _ rfl rfl rfl rfl
  case h_18 =>
    cases hexec
    exact hwrite _ 1 _ (le_refl _) rfl rfl rfl rfl
  case h_19 =>
    simp only [makeVectorOp] at hexec
    repeat' split at hexec
    all_goals cases hexec
    exact hwrite _ 2 _ (le_refl _) rfl rfl rfl rfl
  case h_20 | h_21 =>
    obtain ⟨p, -, hexec⟩ := Option.map_eq_some_iff.mp hexec
    cases hexec
    exact hwrite _ 1 _ (le_refl _) rfl rfl rfl rfl
  case h_22 =>
    simp only [setCar] at hexec
    repeat' split at hexec
    all_goals cases hexec
    exact hkeeps _ rfl rfl rfl rfl
  case h_23 =>
    simp only [setCdr] at hexec
    repeat' split at hexec
    all_goals cases hexec
    exact hkeeps _ rfl rfl rfl rfl
  case h_24 =>
    cases hexec
    exact hwrite _ 2 _ (le_refl _) rfl rfl rfl rfl

/-- A store into an argument replaces it; one into a local variable leaves the arguments as they
are. -/
theorem StoresInFrame.frame {actuals : List Val} {k : ℤ} (hstores : StoresInFrame s k)
    (hinstr : currentInstr s = some ⟨.localSet, [.num k]⟩) (hstep : step limit s = some t)
    (hframe : Frame c ip base actuals s) : ∃ actuals', Frame c ip base actuals' t := by
  have hfp := hframe.fp
  have ht : t = (((({ s with ip := s.ip + 1 } : State).drop 1).write (s.fp - 1 - k).toNat
      (s.arg 1)).skip 1) := by
    simp only [step, hinstr, Option.bind_eq_bind, Option.bind_some] at hstep
    exact (Option.some.inj hstep).symm
  have hslot : ∀ x, t.slot x = if x = (s.fp - 1 - k).toNat then s.arg 1 else s.slot x := by
    intro x
    rw [ht]
    exact State.slot_write (({ s with ip := s.ip + 1 } : State).drop 1) _ x _
  have hkept : t.fp = s.fp ∧ t.contextStack = t.stack := by
    rw [ht]
    exact ⟨rfl, hframe.stack⟩
  rcases hstores with hlocal | ⟨n, hn, hpos, hlt⟩
  · refine ⟨actuals, OperandStep.frame ⟨hkept.1, fun x hx => ?_, hkept.2⟩ hframe⟩
    rw [hslot, if_neg (by omega)]
  · obtain ⟨hcount, -⟩ := hframe.words
    rw [hn, Val.fixnum.injEq] at hcount
    -- The argument number `k` is as far below the end of the list of arguments.
    obtain ⟨j, rfl⟩ := Int.eq_ofNat_of_zero_le hpos
    have hindex : (s.fp - 1 - (j : ℤ)).toNat = base + (actuals.length - 1 - j) := by omega
    rw [hindex] at hslot
    obtain ⟨hargs, hwords⟩ := holds_append.mp hframe.holds
    refine ⟨(actuals.reverse.set (actuals.length - 1 - j) (s.arg 1)).reverse, ?_, ?_, ?_, hkept.2⟩
    · rw [hkept.1, hfp, List.length_reverse, List.length_set, List.length_reverse]
    · rw [List.reverse_reverse, List.length_reverse, List.length_set, List.length_reverse]
      refine holds_append.mpr ⟨fun x hx => ?_, ?_⟩
      · rw [List.length_set, List.length_reverse] at hx
        rw [hslot, List.getElem_set]
        by_cases heq : actuals.length - 1 - j = x
        · rw [if_pos (by omega), if_pos heq]
        · rw [if_neg (by omega), if_neg heq]
          exact hargs x (by rw [List.length_reverse]; exact hx)
      · rw [List.length_set]
        refine hwords.agree fun x hle _ => ?_
        rw [List.length_reverse] at hle
        rw [hslot, if_neg (by omega)]
    · intro x hx
      rw [hslot, if_neg (by omega)]
      exact hframe.below x hx

/-- The next turn of the loop is such an instruction. -/
def State.computes (s : State) : Bool :=
  match currentInstr s with
  | some i => !i.op.touchesFrame && decide (s.fp + 4 + i.op.operands ≤ s.top) &&
      decide (s.contextStack = s.stack)
  | none => false

/-- Turns of the loop that compute with operands. -/
def computeRun (limit : Option ℕ) : ℕ → State → Option State
  | 0, s => some s
  | n + 1, s => if s.computes then (step limit s).bind (computeRun limit n) else none

theorem Runs.compute {n : ℕ} {result : Val} (hcompute : computeRun limit n s = some t)
    (hrun : Runs limit t result u) : Runs limit s result u := by
  induction n generalizing s with
  | zero =>
    cases hcompute
    exact hrun
  | succ n ih =>
    unfold computeRun at hcompute
    split at hcompute
    · rename_i hcomputes
      obtain ⟨s', hstep, hrest⟩ := Option.bind_eq_some_iff.mp hcompute
      unfold State.computes at hcomputes
      split at hcomputes
      · rename_i i hinstr
        simp only [Bool.and_eq_true, decide_eq_true_eq, Bool.not_eq_true'] at hcomputes
        obtain ⟨⟨hop, hdepth⟩, hstack⟩ := hcomputes
        simp only [step, hinstr, Option.bind_eq_bind, Option.bind_some] at hstep
        have hoperand := operandStep_of_exec (s := { s with ip := s.ip + 1 }) hop hdepth hstack hstep
        exact .operand ⟨hoperand.fp, hoperand.kept, hoperand.stack⟩ (ih hrest)
      · cases hcomputes
    · cases hcompute

theorem Calls.entered {out : Option State} (h : Calls limit c ip base p args s out) :
    (∀ t, out = some t → ArityOk p args.length ∧ BodyEntered c ip base p args s.pairs.length t) ∧
      (out = none → ArityOk p args.length → limit ≠ none) := by
  have hready : (s.bytecodes p.code).isSome ∧ (out = none ∧ limit ≠ none ∨
      ∃ t, Ready c base (args.reverse ++ [.proc p]) t ∧ t.pairs = s.pairs ∧
        t.bytecodes = s.bytecodes ∧ out = makeCall limit t (.proc p) args.length ip) := by
    cases h with
    | call hbc h => exact ⟨hbc, .inr ⟨_, h, rfl, rfl, rfl⟩⟩
    | tailCall hbc hframe h hhigh => exact ⟨hbc, .inr (tailCall_spec hframe h hhigh)⟩
    | apply hbc hframe htop hcallee hlist =>
      exact ⟨hbc, apply1_spec hframe htop hcallee hlist hbc⟩
  obtain ⟨hbc, ⟨hnone, hlimit⟩ | ⟨t, hready, hpairs, hbytecodes, hout⟩⟩ := hready
  · refine ⟨fun t ht => ?_, fun _ _ => hlimit⟩
    rw [hnone] at ht
    cases ht
  · refine ⟨fun u hu => ?_, fun hnone harity hlimit => ?_⟩
    · rw [← hpairs]
      exact makeCall_spec _ hready (hout.symm.trans hu)
    · rw [hout, hlimit] at hnone
      exact makeCall_ne_none (hbytecodes ▸ hbc) harity hnone

theorem Runs.returned {v : State} {result : Val} (hrun : Runs limit t result v) :
    ∀ {c : State} {ip base : ℕ} {actuals : List Val}, Frame c ip base actuals t →
      Returned c ip base result v := by
  induction hrun with
  | ret h =>
    intro c ip base actuals hframe
    obtain ⟨u, hu, hreturned⟩ := ret_spec hframe
    rw [h] at hu
    cases hu
    exact hreturned
  | operand h hrun ih => exact fun hframe => ih (h.frame hframe)
  | localSet hinstr hstores hstep hrun ih =>
    intro c ip base actuals hframe
    obtain ⟨actuals', hframe'⟩ := hstores.frame hinstr hstep hframe
    exact ih hframe'
  | again h hrun ih =>
    intro c ip base actuals hframe
    obtain ⟨-, -, -, actuals', -, hframe', -⟩ := (h c ip base actuals hframe).entered.1 _ rfl
    exact ih hframe'
  | @call s t u v result inner ip' base' p args h hhigh hcall hbody hrun ihbody ihrun =>
    intro c ip base actuals hframe
    obtain ⟨-, -, -, actuals', -, hframe', -⟩ := makeCall_spec ip' h hcall
    have hback := (ihbody hframe').ready
    -- The frame lies below the slots of the call.
    have hfp := hframe.fp
    refine @ihrun c ip base actuals
      ⟨hback.fp.trans hfp, hframe.holds.agree fun k _ hk => hback.below k ?_, ?_, hback.stack⟩
    · simp only [List.length_append, List.length_reverse, List.length_cons, List.length_nil] at hk
      omega
    · intro k hk
      exact (hback.below k (by omega)).trans (hframe.below k hk)

/-- However `p` is called, its body is entered with the arguments in a frame of its own unless their
number is wrong.  When it returns, after a run in which every `LOCAL_SET` stored into its frame, the
result has taken the place of the arguments. -/
theorem calls_spec (limit : Option ℕ) (c : State) (ip base : ℕ) (p : Procedure) (args : List Val)
    (s : State) (out : Option State) (h : Calls limit c ip base p args s out) :
    (∀ t, out = some t → ArityOk p args.length ∧ BodyEntered c ip base p args s.pairs.length t ∧
      ∀ result v, Runs limit t result v → Returned c ip base result v) ∧
    (out = none → ArityOk p args.length → limit ≠ none) := by
  refine ⟨fun t ht => ?_, h.entered.2⟩
  obtain ⟨harity, hentered⟩ := h.entered.1 t ht
  refine ⟨harity, hentered, fun result v hrun => ?_⟩
  obtain ⟨-, -, actuals, -, hframe, -⟩ := hentered
  exact hrun.returned hframe

/-- The code of `(lambda (a . rest) (set! rest 7) a)`.  The rest parameter is assigned, so that it is
put into a box at the start, but it is not read. -/
def assignedRestCode : Bytecode where
  data := [⟨.localRef, [.num 1]⟩, ⟨.push, [.obj (.object 2)]⟩, ⟨.cons, []⟩, ⟨.localSet, [.num 1]⟩,
    ⟨.push, [.obj (.fixnum 7)]⟩, ⟨.localRef, [.num 1]⟩, ⟨.setCdr, []⟩, ⟨.localRef, [.num 0]⟩,
    ⟨.ret, []⟩]
  maxDepth := 5

/-- A procedure that assigns its unused rest. -/
def assignedRest : Procedure := ⟨true, true, 1, 1, none⟩

/-- The procedure is about to be called with these arguments, above an operand of the caller. -/
def callerOf (args : List Val) : State where
  pairs := []
  vectors := []
  bytecodes := fun id => if id = 1 then some assignedRestCode else none
  resumeccBytecode := 0
  stackObjs := fun _ => ⟨1024, fun k =>
    ([Val.fixnum 10] ++ args.reverse ++ [Val.proc assignedRest]).getD k (.imm .void)⟩
  stackCount := 1
  contextStack := 0
  contextTop := 0
  stack := 0
  top := args.length + 2
  fp := 0
  ip := 0
  self := assignedRest
  updates := []

/-- With one argument there is no slot for the rest parameter, and the operand of the caller is
overwritten by the box. -/
theorem assignedRest_overwrites_caller : ArityOk assignedRest 1 ∧
    ∃ t v, makeCall none (callerOf [.fixnum 1]) (.proc assignedRest) 1 8 = some t ∧
      (List.range 9).foldlM (fun s _ => step none s) t = some v ∧
      v.top = 2 ∧ v.arg 1 = .fixnum 1 ∧ (callerOf [.fixnum 1]).slot 0 = .fixnum 10 ∧
      v.slot 0 = .pair 0 ∧ v.pairs = [⟨.object 2, .fixnum 7, false⟩] ∧
      ¬ Returned (callerOf [.fixnum 1]) 8 1 (.fixnum 1) v := by
  have hrun : ((makeCall none (callerOf [.fixnum 1]) (.proc assignedRest) 1 8).bind fun t =>
      ((List.range 9).foldlM (fun s _ => step none s) t).map fun v =>
        (v.top, v.arg 1, v.slot 0, v.pairs)) =
      some (2, .fixnum 1, .pair 0, [⟨.object 2, .fixnum 7, false⟩]) := by decide +kernel
  obtain ⟨t, hcall, hrun⟩ := Option.bind_eq_some_iff.mp hrun
  obtain ⟨v, hbody, hstate⟩ := Option.map_eq_some_iff.mp hrun
  simp only [Prod.mk.injEq] at hstate
  obtain ⟨htop, hresult, hslot, hpairs⟩ := hstate
  have hbefore : (callerOf [.fixnum 1]).slot 0 = .fixnum 10 := rfl
  refine ⟨by decide, t, v, hcall, hbody, htop, hresult, hbefore, hslot, hpairs, fun h => ?_⟩
  have hbelow := h.ready.below 0 Nat.one_pos
  rw [hslot, hbefore] at hbelow
  cases hbelow

/-- With two arguments the rest parameter has the slot of the second one. -/
theorem calls_spec_assignedRest :
    ∃ t v, makeCall none (callerOf [.fixnum 1, .fixnum 2]) (.proc assignedRest) 2 8 = some t ∧
      BodyEntered (callerOf [.fixnum 1, .fixnum 2]) 8 1 assignedRest [.fixnum 1, .fixnum 2] 0 t ∧
      Runs none t (.fixnum 1) v ∧
      Returned (callerOf [.fixnum 1, .fixnum 2]) 8 1 (.fixnum 1) v := by
  have hrun : ((makeCall none (callerOf [.fixnum 1, .fixnum 2]) (.proc assignedRest) 2 8).bind
      fun t => (computeRun none 3 t).bind fun t' => (step none t').bind fun u =>
        (computeRun none 4 u).bind fun u' => (ret u').map fun _ =>
          (currentInstr t', t'.slot t'.fp.toNat, u'.arg 1)) =
      some (some ⟨.localSet, [.num 1]⟩, .fixnum 2, .fixnum 1) := by decide +kernel
  obtain ⟨t, hcall, hrun⟩ := Option.bind_eq_some_iff.mp hrun
  obtain ⟨t', hboxes, hrun⟩ := Option.bind_eq_some_iff.mp hrun
  obtain ⟨u, hstep, hrun⟩ := Option.bind_eq_some_iff.mp hrun
  obtain ⟨u', hassigns, hrun⟩ := Option.bind_eq_some_iff.mp hrun
  obtain ⟨v, hret, hstate⟩ := Option.map_eq_some_iff.mp hrun
  simp only [Prod.mk.injEq] at hstate
  obtain ⟨hinstr, hcount, hresult⟩ := hstate
  have hbody : Runs none t (.fixnum 1) v := by
    refine .compute hboxes (.localSet hinstr ?_ hstep (.compute hassigns ?_))
    · exact .inr ⟨2, hcount, by decide, by decide⟩
    · rw [← hresult]
      exact .ret hret
  have hready : Ready (callerOf [.fixnum 1, .fixnum 2]) 1
      ([Val.fixnum 1, .fixnum 2].reverse ++ [.proc assignedRest])
      (callerOf [.fixnum 1, .fixnum 2]) := by
    refine ⟨?_, rfl, fun _ _ => rfl, rfl, rfl, rfl⟩
    simp only [List.reverse_cons, List.reverse_nil, List.nil_append, List.cons_append, holds_cons]
    exact ⟨rfl, rfl, rfl, fun _ hk => absurd hk (Nat.not_lt_zero _)⟩
  obtain ⟨-, hentered, hreturns⟩ := (calls_spec none (callerOf [.fixnum 1, .fixnum 2]) 8 1
    assignedRest [.fixnum 1, .fixnum 2] (callerOf [.fixnum 1, .fixnum 2]) _
    (.call rfl hready)).1 t hcall
  exact ⟨t, v, hcall, hentered, hbody, hreturns _ v hbody⟩

end ChibiScheme.Vm
