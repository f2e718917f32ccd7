import ChibiScheme.Iset.Optimize

/-!
# Sets as expressions

`iset->code` writes an expression that builds the set again, `iset->code/lambda` a procedure that tests
for membership.
-/

namespace ChibiScheme.IntegerSet

open Iset

/-- The expressions that are written, with the one variable `n`. -/
inductive Expr where
  | bool (b : Bool)
  | int (i : ℤ)
  | var
  | ite (test yes no : Expr)
  | less (a b : Expr)
  | greater (a b : Expr)
  | atMost (a b : Expr)
  | between (a b c : Expr)
  | minus (a b : Expr)
  | bitSet (index bits : Expr)
  | makeIset (start stop bits left right : Expr)
deriving DecidableEq

/-- What the expressions evaluate to. -/
inductive Value where
  | bool (b : Bool)
  | int (i : ℤ)
  | iset (is : Iset)
deriving DecidableEq

namespace Value

/-- An integer. -/
def toInt : Value → Option ℤ
  | int i => some i
  | _ => none

/-- The field `bits`: `#f`, or a bitmap. -/
def toBits : Value → Option (Option ℕ)
  | bool false => some none
  | int i => some (some i.toNat)
  | _ => none

/-- A subtree: `#f`, or a set. -/
def toSubtree : Value → Option Iset
  | bool false => some absent
  | iset is => some is
  | _ => none

/-- A set as a value; a missing subtree is `#f`. -/
def ofIset : Iset → Value
  | absent => bool false
  | is => iset is

end Value

/-- The value of an expression; there is none if it raises an exception. -/
def Expr.eval (n : ℤ) : Expr → Option Value
  | bool b => some (.bool b)
  | int i => some (.int i)
  | var => some (.int n)
  | ite test yes no => do
      if (← test.eval n) = .bool false then no.eval n else yes.eval n
  | less a b => do return .bool (decide ((← (← a.eval n).toInt) < (← (← b.eval n).toInt)))
  | greater a b => do return .bool (decide ((← (← a.eval n).toInt) > (← (← b.eval n).toInt)))
  | atMost a b => do return .bool (decide ((← (← a.eval n).toInt) ≤ (← (← b.eval n).toInt)))
  | between a b c => do
      let i ← (← b.eval n).toInt
      return .bool (decide ((← (← a.eval n).toInt) ≤ i) && decide (i ≤ (← (← c.eval n).toInt)))
  | minus a b => do return .int ((← (← a.eval n).toInt) - (← (← b.eval n).toInt))
  | bitSet index bits => do
      let i ← (← index.eval n).toInt
      -- `bit-set?` takes a fixnum that is not negative
      if 0 ≤ i ∧ i < 2 ^ 62 then return .bool (isBitSet i (← (← bits.eval n).toInt).toNat) else none
  | makeIset start stop bits left right => do
      let fields : Node :=
        ⟨← (← start.eval n).toInt, ← (← stop.eval n).toInt, ← (← bits.eval n).toBits⟩
      return .iset (.node fields (← (← left.eval n).toSubtree) (← (← right.eval n).toSubtree))

/-- A bitmap, or `#f`. -/
def codeOfBits : Option ℕ → Expr
  | none => .bool false
  | some bits => .int bits

/-- `iset->code` -/
def isetToCode : Iset → Expr
  | absent => .bool false
  | node a left right =>
    .makeIset (.int a.start) (.int a.stop) (codeOfBits a.bits) (isetToCode left) (isetToCode right)

/-- `iset->code/lambda`: the body of the procedure. -/
def isetToCodeLambda : Iset → Expr
  | absent => .bool false
  | node a left right =>
    if left = absent ∧ right = absent ∧ a.bits = none then
      .between (.int a.start) .var (.int a.stop)
    else
      .ite (.less .var (.int a.start)) (isetToCodeLambda left)
        (if right = absent ∧ a.bits = none then .atMost .var (.int a.stop)
        else
          .ite (.greater .var (.int a.stop)) (isetToCodeLambda right)
            (match a.bits with
            | some bits => .bitSet (.minus .var (.int a.start)) (.int bits)
            | none => .bool true))

variable {is : Iset} {S : Finset ℤ}

theorem eval_isetToCode (n : ℤ) (is : Iset) : (isetToCode is).eval n = some (.ofIset is) := by
  have hsubtree : ∀ is, (Value.ofIset is).toSubtree = some is := by
    intro is
    cases is with
    | absent => rfl
    | node a left right => rfl
  induction is with
  | absent => rfl
  | node a left right ihleft ihright =>
    have hbits : ((codeOfBits a.bits).eval n).bind Value.toBits = some a.bits := by
      cases a.bits with
      | none => rfl
      | some bits => rfl
    obtain ⟨v, heval, hv⟩ := Option.bind_eq_some_iff.mp hbits
    simp only [isetToCode, Expr.eval, ihleft, ihright, heval, Option.bind_eq_bind,
      Option.bind_some, Value.toInt, hv, hsubtree, Option.pure_def]
    rfl

/-- The search for an integer does not end at a bitmap that is indexed by more than a fixnum. -/
def Iset.reaches : Iset → ℤ → Bool
  | absent, _ => true
  | node a left right, n =>
    if n < a.start then left.reaches n
    else if n > a.stop then right.reaches n
    else a.bits.isNone || decide (n - a.start < 2 ^ 62)

/-- Every bitmap of the set can be indexed by fixnums. -/
def Iset.Indexable (is : Iset) : Prop :=
  ∀ a ∈ is.nodes, a.bits ≠ none → a.stop - a.start < 2 ^ 62

instance (is : Iset) : Decidable is.Indexable := inferInstanceAs (Decidable (∀ a ∈ is.nodes, _))

/-- Every integer can be searched for just when the last one of every bitmap's range can be. -/
theorem reaches_iff (hordered : is.Ordered) : (∀ n, is.reaches n = true) ↔ is.Indexable := by
  constructor
  · intro hreaches b hb hbits
    have hreach := hreaches b.stop
    clear hreaches
    induction is with
    | absent => cases hb
    | node a left right ihleft ihright =>
      obtain ⟨hok, hbefore, hbehind, hleft, hright⟩ := hordered
      simp only [nodes, List.mem_append, List.mem_cons] at hb
      rw [reaches] at hreach
      obtain hb | rfl | hb := hb
      · rw [if_pos (endsBefore_iff_nodes.mp hbefore b hb)] at hreach
        exact ihleft hleft hb hreach
      · have hle := hok.le
        rw [if_neg (by omega), if_neg (by omega)] at hreach
        simpa [hbits] using hreach
      · have hlt := startsBehind_iff_nodes.mp hbehind b hb
        have hle := ((ordered_iff_inOrder.mp hright).ok b hb).le
        have hle' := hok.le
        rw [if_neg (by omega), if_pos (by omega)] at hreach
        exact ihright hright hb hreach
  · intro hindex n
    induction is with
    | absent => rfl
    | node a left right ihleft ihright =>
      obtain ⟨-, -, -, hleft, hright⟩ := hordered
      simp only [Indexable, nodes, List.mem_append, List.mem_cons, or_imp, forall_and,
        forall_eq] at hindex
      rw [reaches]
      split
      · exact ihleft hleft hindex.1
      split
      · exact ihright hright hindex.2.2
      · have hhere := hindex.2.1
        cases hbits : a.bits with
        | none => rfl
        | some bits =>
          have hwidth := hhere (by simp [hbits])
          simp only [Option.isNone_some, Bool.false_or, decide_eq_true_eq]
          omega

theorem eval_ite_less (n start : ℤ) (yes no : Expr) :
    (Expr.ite (.less .var (.int start)) yes no).eval n =
      if n < start then yes.eval n else no.eval n := by
  by_cases hlt : n < start
  · simp [Expr.eval, Value.toInt, hlt]
  · simp [Expr.eval, Value.toInt, hlt]

theorem eval_ite_greater (n stop : ℤ) (yes no : Expr) :
    (Expr.ite (.greater .var (.int stop)) yes no).eval n =
      if n > stop then yes.eval n else no.eval n := by
  by_cases hgt : n > stop
  · simp [Expr.eval, Value.toInt, hgt]
  · simp [Expr.eval, Value.toInt, hgt]

/-- The procedure answers like `iset-contains?`, unless the integer is too far from the start of a
bitmap whose range it lies in. -/
theorem eval_isetToCodeLambda (n : ℤ) (is : Iset) :
    (isetToCodeLambda is).eval n =
      if is.reaches n then some (.bool (is.contains n)) else none := by
  induction is with
  | absent => rfl
  | node a left right ihleft ihright =>
    rw [isetToCodeLambda, contains, reaches]
    split
    · -- a range without subtrees
      rename_i hleaf
      obtain ⟨rfl, rfl, hbits⟩ := hleaf
      by_cases hlow : n < a.start
      · simp [Expr.eval, Value.toInt, contains, reaches, hlow, not_le.mpr hlow]
      · by_cases hhigh : n > a.stop
        · simp [Expr.eval, Value.toInt, contains, reaches, hlow, hhigh, not_le.mpr hhigh]
        · simp [Expr.eval, Value.toInt, hlow, hhigh, hbits, not_lt.mp hlow, not_lt.mp hhigh]
    rw [eval_ite_less]
    split
    · exact ihleft
    split
    · -- no subtree on the right, and no bitmap
      rename_i hright
      obtain ⟨rfl, hbits⟩ := hright
      by_cases hhigh : n > a.stop
      · simp [Expr.eval, Value.toInt, contains, reaches, hhigh, not_le.mpr hhigh]
      · simp [Expr.eval, Value.toInt, hhigh, hbits, not_lt.mp hhigh]
    rw [eval_ite_greater]
    split
    · exact ihright
    · rename_i hlow _ _
      cases hbits : a.bits with
      | none => rfl
      | some bits =>
        simp [Expr.eval, Value.toInt, not_lt.mp hlow]

/-- The procedure accepts exactly the integers of the set just when the bitmaps can be indexed. -/
theorem accepts_iff (h : Represents is S) :
    (∀ n, (isetToCodeLambda is).eval n = some (.bool (decide (n ∈ S)))) ↔ is.Indexable := by
  rw [← reaches_iff h.ordered]
  refine forall_congr' fun n => ?_
  have hcontains : is.contains n = decide (n ∈ S) := by
    rw [Bool.eq_iff_iff, h.agrees.contains, decide_eq_true_eq]
  rw [eval_isetToCodeLambda, hcontains]
  split <;> simp [*]

/-- Balanced, a set represents the same integers, and its code builds the set again.  It can be
optimized, also before or after it is balanced, and the procedure written for it accepts exactly its
integers, just when no range of a bitmap is too wide. -/
theorem optimize_balance_code_iff (h : Represents is S) (hset : is ≠ absent) (span : ℤ) :
    Represents (isetBalance is) S ∧ (∀ n, (isetToCode is).eval n = some (.iset is)) ∧
      ((∃ is', isetOptimize span is = some is' ∧ Represents is' S ∧
          Represents (isetBalance is') S) ↔ (isetPrune is).Shiftable) ∧
      ((∃ is', isetOptimize span (isetBalance is) = some is' ∧ Represents is' S) ↔
        (isetPrune (isetBalance is)).Shiftable) ∧
      ((∀ n, (isetToCodeLambda is).eval n = some (.bool (decide (n ∈ S)))) ↔ is.Indexable) := by
  obtain ⟨hbalanced, -⟩ := h.balance hset
  refine ⟨hbalanced, fun n => ?_, ?_, ?_, accepts_iff h⟩
  · rw [eval_isetToCode]
    cases is with
    | absent => exact absurd rfl hset
    | node a left right => rfl
  · obtain ⟨hsome, hnone⟩ := h.optimize_iff span
    refine ⟨fun ⟨is', hrun, _⟩ => ?_, fun hshift => ?_⟩
    · by_contra hshift
      rw [hnone hshift] at hrun
      cases hrun
    · obtain ⟨is', hrun, his', hset'⟩ := hsome hshift
      exact ⟨is', hrun, his', (his'.balance hset').1⟩
  · obtain ⟨hsome, hnone⟩ := hbalanced.optimize_iff span
    refine ⟨fun ⟨is', hrun, _⟩ => ?_, fun hshift => ?_⟩
    · by_contra hshift
      rw [hnone hshift] at hrun
      cases hrun
    · obtain ⟨is', hrun, his', -⟩ := hsome hshift
      exact ⟨is', hrun, his'⟩

/-- Cut into ranges, the set of 0, 4, 5 and 9 stays the same, and its procedure accepts these four. -/
theorem optimize_balance_code_cutAtFour :
    (∃ is', isetOptimize 1 cutAtFour = some is' ∧ Represents is' {0, 4, 5, 9} ∧
        Represents (isetBalance is') {0, 4, 5, 9}) ∧
      ∀ n, (isetToCodeLambda cutAtFour).eval n =
        some (.bool (decide (n ∈ ({0, 4, 5, 9} : Finset ℤ)))) := by
  obtain ⟨-, -, hoptimize, -, haccepts⟩ :=
    optimize_balance_code_iff cutAtFour_represents (by decide) 1
  exact ⟨hoptimize.mpr (by decide), haccepts.mpr (by decide)⟩

/-- What is left of the set of -1000 and the integers from 0 to `2 ^ 70` without the latter. -/
def emptied : Iset := node ⟨0, 2 ^ 70, some 0⟩ (makeRange (-1000) (-1000)) absent

theorem emptied_represents : Represents emptied {-1000} where
  ordered := ⟨⟨by decide, fun bits hbits i hi => by cases hbits; simp at hi⟩,
    by decide, rfl, ⟨⟨le_refl _, nofun⟩, rfl, rfl, trivial, trivial⟩, trivial⟩
  mem x := by
    have hrange := (makeRange_represents (le_refl (-1000))).mem x
    rw [Finset.Icc_self] at hrange
    rw [← hrange, emptied, Iset.Mem, Node.mem_of_bits, Nat.zero_testBit]
    simp [Iset.Mem]

/-- The empty bitmap is compared with that of a range of `2 ^ 70 + 1` integers. -/
theorem emptied_raises : Represents emptied {-1000} ∧ isetOptimize 320 emptied = none :=
  ⟨emptied_represents, (emptied_represents.optimize_iff 320).2 (by decide)⟩

end ChibiScheme.IntegerSet
