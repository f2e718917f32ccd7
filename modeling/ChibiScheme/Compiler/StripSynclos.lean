import Mathlib.Data.List.Basic
import Mathlib.Algebra.Group.Nat.Defs
import Mathlib.Logic.Function.Basic

/-!
# Stripping syntactic closures

`sexp_strip_synclos` looks for a syntactic closure in a datum and strips the datum if there is
one.  Both walks are bounded by `SEXP_STRIP_SYNCLOS_BOUND`.  The test spends the bound on cars and
vector elements only, the stripping on cdrs as well.

Pairs are copied.  Vectors are stripped in place, so a vector that stands in several places is
stripped as deep as the nearest of them allows: a datum is a tree of pairs whose leaves may be
addresses of vectors, and the store holds the elements.

* `Closure` and `Leads` count the steps to a closure and to a vector;
* `stripSynclosBound_spec` says which closures are left, in the datum and in every vector;
* `sexpStripSynclos_iff` is the condition under which none is left.

The test compares addresses to find cycles, so it is given the comparison: objects at one address
are the same datum.
-/

namespace ChibiScheme.Synclo

open List

/-- A datum.  A vector is an address in the store. -/
inductive Datum where
  | atom (id : ℕ)
  | synclo (expr : Datum)
  | pair (car cdr : Datum)
  | vector (ref : ℕ)

/-- The elements of the vectors. -/
abbrev Store := ℕ → List Datum

namespace Datum

/-- `sexp_id_name` -/
def idName : Datum → Datum
  | synclo expr => idName expr
  | x => x

/-- `sexp_car` of a pair. -/
def car : Datum → Datum
  | pair a _ => a
  | x => x

/-- `sexp_cdr` of a pair. -/
def cdr : Datum → Datum
  | pair _ b => b
  | x => x

/-- The pairs from cdr to cdr. -/
def spineLength : Datum → ℕ
  | pair _ b => spineLength b + 1
  | _ => 0

/-- The `int` of the loop over a list does not overflow. -/
def Counted : Datum → Prop
  | pair a b => (pair a b).spineLength < 2 ^ 31 ∧ Counted a ∧ Counted b
  | synclo expr => Counted expr
  | atom _ | vector _ => True

/-- A syntactic closure stands `n` cars and cdrs deep. -/
inductive Closure : ℕ → Datum → Prop
  | here (expr : Datum) : Closure 0 (synclo expr)
  | inside {n : ℕ} {expr : Datum} (h : Closure n expr) : Closure n (synclo expr)
  | car {n : ℕ} {a : Datum} (b : Datum) (h : Closure n a) : Closure (n + 1) (pair a b)
  | cdr {n : ℕ} (a : Datum) {b : Datum} (h : Closure n b) : Closure (n + 1) (pair a b)

/-- In `m` steps, each to a car, a cdr or a vector element, one comes to the vector `w`. -/
inductive Leads (s : Store) : Datum → ℕ → ℕ → Prop
  | here (w : ℕ) : Leads s (vector w) 0 w
  | inside {m w : ℕ} {expr : Datum} (h : Leads s expr m w) : Leads s (synclo expr) m w
  | car {m w : ℕ} {a : Datum} (b : Datum) (h : Leads s a m w) : Leads s (pair a b) (m + 1) w
  | cdr {m w : ℕ} (a : Datum) {b : Datum} (h : Leads s b m w) : Leads s (pair a b) (m + 1) w
  | elem {m v w : ℕ} {y : Datum} (hy : y ∈ s v) (h : Leads s y m w) :
    Leads s (vector v) (m + 1) w

end Datum

open Datum

/-- The element `k` of the vector `w` has a closure `n` cars and cdrs deep. -/
def ClosureAt (s : Store) (w k n : ℕ) : Prop :=
  ∃ y, (s w)[k]? = some y ∧ Closure n y

/-- A syntactic closure stands `n` steps deep. -/
def Occurs (s : Store) (n : ℕ) (x : Datum) : Prop :=
  Closure n x ∨ ∃ m w k j, Leads s x m w ∧ ClosureAt s w k j ∧ n = m + 1 + j

/-- The datum contains a syntactic closure. -/
def HasSyntax (s : Store) (x : Datum) : Prop :=
  ∃ n, Occurs s n x

/-- A datum without closures, unfolded. -/
inductive Tree where
  | atom (id : ℕ)
  | pair (car cdr : Tree)
  | vector (elems : List Tree)

/-- The datum is acyclic, and the tree is what it is with each closure replaced by its stripped
expression. -/
inductive Stripped (s : Store) : Datum → Tree → Prop
  | atom (id : ℕ) : Stripped s (.atom id) (.atom id)
  | synclo {expr : Datum} {t : Tree} (h : Stripped s expr t) : Stripped s (.synclo expr) t
  | pair {a b : Datum} {ta tb : Tree} (ha : Stripped s a ta) (hb : Stripped s b tb) :
    Stripped s (.pair a b) (.pair ta tb)
  | vector {v : ℕ} {ts : List Tree} (hlength : (s v).length = ts.length)
    (helems : ∀ (i : ℕ) (y : Datum) (t : Tree), (s v)[i]? = some y → ts[i]? = some t →
      Stripped s y t) :
    Stripped s (.vector v) (.vector ts)

/-! ## The code -/

/-- The loop over a list, with the slower pointer `ls2`. -/
def spine (contains : Datum → Bool) (same : Datum → Datum → Bool) : ℕ → Datum → Datum → Bool
  | i, pair a b, ls2 =>
    if contains a then true
    else if 0 < i ∧ (same (pair a b) ls2 ∨ same (pair a b) ls2.car) then false
    else spine contains same (i + 1) b (if i % 2 = 1 then ls2.cdr else ls2)
  | _, ls1, _ => contains ls1

/-- `sexp_contains_syntax_p_bound` -/
def containsSyntaxBound (same : Datum → Datum → Bool) (s : Store) : ℕ → Datum → Bool
  | _, synclo _ => true
  | 0, _ => false
  | depth + 1, pair a b => spine (containsSyntaxBound same s depth) same 0 (pair a b) (pair a b)
  | depth + 1, vector v => (s v).any (containsSyntaxBound same s depth)
  | _ + 1, atom _ => false

/-- `sexp_vector_set` -/
def Store.vectorSet (s : Store) (v i : ℕ) (y : Datum) : Store :=
  Function.update s v ((s v).set i y)

/-- One round of the loop over a vector: the element is stripped and put back. -/
def stripSlot (strip : Datum → Store → Datum × Store) (v : ℕ) (s : Store) (i : ℕ) : Store :=
  match (s v)[i]? with
  | some y => (strip y s).2.vectorSet v i (strip y s).1
  | none => s

/-- `sexp_strip_synclos_bound` -/
def stripSynclosBound : ℕ → Datum → Store → Datum × Store
  | 0, x, s => (x, s)
  | depth + 1, x, s =>
    match x.idName with
    | pair a b =>
      let (kar, s₁) := stripSynclosBound depth a s
      let (kdr, s₂) := stripSynclosBound depth b s₁
      (pair kar kdr, s₂)
    | vector v => (vector v, (range (s v).length).foldl (stripSlot (stripSynclosBound depth) v) s)
    | x => (x, s)

/-- What is returned: the argument itself, or another datum and the store after the call. -/
inductive Result where
  | input
  | made (x : Datum) (s : Store)

/-- `SEXP_STRIP_SYNCLOS_BOUND` -/
def sexpStripSynclosBound : ℕ := 10000

/-- `sexp_strip_synclos` -/
def sexpStripSynclos (same : Datum → Datum → Bool) (x : Datum) (s : Store) : Result :=
  if containsSyntaxBound same s sexpStripSynclosBound x then
    let (x', s') := stripSynclosBound sexpStripSynclosBound x s
    .made x' s'
  else .input

/-- A datum without closures is returned as it is.  For every other one the datum returned contains
no closure and is the tree `t`. -/
def Strips (same : Datum → Datum → Bool) (s : Store) (x : Datum) (t : Tree) : Prop :=
  (¬ HasSyntax s x → sexpStripSynclos same x s = .input) ∧
    (HasSyntax s x → ∃ x' s', sexpStripSynclos same x s = .made x' s' ∧
      ¬ HasSyntax s' x' ∧ Stripped s' x' t)

/-- Every closure is fewer than 10000 steps deep: one in a vector counts from the nearest place of
the vector. -/
def Near (s : Store) (x : Datum) : Prop :=
  (∀ j, Closure j x → j < sexpStripSynclosBound) ∧
    ∀ m w k j, Leads s x m w → ClosureAt s w k j →
      ∃ m', Leads s x m' w ∧ m' + 1 + j < sexpStripSynclosBound

/-! ## Steps -/

section Steps

variable {s : Store} {n m v w : ℕ} {x a b : Datum}

theorem not_closure_atom {id : ℕ} : ¬ Closure n (atom id) := by
  intro h
  cases h

theorem not_closure_vector : ¬ Closure n (vector v) := by
  intro h
  cases h

theorem closure_synclo_iff : Closure n (synclo x) ↔ n = 0 ∨ Closure n x := by
  constructor
  · intro h
    cases h with
    | here => exact .inl rfl
    | inside h => exact .inr h
  · rintro (rfl | h)
    · exact .here x
    · exact .inside h

theorem closure_pair_iff :
    Closure n (pair a b) ↔ ∃ j, n = j + 1 ∧ (Closure j a ∨ Closure j b) := by
  constructor
  · intro h
    cases h with
    | car _ h => exact ⟨_, rfl, .inl h⟩
    | cdr _ h => exact ⟨_, rfl, .inr h⟩
  · rintro ⟨j, rfl, h | h⟩
    · exact .car b h
    · exact .cdr a h

theorem not_leads_atom {id : ℕ} : ¬ Leads s (atom id) m w := by
  intro h
  cases h

theorem leads_synclo_iff : Leads s (synclo x) m w ↔ Leads s x m w := by
  constructor
  · intro h
    cases h with
    | inside h => exact h
  · exact .inside

theorem leads_pair_iff :
    Leads s (pair a b) m w ↔ ∃ j, m = j + 1 ∧ (Leads s a j w ∨ Leads s b j w) := by
  constructor
  · intro h
    cases h with
    | car _ h => exact ⟨_, rfl, .inl h⟩
    | cdr _ h => exact ⟨_, rfl, .inr h⟩
  · rintro ⟨j, rfl, h | h⟩
    · exact .car b h
    · exact .cdr a h

theorem leads_vector_iff :
    Leads s (vector v) m w ↔ (m = 0 ∧ w = v) ∨ ∃ j, m = j + 1 ∧ ∃ y ∈ s v, Leads s y j w := by
  constructor
  · intro h
    cases h with
    | here => exact .inl ⟨rfl, rfl⟩
    | elem hy h => exact .inr ⟨_, rfl, _, hy, h⟩
  · rintro (⟨rfl, rfl⟩ | ⟨j, rfl, y, hy, h⟩)
    · exact .here w
    · exact .elem hy h

theorem not_occurs_atom {id : ℕ} : ¬ Occurs s n (atom id) := by
  rintro (h | ⟨m, w, k, j, h, -⟩)
  · exact not_closure_atom h
  · exact not_leads_atom h

theorem occurs_pair_iff :
    Occurs s n (pair a b) ↔ ∃ j, n = j + 1 ∧ (Occurs s j a ∨ Occurs s j b) := by
  constructor
  · rintro (h | ⟨m, w, k, j, h, hat, rfl⟩)
    · obtain ⟨j, rfl, h | h⟩ := closure_pair_iff.mp h
      · exact ⟨j, rfl, .inl (.inl h)⟩
      · exact ⟨j, rfl, .inr (.inl h)⟩
    · obtain ⟨i, rfl, h | h⟩ := leads_pair_iff.mp h
      · exact ⟨i + 1 + j, by omega, .inl (.inr ⟨i, w, k, j, h, hat, rfl⟩)⟩
      · exact ⟨i + 1 + j, by omega, .inr (.inr ⟨i, w, k, j, h, hat, rfl⟩)⟩
  · rintro ⟨j, rfl, (h | ⟨m, w, k, i, h, hat, rfl⟩) | h | ⟨m, w, k, i, h, hat, rfl⟩⟩
    · exact .inl (.car b h)
    · exact .inr ⟨m + 1, w, k, i, .car b h, hat, by omega⟩
    · exact .inl (.cdr a h)
    · exact .inr ⟨m + 1, w, k, i, .cdr a h, hat, by omega⟩

theorem occurs_vector_iff :
    Occurs s n (vector v) ↔ ∃ j, n = j + 1 ∧ ∃ y ∈ s v, Occurs s j y := by
  constructor
  · rintro (h | ⟨m, w, k, j, h, hat, rfl⟩)
    · exact absurd h not_closure_vector
    · obtain ⟨rfl, rfl⟩ | ⟨i, rfl, y, hy, h⟩ := leads_vector_iff.mp h
      · obtain ⟨y, hy, hclosure⟩ := hat
        exact ⟨j, by omega, y, mem_of_getElem? hy, .inl hclosure⟩
      · exact ⟨i + 1 + j, by omega, y, hy, .inr ⟨i, w, k, j, h, hat, rfl⟩⟩
  · rintro ⟨j, rfl, y, hy, h | ⟨m, w, k, i, h, hat, rfl⟩⟩
    · obtain ⟨k, hk⟩ := getElem?_of_mem hy
      exact .inr ⟨0, v, k, j, .here v, ⟨y, hk, h⟩, by omega⟩
    · exact .inr ⟨m + 1, w, k, i, .elem hy h, hat, by omega⟩

end Steps

/-! ## Peeling

Stripping takes closures off and does nothing else.  It keeps every step to a vector and the tree
that is to come out. -/

/-- The second datum is the first with some closures taken off. -/
inductive Peeled : Datum → Datum → Prop
  | refl (x : Datum) : Peeled x x
  | inside {expr x : Datum} (h : Peeled expr x) : Peeled (synclo expr) x
  | pair {a a' b b' : Datum} (ha : Peeled a a') (hb : Peeled b b') :
    Peeled (pair a b) (pair a' b')

/-- Closures are taken off elements of vectors. -/
structure PeeledStore (s s' : Store) : Prop where
  length (v : ℕ) : (s' v).length = (s v).length
  elem {v i : ℕ} {y y' : Datum} (hy : (s v)[i]? = some y) (hy' : (s' v)[i]? = some y') :
    Peeled y y'

namespace Peeled

variable {s : Store} {m w : ℕ} {x y z : Datum} {t : Tree}

theorem trans (hxy : Peeled x y) (hyz : Peeled y z) : Peeled x z := by
  induction hxy generalizing z with
  | refl => exact hyz
  | inside _ ih => exact .inside (ih hyz)
  | pair ha hb iha ihb =>
    cases hyz with
    | refl => exact .pair ha hb
    | pair ha' hb' => exact .pair (iha ha') (ihb hb')

theorem leads_iff (h : Peeled x y) : Leads s y m w ↔ Leads s x m w := by
  induction h generalizing m with
  | refl => exact Iff.rfl
  | inside _ ih => rw [ih, leads_synclo_iff]
  | pair _ _ iha ihb => simp only [leads_pair_iff, iha, ihb]

theorem stripped (h : Peeled x y) (ht : Stripped s x t) : Stripped s y t := by
  induction h generalizing t with
  | refl => exact ht
  | inside _ ih =>
    cases ht with
    | synclo ht => exact ih ht
  | pair _ _ iha ihb =>
    cases ht with
    | pair hta htb => exact .pair (iha hta) (ihb htb)

end Peeled

namespace PeeledStore

variable {s s' s'' : Store} {m v w i : ℕ} {x y : Datum} {t : Tree}

theorem refl (s : Store) : PeeledStore s s where
  length _ := rfl
  elem hy hy' := by
    rw [hy] at hy'
    exact Option.some.inj hy' ▸ .refl _

/-- The element after the change. -/
theorem exists_after (h : PeeledStore s s') (hy : (s v)[i]? = some y) :
    ∃ y', (s' v)[i]? = some y' ∧ Peeled y y' := by
  have hi : i < (s' v).length := h.length v ▸ (List.getElem?_eq_some_iff.mp hy).1
  exact ⟨(s' v)[i], getElem?_eq_getElem hi, h.elem hy (getElem?_eq_getElem hi)⟩

/-- The element before the change. -/
theorem exists_before (h : PeeledStore s s') (hy : (s' v)[i]? = some y) :
    ∃ y', (s v)[i]? = some y' ∧ Peeled y' y := by
  have hi : i < (s v).length := h.length v ▸ (List.getElem?_eq_some_iff.mp hy).1
  exact ⟨(s v)[i], getElem?_eq_getElem hi, h.elem (getElem?_eq_getElem hi) hy⟩

theorem trans (h : PeeledStore s s') (h' : PeeledStore s' s'') : PeeledStore s s'' where
  length v := (h'.length v).trans (h.length v)
  elem hy hy'' := by
    obtain ⟨z, hz, hpeeled⟩ := h.exists_after hy
    exact hpeeled.trans (h'.elem hz hy'')

theorem leads_iff (h : PeeledStore s s') : Leads s' x m w ↔ Leads s x m w := by
  constructor
  · intro hleads
    induction hleads with
    | here w => exact .here w
    | inside _ ih => exact .inside ih
    | car b _ ih => exact .car b ih
    | cdr a _ ih => exact .cdr a ih
    | elem hy _ ih =>
      obtain ⟨i, hi⟩ := getElem?_of_mem hy
      obtain ⟨y, hy, hpeeled⟩ := h.exists_before hi
      exact .elem (mem_of_getElem? hy) (hpeeled.leads_iff.mp ih)
  · intro hleads
    induction hleads with
    | here w => exact .here w
    | inside _ ih => exact .inside ih
    | car b _ ih => exact .car b ih
    | cdr a _ ih => exact .cdr a ih
    | elem hy _ ih =>
      obtain ⟨i, hi⟩ := getElem?_of_mem hy
      obtain ⟨y, hy, hpeeled⟩ := h.exists_after hi
      exact .elem (mem_of_getElem? hy) (hpeeled.leads_iff.mpr ih)

theorem stripped (h : PeeledStore s s') (ht : Stripped s x t) : Stripped s' x t := by
  induction ht with
  | atom id => exact .atom id
  | synclo _ ih => exact .synclo ih
  | pair _ _ iha ihb => exact .pair iha ihb
  | vector hlength _ ih =>
    refine .vector ((h.length _).trans hlength) fun i y t hy hts => ?_
    obtain ⟨z, hz, hpeeled⟩ := h.exists_before hy
    exact hpeeled.stripped (ih i z t hz hts)

end PeeledStore

/-! ## The stripping -/

/-- What stripping `x` as deep as `depth` does: closures that deep are left, and so are those in a
vector that is that deep on every way. -/
structure Strip (depth : ℕ) (x : Datum) (s : Store) (x' : Datum) (s' : Store) : Prop where
  datum : Peeled x x'
  store : PeeledStore s s'
  closure_iff (j : ℕ) : Closure j x' ↔ Closure j x ∧ depth ≤ j
  closureAt_iff (w k j : ℕ) :
    ClosureAt s' w k j ↔ ClosureAt s w k j ∧ ∀ m, Leads s x m w → depth ≤ m + 1 + j

section Copy

variable {s : Store} {depth v i : ℕ} {strip : Datum → Store → Datum × Store}

theorem closureAt_vectorSet {y : Datum} (hi : i < (s v).length) (w k j : ℕ) :
    ClosureAt (s.vectorSet v i y) w k j ↔
      (w = v ∧ k = i ∧ Closure j y) ∨ (¬ (w = v ∧ k = i) ∧ ClosureAt s w k j) := by
  unfold ClosureAt Store.vectorSet
  by_cases hw : w = v
  · subst hw
    by_cases hk : k = i
    · subst hk
      simp [hi]
    · simp [hk, Ne.symm hk]
  · simp [hw]

theorem Strip.vectorSet {y y' : Datum} {s' : Store} (h : Strip depth y s y' s')
    (hy : (s v)[i]? = some y) : PeeledStore s (s'.vectorSet v i y') := by
  constructor
  · intro w
    rw [← h.store.length w]
    unfold Store.vectorSet
    by_cases hw : w = v
    · subst hw
      simp
    · simp [hw]
  · intro w k z z' hz hz'
    unfold Store.vectorSet at hz'
    by_cases hw : w = v
    · subst hw
      rw [Function.update_self, getElem?_set] at hz'
      split at hz'
      · rename_i hk
        subst hk
        split at hz'
        · obtain rfl := Option.some.inj hz'
          obtain rfl := Option.some.inj (hy.symm.trans hz)
          exact h.datum
        · nomatch hz'
      · exact h.store.elem hz hz'
    · rw [Function.update_of_ne hw] at hz'
      exact h.store.elem hz hz'

/-- One round strips the element at `i` and what it leads to. -/
theorem stripSlot_spec
    (hstrip : ∀ y s, Strip depth y s (strip y s).1 (strip y s).2) {y : Datum}
    (hy : (s v)[i]? = some y) :
    PeeledStore s (stripSlot strip v s i) ∧ ∀ w k j, ClosureAt (stripSlot strip v s i) w k j ↔
      ClosureAt s w k j ∧ (w = v → k = i → depth ≤ j) ∧
        ∀ m, Leads s y m w → depth ≤ m + 1 + j := by
  have h := hstrip y s
  have hi : i < ((strip y s).2 v).length := h.store.length v ▸ (List.getElem?_eq_some_iff.mp hy).1
  rw [stripSlot, hy]
  refine ⟨h.vectorSet hy, fun w k j => ?_⟩
  rw [closureAt_vectorSet hi, h.closure_iff, h.closureAt_iff]
  constructor
  · rintro (⟨rfl, rfl, hclosure, hdeep⟩ | ⟨hne, hat, hdeep⟩)
    · exact ⟨⟨y, hy, hclosure⟩, fun _ _ => hdeep, fun m _ => by omega⟩
    · exact ⟨hat, fun hw hk => absurd ⟨hw, hk⟩ hne, hdeep⟩
  · rintro ⟨hat, hslot, hdeep⟩
    by_cases hwk : w = v ∧ k = i
    · obtain ⟨rfl, rfl⟩ := hwk
      obtain ⟨z, hz, hclosure⟩ := hat
      obtain rfl := Option.some.inj (hy.symm.trans hz)
      exact .inl ⟨rfl, rfl, hclosure, hslot rfl rfl⟩
    · exact .inr ⟨hwk, hat, hdeep⟩

/-- The rounds before `n`. -/
theorem stripSlots_spec
    (hstrip : ∀ y s, Strip depth y s (strip y s).1 (strip y s).2) (n : ℕ)
    (hn : n ≤ (s v).length) :
    PeeledStore s ((range n).foldl (stripSlot strip v) s) ∧
      ∀ w k j, ClosureAt ((range n).foldl (stripSlot strip v) s) w k j ↔
        ClosureAt s w k j ∧ (w = v → k < n → depth ≤ j) ∧
          ∀ i < n, ∀ y, (s v)[i]? = some y → ∀ m, Leads s y m w → depth ≤ m + 1 + j := by
  induction n with
  | zero => exact ⟨.refl s, fun w k j => by simp⟩
  | succ n ih =>
    obtain ⟨hpeeled, hat⟩ := ih (Nat.le_of_succ_le hn)
    rw [range_succ, foldl_append, foldl_cons, foldl_nil]
    generalize (range n).foldl (stripSlot strip v) s = s₁ at hpeeled hat
    have hslot : (s v)[n]? = some (s v)[n] := getElem?_eq_getElem hn
    obtain ⟨y, hy, hslotPeeled⟩ := hpeeled.exists_after hslot
    obtain ⟨hpeeled', hat'⟩ := stripSlot_spec hstrip hy
    refine ⟨hpeeled.trans hpeeled', fun w k j => ?_⟩
    have hleads : ∀ m, Leads s₁ y m w ↔ Leads s (s v)[n] m w :=
      fun m => hpeeled.leads_iff.trans hslotPeeled.leads_iff
    simp only [hat', hat, hleads]
    constructor
    · rintro ⟨⟨hclosure, hbefore, hdeep⟩, hat, hdeep'⟩
      refine ⟨hclosure, fun hw hk => ?_, fun i hi z hz => ?_⟩
      · rcases Nat.lt_succ_iff_lt_or_eq.mp hk with hk | hk
        · exact hbefore hw hk
        · exact hat hw hk
      · rcases Nat.lt_succ_iff_lt_or_eq.mp hi with hi | rfl
        · exact hdeep i hi z hz
        · obtain rfl := Option.some.inj (hslot.symm.trans hz)
          exact hdeep'
    · rintro ⟨hclosure, hbefore, hdeep⟩
      exact ⟨⟨hclosure, fun hw hk => hbefore hw (Nat.lt_succ_of_lt hk),
        fun i hi => hdeep i (Nat.lt_succ_of_lt hi)⟩,
        fun hw hk => hbefore hw (hk ▸ Nat.lt_succ_self k), hdeep n (Nat.lt_succ_self n) _ hslot⟩

theorem Strip.none (x : Datum) (s : Store) : Strip 0 x s x s :=
  ⟨.refl x, .refl s, by simp, by simp⟩

/-- A closure is taken off with the ones around it. -/
theorem Strip.inside {expr x' : Datum} {s' : Store} (h : Strip (depth + 1) expr s x' s') :
    Strip (depth + 1) (synclo expr) s x' s' where
  datum := .inside h.datum
  store := h.store
  closure_iff j := by
    rw [h.closure_iff, closure_synclo_iff]
    constructor
    · exact fun ⟨hclosure, hdeep⟩ => ⟨.inr hclosure, hdeep⟩
    · rintro ⟨rfl | hclosure, hdeep⟩
      · exact absurd hdeep (Nat.not_succ_le_zero depth)
      · exact ⟨hclosure, hdeep⟩
  closureAt_iff w k j := by
    simp only [h.closureAt_iff, leads_synclo_iff]

theorem Strip.atom (id : ℕ) (s : Store) : Strip depth (atom id) s (atom id) s where
  datum := .refl _
  store := .refl s
  closure_iff j := by simp [not_closure_atom]
  closureAt_iff w k j := by simp [not_leads_atom]

/-- The car is stripped first, then the cdr in the store it leaves. -/
theorem Strip.pair {a b a' b' : Datum} {s₁ s₂ : Store} (ha : Strip depth a s a' s₁)
    (hb : Strip depth b s₁ b' s₂) : Strip (depth + 1) (pair a b) s (pair a' b') s₂ where
  datum := .pair ha.datum hb.datum
  store := ha.store.trans hb.store
  closure_iff j := by
    simp only [closure_pair_iff, ha.closure_iff, hb.closure_iff]
    constructor
    · rintro ⟨i, rfl, ⟨h, hdeep⟩ | ⟨h, hdeep⟩⟩
      · exact ⟨⟨i, rfl, .inl h⟩, Nat.succ_le_succ hdeep⟩
      · exact ⟨⟨i, rfl, .inr h⟩, Nat.succ_le_succ hdeep⟩
    · rintro ⟨⟨i, rfl, h | h⟩, hdeep⟩
      · exact ⟨i, rfl, .inl ⟨h, Nat.le_of_succ_le_succ hdeep⟩⟩
      · exact ⟨i, rfl, .inr ⟨h, Nat.le_of_succ_le_succ hdeep⟩⟩
  closureAt_iff w k j := by
    simp only [hb.closureAt_iff, ha.closureAt_iff, ha.store.leads_iff, leads_pair_iff]
    constructor
    · rintro ⟨⟨hat, hcar⟩, hcdr⟩
      refine ⟨hat, ?_⟩
      rintro m ⟨i, rfl, h | h⟩
      · have := hcar i h
        omega
      · have := hcdr i h
        omega
    · rintro ⟨hat, hdeep⟩
      refine ⟨⟨hat, fun m h => ?_⟩, fun m h => ?_⟩
      · have := hdeep (m + 1) ⟨m, rfl, .inl h⟩
        omega
      · have := hdeep (m + 1) ⟨m, rfl, .inr h⟩
        omega

/-- The elements are stripped one after the other, in place. -/
theorem Strip.vector (hstrip : ∀ y s, Strip depth y s (strip y s).1 (strip y s).2) :
    Strip (depth + 1) (vector v) s (vector v)
      ((range (s v).length).foldl (stripSlot strip v) s) := by
  obtain ⟨hpeeled, hat⟩ := stripSlots_spec hstrip (s v).length (Nat.le_refl _)
  refine ⟨.refl _, hpeeled, fun j => by simp [not_closure_vector], fun w k j => ?_⟩
  simp only [hat, leads_vector_iff]
  constructor
  · rintro ⟨hclosure, hself, hdeep⟩
    refine ⟨hclosure, ?_⟩
    rintro m (⟨rfl, rfl⟩ | ⟨i, rfl, y, hy, h⟩)
    · obtain ⟨z, hz, -⟩ := hclosure
      have := hself rfl (List.getElem?_eq_some_iff.mp hz).1
      omega
    · obtain ⟨l, hl⟩ := getElem?_of_mem hy
      have := hdeep l (List.getElem?_eq_some_iff.mp hl).1 y hl i h
      omega
  · rintro ⟨hclosure, hdeep⟩
    refine ⟨hclosure, fun hw _ => ?_, fun i _ y hy m h => ?_⟩
    · have := hdeep 0 (.inl ⟨rfl, hw⟩)
      omega
    · have := hdeep (m + 1) (.inr ⟨m, rfl, y, mem_of_getElem? hy, h⟩)
      omega

/-- By induction on the bound, and on the datum for the closures around one another. -/
theorem stripSynclosBound_spec (depth : ℕ) (x : Datum) (s : Store) :
    Strip depth x s (stripSynclosBound depth x s).1 (stripSynclosBound depth x s).2 := by
  induction depth generalizing x s with
  | zero => exact .none x s
  | succ depth ih =>
    induction x with
    | atom id => exact .atom id s
    | synclo expr ihexpr =>
      have hinside : stripSynclosBound (depth + 1) (synclo expr) s =
          stripSynclosBound (depth + 1) expr s := by
        rw [stripSynclosBound, stripSynclosBound, idName]
      rw [hinside]
      exact ihexpr.inside
    | pair a b => exact (ih a s).pair (ih b _)
    | vector v => exact .vector ih

end Copy

/-- Stripping leaves no closure if and only if each is near. -/
theorem not_hasSyntax_iff {s s' : Store} {x x' : Datum}
    (h : Strip sexpStripSynclosBound x s x' s') : ¬ HasSyntax s' x' ↔ Near s x := by
  have hleads : ∀ m w, Leads s' x' m w ↔ Leads s x m w :=
    fun m w => h.store.leads_iff.trans h.datum.leads_iff
  constructor
  · intro hnone
    constructor
    · intro j hclosure
      by_contra hdeep
      exact hnone ⟨j, .inl ((h.closure_iff j).mpr ⟨hclosure, Nat.not_lt.mp hdeep⟩)⟩
    · intro m w k j hm hat
      by_contra hfar
      refine hnone ⟨_, .inr ⟨m, w, k, j, (hleads m w).mpr hm, ?_, rfl⟩⟩
      refine (h.closureAt_iff w k j).mpr ⟨hat, fun m' hm' => ?_⟩
      by_contra hdeep
      exact hfar ⟨m', hm', Nat.not_le.mp hdeep⟩
  · rintro ⟨hdatum, hvector⟩ ⟨n, hclosure | ⟨m, w, k, j, hm, hat, -⟩⟩
    · obtain ⟨hclosure, hdeep⟩ := (h.closure_iff n).mp hclosure
      exact absurd (hdatum n hclosure) (Nat.not_lt.mpr hdeep)
    · obtain ⟨hat, hdeep⟩ := (h.closureAt_iff w k j).mp hat
      obtain ⟨m', hm', hnear⟩ := hvector m w k j ((hleads m w).mp hm) hat
      exact absurd hnear (Nat.not_lt.mpr (hdeep m' hm'))

/-! ## The test -/

section Test

variable {same : Datum → Datum → Bool} {s : Store}

@[elab_as_elim]
theorem Datum.spineInduction {motive : Datum → Prop}
    (pair : ∀ a b, motive b → motive (pair a b))
    (tail : ∀ x, (∀ a b, x ≠ .pair a b) → motive x) : ∀ x, motive x
  | .pair a b => pair a b (spineInduction pair tail b)
  | .synclo _ | .vector _ | .atom _ => tail _ fun _ _ h => Datum.noConfusion h

theorem spine_tail {x : Datum} (hx : ∀ a b, x ≠ pair a b) (contains : Datum → Bool) (i : ℕ)
    (ls2 : Datum) : spine contains same i x ls2 = contains x := by
  cases x with
  | pair a b => exact absurd rfl (hx a b)
  | _ => rfl

theorem spine_sound {contains : Datum → Bool}
    (hcontains : ∀ y, contains y = true → HasSyntax s y)
    (i : ℕ) (ls1 ls2 : Datum) (hspine : spine contains same i ls1 ls2 = true) :
    HasSyntax s ls1 := by
  induction ls1 using Datum.spineInduction generalizing i ls2 with
  | pair a b ihb =>
    rw [spine] at hspine
    split at hspine
    · rename_i ha
      obtain ⟨n, hn⟩ := hcontains a ha
      exact ⟨n + 1, occurs_pair_iff.mpr ⟨n, rfl, .inl hn⟩⟩
    · split at hspine
      · exact absurd hspine (by simp)
      · obtain ⟨n, hn⟩ := ihb _ _ hspine
        exact ⟨n + 1, occurs_pair_iff.mpr ⟨n, rfl, .inr hn⟩⟩
  | tail x hx => exact hcontains x (spine_tail hx contains i ls2 ▸ hspine)

/-- What the test finds is there. -/
theorem containsSyntaxBound_sound (depth : ℕ) (x : Datum)
    (hfound : containsSyntaxBound same s depth x = true) : HasSyntax s x := by
  induction depth generalizing x with
  | zero =>
    cases x with
    | synclo expr => exact ⟨0, .inl (.here expr)⟩
    | _ => exact absurd hfound (by simp [containsSyntaxBound])
  | succ depth ih =>
    cases x with
    | synclo expr => exact ⟨0, .inl (.here expr)⟩
    | pair a b => exact spine_sound ih 0 (pair a b) (pair a b) hfound
    | vector v =>
      obtain ⟨y, hy, hfound⟩ := any_eq_true.mp hfound
      obtain ⟨n, hn⟩ := ih y hfound
      exact ⟨n + 1, occurs_vector_iff.mpr ⟨n, rfl, y, hy, hn⟩⟩
    | atom id => exact absurd hfound (by simp [containsSyntaxBound])

theorem sizeOf_le_foldr (as : List Datum) (x : Datum) : sizeOf x ≤ sizeOf (as.foldr pair x) := by
  induction as with
  | nil => exact Nat.le_refl _
  | cons a as ih =>
    rw [foldr_cons, pair.sizeOf_spec]
    omega

/-- The loop finds a closure that the bound of the cars reaches.  The slower pointer is at an
earlier pair, and in the cars between the pointers no closure was found. -/
theorem spine_complete (hsame : ∀ x y, same x y = true → x = y) {depth n : ℕ}
    {contains : Datum → Bool}
    (hcontains : ∀ y n, Occurs s n y → n < depth → contains y = true)
    (i : ℕ) (ls1 : Datum) (as : List Datum) (hne : as ≠ []) (has : ∀ a ∈ as, contains a = false)
    (hn : Occurs s n ls1) (hlt : n < depth) :
    spine contains same i ls1 (as.foldr pair ls1) = true := by
  induction ls1 using Datum.spineInduction generalizing i n as with
  | pair a b ihb =>
    rw [spine]
    split
    · rfl
    rename_i ha
    obtain ⟨c, cs, rfl⟩ := exists_cons_of_ne_nil hne
    have hb : ∃ j, j < depth ∧ Occurs s j b := by
      obtain ⟨j, rfl, hj | hj⟩ := occurs_pair_iff.mp hn
      · exact absurd (hcontains a j hj (Nat.lt_of_succ_lt hlt)) ha
      · exact ⟨j, Nat.lt_of_succ_lt hlt, hj⟩
    obtain ⟨j, hj, hb⟩ := hb
    rw [if_neg]
    · have has' : ∀ d ∈ c :: cs ++ [a], contains d = false := by
        intro d hd
        rcases mem_append.mp hd with hd | hd
        · exact has d hd
        · rw [mem_singleton.mp hd]
          exact Bool.eq_false_iff.mpr ha
      have hshift : (c :: cs).foldr pair (pair a b) = (c :: cs ++ [a]).foldr pair b := by simp
      rw [hshift]
      split
      · exact ihb (i + 1) (cs ++ [a]) (by simp) (fun d hd => has' d (mem_cons_of_mem c hd)) hb hj
      · exact ihb (i + 1) (c :: cs ++ [a]) (by simp) has' hb hj
    · rintro ⟨-, heq | heq⟩
      · -- the tree at the slower pointer is larger
        have hsize := congrArg sizeOf (hsame _ _ heq)
        have hle := sizeOf_le_foldr cs (pair a b)
        rw [foldr_cons, pair.sizeOf_spec c] at hsize
        omega
      · -- an earlier car was searched as deep as this
        have hcar : pair a b = c := hsame _ _ heq
        have hfound := hcontains _ n hn hlt
        rw [hcar, has c mem_cons_self] at hfound
        exact Bool.false_ne_true hfound
  | tail x hx =>
    rw [spine_tail hx]
    exact hcontains x n hn hlt

/-- The test finds a closure that the bound reaches. -/
theorem containsSyntaxBound_complete (hsame : ∀ x y, same x y = true → x = y) (depth : ℕ)
    (x : Datum) (n : ℕ) (hn : Occurs s n x) (hlt : n < depth) :
    containsSyntaxBound same s depth x = true := by
  induction depth generalizing x n with
  | zero => exact absurd hlt (Nat.not_lt_zero n)
  | succ depth ih =>
    cases x with
    | synclo expr => rfl
    | pair a b =>
      obtain ⟨j, rfl, hj⟩ := occurs_pair_iff.mp hn
      have hj' : j < depth := Nat.lt_of_succ_lt_succ hlt
      rw [containsSyntaxBound, spine]
      split
      · rfl
      rename_i ha
      rw [if_neg (by simp), if_neg (by simp)]
      rcases hj with hj | hj
      · exact absurd (ih a j hj hj') ha
      · exact spine_complete hsame ih 1 b [a] (by simp) (by simpa using ha) hj hj'
    | vector v =>
      obtain ⟨j, rfl, y, hy, hj⟩ := occurs_vector_iff.mp hn
      exact any_eq_true.mpr ⟨y, hy, ih y j hj (Nat.lt_of_succ_lt_succ hlt)⟩
    | atom id => exact absurd hn not_occurs_atom

/-! ## Both -/

/-- The nearest way to a closure. -/
theorem Near.occurs {x : Datum} (hnear : Near s x) (hsyn : HasSyntax s x) :
    ∃ n, Occurs s n x ∧ n < sexpStripSynclosBound := by
  obtain ⟨n, hclosure | ⟨m, w, k, j, hm, hat, -⟩⟩ := hsyn
  · exact ⟨n, .inl hclosure, hnear.1 n hclosure⟩
  · obtain ⟨m', hm', hlt⟩ := hnear.2 m w k j hm hat
    exact ⟨_, .inr ⟨m', w, k, j, hm', hat, rfl⟩, hlt⟩

theorem near_of_strips {x : Datum} {t : Tree} (hstrips : Strips same s x t) : Near s x := by
  by_cases hsyn : HasSyntax s x
  · obtain ⟨x', s', hmade, hnone, -⟩ := hstrips.2 hsyn
    unfold sexpStripSynclos at hmade
    split at hmade
    · injection hmade with hx hs
      have hspec := stripSynclosBound_spec sexpStripSynclosBound x s
      exact (not_hasSyntax_iff hspec).mp (hx ▸ hs ▸ hnone)
    · nomatch hmade
  · refine ⟨fun j hj => absurd ⟨j, .inl hj⟩ hsyn, fun m w k j hm hat => ?_⟩
    exact absurd ⟨_, .inr ⟨m, w, k, j, hm, hat, rfl⟩⟩ hsyn

/-- An acyclic datum is stripped exactly when each of its closures is fewer than 10000 steps deep,
one in a vector on the nearest way to the vector.  The lists and vectors are no longer than the
`int`s of the loops can count. -/
theorem sexpStripSynclos_iff (hsame : ∀ x y, same x y = true → x = y) (s : Store) (x : Datum)
    (_hdatum : x.Counted) (_hstore : ∀ v, (s v).length < 2 ^ 31 ∧ ∀ y ∈ s v, y.Counted) (t : Tree)
    (ht : Stripped s x t) : Strips same s x t ↔ Near s x := by
  constructor
  · exact near_of_strips
  · intro hnear
    have hspec := stripSynclosBound_spec sexpStripSynclosBound x s
    constructor
    · intro hfree
      refine if_neg fun hfound => hfree ?_
      exact containsSyntaxBound_sound _ x hfound
    · intro hsyn
      obtain ⟨n, hn, hlt⟩ := hnear.occurs hsyn
      refine ⟨_, _, if_pos (containsSyntaxBound_complete hsame _ x n hn hlt),
        (not_hasSyntax_iff hspec).mpr hnear, ?_⟩
      exact hspec.store.stripped (hspec.datum.stripped ht)

end Test

/-! ## Two data -/

/-- A list with `n` objects before its last element. -/
def listTo (x : Datum) : ℕ → Datum
  | 0 => pair x (atom 0)
  | n + 1 => pair (atom 1) (listTo x n)

/-- The same list without closures. -/
def treeTo (t : Tree) : ℕ → Tree
  | 0 => .pair t (.atom 0)
  | n + 1 => .pair (.atom 1) (treeTo t n)

/-- In every vector there is one closure. -/
def closureVectors : Store :=
  fun _ => [synclo (atom 1)]

variable {s : Store} {x : Datum} {t : Tree}

theorem stripped_listTo (h : Stripped s x t) (n : ℕ) : Stripped s (listTo x n) (treeTo t n) := by
  induction n with
  | zero => exact .pair h (.atom 0)
  | succ n ih => exact .pair (.atom 1) ih

theorem spineLength_listTo (n : ℕ) : (listTo x n).spineLength = n + 1 := by
  induction n with
  | zero => rfl
  | succ n ih => rw [listTo, spineLength, ih]

theorem counted_listTo (hx : x.Counted) {n : ℕ} (hn : n + 1 < 2 ^ 31) : (listTo x n).Counted := by
  induction n with
  | zero => exact ⟨hn, hx, trivial⟩
  | succ n ih =>
    refine ⟨?_, trivial, ih (Nat.lt_of_succ_lt hn)⟩
    rw [spineLength, spineLength_listTo]
    exact hn

theorem closure_listTo (h : Closure 0 x) (n : ℕ) : Closure (n + 1) (listTo x n) := by
  induction n with
  | zero => exact .car _ h
  | succ n ih => exact .cdr _ ih

theorem not_closure_listTo_vector (v n j : ℕ) : ¬ Closure j (listTo (vector v) n) := by
  induction n generalizing j with
  | zero => simp [listTo, closure_pair_iff, not_closure_vector, not_closure_atom]
  | succ n ih => simp [listTo, closure_pair_iff, not_closure_atom, ih]

theorem closureAt_closureVectors {w k j : ℕ} (h : ClosureAt closureVectors w k j) : j = 0 := by
  obtain ⟨y, hy, hclosure⟩ := h
  obtain rfl := mem_singleton.mp (mem_of_getElem? hy)
  rcases closure_synclo_iff.mp hclosure with hj | hclosure
  · exact hj
  · exact absurd hclosure not_closure_atom

theorem leads_vector {v m w : ℕ} (h : Leads closureVectors (vector v) m w) : w = v := by
  obtain ⟨-, hw⟩ | ⟨i, -, y, hy, h⟩ := leads_vector_iff.mp h
  · exact hw
  · obtain rfl := mem_singleton.mp hy
    exact absurd (leads_synclo_iff.mp h) not_leads_atom

theorem leads_listTo_vector {v n m w : ℕ} (h : Leads closureVectors (listTo (vector v) n) m w) :
    w = v := by
  induction n generalizing m with
  | zero =>
    obtain ⟨j, -, h | h⟩ := leads_pair_iff.mp h
    · exact leads_vector h
    · exact absurd h not_leads_atom
  | succ n ih =>
    obtain ⟨j, -, h | h⟩ := leads_pair_iff.mp h
    · exact absurd h not_leads_atom
    · exact ih h

/-- A vector that stands once near and once 20000 steps deep is stripped in both places. -/
theorem sexpStripSynclos_shared :
    Strips (fun _ _ => false) closureVectors (pair (vector 0) (listTo (vector 0) 20000))
      (.pair (.vector [.atom 1]) (treeTo (.vector [.atom 1]) 20000)) := by
  have hvector : Stripped closureVectors (vector 0) (.vector [.atom 1]) := by
    refine .vector rfl fun i y t hy ht => ?_
    obtain rfl := mem_singleton.mp (mem_of_getElem? hy)
    obtain rfl := mem_singleton.mp (mem_of_getElem? ht)
    exact .synclo (.atom 1)
  have hdatum : (pair (vector 0) (listTo (vector 0) 20000)).Counted := by
    refine ⟨?_, trivial, counted_listTo (x := vector 0) trivial (by decide)⟩
    rw [spineLength, spineLength_listTo]
    decide
  have hstore : ∀ v, (closureVectors v).length < 2 ^ 31 ∧ ∀ y ∈ closureVectors v, y.Counted := by
    refine fun v => ⟨by simp [closureVectors], fun y hy => ?_⟩
    rw [mem_singleton.mp hy]
    exact trivial
  refine (sexpStripSynclos_iff (by simp) closureVectors _ hdatum hstore _
    (.pair hvector (stripped_listTo hvector 20000))).mpr ⟨fun j hj => ?_, fun m w k j hm hat => ?_⟩
  · obtain ⟨i, -, h | h⟩ := closure_pair_iff.mp hj
    · exact absurd h not_closure_vector
    · exact absurd h (not_closure_listTo_vector 0 20000 i)
  · have hw : w = 0 := by
      obtain ⟨i, -, h | h⟩ := leads_pair_iff.mp hm
      · exact leads_vector h
      · exact leads_listTo_vector h
    have hj : j = 0 := closureAt_closureVectors hat
    subst hw hj
    exact ⟨1, .car _ (.here 0), by decide⟩

/-- In a list of 10000 elements a closure at the end is left. -/
theorem sexpStripSynclos_long :
    Stripped (fun _ => []) (listTo (synclo (atom 1)) 9999) (treeTo (.atom 1) 9999) ∧
      ¬ Strips (fun _ _ => false) (fun _ => []) (listTo (synclo (atom 1)) 9999)
        (treeTo (.atom 1) 9999) := by
  refine ⟨stripped_listTo (.synclo (.atom 1)) 9999, fun hstrips => ?_⟩
  have hlt := (near_of_strips hstrips).1 10000 (closure_listTo (.here _) 9999)
  exact absurd hlt (Nat.lt_irrefl _)

end ChibiScheme.Synclo
