import Mathlib
import ChibiScheme.Hash.Refinement

/-!
# Updates that fail

`hash-table-update!` looks up or adds the cell of the key, runs the procedures it was given, and writes
what they return into the cell.  The procedures may raise, and they may use the table themselves, so
they are effects on it here and a cell is known by an address.
-/

namespace ChibiScheme.Hash

open Option

/-- A cell of a table: the address of the pair, and its cdr. -/
structure Cell (V : Type) where
  address : ℕ
  cdr : V
deriving DecidableEq

/-- A table, and the address of the next pair that is made. -/
structure Store (K V : Type) where
  table : HashTable K (Cell V)
  fresh : ℕ

/-- A procedure that may use the table, and raise an `E`. -/
abbrev Effect (K V E A : Type) := EStateM E (Store K V) A

namespace Store

variable {K V E : Type}

/-- `(set-cdr! cell value)`, for the cell at the address, wherever the table holds it now. -/
def setCdr (s : Store K V) (address : ℕ) (value : V) : Store K V :=
  { s with
    table := { s.table with
      buckets := s.table.buckets.map fun ls => ls.map fun entry =>
        if entry.2.address = address then (entry.1, ⟨address, value⟩) else entry } }

/-- The keys of the table, each with its value. -/
def contents (s : Store K V) : List (K × V) :=
  s.table.buckets.flatten.map fun entry => (entry.1, entry.2.cdr)

/-- The same cells, in any order. -/
def SameContents (s s' : Store K V) : Prop :=
  s.contents.Perm s'.contents ∧ s.table.size = s'.table.size

variable [DecidableEq K] (keys : Keys K) (allocated : Bool) (notFound : V)

/-- `(hash-table-cell table key not-found)`: the cell, and the table with it. -/
def cell (s : Store K V) (key : K) : Cell V × Store K V :=
  let created : Cell V := ⟨s.fresh, notFound⟩
  let (position, table) := hashTableCell keys s.table key (some created) allocated
  ((position.bind table.cellAt).elim created Prod.snd, { table, fresh := s.fresh + 1 })

/-- The key has a cell. -/
def hasCell (s : Store K V) (key : K) : Bool :=
  (hashTableCell keys s.table key none allocated).1.isSome

/-! ## The procedures -/

/-- `hash-table-update!` and `hash-table-update!/default`, up to the expression for the new value. -/
def updateCell (key : K) (value : V → Effect K V E V) : Effect K V E Unit := do
  let s ← get
  let (cell, s) := s.cell keys allocated notFound key
  set s
  let v ← value cell.cdr
  modify fun s => s.setCdr cell.address v

/-- The procedures that are run where the cell holds `held`: `func` on what the failure thunk returns if
the key is new, and on what the success procedure returns if it is not.  None are run where the key is
new and there is no failure thunk. -/
def procedures [DecidableEq V] (func : V → Effect K V E V)
    (o : Option (Effect K V E V × Option (V → Effect K V E V))) (held : V) :
    Option (Effect K V E V) :=
  if held = notFound then
    match o with
    | some (thunk, _) => some (thunk >>= func)
    | none => none
  else
    match o with
    | some (_, some succeed) => some (succeed held >>= func)
    | _ => some (func held)

/-- `hash-table-update!`; `err` makes the condition that `error` raises. -/
def hashTableUpdate [DecidableEq V] (err : String → K → E) (key : K) (func : V → Effect K V E V)
    (o : Option (Effect K V E V × Option (V → Effect K V E V))) : Effect K V E Unit :=
  updateCell keys allocated notFound key fun held =>
    match procedures notFound func o held with
    | some run => run
    | none => throw (err "hash-table-update!: key not found" key)

/-- `hash-table-update!/default` -/
def hashTableUpdateDefault [DecidableEq V] (key : K) (func : V → Effect K V E V)
    (default : V) : Effect K V E Unit :=
  updateCell keys allocated notFound key fun held =>
    func (if held = notFound then default else held)

/-! ## What is left after an error -/

/-- Whenever the procedures raise, run on the table `start`, the contents are those of `s`. -/
def Restores (run : Effect K V E V) (start s : Store K V) : Prop :=
  ∀ e s', run start = .error e s' → s'.SameContents s

/-- Procedures that raise have left the table alone. -/
def Quiet (run : Effect K V E V) : Prop :=
  ∀ s e s', run s = .error e s' → s' = s

variable {keys allocated notFound}

theorem hasCell_eq (s : Store K V) (key : K) :
    s.hasCell keys allocated key = (scanBucket keys (s.table.buckets.getD
      (getBucket keys s.table.buckets.length s.table.hashFn key) []) key s.table.eqFn).isSome := by
  unfold hasCell hashTableCell
  cases hscan : scanBucket keys (s.table.buckets.getD
      (getBucket keys s.table.buckets.length s.table.hashFn key) []) key s.table.eqFn with
  | some j => simp only [hscan, isSome_some]
  | none => simp only [hscan, isSome_none]

variable {s : Store K V} {key : K}

theorem cell_of_hasCell (hhas : s.hasCell keys allocated key = true) :
    (s.cell keys allocated notFound key).2.table = s.table := by
  rw [hasCell_eq, isSome_iff_exists] at hhas
  obtain ⟨j, hscan⟩ := hhas
  unfold cell hashTableCell
  simp only [hscan]

theorem cell_size (hnew : s.hasCell keys allocated key = false) :
    (s.cell keys allocated notFound key).2.table.size = s.table.size + 1 := by
  rw [hasCell_eq, isSome_eq_false_iff, isNone_iff_eq_none] at hnew
  unfold cell hashTableCell
  simp only [hnew]

theorem updateCell_error_iff {s' : Store K V} {value : V → Effect K V E V} {e : E} :
    updateCell keys allocated notFound key value s = .error e s' ↔
      value (s.cell keys allocated notFound key).1.cdr (s.cell keys allocated notFound key).2 =
        .error e s' := by
  have hrun : updateCell keys allocated notFound key value s =
      (value (s.cell keys allocated notFound key).1.cdr >>= fun v =>
        modify fun s' => s'.setCdr (s.cell keys allocated notFound key).1.address v)
          (s.cell keys allocated notFound key).2 := rfl
  rw [hrun]
  cases hvalue : value (s.cell keys allocated notFound key).1.cdr
      (s.cell keys allocated notFound key).2 with
  | ok v t => simp [bind, EStateM.bind, hvalue, modify, modifyGet, MonadStateOf.modifyGet,
      EStateM.modifyGet]
  | error e' t => simp [bind, EStateM.bind, hvalue]

theorem updateCell_atomic_iff {value : V → Effect K V E V} :
    (∀ e s', updateCell keys allocated notFound key value s = .error e s' → s'.SameContents s) ↔
      Restores (value (s.cell keys allocated notFound key).1.cdr)
        (s.cell keys allocated notFound key).2 s := by
  simp only [updateCell_error_iff, Restores]

theorem not_sameContents_cell (hnew : s.hasCell keys allocated key = false) :
    ¬ (s.cell keys allocated notFound key).2.SameContents s := by
  intro hsame
  have hsize : (s.cell keys allocated notFound key).2.table.size = s.table.size + 1 :=
    cell_size hnew
  have heq := hsame.2
  omega

/-- Where the procedures leave the table alone, they restore it when it was not touched before them,
or when they do not raise. -/
theorem restores_iff_of_quiet {run : Effect K V E V} (hquiet : Quiet run) :
    Restores run (s.cell keys allocated notFound key).2 s ↔
      s.hasCell keys allocated key = true ∨
        ∀ e s', run (s.cell keys allocated notFound key).2 ≠ .error e s' := by
  constructor
  · intro hrestores
    cases hhas : s.hasCell keys allocated key with
    | true => exact .inl rfl
    | false =>
      refine .inr fun e s' herror => ?_
      have hleft := hquiet _ e s' herror
      have hsame := hrestores e s' herror
      rw [hleft] at hsame
      exact not_sameContents_cell hhas hsame
  · rintro (hhas | hreturns) e s' herror
    · have hleft := hquiet _ e s' herror
      have htable : s'.table = s.table := by rw [hleft, cell_of_hasCell hhas]
      unfold SameContents contents
      rw [htable]
      exact ⟨.refl _, rfl⟩
    · exact absurd herror (hreturns e s')

omit [DecidableEq K] in
theorem quiet_throw (e : E) : Quiet (throw e : Effect K V E V) := by
  intro s e' s' herror
  cases herror
  rfl

theorem restores_throw_iff {e : E} :
    Restores (throw e : Effect K V E V) (s.cell keys allocated notFound key).2 s ↔
      s.hasCell keys allocated key = true := by
  rw [restores_iff_of_quiet (quiet_throw e)]
  constructor
  · rintro (hhas | hreturns)
    · exact hhas
    · exact absurd rfl (hreturns e _)
  · exact .inl

/-- `hash-table-update!` keeps the contents in every error of a call when the procedures that it runs
restore them and, where it runs none, the key has a cell already. -/
theorem hashTableUpdate_atomic_iff [DecidableEq V] (keys : Keys K) (allocated : Bool) (notFound : V)
    (err : String → K → E) (s : Store K V) (key : K) (func : V → Effect K V E V)
    (o : Option (Effect K V E V × Option (V → Effect K V E V))) :
    ((∀ e s', hashTableUpdate keys allocated notFound err key func o s = .error e s' →
        s'.SameContents s) ↔
      match procedures notFound func o (s.cell keys allocated notFound key).1.cdr with
      | some run => Restores run (s.cell keys allocated notFound key).2 s
      | none => s.hasCell keys allocated key = true) ∧
    ((∀ run, procedures notFound func o (s.cell keys allocated notFound key).1.cdr = some run →
        Quiet run) →
      ((∀ e s', hashTableUpdate keys allocated notFound err key func o s = .error e s' →
          s'.SameContents s) ↔
        s.hasCell keys allocated key = true ∨
          ∃ run, procedures notFound func o (s.cell keys allocated notFound key).1.cdr = some run ∧
            ∀ e s', run (s.cell keys allocated notFound key).2 ≠ .error e s')) := by
  unfold hashTableUpdate
  rw [updateCell_atomic_iff]
  cases hprocedures : procedures notFound func o (s.cell keys allocated notFound key).1.cdr with
  | some run =>
    refine ⟨Iff.rfl, fun hquiet => ?_⟩
    rw [restores_iff_of_quiet (hquiet run rfl)]
    simp
  | none =>
    have hiff : Restores (throw (err "hash-table-update!: key not found" key) : Effect K V E V)
        (s.cell keys allocated notFound key).2 s ↔ s.hasCell keys allocated key = true :=
      restores_throw_iff
    refine ⟨hiff, fun _ => ?_⟩
    rw [hiff]
    simp

/-- `hash-table-update!/default` with a quiet function: an error keeps the contents only for a key that
has a cell. -/
theorem hashTableUpdateDefault_atomic_iff [DecidableEq V] {func : V → Effect K V E V} {default : V}
    (hquiet : ∀ v, Quiet (func v)) :
    (∀ e s', hashTableUpdateDefault keys allocated notFound key func default s = .error e s' →
        s'.SameContents s) ↔
      s.hasCell keys allocated key = true ∨
        ∀ e s', func (if (s.cell keys allocated notFound key).1.cdr = notFound then default
          else (s.cell keys allocated notFound key).1.cdr)
            (s.cell keys allocated notFound key).2 ≠ .error e s' := by
  unfold hashTableUpdateDefault
  rw [updateCell_atomic_iff]
  exact restores_iff_of_quiet (hquiet _)

/-- A procedure that raises leaves the new cell in the table. -/
theorem hashTableUpdateDefault_atomic_throw :
    ¬ ∀ e s', hashTableUpdateDefault (E := String) (objectKeys interned_byteVectors) true
        (none : Option ℕ) (.imm 15) (fun _ => throw "") none ⟨makeHashTable .one .one, 0⟩ =
          .error e s' → s'.SameContents ⟨makeHashTable .one .one, 0⟩ := by
  rw [hashTableUpdateDefault_atomic_iff fun _ => quiet_throw _, not_or]
  exact ⟨by decide, fun hreturns => hreturns _ _ rfl⟩

/-- `(hash-table-update! (make-hash-table) 7 values)` raises, and leaves the key 7 with the mark of the
procedure for its value. -/
theorem hashTableUpdate_phantom :
    ∃ s', hashTableUpdate (E := String × Val) (objectKeys interned_byteVectors) true
        (none : Option ℕ) Prod.mk (.imm 15) pure none ⟨makeHashTable .one .one, 0⟩ =
      .error ("hash-table-update!: key not found", .imm 15) s' ∧
    s'.contents = [(.imm 15, none)] ∧ s'.table.size = 1 ∧
    ¬ s'.SameContents ⟨makeHashTable .one .one, 0⟩ := by
  refine ⟨_, rfl, by decide, by decide, fun hsame => ?_⟩
  exact absurd hsame.2 (by decide)

end Store

end ChibiScheme.Hash
