import ChibiScheme.Hash.Hash
import ChibiScheme.Hash.Table
import ChibiScheme.Lib.Assoc

/-!
# Hash tables are finite maps

A table holds a map from keys, taken up to the equivalence of the table, to values.  `Valid` ties the
buckets to the map; every operation keeps it and has the outcome of the same operation on the map.
-/

namespace ChibiScheme.Hash

open List Option

variable {K C V A : Type} {keys : Keys K} {eqFn : EqFn K} {hashFn : HashFn K}
  {ht : HashTable K C} {m : K → Option C} {buckets : List (List (K × C))} {len i j : ℕ} {obj : K}
  {c : C}

/-! ## Finding a bucket -/

theorem getBucket_lt (hlen : 0 < len) : getBucket keys len hashFn obj < len := by
  cases hashFn with
  | one => exact Nat.mod_lt _ hlen
  | two => exact Nat.mod_lt _ hlen
  | procedure f =>
    unfold getBucket
    simp only
    split
    · exact hlen
    · split
      · exact hlen
      · omega

theorem getBucket_congr {k k' : K}
    (hhash : hashFn.apply keys k len = hashFn.apply keys k' len) :
    getBucket keys len hashFn k = getBucket keys len hashFn k' := by
  cases hashFn with
  | one => exact Int.ofNat.inj (some.inj hhash)
  | two => exact Int.ofNat.inj (some.inj hhash)
  | procedure f =>
    have hhash : f k len = f k' len := hhash
    unfold getBucket
    simp only [hhash]

/-- Each key is in its bucket. -/
def Placed (keys : Keys K) (hashFn : HashFn K) (buckets : List (List (K × C))) : Prop :=
  ∀ i (hi : i < buckets.length), ∀ cell ∈ buckets[i],
    getBucket keys buckets.length hashFn cell.1 = i

theorem placed_modify (hplaced : Placed keys hashFn buckets)
    {f : List (K × C) → List (K × C)}
    (hf : ∀ hi : i < buckets.length, ∀ cell ∈ f buckets[i],
      getBucket keys buckets.length hashFn cell.1 = i) :
    Placed keys hashFn (buckets.modify i f) := by
  intro i' hi' cell hcell
  rw [length_modify] at hi' ⊢
  rw [getElem_modify] at hcell
  split at hcell
  · rename_i heq
    subst heq
    exact hf hi' cell hcell
  · exact hplaced i' hi' cell hcell

/-! ## More buckets -/

theorem foldl_pushCell (cells : List (K × C)) (hlen : 0 < buckets.length)
    (hplaced : Placed keys hashFn buckets) :
    (cells.foldl (pushCell keys hashFn) buckets).length = buckets.length ∧
      Placed keys hashFn (cells.foldl (pushCell keys hashFn) buckets) ∧
      (cells.foldl (pushCell keys hashFn) buckets).flatten.Perm (cells ++ buckets.flatten) := by
  induction cells generalizing buckets with
  | nil => exact ⟨rfl, hplaced, List.Perm.refl _⟩
  | cons cell cells ih =>
    have hlength : (pushCell keys hashFn buckets cell).length = buckets.length :=
      length_modify _ _ _
    have hpush : Placed keys hashFn (pushCell keys hashFn buckets cell) := by
      refine placed_modify hplaced fun hi other hother => ?_
      rcases mem_cons.mp hother with rfl | hother
      · rfl
      · exact hplaced _ hi other hother
    obtain ⟨hlength', hplaced', hperm⟩ := ih (hlength ▸ hlen) hpush
    refine ⟨hlength'.trans hlength, hplaced', hperm.trans ?_⟩
    have hbucket : getBucket keys buckets.length hashFn cell.1 < buckets.length :=
      getBucket_lt hlen
    obtain ⟨rest, hbefore, hafter⟩ := Assoc.exists_perm_flatten hbucket
    have hcell : (pushCell keys hashFn buckets cell).flatten.Perm (cell :: buckets.flatten) :=
      (hafter _).trans (hbefore.symm.cons cell)
    exact (hcell.append_left cells).trans perm_middle

theorem placed_replicate (count : ℕ) :
    Placed keys hashFn (List.replicate count ([] : List (K × C))) := by
  intro i hi cell hcell
  rw [getElem_replicate] at hcell
  cases hcell

/-! ## Cells -/

theorem exists_perm_cell (hi : i < buckets.length) (hj : j < buckets[i].length) :
    ∃ rest, buckets.flatten.Perm (buckets[i][j] :: rest) ∧
      (∀ f : K × C → K × C, (buckets.modify i fun ls => ls.modify j f).flatten.Perm
        (f buckets[i][j] :: rest)) ∧
      (buckets.modify i fun ls => ls.eraseIdx j).flatten.Perm rest := by
  obtain ⟨others, hbefore, hafter⟩ := Assoc.exists_perm_flatten hi
  have hcell : buckets[i].Perm (buckets[i][j] :: buckets[i].eraseIdx j) :=
    (getElem_cons_eraseIdx_perm hj).symm
  refine ⟨buckets[i].eraseIdx j ++ others, ?_, fun f => ?_, hafter _⟩
  · exact hbefore.trans (hcell.append_right others)
  · exact (hafter _).trans ((Assoc.modify_perm hj f).append_right others)

/-- A map as the contents of a table. -/
def held (m : K → Option V) : K → Option (Contents V) :=
  fun k => (m k).map .value

theorem held_eq_some_iff {m : K → Option V} {key : K} {v : V} :
    held m key = some (.value v) ↔ m key = some v := by
  unfold held
  cases m key with
  | none => simp
  | some v' => simp

theorem held_eq_none {m : K → Option V} {key : K} (hm : m key = none) : held m key = none := by
  rw [held, hm, map_none]

theorem insert_held {r : K → K → Prop} [DecidableRel r] (m : K → Option V) (key : K) (v : V) :
    Assoc.insert r (held m) key (.value v) = held (Assoc.insert r m key v) :=
  Assoc.insert_map _ m key v

theorem erase_held {r : K → K → Prop} [DecidableRel r] (m : K → Option V) (key : K) :
    Assoc.erase r (held m) key = held (Assoc.erase r m key) :=
  Assoc.erase_map _ m key

theorem hashTableFold_eq (ht : HashTable K C) (kons : K → C → A → A) (knil : A) :
    hashTableFold ht kons knil =
      ht.buckets.reverse.flatten.foldl (fun acc cell => kons cell.1 cell.2 acc) knil := by
  rw [foldl_flatten]
  rfl

/-! ## Finding a cell -/

variable [DecidableEq K]

/-- The equivalence of the table. -/
def EqFn.equiv (keys : Keys K) : EqFn K → K → K → Bool
  | one, k, obj => decide (k = obj)
  | two, k, obj => keys.equalp k obj
  | procedure f, k, obj => f k obj

/-- The equivalence is one, and equivalent keys have the same hash for every number of buckets. -/
structure Agree (keys : Keys K) (eqFn : EqFn K) (hashFn : HashFn K) : Prop where
  equivalence : Equivalence fun k k' => eqFn.equiv keys k k' = true
  hash : ∀ k k', eqFn.equiv keys k k' = true →
    ∀ len, hashFn.apply keys k len = hashFn.apply keys k' len

/-- The table represents the map `m`. -/
structure Valid (keys : Keys K) (ht : HashTable K C) (m : K → Option C) : Prop where
  nonempty : 0 < ht.buckets.length
  placed : Placed keys ht.hashFn ht.buckets
  represents :
    Assoc.Represents (fun k k' => ht.eqFn.equiv keys k k' = true) ht.buckets.flatten m
  size : ht.size = ht.buckets.flatten.length

theorem scanBucket_eq (ls : List (K × C)) (obj : K) :
    scanBucket keys ls obj eqFn = ls.findIdx? fun cell => eqFn.equiv keys cell.1 obj := by
  cases eqFn with
  | one => rfl
  | procedure f => rfl
  | two =>
    unfold scanBucket
    simp only
    split
    · rename_i hsimple
      congr 1
      funext cell
      have hiff := keys.equalp_of_simple cell.1 obj hsimple
      show decide (cell.1 = obj) = keys.equalp cell.1 obj
      rw [Bool.eq_iff_iff, decide_eq_true_eq, hiff]
    · rfl

namespace Valid

variable (hagree : Agree keys ht.eqFn ht.hashFn) (hvalid : Valid keys ht m)
include hagree hvalid

theorem scanBucket_cases (obj : K) :
    (m obj = none ∧ scanBucket keys (ht.buckets.getD
        (getBucket keys ht.buckets.length ht.hashFn obj) []) obj ht.eqFn = none) ∨
      ∃ j k c, scanBucket keys (ht.buckets.getD
          (getBucket keys ht.buckets.length ht.hashFn obj) []) obj ht.eqFn = some j ∧
        ht.cellAt (getBucket keys ht.buckets.length ht.hashFn obj, j) = some (k, c) ∧
        ht.eqFn.equiv keys k obj = true ∧ m obj = some c := by
  have hbucket : getBucket keys ht.buckets.length ht.hashFn obj < ht.buckets.length :=
    getBucket_lt hvalid.nonempty
  rw [getD_eq_getElem _ _ hbucket, scanBucket_eq]
  cases hscan : List.findIdx? (fun cell => ht.eqFn.equiv keys cell.1 obj)
      ht.buckets[getBucket keys ht.buckets.length ht.hashFn obj] with
  | none =>
    refine .inl ⟨?_, rfl⟩
    rw [hvalid.represents.eq_none_iff]
    intro cell hmem hequiv
    obtain ⟨ls, hls, hcell⟩ := mem_flatten.mp hmem
    obtain ⟨i, hi, rfl⟩ := getElem_of_mem hls
    -- the cell is in the bucket that was scanned
    have hplace := hvalid.placed i hi cell hcell
    rw [getBucket_congr (hagree.hash _ _ hequiv _)] at hplace
    subst hplace
    have hnot := findIdx?_eq_none_iff.mp hscan cell hcell
    rw [hequiv] at hnot
    cases hnot
  | some j =>
    obtain ⟨hj, hequiv, -⟩ := findIdx?_eq_some_iff_getElem.mp hscan
    rcases hentry : ht.buckets[getBucket keys ht.buckets.length ht.hashFn obj][j] with ⟨k, c⟩
    rw [hentry] at hequiv
    have hmem : (k, c) ∈ ht.buckets.flatten := by
      rw [← hentry]
      exact mem_flatten.mpr ⟨_, getElem_mem hbucket, getElem_mem hj⟩
    refine .inr ⟨j, k, c, rfl, ?_, hequiv, (hvalid.represents.lookup _ _).mpr ⟨k, hmem, hequiv⟩⟩
    unfold HashTable.cellAt
    rw [getElem?_eq_getElem hbucket, ← hentry]
    exact getElem?_eq_getElem hj

theorem setCdr {cell : ℕ × ℕ} {k : K} (c' : C) (hcell : ht.cellAt cell = some (k, c))
    (hequiv : ht.eqFn.equiv keys k obj = true) :
    Valid keys (ht.setCdr cell c')
      (Assoc.insert (fun k k' => ht.eqFn.equiv keys k k' = true) m obj c') := by
  obtain ⟨i, j⟩ := cell
  obtain ⟨ls, hls, hentry⟩ := bind_eq_some_iff.mp hcell
  obtain ⟨hi, rfl⟩ := List.getElem?_eq_some_iff.mp hls
  obtain ⟨hj, hentry⟩ := List.getElem?_eq_some_iff.mp hentry
  obtain ⟨rest, hbefore, hafter, -⟩ := exists_perm_cell hi hj
  have hafter := hafter fun entry => (entry.1, c')
  rw [hentry] at hbefore hafter
  have hbase := hvalid.represents.perm hagree.equivalence hbefore.symm
  refine ⟨?_, ?_, ?_, ?_⟩
  · exact (length_modify _ _ _).symm ▸ hvalid.nonempty
  · refine placed_modify hvalid.placed fun hi entry hmem => ?_
    obtain ⟨n, hn, rfl⟩ := getElem_of_mem hmem
    have hkey := getElem_modify (fun entry : K × C => (entry.1, c')) j ht.buckets[i] n hn
    rw [length_modify] at hn
    have hold := hvalid.placed i hi _ (getElem_mem hn)
    rw [hkey]
    split
    · exact hold
    · exact hold
  · exact (hbase.replace hagree.equivalence hequiv).perm hagree.equivalence hafter
  · exact hvalid.size.trans (hbefore.length_eq.trans hafter.length_eq.symm)

theorem unlink {cell : ℕ × ℕ} {k : K} (hcell : ht.cellAt cell = some (k, c))
    (hequiv : ht.eqFn.equiv keys k obj = true) :
    Valid keys
      { ht with
        size := ht.size - 1
        buckets := ht.buckets.modify cell.1 fun ls => ls.eraseIdx cell.2 }
      (Assoc.erase (fun k k' => ht.eqFn.equiv keys k k' = true) m obj) := by
  obtain ⟨i, j⟩ := cell
  obtain ⟨ls, hls, hentry⟩ := bind_eq_some_iff.mp hcell
  obtain ⟨hi, rfl⟩ := List.getElem?_eq_some_iff.mp hls
  obtain ⟨hj, hentry⟩ := List.getElem?_eq_some_iff.mp hentry
  obtain ⟨rest, hbefore, -, hafter⟩ := exists_perm_cell hi hj
  rw [hentry] at hbefore
  have hbase := hvalid.represents.perm hagree.equivalence hbefore.symm
  refine ⟨?_, ?_, ?_, ?_⟩
  · exact (length_modify _ _ _).symm ▸ hvalid.nonempty
  · exact placed_modify hvalid.placed fun hi entry hmem =>
      hvalid.placed i hi entry (mem_of_mem_eraseIdx hmem)
  · exact (hbase.tail hagree.equivalence hequiv).perm hagree.equivalence hafter
  · have hsize := hvalid.size
    rw [hbefore.length_eq, length_cons, ← hafter.length_eq] at hsize
    exact Nat.sub_eq_of_eq_add hsize

theorem addCell (hnew : m obj = none) :
    Valid keys
      { ht with
        buckets := ht.buckets.modify (getBucket keys ht.buckets.length ht.hashFn obj)
          fun ls => (obj, c) :: ls
        size := ht.size + 1 }
      (Assoc.insert (fun k k' => ht.eqFn.equiv keys k k' = true) m obj c) := by
  have hbucket : getBucket keys ht.buckets.length ht.hashFn obj < ht.buckets.length :=
    getBucket_lt hvalid.nonempty
  obtain ⟨rest, hbefore, hafter⟩ := Assoc.exists_perm_flatten hbucket
  have hperm := (hafter fun ls => (obj, c) :: ls).trans (hbefore.symm.cons (obj, c))
  refine ⟨?_, ?_, ?_, ?_⟩
  · exact (length_modify _ _ _).symm ▸ hvalid.nonempty
  · refine placed_modify hvalid.placed fun hi entry hmem => ?_
    rcases mem_cons.mp hmem with rfl | hmem
    · rfl
    · exact hvalid.placed _ hi entry hmem
  · exact (hvalid.represents.cons hagree.equivalence hnew).perm hagree.equivalence hperm
  · show ht.size + 1 = _
    rw [hperm.length_eq, length_cons, hvalid.size]

theorem regrow : Valid keys (regrowHashTable keys ht) m := by
  have hlen : 0 < (List.replicate (ht.buckets.length * 2) ([] : List (K × C))).length := by
    rw [length_replicate]
    exact Nat.mul_pos hvalid.nonempty (by decide)
  have hnew : Placed keys ht.hashFn (List.replicate (ht.buckets.length * 2) ([] : List (K × C))) :=
    placed_replicate _
  obtain ⟨hlength, hplaced, hperm⟩ := foldl_pushCell ht.buckets.flatten hlen hnew
  have hempty : (List.replicate (ht.buckets.length * 2) ([] : List (K × C))).flatten = [] := by
    simp
  rw [hempty, append_nil] at hperm
  refine ⟨?_, hplaced, ?_, ?_⟩
  · exact hlength.symm ▸ hlen
  · exact hvalid.represents.perm hagree.equivalence hperm
  · exact hvalid.size.trans hperm.length_eq.symm

theorem hashTableCell_some (createp : Option C) (allocated : Bool) (hsome : m obj = some c) :
    ∃ cell k, hashTableCell keys ht obj createp allocated = (some cell, ht) ∧
      ht.cellAt cell = some (k, c) ∧ ht.eqFn.equiv keys k obj = true := by
  rcases hvalid.scanBucket_cases hagree obj with ⟨hnone, -⟩ | ⟨j, k, c', hscan, hcell, hequiv, hm⟩
  · rw [hsome] at hnone
    cases hnone
  · rw [hsome] at hm
    cases hm
    refine ⟨(_, j), k, ?_, hcell, hequiv⟩
    unfold hashTableCell
    simp only [hscan]

theorem hashTableCell_none (allocated : Bool) (hnone : m obj = none) :
    hashTableCell keys ht obj none allocated = (none, ht) := by
  rcases hvalid.scanBucket_cases hagree obj with ⟨-, hscan⟩ | ⟨j, k, c', -, -, -, hm⟩
  · unfold hashTableCell
    simp only [hscan]
  · rw [hnone] at hm
    cases hm

theorem hashTableCell_new (allocated : Bool) (hnone : m obj = none) (c : C) :
    ∃ cell ht', hashTableCell keys ht obj (some c) allocated = (some cell, ht') ∧
      ht'.eqFn = ht.eqFn ∧ ht'.hashFn = ht.hashFn ∧ ht'.cellAt cell = some (obj, c) ∧
      Valid keys ht' (Assoc.insert (fun k k' => ht.eqFn.equiv keys k k' = true) m obj c) := by
  have hadd : ∀ grown : HashTable K C, Valid keys grown m → grown.eqFn = ht.eqFn →
      grown.hashFn = ht.hashFn → grown.size = ht.size →
      ∃ cell ht', (some (getBucket keys grown.buckets.length ht.hashFn obj, 0),
          { grown with
            buckets := grown.buckets.modify (getBucket keys grown.buckets.length ht.hashFn obj)
              fun ls => (obj, c) :: ls
            size := ht.size + 1 }) = (some cell, ht') ∧
        ht'.eqFn = ht.eqFn ∧ ht'.hashFn = ht.hashFn ∧ ht'.cellAt cell = some (obj, c) ∧
        Valid keys ht' (Assoc.insert (fun k k' => ht.eqFn.equiv keys k k' = true) m obj c) := by
    rintro ⟨buckets, size, hashFn, eqFn⟩ hgrown heqFn hhashFn hsize
    subst heqFn hhashFn hsize
    refine ⟨_, _, rfl, rfl, rfl, ?_, hgrown.addCell hagree hnone⟩
    have hbucket : getBucket keys buckets.length ht.hashFn obj < buckets.length :=
      getBucket_lt hgrown.nonempty
    simp [HashTable.cellAt, hbucket]
  rcases hvalid.scanBucket_cases hagree obj with ⟨-, hscan⟩ | ⟨j, k, c', -, -, -, hm⟩
  · unfold hashTableCell
    simp only [hscan]
    split
    · exact hadd _ (hvalid.regrow hagree) rfl rfl rfl
    · exact hadd ht hvalid rfl rfl rfl
  · rw [hnone] at hm
    cases hm

theorem hashTableCell_createp (obj : K) (createp : C) (allocated : Bool) :
    ∃ cell ht' k c, hashTableCell keys ht obj (some createp) allocated = (some cell, ht') ∧
      ht'.eqFn = ht.eqFn ∧ ht'.hashFn = ht.hashFn ∧
      ht'.cellAt cell = some (k, c) ∧ c = (m obj).getD createp ∧
      ∀ c', Valid keys (ht'.setCdr cell c')
        (Assoc.insert (fun k k' => ht.eqFn.equiv keys k k' = true) m obj c') := by
  cases hm : m obj with
  | some c =>
    obtain ⟨cell, k, hcall, hcell, hequiv⟩ :=
      hvalid.hashTableCell_some hagree (some createp) allocated hm
    exact ⟨cell, ht, k, c, hcall, rfl, rfl, hcell, rfl, fun c' =>
      hvalid.setCdr hagree c' hcell hequiv⟩
  | none =>
    obtain ⟨cell, ht', hcall, heqFn, hhashFn, hcell, hnew⟩ :=
      hvalid.hashTableCell_new hagree allocated hm createp
    refine ⟨cell, ht', obj, createp, hcall, heqFn, hhashFn, hcell, rfl, fun c' => ?_⟩
    have hrefl : ht'.eqFn.equiv keys obj obj = true :=
      heqFn ▸ hagree.equivalence.refl obj
    have hset := hnew.setCdr (heqFn ▸ hhashFn ▸ hagree) c' hcell hrefl
    rw [heqFn, Assoc.insert_insert] at hset
    exact hset

theorem delete (obj : K) :
    Valid keys (hashTableDelete keys ht obj)
      (Assoc.erase (fun k k' => ht.eqFn.equiv keys k k' = true) m obj) := by
  rcases hvalid.scanBucket_cases hagree obj with
    ⟨hnone, hscan⟩ | ⟨j, k, c', hscan, hcell, hequiv, hm⟩
  · unfold hashTableDelete
    simp only [hscan]
    exact ⟨hvalid.nonempty, hvalid.placed,
      hvalid.represents.erase_of_eq_none hagree.equivalence hnone, hvalid.size⟩
  · unfold hashTableDelete
    simp only [hscan]
    exact hvalid.unlink hagree hcell hequiv

end Valid

/-! ## The operations -/

/-- An operation on the map. -/
def Op.apply (equiv : K → K → Bool) (m : K → Option V) : Op K V → Outcome V × (K → Option V)
  | set key value _ => (.void, Assoc.insert (fun k k' => equiv k k' = true) m key value)
  | ref key thunk succeed =>
    match m key, thunk with
    | some v, _ => (.value (succeed v), m)
    | none, some v => (.value v, m)
    | none, none => (.keyNotFound, m)
  | «exists» key => (.boolean (m key).isSome, m)
  | delete key => (.void, Assoc.erase (fun k k' => equiv k k' = true) m key)
  | updateDefault key func default _ =>
    (.void, Assoc.insert (fun k k' => equiv k k' = true) m key (func ((m key).getD default)))

/-- A sequence of operations on the map. -/
def applyOps (equiv : K → K → Bool) (m : K → Option V) :
    List (Op K V) → List (Outcome V) × (K → Option V)
  | [] => ([], m)
  | op :: ops =>
    let (outcome, m) := op.apply equiv m
    let (outcomes, m) := applyOps equiv m ops
    (outcome :: outcomes, m)

theorem perform_refines {ht : HashTable K (Contents V)} {m : K → Option V}
    (hagree : Agree keys ht.eqFn ht.hashFn) (hvalid : Valid keys ht (held m)) (op : Op K V) :
    ∃ ht', op.perform keys ht = some ((op.apply (ht.eqFn.equiv keys) m).1, ht') ∧
      ht'.eqFn = ht.eqFn ∧ ht'.hashFn = ht.hashFn ∧
      Valid keys ht' (held (op.apply (ht.eqFn.equiv keys) m).2) := by
  cases op with
  | set key value allocated =>
    obtain ⟨cell, ht', k, c, hcall, heqFn, hhashFn, -, -, hset⟩ :=
      hvalid.hashTableCell_createp hagree key .isTrue allocated
    -- the cell that was found or made is the one that is set
    have hset := hset (.value value)
    rw [insert_held] at hset
    refine ⟨ht'.setCdr cell (.value value), ?_, heqFn, hhashFn, hset⟩
    simp only [Op.perform, hashTableSet, hcall, Op.apply]
  | ref key thunk succeed =>
    cases hm : m key with
    | some v =>
      obtain ⟨cell, k, hcall, hcell, -⟩ :=
        hvalid.hashTableCell_some hagree none true (held_eq_some_iff.mpr hm)
      refine ⟨ht, ?_, rfl, rfl, ?_⟩
      · simp only [Op.perform, hashTableRef, hcall, hcell, Op.apply, hm, map_some]
      · simp only [Op.apply, hm]
        exact hvalid
    | none =>
      have hcall := hvalid.hashTableCell_none hagree true (held_eq_none hm)
      refine ⟨ht, ?_, rfl, rfl, ?_⟩
      · cases thunk with
        | none => simp only [Op.perform, hashTableRef, hcall, Op.apply, hm, map_some]
        | some v => simp only [Op.perform, hashTableRef, hcall, Op.apply, hm, map_some]
      · cases thunk with
        | none =>
          simp only [Op.apply, hm]
          exact hvalid
        | some v =>
          simp only [Op.apply, hm]
          exact hvalid
  | «exists» key =>
    refine ⟨ht, ?_, rfl, rfl, hvalid⟩
    cases hm : m key with
    | some v =>
      obtain ⟨cell, k, hcall, -, -⟩ :=
        hvalid.hashTableCell_some hagree none true (held_eq_some_iff.mpr hm)
      simp only [Op.perform, hashTableExists, hcall, Op.apply, hm, isSome_some]
    | none =>
      have hcall := hvalid.hashTableCell_none hagree true (held_eq_none hm)
      simp only [Op.perform, hashTableExists, hcall, Op.apply, hm, isSome_none]
  | delete key =>
    have hdelete := hvalid.delete hagree key
    rw [erase_held] at hdelete
    refine ⟨hashTableDelete keys ht key, rfl, ?_, ?_, hdelete⟩
    · unfold hashTableDelete
      simp only
      split <;> rfl
    · unfold hashTableDelete
      simp only
      split <;> rfl
  | updateDefault key func default allocated =>
    obtain ⟨cell, ht', k, c, hcall, heqFn, hhashFn, hcell, hc, hset⟩ :=
      hvalid.hashTableCell_createp hagree key .notFound allocated
    have hset := hset (.value (func ((m key).getD default)))
    rw [insert_held] at hset
    refine ⟨ht'.setCdr cell (.value (func ((m key).getD default))), ?_, heqFn, hhashFn, hset⟩
    subst hc
    unfold held at hcell
    cases hm : m key with
    | some v =>
      rw [hm] at hcell
      simp only [Op.perform, hashTableUpdateDefault, hcall, Op.apply, hm, hcell,
        map_some, getD_some]
    | none =>
      rw [hm] at hcell
      simp only [Op.perform, hashTableUpdateDefault, hcall, Op.apply, hm, hcell,
        map_none, map_some, getD_none]

/-! ## Runs -/

theorem runOps_refines {ht : HashTable K (Contents V)} {m : K → Option V}
    (hagree : Agree keys ht.eqFn ht.hashFn) (hvalid : Valid keys ht (held m))
    (ops : List (Op K V)) :
    ∃ ht', runOps keys ht ops = some ((applyOps (ht.eqFn.equiv keys) m ops).1, ht') ∧
      ht'.eqFn = ht.eqFn ∧ ht'.hashFn = ht.hashFn ∧
      Valid keys ht' (held (applyOps (ht.eqFn.equiv keys) m ops).2) := by
  induction ops generalizing ht m with
  | nil => exact ⟨ht, rfl, rfl, rfl, hvalid⟩
  | cons op ops ih =>
    obtain ⟨ht₁, hperform, heqFn, hhashFn, hvalid₁⟩ := perform_refines hagree hvalid op
    obtain ⟨ht', hrun, heqFn', hhashFn', hvalid'⟩ := ih (heqFn ▸ hhashFn ▸ hagree) hvalid₁
    rw [heqFn] at hrun hvalid'
    refine ⟨ht', ?_, heqFn'.trans heqFn, hhashFn'.trans hhashFn, hvalid'⟩
    simp only [runOps, hperform, hrun, bind_eq_bind, bind_some, applyOps]

theorem valid_makeHashTable : Valid keys (makeHashTable eqFn hashFn : HashTable K (Contents V))
    (held fun _ => none) where
  nonempty := by simp [makeHashTable]
  placed := placed_replicate 23
  represents := by
    have hempty : (makeHashTable eqFn hashFn : HashTable K (Contents V)).buckets.flatten = [] := by
      simp [makeHashTable]
    rw [hempty]
    exact Assoc.represents_nil
  size := by simp [makeHashTable]

theorem Valid.exists_entries {ht : HashTable K (Contents V)} {m : K → Option V}
    (hequiv : Equivalence fun k k' => ht.eqFn.equiv keys k k' = true)
    (hvalid : Valid keys ht (held m)) :
    ∃ entries : List (K × V),
      ht.buckets.reverse.flatten = entries.map fun entry => (entry.1, .value entry.2) := by
  have hall : ∀ cell ∈ ht.buckets.reverse.flatten, ∃ entry : K × V,
      (entry.1, Contents.value entry.2) = cell := by
    rintro ⟨k, c⟩ hmem
    have hmem : (k, c) ∈ ht.buckets.flatten := by
      simpa using hmem
    have hlookup : held m k = some c :=
      (hvalid.represents.lookup k c).mpr ⟨k, hmem, hequiv.refl k⟩
    obtain ⟨v, -, rfl⟩ := map_eq_some_iff.mp hlookup
    exact ⟨(k, v), rfl⟩
  generalize ht.buckets.reverse.flatten = cells at hall
  induction cells with
  | nil => exact ⟨[], rfl⟩
  | cons cell cells ih =>
    obtain ⟨entry, rfl⟩ := hall cell mem_cons_self
    obtain ⟨entries, rfl⟩ := ih fun cell hmem => hall cell (mem_cons_of_mem _ hmem)
    exact ⟨entry :: entries, rfl⟩

/-- The table has the given entries, each of them once, and they make up the map. -/
structure Holds (keys : Keys K) (ht : HashTable K (Contents V)) (m : K → Option V)
    (entries : List (K × V)) : Prop where
  /-- Every key is in the bucket that its hash selects. -/
  placed : Placed keys ht.hashFn ht.buckets
  /-- The buckets hold the entries and nothing else. -/
  cells : ht.buckets.flatten.Perm (entries.map fun entry => (entry.1, .value entry.2))
  /-- No key occurs twice. -/
  distinct : entries.Pairwise fun entry entry' => ht.eqFn.equiv keys entry.1 entry'.1 = false
  /-- The map has the values of the entries. -/
  lookup : ∀ key v, m key = some v ↔
    ∃ k, (k, v) ∈ entries ∧ ht.eqFn.equiv keys k key = true
  /-- The size is the number of distinct keys. -/
  size : ht.size = entries.length
  /-- `hash-table-fold` visits every entry once. -/
  fold : ∀ (A : Type) (kons : K → Contents V → A → A) (knil : A),
    hashTableFold ht kons knil =
      entries.foldl (fun acc entry => kons entry.1 (.value entry.2) acc) knil

/-- A new table after any operations: every operation had the outcome that it has on the map, and the
table holds the map. -/
theorem hashTable_refines (hagree : Agree keys eqFn hashFn) (ops : List (Op K V)) :
    ∃ ht entries, runOps keys (makeHashTable eqFn hashFn) ops =
        some ((applyOps (eqFn.equiv keys) (fun _ => none) ops).1, ht) ∧
      ht.eqFn = eqFn ∧ ht.hashFn = hashFn ∧
      Holds keys ht (applyOps (eqFn.equiv keys) (fun _ => none) ops).2 entries := by
  have hnew : Valid keys (makeHashTable eqFn hashFn : HashTable K (Contents V))
      (held fun _ => none) := valid_makeHashTable
  obtain ⟨ht, hrun, heqFn, hhashFn, hvalid⟩ := runOps_refines hagree hnew ops
  have heqFn : ht.eqFn = eqFn := heqFn
  have hequiv : Equivalence fun k k' => ht.eqFn.equiv keys k k' = true :=
    heqFn ▸ hagree.equivalence
  obtain ⟨entries, hentries⟩ := hvalid.exists_entries hequiv
  -- the cells of the buckets are the entries in another order
  have hcells : ht.buckets.flatten.Perm (entries.map fun entry => (entry.1, .value entry.2)) :=
    hentries ▸ ((reverse_perm ht.buckets).flatten).symm
  have hrepresents := hvalid.represents.perm hequiv hcells.symm
  refine ⟨ht, entries, hrun, heqFn, hhashFn, hvalid.placed, hcells, ?_, ?_, ?_, ?_⟩
  · have hdistinct := pairwise_map.mp hrepresents.distinct
    exact hdistinct.imp fun hne => Bool.eq_false_iff.mpr hne
  · intro key v
    have hlookup := hrepresents.lookup key (.value v)
    rw [← held_eq_some_iff]
    refine hlookup.trans ⟨?_, ?_⟩
    · rintro ⟨k, hmem, hk⟩
      obtain ⟨entry, hentry, heq⟩ := List.mem_map.mp hmem
      cases heq
      exact ⟨entry.1, hentry, hk⟩
    · rintro ⟨k, hmem, hk⟩
      exact ⟨k, List.mem_map.mpr ⟨(k, v), hmem, rfl⟩, hk⟩
  · rw [hvalid.size, hcells.length_eq, length_map]
  · intro A kons knil
    rw [hashTableFold_eq, hentries, foldl_map]

/-! ## Objects as keys -/

section Objects

variable {mem : Memory}

/-- A symbol, or an immediate object other than a fixnum. -/
def Val.simple (mem : Memory) : Val → Bool
  | .imm word => decide (word &&& 1 ≠ 1)
  | .ptr address => decide ((mem.obj address).tag = 7)

/-- A symbol exists only once. -/
def Interned (mem : Memory) : Prop :=
  ∀ x y data, mem.obj x = .symbol data → mem.obj y = .symbol data → x = y

theorem exists_symbol {o : Obj} (htag : o.tag = 7) : ∃ data, o = .symbol data := by
  cases o with
  | symbol data => exact ⟨data, rfl⟩
  | _ => cases htag

theorem symbol_right_inj {data data' : List UInt8}
    (hright : (Obj.symbol data).right = (Obj.symbol data').right) : data = data' := by
  have happend := (append_inj hright (by
    have hlength := congrArg List.length hright
    simpa [Obj.right, wordBytes] using hlength)).1
  exact (append_inj happend (by simp [wordBytes])).2

/-- Where the first turn of `equal?` decides, it answers. -/
theorem sexpEqualp_of_turn {a b : Val} {out : Equal.Outcome}
    (hturn : Equal.equalTurn mem.objects a b defaultEqualDepth defaultEqualBound = .inl out) :
    sexpEqualp mem a b = out.result.isSome := by
  have hfuel : defaultEqualBound.toNat + 2 = 100000001 + 1 := by decide
  unfold sexpEqualp sexpEqualpOp Equal.equalpBound
  rw [hfuel, Equal.sexpEqualpBound, hturn]
  rfl

theorem sexpEqualp_self (mem : Memory) (a : Val) : sexpEqualp mem a a = true := by
  rw [sexpEqualp_of_turn (if_pos rfl)]
  rfl

theorem sexpEqualp_imm {a b : Val} {word : UInt64} (hne : a ≠ b)
    (himm : a = .imm word ∨ b = .imm word) : sexpEqualp mem a b = false := by
  have hturn : Equal.equalTurn mem.objects a b defaultEqualDepth defaultEqualBound =
      .inl ⟨none, 1, false⟩ := by
    unfold Equal.equalTurn
    rw [if_neg hne]
    obtain rfl | rfl := himm
    · rfl
    · cases a <;> rfl
  rw [sexpEqualp_of_turn hturn]
  rfl

/-- The second object has no slots, so the first turn decides. -/
theorem sexpEqualp_of_slots {x y tag tag' : ℕ} {left left' right right' : List UInt8}
    {slots : List Val} (hne : x ≠ y) (hx : mem.objects.obj x = .other tag left slots right)
    (hy : mem.objects.obj y = .other tag' left' [] right') :
    sexpEqualp mem (.ptr x) (.ptr y) = true ↔
      tag = tag' ∧ left = left' ∧ (right = [] ∨ right = right') := by
  have hne' : Val.ptr x ≠ .ptr y := fun heq => hne (Val.ptr.inj heq)
  have hturn : Equal.equalTurn mem.objects (.ptr x) (.ptr y) defaultEqualDepth defaultEqualBound =
      .inl ⟨if tag = tag' ∧ left = left' ∧ (right = [] ∨ right = right') then
        some (defaultEqualBound - 1) else none, 1, false⟩ := by
    have hlimit : ¬ (defaultEqualBound < 0 ∨ defaultEqualDepth < 0) := by decide
    simp only [Equal.equalTurn, if_neg hne', hx, hy, if_neg hlimit, List.zip_nil_right,
      List.reverse_nil, skipSame]
    split_ifs <;> first | rfl | tauto
  rw [sexpEqualp_of_turn hturn]
  split_ifs <;> simp [*]

theorem equalp_of_simple (hinterned : Interned mem) (k obj : Val) (hsimple : obj.simple mem = true) :
    sexpEqualp mem k obj = true ↔ k = obj := by
  constructor
  · intro hequal
    by_contra hne
    cases k with
    | imm word =>
      rw [sexpEqualp_imm hne (.inl rfl)] at hequal
      cases hequal
    | ptr x =>
      cases obj with
      | imm word =>
        rw [sexpEqualp_imm hne (.inr rfl)] at hequal
        cases hequal
      | ptr y =>
        obtain ⟨data', hy⟩ := exists_symbol (of_decide_eq_true hsimple)
        have hne' : x ≠ y := fun h => hne (congrArg Val.ptr h)
        have hlayout : mem.objects.obj y = .other 7 [] [] (Obj.symbol data').right := by
          simp [Memory.objects, hy, Obj.layout, Obj.tag, Obj.left, Obj.slots]
        cases hx : mem.objects.obj x with
        | bignum m =>
          have hturn : Equal.equalTurn mem.objects (.ptr x) (.ptr y) defaultEqualDepth
              defaultEqualBound = .inl ⟨none, 1, false⟩ := by
            simp only [Equal.equalTurn, if_neg hne, hx, hlayout]
          rw [sexpEqualp_of_turn hturn] at hequal
          cases hequal
        | flonum f =>
          exact absurd hx (Obj.layout_ne_flonum f)
        | other tag left slots right =>
          obtain ⟨rfl, -, hright⟩ := (sexpEqualp_of_slots hne' hx hlayout).mp hequal
          obtain ⟨htag, -, -, rfl⟩ := Obj.layout_eq_other hx
          obtain ⟨data, hx⟩ := exists_symbol (UInt64.toNat_inj.mp htag : (mem.obj x).tag = 7)
          rw [hx] at hright
          obtain hnil | hright := hright
          · simp [Obj.right] at hnil
          · rw [symbol_right_inj hright] at hx
            exact hne' (hinterned x y data' hx hy)
  · rintro rfl
    exact sexpEqualp_self mem k

/-- Objects as keys, by identity. -/
def objectKeys (hinterned : Interned mem) : Keys Val where
  word
    | .imm word => word.toNat
    | .ptr address => address
  hash obj := (hashOne mem obj 0).toNat
  equalp := sexpEqualp mem
  simple := Val.simple mem
  equalp_of_simple := equalp_of_simple hinterned

/-- A bytevector at every address. -/
def byteVectors : Memory where
  obj address := .bytes [address.toUInt8]
  length_lt _ _ hx := by cases hx

/-- What `equal?` compares there. -/
def byteOf : Val → UInt64 ⊕ UInt8
  | .imm word => .inl word
  | .ptr address => .inr address.toUInt8

theorem sexpEqualp_byteVectors (a b : Val) :
    sexpEqualp byteVectors a b = true ↔ byteOf a = byteOf b := by
  by_cases heq : a = b
  · subst heq
    simp [sexpEqualp_self]
  · cases a with
    | imm word =>
      rw [sexpEqualp_imm heq (.inl rfl)]
      cases b with
      | imm word' => simpa [byteOf] using fun h => heq (congrArg Val.imm h)
      | ptr y => simp [byteOf]
    | ptr x =>
      cases b with
      | imm word' =>
        rw [sexpEqualp_imm heq (.inr rfl)]
        simp [byteOf]
      | ptr y =>
        have hne : x ≠ y := fun h => heq (congrArg Val.ptr h)
        rw [sexpEqualp_of_slots hne rfl rfl]
        simp [byteVectors, byteOf, Obj.left, Obj.right, Obj.tag]

theorem interned_byteVectors : Interned byteVectors := by
  intro x y data hx
  cases hx

theorem hashOne_byteVectors {a b : Val} (hbyte : byteOf a = byteOf b) :
    hashOne byteVectors a 0 = hashOne byteVectors b 0 := by
  cases a with
  | imm word =>
    cases b with
    | imm word' => rw [Sum.inl.inj hbyte]
    | ptr y => cases hbyte
  | ptr x =>
    cases b with
    | imm word' => cases hbyte
    | ptr y =>
      have hobject : byteVectors.obj x = byteVectors.obj y :=
        congrArg (fun byte => Obj.bytes [byte]) (Sum.inr.inj hbyte)
      have hloop : ∀ acc, hashLoop byteVectors hashDepth acc (.ptr x) =
          hashLoop byteVectors hashDepth acc (.ptr y) := by
        intro acc
        simp only [hashDepth, hashLoop, hobject]
      unfold hashOne
      rw [hloop]

theorem agree_byteVectors : Agree (objectKeys interned_byteVectors) .two .two where
  equivalence := by
    have hiff : ∀ a b, EqFn.equiv (objectKeys interned_byteVectors) .two a b = true ↔
        byteOf a = byteOf b := sexpEqualp_byteVectors
    refine ⟨fun a => ?_, fun {a b} h => ?_, fun {a b c} h h' => ?_⟩
    · rw [hiff]
    · rw [hiff] at h ⊢
      exact h.symm
    · rw [hiff] at h h' ⊢
      exact h.trans h'
  hash a b hequiv len := by
    have hbyte := (sexpEqualp_byteVectors a b).mp hequiv
    show some _ = some _
    simp only [objectKeys, hashOne_byteVectors hbyte]

/-- Six operations on two keys that are equal and not the same. -/
theorem hashTable_refines_byteVectors : ∃ ht entries,
    runOps (objectKeys interned_byteVectors) (makeHashTable .two .two)
        [.set (.ptr 1) 10 true, .set (.ptr 257) 20 true, .updateDefault (.ptr 2) Nat.succ 0 false,
          .ref (.ptr 1) none id, .delete (.ptr 258), .exists (.ptr 2)] =
      some ([.void, .void, .void, .value 20, .void, .boolean false], ht) ∧
    ht.eqFn = .two ∧ ht.hashFn = .two ∧
    Holds (objectKeys interned_byteVectors) ht
      (applyOps (EqFn.equiv (objectKeys interned_byteVectors) .two) (fun _ => none)
        [.set (.ptr 1) 10 true, .set (.ptr 257) 20 true, .updateDefault (.ptr 2) Nat.succ 0 false,
          .ref (.ptr 1) none id, .delete (.ptr 258), .exists (.ptr 2)]).2 entries := by
  have houtcomes : (applyOps (EqFn.equiv (objectKeys interned_byteVectors) .two) (fun _ => none)
        [.set (.ptr 1) 10 true, .set (.ptr 257) 20 true, .updateDefault (.ptr 2) Nat.succ 0 false,
          .ref (.ptr 1) none id, .delete (.ptr 258), .exists (.ptr 2)]).1 =
      [.void, .void, .void, .value 20, .void, .boolean false] := by
    decide
  rw [← houtcomes]
  exact hashTable_refines agree_byteVectors _

end Objects

end ChibiScheme.Hash
