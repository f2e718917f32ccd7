import ChibiScheme.Lib.Chain
import Mathlib.Data.List.Perm.Subperm
import Mathlib.Data.List.Range

/-!
# Environments

An environment is a frame with a list of bindings, a list of renames and a parent.  A binding is a cell
whose link to the next one is in the cell itself, so frames can share the rest of a list.  A rename
gives a name for the cell of a binding somewhere else.

Names are symbols, compared by `eq?`.  The cells, renames and frames are numbered in the order in which
they are made.
-/

namespace ChibiScheme.Env

open Linked

/-- The heap of cells, renames and frames. -/
structure Heap (Name Val : Type) where
  /-- The name of a binding. -/
  key : ℕ → Option Name
  value : ℕ → Option Val
  next : ℕ → Link ℕ Unit
  cellCount : ℕ
  /-- The name of a rename, and the cell that it stands for. -/
  renameKey : ℕ → Option Name
  renameCell : ℕ → ℕ
  renameNext : ℕ → Link ℕ Unit
  renameCount : ℕ
  bindings : ℕ → Link ℕ Unit
  renames : ℕ → Link ℕ Unit
  parent : ℕ → Link ℕ Unit
  lambda : ℕ → Bool
  immutable : ℕ → Bool
  frameCount : ℕ

/-- An element of an import list: a name, or a new name and an old one. -/
inductive Import (Name : Type) where
  | same (name : Name)
  | renamed (newname oldname : Name)

namespace Import

variable {Name : Type}

/-- The name in the importing environment. -/
def newname : Import Name → Name
  | same name => name
  | renamed newname _ => newname

/-- The name in the imported environment. -/
def oldname : Import Name → Name
  | same name => name
  | renamed _ oldname => oldname

end Import

section

variable {Name Val : Type} [DecidableEq Name]

/-- No environment has been made. -/
def emptyHeap : Heap Name Val where
  key _ := none
  value _ := none
  next _ := .stop ()
  cellCount := 0
  renameKey _ := none
  renameCell _ := 0
  renameNext _ := .stop ()
  renameCount := 0
  bindings _ := .stop ()
  renames _ := .stop ()
  parent _ := .stop ()
  lambda _ := false
  immutable _ := false
  frameCount := 0

namespace Heap

variable (s : Heap Name Val)

/-! ## Lookup -/

/-- The rename of a name in one frame. -/
def findRename (env : ℕ) (name : Name) : Option (Option ℕ) :=
  (scan s.renameNext (fun r => s.renameKey r == some name) (s.renameCount + 1) none
    (s.renames env)).map fun
      | (_, .cell r) => some r
      | (_, .stop _) => none

/-- The binding of a name in one frame. -/
def findBinding (env : ℕ) (name : Name) : Option (Option ℕ) :=
  (scan s.next (fun c => s.key c == some name) (s.cellCount + 1) none (s.bindings env)).map fun
    | (_, .cell c) => some c
    | (_, .stop _) => none

/-- The loops over the renames and the bindings of one frame. -/
def findCell (env : ℕ) (name : Name) : Option (Option ℕ) :=
  (s.findRename env name).bind fun
    | some r => some (some (s.renameCell r))
    | none => s.findBinding env name

/-- `sexp_env_cell_loc1`.  Without enough fuel there is no result. -/
def envCellLoc1 (name : Name) (localp : Bool) : ℕ → ℕ → Option (Option ℕ)
  | 0, _ => none
  | fuel + 1, env =>
    (s.findCell env name).bind fun
      | some cell => some (some cell)
      | none =>
        if localp then some none
        else
          match s.parent env with
          | .cell parent => envCellLoc1 name localp fuel parent
          | .stop _ => some none

/-- `sexp_env_cell`: every frame is visited once at most. -/
def envCell (env : ℕ) (name : Name) (localp : Bool) : Option (Option ℕ) :=
  s.envCellLoc1 name localp s.frameCount env

/-! ## Definitions -/

/-- `sexp_make_env`, or with a parent `sexp_extend_env`. -/
def makeEnv (parent : Link ℕ Unit) : Heap Name Val :=
  { s with
    bindings := Function.update s.bindings s.frameCount (.stop ())
    renames := Function.update s.renames s.frameCount (.stop ())
    parent := Function.update s.parent s.frameCount parent
    lambda := Function.update s.lambda s.frameCount false
    immutable := Function.update s.immutable s.frameCount false
    frameCount := s.frameCount + 1 }

/-- `sexp_env_push`; the new cell is the last one made. -/
def envPush (env : ℕ) (name : Name) (value : Val) : Heap Name Val :=
  { s with
    key := Function.update s.key s.cellCount (some name)
    value := Function.update s.value s.cellCount (some value)
    next := Function.update s.next s.cellCount (s.bindings env)
    cellCount := s.cellCount + 1
    bindings := Function.update s.bindings env (.cell s.cellCount) }

/-- `sexp_env_rename` -/
def envRename (env : ℕ) (name : Name) (cell : ℕ) : Heap Name Val :=
  { s with
    renameKey := Function.update s.renameKey s.renameCount (some name)
    renameCell := Function.update s.renameCell s.renameCount cell
    renameNext := Function.update s.renameNext s.renameCount (s.renames env)
    renameCount := s.renameCount + 1
    renames := Function.update s.renames env (.cell s.renameCount) }

/-- `sexp_set_cdr` of a cell. -/
def setValue (cell : ℕ) (value : Val) : Heap Name Val :=
  { s with value := Function.update s.value cell (some value) }

/-- `sexp_env_undefine` -/
def envUndefine (env : ℕ) (name : Name) : Option (Heap Name Val) :=
  (scan s.next (fun c => s.key c == some name) (s.cellCount + 1) none (s.bindings env)).map fun
    | (some ls1, .cell ls2) => { s with next := Function.update s.next ls1 (s.next ls2) }
    | (none, .cell ls2) => { s with bindings := Function.update s.bindings env (s.next ls2) }
    | (_, .stop _) => s

/-- The frames of lambdas are left out. -/
def topFrame : ℕ → ℕ → Option ℕ
  | 0, _ => none
  | fuel + 1, env =>
    if s.lambda env then
      match s.parent env with
      | .cell parent => topFrame fuel parent
      | .stop _ => none
    else some env

/-- A renamed definition of the name is removed from the frame. -/
def removeRename (env : ℕ) (name : Name) : Option (Heap Name Val) :=
  (s.findRename env name).map fun
    | some r => { s with renameKey := Function.update s.renameKey r none }
    | none => s

/-- `sexp_env_cell_define`: a top-level definition. -/
def envCellDefine (env : ℕ) (name : Name) (value : Val) : Option (Heap Name Val) :=
  (s.topFrame s.frameCount env).bind fun env =>
    (s.removeRename env name).bind fun s =>
      (s.findBinding env name).map fun
        | some cell => s.setValue cell value
        | none => s.envPush env name value

/-- `sexp_env_define`, which also defines syntax.  A definition in an immutable environment is an error
and changes nothing. -/
def envDefine (syntacticp : Val → Bool) (env : ℕ) (name : Name) (value : Val) :
    Option (Heap Name Val) :=
  if s.immutable env then some s
  else
    (s.envCell env name true).bind fun
      | none => some (s.envPush env name value)
      | some cell =>
        if syntacticp value && !((s.value cell).any syntacticp) then
          (s.envUndefine env name).map fun s => s.envPush env name value
        else some (s.setValue cell value)

/-! ## Import -/

/-- A new frame is put under another one and takes its bindings and renames. -/
def insertFrame (env : ℕ) (valueImmutable envImmutable : Bool) : Heap Name Val :=
  let value := s.frameCount
  { s with
    bindings := Function.update (Function.update s.bindings value (s.bindings env)) env (.stop ())
    renames := Function.update (Function.update s.renames value (s.renames env)) env (.stop ())
    parent := Function.update (Function.update s.parent value (s.parent env)) env (.cell value)
    lambda := Function.update (Function.update s.lambda value (s.lambda env)) env false
    immutable :=
      Function.update (Function.update s.immutable value valueImmutable) env envImmutable
    frameCount := s.frameCount + 1 }

/-- The loop over the names of an import. -/
def importNames (target source : ℕ) : List (Import Name) → Heap Name Val → Option (Heap Name Val)
  | [], s => some s
  | i :: ls, s =>
    (s.envCell source i.oldname false).bind fun
      | some cell => importNames target source ls (s.envRename target i.newname cell)
      | none => importNames target source ls s

/-- An import of everything: the lists are shared. -/
def importAll (target source : ℕ) : Heap Name Val :=
  { s with
    bindings := Function.update s.bindings target (s.bindings source)
    renames := Function.update s.renames target (s.renames source) }

/-- `sexp_env_import_op`: `to` (here `target`) => empty->imports->to -/
def envImport (target source : ℕ) (ls : Option (List (Import Name))) (immutp : Bool) :
    Option (Heap Name Val) :=
  let s := s.insertFrame target (s.immutable target) immutp
  let imported :=
    match ls with
    | none => some (s.importAll target source)
    | some ls => importNames target source ls s
  imported.map fun s => s.insertFrame target false false

end Heap

end

/-! ## Runs -/

section

variable {Name Val : Type}

/-- The heap and the environments of a program. -/
structure State (Name Val : Type) where
  heap : Heap Name Val
  environments : List ℕ

/-- No environment. -/
def initial : State Name Val where
  heap := emptyHeap
  environments := []

/-- The operations.  The parent of a new environment is another one, or there is none. -/
inductive Op (Name Val : Type) where
  | makeEnv (parent : Option ℕ)
  | define (env : ℕ) (name : Name) (value : Val)
  | envDefine (env : ℕ) (name : Name) (value : Val)
  | envImport (target source : ℕ) (ls : Option (List (Import Name))) (immutp : Bool)

namespace Op

/-- The operation is about environments that exist. -/
def valid (environments : List ℕ) : Op Name Val → Bool
  | makeEnv none => true
  | makeEnv (some parent) => decide (parent ∈ environments)
  | define env _ _ => decide (env ∈ environments)
  | envDefine env _ _ => decide (env ∈ environments)
  | .envImport target source _ _ => decide (target ∈ environments ∧ source ∈ environments)

variable [DecidableEq Name]

/-- One operation. -/
def perform (syntacticp : Val → Bool) (s : State Name Val) (op : Op Name Val) :
    Option (State Name Val) :=
  if op.valid s.environments then
    match op with
    | makeEnv parent =>
      some ⟨s.heap.makeEnv (parent.elim (.stop ()) .cell), s.environments ++ [s.heap.frameCount]⟩
    | define env name value =>
      (s.heap.envCellDefine env name value).map fun heap => { s with heap }
    | envDefine env name value =>
      (s.heap.envDefine syntacticp env name value).map fun heap => { s with heap }
    | .envImport target source ls immutp =>
      (s.heap.envImport target source ls immutp).map fun heap => { s with heap }
  else none

end Op

/-- A sequence of operations. -/
def runOps [DecidableEq Name] (syntacticp : Val → Bool) (s : State Name Val) :
    List (Op Name Val) → Option (State Name Val)
  | [] => some s
  | op :: ops => (op.perform syntacticp s).bind fun s => runOps syntacticp s ops

end

/-! ## The layout of the heap

Which cells and renames the lists of every frame consist of, and which frames lie on the way from an
environment to the top.  A lookup takes the first of these frames that has the name. -/

open List Option

variable {Name Val : Type} [DecidableEq Name]

/-- The lists of every frame, the frames inserted under an environment, and the frames on its way to
the top. -/
structure Layout where
  cells : ℕ → List ℕ
  renames : ℕ → List ℕ
  body : ℕ → List ℕ
  path : ℕ → List ℕ

/-- Newer cells come first, and all are in use. -/
def Descending (count : ℕ) (l : List ℕ) : Prop :=
  l.Pairwise (· > ·) ∧ ∀ c ∈ l, c < count

theorem Descending.length_le {count : ℕ} {l : List ℕ} (h : Descending count l) :
    l.length ≤ count := by
  have hnodup : l.Nodup := h.1.imp fun hlt => ne_of_gt hlt
  have hsub : l ⊆ List.range count := fun c hc => mem_range.mpr (h.2 c hc)
  have hle := (hnodup.subperm hsub).length_le
  rwa [length_range] at hle

theorem Descending.mono {count count' : ℕ} {l : List ℕ} (h : Descending count l)
    (hle : count ≤ count') : Descending count' l :=
  ⟨h.1, fun c hc => lt_of_lt_of_le (h.2 c hc) hle⟩

theorem Descending.cons {count : ℕ} {l : List ℕ} (h : Descending count l) :
    Descending (count + 1) (count :: l) := by
  refine ⟨pairwise_cons.mpr ⟨h.2, h.1⟩, fun c hc => ?_⟩
  rcases mem_cons.mp hc with rfl | hc
  · exact Nat.lt_succ_self _
  · exact Nat.lt_succ_of_lt (h.2 c hc)

namespace Heap

variable (s : Heap Name Val) (L : Layout)

/-- The cell of a name in one frame: renames come first. -/
def frameCell (f : ℕ) (name : Name) : Option ℕ :=
  (((L.renames f).find? fun r => s.renameKey r == some name).map s.renameCell).or
    ((L.cells f).find? fun c => s.key c == some name)

/-- The first cell of a name in some frames. -/
def look (frames : List ℕ) (name : Name) : Option ℕ :=
  frames.findSome? fun f => s.frameCell L f name

end Heap

/-- The layout lists what the heap links. -/
structure Fits (s : Heap Name Val) (environments : List ℕ) (L : Layout) : Prop where
  cells : ∀ f, Chain s.next (s.bindings f) (L.cells f) (.stop ())
  cells_lt : ∀ f, Descending s.cellCount (L.cells f)
  renames : ∀ f, Chain s.renameNext (s.renames f) (L.renames f) (.stop ())
  renames_lt : ∀ f, Descending s.renameCount (L.renames f)
  path : ∀ e ∈ environments, Chain s.parent (.cell e) (L.path e) (.stop ())
  nodup : ∀ e ∈ environments, (L.path e).Nodup
  path_lt : ∀ e ∈ environments, ∀ f ∈ L.path e, f < s.frameCount
  body : ∀ e ∈ environments, ∃ rest, L.path e = e :: L.body e ++ rest
  separate : ∀ e ∈ environments, ∀ e' ∈ environments, e' ∉ L.body e
  global : ∀ e ∈ environments, s.lambda e = false
  unused : ∀ f, s.frameCount ≤ f → L.cells f = []

variable {s : Heap Name Val} {environments : List ℕ} {L : Layout} {e f : ℕ} {name : Name}

omit [DecidableEq Name] in
theorem Fits.mem_path (hfits : Fits s environments L) (he : e ∈ environments) : e ∈ L.path e := by
  obtain ⟨rest, hrest⟩ := hfits.body e he
  rw [hrest]
  exact mem_cons_self

omit [DecidableEq Name] in
theorem Fits.lt (hfits : Fits s environments L) (he : e ∈ environments) : e < s.frameCount :=
  hfits.path_lt e he e (hfits.mem_path he)

omit [DecidableEq Name] in
theorem Fits.length_path_le (hfits : Fits s environments L) (he : e ∈ environments) :
    (L.path e).length ≤ s.frameCount := by
  have hsub : L.path e ⊆ List.range s.frameCount := fun f hf =>
    mem_range.mpr (hfits.path_lt e he f hf)
  have hle := ((hfits.nodup e he).subperm hsub).length_le
  rwa [length_range] at hle

/-! ## Lookup -/

theorem headLink_dropWhile (here : ℕ → Bool) (l : List ℕ) :
    (match headLink (l.dropWhile fun c => !here c) (.stop ()) with
      | .cell c => some c
      | .stop _ => none) = l.find? here := by
  induction l with
  | nil => rfl
  | cons c l ih =>
    rw [dropWhile_cons, find?_cons]
    cases here c with
    | true => rfl
    | false => exact ih

variable (hfits : Fits s environments L)
include hfits

theorem findBinding_eq (f : ℕ) (name : Name) :
    s.findBinding f name = some ((L.cells f).find? fun c => s.key c == some name) := by
  unfold Heap.findBinding
  rw [scan_spec (hfits.cells f) (Nat.lt_succ_of_le (hfits.cells_lt f).length_le), map_some,
    ← headLink_dropWhile]
  cases headLink ((L.cells f).dropWhile fun c => !(s.key c == some name)) (.stop ()) <;> rfl

theorem findRename_eq (f : ℕ) (name : Name) :
    s.findRename f name = some ((L.renames f).find? fun r => s.renameKey r == some name) := by
  unfold Heap.findRename
  rw [scan_spec (hfits.renames f) (Nat.lt_succ_of_le (hfits.renames_lt f).length_le),
    map_some, ← headLink_dropWhile]
  cases headLink ((L.renames f).dropWhile fun r => !(s.renameKey r == some name)) (.stop ()) <;> rfl

theorem findCell_eq (f : ℕ) (name : Name) :
    s.findCell f name = some (s.frameCell L f name) := by
  unfold Heap.findCell Heap.frameCell
  rw [findRename_eq hfits, bind_some]
  cases (L.renames f).find? fun r => s.renameKey r == some name with
  | some r => rfl
  | none => exact findBinding_eq hfits f name

theorem envCellLoc1_eq {fuel : ℕ} {frames : List ℕ}
    (hchain : Chain s.parent (.cell e) frames (.stop ())) (hfuel : frames.length ≤ fuel) :
    s.envCellLoc1 name false fuel e = some (s.look L frames name) := by
  induction fuel generalizing e frames with
  | zero =>
    have hnil : frames = [] := eq_nil_of_length_eq_zero (Nat.le_zero.mp hfuel)
    subst hnil
    cases hchain
  | succ fuel ih =>
    cases frames with
    | nil => cases hchain
    | cons f frames =>
      obtain ⟨hstart, hrest⟩ := hchain
      cases hstart
      rw [Heap.envCellLoc1, findCell_eq hfits, bind_some]
      unfold Heap.look
      rw [findSome?_cons]
      cases hcell : s.frameCell L e name with
      | some cell => rfl
      | none =>
        cases frames with
        | nil =>
          rw [chain_nil] at hrest
          simp only [hrest]
          rfl
        | cons parent frames =>
          have hparent := hrest.1
          rw [hparent] at hrest
          simp only [hparent]
          exact ih hrest (Nat.le_of_succ_le_succ hfuel)

theorem envCell_eq (he : e ∈ environments) (name : Name) :
    s.envCell e name false = some (s.look L (L.path e) name) :=
  envCellLoc1_eq hfits (hfits.path e he) (hfits.length_path_le he)

theorem envCell_local (he : e ∈ environments) (name : Name) :
    s.envCell e name true = some (s.frameCell L e name) := by
  unfold Heap.envCell
  obtain ⟨fuel, hfuel⟩ : ∃ fuel, s.frameCount = fuel + 1 :=
    ⟨s.frameCount - 1, by have hlt := hfits.lt he; omega⟩
  rw [hfuel, Heap.envCellLoc1, findCell_eq hfits, bind_some]
  cases s.frameCell L e name <;> rfl

omit hfits

theorem look_append (frames frames' : List ℕ) (name : Name) :
    s.look L (frames ++ frames') name =
      (s.look L frames name).or (s.look L frames' name) := by
  unfold Heap.look
  rw [findSome?_append]

theorem look_congr {s' : Heap Name Val} {L' : Layout} {frames : List ℕ}
    (hsame : ∀ f ∈ frames, s'.frameCell L' f name = s.frameCell L f name) :
    s'.look L' frames name = s.look L frames name := by
  unfold Heap.look
  induction frames with
  | nil => rfl
  | cons f frames ih =>
    rw [findSome?_cons, findSome?_cons, hsame f mem_cons_self,
      ih fun g hg => hsame g (mem_cons_of_mem f hg)]

end ChibiScheme.Env
