import ChibiScheme.Env.Refinement

/-!
# `set!` of imported variables

An import is to make the imported bindings immutable.  The flag is put on the importing environment
while the imports are in its frame, but they are moved into a new frame afterwards, which is not
flagged: nothing rejects a `set!` of an imported variable but a flag on the cell itself.
-/

namespace ChibiScheme.Env

open Linked List Option Function

variable {Name Val ε V : Type} [DecidableEq Name]

/-! ## The analysis -/

namespace Heap

/-- `sexp_env_cell_loc1` with the frame `varenv` where the cell was found. -/
def envCellLocFrame (s : Heap Name Val) (name : Name) : ℕ → ℕ → Option (Option (ℕ × ℕ))
  | 0, _ => none
  | fuel + 1, env =>
    (s.findCell env name).bind fun
      | some cell => some (some (cell, env))
      | none =>
        match s.parent env with
        | .cell parent => envCellLocFrame s name fuel parent
        | .stop _ => some none

/-- `sexp_env_cell_loc` -/
def envCellLoc (s : Heap Name Val) (env : ℕ) (name : Name) : Option (Option (ℕ × ℕ)) :=
  s.envCellLocFrame name s.frameCount env

end Heap

/-- What a name is bound to. -/
inductive Binding where
  | macro_ (variableTransformer : Bool)
  | core
  | variable_
deriving DecidableEq

/-- The results of `analyze_set`: the expansion of a macro, an error, or a set of a cell. -/
inductive SetResult (ε V : Type) where
  | expand
  | error (message : String)
  | valueError (e : ε)
  | set (cell : ℕ) (value : V)
deriving DecidableEq

/-- `analyze_var_ref` of a variable or syntax; a variable without a binding is defined as
`SEXP_UNDEF`. -/
def analyzeVarRef (undef : Val) (s : Heap Name Val) (env : ℕ) (name : Name) :
    Option (Heap Name Val × ℕ × ℕ) :=
  (s.envCellLoc env name).bind fun
    | some (cell, varenv) => some (s, cell, varenv)
    | none =>
      (s.topFrame s.frameCount env).bind fun varenv =>
        (s.envCellDefine env name undef).bind fun s =>
          (s.findBinding varenv name).bind fun cell => cell.map fun cell => (s, cell, varenv)

/-- `analyze_set` of a name and of an expression that has been analyzed to `value`. -/
def analyzeSet (kind : Option Val → Binding) (undef : Val) (cellImmutable : ℕ → Bool)
    (s : Heap Name Val) (env : ℕ) (name : Name) (value : Except ε V) :
    Option (Heap Name Val × SetResult ε V) :=
  (s.envCell env name false).bind fun cell =>
    match cell.map fun cell => kind (s.value cell) with
    | some (.macro_ false) => some (s, .error "can't mutate a syntax keyword")
    | some (.macro_ true) => some (s, .expand)
    | _ =>
      (analyzeVarRef undef s env name).map fun (s, cell, varenv) =>
        (s, match kind (s.value cell) with
          | .macro_ _ => .error "invalid use of syntax as value"
          | .core => .error "invalid use of syntax as value"
          | .variable_ =>
            match value with
            | .error e => .valueError e
            | .ok value =>
              if cellImmutable cell || s.immutable varenv then .error "immutable binding"
              else .set cell value)

/-! ## Runs with immutable environments -/

/-- What a program does with its environments: imports, definitions, and `make-immutable!`. -/
inductive Action (Name Val : Type) where
  | op (op : Op Name Val)
  | makeImmutable (env : ℕ)

namespace Action

/-- `make-immutable!` sets the flag of an environment. -/
def perform (syntacticp : Val → Bool) (s : State Name Val) :
    Action Name Val → Option (State Name Val)
  | op o => o.perform syntacticp s
  | makeImmutable env =>
    if env ∈ s.environments then
      some { s with heap := { s.heap with immutable := Function.update s.heap.immutable env true } }
    else none

/-- Definitions in an immutable environment are refused and do not count. -/
def keeps (syntacticp : Val → Bool) (s : State Name Val) : Action Name Val → Bool
  | op (.envDefine env name value) =>
    s.heap.immutable env || (Op.envDefine env name value).keeps syntacticp s
  | op o => o.keeps syntacticp s
  | makeImmutable _ => true

/-- The action defines the name in the environment `t`. -/
def redefines (s : State Name Val) (t : ℕ) (k : Name) : Action Name Val → Prop
  | op (.envDefine env name _) => s.heap.immutable env = false ∧ env = t ∧ name = k
  | op o => o.binds s t k
  | makeImmutable _ => False

end Action

section

variable (syntacticp : Val → Bool)

/-- Some actions, one after the other. -/
def runActions (s : State Name Val) : List (Action Name Val) → Option (State Name Val)
  | [] => some s
  | a :: actions => (a.perform syntacticp s).bind fun s => runActions s actions

/-- Each action keeps what was imported. -/
def actionsKeep (s : State Name Val) : List (Action Name Val) → Bool
  | [] => true
  | a :: actions =>
    a.keeps syntacticp s &&
      match a.perform syntacticp s with
      | none => true
      | some s => actionsKeep s actions

/-- No action defines the name in the environment `t`. -/
def NoneRedefines (t : ℕ) (k : Name) (s : State Name Val) : List (Action Name Val) → Prop
  | [] => True
  | a :: actions =>
    ¬ a.redefines s t k ∧ ∀ s', a.perform syntacticp s = some s' → NoneRedefines t k s' actions

end

/-! ## The flag of the import frame -/

variable {syntacticp : Val → Bool} {s s' : State Name Val} {h h' : Heap Name Val}
  {environments : List ℕ} {L : Layout} {t source f cell : ℕ} {k : Name}

theorem importNames_fields {ls : List (Import Name)}
    (hrun : Heap.importNames t source ls h = some h') :
    h'.immutable = h.immutable ∧ h'.frameCount = h.frameCount ∧ h'.parent = h.parent := by
  induction ls generalizing h with
  | nil =>
    cases hrun
    exact ⟨rfl, rfl, rfl⟩
  | cons i ls ih =>
    rw [Heap.importNames, bind_eq_some_iff] at hrun
    obtain ⟨cell, -, hrest⟩ := hrun
    cases cell with
    | none => exact ih hrest
    | some cell =>
      have hrest : Heap.importNames t source ls (h.envRename t i.newname cell) = some h' :=
        hrest
      have hfields := ih hrest
      exact hfields

variable {ls : Option (List (Import Name))} {immutp : Bool}

theorem envImport_fields (hrun : h.envImport t source ls immutp = some h') :
    h'.frameCount = h.frameCount + 2 ∧ h'.immutable =
      Function.update (Function.update (Function.update h.immutable h.frameCount (h.immutable t))
        (h.frameCount + 1) false) t false := by
  obtain ⟨h₂, hfill, rfl⟩ := map_eq_some_iff.mp hrun
  have hfields : h₂.immutable = (h.insertFrame t (h.immutable t) immutp).immutable ∧
      h₂.frameCount = h.frameCount + 1 := by
    cases ls with
    | none =>
      cases hfill
      exact ⟨rfl, rfl⟩
    | some ls =>
      obtain ⟨himmutable, hcount, -⟩ := importNames_fields hfill
      exact ⟨himmutable, hcount⟩
  obtain ⟨himmutable, hcount⟩ := hfields
  refine ⟨by simp [Heap.insertFrame, hcount], ?_⟩
  funext f
  simp only [Heap.insertFrame, himmutable, hcount]
  by_cases hft : f = t
  · simp [hft]
  · by_cases hnew : f = h.frameCount + 1
    · subst hnew
      simp [hft]
    · simp [hft, hnew]

variable {value : Val}

theorem envCellDefine_fields (hrun : h.envCellDefine t k value = some h') :
    h'.frameCount = h.frameCount ∧ h'.immutable = h.immutable := by
  obtain ⟨top, -, hrun⟩ := bind_eq_some_iff.mp hrun
  obtain ⟨h₁, hrename, hrun⟩ := bind_eq_some_iff.mp hrun
  obtain ⟨r, -, hrename⟩ := map_eq_some_iff.mp hrename
  obtain ⟨c, -, hrun⟩ := map_eq_some_iff.mp hrun
  have hfields : h₁.frameCount = h.frameCount ∧ h₁.immutable = h.immutable := by
    cases r with
    | none =>
      cases hrename
      exact ⟨rfl, rfl⟩
    | some r =>
      cases hrename
      exact ⟨rfl, rfl⟩
  cases c with
  | none =>
    cases hrun
    exact hfields
  | some c =>
    cases hrun
    exact hfields

theorem envUndefine_fields (hrun : h.envUndefine t k = some h') :
    h'.frameCount = h.frameCount ∧ h'.immutable = h.immutable := by
  obtain ⟨⟨ls1, ls2⟩, -, hrun⟩ := map_eq_some_iff.mp hrun
  cases ls1 with
  | none =>
    cases ls2 with
    | cell c =>
      cases hrun
      exact ⟨rfl, rfl⟩
    | stop u =>
      cases hrun
      exact ⟨rfl, rfl⟩
  | some c =>
    cases ls2 with
    | cell c =>
      cases hrun
      exact ⟨rfl, rfl⟩
    | stop u =>
      cases hrun
      exact ⟨rfl, rfl⟩

theorem envDefine_fields (hrun : h.envDefine syntacticp t k value = some h') :
    h'.frameCount = h.frameCount ∧ h'.immutable = h.immutable := by
  unfold Heap.envDefine at hrun
  split at hrun
  · cases hrun
    exact ⟨rfl, rfl⟩
  · obtain ⟨c, -, hrun⟩ := bind_eq_some_iff.mp hrun
    cases c with
    | none =>
      cases hrun
      exact ⟨rfl, rfl⟩
    | some c =>
      simp only at hrun
      split at hrun
      · obtain ⟨h₁, hundefine, rfl⟩ := map_eq_some_iff.mp hrun
        have hfields := envUndefine_fields hundefine
        exact hfields
      · cases hrun
        exact ⟨rfl, rfl⟩

/-- The environments are frames of the heap. -/
def Numbered (s : State Name Val) : Prop := ∀ e ∈ s.environments, e < s.heap.frameCount

/-- A frame that is not flagged and that the program does not have. -/
structure Unflagged (s : State Name Val) (f : ℕ) : Prop where
  lt : f < s.heap.frameCount
  notMem : f ∉ s.environments
  flag : s.heap.immutable f = false

theorem perform_fields {a : Action Name Val} (hrun : a.perform syntacticp s = some s')
    (hnumbered : Numbered s) :
    Numbered s' ∧ s.heap.frameCount ≤ s'.heap.frameCount ∧
      (∀ f < s.heap.frameCount, f ∉ s.environments →
        f ∉ s'.environments ∧ s'.heap.immutable f = s.heap.immutable f) := by
  cases a with
  | makeImmutable env =>
    simp only [Action.perform] at hrun
    split at hrun
    · rename_i henv
      cases hrun
      refine ⟨hnumbered, le_refl _, fun f _ hf => ⟨hf, ?_⟩⟩
      have hne : f ≠ env := fun heq => hf (heq ▸ henv)
      exact update_of_ne hne _ _
    · cases hrun
  | op o =>
    have hvalid := valid_of_perform hrun
    simp only [Action.perform] at hrun
    unfold Op.perform at hrun
    rw [if_pos hvalid] at hrun
    cases o with
    | makeEnv parent =>
      cases hrun
      refine ⟨fun e he => ?_, Nat.le_succ _, fun f hlt hf => ⟨fun hmem => ?_, ?_⟩⟩
      · rcases mem_append.mp he with he | he
        · exact Nat.lt_succ_of_lt (hnumbered e he)
        · rw [mem_singleton.mp he]
          exact Nat.lt_succ_self _
      · rcases mem_append.mp hmem with hmem | hmem
        · exact hf hmem
        · rw [mem_singleton] at hmem
          omega
      · exact update_of_ne (by omega) _ _
    | define env name value =>
      obtain ⟨h₁, hdefine, rfl⟩ := map_eq_some_iff.mp hrun
      obtain ⟨hcount, himmutable⟩ := envCellDefine_fields hdefine
      refine ⟨fun e he => ?_, hcount.ge, fun f _ hf => ⟨hf, congrFun himmutable f⟩⟩
      exact (hnumbered e he).trans_le hcount.ge
    | envDefine env name value =>
      obtain ⟨h₁, hdefine, rfl⟩ := map_eq_some_iff.mp hrun
      obtain ⟨hcount, himmutable⟩ := envDefine_fields hdefine
      refine ⟨fun e he => ?_, hcount.ge, fun f _ hf => ⟨hf, congrFun himmutable f⟩⟩
      exact (hnumbered e he).trans_le hcount.ge
    | envImport target source ls immutp =>
      obtain ⟨h₁, himport, rfl⟩ := map_eq_some_iff.mp hrun
      obtain ⟨hcount, himmutable⟩ := envImport_fields himport
      obtain ⟨htarget, -⟩ : target ∈ s.environments ∧ source ∈ s.environments :=
        of_decide_eq_true hvalid
      refine ⟨fun e he => ?_, ?_, fun f hlt hf => ⟨hf, ?_⟩⟩
      · have he := hnumbered e he
        show e < h₁.frameCount
        omega
      · show s.heap.frameCount ≤ h₁.frameCount
        omega
      · show h₁.immutable f = _
        have hft : f ≠ target := fun heq => hf (heq ▸ htarget)
        rw [himmutable, update_of_ne hft, update_of_ne (by omega),
          update_of_ne (by omega)]

variable {actions : List (Action Name Val)}

theorem runActions_unflagged (hrun : runActions syntacticp s actions = some s')
    (hnumbered : Numbered s) (hf : Unflagged s f) : Unflagged s' f := by
  induction actions generalizing s with
  | nil =>
    cases hrun
    exact hf
  | cons a actions ih =>
    obtain ⟨s₁, hstep, hrest⟩ := bind_eq_some_iff.mp hrun
    obtain ⟨hnumbered₁, hle, hkeep⟩ := perform_fields hstep hnumbered
    obtain ⟨hmem, hflag⟩ := hkeep f hf.lt hf.notMem
    exact ih hrest hnumbered₁ ⟨hf.lt.trans_le hle, hmem, hflag.trans hf.flag⟩

theorem runActions_numbered (hrun : runActions syntacticp s actions = some s')
    (hnumbered : Numbered s) : Numbered s' := by
  induction actions generalizing s with
  | nil =>
    cases hrun
    exact hnumbered
  | cons a actions ih =>
    obtain ⟨s₁, hstep, hrest⟩ := bind_eq_some_iff.mp hrun
    exact ih hrest (perform_fields hstep hnumbered).1

omit [DecidableEq Name] in
theorem initial_numbered : Numbered (initial : State Name Val) := nofun

theorem envImport_unflagged (hnumbered : Numbered s)
    (hrun : (Op.envImport t source ls immutp).perform syntacticp s = some s') :
    Unflagged s' (s.heap.frameCount + 1) ∧ Numbered s' := by
  have hvalid := valid_of_perform hrun
  obtain ⟨ht, -⟩ : t ∈ s.environments ∧ source ∈ s.environments := of_decide_eq_true hvalid
  have hlt := hnumbered t ht
  have haction : (Action.op (.envImport t source ls immutp)).perform syntacticp s = some s' := hrun
  refine ⟨?_, (perform_fields haction hnumbered).1⟩
  unfold Op.perform at hrun
  rw [if_pos hvalid] at hrun
  obtain ⟨h₁, himport, rfl⟩ := map_eq_some_iff.mp hrun
  obtain ⟨hcount, himmutable⟩ := envImport_fields himport
  refine ⟨?_, fun hmem => ?_, ?_⟩
  · show s.heap.frameCount + 1 < h₁.frameCount
    omega
  · have hmem := hnumbered _ hmem
    omega
  · show h₁.immutable _ = false
    rw [himmutable, update_of_ne (by omega), update_self]

/-! ## The analysis of a found variable -/

theorem envCellLoc1_eq_map (h : Heap Name Val) (name : Name) (fuel env : ℕ) :
    h.envCellLoc1 name false fuel env = (h.envCellLocFrame name fuel env).map (·.map Prod.fst) := by
  induction fuel generalizing env with
  | zero => rfl
  | succ fuel ih =>
    rw [Heap.envCellLoc1, Heap.envCellLocFrame]
    cases h.findCell env name with
    | none => rfl
    | some c =>
      cases c with
      | some cell => rfl
      | none =>
        rw [bind_some, bind_some]
        simp only [Bool.false_eq_true, if_false]
        cases h.parent env with
        | cell parent => exact ih parent
        | stop u => rfl

theorem analyzeSet_found {kind : Option Val → Binding} {undef : Val} {cellImmutable : ℕ → Bool}
    (hloc : h.envCellLoc t k = some (some (cell, f))) (hflag : h.immutable f = false)
    (hkind : kind (h.value cell) = .variable_) (value : V) :
    analyzeSet kind undef cellImmutable h t k (.ok value : Except ε V) =
      some (h, if cellImmutable cell then .error "immutable binding" else .set cell value) := by
  have hcell : h.envCell t k false = some (some cell) := by
    rw [Heap.envCell, envCellLoc1_eq_map]
    unfold Heap.envCellLoc at hloc
    rw [hloc]
    rfl
  unfold analyzeSet analyzeVarRef
  simp only [hcell, hloc, hkind, hflag, bind_some, map_some, Bool.or_false]

/-! ## Without the flags -/

/-- The heap with no flag set; only `sexp_env_define` looks at the flags of frames. -/
def Heap.unflag (h : Heap Name Val) : Heap Name Val := { h with immutable := fun _ => false }

/-- The state with no environment immutable. -/
def State.unflag (s : State Name Val) : State Name Val := { s with heap := s.heap.unflag }

theorem envCell_unflag (h : Heap Name Val) : h.unflag.envCell = h.envCell := by
  have hloc : ∀ (name : Name) (localp : Bool) (fuel env : ℕ),
      h.unflag.envCellLoc1 name localp fuel env = h.envCellLoc1 name localp fuel env := by
    intro name localp fuel
    induction fuel with
    | zero => exact fun _ => rfl
    | succ fuel ih =>
      intro env
      have hfind : h.unflag.findCell env name = h.findCell env name := rfl
      rw [Heap.envCellLoc1, Heap.envCellLoc1, hfind]
      cases h.findCell env name with
      | none => rfl
      | some c =>
        cases c with
        | some cell => rfl
        | none =>
          rw [bind_some, bind_some]
          simp only
          cases localp with
          | true => rfl
          | false =>
            show (match h.parent env with
              | .cell parent => h.unflag.envCellLoc1 name false fuel parent
              | .stop _ => some none) = _
            cases hparent : h.parent env with
            | cell parent => exact ih parent
            | stop u => rfl
  funext env name localp
  exact hloc name localp h.frameCount env

omit [DecidableEq Name] in
theorem topFrame_unflag (h : Heap Name Val) (fuel env : ℕ) :
    h.unflag.topFrame fuel env = h.topFrame fuel env := by
  induction fuel generalizing env with
  | zero => rfl
  | succ fuel ih =>
    rw [Heap.topFrame, Heap.topFrame]
    show (if h.lambda env then
      match h.parent env with
      | .cell parent => h.unflag.topFrame fuel parent
      | .stop _ => none
      else some env) = _
    cases h.parent env with
    | cell parent => simp only [ih parent]
    | stop u => rfl

theorem envCellDefine_unflag (hrun : h.envCellDefine t k value = some h') :
    h.unflag.envCellDefine t k value = some h'.unflag := by
  obtain ⟨top, htop, hrun⟩ := bind_eq_some_iff.mp hrun
  obtain ⟨h₁, hrename, hrun⟩ := bind_eq_some_iff.mp hrun
  obtain ⟨r, hfind, hrename⟩ := map_eq_some_iff.mp hrename
  obtain ⟨c, hbinding, hrun⟩ := map_eq_some_iff.mp hrun
  have hrename' : h.unflag.removeRename top k = some h₁.unflag := by
    have hfind' : h.unflag.findRename top k = some r := hfind
    rw [Heap.removeRename, hfind']
    cases r with
    | none =>
      cases hrename
      rfl
    | some r =>
      cases hrename
      rfl
  have hbinding' : h₁.unflag.findBinding top k = some c := hbinding
  have htop' : h.unflag.topFrame h.unflag.frameCount t = some top :=
    (topFrame_unflag h h.frameCount t).trans htop
  rw [Heap.envCellDefine, htop', bind_some, hrename', bind_some, hbinding']
  cases c with
  | none =>
    cases hrun
    rfl
  | some c =>
    cases hrun
    rfl

theorem envDefine_unflag (hflag : h.immutable t = false)
    (hrun : h.envDefine syntacticp t k value = some h') :
    h.unflag.envDefine syntacticp t k value = some h'.unflag := by
  have hflag' : h.unflag.immutable t = false := rfl
  unfold Heap.envDefine at hrun ⊢
  rw [hflag, if_neg (by decide)] at hrun
  rw [hflag', if_neg (by decide), envCell_unflag]
  obtain ⟨c, hcell, hrun⟩ := bind_eq_some_iff.mp hrun
  rw [hcell, bind_some]
  cases c with
  | none =>
    cases hrun
    rfl
  | some c =>
    have hvalue : h.unflag.value c = h.value c := rfl
    simp only [hvalue] at hrun ⊢
    split at hrun
    · rename_i hsyntax
      obtain ⟨h₁, hundefine, rfl⟩ := map_eq_some_iff.mp hrun
      obtain ⟨⟨ls1, ls2⟩, hscan, hundefine⟩ := map_eq_some_iff.mp hundefine
      have hundefine' : h.unflag.envUndefine t k = some h₁.unflag := by
        have hscan' : scan h.unflag.next (fun c => h.unflag.key c == some k)
            (h.unflag.cellCount + 1) none (h.unflag.bindings t) = some (ls1, ls2) := hscan
        rw [Heap.envUndefine, hscan']
        cases ls1 <;> cases ls2 <;> cases hundefine <;> rfl
      rw [if_pos hsyntax, hundefine']
      rfl
    · rename_i hsyntax
      cases hrun
      rw [if_neg hsyntax]
      rfl

theorem importNames_unflag {ls : List (Import Name)}
    (hrun : Heap.importNames t source ls h = some h') :
    Heap.importNames t source ls h.unflag = some h'.unflag := by
  induction ls generalizing h with
  | nil =>
    cases hrun
    rfl
  | cons i ls ih =>
    rw [Heap.importNames, bind_eq_some_iff] at hrun
    obtain ⟨cell, hcell, hrest⟩ := hrun
    rw [Heap.importNames, envCell_unflag, hcell, bind_some]
    cases cell with
    | none => exact ih hrest
    | some cell =>
      have hrest : Heap.importNames t source ls (h.envRename t i.newname cell) = some h' :=
        hrest
      exact ih hrest

omit [DecidableEq Name] in
theorem insertFrame_unflag (h : Heap Name Val) (t : ℕ) (b b' : Bool) :
    (h.insertFrame t b b').unflag = h.unflag.insertFrame t false false := by
  simp only [Heap.insertFrame, Heap.unflag, Heap.mk.injEq, true_and, and_true]
  funext f
  simp [update_apply]

theorem envImport_unflag (hrun : h.envImport t source ls immutp = some h') :
    h.unflag.envImport t source ls false = some h'.unflag := by
  obtain ⟨h₂, hfill, rfl⟩ := map_eq_some_iff.mp hrun
  have hinsert : h.unflag.insertFrame t (h.unflag.immutable t) false =
      (h.insertFrame t (h.immutable t) immutp).unflag := (insertFrame_unflag h t _ _).symm
  unfold Heap.envImport
  rw [insertFrame_unflag, hinsert]
  cases ls with
  | none =>
    cases hfill
    rfl
  | some ls =>
    simp only
    rw [importNames_unflag hfill]
    rfl

theorem perform_unflag {o : Op Name Val} (hrun : o.perform syntacticp s = some s')
    (hflag : ∀ env name value, o = .envDefine env name value → s.heap.immutable env = false) :
    (∀ target source ls immutp, o ≠ .envImport target source ls immutp) →
      o.perform syntacticp s.unflag = some s'.unflag := by
  have hvalid := valid_of_perform hrun
  have hvalid' : o.valid s.unflag.environments = true := hvalid
  unfold Op.perform at hrun ⊢
  rw [if_pos hvalid] at hrun
  rw [if_pos hvalid']
  intro himport
  cases o with
  | makeEnv parent =>
    cases hrun
    have hmake : (s.heap.makeEnv (parent.elim (.stop ()) .cell)).unflag =
        s.heap.unflag.makeEnv (parent.elim (.stop ()) .cell) := by
      simp [Heap.makeEnv, Heap.unflag]
    simp only [State.unflag, hmake]
    rfl
  | define env name value =>
    obtain ⟨h₁, hdefine, rfl⟩ := map_eq_some_iff.mp hrun
    show (s.heap.unflag.envCellDefine env name value).map _ = _
    rw [envCellDefine_unflag hdefine]
    rfl
  | envDefine env name value =>
    obtain ⟨h₁, hdefine, rfl⟩ := map_eq_some_iff.mp hrun
    show (s.heap.unflag.envDefine syntacticp env name value).map _ = _
    rw [envDefine_unflag (hflag env name value rfl) hdefine]
    rfl
  | envImport target source ls immutp => exact absurd rfl (himport target source ls immutp)

theorem keeps_unflag (o : Op Name Val) : o.keeps syntacticp s.unflag = o.keeps syntacticp s := by
  cases o with
  | makeEnv parent => rfl
  | define env name value => rfl
  | envImport target source ls immutp => rfl
  | envDefine env name value =>
    have hunlinks : unlinks s.unflag.heap syntacticp env name value =
        unlinks s.heap syntacticp env name value := by
      have hcell : s.unflag.heap.envCell env name true = s.heap.envCell env name true := by
        rw [State.unflag, envCell_unflag]
      unfold unlinks
      rw [hcell]
      rfl
    rw [Op.keeps, Op.keeps, hunlinks]
    rfl

theorem importedCells_unflag (ls : Option (List (Import Name))) :
    s.heap.unflag.importedCells source ls = s.heap.importedCells source ls := by
  cases ls with
  | none => rfl
  | some ls =>
    funext k
    simp only [Heap.importedCells, envCell_unflag]

/-! ## Where an imported name is found -/

/-- The invariant, whatever is immutable. -/
def Laid (s : State Name Val) (L : Layout) : Prop := Inv s.heap.unflag s.environments L

/-- The first frame under an environment that has the name is `f`, with the cell. -/
structure Placed (s : State Name Val) (L : Layout) (t : ℕ) (k : Name) (cell f : ℕ) : Prop where
  mem : t ∈ s.environments
  own : s.heap.frameCell L t k = none
  body : ∃ before after, L.body t = before ++ f :: after ∧
    ∀ g ∈ before, s.heap.frameCell L g k = none
  cell : s.heap.frameCell L f k = some cell

theorem envCellLocFrame_eq (hfits : Fits h environments L) {fuel e : ℕ} {frames : List ℕ}
    (hchain : Chain h.parent (.cell e) frames (.stop ())) (hfuel : frames.length ≤ fuel) :
    h.envCellLocFrame k fuel e =
      some (frames.findSome? fun f => (h.frameCell L f k).map fun cell => (cell, f)) := by
  induction fuel generalizing e frames with
  | zero =>
    have hnil : frames = [] := eq_nil_of_length_eq_zero (Nat.le_zero.mp hfuel)
    subst hnil
    cases hchain
  | succ fuel ih =>
    cases frames with
    | nil => cases hchain
    | cons f frames =>
      obtain ⟨hstart, hrest⟩ := hchain
      cases hstart
      rw [Heap.envCellLocFrame, findCell_eq hfits, bind_some, findSome?_cons]
      cases hcell : h.frameCell L e k with
      | some cell => rfl
      | none =>
        cases frames with
        | nil =>
          rw [chain_nil] at hrest
          simp only [hrest]
          rfl
        | cons parent frames =>
          have hparent := hrest.1
          rw [hparent] at hrest
          simp only [hparent]
          exact ih hrest (Nat.le_of_succ_le_succ hfuel)

omit [DecidableEq Name] in
theorem Fits.of_unflag (hfits : Fits h.unflag environments L) : Fits h environments L :=
  { hfits with }

theorem Placed.envCellLoc (hplaced : Placed s L t k cell f) (hlaid : Laid s L) :
    s.heap.envCellLoc t k = some (some (cell, f)) := by
  have hfits := Fits.of_unflag hlaid.fits
  obtain ⟨rest, hrest⟩ := hfits.body t hplaced.mem
  obtain ⟨before, after, hbody, hbefore⟩ := hplaced.body
  have heq := envCellLocFrame_eq (k := k) hfits (hfits.path t hplaced.mem)
    (hfits.length_path_le hplaced.mem)
  rw [Heap.envCellLoc, heq, hrest, hbody, cons_append, findSome?_cons, hplaced.own,
    map_none, append_assoc, findSome?_append]
  have hnone : (before.findSome? fun g => (s.heap.frameCell L g k).map fun cell => (cell, g))
      = none := by
    rw [findSome?_eq_none_iff]
    intro g hg
    rw [hbefore g hg]
    rfl
  simp only [hnone, none_or, cons_append, findSome?_cons, hplaced.cell, map_some]

variable {L' : Layout}

theorem Placed.congr (hplaced : Placed s L t k cell f) (hmem : t ∈ s'.environments)
    (hown : s'.heap.frameCell L' t k = s.heap.frameCell L t k) (hbody : L'.body t = L.body t)
    (hcells : ∀ g ∈ L.body t, s'.heap.frameCell L' g k = s.heap.frameCell L g k) :
    Placed s' L' t k cell f := by
  obtain ⟨before, after, hsplit, hbefore⟩ := hplaced.body
  have hin : ∀ g ∈ before ++ f :: after, s'.heap.frameCell L' g k = s.heap.frameCell L g k := by
    rw [← hsplit]
    exact hcells
  refine ⟨hmem, hown.trans hplaced.own, ⟨before, after, hbody.trans hsplit, fun g hg => ?_⟩, ?_⟩
  · rw [hin g (mem_append_left _ hg)]
    exact hbefore g hg
  · rw [hin f (mem_append_right _ mem_cons_self)]
    exact hplaced.cell

theorem Placed.of_stepOn {u : ℕ} (hplaced : Placed s L t k cell f) (hlaid : Laid s L)
    (hsub : s.environments ⊆ s'.environments) (hu : u ∈ s.environments) (hne : u ≠ t)
    (hstep : StepOn s.heap.unflag s'.heap.unflag s.environments L L' u) :
    Placed s' L' t k cell f := by
  have ht := hplaced.mem
  apply hplaced.congr (hsub ht)
  · exact hstep.frameCell t k (hlaid.fits.lt ht) (Ne.symm hne)
  · exact hstep.body t ht (Ne.symm hne)
  · intro g hg
    have hseparate : g ≠ u := fun heq => hlaid.fits.separate t ht u hu (heq ▸ hg)
    exact hstep.frameCell g k (hlaid.fits.body_lt ht hg) hseparate

theorem Placed.of_defined {name : Name} (hplaced : Placed s L t k cell f)
    (hlaid : Laid s L) (hsub : s.environments ⊆ s'.environments)
    (hdefined : Defined s.heap.unflag s'.heap.unflag s.environments L L' t name)
    (hne : k ≠ name) : Placed s' L' t k cell f := by
  have ht := hplaced.mem
  apply hplaced.congr (hsub ht)
  · exact hdefined.others k hne
  · exact congrFun hdefined.body t
  · intro g hg
    have hseparate : g ≠ t := fun heq => hlaid.fits.separate t ht t ht (heq ▸ hg)
    exact hdefined.step.frameCell g k (hlaid.fits.body_lt ht hg) hseparate

theorem Placed.of_import {names : Name → Option ℕ} (hplaced : Placed s L t k cell f)
    (hlaid : Laid s L) (hsub : s.environments ⊆ s'.environments)
    (himported : Imported s.heap.unflag s'.heap.unflag s.environments L L' t names)
    (hframes : NewFrames s.heap.unflag s'.heap.unflag L L' t names) (hnone : names k = none) :
    Placed s' L' t k cell f := by
  have ht := hplaced.mem
  obtain ⟨before, after, hsplit, hbefore⟩ := hplaced.body
  have hin : ∀ g ∈ before ++ f :: after, s'.heap.frameCell L' g k = s.heap.frameCell L g k := by
    intro g hg
    rw [← hsplit] at hg
    have hseparate : g ≠ t := fun heq => hlaid.fits.separate t ht t ht (heq ▸ hg)
    exact himported.step.frameCell g k (hlaid.fits.body_lt ht hg) hseparate
  refine ⟨hsub ht, himported.own k, ?_, ?_⟩
  · refine ⟨(s.heap.frameCount + 1) :: s.heap.frameCount :: before, after, ?_, fun g hg => ?_⟩
    · rw [hframes.body, hsplit]
      rfl
    · rcases mem_cons.mp hg with rfl | hg
      · exact (hframes.upper k).trans hnone
      · rcases mem_cons.mp hg with rfl | hg
        · exact (hframes.lower k).trans hplaced.own
        · rw [hin g (mem_append_left _ hg)]
          exact hbefore g hg
  · rw [hin f (mem_append_right _ mem_cons_self)]
    exact hplaced.cell

theorem envImport_laid (hlaid : Laid s L)
    (hkeeps : (Op.envImport t source ls immutp).keeps syntacticp s = true)
    (hrun : (Op.envImport t source ls immutp).perform syntacticp s = some s') :
    ∃ L', Laid s' L' ∧ s'.environments = s.environments ∧ t ∈ s.environments ∧
      Imported s.heap.unflag s'.heap.unflag s.environments L L' t (s.heap.importedCells source ls) ∧
      NewFrames s.heap.unflag s'.heap.unflag L L' t (s.heap.importedCells source ls) := by
  have hvalid := valid_of_perform hrun
  obtain ⟨ht, hsource⟩ : t ∈ s.environments ∧ source ∈ s.environments :=
    of_decide_eq_true hvalid
  have hoff : t ∉ L.path source := by
    rw [Op.keeps, frameList_eq (Fits.of_unflag hlaid.fits) hsource] at hkeeps
    simpa using hkeeps
  unfold Op.perform at hrun
  rw [if_pos hvalid] at hrun
  obtain ⟨h₁, himport, rfl⟩ := map_eq_some_iff.mp hrun
  obtain ⟨h₂, L', hrun', hinv, himported, hframes⟩ :=
    envImport_frames hlaid ht hsource hoff ls false
  rw [envImport_unflag himport] at hrun'
  obtain rfl := some.inj hrun'
  have hcells : imported s.heap.unflag L source ls = s.heap.importedCells source ls := by
    rw [← importedCells_eq hlaid.fits hsource, importedCells_unflag]
  rw [hcells] at himported hframes
  exact ⟨L', hinv, rfl, ht, himported, hframes⟩

theorem perform_placed {a : Action Name Val} (hlaid : Laid s L)
    (hkeeps : a.keeps syntacticp s = true) (hrun : a.perform syntacticp s = some s') :
    ∃ L', Laid s' L' ∧ ∀ t k cell f, Placed s L t k cell f → ¬ a.redefines s t k →
      Placed s' L' t k cell f := by
  -- an operation that is not refused and no import
  have hother : ∀ o : Op Name Val, o.perform syntacticp s.unflag = some s'.unflag →
      o.keeps syntacticp s = true → ∃ L', Laid s' L' ∧ s.environments ⊆ s'.environments ∧
        o.valid s.environments = true ∧ Outcome s.unflag s'.unflag L L' o := by
    intro o hperform hkeeps
    have hvalid := valid_of_perform hperform
    have hinv₀ : Inv s.unflag.heap s.unflag.environments L := hlaid
    obtain ⟨s₁, L', hperform', hinv, hsub, houtcome⟩ :=
      perform_spec hinv₀ hvalid ((keeps_unflag o).trans hkeeps)
    obtain rfl := some.inj (hperform.symm.trans hperform')
    exact ⟨L', hinv, hsub, hvalid, houtcome⟩
  have hdefined : ∀ {L' : Layout} {env : ℕ} {name : Name}, env ∈ s.environments →
      s.environments ⊆ s'.environments →
      Defined s.heap.unflag s'.heap.unflag s.environments L L' env name →
      ∀ t k cell f, Placed s L t k cell f → ¬ (env = t ∧ name = k) → Placed s' L' t k cell f := by
    intro L' env name henv hsub hdefined t k cell f hplaced hnot
    by_cases heq : env = t
    · subst heq
      exact hplaced.of_defined hlaid hsub hdefined fun hk => hnot ⟨rfl, hk.symm⟩
    · exact hplaced.of_stepOn hlaid hsub henv heq hdefined.step
  cases a with
  | makeImmutable env =>
    simp only [Action.perform] at hrun
    split at hrun
    · cases hrun
      exact ⟨L, hlaid, fun t k cell f hplaced _ => { hplaced with }⟩
    · cases hrun
  | op o =>
    cases o with
    | makeEnv parent =>
      have hperform : (Op.makeEnv parent).perform syntacticp s.unflag = some s'.unflag :=
        perform_unflag hrun nofun nofun
      obtain ⟨L', hinv, hsub, -, hkept⟩ := hother _ hperform hkeeps
      refine ⟨L', hinv, fun t k cell f hplaced _ => ?_⟩
      have ht := hplaced.mem
      apply hplaced.congr (hsub ht)
      · exact hkept.frameCell t k (hlaid.fits.lt ht)
      · exact hkept.body t ht
      · exact fun g hg => hkept.frameCell g k (hlaid.fits.body_lt ht hg)
    | define env name value =>
      have hperform : (Op.define env name value).perform syntacticp s.unflag =
          some s'.unflag := perform_unflag hrun nofun nofun
      obtain ⟨L', hinv, hsub, hvalid, houtcome⟩ := hother _ hperform hkeeps
      refine ⟨L', hinv, fun t k cell f hplaced hnot => ?_⟩
      exact hdefined (of_decide_eq_true hvalid) hsub houtcome t k cell f hplaced hnot
    | envDefine env name value =>
      cases hflag : s.heap.immutable env with
      | true =>
        -- the definition is refused
        have hrefused : s.heap.envDefine syntacticp env name value = some s.heap := by
          rw [Heap.envDefine, if_pos hflag]
        have hvalid := valid_of_perform hrun
        simp only [Action.perform] at hrun
        unfold Op.perform at hrun
        rw [if_pos hvalid] at hrun
        simp only [hrefused, map_some] at hrun
        cases hrun
        exact ⟨L, hlaid, fun t k cell f hplaced _ => hplaced⟩
      | false =>
        have haccepted : ∀ env' name' value',
            Op.envDefine env name value = .envDefine env' name' value' →
              s.heap.immutable env' = false := by
          intro env' name' value' heq
          cases heq
          exact hflag
        have hperform : (Op.envDefine env name value).perform syntacticp s.unflag =
            some s'.unflag := perform_unflag hrun haccepted nofun
        rw [Action.keeps, hflag, Bool.false_or] at hkeeps
        obtain ⟨L', hinv, hsub, hvalid, houtcome⟩ := hother _ hperform hkeeps
        refine ⟨L', hinv, fun t k cell f hplaced hnot => ?_⟩
        exact hdefined (of_decide_eq_true hvalid) hsub houtcome t k cell f hplaced
          fun hk => hnot ⟨hflag, hk⟩
    | envImport target source ls immutp =>
      have himport : (Op.envImport target source ls immutp).perform syntacticp s = some s' :=
        hrun
      obtain ⟨L', hlaid', henvironments, htarget, himported, hframes⟩ :=
        envImport_laid hlaid hkeeps himport
      have hsub : s.environments ⊆ s'.environments := by rw [henvironments]; exact fun _ h => h
      refine ⟨L', hlaid', fun t k cell f hplaced hnot => ?_⟩
      by_cases heq : target = t
      · subst heq
        have hnone : s.heap.importedCells source ls k = none := by
          by_contra hsome
          exact hnot ⟨rfl, hsome⟩
        exact hplaced.of_import hlaid hsub himported hframes hnone
      · exact hplaced.of_stepOn hlaid hsub htarget heq himported.step

theorem runActions_placed (hlaid : Laid s L) (hkeep : actionsKeep syntacticp s actions = true)
    (hrun : runActions syntacticp s actions = some s') :
    ∃ L', Laid s' L' ∧ ∀ t k cell f, Placed s L t k cell f →
      NoneRedefines syntacticp t k s actions → Placed s' L' t k cell f := by
  induction actions generalizing s L with
  | nil =>
    cases hrun
    exact ⟨L, hlaid, fun t k cell f hplaced _ => hplaced⟩
  | cons a actions ih =>
    obtain ⟨s₁, hstep, hrest⟩ := bind_eq_some_iff.mp hrun
    rw [actionsKeep, Bool.and_eq_true, hstep] at hkeep
    obtain ⟨L₁, hlaid₁, hstays₁⟩ := perform_placed hlaid hkeep.1 hstep
    obtain ⟨L', hlaid', hstays⟩ := ih hlaid₁ hkeep.2 hrest
    refine ⟨L', hlaid', fun t k cell f hplaced hnone => ?_⟩
    have hplaced₁ := hstays₁ t k cell f hplaced hnone.1
    exact hstays t k cell f hplaced₁ (hnone.2 s₁ hstep)

omit [DecidableEq Name] in
theorem initial_laid : Laid (initial : State Name Val)
    ⟨fun _ => [], fun _ => [], fun _ => [], fun _ => []⟩ := initial_inv

theorem actionsKeep_append {pre : List (Action Name Val)}
    (hpre : runActions syntacticp s pre = some s')
    (hkeep : actionsKeep syntacticp s (pre ++ actions) = true) :
    actionsKeep syntacticp s pre = true ∧ actionsKeep syntacticp s' actions = true := by
  induction pre generalizing s with
  | nil =>
    cases hpre
    exact ⟨rfl, hkeep⟩
  | cons a pre ih =>
    obtain ⟨s₁, hstep, hrest⟩ := bind_eq_some_iff.mp hpre
    rw [cons_append, actionsKeep, Bool.and_eq_true, hstep] at hkeep
    obtain ⟨hpre', hactions⟩ := ih hrest hkeep.2
    rw [actionsKeep, hstep, hkeep.1]
    exact ⟨hpre', hactions⟩

/-! ## `set!` after an immutable import -/

/-- After an import that is to be immutable, a name that has not been redefined is still found in the
frame of the import; but a `set!` of it is rejected as one of an immutable binding if and only if the
cell itself is immutable, and otherwise it sets the cell of the source. -/
theorem analyzeSet_imported_iff {pre actions : List (Action Name Val)} {s₁ s₂ : State Name Val}
    {ls : Option (List (Import Name))} (hpre : runActions syntacticp initial pre = some s)
    (himport : (Op.envImport t source ls true).perform syntacticp s = some s₁)
    (hrun : runActions syntacticp s₁ actions = some s₂) :
    (actionsKeep syntacticp initial (pre ++ .op (.envImport t source ls true) :: actions) = true →
      s.heap.importedCells source ls k = some cell → NoneRedefines syntacticp t k s₁ actions →
      s₂.heap.envCellLoc t k = some (some (cell, s.heap.frameCount + 1))) ∧
    ∀ (kind : Option Val → Binding) (undef : Val) (cellImmutable : ℕ → Bool) (value : V),
      s₂.heap.envCellLoc t k = some (some (cell, s.heap.frameCount + 1)) →
      kind (s₂.heap.value cell) = .variable_ →
      (analyzeSet kind undef cellImmutable s₂.heap t k (.ok value : Except ε V) =
          some (s₂.heap, .error "immutable binding") ↔ cellImmutable cell = true) ∧
        (cellImmutable cell = false →
          analyzeSet kind undef cellImmutable s₂.heap t k (.ok value : Except ε V) =
            some (s₂.heap, .set cell value)) := by
  have hnumbered := runActions_numbered hpre initial_numbered
  obtain ⟨hunflagged₁, hnumbered₁⟩ := envImport_unflagged hnumbered himport
  have hunflagged := runActions_unflagged hrun hnumbered₁ hunflagged₁
  constructor
  · intro hkeep hcell hnone
    obtain ⟨hkeep_pre, hkeep_rest⟩ := actionsKeep_append hpre hkeep
    have haction : (Action.op (.envImport t source ls true)).perform syntacticp s = some s₁ :=
      himport
    rw [actionsKeep, Bool.and_eq_true, haction] at hkeep_rest
    obtain ⟨hkeep_import, hkeep_actions⟩ := hkeep_rest
    obtain ⟨L, hlaid, -⟩ := runActions_placed initial_laid hkeep_pre hpre
    obtain ⟨L₁, hlaid₁, henvironments, ht, himported, hframes⟩ :=
      envImport_laid hlaid hkeep_import himport
    -- the import puts the cell into a frame of its own under `t`
    have hplaced : Placed s₁ L₁ t k cell (s.heap.frameCount + 1) := by
      refine ⟨?_, himported.own k, ⟨[], s.heap.frameCount :: L.body t, hframes.body, nofun⟩, ?_⟩
      · rw [henvironments]
        exact ht
      · exact (hframes.upper k).trans hcell
    obtain ⟨L₂, hlaid₂, hstays⟩ := runActions_placed hlaid₁ hkeep_actions hrun
    exact (hstays t k cell _ hplaced hnone).envCellLoc hlaid₂
  · intro kind undef cellImmutable value hloc hkind
    have hset := @analyzeSet_found Name Val ε V _ s₂.heap t _ cell k kind undef cellImmutable hloc
      hunflagged.flag hkind value
    rw [hset]
    cases cellImmutable cell with
    | true => exact ⟨⟨fun _ => rfl, fun _ => rfl⟩, nofun⟩
    | false => exact ⟨⟨fun h => by simp at h, nofun⟩, fun _ => rfl⟩

/-- A library defines a variable, and a program imports it. -/
def importProgram : List (Action Char ℕ) :=
  [.op (.makeEnv none), .op (.define 0 'a' 7), .op (.makeEnv none)]

/-- An imported variable is assigned under its new name. -/
theorem analyzeSet_imported_program :
    ∃ s s₁ : State Char ℕ, runActions (fun _ => false) initial importProgram = some s ∧
      (Op.envImport 1 0 (some [.renamed 'b' 'a']) true).perform (fun _ => false) s = some s₁ ∧
      analyzeSet (fun _ => .variable_) 0 (fun _ => false) s₁.heap 1 'b' (.ok 5 : Except Unit ℕ) =
        some (s₁.heap, .set 0 5) := by
  refine ⟨_, _, rfl, rfl, ?_⟩
  have hiff := @analyzeSet_imported_iff Char ℕ Unit ℕ _ (fun _ => false) _ 1 0 0 'b' importProgram []
    _ _ (some [.renamed 'b' 'a']) rfl rfl rfl
  have hfound := hiff.1 (by decide) rfl trivial
  exact (hiff.2 (fun _ => .variable_) 0 (fun _ => false) 5 hfound rfl).2 rfl

/-- The `set!` of a variable imported as immutable is accepted, and sets the cell of the library. -/
theorem analyzeSet_imported_set :
    (runActions (fun _ => false) initial
      (importProgram ++ [.op (.envImport 1 0 (some [.renamed 'b' 'a']) true)])).bind
        (fun s => (analyzeSet (fun _ => .variable_) 0 (fun _ => false) s.heap 1 'b'
          (.ok 5 : Except Unit ℕ)).map Prod.snd) = some (.set 0 5) := by
  decide

end ChibiScheme.Env
