import ChibiScheme.Env.Import

/-!
# Environments as maps

In every sequence of imports and definitions a lookup in an importing environment finds the imported
cells, and an operation on one environment does not change what is found in another one that is not
under it.

The source of an import must not lie under the importing environment.  A definition of syntax unlinks
the cell of a variable; the cell before it must not belong to the list of another frame.
-/

namespace ChibiScheme.Env

open Linked List Option

variable {Name Val : Type} [DecidableEq Name]
  {environments : List ℕ} {L : Layout} {e t source : ℕ} {k name : Name} {value : Val}

/-! ## Definitions -/

/-- The name has been defined in the frame `t`, and nothing else has changed. -/
structure Defined (s s' : Heap Name Val) (environments : List ℕ) (L L' : Layout) (t : ℕ)
    (name : Name) : Prop where
  step : StepOn s s' environments L L' t
  path : L'.path = L.path
  body : L'.body = L.body
  others : ∀ k, k ≠ name → s'.frameCell L' t k = s.frameCell L t k
  fresh : s.frameCell L t name = none → s'.frameCell L' t name = some s.cellCount

section

variable {s : Heap Name Val}

theorem frameCell_of_clean {f : ℕ} (hclean : L.renames f = []) (k : Name) :
    s.frameCell L f k = (L.cells f).find? fun c => s.key c == some k := by
  unfold Heap.frameCell
  rw [hclean]
  rfl

theorem defined_envPush (hinv : Inv s environments L) (ht : t ∈ environments) (name : Name)
    (value : Val) :
    Inv (s.envPush t name value) environments (L.setCells t (s.cellCount :: L.cells t)) ∧
      Defined s (s.envPush t name value) environments L
        (L.setCells t (s.cellCount :: L.cells t)) t name := by
  refine ⟨⟨fits_envPush hinv.fits ht, hinv.clean, hinv.variable_⟩, ⟨⟨fun _ _ _ => rfl,
    fun _ _ _ => rfl, fun f k _ hft => ?_, le_refl _⟩, rfl, rfl, fun k hk => ?_, fun _ => ?_⟩⟩
  · exact frameCell_envPush_of_ne hinv.fits (.inl hft)
  · exact frameCell_envPush_of_ne hinv.fits (.inr hk)
  · exact frameCell_envPush_self (hinv.clean t ht)

theorem defined_setValue (hinv : Inv s environments L) (t cell : ℕ) (value : Val)
    (hsome : s.frameCell L t name ≠ none) :
    Inv (s.setValue cell value) environments L ∧
      Defined s (s.setValue cell value) environments L L t name :=
  ⟨⟨fits_setValue hinv.fits, hinv.clean, hinv.variable_⟩, ⟨⟨fun _ _ _ => rfl, fun _ _ _ => rfl,
    fun _ _ _ _ => rfl, le_refl _⟩, rfl, rfl, fun _ _ => rfl, fun h => absurd h hsome⟩⟩

theorem envCellDefine_spec (hinv : Inv s environments L) (ht : t ∈ environments) (name : Name)
    (value : Val) :
    ∃ s' L', s.envCellDefine t name value = some s' ∧ Inv s' environments L' ∧
      Defined s s' environments L L' t name := by
  have hclean := hinv.clean t ht
  have htop : s.topFrame s.frameCount t = some t := by
    obtain ⟨fuel, hfuel⟩ : ∃ fuel, s.frameCount = fuel + 1 :=
      ⟨s.frameCount - 1, by have hlt := hinv.fits.lt ht; omega⟩
    rw [hfuel, Heap.topFrame, hinv.fits.global t ht]
    rfl
  have hrename : s.removeRename t name = some s := by
    unfold Heap.removeRename
    rw [findRename_eq hinv.fits, hclean]
    rfl
  unfold Heap.envCellDefine
  rw [htop, bind_some, hrename, bind_some, findBinding_eq hinv.fits, map_some,
    ← frameCell_of_clean hclean]
  cases hcell : s.frameCell L t name with
  | none =>
    obtain ⟨hinv', hdefined⟩ := defined_envPush hinv ht name value
    exact ⟨_, _, rfl, hinv', hdefined⟩
  | some cell =>
    obtain ⟨hinv', hdefined⟩ := @defined_setValue _ _ _ _ _ name _ hinv t cell value
      (by rw [hcell]; exact nofun)
    exact ⟨_, _, rfl, hinv', hdefined⟩

/-- The cell of a variable that becomes syntax. -/
def unlinks (s : Heap Name Val) (syntacticp : Val → Bool) (env : ℕ) (name : Name) (value : Val) : Bool :=
  match s.envCell env name true with
  | some (some cell) => syntacticp value && !((s.value cell).any syntacticp)
  | _ => false

/-- What a definition does, where it unlinks no shared cell. -/
theorem envDefine_spec (hinv : Inv s environments L) (ht : t ∈ environments) (syntacticp : Val → Bool)
    (name : Name) (value : Val)
    (hsafe : unlinks s syntacticp t name value = true →
      ∀ p, cellBefore s (L.cells t) name = some p → ∀ f ≠ t, p ∉ L.cells f) :
    ∃ s' L', s.envDefine syntacticp t name value = some s' ∧ Inv s' environments L' ∧
      Defined s s' environments L L' t name := by
  have hlocal := envCell_local hinv.fits ht name
  unfold Heap.envDefine
  rw [hinv.variable_ t ht, if_neg (by decide), hlocal, bind_some]
  unfold unlinks at hsafe
  rw [hlocal] at hsafe
  cases hcell : s.frameCell L t name with
  | none =>
    obtain ⟨hinv', hdefined⟩ := defined_envPush hinv ht name value
    exact ⟨_, _, rfl, hinv', hdefined⟩
  | some cell =>
    have hsome : s.frameCell L t name ≠ none := by
      rw [hcell]
      exact nofun
    rw [hcell] at hsafe
    simp only
    split
    · rename_i hunlink
      -- the cell is unlinked, and a new one is put in front
      obtain ⟨next, bindings, hrun, hfits⟩ := fits_envUndefine hinv.fits ht (hsafe hunlink)
      have hinv₁ : Inv { s with next, bindings } environments
          (L.setCells t ((L.cells t).eraseP fun c => s.key c == some name)) :=
        ⟨hfits, hinv.clean, hinv.variable_⟩
      obtain ⟨hinv', hdefined⟩ := defined_envPush hinv₁ ht name value
      refine ⟨_, _, by rw [hrun]; rfl, hinv', ⟨fun _ _ _ => rfl, fun _ _ _ => rfl,
        fun f k hf hft => ?_, le_refl _⟩, rfl, rfl, fun k hk => ?_, fun h => absurd h hsome⟩
      · rw [hdefined.step.frameCell f k hf hft]
        exact frameCell_envUndefine_of_ne (.inl hft)
      · rw [hdefined.others k hk]
        exact frameCell_envUndefine_of_ne (.inr hk)
    · obtain ⟨hinv', hdefined⟩ := defined_setValue hinv t cell value hsome
      exact ⟨_, _, rfl, hinv', hdefined⟩

end

/-! ## Runs -/

namespace Heap

variable (s : Heap Name Val)

/-- The frames on the way from an environment to the top. -/
def frameList (env : ℕ) : List ℕ :=
  follow s.parent s.frameCount (.cell env)

/-- The cells of one frame. -/
def cellList (f : ℕ) : List ℕ :=
  follow s.next s.cellCount (s.bindings f)

/-- The cells of an import, by name. -/
def importedCells (source : ℕ) : Option (List (Import Name)) → Name → Option ℕ
  | none, k => (s.findCell source k).join
  | some ls, k => importedNames (fun k => (s.envCell source k false).join) ls k

end Heap

namespace Op

variable (syntacticp : Val → Bool) (s : State Name Val)

/-- The source of an import is not under the importing environment, and a cell is not unlinked from a
list that another frame shares. -/
def keeps : Op Name Val → Bool
  | makeEnv _ => true
  | define _ _ _ => true
  | envDefine env name value =>
    !(unlinks s.heap syntacticp env name value) ||
      match cellBefore s.heap (s.heap.cellList env) name with
      | none => true
      | some p => (List.range s.heap.frameCount).all fun f =>
        f == env || !((s.heap.cellList f).contains p)
  | .envImport target source _ _ => !((s.heap.frameList source).contains target)

/-- The environment that the operation is on. -/
def on : Op Name Val → Option ℕ
  | makeEnv _ => none
  | define env _ _ => some env
  | envDefine env _ _ => some env
  | .envImport target _ _ _ => some target

/-- The operation defines or imports the name. -/
def binds (t : ℕ) (k : Name) : Op Name Val → Prop
  | makeEnv _ => False
  | define env name _ => env = t ∧ name = k
  | envDefine env name _ => env = t ∧ name = k
  | .envImport target source ls _ => target = t ∧ s.heap.importedCells source ls k ≠ none

end Op

section

variable (syntacticp : Val → Bool)

/-- All operations of a sequence keep the lists and ways apart. -/
def opsKeep (s : State Name Val) : List (Op Name Val) → Bool
  | [] => true
  | op :: ops =>
    op.keeps syntacticp s &&
      match op.perform syntacticp s with
      | none => true
      | some s => opsKeep s ops

/-- No operation of a sequence defines or imports the name. -/
def NoneBinds (t : ℕ) (k : Name) (s : State Name Val) : List (Op Name Val) → Prop
  | [] => True
  | op :: ops =>
    ¬ op.binds s t k ∧ ∀ s', op.perform syntacticp s = some s' → NoneBinds t k s' ops

end

variable {syntacticp : Val → Bool} {s s' : State Name Val} {op : Op Name Val}
  {ops : List (Op Name Val)} {cell : ℕ}

omit [DecidableEq Name] in
theorem cellList_eq {h : Heap Name Val} (hfits : Fits h environments L) (f : ℕ) :
    h.cellList f = L.cells f :=
  (hfits.cells f).follow_eq (hfits.cells_lt f).length_le

omit [DecidableEq Name] in
theorem frameList_eq {h : Heap Name Val} (hfits : Fits h environments L) (he : e ∈ environments) :
    h.frameList e = L.path e :=
  (hfits.path e he).follow_eq (hfits.length_path_le he)

theorem importedCells_eq {h : Heap Name Val} (hfits : Fits h environments L)
    (hsource : source ∈ environments) (ls : Option (List (Import Name))) :
    h.importedCells source ls = imported h L source ls := by
  funext k
  cases ls with
  | none =>
    show (h.findCell source k).join = h.frameCell L source k
    rw [findCell_eq hfits]
    rfl
  | some ls =>
    have hlook : (fun k => (h.envCell source k false).join) = h.look L (L.path source) := by
      funext k
      rw [envCell_eq hfits hsource]
      rfl
    show importedNames _ ls k = importedNames _ ls k
    rw [hlook]

/-- Nothing changes in the environments that were there. -/
structure Kept (s s' : Heap Name Val) (environments : List ℕ) (L L' : Layout) : Prop where
  body : ∀ e ∈ environments, L'.body e = L.body e
  path : ∀ e ∈ environments, L'.path e = L.path e
  frameCell : ∀ f k, f < s.frameCount → s'.frameCell L' f k = s.frameCell L f k

/-- What an operation does. -/
def Outcome (s s' : State Name Val) (L L' : Layout) : Op Name Val → Prop
  | .makeEnv _ => Kept s.heap s'.heap s.environments L L'
  | .define env name _ => Defined s.heap s'.heap s.environments L L' env name
  | .envDefine env name _ => Defined s.heap s'.heap s.environments L L' env name
  | .envImport target source ls _ =>
    Imported s.heap s'.heap s.environments L L' target (imported s.heap L source ls)

/-- Every operation keeps the invariant and has its outcome. -/
theorem perform_spec (hinv : Inv s.heap s.environments L) (hvalid : op.valid s.environments = true)
    (hkeeps : op.keeps syntacticp s = true) :
    ∃ s' L', op.perform syntacticp s = some s' ∧ Inv s'.heap s'.environments L' ∧
      s.environments ⊆ s'.environments ∧ Outcome s s' L L' op := by
  unfold Op.perform
  rw [if_pos hvalid]
  cases op with
  | makeEnv parent =>
    have hparent : ∀ p ∈ parent, p ∈ s.environments := by
      cases parent with
      | none => exact nofun
      | some p =>
        rintro _ ⟨⟩
        exact of_decide_eq_true hvalid
    have hfits := fits_makeEnv hinv.fits hparent
    have hold : ∀ e ∈ s.environments, e ≠ s.heap.frameCount := fun e he => by
      have hlt := hinv.fits.lt he
      omega
    have hmem : ∀ {e}, e ∈ s.environments ++ [s.heap.frameCount] →
        e ∈ s.environments ∨ e = s.heap.frameCount := fun he => by simpa using he
    refine ⟨_, _, rfl, ⟨hfits, fun e he => ?_, fun e he => ?_⟩, subset_append_left _ _,
      ⟨fun e he => Function.update_of_ne (hold e he) _ _,
        fun e he => Function.update_of_ne (hold e he) _ _, fun f k hf => frameCell_makeEnv hf⟩⟩
    · rcases hmem he with he | rfl
      · simpa [Layout.add, hold e he] using hinv.clean e he
      · simp [Layout.add]
    · rcases hmem he with he | rfl
      · simpa [Heap.makeEnv, hold e he] using hinv.variable_ e he
      · simp [Heap.makeEnv]
  | define env name value =>
    have henv : env ∈ s.environments := of_decide_eq_true hvalid
    obtain ⟨h, L', hrun, hinv', hdefined⟩ := envCellDefine_spec hinv henv name value
    exact ⟨{ s with heap := h }, L', by simp only [hrun, map_some], hinv',
      List.Subset.refl _, hdefined⟩
  | envDefine env name value =>
    have henv : env ∈ s.environments := of_decide_eq_true hvalid
    have hsafe : unlinks s.heap syntacticp env name value = true →
        ∀ p, cellBefore s.heap (L.cells env) name = some p → ∀ f ≠ env, p ∉ L.cells f := by
      intro hunlinks p hp f hne
      rw [Op.keeps, hunlinks, cellList_eq hinv.fits, hp] at hkeeps
      simp only [Bool.not_true, Bool.false_or, List.all_eq_true, mem_range, Bool.or_eq_true,
        beq_iff_eq, Bool.not_eq_true', contains_eq_mem, decide_eq_false_iff_not] at hkeeps
      by_cases hf : f < s.heap.frameCount
      · have hnot := (hkeeps f hf).resolve_left hne
        rwa [cellList_eq hinv.fits] at hnot
      · rw [hinv.fits.unused f (not_lt.mp hf)]
        exact not_mem_nil
    obtain ⟨h, L', hrun, hinv', hdefined⟩ :=
      envDefine_spec hinv henv syntacticp name value hsafe
    exact ⟨{ s with heap := h }, L', by simp only [hrun, map_some], hinv',
      List.Subset.refl _, hdefined⟩
  | envImport target source ls immutp =>
    obtain ⟨htarget, hsource⟩ : target ∈ s.environments ∧ source ∈ s.environments :=
      of_decide_eq_true hvalid
    have hoff : target ∉ L.path source := by
      rw [Op.keeps, frameList_eq hinv.fits hsource] at hkeeps
      simpa using hkeeps
    obtain ⟨h, L', hrun, hinv', himported⟩ :=
      envImport_spec hinv htarget hsource hoff ls immutp
    exact ⟨{ s with heap := h }, L', by simp only [hrun, map_some], hinv',
      List.Subset.refl _, himported⟩

theorem valid_of_perform (hrun : op.perform syntacticp s = some s') :
    op.valid s.environments = true := by
  unfold Op.perform at hrun
  by_contra hnot
  rw [if_neg hnot] at hrun
  cases hrun

/-- The environment itself, under its own definitions, has the cell. -/
structure Bound (s : State Name Val) (L : Layout) (t : ℕ) (k : Name) (cell : ℕ) : Prop where
  mem : t ∈ s.environments
  own : s.heap.frameCell L t k = none
  body : s.heap.look L (L.body t) k = some cell

theorem Bound.envCell (hbound : Bound s L t k cell) (hinv : Inv s.heap s.environments L) :
    s.heap.envCell t k false = some (some cell) := by
  obtain ⟨rest, hrest⟩ := hinv.fits.body t hbound.mem
  rw [envCell_eq hinv.fits hbound.mem, hrest, look_append, look_cons, hbound.own, hbound.body]
  rfl

theorem Outcome.stepOn {L' : Layout} (houtcome : Outcome s s' L L' op) (hon : op.on = some t) :
    StepOn s.heap s'.heap s.environments L L' t := by
  cases op with
  | makeEnv parent => cases hon
  | define env name value =>
    cases hon
    exact houtcome.step
  | envDefine env name value =>
    cases hon
    exact houtcome.step
  | envImport target source ls immutp =>
    cases hon
    exact houtcome.step

theorem Bound.step {L' : Layout} (hbound : Bound s L t k cell) (hinv : Inv s.heap s.environments L)
    (hsub : s.environments ⊆ s'.environments) (hvalid : op.valid s.environments = true)
    (houtcome : Outcome s s' L L' op) (hbinds : ¬ op.binds s t k) : Bound s' L' t k cell := by
  have hlt := hinv.fits.lt hbound.mem
  have helsewhere : ∀ env ∈ s.environments, env ≠ t → op.on = some env → Bound s' L' t k cell := by
    intro env henv hne hon
    have hstep := houtcome.stepOn hon
    refine ⟨hsub hbound.mem, ?_, ?_⟩
    · rw [hstep.frameCell t k hlt (Ne.symm hne)]
      exact hbound.own
    · rw [hstep.body t hbound.mem (Ne.symm hne), hstep.look_body hinv.fits henv hbound.mem]
      exact hbound.body
  have hhere : ∀ name, Defined s.heap s'.heap s.environments L L' t name → name ≠ k →
      Bound s' L' t k cell := by
    intro name hdefined hne
    refine ⟨hsub hbound.mem, ?_, ?_⟩
    · rw [hdefined.others k (Ne.symm hne)]
      exact hbound.own
    · rw [hdefined.body, hdefined.step.look_body hinv.fits hbound.mem hbound.mem]
      exact hbound.body
  cases op with
  | makeEnv parent =>
    refine ⟨hsub hbound.mem, ?_, ?_⟩
    · rw [houtcome.frameCell t k hlt]
      exact hbound.own
    · rw [houtcome.body t hbound.mem, ← hbound.body]
      exact look_congr fun f hf => houtcome.frameCell f k (hinv.fits.body_lt hbound.mem hf)
  | define env name value =>
    have henv : env ∈ s.environments := of_decide_eq_true hvalid
    by_cases heq : env = t
    · subst heq
      exact hhere name houtcome fun h => hbinds ⟨rfl, h⟩
    · exact helsewhere env henv heq rfl
  | envDefine env name value =>
    have henv : env ∈ s.environments := of_decide_eq_true hvalid
    by_cases heq : env = t
    · subst heq
      exact hhere name houtcome fun h => hbinds ⟨rfl, h⟩
    · exact helsewhere env henv heq rfl
  | envImport target source ls immutp =>
    obtain ⟨htarget, hsource⟩ : target ∈ s.environments ∧ source ∈ s.environments :=
      of_decide_eq_true hvalid
    by_cases heq : target = t
    · subst heq
      have hnone : imported s.heap L source ls k = none := by
        by_contra hsome
        refine hbinds ⟨rfl, ?_⟩
        rwa [importedCells_eq hinv.fits hsource]
      refine ⟨hsub hbound.mem, houtcome.own k, ?_⟩
      rw [houtcome.body, hnone, hbound.own, hbound.body]
      rfl
    · exact helsewhere target htarget heq rfl

/-- A run keeps the invariant, and a binding that nobody binds again. -/
theorem runOps_spec (hinv : Inv s.heap s.environments L) (hkeep : opsKeep syntacticp s ops = true)
    (hrun : runOps syntacticp s ops = some s') :
    ∃ L', Inv s'.heap s'.environments L' ∧
      ∀ t k cell, Bound s L t k cell → NoneBinds syntacticp t k s ops → Bound s' L' t k cell := by
  induction ops generalizing s L with
  | nil =>
    cases hrun
    exact ⟨L, hinv, fun t k cell hbound _ => hbound⟩
  | cons op ops ih =>
    obtain ⟨s₁, hop, hrest⟩ := bind_eq_some_iff.mp hrun
    rw [opsKeep, Bool.and_eq_true, hop] at hkeep
    have hvalid := valid_of_perform hop
    obtain ⟨s₁', L₁, hop', hinv₁, hsub, houtcome⟩ := perform_spec hinv hvalid hkeep.1
    obtain rfl : s₁ = s₁' := some.inj (hop.symm.trans hop')
    obtain ⟨L', hinv', hstays⟩ := ih hinv₁ hkeep.2 hrest
    refine ⟨L', hinv', fun t k cell hbound hnone => ?_⟩
    exact hstays t k cell (hbound.step hinv hsub hvalid houtcome hnone.1) (hnone.2 s₁ hop)

omit [DecidableEq Name] in
theorem initial_inv : Inv (initial : State Name Val).heap (initial : State Name Val).environments
    ⟨fun _ => [], fun _ => [], fun _ => [], fun _ => []⟩ where
  fits := by
    refine ⟨fun f => rfl, fun f => ⟨.nil, nofun⟩, fun f => rfl, fun f => ⟨.nil, nofun⟩, nofun, nofun,
      nofun, nofun, nofun, nofun, fun _ _ => rfl⟩
  clean := nofun
  variable_ := nofun

theorem envCell_of_off {L' : Layout} (hinv : Inv s.heap s.environments L)
    (hinv' : Inv s'.heap s'.environments L') (hsub : s.environments ⊆ s'.environments)
    (houtcome : Outcome s s' L L' op) (he : e ∈ s.environments)
    (hoff : ∀ t, op.on = some t → t ∉ s.heap.frameList e) :
    s'.heap.frameList e = s.heap.frameList e ∧
      ∀ k, s'.heap.envCell e k false = s.heap.envCell e k false := by
  rw [frameList_eq hinv.fits he] at hoff ⊢
  rw [frameList_eq hinv'.fits (hsub he)]
  have hsame : L'.path e = L.path e ∧
      ∀ k, s'.heap.look L' (L'.path e) k = s.heap.look L (L.path e) k := by
    cases hon : op.on with
    | some t =>
      have hstep := houtcome.stepOn hon
      exact ⟨hstep.path e he (hoff t hon), hstep.look_path hinv.fits he (hoff t hon)⟩
    | none =>
      cases op with
      | makeEnv parent =>
        refine ⟨houtcome.path e he, fun k => ?_⟩
        rw [houtcome.path e he]
        exact look_congr fun f hf => houtcome.frameCell f k (hinv.fits.path_lt e he f hf)
      | define env name value => cases hon
      | envDefine env name value => cases hon
      | envImport target source ls immutp => cases hon
  refine ⟨hsame.1, fun k => ?_⟩
  rw [envCell_eq hinv.fits he, envCell_eq hinv'.fits (hsub he), hsame.2]

/-- The environments of a state are maps from names to cells. -/
structure AreMaps (syntacticp : Val → Bool) (s : State Name Val) : Prop where
  /-- Every lookup and every operation has a result. -/
  total : (∀ e ∈ s.environments, ∀ k, ∃ cell, s.heap.envCell e k false = some cell) ∧
    ∀ op : Op Name Val, op.valid s.environments = true → op.keeps syntacticp s = true →
      ∃ s', op.perform syntacticp s = some s'
  /-- An import gives the imported names their cells and leaves the other names as they were. -/
  imports : ∀ target source ls immutp (s₁ : State Name Val),
    (Op.envImport target source ls immutp).keeps syntacticp s = true →
    (Op.envImport target source ls immutp).perform syntacticp s = some s₁ →
    ∀ k, s₁.heap.envCell target k false =
      some ((s.heap.importedCells source ls k).or (s.heap.envCell target k false).join)
  /-- An imported name keeps its cell as long as it is not defined or imported again, and its first
  definition makes a new cell. -/
  stays : ∀ target source ls immutp (s₁ : State Name Val) ops (s₂ : State Name Val) k cell,
    (Op.envImport target source ls immutp).keeps syntacticp s = true →
    (Op.envImport target source ls immutp).perform syntacticp s = some s₁ →
    s.heap.importedCells source ls k = some cell →
    opsKeep syntacticp s₁ ops = true → runOps syntacticp s₁ ops = some s₂ →
    NoneBinds syntacticp target k s₁ ops →
    s₂.heap.envCell target k false = some (some cell) ∧
      ∀ (op : Op Name Val) value s₃, op = .define target k value ∨ op = .envDefine target k value →
        op.keeps syntacticp s₂ = true → op.perform syntacticp s₂ = some s₃ →
        s₃.heap.envCell target k false = some (some s₂.heap.cellCount)
  /-- An operation on one environment changes nothing in those that are not under it. -/
  apart : ∀ (op : Op Name Val) s₁, op.keeps syntacticp s = true → op.perform syntacticp s = some s₁ →
    ∀ e ∈ s.environments, (∀ t, op.on = some t → t ∉ s.heap.frameList e) →
      s₁.heap.frameList e = s.heap.frameList e ∧
        ∀ k, s₁.heap.envCell e k false = s.heap.envCell e k false

/-- The invariant makes the environments maps. -/
theorem areMaps_of_inv (hinv : Inv s.heap s.environments L) : AreMaps syntacticp s where
  total := by
    refine ⟨fun e he k => ⟨_, envCell_eq hinv.fits he k⟩, fun op hvalid hkeeps => ?_⟩
    obtain ⟨s', -, hrun, -⟩ := perform_spec hinv hvalid hkeeps
    exact ⟨s', hrun⟩
  imports target source ls immutp s₁ hkeeps hrun k := by
    have hvalid := valid_of_perform hrun
    obtain ⟨htarget, hsource⟩ : target ∈ s.environments ∧ source ∈ s.environments :=
      of_decide_eq_true hvalid
    obtain ⟨s₁', L₁, hrun', hinv₁, hsub, houtcome⟩ := perform_spec hinv hvalid hkeeps
    obtain rfl : s₁ = s₁' := some.inj (hrun.symm.trans hrun')
    rw [envCell_eq hinv₁.fits (hsub htarget), houtcome.path, importedCells_eq hinv.fits hsource,
      envCell_eq hinv.fits htarget]
    rfl
  stays target source ls immutp s₁ ops s₂ k cell hkeeps hrun hcell hkeep hrest hnone := by
    have hvalid := valid_of_perform hrun
    obtain ⟨htarget, hsource⟩ : target ∈ s.environments ∧ source ∈ s.environments :=
      of_decide_eq_true hvalid
    obtain ⟨s₁', L₁, hrun', hinv₁, hsub, houtcome⟩ := perform_spec hinv hvalid hkeeps
    obtain rfl : s₁ = s₁' := some.inj (hrun.symm.trans hrun')
    rw [importedCells_eq hinv.fits hsource] at hcell
    have hbound : Bound s₁ L₁ target k cell := by
      refine ⟨hsub htarget, houtcome.own k, ?_⟩
      rw [houtcome.body, hcell]
      rfl
    obtain ⟨L₂, hinv₂, hstays⟩ := runOps_spec hinv₁ hkeep hrest
    have hbound₂ := hstays target k cell hbound hnone
    refine ⟨hbound₂.envCell hinv₂, fun op value s₃ hop hkeeps₃ hrun₃ => ?_⟩
    obtain ⟨s₃', L₃, hrun₃', hinv₃, hsub₃, houtcome₃⟩ :=
      perform_spec hinv₂ (valid_of_perform hrun₃) hkeeps₃
    obtain rfl : s₃ = s₃' := some.inj (hrun₃.symm.trans hrun₃')
    have hdefined : Defined s₂.heap s₃.heap s₂.environments L₂ L₃ target k := by
      rcases hop with rfl | rfl <;> exact houtcome₃
    obtain ⟨rest, hpath⟩ := hinv₃.fits.body target (hsub₃ hbound₂.mem)
    rw [envCell_eq hinv₃.fits (hsub₃ hbound₂.mem), hpath, cons_append, look_cons,
      hdefined.fresh hbound₂.own]
    rfl
  apart op s₁ hkeeps hrun e he hoff := by
    obtain ⟨s₁', L₁, hrun', hinv₁, hsub, houtcome⟩ :=
      perform_spec hinv (valid_of_perform hrun) hkeeps
    obtain rfl : s₁ = s₁' := some.inj (hrun.symm.trans hrun')
    exact envCell_of_off hinv hinv₁ hsub houtcome he hoff

/-- In every sequence of imports and definitions that keeps the lists and ways apart, the environments
are maps from names to cells. -/
theorem environments_areMaps (hkeep : opsKeep syntacticp initial ops = true)
    (hrun : runOps syntacticp initial ops = some s) : AreMaps syntacticp s := by
  obtain ⟨L, hinv, -⟩ := runOps_spec initial_inv hkeep hrun
  exact areMaps_of_inv hinv

/-- An import under another name, and a definition of that name. -/
theorem environments_areMaps_import :
    ∃ s, runOps (fun v : Bool => v) initial [.makeEnv none, .define 0 'a' false, .makeEnv none,
        .envImport 1 0 (some [.renamed 'b' 'a']) true, .define 1 'b' false] = some s ∧
      AreMaps (fun v : Bool => v) s :=
  ⟨_, rfl, by
    refine @environments_areMaps _ _ _ _ _ [.makeEnv none, .define 0 'a' false, .makeEnv none,
      .envImport 1 0 (some [.renamed 'b' 'a']) true, .define 1 'b' false] (by decide) rfl⟩

/-- The source lies under the importing environment: the import changes what it finds. -/
theorem import_changes_source :
    (runOps (fun v : Bool => v) initial [.makeEnv none, .makeEnv (some 0), .define 1 'a' false]).map
        (fun s => s.heap.envCell 1 'b' false) = some (some none) ∧
      (runOps (fun v : Bool => v) initial [.makeEnv none, .makeEnv (some 0), .define 1 'a' false,
        .envImport 0 1 (some [.renamed 'b' 'a']) true]).map (fun s => s.heap.envCell 1 'b' false) =
          some (some (some 0)) := by
  decide

/-- A variable of the source becomes syntax: an environment that imported it in bulk loses it. -/
example :
    (runOps (fun v : Bool => v) initial [.makeEnv none, .define 0 'a' false, .define 0 'b' false,
      .makeEnv none, .envImport 1 0 none true, .envDefine 0 'a' true]).map
        (fun s => s.heap.envCell 1 'a' false) = some (some none) := by
  decide

end ChibiScheme.Env
