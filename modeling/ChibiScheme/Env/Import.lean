import ChibiScheme.Env.Definitions

/-!
# Imports

An import leaves what every frame had in the frames under the importing environment, and puts a frame
with the imported names above it.
-/

namespace ChibiScheme.Env

open Linked Option Function

variable {Name Val : Type} [DecidableEq Name]
  {s s' : Heap Name Val} {environments : List ℕ} {L : Layout} {e f t source cell : ℕ} {k : Name}

/-- The cells that an import list gives to names: the last entry with the name counts whose old name
has a cell. -/
def importedNames (look : Name → Option ℕ) : List (Import Name) → Name → Option ℕ
  | [], _ => none
  | i :: ls, k => (importedNames look ls k).or (if i.newname = k then look i.oldname else none)

/-- What holds between two operations: environments have no renames of their own and are not
immutable. -/
structure Inv (s : Heap Name Val) (environments : List ℕ) (L : Layout) : Prop where
  fits : Fits s environments L
  clean : ∀ e ∈ environments, L.renames e = []
  variable_ : ∀ e ∈ environments, s.immutable e = false

/-! ## The loop -/

/-- What the loop of an import leaves as it was. -/
structure SameOutside (s s' : Heap Name Val) (L L' : Layout) (t : ℕ) : Prop where
  frameCell : ∀ f k, f ≠ t → s'.frameCell L' f k = s.frameCell L f k
  path : L'.path = L.path
  body : L'.body = L.body
  renames : ∀ f, f ≠ t → L'.renames f = L.renames f
  immutable : s'.immutable = s.immutable
  frameCount : s'.frameCount = s.frameCount
  cellCount : s'.cellCount = s.cellCount

theorem SameOutside.refl (s : Heap Name Val) (L : Layout) (t : ℕ) : SameOutside s s L L t :=
  ⟨fun _ _ _ => rfl, rfl, rfl, fun _ _ => rfl, rfl, rfl, rfl⟩

theorem SameOutside.trans {s'' : Heap Name Val} {L' L'' : Layout} (h : SameOutside s s' L L' t)
    (h' : SameOutside s' s'' L' L'' t) : SameOutside s s'' L L'' t where
  frameCell f k hf := (h'.frameCell f k hf).trans (h.frameCell f k hf)
  path := h'.path.trans h.path
  body := h'.body.trans h.body
  renames f hf := (h'.renames f hf).trans (h.renames f hf)
  immutable := h'.immutable.trans h.immutable
  frameCount := h'.frameCount.trans h.frameCount
  cellCount := h'.cellCount.trans h.cellCount

theorem SameOutside.look {L' : Layout} (h : SameOutside s s' L L' t) {frames : List ℕ}
    (hnot : t ∉ frames) (k : Name) : s'.look L' frames k = s.look L frames k :=
  look_congr fun f hf => h.frameCell f k fun heq => hnot (heq ▸ hf)

theorem sameOutside_envRename (hfits : Fits s environments L) (t cell : ℕ) (name : Name) :
    SameOutside s (s.envRename t name cell) L
      (L.setRenames t (s.renameCount :: L.renames t)) t where
  frameCell _ _ hf := frameCell_envRename_of_ne hfits (.inl hf)
  path := rfl
  body := rfl
  renames _ hf := update_of_ne hf _ _
  immutable := rfl
  frameCount := rfl
  cellCount := rfl

theorem sameOutside_importAll (source t : ℕ) :
    SameOutside s (s.importAll t source) L
      ((L.setCells t (L.cells source)).setRenames t (L.renames source)) t where
  frameCell _ _ hf := frameCell_importAll_of_ne hf
  path := rfl
  body := rfl
  renames _ hf := update_of_ne hf _ _
  immutable := rfl
  frameCount := rfl
  cellCount := rfl

/-- By induction on the names: the last one of a name counts. -/
theorem importNames_spec (hfits : Fits s environments L) (hsource : source ∈ environments)
    (hoff : t ∉ L.path source) (ls : List (Import Name)) :
    ∃ s' L', Heap.importNames t source ls s = some s' ∧ Fits s' environments L' ∧
      SameOutside s s' L L' t ∧
      ∀ k, s'.frameCell L' t k =
        (importedNames (s.look L (L.path source)) ls k).or (s.frameCell L t k) := by
  induction ls generalizing s L with
  | nil => exact ⟨s, L, rfl, hfits, .refl s L t, fun k => rfl⟩
  | cons i ls ih =>
    rw [Heap.importNames, envCell_eq hfits hsource, bind_some]
    cases hcell : s.look L (L.path source) i.oldname with
    | none =>
      -- the old name is not defined
      obtain ⟨s', L', hrun, hfits', hsame, hnames⟩ := ih hfits hoff
      refine ⟨s', L', hrun, hfits', hsame, fun k => ?_⟩
      rw [hnames, importedNames, hcell, ite_self, or_none]
    | some cell =>
      have hrename : Fits (s.envRename t i.newname cell) _ _ := fits_envRename hfits
      have hsame := sameOutside_envRename hfits t cell i.newname
      obtain ⟨s', L', hrun, hfits', hsame', hnames⟩ := ih hrename hoff
      refine ⟨s', L', hrun, hfits', hsame.trans hsame', fun k => ?_⟩
      have hlook : (s.envRename t i.newname cell).look
          (L.setRenames t (s.renameCount :: L.renames t)) (L.path source) =
            s.look L (L.path source) := funext fun k => hsame.look hoff k
      rw [hnames, importedNames, Option.or_assoc]
      show (importedNames ((s.envRename t i.newname cell).look _ (L.path source)) ls k).or _ = _
      rw [hlook, hcell]
      congr 1
      by_cases hk : i.newname = k
      · subst hk
        rw [frameCell_envRename_self, if_pos rfl]
        rfl
      · rw [frameCell_envRename_of_ne hfits (.inr (Ne.symm hk)), if_neg hk, none_or]

/-! ## The whole import -/

/-- The cells that an import gives to names: in bulk those that the source itself has. -/
def imported (s : Heap Name Val) (L : Layout) (source : ℕ) :
    Option (List (Import Name)) → Name → Option ℕ
  | none, k => s.frameCell L source k
  | some ls, k => importedNames (s.look L (L.path source)) ls k

/-- A change that only the frame `t` sees. -/
structure StepOn (s s' : Heap Name Val) (environments : List ℕ) (L L' : Layout) (t : ℕ) : Prop where
  body : ∀ e ∈ environments, e ≠ t → L'.body e = L.body e
  path : ∀ e ∈ environments, t ∉ L.path e → L'.path e = L.path e
  frameCell : ∀ f k, f < s.frameCount → f ≠ t → s'.frameCell L' f k = s.frameCell L f k
  frameCount : s.frameCount ≤ s'.frameCount

theorem StepOn.look_path {L' : Layout} (h : StepOn s s' environments L L' t)
    (hfits : Fits s environments L) (he : e ∈ environments) (hoff : t ∉ L.path e) (k : Name) :
    s'.look L' (L'.path e) k = s.look L (L.path e) k := by
  rw [h.path e he hoff]
  exact look_congr fun f hf =>
    h.frameCell f k (hfits.path_lt e he f hf) fun heq => hoff (heq ▸ hf)

omit [DecidableEq Name] in
theorem Fits.body_lt (hfits : Fits s environments L) (he : e ∈ environments) (hf : f ∈ L.body e) :
    f < s.frameCount := by
  obtain ⟨rest, hrest⟩ := hfits.body e he
  exact hfits.path_lt e he f (by rw [hrest]; simp [hf])

theorem StepOn.look_body {L' : Layout} (h : StepOn s s' environments L L' t)
    (hfits : Fits s environments L) (ht : t ∈ environments) (he : e ∈ environments) (k : Name) :
    s'.look L' (L.body e) k = s.look L (L.body e) k :=
  look_congr fun _ hf =>
    h.frameCell _ k (hfits.body_lt he hf) fun heq => hfits.separate e he t ht (heq ▸ hf)

/-- The importing environment has the imported names and, behind them, what it had before. -/
structure Imported (s s' : Heap Name Val) (environments : List ℕ) (L L' : Layout) (t : ℕ)
    (names : Name → Option ℕ) : Prop where
  step : StepOn s s' environments L L' t
  own : ∀ k, s'.frameCell L' t k = none
  body : ∀ k, s'.look L' (L'.body t) k =
    (names k).or ((s.frameCell L t k).or (s.look L (L.body t) k))
  path : ∀ k, s'.look L' (L'.path t) k = (names k).or (s.look L (L.path t) k)

omit [DecidableEq Name] in
theorem Fits.not_mem_path_of_le (hfits : Fits s environments L) (he : e ∈ environments)
    (hle : s.frameCount ≤ f) : f ∉ L.path e := fun hmem =>
  absurd (hfits.path_lt e he f hmem) (not_lt.mpr hle)

theorem look_cons (f : ℕ) (frames : List ℕ) (k : Name) :
    s.look L (f :: frames) k = (s.frameCell L f k).or (s.look L frames k) := by
  unfold Heap.look
  rw [List.findSome?_cons]
  cases s.frameCell L f k <;> rfl

theorem fill_spec (hfits : Fits s environments L) (ht : t ∈ environments)
    (hsource : source ∈ environments) (hoff : t ∉ L.path source) (hempty : ∀ k, s.frameCell L t k = none)
    (ls : Option (List (Import Name))) :
    ∃ s' L', (match ls with
        | none => some (s.importAll t source)
        | some ls => Heap.importNames t source ls s) = some s' ∧
      Fits s' environments L' ∧ SameOutside s s' L L' t ∧
      ∀ k, s'.frameCell L' t k = imported s L source ls k := by
  cases ls with
  | none =>
    exact ⟨_, _, rfl, fits_importAll hfits ht, sameOutside_importAll source t,
      fun k => frameCell_importAll_self⟩
  | some ls =>
    obtain ⟨s', L', hrun, hfits', hsame, hnames⟩ := importNames_spec hfits hsource hoff ls
    refine ⟨s', L', hrun, hfits', hsame, fun k => ?_⟩
    rw [hnames, hempty, or_none]
    rfl

/-- The two frames of an import: the upper one has the imported names, and the lower one what the
environment had. -/
structure NewFrames (s s' : Heap Name Val) (L L' : Layout) (t : ℕ) (names : Name → Option ℕ) :
    Prop where
  body : L'.body t = (s.frameCount + 1) :: s.frameCount :: L.body t
  upper : ∀ k, s'.frameCell L' (s.frameCount + 1) k = names k
  lower : ∀ k, s'.frameCell L' s.frameCount k = s.frameCell L t k

theorem envImport_frames (hinv : Inv s environments L) (ht : t ∈ environments)
    (hsource : source ∈ environments) (hoff : t ∉ L.path source) (ls : Option (List (Import Name)))
    (immutp : Bool) :
    ∃ s' L', s.envImport t source ls immutp = some s' ∧ Inv s' environments L' ∧
      Imported s s' environments L L' t (imported s L source ls) ∧
      NewFrames s s' L L' t (imported s L source ls) := by
  have hfits := hinv.fits
  have hlt := hfits.lt ht
  have hne₁ : s.frameCount ≠ t := by omega
  have hne₂ : s.frameCount + 1 ≠ t := by omega
  -- the frame that takes what the environment had
  have hfits₁ := fits_insertFrame hfits ht (s.immutable t) immutp
  have hpath₁ : (L.insert t s.frameCount).path source = L.path source := insertAfter_of_not_mem hoff
  have hoff₁ : t ∉ (L.insert t s.frameCount).path source := by rwa [hpath₁]
  have hsame₁ : imported (s.insertFrame t (s.immutable t) immutp) (L.insert t s.frameCount) source ls
      = imported s L source ls := by
    cases ls with
    | none =>
      funext k
      have hst : source ≠ t := fun heq => hoff (heq ▸ hfits.mem_path hsource)
      have hsv : source ≠ s.frameCount := by
        have hlt' := hfits.lt hsource
        omega
      exact frameCell_insertFrame_of_ne hst hsv _ _
    | some ls =>
      have hlook : (s.insertFrame t (s.immutable t) immutp).look (L.insert t s.frameCount)
          ((L.insert t s.frameCount).path source) = s.look L (L.path source) := by
        funext k
        exact look_insertFrame hne₁ (hfits.not_mem_path_of_le hsource (le_refl _)) _ _
      funext k
      show importedNames _ ls k = importedNames _ ls k
      rw [hlook]
  -- the imports
  obtain ⟨s₂, L₂, hrun, hfits₂, houtside, hnames⟩ :=
    fill_spec hfits₁ ht hsource hoff₁ (fun k => frameCell_insertFrame_self _ _) ls
  rw [hsame₁] at hnames
  have hcount : s₂.frameCount = s.frameCount + 1 := houtside.frameCount
  -- the frame that takes the imports
  have hfits₃ := fits_insertFrame hfits₂ ht false false
  rw [hcount] at hfits₃
  have hbody : (L₂.insert t (s.frameCount + 1)).body t =
      (s.frameCount + 1) :: s.frameCount :: L.body t := by
    simp [Layout.insert, houtside.body]
  have hupper : ∀ k, (s₂.insertFrame t false false).frameCell (L₂.insert t (s.frameCount + 1))
      (s.frameCount + 1) k = imported s L source ls k := fun k => by
    rw [frameCell_insertFrame_new hne₂, hnames]
  have hlower : ∀ k, (s₂.insertFrame t false false).frameCell (L₂.insert t (s.frameCount + 1))
      s.frameCount k = s.frameCell L t k := fun k => by
    rw [frameCell_insertFrame_of_ne hne₁ (by omega), houtside.frameCell _ k hne₁,
      frameCell_insertFrame_new hne₁]
  refine ⟨s₂.insertFrame t false false, L₂.insert t (s.frameCount + 1), ?_, ?_, ?_,
    hbody, hupper, hlower⟩
  · exact congrArg (Option.map fun s => s.insertFrame t false false) hrun
  · refine ⟨hfits₃, fun e he => ?_, fun e he => ?_⟩
    · have hlt' := hfits.lt he
      have h₁ : e ≠ s.frameCount := by omega
      have h₂ : e ≠ s.frameCount + 1 := by omega
      by_cases heq : e = t
      · subst heq
        simp [Layout.insert]
      · have hrenames := houtside.renames e heq
        simp only [Layout.insert, update_of_ne heq, update_of_ne h₂, update_of_ne h₁] at hrenames ⊢
        rw [hrenames]
        exact hinv.clean e he
    · have hlt' := hfits.lt he
      have h₁ : e ≠ s.frameCount := by omega
      have h₂ : e ≠ s₂.frameCount := by omega
      by_cases heq : e = t
      · subst heq
        simp [Heap.insertFrame]
      · have himmutable := congrFun houtside.immutable e
        simp only [Heap.insertFrame, update_of_ne heq, update_of_ne h₂,
          update_of_ne h₁] at himmutable ⊢
        rw [himmutable]
        exact hinv.variable_ e he
  · have hframe : ∀ f k, f < s.frameCount → f ≠ t →
        (s₂.insertFrame t false false).frameCell (L₂.insert t (s.frameCount + 1)) f k =
          s.frameCell L f k := by
      intro f k hf hft
      rw [frameCell_insertFrame_of_ne hft (by omega), houtside.frameCell f k hft,
        frameCell_insertFrame_of_ne hft (by omega)]
    have hbody₂ : ∀ e, L₂.body e = (L.insert t s.frameCount).body e := fun e => by
      rw [houtside.body]
    have hpath₂ : ∀ e, L₂.path e = (L.insert t s.frameCount).path e := fun e => by
      rw [houtside.path]
    -- what the new frames have
    have hlook : ∀ frames k, (∀ f ∈ frames, f < s.frameCount ∧ f ≠ t) →
        (s₂.insertFrame t false false).look (L₂.insert t (s.frameCount + 1))
            ((s.frameCount + 1) :: s.frameCount :: frames) k =
          (imported s L source ls k).or ((s.frameCell L t k).or (s.look L frames k)) := by
      intro frames k hframes
      have hrest : (s₂.insertFrame t false false).look (L₂.insert t (s.frameCount + 1)) frames k =
          s.look L frames k := look_congr fun f hf => hframe f k (hframes f hf).1 (hframes f hf).2
      rw [look_cons, look_cons, hrest, hupper, hlower]
    refine ⟨⟨fun e he hne => ?_, fun e he hnot => ?_, hframe, ?_⟩,
      fun k => frameCell_insertFrame_self _ _, fun k => ?_, fun k => ?_⟩
    · simp only [Layout.insert, update_of_ne hne]
      rw [hbody₂]
      exact update_of_ne hne _ _
    · show insertAfter t _ (L₂.path e) = L.path e
      have hpath : L₂.path e = L.path e := (hpath₂ e).trans (insertAfter_of_not_mem hnot)
      rw [hpath, insertAfter_of_not_mem hnot]
    · show s.frameCount ≤ s₂.frameCount + 1
      omega
    · rw [hbody]
      exact hlook _ k fun f hf => ⟨hfits.body_lt ht hf, fun heq => hfits.separate t ht t ht (heq ▸ hf)⟩
    · obtain ⟨rest, hrest⟩ := hfits.body t ht
      rw [List.cons_append] at hrest
      have hnodup := hfits.nodup t ht
      rw [hrest, List.nodup_cons] at hnodup
      have hpath : (L₂.insert t (s.frameCount + 1)).path t =
          t :: (s.frameCount + 1) :: s.frameCount :: (L.body t ++ rest) := by
        show insertAfter t (s.frameCount + 1) (L₂.path t) = _
        rw [hpath₂]
        show insertAfter t (s.frameCount + 1) (insertAfter t s.frameCount (L.path t)) = _
        rw [hrest, insertAfter_cons_self, insertAfter_of_not_mem hnodup.1, insertAfter_cons_self,
          insertAfter_of_not_mem]
        rw [List.mem_cons, not_or]
        exact ⟨Ne.symm hne₁, hnodup.1⟩
      rw [hpath, look_cons, frameCell_insertFrame_self, none_or, hlook, hrest, look_cons]
      intro f hf
      refine ⟨hfits.path_lt t ht f (by rw [hrest]; exact List.mem_cons_of_mem t hf), ?_⟩
      rintro rfl
      exact hnodup.1 hf

/-- What an import does. -/
theorem envImport_spec (hinv : Inv s environments L) (ht : t ∈ environments)
    (hsource : source ∈ environments) (hoff : t ∉ L.path source) (ls : Option (List (Import Name)))
    (immutp : Bool) :
    ∃ s' L', s.envImport t source ls immutp = some s' ∧ Inv s' environments L' ∧
      Imported s s' environments L L' t (imported s L source ls) := by
  obtain ⟨s', L', hrun, hinv', himported, -⟩ :=
    envImport_frames hinv ht hsource hoff ls immutp
  exact ⟨s', L', hrun, hinv', himported⟩

end ChibiScheme.Env
