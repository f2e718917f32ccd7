import ChibiScheme.SyntaxRules.Pattern
import Mathlib.Data.List.Nodup
import Mathlib.Data.List.Zip

/-!
# The generated matcher

`Generates` is the contract of `expand-pattern`, by cases on the pattern: where the
continuation makes code, so does the pattern, and its code takes the value of `x` apart and runs
the code of the continuation in an environment with the pattern variables, or answers `#f`.
`expand-pattern` meets the contract for `Taken`; what this says about `Matches` is drawn at the
end.
-/

namespace ChibiScheme.SyntaxRules

open List

variable {ι : Type} [DecidableEq ι]

/-! ## Scopes -/

/-- The names that code generated from counter `c` on does not bind. -/
def Var.old (c : ℕ) : Var ι → Bool
  | .gen _ n => n ≤ c
  | .expr => true
  | _ => false

/-- The environment `ρ'` keeps what `ρ` has, but for pattern variables in `bound` and the names
generated after counter `c`. -/
structure Keeps (s : Rules ι) (c : ℕ) (bound : List ι) (ρ ρ' : Env ι) : Prop where
  old : ∀ x : Var ι, x.old c = true → lookup ρ' x = lookup ρ x
  loops : ∀ x : Var ι, x.old c = true → findLoop ρ' x = findLoop ρ x
  user : ∀ x, s.isVariable x = true → x ∉ bound → lookup ρ' (.user x) = lookup ρ (.user x)

variable {s : Rules ι} {er : Renaming ι}

omit [DecidableEq ι] in
variable {c : ℕ}

attribute [local simp] Var.old in
omit [DecidableEq ι] in
theorem Var.old_mono {c' : ℕ} (hle : c ≤ c') {x : Var ι} (h : x.old c = true) :
    x.old c' = true := by
  cases x with
  | gen stem n =>
    simp only [Var.old, decide_eq_true_eq] at h ⊢
    omega
  | expr => rfl
  | _ => simp [Var.old] at h

namespace Keeps

theorem refl (c : ℕ) (ρ : Env ι) : Keeps s c [] ρ ρ :=
  ⟨fun _ _ => rfl, fun _ _ => rfl, fun _ _ _ => rfl⟩

variable {c : ℕ} {ρ : Env ι}

theorem trans {c' : ℕ} (hle : c ≤ c') {b b' : List ι} {ρ' ρ'' : Env ι} (h : Keeps s c b ρ ρ')
    (h' : Keeps s c' b' ρ' ρ'') : Keeps s c (b ++ b') ρ ρ'' := by
  refine ⟨fun x hx => ?_, fun x hx => ?_, fun x hx hmem => ?_⟩
  · exact (h'.old x (Var.old_mono hle hx)).trans (h.old x hx)
  · exact (h'.loops x (Var.old_mono hle hx)).trans (h.loops x hx)
  · have hleft : x ∉ b := fun hin => hmem (mem_append_left _ hin)
    have hright : x ∉ b' := fun hin => hmem (mem_append_right _ hin)
    exact (h'.user x hx hright).trans (h.user x hx hleft)

theorem weaken {b b' : List ι} {ρ' : Env ι} (h : Keeps s c b ρ ρ') (hsub : ∀ x ∈ b, x ∈ b') :
    Keeps s c b' ρ ρ' :=
  ⟨h.old, h.loops, fun x hx hmem => h.user x hx fun hin => hmem (hsub x hin)⟩

theorem bind {x : Var ι} (hnew : x.old c = false) (huser : ∀ y, x ≠ .user y) (v : Form ι) :
    Keeps s c [] ρ (.bind x v :: ρ) := by
  have hne : ∀ y : Var ι, y.old c = true → x ≠ y := by
    intro y hold heq
    rw [heq, hold] at hnew
    exact absurd hnew (by decide)
  exact ⟨fun y hy => lookup_bind_ne (hne y hy) v ρ,
    fun y hy => findLoop_bind_ne (hne y hy) v ρ,
    fun y _ _ => lookup_bind_ne (huser y) v ρ⟩

theorem bindUser (y : ι) (v : Form ι) : Keeps s c [y] ρ (.bind (.user y) v :: ρ) := by
  refine ⟨fun x hx => ?_, fun x hx => ?_, fun x _ hmem => ?_⟩
  · refine lookup_bind_ne ?_ v ρ
    rintro rfl
    simp [Var.old] at hx
  · refine findLoop_bind_ne ?_ v ρ
    rintro rfl
    simp [Var.old] at hx
  · refine lookup_bind_ne ?_ v ρ
    intro heq
    exact hmem (by simp [Var.user.inj heq])

theorem bindOther {y : ι} (hnot : s.isVariable y = false) (v : Form ι) :
    Keeps s c [] ρ (.bind (.user y) v :: ρ) := by
  have hkeeps := bindUser (s := s) (c := c) (ρ := ρ) y v
  refine ⟨hkeeps.old, hkeeps.loops, fun x hx _ => hkeeps.user x hx ?_⟩
  intro hmem
  rw [mem_singleton.mp hmem, hnot] at hx
  exact absurd hx (by decide)

theorem loop {x : Var ι} (hnew : x.old c = false) (huser : ∀ y, x ≠ .user y)
    (params : List (Var ι)) (body : Code ι) :
    Keeps s c [] ρ (.loop x params body :: ρ) := by
  have hne : ∀ y : Var ι, y.old c = true → x ≠ y := by
    intro y hold heq
    rw [heq, hold] at hnew
    exact absurd hnew (by decide)
  refine ⟨fun y hy => ?_, fun y hy => ?_, fun y _ _ => ?_⟩
  · simp [lookup, hne y hy]
  · simp [findLoop, hne y hy]
  · simp [lookup, huser y]

theorem bindAll {c : ℕ} {ρ : Env ι} {xs : List (Var ι)} (hnew : ∀ x ∈ xs, x.old c = false)
    (huser : ∀ x ∈ xs, ∀ y, x ≠ .user y) (vs : List (Form ι)) :
    Keeps s c [] ρ (bindAll xs vs ρ) := by
  have hnotMem : ∀ y : Var ι, y.old c = true → y ∉ xs := by
    intro y hold hmem
    have hnot := hnew y hmem
    rw [hold] at hnot
    exact absurd hnot (by decide)
  exact ⟨fun y hy => lookup_bindAll_of_notMem (hnotMem y hy) vs ρ,
    fun y hy => findLoop_bindAll_of_notMem (hnotMem y hy) vs ρ,
    fun y _ _ => lookup_bindAll_of_notMem (fun hmem => huser _ hmem y rfl) vs ρ⟩

theorem bindUsers (xs : List ι) (vs : List (Form ι)) :
    Keeps s c xs ρ (SyntaxRules.bindAll (xs.map .user) vs ρ) := by
  refine ⟨fun y hy => ?_, fun y hy => ?_, fun y _ hmem => ?_⟩
  · refine lookup_bindAll_of_notMem ?_ vs ρ
    intro hin
    obtain ⟨x, _, rfl⟩ := mem_map.mp hin
    simp [Var.old] at hy
  · refine findLoop_bindAll_of_notMem ?_ vs ρ
    intro hin
    obtain ⟨x, _, rfl⟩ := mem_map.mp hin
    simp [Var.old] at hy
  · refine lookup_bindAll_of_notMem ?_ vs ρ
    intro hin
    obtain ⟨x, hx, heq⟩ := mem_map.mp hin
    exact hmem (Var.user.inj heq ▸ hx)

end Keeps

/-! ## The contract -/

/-- The depth that a list of variables gives to one of them. -/
def depthOf (vars : List (ι × ℕ)) (x : ι) : Option ℕ :=
  (vars.find? fun cell => x = cell.1).map Prod.snd

/-- The variables `vars'` are `vars` with `cells` in addition. -/
structure Lists (s : Rules ι) (cells vars vars' : List (ι × ℕ)) : Prop where
  new : ∀ cell ∈ cells, depthOf vars' cell.1 = some cell.2
  old : ∀ x, s.isVariable x = true → x ∉ cells.map Prod.fst → depthOf vars' x = depthOf vars x

/-- What running `code` on the value `v` amounts to, where `rest` is the code that comes after:
the pattern variables are bound and `rest` is run, or the value is `#f`. -/
structure Takes (s : Rules ι) (er : Renaming ι) (p : Pattern ι) (c : ℕ) (ρ : Env ι) (v : Form ι)
    (rest code : Code ι) : Prop where
  accepts : ∀ β, p.Taken s er v β → ∃ ρ', Keeps s c (p.vars s) ρ ρ' ∧
    (∀ y ∈ p.vars s, lookup ρ' (.user y) = some (β y)) ∧
    ∀ r, Runs er ρ' rest r → Runs er ρ code r
  rejects : (¬∃ β, p.Taken s er v β) → Runs er ρ code .no

/-- The contract of `expand-pattern` for one pattern. -/
def Generates (s : Rules ι) (er : Renaming ι) (p : Pattern ι) : Prop :=
  ∀ (x : Code ι) (dim : ℕ) (vars : List (ι × ℕ)) (k : List (ι × ℕ) → Gen (Code ι)) (c : ℕ),
    ∃ vars' c', c < c' ∧ Lists s (p.depths s dim) vars vars' ∧
      ∀ rest c'', k vars' c' = .ok (rest, c'') →
        ∃ code, s.expandLp p.form x dim vars k c = .ok (code, c'') ∧
          ∀ ρ v, Runs er ρ x v → Takes s er p c ρ v rest code

/-! ## Lists of variables -/

namespace Lists

theorem nil (vars : List (ι × ℕ)) : Lists s [] vars vars :=
  ⟨by simp, fun _ _ _ => rfl⟩

theorem single (y : ι) (dim : ℕ) (vars : List (ι × ℕ)) :
    Lists s [(y, dim)] vars ((y, dim) :: vars) := by
  refine ⟨fun cell hcell => ?_, fun x _ hmem => ?_⟩
  · rw [mem_singleton.mp hcell]
    simp [depthOf]
  · have hne : x ≠ y := by simpa using hmem
    simp [depthOf, hne]

theorem other {y : ι} (hnot : s.isVariable y = false) (dim : ℕ) (vars : List (ι × ℕ)) :
    Lists s [] vars ((y, dim) :: vars) := by
  refine ⟨by simp, fun x hvar _ => ?_⟩
  have hne : x ≠ y := by
    rintro rfl
    rw [hnot] at hvar
    exact absurd hvar (by decide)
  simp [depthOf, hne]

theorem trans {cells more vars vars' vars'' : List (ι × ℕ)} (h : Lists s cells vars vars')
    (h' : Lists s more vars' vars'') (hvar : ∀ cell ∈ cells, s.isVariable cell.1 = true)
    (hdisjoint : ∀ cell ∈ cells, cell.1 ∉ more.map Prod.fst) :
    Lists s (cells ++ more) vars vars'' := by
  refine ⟨fun cell hcell => ?_, fun x hx hmem => ?_⟩
  · rcases mem_append.mp hcell with hin | hin
    · exact (h'.old _ (hvar _ hin) (hdisjoint _ hin)).trans (h.new _ hin)
    · exact h'.new _ hin
  · rw [map_append, mem_append, not_or] at hmem
    exact (h'.old x hx hmem.2).trans (h.old x hx hmem.1)

variable {ρ : Env ι} {v : Form ι}

theorem congr {cells more vars vars' : List (ι × ℕ)} (h : Lists s cells vars vars')
    (hiff : ∀ cell, cell ∈ more ↔ cell ∈ cells) : Lists s more vars vars' := by
  refine ⟨fun cell hcell => h.new cell ((hiff cell).mp hcell), fun x hx hmem => ?_⟩
  refine h.old x hx fun hin => ?_
  obtain ⟨cell, hcell, rfl⟩ := mem_map.mp hin
  exact hmem (mem_map_of_mem ((hiff cell).mpr hcell))

end Lists

/-! ## The cases without an ellipsis -/

theorem runs_isNull {c : Code ι} (h : Runs er ρ c v) :
    Runs er ρ (.prim₁ .isNull c) (.ofBool v.isNull) := runs_prim₁ h rfl

theorem runs_isPair {c : Code ι} (h : Runs er ρ c v) :
    Runs er ρ (.prim₁ .isPair c) (.ofBool v.isPair) := runs_prim₁ h rfl

variable {p : Pattern ι}

theorem Takes.letVar {x rest body : Code ι} (hx : Runs er ρ x v)
    (hbody : Takes s er p (c + 1) (.bind (.gen "v." (c + 1)) v :: ρ) v rest body) :
    Takes s er p c ρ v rest (.letVars [(.gen "v." (c + 1), x)] body) := by
  have hnew : Keeps s c [] ρ (.bind (.gen "v." (c + 1)) v :: ρ) :=
    Keeps.bind (by simp [Var.old]) (by simp) v
  refine ⟨fun β htaken => ?_, fun hnone => runs_let hx (hbody.rejects hnone)⟩
  obtain ⟨ρ', hkeeps, hvars, hrun⟩ := hbody.accepts β htaken
  exact ⟨ρ', hnew.trans (Nat.le_succ c) hkeeps, hvars, fun r hr => runs_let hx (hrun r hr)⟩

theorem Takes.test {rest test : Code ι} (b : Bool) (htest : Runs er ρ test (.ofBool b))
    (hvars : p.vars s = []) (htaken : ∀ β, p.Taken s er v β ↔ b = true) :
    Takes s er p c ρ v rest (.both test rest) := by
  refine ⟨fun β h_β => ?_, fun hnone => ?_⟩
  · have htrue : b = true := (htaken β).mp h_β
    refine ⟨ρ, ?_, by simp [hvars], fun r hr => runs_both htest (by simp [htrue]) hr⟩
    rw [hvars]
    exact Keeps.refl c ρ
  · have hfalse : b = false := by
      by_contra hnot
      exact hnone ⟨fun _ => .nil, (htaken _).mpr (by simpa using hnot)⟩
    rw [hfalse] at htest
    exact runs_both_no htest

theorem generates_name {y : ι} (hmark : s.ellipsisMark (.ident y) = false) :
    Generates s er (.name y) := by
  intro x dim vars k c
  by_cases hlit : y ∈ s.lits
  · have hvar : s.isVariable y = false := by simp [Rules.isVariable, hlit]
    refine ⟨vars, c + 1, Nat.lt_succ_self c, ?_, fun rest c'' hk => ?_⟩
    · simpa [Pattern.depths, hvar] using Lists.nil vars
    · refine ⟨_, Rules.run_literal hmark hlit hk, fun ρ v hx => Takes.letVar hx ?_⟩
      refine Takes.test (er.compare.same v (.ident (er.rename y))) ?_ (by simp [Pattern.vars, hvar])
        (by simp [Pattern.Taken, hlit])
      exact runs_prim₂ (runs_var (lookup_bind_self _ _ _)) (runs_rename y) rfl
  · cases hunder : s.isUnderscore y with
    | true =>
      have hvar : s.isVariable y = false := by simp [Rules.isVariable, hunder]
      refine ⟨vars, c + 1, Nat.lt_succ_self c, ?_, fun rest c'' hk => ?_⟩
      · simpa [Pattern.depths, hvar] using Lists.nil vars
      · refine ⟨_, Rules.run_underscore hmark hlit hunder hk,
          fun ρ v hx => Takes.letVar hx ⟨fun β _ => ?_, fun hnone => ?_⟩⟩
        · refine ⟨_, ?_, by simp [Pattern.vars, hvar], fun r hr => hr⟩
          simpa [Pattern.vars, hvar] using Keeps.refl (s := s) (c + 1) _
        · exact absurd ⟨fun _ => .nil, by simp [Pattern.Taken, hlit, hunder]⟩ hnone
    | false =>
      have hvar : s.isVariable y = true := Pattern.isVariable_iff.mpr ⟨hlit, hunder⟩
      refine ⟨(y, dim) :: vars, c + 1, Nat.lt_succ_self c, ?_, fun rest c'' hk => ?_⟩
      · simpa [Pattern.depths, hvar] using Lists.single y dim vars
      refine ⟨_, Rules.run_variable hmark hlit hunder hk,
        fun ρ v hx => Takes.letVar hx ⟨fun β htaken => ?_, fun hnone => ?_⟩⟩
      · have h_β : β y = v := by simpa [Pattern.Taken, hlit, hunder] using htaken
        refine ⟨.bind (.user y) v :: _, ?_, ?_, fun r hr => runs_let ?_ hr⟩
        · simpa [Pattern.vars, hvar] using Keeps.bindUser (s := s) (c := c + 1) y v
        · intro z hz
          have heq : z = y := by simpa [Pattern.vars, hvar] using hz
          rw [heq, lookup_bind_self, h_β]
        · exact runs_var (lookup_bind_self _ _ _)
      · exact absurd ⟨fun _ => v, by simp [Pattern.Taken, hlit, hunder]⟩ hnone

theorem generates_nil : Generates s er .nil := by
  intro x dim vars k c
  refine ⟨vars, c + 1, Nat.lt_succ_self c, Lists.nil vars, fun rest c'' hk => ?_⟩
  refine ⟨_, Rules.run_nil hk, fun ρ v hx => Takes.letVar hx ?_⟩
  refine Takes.test v.isNull (runs_prim₁ (runs_var (lookup_bind_self _ _ _)) rfl) rfl fun β => ?_
  cases v with
  | nil => simp [Pattern.Taken, Form.isNull]
  | _ => simp [Pattern.Taken, Form.isNull]

theorem generates_datum (a : Atom) : Generates s er (.datum a) := by
  intro x dim vars k c
  refine ⟨vars, c + 1, Nat.lt_succ_self c, Lists.nil vars, fun rest c'' hk => ?_⟩
  refine ⟨_, Rules.run_atom hk, fun ρ v hx => Takes.letVar hx ?_⟩
  refine Takes.test (v.equal (.atom a)) ?_ rfl fun β => (Form.equal_atom v a).symm
  exact runs_prim₂ (runs_var (lookup_bind_self _ _ _)) (runs_datum a) rfl

theorem Pattern.map_fst_depths (p : Pattern ι) (dim : ℕ) :
    (p.depths s dim).map Prod.fst = p.vars s := by
  induction p generalizing dim with
  | name y =>
    by_cases hvar : s.isVariable y = true
    · simp [Pattern.depths, Pattern.vars, hvar]
    · simp [Pattern.depths, Pattern.vars, hvar]
  | cons head rest ih_head ih_rest => simp [Pattern.depths, Pattern.vars, ih_head, ih_rest]
  | ellipsis head mark tail ih_head ih_tail =>
    simp [Pattern.depths, Pattern.vars, ih_head, ih_tail]
  | vec body ih => simp [Pattern.depths, Pattern.vars, ih]
  | _ => rfl

theorem Pattern.isVariable_of_mem_depths {dim : ℕ} {cell : ι × ℕ} (h : cell ∈ p.depths s dim) :
    s.isVariable cell.1 = true := by
  refine Pattern.isVariable_of_mem (p := p) ?_
  rw [← p.map_fst_depths dim]
  exact mem_map_of_mem h

variable {head : Pattern ι}

theorem not_isEllipsis_cons {rest : Pattern ι} (hmarked : (Pattern.cons head rest).Marked s) :
    s.isEllipsis (Pattern.cons head rest).form = false := by
  by_contra hnot
  obtain ⟨y, d, hform, hmark⟩ := s.isEllipsis_pair (by simpa [Pattern.form] using hnot)
  have hfirst : ∀ first : Pattern ι, first.Marked s → first.form ≠ .ident y := by
    intro first hfirst heq
    cases first with
    | name z =>
      have hyz : z = y := by simpa [Pattern.form] using heq
      rw [Pattern.Marked, hyz, hmark] at hfirst
      exact absurd hfirst (by decide)
    | _ => simp [Pattern.form] at heq
  cases rest with
  | cons first more =>
    exact hfirst first hmarked.2.1 (by simpa [Pattern.form] using (Form.pair.inj hform).1)
  | ellipsis first m more =>
    exact hfirst first hmarked.2.2.1 (by simpa [Pattern.form] using (Form.pair.inj hform).1)
  | _ => simp [Pattern.form] at hform

theorem generates_cons {rest : Pattern ι} (hmarked : (Pattern.cons head rest).Marked s)
    (hdisjoint : ∀ y ∈ head.vars s, y ∉ rest.vars s) (ih_head : Generates s er head)
    (ih_rest : Generates s er rest) :
    Generates s er (.cons head rest) := by
  intro x dim vars k c
  obtain ⟨vars₁, c₁, hlt₁, hlists₁, hhead⟩ := ih_head (.prim₁ .car (.var (.gen "v." (c + 1))))
    dim vars (fun vars => s.expandLp rest.form (.prim₁ .cdr (.var (.gen "v." (c + 1)))) dim vars k)
    (c + 1)
  obtain ⟨vars₂, c₂, hlt₂, hlists₂, hrest⟩ :=
    ih_rest (.prim₁ .cdr (.var (.gen "v." (c + 1)))) dim vars₁ k c₁
  refine ⟨vars₂, c₂, by omega, ?_, fun last c'' hk => ?_⟩
  · refine hlists₁.trans hlists₂ (fun cell h => Pattern.isVariable_of_mem_depths h) ?_
    intro cell hcell
    rw [Pattern.map_fst_depths]
    refine hdisjoint _ ?_
    rw [← head.map_fst_depths dim]
    exact mem_map_of_mem hcell
  · obtain ⟨codeRest, hrunRest, htakesRest⟩ := hrest last c'' hk
    obtain ⟨codeHead, hrunHead, htakesHead⟩ := hhead codeRest c'' hrunRest
    refine ⟨_, Rules.run_pair (not_isEllipsis_cons hmarked) hrunHead,
      fun ρ v hx => Takes.letVar hx ?_⟩
    have hv := lookup_bind_self (.gen "v." (c + 1)) v ρ
    have htest : Runs er (.bind (.gen "v." (c + 1)) v :: ρ)
        (.prim₁ .isPair (.var (.gen "v." (c + 1)))) (.ofBool v.isPair) :=
      runs_prim₁ (runs_var hv) rfl
    cases v with
    | pair a d =>
      have htakes := htakesHead _ a (runs_prim₁ (runs_var hv) rfl)
      -- whatever the head binds, the tail is still in the variable of the pair
      have hthen : ∀ β, head.Taken s er a β → ∃ ρ₁,
          Keeps s (c + 1) (head.vars s) (.bind (.gen "v." (c + 1)) (.pair a d) :: ρ) ρ₁ ∧
          (∀ y ∈ head.vars s, lookup ρ₁ (.user y) = some (β y)) ∧
          (∀ r, Runs er ρ₁ codeRest r → Runs er
            (.bind (.gen "v." (c + 1)) (.pair a d) :: ρ) codeHead r) ∧
          Takes s er rest c₁ ρ₁ d last codeRest := by
        intro β htaken
        obtain ⟨ρ₁, hkeeps, hvars, hrun⟩ := htakes.accepts β htaken
        have hkept : Runs er ρ₁ (.var (.gen "v." (c + 1))) (.pair a d) := by
          refine runs_var ?_
          rw [hkeeps.old _ (by simp [Var.old])]
          exact hv
        exact ⟨ρ₁, hkeeps, hvars, hrun, htakesRest ρ₁ d (runs_prim₁ hkept rfl)⟩
      refine ⟨fun β htaken => ?_, fun hnone => ?_⟩
      · obtain ⟨a', d', heq, htakenHead, htakenRest⟩ := htaken
        obtain ⟨rfl, rfl⟩ := Form.pair.inj heq
        obtain ⟨ρ₁, hkeeps₁, hvars₁, hrun₁, htakes₁⟩ := hthen β htakenHead
        obtain ⟨ρ₂, hkeeps₂, hvars₂, hrun₂⟩ := htakes₁.accepts β htakenRest
        refine ⟨ρ₂, hkeeps₁.trans (by omega) hkeeps₂, fun y hy => ?_, fun r hr => ?_⟩
        · rcases mem_append.mp hy with hin | hin
          · rw [hkeeps₂.user y (Pattern.isVariable_of_mem hin) (hdisjoint y hin)]
            exact hvars₁ y hin
          · exact hvars₂ y hin
        · exact runs_both htest (by rfl) (hrun₁ r (hrun₂ r hr))
      · refine runs_both htest (by rfl) ?_
        by_cases hex : ∃ β, head.Taken s er a β
        · obtain ⟨β, htakenHead⟩ := hex
          obtain ⟨ρ₁, _, _, hrun₁, htakes₁⟩ := hthen β htakenHead
          refine hrun₁ _ (htakes₁.rejects ?_)
          rintro ⟨γ, htakenRest⟩
          -- the two have no variable in common, so one assignment serves both
          refine hnone ⟨fun y => if y ∈ head.vars s then β y else γ y, a, d, rfl, ?_, ?_⟩
          · exact Pattern.taken_congr (fun y hy => by simp [hy]) htakenHead
          · refine Pattern.taken_congr (fun y hy => ?_) htakenRest
            have hnotMem : y ∉ head.vars s := fun hin => hdisjoint y hin hy
            simp [hnotMem]
        · exact htakes.rejects hex
    | _ =>
      refine ⟨fun β htaken => ?_, fun _ => runs_both_no htest⟩
      obtain ⟨a, d, heq, _⟩ := htaken
      exact absurd heq (by simp)

omit [DecidableEq ι] in
theorem Pattern.ofList_cars_form {body : Pattern ι} (hproper : body.proper = true) :
    Form.ofList body.form.cars = body.form := by
  induction body with
  | nil => rfl
  | cons head rest ih_head ih_rest => simp [Pattern.form, Form.cars, ih_rest hproper]
  | ellipsis head mark tail ih_head ih_tail =>
    simp [Pattern.form, Form.cars, ih_tail hproper]
  | _ => simp [Pattern.proper] at hproper

theorem generates_vec {body : Pattern ι} (hproper : body.proper = true)
    (ih : Generates s er body) : Generates s er (.vec body) := by
  intro x dim vars k c
  obtain ⟨vars', c', hlt, hlists, hbody⟩ :=
    ih (.prim₁ .vectorToList (.var (.gen "v." (c + 1)))) dim vars k (c + 1)
  refine ⟨vars', c', by omega, hlists, fun rest c'' hk => ?_⟩
  obtain ⟨code, hrun, htakes⟩ := hbody rest c'' hk
  rw [← Pattern.ofList_cars_form hproper] at hrun
  refine ⟨_, Rules.run_vec hrun, fun ρ v hx => Takes.letVar hx ?_⟩
  have hv := lookup_bind_self (.gen "v." (c + 1)) v ρ
  have htest : Runs er (.bind (.gen "v." (c + 1)) v :: ρ)
      (.prim₁ .isVector (.var (.gen "v." (c + 1)))) (.ofBool v.isVector) :=
    runs_prim₁ (runs_var hv) rfl
  cases v with
  | vec vs =>
    have hinner := htakes _ (.ofList vs) (runs_prim₁ (runs_var hv) rfl)
    refine ⟨fun β htaken => ?_, fun hnone => ?_⟩
    · obtain ⟨ws, heq, htaken⟩ := htaken
      obtain rfl : vs = ws := Form.vec.inj heq
      obtain ⟨ρ', hkeeps, hvars, hgo⟩ := hinner.accepts β htaken
      exact ⟨ρ', hkeeps, hvars, fun r hr => runs_both htest (by rfl) (hgo r hr)⟩
    · refine runs_both htest (by rfl) (hinner.rejects ?_)
      rintro ⟨β, htaken⟩
      exact hnone ⟨β, vs, rfl, htaken⟩
  | _ =>
    refine ⟨fun β htaken => ?_, fun _ => runs_both_no htest⟩
    obtain ⟨vs, heq, _⟩ := htaken
    exact absurd heq (by simp)

/-! ## The loop over the items of an ellipsis -/

theorem runsAll_zipWith {α : Type} {ρ : Env ι} {g : α → Var ι → Code ι} {h : α → Form ι} :
    ∀ {xs : List α} {ls : List (Var ι)}, ls.length = xs.length →
      (∀ p ∈ xs.zip ls, Runs er ρ (g p.1 p.2) (h p.1)) →
      RunsAll er ρ (List.zipWith g xs ls) (xs.map h)
  | [], [], _, _ => .nil
  | x :: xs, l :: ls, hlen, heach => by
    refine .cons (heach (x, l) (by simp)) (runsAll_zipWith (by simpa using hlen) ?_)
    intro p hp
    exact heach p (by simp [hp])
  | [], _ :: _, hlen, _ => by simp at hlen
  | _ :: _, [], hlen, _ => by simp at hlen

theorem runsAll_quote {α β : Type} {ρ : Env ι} (d : Form ι) :
    ∀ {ls : List α} {xs : List β}, ls.length = xs.length →
      RunsAll er ρ (ls.map fun _ => .quote d) (xs.map fun _ => d)
  | [], [], _ => .nil
  | _ :: _, _ :: _, hlen => .cons (runs_quote d) (runsAll_quote d (by simpa using hlen))
  | [], _ :: _, hlen => by simp at hlen
  | _ :: _, [], hlen => by simp at hlen

theorem zipWith_fst {α β γ : Type} (f : α → γ) :
    ∀ (xs : List α) (ys : List β), ys.length = xs.length →
      List.zipWith (fun x _ => f x) xs ys = xs.map f
  | [], _, _ => by simp
  | x :: xs, [], hlen => by simp at hlen
  | x :: xs, y :: ys, hlen => by
    simp [zipWith_fst f xs ys (by simpa using hlen)]

theorem Pattern.allVars_form (hmarked : p.Marked s) (dim : ℕ) (vars : List (ι × ℕ)) :
    s.allVars p.form dim vars = p.depths s dim ++ vars := by
  induction p generalizing dim vars with
  | name y =>
    by_cases hvar : s.isVariable y = true
    · simp [Pattern.form, Rules.allVars, Pattern.depths, hvar]
    · simp [Pattern.form, Rules.allVars, Pattern.depths, hvar]
  | datum a => simp [Pattern.form, Rules.allVars, Pattern.depths]
  | nil => simp [Pattern.form, Rules.allVars, Pattern.depths]
  | cons head rest ih_head ih_rest =>
    have hnot := not_isEllipsis_cons hmarked
    rw [Pattern.form] at hnot ⊢
    rw [Rules.allVars, if_neg (by simp [hnot]), ih_rest hmarked.2, ih_head hmarked.1,
      Pattern.depths, append_assoc]
  | ellipsis head mark tail ih_head ih_tail =>
    have hellipsis : s.isEllipsis (.pair head.form (.pair (.ident mark) tail.form)) = true := by
      simp [Rules.isEllipsis, Form.isPair, Form.cdr, Form.car, hmarked.1]
    rw [Pattern.form, Rules.allVars, if_pos hellipsis, Form.cdr, ih_tail hmarked.2.2.1,
      ih_head hmarked.2.1, Pattern.depths, append_assoc]
  | vec body ih =>
    rw [Pattern.form, Rules.allVars, Pattern.ofList_cars_form hmarked.2, ih hmarked.1,
      Pattern.depths]

/-- What the names of a loop are: they are new at counter `c`, they stay in scope of code that is
generated from counter `c'` on, and they differ. -/
structure LoopNames (c c' : ℕ) (w lp : Var ι) (newVars : List (ι × ℕ)) (lsVars : List (Var ι)) :
    Prop where
  length : lsVars.length = newVars.length
  nodup : (w :: lsVars).Nodup
  loop_notMem : lp ∉ w :: lsVars
  counted : ∀ x ∈ lp :: w :: lsVars, ∃ stem n, x = Var.gen stem n ∧ c < n ∧ n ≤ c'

/-- The environment of the body of a loop, at the rest `v` of the items and with the collected
lists `acc`. -/
def loopEnv (w lp : Var ι) (newVars : List (ι × ℕ)) (lsVars : List (Var ι)) (body : Code ι)
    (ρ : Env ι) (v : Form ι) (acc : ι × ℕ → Form ι) : Env ι :=
  bindAll (w :: lsVars) (v :: newVars.map acc) (.loop lp (w :: lsVars) body :: ρ)

section Loop

variable {c c' : ℕ} {w lp : Var ι} {newVars : List (ι × ℕ)} {lsVars : List (Var ι)}
  {body : Code ι} {ρ : Env ι} {v : Form ι} {acc : ι × ℕ → Form ι}

omit [DecidableEq ι] in
variable {x : Var ι}

variable (h : LoopNames c c' w lp newVars lsVars)
include h

omit [DecidableEq ι] in
theorem LoopNames.new (hx : x ∈ lp :: w :: lsVars) :
    x.old c = false := by
  obtain ⟨stem, n, rfl, hlt, _⟩ := h.counted x hx
  simpa [Var.old] using hlt

omit [DecidableEq ι] in
theorem LoopNames.old (hx : x ∈ lp :: w :: lsVars) :
    x.old c' = true := by
  obtain ⟨stem, n, rfl, _, hle⟩ := h.counted x hx
  simpa [Var.old] using hle

omit [DecidableEq ι] in
theorem LoopNames.notUser (hx : x ∈ lp :: w :: lsVars)
    (y : ι) : x ≠ .user y := by
  obtain ⟨stem, n, rfl, _, _⟩ := h.counted x hx
  simp

theorem LoopNames.keeps :
    Keeps s c [] ρ (loopEnv w lp newVars lsVars body ρ v acc) := by
  have hloop : Keeps s c [] ρ (.loop lp (w :: lsVars) body :: ρ) :=
    Keeps.loop (h.new (by simp)) (h.notUser (by simp)) _ _
  refine hloop.trans (Nat.le_refl c) (Keeps.bindAll (fun x hx => ?_) (fun x hx => ?_) _)
  · exact h.new (mem_cons_of_mem lp hx)
  · exact h.notUser (mem_cons_of_mem lp hx)

theorem LoopNames.lookup_item :
    lookup (loopEnv w lp newVars lsVars body ρ v acc) w = some v :=
  lookup_bindAll h.nodup _ (by simp)

theorem LoopNames.lookup_list {x : ι × ℕ} {l : Var ι}
    (hmem : (x, l) ∈ newVars.zip lsVars) :
    lookup (loopEnv w lp newVars lsVars body ρ v acc) l = some (acc x) := by
  refine lookup_bindAll h.nodup _ ?_
  rw [zip_cons_cons]
  refine mem_cons_of_mem _ ?_
  rw [zip_map_right, mem_map]
  exact ⟨(l, x), by rw [← zip_swap]; exact mem_map_of_mem (f := Prod.swap) hmem, rfl⟩

theorem LoopNames.findLoop_loop :
    findLoop (loopEnv w lp newVars lsVars body ρ v acc) lp =
      some (w :: lsVars, body, .loop lp (w :: lsVars) body :: ρ) := by
  rw [loopEnv, findLoop_bindAll_of_notMem h.loop_notMem]
  simp [findLoop]

omit h

variable {head : Pattern ι}

/-- The call at the end of the code for an item goes on with the rest of the items and with what
the variables stand for in front of the lists. -/
theorem LoopNames.again (h : LoopNames c c' w lp newVars lsVars) {a d : Form ι}
    (hvars : newVars.map Prod.fst = head.vars s) {β : ι → Form ι} {ρ' : Env ι} {r : Form ι}
    (hkeeps : Keeps s c' (head.vars s) (loopEnv w lp newVars lsVars body ρ (.pair a d) acc) ρ')
    (hlookup : ∀ y ∈ head.vars s, lookup ρ' (.user y) = some (β y))
    (hr : Runs er (loopEnv w lp newVars lsVars body ρ d fun x => .pair (β x.1) (acc x)) body r) :
    Runs er ρ' (Rules.againCode w lp newVars lsVars) r := by
  have hloop : findLoop ρ' lp = some (w :: lsVars, body, .loop lp (w :: lsVars) body :: ρ) := by
    rw [hkeeps.loops lp (h.old (by simp))]
    exact h.findLoop_loop
  have hitem : Runs er ρ' (.var w) (.pair a d) := by
    refine runs_var ?_
    rw [hkeeps.old w (h.old (by simp))]
    exact h.lookup_item
  have hlists : RunsAll er ρ'
      (List.zipWith (fun x l => .prim₂ .cons (.var (.user x.1)) (.var l)) newVars lsVars)
      (newVars.map fun x => .pair (β x.1) (acc x)) := by
    refine runsAll_zipWith h.length fun p hp => ?_
    obtain ⟨x, l⟩ := p
    obtain ⟨hx, hl⟩ := of_mem_zip hp
    have hvalue : Runs er ρ' (.var (.user x.1)) (β x.1) := by
      refine runs_var (hlookup x.1 ?_)
      rw [← hvars]
      exact mem_map_of_mem hx
    have hlist : Runs er ρ' (.var l) (acc x) := by
      refine runs_var ?_
      rw [hkeeps.old l (h.old (by simp [hl]))]
      exact h.lookup_list hp
    exact runs_prim₂ hvalue hlist rfl
  have hrest : Runs er ρ' (.prim₁ .cdr (.var w)) d := runs_prim₁ hitem rfl
  exact runs_call hloop (.cons hrest hlists) (by simp [h.length]) hr

/-- The collected lists when the assignments `βs` were made, the last one first. -/
def collected (βs : List (ι → Form ι)) (x : ι × ℕ) : Form ι :=
  .ofList (βs.map fun γ => γ x.1)

theorem LoopNames.finish (h : LoopNames c c' w lp newVars lsVars)
    (hvars : newVars.map Prod.fst = head.vars s) (hnodup : (head.vars s).Nodup)
    {once rest : Code ι} (βs : List (ι → Form ι))
    (hbody : body = Rules.loopBody w newVars lsVars once rest) :
    ∃ ρ', Keeps s c (head.vars s) ρ ρ' ∧
      (∀ y ∈ head.vars s, lookup ρ' (.user y) = some (.ofList (βs.reverse.map fun γ => γ y))) ∧
      ∀ r, Runs er ρ' rest r →
        Runs er (loopEnv w lp newVars lsVars body ρ .nil (collected βs)) body r := by
  have hbindings :
      (List.zipWith (fun x l => (Var.user x.1, Code.prim₁ .reverse (.var l))) newVars lsVars).map
        Prod.fst = (head.vars s).map Var.user := by
    rw [map_zipWith, ← hvars, map_map]
    exact zipWith_fst (fun x => Var.user x.1) newVars lsVars h.length
  refine ⟨bindAll ((head.vars s).map .user)
    (newVars.map fun x => .ofList (βs.reverse.map fun γ => γ x.1))
    (loopEnv w lp newVars lsVars body ρ .nil (collected βs)), ?_, fun y hy => ?_,
    fun r hr => ?_⟩
  · exact h.keeps.trans (Nat.le_refl c) (Keeps.bindUsers _ _)
  · refine lookup_bindAll (hnodup.map fun _ _ heq => Var.user.inj heq) _ ?_
    rw [← hvars] at hy ⊢
    obtain ⟨x, hx, rfl⟩ := mem_map.mp hy
    rw [map_map, zip_map', mem_map]
    exact ⟨x, hx, rfl⟩
  · have htest : Runs er (loopEnv w lp newVars lsVars body ρ .nil (collected βs))
        (.prim₁ .isNull (.var w)) .yes := runs_prim₁ (runs_var h.lookup_item) rfl
    have hlists : RunsAll er (loopEnv w lp newVars lsVars body ρ .nil (collected βs))
        ((List.zipWith (fun x l => (Var.user x.1, Code.prim₁ .reverse (.var l)))
          newVars lsVars).map Prod.snd)
        (newVars.map fun x => .ofList (βs.reverse.map fun γ => γ x.1)) := by
      rw [map_zipWith]
      refine runsAll_zipWith h.length fun p hp => ?_
      refine runs_prim₁ (runs_var (h.lookup_list hp)) ?_
      simp [Prim₁.apply, collected]
    rw [← hbindings] at hr
    rw [hbody] at htest hlists hr ⊢
    exact runs_ite_yes htest rfl (runs_letVars hlists hr)

theorem LoopNames.run (h : LoopNames c c' w lp newVars lsVars)
    (hvars : newVars.map Prod.fst = head.vars s) (hnodup : (head.vars s).Nodup)
    {once rest : Code ι} (hbody : body = Rules.loopBody w newVars lsVars once rest)
    (honce : ∀ ρ a, Runs er ρ (.prim₁ .car (.var w)) a →
      Takes s er head c' ρ a (Rules.againCode w lp newVars lsVars) once)
    (v : Form ι) (done : List (ι → Form ι)) :
    (∀ items βs, v = .ofList items → List.Forall₂ (head.Taken s er) items βs →
      ∃ ρ', Keeps s c (head.vars s) ρ ρ' ∧
        (∀ y ∈ head.vars s,
          lookup ρ' (.user y) = some (.ofList ((done.reverse ++ βs).map fun γ => γ y))) ∧
        ∀ r, Runs er ρ' rest r →
          Runs er (loopEnv w lp newVars lsVars body ρ v (collected done)) body r) ∧
    ((¬∃ items βs, v = .ofList items ∧ List.Forall₂ (head.Taken s er) items βs) →
      Runs er (loopEnv w lp newVars lsVars body ρ v (collected done)) body .no) := by
  induction v using Form.spine_induction generalizing done with
  | hend v hpair =>
    refine ⟨fun items βs hv hitems => ?_, fun hnone => ?_⟩
    · cases items with
      | cons item items =>
        rw [hv] at hpair
        simp [Form.isPair] at hpair
      | nil =>
        obtain rfl : βs = [] := by simpa using hitems
        rw [hv, Form.ofList_nil, append_nil]
        exact h.finish hvars hnodup done hbody
    · have hnull : v.isNull = false := by
        cases v with
        | nil => exact absurd ⟨[], [], rfl, .nil⟩ hnone
        | _ => rfl
      have hitem : Runs er (loopEnv w lp newVars lsVars body ρ v (collected done)) (.var w) v :=
        runs_var h.lookup_item
      have hisNull := runs_isNull hitem
      have hisPair := runs_isPair hitem
      rw [hnull] at hisNull
      rw [hpair] at hisPair
      rw [hbody] at hisNull hisPair ⊢
      exact runs_ite_no hisNull rfl (runs_both_no hisPair)
  | hpair a d ih =>
    have hitem : Runs er (loopEnv w lp newVars lsVars body ρ (.pair a d) (collected done))
        (.var w) (.pair a d) := runs_var h.lookup_item
    have htakes := honce _ a (runs_prim₁ hitem rfl)
    have hisNull := runs_isNull hitem
    have hisPair := runs_isPair hitem
    -- the body comes down to the code for one item
    have henter : ∀ r,
        Runs er (loopEnv w lp newVars lsVars body ρ (.pair a d) (collected done)) once r →
        Runs er (loopEnv w lp newVars lsVars body ρ (.pair a d) (collected done)) body r := by
      intro r hr
      rw [hbody] at hisNull hisPair hr ⊢
      exact runs_ite_no hisNull rfl (runs_both hisPair rfl hr)
    refine ⟨fun items βs hv hitems => ?_, fun hnone => ?_⟩
    · cases items with
      | nil => exact absurd hv (by simp)
      | cons item items =>
        obtain ⟨rfl, rfl⟩ := Form.pair.inj hv
        cases hitems with
        | @cons _ β _ βs htaken hitems =>
          obtain ⟨ρ₁, hkeeps₁, hvars₁, hrun₁⟩ := htakes.accepts β htaken
          obtain ⟨ρ₂, hkeeps₂, hvars₂, hrun₂⟩ := (ih (β :: done)).1 items βs rfl hitems
          refine ⟨ρ₂, hkeeps₂, fun y hy => ?_, fun r hr => ?_⟩
          · rw [hvars₂ y hy]
            simp
          · exact henter r (hrun₁ r (h.again hvars hkeeps₁ hvars₁ (hrun₂ r hr)))
    · refine henter _ ?_
      by_cases hex : ∃ β, head.Taken s er a β
      · obtain ⟨β, htaken⟩ := hex
        obtain ⟨ρ₁, hkeeps₁, hvars₁, hrun₁⟩ := htakes.accepts β htaken
        refine hrun₁ _ (h.again hvars hkeeps₁ hvars₁ ((ih (β :: done)).2 ?_))
        rintro ⟨items, βs, hd, hitems⟩
        exact hnone ⟨a :: items, β :: βs, by simp [hd], .cons htaken hitems⟩
      · exact htakes.rejects hex

end Loop

/-! ## The cases with an ellipsis -/

namespace Lists

theorem append {cells : List (ι × ℕ)} (hnodup : (cells.map Prod.fst).Nodup)
    (vars : List (ι × ℕ)) : Lists s cells vars (cells ++ vars) := by
  induction cells with
  | nil => exact nil vars
  | cons first cells ih =>
    obtain ⟨hnew, hnodup⟩ := nodup_cons.mp hnodup
    have hlists := ih hnodup
    refine ⟨fun cell hcell => ?_, fun x hx hmem => ?_⟩
    · rcases mem_cons.mp hcell with rfl | hin
      · simp [depthOf]
      · have hne : cell.1 ≠ first.1 := by
          intro heq
          exact hnew (heq ▸ mem_map_of_mem hin)
        rw [← hlists.new cell hin]
        simp [depthOf, hne]
    · rw [map_cons, mem_cons, not_or] at hmem
      rw [← hlists.old x hx hmem.2]
      simp [depthOf, hmem.1]

end Lists

variable {mark : ι}

theorem taken_star {β : ι → Form ι} :
    (Pattern.ellipsis head mark .nil).Taken s er v β ↔
      ∃ items, v = .ofList items ∧ Pattern.TakenAll s head (head.Taken s er) items β := by
  constructor
  · rintro ⟨items, rest, rfl, _, hrest, hall⟩
    have hnil : rest = .nil := hrest
    exact ⟨items, by rw [hnil]; rfl, hall⟩
  · rintro ⟨items, rfl, hall⟩
    exact ⟨items, .nil, rfl, rfl, rfl, hall⟩

theorem generates_shortcut {y : ι} (hmark : s.ellipsisMark (.ident mark) = true) :
    Generates s er (.ellipsis (.name y) mark .nil) := by
  intro x dim vars k c
  have hdepths : (Pattern.ellipsis (.name y) mark .nil).depths s dim
      = (Pattern.name y).depths s (dim + 1) := by
    simp [Pattern.depths]
  refine ⟨(y, dim + 1) :: vars, c + 1, Nat.lt_succ_self c, ?_, fun rest c'' hk => ?_⟩
  · rw [hdepths]
    cases hvar : s.isVariable y with
    | true => simpa [Pattern.depths, hvar] using Lists.single y (dim + 1) vars
    | false => simpa [Pattern.depths, hvar] using Lists.other hvar (dim + 1) vars
  · refine ⟨_, Rules.run_shortcut hmark hk, fun ρ v hx => Takes.letVar hx ?_⟩
    have hv := lookup_bind_self (.gen "v." (c + 1)) v ρ
    have htest : Runs er (.bind (.gen "v." (c + 1)) v :: ρ)
        (.prim₁ .isList (.var (.gen "v." (c + 1)))) (.ofBool v.isList) :=
      runs_prim₁ (runs_var hv) rfl
    refine ⟨fun β htaken => ?_, fun hnone => ?_⟩
    · obtain ⟨items, rfl, hall⟩ := taken_star.mp htaken
      refine ⟨.bind (.user y) (.ofList items) :: .bind (.gen "v." (c + 1)) (.ofList items) :: ρ,
        ?_, ?_, fun r hr => ?_⟩
      · cases hvar : s.isVariable y with
        | true => simpa [Pattern.vars, hvar] using Keeps.bindUser (s := s) (c := c + 1) y _
        | false => simpa [Pattern.vars, hvar] using Keeps.bindOther (c := c + 1) hvar _
      · intro z hz
        have heq : z = y ∧ s.isVariable y = true := by
          cases hvar : s.isVariable y with
          | true => exact ⟨by simpa [Pattern.vars, hvar] using hz, rfl⟩
          | false => simp [Pattern.vars, hvar] at hz
        rw [heq.1, lookup_bind_self, hall heq.2]
      · rw [Form.isList_ofList] at htest
        exact runs_both htest rfl (runs_let (runs_var hv) hr)
    · have hlist : v.isList = false := by
        by_contra hnot
        have heq := (Form.isList_iff v).mp (by simpa using hnot)
        exact hnone ⟨fun _ => v, taken_star.mpr ⟨v.cars, heq, fun _ => heq⟩⟩
      rw [hlist] at htest
      exact runs_both_no htest

theorem generates_star (hname : ∀ y, head ≠ .name y) (hmark : s.ellipsisMark (.ident mark) = true)
    (hmarked : head.Marked s) (hnodup : (head.vars s).Nodup) (ih : Generates s er head) :
    Generates s er (.ellipsis head mark .nil) := by
  intro x dim vars k c
  have hall : ∀ items β, Pattern.TakenAll s head (head.Taken s er) items β ↔
      ∃ βs : List (ι → Form ι), List.Forall₂ (head.Taken s er) items βs ∧
        ∀ x ∈ head.vars s, β x = .ofList (βs.map fun γ => γ x) := by
    intro items β
    cases head with
    | name y => exact absurd rfl (hname y)
    | _ => rfl
  have hnoName : head.form.name? = none := by
    cases head with
    | name y => exact absurd rfl (hname y)
    | _ => rfl
  have hnewVars : s.allVars head.form (dim + 1) [] = head.depths s (dim + 1) := by
    rw [Pattern.allVars_form hmarked, append_nil]
  obtain ⟨lsVars, hnames, hlen, hlsNodup, hls⟩ :=
    s.listNames_run (s.allVars head.form (dim + 1) []) (c + 3)
  obtain ⟨_, c₂, hlt, _, honce⟩ := ih (.prim₁ .car (.var (.gen "w." (c + 2)))) (dim + 1) []
    (fun _ => pure (Rules.againCode (.gen "w." (c + 2)) (.gen "lp." (c + 3))
      (s.allVars head.form (dim + 1) []) lsVars))
    (c + 3 + (s.allVars head.form (dim + 1) []).length)
  obtain ⟨once, hrunOnce, htakes⟩ := honce _ _ rfl
  rw [hnewVars] at hnames hlen hls hrunOnce htakes hlt
  have hfst := head.map_fst_depths (s := s) (dim + 1)
  have hloop : LoopNames (c + 1) (c + 3 + (head.depths s (dim + 1)).length)
      (.gen "w." (c + 2)) (.gen "lp." (c + 3)) (head.depths s (dim + 1)) lsVars := by
    refine ⟨hlen, nodup_cons.mpr ⟨fun hmem => ?_, hlsNodup⟩, fun hmem => ?_,
      fun y hy => ?_⟩
    · obtain ⟨stem, n, heq, hn, _⟩ := hls _ hmem
      have hcount := (Var.gen.inj heq).2
      omega
    · rcases mem_cons.mp hmem with heq | hin
      · simp at heq
      · obtain ⟨stem, n, heq, hn, _⟩ := hls _ hin
        have hcount := (Var.gen.inj heq).2
        omega
    · rcases mem_cons.mp hy with rfl | hy
      · exact ⟨_, _, rfl, by omega, by omega⟩
      · rcases mem_cons.mp hy with rfl | hy
        · exact ⟨_, _, rfl, by omega, by omega⟩
        · obtain ⟨stem, n, heq, hn, hle⟩ := hls _ hy
          exact ⟨stem, n, heq, by omega, hle⟩
  have hdepths : (Pattern.ellipsis head mark .nil).depths s dim = head.depths s (dim + 1) := by
    simp [Pattern.depths]
  have hvars : (Pattern.ellipsis head mark .nil).vars s = head.vars s := by
    simp [Pattern.vars]
  refine ⟨head.depths s (dim + 1) ++ vars, c₂, by omega, ?_, fun rest c'' hk => ?_⟩
  · rw [hdepths]
    exact Lists.append (by rw [hfst]; exact hnodup) vars
  · rw [← hnewVars] at hnames hrunOnce hk
    refine ⟨_, Rules.run_loop hmark hnoName hnames hrunOnce hk,
      fun ρ v hx => Takes.letVar hx ?_⟩
    rw [hnewVars]
    -- the loop starts at the form itself with empty lists
    have hstart : ∀ r, Runs er (loopEnv (.gen "w." (c + 2)) (.gen "lp." (c + 3))
          (head.depths s (dim + 1)) lsVars
          (Rules.loopBody (.gen "w." (c + 2)) (head.depths s (dim + 1)) lsVars once rest)
          (.bind (.gen "v." (c + 1)) v :: ρ) v (collected []))
          (Rules.loopBody (.gen "w." (c + 2)) (head.depths s (dim + 1)) lsVars once rest) r →
        Runs er (.bind (.gen "v." (c + 1)) v :: ρ) (Rules.loopCode (.gen "v." (c + 1))
          (.gen "w." (c + 2)) (.gen "lp." (c + 3)) (head.depths s (dim + 1)) lsVars once rest)
          r := by
      intro r hr
      have hparams : (((Var.gen "w." (c + 2)), Code.var (Var.gen "v." (c + 1))) ::
          lsVars.map fun l => (l, Code.quote (.nil : Form ι))).map Prod.fst
          = .gen "w." (c + 2) :: lsVars := by
        simp [Function.comp_def]
      have hvalues : RunsAll er (.bind (.gen "v." (c + 1)) v :: ρ)
          ((((Var.gen "w." (c + 2)), Code.var (Var.gen "v." (c + 1))) ::
            lsVars.map fun l => (l, Code.quote (.nil : Form ι))).map Prod.snd)
          (v :: (head.depths s (dim + 1)).map (collected [])) := by
        refine .cons (runs_var (lookup_bind_self _ _ _)) ?_
        rw [map_map]
        exact runsAll_quote .nil hlen
      refine runs_letLoop hvalues ?_
      rw [hparams]
      exact hr
    obtain ⟨haccepts, hrejects⟩ := hloop.run (ρ := .bind (.gen "v." (c + 1)) v :: ρ)
      hfst hnodup rfl (fun ρ a ha => htakes ρ a ha) v []
    refine ⟨fun β htaken => ?_, fun hnone => hstart _ (hrejects ?_)⟩
    · obtain ⟨items, rfl, htakenAll⟩ := taken_star.mp htaken
      obtain ⟨βs, hitems, hlists⟩ := (hall items β).mp htakenAll
      obtain ⟨ρ', hkeeps, hlookup, hrun⟩ := haccepts items βs rfl hitems
      rw [hvars]
      refine ⟨ρ', hkeeps, fun y hy => ?_, fun r hr => hstart r (hrun r hr)⟩
      rw [hlookup y hy, hlists y hy]
      rfl
    · rintro ⟨items, βs, hv, hitems⟩
      refine hnone ⟨fun y => .ofList (βs.map fun γ => γ y), taken_star.mpr ⟨items, hv, ?_⟩⟩
      exact (hall items _).mpr ⟨βs, hitems, fun _ _ => rfl⟩

/-! ## Elements behind an ellipsis -/

/-- The environment of the loop that splits off the last elements: what is left of the list, the
number of elements still to take, and those taken. -/
def tailEnv (lp : Var ι) (body : Code ι) (ρ : Env ι) (ls : Form ι) (i : Int)
    (res : List (Form ι)) : Env ι :=
  bindAll [.ls, .i, .res] [ls, .atom (.num i), .ofList res]
    (.loop lp [.ls, .i, .res] body :: ρ)

/-- The body of the loop over a tail. -/
def tailBody (lp : Var ι) (matched : Code ι) : Code ι :=
  .ite (.prim₂ .ge (.datum (.num 0)) (.var .i))
    matched
    (.call lp
      [.prim₁ .cdr (.var .ls), .prim₂ .sub (.var .i) (.datum (.num 1)),
        .consSource (.prim₁ .car (.var .ls)) (.var .res) (.var .ls)])

theorem runs_tailBody {lp : Var ι} (hlp : lp ∉ [Var.ls, .i, .res]) {matched : Code ι}
    {rest r : Form ι} (items : List (Form ι)) (done : List (Form ι))
    (hr : Runs er (tailEnv lp (tailBody lp matched) ρ rest 0 (items.reverse ++ done)) matched r) :
    Runs er (tailEnv lp (tailBody lp matched) ρ (.listTail items rest) items.length done)
      (tailBody lp matched) r := by
  induction items generalizing done with
  | nil =>
    have htest : Runs er (tailEnv lp (tailBody lp matched) ρ rest 0 done)
        (.prim₂ .ge (.datum (.num 0)) (.var .i)) (.ofBool true) :=
      runs_prim₂ (runs_datum _) (runs_var rfl) rfl
    exact runs_ite_yes htest rfl hr
  | cons item items ih =>
    have hstep := ih (item :: done) (by simpa using hr)
    have hcount : ((item :: items).length : Int) = (items.length : Int) + 1 := by simp
    rw [hcount]
    have hi : lookup (tailEnv lp (tailBody lp matched) ρ (.listTail (item :: items) rest)
        ((items.length : Int) + 1) done) .i = some (.atom (.num ((items.length : Int) + 1))) := rfl
    have htest : Runs er (tailEnv lp (tailBody lp matched) ρ (.listTail (item :: items) rest)
        ((items.length : Int) + 1) done) (.prim₂ .ge (.datum (.num 0)) (.var .i))
        (.ofBool false) := by
      refine runs_prim₂ (runs_datum _) (runs_var hi) ?_
      have hpos : ¬ ((items.length : Int) + 1 ≤ 0) := by omega
      simp [Prim₂.apply, hpos]
    refine runs_ite_no htest rfl ?_
    have hloop : findLoop (tailEnv lp (tailBody lp matched) ρ (.listTail (item :: items) rest)
        ((items.length : Int) + 1) done) lp = some ([.ls, .i, .res], tailBody lp matched,
          .loop lp [.ls, .i, .res] (tailBody lp matched) :: ρ) := by
      rw [tailEnv, findLoop_bindAll_of_notMem hlp]
      simp [findLoop]
    refine runs_call hloop (.cons (runs_prim₁ (runs_var rfl) rfl)
      (.cons (runs_prim₂ (runs_var hi) (runs_datum _) ?_)
        (.cons (runs_consSource (runs_prim₁ (runs_var rfl) rfl) (runs_var rfl) (runs_var rfl))
          .nil))) rfl hstep
    simp [Prim₂.apply]

omit [DecidableEq ι] in
theorem Pattern.lengthStar_form {tail : Pattern ι} (hflat : tail.flat = true) :
    tail.form.lengthStar = tail.elements := by
  induction tail with
  | cons head rest ih_head ih_rest =>
    have hrest := ih_rest hflat
    simp only [Form.lengthStar] at hrest
    simp [Pattern.form, Form.lengthStar, Form.cars, Pattern.elements, hrest]
  | ellipsis head mark rest => simp [Pattern.flat] at hflat
  | _ => rfl

theorem Pattern.noMark_form {tail : Pattern ι} (hmarked : tail.Marked s)
    (hflat : tail.flat = true) :
    (tail.form.cars.any fun x => x.isIdent && s.ellipsisMark x) = false := by
  induction tail with
  | cons head rest ih_head ih_rest =>
    have hrest := ih_rest hmarked.2 hflat
    have hhead : (head.form.isIdent && s.ellipsisMark head.form) = false := by
      cases head with
      | name y =>
        have hnot : s.ellipsisMark (.ident y) = false := hmarked.1
        simp [Pattern.form, hnot]
      | _ => rfl
    simp only [Pattern.form, Form.cars, any_cons, hhead, hrest, Bool.or_self]
  | ellipsis head mark rest => simp [Pattern.flat] at hflat
  | _ => rfl

theorem taken_regrouped {tail : Pattern ι} {items : List (Form ι)} {rest : Form ι} {β : ι → Form ι} :
    (Pattern.cons tail (.cons (.ellipsis head mark .nil) .nil)).Taken s er
        (.pair rest (.pair (.ofList items) .nil)) β ↔
      tail.Taken s er rest β ∧ Pattern.TakenAll s head (head.Taken s er) items β := by
  constructor
  · rintro ⟨a, d, heq, htail, b, e, heq', hstar, _⟩
    obtain ⟨rfl, rfl⟩ := Form.pair.inj heq
    obtain ⟨rfl, _⟩ := Form.pair.inj heq'
    obtain ⟨others, hothers, hall⟩ := taken_star.mp hstar
    rw [Form.ofList_injective hothers]
    exact ⟨htail, hall⟩
  · rintro ⟨htail, hall⟩
    exact ⟨rest, _, rfl, htail, .ofList items, .nil, rfl, taken_star.mpr ⟨items, rfl, hall⟩, rfl⟩

theorem generates_tail {head tail : Pattern ι} {mark : ι} (htail : tail.form.isNull = false)
    (hmarked : (Pattern.ellipsis head mark tail).Marked s)
    (ih : Generates s er (.cons tail (.cons (.ellipsis head mark .nil) .nil))) :
    Generates s er (.ellipsis head mark tail) := by
  intro x dim vars k c
  obtain ⟨hmark, hhead, htailMarked, hflat⟩ := hmarked
  obtain ⟨vars', c', hlt, hlists, hcode⟩ := ih
    (.prim₂ .cons (.var .ls) (.prim₂ .cons (.prim₁ .reverse (.var .res)) (.quote .nil)))
    dim vars k (c + 2)
  refine ⟨vars', c', by omega, hlists.congr fun cell => ?_, fun rest c'' hk => ?_⟩
  · simp [Pattern.depths, or_comm]
  obtain ⟨matched, hrun, htakes⟩ := hcode rest c'' hk
  refine ⟨_, Rules.run_tail hmark htail (Pattern.noMark_form htailMarked hflat) hrun,
    fun ρ v hx => Takes.letVar hx ?_⟩
  rw [Pattern.lengthStar_form hflat]
  -- the environment in which the last elements are matched
  have hkeeps : ∀ items last, Keeps s (c + 1) [] (.bind (.gen "v." (c + 1)) v :: ρ)
      (tailEnv (.gen "lp." (c + 2)) (tailBody (.gen "lp." (c + 2)) matched)
        (.bind .len (.atom (.num v.lengthStar)) :: .bind (.gen "v." (c + 1)) v :: ρ)
        last 0 items) := by
    intro items last
    have hlen : Keeps s (c + 1) [] (.bind (.gen "v." (c + 1)) v :: ρ)
        (.bind .len (.atom (.num v.lengthStar)) :: .bind (.gen "v." (c + 1)) v :: ρ) :=
      Keeps.bind rfl (by simp) _
    have hloop := hlen.trans (Nat.le_refl _) (Keeps.loop (x := .gen "lp." (c + 2))
      (by simp [Var.old]) (by simp) [.ls, .i, .res] (tailBody (.gen "lp." (c + 2)) matched))
    refine hloop.trans (Nat.le_refl _) (Keeps.bindAll ?_ ?_ _)
    · simp [Var.old]
    · simp
  have htest : Runs er
      (.bind .len (.atom (.num v.lengthStar)) :: .bind (.gen "v." (c + 1)) v :: ρ)
      (.prim₂ .ge (.var .len) (.datum (.num tail.elements)))
      (.ofBool (decide (tail.elements ≤ v.lengthStar))) := by
    refine runs_prim₂ (runs_var (lookup_bind_self _ _ _)) (runs_datum _) ?_
    simp [Prim₂.apply]
  have hlen : Runs er (.bind (.gen "v." (c + 1)) v :: ρ)
      (.prim₁ .lengthStar (.var (.gen "v." (c + 1)))) (.atom (.num v.lengthStar)) :=
    runs_prim₁ (runs_var (lookup_bind_self _ _ _)) rfl
  have henter : ∀ items last r, v = .listTail items last → last.cars.length = tail.elements →
      Runs er (tailEnv (.gen "lp." (c + 2)) (tailBody (.gen "lp." (c + 2)) matched)
        (.bind .len (.atom (.num v.lengthStar)) :: .bind (.gen "v." (c + 1)) v :: ρ)
        last 0 items.reverse) matched r →
      Runs er (.bind (.gen "v." (c + 1)) v :: ρ) (Rules.tailCode (.gen "v." (c + 1))
        (.gen "lp." (c + 2)) tail.elements matched) r := by
    intro items last r heq hlast hr
    have hcount : v.lengthStar = items.length + tail.elements := by
      simp [Form.lengthStar, heq, hlast]
    rw [show decide (tail.elements ≤ v.lengthStar) = true by simp [hcount]] at htest
    refine runs_let hlen (runs_both htest rfl ?_)
    have hv : Runs er
        (.bind .len (.atom (.num v.lengthStar)) :: .bind (.gen "v." (c + 1)) v :: ρ)
        (.var (.gen "v." (c + 1))) (.listTail items last) := by
      refine runs_var ?_
      rw [← heq]
      simp [lookup]
    have hi : Runs er
        (.bind .len (.atom (.num v.lengthStar)) :: .bind (.gen "v." (c + 1)) v :: ρ)
        (.prim₂ .sub (.var .len) (.datum (.num tail.elements)))
        (.atom (.num items.length)) := by
      refine runs_prim₂ (runs_var (lookup_bind_self _ _ _)) (runs_datum _) ?_
      simp [Prim₂.apply, hcount]
    exact runs_letLoop (.cons hv (.cons hi (.cons (runs_quote .nil) .nil)))
      (runs_tailBody (by simp) items [] (by simpa using hr))
  have hmatched : ∀ items last,
      Takes s er (.cons tail (.cons (.ellipsis head mark .nil) .nil)) (c + 2)
        (tailEnv (.gen "lp." (c + 2)) (tailBody (.gen "lp." (c + 2)) matched)
          (.bind .len (.atom (.num v.lengthStar)) :: .bind (.gen "v." (c + 1)) v :: ρ)
          last 0 items.reverse)
        (.pair last (.pair (.ofList items) .nil)) rest matched := by
    intro items last
    have hres : Runs er (tailEnv (.gen "lp." (c + 2)) (tailBody (.gen "lp." (c + 2)) matched)
        (.bind .len (.atom (.num v.lengthStar)) :: .bind (.gen "v." (c + 1)) v :: ρ)
        last 0 items.reverse) (.prim₁ .reverse (.var .res)) (.ofList items) := by
      refine runs_prim₁ (runs_var rfl) ?_
      simp [Prim₁.apply]
    exact htakes _ _ (runs_prim₂ (runs_var rfl) (runs_prim₂ hres (runs_quote .nil) rfl) rfl)
  refine ⟨fun β htaken => ?_, fun hnone => ?_⟩
  · obtain ⟨items, last, heq, hlast, htailTaken, hall⟩ := htaken
    obtain ⟨ρ', hkeeps', hlookup, hgo⟩ :=
      (hmatched items last).accepts β (taken_regrouped.mpr ⟨htailTaken, hall⟩)
    refine ⟨ρ', ?_, fun y hy => hlookup y ?_, fun r hr => ?_⟩
    · refine ((hkeeps items.reverse last).trans (Nat.le_succ _) hkeeps').weaken fun y hy => ?_
      simpa [Pattern.vars, or_comm] using hy
    · simpa [Pattern.vars, or_comm] using hy
    · exact henter items last r heq hlast (hgo r hr)
  · by_cases hshort : tail.elements ≤ v.lengthStar
    · -- as many elements as the tail has are split off, and they or the items do not match
      have heq : v = .listTail (v.cars.take (v.cars.length - tail.elements))
          (.listTail (v.cars.drop (v.cars.length - tail.elements)) v.lastCdr) := by
        rw [← Form.listTail_append, take_append_drop]
        exact (Form.listTail_cars_lastCdr v).symm
      have hlast : (Form.listTail (v.cars.drop (v.cars.length - tail.elements))
          v.lastCdr).cars.length = tail.elements := by
        simp only [Form.lengthStar] at hshort
        simp
        omega
      refine henter _ _ _ heq hlast ((hmatched _ _).rejects ?_)
      rintro ⟨β, htaken⟩
      obtain ⟨htailTaken, hall⟩ := taken_regrouped.mp htaken
      exact hnone ⟨β, _, _, heq, hlast, htailTaken, hall⟩
    · rw [show decide (tail.elements ≤ v.lengthStar) = false by simp [hshort]] at htest
      exact runs_let hlen (runs_both_no htest)

/-! ## Every pattern -/

omit [DecidableEq ι] in
theorem disjoint_of_nodup {p q : List ι} (h : (p ++ q).Nodup) : ∀ y ∈ p, y ∉ q :=
  fun _ hp hq => (disjoint_of_nodup_append h) hp hq

theorem generates (hmarked : p.Marked s) (hnodup : (p.vars s).Nodup) : Generates s er p := by
  induction p with
  | name y => exact generates_name hmarked
  | datum a => exact generates_datum a
  | nil => exact generates_nil
  | cons head rest ih_head ih_rest =>
    have hleft := hnodup.of_append_left
    have hright := hnodup.of_append_right
    exact generates_cons hmarked (disjoint_of_nodup hnodup) (ih_head hmarked.1 hleft)
      (ih_rest hmarked.2 hright)
  | ellipsis head mark tail ih_head ih_tail =>
    obtain ⟨hmark, hhead, htail, hflat⟩ := hmarked
    have hleft := hnodup.of_append_left
    have hright := hnodup.of_append_right
    have hstar : Generates s er (.ellipsis head mark .nil) := by
      by_cases hname : ∃ y, head = .name y
      · obtain ⟨y, rfl⟩ := hname
        exact generates_shortcut hmark
      · exact generates_star (fun y heq => hname ⟨y, heq⟩) hmark hhead hleft
          (ih_head hhead hleft)
    by_cases hnil : tail = .nil
    · rw [hnil]
      exact hstar
    · have hnull : tail.form.isNull = false := by
        cases tail with
        | nil => exact absurd rfl hnil
        | _ => rfl
      have hsingle : (Pattern.cons (.ellipsis head mark .nil) .nil).Marked s :=
        ⟨⟨hmark, hhead, trivial, rfl⟩, trivial⟩
      refine generates_tail hnull ⟨hmark, hhead, htail, hflat⟩
        (generates_cons ⟨htail, hsingle⟩ (fun y hy hin => ?_) (ih_tail htail hright)
          (generates_cons hsingle (by simp [Pattern.vars]) hstar generates_nil))
      have hin' : y ∈ head.vars s := by simpa [Pattern.vars] using hin
      exact disjoint_of_nodup hnodup y hin' hy
  | vec body ih => exact generates_vec hmarked.2 (ih hmarked.1 hnodup)

end ChibiScheme.SyntaxRules
