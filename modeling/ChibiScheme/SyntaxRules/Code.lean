import ChibiScheme.SyntaxRules.Form
import Mathlib.Data.List.Forall2

/-!
# The code a transformer generates

`syntax-rules` expands into a procedure built from `let`, named `let`, `and`, `if`, a few
primitives on lists and `map` over a lambda.  This file gives the abstract syntax of that part
of Scheme and its evaluation.  Environments are lists of frames, innermost first; a named `let`
leaves a frame for its loop, and a call of the loop runs its body in the environment from that
frame on.  Evaluation takes fuel, since a loop need not end; `Runs` says that some fuel is
enough, and it has one rule for each construct.
-/

namespace ChibiScheme.SyntaxRules

open List Option

/-! ## Syntax -/

/-- The variables of generated code: pattern variables, which keep the macro writer's
identifiers, and the renamed identifiers of the transformer. -/
inductive Var (ι : Type) where
  | user (x : ι)
  | expr
  | len
  | ls
  | i
  | res
  /-- The result of `next-symbol`. -/
  | gen (stem : String) (count : ℕ)
  deriving DecidableEq, Repr

/-- Primitives of one argument. -/
inductive Prim₁ where
  | car | cdr | reverse | lengthStar | isNull | isPair | isList | isVector
  | vectorToList | listToVector | applyAppend
  deriving DecidableEq, Repr

/-- Primitives of two arguments; `compare` is the procedure that the macro is called with. -/
inductive Prim₂ where
  | cons | append | sub | ge | equal | compare
  deriving DecidableEq, Repr

/-- The code of an expander. -/
inductive Code (ι : Type) where
  | var (x : Var ι)
  /-- `(syntax-quote d)` -/
  | quote (d : Form ι)
  | datum (a : Atom)
  /-- `(rename (syntax-quote x))` -/
  | rename (x : ι)
  | prim₁ (op : Prim₁) (arg : Code ι)
  | prim₂ (op : Prim₂) (left right : Code ι)
  /-- `(cons-source car cdr source)` -/
  | consSource (car cdr source : Code ι)
  | letVars (bindings : List (Var ι × Code ι)) (body : Code ι)
  /-- Named `let`. -/
  | letLoop (name : Var ι) (bindings : List (Var ι × Code ι)) (body : Code ι)
  | call (name : Var ι) (args : List (Code ι))
  /-- `and` of two expressions. -/
  | both (test body : Code ι)
  | ite (test yes no : Code ι)
  /-- `(map (lambda params body) lists ...)` -/
  | map (params : List (Var ι)) (body : Code ι) (lists : List (Code ι))

/-- What the macro is called with: `rename` and `compare`. -/
structure Renaming (ι : Type) where
  rename : ι → ι
  compare : Compare ι

/-! ## Environments -/

/-- A variable with its value, or the loop of a named `let`. -/
inductive Frame (ι : Type) where
  | bind (x : Var ι) (v : Form ι)
  | loop (name : Var ι) (params : List (Var ι)) (body : Code ι)

/-- The frames in scope, innermost first. -/
abbrev Env (ι : Type) := List (Frame ι)

variable {ι : Type} [DecidableEq ι]

/-- The value of a variable. -/
def lookup : Env ι → Var ι → Option (Form ι)
  | [], _ => none
  | .bind y v :: ρ, x => if y = x then some v else lookup ρ x
  | .loop y _ _ :: ρ, x => if y = x then none else lookup ρ x

/-- The loop that a name stands for: its parameters, its body and the environment that the body
runs in. -/
def findLoop : Env ι → Var ι → Option (List (Var ι) × Code ι × Env ι)
  | [], _ => none
  | .bind y _ :: ρ, x => if y = x then none else findLoop ρ x
  | .loop y params body :: ρ, x =>
    if y = x then some (params, body, .loop y params body :: ρ) else findLoop ρ x

/-- The environment with the values `vs` for the variables `xs`. -/
def bindAll (xs : List (Var ι)) (vs : List (Form ι)) (ρ : Env ι) : Env ι :=
  List.zipWith Frame.bind xs vs ++ ρ

theorem lookup_bind_self (x : Var ι) (v : Form ι) (ρ : Env ι) :
    lookup (.bind x v :: ρ) x = some v := by
  simp [lookup]

variable {x : Var ι}

theorem lookup_bind_ne {y : Var ι} (hne : y ≠ x) (v : Form ι) (ρ : Env ι) :
    lookup (.bind y v :: ρ) x = lookup ρ x := by
  simp [lookup, hne]

theorem findLoop_bind_ne {y : Var ι} (hne : y ≠ x) (v : Form ι) (ρ : Env ι) :
    findLoop (.bind y v :: ρ) x = findLoop ρ x := by
  simp [findLoop, hne]

omit [DecidableEq ι] in
@[simp] theorem bindAll_nil (vs : List (Form ι)) (ρ : Env ι) : bindAll [] vs ρ = ρ := by
  simp [bindAll]

omit [DecidableEq ι] in
@[simp] theorem bindAll_cons (x : Var ι) (xs : List (Var ι)) (v : Form ι) (vs : List (Form ι))
    (ρ : Env ι) : bindAll (x :: xs) (v :: vs) ρ = .bind x v :: bindAll xs vs ρ := rfl

variable {xs : List (Var ι)}

theorem lookup_bindAll_of_notMem (h : x ∉ xs) (vs : List (Form ι)) (ρ : Env ι) :
    lookup (bindAll xs vs ρ) x = lookup ρ x := by
  induction xs generalizing vs with
  | nil => simp
  | cons y xs ih =>
    have hne : y ≠ x := fun heq => h (by simp [heq])
    cases vs with
    | nil => rfl
    | cons v vs =>
      rw [bindAll_cons, lookup_bind_ne hne]
      exact ih (fun hmem => h (mem_cons_of_mem y hmem)) vs

theorem findLoop_bindAll_of_notMem (h : x ∉ xs) (vs : List (Form ι)) (ρ : Env ι) :
    findLoop (bindAll xs vs ρ) x = findLoop ρ x := by
  induction xs generalizing vs with
  | nil => simp
  | cons y xs ih =>
    have hne : y ≠ x := fun heq => h (by simp [heq])
    cases vs with
    | nil => rfl
    | cons v vs =>
      rw [bindAll_cons, findLoop_bind_ne hne]
      exact ih (fun hmem => h (mem_cons_of_mem y hmem)) vs

theorem lookup_bindAll (hnodup : xs.Nodup) {vs : List (Form ι)} (ρ : Env ι) {v : Form ι}
    (hmem : (x, v) ∈ xs.zip vs) :
    lookup (bindAll xs vs ρ) x = some v := by
  induction xs generalizing vs with
  | nil => simp at hmem
  | cons y xs ih =>
    cases vs with
    | nil => simp at hmem
    | cons w vs =>
      obtain ⟨hnew, hnodup⟩ := nodup_cons.mp hnodup
      rw [zip_cons_cons, mem_cons] at hmem
      rcases hmem with heq | hmem
      · obtain ⟨rfl, rfl⟩ := Prod.mk.inj heq
        exact lookup_bind_self _ _ _
      · have hne : y ≠ x := by
          intro heq
          exact hnew (heq ▸ (of_mem_zip hmem).1)
        rw [bindAll_cons, lookup_bind_ne hne]
        exact ih hnodup hmem

/-! ## Evaluation -/

/-- A primitive of one argument; `none` is an error. -/
def Prim₁.apply : Prim₁ → Form ι → Option (Form ι)
  | .car, .pair a _ => some a
  | .car, _ => none
  | .cdr, .pair _ d => some d
  | .cdr, _ => none
  | .reverse, v => some (.ofList v.cars.reverse)
  | .lengthStar, v => some (.atom (.num v.lengthStar))
  | .isNull, v => some (.ofBool v.isNull)
  | .isPair, v => some (.ofBool v.isPair)
  | .isList, v => some (.ofBool v.isList)
  | .isVector, v => some (.ofBool v.isVector)
  | .vectorToList, .vec vs => some (.ofList vs)
  | .vectorToList, _ => none
  | .listToVector, v => if v.isList then some (.vec v.cars) else none
  | .applyAppend, v => if v.isList then some (.appendAll v.cars) else none

/-- A primitive of two arguments. -/
def Prim₂.apply (er : Renaming ι) : Prim₂ → Form ι → Form ι → Option (Form ι)
  | .cons, a, d => some (.pair a d)
  | .append, a, b => some (.append2 a b)
  | .sub, .atom (.num m), .atom (.num n) => some (.atom (.num (m - n)))
  | .sub, _, _ => none
  | .ge, .atom (.num m), .atom (.num n) => some (.ofBool (n ≤ m))
  | .ge, _, _ => none
  | .equal, v, w => some (.ofBool (Form.equal v w))
  | .compare, v, w => some (.ofBool (er.compare.same v w))

/-- The rows that `map` calls its procedure with: it goes on while every list is a pair, and
then every list has to be a pair or empty. -/
def mapRows : Form ι → List (Form ι) → Option (List (List (Form ι)))
  | .pair a d, others =>
    if others.all Form.isPair then do
      let rows ← mapRows d (others.map Form.cdr)
      return (a :: others.map Form.car) :: rows
    else if others.all fun v => v.isPair || v.isNull then some []
    else none
  | .nil, others => if others.all fun v => v.isPair || v.isNull then some [] else none
  | _, _ => none

/-- The value of code, with `fuel` for the depth of the evaluation. -/
def eval (er : Renaming ι) : ℕ → Env ι → Code ι → Option (Form ι)
  | 0, _, _ => none
  | fuel + 1, ρ, c =>
    match c with
    | .var x => lookup ρ x
    | .quote d => some d
    | .datum a => some (.atom a)
    | .rename x => some (.ident (er.rename x))
    | .prim₁ op arg => do
        let v ← eval er fuel ρ arg
        op.apply v
    | .prim₂ op left right => do
        let v ← eval er fuel ρ left
        let w ← eval er fuel ρ right
        op.apply er v w
    | .consSource car cdr source => do
        let a ← eval er fuel ρ car
        let d ← eval er fuel ρ cdr
        let _ ← eval er fuel ρ source
        return .pair a d
    | .letVars bindings body => do
        let vs ← (bindings.map Prod.snd).mapM (eval er fuel ρ)
        eval er fuel (bindAll (bindings.map Prod.fst) vs ρ) body
    | .letLoop name bindings body => do
        let vs ← (bindings.map Prod.snd).mapM (eval er fuel ρ)
        let params := bindings.map Prod.fst
        eval er fuel (bindAll params vs (.loop name params body :: ρ)) body
    | .call name args => do
        let (params, body, outer) ← findLoop ρ name
        let vs ← args.mapM (eval er fuel ρ)
        if params.length = vs.length then
          eval er fuel (bindAll params vs outer) body
        else
          none
    | .both test body => do
        let v ← eval er fuel ρ test
        if v.isNo then return .no else eval er fuel ρ body
    | .ite test yes no => do
        let v ← eval er fuel ρ test
        if v.isNo then eval er fuel ρ no else eval er fuel ρ yes
    | .map params body lists => do
        let vs ← lists.mapM (eval er fuel ρ)
        match vs with
        | [] => none
        | first :: others => do
            let rows ← mapRows first others
            let rs ← rows.mapM fun row => eval er fuel (bindAll params row ρ) body
            return .ofList rs

/-- The code evaluates to `r`. -/
def Runs (er : Renaming ι) (ρ : Env ι) (c : Code ι) (r : Form ι) : Prop :=
  ∃ fuel, eval er fuel ρ c = some r

/-! ## The value of every kind of code -/

section Values

variable (er : Renaming ι) (fuel : ℕ) (ρ : Env ι)

theorem eval_prim₁ (op : Prim₁) (arg : Code ι) :
    eval er (fuel + 1) ρ (.prim₁ op arg) = (eval er fuel ρ arg).bind op.apply := rfl

theorem eval_prim₂ (op : Prim₂) (left right : Code ι) :
    eval er (fuel + 1) ρ (.prim₂ op left right) =
      (eval er fuel ρ left).bind fun v => (eval er fuel ρ right).bind fun w => op.apply er v w :=
  rfl

theorem eval_consSource (car cdr source : Code ι) :
    eval er (fuel + 1) ρ (.consSource car cdr source) =
      (eval er fuel ρ car).bind fun a => (eval er fuel ρ cdr).bind fun d =>
        (eval er fuel ρ source).bind fun _ => some (.pair a d) := rfl

theorem eval_letVars (bindings : List (Var ι × Code ι)) (body : Code ι) :
    eval er (fuel + 1) ρ (.letVars bindings body) =
      ((bindings.map Prod.snd).mapM (eval er fuel ρ)).bind fun vs =>
        eval er fuel (bindAll (bindings.map Prod.fst) vs ρ) body := rfl

theorem eval_letLoop (name : Var ι) (bindings : List (Var ι × Code ι)) (body : Code ι) :
    eval er (fuel + 1) ρ (.letLoop name bindings body) =
      ((bindings.map Prod.snd).mapM (eval er fuel ρ)).bind fun vs =>
        eval er fuel (bindAll (bindings.map Prod.fst) vs
          (.loop name (bindings.map Prod.fst) body :: ρ)) body := rfl

theorem eval_call (name : Var ι) (args : List (Code ι)) :
    eval er (fuel + 1) ρ (.call name args) =
      (findLoop ρ name).bind fun (params, body, outer) =>
        (args.mapM (eval er fuel ρ)).bind fun vs =>
          if params.length = vs.length then eval er fuel (bindAll params vs outer) body
          else none := rfl

theorem eval_both (test body : Code ι) :
    eval er (fuel + 1) ρ (.both test body) =
      (eval er fuel ρ test).bind fun v =>
        if v.isNo then some .no else eval er fuel ρ body := rfl

theorem eval_ite (test yes no : Code ι) :
    eval er (fuel + 1) ρ (.ite test yes no) =
      (eval er fuel ρ test).bind fun v =>
        if v.isNo then eval er fuel ρ no else eval er fuel ρ yes := rfl

theorem eval_map (params : List (Var ι)) (body : Code ι) (lists : List (Code ι)) :
    eval er (fuel + 1) ρ (.map params body lists) =
      (lists.mapM (eval er fuel ρ)).bind fun vs =>
        match vs with
        | [] => none
        | first :: others =>
          (mapRows first others).bind fun rows =>
            (rows.mapM fun row => eval er fuel (bindAll params row ρ) body).bind fun rs =>
              some (.ofList rs) := rfl

end Values

/-! ## More fuel -/

theorem mapM_mono {α β : Type} {f g : α → Option β} (hstep : ∀ a b, f a = some b → g a = some b) :
    ∀ (as : List α) (bs : List β), as.mapM f = some bs → as.mapM g = some bs := by
  intro as
  induction as with
  | nil => intro bs h; simpa using h
  | cons a as ih =>
    intro bs h
    simp only [mapM_cons, Option.pure_def, bind_eq_bind, bind_eq_some_iff] at h ⊢
    obtain ⟨b, hb, bs', hbs, heq⟩ := h
    exact ⟨b, hstep a b hb, bs', ih bs' hbs, heq⟩

theorem eval_succ (er : Renaming ι) (fuel : ℕ) (ρ : Env ι) (c : Code ι) (r : Form ι)
    (h : eval er fuel ρ c = some r) : eval er (fuel + 1) ρ c = some r := by
  induction fuel generalizing ρ c r with
  | zero => cases h
  | succ fuel ih =>
    have hall : ∀ (ρ : Env ι) (cs : List (Code ι)) (vs : List (Form ι)),
        cs.mapM (eval er fuel ρ) = some vs → cs.mapM (eval er (fuel + 1) ρ) = some vs :=
      fun ρ => mapM_mono (ih ρ)
    cases c with
    | var x => exact h
    | quote d => exact h
    | datum a => exact h
    | rename x => exact h
    | prim₁ op arg =>
      simp only [eval_prim₁, bind_eq_some_iff] at h ⊢
      obtain ⟨v, hv, hr⟩ := h
      exact ⟨v, ih _ _ _ hv, hr⟩
    | prim₂ op left right =>
      simp only [eval_prim₂, bind_eq_some_iff] at h ⊢
      obtain ⟨v, hv, w, hw, hr⟩ := h
      exact ⟨v, ih _ _ _ hv, w, ih _ _ _ hw, hr⟩
    | consSource car cdr source =>
      simp only [eval_consSource, bind_eq_some_iff] at h ⊢
      obtain ⟨a, ha, d, hd, s, hs, hr⟩ := h
      exact ⟨a, ih _ _ _ ha, d, ih _ _ _ hd, s, ih _ _ _ hs, hr⟩
    | letVars bindings body =>
      rw [eval_letVars, bind_eq_some_iff] at h ⊢
      obtain ⟨vs, hvs, hr⟩ := h
      exact ⟨vs, hall _ _ _ hvs, ih _ _ _ hr⟩
    | letLoop name bindings body =>
      rw [eval_letLoop, bind_eq_some_iff] at h ⊢
      obtain ⟨vs, hvs, hr⟩ := h
      exact ⟨vs, hall _ _ _ hvs, ih _ _ _ hr⟩
    | call name args =>
      simp only [eval_call, bind_eq_some_iff] at h ⊢
      obtain ⟨⟨params, body, outer⟩, hloop, vs, hvs, hr⟩ := h
      refine ⟨⟨params, body, outer⟩, hloop, vs, hall _ _ _ hvs, ?_⟩
      by_cases hlen : params.length = vs.length
      · rw [if_pos hlen] at hr ⊢
        exact ih _ _ _ hr
      · simp [hlen] at hr
    | both test body =>
      rw [eval_both, bind_eq_some_iff] at h ⊢
      obtain ⟨v, hv, hr⟩ := h
      refine ⟨v, ih _ _ _ hv, ?_⟩
      by_cases hno : v.isNo = true
      · rw [if_pos hno] at hr ⊢
        exact hr
      · rw [if_neg hno] at hr ⊢
        exact ih _ _ _ hr
    | ite test yes no =>
      rw [eval_ite, bind_eq_some_iff] at h ⊢
      obtain ⟨v, hv, hr⟩ := h
      refine ⟨v, ih _ _ _ hv, ?_⟩
      by_cases hno : v.isNo = true
      · rw [if_pos hno] at hr ⊢
        exact ih _ _ _ hr
      · rw [if_neg hno] at hr ⊢
        exact ih _ _ _ hr
    | map params body lists =>
      rw [eval_map, bind_eq_some_iff] at h ⊢
      obtain ⟨vs, hvs, hr⟩ := h
      refine ⟨vs, hall _ _ _ hvs, ?_⟩
      cases vs with
      | nil => simp at hr
      | cons first others =>
        simp only [bind_eq_some_iff] at hr ⊢
        obtain ⟨rows, hrows, rs, hrs, hr⟩ := hr
        exact ⟨rows, hrows, rs, mapM_mono (fun row v => ih _ _ v) _ _ hrs, hr⟩

theorem eval_mono (er : Renaming ι) {fuel more : ℕ} (hle : fuel ≤ more) {ρ : Env ι} {c : Code ι}
    {r : Form ι} (h : eval er fuel ρ c = some r) : eval er more ρ c = some r := by
  induction hle with
  | refl => exact h
  | @step more _ ih => exact eval_succ er more ρ c r ih

theorem Runs.unique {er : Renaming ι} {ρ : Env ι} {c : Code ι} {r s : Form ι}
    (hr : Runs er ρ c r) (hs : Runs er ρ c s) : r = s := by
  obtain ⟨m, hm⟩ := hr
  obtain ⟨n, hn⟩ := hs
  have hleft := eval_mono er (Nat.le_max_left m n) hm
  have hright := eval_mono er (Nat.le_max_right m n) hn
  exact some.inj (hleft.symm.trans hright)

/-! ## Rules -/

section Rules

variable {er : Renaming ι} {ρ : Env ι}

/-- Several expressions evaluate to several values. -/
def RunsAll (er : Renaming ι) (ρ : Env ι) (cs : List (Code ι)) (vs : List (Form ι)) : Prop :=
  List.Forall₂ (Runs er ρ) cs vs

theorem mapM_fuel {α β : Type} {f : ℕ → α → Option β}
    (hmono : ∀ m n a b, m ≤ n → f m a = some b → f n a = some b) {as : List α} {bs : List β}
    (h : List.Forall₂ (fun a b => ∃ fuel, f fuel a = some b) as bs) :
    ∃ fuel, ∀ more, fuel ≤ more → as.mapM (f more) = some bs := by
  induction h with
  | nil => exact ⟨0, fun _ _ => rfl⟩
  | @cons a b as bs ha _ ih =>
    obtain ⟨m, hm⟩ := ha
    obtain ⟨n, hn⟩ := ih
    refine ⟨max m n, fun more hle => ?_⟩
    have hhead : f more a = some b := hmono m more a b (by omega) hm
    have hrest : as.mapM (f more) = some bs := hn more (by omega)
    simp [mapM_cons, hhead, hrest]

variable {vs : List (Form ι)}

theorem RunsAll.fuel {cs : List (Code ι)} (h : RunsAll er ρ cs vs) :
    ∃ fuel, ∀ more, fuel ≤ more → cs.mapM (eval er more ρ) = some vs :=
  mapM_fuel (f := fun fuel => eval er fuel ρ) (fun _ _ _ _ hle => eval_mono er hle) h

variable {v : Form ι}

theorem runs_var {x : Var ι} (h : lookup ρ x = some v) : Runs er ρ (.var x) v :=
  ⟨1, h⟩

theorem runs_quote (d : Form ι) : Runs er ρ (.quote d) d := ⟨1, rfl⟩

theorem runs_datum (a : Atom) : Runs er ρ (.datum a) (.atom a) := ⟨1, rfl⟩

theorem runs_rename (x : ι) : Runs er ρ (.rename x) (.ident (er.rename x)) := ⟨1, rfl⟩

variable {r : Form ι}

theorem runs_prim₁ {op : Prim₁} {arg : Code ι} (hv : Runs er ρ arg v) (hr : op.apply v = some r) :
    Runs er ρ (.prim₁ op arg) r := by
  obtain ⟨n, hn⟩ := hv
  exact ⟨n + 1, by simp [eval_prim₁, hn, hr]⟩

theorem runs_prim₂ {op : Prim₂} {left right : Code ι} {w : Form ι} (hv : Runs er ρ left v)
    (hw : Runs er ρ right w) (hr : op.apply er v w = some r) :
    Runs er ρ (.prim₂ op left right) r := by
  obtain ⟨m, hm⟩ := hv
  obtain ⟨n, hn⟩ := hw
  refine ⟨max m n + 1, ?_⟩
  have hleft := eval_mono er (Nat.le_max_left m n) hm
  have hright := eval_mono er (Nat.le_max_right m n) hn
  simp [eval_prim₂, hleft, hright, hr]

theorem runs_consSource {car cdr source : Code ι} {a d s : Form ι} (ha : Runs er ρ car a)
    (hd : Runs er ρ cdr d) (hs : Runs er ρ source s) :
    Runs er ρ (.consSource car cdr source) (.pair a d) := by
  obtain ⟨l, hl⟩ := ha
  obtain ⟨m, hm⟩ := hd
  obtain ⟨n, hn⟩ := hs
  refine ⟨max l (max m n) + 1, ?_⟩
  have hcar := eval_mono er (show l ≤ max l (max m n) by omega) hl
  have hcdr := eval_mono er (show m ≤ max l (max m n) by omega) hm
  have hsource := eval_mono er (show n ≤ max l (max m n) by omega) hn
  simp [eval_consSource, hcar, hcdr, hsource]

variable {body : Code ι}

theorem runs_letVars {bindings : List (Var ι × Code ι)}
    (hvs : RunsAll er ρ (bindings.map Prod.snd) vs)
    (hr : Runs er (bindAll (bindings.map Prod.fst) vs ρ) body r) :
    Runs er ρ (.letVars bindings body) r := by
  obtain ⟨m, hm⟩ := hvs.fuel
  obtain ⟨n, hn⟩ := hr
  refine ⟨max m n + 1, ?_⟩
  rw [eval_letVars, hm _ (Nat.le_max_left m n)]
  exact eval_mono er (Nat.le_max_right m n) hn

theorem runs_let {x : Var ι} {c : Code ι} (hv : Runs er ρ c v)
    (hr : Runs er (.bind x v :: ρ) body r) : Runs er ρ (.letVars [(x, c)] body) r :=
  runs_letVars (.cons hv .nil : RunsAll er ρ [c] [v]) hr

theorem runs_letLoop {name : Var ι} {bindings : List (Var ι × Code ι)}
    (hvs : RunsAll er ρ (bindings.map Prod.snd) vs)
    (hr : Runs er (bindAll (bindings.map Prod.fst) vs
      (.loop name (bindings.map Prod.fst) body :: ρ)) body r) :
    Runs er ρ (.letLoop name bindings body) r := by
  obtain ⟨m, hm⟩ := hvs.fuel
  obtain ⟨n, hn⟩ := hr
  refine ⟨max m n + 1, ?_⟩
  rw [eval_letLoop, hm _ (Nat.le_max_left m n)]
  exact eval_mono er (Nat.le_max_right m n) hn

theorem runs_call {name : Var ι} {args : List (Code ι)} {params : List (Var ι)} {outer : Env ι}
    (hloop : findLoop ρ name = some (params, body, outer)) (hvs : RunsAll er ρ args vs)
    (hlen : params.length = vs.length) (hr : Runs er (bindAll params vs outer) body r) :
    Runs er ρ (.call name args) r := by
  obtain ⟨m, hm⟩ := hvs.fuel
  obtain ⟨n, hn⟩ := hr
  refine ⟨max m n + 1, ?_⟩
  have hargs := hm _ (Nat.le_max_left m n)
  have hbody := eval_mono er (Nat.le_max_right m n) hn
  simp [eval_call, hloop, hargs, hlen, hbody]

variable {test : Code ι}

theorem runs_both_no (h : Runs er ρ test .no) : Runs er ρ (.both test body) .no := by
  obtain ⟨n, hn⟩ := h
  refine ⟨n + 1, ?_⟩
  rw [eval_both, hn]
  rfl

theorem runs_both (hv : Runs er ρ test v) (hyes : v.isNo = false) (hr : Runs er ρ body r) :
    Runs er ρ (.both test body) r := by
  obtain ⟨m, hm⟩ := hv
  obtain ⟨n, hn⟩ := hr
  refine ⟨max m n + 1, ?_⟩
  rw [eval_both, eval_mono er (Nat.le_max_left m n) hm]
  simpa [hyes] using eval_mono er (Nat.le_max_right m n) hn

theorem runs_ite_no {yes no : Code ι} (hv : Runs er ρ test v) (hno : v.isNo = true)
    (hr : Runs er ρ no r) : Runs er ρ (.ite test yes no) r := by
  obtain ⟨m, hm⟩ := hv
  obtain ⟨n, hn⟩ := hr
  refine ⟨max m n + 1, ?_⟩
  rw [eval_ite, eval_mono er (Nat.le_max_left m n) hm]
  simpa [hno] using eval_mono er (Nat.le_max_right m n) hn

theorem runs_ite_yes {yes no : Code ι} (hv : Runs er ρ test v) (hyes : v.isNo = false)
    (hr : Runs er ρ yes r) : Runs er ρ (.ite test yes no) r := by
  obtain ⟨m, hm⟩ := hv
  obtain ⟨n, hn⟩ := hr
  refine ⟨max m n + 1, ?_⟩
  rw [eval_ite, eval_mono er (Nat.le_max_left m n) hm]
  simpa [hyes] using eval_mono er (Nat.le_max_right m n) hn

theorem runs_map {params : List (Var ι)} {lists : List (Code ι)} {first : Form ι}
    {others rs : List (Form ι)} {rows : List (List (Form ι))}
    (hlists : RunsAll er ρ lists (first :: others)) (hrows : mapRows first others = some rows)
    (hbody : List.Forall₂ (fun row r => Runs er (bindAll params row ρ) body r) rows rs) :
    Runs er ρ (.map params body lists) (.ofList rs) := by
  obtain ⟨m, hm⟩ := hlists.fuel
  have hfuel : ∃ fuel, ∀ more, fuel ≤ more →
      rows.mapM (fun row => eval er more (bindAll params row ρ) body) = some rs :=
    mapM_fuel (f := fun fuel row => eval er fuel (bindAll params row ρ) body)
      (fun _ _ _ _ hle => eval_mono er hle) hbody
  obtain ⟨n, hn⟩ := hfuel
  refine ⟨max m n + 1, ?_⟩
  rw [eval_map, hm _ (Nat.le_max_left m n)]
  simp [hrows, hn _ (Nat.le_max_right m n)]

end Rules

end ChibiScheme.SyntaxRules
