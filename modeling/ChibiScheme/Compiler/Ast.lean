import ChibiScheme.Vm.Instr

/-!
# The analyzed program

The tree that `sexp_analyze` hands to the code generator.  A lambda is an object with an identity:
a reference to a local variable names the lambda that binds it, and the generator compares these
by identity.  The free variables of a lambda are what `sexp_free_vars` stores in it.
-/

namespace ChibiScheme.Compiler

open Vm

/-- The fields of a lambda other than its body: its parameters with an optional rest parameter,
the local variables of its body, and the variables that are assigned (`sexp_lambda_sv`). -/
structure LambdaInfo where
  id : ℕ
  params : List ℕ
  rest : Option ℕ
  restUnused : Bool
  locals : List ℕ
  sv : List ℕ
  deriving DecidableEq, Repr

/-- Where a variable is bound: in a global cell or in a lambda. -/
inductive Loc where
  | global (cell : ℕ)
  | lambda (info : LambdaInfo)
  deriving DecidableEq, Repr

/-- A reference: the name and where its variable is bound. -/
structure Ref where
  name : ℕ
  loc : Loc
  deriving DecidableEq, Repr

/-- An opcode object.  A parameter may have a converter, which is a procedure or an opcode. -/
inductive Opcode where
  | plain (info : OpcodeInfo)
  | convertedBy (info : OpcodeInfo) (procedure : Vm.Val)
  | convertedByOpcode (info : OpcodeInfo) (converter : Opcode)
  deriving DecidableEq, Repr

/-- The record of the opcode. -/
def Opcode.info : Opcode → OpcodeInfo
  | .plain info => info
  | .convertedBy info _ => info
  | .convertedByOpcode info _ => info

/-- The analyzed program.  `lit` is a literal node; `const` is an object that stands for itself
in the tree.  The list of a sequence is never empty, so its last expression is apart. -/
inductive Ast where
  | lit (value : Vm.Val)
  | const (value : Vm.Val)
  | ref (r : Ref)
  | set (r : Ref) (value : Ast)
  | cnd (test pass fail : Ast)
  | seq (first : List Ast) (last : Ast)
  | lambda (info : LambdaInfo) (body : Ast)
  | app (fn : Ast) (args : List Ast)
  | opcodeApp (op : Opcode) (args : List Ast)

@[elab_as_elim]
theorem Ast.induction {motive : Ast → Prop} (lit : ∀ value, motive (.lit value))
    (const : ∀ value, motive (.const value)) (ref : ∀ r, motive (.ref r))
    (set : ∀ r value, motive value → motive (.set r value))
    (cnd : ∀ test pass fail, motive test → motive pass → motive fail →
      motive (.cnd test pass fail))
    (seq : ∀ first last, (∀ x ∈ first, motive x) → motive last → motive (.seq first last))
    (lambda : ∀ info body, motive body → motive (.lambda info body))
    (app : ∀ fn args, motive fn → (∀ x ∈ args, motive x) → motive (.app fn args))
    (opcodeApp : ∀ op args, (∀ x ∈ args, motive x) → motive (.opcodeApp op args)) (x : Ast) :
    motive x := by
  refine @Ast.rec motive (fun xs => ∀ x ∈ xs, motive x) lit const ref set cnd seq lambda app
    opcodeApp ?_ ?_ x
  · intro x hx
    cases hx
  · intro head tail hhead htail x hx
    rcases List.mem_cons.mp hx with rfl | hmem
    · exact hhead
    · exact htail x hmem

/-! ## Variables of a lambda -/

/-- The parameters with the rest parameter, `sexp_flatten_dot`. -/
def LambdaInfo.flatParams (l : LambdaInfo) : List ℕ :=
  l.params ++ l.rest.toList

/-- `sexp_param_index`: parameters count up from zero, local variables down from minus five. -/
def LambdaInfo.paramIndex (l : LambdaInfo) (name : ℕ) : ℤ :=
  if name ∈ l.flatParams then l.flatParams.idxOf name
  else if name ∈ l.locals then -5 - l.locals.idxOf name
  else -10000

/-! ## Free variables -/

/-- The comparison of `insert_free_var` and `generate_non_global_ref`: the same name bound by the
same object. -/
def Ref.same (a b : Ref) : Bool :=
  a.name = b.name && match a.loc, b.loc with
    | .global c, .global d => c = d
    | .lambda l, .lambda m => l.id = m.id
    | _, _ => false

/-- `insert_free_var` -/
def insertFreeVar (x : Ref) (fv : List Ref) : List Ref :=
  if fv.any (Ref.same x) then fv else x :: fv

/-- `union_free_vars` -/
def unionFreeVars (fv1 fv2 : List Ref) : List Ref :=
  if fv2 = [] then fv1 else fv1.foldl (fun res x => insertFreeVar x res) fv2

/-- The variables that `diff_free_vars` leaves out: those bound by the lambda itself. -/
def boundBy (l : LambdaInfo) (x : Ref) : Bool :=
  match x.loc with
  | .lambda m => m.id = l.id && decide (x.name ∈ l.locals ++ l.flatParams)
  | .global _ => false

/-- `diff_free_vars`, which reverses the list. -/
def diffFreeVars (l : LambdaInfo) (fv : List Ref) : List Ref :=
  fv.foldl (fun res x => if boundBy l x then res else x :: res) []

mutual

/-- `sexp_free_vars`. -/
def freeVars : Ast → List Ref → List Ref
  | .lit _, fv => fv
  | .const _, fv => fv
  | .ref r, fv =>
    match r.loc with
    | .lambda _ => insertFreeVar r fv
    | .global _ => fv
  | .set r value, fv =>
    let fv1 := freeVars value fv
    match r.loc with
    | .lambda _ => insertFreeVar r fv1
    | .global _ => fv1
  | .cnd test pass fail, fv => freeVars fail (freeVars pass (freeVars test fv))
  | .seq first last, fv => freeVars last (freeVarsList first fv)
  | .lambda info body, fv => unionFreeVars (diffFreeVars info (freeVars body [])) fv
  | .app fn args, fv => freeVarsList args (freeVars fn fv)
  | .opcodeApp _ args, fv => freeVarsList args fv

/-- The free variables of a list of expressions. -/
def freeVarsList : List Ast → List Ref → List Ref
  | [], fv => fv
  | x :: rest, fv => freeVarsList rest (freeVars x fv)

end

/-- `sexp_lambda_fv` of a lambda with this body. -/
def lambdaFv (info : LambdaInfo) (body : Ast) : List Ref :=
  diffFreeVars info (freeVars body [])

end ChibiScheme.Compiler
