import ChibiScheme.SyntaxRules.Expand

/-!
# Templates

The templates of `syntax-rules` as abstract syntax, the forms they are written as, and their
instances.  A pattern variable comes with the number of ellipses that are still to follow it and
a list nested that deep; an ellipsis runs over the outermost level of all variables of its
subtemplate that have one.
-/

namespace ChibiScheme.SyntaxRules

variable {ι : Type} [DecidableEq ι]

/-- A template of R7RS. -/
inductive Template (ι : Type) where
  | name (x : ι)
  | datum (a : Atom)
  | nil
  | cons (head rest : Template ι)
  /-- `(head mark more ... . tail)`: a subtemplate with one or more ellipses. -/
  | ellipsis (head : Template ι) (mark : ι) (more : List ι) (tail : Template ι)
  | vec (body : Template ι)
  /-- `(mark body)` -/
  | escape (mark : ι) (body : Template ι)

namespace Template

/-- The template as a form. -/
def form : Template ι → Form ι
  | name x => .ident x
  | datum a => .atom a
  | nil => .nil
  | cons head rest => .pair head.form rest.form
  | ellipsis head mark more tail =>
    .pair head.form (.pair (.ident mark) (.listTail (more.map .ident) tail.form))
  | vec body => .vec body.form.cars
  | escape mark body => .pair (.ident mark) (.pair body.form .nil)

/-- `(... template)` -/
def isEscape : Template ι → Bool
  | escape _ _ => true
  | _ => false

/-- Whether a list template ends with the empty list. -/
def proper : Template ι → Bool
  | nil => true
  | cons _ rest => rest.proper
  | ellipsis _ _ _ tail => tail.proper
  | _ => false

/-- The identifiers of a template, but for the ellipses. -/
def names : Template ι → List ι
  | name x => [x]
  | cons head rest => head.names ++ rest.names
  | ellipsis head _ _ tail => head.names ++ tail.names
  | vec body => body.names
  | escape _ body => body.names
  | _ => []

/-- Where the marks of a template are. In an escape an ellipsis is a name like others, and there
are no escapes and no ellipses. -/
def Marked (s : Rules ι) : Template ι → Bool → Prop
  | name x, esc => esc = true ∨ s.ellipsisMark (.ident x) = false
  | cons head rest, esc => head.Marked s esc ∧ rest.Marked s esc ∧ rest.isEscape = false
  | ellipsis head mark more tail, esc =>
    esc = false ∧ (∀ m ∈ mark :: more, s.ellipsisMark (.ident m) = true) ∧
    head.Marked s false ∧ tail.Marked s false ∧ tail.isEscape = false
  | vec body, esc => body.Marked s esc ∧ body.proper = true
  | escape mark body, esc =>
    esc = false ∧ s.ellipsisMark (.ident mark) = true ∧ body.Marked s true
  | _, _ => True

/-- A variable with nothing but escapes and single ellipses around it. -/
def plain : Template ι → Option ι
  | name x => some x
  | ellipsis head _ [] nil => head.plain
  | escape _ body => match body with
    | name x => some x
    | _ => none
  | _ => none

/-- Whether every subtemplate with several ellipses is a variable with nothing but escapes and
single ellipses around it. -/
def plainRepeats : Template ι → Bool
  | cons head rest => head.plainRepeats && rest.plainRepeats
  | ellipsis head _ more tail =>
    (more.isEmpty || head.plain.isSome) && head.plainRepeats && tail.plainRepeats
  | vec body => body.plainRepeats
  | escape _ body => body.plainRepeats
  | _ => true

/-! ## Instances -/

/-- What the pattern variables stand for: the number of levels that an ellipsis can run over, and
a list nested that deep. -/
abbrev Binding (ι : Type) := ι → Option (ℕ × Form ι)

/-- The variable stands below an ellipsis. -/
def runsOver (β : Binding ι) (x : ι) : Bool :=
  match β x with
  | some (_ + 1, _) => true
  | _ => false

/-- The bindings of the instance with number `i` of a subtemplate in which the variables `xs`
are run over. -/
def row (xs : List ι) (β : Binding ι) (i : ℕ) : Binding ι := fun x =>
  match β x with
  | some (d + 1, v) => if x ∈ xs then v.cars[i]?.map fun item => (d, item) else some (d + 1, v)
  | other => other

/-- The bindings of all instances of a subtemplate with the identifiers `xs` in front of one
ellipsis. There has to be a variable to run over, and their lists have to have the same length. -/
def rows (xs : List ι) (β : Binding ι) : Option (List (Binding ι)) :=
  match xs.filter (runsOver β) with
  | [] => none
  | y :: ys =>
    let lists := (y :: ys).map fun x => ((β x).map Prod.snd).getD .nil
    let count := (((β y).map Prod.snd).getD .nil).cars.length
    if lists.all fun v => v.isList && v.cars.length == count then
      some ((List.range count).map (row xs β))
    else none

/-- The bindings of all instances in front of `k` ellipses. -/
def allRows (xs : List ι) : ℕ → Binding ι → Option (List (Binding ι))
  | 0, β => some [β]
  | k + 1, β => do
      let outer ← rows xs β
      let inner ← outer.mapM (allRows xs k)
      return inner.flatten

/-- The instance of a template: a variable has to have no level left. -/
def inst (er : Renaming ι) : Template ι → Binding ι → Option (Form ι)
  | name x, β =>
    match β x with
    | some (0, v) => some v
    | some (_ + 1, _) => none
    | none => some (.ident (er.rename x))
  | datum a, _ => some (.atom a)
  | nil, _ => some .nil
  | cons head rest, β => do
      let a ← head.inst er β
      let d ← rest.inst er β
      return .pair a d
  | ellipsis head _ more tail, β => do
      let instances ← allRows head.names (more.length + 1) β
      let items ← instances.mapM (head.inst er)
      let rest ← tail.inst er β
      return .listTail items rest
  | vec body, β => do
      let v ← body.inst er β
      return .vec v.cars
  | escape _ body, β => body.inst er β

end Template

end ChibiScheme.SyntaxRules
