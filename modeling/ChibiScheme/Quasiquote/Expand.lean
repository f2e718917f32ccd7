import Mathlib.Order.Nat

/-!
# The expansion of quasiquote

`qq` turns a template into an expression that builds it, with the depth of the quasiquotes
around the template as a counter.  It treats a vector as the list of its elements and looks
for a splice in the car of a pair.

The templates are those of the grammar of R7RS, which says for each form at which depth its
parts are; where the three keywords stand in a template otherwise, R7RS does not say what the
result is.  The value of a template is defined on them form by form, and not through lists.
The names `quasiquote`, `unquote` and `unquote-splicing` have their standard bindings.
-/

namespace ChibiScheme.Quasiquote

open Option

/-! ## Data -/

/-- Scheme data; an atom evaluates to itself. -/
inductive Datum (A : Type) where
  | atom (a : A)
  | symbol (name : String)
  | nil
  | pair (car cdr : Datum A)
  | vector (elements : List (Datum A))

variable {A : Type}

namespace Datum

/-- A list with a last cdr. -/
def listOnto : List (Datum A) → Datum A → Datum A
  | [], tail => tail
  | x :: xs, tail => .pair x (listOnto xs tail)

/-- `vector->list` of a vector with these elements. -/
def ofList (xs : List (Datum A)) : Datum A := listOnto xs .nil

/-- The elements of a proper list. -/
def toList : Datum A → Option (List (Datum A))
  | .nil => some []
  | .pair x rest => rest.toList.map (x :: ·)
  | _ => none

/-- `append2`, which takes the pairs of its first argument. -/
def append2 : Datum A → Datum A → Datum A
  | .pair x rest, tail => .pair x (append2 rest tail)
  | _, tail => tail

/-- `list->vector`; what is not a list is an error. -/
def listToVector (x : Datum A) : Option (Datum A) := x.toList.map .vector

/-- `car` -/
def car : Datum A → Option (Datum A)
  | .pair x _ => some x
  | _ => none

/-- `cadr` -/
def cadr : Datum A → Option (Datum A)
  | .pair _ (.pair y _) => some y
  | _ => none

/-- `null?` -/
def isNull : Datum A → Bool
  | .nil => true
  | _ => false

/-- `compare` with a renamed identifier. -/
def named (name : String) : Datum A → Bool
  | .symbol s => s = name
  | _ => false

/-- `compare` with the car, for a pair. -/
def headed (name : String) : Datum A → Bool
  | .pair x _ => x.named name
  | _ => false

/-- A form with one operand. -/
def form (name : String) (x : Datum A) : Datum A := .pair (.symbol name) (.pair x .nil)

variable (xs : List (Datum A))

theorem toList_listOnto (x : Datum A) : (listOnto xs x).toList = x.toList.map (xs ++ ·) := by
  induction xs with
  | nil =>
    rw [listOnto]
    cases x.toList with
    | none => rfl
    | some ys => rfl
  | cons y xs ih =>
    rw [listOnto, toList, ih]
    cases x.toList with
    | none => rfl
    | some ys => rfl

theorem toList_ofList : (ofList xs).toList = some xs := by
  rw [ofList, toList_listOnto, toList, map_some, List.append_nil]

theorem eq_ofList (x : Datum A) : ∀ {xs : List (Datum A)}, x.toList = some xs → x = ofList xs := by
  induction x using toList.induct with
  | case1 =>
    intro xs hlist
    cases hlist
    rfl
  | case2 x rest ih =>
    intro xs hlist
    obtain ⟨ys, hrest, rfl⟩ := map_eq_some_iff.mp hlist
    rw [ih hrest]
    rfl
  | case3 x hnil hpair =>
    intro xs hlist
    rw [toList] at hlist
    · exact nomatch hlist
    · exact hnil
    · exact hpair

theorem append2_ofList (tail : Datum A) : append2 (ofList xs) tail = listOnto xs tail := by
  induction xs with
  | nil => rfl
  | cons x xs ih =>
    have hcons : ofList (x :: xs) = .pair x (ofList xs) := rfl
    rw [hcons, append2, ih, listOnto]

theorem listOnto_append (ys : List (Datum A)) (tail : Datum A) :
    listOnto (xs ++ ys) tail = listOnto xs (listOnto ys tail) := by
  induction xs with
  | nil => rfl
  | cons x xs ih => rw [List.cons_append, listOnto, listOnto, ih]

theorem sizeOf_ofList : sizeOf (ofList xs) = sizeOf xs := by
  induction xs with
  | nil => simp [ofList, listOnto]
  | cons x xs ih =>
    have hcons : ofList (x :: xs) = .pair x (ofList xs) := rfl
    rw [hcons]
    simp [ih]

theorem sizeOf_cadr {x y : Datum A} (hcadr : x.cadr = some y) : sizeOf y < sizeOf x := by
  cases x with
  | pair x rest =>
    cases rest with
    | pair z rest =>
      cases hcadr
      simp only [pair.sizeOf_spec]
      omega
    | atom a => exact nomatch hcadr
    | symbol name => exact nomatch hcadr
    | nil => exact nomatch hcadr
    | vector elements => exact nomatch hcadr
  | atom a => exact nomatch hcadr
  | symbol name => exact nomatch hcadr
  | nil => exact nomatch hcadr
  | vector elements => exact nomatch hcadr

end Datum

open Datum

/-! ## The code -/

/-- The expressions that the macro makes; `user` is a datum from the template that is
evaluated where the macro is used. -/
inductive Expr (A : Type) where
  | user (x : Datum A)
  | quote (x : Datum A)
  | self (a : A)
  | list (x y : Expr A)
  | consSource (kar kdr : Expr A) (source : Datum A)
  | append (x y : Expr A)
  | listToVector (x : Expr A)

/-- The procedure `qq` of the macro; to take a part that is not there is an error. -/
def qq (x : Datum A) (d : ℕ) : Option (Expr A) :=
  match x with
  | .pair a b =>
    if a.named "unquote" then
      if d = 0 then (Datum.pair a b).cadr.map .user
      else
        match _h_cadr : (Datum.pair a b).cadr with
        | none => none
        | some y => (qq y (d - 1)).map fun e => .list (.quote (.symbol "unquote")) e
    else if a.named "unquote-splicing" then
      if d = 0 then
        (qq a d).bind fun kar => (qq b d).map fun kdr => .consSource kar kdr (.pair a b)
      else
        match _h_cadr : (Datum.pair a b).cadr with
        | none => none
        | some y => (qq y (d - 1)).map fun e => .list (.quote (.symbol "unquote-splicing")) e
    else if a.named "quasiquote" then
      match _h_cadr : (Datum.pair a b).cadr with
      | none => none
      | some y => (qq y (d + 1)).map fun e => .list (.quote (.symbol "quasiquote")) e
    else if d = 0 ∧ a.headed "unquote-splicing" then
      if b.isNull then a.cadr.map .user
      else a.cadr.bind fun y => (qq b d).map fun e => .append (.user y) e
    else (qq a d).bind fun kar => (qq b d).map fun kdr => .consSource kar kdr (.pair a b)
  | .vector xs => (qq (ofList xs) d).map .listToVector
  | .symbol name => some (.quote (.symbol name))
  | .nil => some (.quote .nil)
  | .atom a => some (.self a)
termination_by sizeOf x
decreasing_by
  all_goals first
    | exact sizeOf_cadr _h_cadr
    | (simp only [Datum.pair.sizeOf_spec]; omega)
    | (rw [sizeOf_ofList, Datum.vector.sizeOf_spec]; omega)

/-- The macro `quasiquote`. -/
def quasiquote (expr : Datum A) : Option (Expr A) := expr.cadr.bind fun x => qq x 0

/-- The value of an expression that the macro makes, for the values of the user's
expressions. -/
def Expr.eval (evaluate : Datum A → Option (Datum A)) : Expr A → Option (Datum A)
  | .user x => evaluate x
  | .quote x => some x
  | .self a => some (.atom a)
  | .list x y => (x.eval evaluate).bind fun u => (y.eval evaluate).map fun v => ofList [u, v]
  | .consSource x y _ => (x.eval evaluate).bind fun u => (y.eval evaluate).map fun v => .pair u v
  | .append x y => (x.eval evaluate).bind fun u => (y.eval evaluate).map fun v => append2 u v
  | .listToVector x => (x.eval evaluate).bind Datum.listToVector

/-! ## Templates -/

/-- What a template is written as: a datum, or the elements in a list or a vector. -/
inductive Kind where
  | datum
  | elements

/-- Templates at a depth, which at depth zero are expressions. -/
inductive Template (A : Type) : Kind → ℕ → Type where
  | expression (x : Datum A) : Template A .datum 0
  | atom {D : ℕ} (a : A) : Template A .datum (D + 1)
  | symbol {D : ℕ} (name : String)
      (hname : name ∉ ["quasiquote", "unquote", "unquote-splicing"]) : Template A .datum (D + 1)
  | nil {D : ℕ} : Template A .datum (D + 1)
  | list {D : ℕ} (elements : Template A .elements (D + 1)) (tail : Template A .datum (D + 1)) :
      Template A .datum (D + 1)
  | vector {D : ℕ} (elements : Template A .elements (D + 1)) : Template A .datum (D + 1)
  | quasiquotation {D : ℕ} (t : Template A .datum (D + 2)) : Template A .datum (D + 1)
  | unquotation {D : ℕ} (t : Template A .datum D) : Template A .datum (D + 1)
  | empty {D : ℕ} : Template A .elements (D + 1)
  | element {D : ℕ} (t : Template A .datum (D + 1)) (rest : Template A .elements (D + 1)) :
      Template A .elements (D + 1)
  | splicing {D : ℕ} (t : Template A .datum D) (rest : Template A .elements (D + 1)) :
      Template A .elements (D + 1)

/-- A datum, or the elements of a list. -/
abbrev Written (A : Type) : Kind → Type
  | .datum => Datum A
  | .elements => List (Datum A)

/-- The template as it stands in the program. -/
def Template.written : {k : Kind} → {D : ℕ} → Template A k D → Written A k
  | _, _, .expression x => x
  | _, _, .atom a => .atom a
  | _, _, .symbol name _ => .symbol name
  | _, _, .nil => .nil
  | _, _, .list elements tail => listOnto elements.written tail.written
  | _, _, .vector elements => .vector elements.written
  | _, _, .quasiquotation t => form "quasiquote" t.written
  | _, _, .unquotation t => form "unquote" t.written
  | _, _, .empty => []
  | _, _, .element t rest => t.written :: rest.written
  | _, _, .splicing t rest => form "unquote-splicing" t.written :: rest.written

/-- The value of a template.  Unquotes and splices of expressions are replaced by the values
of these, and those at a greater depth are kept around the values of their templates. -/
def Template.value (evaluate : Datum A → Option (Datum A)) :
    {k : Kind} → {D : ℕ} → Template A k D → Option (Written A k)
  | _, _, .expression x => evaluate x
  | _, _, .atom a => some (.atom a)
  | _, _, .symbol name _ => some (.symbol name)
  | _, _, .nil => some .nil
  | _, _, .list elements tail =>
    (elements.value evaluate).bind fun us => (tail.value evaluate).map fun v => listOnto us v
  | _, _, .vector elements => (elements.value evaluate).map .vector
  | _, _, .quasiquotation t => (t.value evaluate).map (form "quasiquote")
  | _, 1, .unquotation t => t.value evaluate
  | _, _ + 2, .unquotation t => (t.value evaluate).map (form "unquote")
  | _, _, .empty => some []
  | _, _, .element t rest =>
    (t.value evaluate).bind fun v => (rest.value evaluate).map fun vs => v :: vs
  | _, 1, .splicing t rest =>
    ((t.value evaluate).bind Datum.toList).bind fun us =>
      (rest.value evaluate).map fun vs => us ++ vs
  | _, _ + 2, .splicing t rest =>
    (t.value evaluate).bind fun v =>
      (rest.value evaluate).map fun vs => form "unquote-splicing" v :: vs

/-! ## What the expansion yields -/

section Expansion

variable {evaluate : Datum A → Option (Datum A)}

/-- The datum expands, and the expression evaluates to the value. -/
def Yields (evaluate : Datum A → Option (Datum A)) (d : ℕ) (x v : Datum A) : Prop :=
  ∃ e, qq x d = some e ∧ e.eval evaluate = some v

variable {x v : Datum A} {d : ℕ}

theorem yields_form {name : String} {d' : ℕ} (h : Yields evaluate d' x v)
    (hform : qq (form name x) d = (qq x d').map fun e => .list (.quote (.symbol name)) e) :
    Yields evaluate d (form name x) (form name v) := by
  obtain ⟨e, hqq, heval⟩ := h
  refine ⟨.list (.quote (.symbol name)) e, ?_, ?_⟩
  · rw [hform, hqq]
    rfl
  · simp only [Expr.eval, heval, bind_some, map_some]
    rfl

attribute [local simp] qq in
theorem yields_quasiquote (h : Yields evaluate (d + 1) x v) :
    Yields evaluate d (form "quasiquote" x) (form "quasiquote" v) := by
  apply yields_form h
  rw [form, qq]
  simp [named, cadr]

theorem yields_innerUnquote (h : Yields evaluate d x v) :
    Yields evaluate (d + 1) (form "unquote" x) (form "unquote" v) := by
  apply yields_form h
  rw [form, qq]
  simp [named, cadr]

theorem yields_innerSplicing (h : Yields evaluate d x v) :
    Yields evaluate (d + 1) (form "unquote-splicing" x) (form "unquote-splicing" v) := by
  apply yields_form h
  rw [form, qq]
  simp [named, cadr]

theorem yields_unquote (heval : evaluate x = some v) : Yields evaluate 0 (form "unquote" x) v := by
  refine ⟨.user x, ?_, heval⟩
  rw [form, qq]
  simp [named, cadr]

/-- The datum is no quasiquote form. -/
def Plain (x : Datum A) : Prop :=
  ∀ name ∈ ["quasiquote", "unquote", "unquote-splicing"], x.named name = false

theorem yields_pair {a b u : Datum A} (hplain : Plain a)
    (hsplice : d = 0 → a.headed "unquote-splicing" = false) (ha : Yields evaluate d a u)
    (hb : Yields evaluate d b v) : Yields evaluate d (.pair a b) (.pair u v) := by
  obtain ⟨kar, hqa, hea⟩ := ha
  obtain ⟨kdr, hqb, heb⟩ := hb
  have hunquote := hplain "unquote" (by decide)
  have hsplicing := hplain "unquote-splicing" (by decide)
  have hquasi := hplain "quasiquote" (by decide)
  have hnone : ¬ (d = 0 ∧ a.headed "unquote-splicing" = true) := by
    intro hboth
    rw [hsplice hboth.1] at hboth
    exact nomatch hboth.2
  refine ⟨.consSource kar kdr (.pair a b), ?_, ?_⟩
  · rw [qq]
    simp only [hunquote, hsplicing, hquasi, Bool.false_eq_true, if_false, if_neg hnone, hqa,
      hqb, bind_some, map_some]
  · simp only [Expr.eval, hea, heb, bind_some, map_some]

theorem yields_splice {b : Datum A} {us : List (Datum A)} (hx : (evaluate x).bind toList = some us)
    (hb : Yields evaluate 0 b v) :
    Yields evaluate 0 (.pair (form "unquote-splicing" x) b) (listOnto us v) := by
  obtain ⟨kdr, hqb, heb⟩ := hb
  obtain ⟨l, heval, hlist⟩ := bind_eq_some_iff.mp hx
  rw [eq_ofList l hlist] at heval
  by_cases hnull : b.isNull = true
  · -- at the end of the list the value itself is taken
    refine ⟨.user x, ?_, ?_⟩
    · rw [qq]
      simp [named, headed, form, cadr, hnull]
    · cases b with
      | nil =>
        rw [qq] at hqb
        cases hqb
        cases heb
        exact heval
      | atom a => exact nomatch hnull
      | symbol name => exact nomatch hnull
      | pair a b => exact nomatch hnull
      | vector xs => exact nomatch hnull
  · refine ⟨.append (.user x) kdr, ?_, ?_⟩
    · rw [qq]
      simp [named, headed, form, cadr, hnull, hqb]
    · simp only [Expr.eval, heval, heb, bind_some, map_some, append2_ofList]

theorem yields_vector {xs vs : List (Datum A)} (h : Yields evaluate d (ofList xs) (ofList vs)) :
    Yields evaluate d (.vector xs) (.vector vs) := by
  obtain ⟨e, hqq, heval⟩ := h
  refine ⟨.listToVector e, ?_, ?_⟩
  · rw [qq, hqq, map_some]
  · simp only [Expr.eval, heval, bind_some, Datum.listToVector, toList_ofList, map_some]

/-! ## The value of every template -/

theorem plain_symbol {name : String}
    (hname : name ∉ ["quasiquote", "unquote", "unquote-splicing"]) :
    Plain (A := A) (.symbol name) := by
  intro keyword hkeyword
  apply decide_eq_false
  intro heq
  exact hname (heq ▸ hkeyword)

theorem written_plain : ∀ {D : ℕ} (t : Template A .datum (D + 1)),
    Plain t.written ∧ t.written.headed "unquote-splicing" = false
  | _, .atom a => ⟨fun _ _ => rfl, rfl⟩
  | _, .symbol name hname => ⟨plain_symbol hname, rfl⟩
  | _, .nil => ⟨fun _ _ => rfl, rfl⟩
  | _, .list .empty tail => written_plain tail
  | _, .list (.element t _) _ =>
    ⟨fun _ _ => rfl, (written_plain t).1 "unquote-splicing" (by decide)⟩
  | _, .list (.splicing _ _) _ => ⟨fun _ _ => rfl, rfl⟩
  | _, .vector _ => ⟨fun _ _ => rfl, rfl⟩
  | _, .quasiquotation _ => ⟨fun _ _ => rfl, rfl⟩
  | _, .unquotation _ => ⟨fun _ _ => rfl, rfl⟩

mutual

theorem yields_value : ∀ {d : ℕ} (t : Template A .datum (d + 1)) {v : Datum A},
    t.value evaluate = some v → Yields evaluate d t.written v
  | d, .atom a, v, hvalue => by
    cases hvalue
    exact ⟨.self a, by rw [Template.written, qq], rfl⟩
  | d, .symbol name hname, v, hvalue => by
    cases hvalue
    exact ⟨.quote (.symbol name), by rw [Template.written, qq], rfl⟩
  | d, .nil, v, hvalue => by
    cases hvalue
    exact ⟨.quote .nil, by rw [Template.written, qq], rfl⟩
  | d, .list elements tail, v, hvalue => by
    obtain ⟨us, hus, hvalue⟩ := bind_eq_some_iff.mp hvalue
    obtain ⟨w, hw, rfl⟩ := map_eq_some_iff.mp hvalue
    exact yields_elements elements hus (yields_value tail hw)
  | d, .vector elements, v, hvalue => by
    obtain ⟨us, hus, rfl⟩ := map_eq_some_iff.mp hvalue
    have hnil : Yields evaluate d (.nil : Datum A) .nil := ⟨.quote .nil, by rw [qq], rfl⟩
    exact yields_vector (yields_elements elements hus hnil)
  | d, .quasiquotation t, v, hvalue => by
    obtain ⟨u, hu, rfl⟩ := map_eq_some_iff.mp hvalue
    exact yields_quasiquote (yields_value t hu)
  | 0, .unquotation (.expression x), v, hvalue => yields_unquote hvalue
  | d + 1, .unquotation t, v, hvalue => by
    obtain ⟨u, hu, rfl⟩ := map_eq_some_iff.mp hvalue
    exact yields_innerUnquote (yields_value t hu)

theorem yields_elements : ∀ {d : ℕ} (els : Template A .elements (d + 1)) {vs : List (Datum A)}
    {b w : Datum A}, els.value evaluate = some vs → Yields evaluate d b w →
    Yields evaluate d (listOnto els.written b) (listOnto vs w)
  | d, .empty, vs, b, w, hvalue, hb => by
    cases hvalue
    exact hb
  | d, .element t rest, vs, b, w, hvalue, hb => by
    obtain ⟨u, hu, hvalue⟩ := bind_eq_some_iff.mp hvalue
    obtain ⟨us, hus, rfl⟩ := map_eq_some_iff.mp hvalue
    obtain ⟨hplain, hsplice⟩ := written_plain t
    exact yields_pair hplain (fun _ => hsplice) (yields_value t hu)
      (yields_elements rest hus hb)
  | 0, .splicing (.expression x) rest, vs, b, w, hvalue, hb => by
    obtain ⟨us, hus, hvalue⟩ := bind_eq_some_iff.mp hvalue
    obtain ⟨ws, hws, rfl⟩ := map_eq_some_iff.mp hvalue
    rw [listOnto_append]
    exact yields_splice hus (yields_elements rest hws hb)
  | d + 1, .splicing t rest, vs, b, w, hvalue, hb => by
    obtain ⟨u, hu, hvalue⟩ := bind_eq_some_iff.mp hvalue
    obtain ⟨us, hus, rfl⟩ := map_eq_some_iff.mp hvalue
    -- within a quasiquote a splice is a form like an unquote
    have hform : Plain (form "unquote-splicing" t.written) := fun _ _ => rfl
    exact yields_pair hform (fun hzero => nomatch hzero)
      (yields_innerSplicing (yields_value t hu)) (yields_elements rest hus hb)

end

/-- The expression that `quasiquote` makes of a template evaluates to its value. -/
theorem quasiquote_eval (evaluate : Datum A → Option (Datum A)) (t : Template A .datum 1)
    {v : Datum A} (hvalue : t.value evaluate = some v) :
    (quasiquote (form "quasiquote" t.written)).bind (Expr.eval evaluate) = some v := by
  obtain ⟨e, hqq, heval⟩ := yields_value t hvalue
  rw [quasiquote, form, cadr, bind_some, hqq, bind_some, heval]

/-- Values of the expressions `x` and `ys`. -/
def bindings : Datum ℕ → Option (Datum ℕ)
  | .symbol "x" => some (.atom 7)
  | .symbol "ys" => some (ofList [.atom 8, .atom 9])
  | _ => none

/-- The template ``(x `(,(,x ,@ys)) #(,@ys 1) . ,x)`` -/
def nestedTemplate : Template ℕ .datum 1 :=
  .list
    (.element (.symbol "x" (by decide))
      (.element (.quasiquotation (.list (.element (.unquotation (.list
        (.element (.unquotation (.expression (.symbol "x")))
          (.splicing (.expression (.symbol "ys")) .empty)) .nil)) .empty) .nil))
        (.element (.vector (.splicing (.expression (.symbol "ys")) (.element (.atom 1) .empty)))
          .empty)))
    (.unquotation (.expression (.symbol "x")))

/-- A nested quasiquote, a vector and a dotted tail. -/
theorem quasiquote_eval_nested :
    (quasiquote (form "quasiquote" nestedTemplate.written)).bind (Expr.eval bindings) =
      some (listOnto [.symbol "x",
        form "quasiquote" (ofList [form "unquote" (ofList [.atom 7, .atom 8, .atom 9])]),
        .vector [.atom 8, .atom 9, .atom 1]] (.atom 7)) :=
  quasiquote_eval bindings nestedTemplate rfl

end Expansion

end ChibiScheme.Quasiquote
