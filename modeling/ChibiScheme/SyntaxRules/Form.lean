import Mathlib.Data.List.Basic

/-!
# Source forms

The data that a macro transformer takes apart and builds: identifiers, lists, vectors and
self-evaluating data.  An identifier is a symbol or a symbol closed over an environment; all
that `syntax-rules` does with one is to compare it with `eq?`, so the type of identifiers stays
a parameter.
-/

namespace ChibiScheme.SyntaxRules

/-- Self-evaluating data. -/
inductive Atom where
  | bool (b : Bool)
  | num (n : Int)
  | char (c : Char)
  | str (s : String)
  deriving DecidableEq, Repr

/-- A form over the identifiers `ι`. -/
inductive Form (ι : Type) where
  | ident (name : ι)
  | nil
  | pair (car cdr : Form ι)
  | vec (elements : List (Form ι))
  | atom (a : Atom)
  deriving Repr

namespace Form

variable {ι : Type}

/-- The object `#f`. -/
def no : Form ι := .atom (.bool false)

/-- The object `#t`. -/
def yes : Form ι := .atom (.bool true)

/-- A truth value as an object. -/
def ofBool (b : Bool) : Form ι := .atom (.bool b)

/-- The list of `items` that goes on with `rest`. -/
def listTail : List (Form ι) → Form ι → Form ι
  | [], rest => rest
  | item :: items, rest => .pair item (listTail items rest)

/-- `list`. -/
def ofList (items : List (Form ι)) : Form ι :=
  listTail items .nil

/-- The elements of a form as far as it goes on with pairs. -/
def cars : Form ι → List (Form ι)
  | .pair a d => a :: cars d
  | _ => []

/-- The last cdr. -/
def lastCdr : Form ι → Form ι
  | .pair _ d => lastCdr d
  | v => v

/-- `pair?`. -/
def isPair : Form ι → Bool
  | .pair _ _ => true
  | _ => false

/-- `null?`. -/
def isNull : Form ι → Bool
  | .nil => true
  | _ => false

/-- Whether a form is `#f`, the one false object. -/
def isNo : Form ι → Bool
  | .atom (.bool false) => true
  | _ => false

/-- `identifier?`. -/
def isIdent : Form ι → Bool
  | .ident _ => true
  | _ => false

/-- The identifier, if the form is one. -/
def name? : Form ι → Option ι
  | .ident y => some y
  | _ => none

/-- `vector?`. -/
def isVector : Form ι → Bool
  | .vec _ => true
  | _ => false

/-- `car`, where the form is known to be a pair. -/
def car : Form ι → Form ι
  | .pair a _ => a
  | _ => .nil

/-- `cdr`, where the form is known to be a pair. -/
def cdr : Form ι → Form ι
  | .pair _ d => d
  | _ => .nil

/-- `list?`. -/
def isList (v : Form ι) : Bool :=
  v.lastCdr.isNull

/-- `length*`, which counts the pairs of an improper list too. -/
def lengthStar (v : Form ι) : ℕ :=
  v.cars.length

/-- `append2`: the elements of the first list before the second. -/
def append2 (a b : Form ι) : Form ι :=
  listTail a.cars b

/-- `append` of any number of lists. -/
def appendAll : List (Form ι) → Form ι
  | [] => .nil
  | [v] => v
  | v :: w :: vs => append2 v (appendAll (w :: vs))

@[simp] theorem isNo_ofBool (b : Bool) : (ofBool b : Form ι).isNo = !b := by
  cases b <;> rfl

mutual

/-- `equal?` -/
def equal [DecidableEq ι] : Form ι → Form ι → Bool
  | .ident x, .ident y => x = y
  | .nil, .nil => true
  | .pair a d, .pair b e => equal a b && equal d e
  | .vec vs, .vec ws => equalAll vs ws
  | .atom a, .atom b => a = b
  | _, _ => false

/-- `equal?` on the elements of two vectors. -/
def equalAll [DecidableEq ι] : List (Form ι) → List (Form ι) → Bool
  | [], [] => true
  | v :: vs, w :: ws => equal v w && equalAll vs ws
  | _, _ => false

end

variable (items : List (Form ι)) (v : Form ι)

theorem equal_atom [DecidableEq ι] (a : Atom) : equal v (.atom a) = true ↔ v = .atom a := by
  cases v with
  | atom b => simp [equal]
  | _ => simp [equal]

variable (rest : Form ι)

theorem spine_induction {P : Form ι → Prop} (hend : ∀ v, v.isPair = false → P v)
    (hpair : ∀ a d, P d → P (.pair a d)) (v : Form ι) : P v := by
  suffices h : ∀ n, ∀ v : Form ι, v.cars.length = n → P v from h _ v rfl
  intro n
  induction n with
  | zero =>
    intro v hlen
    cases v with
    | pair a d => simp [cars] at hlen
    | _ => exact hend _ rfl
  | succ n ih =>
    intro v hlen
    cases v with
    | pair a d => exact hpair a d (ih d (by simpa [cars] using hlen))
    | _ => exact hend _ rfl

/-! ## Lists of forms -/

@[simp] theorem listTail_nil : listTail [] rest = rest := rfl

@[simp] theorem listTail_cons (item : Form ι) (items : List (Form ι)) (rest : Form ι) :
    listTail (item :: items) rest = .pair item (listTail items rest) := rfl

@[simp] theorem ofList_nil : (ofList [] : Form ι) = .nil := rfl

@[simp] theorem ofList_cons (item : Form ι) (items : List (Form ι)) :
    ofList (item :: items) = .pair item (ofList items) := rfl

theorem listTail_append (more : List (Form ι)) (rest : Form ι) :
    listTail (items ++ more) rest = listTail items (listTail more rest) := by
  induction items with
  | nil => rfl
  | cons item items ih => simp [ih]

@[simp] theorem cars_listTail : (listTail items rest).cars = items ++ rest.cars := by
  induction items with
  | nil => rfl
  | cons item items ih => simp [cars, ih]

@[simp] theorem cars_ofList : (ofList items).cars = items := by
  simp [ofList, cars]

@[simp] theorem lastCdr_listTail : (listTail items rest).lastCdr = rest.lastCdr := by
  induction items with
  | nil => rfl
  | cons item items ih => simp [lastCdr, ih]

theorem listTail_cars_lastCdr : listTail v.cars v.lastCdr = v := by
  induction v using spine_induction with
  | hend v h => cases v with
    | pair a d => simp [isPair] at h
    | _ => rfl
  | hpair a d ih => simp [cars, lastCdr, ih]

@[simp] theorem cars_lastCdr : v.lastCdr.cars = [] := by
  induction v using spine_induction with
  | hend v h => cases v with
    | pair a d => simp [isPair] at h
    | _ => rfl
  | hpair a d ih => exact ih

theorem isList_iff : v.isList = true ↔ v = ofList v.cars := by
  constructor
  · intro h
    have hend : v.lastCdr = .nil := by
      unfold isList at h
      cases hlast : v.lastCdr with
      | nil => rfl
      | _ => simp [hlast, isNull] at h
    calc v = listTail v.cars v.lastCdr := (listTail_cars_lastCdr v).symm
      _ = ofList v.cars := by rw [hend]; rfl
  · intro h
    rw [h]
    simp [isList, ofList, lastCdr, isNull]

@[simp] theorem isList_ofList : (ofList items).isList = true := by
  simp [isList, ofList, lastCdr, isNull]

theorem ofList_injective {items more : List (Form ι)} (h : ofList items = ofList more) :
    items = more := by
  simpa using congrArg cars h

theorem append2_ofList : append2 (ofList items) rest = listTail items rest := by
  simp [append2]

theorem appendAll_ofList (lists : List (List (Form ι))) :
    appendAll (lists.map ofList) = ofList lists.flatten := by
  induction lists with
  | nil => rfl
  | cons items lists ih =>
    cases lists with
    | nil => simp [appendAll]
    | cons more lists =>
      simp only [List.map_cons, appendAll] at ih ⊢
      rw [ih, append2_ofList, List.flatten_cons]
      exact (listTail_append _ _ _).symm

theorem sizeOf_ofList : sizeOf (ofList items) = sizeOf items := by
  induction items with
  | nil => rfl
  | cons item items ih => simp [ih]

theorem sizeOf_car_le : sizeOf v.car ≤ sizeOf v := by
  cases v with
  | pair a d =>
    simp only [car, pair.sizeOf_spec]
    omega
  | _ => simp [car]

theorem sizeOf_cdr_le : sizeOf v.cdr ≤ sizeOf v := by
  cases v with
  | pair a d => simp [cdr]
  | _ => simp [cdr]

end Form

/-- The `compare` of a macro, which is `identifier=?` in some environment: an identifier equals
itself, and it equals nothing but identifiers. -/
structure Compare (ι : Type) where
  same : Form ι → Form ι → Bool
  same_self : ∀ x, same (.ident x) (.ident x) = true
  ident_of_same_left : ∀ x v, same (.ident x) v = true → v.isIdent = true
  ident_of_same_right : ∀ v x, same v (.ident x) = true → v.isIdent = true

end ChibiScheme.SyntaxRules
