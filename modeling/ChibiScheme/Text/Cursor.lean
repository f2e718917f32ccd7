import Mathlib.Data.List.Basic
import Mathlib.Order.Nat

/-!
# The cursor library for strings

The procedures of `(chibi string)` that the libraries for URIs and for paths are
written with.  A string is the list of its characters here and a cursor is the
number of characters before it; a cursor may lie behind the end of its string.

A search is followed along a split of the string into the part before the cursor,
the part that is searched and the rest.
-/

namespace ChibiScheme.CharString

open List

/-! ## The code -/

/-- The characters between two cursors. -/
def slice (str : List Char) (i j : ℕ) : List Char := (str.take j).drop i

/-- `substring-cursor` -/
def substringCursor (str : List Char) (i j : ℕ) : Except String (List Char) :=
  if str.length < i ∨ str.length < j ∨ j < i then .error "bad index range" else .ok (slice str i j)

/-- `string-find`, from `i` up to `stop`. -/
def stringFind (check : Char → Bool) (str : List Char) (i stop : ℕ) : ℕ :=
  if stop ≤ i then stop
  else
    match str[i]? with
    | none => stop
    | some ch => if check ch then i else stringFind check str (i + 1) stop
termination_by stop - i

/-- `string-find-right`, from `start` up to `i`: the cursor behind the last
character that satisfies `check`. -/
def stringFindRight (check : Char → Bool) (str : List Char) (start : ℕ) : ℕ → ℕ
  | 0 => start
  | i + 1 =>
    if i < start then start
    else if (str[i]?).any check then i + 1
    else stringFindRight check str start i

/-- `string-skip-right` -/
def stringSkipRight (check : Char → Bool) (str : List Char) (start i : ℕ) : ℕ :=
  stringFindRight (fun ch => !check ch) str start i

/-- `string-trim-left` -/
def stringTrimLeft (check : Char → Bool) (str : List Char) : List Char :=
  slice str (stringFind (fun ch => !check ch) str 0 str.length) str.length

/-- The local `collect` of the scanners: the characters between the cursors, unless
there are none, in front of the pieces collected so far. -/
def collect (str : List Char) (i j : ℕ) (res : List (List Char)) : List (List Char) :=
  if j ≤ i then res else slice str i j :: res

/-- `string-concatenate` of a reversed list of pieces. -/
def concatenateReverse (res : List (List Char)) : List Char := res.reverse.flatten

/-! ## Slices -/

theorem slice_split (before mid after : List Char) :
    slice (before ++ (mid ++ after)) before.length (before.length + mid.length) = mid := by
  rw [slice, ← append_assoc, ← length_append, take_left, drop_left]

theorem slice_self (str : List Char) (i : ℕ) : slice str i i = [] := by
  rw [slice]
  exact drop_eq_nil_of_le (length_take_le _ _)

variable {i : ℕ} {ch : Char}

theorem slice_succ {str : List Char} {j : ℕ} (hch : str[j]? = some ch) (hle : i ≤ j) :
    slice str i (j + 1) = slice str i j ++ [ch] := by
  obtain ⟨hlt, hget⟩ := List.getElem?_eq_some_iff.mp hch
  rw [slice, take_succ_eq_append_getElem hlt, hget, drop_append_of_le_length]
  · rfl
  · rw [length_take, Nat.min_eq_left hlt.le]
    exact hle

theorem substringCursor_split (before mid after : List Char) :
    substringCursor (before ++ (mid ++ after)) before.length (before.length + mid.length) =
      .ok mid := by
  rw [substringCursor, if_neg, slice_split]
  simp only [length_append]
  omega

@[simp] theorem concatenateReverse_nil : concatenateReverse [] = [] := rfl

@[simp] theorem concatenateReverse_cons (piece : List Char) (res : List (List Char)) :
    concatenateReverse (piece :: res) = concatenateReverse res ++ piece := by
  simp [concatenateReverse]

@[simp] theorem concatenateReverse_collect (str : List Char) (i j : ℕ) (res : List (List Char)) :
    concatenateReverse (collect str i j res) = concatenateReverse res ++ slice str i j := by
  unfold collect
  split
  · rename_i hle
    have hnil : slice str i j = [] := by
      apply drop_eq_nil_of_le
      exact (length_take_le _ _).trans hle
    rw [hnil, append_nil]
  · exact concatenateReverse_cons _ _

/-! ## Searches -/

theorem le_stringFind (check : Char → Bool) (str : List Char) {stop : ℕ} (hle : i ≤ stop) :
    i ≤ stringFind check str i stop := by
  fun_induction stringFind check str i stop with
  | case1 i hstop => exact hle
  | case2 i hstop hnone => exact hle
  | case3 i hstop ch hch hcheck => exact le_rfl
  | case4 i hstop ch hch hcheck ih => exact (Nat.le_succ i).trans (ih (by omega))

variable {check : Char → Bool} {mid : List Char}

theorem stringFind_none (hmid : ∀ ch ∈ mid, check ch = false) (before after : List Char) :
    stringFind check (before ++ (mid ++ after)) before.length (before.length + mid.length) =
      before.length + mid.length := by
  induction mid generalizing before with
  | nil => rw [stringFind, if_pos (by simp)]
  | cons ch mid ih =>
    have hrest := ih (fun d hd => hmid d (mem_cons_of_mem ch hd)) (before ++ [ch])
    have hsplit : before ++ [ch] ++ (mid ++ after) = before ++ (ch :: mid ++ after) := by simp
    have hlength : (before ++ [ch]).length = before.length + 1 := by simp
    have hcheck := hmid ch mem_cons_self
    rw [hsplit, hlength] at hrest
    rw [stringFind, if_neg (by simp), getElem?_append_right le_rfl, Nat.sub_self]
    simp only [cons_append, getElem?_cons_zero, hcheck, length_cons]
    rw [← Nat.add_assoc, Nat.add_right_comm]
    exact hrest

theorem stringFind_found (hmid : ∀ ch ∈ mid, check ch = false) (hch : check ch = true)
    (before after : List Char) {stop : ℕ} (hstop : before.length + mid.length < stop) :
    stringFind check (before ++ (mid ++ ch :: after)) before.length stop =
      before.length + mid.length := by
  induction mid generalizing before with
  | nil =>
    rw [stringFind, if_neg (by simpa using hstop), getElem?_append_right le_rfl,
      Nat.sub_self]
    simp [hch]
  | cons d mid ih =>
    have hrest := ih (fun e he => hmid e (mem_cons_of_mem d he)) (before ++ [d])
    have hsplit : before ++ [d] ++ (mid ++ ch :: after) = before ++ (d :: mid ++ ch :: after) := by
      simp
    have hlength : (before ++ [d]).length = before.length + 1 := by simp
    have hcheck := hmid d mem_cons_self
    rw [hsplit, hlength] at hrest
    rw [length_cons] at hstop ⊢
    rw [stringFind, if_neg (by omega), getElem?_append_right le_rfl, Nat.sub_self]
    simp only [cons_append, getElem?_cons_zero, hcheck]
    rw [← Nat.add_assoc, Nat.add_right_comm]
    exact hrest (by omega)

theorem stringTrimLeft_eq (check : Char → Bool) (str : List Char) :
    stringTrimLeft check str = str.dropWhile check := by
  have hfront : ∀ ch ∈ str.takeWhile check, (!check ch) = false := by
    intro ch hch
    have hall := all_takeWhile (p := check) (l := str)
    simpa using all_eq_true.mp hall ch hch
  have hsplit := takeWhile_append_dropWhile (p := check) (l := str)
  have hslice := slice_split (str.takeWhile check) (str.dropWhile check) []
  have hlength : str.length = (str.takeWhile check).length + (str.dropWhile check).length := by
    rw [← length_append, hsplit]
  rw [append_nil, hsplit, ← hlength] at hslice
  suffices hfind : stringFind (fun ch => !check ch) str 0 str.length =
      (str.takeWhile check).length by
    rw [stringTrimLeft, hfind, hslice]
  cases hrest : str.dropWhile check with
  | nil =>
    have hnone := stringFind_none hfront [] []
    rw [hrest, append_nil] at hsplit
    rw [hsplit] at hnone ⊢
    simpa using hnone
  | cons ch rest =>
    have hch : (!check ch) = true := by
      have hhead := head?_dropWhile_not check str
      rw [hrest] at hhead
      simpa using hhead
    have hfound := @stringFind_found ch (!check ·) _ hfront hch [] rest str.length
      (by rw [hlength, hrest]; simp)
    rw [← hrest] at hfound
    simpa [hsplit] using hfound

theorem stringFindRight_skip (hmid : ∀ ch ∈ mid, check ch = false) (before after : List Char) :
    stringFindRight check (before ++ (mid ++ after)) 0 (before.length + mid.length) =
      stringFindRight check (before ++ (mid ++ after)) 0 before.length := by
  induction mid generalizing before with
  | nil => rfl
  | cons ch mid ih =>
    have hrest := ih (fun d hd => hmid d (mem_cons_of_mem ch hd)) (before ++ [ch])
    have hsplit : before ++ [ch] ++ (mid ++ after) = before ++ (ch :: mid ++ after) := by simp
    have hcheck := hmid ch mem_cons_self
    have hlength : (before ++ [ch]).length = before.length + 1 := by simp
    rw [hsplit, hlength] at hrest
    rw [length_cons, ← Nat.add_assoc, Nat.add_right_comm, hrest, stringFindRight,
      if_neg (Nat.not_lt_zero _), if_neg]
    rw [getElem?_append_right le_rfl, Nat.sub_self]
    simp [hcheck]

theorem stringFindRight_found (hmid : ∀ ch ∈ mid, check ch = false) (hch : check ch = true)
    (before after : List Char) (hi : i = before.length + 1 + mid.length) :
    stringFindRight check (before ++ (ch :: mid ++ after)) 0 i = before.length + 1 := by
  have hskip := stringFindRight_skip hmid (before ++ [ch]) after
  have hsplit : before ++ [ch] ++ (mid ++ after) = before ++ (ch :: mid ++ after) := by simp
  have hlength : (before ++ [ch]).length = before.length + 1 := by simp
  rw [hsplit, hlength, ← hi] at hskip
  rw [hskip, stringFindRight, if_neg (Nat.not_lt_zero _), if_pos]
  rw [getElem?_append_right le_rfl, Nat.sub_self]
  simp [hch]

theorem stringFindRight_none (hmid : ∀ ch ∈ mid, check ch = false) (after : List Char) :
    stringFindRight check (mid ++ after) 0 mid.length = 0 := by
  have hskip := stringFindRight_skip hmid [] after
  rw [nil_append, length_nil, Nat.zero_add] at hskip
  rw [hskip, stringFindRight]

end ChibiScheme.CharString
