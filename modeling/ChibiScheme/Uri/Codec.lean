import ChibiScheme.Text.Cursor
import Mathlib.Data.Nat.Digits.Defs

/-!
# Escapes in URIs

`uri-encode` and `uri-decode`.  A character that is not safe is encoded by the
hexadecimal digits of its code point, at least two of them, while the decoder takes
exactly two digits.  So a string comes back exactly when its characters are below
256; one with more digits comes back longer than it was.
-/

namespace ChibiScheme.Uri

open CharString List

/-! ## The code -/

/-- `char-upcase`, which is C's `toupper`. -/
def charUpcase (ch : Char) : ℕ :=
  if 97 ≤ ch.toNat ∧ ch.toNat ≤ 122 then ch.toNat - 32 else ch.toNat

/-- `char-alphabetic?` of ASCII, by the upper-case letter. -/
def charAlphabetic (ch : Char) : Bool := 65 ≤ charUpcase ch && charUpcase ch ≤ 90

/-- `char-numeric?` of ASCII. -/
def charNumeric (ch : Char) : Bool := 48 ≤ ch.toNat && ch.toNat ≤ 57

/-- `uri-safe-char?`; the character 39 is the apostrophe. -/
def uriSafeChar (ch : Char) : Bool :=
  charAlphabetic ch || charNumeric ch ||
    ch ∈ ['-', '_', '.', '!', '~', '*', Char.ofNat 39, '(', ')']

/-- The digit of a number below 16. -/
def digitChar (n : ℕ) : Char :=
  if n ≤ 9 then Char.ofNat (n + 48) else Char.ofNat (n - 10 + 97)

/-- The loop of `number->string` in radix 16. -/
def hexLoop (n : ℕ) (res : List Char) : List Char :=
  if n > 0 then hexLoop (n / 16) (digitChar (n % 16) :: res)
  else if res = [] then ['0'] else res
termination_by n
decreasing_by omega

/-- `(number->string n 16)` of an index of a character. -/
def numberToString16 (n : ℕ) : List Char := hexLoop n []

/-- The number of a hexadecimal digit. -/
def hexValue (ch : Char) : Option ℕ :=
  if 48 ≤ ch.toNat ∧ ch.toNat ≤ 57 then some (ch.toNat - 48)
  else if 97 ≤ ch.toNat ∧ ch.toNat ≤ 102 then some (ch.toNat - 87)
  else if 65 ≤ ch.toNat ∧ ch.toNat ≤ 70 then some (ch.toNat - 55)
  else none

/-- `(string->number text 16)` of a text of digits.  No other text follows a `%` that
the encoder has written, and `none`, the answer `#f`, stands for all of them. -/
def stringToNumber16 (text : List Char) : Option ℕ :=
  text.foldl (fun value ch => do return 16 * (← value) + (← hexValue ch)) (some 0)

/-- `integer->char` -/
def integerToChar : Option ℕ → Except String Char
  | some n => .ok (Char.ofNat n)
  | none => .error "integer->char: not an integer"

/-- The local `encode-1-normal` of `uri-encode`. -/
def encode1Normal (ch : Char) : List Char :=
  let i := ch.toNat
  let hex := numberToString16 i
  if i < 16 then '%' :: '0' :: hex else '%' :: hex

/-- The local `encode-1-space` of `uri-encode`. -/
def encode1Space (ch : Char) : List Char := if ch = ' ' then ['+'] else encode1Normal ch

/-- The loop of `uri-encode`; `i` is the cursor `from` and `j` the cursor `to`. -/
def uriEncodeLoop (encode1 : Char → List Char) (str : List Char) (i j : ℕ)
    (res : List (List Char)) : List Char :=
  match hch : str[j]? with
  | none => if i ≤ 0 then str else concatenateReverse (collect str i j res)
  | some ch =>
    have hlt := (List.getElem?_eq_some_iff.mp hch).1
    if uriSafeChar ch then uriEncodeLoop encode1 str i (j + 1) res
    else uriEncodeLoop encode1 str (j + 1) (j + 1) (encode1 ch :: collect str i j res)
termination_by str.length - j

/-- `uri-encode`: `plus` chooses how a space is written. -/
def uriEncode (str : List Char) (plus : Bool) : List Char :=
  uriEncodeLoop (if plus then encode1Space else encode1Normal) str 0 0 []

/-- The loop of `uri-decode`; `i` is the cursor `from` and `j` the cursor `to`. -/
def uriDecodeLoop (plus : Bool) (str : List Char) (i j : ℕ) (res : List (List Char)) :
    Except String (List Char) :=
  match hch : str[j]? with
  | none => .ok (if i ≤ 0 then str else concatenateReverse (collect str i j res))
  | some ch =>
    have hlt := (List.getElem?_eq_some_iff.mp hch).1
    if ch = '%' then
      if str.length ≤ j + 1 then uriDecodeLoop plus str (j + 1) (j + 1) (collect str i j res)
      else if str.length ≤ j + 2 then
        uriDecodeLoop plus str (j + 2) (j + 2) (collect str i j res)
      else do
        let hex ← substringCursor str (j + 1) (j + 3)
        let decoded ← integerToChar (stringToNumber16 hex)
        uriDecodeLoop plus str (j + 3) (j + 3) ([decoded] :: collect str i j res)
    else if plus && ch == '+' then
      uriDecodeLoop plus str (j + 1) (j + 1) ([' '] :: collect str i j res)
    else uriDecodeLoop plus str i (j + 1) res
termination_by str.length - j

/-- `uri-decode`: `plus` chooses whether `+` is read as a space. -/
def uriDecode (str : List Char) (plus : Bool) : Except String (List Char) :=
  uriDecodeLoop plus str 0 0 []

variable {n : ℕ}

/-- The local `split-char?` of `uri-query->alist`. -/
def splitChar (ch : Char) : Bool := ch == '&' || ch == ';'

/-! ## Hexadecimal digits -/

theorem hexLoop_eq {res : List Char} (h : n ≠ 0 ∨ res ≠ []) :
    hexLoop n res = ((Nat.digits 16 n).map digitChar).reverse ++ res := by
  induction n using Nat.strong_induction_on generalizing res with
  | _ n ih =>
    rw [hexLoop]
    split
    · rename_i hpos
      rw [ih (n / 16) (by omega) (.inr (cons_ne_nil _ _)),
        Nat.digits_def' (by decide) hpos]
      simp
    · rename_i hzero
      have hn : n = 0 := by omega
      have hres : res ≠ [] := by
        rcases h with h | h
        · exact absurd hn h
        · exact h
      rw [if_neg hres, hn]
      simp

theorem hexValue_digitChar : ∀ d < 16, hexValue (digitChar d) = some d := by decide

theorem digitChar_plain : ∀ d < 16,
    digitChar d ≠ '%' ∧ digitChar d ≠ '+' ∧ splitChar (digitChar d) = false ∧
      (digitChar d == '=') = false := by
  decide

theorem numberToString16_small (hlt : n < 16) : numberToString16 n = [digitChar n] := by
  unfold numberToString16
  rcases Nat.eq_zero_or_pos n with hzero | hpos
  · rw [hzero, hexLoop]
    rfl
  · rw [hexLoop_eq (.inl hpos.ne'), Nat.digits_of_lt 16 n hpos.ne' hlt]
    rfl

theorem numberToString16_two (hlow : 16 ≤ n) (hhigh : n < 256) :
    numberToString16 n = [digitChar (n / 16), digitChar (n % 16)] := by
  unfold numberToString16
  rw [hexLoop_eq (.inl (by omega)), Nat.digits_def' (by decide) (by omega),
    Nat.digits_of_lt 16 (n / 16) (by omega) (by omega)]
  rfl

theorem numberToString16_many (hlow : 256 ≤ n) :
    ∃ a b c more, (∀ d ∈ a :: b :: c :: more, d < 16) ∧
      numberToString16 n = (a :: b :: c :: more).map digitChar := by
  have hdigits : numberToString16 n = (Nat.digits 16 n).reverse.map digitChar := by
    unfold numberToString16
    rw [hexLoop_eq (.inl (by omega)), append_nil, map_reverse]
  have hlength : 2 < (Nat.digits 16 n).reverse.length := by
    rw [length_reverse, Nat.digits_def' (by decide) (by omega),
      Nat.digits_def' (by decide) (by omega), Nat.digits_def' (by decide) (by omega)]
    simp
  have hlt : ∀ d ∈ (Nat.digits 16 n).reverse, d < 16 := fun d hd =>
    Nat.digits_lt_base (by decide) (mem_reverse.mp hd)
  match hlist : (Nat.digits 16 n).reverse with
  | a :: b :: c :: more =>
    rw [hlist] at hlt hdigits
    exact ⟨a, b, c, more, hlt, hdigits⟩
  | [] | [_] | [_, _] => simp [hlist] at hlength

/-! ## The encoder -/

/-- What the encoder writes for one character. -/
def encoded (plus : Bool) (ch : Char) : List Char :=
  if uriSafeChar ch then [ch] else (if plus then encode1Space else encode1Normal) ch

variable {j : ℕ} (plus : Bool) (str : List Char)

theorem uriEncodeLoop_eq {i : ℕ} {res : List (List Char)} (hle : i ≤ j)
    (hstart : i = 0 → res = []) :
    uriEncodeLoop (if plus then encode1Space else encode1Normal) str i j res =
      concatenateReverse res ++ slice str i j ++ (str.drop j).flatMap (encoded plus) := by
  fun_induction uriEncodeLoop (if plus then encode1Space else encode1Normal) str i j res with
  | case1 i j res hnone hzero =>
    have hdrop : str.drop j = [] := drop_eq_nil_of_le (List.getElem?_eq_none_iff.mp hnone)
    have htake : str.take j = str := take_of_length_le (List.getElem?_eq_none_iff.mp hnone)
    have hi : i = 0 := by omega
    rw [hstart hi, hdrop, slice, htake, hi]
    simp
  | case2 i j res hnone hzero =>
    have hdrop : str.drop j = [] := drop_eq_nil_of_le (List.getElem?_eq_none_iff.mp hnone)
    rw [hdrop, concatenateReverse_collect]
    simp
  | case3 i j res ch hch hlt hsafe ih =>
    have hdrop := drop_eq_getElem_cons hlt
    rw [(List.getElem?_eq_some_iff.mp hch).2] at hdrop
    rw [ih (by omega) hstart, hdrop, flatMap_cons, slice_succ hch hle, encoded,
      if_pos hsafe]
    simp only [append_assoc]
  | case4 i j res ch hch hlt hsafe ih =>
    have hdrop := drop_eq_getElem_cons hlt
    rw [(List.getElem?_eq_some_iff.mp hch).2] at hdrop
    rw [ih le_rfl (by omega), hdrop, flatMap_cons, concatenateReverse_cons,
      concatenateReverse_collect, slice_self, encoded, if_neg hsafe]
    simp only [append_assoc, append_nil]

theorem uriEncode_eq (plus : Bool) : uriEncode str plus = str.flatMap (encoded plus) := by
  rw [uriEncode, uriEncodeLoop_eq plus str le_rfl (fun _ => rfl), slice_self]
  rfl

variable {ch : Char}

theorem uriSafeChar_lt (hsafe : uriSafeChar ch = true) : ch.toNat < 256 := by
  unfold uriSafeChar charAlphabetic charUpcase charNumeric at hsafe
  simp only [Bool.or_eq_true, Bool.and_eq_true, decide_eq_true_eq] at hsafe
  rcases hsafe with (halpha | hnum) | hmark
  · split at halpha <;> omega
  · omega
  · simp only [mem_cons, not_mem_nil, or_false] at hmark
    rcases hmark with rfl | rfl | rfl | rfl | rfl | rfl | rfl | rfl | rfl <;> decide

theorem uriSafeChar_plain (hsafe : uriSafeChar ch = true) :
    ch ≠ '%' ∧ ch ≠ '+' ∧ splitChar ch = false ∧ (ch == '=') = false := by
  refine ⟨?_, ?_, ?_, ?_⟩
  · rintro rfl
    exact absurd hsafe (by decide)
  · rintro rfl
    exact absurd hsafe (by decide)
  · by_contra hsplit
    rw [Bool.not_eq_false, splitChar, Bool.or_eq_true, beq_iff_eq, beq_iff_eq] at hsplit
    rcases hsplit with rfl | rfl <;> exact absurd hsafe (by decide)
  · by_contra heq
    rw [Bool.not_eq_false, beq_iff_eq] at heq
    subst heq
    exact absurd hsafe (by decide)

/-- The code of a character that is encoded: a plus, or a percent sign and at least
two digits. -/
inductive Escape (ch : Char) : List Char → Prop
  | plus (hch : ch = ' ') : Escape ch ['+']
  | two {a b : ℕ} (ha : a < 16) (hb : b < 16) (hch : ch.toNat = 16 * a + b) :
      Escape ch ['%', digitChar a, digitChar b]
  | many {a b c : ℕ} {more : List ℕ} (hdigits : ∀ d ∈ a :: b :: c :: more, d < 16)
      (hch : 256 ≤ ch.toNat) : Escape ch ('%' :: (a :: b :: c :: more).map digitChar)

theorem encode1Normal_escape (ch : Char) : Escape ch (encode1Normal ch) := by
  unfold encode1Normal
  simp only
  split
  · rename_i hlt
    rw [numberToString16_small hlt]
    exact .two (a := 0) (b := ch.toNat) (by decide) hlt (by omega)
  · rename_i hge
    rcases Nat.lt_or_ge ch.toNat 256 with hlt | hmany
    · rw [numberToString16_two (by omega) hlt]
      exact .two (by omega) (by omega) (by omega)
    · obtain ⟨a, b, c, more, hdigits, htext⟩ := numberToString16_many hmany
      rw [htext]
      exact .many hdigits hmany

theorem encoded_cases (ch : Char) :
    (uriSafeChar ch = true ∧ encoded plus ch = [ch]) ∨
      (Escape ch (encoded plus ch) ∧ (encoded plus ch = ['+'] → plus = true)) := by
  unfold encoded
  split
  · rename_i hsafe
    exact .inl ⟨hsafe, rfl⟩
  · right
    cases plus with
    | false =>
      refine ⟨encode1Normal_escape ch, ?_⟩
      intro hplus
      simp only [Bool.false_eq_true, if_false] at hplus
      unfold encode1Normal at hplus
      simp only at hplus
      split at hplus <;> simp at hplus
    | true =>
      refine ⟨?_, fun _ => rfl⟩
      simp only [if_true, encode1Space]
      split
      · rename_i hspace
        exact .plus hspace
      · exact encode1Normal_escape ch

theorem encoded_plain (ch : Char) :
    ∀ c ∈ encoded plus ch, splitChar c = false ∧ (c == '=') = false := by
  have hdigits : ∀ ds : List ℕ, (∀ d ∈ ds, d < 16) →
      ∀ c ∈ ds.map digitChar, splitChar c = false ∧ (c == '=') = false := by
    intro ds hlt c hc
    obtain ⟨d, hd, rfl⟩ := mem_map.mp hc
    exact (digitChar_plain d (hlt d hd)).2.2
  rcases encoded_cases plus ch with ⟨hsafe, htext⟩ | ⟨hescape, -⟩
  · intro c hc
    rw [htext, mem_singleton] at hc
    rw [hc]
    exact (uriSafeChar_plain hsafe).2.2
  · generalize encoded plus ch = code at hescape
    cases hescape with
    | plus hch => simp [splitChar]
    | two ha hb hch =>
      intro c hc
      rcases mem_cons.mp hc with rfl | hc
      · decide
      · exact hdigits [_, _] (by simp [ha, hb]) c hc
    | many hlt hch =>
      intro c hc
      rcases mem_cons.mp hc with rfl | hc
      · decide
      · exact hdigits _ hlt c hc

theorem encoded_ne_nil (ch : Char) : encoded plus ch ≠ [] := by
  rcases encoded_cases plus ch with ⟨-, htext⟩ | ⟨hescape, -⟩
  · rw [htext]
    exact cons_ne_nil _ _
  · intro hnil
    rw [hnil] at hescape
    nomatch hescape

theorem uriEncode_plain (plus : Bool) :
    ∀ c ∈ uriEncode str plus, splitChar c = false ∧ (c == '=') = false := by
  intro c hc
  rw [uriEncode_eq, List.mem_flatMap] at hc
  obtain ⟨ch, -, hc⟩ := hc
  exact encoded_plain plus ch c hc

theorem uriEncode_ne_nil {str : List Char} (hne : str ≠ []) : uriEncode str plus ≠ [] := by
  obtain ⟨ch, rest, rfl⟩ := exists_cons_of_ne_nil hne
  rw [uriEncode_eq, flatMap_cons]
  intro hnil
  exact encoded_ne_nil plus ch (append_eq_nil_iff.mp hnil).1

/-! ## The decoder -/

/-- What the decoder makes of the characters it has not looked at. -/
def decodeTail (plus : Bool) : List Char → Except String (List Char)
  | [] => .ok []
  | '%' :: [] => .ok []
  | '%' :: _ :: [] => .ok []
  | '%' :: a :: b :: rest => do
      let decoded ← integerToChar (stringToNumber16 [a, b])
      let tail ← decodeTail plus rest
      return decoded :: tail
  | ch :: rest => do
      let tail ← decodeTail plus rest
      return (if plus && ch == '+' then ' ' else ch) :: tail

theorem decodeTail_plain (hne : ch ≠ '%') (rest : List Char) :
    decodeTail plus (ch :: rest) = do
      let tail ← decodeTail plus rest
      return (if plus && ch == '+' then ' ' else ch) :: tail := by
  rw [decodeTail]
  · rintro rfl
    exact absurd rfl hne
  · rintro _ rfl
    exact absurd rfl hne
  · rintro _ _ _ rfl
    exact absurd rfl hne

private theorem drop_of_getElem? {str : List Char} (hch : str[j]? = some ch) :
    str.drop j = ch :: str.drop (j + 1) := by
  obtain ⟨hlt, hget⟩ := List.getElem?_eq_some_iff.mp hch
  rw [drop_eq_getElem_cons hlt, hget]

theorem uriDecodeLoop_eq {i : ℕ} {res : List (List Char)} (hle : i ≤ j)
    (hstart : i = 0 → res = []) :
    uriDecodeLoop plus str i j res = do
      let tail ← decodeTail plus (str.drop j)
      return concatenateReverse res ++ slice str i j ++ tail := by
  fun_induction uriDecodeLoop plus str i j res with
  | case1 i j res hnone =>
    have hlen := List.getElem?_eq_none_iff.mp hnone
    rw [drop_eq_nil_of_le hlen, decodeTail]
    split
    · rename_i hzero
      have hi : i = 0 := by omega
      rw [hstart hi, slice, take_of_length_le hlen, hi]
      simp [pure, Except.pure, bind, Except.bind]
    · rw [concatenateReverse_collect]
      simp [pure, Except.pure, bind, Except.bind]
  | case2 i j res hnext hch hlt ih =>
    have hdrop : str.drop (j + 1) = [] := drop_eq_nil_of_le hnext
    -- the text ends behind the percent sign
    rw [ih le_rfl (by omega), drop_of_getElem? hch, hdrop, concatenateReverse_collect,
      slice_self]
    simp [decodeTail, pure, Except.pure, bind, Except.bind]
  | case3 i j res hnext hnext2 hch hlt ih =>
    have hdrop : str.drop (j + 2) = [] := drop_eq_nil_of_le hnext2
    have hsecond : str.drop (j + 1) = [str[j + 1]] := by
      rw [drop_eq_getElem_cons (by omega), hdrop]
    rw [ih le_rfl (by omega), drop_of_getElem? hch, hsecond, hdrop, concatenateReverse_collect,
      slice_self]
    simp [decodeTail, pure, Except.pure, bind, Except.bind]
  | case4 i j res hnext hnext2 hch hlt ih =>
    have hsecond : str.drop (j + 1) = str[j + 1] :: str.drop (j + 2) :=
      drop_eq_getElem_cons (by omega)
    have hthird : str.drop (j + 2) = str[j + 2] :: str.drop (j + 3) :=
      drop_eq_getElem_cons (by omega)
    -- the two digits behind the percent sign
    have hhex : substringCursor str (j + 1) (j + 3) = .ok [str[j + 1], str[j + 2]] := by
      have hsplit : str = str.take (j + 1) ++ ([str[j + 1], str[j + 2]] ++ str.drop (j + 3)) := by
        conv_lhs => rw [← take_append_drop (j + 1) str, hsecond, hthird]
        rfl
      have htake : (str.take (j + 1)).length = j + 1 := by
        rw [length_take]
        omega
      have hcut := substringCursor_split (str.take (j + 1)) [str[j + 1], str[j + 2]]
        (str.drop (j + 3))
      rw [← hsplit, htake] at hcut
      exact hcut
    rw [hhex, drop_of_getElem? hch, hsecond, hthird, decodeTail]
    simp only [pure, Except.pure, bind, Except.bind]
    cases integerToChar (stringToNumber16 [str[j + 1], str[j + 2]]) with
    | error message => rfl
    | ok decoded =>
      simp only
      rw [ih decoded le_rfl (by omega), concatenateReverse_cons, concatenateReverse_collect,
        slice_self]
      simp only [pure, Except.pure, bind, Except.bind]
      cases decodeTail plus (str.drop (j + 3)) with
      | error message => rfl
      | ok tail => simp
  | case5 i j res ch hch hlt hpercent hplus ih =>
    rw [ih le_rfl (by omega), drop_of_getElem? hch, decodeTail_plain plus hpercent,
      concatenateReverse_cons, concatenateReverse_collect, slice_self, if_pos hplus]
    simp only [pure, Except.pure, bind, Except.bind]
    cases decodeTail plus (str.drop (j + 1)) with
    | error message => rfl
    | ok tail => simp
  | case6 i j res ch hch hlt hpercent hplus ih =>
    rw [ih (by omega) hstart, drop_of_getElem? hch, decodeTail_plain plus hpercent,
      slice_succ hch hle, if_neg hplus]
    simp only [pure, Except.pure, bind, Except.bind]
    cases decodeTail plus (str.drop (j + 1)) with
    | error message => rfl
    | ok tail => simp

theorem uriDecode_eq (plus : Bool) : uriDecode str plus = decodeTail plus str := by
  rw [uriDecode, uriDecodeLoop_eq plus str le_rfl (fun _ => rfl), slice_self, drop_zero]
  cases decodeTail plus str <;> rfl

/-! ## Decoding what was encoded -/

theorem stringToNumber16_digits {a b : ℕ} (ha : a < 16) (hb : b < 16) :
    stringToNumber16 [digitChar a, digitChar b] = some (16 * a + b) := by
  simp [stringToNumber16, hexValue_digitChar a ha, hexValue_digitChar b hb]

theorem decodeTail_digits {ds : List ℕ} (hdigits : ∀ d ∈ ds, d < 16) (rest : List Char) :
    decodeTail plus (ds.map digitChar ++ rest) = do
      let tail ← decodeTail plus rest
      return ds.map digitChar ++ tail := by
  induction ds with
  | nil =>
    show decodeTail plus rest = _
    cases decodeTail plus rest <;> rfl
  | cons d ds ih =>
    obtain ⟨hpercent, hplus, -⟩ := digitChar_plain d (hdigits d mem_cons_self)
    rw [map_cons, cons_append, decodeTail_plain plus hpercent,
      ih fun e he => hdigits e (mem_cons_of_mem d he)]
    simp only [beq_eq_false_iff_ne.mpr hplus, Bool.and_false, Bool.false_eq_true, if_false]
    cases decodeTail plus rest <;> rfl

theorem decodeTail_small (hlt : ch.toNat < 256) (rest : List Char) :
    decodeTail plus (encoded plus ch ++ rest) = do
      let tail ← decodeTail plus rest
      return ch :: tail := by
  rcases encoded_cases plus ch with ⟨hsafe, htext⟩ | ⟨hescape, hplus⟩
  · obtain ⟨hpercent, hplus, -⟩ := uriSafeChar_plain hsafe
    rw [htext, singleton_append, decodeTail_plain plus hpercent]
    simp only [beq_eq_false_iff_ne.mpr hplus, Bool.and_false, Bool.false_eq_true, if_false]
  · generalize encoded plus ch = code at hescape hplus
    cases hescape with
    | plus hch =>
      rw [singleton_append, decodeTail_plain plus (by decide), hplus rfl, hch]
      rfl
    | two ha hb hch =>
      simp only [cons_append, nil_append, decodeTail,
        stringToNumber16_digits ha hb, ← hch, integerToChar, Char.ofNat_toNat]
      rfl
    | many hdigits hch => omega

theorem decodeTail_large (hge : 256 ≤ ch.toNat) :
    ∃ first second more, ∀ rest, decodeTail plus (encoded plus ch ++ rest) = do
      let tail ← decodeTail plus rest
      return first :: second :: more ++ tail := by
  rcases encoded_cases plus ch with ⟨hsafe, -⟩ | ⟨hescape, -⟩
  · have hlt := uriSafeChar_lt hsafe
    omega
  · generalize encoded plus ch = code at hescape
    cases hescape with
    | plus hch =>
      rw [hch] at hge
      exact absurd hge (by decide)
    | two ha hb hch => omega
    | @many a b c more hdigits hch =>
      refine ⟨Char.ofNat (16 * a + b), digitChar c, more.map digitChar, ?_⟩
      intro rest
      have hrest := @decodeTail_digits plus (c :: more)
        (fun d hd => hdigits d (mem_cons_of_mem a (mem_cons_of_mem b hd))) rest
      simp only [map_cons, cons_append] at hrest ⊢
      rw [decodeTail, stringToNumber16_digits (hdigits a (by simp)) (hdigits b (by simp)),
        hrest]
      cases decodeTail plus rest <;> rfl

theorem uriDecode_uriEncode (plus : Bool) :
    ∃ back, uriDecode (uriEncode str plus) plus = .ok back ∧ str.length ≤ back.length ∧
      (back = str ↔ ∀ ch ∈ str, ch.toNat < 256) := by
  rw [uriDecode_eq, uriEncode_eq]
  induction str with
  | nil => exact ⟨[], rfl, le_rfl, by simp⟩
  | cons ch str ih =>
    obtain ⟨back, hback, hlen, hiff⟩ := ih
    rw [flatMap_cons]
    rcases Nat.lt_or_ge ch.toNat 256 with hlt | hge
    · refine ⟨ch :: back, ?_, ?_, ?_⟩
      · rw [decodeTail_small plus hlt, hback]
        rfl
      · simpa using hlen
      · simp [hiff, hlt]
    · obtain ⟨first, second, more, hlarge⟩ := decodeTail_large plus hge
      refine ⟨first :: second :: more ++ back, ?_, ?_, ?_⟩
      · rw [hlarge, hback]
        rfl
      · simp only [cons_append, length_cons, length_append]
        omega
      · constructor
        · intro heq
          have hlength := congrArg List.length heq
          simp only [cons_append, length_cons, length_append] at hlength
          omega
        · intro hsmall
          have hch := hsmall ch mem_cons_self
          omega

end ChibiScheme.Uri
