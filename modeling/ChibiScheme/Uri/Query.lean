import ChibiScheme.Uri.Codec

/-!
# Queries of URIs

The translation between association lists and the query part of a URI,
`uri-alist->query` and `uri-query->alist`.  The reader of queries looks for the `=` of
a field up to the end of the field, but then compares what it found with the end of
the query; so a field without a value is read as a key only when it is the last one.
-/

namespace ChibiScheme.Uri

open CharString List

/-! ## The code -/

/-- A key with its value; `none` is the value `#f`. -/
abbrev Field := List Char × Option (List Char)

/-- The loop of `uri-query->alist`. -/
def uriQueryToAlistLoop (plus : Bool) (str : List Char) (i : ℕ) (res : List Field) :
    Except String (List Field) :=
  if hend : str.length ≤ i then .ok res.reverse
  else do
    let j := stringFind splitChar str i str.length
    have hle := le_stringFind splitChar str (not_le.mp hend).le
    let k := stringFind (· == '=') str i j
    let cell ←
      if k < str.length then do
        let key ← uriDecode (← substringCursor str i k) plus
        let value ← uriDecode (← substringCursor str (k + 1) j) plus
        pure (key, some value)
      else do
        let key ← uriDecode (← substringCursor str i j) plus
        pure (key, none)
    uriQueryToAlistLoop plus str (j + 1) (cell :: res)
termination_by str.length - i
decreasing_by omega

/-- `uri-query->alist` -/
def uriQueryToAlist (str : List Char) (plus : Bool) : Except String (List Field) :=
  uriQueryToAlistLoop plus str 0 []

/-- The local `encode` of `uri-alist->query`. -/
def encodeField (plus : Bool) (key : List Char) (val : Option (List Char))
    (res : List (List Char)) : List (List Char) :=
  let res := uriEncode key plus :: res
  match val with
  | some val => uriEncode val plus :: ['='] :: res
  | none => res

/-- The loop of `uri-alist->query`. -/
def uriAlistToQueryLoop (plus : Bool) (x : Field) : List Field → List (List Char) → List Char
  | [], res => concatenateReverse (encodeField plus x.1 x.2 res)
  | y :: ls, res => uriAlistToQueryLoop plus y ls (['&'] :: encodeField plus x.1 x.2 res)

/-- `uri-alist->query` -/
def uriAlistToQuery (ls : List Field) (plus : Bool) : List Char :=
  match ls with
  | [] => []
  | x :: ls => uriAlistToQueryLoop plus x ls []

/-! ## Writing a query -/

/-- The text of one field of a query. -/
def fieldText (plus : Bool) (x : Field) : List Char :=
  uriEncode x.1 plus ++ match x.2 with
    | some val => '=' :: uriEncode val plus
    | none => []

/-- The text of the fields behind the first. -/
def moreText (plus : Bool) : List Field → List Char
  | [] => []
  | x :: ls => '&' :: (fieldText plus x ++ moreText plus ls)

variable (plus : Bool) (x : Field)

theorem concatenateReverse_encodeField (res : List (List Char)) :
    concatenateReverse (encodeField plus x.1 x.2 res) =
      concatenateReverse res ++ fieldText plus x := by
  obtain ⟨key, val⟩ := x
  cases val with
  | none => simp [encodeField, fieldText]
  | some val => simp [encodeField, fieldText]

theorem uriAlistToQueryLoop_eq (ls : List Field) (res : List (List Char)) :
    uriAlistToQueryLoop plus x ls res =
      concatenateReverse res ++ (fieldText plus x ++ moreText plus ls) := by
  induction ls generalizing x res with
  | nil => simp [uriAlistToQueryLoop, concatenateReverse_encodeField, moreText]
  | cons y ls ih =>
    rw [uriAlistToQueryLoop, ih, concatenateReverse_cons, concatenateReverse_encodeField,
      moreText]
    simp

/-! ## Reading a query -/

/-- What becomes of a string that is encoded and decoded. -/
def recovered (plus : Bool) (str : List Char) : List Char :=
  (uriDecode (uriEncode str plus) plus).toOption.getD []

theorem uriDecode_recovered (str : List Char) :
    uriDecode (uriEncode str plus) plus = .ok (recovered plus str) := by
  obtain ⟨back, hback, -⟩ := uriDecode_uriEncode str plus
  rw [recovered, hback]
  rfl

theorem recovered_eq_iff (str : List Char) :
    recovered plus str = str ↔ ∀ ch ∈ str, ch.toNat < 256 := by
  obtain ⟨back, hback, -, hiff⟩ := uriDecode_uriEncode str plus
  rw [recovered, hback]
  exact hiff

theorem fieldText_split : ∀ c ∈ fieldText plus x, splitChar c = false := by
  obtain ⟨key, val⟩ := x
  intro c hc
  rcases mem_append.mp hc with hc | hc
  · exact (uriEncode_plain key plus c hc).1
  cases val with
  | none => simp at hc
  | some val =>
    rcases mem_cons.mp hc with rfl | hc
    · decide
    · exact (uriEncode_plain val plus c hc).1

section Reading

variable (plus : Bool) (before : List Char) (ls : List Field) (res : List Field)

variable (x : Field)

theorem stringFind_field :
    stringFind splitChar (before ++ (fieldText plus x ++ moreText plus ls)) before.length
        (before ++ (fieldText plus x ++ moreText plus ls)).length =
      before.length + (fieldText plus x).length := by
  cases ls with
  | nil =>
    have hnone := stringFind_none (fieldText_split plus x) before []
    simpa [moreText] using hnone
  | cons y ls =>
    apply stringFind_found (fieldText_split plus x) (by decide)
    simp only [moreText, length_append, length_cons]
    omega

theorem loop_some (key val : List Char) :
    let str := before ++ (fieldText plus (key, some val) ++ moreText plus ls)
    uriQueryToAlistLoop plus str before.length res =
      uriQueryToAlistLoop plus str
        (before.length + (fieldText plus (key, some val)).length + 1)
        ((recovered plus key, some (recovered plus val)) :: res) := by
  intro str
  have hfield : fieldText plus (key, some val) = uriEncode key plus ++ '=' :: uriEncode val plus :=
    rfl
  have hkey : str = before ++ (uriEncode key plus ++
      '=' :: (uriEncode val plus ++ moreText plus ls)) := by
    simp [str, hfield]
  have hval : str = (before ++ uriEncode key plus ++ ['=']) ++
      (uriEncode val plus ++ moreText plus ls) := by
    simp [str, hfield]
  have hlen : (fieldText plus (key, some val)).length =
      (uriEncode key plus).length + 1 + (uriEncode val plus).length := by
    rw [hfield, length_append, length_cons]
    omega
  have htotal : str.length = before.length + (fieldText plus (key, some val)).length +
      (moreText plus ls).length := by
    simp only [str, length_append]
    omega
  have hj := stringFind_field plus before ls (key, some val)
  have hk : stringFind (· == '=') str before.length
      (before.length + (fieldText plus (key, some val)).length) =
        before.length + (uriEncode key plus).length := by
    rw [hkey]
    apply stringFind_found (fun c hc => (uriEncode_plain key plus c hc).2) (by decide)
    omega
  have hfirst : substringCursor str before.length
      (before.length + (uriEncode key plus).length) = .ok (uriEncode key plus) := by
    rw [hkey]
    exact substringCursor_split _ _ _
  have hsecond : substringCursor str (before.length + (uriEncode key plus).length + 1)
      (before.length + (fieldText plus (key, some val)).length) = .ok (uriEncode val plus) := by
    have hcut := substringCursor_split (before ++ uriEncode key plus ++ ['='])
      (uriEncode val plus) (moreText plus ls)
    rw [← hval] at hcut
    simp only [length_append, length_singleton] at hcut
    rw [hlen, ← Nat.add_assoc, ← Nat.add_assoc]
    exact hcut
  rw [uriQueryToAlistLoop, dif_neg (by omega)]
  simp only [str] at hj hk hfirst hsecond htotal ⊢
  simp only [hj, hk]
  rw [if_pos (by omega)]
  simp only [hfirst, hsecond, bind, Except.bind, pure, Except.pure, uriDecode_recovered]

theorem key_alone (key after : List Char) {str : List Char}
    (hstr : str = before ++ (uriEncode key plus ++ after)) :
    let stop := before.length + (uriEncode key plus).length
    stringFind (· == '=') str before.length stop = stop ∧
      substringCursor str before.length stop = .ok (uriEncode key plus) := by
  intro stop
  rw [hstr]
  constructor
  · exact stringFind_none (fun c hc => (uriEncode_plain key plus c hc).2) _ _
  · exact substringCursor_split _ _ _

theorem loop_last_none (key : List Char) (hkey : key ≠ []) :
    let str := before ++ (fieldText plus (key, none) ++ moreText plus [])
    uriQueryToAlistLoop plus str before.length res =
      uriQueryToAlistLoop plus str (before.length + (fieldText plus (key, none)).length + 1)
        ((recovered plus key, none) :: res) := by
  intro str
  have hfield : fieldText plus (key, none) = uriEncode key plus := append_nil _
  have hstr : str = before ++ (uriEncode key plus ++ []) := by
    simp [str, hfield, moreText]
  have hpos : 0 < (uriEncode key plus).length :=
    length_pos_iff.mpr (uriEncode_ne_nil plus hkey)
  have htotal : str.length = before.length + (uriEncode key plus).length := by
    rw [hstr, append_nil, length_append]
  have hj := stringFind_field plus before [] (key, none)
  obtain ⟨hk, hfirst⟩ := key_alone plus before key _ hstr
  rw [uriQueryToAlistLoop, dif_neg (by omega)]
  rw [hfield] at hj ⊢
  simp only [str, hfield] at hk hfirst htotal ⊢
  simp only [hj, hk]
  rw [if_neg (by omega)]
  simp only [hfirst, bind, Except.bind, pure, Except.pure, uriDecode_recovered]

/-- A field without a value before the last one: the end of the field is taken for
its `=`, and its value would end before it starts. -/
theorem loop_inner_none (key : List Char) (y : Field) :
    uriQueryToAlistLoop plus (before ++ (fieldText plus (key, none) ++ moreText plus (y :: ls)))
      before.length res = .error "bad index range" := by
  set str := before ++ (fieldText plus (key, none) ++ moreText plus (y :: ls)) with hdef
  have hfield : fieldText plus (key, none) = uriEncode key plus := append_nil _
  have hstr : str = before ++ (uriEncode key plus ++ moreText plus (y :: ls)) := by
    rw [hdef, hfield]
  have htotal : before.length + (uriEncode key plus).length < str.length := by
    rw [hstr]
    simp only [length_append, moreText, length_cons]
    omega
  have hj := stringFind_field plus before (y :: ls) (key, none)
  obtain ⟨hk, hfirst⟩ := key_alone plus before key _ hstr
  have hsecond : substringCursor str (before.length + (uriEncode key plus).length + 1)
      (before.length + (uriEncode key plus).length) = .error "bad index range" := by
    rw [substringCursor, if_pos (.inr (.inr (Nat.lt_succ_self _)))]
  rw [← hdef, hfield] at hj
  rw [uriQueryToAlistLoop, dif_neg (by omega)]
  simp only [hj, hk]
  rw [if_pos htotal]
  simp only [hfirst, hsecond, bind, Except.bind, uriDecode_recovered]

/-- The field that is read for `x`. -/
def recoveredField (x : Field) : Field := (recovered plus x.1, x.2.map (recovered plus))

theorem loop_field (hkey : x.1 ≠ []) (hval : x.2 ≠ none ∨ ls = []) :
    let str := before ++ (fieldText plus x ++ moreText plus ls)
    uriQueryToAlistLoop plus str before.length res =
      uriQueryToAlistLoop plus str (before.length + (fieldText plus x).length + 1)
        (recoveredField plus x :: res) := by
  obtain ⟨key, val⟩ := x
  cases val with
  | some val => exact loop_some plus before ls res key val
  | none =>
    have hls : ls = [] := by
      rcases hval with hval | hls
      · exact absurd rfl hval
      · exact hls
    rw [hls]
    exact loop_last_none plus before res key hkey

private theorem next_split (y : Field) :
    before ++ (fieldText plus x ++ moreText plus (y :: ls)) =
        (before ++ (fieldText plus x ++ ['&'])) ++ (fieldText plus y ++ moreText plus ls) ∧
      (before ++ (fieldText plus x ++ ['&'])).length =
        before.length + (fieldText plus x).length + 1 := by
  constructor
  · simp [moreText]
  · simp only [length_append, length_singleton]
    omega

theorem loop_eq_ok (hkeys : ∀ y ∈ x :: ls, y.1 ≠ [])
    (hvals : ∀ y ∈ (x :: ls).dropLast, y.2 ≠ none) :
    uriQueryToAlistLoop plus (before ++ (fieldText plus x ++ moreText plus ls)) before.length res =
      .ok (res.reverse ++ (x :: ls).map (recoveredField plus)) := by
  induction ls generalizing before x res with
  | nil =>
    rw [loop_field plus before [] res x (hkeys x mem_cons_self) (.inr rfl),
      uriQueryToAlistLoop, dif_pos]
    · simp
    · simp only [moreText, append_nil, length_append]
      omega
  | cons y ls ih =>
    rw [dropLast_cons_cons] at hvals
    rw [loop_field plus before (y :: ls) res x (hkeys x mem_cons_self)
      (.inl (hvals x mem_cons_self))]
    obtain ⟨hsplit, hlength⟩ := next_split plus before ls x y
    rw [hsplit, ← hlength, ih _ _ y (fun z hz => hkeys z (mem_cons_of_mem x hz))
      (fun z hz => hvals z (mem_cons_of_mem x hz))]
    simp

theorem loop_eq_error (hkeys : ∀ y ∈ x :: ls, y.1 ≠ [])
    (hnone : ∃ y ∈ (x :: ls).dropLast, y.2 = none) :
    uriQueryToAlistLoop plus (before ++ (fieldText plus x ++ moreText plus ls)) before.length res =
      .error "bad index range" := by
  induction ls generalizing before x res with
  | nil => simp at hnone
  | cons y ls ih =>
    rw [dropLast_cons_cons] at hnone
    by_cases hval : x.2 = none
    · obtain ⟨key, val⟩ := x
      simp only at hval
      rw [hval]
      exact loop_inner_none plus before ls res key y
    · have hrest : ∃ z ∈ (y :: ls).dropLast, z.2 = none := by
        obtain ⟨z, hz, hznone⟩ := hnone
        rcases mem_cons.mp hz with rfl | hz
        · exact absurd hznone hval
        · exact ⟨z, hz, hznone⟩
      rw [loop_field plus before (y :: ls) res x (hkeys x mem_cons_self) (.inl hval)]
      obtain ⟨hsplit, hlength⟩ := next_split plus before ls x y
      rw [hsplit, ← hlength]
      exact ih _ _ y (fun z hz => hkeys z (mem_cons_of_mem x hz)) hrest

end Reading

theorem uriAlistToQuery_cons (ls : List Field) :
    uriAlistToQuery (x :: ls) plus = [] ++ (fieldText plus x ++ moreText plus ls) := by
  rw [uriAlistToQuery, uriAlistToQueryLoop_eq]
  rfl

theorem recoveredField_eq_iff :
    recoveredField plus x = x ↔
      (∀ ch ∈ x.1, ch.toNat < 256) ∧ ∀ val ∈ x.2, ∀ ch ∈ val, ch.toNat < 256 := by
  obtain ⟨key, val⟩ := x
  rw [recoveredField, Prod.mk.injEq, recovered_eq_iff]
  cases val with
  | none => simp
  | some val => simp [recovered_eq_iff]

theorem map_recoveredField_eq_iff (ls : List Field) :
    ls.map (recoveredField plus) = ls ↔ ∀ x ∈ ls, recoveredField plus x = x := by
  induction ls with
  | nil => simp
  | cons x ls ih => simp [ih]

/-- A query comes back exactly when every character is below 256 and every field but
the last has a value, and an encoded string exactly when its characters are below
256. -/
theorem query_roundTrip_iff (plus : Bool) :
    (∀ ls : List Field, (∀ x ∈ ls, x.1 ≠ []) →
        (uriQueryToAlist (uriAlistToQuery ls plus) plus = .ok ls ↔
          (∀ x ∈ ls, (∀ ch ∈ x.1, ch.toNat < 256) ∧ ∀ val ∈ x.2, ∀ ch ∈ val, ch.toNat < 256) ∧
            ∀ x ∈ ls.dropLast, x.2 ≠ none)) ∧
      ∀ str : List Char, uriDecode (uriEncode str plus) plus = .ok str ↔
        ∀ ch ∈ str, ch.toNat < 256 := by
  constructor
  · intro ls hkeys
    cases ls with
    | nil =>
      rw [uriAlistToQuery, uriQueryToAlist, uriQueryToAlistLoop]
      simp
    | cons x ls =>
      rw [uriAlistToQuery_cons, uriQueryToAlist]
      by_cases hvals : ∀ y ∈ (x :: ls).dropLast, y.2 ≠ none
      · have hok := loop_eq_ok plus [] ls [] x hkeys hvals
        rw [length_nil] at hok
        rw [hok, reverse_nil, nil_append, Except.ok.injEq, map_recoveredField_eq_iff]
        simp only [recoveredField_eq_iff]
        exact ⟨fun hsmall => ⟨hsmall, hvals⟩, fun hboth => hboth.1⟩
      · have hnone : ∃ y ∈ (x :: ls).dropLast, y.2 = none := by
          simpa using hvals
        have herror := loop_eq_error plus [] ls [] x hkeys hnone
        rw [length_nil] at herror
        rw [herror]
        exact ⟨fun heq => (nomatch heq), fun hboth => absurd hboth.2 hvals⟩
  · intro str
    rw [uriDecode_recovered, Except.ok.injEq]
    exact recovered_eq_iff plus str

/-- Two fields whose characters are all below 256. -/
theorem query_roundTrip_iff_fields :
    (∀ x ∈ [("a b".toList, some "1&2".toList), ("c".toList, none)], x.1 ≠ []) ∧
      (uriQueryToAlist (uriAlistToQuery
          [("a b".toList, some "1&2".toList), ("c".toList, none)] true) true =
        .ok [("a b".toList, some "1&2".toList), ("c".toList, none)]) := by
  refine ⟨by decide, ((query_roundTrip_iff true).1 _ (by decide)).mpr ?_⟩
  simp

/-- A key without a value before another key, and a character beyond 255. -/
theorem query_lost :
    uriQueryToAlist (uriAlistToQuery [("a".toList, none), ("b".toList, some "1".toList)] false)
        false ≠ .ok [("a".toList, none), ("b".toList, some "1".toList)] ∧
      uriDecode (uriEncode [Char.ofNat 955] false) false ≠ .ok [Char.ofNat 955] := by
  decide +kernel

end ChibiScheme.Uri
