import Mathlib

/-!
# CSV grammars, readers and writers

The reader takes a port, given here by the characters that it has left, and reads one
record from it.  An error of the reader or of the writer is `none`.
-/

namespace ChibiScheme.Csv

open List Option

/-! ## Grammars -/

/-- What an option for a single character can be set to. -/
inductive Setting where
  | no
  | char (ch : Char)
  | symbol (name : String)
  deriving DecidableEq

/-- A `Csv-Grammar`. -/
structure Grammar where
  separatorChars : List Char
  quoteChar : Setting
  quoteDoublingEscapes : Bool
  escapeChar : Setting
  recordSeparator : Setting
  commentChars : List Char
  quoteNonNumeric : Bool
  parseNumeric : Bool
  deriving DecidableEq

/-- The grammar that `csv-grammar` starts with. -/
def defaultCsvGrammar : Grammar :=
  ⟨[','], .char (Char.ofNat 34), true, .no, .symbol "lax", [], false, false⟩

/-- An entry of the list given to `csv-grammar`. -/
inductive Entry where
  | separatorChars (chars : List Char)
  | quoteChar (ch : Setting)
  | quoteDoublingEscapes (on : Bool)
  | escapeChar (ch : Setting)
  | recordSeparator (sep : Setting)
  | commentChars (chars : List Char)
  | quoteNonNumeric (on : Bool)
  | parseNumeric (on : Bool)
  deriving DecidableEq

/-- The local `rec-sep` of `csv-grammar`. -/
def recSep : Setting → Option Setting
  | .symbol "crlf" => some (.symbol "crlf")
  | .symbol "lax" => some (.symbol "lax")
  | .symbol "cr" => some (.char '\r')
  | .symbol "lf" => some (.char '\n')
  | .char ch => some (.char ch)
  | _ => none

/-- What `csv-grammar` does with an entry.  For a record separator it computes `rec-sep`,
and then sets the escape character. -/
def Grammar.set (grammar : Grammar) : Entry → Option Grammar
  | .separatorChars chars => some { grammar with separatorChars := chars }
  | .quoteChar ch => some { grammar with quoteChar := ch }
  | .quoteDoublingEscapes on => some { grammar with quoteDoublingEscapes := on }
  | .escapeChar ch => some { grammar with escapeChar := ch }
  | .recordSeparator sep => (recSep sep).map fun _ => { grammar with escapeChar := sep }
  | .commentChars chars => some { grammar with commentChars := chars }
  | .quoteNonNumeric on => some { grammar with quoteNonNumeric := on }
  | .parseNumeric on => some { grammar with parseNumeric := on }

/-- `csv-grammar`: the default grammar with the entries of the specification set in order. -/
def csvGrammar (spec : List Entry) : Option Grammar := spec.foldlM Grammar.set defaultCsvGrammar

/-! ## The reader -/

section Reader

variable {N α β : Type} (stringToNumber : List Char → Option N) (grammar : Grammar)

/-- `csv-read-quoted`, with what `out` has got so far; a character that is escaped has to
be there. -/
def csvReadQuoted : List Char → List Char → Option (List Char × List Char)
  | _, [] => none
  | out, ch :: rest =>
    if grammar.quoteChar = .char ch then
      match rest with
      | [] => some (out, [])
      | next :: rest =>
        if grammar.quoteDoublingEscapes ∧ next = ch then csvReadQuoted (out ++ [next]) rest
        else some (out, next :: rest)
    else if grammar.escapeChar = .char ch then
      match rest with
      | [] => none
      | next :: rest => csvReadQuoted (out ++ [next]) rest
    else csvReadQuoted (out ++ [ch]) rest

/-- What is left after a record separator, if the character starts one. -/
def recordEnd (ch : Char) (rest : List Char) : Option (List Char) :=
  if grammar.recordSeparator = .char ch then some rest
  else if ch = '\r' ∧ (grammar.recordSeparator = .symbol "crlf" ∨
      grammar.recordSeparator = .symbol "lax") then
    if rest.head? = some '\n' then some rest.tail
    else if grammar.recordSeparator = .symbol "lax" then some rest
    else none
  else if ch = '\n' ∧ grammar.recordSeparator = .symbol "lax" then some rest
  else none

/-- `csv-skip-line`: what follows the end of the record. -/
def csvSkipLine : List Char → List Char
  | [] => []
  | ch :: rest => (recordEnd grammar ch rest).getD (csvSkipLine rest)

/-- A field as the parser gives it on. -/
inductive Field (N : Type) where
  | text (chars : List Char)
  | number (n : N)
  deriving DecidableEq

/-- The empty string. -/
def Field.isEmpty : Field N → Bool
  | .text [] => true
  | _ => false

/-- `get-field`: a field as text or number, as the grammar asks; the first field of an empty line is
empty text. -/
def getField (index : ℕ) (quoted : Bool) (field : List Char) : Option (Field N) :=
  if index = 0 ∧ field = [] then some (.text field)
  else if grammar.quoteNonNumeric ∧ !quoted then (stringToNumber field).map .number
  else if grammar.parseNumeric ∧ !quoted then
    some (((stringToNumber field).map .number).getD (.text field))
  else some (.text field)

theorem csvReadQuoted_char {out rest : List Char} {ch : Char}
    (hquote : grammar.quoteChar ≠ .char ch) (hescape : grammar.escapeChar ≠ .char ch) :
    csvReadQuoted grammar out (ch :: rest) = csvReadQuoted grammar (out ++ [ch]) rest := by
  rw [csvReadQuoted.eq_def]
  simp only [if_neg hquote, if_neg hescape]

theorem csvReadQuoted_length (out input : List Char) :
    ∀ out' rest, csvReadQuoted grammar out input = some (out', rest) →
      rest.length < input.length := by
  induction out, input using csvReadQuoted.induct grammar with
  | case1 out =>
    intro out' rest hread
    simp [csvReadQuoted] at hread
  | case2 out ch hquote =>
    intro out' rest hread
    simp only [csvReadQuoted, if_pos hquote] at hread
    cases hread
    exact Nat.zero_lt_one
  | case3 out ch hquote next rest' hdouble ih =>
    intro out' rest hread
    simp only [csvReadQuoted, if_pos hquote, if_pos hdouble] at hread
    have hlt := ih out' rest hread
    simp only [length_cons]
    omega
  | case4 out ch hquote next rest' hdouble =>
    intro out' rest hread
    simp only [csvReadQuoted, if_pos hquote, if_neg hdouble] at hread
    cases hread
    simp only [length_cons]
    omega
  | case5 out ch hquote hescape =>
    intro out' rest hread
    simp only [csvReadQuoted, if_neg hquote, if_pos hescape] at hread
    exact nomatch hread
  | case6 out ch hquote hescape next rest' ih =>
    intro out' rest hread
    simp only [csvReadQuoted, if_neg hquote, if_pos hescape] at hread
    have hlt := ih out' rest hread
    simp only [length_cons]
    omega
  | case7 out ch rest' hquote hescape ih =>
    intro out' rest hread
    rw [csvReadQuoted_char grammar hquote hescape] at hread
    have hlt := ih out' rest hread
    simp only [length_cons]
    omega

theorem recordEnd_length (ch : Char) (rest : List Char) {rest' : List Char}
    (hend : recordEnd grammar ch rest = some rest') : rest'.length ≤ rest.length := by
  have htail : rest.tail.length ≤ rest.length := by
    rw [length_tail]
    exact Nat.sub_le _ _
  unfold recordEnd at hend
  split_ifs at hend <;> cases hend
  all_goals first
    | exact le_rfl
    | exact htail

theorem csvSkipLine_length (ch : Char) (rest : List Char) :
    (csvSkipLine grammar (ch :: rest)).length ≤ rest.length := by
  induction rest generalizing ch with
  | nil =>
    cases hend : recordEnd grammar ch [] with
    | none => simp [csvSkipLine, hend]
    | some rest =>
      simp only [csvSkipLine, hend, getD_some]
      exact recordEnd_length grammar ch [] hend
  | cons next rest ih =>
    cases hend : recordEnd grammar ch (next :: rest) with
    | none =>
      rw [csvSkipLine, hend, getD_none]
      exact (ih next).trans (Nat.le_succ _)
    | some rest' =>
      rw [csvSkipLine, hend, getD_some]
      exact recordEnd_length grammar ch _ hend

/-- The lines that are skipped before a record. -/
def skipComments : List Char → List Char
  | [] => []
  | ch :: rest =>
    if ch ∈ grammar.commentChars then skipComments (csvSkipLine grammar (ch :: rest))
    else ch :: rest
termination_by input => input.length
decreasing_by exact Nat.lt_succ_of_le (csvSkipLine_length grammar ch rest)

/-- The loop of `csv-parser`, which gives the accumulated value, or `none` for the
end-of-file object, and what is left of the input. -/
def parserLoop (kons : α → ℕ → Field N → α) (acc : α) (index : ℕ) (quoted : Bool)
    (out : List Char) : List Char → Option (Option α × List Char)
  | [] =>
    (getField stringToNumber grammar index quoted out).map fun field =>
      if index = 0 ∧ field.isEmpty then (none, []) else (some (kons acc index field), [])
  | ch :: rest =>
    if ch ∈ grammar.separatorChars then
      (getField stringToNumber grammar index quoted out).bind fun field =>
        parserLoop kons (kons acc index field) (index + 1) false [] rest
    else if grammar.quoteChar = .char ch then
      match _h_read : csvReadQuoted grammar out rest with
      | none => none
      | some (out, rest) => parserLoop kons acc index true out rest
    else
      match _h_end : recordEnd grammar ch rest with
      | some rest =>
        (getField stringToNumber grammar index quoted out).bind fun field =>
          -- an empty row, read again
          if index = 0 ∧ field.isEmpty then parserLoop kons acc index false out rest
          else some (some (kons acc index field), rest)
      | none =>
        -- a return with no newline is counted as a field where both are needed
        let counted := ch = '\r' ∧ grammar.recordSeparator = .symbol "crlf"
        parserLoop kons acc (if counted then index + 1 else index) quoted (out ++ [ch]) rest
termination_by input => input.length
decreasing_by
  · exact Nat.lt_succ_self _
  · exact (csvReadQuoted_length grammar _ _ _ _ _h_read).trans (Nat.lt_succ_self _)
  · exact Nat.lt_succ_of_le (recordEnd_length grammar ch _ _h_end)
  · exact Nat.lt_succ_self _

variable {kons : α → ℕ → Field N → α} {acc : α} {index : ℕ} {quoted : Bool} {out : List Char}
  {ch : Char} {rest : List Char}

theorem parserLoop_separator (hsep : ch ∈ grammar.separatorChars) :
    parserLoop stringToNumber grammar kons acc index quoted out (ch :: rest) =
      (getField stringToNumber grammar index quoted out).bind fun field =>
        parserLoop stringToNumber grammar kons (kons acc index field) (index + 1) false []
          rest := by
  rw [parserLoop, if_pos hsep]

theorem parserLoop_quote (hsep : ch ∉ grammar.separatorChars)
    (hquote : grammar.quoteChar = .char ch) :
    parserLoop stringToNumber grammar kons acc index quoted out (ch :: rest) =
      (csvReadQuoted grammar out rest).bind fun p =>
        parserLoop stringToNumber grammar kons acc index true p.1 p.2 := by
  rw [parserLoop, if_neg hsep, if_pos hquote]
  cases csvReadQuoted grammar out rest with
  | none => rfl
  | some p => rfl

theorem parserLoop_end (hsep : ch ∉ grammar.separatorChars)
    (hquote : grammar.quoteChar ≠ .char ch) {rest' : List Char}
    (hend : recordEnd grammar ch rest = some rest') :
    parserLoop stringToNumber grammar kons acc index quoted out (ch :: rest) =
      (getField stringToNumber grammar index quoted out).bind fun field =>
        if index = 0 ∧ field.isEmpty then
          parserLoop stringToNumber grammar kons acc index false out rest'
        else some (some (kons acc index field), rest') := by
  rw [parserLoop, if_neg hsep, if_neg hquote]
  split
  next rest'' hsome =>
    cases hend.symm.trans hsome
    rfl
  next hnone => exact nomatch hend.symm.trans hnone

theorem parserLoop_char (hsep : ch ∉ grammar.separatorChars)
    (hquote : grammar.quoteChar ≠ .char ch) (hend : recordEnd grammar ch rest = none) :
    parserLoop stringToNumber grammar kons acc index quoted out (ch :: rest) =
      parserLoop stringToNumber grammar kons acc
        (if ch = '\r' ∧ grammar.recordSeparator = .symbol "crlf" then index + 1 else index)
        quoted (out ++ [ch]) rest := by
  rw [parserLoop, if_neg hsep, if_neg hquote]
  split
  next rest'' hsome => exact nomatch hend.symm.trans hsome
  next hnone => rfl

theorem parserLoop_length (n : ℕ) :
    ∀ input : List Char, input.length ≤ n → ∀ acc index quoted out a rest,
      parserLoop stringToNumber grammar kons acc index quoted out input = some (some a, rest) →
      rest.length ≤ input.length - 1 := by
  induction n with
  | zero =>
    intro input hlen acc index quoted out a rest hloop
    cases length_eq_zero_iff.mp (Nat.le_zero.mp hlen)
    rw [parserLoop, map_eq_some_iff] at hloop
    obtain ⟨field, _, heq⟩ := hloop
    split_ifs at heq <;> cases heq
    exact le_rfl
  | succ n ih =>
    intro input hlen acc index quoted out a rest hloop
    cases input with
    | nil => exact ih [] (Nat.zero_le n) acc index quoted out a rest hloop
    | cons ch input =>
      simp only [length_cons, Nat.add_le_add_iff_right, Nat.add_sub_cancel] at hlen ⊢
      -- what is read after the first character moves on as well
      have hrest : ∀ (input' : List Char) acc index quoted out,
          input'.length ≤ input.length →
          parserLoop stringToNumber grammar kons acc index quoted out input' =
            some (some a, rest) → rest.length ≤ input.length := by
        intro input' acc index quoted out hle hloop
        have hlt := ih input' (hle.trans hlen) acc index quoted out a rest hloop
        omega
      by_cases hsep : ch ∈ grammar.separatorChars
      · rw [parserLoop_separator _ _ hsep] at hloop
        obtain ⟨field, _, hloop⟩ := bind_eq_some_iff.mp hloop
        exact hrest _ _ _ _ _ le_rfl hloop
      by_cases hquote : grammar.quoteChar = .char ch
      · rw [parserLoop_quote _ _ hsep hquote] at hloop
        obtain ⟨p, hread, hloop⟩ := bind_eq_some_iff.mp hloop
        have hlt := csvReadQuoted_length grammar _ _ _ _ hread
        exact hrest _ _ _ _ _ hlt.le hloop
      cases hend : recordEnd grammar ch input with
      | none =>
        rw [parserLoop_char _ _ hsep hquote hend] at hloop
        exact hrest _ _ _ _ _ le_rfl hloop
      | some rest' =>
        rw [parserLoop_end _ _ hsep hquote hend] at hloop
        have hle := recordEnd_length grammar ch input hend
        obtain ⟨field, _, hloop⟩ := bind_eq_some_iff.mp hloop
        split_ifs at hloop
        · exact hrest _ _ _ _ _ hle hloop
        · cases hloop
          exact hle

/-- `csv-parser`: comments are skipped, then one record is read. -/
def csvParser (kons : α → ℕ → Field N → α) (knil : α) (input : List Char) :
    Option (Option α × List Char) :=
  parserLoop stringToNumber grammar kons knil 0 false [] (skipComments grammar input)

/-- `csv-read->list` -/
def csvReadList (input : List Char) : Option (Option (List (Field N)) × List Char) :=
  (csvParser stringToNumber grammar (fun ls _ field => field :: ls) [] input).map
    fun (res, rest) => (res.map List.reverse, rest)

theorem skipComments_length (input : List Char) :
    (skipComments grammar input).length ≤ input.length := by
  induction input using skipComments.induct grammar with
  | case1 =>
    rw [skipComments]
  | case2 ch rest hcomment ih =>
    rw [skipComments, if_pos hcomment]
    exact ih.trans ((csvSkipLine_length grammar ch rest).trans (Nat.le_succ _))
  | case3 ch rest hcomment =>
    rw [skipComments, if_neg hcomment]

theorem csvReadList_length {input rest : List Char} {row : List (Field N)}
    (hread : csvReadList stringToNumber grammar input = some (some row, rest)) :
    rest.length < input.length := by
  obtain ⟨p, hparse, heq⟩ := map_eq_some_iff.mp hread
  obtain ⟨res, rest'⟩ := p
  cases res with
  | none => exact nomatch heq
  | some res =>
    cases heq
    have hskip := skipComments_length grammar input
    have hloop := parserLoop_length stringToNumber grammar _ _ le_rfl _ _ _ _ _ _ hparse
    cases hstart : skipComments grammar input with
    | nil =>
      -- at the end of the input there is no record
      rw [csvParser, hstart, parserLoop] at hparse
      simp [getField, Field.isEmpty] at hparse
    | cons ch input' =>
      rw [hstart] at hskip hloop
      simp only [length_cons] at hskip hloop
      omega

/-- `csv-fold`: one record after the other until the end of the input. -/
def csvFold (proc : List (Field N) → β → β) (acc : β) (input : List Char) : Option β :=
  match _h_read : csvReadList stringToNumber grammar input with
  | none => none
  | some (none, _) => some acc
  | some (some row, rest) => csvFold proc (proc row acc) rest
termination_by input.length
decreasing_by exact csvReadList_length stringToNumber grammar _h_read

/-- `csv->list` -/
def csvToList (input : List Char) : Option (List (List (Field N))) :=
  (csvFold stringToNumber grammar (fun row acc => row :: acc) [] input).map List.reverse

end Reader

/-! ## The writer -/

section Writer

variable (grammar : Grammar)

/-- `csv-grammar-char-needs-quoting?` -/
def csvGrammarCharNeedsQuoting (ch : Char) : Bool :=
  grammar.quoteChar = .char ch ∨ grammar.escapeChar = .char ch ∨ ch ∈ grammar.separatorChars ∨
    grammar.recordSeparator = .char ch ∨ ch ∈ ['\n', '\r']

/-- What `csv-write-quoted` writes before a character; to write a symbol is an error. -/
def escapeOf (ch : Char) : Option (List Char) :=
  if grammar.quoteChar = .char ch ∨ grammar.escapeChar = .char ch then
    if grammar.quoteDoublingEscapes ∧ grammar.quoteChar = .char ch then some [ch]
    else
      match grammar.escapeChar with
      | .char esc => some [esc]
      | _ => none
  else some []

/-- The loop of `csv-write-quoted`. -/
def quotedChars : List Char → Option (List Char)
  | [] => some []
  | ch :: rest => do return (← escapeOf grammar ch) ++ ch :: (← quotedChars rest)

/-- `csv-write-quoted` of a string. -/
def csvWriteQuoted (field : List Char) : Option (List Char) :=
  match grammar.quoteChar with
  | .char quote => (quotedChars grammar field).map fun chars => quote :: chars ++ [quote]
  | _ => none

/-- The writer quotes the field. -/
def quotes (field : List Char) : Bool :=
  grammar.quoteNonNumeric || field.any (csvGrammarCharNeedsQuoting grammar)

/-- A field as it is written. -/
def writeField (field : List Char) : Option (List Char) :=
  if quotes grammar field then csvWriteQuoted grammar field else some field

/-- What the writer writes before a field; the separators are at least one. -/
def fieldSeparator (first : Bool) : Option (List Char) :=
  if first then some [] else grammar.separatorChars.head?.map fun sep => [sep]

/-- The loop of `csv-writer`. -/
def writeFields : List (List Char) → Bool → Option (List Char)
  | [], _ => some []
  | field :: ls, first => do
      return (← fieldSeparator grammar first) ++ (← writeField grammar field) ++
        (← writeFields ls false)

/-- What the writer writes after a row. -/
def rowEnd : Option (List Char) :=
  match grammar.recordSeparator with
  | .symbol "crlf" => some ['\r', '\n']
  | .symbol "lf" => some ['\n']
  | .symbol "lax" => some ['\n']
  | .symbol "cr" => some ['\r']
  | .char ch => some [ch]
  | _ => none

/-- `csv-writer`, for a row of strings. -/
def csvWriter (row : List (List Char)) : Option (List Char) := do
  return (← writeFields grammar row true) ++ (← rowEnd grammar)

/-- `csv-write`: the rows one after the other. -/
def csvWrite : List (List (List Char)) → Option (List Char)
  | [] => some []
  | row :: rows => do return (← csvWriter grammar row) ++ (← csvWrite rows)

end Writer

end ChibiScheme.Csv
