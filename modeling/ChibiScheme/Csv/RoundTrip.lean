import ChibiScheme.Csv.Grammar

/-!
# CSV tables are read back

The rows that the writer writes are read back by the reader with the same grammar.

Two things in the code stand against it.  A record separator that is given to `csv-grammar`
becomes the escape character, so every row ends with a newline whatever separators the
grammar has, and there is no escape character left to write if a symbol was given.  And the
writer does not quote a field that starts a row with a comment character.
-/

namespace ChibiScheme.Csv

open List Option

/-! ## Grammars as they are described -/

/-- An entry as the documentation describes it: `record-separator` sets the record separator. -/
def Grammar.request (grammar : Grammar) : Entry → Option Grammar
  | .recordSeparator sep => (recSep sep).map fun sep => { grammar with recordSeparator := sep }
  | entry => grammar.set entry

/-- The grammar that a specification asks for. -/
def requested (spec : List Entry) : Option Grammar :=
  spec.foldlM Grammar.request defaultCsvGrammar

/-- The character of a setting, if it is one. -/
def Setting.chars : Setting → List Char
  | .char ch => [ch]
  | _ => []

/-- A grammar with a quote character and a way to write it within quotes, whose special
characters are distinct, and which does not turn fields into numbers. -/
structure Quoting (asked : Grammar) : Prop where
  separators : asked.separatorChars ≠ []
  quote : asked.quoteChar.chars ≠ []
  escapes : asked.quoteDoublingEscapes = true ∨ asked.escapeChar.chars ≠ []
  distinct : (asked.separatorChars ++ asked.quoteChar.chars ++ asked.escapeChar.chars ++
    asked.recordSeparator.chars ++ asked.commentChars).Nodup
  strings : asked.parseNumeric = false

/-- What is the same in the grammar made by `csv-grammar`, and what the escape character
can be. -/
structure Follows (grammar asked : Grammar) : Prop where
  separatorChars : grammar.separatorChars = asked.separatorChars
  quoteChar : grammar.quoteChar = asked.quoteChar
  doubling : grammar.quoteDoublingEscapes = asked.quoteDoublingEscapes
  commentChars : grammar.commentChars = asked.commentChars
  parseNumeric : grammar.parseNumeric = asked.parseNumeric
  lax : grammar.recordSeparator = .symbol "lax"
  escapeChar : grammar.escapeChar = asked.escapeChar ∨
    grammar.escapeChar = asked.recordSeparator ∨ grammar.escapeChar.chars = []

theorem follows_default : Follows defaultCsvGrammar defaultCsvGrammar :=
  ⟨rfl, rfl, rfl, rfl, rfl, rfl, Or.inl rfl⟩

theorem recSep_chars {sep sep' : Setting} (hsep : recSep sep = some sep') :
    sep = sep' ∨ sep.chars = [] := by
  cases sep with
  | no => exact Or.inr rfl
  | char ch => exact Or.inl (some.inj hsep)
  | symbol name => exact Or.inr rfl

theorem follows_set {grammar asked asked' : Grammar} (h : Follows grammar asked) {entry : Entry}
    (hrequest : asked.request entry = some asked') :
    ∃ grammar', grammar.set entry = some grammar' ∧ Follows grammar' asked' := by
  cases entry with
  | recordSeparator sep =>
    obtain ⟨sep', hsep, heq⟩ := map_eq_some_iff.mp hrequest
    cases heq
    refine ⟨{ grammar with escapeChar := sep }, ?_, ?_⟩
    · simp only [Grammar.set, hsep, map_some]
    · exact { h with escapeChar := Or.inr (recSep_chars hsep) }
  | escapeChar ch =>
    cases hrequest
    exact ⟨_, rfl, { h with escapeChar := Or.inl rfl }⟩
  | separatorChars chars =>
    cases hrequest
    exact ⟨_, rfl, { h with separatorChars := rfl }⟩
  | quoteChar ch =>
    cases hrequest
    exact ⟨_, rfl, { h with quoteChar := rfl }⟩
  | quoteDoublingEscapes on =>
    cases hrequest
    exact ⟨_, rfl, { h with doubling := rfl }⟩
  | commentChars chars =>
    cases hrequest
    exact ⟨_, rfl, { h with commentChars := rfl }⟩
  | quoteNonNumeric on =>
    cases hrequest
    exact ⟨_, rfl, { h with }⟩
  | parseNumeric on =>
    cases hrequest
    exact ⟨_, rfl, { h with parseNumeric := rfl }⟩

theorem follows_foldlM (spec : List Entry) :
    ∀ {grammar asked asked' : Grammar}, Follows grammar asked →
      spec.foldlM Grammar.request asked = some asked' →
      ∃ grammar', spec.foldlM Grammar.set grammar = some grammar' ∧ Follows grammar' asked' := by
  induction spec with
  | nil =>
    intro grammar asked asked' h hrequest
    cases hrequest
    exact ⟨grammar, rfl, h⟩
  | cons entry spec ih =>
    intro grammar asked asked' h hrequest
    rw [foldlM_cons] at hrequest
    obtain ⟨asked₁, hentry, hspec⟩ := bind_eq_some_iff.mp hrequest
    obtain ⟨grammar₁, hset, h₁⟩ := follows_set h hentry
    obtain ⟨grammar', hfold, h'⟩ := ih h₁ hspec
    refine ⟨grammar', ?_, h'⟩
    rw [foldlM_cons, hset]
    exact hfold

/-- What the reader and the writer need of a grammar with the given quote character. -/
structure Readable (grammar : Grammar) (quote : Char) : Prop where
  separators : grammar.separatorChars ≠ []
  quoteChar : grammar.quoteChar = .char quote
  quote_ne_separator : quote ∉ grammar.separatorChars
  quote_ne_escape : grammar.escapeChar ≠ .char quote
  quote_ne_comment : quote ∉ grammar.commentChars
  separator_ne_comment : ∀ ch ∈ grammar.separatorChars, ch ∉ grammar.commentChars
  strings : grammar.parseNumeric = false
  lax : grammar.recordSeparator = .symbol "lax"

theorem readable_of_follows {grammar asked : Grammar} (h : Follows grammar asked)
    (hasked : Quoting asked) : ∃ quote, Readable grammar quote := by
  cases hquote : asked.quoteChar with
  | no => exact absurd (by rw [hquote]; rfl) hasked.quote
  | symbol name => exact absurd (by rw [hquote]; rfl) hasked.quote
  | char quote =>
    have hnodup := hasked.distinct
    simp only [hquote, Setting.chars, nodup_append, mem_append, mem_singleton] at hnodup
    obtain ⟨⟨⟨⟨_, _, hsq⟩, _, he⟩, _, hr⟩, _, hc⟩ := hnodup
    refine ⟨quote, ?_⟩
    constructor
    · rw [h.separatorChars]
      exact hasked.separators
    · rw [h.quoteChar, hquote]
    · rw [h.separatorChars]
      intro hmem
      exact hsq quote hmem quote rfl rfl
    · intro hescape
      rcases h.escapeChar with heq | heq | heq
      · apply he quote (Or.inr rfl) quote _ rfl
        rw [← heq, hescape]
        exact mem_singleton_self quote
      · apply hr quote (Or.inl (Or.inr rfl)) quote _ rfl
        rw [← heq, hescape]
        exact mem_singleton_self quote
      · rw [hescape] at heq
        exact nomatch heq
    · rw [h.commentChars]
      intro hmem
      exact hc quote (Or.inl (Or.inl (Or.inr rfl))) quote hmem rfl
    · rw [h.separatorChars, h.commentChars]
      intro ch hsep hmem
      exact hc ch (Or.inl (Or.inl (Or.inl hsep))) ch hmem rfl
    · rw [h.parseNumeric]
      exact hasked.strings
    · exact h.lax

/-! ## Quoted fields -/

section Reading

variable {N α β : Type} {stringToNumber : List Char → Option N} {grammar : Grammar} {quote : Char}

variable {ch : Char} {field text : List Char}

theorem quotedChars_cons (htext : quotedChars grammar (ch :: field) = some text) :
    ∃ esc chars, escapeOf grammar ch = some esc ∧ quotedChars grammar field = some chars ∧
      text = esc ++ ch :: chars := by
  obtain ⟨esc, hesc, htext⟩ := bind_eq_some_iff.mp htext
  obtain ⟨chars, hchars, htext⟩ := bind_eq_some_iff.mp htext
  exact ⟨esc, chars, hesc, hchars, (some.inj htext).symm⟩

theorem csvReadQuoted_escapeOf (h : Readable grammar quote) {esc : List Char}
    (hesc : escapeOf grammar ch = some esc) (out rest : List Char) :
    csvReadQuoted grammar out (esc ++ ch :: rest) = csvReadQuoted grammar (out ++ [ch]) rest := by
  unfold escapeOf at hesc
  by_cases hspecial : grammar.quoteChar = .char ch ∨ grammar.escapeChar = .char ch
  · rw [if_pos hspecial] at hesc
    by_cases hdouble : grammar.quoteDoublingEscapes ∧ grammar.quoteChar = .char ch
    · rw [if_pos hdouble] at hesc
      cases hesc
      simp only [singleton_append, csvReadQuoted, if_pos hdouble.2, hdouble.1, true_and, if_true]
    · rw [if_neg hdouble] at hesc
      cases hescape : grammar.escapeChar with
      | no =>
        rw [hescape] at hesc
        cases hesc
      | symbol name =>
        rw [hescape] at hesc
        cases hesc
      | char e =>
        simp only [hescape] at hesc
        cases hesc
        -- the escape character is not taken for a quote
        have hne : grammar.quoteChar ≠ .char e := by
          intro heq
          apply h.quote_ne_escape
          rw [hescape, ← heq, h.quoteChar]
        simp only [singleton_append, csvReadQuoted, if_neg hne, if_pos hescape]
  · rw [if_neg hspecial] at hesc
    cases hesc
    have hquote : grammar.quoteChar ≠ .char ch := fun heq => hspecial (Or.inl heq)
    have hescape : grammar.escapeChar ≠ .char ch := fun heq => hspecial (Or.inr heq)
    exact csvReadQuoted_char grammar hquote hescape

variable {rest : List Char}

theorem csvReadQuoted_close (h : Readable grammar quote) {out : List Char}
    (hrest : rest.head? ≠ some quote) :
    csvReadQuoted grammar out (quote :: rest) = some (out, rest) := by
  cases rest with
  | nil => simp only [csvReadQuoted, if_pos h.quoteChar]
  | cons next rest =>
    have hnext : ¬ (grammar.quoteDoublingEscapes ∧ next = quote) := by
      intro heq
      apply hrest
      rw [heq.2, head?_cons]
    simp only [csvReadQuoted, if_pos h.quoteChar, if_neg hnext]

theorem csvReadQuoted_quotedChars (h : Readable grammar quote) (field : List Char) :
    ∀ {text : List Char} (out : List Char) {rest : List Char},
      quotedChars grammar field = some text → rest.head? ≠ some quote →
      csvReadQuoted grammar out (text ++ quote :: rest) = some (out ++ field, rest) := by
  induction field with
  | nil =>
    intro text out rest htext hrest
    cases htext
    rw [append_nil]
    exact csvReadQuoted_close h hrest
  | cons ch field ih =>
    intro text out rest htext hrest
    obtain ⟨esc, chars, hesc, hchars, rfl⟩ := quotedChars_cons htext
    have hch := csvReadQuoted_escapeOf h hesc out (chars ++ quote :: rest)
    rw [append_assoc, cons_append, hch, ih _ hchars hrest, append_assoc, singleton_append]

/-! ## Fields -/

variable {kons : α → ℕ → Field N → α}

theorem recordEnd_plain (hplain : csvGrammarCharNeedsQuoting grammar ch = false)
    (rest : List Char) : recordEnd grammar ch rest = none := by
  simp only [csvGrammarCharNeedsQuoting, decide_eq_false_iff_not, not_or, mem_cons,
    not_mem_nil, or_false] at hplain
  obtain ⟨_, _, _, hrecord, hnewline, hreturn⟩ := hplain
  unfold recordEnd
  rw [if_neg hrecord, if_neg (fun heq => hreturn heq.1),
    if_neg (fun heq => hnewline heq.1)]

theorem parserLoop_plain (hplain : csvGrammarCharNeedsQuoting grammar ch = false) (acc : α)
    (index : ℕ) (quoted : Bool) (out rest : List Char) :
    parserLoop stringToNumber grammar kons acc index quoted out (ch :: rest) =
      parserLoop stringToNumber grammar kons acc index quoted (out ++ [ch]) rest := by
  have hend := recordEnd_plain hplain rest
  simp only [csvGrammarCharNeedsQuoting, decide_eq_false_iff_not, not_or, mem_cons,
    not_mem_nil, or_false] at hplain
  obtain ⟨hquote, _, hsep, _, _, hreturn⟩ := hplain
  rw [parserLoop_char stringToNumber grammar hsep hquote hend,
    if_neg (fun heq => hreturn heq.1)]

theorem parserLoop_plains (acc : α) (index : ℕ) (quoted : Bool)
    (rest : List Char) (field : List Char) :
    ∀ out, (∀ ch ∈ field, csvGrammarCharNeedsQuoting grammar ch = false) →
      parserLoop stringToNumber grammar kons acc index quoted out (field ++ rest) =
        parserLoop stringToNumber grammar kons acc index quoted (out ++ field) rest := by
  induction field with
  | nil =>
    intro out _
    rw [append_nil, nil_append]
  | cons ch field ih =>
    intro out hplain
    rw [cons_append, parserLoop_plain (hplain ch mem_cons_self),
      ih _ fun c hc => hplain c (mem_cons_of_mem _ hc), append_assoc,
      singleton_append]

theorem plain_of_not_quotes (hquotes : quotes grammar field = false) (hch : ch ∈ field) :
    csvGrammarCharNeedsQuoting grammar ch = false := by
  have hany := (Bool.or_eq_false_iff.mp hquotes).2
  exact eq_false_of_ne_true (List.any_eq_false.mp hany ch hch)

theorem parserLoop_writeField (h : Readable grammar quote)
    (htext : writeField grammar field = some text) (hrest : rest.head? ≠ some quote) (acc : α)
    (index : ℕ) :
    parserLoop stringToNumber grammar kons acc index false [] (text ++ rest) =
      parserLoop stringToNumber grammar kons acc index (quotes grammar field) field rest := by
  unfold writeField at htext
  by_cases hquotes : quotes grammar field = true
  · rw [if_pos hquotes, csvWriteQuoted, h.quoteChar] at htext
    obtain ⟨chars, hchars, rfl⟩ := map_eq_some_iff.mp htext
    have hread := csvReadQuoted_quotedChars h field [] hchars hrest
    rw [cons_append, cons_append, append_assoc, singleton_append,
      parserLoop_quote _ _ h.quote_ne_separator h.quoteChar, hread, hquotes]
    rfl
  · rw [if_neg hquotes] at htext
    cases htext
    have hany := eq_false_of_ne_true hquotes
    rw [parserLoop_plains acc index false rest field [] fun _ => plain_of_not_quotes hany, hany,
      nil_append]

theorem getField_quotes (h : Readable grammar quote) (index : ℕ) (field : List Char) :
    getField stringToNumber grammar index (quotes grammar field) field = some (.text field) := by
  unfold getField
  by_cases hempty : index = 0 ∧ field = []
  · rw [if_pos hempty]
  have hnumeric : ¬ (grammar.quoteNonNumeric = true ∧ (!quotes grammar field) = true) := by
    intro hboth
    rw [quotes, hboth.1] at hboth
    exact nomatch hboth.2
  have hstrings : ¬ (grammar.parseNumeric = true ∧ (!quotes grammar field) = true) := by
    rw [h.strings]
    exact fun hboth => nomatch hboth.1
  rw [if_neg hempty, if_neg hnumeric, if_neg hstrings]

/-! ## Rows -/

/-- A newline ends a row for the reader. -/
def LineEnds (grammar : Grammar) : Prop :=
  '\n' ∉ grammar.separatorChars ∧ grammar.quoteChar ≠ .char '\n'

variable {ls : List (List Char)}

theorem writeFields_cons {first : Bool}
    (htext : writeFields grammar (field :: ls) first = some text) :
    ∃ sep chars texts, fieldSeparator grammar first = some sep ∧
      writeField grammar field = some chars ∧ writeFields grammar ls false = some texts ∧
      text = sep ++ chars ++ texts := by
  obtain ⟨sep, hsep, htext⟩ := bind_eq_some_iff.mp htext
  obtain ⟨chars, hchars, htext⟩ := bind_eq_some_iff.mp htext
  obtain ⟨texts, htexts, htext⟩ := bind_eq_some_iff.mp htext
  exact ⟨sep, chars, texts, hsep, hchars, htexts, (some.inj htext).symm⟩

theorem fieldSeparator_next {sep : List Char} (hsep : fieldSeparator grammar false = some sep) :
    ∃ ch ∈ grammar.separatorChars, sep = [ch] := by
  obtain ⟨ch, hch, rfl⟩ := map_eq_some_iff.mp hsep
  exact ⟨ch, mem_of_mem_head? hch, rfl⟩

theorem parserLoop_newline (h : Readable grammar quote) (hline : LineEnds grammar) (acc : α)
    {index : ℕ} (hrow : index = 0 → field ≠ []) (rest : List Char) :
    parserLoop stringToNumber grammar kons acc index (quotes grammar field) field ('\n' :: rest) =
      some (some (kons acc index (.text field)), rest) := by
  have hend : recordEnd grammar '\n' rest = some rest := by
    unfold recordEnd
    rw [h.lax]
    rfl
  have hfield : ¬ (index = 0 ∧ (Field.text (N := N) field).isEmpty = true) := by
    intro hboth
    apply hrow hboth.1
    cases field with
    | nil => rfl
    | cons ch field => exact nomatch hboth.2
  rw [parserLoop_end _ _ hline.1 hline.2 hend, getField_quotes h, bind_some, if_neg hfield]

variable (stringToNumber) in
theorem parserLoop_writeFields (h : Readable grammar quote) (hline : LineEnds grammar)
    (rest : List Char) (ls : List (List Char)) :
    ∀ {field chars texts : List Char} (index : ℕ) (acc : List (Field N)),
      writeField grammar field = some chars → writeFields grammar ls false = some texts →
      (index = 0 → ls = [] → field ≠ []) →
      parserLoop stringToNumber grammar (fun acc _ field => field :: acc) acc index false []
          (chars ++ (texts ++ '\n' :: rest)) =
        some (some ((ls.map Field.text).reverse ++ .text field :: acc), rest) := by
  have hnewline : '\n' ≠ quote := by
    intro heq
    apply hline.2
    rw [h.quoteChar, heq]
  induction ls with
  | nil =>
    intro field chars texts index acc hchars htexts hrow
    cases htexts
    rw [nil_append, parserLoop_writeField h hchars (by simpa using hnewline)]
    exact parserLoop_newline h hline acc (fun hindex => hrow hindex rfl) rest
  | cons next ls ih =>
    intro field chars texts index acc hchars htexts hrow
    obtain ⟨sep, chars', texts', hsep, hchars', htexts', rfl⟩ := writeFields_cons htexts
    obtain ⟨ch, hch, rfl⟩ := fieldSeparator_next hsep
    have hhead : ch ≠ quote := by
      intro heq
      exact h.quote_ne_separator (heq ▸ hch)
    have hnext := ih (index + 1) (.text field :: acc) hchars' htexts'
      (fun hindex => absurd hindex (Nat.succ_ne_zero index))
    rw [append_assoc, append_assoc, singleton_append,
      parserLoop_writeField h hchars (by simpa using hhead), parserLoop_separator _ _ hch,
      getField_quotes h, bind_some, hnext]
    simp only [map_cons, reverse_cons, append_assoc, singleton_append]

/-- The row starts with a comment character that the writer does not quote. -/
def startsComment (grammar : Grammar) : List (List Char) → Bool
  | (ch :: field) :: _ => ch ∈ grammar.commentChars && !quotes grammar (ch :: field)
  | _ => false

variable {input : List Char}

theorem skipComments_of_head (hhead : ∀ ch ∈ input.head?, ch ∉ grammar.commentChars) :
    skipComments grammar input = input := by
  cases input with
  | nil => rw [skipComments]
  | cons ch rest => rw [skipComments, if_neg (hhead ch rfl)]

theorem head_writeFields (h : Readable grammar quote) {chars texts : List Char}
    (hchars : writeField grammar field = some chars)
    (htexts : writeFields grammar ls false = some texts) (hrow : ls = [] → field ≠ [])
    (hcomment : startsComment grammar (field :: ls) = false) (rest : List Char) :
    ∀ ch ∈ (chars ++ (texts ++ rest)).head?, ch ∉ grammar.commentChars := by
  intro c hc
  unfold writeField at hchars
  by_cases hquotes : quotes grammar field = true
  · rw [if_pos hquotes, csvWriteQuoted, h.quoteChar] at hchars
    obtain ⟨_, _, rfl⟩ := map_eq_some_iff.mp hchars
    cases hc
    exact h.quote_ne_comment
  · rw [if_neg hquotes] at hchars
    cases hchars
    cases field with
    | cons ch field =>
      cases hc
      intro hmem
      rw [startsComment, eq_false_of_ne_true hquotes] at hcomment
      simp [hmem] at hcomment
    | nil =>
      cases ls with
      | nil => exact absurd rfl (hrow rfl)
      | cons next ls =>
        obtain ⟨sep, _, _, hsep, _, _, rfl⟩ := writeFields_cons htexts
        obtain ⟨ch, hch, rfl⟩ := fieldSeparator_next hsep
        cases hc
        exact h.separator_ne_comment c hch

theorem csvWriter_cons (h : Readable grammar quote)
    (htext : csvWriter grammar (field :: ls) = some text) :
    ∃ chars texts, writeField grammar field = some chars ∧
      writeFields grammar ls false = some texts ∧ text = chars ++ (texts ++ ['\n']) := by
  obtain ⟨fields, hfields, htext⟩ := bind_eq_some_iff.mp htext
  obtain ⟨sep, chars, texts, hsep, hchars, htexts, rfl⟩ := writeFields_cons hfields
  cases hsep
  rw [rowEnd, h.lax] at htext
  refine ⟨chars, texts, hchars, htexts, ?_⟩
  rw [← append_assoc]
  exact (some.inj htext).symm

variable (stringToNumber) in
theorem csvReadList_csvWriter (h : Readable grammar quote) (hline : LineEnds grammar)
    {row : List (List Char)} (hrow : row ≠ [] ∧ row ≠ [[]])
    (hcomment : startsComment grammar row = false) (htext : csvWriter grammar row = some text)
    (rest : List Char) :
    csvReadList stringToNumber grammar (text ++ rest) = some (some (row.map .text), rest) := by
  cases row with
  | nil => exact absurd rfl hrow.1
  | cons field ls =>
    obtain ⟨chars, texts, hchars, htexts, rfl⟩ := csvWriter_cons h htext
    have hfield : ls = [] → field ≠ [] := by
      intro hls hfield
      rw [hls, hfield] at hrow
      exact hrow.2 rfl
    have hhead := head_writeFields h hchars htexts hfield hcomment ('\n' :: rest)
    have hloop := parserLoop_writeFields stringToNumber h hline rest ls
      0 [] hchars htexts fun _ => hfield
    rw [append_assoc, append_assoc, singleton_append, csvReadList, csvParser,
      skipComments_of_head hhead, hloop, map_some]
    simp only [map_some, reverse_append, reverse_cons, reverse_nil,
      nil_append, singleton_append, reverse_reverse, map_cons]

/-! ## Tables -/

/-- Rows that are not empty and are not a single empty string. -/
def Writable (rows : List (List (List Char))) : Prop := ∀ row ∈ rows, row ≠ [] ∧ row ≠ [[]]

/-- The text that is written for the rows is read as these rows. -/
def RoundTrips (stringToNumber : List Char → Option N) (grammar : Grammar)
    (rows : List (List (List Char))) : Prop :=
  (csvWrite grammar rows).bind (csvToList stringToNumber grammar) =
    some (rows.map fun row => row.map .text)

variable {proc : List (Field N) → β → β} {acc : β}

theorem csvFold_eof (hread : csvReadList stringToNumber grammar input = some (none, rest)) :
    csvFold stringToNumber grammar proc acc input = some acc := by
  rw [csvFold]
  split
  next hnone => cases hread.symm.trans hnone
  next heof => rfl
  next hsome => cases hread.symm.trans hsome

theorem csvFold_nil (proc : List (Field N) → β → β) (acc : β) :
    csvFold stringToNumber grammar proc acc [] = some acc := by
  have hread : csvReadList stringToNumber grammar [] = some (none, []) := by
    rw [csvReadList, csvParser, skipComments, parserLoop]
    rfl
  exact csvFold_eof hread

theorem csvFold_row {row : List (Field N)}
    (hread : csvReadList stringToNumber grammar input = some (some row, rest)) :
    csvFold stringToNumber grammar proc acc input =
      csvFold stringToNumber grammar proc (proc row acc) rest := by
  rw [csvFold]
  split
  next hnone => cases hread.symm.trans hnone
  next heof => cases hread.symm.trans heof
  next row' rest' hsome =>
    cases hread.symm.trans hsome
    rfl

variable {rows : List (List (List Char))}

theorem csvWrite_cons {row : List (List Char)} (htext : csvWrite grammar (row :: rows) = some text) :
    ∃ chars texts, csvWriter grammar row = some chars ∧ csvWrite grammar rows = some texts ∧
      text = chars ++ texts := by
  obtain ⟨chars, hchars, htext⟩ := bind_eq_some_iff.mp htext
  obtain ⟨texts, htexts, htext⟩ := bind_eq_some_iff.mp htext
  exact ⟨chars, texts, hchars, htexts, (some.inj htext).symm⟩

theorem csvFold_csvWrite (h : Readable grammar quote) (hline : LineEnds grammar)
    (rows : List (List (List Char))) (hrows : Writable rows)
    (hcomment : ∀ row ∈ rows, startsComment grammar row = false) :
    ∀ (acc : List (List (Field N))) {text : List Char}, csvWrite grammar rows = some text →
      csvFold stringToNumber grammar (fun row acc => row :: acc) acc text =
        some ((rows.map fun row => row.map Field.text).reverse ++ acc) := by
  induction rows with
  | nil =>
    intro acc text htext
    cases htext
    exact csvFold_nil _ acc
  | cons row rows ih =>
    intro acc text htext
    obtain ⟨chars, texts, hchars, htexts, rfl⟩ := csvWrite_cons htext
    have hread := csvReadList_csvWriter stringToNumber h hline
      (hrows row mem_cons_self) (hcomment row mem_cons_self) hchars texts
    have hrest := ih (fun row' hrow => hrows row' (mem_cons_of_mem _ hrow))
      (fun row' hrow => hcomment row' (mem_cons_of_mem _ hrow))
      (row.map Field.text :: acc) htexts
    rw [csvFold_row hread, hrest]
    simp only [map_cons, reverse_cons, append_assoc, singleton_append]

/-! ## What can be written -/

/-- A quote character in a field can be written. -/
def CanEscape (grammar : Grammar) : Prop :=
  grammar.quoteDoublingEscapes = true ∨ grammar.escapeChar.chars ≠ []

theorem escapeOf_some (hch : CanEscape grammar ∨ grammar.quoteChar ≠ .char ch) :
    ∃ esc, escapeOf grammar ch = some esc := by
  unfold escapeOf
  by_cases hspecial : grammar.quoteChar = .char ch ∨ grammar.escapeChar = .char ch
  · rw [if_pos hspecial]
    by_cases hdouble : grammar.quoteDoublingEscapes ∧ grammar.quoteChar = .char ch
    · rw [if_pos hdouble]
      exact ⟨_, rfl⟩
    · rw [if_neg hdouble]
      -- what is left to write is the escape character
      have hescape : grammar.escapeChar.chars ≠ [] := by
        cases hch with
        | inl hcan =>
          cases hcan with
          | inl hdoubling =>
            have hquote : grammar.quoteChar ≠ .char ch := fun h => hdouble ⟨hdoubling, h⟩
            rw [hspecial.resolve_left hquote]
            exact cons_ne_nil _ _
          | inr hescape => exact hescape
        | inr hquote =>
          rw [hspecial.resolve_left hquote]
          exact cons_ne_nil _ _
      cases hsetting : grammar.escapeChar with
      | no => exact absurd (by rw [hsetting]; rfl) hescape
      | symbol name => exact absurd (by rw [hsetting]; rfl) hescape
      | char esc => exact ⟨_, rfl⟩
  · rw [if_neg hspecial]
    exact ⟨_, rfl⟩

theorem quotedChars_some (field : List Char)
    (hfield : CanEscape grammar ∨ ∀ ch ∈ field, grammar.quoteChar ≠ .char ch) :
    ∃ chars, quotedChars grammar field = some chars := by
  induction field with
  | nil => exact ⟨[], rfl⟩
  | cons ch field ih =>
    obtain ⟨esc, hesc⟩ := escapeOf_some (hfield.imp_right fun h => h ch mem_cons_self)
    obtain ⟨chars, hchars⟩ := ih
      (hfield.imp_right fun h c hc => h c (mem_cons_of_mem _ hc))
    refine ⟨esc ++ ch :: chars, ?_⟩
    rw [quotedChars, hesc, hchars]
    rfl

theorem writeField_some (h : Readable grammar quote)
    (hfield : CanEscape grammar ∨ ∀ ch ∈ field, grammar.quoteChar ≠ .char ch) :
    ∃ chars, writeField grammar field = some chars := by
  unfold writeField
  by_cases hquotes : quotes grammar field = true
  · obtain ⟨chars, hchars⟩ := quotedChars_some field hfield
    rw [if_pos hquotes, csvWriteQuoted, h.quoteChar, hchars]
    exact ⟨_, rfl⟩
  · rw [if_neg hquotes]
    exact ⟨_, rfl⟩

theorem fieldSeparator_some (h : Readable grammar quote) (first : Bool) :
    ∃ sep, fieldSeparator grammar first = some sep := by
  cases first with
  | true => exact ⟨[], rfl⟩
  | false =>
    cases hchars : grammar.separatorChars with
    | nil => exact absurd hchars h.separators
    | cons ch chars =>
      refine ⟨[ch], ?_⟩
      simp [fieldSeparator, hchars]

theorem writeFields_some (h : Readable grammar quote) (ls : List (List Char))
    (hls : CanEscape grammar ∨ ∀ field ∈ ls, ∀ ch ∈ field, grammar.quoteChar ≠ .char ch) (first : Bool) :
    ∃ chars, writeFields grammar ls first = some chars := by
  induction ls generalizing first with
  | nil => exact ⟨[], rfl⟩
  | cons field ls ih =>
    obtain ⟨sep, hsep⟩ := fieldSeparator_some h first
    obtain ⟨chars, hchars⟩ := writeField_some h
      (hls.imp_right fun h => h field mem_cons_self)
    obtain ⟨texts, htexts⟩ := ih
      (hls.imp_right fun h f hf => h f (mem_cons_of_mem _ hf)) false
    refine ⟨sep ++ chars ++ texts, ?_⟩
    rw [writeFields, hsep, hchars, htexts]
    rfl

theorem csvWrite_some (h : Readable grammar quote) (rows : List (List (List Char)))
    (hrows : CanEscape grammar ∨
      ∀ row ∈ rows, ∀ field ∈ row, ∀ ch ∈ field, grammar.quoteChar ≠ .char ch) :
    ∃ text, csvWrite grammar rows = some text := by
  induction rows with
  | nil => exact ⟨[], rfl⟩
  | cons row rows ih =>
    obtain ⟨chars, hchars⟩ := writeFields_some h row
      (hrows.imp_right fun h => h row mem_cons_self) true
    obtain ⟨texts, htexts⟩ := ih
      (hrows.imp_right fun h r hr => h r (mem_cons_of_mem _ hr))
    refine ⟨chars ++ ['\n'] ++ texts, ?_⟩
    rw [csvWrite, csvWriter, hchars, htexts, rowEnd, h.lax]
    rfl

theorem of_escapeOf {esc : List Char} (hesc : escapeOf grammar ch = some esc)
    (hquote : grammar.quoteChar = .char ch) : CanEscape grammar := by
  unfold escapeOf at hesc
  rw [if_pos (Or.inl hquote)] at hesc
  by_cases hdouble : grammar.quoteDoublingEscapes ∧ grammar.quoteChar = .char ch
  · exact Or.inl hdouble.1
  rw [if_neg hdouble] at hesc
  cases hsetting : grammar.escapeChar with
  | no =>
    rw [hsetting] at hesc
    exact nomatch hesc
  | symbol name =>
    rw [hsetting] at hesc
    exact nomatch hesc
  | char e =>
    apply Or.inr
    rw [hsetting]
    exact cons_ne_nil _ _

theorem of_quotedChars (field : List Char) :
    ∀ {text : List Char}, quotedChars grammar field = some text →
      ∀ ch ∈ field, grammar.quoteChar = .char ch → CanEscape grammar := by
  induction field with
  | nil =>
    intro text _ ch hch
    exact nomatch hch
  | cons c field ih =>
    intro text htext ch hch hquote
    obtain ⟨esc, chars, hesc, hchars, rfl⟩ := quotedChars_cons htext
    cases mem_cons.mp hch with
    | inl heq => exact of_escapeOf hesc (heq ▸ hquote)
    | inr hmem => exact ih hchars ch hmem hquote

theorem of_writeField (htext : writeField grammar field = some text) (hch : ch ∈ field)
    (hquote : grammar.quoteChar = .char ch) :
    CanEscape grammar := by
  unfold writeField at htext
  by_cases hquotes : quotes grammar field = true
  · rw [if_pos hquotes, csvWriteQuoted, hquote] at htext
    obtain ⟨chars, hchars, _⟩ := map_eq_some_iff.mp htext
    exact of_quotedChars field hchars ch hch hquote
  · have hplain := plain_of_not_quotes (eq_false_of_ne_true hquotes) hch
    simp [csvGrammarCharNeedsQuoting, hquote] at hplain

theorem of_writeFields (ls : List (List Char)) :
    ∀ {first : Bool} {text : List Char}, writeFields grammar ls first = some text →
      ∀ field ∈ ls, ∀ ch ∈ field, grammar.quoteChar = .char ch → CanEscape grammar := by
  induction ls with
  | nil =>
    intro first text _ field hfield
    exact nomatch hfield
  | cons f ls ih =>
    intro first text htext field hfield ch hch hquote
    obtain ⟨_, _, _, _, hchars, htexts, _⟩ := writeFields_cons htext
    cases mem_cons.mp hfield with
    | inl heq => exact of_writeField hchars (heq ▸ hch) hquote
    | inr hmem => exact ih htexts field hmem ch hch hquote

theorem of_csvWrite (rows : List (List (List Char))) :
    ∀ {text : List Char}, csvWrite grammar rows = some text →
      ∀ row ∈ rows, ∀ field ∈ row, ∀ ch ∈ field, grammar.quoteChar = .char ch →
        CanEscape grammar := by
  induction rows with
  | nil =>
    intro text _ row hrow
    exact nomatch hrow
  | cons r rows ih =>
    intro text htext row hrow field hfield ch hch hquote
    obtain ⟨_, _, hchars, htexts, _⟩ := csvWrite_cons htext
    cases mem_cons.mp hrow with
    | inl heq =>
      obtain ⟨_, hfields, _⟩ := bind_eq_some_iff.mp hchars
      exact of_writeFields r hfields field (heq ▸ hfield) ch hch hquote
    | inr hmem => exact ih htexts row hmem field hfield ch hch hquote

/-- No field has a quote character. -/
def NoQuote (grammar : Grammar) (rows : List (List (List Char))) : Prop :=
  ∀ row ∈ rows, ∀ field ∈ row, ∀ ch ∈ field, grammar.quoteChar ≠ .char ch

/-- The condition of the round trip: the rows end as the grammar reads them, none looks like a
comment, and quote characters can be escaped where there are any. -/
def ReadBack (grammar : Grammar) (rows : List (List (List Char))) : Prop :=
  rows = [] ∨ LineEnds grammar ∧ (∀ row ∈ rows, startsComment grammar row = false) ∧
    (CanEscape grammar ∨ NoQuote grammar rows)

theorem roundTrips_of_readBack (h : Readable grammar quote) (hrows : Writable rows)
    (hback : ReadBack grammar rows) :
    RoundTrips stringToNumber grammar rows := by
  cases hback with
  | inl hnil =>
    rw [hnil, RoundTrips, csvWrite, bind_some, csvToList, csvFold_nil]
    rfl
  | inr hback =>
    obtain ⟨hline, hcomment, hescape⟩ := hback
    obtain ⟨text, htext⟩ := csvWrite_some h rows hescape
    rw [RoundTrips, htext, bind_some, csvToList, csvFold_csvWrite h hline rows hrows hcomment
      [] htext, map_some, append_nil, reverse_reverse]

/-! ## Tables that are not read back -/

theorem csvFold_error (hread : csvReadList stringToNumber grammar input = none) :
    csvFold stringToNumber grammar proc acc input = none := by
  rw [csvFold]
  split
  next hnone => rfl
  next heof => cases hread.symm.trans heof
  next hsome => cases hread.symm.trans hsome

variable (stringToNumber) in
theorem csvReadList_empties (h : Readable grammar quote)
    (htext : csvWriter grammar [[], []] = some text) :
    ∃ chars, writeField grammar [] = some chars ∧
      csvReadList stringToNumber grammar text =
        (parserLoop stringToNumber grammar (fun ls _ field => field :: ls) [.text []] 1 false []
          (chars ++ ['\n'])).map fun (res, rest) => (res.map List.reverse, rest) := by
  obtain ⟨chars, texts, hchars, htexts, rfl⟩ := csvWriter_cons h htext
  have hhead := head_writeFields h hchars htexts (fun hls => nomatch hls) rfl ['\n']
  obtain ⟨sep, chars', texts', hsep, hchars', htexts', rfl⟩ := writeFields_cons htexts
  obtain ⟨ch, hch, rfl⟩ := fieldSeparator_next hsep
  cases htexts'
  have hne : ch ≠ quote := fun heq => h.quote_ne_separator (heq ▸ hch)
  refine ⟨chars', hchars', ?_⟩
  rw [csvReadList, csvParser, skipComments_of_head hhead, append_nil, append_assoc,
    singleton_append, parserLoop_writeField h hchars (by simpa using hne),
    parserLoop_separator _ _ hch, getField_quotes h, bind_some]

theorem lineEnds_of_roundTrips (h : Readable grammar quote)
    (htrips : RoundTrips stringToNumber grammar [[[], []]]) : LineEnds grammar := by
  obtain ⟨text, htext, hread⟩ := bind_eq_some_iff.mp htrips
  obtain ⟨row, rest, hrow, hrest, rfl⟩ := csvWrite_cons htext
  cases hrest
  rw [append_nil] at hread
  obtain ⟨acc, hfold, hacc⟩ := map_eq_some_iff.mp hread
  obtain ⟨chars, hchars, hlist⟩ := csvReadList_empties stringToNumber h hrow
  constructor
  · -- the newline is read as a separator, and the row has one field too many
    intro hsep
    have hne : '\n' ≠ quote := fun heq => h.quote_ne_separator (heq ▸ hsep)
    rw [parserLoop_writeField h hchars (by simpa using hne), parserLoop_separator _ _ hsep,
      getField_quotes h, bind_some, parserLoop] at hlist
    cases hfield : getField stringToNumber grammar 2 false [] with
    | none =>
      rw [hfield] at hlist
      rw [csvFold_error hlist] at hfold
      cases hfold
    | some field =>
      rw [hfield] at hlist
      rw [csvFold_row hlist, csvFold_nil] at hfold
      cases hfold
      cases hacc
  · -- the newline opens a quoted field that is not closed
    intro hquote
    obtain rfl : quote = '\n' := Setting.char.inj (h.quoteChar.symm.trans hquote)
    have hopen : csvReadQuoted grammar [] ([] : List Char) = none := rfl
    have hnone : parserLoop stringToNumber grammar (fun ls _ field => field :: ls)
        [.text []] 1 false [] (chars ++ ['\n']) = none := by
      unfold writeField at hchars
      by_cases hquotes : quotes grammar [] = true
      · rw [if_pos hquotes, csvWriteQuoted, h.quoteChar] at hchars
        cases hchars
        simp only [cons_append, nil_append]
        rw [parserLoop_quote _ _ h.quote_ne_separator hquote]
        cases hdouble : grammar.quoteDoublingEscapes with
        | true => simp [csvReadQuoted, hquote, hdouble]
        | false =>
          simp only [csvReadQuoted, hquote, hdouble, if_true, Bool.false_eq_true, false_and,
            if_false, bind_some]
          rw [parserLoop_quote _ _ h.quote_ne_separator hquote, hopen]
          rfl
      · rw [if_neg hquotes] at hchars
        cases hchars
        rw [nil_append, parserLoop_quote _ _ h.quote_ne_separator hquote, hopen]
        rfl
    rw [hnone] at hlist
    rw [csvFold_error hlist] at hfold
    cases hfold

theorem escapes_of_roundTrips (htrips : RoundTrips stringToNumber grammar rows) :
    CanEscape grammar ∨ NoQuote grammar rows := by
  obtain ⟨text, htext, _⟩ := bind_eq_some_iff.mp htrips
  by_cases hcan : CanEscape grammar
  · exact Or.inl hcan
  · apply Or.inr
    intro row hrow field hfield ch hch hquote
    exact hcan (of_csvWrite rows htext row hrow field hfield ch hch hquote)

theorem not_startsComment (hcomments : ∀ ch ∈ grammar.commentChars, quotes grammar [ch] = true)
    (row : List (List Char)) : startsComment grammar row = false := by
  cases row with
  | nil => rfl
  | cons field ls =>
    cases field with
    | nil => rfl
    | cons ch field =>
      by_cases hcomment : ch ∈ grammar.commentChars
      · have hquotes : quotes grammar (ch :: field) = true := by
          have hch := hcomments ch hcomment
          simp only [quotes, any_cons, any_nil, Bool.or_false] at hch ⊢
          rw [← Bool.or_assoc, hch, Bool.true_or]
        rw [startsComment, hquotes, Bool.not_true, Bool.and_false]
      · simp [startsComment, hcomment]

theorem quotes_of_roundTrips (h : Readable grammar quote) (hcomment : ch ∈ grammar.commentChars)
    (htrips : RoundTrips stringToNumber grammar [[[ch]]]) : quotes grammar [ch] = true := by
  by_contra hquotes
  have hquotes := eq_false_of_ne_true hquotes
  obtain ⟨text, htext, hread⟩ := bind_eq_some_iff.mp htrips
  obtain ⟨row, rest, hrow, hrest, rfl⟩ := csvWrite_cons htext
  obtain ⟨chars, texts, hchars, htexts, rfl⟩ := csvWriter_cons h hrow
  cases hrest
  cases htexts
  rw [writeField, hquotes] at hchars
  cases hchars
  have hnewline : recordEnd grammar '\n' [] = some [] := by
    unfold recordEnd
    rw [h.lax]
    rfl
  have hskip : skipComments grammar [ch, '\n'] = [] := by
    rw [skipComments, if_pos hcomment, csvSkipLine, recordEnd_plain (plain_of_not_quotes hquotes
      (mem_singleton_self ch)), getD_none, csvSkipLine, hnewline, getD_some, skipComments]
  have heof : csvReadList stringToNumber grammar [ch, '\n'] = some (none, []) := by
    rw [csvReadList, csvParser, hskip, parserLoop]
    rfl
  simp only [singleton_append, nil_append, append_nil] at hread
  rw [csvToList, csvFold_eof heof] at hread
  cases hread

end Reading

/-! ## The round trip -/

/-- With a grammar made by `csv-grammar`, rows that meet the condition are read back.  The
condition on escapes is needed for the rows, and all rows are read back exactly if a newline
ends a row, comment characters are quoted and the quote character can be escaped. -/
theorem csvToList_csvWrite {N : Type} (stringToNumber : List Char → Option N) {spec : List Entry}
    {asked : Grammar} (hasked : requested spec = some asked) (hquoting : Quoting asked) :
    ∃ grammar, csvGrammar spec = some grammar ∧
      (∀ rows, Writable rows → ReadBack grammar rows → RoundTrips stringToNumber grammar rows) ∧
      (∀ rows, Writable rows → LineEnds grammar →
        (∀ row ∈ rows, startsComment grammar row = false) →
        (RoundTrips stringToNumber grammar rows ↔ CanEscape grammar ∨ NoQuote grammar rows)) ∧
      ((∀ rows, Writable rows → RoundTrips stringToNumber grammar rows) ↔
        LineEnds grammar ∧ (∀ ch ∈ grammar.commentChars, quotes grammar [ch] = true) ∧
          CanEscape grammar) := by
  obtain ⟨grammar, hgrammar, hfollows⟩ := follows_foldlM spec follows_default hasked
  obtain ⟨quote, h⟩ := readable_of_follows hfollows hquoting
  have henough : ∀ rows, Writable rows → ReadBack grammar rows →
      RoundTrips stringToNumber grammar rows :=
    fun rows hrows hback => roundTrips_of_readBack h hrows hback
  refine ⟨grammar, hgrammar, henough, ?_, ?_, ?_⟩
  · intro rows hrows hline hcomment
    constructor
    · exact escapes_of_roundTrips
    · intro hescape
      exact henough rows hrows (Or.inr ⟨hline, hcomment, hescape⟩)
  · intro hall
    refine ⟨?_, ?_, ?_⟩
    · -- the row of one empty field
      apply lineEnds_of_roundTrips h
      apply hall
      intro row hrow
      cases mem_singleton.mp hrow
      exact ⟨cons_ne_nil _ _, fun heq => nomatch heq⟩
    · intro ch hcomment
      apply quotes_of_roundTrips h hcomment
      apply hall
      intro row hrow
      cases mem_singleton.mp hrow
      exact ⟨cons_ne_nil _ _, fun heq => nomatch heq⟩
    · -- a field that is the quote character has to be escaped
      have htrips : RoundTrips stringToNumber grammar [[[quote]]] := by
        apply hall
        intro row hrow
        cases mem_singleton.mp hrow
        exact ⟨cons_ne_nil _ _, fun heq => nomatch heq⟩
      apply (escapes_of_roundTrips htrips).resolve_right
      intro hnone
      exact hnone [[quote]] (mem_singleton_self _) [quote] (mem_singleton_self _) quote
        (mem_singleton_self _) h.quoteChar
  · intro hneeded rows hrows
    obtain ⟨hline, hcomments, hcan⟩ := hneeded
    apply henough rows hrows
    refine Or.inr ⟨hline, ?_, Or.inl hcan⟩
    exact fun row _ => not_startsComment hcomments row

/-- A grammar with a character for comments, and with a record separator. -/
def hashGrammar : List Entry :=
  [.commentChars ['#'], .recordSeparator (.symbol "crlf")]

theorem quoting_hashGrammar : ∃ asked, requested hashGrammar = some asked ∧ Quoting asked := by
  refine ⟨⟨[','], .char (Char.ofNat 34), true, .no, .symbol "crlf", ['#'], false, false⟩, rfl, ?_⟩
  constructor
  · decide
  · decide
  · exact Or.inl rfl
  · decide
  · rfl

/-- Two rows with a comment character, a quote character and a comma in their fields. -/
def quotedRows : List (List (List Char)) :=
  [[['a'], ['#']], [['b', Char.ofNat 34], [',']]]

theorem csvToList_csvWrite_hash : ∃ grammar, csvGrammar hashGrammar = some grammar ∧
    RoundTrips (fun _ => (none : Option ℕ)) grammar quotedRows := by
  obtain ⟨asked, hasked, hquoting⟩ := quoting_hashGrammar
  obtain ⟨grammar, hgrammar, henough, _⟩ :=
    csvToList_csvWrite (fun _ => (none : Option ℕ)) hasked hquoting
  have hrows : Writable quotedRows := by
    unfold Writable
    decide
  refine ⟨grammar, hgrammar, henough _ hrows (Or.inr ?_)⟩
  cases hgrammar
  exact ⟨⟨by decide, by decide⟩, by decide, Or.inl (Or.inl rfl)⟩

/-- A row that starts with the character for comments is not read back. -/
theorem not_csvToList_csvWrite : ¬ ∀ spec asked grammar, requested spec = some asked →
    Quoting asked → csvGrammar spec = some grammar → ∀ rows, Writable rows →
      RoundTrips (fun _ => (none : Option ℕ)) grammar rows := by
  intro hall
  obtain ⟨asked, hasked, hquoting⟩ := quoting_hashGrammar
  have htrips := hall hashGrammar asked _ hasked hquoting rfl [[['#', '1'], ['b']]] (by
    intro row hrow
    cases mem_singleton.mp hrow
    exact ⟨cons_ne_nil _ _, fun heq => nomatch heq⟩)
  unfold RoundTrips at htrips
  revert htrips
  decide +kernel

end ChibiScheme.Csv
