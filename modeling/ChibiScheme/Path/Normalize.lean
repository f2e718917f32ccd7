import Mathlib
import ChibiScheme.Text.Cursor

/-!
# Paths

The procedures of `(chibi pathname)` that make a path canonical, and the name under
which the entry of an archive is extracted.

`path-normalize` is a scanner over the characters of the path.  `path_normalize_eq`
reads it as a loop over the components: `scan` keeps the reversed list `res` of the
pieces that are done and the piece `pend` that is not collected yet, which is the
path from the cursor `i` up to the start of the component.
-/

namespace ChibiScheme.Path

open CharString List

/-! ## The code -/

/-- `path-directory` -/
def pathDirectory (path : List Char) : List Char :=
  if path = [] then ['.']
  else
    let stop := stringSkipRight (· == '/') path 0 path.length
    if stop = 0 then ['/']
    else
      let slash := stringFindRight (· == '/') path 0 stop
      if slash = 0 then ['.']
      else
        let start2 := stringSkipRight (· == '/') path 0 slash
        if start2 = 0 then ['/'] else slice path 0 start2

/-- `backup`: the list of pieces that the scan goes on with behind a `..`. -/
def backup (s : List Char) (res : List (List Char)) : List (List Char) :=
  if s = ['/', '.', '.'] ∨ s = ['.', '.'] then ['/', '.', '.'] :: s :: res
  else if s = [] ∨ s = ['.'] ∨ s = ['/'] then
    match res with
    | s' :: res' => backup s' res'
    | [] => if s = ['/'] then [['/']] else [['.', '.']]
  else
    let d := pathDirectory s
    if d = ['/'] then if res = [] then [['/']] else res
    else if d = ['.'] then res
    else ['/'] :: d :: res

/-- `backup` of the last piece that was collected, or of the empty string. -/
def backupRes : List (List Char) → List (List Char)
  | [] => backup [] []
  | s :: res => backup s res

/-- The end of the scan: what was collected is joined. -/
def finish (path : List Char) (i : ℕ) (res : List (List Char)) : List Char :=
  if i = 0 then path else concatenateReverse (collect path i path.length res)

mutual

/-- The state of the scan inside a component. -/
def inside (path : List Char) (i j : ℕ) (res : List (List Char)) : List Char :=
  if path.length ≤ j then finish path i res
  else if path[j]? = some '/' then boundary path i (j + 1) res
  else inside path i (j + 1) res
termination_by path.length - j

/-- The state of the scan at the start of a component. -/
def boundary (path : List Char) (i j : ℕ) (res : List (List Char)) : List Char :=
  if path.length ≤ j then finish path i res
  else if path[j]? = some '.' then
    if j = path.length - 1 ∨ path[j + 1]? = some '/' then
      if i = j then boundary path (j + 2) (j + 2) res
      else boundary path (j + 2) (j + 2) (slice path i j :: res)
    else if path[j + 1]? = some '.' then
      if path.length - 2 ≤ j ∨ path[j + 2]? = some '/' then
        if j - 1 ≤ i then
          boundary path (j + 3) (j + 3) (backupRes res)
        else boundary path (j + 3) (j + 3) (backup (slice path i j) res)
      else inside path i (j + 2) res
    else inside path i (j + 1) res
  else if path[j]? = some '/' then boundary path (j + 1) (j + 1) (collect path i j res)
  else inside path i (j + 1) res
termination_by path.length - j

end

/-- `path-normalize` -/
def pathNormalize (path : List Char) : List Char :=
  match path with
  | [] => []
  | ch :: _ => if ch = '/' then boundary path 0 1 [] else inside path 0 1 []

/-- `path-strip-leading-parents` -/
def pathStripLeadingParents : List Char → List Char
  | '.' :: '.' :: '/' :: path => pathStripLeadingParents path
  | path => if path = ['.', '.'] then [] else path

/-- `path-absolute?` -/
def pathAbsolute (path : List Char) : Bool := path ≠ [] && path[0]? = some '/'

/-- `safe-path` of `tar-extract` -/
def safePath (path : List Char) : List Char :=
  stringTrimLeft (· == '/') (pathStripLeadingParents (pathNormalize path))

/-! ## The scan over the components -/

/-- The components of a path; the first one of an absolute path is empty. -/
def components (path : List Char) : List (List Char) := path.splitOn '/'

/-- The slash behind a component that is not the last. -/
def separator (cs : List (List Char)) : List Char := if cs = [] then [] else ['/']

/-- The path with the given components. -/
def joined : List (List Char) → List Char
  | [] => []
  | c :: cs => c ++ (separator cs ++ joined cs)

/-- A component that is not empty. -/
def push (pend : List Char) (res : List (List Char)) : List (List Char) :=
  if pend = [] then res else pend :: res

/-- The pieces behind a `..`; a pending piece of one character is passed over. -/
def parent (pend : List Char) (res : List (List Char)) : List (List Char) :=
  if pend.length ≤ 1 then backupRes res else backup pend res

/-- The scan as a walk over the components. -/
def scan : List (List Char) → List Char → List (List Char) → List Char
  | res, pend, [] => concatenateReverse res ++ pend
  | res, pend, c :: cs =>
    if c = [] ∨ c = ['.'] then scan (push pend res) [] cs
    else if c = ['.', '.'] then scan (parent pend res) [] cs
    else scan res (pend ++ (c ++ separator cs)) cs

theorem concatenateReverse_push (pend : List Char) (res : List (List Char)) :
    concatenateReverse (push pend res) = concatenateReverse res ++ pend := by
  unfold push
  split
  · rename_i hnil
    rw [hnil, append_nil]
  · exact concatenateReverse_cons pend res

variable {i j : ℕ}

theorem collect_split (before mid after : List Char) (res : List (List Char))
    (hi : i = before.length) (hj : j = before.length + mid.length) :
    collect (before ++ (mid ++ after)) i j res = push mid res := by
  rw [collect, push, hi, hj, slice_split]
  cases mid with
  | nil => simp
  | cons ch mid => simp

theorem finish_split {before mid : List Char} {res : List (List Char)}
    (hbefore : before = [] → res = []) :
    finish (before ++ mid) before.length res = concatenateReverse res ++ mid := by
  unfold finish
  split
  · rename_i hzero
    have hnil := length_eq_zero_iff.mp hzero
    rw [hbefore hnil, hnil]
    rfl
  · have hslice := slice_split before mid []
    rw [append_nil, ← length_append] at hslice
    rw [concatenateReverse_collect, hslice]

theorem finish_past {path : List Char} (hpos : 0 < i) (hle : path.length ≤ i)
    (res : List (List Char)) : finish path i res = concatenateReverse res := by
  rw [finish, if_neg hpos.ne', collect, if_pos hle]

private theorem getElem?_split (before after : List Char) (ch : Char) (hj : j = before.length) :
    (before ++ ch :: after)[j]? = some ch := by
  rw [hj, getElem?_append_right le_rfl, Nat.sub_self]
  rfl

theorem inside_component (mid : List Char) (cs : List (List Char)) (hmid : '/' ∉ mid)
    (before : List Char) (hj : j = before.length) (i : ℕ) (res : List (List Char)) :
    inside (before ++ (mid ++ (separator cs ++ joined cs))) i j res =
      if cs = [] then finish (before ++ mid) i res
      else boundary (before ++ (mid ++ (separator cs ++ joined cs))) i (j + mid.length + 1) res := by
  induction mid generalizing before j with
  | nil =>
    cases cs with
    | nil =>
      rw [inside, if_pos (by simp [separator, joined, hj])]
      rfl
    | cons c cs =>
      have hslash : (before ++ ([] ++ (separator (c :: cs) ++ joined (c :: cs))))[j]? =
          some '/' := getElem?_split before _ '/' hj
      rw [inside, if_neg (by simp [separator, hj]), if_pos hslash]
      rfl
  | cons ch mid ih =>
    have hch : ch ≠ '/' := fun heq => hmid (heq ▸ mem_cons_self)
    have hat : (before ++ (ch :: mid ++ (separator cs ++ joined cs)))[j]? = some ch :=
      getElem?_split before _ ch hj
    have hrest := ih (fun hmem => hmid (mem_cons_of_mem ch hmem)) (before ++ [ch])
      (j := j + 1) (by simp [hj])
    have hsplit : before ++ [ch] ++ (mid ++ (separator cs ++ joined cs)) =
        before ++ (ch :: mid ++ (separator cs ++ joined cs)) := by simp
    have hdone : before ++ [ch] ++ mid = before ++ ch :: mid := by simp
    rw [hsplit, hdone] at hrest
    rw [inside, if_neg (by simp [hj]), hat, if_neg (by simpa using hch), hrest,
      length_cons, Nat.add_right_comm j 1, Nat.add_assoc j]

/-! ## A component at a time -/

section Component

variable {before pend : List Char} {i j : ℕ}

private theorem at_offset (hj : j = before.length + pend.length) (skipped : List Char) (ch : Char)
    (rest : List Char) {k : ℕ} (hk : k = j + skipped.length) :
    (before ++ (pend ++ (skipped ++ ch :: rest)))[k]? = some ch := by
  have hget := getElem?_split (before ++ (pend ++ skipped)) rest ch (j := k)
    (by simp [hk, hj, Nat.add_assoc])
  simpa using hget

private theorem not_end (hj : j = before.length + pend.length) (ch : Char) (rest : List Char) :
    ¬(before ++ (pend ++ ch :: rest)).length ≤ j := by
  simp [hj]

theorem boundary_slash (hi : i = before.length) (hj : j = before.length + pend.length)
    (rest : List Char) (res : List (List Char)) :
    boundary (before ++ (pend ++ '/' :: rest)) i j res =
      boundary (before ++ (pend ++ '/' :: rest)) (j + 1) (j + 1) (push pend res) := by
  have hslash := at_offset hj [] '/' rest rfl
  rw [nil_append, length_nil, Nat.add_zero] at hslash
  rw [boundary, if_neg (not_end hj _ _), hslash, if_neg (by simp), if_pos rfl,
    collect_split before pend _ res hi hj]

theorem boundary_dot (hi : i = before.length) (hj : j = before.length + pend.length)
    (cs : List (List Char)) (res : List (List Char)) :
    boundary (before ++ (pend ++ '.' :: (separator cs ++ joined cs))) i j res =
      boundary (before ++ (pend ++ '.' :: (separator cs ++ joined cs))) (j + 2) (j + 2)
        (push pend res) := by
  have hdot := at_offset hj [] '.' (separator cs ++ joined cs) rfl
  rw [nil_append, length_nil, Nat.add_zero] at hdot
  have hstop : j = (before ++ (pend ++ '.' :: (separator cs ++ joined cs))).length - 1 ∨
      (before ++ (pend ++ '.' :: (separator cs ++ joined cs)))[j + 1]? = some '/' := by
    by_cases hnil : cs = []
    · left
      simp [hnil, separator, joined, hj]
    · right
      rw [separator, if_neg hnil]
      exact at_offset hj ['.'] '/' (joined cs) rfl
  rw [boundary, if_neg (not_end hj _ _), if_pos hdot, if_pos hstop, push]
  cases pend with
  | nil => rw [if_pos (by simp [hi, hj]), if_pos rfl]
  | cons ch pend =>
    rw [if_neg (by simp [hi, hj]), if_neg (by simp), hi, hj, slice_split]

theorem boundary_dots (hi : i = before.length) (hj : j = before.length + pend.length)
    (hpos : 0 < j) (cs : List (List Char)) (res : List (List Char)) :
    boundary (before ++ (pend ++ '.' :: '.' :: (separator cs ++ joined cs))) i j res =
      boundary (before ++ (pend ++ '.' :: '.' :: (separator cs ++ joined cs))) (j + 3) (j + 3)
        (parent pend res) := by
  have hdot := at_offset hj [] '.' ('.' :: (separator cs ++ joined cs)) rfl
  have hdots := at_offset hj ['.'] '.' (separator cs ++ joined cs) rfl
  rw [nil_append, length_nil, Nat.add_zero] at hdot
  rw [singleton_append, length_singleton] at hdots
  have hstop : (before ++ (pend ++ '.' :: '.' :: (separator cs ++ joined cs))).length - 2 ≤ j ∨
      (before ++ (pend ++ '.' :: '.' :: (separator cs ++ joined cs)))[j + 2]? = some '/' := by
    by_cases hnil : cs = []
    · left
      simp [hnil, separator, joined, hj]
      omega
    · right
      rw [separator, if_neg hnil]
      exact at_offset hj ['.', '.'] '/' (joined cs) rfl
  have hnot : ¬(j = (before ++ (pend ++ '.' :: '.' :: (separator cs ++ joined cs))).length - 1 ∨
      (before ++ (pend ++ '.' :: '.' :: (separator cs ++ joined cs)))[j + 1]? = some '/') := by
    rw [hdots]
    simp [hj]
    omega
  rw [boundary, if_neg (not_end hj _ _), if_pos hdot, if_neg hnot, if_pos hdots, if_pos hstop,
    parent]
  by_cases hshort : pend.length ≤ 1
  · rw [if_pos hshort, if_pos (by omega)]
  · rw [if_neg hshort, if_neg (by omega), hi, hj, slice_split]

theorem boundary_name (hj : j = before.length + pend.length) {c : List Char} (hslash : '/' ∉ c)
    (hempty : c ≠ []) (hone : c ≠ ['.']) (htwo : c ≠ ['.', '.']) (rest : List Char)
    (res : List (List Char)) :
    ∃ before' after', c = before' ++ after' ∧
      boundary (before ++ (pend ++ (c ++ rest))) i j res =
        inside (before ++ (pend ++ (c ++ rest))) i (j + before'.length) res := by
  cases c with
  | nil => exact absurd rfl hempty
  | cons ch c =>
    have hch_ne : ch ≠ '/' := fun heq => hslash (by simp [heq])
    have hch : (before ++ (pend ++ (ch :: c ++ rest)))[j]? = some ch :=
      at_offset hj [] ch (c ++ rest) rfl
    have hend : ¬(before ++ (pend ++ (ch :: c ++ rest))).length ≤ j := not_end hj ch (c ++ rest)
    rw [boundary, if_neg hend, hch]
    by_cases hdot : ch = '.'
    · cases c with
      | nil => exact absurd (by rw [hdot]) hone
      | cons d c =>
        have hd_ne : d ≠ '/' := fun heq => hslash (by simp [heq])
        have hd : (before ++ (pend ++ (ch :: d :: c ++ rest)))[j + 1]? = some d :=
          at_offset hj [ch] d (c ++ rest) rfl
        have hnot : ¬(j = (before ++ (pend ++ (ch :: d :: c ++ rest))).length - 1 ∨
            (before ++ (pend ++ (ch :: d :: c ++ rest)))[j + 1]? = some '/') := by
          rw [hd]
          simp [hj, hd_ne]
          omega
        rw [if_pos (by rw [hdot]), if_neg hnot, hd]
        by_cases hdots : d = '.'
        · cases c with
          | nil => exact absurd (by rw [hdot, hdots]) htwo
          | cons e c =>
            have he_ne : e ≠ '/' := fun heq => hslash (by simp [heq])
            have he : (before ++ (pend ++ (ch :: d :: e :: c ++ rest)))[j + 2]? = some e :=
              at_offset hj [ch, d] e (c ++ rest) rfl
            rw [if_pos (by rw [hdots]), if_neg]
            · exact ⟨[ch, d], e :: c, rfl, rfl⟩
            · rw [he]
              simp [hj, he_ne]
              omega
        · rw [if_neg (by simpa using hdots)]
          exact ⟨[ch], d :: c, rfl, rfl⟩
    · rw [if_neg (by simpa using hdot), if_neg (by simpa using hch_ne)]
      exact ⟨[ch], c, rfl, rfl⟩

end Component

theorem boundary_scan (cs : List (List Char)) (hcs : ∀ c ∈ cs, '/' ∉ c) (before pend : List Char)
    (res : List (List Char)) (hbefore : before = [] → res = []) (hi : i = before.length)
    (hj : j = before.length + pend.length) (hpos : 0 < j) :
    boundary (before ++ (pend ++ joined cs)) i j res = scan res pend cs := by
  induction cs generalizing before pend res i j with
  | nil =>
    have hend : before ++ (pend ++ joined []) = before ++ pend := by rw [joined, append_nil]
    rw [hend, boundary, if_pos (by simp [hj]), hi, finish_split hbefore]
    rfl
  | cons c cs ih =>
    have hc : '/' ∉ c := hcs c mem_cons_self
    have hrest : ∀ d ∈ cs, '/' ∉ d := fun d hd => hcs d (mem_cons_of_mem c hd)
    -- behind an empty component or dots the scan starts over with nothing pending
    have hfresh : ∀ (res' : List (List Char)), (c ≠ [] ∨ cs ≠ []) →
        boundary (before ++ (pend ++ (c ++ (separator cs ++ joined cs)))) (j + c.length + 1)
          (j + c.length + 1) res' = scan res' [] cs := by
      intro res' hsome
      by_cases hnil : cs = []
      · have hle : (before ++ (pend ++ (c ++ (separator cs ++ joined cs)))).length ≤
            j + c.length + 1 := by
          simp [hnil, separator, joined, hj]
          omega
        rw [boundary, if_pos hle, finish_past (Nat.succ_pos _) hle, hnil, scan, append_nil]
      · have hsep : separator cs = ['/'] := if_neg hnil
        have hstart := ih hrest (before ++ (pend ++ (c ++ separator cs))) [] res'
          (fun heq => absurd heq (by simp [hsep])) (i := j + c.length + 1)
          (j := j + c.length + 1) (by simp [hsep, hj, Nat.add_assoc])
          (by simp [hsep, hj, Nat.add_assoc]) (Nat.succ_pos _)
        rw [← hstart]
        simp
    rw [joined]
    by_cases hskip : c = [] ∨ c = ['.']
    · rw [scan, if_pos hskip]
      rcases hskip with rfl | rfl
      · by_cases hnil : cs = []
        · have hend : before ++ (pend ++ ([] ++ (separator [] ++ joined []))) =
              before ++ pend := by simp [separator, joined]
          rw [hnil, hend, boundary, if_pos (by simp [hj]), hi, finish_split hbefore, scan,
            concatenateReverse_push, append_nil]
        · rw [← hfresh (push pend res) (Or.inr hnil), separator, if_neg hnil]
          exact boundary_slash hi hj (joined cs) res
      · rw [← hfresh (push pend res) (Or.inl (by simp))]
        exact boundary_dot hi hj cs res
    · obtain ⟨hempty, hone⟩ := not_or.mp hskip
      rw [scan, if_neg hskip]
      by_cases htwo : c = ['.', '.']
      · rw [if_pos htwo, ← hfresh (parent pend res) (Or.inl hempty), htwo]
        exact boundary_dots hi hj hpos cs res
      · obtain ⟨before', after', hsplit, hstep⟩ := boundary_name (i := i) hj hc hempty hone
          htwo (separator cs ++ joined cs) res
        have hpath : before ++ (pend ++ (c ++ (separator cs ++ joined cs))) =
            before ++ (pend ++ before') ++ (after' ++ (separator cs ++ joined cs)) := by
          simp [hsplit]
        have hafter : '/' ∉ after' := fun hmem => hc (hsplit ▸ mem_append_right _ hmem)
        rw [if_neg htwo, hstep, hpath,
          inside_component after' cs hafter _ (by simp [hj, Nat.add_assoc]), ← hpath]
        split
        · rename_i hnil
          have hdone : before ++ (pend ++ before') ++ after' = before ++ (pend ++ c) := by
            simp [hsplit]
          rw [hdone, hi, finish_split hbefore, hnil, scan, separator, if_pos rfl, append_nil]
        · rename_i hne
          have hsep : separator cs = ['/'] := if_neg hne
          have hnext := ih hrest before (pend ++ (c ++ separator cs)) res hbefore (i := i)
            (j := j + before'.length + after'.length + 1) hi
            (by simp [hsep, hj, hsplit, Nat.add_assoc]) (Nat.succ_pos _)
          rw [← hnext]
          simp

theorem slash_not_mem_components (path : List Char) : ∀ c ∈ components path, '/' ∉ c := by
  induction path with
  | nil => simp [components]
  | cons ch path ih =>
    unfold components at ih ⊢
    rw [splitOn_cons_eq_if_modifyHead]
    cases hsplit : path.splitOn '/' with
    | nil => exact absurd hsplit (splitOn_ne_nil '/' path)
    | cons c cs =>
      rw [hsplit] at ih
      by_cases hslash : ch = '/'
      · simpa [hslash] using ih
      · simpa [hslash, Ne.symm hslash] using ih

theorem joined_components (path : List Char) : joined (components path) = path := by
  induction path with
  | nil => rfl
  | cons ch path ih =>
    unfold components at ih ⊢
    rw [splitOn_cons_eq_if_modifyHead]
    cases hsplit : path.splitOn '/' with
    | nil => exact absurd hsplit (splitOn_ne_nil '/' path)
    | cons c cs =>
      rw [hsplit] at ih
      by_cases hslash : ch = '/'
      · simp [hslash, joined, separator, ← ih]
      · simp [hslash, joined, ← ih]

variable {c : List Char}

theorem components_joined {cs : List (List Char)} (hc : '/' ∉ c) (hcs : ∀ d ∈ cs, '/' ∉ d) :
    components (joined (c :: cs)) = c :: cs := by
  have hnone : ∀ {d : List Char}, '/' ∉ d → ∀ ch ∈ d, (ch == '/') = false := by
    intro d hd ch hch
    exact beq_false_of_ne fun heq => hd (heq ▸ hch)
  induction cs generalizing c with
  | nil =>
    rw [components, splitOn_eq_splitOnP, joined, separator, if_pos rfl, joined,
      append_nil, append_nil, splitOnP_eq_singleton (hnone hc)]
  | cons d cs ih =>
    have hrest := ih (hcs d mem_cons_self) fun e he =>
      hcs e (mem_cons_of_mem d he)
    rw [components, splitOn_eq_splitOnP] at hrest ⊢
    rw [joined, separator, if_neg (by simp), singleton_append,
      splitOnP_append_cons_of_forall_mem (hnone hc) '/' rfl, hrest]

theorem pathNormalize_eq {path : List Char} {cs : List (List Char)}
    (hpath : components path = c :: cs) :
    pathNormalize path = scan [] (c ++ separator cs) cs := by
  have hslash := slash_not_mem_components path
  have hjoined := joined_components path
  rw [hpath] at hslash hjoined
  have hc := hslash c mem_cons_self
  have hcs : ∀ d ∈ cs, '/' ∉ d := fun d hd => hslash d (mem_cons_of_mem c hd)
  rw [joined] at hjoined
  cases c with
  | nil =>
    by_cases hnil : cs = []
    · rw [← hjoined, hnil]
      rfl
    · have hsep : separator cs = ['/'] := if_neg hnil
      have hscan := boundary_scan cs hcs [] ['/'] [] (fun _ => rfl) (i := 0) (j := 1) rfl rfl
        Nat.one_pos
      rw [← hjoined, hsep, nil_append ['/'], ← hscan]
      change pathNormalize ('/' :: joined cs) = boundary ('/' :: joined cs) 0 1 []
      rw [pathNormalize, if_pos rfl]
  | cons ch c =>
    have hch : ch ≠ '/' := fun heq => hc (by simp [heq])
    have hrest : '/' ∉ c := fun hmem => hc (mem_cons_of_mem ch hmem)
    have hinside := inside_component c cs hrest [ch] (j := 1) rfl 0 []
    have hstart : pathNormalize path = inside path 0 1 [] := by
      rw [← hjoined]
      exact if_neg hch
    have hsplit : [ch] ++ (c ++ (separator cs ++ joined cs)) = path := hjoined
    rw [hsplit] at hinside
    rw [hstart, hinside]
    split
    · rename_i hnil
      rw [hnil, finish, if_pos rfl]
      simp [scan, separator]
    · have hscan := boundary_scan cs hcs [] (ch :: c ++ separator cs) [] (fun _ => rfl) (i := 0)
        (j := 1 + c.length + 1) rfl (by simp [separator, *]; omega) (Nat.succ_pos _)
      rw [← hscan, nil_append, append_assoc, hjoined]

/-! ## Directories -/

private theorem not_slash (hc : '/' ∉ c) : ∀ ch ∈ c, (ch == '/') = false :=
  fun _ hch => beq_false_of_ne fun heq => hc (heq ▸ hch)

variable {slashes : List Char}

theorem stringSkipRight_slash {before : List Char} {ch : Char} (hch : ch ≠ '/')
    (hslashes : ∀ d ∈ slashes, d = '/') (after : List Char)
    (hi : i = before.length + 1 + slashes.length) :
    stringSkipRight (· == '/') (before ++ (ch :: slashes ++ after)) 0 i = before.length + 1 := by
  apply stringFindRight_found _ _ before after hi
  · intro d hd
    simp [hslashes d hd]
  · simpa using hch

private theorem stop_eq (hc : '/' ∉ c) (hempty : c ≠ []) (hslashes : ∀ d ∈ slashes, d = '/')
    (before : List Char) :
    stringSkipRight (· == '/') (before ++ (c ++ slashes)) 0
      (before ++ (c ++ slashes)).length = before.length + c.length ∧
    before ++ (c ++ slashes) ≠ [] ∧ before.length + c.length ≠ 0 := by
  have hlast := dropLast_append_getLast hempty
  have hne : c.getLast hempty ≠ '/' := fun heq => hc (heq ▸ getLast_mem hempty)
  have hlength := congrArg List.length hlast
  have hskip := @stringSkipRight_slash (before ++ (c ++ slashes)).length _ (before ++ c.dropLast) _ hne
    hslashes [] (by simp; simp at hlength; omega)
  have hsplit : before ++ c.dropLast ++ (c.getLast hempty :: slashes ++ []) =
      before ++ (c ++ slashes) := by
    conv_rhs => rw [← hlast]
    simp
  have hpos := length_pos_iff.mpr hempty
  rw [hsplit] at hskip
  refine ⟨hskip.trans ?_, by simp [hempty], by omega⟩
  rw [length_append, length_append, length_singleton] at *
  omega

theorem pathDirectory_single (hc : '/' ∉ c) (hempty : c ≠ []) (hslashes : ∀ d ∈ slashes, d = '/') :
    pathDirectory (c ++ slashes) = ['.'] := by
  obtain ⟨hstop, hpath, hpos⟩ := stop_eq hc hempty hslashes []
  have hslash := stringFindRight_none (not_slash hc) slashes
  simp only [nil_append, length_nil, Nat.zero_add] at hstop hpath hpos
  rw [pathDirectory, if_neg hpath]
  dsimp only
  rw [hstop, if_neg hpos, hslash, if_pos rfl]

theorem pathDirectory_split {u : List Char} {ch : Char} (hch : ch ≠ '/') (hc : '/' ∉ c)
    (hempty : c ≠ []) (hslashes : ∀ d ∈ slashes, d = '/') :
    pathDirectory (u ++ [ch] ++ ['/'] ++ (c ++ slashes)) = u ++ [ch] := by
  obtain ⟨hstop, hpath, hpos⟩ := stop_eq hc hempty hslashes (u ++ [ch] ++ ['/'])
  have hslash := @stringFindRight_found ((u ++ [ch] ++ ['/']).length + c.length) '/' (· == '/') c
    (not_slash hc) (by simp) (u ++ [ch]) slashes (by simp)
  have hskip := @stringSkipRight_slash ((u ++ [ch]).length + 1) ['/'] u ch hch (by simp) (c ++ slashes)
    (by simp)
  have hslice := slice_split [] (u ++ [ch]) (['/'] ++ (c ++ slashes))
  have hone : u ++ [ch] ++ ('/' :: c ++ slashes) = u ++ [ch] ++ ['/'] ++ (c ++ slashes) := by simp
  have htwo : u ++ (ch :: ['/'] ++ (c ++ slashes)) = u ++ [ch] ++ ['/'] ++ (c ++ slashes) := by
    simp
  have hthree : [] ++ (u ++ [ch] ++ (['/'] ++ (c ++ slashes))) =
      u ++ [ch] ++ ['/'] ++ (c ++ slashes) := by simp
  rw [hone] at hslash
  rw [htwo] at hskip
  rw [hthree, length_nil, Nat.zero_add, length_append, length_singleton] at hslice
  rw [pathDirectory, if_neg hpath]
  dsimp only
  rw [hstop, if_neg hpos, hslash, if_neg (Nat.succ_ne_zero _), hskip,
    if_neg (Nat.succ_ne_zero _), hslice]

theorem pathDirectory_root (hc : '/' ∉ c) (hempty : c ≠ []) (hslashes : ∀ d ∈ slashes, d = '/') :
    pathDirectory (['/'] ++ (c ++ slashes)) = ['/'] := by
  obtain ⟨hstop, hpath, hpos⟩ := stop_eq hc hempty hslashes ['/']
  have hslash := @stringFindRight_found (['/'].length + c.length) '/' (· == '/') c (not_slash hc)
    (by simp) [] slashes (by simp)
  have hskip := @stringFindRight_none (fun ch => !ch == '/') ['/'] (by simp) (c ++ slashes)
  have hone : [] ++ ('/' :: c ++ slashes) = ['/'] ++ (c ++ slashes) := by simp
  rw [hone] at hslash
  rw [pathDirectory, if_neg hpath]
  dsimp only
  rw [hstop, if_neg hpos, hslash, if_neg (Nat.succ_ne_zero _)]
  exact if_pos hskip

end ChibiScheme.Path
