import ChibiScheme.Path.Pieces

/-!
# Names for extraction

`tar-extract` normalizes the name of an entry, strips the parents in front of it and
then the slashes.  The name that is left is relative and has no component `..`,
whatever the name in the archive is: where the normalizer is wrong about the place
that a path denotes, its result still has parents in front only.
-/

namespace ChibiScheme.Path

open CharString List

/-- `..` stands only in front. -/
def ParentsInFront (cs : List (List Char)) : Prop :=
  ['.', '.'] ∉ cs.dropWhile (· == ['.', '.'])

variable {cs : List (List Char)}

theorem parentsInFront_of_names (hcs : ∀ c ∈ cs, c ≠ ['.', '.']) : ParentsInFront cs := by
  intro hmem
  exact hcs _ (dropWhile_subset _ hmem) rfl

theorem parentsInFront_cons_dots : ParentsInFront (['.', '.'] :: cs) ↔ ParentsInFront cs := by
  rw [ParentsInFront, ParentsInFront, dropWhile_cons_of_pos (by simp)]

/-! ## The result of the normalizer -/

/-- All components behind parents are names, and so are all behind the first one. -/
structure Named (k : ℕ) (cs : List (List Char)) : Prop where
  slash : ∀ c ∈ cs, '/' ∉ c
  tail : ∀ c ∈ cs.tail, IsName c
  all : k ≠ 0 → ∀ c ∈ cs, IsName c

variable {alone : Prop} {res : List (List Char)} {k : ℕ}

theorem Named.append {ds : List (List Char)} (hnamed : Named k cs) (below : Pieces alone res k cs)
    (hfits : Fits res ds) : Named k (cs ++ ds) := by
  cases res with
  | nil =>
    obtain ⟨rfl, rfl⟩ := below.eq_nil
    exact ⟨hfits.slash, hfits.tail, fun hzero => absurd rfl hzero⟩
  | cons s res =>
    have hnames := hfits.names (by simp)
    refine ⟨?_, ?_, ?_⟩
    · exact fun c hc => (mem_append.mp hc).elim (hnamed.slash c) (hfits.slash c)
    · intro c hc
      cases cs with
      | nil => exact hnames c (mem_of_mem_tail hc)
      | cons d cs => exact (mem_append.mp hc).elim (hnamed.tail c) (hnames c)
    · exact fun hk c hc => (mem_append.mp hc).elim (hnamed.all hk c) (hnames c)

theorem Pieces.named (hpieces : Pieces alone res k cs) : Named k cs := by
  induction hpieces with
  | none => exact ⟨by simp, by simp, by simp⟩
  | parents k => exact ⟨by simp, by simp, by simp⟩
  | slice below hne hfits halone ih => exact ih.append below hfits
  | pair below hfits hempty hdot ih => exact ih.append below hfits

theorem ascent_append (k : ℕ) (cs : List (List Char)) (last : List Char) :
    ascent (k + 1) ++ (directory cs ++ last) =
      match cs with
      | [] => directory (List.replicate k ['.', '.']) ++ (['.', '.'] ++ last)
      | c :: cs => directory (List.replicate k ['.', '.'] ++ (['.', '.'] ++ c) :: cs) ++ last := by
  have hfront : (List.replicate k ['.', '.', '/']).flatten =
      directory (List.replicate k ['.', '.']) := by
    induction k with
    | zero => rfl
    | succ k ih => rw [replicate_succ, replicate_succ, flatten_cons, ih]; rfl
  rw [ascent, hfront]
  cases cs with
  | nil => simp
  | cons c cs => simp [directory_append, directory_cons]

theorem parentsInFront_replicate (k : ℕ) (hcs : ParentsInFront cs) :
    ParentsInFront (List.replicate k ['.', '.'] ++ cs) := by
  induction k with
  | zero => exact hcs
  | succ k ih =>
    rw [replicate_succ, cons_append]
    exact parentsInFront_cons_dots.mpr ih

theorem Pieces.parentsInFront (hpieces : Pieces alone res k cs) {last : List Char}
    (hlast : last = [] ∨ IsName last) :
    ParentsInFront (components (concatenateReverse res ++ last)) := by
  obtain ⟨hslash, htail, hnames⟩ := hpieces.named
  have hlast_slash : '/' ∉ last := by
    rcases hlast with rfl | hname
    · simp
    · exact hname.slash
  have hlast_ne : last ≠ ['.', '.'] := by
    rcases hlast with rfl | hname
    · simp
    · exact hname.dots
  have hdots : ∀ c : List Char, '/' ∉ c → '/' ∉ ['.', '.'] ++ c := by
    intro c hc
    simpa using hc
  have hreplicate : ∀ k : ℕ, ∀ c ∈ List.replicate k ['.', '.'], '/' ∉ c := by
    intro k c hc
    rw [eq_of_mem_replicate hc]
    simp
  rw [hpieces.path_eq, append_assoc]
  cases k with
  | zero =>
    rw [ascent, nil_append, components_directory hslash hlast_slash]
    cases cs with
    | nil => exact parentsInFront_of_names (by simpa using hlast_ne)
    | cons c cs =>
      have hrest : ∀ d ∈ cs ++ [last], d ≠ ['.', '.'] := by
        intro d hd
        rcases mem_append.mp hd with hd | hd
        · exact (htail d hd).dots
        · rwa [mem_singleton.mp hd]
      by_cases hc : c = ['.', '.']
      · rw [hc]
        exact parentsInFront_cons_dots.mpr (parentsInFront_of_names hrest)
      · apply parentsInFront_of_names
        intro d hd
        rcases mem_cons.mp hd with rfl | hd
        · exact hc
        · exact hrest d hd
  | succ k =>
    rw [ascent_append]
    cases cs with
    | nil =>
      dsimp only
      rw [components_directory (hreplicate k) (hdots last hlast_slash)]
      apply parentsInFront_replicate
      by_cases hnil : last = []
      · rw [hnil]
        exact parentsInFront_cons_dots.mpr (parentsInFront_of_names (by simp))
      · exact parentsInFront_of_names (by simpa using hnil)
    | cons c cs =>
      dsimp only
      have hall := hnames (Nat.succ_ne_zero k)
      rw [components_directory _ hlast_slash, append_assoc]
      · apply parentsInFront_replicate
        apply parentsInFront_of_names
        intro d hd
        rw [cons_append] at hd
        rcases mem_cons.mp hd with rfl | hd
        · simpa using (hall c mem_cons_self).empty
        · rcases mem_append.mp hd with hd | hd
          · exact (hall d (mem_cons_of_mem c hd)).dots
          · rwa [mem_singleton.mp hd]
      · intro d hd
        rcases mem_append.mp hd with hd | hd
        · exact hreplicate k d hd
        · rcases mem_cons.mp hd with rfl | hd
          · exact hdots c (hslash c mem_cons_self)
          · exact hslash d (mem_cons_of_mem c hd)

variable {c : List Char}

theorem isName_of_ne (hslash : '/' ∉ c) (hskip : ¬(c = [] ∨ c = ['.']))
    (hdots : c ≠ ['.', '.']) : IsName c :=
  ⟨hslash, (not_or.mp hskip).1, (not_or.mp hskip).2, hdots⟩

theorem scan_parentsInFront (rest : List (List Char)) (hrest : ∀ c ∈ rest, '/' ∉ c)
    {res cs ps : List (List Char)} {k : ℕ} (hpieces : Pieces True res k cs) (hfits : Fits res ps) :
    ParentsInFront (components (scan res (directory ps) rest)) := by
  induction rest generalizing res cs ps k with
  | nil =>
    have hend := (hpieces.push hfits fun _ _ _ => trivial).parentsInFront (Or.inl rfl)
    rwa [concatenateReverse_push, append_nil] at hend
  | cons c rest ih =>
    have hnext := @ih fun d hd => hrest d (mem_cons_of_mem c hd)
    rw [scan]
    split
    · exact hnext (hpieces.push hfits fun _ _ _ => trivial) (Fits.nil _)
    rename_i hskip
    split
    · by_cases hroot : ps = [[]]
      · have hparent : parent (directory [[]]) [] = backupRes [] := rfl
        have hnot : ¬IsName [] := fun hname => hname.empty rfl
        rw [hroot] at hfits ⊢
        obtain ⟨rfl, -, -⟩ := hpieces.first hfits hnot
        rw [hparent]
        exact hnext (.parents 0) (Fits.nil _)
      · obtain ⟨k', cs', hup, -⟩ := (hpieces.push hfits fun _ _ _ => trivial).backupRes
        rw [parent_eq hroot]
        exact hnext hup (Fits.nil _)
    · rename_i hdots
      have hname := isName_of_ne (hrest c mem_cons_self) hskip hdots
      by_cases hlast : rest = []
      · have hend := (hpieces.push hfits fun _ _ _ => trivial).parentsInFront (Or.inr hname)
        rw [concatenateReverse_push, append_assoc] at hend
        rw [hlast, scan, separator, if_pos rfl, append_nil]
        exact hend
      · rw [separator, if_neg hlast, ← directory_concat]
        exact hnext hpieces (hfits.snoc hname)

theorem pathNormalize_parentsInFront (path : List Char) :
    ParentsInFront (components (pathNormalize path)) := by
  have hslash := slash_not_mem_components path
  cases hpath : components path with
  | nil => exact absurd hpath (splitOn_ne_nil '/' path)
  | cons c cs =>
    rw [hpath] at hslash
    have hc := hslash c mem_cons_self
    rw [pathNormalize_eq hpath]
    by_cases hnil : cs = []
    · have hsingle : components (scan [] (c ++ separator []) []) = [c] := by
        have hjoined := @components_joined c [] hc (by simp)
        rw [joined, separator, if_pos rfl, joined] at hjoined
        simpa [scan, separator] using hjoined
      rw [hnil, hsingle]
      by_cases hdots : c = ['.', '.']
      · rw [hdots]
        exact parentsInFront_cons_dots.mpr (parentsInFront_of_names (by simp))
      · exact parentsInFront_of_names (by simpa using hdots)
    · have hscan := scan_parentsInFront cs (fun d hd => hslash d (mem_cons_of_mem c hd))
        .none (⟨by simpa using hc, by simp, by simp⟩ : Fits [] [c])
      rw [directory_cons, directory_nil, append_nil] at hscan
      rwa [separator, if_neg hnil]

/-! ## Stripping -/

theorem pathStripLeadingParents_of_ne {path : List Char} (hpath : components path = c :: cs)
    (hc : c ≠ ['.', '.']) :
    pathStripLeadingParents path = path := by
  unfold pathStripLeadingParents
  split
  · rename_i rest
    have hfirst := @components_joined ['.', '.'] (components rest) (by simp)
      (slash_not_mem_components rest)
    have hne : components rest ≠ [] := splitOn_ne_nil '/' rest
    rw [joined, joined_components, separator, if_neg hne] at hfirst
    have heq : components ('.' :: '.' :: '/' :: rest) = ['.', '.'] :: components rest := hfirst
    rw [heq] at hpath
    exact absurd (List.cons.inj hpath).1.symm hc
  · split
    · rename_i hdots
      rw [hdots] at hpath
      exact absurd (List.cons.inj hpath).1.symm hc
    · rfl

theorem pathStripLeadingParents_names (hslash : ∀ d ∈ c :: cs, '/' ∉ d)
    (hfront : ParentsInFront (c :: cs)) :
    ∀ d ∈ components (pathStripLeadingParents (joined (c :: cs))), d ≠ ['.', '.'] := by
  induction cs generalizing c with
  | nil =>
    have hcomponents := @components_joined c [] (hslash c mem_cons_self) (by simp)
    by_cases hdots : c = ['.', '.']
    · rw [hdots]
      decide
    · rw [pathStripLeadingParents_of_ne hcomponents hdots, hcomponents]
      simpa using hdots
  | cons d cs ih =>
    have hrest : ∀ e ∈ d :: cs, '/' ∉ e := fun e he => hslash e (mem_cons_of_mem c he)
    have hcomponents := components_joined (hslash c mem_cons_self) hrest
    by_cases hdots : c = ['.', '.']
    · rw [hdots] at hfront ⊢
      exact ih hrest (parentsInFront_cons_dots.mp hfront)
    · rw [pathStripLeadingParents_of_ne hcomponents hdots, hcomponents]
      rw [ParentsInFront, dropWhile_cons_of_neg (by simpa using hdots)] at hfront
      exact fun e he heq => hfront (heq ▸ he)

theorem components_dropWhile (path : List Char) :
    ∀ c ∈ components (path.dropWhile (· == '/')), c ∈ components path := by
  induction path with
  | nil => exact fun c hc => hc
  | cons ch path ih =>
    by_cases hslash : ch = '/'
    · intro c hc
      have heq : components ('/' :: path) = [] :: components path := by
        simp [components, splitOn_cons_eq_if_modifyHead]
      rw [hslash, dropWhile_cons_of_pos (by simp)] at hc
      rw [hslash, heq]
      exact mem_cons_of_mem [] (ih c hc)
    · rw [dropWhile_cons_of_neg (by simpa using hslash)]
      exact fun c hc => hc

/-- The name under which an entry is extracted is relative and has no component `..`. -/
theorem safePath_safe (path : List Char) :
    pathAbsolute (safePath path) = false ∧ ∀ c ∈ components (safePath path), c ≠ ['.', '.'] := by
  have hfront := pathNormalize_parentsInFront path
  have hslash := slash_not_mem_components (pathNormalize path)
  have hjoined := joined_components (pathNormalize path)
  rw [safePath, stringTrimLeft_eq]
  refine ⟨?_, ?_⟩
  · have hhead := head?_dropWhile_not (· == '/') (pathStripLeadingParents (pathNormalize path))
    unfold pathAbsolute
    cases hrest : (pathStripLeadingParents (pathNormalize path)).dropWhile (· == '/') with
    | nil => rfl
    | cons ch rest =>
      rw [hrest] at hhead
      simpa using hhead
  · intro c hc
    have hmem := components_dropWhile _ c hc
    cases hpath : components (pathNormalize path) with
    | nil => exact absurd hpath (splitOn_ne_nil '/' _)
    | cons d ds =>
      rw [hpath] at hfront hslash hjoined
      rw [← hjoined] at hmem
      exact pathStripLeadingParents_names hslash hfront c hmem

end ChibiScheme.Path
