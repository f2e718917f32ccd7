import ChibiScheme.Path.Normalize

/-!
# The pieces of a canonical path

What the list `res` of the scan can be.  Its pieces are parents of the current
directory, of which there can be several at the bottom, and components above them:
as one piece that ends with a slash, or, where a `..` has removed what was behind
them, as a piece without a slash and a slash.

All components are names, except for the first of the path if nothing has replaced
it: that of an absolute path is empty, and that of a relative path may be dots.
-/

namespace ChibiScheme.Path

open CharString List

/-- A component that is neither empty nor made of dots for a directory. -/
structure IsName (c : List Char) : Prop where
  slash : '/' ∉ c
  empty : c ≠ []
  dot : c ≠ ['.']
  dots : c ≠ ['.', '.']

/-- The path of components that have a slash behind them. -/
def directory (cs : List (List Char)) : List Char := cs.flatMap (· ++ ['/'])

@[simp] theorem directory_nil : directory [] = [] := rfl

theorem directory_cons (c : List Char) (cs : List (List Char)) :
    directory (c :: cs) = c ++ ['/'] ++ directory cs := rfl

theorem directory_append (cs ds : List (List Char)) :
    directory (cs ++ ds) = directory cs ++ directory ds := flatMap_append

theorem directory_concat (cs : List (List Char)) (c : List Char) :
    directory (cs ++ [c]) = directory cs ++ (c ++ ['/']) := by
  rw [directory_append, directory_cons, directory_nil, append_nil]

theorem directory_append_last (cs : List (List Char)) (c : List Char) :
    directory cs ++ c = joined (cs ++ [c]) := by
  induction cs with
  | nil => simp [joined, separator]
  | cons d cs ih => simp [directory_cons, joined, separator, ← ih]

variable {cs : List (List Char)} {c : List Char}

theorem components_directory (hcs : ∀ d ∈ cs, '/' ∉ d) (hc : '/' ∉ c) :
    components (directory cs ++ c) = cs ++ [c] := by
  rw [directory_append_last]
  cases cs with
  | nil => exact components_joined hc (by simp)
  | cons d cs =>
    apply components_joined (hcs d mem_cons_self)
    intro e he
    rcases mem_append.mp he with he | he
    · exact hcs e (mem_cons_of_mem d he)
    · rwa [mem_singleton.mp he]

/-- Components that may stand behind the pieces of `res`. -/
structure Fits (res : List (List Char)) (ds : List (List Char)) : Prop where
  slash : ∀ d ∈ ds, '/' ∉ d
  tail : ∀ d ∈ ds.tail, IsName d
  names : res ≠ [] → ∀ d ∈ ds, IsName d

/-- Dots at the start of a relative path. -/
def Dots (c : List Char) : Prop := c = ['.'] ∨ c = ['.', '.']

theorem Dots.not_isName (hdots : Dots c) : ¬IsName c :=
  fun hname => hdots.elim hname.dot hname.dots

/-- The pieces for `k` parents of the current directory and the components behind
them.  Dots at the start are a piece of their own only if `alone` allows it. -/
inductive Pieces (alone : Prop) : List (List Char) → ℕ → List (List Char) → Prop
  | none : Pieces alone [] 0 []
  | parents (k : ℕ) :
      Pieces alone (List.replicate k ['/', '.', '.'] ++ [['.', '.']]) (k + 1) []
  | slice {res cs ds : List (List Char)} {k : ℕ} (below : Pieces alone res k cs) (hne : ds ≠ [])
      (hfits : Fits res ds) (halone : ∀ d, ds = [d] → Dots d → alone) :
      Pieces alone (directory ds :: res) k (cs ++ ds)
  | pair {res cs ds : List (List Char)} {d : List Char} {k : ℕ} (below : Pieces alone res k cs)
      (hfits : Fits res (ds ++ [d])) (hempty : d ≠ []) (hdot : ds = [] → d ≠ ['.']) :
      Pieces alone (['/'] :: (directory ds ++ d) :: res) k (cs ++ (ds ++ [d]))

/-- The path of `k` parents. -/
def ascent : ℕ → List Char
  | 0 => []
  | k + 1 => (List.replicate k ['.', '.', '/']).flatten ++ ['.', '.']

theorem ascent_succ (k : ℕ) : ascent (k + 2) = ascent (k + 1) ++ ['/', '.', '.'] := by
  have hflatten : ∀ n : ℕ, (List.replicate (n + 1) ['.', '.', '/']).flatten =
      (List.replicate n ['.', '.', '/']).flatten ++ ['.', '.', '/'] := by
    intro n
    rw [replicate_succ', flatten_append]
    rfl
  rw [ascent, ascent, hflatten]
  simp

variable {alone : Prop} {res : List (List Char)} {k : ℕ}

theorem Pieces.path_eq (hpieces : Pieces alone res k cs) :
    concatenateReverse res = ascent k ++ directory cs := by
  induction hpieces with
  | none => rfl
  | parents k =>
    rw [directory_nil, append_nil]
    induction k with
    | zero => rfl
    | succ k ih =>
      rw [replicate_succ, cons_append, concatenateReverse_cons, ih, ascent_succ]
  | slice below hne hfits halone ih =>
    rw [concatenateReverse_cons, ih, directory_append, append_assoc]
  | pair below hfits hempty hdot ih =>
    rw [concatenateReverse_cons, concatenateReverse_cons, ih, directory_append, directory_concat]
    simp only [append_assoc]

theorem Pieces.eq_nil (hpieces : Pieces alone [] k cs) : k = 0 ∧ cs = [] := by
  generalize hres : ([] : List (List Char)) = res at hpieces
  cases hpieces with
  | none => exact ⟨rfl, rfl⟩
  | parents k => exact absurd hres (by simp)
  | slice below hne hfits halone => exact absurd hres (by simp)
  | pair below hfits hempty hdot => exact absurd hres (by simp)

theorem Fits.of_ne_nil {ds : List (List Char)} (hfits : Fits res ds) {ds' : List (List Char)}
    (hfront : ∃ rest, ds = ds' ++ rest) : Fits res ds' where
  slash d hd := by
    obtain ⟨rest, rfl⟩ := hfront
    exact hfits.slash d (mem_append_left rest hd)
  tail d hd := by
    obtain ⟨rest, rfl⟩ := hfront
    apply hfits.tail
    cases ds' with
    | nil => exact absurd hd (by simp)
    | cons e ds' => exact mem_append_left rest hd
  names hres d hd := by
    obtain ⟨rest, rfl⟩ := hfront
    exact hfits.names hres d (mem_append_left rest hd)

/-! ## Removing a component -/

section Removal

variable {res init : List (List Char)} {d slashes : List Char}

private theorem components_piece (hslash : ∀ c ∈ init ++ [d], '/' ∉ c) :
    components (directory init ++ d) = init ++ [d] ∧
      components (directory init ++ (d ++ ['/'])) = init ++ [d] ++ [[]] := by
  have hinit : ∀ c ∈ init, '/' ∉ c := fun c hc => hslash c (mem_append_left _ hc)
  have hd : '/' ∉ d := hslash d (by simp)
  refine ⟨components_directory hinit hd, ?_⟩
  rw [← directory_concat]
  have hall := components_directory (c := []) hslash (by simp)
  rwa [append_nil] at hall

private theorem piece_ne (hfits : Fits res (init ++ [d])) (hempty : d ≠ [])
    (hslashes : slashes = [] ∨ slashes = ['/'])
    (hdots : slashes = [] → init = [] → d ≠ ['.'] ∧ d ≠ ['.', '.']) :
    ¬(directory init ++ (d ++ slashes) = ['/', '.', '.'] ∨
        directory init ++ (d ++ slashes) = ['.', '.']) ∧
      ¬(directory init ++ (d ++ slashes) = [] ∨ directory init ++ (d ++ slashes) = ['.'] ∨
        directory init ++ (d ++ slashes) = ['/']) := by
  obtain ⟨hopen, hclosed⟩ := components_piece hfits.slash
  -- the last components of the path and of the piece are compared
  have hparts : ∀ {path c : List Char} {cs : List (List Char)},
      directory init ++ (d ++ slashes) = path → components path = cs ++ [c] →
      init = cs ∧ d = c ∧ slashes = [] ∨ init ++ [d] = cs ∧ c = [] := by
    intro path c cs hpath hcomponents
    rw [← hpath] at hcomponents
    rcases hslashes with rfl | rfl
    · rw [append_nil, hopen] at hcomponents
      obtain ⟨hinit, hd⟩ := append_inj' hcomponents rfl
      exact Or.inl ⟨hinit, singleton_inj.mp hd, rfl⟩
    · rw [hclosed] at hcomponents
      obtain ⟨hinit, hc⟩ := append_inj' hcomponents rfl
      exact Or.inr ⟨hinit, (singleton_inj.mp hc).symm⟩
  refine ⟨?_, ?_⟩
  · rintro (hpath | hpath)
    · rcases @hparts _ ['.', '.'] [[]] hpath rfl with ⟨hinit, hd, -⟩ | ⟨-, hc⟩
      · have hname := hfits.tail d (by simp [hinit])
        exact hname.dots hd
      · exact absurd hc (by simp)
    · rcases @hparts _ ['.', '.'] [] hpath rfl with ⟨hinit, hd, hnil⟩ | ⟨-, hc⟩
      · exact (hdots hnil hinit).2 hd
      · exact absurd hc (by simp)
  · rintro (hpath | hpath | hpath)
    · rcases @hparts _ [] [] hpath rfl with ⟨-, hd, -⟩ | ⟨hinit, -⟩
      · exact hempty hd
      · exact absurd hinit (by simp)
    · rcases @hparts _ ['.'] [] hpath rfl with ⟨hinit, hd, hnil⟩ | ⟨-, hc⟩
      · exact (hdots hnil hinit).1 hd
      · exact absurd hc (by simp)
    · rcases @hparts _ [] [[]] hpath rfl with ⟨-, hd, -⟩ | ⟨hinit, -⟩
      · exact hempty hd
      · have hlast := @append_inj' _ [] _ _ _ hinit.symm rfl
        exact hempty (singleton_inj.mp hlast.2).symm

theorem backup_component (hfits : Fits res (init ++ [d])) (hempty : d ≠ [])
    (hslashes : slashes = [] ∨ slashes = ['/'])
    (hdots : slashes = [] → init = [] → d ≠ ['.'] ∧ d ≠ ['.', '.']) :
    backup (directory init ++ (d ++ slashes)) res =
      if init = [] ∨ init = [['.']] then res
      else if init = [[]] then [['/']]
      else ['/'] :: (directory init.dropLast ++ init.getLast?.getD []) :: res := by
  obtain ⟨hparents, hnone⟩ := piece_ne hfits hempty hslashes hdots
  have hd : '/' ∉ d := hfits.slash d (by simp)
  have hall : ∀ ch ∈ slashes, ch = '/' := by
    rcases hslashes with rfl | rfl <;> simp
  rw [backup.eq_def, if_neg hparents, if_neg hnone]
  dsimp only
  rcases eq_nil_or_concat init with rfl | ⟨init, e, rfl⟩
  · rw [directory_nil, nil_append, pathDirectory_single hd hempty hall]
    simp
  · rw [concat_eq_append] at *
    have he : '/' ∉ e := hfits.slash e (by simp)
    by_cases hroot : e = []
    · have hinit : init = [] := by
        by_contra hinit
        have hname := hfits.tail e (by
          cases init with
          | nil => exact absurd rfl hinit
          | cons c init => simp)
        exact hname.empty hroot
      have hres : res = [] := by
        by_contra hres
        exact (hfits.names hres e (by simp)).empty hroot
      have hdirectory := pathDirectory_root hd hempty hall
      rw [hroot, hinit, hres]
      change (if pathDirectory (['/'] ++ (d ++ slashes)) = ['/'] then _ else _) = _
      rw [if_pos hdirectory]
      simp
    · have hlast := dropLast_append_getLast hroot
      have hne : e.getLast hroot ≠ '/' := fun heq => he (heq ▸ getLast_mem hroot)
      have hdirectory := pathDirectory_split (u := directory init ++ e.dropLast) hne hd hempty
        hall
      have hu : directory init ++ e.dropLast ++ [e.getLast hroot] = directory init ++ e := by
        rw [append_assoc, hlast]
      have hpath : directory (init ++ [e]) ++ (d ++ slashes) =
          directory init ++ e ++ ['/'] ++ (d ++ slashes) := by
        rw [directory_concat]
        simp only [append_assoc]
      have hcomponents := @components_directory init e
        (fun c hc => hfits.slash c (by simp [hc])) he
      have hnot_root : directory init ++ e ≠ ['/'] := by
        intro heq
        rw [heq] at hcomponents
        have hparts := @append_inj' _ [[]] [[]] _ _ hcomponents rfl
        exact hroot (singleton_inj.mp hparts.2).symm
      have hhere : directory init ++ e = ['.'] ↔ init ++ [e] = [['.']] := by
        constructor
        · intro heq
          rw [← hcomponents, heq]
          rfl
        · intro heq
          have hparts := @append_inj' _ _ _ [] [['.']] heq rfl
          rw [hparts.1, singleton_inj.mp hparts.2]
          rfl
      have hnot_abs : init ++ [e] ≠ [[]] := by
        intro heq
        have hparts := @append_inj' _ _ _ [] [[]] heq rfl
        exact hroot (singleton_inj.mp hparts.2)
      rw [hu] at hdirectory
      rw [hpath, hdirectory, if_neg hnot_root]
      simp only [hhere, append_eq_nil_iff, cons_ne_nil, and_false, false_or,
        if_neg hnot_abs, dropLast_concat, getLast?_concat, Option.getD_some]

end Removal

/-- What a `..` does to `k` parents and the components behind them.  A path that starts
with dots forgets them where they are a piece of their own. -/
inductive Up : ℕ → List (List Char) → ℕ → List (List Char) → Prop
  | climb (k : ℕ) : Up k [] (k + 1) []
  | root : Up 0 [[]] 0 [[]]
  | second : Up 0 [['.', '.']] 2 []
  | drop (k : ℕ) {cs : List (List Char)} {d : List Char} (hempty : d ≠ [])
      (hdots : cs = [] → d ≠ ['.'] ∧ d ≠ ['.', '.']) : Up k (cs ++ [d]) k cs
  | here {d : List Char} (hname : IsName d) : Up 0 [['.'], d] 0 []
  | lost {d : List Char} (hdots : Dots d) : Up 0 [d] 0 []

theorem backupRes_parents (k : ℕ) :
    backupRes (List.replicate k ['/', '.', '.'] ++ [['.', '.']]) =
      List.replicate (k + 1) ['/', '.', '.'] ++ [['.', '.']] := by
  cases k with
  | zero => rfl
  | succ k =>
    rw [replicate_succ, cons_append, backupRes, backup.eq_def, if_pos (Or.inl rfl)]
    rfl

variable {d : List Char}

theorem Fits.isName_last {init : List (List Char)} (hfits : Fits res (init ++ [d]))
    (hsome : init ≠ [] ∨ res ≠ []) : IsName d := by
  rcases hsome with hinit | hres
  · apply hfits.tail
    cases init with
    | nil => exact absurd rfl hinit
    | cons c init => simp
  · exact hfits.names hres d (by simp)

theorem Pieces.first (below : Pieces alone res k cs) {rest : List (List Char)}
    (hfits : Fits res (d :: rest)) (hname : ¬IsName d) :
    res = [] ∧ k = 0 ∧ cs = [] := by
  have hres : res = [] := by
    by_contra hres
    exact hname (hfits.names hres d mem_cons_self)
  subst hres
  exact ⟨rfl, below.eq_nil⟩

theorem Pieces.remove {init : List (List Char)} (below : Pieces alone res k cs)
    (hfits : Fits res (init ++ [d])) (hempty : d ≠ []) :
    ∃ k' cs', Pieces alone (if init = [] ∨ init = [['.']] then res else if init = [[]] then [['/']]
        else ['/'] :: (directory init.dropLast ++ init.getLast?.getD []) :: res) k' cs' ∧
      Up k (cs ++ (init ++ [d])) k' cs' := by
  rcases eq_nil_or_concat init with rfl | ⟨init, e, rfl⟩
  · rw [if_pos (Or.inl rfl)]
    refine ⟨k, cs, below, ?_⟩
    by_cases hlost : cs = [] ∧ Dots d
    · obtain ⟨rfl, hdots⟩ := hlost
      obtain ⟨-, rfl, -⟩ := below.first hfits hdots.not_isName
      exact .lost hdots
    · apply Up.drop k hempty
      intro hnil
      exact not_or.mp fun hdots => hlost ⟨hnil, hdots⟩
  · rw [concat_eq_append] at *
    have hd : IsName d := hfits.isName_last (Or.inl (by simp))
    by_cases hhere : init ++ [e] = [['.']]
    · have hnot : ¬IsName ['.'] := fun hname => hname.dot rfl
      rw [hhere] at hfits ⊢
      obtain ⟨rfl, rfl, rfl⟩ := below.first hfits hnot
      exact ⟨0, [], .none, .here hd⟩
    · rw [if_neg (by simp [hhere])]
      by_cases hroot : init ++ [e] = [[]]
      · have hnot : ¬IsName [] := fun hname => hname.empty rfl
        rw [hroot] at hfits ⊢
        obtain ⟨rfl, rfl, rfl⟩ := below.first hfits hnot
        refine ⟨0, [[]], ?_, @Up.drop 0 [[]] _ hempty (by simp)⟩
        exact @Pieces.slice _ _ _ [[]] _ .none (by simp) ⟨by simp, by simp, by simp⟩ (by simp [Dots])
      · have hfits' : Fits res (init ++ [e]) := hfits.of_ne_nil ⟨[d], rfl⟩
        have he : e ≠ [] := by
          rintro rfl
          by_cases hinit : init = []
          · exact hroot (by rw [hinit, nil_append])
          · exact (hfits'.isName_last (Or.inl hinit)).empty rfl
        have hdot : init = [] → e ≠ ['.'] := by
          rintro rfl rfl
          exact hhere rfl
        rw [if_neg hroot, dropLast_concat, getLast?_concat, Option.getD_some]
        refine ⟨k, cs ++ (init ++ [e]), .pair below hfits' he hdot, ?_⟩
        rw [← append_assoc cs]
        exact .drop k hempty (by simp)

variable {ps : List (List Char)}

/-- The pieces behind a `..` are those for the component above, unless dots that are a
piece of their own are forgotten. -/
theorem Pieces.backupRes (hpieces : Pieces alone res k cs) :
    ∃ k' cs', Pieces alone (backupRes res) k' cs' ∧ Up k cs k' cs' ∧
      (k' = 0 → cs' = [] → ∀ d, cs = [d] → Dots d → alone) := by
  cases hpieces with
  | none => exact ⟨1, [], .parents 0, .climb 0, fun hzero => absurd hzero (by simp)⟩
  | parents k =>
    rw [backupRes_parents]
    exact ⟨k + 2, [], .parents (k + 1), .climb (k + 1), fun hzero => absurd hzero (by simp)⟩
  | @slice res cs ds _ below hne hfits halone =>
    obtain ⟨init, d, rfl⟩ := (eq_nil_or_concat ds).resolve_left hne
    rw [concat_eq_append] at *
    by_cases hempty : d = []
    · subst hempty
      have hnot : ¬IsName [] := fun hname => hname.empty rfl
      have hinit : init = [] := by
        by_contra hinit
        exact hnot (hfits.isName_last (Or.inl hinit))
      subst hinit
      obtain ⟨rfl, rfl, rfl⟩ := below.first hfits hnot
      exact ⟨0, [[]], @Pieces.slice _ _ _ [[]] _ .none (by simp) hfits halone, .root,
        fun _ hnil => absurd hnil (by simp)⟩
    · obtain ⟨k', cs', hpieces, hup⟩ := below.remove hfits hempty
      refine ⟨k', cs', ?_, hup, ?_⟩
      · rw [directory_concat, Path.backupRes, backup_component hfits hempty (Or.inr rfl) (by simp)]
        exact hpieces
      · intro _ _ e heq hdots
        have hcs : cs = [] := by
          have hlength := congrArg List.length heq
          simp only [length_append, length_singleton] at hlength
          exact length_eq_zero_iff.mp (by omega)
        rw [hcs, nil_append] at heq
        exact halone e heq hdots
  | @pair res cs ds d _ below hfits hempty hdot =>
    have hslash : ∀ s res', Path.backupRes (['/'] :: s :: res') = backup s res' := by
      intro s res'
      rw [Path.backupRes, backup.eq_def, if_neg (by simp), if_pos (by simp)]
    rw [hslash]
    by_cases hsecond : ds = [] ∧ d = ['.', '.']
    · obtain ⟨rfl, rfl⟩ := hsecond
      have hnot : ¬IsName ['.', '.'] := fun hname => hname.dots rfl
      obtain ⟨rfl, rfl, rfl⟩ := below.first hfits hnot
      exact ⟨2, [], .parents 1, .second, fun hzero => absurd hzero (by simp)⟩
    · have hdots : ds = [] → d ≠ ['.'] ∧ d ≠ ['.', '.'] :=
        fun hnil => ⟨hdot hnil, fun heq => hsecond ⟨hnil, heq⟩⟩
      obtain ⟨k', cs', hpieces, hup⟩ := below.remove hfits hempty
      have hbackup := backup_component hfits hempty (Or.inl rfl) fun _ => hdots
      rw [append_nil] at hbackup
      refine ⟨k', cs', by rw [hbackup]; exact hpieces, hup, ?_⟩
      intro _ _ e heq he
      have hlength := congrArg List.length heq
      simp only [length_append, length_singleton] at hlength
      have hds : ds = [] := length_eq_zero_iff.mp (by omega)
      have hcs : cs = [] := length_eq_zero_iff.mp (by omega)
      rw [hds, hcs] at heq
      rw [← singleton_inj.mp heq] at he
      exact absurd he (not_or.mpr (hdots hds))

/-! ## Pending components -/

theorem Pieces.push (hpieces : Pieces alone res k cs) (hfits : Fits res ps)
    (halone : ∀ d, ps = [d] → Dots d → alone) :
    Pieces alone (push (directory ps) res) k (cs ++ ps) := by
  cases ps with
  | nil =>
    rw [append_nil]
    exact hpieces
  | cons p ps =>
    have hne : directory (p :: ps) ≠ [] := by simp [directory_cons]
    rw [Path.push, if_neg hne]
    exact hpieces.slice (by simp) hfits halone

/-- A `..` behind pending components removes the last of them, but the slash of an
absolute path is not seen while it is pending. -/
theorem parent_eq (hroot : ps ≠ [[]]) :
    parent (directory ps) res = backupRes (push (directory ps) res) := by
  unfold parent push
  cases ps with
  | nil => rfl
  | cons p ps =>
    have hne : directory (p :: ps) ≠ [] := by simp [directory_cons]
    rw [if_neg hne, if_neg]
    · rfl
    have hcons : ∀ (q : List Char) (qs : List (List Char)),
        (directory (q :: qs)).length = q.length + 1 + (directory qs).length := by
      intro q qs
      rw [directory_cons, length_append, length_append, length_singleton]
    intro hle
    rw [hcons] at hle
    have hp : p = [] := length_eq_zero_iff.mp (by omega)
    cases ps with
    | nil => exact hroot (by rw [hp])
    | cons q ps =>
      rw [hcons] at hle
      omega

theorem Fits.snoc (hfits : Fits res ps) (hname : IsName c) : Fits res (ps ++ [c]) where
  slash d hd := by
    rcases mem_append.mp hd with hd | hd
    · exact hfits.slash d hd
    · rw [mem_singleton.mp hd]
      exact hname.slash
  tail d hd := by
    cases ps with
    | nil => exact absurd hd (by simp)
    | cons p ps =>
      rcases mem_append.mp hd with hd | hd
      · exact hfits.tail d hd
      · rwa [mem_singleton.mp hd]
  names hres d hd := by
    rcases mem_append.mp hd with hd | hd
    · exact hfits.names hres d hd
    · rwa [mem_singleton.mp hd]

theorem Fits.nil (res : List (List Char)) : Fits res [] :=
  ⟨by simp, by simp, by simp⟩

end ChibiScheme.Path
