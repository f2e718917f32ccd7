import ChibiScheme.Path.Safe

/-!
# Where a path leads

A path is followed a component at a time: `.` and empty components stay where they
are, `..` drops a name, leads to a parent where a relative path has none, and stays
at the root of an absolute path.

`path-normalize` keeps that place for the paths that are `Regular`.  It misses it
where a `..` follows the root directly, where dots at the start that are collected
alone are forgotten by a later `..`, and where a name is joined to the parents before
it.
-/

namespace ChibiScheme.Path

open CharString List Option

/-! ## Locations -/

/-- The root or the current directory, the parents of it and the names behind them. -/
structure Location where
  absolute : Bool
  parents : ℕ
  names : List (List Char)
  deriving DecidableEq

/-- The place that a component leads to. -/
def Location.visit (loc : Location) (c : List Char) : Location :=
  if c = [] ∨ c = ['.'] then loc
  else if c = ['.', '.'] then
    if loc.names ≠ [] then { loc with names := loc.names.dropLast }
    else if loc.absolute then loc
    else { loc with parents := loc.parents + 1 }
  else { loc with names := loc.names ++ [c] }

/-- Where a path leads. -/
def locate (path : List Char) : Location :=
  (components path).foldl Location.visit ⟨pathAbsolute path, 0, []⟩

/-- A path without an empty component but before the first slash and behind the last,
without `.` but at its start, and without `..` behind another component. -/
structure Canonical (path : List Char) : Prop where
  empty : ∀ c ∈ (components path).tail.dropLast, c ≠ []
  dot : ∀ c ∈ (components path).tail, c ≠ ['.']
  dots : ParentsInFront (components path)

instance : DecidablePred IsName := fun c =>
  decidable_of_iff ('/' ∉ c ∧ c ≠ [] ∧ c ≠ ['.'] ∧ c ≠ ['.', '.'])
    ⟨fun ⟨hslash, hempty, hdot, hdots⟩ => ⟨hslash, hempty, hdot, hdots⟩,
      fun hname => ⟨hname.slash, hname.empty, hname.dot, hname.dots⟩⟩

instance : DecidablePred Dots := fun c => inferInstanceAs (Decidable (c = ['.'] ∨ c = ['.', '.']))

/-- The parents that the first component of a relative path stands for. -/
def start (first : List Char) : ℕ := if first = ['.', '.'] then 1 else 0

/-- An absolute path does not begin with a `..` behind the root.  A relative path that
climbs above its first component does not end in a name, and if that component is
made of dots, a name follows it. -/
def Regular (path : List Char) : Prop :=
  let first := (components path).getD 0 []
  let second := (components path).getD 1 []
  if pathAbsolute path then second ≠ ['.', '.']
  else (locate path).parents ≤ start first ∨
    (locate path).names = [] ∧ (Dots first → IsName second)

instance : DecidablePred Regular := fun path =>
  inferInstanceAs (Decidable (if pathAbsolute path then (components path).getD 1 [] ≠ ['.', '.']
    else (locate path).parents ≤ start ((components path).getD 0 []) ∨
      (locate path).names = [] ∧ (Dots ((components path).getD 0 []) →
        IsName ((components path).getD 1 []))))

section Visit

variable {loc : Location} {c : List Char}

theorem visit_skip (hskip : c = [] ∨ c = ['.']) : loc.visit c = loc := if_pos hskip

theorem visit_name (hname : IsName c) : loc.visit c = { loc with names := loc.names ++ [c] } := by
  rw [Location.visit, if_neg (not_or.mpr ⟨hname.empty, hname.dot⟩), if_neg hname.dots]

theorem visit_dots_name (hname : IsName c) : (loc.visit c).visit ['.', '.'] = loc := by
  rw [visit_name hname, Location.visit, if_neg (by simp), if_pos rfl, if_pos (by simp)]
  simp

theorem parents_le_visit : loc.parents ≤ (loc.visit c).parents := by
  unfold Location.visit
  split_ifs <;> simp

theorem parents_le_foldl (loc : Location) (cs : List (List Char)) :
    loc.parents ≤ (cs.foldl Location.visit loc).parents := by
  induction cs generalizing loc with
  | nil => exact le_rfl
  | cons c cs ih => exact parents_le_visit.trans (ih (loc.visit c))

theorem foldl_names {cs : List (List Char)} (hcs : ∀ c ∈ cs, IsName c) (loc : Location) :
    cs.foldl Location.visit loc = { loc with names := loc.names ++ cs } := by
  induction cs generalizing loc with
  | nil => simp
  | cons c cs ih =>
    rw [foldl_cons, ih fun d hd => hcs d (mem_cons_of_mem c hd),
      visit_name (hcs c mem_cons_self)]
    simp

end Visit

/-! ## What the scan keeps -/

/-- The place of components behind `k` parents. -/
def place (absolute : Bool) (k : ℕ) (cs : List (List Char)) : Location :=
  cs.foldl Location.visit ⟨absolute, k, []⟩

theorem place_concat (absolute : Bool) (k : ℕ) (cs : List (List Char)) (c : List Char) :
    place absolute k (cs ++ [c]) = (place absolute k cs).visit c := by
  rw [place, foldl_append]
  rfl

/-- What the first component of a path says about the pieces. -/
structure Tracks (absolute : Bool) (first : List Char) (k : ℕ) (cs : List (List Char)) : Prop where
  root : absolute = true → k = 0 ∧ cs.head? = some []
  relative : absolute = false → cs.head? ≠ some []
  above : k ≠ 0 → start first < k
  parent : first = ['.', '.'] → k ≠ 0 ∨ cs.head? = some ['.', '.']
  head : ∀ d, cs.head? = some d → d ≠ [] → IsName d ∨ Dots d ∧ d = first
  tail : ∀ d ∈ cs.tail, IsName d

variable {absolute : Bool} {first : List Char} {k : ℕ} {cs : List (List Char)}

theorem Tracks.of_append {ds : List (List Char)} (htracks : Tracks absolute first k (cs ++ ds))
    (hne : cs ≠ []) :
    Tracks absolute first k cs := by
  have hhead : (cs ++ ds).head? = cs.head? := by
    cases cs with
    | nil => exact absurd rfl hne
    | cons c cs => rfl
  obtain ⟨hroot, hrelative, habove, hparent, hfirst, htail⟩ := htracks
  rw [hhead] at hroot hrelative hparent hfirst
  refine ⟨hroot, hrelative, habove, hparent, hfirst, ?_⟩
  intro d hd
  apply htail
  cases cs with
  | nil => exact absurd rfl hne
  | cons c cs => exact mem_append_left ds hd

theorem Tracks.up {k' : ℕ} {cs' : List (List Char)} (htracks : Tracks absolute first k cs)
    (hup : Up k cs k' cs') (hkept : ∀ d, cs = [d] → Dots d → k' = 0 → cs' ≠ []) :
    Tracks absolute first k' cs' ∧
      place absolute k' cs' = (place absolute k cs).visit ['.', '.'] := by
  cases hup with
  -- nothing is left to go up from: one parent more in front
  | climb k =>
    have hrelative : absolute = false := by
      cases absolute with
      | false => rfl
      | true => exact absurd (htracks.root rfl).2 (by simp)
    refine ⟨⟨?_, ?_, ?_, ?_, ?_, ?_⟩, ?_⟩
    · exact fun habsolute => absurd (hrelative.symm.trans habsolute) (by simp)
    · exact fun _ => by simp
    · intro _
      have habove := htracks.above
      have hparent := htracks.parent
      unfold start at habove ⊢
      split
      · rename_i hdots
        rw [if_pos hdots] at habove
        have hk : k ≠ 0 := (hparent hdots).resolve_right (by simp)
        have hlt := habove hk
        omega
      · exact Nat.succ_pos k
    · exact fun _ => Or.inl (Nat.succ_ne_zero k)
    · exact fun d hd => absurd hd (by simp)
    · exact fun d hd => absurd hd (by simp)
    · rw [hrelative]
      rfl
  -- the parent of the root is the root
  | root =>
    have habsolute : absolute = true := by
      cases absolute with
      | false => exact absurd rfl (htracks.relative rfl)
      | true => rfl
    refine ⟨htracks, ?_⟩
    rw [habsolute]
    rfl
  | second =>
    have hrelative : absolute = false := by
      cases absolute with
      | false => rfl
      | true => exact absurd (htracks.root rfl).2 (by simp)
    refine ⟨⟨?_, ?_, ?_, ?_, ?_, ?_⟩, ?_⟩
    · exact fun habsolute => absurd (hrelative.symm.trans habsolute) (by simp)
    · exact fun _ => by simp
    · intro _
      unfold start
      split <;> decide
    · exact fun _ => Or.inl (by decide)
    · exact fun d hd => absurd hd (by simp)
    · exact fun d hd => absurd hd (by simp)
    · rw [hrelative]
      rfl
  | @drop _ _ d hempty hdots =>
    by_cases hnil : cs' = []
    · subst hnil
      have hhead : ∀ e, some d = some e → e = d := fun e heq => (some.inj heq).symm
      have hname : IsName d := (htracks.head d rfl hempty).resolve_right fun hand =>
        not_or.mpr (hdots rfl) hand.1
      refine ⟨⟨?_, ?_, htracks.above, ?_, ?_, ?_⟩, ?_⟩
      · intro habsolute
        exact absurd (hhead _ (htracks.root habsolute).2).symm hempty
      · exact fun _ => by simp
      · intro hfirst
        left
        apply (htracks.parent hfirst).resolve_right
        exact fun heq => (hdots rfl).2 (hhead _ heq).symm
      · exact fun e he => absurd he (by simp)
      · exact fun e he => absurd he (by simp)
      · rw [place_concat, visit_dots_name hname]
    · have hname : IsName d := by
        apply htracks.tail
        cases cs' with
        | nil => exact absurd rfl hnil
        | cons c cs' => simp
      exact ⟨htracks.of_append hnil, by rw [place_concat, visit_dots_name hname]⟩
  | @here d hname =>
    refine ⟨⟨?_, ?_, htracks.above, ?_, ?_, ?_⟩, ?_⟩
    · exact fun habsolute => absurd (htracks.root habsolute).2 (by simp)
    · exact fun _ => by simp
    · exact fun hfirst => absurd (htracks.parent hfirst) (by simp)
    · exact fun e he => absurd he (by simp)
    · exact fun e he => absurd he (by simp)
    · have hplace := place_concat absolute 0 [['.']] d
      rw [singleton_append] at hplace
      rw [hplace, visit_dots_name hname]
      exact (visit_skip (Or.inr rfl)).symm
  | @lost d hdots => exact absurd rfl (hkept d rfl hdots rfl)

variable {last : List Char}

variable {c : List Char}

theorem Tracks.name (htracks : Tracks absolute first k cs) (hname : IsName c) :
    Tracks absolute first k (cs ++ [c]) := by
  cases cs with
  | nil =>
    refine ⟨?_, ?_, htracks.above, ?_, ?_, ?_⟩
    · exact fun habsolute => absurd (htracks.root habsolute).2 (by simp)
    · exact fun _ heq => hname.empty (some.inj heq)
    · exact fun hfirst => Or.inl ((htracks.parent hfirst).resolve_right (by simp))
    · intro d hd _
      rw [← some.inj hd]
      exact Or.inl hname
    · exact fun d hd => absurd hd (by simp)
  | cons d cs =>
    refine ⟨htracks.root, htracks.relative, htracks.above, htracks.parent, htracks.head, ?_⟩
    intro e he
    rcases mem_append.mp he with he | he
    · exact htracks.tail e he
    · rwa [mem_singleton.mp he]

/-! ## Where the result leads -/

theorem pathAbsolute_directory (hcs : ∀ c ∈ cs, '/' ∉ c) (hlast : '/' ∉ last) :
    pathAbsolute (directory cs ++ last) = decide (cs.head? = some []) := by
  have hhead : ∀ (ch : Char) (rest : List Char), pathAbsolute (ch :: rest) = decide (ch = '/') := by
    intro ch rest
    simp [pathAbsolute]
  cases cs with
  | nil =>
    cases last with
    | nil => rfl
    | cons ch last =>
      have hch : ch ≠ '/' := fun heq => hlast (by simp [heq])
      rw [directory_nil, nil_append, hhead]
      simpa using hch
  | cons c cs =>
    cases c with
    | nil => rfl
    | cons ch c =>
      have hch : ch ≠ '/' := fun heq => hcs (ch :: c) mem_cons_self (by simp [heq])
      rw [directory_cons, append_assoc, append_assoc, cons_append, hhead]
      simpa using hch

theorem foldl_parents (n j : ℕ) :
    (List.replicate n ['.', '.']).foldl Location.visit ⟨false, j, []⟩ = ⟨false, j + n, []⟩ := by
  induction n generalizing j with
  | zero => rfl
  | succ n ih =>
    have hvisit : Location.visit ⟨false, j, []⟩ ['.', '.'] = ⟨false, j + 1, []⟩ := rfl
    rw [replicate_succ, foldl_cons, hvisit, ih, Nat.add_right_comm, Nat.add_assoc]

theorem locate_directory (hslash : ∀ c ∈ cs, '/' ∉ c) (htracks : Tracks absolute first k cs)
    (hlast : last = [] ∨ IsName last) (hnames : k ≠ 0 → cs = [] ∧ last = []) :
    locate (ascent k ++ (directory cs ++ last)) = (place absolute k cs).visit last ∧
      (∀ c ∈ (components (ascent k ++ (directory cs ++ last))).tail.dropLast, c ≠ []) ∧
      ∀ c ∈ (components (ascent k ++ (directory cs ++ last))).tail, c ≠ ['.'] := by
  have hlast_slash : '/' ∉ last := by
    rcases hlast with rfl | hname
    · simp
    · exact hname.slash
  cases k with
  | zero =>
    have hcomponents := components_directory hslash hlast_slash
    have habsolute : decide (cs.head? = some []) = absolute := by
      cases absolute with
      | false => exact decide_eq_false (htracks.relative rfl)
      | true => exact decide_eq_true (htracks.root rfl).2
    rw [ascent, nil_append, locate, pathAbsolute_directory hslash hlast_slash, habsolute,
      hcomponents]
    refine ⟨place_concat absolute 0 cs last, ?_, ?_⟩
    · intro c hc
      cases cs with
      | nil => exact absurd hc (by simp)
      | cons d cs =>
        rw [cons_append, tail_cons, dropLast_concat] at hc
        exact (htracks.tail c hc).empty
    · intro c hc
      cases cs with
      | nil => exact absurd hc (by simp)
      | cons d cs =>
        rcases mem_append.mp hc with hc | hc
        · exact (htracks.tail c hc).dot
        · rw [mem_singleton.mp hc]
          rcases hlast with rfl | hname
          · simp
          · exact hname.dot
  | succ k =>
    obtain ⟨rfl, rfl⟩ := hnames (Nat.succ_ne_zero k)
    have hrelative : absolute = false := by
      cases absolute with
      | false => rfl
      | true => exact absurd (htracks.root rfl).1 (Nat.succ_ne_zero k)
    have hcomponents := @components_directory (List.replicate k ['.', '.'])
      ['.', '.'] (fun c hc => by rw [eq_of_mem_replicate hc]; simp) (by simp)
    have hdots := @pathAbsolute_directory (List.replicate k ['.', '.'])
      ['.', '.'] (fun c hc => by rw [eq_of_mem_replicate hc]; simp) (by simp)
    have hhead : decide ((List.replicate k ['.', '.']).head? = some ([] : List Char)) = false := by
      cases k with
      | zero => rfl
      | succ k => rfl
    have hpath := ascent_append k [] []
    dsimp only at hpath
    rw [append_nil ['.', '.']] at hpath
    rw [hpath, locate, hdots, hhead, hcomponents, ← replicate_succ', foldl_parents,
      hrelative, Nat.zero_add]
    refine ⟨rfl, ?_, ?_⟩
    · intro c hc
      have hmem := mem_of_mem_tail (dropLast_subset _ hc)
      rw [eq_of_mem_replicate hmem]
      simp
    · intro c hc
      rw [eq_of_mem_replicate (mem_of_mem_tail hc)]
      simp

theorem Tracks.no_name
    (htracks : Tracks absolute first k cs) (hnamed : Named k cs)
    (hlast : last = [] ∨ IsName last)
    (hregular : absolute = true ∨ ((place absolute k cs).visit last).parents ≤ start first ∨
      ((place absolute k cs).visit last).names = []) (hk : k ≠ 0) : cs = [] ∧ last = [] := by
  have hall : (place absolute k cs).visit last =
      ⟨absolute, k, cs ++ if last = [] then [] else [last]⟩ := by
    rw [place, foldl_names (hnamed.all hk)]
    rcases hlast with rfl | hname
    · rw [visit_skip (Or.inl rfl)]
      simp
    · rw [visit_name hname, if_neg hname.empty]
      simp
  rw [hall] at hregular
  rcases hregular with habsolute | hparents | hnames
  · exact absurd (htracks.root habsolute).1 hk
  · exact absurd (htracks.above hk) (Nat.not_lt.mpr hparents)
  · obtain ⟨hcs, hsome⟩ := append_eq_nil_iff.mp hnames
    refine ⟨hcs, ?_⟩
    by_contra hne
    rw [if_neg hne] at hsome
    exact absurd hsome (by simp)

theorem Tracks.kept {d : List Char} (htracks : Tracks absolute first k [d]) (hnamed : Named k [d])
    (hdots : Dots d) :
    absolute = false ∧ Dots first ∧
      ((place absolute k [d]).visit ['.', '.']).parents = start first + 1 := by
  have hempty : d ≠ [] := by
    rcases hdots with rfl | rfl <;> simp
  obtain ⟨-, hfirst⟩ := (htracks.head d rfl hempty).resolve_left hdots.not_isName
  have hrelative : absolute = false := by
    cases absolute with
    | false => rfl
    | true => exact absurd (some.inj (htracks.root rfl).2) hempty
  have hk : k = 0 := by
    by_contra hk
    exact hdots.not_isName (hnamed.all hk d (by simp))
  rw [← hfirst, hrelative, hk]
  refine ⟨rfl, hdots, ?_⟩
  rcases hdots with rfl | rfl <;> decide

variable {path : List Char}

/-- The scan ends with a path that denotes the place where the components lead, if that
is the place of a regular path. -/
theorem scan_located (rest : List (List Char)) (hrest : ∀ c ∈ rest, '/' ∉ c) {alone : Prop}
    {absolute : Bool} {first : List Char} {res cs ps : List (List Char)} {k : ℕ}
    (hpieces : Pieces alone res k cs) (hfits : Fits res ps)
    (htracks : Tracks absolute first k (cs ++ ps)) (hdone : rest = [] → ps = [])
    (halone : ∀ d, ps = [d] → Dots d → ∀ c, rest.head? = some c → ¬IsName c → alone)
    (hroot : ps = [[]] → rest.head? ≠ some ['.', '.']) {loc : Location}
    (hloc : rest.foldl Location.visit (place absolute k (cs ++ ps)) = loc)
    (hregular : absolute = true ∨ loc.parents ≤ start first ∨
      loc.names = [] ∧ ¬(alone ∧ Dots first)) :
    locate (scan res (directory ps) rest) = loc ∧
      (∀ c ∈ (components (scan res (directory ps) rest)).tail.dropLast, c ≠ []) ∧
      ∀ c ∈ (components (scan res (directory ps) rest)).tail, c ≠ ['.'] := by
  have hweak : absolute = true ∨ loc.parents ≤ start first ∨ loc.names = [] :=
    hregular.imp_right fun hor => hor.imp_right And.left
  induction rest generalizing res cs ps k with
  | nil =>
    have hps := hdone rfl
    subst hps
    rw [append_nil] at htracks hloc
    rw [foldl_nil] at hloc
    have hvisit : (place absolute k cs).visit [] = loc := by rw [visit_skip (Or.inl rfl), hloc]
    have hend := locate_directory hpieces.named.slash htracks (Or.inl rfl)
      (htracks.no_name hpieces.named (Or.inl rfl) (by rwa [hvisit]))
    rw [hvisit, append_nil, ← hpieces.path_eq] at hend
    rw [scan, directory_nil, append_nil]
    exact hend
  | cons c rest ih =>
    have hnext := @ih fun d hd => hrest d (mem_cons_of_mem c hd)
    have hnamed := hpieces.named.append hpieces hfits
    rw [foldl_cons] at hloc
    rw [scan]
    split
    · -- an empty component or a dot moves nothing
      rename_i hskip
      have hnot : ¬IsName c := fun hname => hskip.elim hname.empty hname.dot
      rw [visit_skip hskip] at hloc
      apply hnext (hpieces.push hfits fun d hd hdots => halone d hd hdots c rfl hnot)
        (Fits.nil _) (by rwa [append_nil]) (fun _ => rfl) (by simp) (by simp)
      rwa [append_nil]
    · rename_i hskip
      split
      · -- a parent takes the last name away, or is kept in front
        rename_i hdots
        have hnot : ¬IsName c := fun hname => hname.dots hdots
        have hps : ps ≠ [[]] := fun heq => hroot heq (by rw [head?_cons, hdots])
        obtain ⟨k', cs', hup_pieces, hup, hlost⟩ :=
          (hpieces.push hfits fun d hd hdots => halone d hd hdots c rfl hnot).backupRes
        obtain ⟨hup_tracks, hplace⟩ := htracks.up hup (by
          intro d heq hd hzero hnil
          rw [heq] at htracks hnamed hloc
          obtain ⟨hrelative, hfirst, hparents⟩ := htracks.kept hnamed hd
          have hle := parents_le_foldl ((place absolute k [d]).visit c) rest
          rw [hloc, hdots, hparents] at hle
          rcases hregular with habsolute | hstart | ⟨-, halone⟩
          · exact absurd (hrelative.symm.trans habsolute) (by simp)
          · omega
          · exact halone ⟨hlost hzero hnil d heq hd, hfirst⟩)
        rw [hdots, ← hplace] at hloc
        rw [parent_eq hps]
        apply hnext hup_pieces (Fits.nil _) (by rwa [append_nil]) (fun _ => rfl) (by simp)
          (by simp)
        rwa [append_nil]
      · rename_i hdots
        have hname := isName_of_ne (hrest c mem_cons_self) hskip hdots
        by_cases hlast : rest = []
        · rw [hlast, foldl_nil] at hloc
          have hend := locate_directory hnamed.slash htracks (Or.inr hname)
            (htracks.no_name hnamed (Or.inr hname) (by rwa [hloc]))
          have hpath : scan res (directory ps ++ (c ++ separator [])) [] =
              ascent k ++ (directory (cs ++ ps) ++ c) := by
            rw [scan, hpieces.path_eq, directory_append, separator, if_pos rfl, append_nil]
            simp only [append_assoc]
          rw [hlast, hpath, ← hloc]
          exact hend
        · rw [separator, if_neg hlast, ← directory_concat]
          have hmore := htracks.name hname
          rw [append_assoc] at hmore
          rw [← place_concat, append_assoc] at hloc
          apply hnext hpieces (hfits.snoc hname) hmore (fun hnil => absurd hnil hlast)
            _ _ hloc
          · intro d hd hd_dots
            have hps : ps = [] := by
              have hlength := congrArg List.length hd
              simp only [length_append, length_singleton] at hlength
              exact length_eq_zero_iff.mp (by omega)
            rw [hps, nil_append] at hd
            rw [← singleton_inj.mp hd] at hd_dots
            exact absurd hname hd_dots.not_isName
          · intro heq
            have hparts := @append_inj' _ _ _ [] [[]] heq rfl
            exact absurd (singleton_inj.mp hparts.2) hname.empty

/-! ## Whole paths -/

theorem pathAbsolute_eq (hpath : components path = c :: cs) (hne : cs ≠ []) :
    pathAbsolute path = decide (c = []) := by
  have hslash := slash_not_mem_components path
  have hjoined := joined_components path
  rw [hpath] at hslash hjoined
  rw [← hjoined, joined, separator, if_neg hne]
  cases c with
  | nil => rfl
  | cons ch c =>
    have hch : ch ≠ '/' := fun heq => hslash (ch :: c) mem_cons_self (by simp [heq])
    simpa [pathAbsolute] using hch

theorem Tracks.initial (hpath : components path = c :: cs) (hne : cs ≠ []) :
    Tracks (pathAbsolute path) c 0 [c] := by
  have hslash := slash_not_mem_components path c (by rw [hpath]; exact mem_cons_self)
  rw [pathAbsolute_eq hpath hne]
  refine ⟨?_, ?_, ?_, ?_, ?_, by simp⟩
  · exact fun hroot => ⟨rfl, congrArg some (of_decide_eq_true hroot)⟩
  · exact fun hrelative heq => of_decide_eq_false hrelative (some.inj heq)
  · exact fun hzero => absurd rfl hzero
  · exact fun hdots => Or.inr (congrArg some hdots)
  · intro d hd hempty
    rw [← some.inj hd] at hempty ⊢
    by_cases hdots : Dots c
    · exact Or.inr ⟨hdots, rfl⟩
    · exact Or.inl ⟨hslash, hempty, (not_or.mp hdots).1, (not_or.mp hdots).2⟩

theorem scan_names (pend : List Char) (hempty : ∀ c ∈ cs.dropLast, c ≠ [])
    (hdot : ∀ c ∈ cs, c ≠ ['.']) (hdots : ∀ c ∈ cs, c ≠ ['.', '.']) :
    scan [] pend cs = pend ++ joined cs := by
  induction cs generalizing pend with
  | nil =>
    rw [joined, append_nil]
    rfl
  | cons c cs ih =>
    by_cases hnil : cs = []
    · subst hnil
      rw [joined, separator, if_pos rfl, joined, append_nil, append_nil, scan]
      by_cases hc : c = []
      · rw [if_pos (Or.inl hc), scan, concatenateReverse_push, hc]
        simp
      · rw [if_neg (not_or.mpr ⟨hc, hdot c (by simp)⟩), if_neg (hdots c (by simp)), scan]
        simp [separator]
    · have hinit : (c :: cs).dropLast = c :: cs.dropLast := dropLast_cons_of_ne_nil hnil
      rw [hinit] at hempty
      have hc := hempty c mem_cons_self
      rw [scan, if_neg (not_or.mpr ⟨hc, hdot c (by simp)⟩), if_neg (hdots c (by simp)),
        ih _ (fun d hd => hempty d (mem_cons_of_mem c hd))
          (fun d hd => hdot d (mem_cons_of_mem c hd))
          (fun d hd => hdots d (mem_cons_of_mem c hd)), joined]
      simp

theorem Canonical.normalized (hcanonical : Canonical path) (hregular : Regular path) :
    pathNormalize path = path := by
  obtain ⟨hempty, hdot, hfront⟩ := hcanonical
  have hjoined := joined_components path
  cases hpath : components path with
  | nil => exact absurd hpath (splitOn_ne_nil '/' path)
  | cons c cs =>
    have hdots : ∀ d ∈ cs, d ≠ ['.', '.'] := by
      by_cases hfirst : c = ['.', '.']
      · cases cs with
        | nil => simp
        | cons d cs =>
          have hrelative : pathAbsolute path = false := by
            rw [pathAbsolute_eq hpath (by simp), hfirst]
            rfl
          have hsecond : d ≠ ['.', '.'] := by
            intro heq
            have hvisit : locate path =
                cs.foldl Location.visit ⟨false, 2, []⟩ := by
              rw [locate, hrelative, hpath, hfirst, heq]
              rfl
            have hle := parents_le_foldl ⟨false, 2, []⟩ cs
            rw [← hvisit] at hle
            rw [Regular, hrelative, hpath] at hregular
            rcases hregular with hparents | ⟨-, hname⟩
            · have hstart : start c = 1 := if_pos hfirst
              have hbound : (locate path).parents ≤ start c := hparents
              rw [hstart] at hbound
              exact absurd (hle.trans hbound) (by decide)
            · exact (hname (Or.inr hfirst)).dots heq
          rw [hpath, hfirst, parentsInFront_cons_dots, ParentsInFront,
            dropWhile_cons_of_neg (by simpa using hsecond)] at hfront
          exact fun e he heq => hfront (heq ▸ he)
      · rw [hpath, ParentsInFront, dropWhile_cons_of_neg (by simpa using hfirst)] at hfront
        exact fun e he heq => hfront (heq ▸ mem_cons_of_mem c he)
    rw [hpath] at hempty hdot hjoined
    rw [tail_cons] at hempty hdot
    rw [joined] at hjoined
    rw [pathNormalize_eq hpath, scan_names _ hempty hdot hdots, append_assoc, hjoined]

/-- For a regular path `path-normalize` gives a canonical path to the same place, and
changes nothing any more if that is regular. -/
theorem pathNormalize_located (path : List Char) (hregular : Regular path) :
    locate (pathNormalize path) = locate path ∧ Canonical (pathNormalize path) ∧
      (Regular (pathNormalize path) →
        pathNormalize (pathNormalize path) = pathNormalize path) := by
  have hfront := pathNormalize_parentsInFront path
  suffices hlocated : locate (pathNormalize path) = locate path ∧
      (∀ c ∈ (components (pathNormalize path)).tail.dropLast, c ≠ []) ∧
      ∀ c ∈ (components (pathNormalize path)).tail, c ≠ ['.'] by
    have hcanonical : Canonical (pathNormalize path) :=
      ⟨hlocated.2.1, hlocated.2.2, hfront⟩
    exact ⟨hlocated.1, hcanonical, hcanonical.normalized⟩
  have hslash := slash_not_mem_components path
  cases hpath : components path with
  | nil => exact absurd hpath (splitOn_ne_nil '/' path)
  | cons c cs =>
    by_cases hnil : cs = []
    · -- without a slash nothing is scanned
      have hsame : pathNormalize path = path := by
        have hjoined := joined_components path
        rw [hpath, hnil, joined] at hjoined
        rw [pathNormalize_eq hpath, hnil, ← hjoined]
        simp [scan, separator, joined]
      rw [hsame, hpath, hnil]
      exact ⟨rfl, by simp, by simp⟩
    · obtain ⟨d, rest, rfl⟩ := exists_cons_of_ne_nil hnil
      rw [hpath] at hslash
      have habsolute := pathAbsolute_eq hpath hnil
      have hstart : pathNormalize path = scan [] (directory [c]) (d :: rest) := by
        rw [pathNormalize_eq hpath, separator, if_neg hnil, directory_cons, directory_nil,
          append_nil]
      rw [Regular, hpath] at hregular
      rw [hstart]
      apply @scan_located (d :: rest) (fun e he => hslash e (mem_cons_of_mem c he))
        (¬IsName d) _ _ _ _ _ _ .none ⟨by simpa using hslash c mem_cons_self, by simp, by simp⟩
        (Tracks.initial hpath hnil) (by simp)
      · intro _ _ _ e he hname
        rwa [← some.inj he] at hname
      · intro hroot hdots
        have hc : c = [] := singleton_inj.mp hroot
        rw [habsolute, decide_eq_true hc] at hregular
        exact hregular (some.inj hdots)
      · rw [locate, hpath]
        rfl
      · by_cases hroot : pathAbsolute path = true
        · exact Or.inl hroot
        · rw [if_neg hroot] at hregular
          right
          refine hregular.imp_right fun h => ⟨h.1, ?_⟩
          exact fun hdots => hdots.1 (h.2 hdots.2)

/-- A path with an empty component, a dot and a parent. -/
theorem pathNormalize_located_inner :
    Regular "a//b/.././c".toList ∧ locate (pathNormalize "a//b/.././c".toList) =
      locate "a//b/.././c".toList :=
  ⟨by decide +kernel, (pathNormalize_located "a//b/.././c".toList (by decide +kernel)).1⟩

/-- The current directory is its own normal form. -/
theorem pathNormalize_dot : ['.'] ∈ components (pathNormalize ['.']) := by
  decide +kernel

end ChibiScheme.Path
