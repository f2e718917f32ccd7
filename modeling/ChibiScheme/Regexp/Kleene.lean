import ChibiScheme.Regexp.Api

/-!
# Regular languages

The SREs of characters, strings, sequences, alternatives, repetitions and submatches denote languages
in the usual way.  Such an SRE matches between two positions if the substring between them is in its
language, wherever the substring stands.
-/

namespace ChibiScheme

open List

namespace Regexp

/-- The characters from `i` up to `j`. -/
def substring (str : List Char) (i j : ℕ) : List Char := (str.drop i).take (j - i)

section Substring

variable {str u v : List Char} {i j k : ℕ}

theorem length_substring (h : j ≤ str.length) : (substring str i j).length = j - i := by
  rw [substring, length_take, length_drop]
  omega

theorem substring_self : substring str i i = [] := by
  rw [substring, Nat.sub_self, take_zero]

theorem substring_append (hi : i ≤ k) (hj : k ≤ j) :
    substring str i k ++ substring str k j = substring str i j := by
  have hdrop : str.drop k = (str.drop i).drop (k - i) := by
    rw [drop_drop]
    congr 1
    omega
  have hsum : j - i = (k - i) + (j - k) := by omega
  rw [substring, substring, substring, hdrop, hsum, take_add]

theorem substring_eq_append (hi : i ≤ j) (hj : j ≤ str.length) (h : substring str i j = u ++ v) :
    i + u.length ≤ j ∧ u = substring str i (i + u.length) ∧ v = substring str (i + u.length) j := by
  have hlength : (substring str i j).length = u.length + v.length := by
    rw [h, length_append]
  rw [length_substring hj] at hlength
  have hle : i + u.length ≤ j := by omega
  have happend : substring str i (i + u.length) ++ substring str (i + u.length) j = substring str i j :=
    substring_append (Nat.le_add_right i u.length) hle
  rw [h] at happend
  have hfirst : (substring str i (i + u.length)).length = u.length := by
    rw [length_substring (Nat.le_trans hle hj)]
    omega
  obtain ⟨hu, hv⟩ := append_inj happend hfirst
  exact ⟨hle, hu.symm, hv.symm⟩

theorem substring_succ {c : Char} (h : str[i]? = some c) : substring str i (i + 1) = [c] := by
  obtain ⟨hi, hc⟩ := List.getElem?_eq_some_iff.mp h
  rw [substring, Nat.add_sub_cancel_left, drop_eq_getElem_cons hi, hc]
  rfl

theorem substring_eq_singleton {c : Char} (hj : j ≤ str.length) (h : substring str i j = [c]) :
    j = i + 1 ∧ str[i]? = some c := by
  have hlength := length_substring (i := i) hj
  rw [h, length_singleton] at hlength
  obtain rfl : j = i + 1 := by omega
  refine ⟨rfl, ?_⟩
  have hc := substring_succ (getElem?_eq_getElem (show i < str.length by omega))
  rw [h] at hc
  rw [getElem?_eq_getElem (show i < str.length by omega), (List.cons.inj hc).1]

end Substring

namespace Sre

/-- The SREs that denote regular languages -/
def kleene : Sre → Bool
  | chars _ => true
  | string _ => true
  | epsilon => true
  | nil => true
  | seq first rest => kleene first && kleene rest
  | fail => true
  | alt first rest => kleene first && kleene rest
  | optional _ body => kleene body
  | star _ body => kleene body
  | plus body => kleene body
  | submatch body => kleene body
  | named _ body => kleene body
  | _ => false

/-- The language of an SRE in Mathlib's terms. -/
def language (env : Env) : Sre → Language Char
  | chars cs => {w | ∃ c, w = [c] ∧ env.charSre Flags.none cs c = true}
  | string s => {s}
  | epsilon => 1
  | nil => 1
  | seq first rest => first.language env * rest.language env
  | fail => 0
  | alt first rest => first.language env + rest.language env
  | optional _ body => 1 + body.language env
  | star _ body => KStar.kstar (body.language env)
  | plus body => body.language env * KStar.kstar (body.language env)
  | submatch body => body.language env
  | named _ body => body.language env
  | _ => 0

end Sre

variable {env : Env} {sre : Sre} {range : Range} {i j : ℕ}

/-! ## Alternatives of characters -/

theorem toCharSets_kleene (env : Env) (hkleene : sre.kleene = true)
    (hset : sre.charSets false = true) :
    ∃ cs, Sre.toCharSets env false sre Flags.none = .ok cs ∧
      ∀ w, w ∈ sre.language env ↔ ∃ c, w = [c] ∧ cs c = true := by
  induction sre with
  | chars cs => exact ⟨_, rfl, fun w => Iff.rfl⟩
  | string s =>
    match s, hset with
    | [c], _ =>
      refine ⟨_, rfl, fun w => ?_⟩
      show w = [c] ↔ _
      constructor
      · rintro rfl
        exact ⟨c, rfl, decide_eq_true rfl⟩
      · rintro ⟨c', rfl, hc⟩
        rw [of_decide_eq_true hc]
  | fail =>
    refine ⟨_, rfl, fun w => ⟨nofun, ?_⟩⟩
    rintro ⟨c, -, hc⟩
    cases hc
  | alt first rest ih_first ih_rest =>
    have hkleene' : (first.kleene && rest.kleene) = true := hkleene
    have hset' : (first.charSets false && rest.charSets false) = true := hset
    rw [Bool.and_eq_true] at hkleene' hset'
    obtain ⟨cs₁, hcs₁, hmem₁⟩ := ih_first hkleene'.1 hset'.1
    obtain ⟨cs₂, hcs₂, hmem₂⟩ := ih_rest hkleene'.2 hset'.2
    refine ⟨fun ch => cs₁ ch || cs₂ ch, ?_, fun w => ?_⟩
    · rw [Sre.toCharSets, hcs₁, hcs₂]
      rfl
    · show w ∈ first.language env ∨ w ∈ rest.language env ↔ _
      rw [hmem₁, hmem₂]
      constructor
      · rintro (⟨c, rfl, hc⟩ | ⟨c, rfl, hc⟩)
        · exact ⟨c, rfl, Bool.or_eq_true_iff.mpr (Or.inl hc)⟩
        · exact ⟨c, rfl, Bool.or_eq_true_iff.mpr (Or.inr hc)⟩
      · rintro ⟨c, rfl, hc⟩
        rcases Bool.or_eq_true_iff.mp hc with hc | hc
        · exact Or.inl ⟨c, rfl, hc⟩
        · exact Or.inr ⟨c, rfl, hc⟩
  | withFlags _ _ _ => cases hkleene
  | _ => cases hset

theorem compiles_kleene (env : Env) (h : sre.kleene = true) : sre.Compiles env := by
  induction sre with
  | seq first rest ih_first ih_rest =>
    have h' : (first.kleene && rest.kleene) = true := h
    rw [Bool.and_eq_true] at h'
    exact ⟨ih_first h'.1, ih_rest h'.2⟩
  | alt first rest ih_first ih_rest =>
    have h' : (first.kleene && rest.kleene) = true := h
    rw [Bool.and_eq_true] at h'
    rw [Sre.Compiles]
    split
    · next hset =>
        obtain ⟨cs, hcs, -⟩ := toCharSets_kleene env h hset
        exact ⟨cs, hcs⟩
    · exact ⟨ih_first h'.1, ih_rest h'.2⟩
  | optional _ body ih => exact ih h
  | star _ body ih => exact ih h
  | plus body ih => exact ih h
  | submatch body ih => exact ih h
  | named _ body ih => exact ih h
  | chars _ => trivial
  | string _ => trivial
  | epsilon => trivial
  | nil => trivial
  | fail => trivial
  | _ => cases h

/-! ## What an SRE matches is its language -/

theorem takes_iff {cs : CharSet} (hrange : range.Valid) (hj : j ≤ range.stop) :
    Takes range cs i ∧ j = i + 1 ↔
      ∃ c, substring range.str i j = [c] ∧ cs c = true := by
  have hlength := hrange.stop_le
  constructor
  · rintro ⟨⟨-, c, hc, hcs⟩, rfl⟩
    exact ⟨c, substring_succ hc, hcs⟩
  · rintro ⟨c, hsubstring, hcs⟩
    obtain ⟨rfl, hc⟩ := substring_eq_singleton (Nat.le_trans hj hlength) hsubstring
    exact ⟨⟨hj, c, hc, hcs⟩, rfl⟩

/-- Between positions of the range the relation holds for the substrings in the language. -/
def Denotes (range : Range) (r : ℕ → ℕ → Prop) (l : Language Char) : Prop :=
  ∀ i j, i ≤ j → j ≤ range.stop → (r i j ↔ substring range.str i j ∈ l)

section Denotes

variable {r r' : ℕ → ℕ → Prop} {l l' : Language Char}

theorem Denotes.one (hrange : range.Valid) : Denotes range (fun i j => i = j) 1 := by
  intro i j hi hj
  have hlength : (substring range.str i j).length = j - i :=
    length_substring (Nat.le_trans hj hrange.stop_le)
  rw [Language.mem_one]
  constructor
  · rintro rfl
    exact substring_self
  · intro h
    rw [h, length_nil] at hlength
    omega

theorem Denotes.mul (hrange : range.Valid) (hr : Forward range r) (hr' : Forward range r')
    (h : Denotes range r l) (h' : Denotes range r' l') :
    Denotes range (fun i j => ∃ k, r i k ∧ r' k j) (l * l') := by
  intro i j hi hj
  rw [Language.mem_mul]
  constructor
  · rintro ⟨k, hfirst, hrest⟩
    have hk := (hr i k hfirst).1
    have hk' := (hr' k j hrest).1
    exact ⟨_, (h i k hk (Nat.le_trans hk' hj)).mp hfirst, _, (h' k j hk' hj).mp hrest,
      substring_append hk hk'⟩
  · rintro ⟨u, hu, v, hv, happend⟩
    obtain ⟨hle, hfirst, hrest⟩ :=
      substring_eq_append hi (Nat.le_trans hj hrange.stop_le) happend.symm
    rw [hfirst] at hu
    rw [hrest] at hv
    have hk : i ≤ i + u.length := Nat.le_add_right _ _
    exact ⟨i + u.length, (h i _ hk (Nat.le_trans hle hj)).mpr hu, (h' _ j hle hj).mpr hv⟩

theorem Denotes.add (h : Denotes range r l) (h' : Denotes range r' l') :
    Denotes range (fun i j => r i j ∨ r' i j) (l + l') := by
  intro i j hi hj
  rw [Language.mem_add]
  exact or_congr (h i j hi hj) (h' i j hi hj)

theorem Denotes.pow (hrange : range.Valid) (hr : Forward range r) (h : Denotes range r l) (n : ℕ) :
    Denotes range (Iterated r n) (l ^ n) := by
  induction n with
  | zero =>
    rw [pow_zero]
    exact Denotes.one hrange
  | succ n ih =>
    rw [pow_succ']
    exact Denotes.mul hrange hr (hr.iterated n) h ih

theorem Denotes.kstar (hrange : range.Valid) (hr : Forward range r) (h : Denotes range r l) :
    Denotes range (Relation.ReflTransGen r) (KStar.kstar l) := by
  intro i j hi hj
  rw [reflTransGen_iff_iterated, Language.kstar_eq_iSup_pow, Language.mem_iSup]
  exact exists_congr fun n => h.pow hrange hr n i j hi hj

theorem Denotes.plus (hrange : range.Valid) (hr : Forward range r) (h : Denotes range r l) :
    Denotes range (Relation.TransGen r) (l * KStar.kstar l) := by
  intro i j hi hj
  rw [← (Denotes.mul hrange hr hr.reflTransGen h (h.kstar hrange hr)) i j hi hj]
  exact Relation.TransGen.head'_iff

end Denotes

theorem spansString_iff (hrange : range.Valid) (s : List Char) (hi : i ≤ j) (hj : j ≤ range.stop) :
    SpansString range (fun c => env.charSre Flags.none (.char c)) s i j ↔
      substring range.str i j ∈ ({s} : Language Char) := by
  have hlength := hrange.stop_le
  show _ ↔ substring range.str i j = s
  induction s generalizing i with
  | nil =>
    have hone := Denotes.one hrange i j hi hj
    rwa [Language.mem_one] at hone
  | cons c s ih =>
    constructor
    · rintro ⟨⟨hbefore, ch, hch, heq⟩, hrest⟩
      have hc : ch = c := of_decide_eq_true heq
      have hle := (Forward.spansString _ s (i + 1) j hrest).1
      rw [← substring_append (Nat.le_succ i) hle, substring_succ hch, (ih hle).mp hrest, hc]
      rfl
    · intro heq
      obtain ⟨hle, hfirst, hrest⟩ :=
        substring_eq_append (u := [c]) (v := s) hi (Nat.le_trans hj hlength) heq
      obtain ⟨-, hch⟩ := substring_eq_singleton
        (Nat.le_trans hle (Nat.le_trans hj hlength)) hfirst.symm
      exact ⟨⟨Nat.lt_of_lt_of_le hle hj, c, hch, decide_eq_true rfl⟩,
        (ih hle).mpr hrest.symm⟩

theorem spans_denotes (env : Env) (hrange : range.Valid) (hkleene : sre.kleene = true) :
    Denotes range (Spans env sre Flags.none range) (sre.language env) := by
  induction sre with
  | chars cs => exact fun i j _ hj => takes_iff hrange hj
  | string s => exact fun i j hi hj => spansString_iff hrange s hi hj
  | epsilon => exact Denotes.one hrange
  | nil => exact Denotes.one hrange
  | seq first rest ih_first ih_rest =>
    have hboth : (first.kleene && rest.kleene) = true := hkleene
    rw [Bool.and_eq_true] at hboth
    exact Denotes.mul hrange (spans_forward env first _ range) (spans_forward env rest _ range)
      (ih_first hboth.1) (ih_rest hboth.2)
  | fail => exact fun i j _ _ => Iff.rfl
  | alt first rest ih_first ih_rest =>
    have hboth : (first.kleene && rest.kleene) = true := hkleene
    rw [Bool.and_eq_true] at hboth
    intro i j hi hj
    rw [spans_alt]
    by_cases hset : (Sre.alt first rest).charSetSre = true
    · obtain ⟨cs, hcs, hmem⟩ := toCharSets_kleene env hkleene hset
      rw [hmem, ← takes_iff hrange hj]
      constructor
      · rintro (⟨-, cs', hcs', htakes⟩ | ⟨hnot, -⟩)
        · cases hcs.symm.trans hcs'
          exact htakes
        · rw [hset] at hnot
          cases hnot
      · exact fun htakes => Or.inl ⟨hset, cs, hcs, htakes⟩
    · rw [Bool.not_eq_true] at hset
      have hadd := (ih_first hboth.1).add (ih_rest hboth.2) i j hi hj
      refine Iff.trans ?_ hadd
      rw [hset]
      simp
  | optional greedy body ih => exact (Denotes.one hrange).add (ih hkleene)
  | star greedy body ih => exact (ih hkleene).kstar hrange (spans_forward env body _ range)
  | plus body ih => exact (ih hkleene).plus hrange (spans_forward env body _ range)
  | submatch body ih => exact ih hkleene
  | named _ body ih => exact ih hkleene
  | _ => cases hkleene

/-! ## Matching the whole range -/

/-- `regexp-matches` ends, and succeeds if the range is in the language. -/
def MatchesLanguage (env : Env) (order : Order) (sre : Sre) (range : Range) : Prop :=
  (regexpMatches env order sre Flags.none range).Returns ∧
    ((regexpMatches env order sre Flags.none range).Succeeds ↔
      substring range.str range.start range.stop ∈ sre.language env)

/-- Matching is right, unless the whole SRE is non-greedy and a shorter part of the range is in the
language, too: then the first match found is kept. -/
theorem matchesLanguage_iff (env : Env) (order : Order) (sre : Sre) (hkleene : sre.kleene = true)
    (range : Range) (hrange : range.Valid) :
    MatchesLanguage env order sre range ↔
      ¬ (sre.nonGreedySre = true ∧
        substring range.str range.start range.stop ∈ sre.language env ∧
        ∃ j, range.start ≤ j ∧ j < range.stop ∧
          substring range.str range.start j ∈ sre.language env) := by
  have hcompiles := compiles_kleene env hkleene
  have hdenotes := spans_denotes env hrange hkleene
  have hwhole := hdenotes range.start range.stop hrange.start_le (Nat.le_refl _)
  have hshorter : (∃ j, j < range.stop ∧ Spans env sre Flags.none range range.start j) ↔
      ∃ j, range.start ≤ j ∧ j < range.stop ∧
        substring range.str range.start j ∈ sre.language env := by
    constructor
    · rintro ⟨j, hj, hspans⟩
      have hle := (spans_forward env sre _ range _ _ hspans).1
      exact ⟨j, hle, hj, (hdenotes _ j hle (Nat.le_of_lt hj)).mp hspans⟩
    · rintro ⟨j, hle, hj, hmem⟩
      exact ⟨j, hj, (hdenotes _ j hle (Nat.le_of_lt hj)).mpr hmem⟩
  rw [MatchesLanguage, regexpMatches, returns_iff hrange, ← regexpMatches,
    regexpMatches_succeeds_iff hrange, ← hwhole, ← hshorter]
  constructor
  · rintro ⟨-, hiff⟩ ⟨hnonGreedy, hspans, j, hj, hpart⟩
    exact (hiff.mpr hspans).2.2 hnonGreedy j hj hpart
  · intro hnot
    refine ⟨hcompiles, fun h => h.2.1, fun hspans => ⟨hcompiles, hspans, ?_⟩⟩
    exact fun hnonGreedy j hj hpart => hnot ⟨hnonGreedy, hspans, j, hj, hpart⟩

/-- A greedy repetition matches the whole of "aa". -/
theorem matchesLanguage_iff_greedy :
    MatchesLanguage Env.ascii Order.added (.star true (.seq (.ofChar 'a') .nil)) ⟨['a', 'a'], 0, 2⟩ :=
  (matchesLanguage_iff Env.ascii Order.added _ rfl _ ⟨by decide, by decide⟩).mpr
    fun h => Bool.false_ne_true h.1

/-- A non-greedy repetition does not match "aa", which is in its language. -/
theorem nonGreedy_not_matches :
    let sre := Sre.star false (.seq (.ofChar 'a') .nil)
    sre.kleene = true ∧ ¬ MatchesLanguage Env.ascii Order.added sre ⟨['a', 'a'], 0, 2⟩ := by
  refine ⟨rfl, fun h => ?_⟩
  have hfails : ¬ (regexpMatches Env.ascii Order.added (.star false (.seq (.ofChar 'a') .nil))
      Flags.none ⟨['a', 'a'], 0, 2⟩).Succeeds := by decide +kernel
  refine hfails (h.2.mpr ?_)
  have ha : ['a'] ∈ (Sre.seq (.ofChar 'a') .nil).language Env.ascii :=
    Language.mem_mul.mpr ⟨['a'], ⟨'a', rfl, rfl⟩, [], Language.nil_mem_one, rfl⟩
  refine Language.mem_kstar.mpr ⟨[['a'], ['a']], rfl, fun w hw => ?_⟩
  rcases mem_cons.mp hw with rfl | hw
  · exact ha
  · rw [mem_singleton.mp hw]
    exact ha

/-! ## Searching -/

/-- No operator is non-greedy. -/
def Sre.greedy : Sre → Bool
  | .seq first rest => greedy first && greedy rest
  | .alt first rest => greedy first && greedy rest
  | .optional g body => g && greedy body
  | .star g body => g && greedy body
  | .repeated g _ _ body => g && greedy body
  | .look _ _ body => greedy body
  | .plus body => greedy body
  | .exactly _ body => greedy body
  | .atLeast _ body => greedy body
  | .submatch body => greedy body
  | .named _ body => greedy body
  | .withFlags _ body => greedy body
  | _ => true

theorem nonGreedySre_of_greedy (h : sre.greedy = true) : sre.nonGreedySre = false := by
  induction sre with
  | seq first rest ih_first ih_rest =>
    have hboth : (first.greedy && rest.greedy) = true := h
    rw [Bool.and_eq_true] at hboth
    cases rest with
    | nil => exact ih_first hboth.1
    | _ => exact ih_rest hboth.2
  | alt first rest ih_first ih_rest =>
    have hboth : (first.greedy && rest.greedy) = true := h
    rw [Bool.and_eq_true] at hboth
    rw [Sre.nonGreedySre, ih_first hboth.1, ih_rest hboth.2]
    rfl
  | optional g body _ =>
    have hboth : (g && body.greedy) = true := h
    rw [Sre.nonGreedySre, (Bool.and_eq_true_iff.mp hboth).1]
    rfl
  | star g body _ =>
    have hboth : (g && body.greedy) = true := h
    rw [Sre.nonGreedySre, (Bool.and_eq_true_iff.mp hboth).1]
    rfl
  | repeated g _ _ body _ =>
    have hboth : (g && body.greedy) = true := h
    rw [Sre.nonGreedySre, (Bool.and_eq_true_iff.mp hboth).1]
    rfl
  | withFlags change body ih =>
    rw [Sre.nonGreedySre, ih h, Bool.and_false]
  | _ => rfl

/-- The substrings of the range that are in the language, from their start to their end -/
def InLanguage (env : Env) (sre : Sre) (range : Range) (s e : ℕ) : Prop :=
  range.start ≤ s ∧ s ≤ e ∧ e ≤ range.stop ∧ substring range.str s e ∈ sre.language env

/-- A search with greedy operators only finds the leftmost match there is, and the longest one from
there, in whatever order the tables are walked. -/
theorem regexpSearch_leftmost_longest (env : Env) (order : Order) (sre : Sre)
    (hkleene : sre.kleene = true) (hgreedy : sre.greedy = true) (range : Range)
    (hrange : range.Valid) :
    ∃ result, regexpSearch env order sre Flags.none range = .ok (some result) ∧
      (result = none ↔ ∀ s e, ¬ InLanguage env sre range s e) ∧
      ∀ m, result = some m → ∃ s e, m.ref 0 = some s ∧ m.ref 1 = some e ∧
        InLanguage env sre range s e ∧ (∀ s' e', InLanguage env sre range s' e' → s ≤ s') ∧
        ∀ e', InLanguage env sre range s e' → e' ≤ e := by
  have hcompiles := compiles_kleene env hkleene
  have hdenotes := spans_denotes env hrange hkleene
  -- what the machine spans is the language
  have hspans : ∀ s e, (range.start ≤ s ∧ s ≤ range.stop ∧ Spans env sre Flags.none range s e) ↔
      InLanguage env sre range s e := by
    intro s e
    constructor
    · rintro ⟨hs, hs', hspans⟩
      have hforward := spans_forward env sre _ range s e hspans
      have he := hforward.2 hs'
      exact ⟨hs, hforward.1, he, (hdenotes s e hforward.1 he).mp hspans⟩
    · rintro ⟨hs, hle, he, hmem⟩
      exact ⟨hs, Nat.le_trans hle he, (hdenotes s e hle he).mpr hmem⟩
  obtain ⟨rx, hrx⟩ := (regexp_ok_iff Flags.none).mpr hcompiles
  have hof := regexp_of hrx
  obtain ⟨accept, -, hrun⟩ := Rx.runOffsets_search hof hrange order
  refine ⟨accept.map Searcher.found, ?_, ?_, ?_⟩
  · rw [regexpSearch, regexpRun_of hrx, hrun]
  · have hsome := Rx.search_iff hof hrange order
    rw [hrun] at hsome
    cases haccept : accept with
    | none =>
      refine ⟨fun _ s e hin => ?_, fun _ => rfl⟩
      obtain ⟨hs, hs', hmatched⟩ := (hspans s e).mpr hin
      obtain ⟨m, hm⟩ := hsome.mpr ⟨s, e, hs, hs', hmatched⟩
      rw [haccept] at hm
      cases hm
    | some a =>
      refine ⟨fun h => absurd h (Option.some_ne_none _), fun hnone => ?_⟩
      obtain ⟨s, e, hs, hs', hmatched⟩ := hsome.mp ⟨a.found, by rw [haccept]; rfl⟩
      exact absurd ((hspans s e).mp ⟨hs, hs', hmatched⟩) (hnone s e)
  · intro m hm
    have hfound : rx.runOffsets order true range = some (some m) := by rw [hrun, hm]
    obtain ⟨s, e, hzero, hone, hs, he, hmatched, hleft, hlong⟩ :=
      Rx.search_leftmost_longest hof hrange order (nonGreedySre_of_greedy hgreedy) hfound
    have hle := (spans_forward env sre _ range s e hmatched).1
    refine ⟨s, e, hzero, hone, (hspans s e).mp ⟨hs, Nat.le_trans hle he, hmatched⟩, ?_, ?_⟩
    · intro s' e' hin
      obtain ⟨hs', hs'', hmatched'⟩ := (hspans s' e').mpr hin
      exact hleft s' e' hs' hs'' hmatched'
    · intro e' hin
      exact hlong e' ((hspans s e').mpr hin).2.2

/-- The leftmost run of "a" in "baac" is found whole. -/
theorem regexpSearch_leftmost_longest_run :
    ∃ result, regexpSearch Env.ascii Order.added (.plus (.seq (.ofChar 'a') .nil)) Flags.none
        ⟨['b', 'a', 'a', 'c'], 0, 4⟩ = .ok (some result) ∧
      (result = none ↔ ∀ s e, ¬ InLanguage Env.ascii (.plus (.seq (.ofChar 'a') .nil))
        ⟨['b', 'a', 'a', 'c'], 0, 4⟩ s e) := by
  obtain ⟨result, hrun, hnone, -⟩ := regexpSearch_leftmost_longest Env.ascii Order.added
    (.plus (.seq (.ofChar 'a') .nil)) rfl rfl ⟨['b', 'a', 'a', 'c'], 0, 4⟩ ⟨by decide, by decide⟩
  exact ⟨result, hrun, hnone⟩

end Regexp

end ChibiScheme
