import ChibiScheme.Regexp.Closure

/-!
# The run of a regular expression

At every position the searchers of a run are those that some path from a start brings there, and the
accepted searcher is as good as every match found so far.  The order in which the tables are walked
does not matter.
-/

namespace ChibiScheme

open List Option

namespace Regexp

namespace Rx

variable {env : Env} {range : Range} {flags : Flags} {sre : Sre} {rx : Rx} {search : Bool}
  {i q s : ℕ} {m : Matches}

/-! ## Paths and positions -/

theorem Reached.split (h : rx.Reached range s q i m) :
    (s = i ∧ Relation.ReflTransGen (rx.Eps range i) rx.startState q) ∨
    ∃ i₀ p st ch q₀ m₀, i = i₀ + 1 ∧ rx.Reached range s p i₀ m₀ ∧ rx.states[p]? = some st ∧
      st.isEpsilon = false ∧ i₀ < range.stop ∧ range.str[i₀]? = some ch ∧ st.takes ch = true ∧
      st.next1 = some q₀ ∧ Relation.ReflTransGen (rx.Eps range i) q₀ q := by
  have hsplit : ∀ c, Path rx.states range (rx.startConfig s) c →
      (s = c.pos ∧ Relation.ReflTransGen (rx.Eps range c.pos) rx.startState c.state) ∨
      ∃ i₀ p st ch q₀ m₀, c.pos = i₀ + 1 ∧ rx.Reached range s p i₀ m₀ ∧ rx.states[p]? = some st ∧
        st.isEpsilon = false ∧ i₀ < range.stop ∧ range.str[i₀]? = some ch ∧ st.takes ch = true ∧
        st.next1 = some q₀ ∧ Relation.ReflTransGen (rx.Eps range c.pos) q₀ c.state := by
    intro c hpath
    induction hpath with
    | refl => exact Or.inl ⟨rfl, Relation.ReflTransGen.refl⟩
    | tail hbefore hstep ih =>
      cases hstep with
      | between hstate haccept hepsilon hpasses hleads =>
        have heps : rx.Eps range _ _ _ := ⟨_, hstate, haccept, hepsilon, hpasses, hleads⟩
        rcases ih with ⟨hs, hstart⟩ | ⟨i₀, p, st, ch, q₀, m₀, hpos, hreached, hst, hnot,
          hstop, hchar, htakes, hnext, hrest⟩
        · exact Or.inl ⟨hs, hstart.tail heps⟩
        · exact Or.inr ⟨i₀, p, st, ch, q₀, m₀, hpos, hreached, hst, hnot, hstop, hchar,
            htakes, hnext, hrest.tail heps⟩
      | char hstate _ hepsilon hstop hchar htakes hnext =>
        exact Or.inr ⟨_, _, _, _, _, _, rfl, hbefore, hstate, hepsilon, hstop, hchar,
          htakes, hnext, Relation.ReflTransGen.refl⟩
  exact hsplit _ h

theorem Reached.through {j : ℕ} (h : rx.Reached range s q j m) (hs : s ≤ i) (hj : i < j) :
    ∃ p st m₀, rx.Reached range s p i m₀ ∧ rx.states[p]? = some st ∧ st.isEpsilon = false := by
  have hthrough : ∀ c, Path rx.states range (rx.startConfig s) c → i < c.pos →
      ∃ p st m₀, rx.Reached range s p i m₀ ∧ rx.states[p]? = some st ∧ st.isEpsilon = false := by
    intro c hpath
    induction hpath with
    | refl => exact fun hi => absurd hs (Nat.not_le.mpr hi)
    | tail hbefore hstep ih =>
      intro hi
      cases hstep with
      | between => exact ih hi
      | @char q i₁ m₁ _ _ _ hstate _ hepsilon =>
        rcases Nat.lt_or_ge i i₁ with hlt | hge
        · exact ih hlt
        · obtain rfl : i = i₁ := by simp only at hi; omega
          exact ⟨_, _, _, hbefore, hstate, hepsilon⟩
  exact hthrough _ h hj

/-! ## One round -/

variable {sr : Searcher}

theorem mem_walk_of_posseRef (order : Order) (past : List (List ℕ)) {posse : Posse}
    (h : posseRef posse q = some sr) : sr ∈ order.walk rx past posse := by
  have hkey : q ∈ posseKeys posse := posseRef_isSome_iff.mp (by rw [h]; rfl)
  exact mem_filterMap.mpr ⟨q, (order.isPerm rx past _).mem_iff.mpr hkey, h⟩

theorem mem_of_mem_walk {order : Order} {past : List (List ℕ)} {posse : Posse}
    (h : sr ∈ order.walk rx past posse) : sr ∈ posse := by
  obtain ⟨q, -, hq⟩ := mem_filterMap.mp h
  exact (mem_of_posseRef hq).1

/-- The states that the searcher reaches with the character were dealt with. -/
def Passed (rx : Rx) (search : Bool) (range : Range) (i : ℕ) (ch : Char)
    (acc : Posse × Option Searcher) (sr : Searcher) : Prop :=
  ∀ st q₀ q s, rx.states[sr.state]? = some st → st.takes ch = true → st.next1 = some q₀ →
    Relation.ReflTransGen (rx.Eps range (i + 1)) q₀ q → rx.Earlier sr.found s →
    rx.Handled search (i + 1) acc s q

variable {ch : Char} {acc : Posse × Option Searcher}

/-- One searcher over one character. -/
theorem advanceSearcher_spec (h : rx.Of env flags sre) (hstop : i < range.stop)
    (hchar : range.str[i]? = some ch) (hsound : rx.Sound search range (i + 1) (closureOf acc))
    (hwaits : rx.Waits search range i sr) :
    ∃ acc', rx.advanceSearcher range i ch acc sr = some acc' ∧
      rx.Sound search range (i + 1) (closureOf acc') ∧
      rx.Extends search (closureOf acc) (closureOf acc') ∧ rx.Passed search range i ch acc' sr := by
  obtain ⟨s, m, st, hs, hreached, hst, hepsilon, hfound⟩ := hwaits
  have hstart := (h.recorded_takes hreached hst hepsilon).1
  rw [← hfound] at hstart
  unfold advanceSearcher
  rw [hst]
  by_cases htakes : st.takes ch = true
  · obtain ⟨q₀, hnext⟩ := (h.plain_of_takes hst hepsilon).1 hepsilon
    have haccept : st.accept = false := by
      rw [Bool.eq_false_iff, ne_eq, h.accept_iff hst]
      rintro hzero
      rw [hzero, h.accept] at hst
      cases hst
      cases hepsilon
    have hnext_reached : rx.Reached range s q₀ (i + 1) sr.found := by
      rw [hfound]
      exact hreached.tail
        (Step.char hst haccept hepsilon hstop hchar htakes hnext)
    obtain ⟨acc', hadvance, hsound', hextends, hhandled⟩ :=
      posseAdvance_spec h hs hnext_reached hsound
    refine ⟨acc', ?_, hsound', hextends, ?_⟩
    · rw [← hadvance]
      simp only [bind_eq_bind, bind_some, if_pos htakes, hnext]
    · intro st' q' q'' s' hst' _ hnext' heps hearlier
      rw [hst] at hst'
      cases hst'
      rw [hnext] at hnext'
      cases hnext'
      refine (hhandled q'' heps).mono fun hgreedy => ?_
      obtain ⟨s₀, href, hle⟩ := hearlier hgreedy
      rw [hstart] at href
      cases href
      exact hle
  · refine ⟨acc, ?_, hsound, Extends.refl _, ?_⟩
    · simp only [bind_eq_bind, bind_some, if_neg htakes]
      rfl
    · intro st' q' q'' s' hst' htakes'
      rw [hst] at hst'
      cases hst'
      exact absurd htakes' htakes

theorem Passed.extend {acc' : Posse × Option Searcher} (h : rx.Passed search range i ch acc sr)
    (h' : rx.Extends search (closureOf acc) (closureOf acc')) :
    rx.Passed search range i ch acc' sr :=
  fun st q₀ q s hst htakes hnext heps hearlier =>
    (h st q₀ q s hst htakes hnext heps hearlier).extend h'

/-- All searchers over one character. -/
theorem walk_spec (h : rx.Of env flags sre) (hstop : i < range.stop)
    (hchar : range.str[i]? = some ch) (l : List Searcher)
    (hwaits : ∀ sr ∈ l, rx.Waits search range i sr)
    (hsound : rx.Sound search range (i + 1) (closureOf acc)) :
    ∃ acc', l.foldlM (rx.advanceSearcher range i ch) acc = some acc' ∧
      rx.Sound search range (i + 1) (closureOf acc') ∧
      rx.Extends search (closureOf acc) (closureOf acc') ∧
      ∀ sr ∈ l, rx.Passed search range i ch acc' sr := by
  induction l generalizing acc with
  | nil => exact ⟨acc, rfl, hsound, Extends.refl _, nofun⟩
  | cons sr l ih =>
    obtain ⟨acc₁, hfirst, hsound₁, hextends₁, hpassed⟩ :=
      advanceSearcher_spec h hstop hchar hsound (hwaits sr mem_cons_self)
    obtain ⟨acc', hrest, hsound', hextends', hall⟩ :=
      ih (fun sr' hsr' => hwaits sr' (mem_cons_of_mem sr hsr')) hsound₁
    refine ⟨acc', ?_, hsound', hextends₁.trans hextends', ?_⟩
    · rw [foldlM_cons, hfirst]
      exact hrest
    · intro sr' hsr'
      rcases mem_cons.mp hsr' with rfl | hsr'
      · exact hpassed.extend hextends'
      · exact hall sr' hsr'

/-! ## All rounds -/

/-- The searchers before a step of the search at position `i`. -/
structure Before (rx : Rx) (search : Bool) (range : Range) (i : ℕ)
    (acc : Posse × Option Searcher) : Prop where
  sound : rx.Sound search range i (closureOf acc)
  handled : ∀ s q m, Starts search range s → s < i → rx.Reached range s q i m →
    rx.Handled search i acc s q
  won : ∀ s j m, Starts search range s → j < i → rx.Reached range s 0 j m →
    rx.Won acc.2 s j

/-- The searchers once those from `i` have been added. -/
structure After (rx : Rx) (search : Bool) (range : Range) (i : ℕ)
    (acc : Posse × Option Searcher) : Prop where
  sound : rx.Sound search range i (closureOf acc)
  handled : ∀ s q m, Starts search range s → s ≤ i → rx.Reached range s q i m →
    rx.Handled search i acc s q
  won : ∀ s j m, Starts search range s → j ≤ i → rx.Reached range s 0 j m →
    rx.Won acc.2 s j

theorem Handled.won (h : rx.Of env flags sre) (hhandled : rx.Handled search i acc s 0) :
    rx.Won acc.2 s i :=
  hhandled.accept _ h.accept rfl

theorem Before.after_of_not_start (hrx : rx.Of env flags sre) (h : rx.Before search range i acc)
    (hnot : ¬ Starts search range i) : rx.After search range i acc := by
  have hless : ∀ s, Starts search range s → s ≤ i → s < i := by
    intro s hs hle
    rcases Nat.eq_or_lt_of_le hle with rfl | hlt
    · exact absurd hs hnot
    · exact hlt
  refine ⟨h.sound, fun s q m hs hle => h.handled s q m hs (hless s hs hle), ?_⟩
  intro s j m hs hj hreached
  rcases Nat.eq_or_lt_of_le hj with rfl | hlt
  · have hle := (hrx.recorded_accept hreached).2.2
    exact (h.handled s 0 m hs (hless s hs hle) hreached).won hrx
  · exact h.won s j m hs hlt hreached

theorem Before.start (hrx : rx.Of env flags sre) (h : rx.Before search range i acc)
    (hstart : Starts search range i) :
    ∃ acc', rx.posseAdvance range i rx.startSearcher acc.1 acc.2 = some acc' ∧
      rx.After search range i acc' := by
  obtain ⟨acc', hadvance, hsound, hextends, hhandled⟩ :=
    posseAdvance_spec hrx hstart Relation.ReflTransGen.refl h.sound
  have hall : ∀ s q m, Starts search range s → s ≤ i → rx.Reached range s q i m →
      rx.Handled search i acc' s q := by
    intro s q m hs hle hreached
    rcases Nat.eq_or_lt_of_le hle with rfl | hlt
    · rcases hreached.split with ⟨-, heps⟩ | ⟨i₀, p, st, ch, q₀, m₀, hpos, hbefore, -⟩
      · exact hhandled q heps
      · -- a path does not come back to the position before its start
        rcases hrx.recordedFrom hbefore with ⟨-, heq, -⟩ | ⟨-, hge, -⟩
        · omega
        · simp only at hge
          omega
    · exact (h.handled s q m hs hlt hreached).extend hextends
  refine ⟨acc', hadvance, hsound, hall, ?_⟩
  intro s j m hs hj hreached
  rcases Nat.eq_or_lt_of_le hj with rfl | hlt
  · have hle := (hrx.recorded_accept hreached).2.2
    exact (hall s 0 m hs hle hreached).won hrx
  · exact hextends.accept s j (h.won s j m hs hlt hreached)

theorem After.next (hrx : rx.Of env flags sre) (h : rx.After search range i acc)
    (hstop : i < range.stop) (hchar : range.str[i]? = some ch) (order : Order)
    (past : List (List ℕ)) :
    ∃ acc', (order.walk rx past acc.1).foldlM (rx.advanceSearcher range i ch) ([], acc.2) =
      some acc' ∧ rx.Before search range (i + 1) acc' := by
  have hsound₀ : rx.Sound search range (i + 1) (closureOf ([], acc.2)) := by
    refine ⟨nofun, fun a ha => ?_, nofun⟩
    obtain ⟨s, e, hs, he, hreached⟩ := h.sound.accept a ha
    exact ⟨s, e, hs, Nat.le_succ_of_le he, hreached⟩
  obtain ⟨acc', hwalk, hsound, hextends, hpassed⟩ :=
    walk_spec hrx hstop hchar (order.walk rx past acc.1)
      (fun sr hsr => h.sound.new sr (mem_of_mem_walk hsr)) hsound₀
  refine ⟨acc', hwalk, hsound, ?_, ?_⟩
  · intro s q m hs hlt hreached
    rcases hreached.split with ⟨heq, -⟩ | ⟨i₀, p, st, ch', q₀, m₀, hpos, hbefore, hst,
      hepsilon, -, hchar', htakes, hnext, heps⟩
    · omega
    obtain rfl : i = i₀ := Nat.succ.inj hpos
    rw [hchar] at hchar'
    cases hchar'
    obtain ⟨sr, hsr, hearlier⟩ :=
      (h.handled s p m₀ hs (Nat.le_of_lt_succ hlt) hbefore).new st hst hepsilon
    have hstate := (mem_of_posseRef hsr).2
    rw [← hstate] at hst
    exact hpassed sr (mem_walk_of_posseRef order past hsr) st q₀ q s hst htakes hnext heps
      hearlier
  · intro s j m hs hlt hreached
    exact hextends.accept s j (h.won s j m hs (Nat.le_of_lt_succ hlt) hreached)

theorem After.won_of_settled (hrx : rx.Of env flags sre) (h : rx.After search range i acc)
    (hi : range.start ≤ i) (hsettled : settled search acc.1 acc.2 = true) {j : ℕ}
    (hs : Starts search range s) (hreached : rx.Reached range s 0 j m) : rx.Won acc.2 s j := by
  rcases Nat.lt_or_ge i j with hj | hj
  · -- a match that ends later has a searcher here, or starts later
    have hlater : s ≤ i → ∃ sr ∈ acc.1, rx.Earlier sr.found s := by
      intro hle
      obtain ⟨p, st, m₀, hbefore, hst, hepsilon⟩ := hreached.through hle hj
      obtain ⟨sr, hsr, hearlier⟩ := (h.handled s p m₀ hs hle hbefore).new st hst hepsilon
      exact ⟨sr, (mem_of_posseRef hsr).1, hearlier⟩
    unfold settled at hsettled
    cases search with
    | false =>
      rw [if_neg (by simp)] at hsettled
      rcases hs.2 with hfalse | rfl
      · cases hfalse
      · obtain ⟨sr, hsr, -⟩ := hlater hi
        rw [List.isEmpty_iff.mp hsettled] at hsr
        cases hsr
    | true =>
      rw [if_pos rfl] at hsettled
      split at hsettled
      · cases hsettled
      next a ha =>
        obtain ⟨s', e, -, he, haccepted⟩ := h.sound.accept a ha
        obtain ⟨hzero, hone, hle⟩ := hrx.recorded_accept haccepted
        refine ⟨a, ha, fun hgreedy => ⟨s', e, hzero, hone, Or.inl ?_⟩,
          fun _ => ⟨e, hone, Nat.le_trans he (Nat.le_of_lt hj)⟩⟩
        rcases Nat.lt_or_ge i s with hlt | hge
        · exact Nat.lt_of_le_of_lt (Nat.le_trans hle he) hlt
        · obtain ⟨sr, hsr, hearlier⟩ := hlater hge
          obtain ⟨s₀, href, hs₀⟩ := hearlier hgreedy
          have hafter := List.all_eq_true.mp hsettled sr hsr
          rw [href, hzero] at hafter
          exact Nat.lt_of_lt_of_le (of_decide_eq_true hafter) hs₀
  · exact h.won s j m hs hj hreached

/-- What a run returns: a match on a path, as good as every other one -/
structure Result (rx : Rx) (search : Bool) (range : Range) (accept : Option Searcher) : Prop where
  sound : ∀ a, accept = some a → rx.Accepted search range range.stop a
  best : ∀ s j m, Starts search range s → j ≤ range.stop → rx.Reached range s 0 j m →
    rx.Won accept s j

theorem Before.round (hrx : rx.Of env flags sre) (h : rx.Before search range i acc)
    (hi : range.start ≤ i) :
    ∃ acc', (if (search || decide (i = range.start)) = true then
      rx.posseAdvance range i rx.startSearcher acc.1 acc.2 else pure (acc.1, acc.2)) =
        some acc' ∧ rx.After search range i acc' := by
  split
  · next hor =>
      apply h.start hrx
      rw [Bool.or_eq_true, decide_eq_true_eq] at hor
      exact ⟨hi, hor⟩
  · next hnot =>
      refine ⟨acc, rfl, h.after_of_not_start hrx fun hstart => hnot ?_⟩
      rw [Bool.or_eq_true, decide_eq_true_eq]
      exact hstart.2

theorem After.result (hrx : rx.Of env flags sre) (h : rx.After search range i acc)
    (hi : range.start ≤ i) (hstop : i ≤ range.stop)
    (hend : i = range.stop ∨ settled search acc.1 acc.2 = true) :
    rx.Result search range acc.2 := by
  refine ⟨fun a ha => ?_, fun s j m hs hj hreached => ?_⟩
  · obtain ⟨s, e, hs, he, hreached⟩ := h.sound.accept a ha
    exact ⟨s, e, hs, Nat.le_trans he hstop, hreached⟩
  · rcases hend with rfl | hsettled
    · exact h.won s j m hs hj hreached
    · exact h.won_of_settled hrx hi hsettled hs hreached

theorem advanceLoop_eq {order : Order} {left : ℕ} {past : List (List ℕ)}
    {acc' : Posse × Option Searcher}
    (hround : (if (search || decide (i = range.start)) = true then
      rx.posseAdvance range i rx.startSearcher acc.1 acc.2 else pure (acc.1, acc.2)) =
        some acc') :
    rx.advanceLoop order search range left i past acc.1 acc.2 =
      match left with
      | 0 => some acc'.2
      | left + 1 =>
        if settled search acc'.1 acc'.2 then some acc'.2
        else range.str[i]?.bind fun ch =>
          ((order.walk rx past acc'.1).foldlM (rx.advanceSearcher range i ch) ([], acc'.2)).bind
            fun acc'' =>
              rx.advanceLoop order search range left (i + 1) (posseKeys acc'.1 :: past) acc''.1
                acc''.2 := by
  rw [advanceLoop]
  split at hround
  · next hstart =>
      rw [if_pos hstart, hround]
      cases left <;> rfl
  · next hstart =>
      rw [if_neg hstart, hround]
      cases left <;> rfl

/-- The loop is right from every position on; the induction is on the characters left. -/
theorem advanceLoop_spec (hrx : rx.Of env flags sre) (hrange : range.Valid) (order : Order)
    (left : ℕ) (past : List (List ℕ)) (hleft : i + left = range.stop) (hi : range.start ≤ i)
    (h : rx.Before search range i acc) :
    ∃ accept, rx.advanceLoop order search range left i past acc.1 acc.2 = some accept ∧
      rx.Result search range accept := by
  induction left generalizing i past acc with
  | zero =>
    obtain ⟨acc', hround, hafter⟩ := h.round hrx hi
    refine ⟨acc'.2, ?_, hafter.result hrx hi (by omega) (Or.inl hleft)⟩
    rw [advanceLoop_eq hround]
  | succ left ih =>
    obtain ⟨acc', hround, hafter⟩ := h.round hrx hi
    rw [advanceLoop_eq hround]
    simp only
    by_cases hsettled : settled search acc'.1 acc'.2 = true
    · refine ⟨acc'.2, if_pos hsettled, ?_⟩
      exact hafter.result hrx hi (by omega) (Or.inr hsettled)
    · have hlength := hrange.stop_le
      have hchar : range.str[i]? = some range.str[i] := getElem?_eq_getElem (by omega)
      obtain ⟨acc'', hwalk, hbefore⟩ := hafter.next hrx (by omega) hchar order past
      obtain ⟨accept, hloop, hresult⟩ :=
        ih (posseKeys acc'.1 :: past) (by omega) (by omega) hbefore
      refine ⟨accept, ?_, hresult⟩
      rw [if_neg hsettled, hchar, bind_some, hwalk, bind_some]
      exact hloop

/-- The search accepts a best match, if there is one. -/
theorem regexpAdvance_spec (hrx : rx.Of env flags sre) (hrange : range.Valid) (order : Order)
    (search : Bool) :
    ∃ accept, rx.regexpAdvance order search range = some accept ∧
      rx.Result search range accept := by
  have hle := hrange.start_le
  have hbefore : rx.Before search range range.start ([], none) := by
    refine ⟨⟨nofun, nofun, nofun⟩, fun s q m hs hlt => ?_, fun s j m hs hlt hreached => ?_⟩
    · exact absurd hs.1 (Nat.not_le.mpr hlt)
    · have hj := (hrx.recorded_accept hreached).2.2
      exact absurd (Nat.le_trans hs.1 hj) (Nat.not_le.mpr hlt)
  exact advanceLoop_spec hrx hrange order (range.stop - range.start) [] (by omega)
    (Nat.le_refl _) hbefore

end Rx

end Regexp

end ChibiScheme
