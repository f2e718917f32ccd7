import ChibiScheme.Regexp.Correct

/-!
# Which expressions compile

Compiling fails for a repetition of exactly zero copies, whose form has lost its head, and for an
alternative that is taken for a character set and is none.  Every other SRE has a regular expression.
-/

namespace ChibiScheme

open List

namespace Regexp

variable {env : Env} {flags : Flags} {sre : Sre}

/-- Every part of the SRE has states. -/
def Sre.Compiles (env : Env) : Sre → Prop
  | look _ _ body => body.Compiles env
  | seq first rest => first.Compiles env ∧ rest.Compiles env
  | alt first rest =>
    if (alt first rest).charSetSre then ∃ cs, (alt first rest).toCharSet env Flags.none = .ok cs
    else first.Compiles env ∧ rest.Compiles env
  | optional _ body => body.Compiles env
  | star _ body => body.Compiles env
  | plus body => body.Compiles env
  | exactly n body => n ≠ 0 ∧ body.Compiles env
  | atLeast _ body => body.Compiles env
  | repeated _ n m body => ¬ (n = 0 ∧ m = 0) ∧ body.Compiles env
  | submatch body => body.Compiles env
  | named _ body => body.Compiles env
  | withFlags _ body => body.Compiles env
  | _ => True

/-! ## Lists of items -/

attribute [local simp] Sre.depth Sre.Compiles toRx Sre.stripSubmatches in
theorem compiles_asSeq (body sre : Sre) : (Sre.asSeq body sre).Compiles env ↔ sre.Compiles env := by
  rw [Sre.asSeq]
  split
  · exact Iff.rfl
  · exact and_iff_left trivial

theorem compiles_strip (sre : Sre) : sre.stripSubmatches.Compiles env ↔ sre.Compiles env := by
  induction sre with
  | submatch body ih => exact (compiles_asSeq body _).trans ih
  | named _ body ih => exact (compiles_asSeq body _).trans ih
  | withFlags _ body ih => exact (compiles_asSeq body _).trans ih
  | look _ _ body ih => exact ih
  | seq first rest ih_first ih_rest =>
    exact and_congr ih_first ((compiles_asSeq rest _).trans ih_rest)
  | alt first rest ih_first ih_rest =>
    have hset : (Sre.alt first.stripSubmatches rest.stripSubmatches).charSetSre =
        (Sre.alt first rest).charSetSre := (Sre.charSets_strip (.alt first rest)).1
    have hcs : (Sre.alt first.stripSubmatches rest.stripSubmatches).toCharSet env Flags.none =
        (Sre.alt first rest).toCharSet env Flags.none :=
      (Sre.toCharSets_strip env (.alt first rest)).1 Flags.none
    rw [Sre.stripSubmatches, Sre.Compiles, Sre.Compiles, hset, hcs, ih_first, ih_rest]
  | optional _ body ih => exact ih
  | star _ body ih => exact ih
  | plus body ih => exact ih
  | exactly _ body ih => exact and_congr_right' ih
  | atLeast _ body ih => exact ih
  | repeated _ _ _ body ih => exact and_congr_right' ih
  | _ => exact Iff.rfl

theorem compiles_ofList (l : List Sre) :
    (Sre.ofList l).Compiles env ↔ ∀ sre ∈ l, sre.Compiles env := by
  induction l with
  | nil => simp [Sre.ofList, Sre.Compiles]
  | cons sre l ih => simp [Sre.ofList, Sre.Compiles, ih]

variable {compile : ℕ → Builder → Compiled}

theorem compiles_repetitionItems (low : ℕ) (high : Option ℕ) (body : Sre) :
    (Sre.ofList (repetitionItems low high body)).Compiles env ↔ body.Compiles env := by
  have hlast : ∀ greedy, (Sre.optional greedy (.seq body .nil)).Compiles env ↔
      body.Compiles env := fun _ => and_iff_left trivial
  have hstar : ∀ greedy, (Sre.star greedy (.seq body .nil)).Compiles env ↔
      body.Compiles env := fun _ => and_iff_left trivial
  rw [compiles_ofList]
  constructor
  · intro h
    unfold repetitionItems at h
    split at h
    · exact (hstar true).mp (h _ (by simp))
    · split at h
      · exact h _ (by simp)
      · exact (hlast true).mp (h _ (by simp))
  · intro h sre hmem
    have hstrip : body.stripSubmatches.Compiles env := (compiles_strip body).mpr h
    have hcopy : (Sre.optional true (.seq body.stripSubmatches .nil)).Compiles env :=
      ⟨hstrip, trivial⟩
    unfold repetitionItems at hmem
    split at hmem
    · rcases mem_append.mp hmem with hmem | hmem
      · rw [eq_of_mem_replicate hmem]
        exact hstrip
      · rw [mem_singleton.mp hmem]
        exact (hstar true).mpr h
    · split at hmem
      · rcases mem_append.mp hmem with hmem | hmem
        · rw [eq_of_mem_replicate hmem]
          exact hstrip
        · rw [mem_singleton.mp hmem]
          exact h
      · rcases mem_append.mp hmem with hmem | hmem
        · rw [eq_of_mem_replicate hmem]
          exact hstrip
        · rcases mem_append.mp hmem with hmem | hmem
          · rw [eq_of_mem_replicate hmem]
            exact hcopy
          · rw [mem_singleton.mp hmem]
            exact (hlast true).mpr h

/-! ## The fuel -/

theorem isSeq_ofList (l : List Sre) : (Sre.ofList l).isSeq = true := by
  cases l <;> rfl

theorem depth_asSeq (body sre : Sre) :
    (Sre.asSeq body sre).depth = if body.isSeq then sre.depth else sre.depth + 1 := by
  rw [Sre.asSeq]
  split
  · rfl
  · show max sre.depth 0 + 1 = _
    rw [Nat.max_zero]

theorem depth_strip (sre : Sre) : sre.stripSubmatches.depth ≤ sre.depth := by
  induction sre with
  | submatch body ih =>
    rw [Sre.stripSubmatches, depth_asSeq, Sre.depth]
    split <;> omega
  | named _ body ih =>
    rw [Sre.stripSubmatches, depth_asSeq, Sre.depth]
    split <;> omega
  | withFlags _ body ih =>
    rw [Sre.stripSubmatches, Sre.depth, Sre.depth, if_pos (Sre.isSeq_asSeq_strip body), depth_asSeq]
    split <;> omega
  | look _ _ body ih => exact Nat.add_le_add_right ih 3
  | seq first rest ih_first ih_rest =>
    rw [Sre.stripSubmatches, Sre.depth, Sre.depth, if_pos (Sre.isSeq_asSeq_strip rest), depth_asSeq]
    split <;> omega
  | alt first rest ih_first ih_rest =>
    rw [Sre.stripSubmatches, Sre.depth, Sre.depth]
    omega
  | optional _ body ih => exact Nat.add_le_add_right ih 1
  | star _ body ih => exact Nat.add_le_add_right ih 1
  | plus body ih => exact Nat.add_le_add_right ih 1
  | exactly n body ih =>
    exact Nat.add_le_add_right (Nat.add_le_add_right (Nat.add_le_add_right ih n) n) 5
  | atLeast n body ih => exact Nat.add_le_add_right (Nat.add_le_add_right ih n) 5
  | repeated _ n m body ih =>
    exact Nat.add_le_add_right (Nat.add_le_add_right (Nat.add_le_add_right ih n) m) 5
  | _ => exact Nat.le_refl _

theorem depth_ofList {d : ℕ} (l : List Sre) (h : ∀ sre ∈ l, sre.depth ≤ d) :
    (Sre.ofList l).depth ≤ d + l.length := by
  induction l with
  | nil => exact Nat.zero_le _
  | cons sre l ih =>
    have hsre := h sre mem_cons_self
    have hrest := ih fun sre' hmem => h sre' (mem_cons_of_mem sre hmem)
    rw [Sre.ofList, Sre.depth, if_pos (isSeq_ofList l), length_cons]
    omega

theorem depth_repetitionItems (low : ℕ) (high : Option ℕ) (body : Sre) :
    (Sre.ofList (repetitionItems low high body)).depth ≤ body.depth + low + high.getD 0 + 3 := by
  have hstrip := depth_strip body
  have hbody : (Sre.seq body .nil).depth = body.depth + 1 := by
    show max body.depth 0 + 1 = _
    rw [Nat.max_zero]
  have hcopy : (Sre.seq body.stripSubmatches .nil).depth ≤ body.depth + 1 := by
    show max body.stripSubmatches.depth 0 + 1 ≤ _
    rw [Nat.max_zero]
    omega
  have hitems : ∀ sre ∈ repetitionItems low high body, sre.depth ≤ body.depth + 2 := by
    intro sre hmem
    unfold repetitionItems at hmem
    split at hmem
    · rcases mem_append.mp hmem with hmem | hmem
      · rw [eq_of_mem_replicate hmem]
        omega
      · rw [mem_singleton.mp hmem, Sre.depth]
        omega
    · split at hmem
      · rcases mem_append.mp hmem with hmem | hmem
        · rw [eq_of_mem_replicate hmem]
          omega
        · rw [mem_singleton.mp hmem]
          omega
      · rcases mem_append.mp hmem with hmem | hmem
        · rw [eq_of_mem_replicate hmem]
          omega
        · rcases mem_append.mp hmem with hmem | hmem
          · rw [eq_of_mem_replicate hmem, Sre.depth]
            omega
          · rw [mem_singleton.mp hmem, Sre.depth]
            omega
  have hlength : (repetitionItems low high body).length ≤ low + high.getD 0 + 1 := by
    unfold repetitionItems
    split
    · simp
    · split <;> simp <;> omega
  have hdepth := depth_ofList _ hitems
  omega

theorem depth_ofList_chars (s : List Char) :
    (Sre.ofList (s.map fun c => .chars (.char c))).depth ≤ s.length := by
  have h := depth_ofList (d := 0) (s.map fun c => Sre.chars (.char c)) (by simp [Sre.depth])
  rwa [length_map, Nat.zero_add] at h

theorem depth_snoc (body : Sre) (a : Assertion) :
    (body.snoc (.assertion a)).depth ≤ body.depth + 2 ∧
      (body.isSeq = true → (body.snoc (.assertion a)).depth ≤ body.depth + 1) ∧
      (body.snoc (.assertion a)).isSeq = true := by
  induction body with
  | nil => exact ⟨Nat.le_succ 1, fun _ => Nat.le_refl 1, rfl⟩
  | seq first rest _ ih =>
    have h : ((Sre.seq first rest).snoc (.assertion a)).depth ≤ (Sre.seq first rest).depth + 1 := by
      rw [Sre.snoc, Sre.depth, Sre.depth, if_pos ih.2.2]
      cases hseq : rest.isSeq with
      | true =>
        have hrest := ih.2.1 hseq
        rw [if_pos rfl]
        omega
      | false =>
        have hrest := ih.1
        rw [if_neg Bool.false_ne_true]
        omega
    exact ⟨Nat.le_succ_of_le h, fun _ => h, rfl⟩
  | _ =>
    refine ⟨Nat.succ_le_succ (Nat.max_le.mpr ⟨Nat.le_succ _, ?_⟩), ?_, rfl⟩
    · exact Nat.succ_le_succ (Nat.zero_le _)
    · exact fun h => absurd h Bool.false_ne_true

/-! ## Which expressions compile -/

theorem makeSubmatchState_ok (h : ∀ next b, ∃ r, compile next b = .ok r) (sre : Sre)
    (next index : ℕ) (b : Builder) :
    ∃ r, makeSubmatchState compile sre next index b = .ok r := by
  obtain ⟨⟨entry, b'⟩, hbody⟩ := h b.nextId (b.add (.ofEpsilon (some next)))
  rw [makeSubmatchState, hbody]
  exact ⟨_, rfl⟩

theorem regexpWith_ok (h : ∀ next b, ∃ r, compile next b = .ok r) :
    ∃ rx, regexpWith compile sre = .ok rx := by
  obtain ⟨⟨start, b⟩, hmatch⟩ := makeSubmatchState_ok h sre 0 0
    ⟨[.ofAccept], 2, 0, [], [(0, 1)], []⟩
  have hstart : makeSubmatchState compile sre
      (Builder.nextId ⟨[], 2, 0, [], [(0, 1)], []⟩) 0
      (Builder.add ⟨[], 2, 0, [], [(0, 1)], []⟩ .ofAccept) = .ok (start, b) := hmatch
  rw [regexpWith]
  simp only [hstart]
  exact ⟨_, rfl⟩

theorem exists_ok_of_makeSubmatchState {next index : ℕ} {b : Builder} {r : ℕ × Builder}
    (h : makeSubmatchState compile sre next index b = .ok r) :
    ∃ next b r, compile next b = .ok r := by
  obtain ⟨r', h', -⟩ := ok_of_bind h
  exact ⟨_, _, r', h'⟩

theorem exists_ok_of_regexpWith {rx : Rx} (h : regexpWith compile sre = .ok rx) :
    ∃ next b r, compile next b = .ok r := by
  obtain ⟨r, h', -⟩ := ok_of_bind h
  exact exists_ok_of_makeSubmatchState h'

theorem compiles_snoc (body : Sre) (a : Assertion) :
    (body.snoc (.assertion a)).Compiles env ↔ body.Compiles env := by
  induction body with
  | nil => exact Iff.rfl.trans (and_self_iff)
  | seq first rest _ ih => exact and_congr_right' ih
  | _ => exact and_iff_left ⟨trivial, trivial⟩

theorem form_ok {low : ℕ} {high : Option ℕ} {body : Sre} {fuel : ℕ}
    (hdepth : body.depth + low + high.getD 0 + 3 < fuel) (hzero : ¬ (low = 0 ∧ high = some 0))
    (h : body.Compiles env)
    (ih : ∀ {sre : Sre}, sre.depth < fuel → sre.Compiles env →
      ∀ flags next b, ∃ r, toRx env fuel sre flags next b = .ok r)
    (flags : Flags) (next : ℕ) (b : Builder) :
    ∃ r, (do
      let form ← Sre.ofForm (Sre.sreExpandReps low high body)
      toRx env fuel form flags next b) = .ok r := by
  have hitems := depth_repetitionItems low high body
  obtain ⟨r, hr⟩ := ih (Nat.lt_of_le_of_lt hitems hdepth)
    ((compiles_repetitionItems low high body).mpr h) flags next b
  rw [ofForm_sreExpandReps, if_neg hzero]
  exact ⟨r, hr⟩

theorem ofForm_ok_iff {low : ℕ} {high : Option ℕ} {body form : Sre} :
    Sre.ofForm (Sre.sreExpandReps low high body) = .ok form ↔
      ¬ (low = 0 ∧ high = some 0) ∧ form = Sre.ofList (repetitionItems low high body) := by
  rw [ofForm_sreExpandReps]
  split
  · next hzero => exact ⟨nofun, fun h => absurd hzero h.1⟩
  · next hnot => exact ⟨fun h => ⟨hnot, (Except.ok.inj h).symm⟩, fun h => congrArg _ h.2.symm⟩

theorem toRx_ok (fuel : ℕ) (hdepth : sre.depth < fuel) (h : sre.Compiles env) :
    ∀ flags next b, ∃ r, toRx env fuel sre flags next b = .ok r := by
  induction fuel generalizing sre with
  | zero => exact absurd hdepth (Nat.not_lt_zero _)
  | succ fuel ih =>
    intro flags next b
    cases sre with
    | chars cs => exact ⟨_, rfl⟩
    | string s =>
      have hle := depth_ofList_chars s
      rw [Sre.depth] at hdepth
      apply ih (by omega)
      rw [compiles_ofList]
      simp [Sre.Compiles]
    | epsilon => exact ⟨_, rfl⟩
    | assertion a => exact ⟨_, rfl⟩
    | look ahead negated body =>
      rw [Sre.depth] at hdepth
      obtain ⟨rx, hrx⟩ : ∃ rx, regexpWith (toRx env fuel
          (if ahead then .seq (.assertion .bos) body else body.snoc (.assertion .eos)) Flags.none)
          (if ahead then .seq (.assertion .bos) body else body.snoc (.assertion .eos)) =
            .ok rx := by
        apply regexpWith_ok
        intro next b
        cases ahead with
        | true =>
          have hinner : (Sre.seq (.assertion .bos) body).Compiles env := ⟨trivial, h⟩
          refine ih ?_ hinner Flags.none next b
          show max 0 _ + 1 < fuel
          split <;> omega
        | false =>
          refine ih ?_ ((compiles_snoc body .eos).mpr h) Flags.none next b
          have hsnoc := (depth_snoc body .eos).1
          exact Nat.lt_of_le_of_lt hsnoc (by omega)
      rw [toRx]
      simp only [hrx]
      exact ⟨_, rfl⟩
    | nil => exact ⟨_, rfl⟩
    | seq first rest =>
      rw [Sre.depth] at hdepth
      obtain ⟨⟨n1, b₁⟩, hfirst⟩ :=
        ih (by omega) h.1 flags b.nextId (b.add (.ofEpsilon none))
      have hrest_depth : rest.depth < fuel := by
        split at hdepth <;> omega
      obtain ⟨⟨n3, b₂⟩, hrest⟩ := ih hrest_depth h.2 flags next b₁
      rw [toRx]
      simp only [hfirst, bind, Except.bind, hrest]
      exact ⟨_, rfl⟩
    | fail => exact ⟨_, rfl⟩
    | alt first rest =>
      rw [Sre.depth] at hdepth
      by_cases hset : (Sre.alt first rest).charSetSre = true
      · rw [Sre.Compiles, if_pos hset] at h
        obtain ⟨cs, hcs⟩ := h
        rw [toRx_alt_set hset, hcs]
        exact ⟨_, rfl⟩
      · rw [Sre.Compiles, if_neg hset] at h
        rw [Bool.not_eq_true] at hset
        obtain ⟨⟨n1, b₁⟩, hfirst⟩ := ih (by omega) h.1 flags next b
        by_cases hfail : rest = .fail
        · subst hfail
          rw [toRx_alt_one hset]
          exact ⟨_, hfirst⟩
        · obtain ⟨⟨n2, b₂⟩, hrest⟩ := ih (by omega) h.2 flags next b₁
          rw [toRx_alt hset hfail]
          simp only [hfirst, bind, Except.bind, hrest]
          exact ⟨_, rfl⟩
    | optional greedy body =>
      obtain ⟨⟨n1, b₁⟩, hbody⟩ := ih (Nat.lt_of_succ_lt_succ hdepth) h flags next b
      rw [toRx, hbody]
      exact ⟨_, rfl⟩
    | star greedy body =>
      obtain ⟨⟨n1, b₁⟩, hbody⟩ := ih (Nat.lt_of_succ_lt_succ hdepth) h flags b.nextId
        (b.add (.fork (some next) none))
      rw [toRx]
      simp only [hbody]
      exact ⟨_, rfl⟩
    | plus body =>
      obtain ⟨⟨n1, b₁⟩, hbody⟩ := ih (Nat.lt_of_succ_lt_succ hdepth) h flags b.nextId
        (b.add (.fork (some next) none))
      rw [toRx]
      simp only [hbody]
      exact ⟨_, rfl⟩
    | exactly n body =>
      rw [Sre.depth] at hdepth
      refine form_ok ?_ (fun hzero => h.1 hzero.1) h.2 ih flags next b
      rw [Option.getD_some]
      omega
    | atLeast n body =>
      rw [Sre.depth] at hdepth
      have hzero : ¬ (n = 0 ∧ (none : Option ℕ) = some 0) := fun hzero => by cases hzero.2
      have hbody : body.Compiles env := h
      refine form_ok ?_ hzero hbody ih flags next b
      rw [Option.getD_none]
      omega
    | repeated greedy n m body =>
      rw [Sre.depth] at hdepth
      refine form_ok ?_ (fun hzero => h.1 ⟨hzero.1, Option.some.inj hzero.2⟩) h.2 ih flags
        next b
      rw [Option.getD_some]
      omega
    | submatch body =>
      have hbody := ih (Nat.lt_of_succ_lt_succ hdepth) h flags
      rw [toRx]
      split
      · exact hbody next b
      obtain ⟨⟨n1, b'⟩, hmatch⟩ := makeSubmatchState_ok hbody body next b.currentIndex
        { b with
          currentMatch := b.currentMatch + 1
          currentIndex := b.currentIndex + 2
          matchRules := (b.currentIndex, b.currentIndex + 1) :: b.matchRules }
      simp only [hmatch]
      exact ⟨_, rfl⟩
    | named name body =>
      rw [Sre.depth] at hdepth
      rw [toRx]
      split
      · have hless : body.depth < fuel := by omega
        exact ih hless h flags next b
      · have hless : (Sre.submatch body).depth < fuel := by
          rw [Sre.depth]
          omega
        exact ih hless h flags next _
    | withFlags change body =>
      rw [Sre.depth] at hdepth
      have hless : body.depth < fuel := by
        split at hdepth <;> omega
      exact ih hless h (change.apply flags) next b

theorem compiles_of_toRx (fuel : ℕ) {next : ℕ} {b : Builder} {r : Option ℕ × Builder}
    (h : toRx env fuel sre flags next b = .ok r) : sre.Compiles env := by
  induction fuel generalizing sre flags next b r with
  | zero => cases h
  | succ fuel ih =>
    cases sre with
    | look ahead negated body =>
      obtain ⟨rx, hrx, -⟩ := ok_of_bind h
      obtain ⟨next', b', r', hinner⟩ := exists_ok_of_regexpWith hrx
      have hcompiles := ih hinner
      cases ahead with
      | true => exact hcompiles.2
      | false => exact (compiles_snoc body .eos).mp hcompiles
    | seq first rest =>
      obtain ⟨⟨n1, b₁⟩, hfirst, h⟩ := ok_of_bind h
      obtain ⟨⟨n3, b₂⟩, hrest, -⟩ := ok_of_bind h
      exact ⟨ih hfirst, ih hrest⟩
    | alt first rest =>
      rw [Sre.Compiles]
      by_cases hset : (Sre.alt first rest).charSetSre = true
      · rw [if_pos hset]
        obtain ⟨cs, hcs, -⟩ := ok_of_bind ((toRx_alt_set hset).symm.trans h)
        exact ⟨cs, hcs⟩
      · rw [if_neg hset]
        rw [Bool.not_eq_true] at hset
        by_cases hfail : rest = .fail
        · subst hfail
          rw [toRx_alt_one hset] at h
          exact ⟨ih h, trivial⟩
        · rw [toRx_alt hset hfail] at h
          obtain ⟨⟨n1, b₁⟩, hfirst, h⟩ := ok_of_bind h
          obtain ⟨⟨n2, b₂⟩, hrest, -⟩ := ok_of_bind h
          exact ⟨ih hfirst, ih hrest⟩
    | optional greedy body =>
      obtain ⟨_, hbody, -⟩ := ok_of_bind h
      have hcompiles : body.Compiles env := ih hbody
      exact hcompiles
    | star greedy body =>
      obtain ⟨_, hbody, -⟩ := ok_of_bind h
      have hcompiles : body.Compiles env := ih hbody
      exact hcompiles
    | plus body =>
      obtain ⟨_, hbody, -⟩ := ok_of_bind h
      have hcompiles : body.Compiles env := ih hbody
      exact hcompiles
    | exactly n body =>
      obtain ⟨form, hform, h⟩ := ok_of_bind h
      obtain ⟨hzero, rfl⟩ := ofForm_ok_iff.mp hform
      refine ⟨fun hn => hzero ⟨hn, congrArg some hn⟩, ?_⟩
      exact (compiles_repetitionItems n (some n) body).mp (ih h)
    | atLeast n body =>
      obtain ⟨form, hform, h⟩ := ok_of_bind h
      obtain ⟨-, rfl⟩ := ofForm_ok_iff.mp hform
      exact (compiles_repetitionItems n none body).mp (ih h)
    | repeated greedy n m body =>
      obtain ⟨form, hform, h⟩ := ok_of_bind h
      obtain ⟨hzero, rfl⟩ := ofForm_ok_iff.mp hform
      refine ⟨fun hnm => hzero ⟨hnm.1, congrArg some hnm.2⟩, ?_⟩
      exact (compiles_repetitionItems n (some m) body).mp (ih h)
    | submatch body =>
      have hcompiles : body.Compiles env := by
        rw [toRx] at h
        split at h
        · exact ih h
        · obtain ⟨_, hmatch, -⟩ := ok_of_bind h
          obtain ⟨next', b', r', hbody⟩ := exists_ok_of_makeSubmatchState hmatch
          exact ih hbody
      exact hcompiles
    | named name body =>
      have hcompiles : body.Compiles env := by
        rw [toRx] at h
        split at h
        · exact ih h
        · have hsubmatch : (Sre.submatch body).Compiles env := ih h
          exact hsubmatch
      exact hcompiles
    | withFlags change body =>
      have hbody : toRx env fuel body (change.apply flags) next b = .ok r := h
      have hcompiles : body.Compiles env := ih hbody
      exact hcompiles
    | _ => trivial

theorem regexp_ok_iff (flags : Flags) : (∃ rx, regexp env sre flags = .ok rx) ↔ sre.Compiles env := by
  constructor
  · rintro ⟨rx, h⟩
    obtain ⟨next, b, r, hbody⟩ := exists_ok_of_regexpWith h
    exact compiles_of_toRx _ hbody
  · exact fun h => regexpWith_ok (toRx_ok _ (Nat.lt_succ_self _) h flags)

theorem regexp_of {rx : Rx} (h : regexp env sre flags = .ok rx) : rx.Of env flags sre :=
  regexpWith_of (fun _ _ _ _ hbody => toRx_spec _ hbody) h

end Regexp

end ChibiScheme
