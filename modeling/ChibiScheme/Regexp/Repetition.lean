import Mathlib
import ChibiScheme.Regexp.Language

/-!
# Bounded repetition

A bounded repetition is compiled as a sequence of copies of its body, of which only the last one
keeps the submatches.  What an SRE matches does not depend on its submatches, so the copies match
what the body matches.
-/

namespace ChibiScheme

open List

namespace Regexp

variable {env : Env} {range : Range} {i j : ℕ}

namespace Sre

/-! ## Stripping submatches -/

theorem isSeq_asSeq_strip (body : Sre) : (asSeq body body.stripSubmatches).isSeq = true := by
  cases body <;> rfl

variable {sre : Sre}

theorem charSets_of_isSeq (h : sre.isSeq = true) : charSets false sre = false := by
  cases sre with
  | nil => rfl
  | seq _ _ => rfl
  | _ => cases h

theorem charSets_of_not_isSeq (h : sre.isSeq = false) : charSets true sre = charSets false sre := by
  cases sre with
  | nil => cases h
  | seq _ _ => cases h
  | chars cs => cases cs <;> rfl
  | _ => rfl

theorem charSets_asSeq (hseq : sre.isSeq = false)
    (h : charSets false sre.stripSubmatches = charSets false sre) :
    charSets false sre.stripSubmatches = charSets false sre ∧
      charSets true (asSeq sre sre.stripSubmatches) = charSets true sre := by
  refine ⟨h, ?_⟩
  rw [asSeq, hseq, charSets_of_not_isSeq hseq, ← h]
  exact Bool.and_true _

theorem charSets_strip (sre : Sre) :
    charSets false sre.stripSubmatches = charSets false sre ∧
      charSets true (asSeq sre sre.stripSubmatches) = charSets true sre := by
  induction sre with
  | nil => exact ⟨rfl, rfl⟩
  | seq first rest ih_first ih_rest =>
    refine ⟨rfl, ?_⟩
    show (charSets false first.stripSubmatches &&
      charSets true (asSeq rest rest.stripSubmatches)) = _
    rw [ih_first.1, ih_rest.2]
    rfl
  | alt first rest ih_first ih_rest =>
    apply charSets_asSeq rfl
    show (charSets false first.stripSubmatches && charSets false rest.stripSubmatches) = _
    rw [ih_first.1, ih_rest.1]
    rfl
  | withFlags change body ih =>
    apply charSets_asSeq rfl
    show (decide (change ≠ .withNocapture) &&
      charSets true (asSeq body body.stripSubmatches)) = _
    rw [ih.2]
    rfl
  | submatch body _ => exact charSets_asSeq rfl (charSets_of_isSeq (isSeq_asSeq_strip body))
  | named _ body _ => exact charSets_asSeq rfl (charSets_of_isSeq (isSeq_asSeq_strip body))
  | _ => exact charSets_asSeq rfl rfl

theorem toCharSets_of_isSeq (h : sre.isSeq = true) (flags : Flags) :
    toCharSets env false sre flags = .error .invalidCharSet := by
  cases sre with
  | nil => rfl
  | seq _ _ => rfl
  | _ => cases h

theorem toCharSets_of_not_isSeq (h : sre.isSeq = false) (flags : Flags) :
    toCharSets env true sre flags = toCharSets env false sre flags := by
  cases sre with
  | nil => cases h
  | seq _ _ => cases h
  | string s =>
    cases s with
    | nil => rfl
    | cons c s => cases s <;> rfl
  | _ => rfl

theorem toCharSets_asSeq (hseq : sre.isSeq = false)
    (h : ∀ flags, toCharSets env false sre.stripSubmatches flags = toCharSets env false sre flags) :
    (∀ flags, toCharSets env false sre.stripSubmatches flags = toCharSets env false sre flags) ∧
      ∀ flags,
        toCharSets env true (asSeq sre sre.stripSubmatches) flags = toCharSets env true sre flags := by
  refine ⟨h, fun flags => ?_⟩
  rw [asSeq, hseq, toCharSets_of_not_isSeq hseq, ← h]
  rfl

theorem toCharSets_strip (env : Env) (sre : Sre) :
    (∀ flags, toCharSets env false sre.stripSubmatches flags = toCharSets env false sre flags) ∧
      ∀ flags,
        toCharSets env true (asSeq sre sre.stripSubmatches) flags = toCharSets env true sre flags := by
  induction sre with
  | nil => exact ⟨fun _ => rfl, fun _ => rfl⟩
  | seq first rest ih_first ih_rest =>
    refine ⟨fun _ => rfl, fun flags => ?_⟩
    show toCharSets env true
      (seq first.stripSubmatches (asSeq rest rest.stripSubmatches)) flags = _
    cases rest with
    | nil => exact ih_first.1 flags
    | _ => rfl
  | alt first rest ih_first ih_rest =>
    apply toCharSets_asSeq rfl
    intro flags
    show (do
      let cs1 ← toCharSets env false first.stripSubmatches flags
      let cs2 ← toCharSets env false rest.stripSubmatches flags
      pure fun ch => cs1 ch || cs2 ch : Except CompileError CharSet) = _
    rw [ih_first.1, ih_rest.1]
    rfl
  | withFlags change body ih =>
    apply toCharSets_asSeq rfl
    intro flags
    show (if change = .withNocapture then .error .invalidCharSet
      else toCharSets env true (asSeq body body.stripSubmatches) (change.apply flags)) = _
    rw [ih.2]
    rfl
  | submatch body _ => exact toCharSets_asSeq rfl (toCharSets_of_isSeq (isSeq_asSeq_strip body))
  | named _ body _ => exact toCharSets_asSeq rfl (toCharSets_of_isSeq (isSeq_asSeq_strip body))
  | string s =>
    apply toCharSets_asSeq rfl
    exact fun _ => rfl
  | _ => exact toCharSets_asSeq rfl fun _ => rfl

end Sre

variable (n : ℕ) (sre body : Sre)

theorem spans_asSeq (sre : Sre) (flags : Flags) :
    Spans env (Sre.asSeq body sre) flags range i j ↔ Spans env sre flags range i j := by
  rw [Sre.asSeq]
  split
  · exact Iff.rfl
  · constructor
    · rintro ⟨k, hfirst, rfl⟩
      exact hfirst
    · exact fun h => ⟨j, h, rfl⟩

theorem lookHolds_congr {spans spans' : Range → ℕ → ℕ → Prop}
    (h : ∀ range i j, spans range i j ↔ spans' range i j) (ahead negated : Bool) :
    LookHolds spans ahead negated range i ↔ LookHolds spans' ahead negated range i := by
  simp only [LookHolds, h]

variable {r : ℕ → ℕ → Prop}

theorem iterated_congr {r' : ℕ → ℕ → Prop} (h : ∀ i j, r i j ↔ r' i j) (n : ℕ) :
    Iterated r n i j ↔ Iterated r' n i j := by
  have heq : r = r' := funext fun i => funext fun j => propext (h i j)
  rw [heq]

theorem spans_strip (flags : Flags) (range : Range) (i j : ℕ) :
    Spans env sre.stripSubmatches flags range i j ↔ Spans env sre flags range i j := by
  induction sre generalizing flags range i j with
  | submatch body ih => exact (spans_asSeq body _ flags).trans (ih flags range i j)
  | named _ body ih => exact (spans_asSeq body _ flags).trans (ih flags range i j)
  | look ahead negated body ih =>
    exact and_congr_left' (lookHolds_congr (ih Flags.none) ahead negated)
  | seq first rest ih_first ih_rest =>
    refine exists_congr fun k => and_congr (ih_first flags range i k) ?_
    exact (spans_asSeq rest _ flags).trans (ih_rest flags range k j)
  | alt first rest ih_first ih_rest =>
    have hset : (Sre.alt first.stripSubmatches rest.stripSubmatches).charSetSre =
        (Sre.alt first rest).charSetSre := (Sre.charSets_strip (.alt first rest)).1
    have hcs : (Sre.alt first.stripSubmatches rest.stripSubmatches).toCharSet env Flags.none =
        (Sre.alt first rest).toCharSet env Flags.none :=
      (Sre.toCharSets_strip env (.alt first rest)).1 Flags.none
    rw [Sre.stripSubmatches, spans_alt, spans_alt, hset, hcs, ih_first, ih_rest]
  | optional greedy body ih => exact or_congr_right (ih flags range i j)
  | star greedy body ih =>
    simp only [Spans, Sre.stripSubmatches]
    rw [show Spans env body.stripSubmatches flags range = Spans env body flags range from
      funext fun i => funext fun j => propext (ih flags range i j)]
  | plus body ih =>
    simp only [Spans, Sre.stripSubmatches]
    rw [show Spans env body.stripSubmatches flags range = Spans env body flags range from
      funext fun i => funext fun j => propext (ih flags range i j)]
  | exactly n body ih => exact iterated_congr (ih flags range) n
  | atLeast n body ih =>
    exact exists_congr fun k => and_congr_right' (iterated_congr (ih flags range) k)
  | repeated greedy n m body ih =>
    exact exists_congr fun k =>
      and_congr_right' (and_congr_right' (iterated_congr (ih flags range) k))
  | withFlags change body ih =>
    exact (spans_asSeq body _ (change.apply flags)).trans (ih (change.apply flags) range i j)
  | _ => exact Iff.rfl

theorem width_strip (flags : Flags) : sre.stripSubmatches.width flags = 0 := by
  have hasSeq : ∀ (body sre : Sre) flags, (Sre.asSeq body sre).width flags = sre.width flags := by
    intro body sre flags
    rw [Sre.asSeq]
    split <;> rfl
  induction sre generalizing flags with
  | submatch body ih => exact (hasSeq body _ flags).trans (ih flags)
  | named _ body ih => exact (hasSeq body _ flags).trans (ih flags)
  | seq first rest ih_first ih_rest =>
    simp only [Sre.stripSubmatches, Sre.width, hasSeq, ih_first, ih_rest]
  | alt first rest ih_first ih_rest =>
    simp only [Sre.stripSubmatches, Sre.width, ih_first, ih_rest]
  | optional _ body ih => exact ih flags
  | star _ body ih => exact ih flags
  | plus body ih => exact ih flags
  | exactly _ body ih => exact ih flags
  | atLeast _ body ih => exact ih flags
  | repeated _ _ _ body ih => exact ih flags
  | withFlags change body ih => exact (hasSeq body _ (change.apply flags)).trans (ih _)
  | _ => rfl

/-! ## The expanded form -/

theorem pushCopies_eq (res : List Sre.Item) :
    Sre.pushCopies n sre res = List.replicate n (.sre sre) ++ res := by
  induction n generalizing res with
  | zero => rfl
  | succ n ih =>
    rw [Sre.pushCopies, ih, replicate_succ', append_assoc]
    rfl

theorem itemsOf_map (l : List Sre) : Sre.itemsOf (l.map .sre) = .ok (Sre.ofList l) := by
  induction l with
  | nil => rfl
  | cons sre l ih =>
    rw [map_cons, Sre.itemsOf, ih]
    rfl

/-- The sequence that `**` is expanded to. -/
def repetitionItems (low : ℕ) (high : Option ℕ) (body : Sre) : List Sre :=
  match high with
  | none => List.replicate low body.stripSubmatches ++ [.star true (.seq body .nil)]
  | some high =>
    if low = high then List.replicate (low - 1) body.stripSubmatches ++ [body]
    else List.replicate low body.stripSubmatches ++
      (List.replicate (high - (low + 1)) (.optional true (.seq body.stripSubmatches .nil)) ++
        [.optional true (.seq body .nil)])

theorem ofForm_items {l : List Sre} {form : List Sre.Item} (h : form = .colon :: l.map .sre) :
    Sre.ofForm form = .ok (Sre.ofList l) := by
  rw [h, Sre.ofForm, itemsOf_map]

theorem ofForm_sreExpandReps (low : ℕ) (high : Option ℕ) (body : Sre) :
    Sre.ofForm (Sre.sreExpandReps low high body) =
      if low = 0 ∧ high = some 0 then .error .unknownSre
      else .ok (Sre.ofList (repetitionItems low high body)) := by
  cases high with
  | none =>
    rw [if_neg (by simp)]
    apply ofForm_items
    simp [Sre.sreExpandReps, repetitionItems, pushCopies_eq]
  | some high =>
    by_cases heq : low = high
    · subst heq
      cases low with
      | zero => simp [Sre.sreExpandReps, Sre.pushCopies, Sre.ofForm]
      | succ low =>
        rw [if_neg (by simp)]
        apply ofForm_items
        simp [Sre.sreExpandReps, repetitionItems, pushCopies_eq, replicate_succ]
    · rw [if_neg (by simp; omega)]
      apply ofForm_items
      simp [Sre.sreExpandReps, repetitionItems, pushCopies_eq, heq]

/-! ## What the expanded form matches -/

section Iterated

variable {r : ℕ → ℕ → Prop} {n m : ℕ}

theorem iterated_add : Iterated r (n + m) i j ↔ ∃ k, Iterated r n i k ∧ Iterated r m k j := by
  induction n generalizing i with
  | zero => simp [Iterated]
  | succ n ih =>
    rw [Nat.add_right_comm, Iterated]
    constructor
    · rintro ⟨k, hfirst, hrest⟩
      obtain ⟨k', hn, hm⟩ := ih.mp hrest
      exact ⟨k', ⟨k, hfirst, hn⟩, hm⟩
    · rintro ⟨k', ⟨k, hfirst, hn⟩, hm⟩
      exact ⟨k, hfirst, ih.mpr ⟨k', hn, hm⟩⟩

theorem iterated_one : Iterated r 1 i j ↔ r i j := by
  simp [Iterated]

theorem iterated_succ_right : Iterated r (n + 1) i j ↔ ∃ k, Iterated r n i k ∧ r k j := by
  rw [iterated_add]
  simp only [iterated_one]

theorem reflTransGen_iff_iterated :
    Relation.ReflTransGen r i j ↔ ∃ n, Iterated r n i j := by
  constructor
  · intro h
    induction h with
    | refl => exact ⟨0, rfl⟩
    | tail _ hlast ih =>
      obtain ⟨n, hn⟩ := ih
      exact ⟨n + 1, iterated_succ_right.mpr ⟨_, hn, hlast⟩⟩
  · rintro ⟨n, h⟩
    induction n generalizing i with
    | zero =>
      cases h
      exact Relation.ReflTransGen.refl
    | succ n ih =>
      obtain ⟨k, hfirst, hrest⟩ := h
      exact Relation.ReflTransGen.head hfirst (ih hrest)

theorem iterated_optional :
    Iterated (fun i j => i = j ∨ r i j) n i j ↔ ∃ k, k ≤ n ∧ Iterated r k i j := by
  induction n generalizing i with
  | zero =>
    constructor
    · exact fun h => ⟨0, Nat.le_refl 0, h⟩
    · rintro ⟨k, hk, h⟩
      obtain rfl : k = 0 := by omega
      exact h
  | succ n ih =>
    constructor
    · rintro ⟨i', hfirst, hrest⟩
      obtain ⟨k, hk, h⟩ := ih.mp hrest
      rcases hfirst with rfl | hfirst
      · exact ⟨k, by omega, h⟩
      · exact ⟨k + 1, by omega, i', hfirst, h⟩
    · rintro ⟨k, hk, h⟩
      cases k with
      | zero => exact ⟨i, Or.inl rfl, ih.mpr ⟨0, by omega, h⟩⟩
      | succ k =>
        obtain ⟨i', hfirst, hrest⟩ := h
        exact ⟨i', Or.inr hfirst, ih.mpr ⟨k, by omega, hrest⟩⟩

end Iterated

variable {flags : Flags}

theorem spans_ofList_append (l l' : List Sre) :
    Spans env (.ofList (l ++ l')) flags range i j ↔
      ∃ k, Spans env (.ofList l) flags range i k ∧ Spans env (.ofList l') flags range k j := by
  induction l generalizing i with
  | nil => simp [Sre.ofList, Spans]
  | cons sre l ih =>
    simp only [cons_append, Sre.ofList, Spans, ih]
    constructor
    · rintro ⟨k, hsre, k', hl, hl'⟩
      exact ⟨k', ⟨k, hsre, hl⟩, hl'⟩
    · rintro ⟨k', ⟨k, hsre, hl⟩, hl'⟩
      exact ⟨k, hsre, k', hl, hl'⟩

theorem spans_ofList_single :
    Spans env (.ofList [sre]) flags range i j ↔ Spans env sre flags range i j := by
  simp [Sre.ofList, Spans]

theorem spans_ofList_replicate :
    Spans env (.ofList (List.replicate n sre)) flags range i j ↔
      Iterated (Spans env sre flags range) n i j := by
  induction n generalizing i with
  | zero => exact Iff.rfl
  | succ n ih =>
    rw [replicate_succ]
    exact exists_congr fun k => and_congr_right' ih

theorem spans_ofList_chars {s : List Char} :
    Spans env (.ofList (s.map fun c => .chars (.char c))) flags range i j ↔
      SpansString range (fun c => env.charSre flags (.char c)) s i j := by
  induction s generalizing i with
  | nil => exact Iff.rfl
  | cons c s ih =>
    constructor
    · rintro ⟨k, ⟨htakes, rfl⟩, hrest⟩
      exact ⟨htakes, ih.mp hrest⟩
    · rintro ⟨htakes, hrest⟩
      exact ⟨i + 1, ⟨htakes, rfl⟩, ih.mpr hrest⟩

theorem spans_seq_nil : Spans env (.seq sre .nil) flags range i j ↔ Spans env sre flags range i j :=
  spans_ofList_single sre

theorem iterated_spans_strip :
    Iterated (Spans env body.stripSubmatches flags range) n i j ↔
      Iterated (Spans env body flags range) n i j :=
  iterated_congr (spans_strip body flags range) n

theorem iterated_spans_optional :
    Iterated (Spans env (.optional true (.seq body.stripSubmatches .nil)) flags range) n i j ↔
      ∃ k, k ≤ n ∧ Iterated (Spans env body flags range) k i j := by
  rw [← iterated_optional]
  apply iterated_congr
  intro i j
  rw [Spans, spans_seq_nil, spans_strip]

theorem spans_repetitionItems_exactly :
    Spans env (.ofList (repetitionItems (n + 1) (some (n + 1)) body)) flags range i j ↔
      Iterated (Spans env body flags range) (n + 1) i j := by
  rw [repetitionItems, if_pos rfl, spans_ofList_append, iterated_succ_right]
  simp only [spans_ofList_single, spans_ofList_replicate, iterated_spans_strip, Nat.add_sub_cancel]

theorem spans_repetitionItems_atLeast :
    Spans env (.ofList (repetitionItems n none body)) flags range i j ↔
      ∃ k, n ≤ k ∧ Iterated (Spans env body flags range) k i j := by
  have hstar : ∀ k, Spans env (.star true (.seq body .nil)) flags range k j ↔
      ∃ m, Iterated (Spans env body flags range) m k j := by
    intro k
    rw [Spans, reflTransGen_iff_iterated]
    exact exists_congr fun m => iterated_congr (fun i j => spans_seq_nil body) m
  rw [repetitionItems, spans_ofList_append]
  simp only [spans_ofList_single, spans_ofList_replicate, iterated_spans_strip, hstar]
  constructor
  · rintro ⟨k, hn, m, hm⟩
    exact ⟨n + m, by omega, iterated_add.mpr ⟨k, hn, hm⟩⟩
  · rintro ⟨m, hle, h⟩
    obtain ⟨m, rfl⟩ := Nat.exists_eq_add_of_le hle
    obtain ⟨k, hn, hm⟩ := iterated_add.mp h
    exact ⟨k, hn, m, hm⟩

theorem spans_repetitionItems_repeated {n m : ℕ} (hne : n ≠ m) (body : Sre) :
    Spans env (.ofList (repetitionItems n (some m) body)) flags range i j ↔
      ∃ k, n ≤ k ∧ (k ≤ if n ≤ m then m else n + 1) ∧
        Iterated (Spans env body flags range) k i j := by
  have hbound : (if n ≤ m then m else n + 1) = n + (m - (n + 1)) + 1 := by
    split <;> omega
  have hlast : ∀ k, Spans env (.optional true (.seq body .nil)) flags range k j ↔
      ∃ c, c ≤ 1 ∧ Iterated (Spans env body flags range) c k j := by
    intro k
    rw [← iterated_optional, iterated_one, Spans, spans_seq_nil]
  rw [repetitionItems, if_neg hne, spans_ofList_append, hbound]
  simp only [spans_ofList_append, spans_ofList_single, spans_ofList_replicate,
    iterated_spans_strip, iterated_spans_optional, hlast]
  constructor
  · rintro ⟨k, hn, k', ⟨c, hc, hcopies⟩, c', hc', hcopy⟩
    refine ⟨n + c + c', by omega, by omega, ?_⟩
    exact iterated_add.mpr ⟨k', iterated_add.mpr ⟨k, hn, hcopies⟩, hcopy⟩
  · rintro ⟨k, hlow, hhigh, h⟩
    obtain ⟨c, rfl⟩ := Nat.exists_eq_add_of_le hlow
    obtain ⟨c', c'', rfl, hc', hc''⟩ :
        ∃ c' c'', c = c' + c'' ∧ c' ≤ m - (n + 1) ∧ c'' ≤ 1 :=
      ⟨min c (m - (n + 1)), c - min c (m - (n + 1)), by omega, by omega, by omega⟩
    obtain ⟨k, hn, hrest⟩ := iterated_add.mp h
    obtain ⟨k', hcopies, hcopy⟩ := iterated_add.mp hrest
    exact ⟨k, hn, k', ⟨c', hc', hcopies⟩, c'', hc'', hcopy⟩

/-! ## The three repetitions -/

variable {form body : Sre} {n m : ℕ}

theorem spans_exactly_form (h : Sre.ofForm (Sre.sreExpandReps n (some n) body) = .ok form) :
    Spans env form flags range i j ↔ Spans env (.exactly n body) flags range i j := by
  rw [ofForm_sreExpandReps] at h
  cases n with
  | zero =>
    rw [if_pos ⟨rfl, rfl⟩] at h
    cases h
  | succ n =>
    rw [if_neg (by simp)] at h
    cases h
    exact spans_repetitionItems_exactly n body

theorem spans_atLeast_form (h : Sre.ofForm (Sre.sreExpandReps n none body) = .ok form) :
    Spans env form flags range i j ↔ Spans env (.atLeast n body) flags range i j := by
  rw [ofForm_sreExpandReps, if_neg (by simp)] at h
  cases h
  exact spans_repetitionItems_atLeast n body

theorem spans_repeated_form {greedy : Bool}
    (h : Sre.ofForm (Sre.sreExpandReps n (some m) body) = .ok form) :
    Spans env form flags range i j ↔ Spans env (.repeated greedy n m body) flags range i j := by
  by_cases heq : n = m
  · subst heq
    rw [spans_exactly_form h, Spans, Spans, if_pos (Nat.le_refl n)]
    constructor
    · exact fun hn => ⟨n, Nat.le_refl n, Nat.le_refl n, hn⟩
    · rintro ⟨k, hlow, hhigh, hk⟩
      obtain rfl : k = n := by omega
      exact hk
  · have hsome : ¬ (n = 0 ∧ some m = some 0) := by
      rw [Option.some.injEq]
      omega
    rw [ofForm_sreExpandReps, if_neg hsome] at h
    cases h
    exact spans_repetitionItems_repeated heq body

theorem width_ofList (l : List Sre) :
    (Sre.ofList l).width flags = (l.map (Sre.width flags)).sum := by
  induction l with
  | nil => rfl
  | cons sre l ih => rw [Sre.ofList, Sre.width, ih, map_cons, sum_cons]

theorem width_form {low : ℕ} {high : Option ℕ}
    (h : Sre.ofForm (Sre.sreExpandReps low high body) = .ok form) :
    form.width flags = body.width flags := by
  rw [ofForm_sreExpandReps] at h
  split at h
  · cases h
  cases h
  rw [width_ofList]
  unfold repetitionItems
  split
  · simp [Sre.width, width_strip]
  · split <;> simp [Sre.width, width_strip]

/-! ## Where a match lies -/

/-- The relation never goes back, nor past the end of the range. -/
def Forward (range : Range) (r : ℕ → ℕ → Prop) : Prop :=
  ∀ i j, r i j → i ≤ j ∧ (i ≤ range.stop → j ≤ range.stop)

theorem Forward.iterated (h : Forward range r) (n : ℕ) : Forward range (Iterated r n) := by
  intro i j hn
  induction n generalizing i with
  | zero =>
    cases hn
    exact ⟨Nat.le_refl _, id⟩
  | succ n ih =>
    obtain ⟨k, hfirst, hrest⟩ := hn
    have hk := h i k hfirst
    have hj := ih k hrest
    exact ⟨Nat.le_trans hk.1 hj.1, fun hi => hj.2 (hk.2 hi)⟩

theorem Forward.reflTransGen (h : Forward range r) : Forward range (Relation.ReflTransGen r) := by
  intro i j hstar
  obtain ⟨n, hn⟩ := reflTransGen_iff_iterated.mp hstar
  exact h.iterated n i j hn

theorem Forward.spansString (cs : Char → CharSet) (s : List Char) :
    Forward range (SpansString range cs s) := by
  intro i j h
  induction s generalizing i with
  | nil =>
    cases h
    exact ⟨Nat.le_refl _, id⟩
  | cons c s ih =>
    obtain ⟨⟨hbefore, -⟩, hrest⟩ := h
    have hj := ih (i + 1) hrest
    exact ⟨by omega, fun _ => hj.2 hbefore⟩

theorem Forward.of_eq {p : ℕ → Prop} : Forward range fun i j => p i ∧ i = j := by
  rintro i j ⟨-, rfl⟩
  exact ⟨Nat.le_refl _, id⟩

theorem Forward.of_takes {cs : CharSet} : Forward range fun i j => Takes range cs i ∧ j = i + 1 := by
  rintro i j ⟨⟨hbefore, -⟩, rfl⟩
  exact ⟨Nat.le_succ i, fun _ => hbefore⟩

theorem spans_forward (env : Env) (sre : Sre) (flags : Flags) (range : Range) :
    Forward range (Spans env sre flags range) := by
  induction sre generalizing flags range with
  | chars cs => exact Forward.of_takes
  | string s => exact Forward.spansString _ s
  | epsilon =>
    rintro i j rfl
    exact ⟨Nat.le_refl _, id⟩
  | nil =>
    rintro i j rfl
    exact ⟨Nat.le_refl _, id⟩
  | assertion a => exact Forward.of_eq
  | look ahead negated body _ => exact Forward.of_eq
  | seq first rest ih_first ih_rest =>
    rintro i j ⟨k, hfirst, hrest⟩
    have hk := ih_first flags range i k hfirst
    have hj := ih_rest flags range k j hrest
    exact ⟨Nat.le_trans hk.1 hj.1, fun hi => hj.2 (hk.2 hi)⟩
  | fail => exact fun i j h => h.elim
  | alt first rest ih_first ih_rest =>
    intro i j h
    rcases spans_alt.mp h with ⟨-, cs, -, htakes⟩ | ⟨-, hfirst | hrest⟩
    · exact Forward.of_takes i j htakes
    · exact ih_first flags range i j hfirst
    · exact ih_rest flags range i j hrest
  | optional greedy body ih =>
    rintro i j (rfl | h)
    · exact ⟨Nat.le_refl _, id⟩
    · exact ih flags range i j h
  | star greedy body ih => exact (ih flags range).reflTransGen
  | plus body ih => exact fun i j h => (ih flags range).reflTransGen i j h.to_reflTransGen
  | exactly n body ih => exact (ih flags range).iterated n
  | atLeast n body ih =>
    rintro i j ⟨k, -, h⟩
    exact (ih flags range).iterated k i j h
  | repeated greedy n m body ih =>
    rintro i j ⟨k, -, -, h⟩
    exact (ih flags range).iterated k i j h
  | submatch body ih => exact ih flags range
  | named _ body ih => exact ih flags range
  | withFlags change body ih => exact ih (change.apply flags) range

end Regexp

end ChibiScheme
