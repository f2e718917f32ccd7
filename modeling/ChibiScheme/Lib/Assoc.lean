import Mathlib.Data.List.Perm.Basic

/-!
# Association lists up to an equivalence of keys

A list of entries, no two of which have equivalent keys, represents a partial map on keys.  The order
of the entries does not matter, so they can be spread over several lists.
-/

namespace Assoc

open List

variable {K C : Type*} (r : K → K → Prop)

/-- The list has at most one entry for equivalent keys, and `m` looks up its entries. -/
structure Represents (entries : List (K × C)) (m : K → Option C) : Prop where
  distinct : entries.Pairwise fun e e' => ¬ r e.1 e'.1
  lookup : ∀ key c, m key = some c ↔ ∃ k, (k, c) ∈ entries ∧ r k key

/-- The map with a new value for a key. -/
def insert [DecidableRel r] (m : K → Option C) (key : K) (c : C) : K → Option C :=
  fun k => if r key k then some c else m k

/-- The map without a key. -/
def erase [DecidableRel r] (m : K → Option C) (key : K) : K → Option C :=
  fun k => if r key k then none else m k

variable {r} {entries entries' : List (K × C)} {m : K → Option C} {k key : K} {c c' : C}

section Maps

variable {D : Type*} [DecidableRel r]

theorem insert_insert (m : K → Option C) (key : K) (c c' : C) :
    insert r (insert r m key c) key c' = insert r m key c' := by
  funext k
  by_cases hkey : r key k
  · simp only [insert, if_pos hkey]
  · simp only [insert, if_neg hkey]

theorem insert_map (f : C → D) (m : K → Option C) (key : K) (c : C) :
    insert r (fun k => (m k).map f) key (f c) = fun k => (insert r m key c k).map f := by
  funext k
  by_cases hkey : r key k
  · simp only [insert, if_pos hkey, Option.map_some]
  · simp only [insert, if_neg hkey]

theorem erase_map (f : C → D) (m : K → Option C) (key : K) :
    erase r (fun k => (m k).map f) key = fun k => (erase r m key k).map f := by
  funext k
  by_cases hkey : r key k
  · simp only [erase, if_pos hkey, Option.map_none]
  · simp only [erase, if_neg hkey]

end Maps

theorem represents_nil : Represents r ([] : List (K × C)) fun _ => none where
  distinct := List.Pairwise.nil
  lookup key c := by simp

theorem exists_mem_cons_iff (hk : ¬ r k key) :
    (∃ k', (k', c') ∈ (k, c) :: entries ∧ r k' key) ↔ ∃ k', (k', c') ∈ entries ∧ r k' key := by
  constructor
  · rintro ⟨k', hmem, hk'⟩
    rcases mem_cons.mp hmem with heq | hmem
    · cases heq
      exact absurd hk' hk
    · exact ⟨k', hmem, hk'⟩
  · rintro ⟨k', hmem, hk'⟩
    exact ⟨k', mem_cons_of_mem _ hmem, hk'⟩

namespace Represents

theorem eq_none_iff (h : Represents r entries m) :
    m key = none ↔ ∀ e ∈ entries, ¬ r e.1 key := by
  constructor
  · intro hnone e hmem hr
    have hsome := (h.lookup key e.2).mpr ⟨e.1, hmem, hr⟩
    rw [hnone] at hsome
    cases hsome
  · intro hall
    cases hm : m key with
    | none => rfl
    | some c =>
      obtain ⟨k, hmem, hr⟩ := (h.lookup key c).mp hm
      exact absurd hr (hall (k, c) hmem)

theorem perm (hr : Equivalence r) (h : Represents r entries m)
    (hperm : entries'.Perm entries) : Represents r entries' m where
  distinct := by
    have hsymm : ∀ {e e' : K × C}, ¬ r e.1 e'.1 → ¬ r e'.1 e.1 :=
      fun hne hr' => hne (hr.symm hr')
    exact (hperm.pairwise_iff hsymm).mpr h.distinct
  lookup key c := by
    rw [h.lookup]
    simp only [hperm.mem_iff]

theorem congr (hr : Equivalence r) (h : Represents r entries m) (hkey : r k key) : m k = m key := by
  have hlookup : ∀ c, m k = some c ↔ m key = some c := by
    intro c
    rw [h.lookup, h.lookup]
    constructor
    · rintro ⟨k', hmem, hk'⟩
      exact ⟨k', hmem, hr.trans hk' hkey⟩
    · rintro ⟨k', hmem, hk'⟩
      exact ⟨k', hmem, hr.trans hk' (hr.symm hkey)⟩
  exact Option.ext hlookup

theorem not_of_mem_tail (hr : Equivalence r) (h : Represents r ((k, c) :: entries) m)
    (hkey : r k key) {e : K × C} (hmem : e ∈ entries) : ¬ r e.1 key := fun he =>
  (pairwise_cons.mp h.distinct).1 e hmem (hr.trans hkey (hr.symm he))

variable [DecidableRel r]

theorem cons (hr : Equivalence r) (h : Represents r entries m) (hnew : m key = none) :
    Represents r ((key, c) :: entries) (insert r m key c) where
  distinct := by
    refine pairwise_cons.mpr ⟨fun e hmem hkey => ?_, h.distinct⟩
    exact h.eq_none_iff.mp hnew e hmem (hr.symm hkey)
  lookup key' c' := by
    unfold insert
    by_cases hkey : r key key'
    · rw [if_pos hkey]
      constructor
      · rintro ⟨⟩
        exact ⟨key, mem_cons_self, hkey⟩
      · rintro ⟨k, hmem, hk⟩
        rcases mem_cons.mp hmem with heq | hmem
        · cases heq
          rfl
        · exact absurd (hr.trans hk (hr.symm hkey)) (h.eq_none_iff.mp hnew (k, c') hmem)
    · rw [if_neg hkey, h.lookup, exists_mem_cons_iff hkey]

theorem replace (hr : Equivalence r) (h : Represents r ((k, c) :: entries) m) (hkey : r k key) :
    Represents r ((k, c') :: entries) (insert r m key c') where
  distinct :=
    pairwise_cons.mpr
      ⟨(pairwise_cons.mp h.distinct).1, (pairwise_cons.mp h.distinct).2⟩
  lookup key' c'' := by
    unfold insert
    by_cases hkey' : r key key'
    · rw [if_pos hkey']
      have hk := hr.trans hkey hkey'
      constructor
      · rintro ⟨⟩
        exact ⟨k, mem_cons_self, hk⟩
      · rintro ⟨k', hmem, hk'⟩
        rcases mem_cons.mp hmem with heq | hmem
        · cases heq
          rfl
        · exact absurd hk' (h.not_of_mem_tail hr hk hmem)
    · have hk : ¬ r k key' := fun hk => hkey' (hr.trans (hr.symm hkey) hk)
      rw [if_neg hkey', h.lookup, exists_mem_cons_iff hk, exists_mem_cons_iff hk]

theorem tail (hr : Equivalence r) (h : Represents r ((k, c) :: entries) m) (hkey : r k key) :
    Represents r entries (erase r m key) where
  distinct := (pairwise_cons.mp h.distinct).2
  lookup key' c' := by
    unfold erase
    by_cases hkey' : r key key'
    · rw [if_pos hkey']
      constructor
      · rintro ⟨⟩
      · rintro ⟨k', hmem, hk'⟩
        exact absurd hk' (h.not_of_mem_tail hr (hr.trans hkey hkey') hmem)
    · have hk : ¬ r k key' := fun hk => hkey' (hr.trans (hr.symm hkey) hk)
      rw [if_neg hkey', h.lookup, exists_mem_cons_iff hk]

theorem erase_of_eq_none (hr : Equivalence r) (h : Represents r entries m) (hnone : m key = none) :
    Represents r entries (erase r m key) := by
  have hsame : erase r m key = m := by
    funext k
    unfold erase
    by_cases hkey : r key k
    · rw [if_pos hkey, ← h.congr hr hkey, hnone]
    · rw [if_neg hkey]
  rw [hsame]
  exact h

end Represents

/-! ## Entries spread over several lists -/

section Lists

variable {α : Type*} {i j : ℕ}

theorem exists_perm_flatten {lists : List (List α)} (hi : i < lists.length) :
    ∃ rest, lists.flatten.Perm (lists[i] ++ rest) ∧
      ∀ f : List α → List α, (lists.modify i f).flatten.Perm (f lists[i] ++ rest) := by
  induction lists generalizing i with
  | nil => cases hi
  | cons list lists ih =>
    cases i with
    | zero => exact ⟨lists.flatten, List.Perm.refl _, fun f => by simp⟩
    | succ i =>
      obtain ⟨rest, hperm, hmodify⟩ := ih (Nat.lt_of_succ_lt_succ hi)
      have hmove : ∀ first : List α, (list ++ (first ++ rest)).Perm (first ++ (list ++ rest)) :=
        fun first => perm_append_comm_assoc _ _ _
      refine ⟨list ++ rest, ?_, fun f => ?_⟩
      · exact (hperm.append_left list).trans (hmove _)
      · exact ((hmodify f).append_left list).trans (hmove _)

theorem modify_perm {list : List α} (hj : j < list.length) (f : α → α) :
    (list.modify j f).Perm (f list[j] :: list.eraseIdx j) := by
  induction list generalizing j with
  | nil => cases hj
  | cons first list ih =>
    cases j with
    | zero => simp
    | succ j =>
      have hperm := ih (Nat.lt_of_succ_lt_succ hj)
      simp only [modify_succ_cons, eraseIdx_cons_succ, getElem_cons_succ]
      exact (hperm.cons first).trans (List.Perm.swap _ _ _)

end Lists

end Assoc
