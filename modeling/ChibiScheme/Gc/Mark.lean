import Mathlib.Data.Set.Finite.Basic

/-!
# Marking

The objects of the heap as the collector sees them, and `sexp_mark`.

What the collector knows of an object is in its type: from which word on it has slots
and how many of them.  Marking goes on with the last slot of an object and leaves the
slots before it on a stack of ranges; the slots behind it are skipped when they hold
nothing that is left to mark.

`Progress` says what a piece of marking has done: every reference out of an object
that it has marked leads to a marked object or is on the stack.  Pieces follow one
another (`Progress.trans`), and when the stack is empty what is marked is closed under
reachability (`sexpMark_spec`).
-/

namespace ChibiScheme.Gc

open List Option

/-! ## Objects -/

/-- A word in a slot: an immediate (`NULL` too), or the address of an object. -/
inductive Ref where
  | imm (bits : ℕ)
  | ptr (addr : ℕ)
deriving DecidableEq

/-- What the collector reads in a `sexp_type_struct`.  The bases of slots are counted in
words from the start of the object; an offset of zero comes with a scale of zero. -/
structure TypeSpec where
  fieldBase : ℕ
  fieldEqLenBase : ℕ
  fieldLenBase : ℕ
  fieldLenScale : ℕ
  sizeBase : ℕ
  sizeScale : ℕ
  weakBase : ℕ
  weakLenBase : ℕ
  weakLenScale : ℕ
  weakLenExtra : ℕ

/-- An object: its words, the numbers at the offsets that its type has for the length of
its slots, its size and its weak slots, and the variables that a context saves. -/
structure Obj where
  tag : ℕ
  words : List Ref
  fieldLen : ℕ
  sizeLen : ℕ
  weakLen : ℕ
  saves : List (Option Ref)
  marked : Bool
  broken : Bool
deriving DecidableEq

/-- `SEXP_CONTEXT` -/
def sexpContext : ℕ := 36

/-- A place in memory: the start of a free block, with its size and the next free block,
or of an object. -/
inductive Cell where
  | blank
  | free (size next : ℕ)
  | object (o : Obj)
deriving DecidableEq

/-- Memory by address. -/
def Mem : Type := ℕ → Cell

namespace Mem

/-- The object at an address. -/
def obj? (mem : Mem) (addr : ℕ) : Option Obj :=
  match mem addr with
  | .object o => some o
  | _ => none

/-- The memory with another cell at an address. -/
def set (mem : Mem) (addr : ℕ) (cell : Cell) : Mem :=
  fun a => if a = addr then cell else mem a

end Mem

variable (types : ℕ → TypeSpec)

namespace Obj

/-- `sexp_type_num_slots_of_object` -/
def numSlots (o : Obj) : ℕ :=
  o.fieldLen * (types o.tag).fieldLenScale + (types o.tag).fieldLenBase

/-- A slot, from `sexp_type_field_base` on. -/
def slot (o : Obj) (i : ℕ) : Ref := o.words.getD ((types o.tag).fieldBase + i) (.imm 0)

/-- The slots that are marked. -/
def slots (o : Obj) : List Ref := (List.range (o.numSlots types)).map (o.slot types)

/-- The saved variables of a context. -/
def savedRefs (o : Obj) : List Ref := if o.tag = sexpContext then o.saves.filterMap id else []

end Obj

/-! ## The code -/

/-- The stack of marking: the address of an object, of which the slots before the given
one are still to be marked. -/
structure MarkState where
  mem : Mem
  stack : List (ℕ × ℕ)

/-- Nothing is left to do for this word: `*q && sexp_pointerp(*q) ? sexp_markedp(*q) : 1`. -/
def settled (mem : Mem) : Ref → Option Bool
  | .imm _ => some true
  | .ptr addr => (mem.obj? addr).map Obj.marked

/-- `skip trailing immediates`, from a slot down to the first. -/
def skipImmediates (mem : Mem) (slot : ℕ → Ref) : ℕ → Option ℕ
  | 0 => some 0
  | q + 1 => do if ← settled mem (slot (q + 1)) then skipImmediates mem slot q else some (q + 1)

/-- `skip trailing duplicates`, from a slot down to the first. -/
def skipDuplicates (slot : ℕ → Ref) : ℕ → ℕ
  | 0 => 0
  | q + 1 => if slot (q + 1) = slot q then skipDuplicates slot q else q + 1

/-- `sexp_mark_one` -/
def sexpMarkOne : ℕ → Ref → MarkState → Option MarkState
  | 0, _, _ => none
  | _ + 1, .imm _, s => some s
  | fuel + 1, .ptr addr, s => do
      let o ← s.mem.obj? addr
      if o.marked then some s
      else
        let s := { s with mem := s.mem.set addr (.object { o with marked := true }) }
        let s ← o.savedRefs.foldlM (fun s x => sexpMarkOne fuel x s) s
        match o.numSlots types with
        | 0 => some s
        | len + 1 =>
          let q ← skipImmediates s.mem (o.slot types) len
          let q := skipDuplicates (o.slot types) q
          let s := if 0 < q then { s with stack := (addr, q) :: s.stack } else s
          sexpMarkOne fuel (o.slot types q) s

/-- The loop of `sexp_mark_one_start`: take a range off the stack and mark its slots. -/
def markLoop (fuel : ℕ) : ℕ → MarkState → Option Mem
  | _, ⟨mem, []⟩ => some mem
  | 0, ⟨_, _ :: _⟩ => none
  | rounds + 1, ⟨mem, (addr, q) :: stack⟩ => do
      let o ← mem.obj? addr
      let s ← ((List.range q).map (o.slot types)).foldlM (fun s x => sexpMarkOne types fuel x s)
        ⟨mem, stack⟩
      markLoop fuel rounds s

/-- `sexp_mark` -/
def sexpMark (fuel : ℕ) (x : Ref) (mem : Mem) : Option Mem := do
  let s ← sexpMarkOne types fuel x ⟨mem, []⟩
  markLoop types fuel fuel s

/-! ## The graph of a heap -/

/-- The references the collector follows out of an object. -/
def Obj.strongRefs (o : Obj) : List Ref := o.slots types ++ o.savedRefs

/-- There is a marked object at the address. -/
def Mem.Marked (mem : Mem) (addr : ℕ) : Prop := ∃ o, mem addr = .object o ∧ o.marked = true

/-- The object at `a` refers to the one at `b`. -/
def Mem.Edge (mem : Mem) (a b : ℕ) : Prop :=
  ∃ o, mem a = .object o ∧ Ref.ptr b ∈ o.strongRefs types

/-- The word is an immediate or the address of an object. -/
def Ref.Valid (mem : Mem) (x : Ref) : Prop := ∀ addr, x = .ptr addr → ∃ o, mem addr = .object o

/-- No reference out of an object is dangling. -/
def Mem.Sound (mem : Mem) : Prop :=
  ∀ a o, mem a = .object o → ∀ x ∈ o.strongRefs types, x.Valid mem

/-- Some objects have been marked, and nothing else has changed. -/
def Mem.Grows (mem mem' : Mem) : Prop :=
  ∀ a, mem' a = mem a ∨ ∃ o, mem a = .object o ∧ mem' a = .object { o with marked := true }

variable {types : ℕ → TypeSpec} {mem mem' mem'' : Mem}

@[simp]
theorem Mem.set_self (mem : Mem) (a : ℕ) (cell : Cell) : mem.set a cell a = cell :=
  if_pos rfl

variable {a b : ℕ}

theorem Mem.set_of_ne (hne : b ≠ a) (mem : Mem) (cell : Cell) :
    mem.set a cell b = mem b := if_neg hne

theorem Mem.Grows.refl (mem : Mem) : mem.Grows mem := fun _ => .inl rfl

theorem Mem.Grows.trans (h12 : mem.Grows mem') (h23 : mem'.Grows mem'') : mem.Grows mem'' := by
  intro a
  rcases h12 a with hsame | ⟨o, ho, hmarked⟩
  · rw [← hsame]
    exact h23 a
  · rcases h23 a with hsame | ⟨o', ho', hmarked'⟩
    · exact .inr ⟨o, ho, hsame.trans hmarked⟩
    · rw [hmarked] at ho'
      obtain rfl := Cell.object.inj ho'
      exact .inr ⟨o, ho, hmarked'⟩

theorem Mem.Grows.marked (hgrows : mem.Grows mem') (hmarked : mem.Marked a) : mem'.Marked a := by
  obtain ⟨o, ho, hbit⟩ := hmarked
  rcases hgrows a with hsame | ⟨o', -, hmarked'⟩
  · exact ⟨o, hsame.trans ho, hbit⟩
  · exact ⟨_, hmarked', rfl⟩

variable {o : Obj}

theorem Mem.Grows.object (hgrows : mem.Grows mem') (ho : mem a = .object o) :
    ∃ m, mem' a = .object { o with marked := m } := by
  rcases hgrows a with hsame | ⟨o', ho', hmarked⟩
  · exact ⟨o.marked, hsame.trans ho⟩
  · rw [ho] at ho'
    obtain rfl := Cell.object.inj ho'
    exact ⟨true, hmarked⟩

theorem Mem.Grows.object_back (hgrows : mem.Grows mem') (ho : mem' a = .object o) :
    ∃ m, mem a = .object { o with marked := m } := by
  rcases hgrows a with hsame | ⟨o', ho', hmarked⟩
  · exact ⟨o.marked, hsame.symm.trans ho⟩
  · rw [ho] at hmarked
    obtain rfl := Cell.object.inj hmarked
    exact ⟨o'.marked, ho'⟩

theorem Mem.Grows.edge_iff (hgrows : mem.Grows mem') :
    mem'.Edge types a b ↔ mem.Edge types a b := by
  constructor
  · rintro ⟨o, ho, href⟩
    obtain ⟨m, hm⟩ := hgrows.object_back ho
    exact ⟨_, hm, href⟩
  · rintro ⟨o, ho, href⟩
    obtain ⟨m, hm⟩ := hgrows.object ho
    exact ⟨_, hm, href⟩

theorem Mem.Grows.edge_eq (hgrows : mem.Grows mem') : mem'.Edge types = mem.Edge types := by
  funext a b
  exact propext hgrows.edge_iff

variable {x : Ref}

theorem Mem.Grows.valid (hgrows : mem.Grows mem') (hx : x.Valid mem) : x.Valid mem' := by
  intro addr haddr
  obtain ⟨o, ho⟩ := hx addr haddr
  obtain ⟨m, hm⟩ := hgrows.object ho
  exact ⟨_, hm⟩

theorem Mem.Grows.sound (hgrows : mem.Grows mem') (hsound : mem.Sound types) : mem'.Sound types := by
  intro a o ho x hx
  obtain ⟨m, hm⟩ := hgrows.object_back ho
  exact hgrows.valid (hsound a _ hm x hx)

theorem Mem.obj?_eq_some : mem.obj? a = some o ↔ mem a = .object o := by
  unfold Mem.obj?
  split
  · rename_i o' ho'
    rw [ho', Option.some.injEq, Cell.object.injEq]
  · rename_i hno
    simp only [reduceCtorEq, false_iff]
    exact hno o

/-- The slots a range of the stack stands for. -/
def entryRefs (types : ℕ → TypeSpec) (mem : Mem) (entry : ℕ × ℕ) : List Ref :=
  match mem.obj? entry.1 with
  | some o => (List.range entry.2).map (o.slot types)
  | none => []

theorem Mem.Grows.entryRefs_eq {entry : ℕ × ℕ} (hgrows : mem.Grows mem') :
    entryRefs types mem' entry = entryRefs types mem entry := by
  unfold entryRefs
  cases ho : mem.obj? entry.1 with
  | none =>
    cases ho' : mem'.obj? entry.1 with
    | none => rfl
    | some o' =>
      obtain ⟨m, hm⟩ := hgrows.object_back (Mem.obj?_eq_some.mp ho')
      rw [Mem.obj?_eq_some.mpr hm] at ho
      simp at ho
  | some o =>
    obtain ⟨m, hm⟩ := hgrows.object (Mem.obj?_eq_some.mp ho)
    rw [Mem.obj?_eq_some.mpr hm]
    rfl

/-- The entry of the mark stack is a range of slots. -/
def EntryOk (types : ℕ → TypeSpec) (mem : Mem) (entry : ℕ × ℕ) : Prop :=
  ∃ o, mem entry.1 = .object o ∧ entry.2 ≤ o.numSlots types

/-! ## How far marking has come -/

/-- The objects at the given addresses that are not marked. -/
def unmarked (dom : Finset ℕ) (mem : Mem) : ℕ :=
  (dom.filter fun a => (mem.obj? a).any fun o => !o.marked).card

/-- All objects are at some of these addresses. -/
def Mem.Within (mem : Mem) (dom : Finset ℕ) : Prop := ∀ a o, mem a = .object o → a ∈ dom

theorem Mem.Grows.within {dom : Finset ℕ} (hgrows : mem.Grows mem') (hdom : mem.Within dom) :
    mem'.Within dom := by
  intro a o ho
  obtain ⟨m, hm⟩ := hgrows.object_back ho
  exact hdom a _ hm

theorem unmarked_set_lt {dom : Finset ℕ} (hdom : mem.Within dom) (ho : mem a = .object o)
    (hbit : o.marked = false) :
    unmarked dom (mem.set a (.object { o with marked := true })) + 1 ≤ unmarked dom mem := by
  have ha : a ∈ dom.filter fun a => (mem.obj? a).any fun o => !o.marked := by
    rw [Finset.mem_filter, Mem.obj?_eq_some.mpr ho]
    exact ⟨hdom a o ho, by simp [hbit]⟩
  have hsub : (dom.filter fun b => ((mem.set a (.object { o with marked := true })).obj? b).any
      fun o => !o.marked) ⊆ (dom.filter fun a => (mem.obj? a).any fun o => !o.marked).erase a := by
    intro b hb
    rw [Finset.mem_filter] at hb
    obtain ⟨hdomb, hany⟩ := hb
    by_cases hba : b = a
    · subst hba
      simp [Mem.obj?] at hany
    · rw [Finset.mem_erase, Finset.mem_filter]
      refine ⟨hba, hdomb, ?_⟩
      simpa only [Mem.obj?, Mem.set_of_ne hba] using hany
  have hcard := Finset.card_le_card hsub
  rw [Finset.card_erase_of_mem ha] at hcard
  have hpos := Finset.card_pos.mpr ⟨a, ha⟩
  unfold unmarked
  omega

/-- What a piece of marking that was given the words `xs` has done. -/
structure Progress (types : ℕ → TypeSpec) (dom : Finset ℕ) (s s' : MarkState) (xs : List Ref)
    (pushed : List (ℕ × ℕ)) : Prop where
  grows : s.mem.Grows s'.mem
  started : ∀ b, .ptr b ∈ xs → s'.mem.Marked b
  reach : ∀ a, s'.mem.Marked a → ¬ s.mem.Marked a →
    ∃ b, .ptr b ∈ xs ∧ Relation.ReflTransGen (s.mem.Edge types) b a
  stack : s'.stack = pushed ++ s.stack
  entries : ∀ e ∈ pushed, EntryOk types s.mem e ∧ s'.mem.Marked e.1 ∧ ¬ s.mem.Marked e.1
  edges : ∀ a b, s'.mem.Marked a → ¬ s.mem.Marked a → s.mem.Edge types a b →
    s'.mem.Marked b ∨ ∃ e ∈ pushed, .ptr b ∈ entryRefs types s.mem e
  count : pushed.length + unmarked dom s'.mem ≤ unmarked dom s.mem

variable {dom : Finset ℕ} {s s' s'' : MarkState} {xs ys : List Ref} {pushed pushed' : List (ℕ × ℕ)}

theorem Progress.refl (hxs : ∀ b, .ptr b ∈ xs → s.mem.Marked b) : Progress types dom s s xs [] where
  grows := Mem.Grows.refl s.mem
  started := hxs
  reach _ hmarked hnot := absurd hmarked hnot
  stack := rfl
  entries := by simp
  edges _ _ hmarked hnot := absurd hmarked hnot
  count := by simp

theorem EntryOk.of_grows_back {e : ℕ × ℕ} (hgrows : mem.Grows mem') (hok : EntryOk types mem' e) :
    EntryOk types mem e := by
  obtain ⟨o, ho, hle⟩ := hok
  obtain ⟨m, hm⟩ := hgrows.object_back ho
  exact ⟨_, hm, hle⟩

theorem Progress.trans (h12 : Progress types dom s s' xs pushed)
    (h23 : Progress types dom s' s'' ys pushed') :
    Progress types dom s s'' (xs ++ ys) (pushed' ++ pushed) where
  grows := h12.grows.trans h23.grows
  started := by
    intro b hb
    rcases mem_append.mp hb with hb | hb
    · exact h23.grows.marked (h12.started b hb)
    · exact h23.started b hb
  reach := by
    intro a hmarked hnot
    by_cases hmid : s'.mem.Marked a
    · obtain ⟨b, hb, hpath⟩ := h12.reach a hmid hnot
      exact ⟨b, mem_append_left _ hb, hpath⟩
    · obtain ⟨b, hb, hpath⟩ := h23.reach a hmarked hmid
      rw [h12.grows.edge_eq] at hpath
      exact ⟨b, mem_append_right _ hb, hpath⟩
  stack := by rw [h23.stack, h12.stack, append_assoc]
  entries := by
    intro e he
    rcases mem_append.mp he with he | he
    · obtain ⟨hok, hmarked, hnot⟩ := h23.entries e he
      exact ⟨hok.of_grows_back h12.grows, hmarked, fun hold => hnot (h12.grows.marked hold)⟩
    · obtain ⟨hok, hmarked, hnot⟩ := h12.entries e he
      exact ⟨hok, h23.grows.marked hmarked, hnot⟩
  edges := by
    intro a b hmarked hnot hedge
    by_cases hmid : s'.mem.Marked a
    · rcases h12.edges a b hmid hnot hedge with hb | ⟨e, he, hb⟩
      · exact .inl (h23.grows.marked hb)
      · exact .inr ⟨e, mem_append_right _ he, hb⟩
    · rcases h23.edges a b hmarked hmid (h12.grows.edge_iff.mpr hedge) with hb | ⟨e, he, hb⟩
      · exact .inl hb
      · rw [h12.grows.entryRefs_eq] at hb
        exact .inr ⟨e, mem_append_left _ he, hb⟩
  count := by
    have h₁ := h12.count
    have h₂ := h23.count
    rw [length_append]
    omega

theorem progress_foldlM {f : MarkState → Ref → Option MarkState} {bound : ℕ}
    (hstep : ∀ s x, s.mem.Sound types → s.mem.Within dom → x.Valid s.mem →
      unmarked dom s.mem < bound →
        ∃ s' pushed, f s x = some s' ∧ Progress types dom s s' [x] pushed)
    (xs : List Ref) (s : MarkState) (hsound : s.mem.Sound types) (hdom : s.mem.Within dom)
    (hxs : ∀ x ∈ xs, x.Valid s.mem) (hbound : unmarked dom s.mem < bound) :
    ∃ s' pushed, xs.foldlM f s = some s' ∧ Progress types dom s s' xs pushed := by
  induction xs generalizing s with
  | nil => exact ⟨s, [], rfl, Progress.refl (by simp)⟩
  | cons x xs ih =>
    obtain ⟨s₁, pushed₁, hrun₁, hprogress₁⟩ :=
      hstep s x hsound hdom (hxs x mem_cons_self) hbound
    have hgrows := hprogress₁.grows
    have hcount := hprogress₁.count
    obtain ⟨s₂, pushed₂, hrun₂, hprogress₂⟩ := ih s₁ (hgrows.sound hsound) (hgrows.within hdom)
      (fun y hy => hgrows.valid (hxs y (mem_cons_of_mem x hy))) (by omega)
    refine ⟨s₂, pushed₂ ++ pushed₁, ?_, hprogress₁.trans hprogress₂⟩
    rw [foldlM_cons, hrun₁]
    exact hrun₂

/-! ## One object -/

/-- The reference needs no more marking. -/
def Ref.Settled (mem : Mem) (x : Ref) : Prop := ∀ b, x = .ptr b → mem.Marked b

theorem settled_eq (hx : x.Valid mem) :
    ∃ bit, settled mem x = some bit ∧ (bit = true → x.Settled mem) := by
  cases x with
  | imm bits => exact ⟨true, rfl, fun _ b hb => by simp at hb⟩
  | ptr addr =>
    obtain ⟨o, ho⟩ := hx addr rfl
    refine ⟨o.marked, by rw [settled, Mem.obj?_eq_some.mpr ho]; rfl, ?_⟩
    intro hbit b hb
    obtain rfl := Ref.ptr.inj hb
    exact ⟨o, ho, hbit⟩

theorem skipImmediates_spec {slot : ℕ → Ref} (len : ℕ) (hslots : ∀ i ≤ len, (slot i).Valid mem) :
    ∃ q ≤ len, skipImmediates mem slot len = some q ∧
      ∀ i, q < i → i ≤ len → (slot i).Settled mem := by
  induction len with
  | zero => exact ⟨0, le_rfl, rfl, fun i hi hle => by omega⟩
  | succ len ih =>
    obtain ⟨bit, hbit, hsettled⟩ := settled_eq (hslots (len + 1) le_rfl)
    cases bit with
    | false => exact ⟨len + 1, le_rfl, by simp [skipImmediates, hbit], fun i hi hle => by omega⟩
    | true =>
      obtain ⟨q, hq, hskip, hrest⟩ := ih fun i hi => hslots i (by omega)
      refine ⟨q, by omega, by simp [skipImmediates, hbit, hskip], fun i hi hle => ?_⟩
      rcases Nat.lt_or_ge len i with hlast | hlow
      · obtain rfl : i = len + 1 := by omega
        exact hsettled rfl
      · exact hrest i hi hlow

/-- The slots that are skipped are the same. -/
theorem skipDuplicates_spec (slot : ℕ → Ref) (q : ℕ) :
    skipDuplicates slot q ≤ q ∧
      ∀ i, skipDuplicates slot q ≤ i → i ≤ q → slot i = slot (skipDuplicates slot q) := by
  induction q with
  | zero =>
    refine ⟨le_rfl, fun i _ hi => ?_⟩
    obtain rfl := Nat.le_zero.mp hi
    rfl
  | succ q ih =>
    by_cases hsame : slot (q + 1) = slot q
    · rw [skipDuplicates, if_pos hsame]
      refine ⟨ih.1.trans (Nat.le_succ q), fun i hlow hi => ?_⟩
      rcases Nat.lt_or_ge q i with hlast | hi'
      · obtain rfl : i = q + 1 := by omega
        rw [hsame]
        exact ih.2 q ih.1 le_rfl
      · exact ih.2 i hlow hi'
    · rw [skipDuplicates, if_neg hsame]
      refine ⟨le_rfl, fun i hlow hi => ?_⟩
      obtain rfl : i = q + 1 := by omega
      rfl

theorem mem_slots : x ∈ o.slots types ↔ ∃ i < o.numSlots types, o.slot types i = x := by
  simp [Obj.slots]

theorem grows_mark (ho : mem a = .object o) :
    mem.Grows (mem.set a (.object { o with marked := true })) := by
  intro b
  by_cases hb : b = a
  · subst hb
    exact .inr ⟨o, ho, mem.set_self b _⟩
  · exact .inl (Mem.set_of_ne hb mem _)

theorem marked_mark (hmarked : (mem.set a (.object { o with marked := true })).Marked b) :
    b = a ∨ mem.Marked b := by
  by_cases hb : b = a
  · exact .inl hb
  · obtain ⟨o', ho', hbit⟩ := hmarked
    rw [Mem.set_of_ne hb] at ho'
    exact .inr ⟨o', ho', hbit⟩

/-- An object whose references have been dealt with: the saved variables and one slot are
started, the slots before it are pushed, those behind it need no marking. -/
private theorem progress_object {zs : List Ref}
    (entry : List (ℕ × ℕ)) {all : List (ℕ × ℕ)} (hdom : s.mem.Within dom)
    (ho : s.mem a = .object o) (hbit : o.marked = false)
    (hprogress : Progress types dom
      { s with mem := s.mem.set a (.object { o with marked := true }) } s' zs pushed)
    (hzs : ∀ x ∈ zs, x ∈ o.strongRefs types)
    (hrest : ∀ b, .ptr b ∈ o.strongRefs types → s'.mem.Marked b ∨
      ∃ e ∈ entry, .ptr b ∈ entryRefs types s.mem e)
    (hentry : entry = [] ∨ ∃ q, entry = [(a, q)] ∧ q ≤ o.numSlots types)
    (hall : all.Perm (entry ++ pushed))
    (hstack : s''.stack = all ++ s.stack) (hmem : s''.mem = s'.mem) :
    Progress types dom s s'' [.ptr a] all := by
  have hgrows₁ := grows_mark ho
  have hgrows := hprogress.grows
  have hnot : ¬ s.mem.Marked a := by
    rintro ⟨o', ho', hbit'⟩
    rw [ho] at ho'
    obtain rfl := Cell.object.inj ho'
    simp [hbit] at hbit'
  have hamarked : s'.mem.Marked a := hgrows.marked ⟨_, s.mem.set_self a _, rfl⟩
  refine ⟨?_, ?_, ?_, ?_, ?_, ?_, ?_⟩
  · rw [hmem]
    exact hgrows₁.trans hgrows
  · intro b hb
    obtain rfl : b = a := by simpa using hb
    rw [hmem]
    exact hamarked
  · intro c hmarked hcnot
    rw [hmem] at hmarked
    refine ⟨a, mem_singleton.mpr rfl, ?_⟩
    -- `c` is the object itself or was marked after it
    by_cases hmid : (s.mem.set a (.object { o with marked := true })).Marked c
    · obtain rfl := (marked_mark hmid).resolve_right hcnot
      exact .refl
    · obtain ⟨b, hb, hpath⟩ := hprogress.reach c hmarked hmid
      simp only [hgrows₁.edge_eq] at hpath
      exact .head ⟨o, ho, hzs _ hb⟩ hpath
  · exact hstack
  · intro e he
    rw [hmem]
    rcases mem_append.mp (hall.mem_iff.mp he) with he | he
    · obtain rfl | ⟨q, rfl, hq⟩ := hentry
      · simp at he
      · obtain rfl := mem_singleton.mp he
        exact ⟨⟨o, ho, hq⟩, hamarked, hnot⟩
    · obtain ⟨hok, hmarked, hnew⟩ := hprogress.entries e he
      exact ⟨hok.of_grows_back hgrows₁, hmarked, fun hold => hnew (hgrows₁.marked hold)⟩
  · intro c b hmarked hcnot hedge
    rw [hmem] at hmarked ⊢
    by_cases hmid : (s.mem.set a (.object { o with marked := true })).Marked c
    · obtain rfl := (marked_mark hmid).resolve_right hcnot
      obtain ⟨o', ho', href⟩ := hedge
      rw [ho] at ho'
      obtain rfl := Cell.object.inj ho'
      rcases hrest b href with hb | ⟨e, he, hb⟩
      · exact .inl hb
      · exact .inr ⟨e, hall.mem_iff.mpr (mem_append_left _ he), hb⟩
    · rcases hprogress.edges c b hmarked hmid (hgrows₁.edge_iff.mpr hedge) with hb | ⟨e, he, hb⟩
      · exact .inl hb
      · simp only [hgrows₁.entryRefs_eq] at hb
        exact .inr ⟨e, hall.mem_iff.mpr (mem_append_right _ he), hb⟩
  · have hcount := hprogress.count
    have hless := unmarked_set_lt hdom ho hbit
    have hlength : entry.length ≤ 1 := by
      obtain rfl | ⟨q, rfl, -⟩ := hentry
      · simp
      · simp
    rw [hmem, hall.length_eq, length_append]
    simp only at hcount
    omega

theorem Progress.with_stack (hprogress : Progress types dom s s' xs pushed) (stack : List (ℕ × ℕ)) :
    Progress types dom { s with stack := stack } { s' with stack := pushed ++ stack } xs pushed :=
  ⟨hprogress.grows, hprogress.started, hprogress.reach, rfl, hprogress.entries, hprogress.edges,
    hprogress.count⟩

/-- One call marks an object and pushes or marks what it refers to. -/
theorem sexpMarkOne_spec (fuel : ℕ) (x : Ref) (s : MarkState) (hsound : s.mem.Sound types)
    (hdom : s.mem.Within dom) (hx : x.Valid s.mem) (hfuel : unmarked dom s.mem < fuel) :
    ∃ s' pushed, sexpMarkOne types fuel x s = some s' ∧ Progress types dom s s' [x] pushed := by
  induction fuel generalizing x s with
  | zero => omega
  | succ fuel ih =>
    cases x with
    | imm bits => exact ⟨s, [], rfl, Progress.refl (by simp)⟩
    | ptr a =>
      obtain ⟨o, ho⟩ := hx a rfl
      have hobj := Mem.obj?_eq_some.mpr ho
      cases hbit : o.marked with
      | true =>
        refine ⟨s, [], by simp [sexpMarkOne, hobj, hbit], Progress.refl ?_⟩
        intro b hb
        obtain rfl : b = a := by simpa using hb
        exact ⟨o, ho, hbit⟩
      | false =>
        have hgrows₁ := grows_mark ho
        have hless := unmarked_set_lt hdom ho hbit
        set s₁ : MarkState := { s with mem := s.mem.set a (.object { o with marked := true }) }
          with hs₁
        have hstrong : ∀ x ∈ o.strongRefs types, x.Valid s₁.mem :=
          fun x hx => hgrows₁.valid (hsound a o ho x hx)
        -- the saved variables
        obtain ⟨s₂, pushed₂, hrun₂, hprogress₂⟩ := progress_foldlM
          (f := fun s x => sexpMarkOne types fuel x s) (fun s x hs hd hx hf => ih x s hs hd hx hf)
          o.savedRefs s₁ (hgrows₁.sound hsound) (hgrows₁.within hdom)
          (fun x hx => hstrong x (mem_append_right _ hx))
          (show unmarked dom s₁.mem < fuel by rw [hs₁]; simp only; omega)
        have hgrows₂ := hprogress₂.grows
        cases hnum : o.numSlots types with
        | zero =>
          refine ⟨s₂, pushed₂, by simp [sexpMarkOne, hobj, hbit, hnum, ← hs₁, hrun₂], ?_⟩
          refine progress_object [] hdom ho hbit hprogress₂
            (fun x hx => mem_append_right _ hx) ?_ (.inl rfl) (List.Perm.refl _)
            hprogress₂.stack rfl
          intro b hb
          rcases mem_append.mp hb with hb | hb
          · obtain ⟨i, hi, -⟩ := mem_slots.mp hb
            omega
          · exact .inl (hprogress₂.started b hb)
        | succ len =>
          have hvalid₂ : ∀ i ≤ len, (o.slot types i).Valid s₂.mem := by
            intro i hi
            refine hgrows₂.valid (hstrong _ (mem_append_left _ ?_))
            exact mem_slots.mpr ⟨i, by omega, rfl⟩
          obtain ⟨q₀, hq₀, hskip, hsettled⟩ := skipImmediates_spec len hvalid₂
          obtain ⟨hq, hsame⟩ := skipDuplicates_spec (o.slot types) q₀
          set q := skipDuplicates (o.slot types) q₀ with hqdef
          set entry : List (ℕ × ℕ) := if 0 < q then [(a, q)] else [] with hentry
          have hcount₂ := hprogress₂.count
          -- the slot that marking goes on with
          obtain ⟨s₃, pushed₃, hrun₃, hprogress₃⟩ := ih (o.slot types q)
            { s₂ with stack := entry ++ s₂.stack } (hgrows₂.sound (hgrows₁.sound hsound))
            (hgrows₂.within (hgrows₁.within hdom)) (hvalid₂ q (by omega))
            (show unmarked dom s₂.mem < fuel by simp only [hs₁] at hcount₂; omega)
          have hboth := hprogress₂.trans (hprogress₃.with_stack s₂.stack)
          refine ⟨s₃, pushed₃ ++ (entry ++ pushed₂), ?_, ?_⟩
          · have hpush : (if 0 < q then { s₂ with stack := (a, q) :: s₂.stack } else s₂) =
                { s₂ with stack := entry ++ s₂.stack } := by
              rw [hentry]
              split <;> rfl
            simp only [sexpMarkOne, hobj, hbit, bind_eq_bind, bind_some,
              Bool.false_eq_true, ↓reduceIte, ← hs₁, hrun₂, hnum, hskip, ← hqdef, hpush]
            exact hrun₃
          · refine progress_object entry hdom ho hbit hboth ?_ ?_ ?_ ?_ ?_ rfl
            · intro x hx
              rcases mem_append.mp hx with hx | hx
              · exact mem_append_right _ hx
              · obtain rfl := mem_singleton.mp hx
                exact mem_append_left _ (mem_slots.mpr ⟨q, by omega, rfl⟩)
            · intro b hb
              rcases mem_append.mp hb with hb | hb
              · obtain ⟨i, hi, hslot⟩ := mem_slots.mp hb
                rcases Nat.lt_or_ge q₀ i with hbehind | hle
                · exact .inl (hprogress₃.grows.marked
                    (hsettled i hbehind (by omega) b hslot))
                · rcases Nat.lt_or_ge i q with hbefore | hge
                  · refine .inr ⟨(a, q), by simp [hentry, show 0 < q by omega], ?_⟩
                    rw [entryRefs, hobj]
                    exact List.mem_map.mpr ⟨i, mem_range.mpr hbefore, hslot⟩
                  · refine .inl (hprogress₃.started b ?_)
                    rw [mem_singleton, ← hsame i hge hle, hslot]
              · exact .inl (hprogress₃.grows.marked (hprogress₂.started b hb))
            · rcases Nat.eq_zero_or_pos q with hzero | hpos
              · exact .inl (by rw [hentry, if_neg (by omega)])
              · exact .inr ⟨q, by rw [hentry, if_pos hpos], by omega⟩
            · rw [← append_assoc, ← append_assoc]
              exact List.Perm.append_right _ perm_append_comm
            · rw [hprogress₃.stack, hprogress₂.stack]
              simp [hs₁, append_assoc]

/-! ## Marking from an object -/

theorem Progress.pop {start : Mem} {entry : ℕ × ℕ} {stack : List (ℕ × ℕ)}
    (hsofar : Progress types dom ⟨start, []⟩ ⟨mem, entry :: stack⟩ [x] (entry :: stack))
    (hround : Progress types dom ⟨mem, stack⟩ s' (entryRefs types start entry) pushed) :
    Progress types dom ⟨start, []⟩ s' [x] (pushed ++ stack) where
  grows := hsofar.grows.trans hround.grows
  started b hb := hround.grows.marked (hsofar.started b hb)
  reach := by
    intro a hmarked hnot
    by_cases hmid : mem.Marked a
    · exact hsofar.reach a hmid hnot
    obtain ⟨b, hb, hpath⟩ := hround.reach a hmarked hmid
    obtain ⟨⟨o, ho, hle⟩, hmarkedEntry, hnew⟩ := hsofar.entries entry mem_cons_self
    obtain ⟨c, hc, hpathEntry⟩ := hsofar.reach entry.1 hmarkedEntry hnew
    have hedge : start.Edge types entry.1 b := by
      refine ⟨o, ho, mem_append_left _ ?_⟩
      rw [entryRefs, Mem.obj?_eq_some.mpr ho] at hb
      obtain ⟨i, hi, hslot⟩ := List.mem_map.mp hb
      exact mem_slots.mpr ⟨i, (mem_range.mp hi).trans_le hle, hslot⟩
    have hedges : Mem.Edge types mem = Mem.Edge types start := hsofar.grows.edge_eq
    simp only [hedges] at hpath
    exact ⟨c, hc, (hpathEntry.tail hedge).trans hpath⟩
  stack := by rw [hround.stack, append_nil]
  entries := by
    intro e he
    rcases mem_append.mp he with he | he
    · obtain ⟨hok, hmarked, hnot⟩ := hround.entries e he
      exact ⟨hok.of_grows_back hsofar.grows, hmarked, fun hold => hnot (hsofar.grows.marked hold)⟩
    · obtain ⟨hok, hmarked, hnot⟩ := hsofar.entries e (mem_cons_of_mem entry he)
      exact ⟨hok, hround.grows.marked hmarked, hnot⟩
  edges := by
    intro a b hmarked hnot hedge
    by_cases hmid : mem.Marked a
    · rcases hsofar.edges a b hmid hnot hedge with hb | ⟨e, he, hb⟩
      · exact .inl (hround.grows.marked hb)
      · rcases mem_cons.mp he with rfl | he
        · exact .inl (hround.started b hb)
        · exact .inr ⟨e, mem_append_right _ he, hb⟩
    · rcases hround.edges a b hmarked hmid (hsofar.grows.edge_iff.mpr hedge) with hb | ⟨e, he, hb⟩
      · exact .inl hb
      · refine .inr ⟨e, mem_append_left _ he, ?_⟩
        have hsame : entryRefs types mem e = entryRefs types start e := hsofar.grows.entryRefs_eq
        rwa [← hsame]
  count := by
    have h₁ : stack.length + 1 + unmarked dom mem ≤ unmarked dom start := hsofar.count
    have h₂ : pushed.length + unmarked dom s'.mem ≤ unmarked dom mem := hround.count
    rw [length_append]
    show pushed.length + stack.length + unmarked dom s'.mem ≤ unmarked dom start
    omega

/-- By induction on the rounds: the stack and the unmarked objects shrink together. -/
theorem markLoop_spec {start : Mem} (hsound : start.Sound types) (hdom : start.Within dom)
    (fuel : ℕ) (hfuel : unmarked dom start < fuel) (rounds : ℕ) (s : MarkState)
    (hsofar : Progress types dom ⟨start, []⟩ s [x] s.stack)
    (hrounds : s.stack.length + unmarked dom s.mem ≤ rounds) :
    ∃ mem', markLoop types fuel rounds s = some mem' ∧
      Progress types dom ⟨start, []⟩ ⟨mem', []⟩ [x] [] := by
  induction rounds generalizing s with
  | zero =>
    obtain ⟨mem, stack⟩ := s
    obtain rfl : stack = [] := length_eq_zero_iff.mp (by simp only at hrounds; omega)
    exact ⟨mem, rfl, hsofar⟩
  | succ rounds ih =>
    obtain ⟨mem, stack⟩ := s
    cases stack with
    | nil => exact ⟨mem, rfl, hsofar⟩
    | cons entry stack =>
      obtain ⟨⟨o, ho, hle⟩, -⟩ := hsofar.entries entry mem_cons_self
      have hgrows : start.Grows mem := hsofar.grows
      obtain ⟨m, hm⟩ := hgrows.object ho
      have hrefs : (List.range entry.2).map (({ o with marked := m } : Obj).slot types) =
          entryRefs types start entry := by
        rw [entryRefs, Mem.obj?_eq_some.mpr ho]
        rfl
      have hcount := hsofar.count
      obtain ⟨s₁, pushed, hrun, hround⟩ := progress_foldlM
        (f := fun s x => sexpMarkOne types fuel x s)
        (fun s x hs hd hx hf => sexpMarkOne_spec fuel x s hs hd hx hf)
        (entryRefs types start entry) ⟨mem, stack⟩ (hgrows.sound hsound) (hgrows.within hdom)
        (by
          intro y hy
          refine hgrows.valid (hsound entry.1 o ho y (mem_append_left _ ?_))
          rw [entryRefs, Mem.obj?_eq_some.mpr ho] at hy
          obtain ⟨i, hi, rfl⟩ := List.mem_map.mp hy
          exact mem_slots.mpr ⟨i, (mem_range.mp hi).trans_le hle, rfl⟩)
        (by simp only at hcount ⊢; omega)
      have hnext := hsofar.pop hround
      have hstack : s₁.stack = pushed ++ stack := hround.stack
      rw [← hstack] at hnext
      have hcount₁ := hround.count
      obtain ⟨mem', hloop, hdone⟩ := ih s₁ hnext (by
        rw [hstack, length_append]
        simp only [length_cons] at hrounds hcount₁
        omega)
      refine ⟨mem', ?_, hdone⟩
      rw [markLoop, Mem.obj?_eq_some.mpr hm]
      simp only [bind_eq_bind, bind_some, hrefs, hrun]
      exact hloop

/-- What a marked object refers to is marked. -/
def Mem.Closed (types : ℕ → TypeSpec) (mem : Mem) : Prop :=
  ∀ a b, mem.Marked a → mem.Edge types a b → mem.Marked b

/-- `sexp_mark` comes to an end with the objects marked that were or that can be reached;
nothing else has changed. -/
theorem sexpMark_spec (fuel : ℕ) (x : Ref) (hsound : mem.Sound types) (hdom : mem.Within dom)
    (hclosed : mem.Closed types) (hx : x.Valid mem) (hfuel : unmarked dom mem < fuel) :
    ∃ mem', sexpMark types fuel x mem = some mem' ∧ mem.Grows mem' ∧
      ∀ a, mem'.Marked a ↔ mem.Marked a ∨
        ∃ b, x = .ptr b ∧ Relation.ReflTransGen (mem.Edge types) b a := by
  obtain ⟨s, pushed, hrun, hprogress⟩ := sexpMarkOne_spec fuel x ⟨mem, []⟩ hsound hdom hx hfuel
  have hstack : s.stack = pushed := by
    rw [hprogress.stack, append_nil]
  have hcount := hprogress.count
  rw [← hstack] at hprogress hcount
  obtain ⟨mem', hloop, hdone⟩ := markLoop_spec hsound hdom fuel hfuel fuel s
    hprogress (by simp only at hcount; omega)
  refine ⟨mem', by simp [sexpMark, hrun, hloop], hdone.grows, ?_⟩
  have hclosed' : ∀ a b, mem'.Marked a → mem.Edge types a b → mem'.Marked b := by
    intro a b hmarked hedge
    by_cases hold : mem.Marked a
    · exact hdone.grows.marked (hclosed a b hold hedge)
    · rcases hdone.edges a b hmarked hold hedge with hb | ⟨e, he, -⟩
      · exact hb
      · simp at he
  intro a
  constructor
  · intro hmarked
    by_cases hold : mem.Marked a
    · exact .inl hold
    · obtain ⟨b, hb, hpath⟩ := hdone.reach a hmarked hold
      exact .inr ⟨b, (mem_singleton.mp hb).symm, hpath⟩
  · rintro (hold | ⟨b, rfl, hpath⟩)
    · exact hdone.grows.marked hold
    · induction hpath with
      | refl => exact hdone.started b (mem_singleton.mpr rfl)
      | tail _ hedge ih => exact hclosed' _ _ ih hedge

/-- In every finite heap without dangling references, `sexp_mark` ends with the objects
marked that were marked before and those that can be reached through slots and the saved
variables of contexts. -/
theorem sexpMark_marks_reachable (types : ℕ → TypeSpec) (mem : Mem) (x : Ref)
    (hfinite : { a | ∃ o, mem a = .object o }.Finite) (hsound : mem.Sound types)
    (hclosed : mem.Closed types) (hx : x.Valid mem) :
    ∃ n, ∀ fuel ≥ n, ∃ mem', sexpMark types fuel x mem = some mem' ∧ mem.Grows mem' ∧
      ∀ a, mem'.Marked a ↔ mem.Marked a ∨
        ∃ b, x = .ptr b ∧ Relation.ReflTransGen (mem.Edge types) b a := by
  have hdom : mem.Within hfinite.toFinset := fun a o ho => by
    rw [Set.Finite.mem_toFinset]
    exact ⟨o, ho⟩
  refine ⟨unmarked hfinite.toFinset mem + 1, fun fuel hfuel => ?_⟩
  exact sexpMark_spec fuel x hsound hdom hclosed hx hfuel

/-! ## Pairs

A pair has three slots, of which `equal?` compares two: the third is the place in the
source that the pair was read from. -/

/-- The row of pairs in the table of types. -/
def sexpPairType : TypeSpec := ⟨1, 2, 3, 0, 32, 0, 0, 0, 0, 0⟩

/-- A pair. -/
def pairObj (car cdr source : Ref) : Obj := ⟨6, [.imm 0, car, cdr, source], 0, 0, 0, [], false, false⟩

/-- The pair at 32 has the pair at 64 as its source, which is a cycle if `back` is the
pair at 32. -/
def sourceHeap (back : Ref) : Mem := fun a =>
  if a = 32 then .object (pairObj (.imm 0) (.imm 0) (.ptr 64))
  else if a = 64 then .object (pairObj back (.imm 0) (.imm 0))
  else .blank

private theorem sourceHeap_object {back : Ref} (ho : sourceHeap back a = .object o) :
    a = 32 ∧ o = pairObj (.imm 0) (.imm 0) (.ptr 64) ∨
      a = 64 ∧ o = pairObj back (.imm 0) (.imm 0) := by
  unfold sourceHeap at ho
  split at ho
  · exact .inl ⟨‹a = 32›, (Cell.object.inj ho).symm⟩
  · split at ho
    · exact .inr ⟨‹a = 64›, (Cell.object.inj ho).symm⟩
    · simp at ho

private theorem sourceHeap_finite (back : Ref) :
    { a | ∃ o, sourceHeap back a = .object o }.Finite := by
  refine Set.Finite.subset (Set.toFinite {32, 64}) ?_
  rintro a ⟨o, ho⟩
  rcases sourceHeap_object ho with ⟨rfl, -⟩ | ⟨rfl, -⟩ <;> simp

private theorem strongRefs_pairObj (car cdr source : Ref) :
    (pairObj car cdr source).strongRefs (fun _ => sexpPairType) = [car, cdr, source] := rfl

private theorem sourceHeap_sound {back : Ref} (hback : back.Valid (sourceHeap back)) :
    (sourceHeap back).Sound (fun _ => sexpPairType) := by
  intro a o ho x hx
  have himm : (Ref.imm 0).Valid (sourceHeap back) := fun b hb => by simp at hb
  have hsource : (Ref.ptr 64).Valid (sourceHeap back) := fun b hb => by
    obtain rfl := Ref.ptr.inj hb
    exact ⟨_, rfl⟩
  rcases sourceHeap_object ho with ⟨-, rfl⟩ | ⟨-, rfl⟩
  · simp only [strongRefs_pairObj, mem_cons, not_mem_nil, or_false] at hx
    rcases hx with rfl | rfl | rfl
    · exact himm
    · exact himm
    · exact hsource
  · simp only [strongRefs_pairObj, mem_cons, not_mem_nil, or_false] at hx
    rcases hx with rfl | rfl | rfl
    · exact hback
    · exact himm
    · exact himm

private theorem sourceHeap_not_marked (back : Ref) (a : ℕ) : ¬ (sourceHeap back).Marked a := by
  rintro ⟨o, ho, hbit⟩
  rcases sourceHeap_object ho with ⟨-, rfl⟩ | ⟨-, rfl⟩ <;> simp [pairObj] at hbit

private theorem sourceHeap_closed (back : Ref) : (sourceHeap back).Closed (fun _ => sexpPairType) :=
  fun a _ hmarked _ => absurd hmarked (sourceHeap_not_marked back a)

/-- Two pairs that refer to each other. -/
theorem sexpMark_marks_cycle :
    ∃ n, ∀ fuel ≥ n, ∃ mem', sexpMark (fun _ => sexpPairType) fuel (.ptr 32) (sourceHeap (.ptr 32)) =
        some mem' ∧ (sourceHeap (.ptr 32)).Grows mem' ∧
      ∀ a, mem'.Marked a ↔ (sourceHeap (.ptr 32)).Marked a ∨ ∃ b, Ref.ptr 32 = .ptr b ∧
        Relation.ReflTransGen ((sourceHeap (.ptr 32)).Edge (fun _ => sexpPairType)) b a := by
  have hvalid : (Ref.ptr 32).Valid (sourceHeap (.ptr 32)) := fun b hb => by
    obtain rfl := Ref.ptr.inj hb
    exact ⟨_, rfl⟩
  exact sexpMark_marks_reachable _ _ (.ptr 32) (sourceHeap_finite _) (sourceHeap_sound hvalid)
    (sourceHeap_closed _) hvalid

/-- A reference through one of the slots that `equal?` compares, as many as
`sexp_type_num_eq_slots_of_object`. -/
def Mem.EqualityEdge (types : ℕ → TypeSpec) (mem : Mem) (a b : ℕ) : Prop :=
  ∃ o, mem a = .object o ∧ ∃ i < o.fieldLen * (types o.tag).fieldLenScale +
    (types o.tag).fieldEqLenBase, o.slot types i = .ptr b

/-- The source of a pair is marked, though it is in none of the slots that `equal?`
compares. -/
theorem sexpMark_marks_source :
    ¬ ∃ n, ∀ fuel ≥ n, ∃ mem', sexpMark (fun _ => sexpPairType) fuel (.ptr 32)
        (sourceHeap (.imm 0)) = some mem' ∧
      ∀ a, mem'.Marked a ↔ (sourceHeap (.imm 0)).Marked a ∨ ∃ b, Ref.ptr 32 = .ptr b ∧
        Relation.ReflTransGen ((sourceHeap (.imm 0)).EqualityEdge (fun _ => sexpPairType)) b a := by
  rintro ⟨n, hall⟩
  have hvalid : (Ref.ptr 32).Valid (sourceHeap (.imm 0)) := fun b hb => by
    obtain rfl := Ref.ptr.inj hb
    exact ⟨_, rfl⟩
  have hdom : (sourceHeap (.imm 0)).Within {32, 64} := by
    intro a o ho
    rcases sourceHeap_object ho with ⟨rfl, -⟩ | ⟨rfl, -⟩ <;> simp
  obtain ⟨mem', hrun, hmarks⟩ := hall (n + 3) (by omega)
  have hfuel : unmarked {32, 64} (sourceHeap (.imm 0)) < n + 3 := by
    have hcard : unmarked {32, 64} (sourceHeap (.imm 0)) = 2 := by decide
    omega
  obtain ⟨mem'', hrun', -, hmarks'⟩ := sexpMark_spec (n + 3) (.ptr 32)
    (sourceHeap_sound fun b hb => by simp at hb) hdom (sourceHeap_closed _) hvalid hfuel
  obtain rfl := some.inj (hrun.symm.trans hrun')
  have hedge : (sourceHeap (.imm 0)).Edge (fun _ => sexpPairType) 32 64 :=
    ⟨_, rfl, by simp [strongRefs_pairObj]⟩
  have hmarked := (hmarks' 64).mpr (.inr ⟨32, rfl, .single hedge⟩)
  obtain ⟨b, hb, hpath⟩ := ((hmarks 64).mp hmarked).resolve_left (sourceHeap_not_marked _ 64)
  obtain rfl := Ref.ptr.inj hb
  -- the first step of such a path is through the first or the second slot
  obtain heq | ⟨c, hstep, -⟩ := Relation.ReflTransGen.cases_head hpath
  · exact absurd heq (by decide)
  obtain ⟨o, ho, i, hi, hslot⟩ := hstep
  obtain rfl := Cell.object.inj ho
  have hi : i = 0 ∨ i = 1 := by
    have hi : i < 2 := hi
    omega
  rcases hi with rfl | rfl <;> exact Ref.noConfusion hslot

end ChibiScheme.Gc
