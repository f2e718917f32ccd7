import Mathlib.Data.List.Nodup

/-!
# Singly linked lists in a store

A link is a cell or an end mark, and `next` gives the link in every cell.  `Chain next start cells
last` says that the links lead from `start` through `cells` to `last`.  A change of one link keeps
every chain that does not pass through that cell; this gives a rule for each of the usual
operations: cutting a chain, joining two, unlinking and inserting a cell.
-/

namespace Linked

open List Function

/-- What a cell is followed by. -/
inductive Link (Cell End : Type) where
  | cell (c : Cell)
  | stop (e : End)
deriving DecidableEq

/-- The links lead from `start` through the cells to `last`. -/
def Chain {Cell End : Type} (next : Cell → Link Cell End) :
    Link Cell End → List Cell → Link Cell End → Prop
  | start, [], last => start = last
  | start, c :: cells, last => start = .cell c ∧ Chain next (next c) cells last

/-- The link to the first cell. -/
def headLink {Cell End : Type} : List Cell → Link Cell End → Link Cell End
  | [], last => last
  | c :: _, _ => .cell c

/-- Follow the links up to the first cell at which to stop.  The result is the cell in front of it
and the link to it.  Without enough fuel there is none. -/
def scan {Cell End : Type} (next : Cell → Link Cell End) (here : Cell → Bool) :
    ℕ → Option Cell → Link Cell End → Option (Option Cell × Link Cell End)
  | 0, _, _ => none
  | _ + 1, prev, .stop e => some (prev, .stop e)
  | fuel + 1, prev, .cell c =>
    if here c then some (prev, .cell c) else scan next here fuel (some c) (next c)

/-- The cells behind a link. -/
def follow {Cell End : Type} (next : Cell → Link Cell End) : ℕ → Link Cell End → List Cell
  | 0, _ => []
  | _ + 1, .stop _ => []
  | fuel + 1, .cell c => c :: follow next fuel (next c)

variable {Cell End : Type} {next next' : Cell → Link Cell End} {start middle last : Link Cell End}
  {cells cs ds : List Cell} {c : Cell}

@[simp] theorem chain_nil : Chain next start [] last ↔ start = last := Iff.rfl

@[simp] theorem chain_cons :
    Chain next start (c :: cells) last ↔ start = .cell c ∧ Chain next (next c) cells last := Iff.rfl

@[simp] theorem headLink_nil : headLink ([] : List Cell) last = last := rfl

@[simp] theorem headLink_cons : headLink (c :: cells) last = .cell c := rfl

theorem Chain.head_eq (hchain : Chain next start cells last) : start = headLink cells last := by
  cases cells with
  | nil => exact hchain
  | cons c cells => exact hchain.1

theorem Chain.stop_unique {ds : List Cell} {e e' : End} (hchain : Chain next start cs (.stop e))
    (hchain' : Chain next start ds (.stop e')) : cs = ds ∧ e = e' := by
  induction cs generalizing start ds with
  | nil =>
    cases ds with
    | nil =>
      have heq : (.stop e : Link Cell End) = .stop e' := hchain.symm.trans hchain'
      exact ⟨rfl, Link.stop.inj heq⟩
    | cons d ds => cases hchain.symm.trans hchain'.1
  | cons c cs ih =>
    cases ds with
    | nil => cases hchain.1.symm.trans hchain'
    | cons d ds =>
      obtain rfl : c = d := Link.cell.inj (hchain.1.symm.trans hchain'.1)
      obtain ⟨rfl, rfl⟩ := ih hchain.2 hchain'.2
      exact ⟨rfl, rfl⟩

theorem Chain.follow_eq {e : End} (hchain : Chain next start cells (.stop e)) {fuel : ℕ}
    (hfuel : cells.length ≤ fuel) : follow next fuel start = cells := by
  induction fuel generalizing start cells with
  | zero =>
    rw [follow, eq_nil_of_length_eq_zero (Nat.le_zero.mp hfuel)]
  | succ fuel ih =>
    cases cells with
    | nil =>
      obtain rfl := chain_nil.mp hchain
      rfl
    | cons c cells =>
      obtain ⟨rfl, hrest⟩ := hchain
      rw [follow, ih hrest (Nat.le_of_succ_le_succ hfuel)]

theorem chain_append :
    Chain next start (cs ++ ds) last ↔
      Chain next start cs (headLink ds last) ∧ Chain next (headLink ds last) ds last := by
  induction cs generalizing start with
  | nil =>
    constructor
    · intro hchain
      have hhead := hchain.head_eq
      exact ⟨hhead, hhead ▸ hchain⟩
    · rintro ⟨hstart, hchain⟩
      rw [chain_nil] at hstart
      rwa [nil_append, hstart]
  | cons c cs ih => simp only [cons_append, chain_cons, ih, and_assoc]

theorem chain_concat :
    Chain next start (cells ++ [c]) last ↔ Chain next start cells (.cell c) ∧ next c = last := by
  rw [chain_append]
  simp [headLink]

theorem Chain.congr (hchain : Chain next start cells last)
    (hsame : ∀ c ∈ cells, next' c = next c) : Chain next' start cells last := by
  induction cells generalizing start with
  | nil => exact hchain
  | cons c cells ih =>
    refine ⟨hchain.1, ?_⟩
    rw [hsame c mem_cons_self]
    exact ih hchain.2 fun d hd => hsame d (mem_cons_of_mem c hd)

section

variable [DecidableEq Cell]

theorem Chain.update (hchain : Chain next start cells last) (hnot : c ∉ cells)
    (link : Link Cell End) : Chain (Function.update next c link) start cells last := by
  refine hchain.congr fun d hd => update_of_ne ?_ _ _
  rintro rfl
  exact hnot hd

theorem Chain.relink (hchain : Chain next start (cells ++ [c]) last) (hnot : c ∉ cells)
    (link : Link Cell End) :
    Chain (Function.update next c link) start (cells ++ [c]) link := by
  obtain ⟨hcells, -⟩ := chain_concat.mp hchain
  exact chain_concat.mpr ⟨hcells.update hnot link, update_self _ _ _⟩

theorem Chain.unlink {before after : List Cell} {prev : Cell}
    (hchain : Chain next start (before ++ [prev] ++ c :: after) last)
    (hnodup : (before ++ [prev] ++ c :: after).Nodup) :
    Chain (Function.update next prev (next c)) start (before ++ [prev] ++ after) last := by
  obtain ⟨hbefore, hrest⟩ := chain_append.mp hchain
  rw [headLink_cons] at hrest hbefore
  have hprev : prev ∉ before := by
    have hsub := (nodup_append.mp hnodup).1
    rw [nodup_append] at hsub
    exact fun hmem => hsub.2.2 prev hmem prev (mem_singleton_self _) rfl
  have hprevc : prev ∉ c :: after := fun hmem =>
    (nodup_append.mp hnodup).2.2 prev (by simp) prev hmem rfl
  rw [mem_cons, not_or] at hprevc
  have hafter := hrest.2
  have hheadlink := hafter.head_eq
  refine chain_append.mpr ⟨?_, ?_⟩
  · rw [← hheadlink]
    exact hbefore.relink hprev _
  · rw [← hheadlink]
    exact hafter.update hprevc.2 _

theorem Chain.insert {before after : List Cell} {prev : Cell}
    (hchain : Chain next start (before ++ [prev] ++ after) last)
    (hnodup : (before ++ [prev] ++ after).Nodup) (hnot : c ∉ before ++ [prev] ++ after) :
    Chain (Function.update (Function.update next c (headLink after last)) prev (.cell c)) start
      (before ++ [prev] ++ c :: after) last := by
  obtain ⟨hbefore, hafter⟩ := chain_append.mp hchain
  have hprev : prev ∉ before := by
    have hsub := (nodup_append.mp hnodup).1
    rw [nodup_append] at hsub
    exact fun hmem => hsub.2.2 prev hmem prev (mem_singleton_self _) rfl
  have hprevafter : prev ∉ after := fun hmem =>
    (nodup_append.mp hnodup).2.2 prev (by simp) prev hmem rfl
  rw [mem_append, not_or] at hnot
  have hne : c ≠ prev := fun heq => hnot.1 (by simp [heq])
  refine chain_append.mpr ⟨?_, ?_⟩
  · exact (hbefore.update hnot.1 _).relink hprev _
  · refine ⟨rfl, ?_⟩
    rw [update_of_ne hne, update_self]
    exact (hafter.update hnot.2 _).update hprevafter _

end

/-- The scan finds the first cell of a kind, and the one before it. -/
theorem scan_spec {here : Cell → Bool} {e : End} (hchain : Chain next start cells (.stop e))
    {fuel : ℕ} (hfuel : cells.length < fuel) (prev : Option Cell) :
    scan next here fuel prev start =
      some ((cells.takeWhile fun c => !here c).getLast?.or prev,
        headLink (cells.dropWhile fun c => !here c) (.stop e)) := by
  induction cells generalizing start fuel prev with
  | nil =>
    cases fuel with
    | zero => simp at hfuel
    | succ fuel =>
      rw [chain_nil] at hchain
      simp [scan, hchain]
  | cons c cells ih =>
    cases fuel with
    | zero => simp at hfuel
    | succ fuel =>
      obtain ⟨rfl, hrest⟩ := hchain
      by_cases hhere : here c = true
      · simp [scan, hhere]
      · have hfalse : here c = false := by simpa using hhere
        have hscan := ih hrest (by simpa using hfuel) (some c)
        simp only [scan, hfalse, Bool.false_eq_true, if_false, hscan, takeWhile_cons,
          dropWhile_cons, Bool.not_false, if_true, getLast?_cons, Option.some_or]
        cases (cells.takeWhile fun c => !here c).getLast? <;> rfl

end Linked
