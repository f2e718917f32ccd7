import ChibiScheme.Regexp.Compiles

/-!
# Matching and searching

What `regexp-matches` and `regexp-search` return for an SRE, in terms of what it matches.
-/

namespace ChibiScheme

namespace Regexp

variable {env : Env} {order : Order} {sre : Sre} {flags : Flags} {range : Range} {search : Bool}

theorem regexpRun_of {rx : Rx} (h : regexp env sre flags = .ok rx) :
    regexpRun env order search sre flags range = .ok (rx.runOffsets order search range) := by
  rw [regexpRun, h]
  rfl

theorem succeeds_iff :
    (regexpRun env order search sre flags range).Succeeds ↔
      ∃ rx, regexp env sre flags = .ok rx ∧ ∃ m, rx.runOffsets order search range = some (some m) := by
  constructor
  · rintro ⟨m, h⟩
    obtain ⟨rx, hrx, h⟩ := ok_of_bind h
    exact ⟨rx, hrx, m, Except.ok.inj h⟩
  · rintro ⟨rx, hrx, m, h⟩
    exact ⟨m, by rw [regexpRun_of hrx, h]⟩

theorem returns_iff (hrange : range.Valid) :
    (regexpRun env order search sre flags range).Returns ↔ sre.Compiles env := by
  rw [← regexp_ok_iff flags]
  constructor
  · rintro ⟨m, h⟩
    obtain ⟨rx, hrx, -⟩ := ok_of_bind h
    exact ⟨rx, hrx⟩
  · rintro ⟨rx, hrx⟩
    have hof := regexp_of hrx
    rw [regexpRun_of hrx]
    cases search with
    | true =>
      obtain ⟨accept, -, hrun⟩ := Rx.runOffsets_search hof hrange order
      exact ⟨_, congrArg _ hrun⟩
    | false =>
      obtain ⟨accept, -, hrun⟩ := Rx.runOffsets_match hof hrange order
      exact ⟨_, congrArg _ hrun⟩

theorem regexpSearch_succeeds_iff (hrange : range.Valid) :
    (regexpSearch env order sre flags range).Succeeds ↔ sre.Compiles env ∧
      ∃ s j, range.start ≤ s ∧ s ≤ range.stop ∧ Spans env sre flags range s j := by
  rw [regexpSearch, succeeds_iff, ← regexp_ok_iff flags]
  constructor
  · rintro ⟨rx, hrx, hrun⟩
    exact ⟨⟨rx, hrx⟩, (Rx.search_iff (regexp_of hrx) hrange order).mp hrun⟩
  · rintro ⟨⟨rx, hrx⟩, hspans⟩
    exact ⟨rx, hrx, (Rx.search_iff (regexp_of hrx) hrange order).mpr hspans⟩

theorem regexpMatches_succeeds_iff (hrange : range.Valid) :
    (regexpMatches env order sre flags range).Succeeds ↔ sre.Compiles env ∧
      Spans env sre flags range range.start range.stop ∧
        (sre.nonGreedySre = true →
          ∀ j, j < range.stop → ¬ Spans env sre flags range range.start j) := by
  rw [regexpMatches, succeeds_iff, ← regexp_ok_iff flags]
  constructor
  · rintro ⟨rx, hrx, hrun⟩
    exact ⟨⟨rx, hrx⟩, (Rx.match_iff (regexp_of hrx) hrange order).mp hrun⟩
  · rintro ⟨⟨rx, hrx⟩, hspans⟩
    exact ⟨rx, hrx, (Rx.match_iff (regexp_of hrx) hrange order).mpr hspans⟩

theorem exists_regexp {α : Type} {f : Rx → Option α} {a : α}
    (h : (regexp env sre flags).toOption.bind f = some a) :
    ∃ rx, regexp env sre flags = .ok rx ∧ f rx = some a := by
  obtain ⟨rx, hrx, hf⟩ := Option.bind_eq_some_iff.mp h
  refine ⟨rx, ?_, hf⟩
  cases hregexp : regexp env sre flags with
  | error e =>
    rw [hregexp] at hrx
    cases hrx
  | ok rx' =>
    rw [hregexp] at hrx
    cases hrx
    rfl

/-! ## A small instance -/

/-- The tables are walked in the order in which the searchers were added. -/
def Order.added : Order := ⟨fun _ _ keys => keys, fun _ _ keys => List.Perm.refl keys⟩

/-- The tables of the ASCII characters; every character is a grapheme. -/
def Env.ascii : Env where
  charSetCi cs := fun c => cs c.toLower || cs c.toUpper
  wordConstituent := fun c => c.isAlphanum || c = '_'
  grapheme := ⟨[.ofAccept, .ofEnd false 0 0, .ofChars (.set fun _ => true) 1, .ofStart 0 (some 2)],
    3, 0, 2, [], [(0, 1)], []⟩
  grapheme_sets := by
    intro st hst g
    simp only [List.mem_cons, List.not_mem_nil, or_false] at hst
    rcases hst with rfl | rfl | rfl | rfl <;> exact nofun
  order := Order.added

/-- A character as an SRE. -/
abbrev Sre.ofChar (c : Char) : Sre := .chars (.char c)

end Regexp

end ChibiScheme
