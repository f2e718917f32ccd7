import ChibiScheme.Regexp.Kleene

/-!
# Submatches

The rules of a regexp say which two places of a match vector hold the positions of a submatch: they
are numbered in the order of the submatches.
-/

namespace ChibiScheme

open List Option

namespace Regexp

variable {env : Env} {flags : Flags} {sre : Sre}

/-- The rules made so far give each submatch the next two places. -/
def Ruled (b : Builder) : Prop :=
  ∃ n, b.currentIndex = 2 * n ∧ b.matchRules.reverse = (List.range n).map fun k => (2 * k, 2 * k + 1)

theorem makeSubmatchState_ruled {compile : ℕ → Builder → Compiled} {next index : ℕ} {b : Builder}
    {r : ℕ × Builder}
    (hcompile : ∀ next b r, compile next b = .ok r → Ruled b → Ruled r.2) (hb : Ruled b)
    (h : makeSubmatchState compile sre next index b = .ok r) : Ruled r.2 := by
  obtain ⟨r', hbody, h⟩ := ok_of_bind h
  have hruled : Ruled r'.2 := hcompile _ _ _ hbody hb
  cases h
  cases sre.nonGreedySre <;> exact hruled

theorem toRx_ruled (fuel : ℕ) {next : ℕ} {b : Builder} {r : Option ℕ × Builder}
    (h : toRx env fuel sre flags next b = .ok r) (hb : Ruled b) : Ruled r.2 := by
  induction fuel generalizing sre flags next b r with
  | zero => cases h
  | succ fuel ih =>
    cases sre with
    | string s => exact ih h hb
    | look ahead negated body =>
      obtain ⟨rx, -, h⟩ := ok_of_bind h
      cases h
      exact hb
    | seq first rest =>
      obtain ⟨⟨n1, b₁⟩, hfirst, h⟩ := ok_of_bind h
      obtain ⟨⟨n3, b₂⟩, hrest, h⟩ := ok_of_bind h
      cases h
      have hb₁ : Ruled b₁ := ih hfirst hb
      have hb₂ : Ruled b₂ := ih hrest hb₁
      exact hb₂
    | alt first rest =>
      by_cases hset : (Sre.alt first rest).charSetSre = true
      · obtain ⟨cs, hcs, h⟩ := ok_of_bind ((toRx_alt_set hset).symm.trans h)
        cases h
        exact hb
      · rw [Bool.not_eq_true] at hset
        by_cases hfail : rest = .fail
        · subst hfail
          rw [toRx_alt_one hset] at h
          exact ih h hb
        · rw [toRx_alt hset hfail] at h
          obtain ⟨⟨n1, b₁⟩, hfirst, h⟩ := ok_of_bind h
          obtain ⟨⟨n2, b₂⟩, hrest, h⟩ := ok_of_bind h
          cases h
          have hb₁ : Ruled b₁ := ih hfirst hb
          have hb₂ : Ruled b₂ := ih hrest hb₁
          exact hb₂
    | optional greedy body =>
      obtain ⟨r', hbody, h⟩ := ok_of_bind h
      cases h
      have hruled : Ruled r'.2 := ih hbody hb
      exact hruled
    | star greedy body =>
      obtain ⟨r', hbody, h⟩ := ok_of_bind h
      cases h
      have hruled : Ruled r'.2 := ih hbody hb
      exact hruled
    | plus body =>
      obtain ⟨r', hbody, h⟩ := ok_of_bind h
      cases h
      have hruled : Ruled r'.2 := ih hbody hb
      exact hruled
    | exactly n body =>
      obtain ⟨form, -, h⟩ := ok_of_bind h
      exact ih h hb
    | atLeast n body =>
      obtain ⟨form, -, h⟩ := ok_of_bind h
      exact ih h hb
    | repeated greedy n m body =>
      obtain ⟨form, -, h⟩ := ok_of_bind h
      exact ih h hb
    | submatch body =>
      rw [toRx] at h
      split at h
      · exact ih h hb
      obtain ⟨r', hmatch, h⟩ := ok_of_bind h
      cases h
      apply makeSubmatchState_ruled (fun _ _ _ hbody hruled => ih hbody hruled) _ hmatch
      obtain ⟨n, hindex, hrules⟩ := hb
      refine ⟨n + 1, ?_, ?_⟩
      · show b.currentIndex + 2 = _
        omega
      · show ((b.currentIndex, b.currentIndex + 1) :: b.matchRules).reverse = _
        rw [reverse_cons, hrules, hindex, range_succ, map_append]
        rfl
    | named name body =>
      rw [toRx] at h
      split at h
      · exact ih h hb
      · exact ih h hb
    | withFlags change body =>
      have hbody : toRx env fuel body (change.apply flags) next b = .ok r := h
      exact ih hbody hb
    | chars _ =>
      cases h
      exact hb
    | epsilon =>
      cases h
      exact hb
    | assertion _ =>
      cases h
      exact hb
    | nil =>
      cases h
      exact hb
    | fail =>
      cases h
      exact hb

theorem rules_regexp {rx : Rx} (h : regexp env sre flags = .ok rx) :
    ∃ c, rx.rules = (List.range (c + 1)).map fun k => (2 * k, 2 * k + 1) := by
  have hsaves := (regexp_of h).saves
  obtain ⟨⟨start, b⟩, hmatch, h⟩ := ok_of_bind h
  cases h
  have hruled : Ruled b := makeSubmatchState_ruled
    (fun _ _ _ hbody hb => toRx_ruled _ hbody hb) ⟨1, rfl, rfl⟩ hmatch
  obtain ⟨c, hindex, hrules⟩ := hruled
  have hindex' : b.currentIndex = 2 + sre.width flags := hsaves
  obtain ⟨c, rfl⟩ : ∃ c', c = c' + 1 := ⟨c - 1, by omega⟩
  exact ⟨c, hrules⟩

/-- `regexp-match-submatch-start+end` -/
def Rx.submatch (rx : Rx) (m : Matches) (n : ℕ) : Option (ℕ × ℕ) :=
  match rx.rules[n]? with
  | none => none
  | some (k, k') =>
    match m.ref k, m.ref k' with
    | some s, some e => some (s, e)
    | _, _ => none

end Regexp

end ChibiScheme
