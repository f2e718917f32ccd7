import Mathlib.Data.List.GetD
import Mathlib.Data.List.Infix

/-!
# Stateful computations that may have no result

`StateT σ Option` runs a computation from a state to a result and a new state,
or to nothing: a step that is undefined, or a loop that has not ended.
`Returns program s post` is total correctness: from `s` the program does return,
and what it returns, together with the state it leaves, satisfies `post`.
-/

namespace Stateful

universe u

variable {σ α β : Type u} {s : σ}

/-- From state `s` the program returns, with a result and a state in `post`. -/
def Returns (program : StateT σ Option α) (s : σ) (post : α → σ → Prop) : Prop :=
  ∃ result s', program s = some (result, s') ∧ post result s'

variable {result : α} {post : α → σ → Prop}

theorem Returns.pure (hpost : post result s) : Returns (pure result) s post :=
  ⟨result, s, rfl, hpost⟩

variable {first : StateT σ Option α} {second : α → StateT σ Option β}

theorem Returns.bind {middle : α → σ → Prop} {post : β → σ → Prop} (hfirst : Returns first s middle)
    (hsecond : ∀ result s', middle result s' → Returns (second result) s' post) :
    Returns (first >>= second) s post := by
  obtain ⟨result, s', hrun, hmiddle⟩ := hfirst
  obtain ⟨final, s'', hrun', hpost⟩ := hsecond result s' hmiddle
  refine ⟨final, s'', ?_, hpost⟩
  show (first s).bind _ = _
  rw [hrun]
  exact hrun'

theorem Returns.mono {program : StateT σ Option α} {post' : α → σ → Prop}
    (hreturns : Returns program s post) (himp : ∀ result s', post result s' → post' result s') :
    Returns program s post' := by
  obtain ⟨result, s', hrun, hpost⟩ := hreturns
  exact ⟨result, s', hrun, himp result s' hpost⟩

variable {s' : σ}

theorem Returns.of_run {program : StateT σ Option α} (hrun : program s = some (result, s'))
    (hpost : post result s') :
    Returns program s post :=
  ⟨result, s', hrun, hpost⟩

theorem bind_run (hrun : first s = some (result, s')) :
    (first >>= second) s = second result s' := by
  show (first s).bind _ = _
  rw [hrun]
  rfl

theorem bind_none (hnone : first s = none) : (first >>= second) s = none := by
  show (first s).bind _ = _
  rw [hnone]
  rfl

theorem Returns.of_bind_run {post : β → σ → Prop} (hrun : first s = some (result, s'))
    (hreturns : Returns (second result) s' post) : Returns (first >>= second) s post := by
  obtain ⟨final, s'', hrun', hpost⟩ := hreturns
  exact ⟨final, s'', (bind_run hrun).trans hrun', hpost⟩

end Stateful
