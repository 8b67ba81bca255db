import Mathlib.Order.WellFounded
import Myframe.Library.Transition

/-! # Steps that do not go on for ever

Some steps of a system are its own work and others come from outside. If a rank goes down with every
step of the first kind the system comes to rest when it is left alone.
-/
namespace Transition
set_option autoImplicit false

namespace System

universe u v

variable {σ : Type u} {ℓ : Type v} (S : System σ ℓ) (P : σ → ℓ → Prop)

def AtRest (s : σ) : Prop := ∀ l, S.enabled s l → ¬ P s l

/-- `state` and `label` are a run that does not end and has no steps but work. -/
structure Endless (state : ℕ → σ) (label : ℕ → ℓ) : Prop where
  enabled : ∀ n, S.enabled (state n) (label n)
  work : ∀ n, P (state n) (label n)
  next : ∀ n, state (n + 1) = S.next (state n) (label n)

variable {S P} {α : Type*} [Preorder α] [WellFoundedLT α] {rank : σ → α} {I : σ → Prop}

theorem not_endless (step : ∀ s l, I s → S.enabled s l → P s l → I (S.next s l))
    (lower : ∀ s l, I s → S.enabled s l → P s l → rank (S.next s l) < rank s) {state : ℕ → σ}
    {label : ℕ → ℓ} (hStart : I (state 0)) : ¬ S.Endless P state label := by
  intro h
  have hAll : ∀ n, I (state n) := by
    intro n
    induction n with
    | zero => exact hStart
    | succ n ih =>
      rw [h.next]
      exact step _ _ ih (h.enabled n) (h.work n)
  obtain ⟨n, hn⟩ := WellFounded.not_rel_apply_succ (r := fun a b : α => a < b) fun n => rank (state n)
  refine hn ?_
  rw [h.next]
  exact lower _ _ (hAll n) (h.enabled n) (h.work n)

theorem exists_atRest (step : ∀ s l, I s → S.enabled s l → P s l → I (S.next s l))
    (lower : ∀ s l, I s → S.enabled s l → P s l → rank (S.next s l) < rank s) (s : σ) (hs : I s) :
    ∃ ls, S.Runs s ls ∧ (∀ p ∈ S.steps s ls, P p.1 p.2) ∧ S.AtRest P (S.exec s ls) := by
  induction hRank : rank s using WellFoundedLT.induction generalizing s with
  | ind r ih =>
    subst hRank
    by_cases hRest : S.AtRest P s
    · exact ⟨[], List.forall_mem_nil _, List.forall_mem_nil _, hRest⟩
    · rw [AtRest] at hRest
      push Not at hRest
      obtain ⟨l, hEnabled, hWork⟩ := hRest
      obtain ⟨ls, hRuns, hWorks, hEnd⟩ :=
        ih _ (lower s l hs hEnabled hWork) (S.next s l) (step s l hs hEnabled hWork) rfl
      refine ⟨l :: ls, S.runs_cons.mpr ⟨hEnabled, hRuns⟩, ?_, hEnd⟩
      rw [steps]
      exact List.forall_mem_cons.mpr ⟨hWork, hWorks⟩

end System
end Transition
