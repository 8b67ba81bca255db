import Mathlib.Data.List.Induction
import Myframe.Library.Transition

/-! # Simulation with histories

A run of one system is matched by a run of another. What ties them together is a relation between the
steps taken so far, so that it can speak of what has happened as well as of the states reached.
-/
namespace Transition
set_option autoImplicit false

namespace System

universe u v u' v'

variable {σ : Type u} {ℓ : Type v} {τ : Type u'} {κ : Type v'} {S : System σ ℓ} {T : System τ κ}

/-- The simulation rule: each step of `S`, taken where the invariant `I` holds, is answered by some
steps of `T`, or by none. -/
theorem simulates {s : σ} {t : τ} {I : σ → Prop} {ok : σ → ℓ → Prop} (R : List ℓ → List κ → Prop)
    (hs : I s) (keep : ∀ s l, I s → S.enabled s l → ok s l → I (S.next s l)) (start : R [] [])
    (step : ∀ ls l ks, I (S.exec s ls) → S.enabled (S.exec s ls) l → ok (S.exec s ls) l → R ls ks →
      ∃ more, T.Runs (T.exec t ks) more ∧ R (ls ++ [l]) (ks ++ more))
    {ls : List ℓ} (h : S.Runs s ls) (hok : ∀ p ∈ S.steps s ls, ok p.1 p.2) :
    ∃ ks, T.Runs t ks ∧ R ls ks := by
  induction ls using List.reverseRecOn with
  | nil => exact ⟨[], List.forall_mem_nil _, start⟩
  | append_singleton ls l ih =>
    obtain ⟨hBefore, hLast⟩ := S.runs_append.mp h
    rw [S.steps_append, List.forall_mem_append] at hok
    obtain ⟨ks, hRuns, hR⟩ := ih hBefore hok.1
    have hInv : I (S.exec s ls) :=
      S.inv_visited keep hs hBefore hok.1 _ (S.mem_visited_of_exec s ls)
    have hOk : ok (S.exec s ls) l := hok.2 _ (List.mem_singleton.mpr rfl)
    obtain ⟨more, hMore, hR'⟩ := step ls l ks hInv (S.runs_singleton.mp hLast) hOk hR
    exact ⟨ks ++ more, T.runs_append.mpr ⟨hRuns, hMore⟩, hR'⟩

end System
end Transition
