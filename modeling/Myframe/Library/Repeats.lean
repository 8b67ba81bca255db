import Mathlib.Data.List.Basic
import Mathlib.Order.Defs.PartialOrder

/-! # Lists with repetitions

One list is another one in which each element may stand several times in a row.
-/
set_option autoImplicit false

variable {α : Type*}

/-- `r` is `l` with each element repeated in its place. -/
inductive Repeats : List α → List α → Prop where
  | nil : Repeats [] []
  | cons (a : α) (n : ℕ) {l r : List α} (rest : Repeats l r) :
      Repeats (a :: l) (List.replicate (n + 1) a ++ r)

namespace Repeats

theorem mem_iff {l r : List α} (h : Repeats l r) {a : α} : a ∈ r ↔ a ∈ l := by
  induction h with
  | nil => exact Iff.rfl
  | cons b n _ ih => simp [ih]

theorem append {l r l' r' : List α} (h : Repeats l r) (h' : Repeats l' r') : Repeats (l ++ l') (r ++ r') := by
  induction h with
  | nil => exact h'
  | cons a n _ ih =>
    rw [List.cons_append, List.append_assoc]
    exact .cons a n ih

theorem pairwise_le_iff [Preorder α] {l r : List α} (h : Repeats l r) :
    r.Pairwise (· ≤ ·) ↔ l.Pairwise (· ≤ ·) := by
  induction h with
  | nil => exact Iff.rfl
  | @cons a n l r hRest ih =>
    have hBlock : (List.replicate (n + 1) a).Pairwise (· ≤ ·) := List.pairwise_replicate.mpr (.inr le_rfl)
    rw [List.pairwise_append, List.pairwise_cons, ih, and_iff_right hBlock, and_comm]
    refine and_congr_left fun _ => ?_
    constructor
    · intro hAll b hb
      exact hAll a List.mem_cons_self b (hRest.mem_iff.mpr hb)
    · intro hAll c hc b hb
      rw [List.eq_of_mem_replicate hc]
      exact hAll b (hRest.mem_iff.mp hb)

end Repeats
