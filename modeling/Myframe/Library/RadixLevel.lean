import Mathlib.Data.Nat.Init
import Mathlib.Algebra.Order.Group.Nat
import Mathlib.Data.Nat.Bitwise

/-! # Levels of a number above a moving clock

`B 0, B 1, ...` are block sizes, each dividing the next. Two numbers agree at level `k` when they
lie in the same block of size `B k`; the level of `e` above `t` is the first at which they agree,
cut off at `n`. A hierarchical wheel keeps an entry due at `e` by its level above the clock `t`,
and the lemmas below say which entries change level when the clock advances by one.
-/
namespace RadixLevel
set_option autoImplicit false

variable (B : ℕ → ℕ)

def level : ℕ → ℕ → ℕ → ℕ → ℕ
  | 0, k, _, _ => k
  | n + 1, k, e, t => if e / B k = t / B k then k else level n (k + 1) e t

variable {B}

theorem agree_of_dvd {b c e t : ℕ} (hDvd : b ∣ c) (h : e / b = t / b) : e / c = t / c := by
  obtain ⟨d, rfl⟩ := hDvd
  rw [← Nat.div_div_eq_div_mul, ← Nat.div_div_eq_div_mul, h]

theorem dvd_of_le (hB : ∀ k, B k ∣ B (k + 1)) {k m : ℕ} (h : k ≤ m) : B k ∣ B m := by
  induction h with
  | refl => exact Nat.dvd_refl _
  | step _ ih => exact ih.trans (hB _)

theorem le_level (n k e t : ℕ) : k ≤ level B n k e t := by
  induction n generalizing k with
  | zero => exact Nat.le_refl k
  | succ n ih =>
    rw [level]
    split
    · exact Nat.le_refl k
    · exact Nat.le_of_succ_le (ih (k + 1))

theorem level_le (n k e t : ℕ) : level B n k e t ≤ k + n := by
  induction n generalizing k with
  | zero => exact Nat.le_refl k
  | succ n ih =>
    rw [level]
    split
    · exact Nat.le_add_right _ _
    · exact Nat.le_trans (ih (k + 1)) (by omega)

/-- The level is at most `m` exactly when the two numbers agree at `m`. -/
theorem level_le_iff (hB : ∀ k, B k ∣ B (k + 1)) (n : ℕ) {k m e t : ℕ} (hkm : k ≤ m)
    (hm : m < k + n) : level B n k e t ≤ m ↔ e / B m = t / B m := by
  induction n generalizing k with
  | zero => omega
  | succ n ih =>
    rw [level]
    split
    · rename_i hAgree
      exact iff_of_true hkm (agree_of_dvd (dvd_of_le hB hkm) hAgree)
    · rename_i hDiffer
      rcases Nat.eq_or_lt_of_le hkm with rfl | hlt
      · exact iff_of_false (by have := @le_level B n (k + 1) e t; omega) hDiffer
      · exact ih hlt (by omega)

theorem succ_div_of_not_dvd {b t : ℕ} (h : ¬b ∣ t + 1) : (t + 1) / b = t / b := by
  rw [Nat.succ_div, if_neg h, Nat.add_zero]

/-- When a block ends, nothing still to come lies in it. -/
theorem not_agree_of_dvd {b e t : ℕ} (hlt : t < e) (hDvd : b ∣ t + 1) : e / b ≠ t / b := by
  have hSucc : (t + 1) / b = t / b + 1 := by rw [Nat.succ_div, if_pos hDvd]
  have hLe : (t + 1) / b ≤ e / b := Nat.div_le_div_right hlt
  omega

/-- Levels change only where a block of the new level begins at the new time. -/
theorem level_succ_of_not_dvd (hB : ∀ k, B k ∣ B (k + 1)) (n : ℕ) {e t : ℕ}
    (h : ∀ m < n, ¬B m ∣ t + 1) : level B n 0 e (t + 1) = level B n 0 e t := by
  apply Nat.le_antisymm
  · rcases Nat.lt_or_ge (level B n 0 e t) n with hlt | hge
    · rw [level_le_iff hB n (Nat.zero_le _) (by omega), succ_div_of_not_dvd (h _ hlt)]
      exact (level_le_iff hB n (Nat.zero_le _) (by omega)).mp (Nat.le_refl _)
    · exact Nat.le_trans (level_le n 0 e (t + 1)) (by omega)
  · rcases Nat.lt_or_ge (level B n 0 e (t + 1)) n with hlt | hge
    · rw [level_le_iff hB n (Nat.zero_le _) (by omega), ← succ_div_of_not_dvd (h _ hlt)]
      exact (level_le_iff hB n (Nat.zero_le _) (by omega)).mp (Nat.le_refl _)
    · exact Nat.le_trans (level_le n 0 e t) (by omega)

section Tick

variable (hB : ∀ k, B k ∣ B (k + 1)) {n j e t : ℕ} (hlt : t < e) (hjn : j < n)
  (hDvd : B j ∣ t + 1)
include hB hlt hjn hDvd

theorem lt_level_of_dvd : j < level B n 0 e t := by
  have h := (@level_le_iff B hB n 0 j e t (Nat.zero_le j) (by omega)).not.mpr
    (not_agree_of_dvd hlt hDvd)
  omega

/-- At a tick at which blocks up to `B j` begin and no larger one does, an entry moves down exactly
when it was at level `j + 1` and shares its block of size `B j` with the new time. -/
theorem level_succ_le_iff (hNot : j + 1 < n → ¬B (j + 1) ∣ t + 1) :
    level B n 0 e (t + 1) ≤ j ↔
      level B n 0 e t = j + 1 ∧ e / B j = (t + 1) / B j := by
  have hAbove := lt_level_of_dvd hB hlt hjn hDvd
  rw [level_le_iff hB n (Nat.zero_le j) (by omega)]
  constructor
  · intro hAgree
    refine ⟨?_, hAgree⟩
    rcases Nat.lt_or_ge (j + 1) n with hj | hj
    · have hUp : e / B (j + 1) = t / B (j + 1) := by
        rw [← succ_div_of_not_dvd (hNot hj)]
        exact agree_of_dvd (hB j) hAgree
      have hLe := (level_le_iff hB n (Nat.zero_le _) (by omega)).mpr hUp
      omega
    · have hLe := @level_le B n 0 e t
      omega
  · exact fun h => h.2

theorem level_succ_of_lt (hNot : ∀ m, j < m → m < n → ¬B m ∣ t + 1)
    (h : j < level B n 0 e (t + 1)) : level B n 0 e (t + 1) = level B n 0 e t := by
  have hAbove := lt_level_of_dvd hB hlt hjn hDvd
  apply Nat.le_antisymm
  · rcases Nat.lt_or_ge (level B n 0 e t) n with hl | hl
    · rw [level_le_iff hB n (Nat.zero_le _) (by omega), succ_div_of_not_dvd (hNot _ hAbove hl)]
      exact (level_le_iff hB n (Nat.zero_le _) (by omega)).mp (Nat.le_refl _)
    · exact Nat.le_trans (level_le n 0 e (t + 1)) (by omega)
  · rcases Nat.lt_or_ge (level B n 0 e (t + 1)) n with hl | hl
    · rw [level_le_iff hB n (Nat.zero_le _) (by omega), ← succ_div_of_not_dvd (hNot _ h hl)]
      exact (level_le_iff hB n (Nat.zero_le _) (by omega)).mp (Nat.le_refl _)
    · exact Nat.le_trans (level_le n 0 e t) (by omega)

end Tick

end RadixLevel
