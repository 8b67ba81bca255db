import Myframe.Timer.Place

/-! # What a tick moves

Arithmetic of one tick on the places of the pending nodes: either nothing changes place, or exactly
the nodes of one slot go down, into wheels that are empty at that moment.
-/
namespace Myframe
set_option autoImplicit false

open RadixLevel

/-- `e` lies ahead of the clock `t` by less than half the range, possibly across the wrap. -/
def Ahead (e t : ℕ) : Prop := (t < e ∧ e < t + 2 ^ 31) ∨ e + 2 ^ 31 < t

theorem place_near_iff (e t : ℕ) : place e t = .near (t % 256) ↔ e = t := by
  have hLevel : level blockSize 4 0 e t ≤ 0 ↔ e / blockSize 0 = t / blockSize 0 :=
    level_le_iff blockSize_dvd_succ 4 (Nat.le_refl 0) (by decide)
  rw [place_eq_iff, Place.rank, placeAt, ← Nat.le_zero, hLevel, Place.near.injEq]
  change e / 256 = t / 256 ∧ e % 256 = t % 256 ↔ e = t
  omega

theorem place_succ_of_not_dvd {e t : ℕ} (h : ¬256 ∣ t + 1) : place e (t + 1) = place e t := by
  rw [place, place, level_succ_of_not_dvd blockSize_dvd_succ]
  intro m _ hDvd
  exact h ((dvd_of_le blockSize_dvd_succ (Nat.zero_le m)).trans hDvd)

/-- What the cascade of slot `src` of wheel `j` does to the place of one pending node. -/
structure Cascade (e t ct j : ℕ) (src : Place) : Prop where
  above : j < (place e t).rank
  moved : place e t = src ↔ (place e ct).rank ≤ j
  kept : j < (place e ct).rank → place e ct = place e t

theorem Cascade.ne_src {e t ct j : ℕ} {src : Place} (h : Cascade e t ct j src)
    (hSrc : src.rank = j + 1) : place e ct ≠ src := by
  rintro rfl
  have hKept := h.kept (by omega)
  have hMoved := h.moved.mp hKept.symm
  omega

theorem level_of_behind {e t : ℕ} (h : e + 2 ^ 31 ≤ t) : level blockSize 4 0 e t = 4 := by
  have hLe := @level_le blockSize 4 0 e t
  have hNot : ¬level blockSize 4 0 e t ≤ 3 := by
    rw [level_le_iff blockSize_dvd_succ 4 (Nat.zero_le 3) (by decide)]
    change ¬e / 2 ^ 26 = t / 2 ^ 26
    omega
  omega

theorem cascade_of_lt {e t j : ℕ} (hj : j < 4) (hlt : t < e) (he : e < 2 ^ 32)
    (hDvd : blockSize j ∣ t + 1) (hNot : ¬blockSize (j + 1) ∣ t + 1) :
    Cascade e t (t + 1) j (.far j ((t + 1) / blockSize j % 64)) := by
  have hNotAbove : ∀ m, j < m → m < 4 → ¬blockSize m ∣ t + 1 := fun m hm _ h =>
    hNot ((dvd_of_le blockSize_dvd_succ hm).trans h)
  have hMoved := level_succ_le_iff blockSize_dvd_succ hlt hj hDvd (fun _ => hNot)
  constructor
  · rw [place_rank]
    exact lt_level_of_dvd blockSize_dvd_succ hlt hj hDvd
  · rw [place_rank, hMoved, place_eq_iff, Place.rank, placeAt, Place.far.injEq]
    apply and_congr_right
    intro hLevel
    refine ⟨fun h => ?_, fun h => ⟨rfl, by rw [h]⟩⟩
    have hDiv : e / blockSize j / 64 = (t + 1) / blockSize j / 64 := by
      rw [← div_blockSize_succ, ← div_blockSize_succ]
      rcases Nat.lt_or_ge (j + 1) 4 with hj' | hj'
      · rw [succ_div_of_not_dvd hNot]
        exact (level_le_iff blockSize_dvd_succ 4 (Nat.zero_le _) (by omega)).mp hLevel.le
      · obtain rfl : j = 3 := by omega
        change e / 2 ^ 32 = (t + 1) / 2 ^ 32
        omega
    omega
  · intro h
    rw [place_rank] at h
    rw [place, place, level_succ_of_lt blockSize_dvd_succ hlt hj hDvd hNotAbove h]

theorem cascade_of_behind {e t j : ℕ} (hj : j < 4) (h : e + 2 ^ 31 < t) (ht : t + 1 < 2 ^ 32) :
    Cascade e t (t + 1) j (.far j ((t + 1) / blockSize j % 64)) := by
  have hOld : level blockSize 4 0 e t = 4 := level_of_behind (by omega)
  have hNew : level blockSize 4 0 e (t + 1) = 4 := level_of_behind (by omega)
  have hSame : place e (t + 1) = place e t := by rw [place, place, hOld, hNew]
  constructor
  · rwa [place_rank, hOld]
  · rw [hSame, place_rank, hOld, place, hOld, placeAt, Place.far.injEq]
    refine iff_of_false ?_ (by omega)
    rintro ⟨rfl, hIdx⟩
    change e / 2 ^ 26 % 64 = (t + 1) / 2 ^ 26 % 64 at hIdx
    omega
  · exact fun _ => hSame

theorem cascade {e t j : ℕ} (hj : j < 4) (hAhead : Ahead e t) (he : e < 2 ^ 32)
    (ht : t + 1 < 2 ^ 32) (hDvd : blockSize j ∣ t + 1) (hNot : ¬blockSize (j + 1) ∣ t + 1) :
    Cascade e t (t + 1) j (.far j ((t + 1) / blockSize j % 64)) := by
  rcases hAhead with ⟨hlt, _⟩ | hBehind
  · exact cascade_of_lt hj hlt he hDvd hNot
  · exact cascade_of_behind hj hBehind ht

/-- At the wrap the whole of the highest wheel has passed, and slot 0 of it begins. -/
theorem cascade_wrap {e t : ℕ} (hAhead : Ahead e t) (he : e < 2 ^ 32) (ht : t + 1 = 2 ^ 32) :
    Cascade e t 0 3 (.far 3 0) := by
  have hBehind : e + 2 ^ 31 < t := by
    rcases hAhead with ⟨hlt, _⟩ | hBehind
    · omega
    · exact hBehind
  have hOld : level blockSize 4 0 e t = 4 := level_of_behind (by omega)
  have hTop : level blockSize 4 0 e 0 ≤ 3 ↔ e / 2 ^ 26 = 0 / 2 ^ 26 :=
    level_le_iff blockSize_dvd_succ 4 (Nat.zero_le 3) (by decide)
  constructor
  · rw [place_rank, hOld]
    decide
  · rw [place_rank, hTop, place, hOld, placeAt, Place.far.injEq]
    change 3 = 3 ∧ e / 2 ^ 26 % 64 = 0 ↔ _
    omega
  · intro h
    have hLe := @level_le blockSize 4 0 e 0
    rw [place_rank] at h
    rw [place, place, hOld, show level blockSize 4 0 e 0 = 4 by omega]

end Myframe
