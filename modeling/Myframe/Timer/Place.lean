import Myframe.Timer.Wheel
import Myframe.Library.RadixLevel
import Mathlib.Tactic.IntervalCases
import Mathlib.Tactic.Ring

/-! # Where a node lies

The slot of a node is a function of its expiry and the manager's time: the level of the one above
the other, and within the wheel of that level the bits of the expiry that belong to it.
-/
namespace Myframe
set_option autoImplicit false

open RadixLevel

def blockSize (k : ℕ) : ℕ := 2 ^ (8 + 6 * k)

theorem blockSize_succ (k : ℕ) : blockSize (k + 1) = blockSize k * 64 := by
  rw [blockSize, blockSize, show 8 + 6 * (k + 1) = 8 + 6 * k + 6 by ring, Nat.pow_add]

theorem blockSize_dvd_succ (k : ℕ) : blockSize k ∣ blockSize (k + 1) :=
  ⟨64, blockSize_succ k⟩

theorem blockSize_pos (k : ℕ) : 0 < blockSize k := Nat.two_pow_pos _

theorem div_blockSize_succ (x k : ℕ) : x / blockSize (k + 1) = x / blockSize k / 64 := by
  rw [blockSize_succ, Nat.div_div_eq_div_mul]

inductive Place where
  | near (idx : ℕ)
  | far (i idx : ℕ)
  deriving DecidableEq, Repr

def placeAt (e : ℕ) : ℕ → Place
  | 0 => .near (e % 256)
  | i + 1 => .far i (e / blockSize i % 64)

def place (e t : ℕ) : Place := placeAt e (level blockSize 4 0 e t)

/-- The level a place belongs to: 0 for `tv1_`, `i + 1` for `tv_[i]`. -/
def Place.rank : Place → ℕ
  | .near _ => 0
  | .far i _ => i + 1

@[simp] theorem placeAt_rank (e k : ℕ) : (placeAt e k).rank = k := by cases k <;> rfl

@[simp] theorem place_rank (e t : ℕ) : (place e t).rank = level blockSize 4 0 e t := placeAt_rank _ _

def Place.InRange : Place → Prop
  | .near idx => idx < 256
  | .far i idx => i < 4 ∧ idx < 64

theorem placeAt_inRange (e : ℕ) {k : ℕ} (hk : k ≤ 4) : (placeAt e k).InRange := by
  cases k with
  | zero => exact Nat.mod_lt _ (by decide)
  | succ i => exact ⟨hk, Nat.mod_lt _ (by decide)⟩

theorem place_eq_iff (e t : ℕ) (p : Place) :
    place e t = p ↔ level blockSize 4 0 e t = p.rank ∧ placeAt e p.rank = p := by
  constructor
  · rintro rfl
    rw [place_rank]
    exact ⟨rfl, rfl⟩
  · rintro ⟨hLevel, hPlace⟩
    rw [place, hLevel, hPlace]

theorem or_mask_div (x k : ℕ) : (x ||| (2 ^ k - 1)) / 2 ^ k = x / 2 ^ k := by
  apply Nat.eq_of_testBit_eq
  intro i
  simp [Nat.testBit_div_two_pow]

theorem or_mask_eq_iff (x y k : ℕ) :
    x ||| (2 ^ k - 1) = y ||| (2 ^ k - 1) ↔ x / 2 ^ k = y / 2 ^ k := by
  constructor
  · intro h
    rw [← or_mask_div x, h, or_mask_div]
  · intro h
    apply Nat.eq_of_testBit_eq
    intro i
    rw [Nat.testBit_or, Nat.testBit_or, Nat.testBit_two_pow_sub_one]
    by_cases hi : i < k
    · simp [hi]
    · obtain ⟨d, rfl⟩ := Nat.exists_eq_add_of_le' (Nat.le_of_not_lt hi)
      rw [← Nat.testBit_div_two_pow, ← Nat.testBit_div_two_pow, h]

theorem or_eq_or_iff (x y mask : UInt32) (k : ℕ) (hMask : mask.toNat = 2 ^ k - 1) :
    x ||| mask = y ||| mask ↔ x.toNat / 2 ^ k = y.toNat / 2 ^ k := by
  rw [← UInt32.toNat_inj, UInt32.toNat_or, UInt32.toNat_or, hMask, or_mask_eq_iff]

theorem tvrMask_and (x : UInt32) : (x &&& tvrMask).toNat = x.toNat % 256 := by
  rw [UInt32.toNat_and, show tvrMask.toNat = 2 ^ 8 - 1 from rfl, Nat.and_two_pow_sub_one_eq_mod]

theorem tvnMask_and (x : UInt32) : (x &&& tvnMask).toNat = x.toNat % 64 := by
  rw [UInt32.toNat_and, show tvnMask.toNat = 2 ^ 6 - 1 from rfl, Nat.and_two_pow_sub_one_eq_mod]

theorem tvnMask_shift (x : UInt32) (i : ℕ) (hi : i < 4) :
    ((x >>> (tvrBits + UInt32.ofNat i * tvnBits)) &&& tvnMask).toNat =
      x.toNat / blockSize i % 64 := by
  have hBits : (tvrBits + UInt32.ofNat i * tvnBits).toNat % 32 = 8 + 6 * i := by
    interval_cases i <;> rfl
  rw [tvnMask_and, UInt32.toNat_shiftRight, hBits, Nat.shiftRight_eq_div_pow, blockSize]

theorem searchLevel_eq (e t : UInt32) (n i : ℕ) (hi : i + n = 3) (mask : UInt32)
    (hMask : 0 < n → mask.toNat = blockSize (i + 1)) :
    TimerManager.searchLevel e t n i mask + 1 = level blockSize n (i + 1) e.toNat t.toNat := by
  induction n generalizing i mask with
  | zero => rfl
  | succ n ih =>
    have hMask := hMask n.succ_pos
    have hSub : (mask - 1).toNat = 2 ^ (8 + 6 * (i + 1)) - 1 := by
      rw [UInt32.toNat_sub_of_le, hMask]
      · rfl
      · rw [UInt32.le_iff_toNat_le, hMask]
        exact blockSize_pos _
    have hTest : e ||| (mask - 1) = t ||| (mask - 1) ↔
        e.toNat / blockSize (i + 1) = t.toNat / blockSize (i + 1) := or_eq_or_iff e t _ _ hSub
    by_cases hAgree : e.toNat / blockSize (i + 1) = t.toNat / blockSize (i + 1)
    · rw [TimerManager.searchLevel, level, if_pos (hTest.mpr hAgree), if_pos hAgree]
    · rw [TimerManager.searchLevel, level, if_neg (hTest.not.mpr hAgree), if_neg hAgree]
      apply ih (i + 1) (by omega)
      intro hn
      have hi : i < 2 := by omega
      rw [UInt32.toNat_shiftLeft, hMask]
      interval_cases i <;> rfl

namespace TimerManager

def slot (m : TimerManager) : Place → List Timer
  | .near idx => m.tv1 idx
  | .far i idx => m.tv i idx

def setSlot (m : TimerManager) : Place → List Timer → TimerManager
  | .near idx, l => m.setTv1 idx l
  | .far i idx, l => m.setTv i idx l

@[simp] theorem setSlot_slot (m : TimerManager) (p q : Place) (l : List Timer) :
    (m.setSlot p l).slot q = if q = p then l else m.slot q := by
  cases p with
  | near idx =>
    cases q with
    | near j => by_cases h : j = idx <;> simp [setSlot, setTv1, slot, h]
    | far k j => simp [setSlot, setTv1, slot]
  | far i idx =>
    cases q with
    | near j => simp [setSlot, setTv, slot]
    | far k j =>
      obtain rfl | hNe := eq_or_ne k i
      · by_cases hj : j = idx <;> simp [setSlot, setTv, slot, hj]
      · simp [setSlot, setTv, slot, hNe]

@[simp] theorem setSlot_time (m : TimerManager) (p : Place) (l : List Timer) :
    (m.setSlot p l).time = m.time := by cases p <;> rfl

@[simp] theorem setSlot_timeoutList (m : TimerManager) (p : Place) (l : List Timer) :
    (m.setSlot p l).timeoutList = m.timeoutList := by cases p <;> rfl

@[simp] theorem slot_with_time (m : TimerManager) (t : UInt32) (p : Place) :
    ({ m with time := t } : TimerManager).slot p = m.slot p := by cases p <;> rfl

/-- The list that `_AddTimerNode` chooses. -/
def timerList (time curTime : UInt32) : Place :=
  if time ||| tvrMask = curTime ||| tvrMask then .near (time &&& tvrMask).toNat
  else
    let i := searchLevel time curTime 3 0 (tvrSize <<< tvnBits)
    .far i ((time >>> (tvrBits + UInt32.ofNat i * tvnBits)) &&& tvnMask).toNat

theorem addTimerNode_timerList (m : TimerManager) (node : Timer) :
    m.addTimerNode node =
      m.setSlot (timerList node.expire m.time) (m.slot (timerList node.expire m.time) ++ [node]) := by
  rw [addTimerNode, timerList]
  split
  · rfl
  · rfl

theorem searchLevel_le (time curTime : UInt32) : searchLevel time curTime 3 0 (tvrSize <<< tvnBits) ≤ 3 := by
  have hSearch := searchLevel_eq time curTime 3 0 rfl (tvrSize <<< tvnBits) (fun _ => rfl)
  have hLe := @level_le blockSize 3 (0 + 1) time.toNat curTime.toNat
  omega

theorem timerList_eq (time curTime : UInt32) : timerList time curTime = place time.toNat curTime.toNat := by
  have hTest : time ||| tvrMask = curTime ||| tvrMask ↔
      time.toNat / blockSize 0 = curTime.toNat / blockSize 0 := or_eq_or_iff _ _ _ 8 rfl
  by_cases hNear : time.toNat / blockSize 0 = curTime.toNat / blockSize 0
  · rw [timerList, if_pos (hTest.mpr hNear), place, level, if_pos hNear, placeAt, tvrMask_and]
  · have hSearch := searchLevel_eq time curTime 3 0 rfl (tvrSize <<< tvnBits) (fun _ => rfl)
    have hLe := searchLevel_le time curTime
    rw [timerList, if_neg (hTest.not.mpr hNear), place, level, if_neg hNear, ← hSearch, placeAt]
    simp only [tvnMask_shift _ _ (Nat.lt_succ_of_le hLe)]

theorem timerList_inRange (time curTime : UInt32) : (timerList time curTime).InRange := by
  rw [timerList_eq]
  exact placeAt_inRange _ (level_le ..)

/-- The place of a node under the manager's present time. -/
def placeOf (m : TimerManager) (node : Timer) : Place := place node.expire.toNat m.time.toNat

/-- `_AddTimerNode` puts the node at the end of the list at its place, and does nothing else. -/
theorem addTimerNode_eq (m : TimerManager) (node : Timer) :
    m.addTimerNode node = m.setSlot (m.placeOf node) (m.slot (m.placeOf node) ++ [node]) := by
  rw [addTimerNode_timerList, timerList_eq]
  rfl

end TimerManager
end Myframe
