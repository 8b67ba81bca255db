import Myframe.Timer.Tick
import Myframe.Library.DelayQueue

/-! # The wheel refines a plain queue of timers

The invariant says that every slot holds, in the order of the `Timeout` calls, exactly the pending
nodes whose place it is. It survives every tick, wrap-around included, so the manager hands over
what the plain queue hands over.
-/
namespace Myframe
namespace TimerManager
set_option autoImplicit false

open DelayQueue

/-- `nodes` are the timers still to fire, oldest call first. -/
structure Holds (nodes : List Timer) (m : TimerManager) : Prop where
  slot : ∀ p, m.slot p = nodes.filter (fun n => m.placeOf n = p)
  ahead : ∀ n ∈ nodes, Ahead n.expire.toNat m.time.toNat

theorem Holds.initial (t : UInt32) : Holds [] (initial t) where
  slot p := by cases p <;> rfl
  ahead := by simp

@[simp] theorem placeOf_setSlot (m : TimerManager) (p : Place) (l : List Timer) (n : Timer) :
    (m.setSlot p l).placeOf n = m.placeOf n := by rw [placeOf, setSlot_time, placeOf]

@[simp] theorem setTv_eq (m : TimerManager) (i idx : ℕ) (l : List Timer) :
    m.setTv i idx l = m.setSlot (.far i idx) l := rfl

/-- A walk whose nodes all belong elsewhere empties its list and appends them, in order, to the
lists they belong to. -/
theorem moveList_eq (i idx : ℕ) (nodes : List Timer) (m : TimerManager) (fuel : ℕ)
    (hSlot : m.tv i idx = nodes) (hFuel : nodes.length < fuel)
    (hNe : ∀ n ∈ nodes, m.placeOf n ≠ .far i idx) :
    ∃ m', moveList i idx fuel m = some m' ∧ m'.time = m.time ∧ m'.timeoutList = m.timeoutList ∧
      ∀ p, m'.slot p =
        if p = .far i idx then [] else m.slot p ++ nodes.filter (fun n => m.placeOf n = p) := by
  induction nodes generalizing m fuel with
  | nil =>
    obtain ⟨fuel, rfl⟩ := Nat.exists_eq_succ_of_ne_zero (Nat.ne_of_gt hFuel)
    refine ⟨m, by rw [moveList, hSlot], rfl, rfl, fun p => ?_⟩
    split
    · rename_i hp
      rw [hp]
      exact hSlot
    · simp
  | cons node rest ih =>
    obtain ⟨fuel, rfl⟩ := Nat.exists_eq_succ_of_ne_zero (Nat.ne_of_gt (Nat.zero_lt_of_lt hFuel))
    rw [List.length_cons] at hFuel
    have hNode := hNe node List.mem_cons_self
    let m₁ := (m.setTv i idx rest).addTimerNode node
    have hAdd : m₁ = (m.setSlot (.far i idx) rest).setSlot (m.placeOf node)
        (m.slot (m.placeOf node) ++ [node]) := by
      simp only [m₁, addTimerNode_eq, setTv_eq, placeOf_setSlot, setSlot_slot, if_neg hNode]
    have hTime : m₁.time = m.time := by simp [hAdd]
    have hPlace : ∀ n, m₁.placeOf n = m.placeOf n := fun n => by simp [hAdd]
    have hSlot₁ : ∀ p, m₁.slot p = if p = .far i idx then rest
        else m.slot p ++ [node].filter (fun n => m.placeOf n = p) := by
      intro p
      by_cases hp : p = m.placeOf node
      · subst hp
        simp [hAdd, hNode]
      · have hp' : ¬m.placeOf node = p := fun h => hp h.symm
        simp [hAdd, hp, hp']
    by_cases hRest : rest = []
    · refine ⟨m₁, ?_, hTime, by simp [hAdd], fun p => ?_⟩
      · rw [moveList, hSlot]
        simp [hRest, m₁]
      · rw [hSlot₁, hRest]
    · obtain ⟨m₂, hMove, hTime₂, hList₂, hSlot₂⟩ := ih m₁ fuel
        (by have h := hSlot₁ (.far i idx); rwa [if_pos rfl] at h) (by omega)
        (fun n hn => by rw [hPlace]; exact hNe n (List.mem_cons_of_mem _ hn))
      refine ⟨m₂, ?_, hTime₂.trans hTime, by rw [hList₂]; simp [hAdd], fun p => ?_⟩
      · rw [moveList, hSlot]
        simpa [hRest, m₁] using hMove
      · rw [hSlot₂, hSlot₁]
        split
        · rfl
        · simp only [hPlace]
          rw [List.append_assoc, ← List.filter_append, List.singleton_append]

theorem dispath_empty {m : TimerManager} {idx : ℕ} (h : m.tv1 idx = []) : m.dispath idx = m := by
  have hUpdate : Function.update m.tv1 idx [] = m.tv1 := by rw [← h, Function.update_eq_self]
  simp [dispath, setTv1, h, hUpdate]

/-- `_Dispath` empties the list it walks, so `_Execute` is one `_Dispath`. -/
theorem execute_eq (m : TimerManager) {fuel : ℕ} (hFuel : 2 ≤ fuel) :
    m.execute fuel = some (m.dispath (m.time.toNat % 256)) := by
  obtain ⟨fuel, rfl⟩ := Nat.exists_eq_add_of_le' hFuel
  rw [execute, tvrMask_and, executeLoop]
  split
  · rename_i h
    rw [dispath_empty (List.isEmpty_iff.mp h)]
  · rw [executeLoop]
    simp [dispath, setTv1]

theorem and_mask_eq_zero (ct : UInt32) {i : ℕ} (hi : i < 4) :
    ct &&& UInt32.ofNat (blockSize i - 1) = 0 ↔ blockSize i ∣ ct.toNat := by
  have hMask : (UInt32.ofNat (blockSize i - 1)).toNat = 2 ^ (8 + 6 * i) - 1 := by
    interval_cases i <;> rfl
  rw [← UInt32.toNat_inj, UInt32.toNat_and, hMask, Nat.and_two_pow_sub_one_eq_mod, Nat.dvd_iff_mod_eq_zero]
  rfl

theorem blockSize_shiftLeft (i : ℕ) : blockSize i <<< 6 = blockSize (i + 1) := by
  rw [Nat.shiftLeft_eq, blockSize_succ]

/-- Slot 0 is due only where the next larger block begins too. -/
theorem slot_eq_zero {x i : ℕ} (hDvd : blockSize i ∣ x) : x / blockSize i % 64 = 0 ↔ blockSize (i + 1) ∣ x := by
  rw [← Nat.dvd_iff_mod_eq_zero, blockSize_succ, Nat.dvd_div_iff_mul_dvd hDvd]

theorem shiftRight_tvrBits (ct : UInt32) : (ct >>> tvrBits).toNat = ct.toNat / blockSize 0 := by
  rw [UInt32.toNat_shiftRight, Nat.shiftRight_eq_div_pow]
  rfl

theorem shiftLoop_time (ct time : UInt32) {i : ℕ} (hTime : time.toNat = ct.toNat / blockSize i) :
    (time >>> tvnBits).toNat = ct.toNat / blockSize (i + 1) := by
  rw [UInt32.toNat_shiftRight, hTime, div_blockSize_succ, Nat.shiftRight_eq_div_pow]
  rfl

/-- The locals of `_Shift` when the condition of its loop is evaluated. -/
structure ShiftHead where
  mask : ℕ
  time : UInt32
  i : ℕ
  deriving DecidableEq, Repr

/-- The turns of `shiftLoop`, and the arguments of the `_MoveList` before its `break`; without them it has
left through its condition. -/
def shiftHeads (ct : UInt32) : ℕ → ℕ → UInt32 → ℕ → Option (List ShiftHead × Option (ℕ × ℕ))
  | 0, _, _, _ => none
  | fuel + 1, mask, time, i =>
    if ct &&& UInt32.ofNat (mask - 1) = 0 then
      let idx := (time &&& tvnMask).toNat
      if idx ≠ 0 then some ([⟨mask, time, i⟩], some (i, idx))
      else (shiftHeads ct fuel (mask <<< 6) (time >>> tvnBits) (i + 1)).map fun r => (⟨mask, time, i⟩ :: r.1, r.2)
    else some ([⟨mask, time, i⟩], none)

/-- The loop does nothing but the call of `_MoveList` before its `break`. -/
theorem shiftLoop_heads (ct : UInt32) (fuel mask : ℕ) (time : UInt32) (i : ℕ) (m : TimerManager) :
    shiftLoop ct fuel mask time i m =
      (shiftHeads ct fuel mask time i).bind fun r =>
        r.2.elim (some m) fun call => moveList call.1 call.2 (fuel - r.1.length) m := by
  induction fuel generalizing mask time i with
  | zero => rfl
  | succ fuel ih =>
    rw [shiftLoop, shiftHeads]
    split
    · dsimp only
      split
      · rfl
      · rw [ih, Option.bind_map]
        congr 1
        funext r
        rw [Function.comp, List.length_cons, Nat.add_sub_add_right]
    · rfl

theorem shiftHeads_eq (ct time : UInt32) (i fuel : ℕ) (hi : i < 4) (hTime : time.toNat = ct.toNat / blockSize i) :
    shiftHeads ct (fuel + 1) (blockSize i) time i =
      if ¬blockSize i ∣ ct.toNat then some ([⟨blockSize i, time, i⟩], none)
      else if ¬blockSize (i + 1) ∣ ct.toNat then
        some ([⟨blockSize i, time, i⟩], some (i, ct.toNat / blockSize i % 64))
      else (shiftHeads ct fuel (blockSize (i + 1)) (time >>> tvnBits) (i + 1)).map fun r =>
        (⟨blockSize i, time, i⟩ :: r.1, r.2) := by
  have hIdx : (time &&& tvnMask).toNat = ct.toNat / blockSize i % 64 := by
    rw [tvnMask_and, hTime]
  rw [shiftHeads]
  simp only [and_mask_eq_zero ct hi, blockSize_shiftLeft, hIdx]
  by_cases hDvd : blockSize i ∣ ct.toNat
  · simp only [if_pos hDvd, if_neg (not_not.mpr hDvd), ne_eq, slot_eq_zero hDvd]
  · rw [if_neg hDvd, if_pos hDvd]

/-- The loop climbs to the wheel of the largest block that begins now. -/
theorem shiftHeads_cascade (ct time : UInt32) (i j fuel : ℕ) (hij : i ≤ j) (hj : j < 4)
    (hTime : time.toNat = ct.toNat / blockSize i) (hDvd : blockSize j ∣ ct.toNat)
    (hNot : ¬blockSize (j + 1) ∣ ct.toNat) (hFuel : j < fuel + i) :
    ∃ heads, shiftHeads ct fuel (blockSize i) time i = some (heads, some (j, ct.toNat / blockSize j % 64)) ∧
      heads.length + i = j + 1 ∧ ∀ x ∈ heads, x.i ≤ j ∧ x.mask = blockSize x.i := by
  induction hd : j - i generalizing i time fuel with
  | zero =>
    obtain rfl : i = j := by omega
    obtain ⟨fuel, rfl⟩ := Nat.exists_eq_succ_of_ne_zero (by omega : fuel ≠ 0)
    rw [shiftHeads_eq ct time i fuel hj hTime, if_neg (not_not.mpr hDvd), if_pos hNot]
    exact ⟨_, rfl, Nat.add_comm .., List.forall_mem_singleton.mpr ⟨le_rfl, rfl⟩⟩
  | succ d ih =>
    obtain ⟨fuel, rfl⟩ := Nat.exists_eq_succ_of_ne_zero (by omega : fuel ≠ 0)
    have hLow : blockSize i ∣ ct.toNat :=
      (RadixLevel.dvd_of_le blockSize_dvd_succ hij).trans hDvd
    have hUp : blockSize (i + 1) ∣ ct.toNat :=
      (RadixLevel.dvd_of_le blockSize_dvd_succ (by omega : i + 1 ≤ j)).trans hDvd
    obtain ⟨heads, hRest, hLength, hHeads⟩ :=
      ih (time >>> tvnBits) (i + 1) fuel (by omega) (shiftLoop_time ct time hTime) (by omega) (by omega)
    rw [shiftHeads_eq ct time i fuel (by omega) hTime, if_neg (not_not.mpr hLow), if_neg (not_not.mpr hUp), hRest]
    have hTurns : (⟨blockSize i, time, i⟩ :: heads).length + i = j + 1 := by
      rw [List.length_cons]
      omega
    exact ⟨_, rfl, hTurns, List.forall_mem_cons.mpr ⟨⟨hij, rfl⟩, hHeads⟩⟩

/-- The loop of `_Shift` stops in the wheel of the largest block that begins now. -/
theorem shiftLoop_cascade (ct time : UInt32) (i j fuel : ℕ) (m : TimerManager) (hij : i ≤ j)
    (hj : j < 4) (hTime : time.toNat = ct.toNat / blockSize i) (hDvd : blockSize j ∣ ct.toNat)
    (hNot : ¬blockSize (j + 1) ∣ ct.toNat) (hFuel : j < fuel + i) :
    shiftLoop ct fuel (blockSize i) time i m =
      moveList j (ct.toNat / blockSize j % 64) (fuel + i - j - 1) m := by
  obtain ⟨heads, hRun, hLength, -⟩ := shiftHeads_cascade ct time i j fuel hij hj hTime hDvd hNot hFuel
  have hLeft : fuel - heads.length = fuel + i - j - 1 := by omega
  rw [shiftLoop_heads, hRun, ← hLeft]
  rfl

/-- The old list at a place, followed by the nodes that move there, is in the order of the calls:
one of the two is empty. -/
theorem filter_place_of_cascade {nodes : List Timer} {t ct j : ℕ} {src p : Place}
    (hCascade : ∀ n ∈ nodes, Cascade n.expire.toNat t ct j src) (hp : p ≠ src) :
    nodes.filter (fun n => place n.expire.toNat t = p) ++
        nodes.filter (fun n => decide (place n.expire.toNat ct = p) &&
          decide (place n.expire.toNat t = src)) =
      nodes.filter (fun n => place n.expire.toNat ct = p) := by
  rcases Nat.lt_or_ge j p.rank with hHigh | hLow
  · -- the wheels above the cascading one keep their lists
    have hNone : nodes.filter (fun n => decide (place n.expire.toNat ct = p) &&
        decide (place n.expire.toNat t = src)) = [] := by
      rw [List.filter_eq_nil_iff]
      intro n hn hBoth
      simp only [Bool.and_eq_true, decide_eq_true_eq] at hBoth
      have hMoved := (hCascade n hn).moved.mp hBoth.2
      rw [hBoth.1] at hMoved
      omega
    rw [hNone, List.append_nil]
    apply List.filter_congr
    intro n hn
    rw [decide_eq_decide]
    constructor
    · intro hPlace
      have hStays : ¬(place n.expire.toNat ct).rank ≤ j :=
        (hCascade n hn).moved.not.mp (fun hSrc => hp (hPlace.symm.trans hSrc))
      exact ((hCascade n hn).kept (by omega)).trans hPlace
    · rintro rfl
      exact ((hCascade n hn).kept hHigh).symm
  · -- the wheels below it are empty, so the moved nodes keep their order
    have hNone : nodes.filter (fun n => decide (place n.expire.toNat t = p)) = [] := by
      rw [List.filter_eq_nil_iff]
      intro n hn hPlace
      have hAbove := (hCascade n hn).above
      rw [show place n.expire.toNat t = p by simpa using hPlace] at hAbove
      omega
    rw [hNone, List.nil_append]
    apply List.filter_congr
    intro n hn
    rw [Bool.and_eq_left_iff_imp, decide_eq_true_eq, decide_eq_true_eq]
    rintro rfl
    exact (hCascade n hn).moved.mpr hLow

/-- Moving the nodes of a slot that cascades leaves every node at its place under the new time. -/
theorem Holds.cascade {nodes : List Timer} {m : TimerManager} (h : Holds nodes m) {ct : UInt32}
    {j idx fuel : ℕ} (hCascade : ∀ n ∈ nodes,
      Cascade n.expire.toNat m.time.toNat ct.toNat j (.far j idx)) (hFuel : nodes.length < fuel) :
    ∃ m', moveList j idx fuel { m with time := ct } = some m' ∧ m'.time = ct ∧
      m'.timeoutList = m.timeoutList ∧
      ∀ p, m'.slot p = nodes.filter (fun n => place n.expire.toNat ct.toNat = p) := by
  have hSource : m.slot (.far j idx) =
      nodes.filter (fun n => place n.expire.toNat m.time.toNat = .far j idx) := h.slot _
  have hMem : ∀ n ∈ m.slot (.far j idx), n ∈ nodes := by
    rw [hSource]
    exact fun n hn => List.mem_of_mem_filter hn
  obtain ⟨m', hMove, hTime, hList, hSlot⟩ := moveList_eq j idx (m.slot (.far j idx))
    { m with time := ct } fuel rfl
    (Nat.lt_of_le_of_lt (by rw [hSource]; exact List.length_filter_le _ _) hFuel)
    (fun n hn => (hCascade n (hMem n hn)).ne_src rfl)
  refine ⟨m', hMove, hTime, hList, fun p => ?_⟩
  rw [hSlot, slot_with_time]
  split
  · rename_i hp
    rw [eq_comm, List.filter_eq_nil_iff]
    intro n hn hPlace
    exact (hCascade n hn).ne_src rfl (by simpa [hp] using hPlace)
  · rename_i hp
    rw [h.slot, hSource, List.filter_filter]
    exact filter_place_of_cascade hCascade hp

theorem exists_cascade {x : ℕ} (hPos : 0 < x) (hLt : x < 2 ^ 32) (hDvd : blockSize 0 ∣ x) :
    ∃ j < 4, blockSize j ∣ x ∧ ¬blockSize (j + 1) ∣ x := by
  by_contra hNone
  have hAll : ∀ k ≤ 4, blockSize k ∣ x := by
    intro k
    induction k with
    | zero => exact fun _ => hDvd
    | succ k ih =>
      intro hk
      by_contra hNot
      exact hNone ⟨k, hk, ih (by omega), hNot⟩
  exact absurd (Nat.le_of_dvd hPos (hAll 4 (Nat.le_refl 4))) (Nat.not_le_of_lt hLt)

theorem toNat_add_one (t : UInt32) :
    (t + 1 = 0 ∧ t.toNat + 1 = 2 ^ 32) ∨ (t + 1 ≠ 0 ∧ (t + 1).toNat = t.toNat + 1) := by
  have hLt := t.toNat_lt
  have hNat : (t + 1).toNat = (t.toNat + 1) % 2 ^ 32 := by rw [UInt32.toNat_add]; rfl
  rw [ne_eq, ← UInt32.toNat_inj, hNat]
  change _ % _ = 0 ∧ _ ∨ ¬_ % _ = 0 ∧ _
  omega

/-- `_Shift` advances the time and puts every node at its place under it. -/
theorem Holds.shift {nodes : List Timer} {m : TimerManager} (h : Holds nodes m) {fuel : ℕ}
    (hFuel : nodes.length + 4 < fuel) :
    ∃ m', m.shift fuel = some m' ∧ m'.time = m.time + 1 ∧ m'.timeoutList = m.timeoutList ∧
      ∀ p, m'.slot p = nodes.filter (fun n => place n.expire.toNat (m.time + 1).toNat = p) := by
  have hLt := m.time.toNat_lt
  rcases toNat_add_one m.time with ⟨hZero, hWrap⟩ | ⟨hNe, hSucc⟩
  · have hCascade : ∀ n ∈ nodes, Cascade n.expire.toNat m.time.toNat (m.time + 1).toNat 3 (.far 3 0) := by
      rw [hZero]
      exact fun n hn => cascade_wrap (h.ahead n hn) n.expire.toNat_lt hWrap
    obtain ⟨m', hMove, hRest⟩ := h.cascade hCascade (by omega : nodes.length < fuel)
    refine ⟨m', ?_, hRest⟩
    simp only [TimerManager.shift, if_pos hZero]
    exact hMove
  · simp only [TimerManager.shift, if_neg hNe]
    have hTime := shiftRight_tvrBits (m.time + 1)
    change ∃ m', shiftLoop (m.time + 1) fuel (blockSize 0) _ 0 _ = some m' ∧ _
    by_cases hDvd : blockSize 0 ∣ (m.time + 1).toNat
    · obtain ⟨j, hj, hDvd, hNot⟩ := exists_cascade (by omega) (UInt32.toNat_lt _) hDvd
      rw [shiftLoop_cascade _ _ 0 j fuel _ (Nat.zero_le j) hj hTime hDvd hNot (by omega)]
      apply h.cascade _ (by omega)
      rw [hSucc] at hDvd hNot ⊢
      exact fun n hn => Myframe.cascade hj (h.ahead n hn) n.expire.toNat_lt
        (hSucc ▸ UInt32.toNat_lt _) hDvd hNot
    · obtain ⟨fuel, rfl⟩ := Nat.exists_eq_succ_of_ne_zero (by omega : fuel ≠ 0)
      rw [shiftLoop_heads, shiftHeads_eq _ _ 0 fuel (by decide) hTime, if_pos hDvd]
      refine ⟨_, rfl, rfl, rfl, fun p => ?_⟩
      rw [slot_with_time, h.slot]
      rw [hSucc] at hDvd ⊢
      simp only [place_succ_of_not_dvd hDvd]
      rfl

theorem ahead_step {e t : UInt32} (h : Ahead e.toNat t.toNat) (hNe : e ≠ t + 1) :
    Ahead e.toNat (t + 1).toNat := by
  have he := e.toNat_lt
  rw [ne_eq, ← UInt32.toNat_inj] at hNe
  rcases toNat_add_one t with ⟨hZero, hWrap⟩ | ⟨_, hSucc⟩
  · rw [hZero] at hNe ⊢
    change ¬e.toNat = 0 at hNe
    change (0 < e.toNat ∧ _) ∨ _
    unfold Ahead at h
    omega
  · rw [hSucc] at hNe ⊢
    unfold Ahead at h ⊢
    omega

/-- Nothing waits in the slot of the present tick. -/
theorem Holds.tv1_eq_nil {nodes : List Timer} {m : TimerManager} (h : Holds nodes m) :
    m.tv1 (m.time.toNat % 256) = [] := by
  change m.slot (.near _) = []
  rw [h.slot, List.filter_eq_nil_iff]
  intro n hn hPlace
  have hPlace : place n.expire.toNat m.time.toNat = .near _ := of_decide_eq_true hPlace
  have hEq := (place_near_iff n.expire.toNat m.time.toNat).mp hPlace
  have hAhead := h.ahead n hn
  unfold Ahead at hAhead
  omega

theorem Holds.tick {nodes : List Timer} {m : TimerManager} (h : Holds nodes m) {fuel : ℕ}
    (hFuel : nodes.length + 4 < fuel) :
    ∃ m', m.updatetimeTick fuel = some m' ∧ m'.time = m.time + 1 ∧
      m'.timeoutList = m.timeoutList ++
        (nodes.filter (fun n => n.expire = m.time + 1)).map
          (fun n => timeoutMsg n.actorName n.timerName) ∧
      Holds (nodes.filter (fun n => n.expire ≠ m.time + 1)) m' := by
  obtain ⟨m₁, hShift, hTime, hList, hSlot⟩ := h.shift hFuel
  have hDue : m₁.tv1 (m₁.time.toNat % 256) = nodes.filter (fun n => n.expire = m.time + 1) := by
    refine (hSlot (.near _)).trans (List.filter_congr fun n _ => ?_)
    rw [decide_eq_decide, hTime, place_near_iff, UInt32.toNat_inj]
  refine ⟨m₁.dispath (m₁.time.toNat % 256), ?_, hTime, ?_, ?_, ?_⟩
  · rw [updatetimeTick, execute_eq m (by omega), dispath_empty h.tv1_eq_nil, Option.bind_some, hShift,
      Option.bind_some, execute_eq m₁ (by omega)]
  · simp only [dispath, hDue, hList]
  · intro p
    have hDispath : (m₁.dispath (m₁.time.toNat % 256)).slot p =
        if p = .near (m₁.time.toNat % 256) then [] else m₁.slot p := by
      rw [← setSlot_slot]
      cases p <;> rfl
    have hPlace : ∀ n, (m₁.dispath (m₁.time.toNat % 256)).placeOf n =
        place n.expire.toNat (m.time + 1).toNat := fun n => by
      rw [← hTime]
      rfl
    rw [hDispath, hSlot, List.filter_filter]
    simp only [hPlace]
    split
    · rename_i hp
      rw [eq_comm, List.filter_eq_nil_iff]
      intro n _ hBoth
      simp only [Bool.and_eq_true, decide_eq_true_eq, hp, hTime, place_near_iff,
        UInt32.toNat_inj] at hBoth
      exact hBoth.2 hBoth.1
    · rename_i hp
      apply List.filter_congr
      intro n _
      rw [eq_comm, Bool.and_eq_left_iff_imp, decide_eq_true_eq, decide_eq_true_eq]
      rintro rfl hEq
      rw [← UInt32.toNat_inj, ← place_near_iff, ← hTime] at hEq
      exact hp (hTime ▸ hEq)
  · intro n hn
    obtain ⟨hn, hNe⟩ := List.mem_filter.mp hn
    exact hTime ▸ ahead_step (h.ahead n hn) (by simpa using hNe)

theorem ofInt_eq_ofNat {time : ℤ} (hPos : 0 < time) (hLt : time < 2 ^ 31) :
    UInt32.ofInt time = UInt32.ofNat time.toNat := by
  rw [UInt32.ofInt, Int.emod_eq_of_lt hPos.le (by omega)]

@[simp] theorem timeout_time (m : TimerManager) (actorName timerName : String) (time : ℤ) :
    (m.timeout actorName timerName time).1.time = m.time := by
  rw [TimerManager.timeout]
  split
  · rfl
  · rw [addTimerNode_eq, setSlot_time]

theorem Holds.timeout {nodes : List Timer} {m : TimerManager} (h : Holds nodes m)
    (actorName timerName : String) {time : ℤ} (hPos : 0 < time) (hLt : time < 2 ^ 31) :
    Holds (nodes ++ [⟨actorName, timerName, m.time + UInt32.ofNat time.toNat⟩])
        (m.timeout actorName timerName time).1 ∧
      (m.timeout actorName timerName time).1.time = m.time ∧
      (m.timeout actorName timerName time).1.timeoutList = m.timeoutList := by
  have hExpire : UInt32.ofInt time + m.time = m.time + UInt32.ofNat time.toNat := by
    rw [UInt32.add_comm, ofInt_eq_ofNat hPos hLt]
  rw [TimerManager.timeout, if_neg (by omega), addTimerNode_eq, hExpire]
  refine ⟨⟨fun p => ?_, ?_⟩, by simp, by simp⟩
  · simp only [setSlot_slot, placeOf_setSlot, List.filter_append, h.slot]
    split
    · rename_i hp
      simp [hp]
    · rename_i hp
      rw [eq_comm, List.append_right_eq_self, List.filter_eq_nil_iff]
      intro n hn
      rw [List.mem_singleton.mp hn]
      simpa using fun hEq => hp hEq.symm
  · intro n hn
    rw [setSlot_time]
    rcases List.mem_append.mp hn with hn | hn
    · exact h.ahead n hn
    · rw [List.mem_singleton.mp hn]
      have hTime := m.time.toNat_lt
      simp only [Ahead, UInt32.toNat_add, UInt32.toNat_ofNat']
      omega

def Op.Accepted : Op → Prop
  | .timeout _ _ time => 1 ≤ time ∧ time ≤ 2 ^ 31 - 1
  | .updatetime => True

/-- The operation as the plain queue sees it. -/
def Op.toQueue : Op → DelayQueue.Op (String × String)
  | .timeout actorName timerName time => .push time.toNat (actorName, timerName)
  | .updatetime => .tick

def queueNode (t₀ : UInt32) (x : ℕ × String × String) : Timer :=
  ⟨x.2.1, x.2.2, t₀ + UInt32.ofNat x.1⟩

def queueMsg (a : String × String) : Msg := timeoutMsg a.1 a.2

structure Simulates (t₀ : UInt32) (q : Queue (String × String)) (m : TimerManager) : Prop where
  time : m.time = t₀ + UInt32.ofNat q.now
  holds : Holds (q.pending.map (queueNode t₀)) m
  window : ∀ x ∈ q.pending, q.now < x.1 ∧ x.1 < q.now + 2 ^ 31
  fired : m.timeoutList = q.fired.map queueMsg

theorem Simulates.initial (t₀ : UInt32) : Simulates t₀ {} (initial t₀) where
  time := (UInt32.add_zero t₀).symm
  holds := Holds.initial t₀
  window := by simp
  fired := rfl

theorem Simulates.timeout {t₀ : UInt32} {q : Queue (String × String)} {m : TimerManager}
    (h : Simulates t₀ q m) (actorName timerName : String) {time : ℤ} (hPos : 1 ≤ time)
    (hLe : time ≤ 2 ^ 31 - 1) :
    Simulates t₀ (q.apply (.push time.toNat (actorName, timerName)))
      (m.timeout actorName timerName time).1 := by
  obtain ⟨hHolds, hTime, hList⟩ := h.holds.timeout actorName timerName hPos (by omega)
  have hNode : queueNode t₀ (q.now + time.toNat, actorName, timerName) =
      ⟨actorName, timerName, m.time + UInt32.ofNat time.toNat⟩ := by
    rw [queueNode, h.time, UInt32.add_assoc, ← UInt32.ofNat_add]
  constructor
  · exact hTime.trans h.time
  · rw [Queue.apply, List.map_append, List.map_singleton, hNode]
    exact hHolds
  · intro x hx
    rcases List.mem_append.mp hx with hx | hx
    · exact h.window x hx
    · rw [List.mem_singleton.mp hx]
      simp only [Queue.apply]
      omega
  · exact hList.trans h.fired

/-- Within the window a node expires at the next tick exactly when its call is due there. -/
theorem Simulates.expire_iff {t₀ : UInt32} {q : Queue (String × String)} {m : TimerManager}
    (h : Simulates t₀ q m) {x : ℕ × String × String} (hx : x ∈ q.pending) :
    (queueNode t₀ x).expire = m.time + 1 ↔ x.1 = q.now + 1 := by
  have hWindow := h.window x hx
  rw [queueNode, h.time, UInt32.add_assoc, UInt32.add_right_inj, ← UInt32.toNat_inj,
    UInt32.toNat_add, UInt32.toNat_ofNat', UInt32.toNat_ofNat']
  change _ = (_ + 1) % _ ↔ _
  omega

theorem Simulates.tick {t₀ : UInt32} {q : Queue (String × String)} {m : TimerManager}
    (h : Simulates t₀ q m) {fuel : ℕ} (hFuel : q.pending.length + 4 < fuel) :
    ∃ m', m.updatetimeTick fuel = some m' ∧ Simulates t₀ (q.apply .tick) m' := by
  obtain ⟨m', hTick, hTime, hList, hHolds⟩ := h.holds.tick (by rwa [List.length_map])
  refine ⟨m', hTick, ?_, ?_, ?_, ?_⟩
  · rw [hTime, h.time, Queue.apply, UInt32.ofNat_add, UInt32.add_assoc]
    rfl
  · have hKept : (q.apply .tick).pending.map (queueNode t₀) =
        (q.pending.map (queueNode t₀)).filter (fun n => n.expire ≠ m.time + 1) := by
      rw [Queue.apply, List.filter_map]
      congr 1
      apply List.filter_congr
      intro x hx
      simp only [Function.comp, ne_eq, h.expire_iff hx]
    rw [hKept]
    exact hHolds
  · intro x hx
    obtain ⟨hx, hNe⟩ := List.mem_filter.mp hx
    have hWindow := h.window x hx
    have hNe : x.1 ≠ q.now + 1 := of_decide_eq_true hNe
    simp only [Queue.apply]
    omega
  · have hDue : (q.pending.map (queueNode t₀)).filter (fun n => n.expire = m.time + 1) =
        (q.pending.filter (fun x => x.1 = q.now + 1)).map (queueNode t₀) := by
      rw [List.filter_map]
      congr 1
      apply List.filter_congr
      intro x hx
      simp only [Function.comp, h.expire_iff hx]
    rw [hList, hDue, h.fired, Queue.apply, List.map_append, List.map_map, List.map_map]
    rfl

theorem Simulates.runOps {t₀ : UInt32} (ops : List Op) (hOps : ∀ op ∈ ops, op.Accepted)
    {q : Queue (String × String)} {m : TimerManager} (h : Simulates t₀ q m) {fuel : ℕ}
    (hFuel : q.pending.length + ops.length + 4 < fuel) :
    ∃ m', runOps fuel m ops = some m' ∧
      Simulates t₀ ((ops.map Op.toQueue).foldl Queue.apply q) m' := by
  induction ops generalizing q m with
  | nil => exact ⟨m, rfl, h⟩
  | cons op ops ih =>
    have hRest : ∀ op ∈ ops, op.Accepted := fun op hop => hOps op (List.mem_cons_of_mem _ hop)
    have hOp := hOps op List.mem_cons_self
    rw [List.length_cons] at hFuel
    cases op with
    | timeout actorName timerName time =>
      have hNext := h.timeout actorName timerName hOp.1 hOp.2
      apply ih hRest hNext
      simp only [Queue.apply, List.length_append, List.length_singleton]
      omega
    | updatetime =>
      obtain ⟨m₁, hTick, hNext⟩ := h.tick (by omega : q.pending.length + 4 < fuel)
      have hLength := List.length_filter_le (fun x => decide (x.1 ≠ q.now + 1)) q.pending
      obtain ⟨m', hRun, hEnd⟩ := ih hRest hNext (by simp only [Queue.apply]; omega)
      refine ⟨m', ?_, hEnd⟩
      rw [TimerManager.runOps, TimerManager.apply, hTick, Option.bind_some, hRun]

/-- Whatever value `time_` starts from and however calls and ticks interleave, the manager has
handed over, tick by tick, the calls due at that tick in the order in which they were made. -/
theorem timeoutList_runOps (t₀ : UInt32) (ops : List Op) (hOps : ∀ op ∈ ops, op.Accepted)
    (fuel : ℕ) (hFuel : ops.length + 4 < fuel) :
    ∃ m, runOps fuel (initial t₀) ops = some m ∧
      m.time = t₀ + UInt32.ofNat (ticks (ops.map Op.toQueue)) ∧
      m.timeoutList =
        (schedule (ticks (ops.map Op.toQueue)) (calls 0 (ops.map Op.toQueue))).map queueMsg := by
  obtain ⟨m, hRun, hEnd⟩ := (Simulates.initial t₀).runOps ops hOps (by simpa using hFuel)
  have hPositive : ∀ op ∈ ops.map Op.toQueue, op.Positive := by
    intro x hx
    obtain ⟨op, hop, rfl⟩ := List.mem_map.mp hx
    have hAccepted := hOps op hop
    cases op with
    | timeout actorName timerName time =>
      have hPos : 1 ≤ time := hAccepted.1
      change 0 < time.toNat
      omega
    | updatetime => trivial
  obtain ⟨hNow, _, hFired⟩ := run_eq (ops.map Op.toQueue) hPositive
  exact ⟨m, hRun, hNow ▸ hEnd.time, hFired ▸ hEnd.fired⟩

/-- Two timers due in the same tick, the first of them across the wrap of `time_`. -/
theorem timeoutList_runOps_wrap : ∃ m, runOps 10 (initial (0 - 1))
    [.timeout "actor.a.1" "first" 2, .updatetime, .timeout "actor.b.1" "second" 1, .updatetime] =
      some m ∧ m.time = 1 ∧
      m.timeoutList = [timeoutMsg "actor.a.1" "first", timeoutMsg "actor.b.1" "second"] :=
  timeoutList_runOps (0 - 1) [.timeout "actor.a.1" "first" 2, .updatetime,
    .timeout "actor.b.1" "second" 1, .updatetime] (by simp [Op.Accepted]) 10 (by decide)

end TimerManager
end Myframe
