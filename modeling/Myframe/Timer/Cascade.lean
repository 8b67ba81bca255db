import Myframe.Timer.Refinement
import Myframe.IntrusiveList.Refinement

/-! # The cascade stays in bounds

What the loop of `_Shift` looks at, turn by turn, and what `_MoveList` does to the pointers of the lists while it
puts their nodes back.
-/
namespace Myframe
namespace TimerManager
set_option autoImplicit false

open LinkRing

def shiftCall (m : TimerManager) : Option (ℕ × ℕ) :=
  let ct := m.time + 1
  if ct = 0 then some (3, 0) else (shiftHeads ct 4 tvrSize.toNat (ct >>> tvrBits) 0).bind Prod.snd

/-- `dynamic_cast<Timer*>`, which is null for the sentinel of a list. -/
def asTimer {ℓ ν : Type} : Addr ℓ ν → Option ν
  | .root _ => none
  | .node n => some n

/-- `_MoveList` on the pointers: the nodes it visits, and the lists it leaves. A node `n` is put into the list
`dest n`. -/
def moveNodes {ℓ ν : Type} [DecidableEq ℓ] [DecidableEq ν] (dest : ν → ℓ) (cur : ℓ) :
    ℕ → Option (Addr ℓ ν) → ListHeap ℓ ν → Option (List ν × ListHeap ℓ ν)
  | 0, _, _ => none
  | fuel + 1, start, h =>
    if start = some (.root cur) then some ([], h)
    else do
      let temp ← h.getNext start
      let h ← h.del cur start
      let timer ← start.bind asTimer
      let h ← h.addTail (dest timer) start
      let r ← moveNodes dest cur fuel temp h
      return (timer :: r.1, r.2)

theorem shiftHeads_of_dvd {ct : UInt32} (hPos : ct ≠ 0) (hDvd : 256 ∣ ct.toNat) :
    ∃ j < 4, blockSize j ∣ ct.toNat ∧ ¬blockSize (j + 1) ∣ ct.toNat ∧ ∀ fuel ≥ 4, ∃ heads,
      shiftHeads ct fuel tvrSize.toNat (ct >>> tvrBits) 0 = some (heads, some (j, ct.toNat / blockSize j % 64)) ∧
      heads.length ≤ 4 ∧ ∀ x ∈ heads, x.i ≤ j ∧ x.mask = blockSize x.i := by
  have hNat : 0 < ct.toNat := Nat.pos_of_ne_zero fun h => hPos (UInt32.toNat_inj.mp h)
  obtain ⟨j, hj, hLow, hNot⟩ := exists_cascade hNat ct.toNat_lt hDvd
  refine ⟨j, hj, hLow, hNot, fun fuel hFuel => ?_⟩
  obtain ⟨heads, hRun, hLength, hHeads⟩ := shiftHeads_cascade ct _ 0 j fuel (Nat.zero_le j) hj (shiftRight_tvrBits ct)
    hLow hNot (by omega)
  exact ⟨heads, hRun, by omega, hHeads⟩

theorem shiftHeads_of_not_dvd {ct : UInt32} (hNot : ¬256 ∣ ct.toNat) (fuel : ℕ) :
    shiftHeads ct (fuel + 1) tvrSize.toNat (ct >>> tvrBits) 0 = some ([⟨256, ct >>> tvrBits, 0⟩], none) := by
  have hNot : ¬blockSize 0 ∣ ct.toNat := hNot
  have hEq := shiftHeads_eq ct _ 0 fuel (by decide) (shiftRight_tvrBits ct)
  rwa [if_pos hNot] at hEq

theorem blockSize_le {i : ℕ} (hi : i ≤ 3) : blockSize i ≤ 2 ^ 26 :=
  Nat.pow_le_pow_right (by decide) (by omega)

theorem shiftHeads_bounded {ct : UInt32} (hPos : ct ≠ 0) :
    ∃ heads call, shiftHeads ct 4 tvrSize.toNat (ct >>> tvrBits) 0 = some (heads, call) ∧
      (∀ x ∈ heads, x.mask ≤ 2 ^ 26 ∧ x.i ≤ 3) ∧
      if 256 ∣ ct.toNat then ∃ i ≤ 3, ∃ idx < 64, call = some (i, idx)
      else heads = [⟨256, ct >>> tvrBits, 0⟩] ∧ call = none := by
  split
  · next hDvd =>
    obtain ⟨j, hj, -, -, hTurns⟩ := shiftHeads_of_dvd hPos hDvd
    obtain ⟨heads, hRun, -, hHeads⟩ := hTurns 4 le_rfl
    refine ⟨heads, _, hRun, fun x hx => ?_, j, by omega, _, Nat.mod_lt _ (by decide), rfl⟩
    obtain ⟨hLe, hMask⟩ := hHeads x hx
    exact ⟨hMask ▸ blockSize_le (by omega), by omega⟩
  · next hNot =>
    have hHead : (256 : ℕ) ≤ 2 ^ 26 ∧ 0 ≤ 3 := by decide
    exact ⟨_, _, shiftHeads_of_not_dvd hNot 3, List.forall_mem_singleton.mpr hHead, rfl, rfl⟩

theorem moveList_mono {i idx fuel : ℕ} {m m' : TimerManager} (h : moveList i idx fuel m = some m') {fuel' : ℕ}
    (hLe : fuel ≤ fuel') : moveList i idx fuel' m = some m' := by
  induction fuel generalizing m fuel' with
  | zero => exact absurd h (by simp [moveList])
  | succ fuel ih =>
    obtain ⟨fuel', rfl⟩ := Nat.exists_eq_succ_of_ne_zero (by omega : fuel' ≠ 0)
    rw [moveList] at h ⊢
    cases hSlot : m.tv i idx with
    | nil => rwa [hSlot] at h
    | cons node rest =>
      simp only [hSlot] at h ⊢
      split
      · next hRest => rwa [if_pos hRest] at h
      · next hRest =>
        rw [if_neg hRest] at h
        exact ih h (by omega)

/-- `_Shift` is the call of `_MoveList`, if there is one. -/
theorem shift_eq {m m' : TimerManager} {i idx fuel : ℕ} (hCall : m.shiftCall = some (i, idx))
    (hMove : moveList i idx fuel { m with time := m.time + 1 } = some m') : m.shift (fuel + 4) = some m' := by
  rw [shiftCall] at hCall
  rw [shift]
  split at hCall
  · next hZero =>
    obtain ⟨rfl, rfl⟩ := Prod.mk.inj (Option.some.inj hCall)
    rw [if_pos hZero]
    exact moveList_mono hMove (by omega)
  · next hNe =>
    rw [if_neg hNe, shiftLoop_heads]
    by_cases hDvd : 256 ∣ (m.time + 1).toNat
    · obtain ⟨j, -, -, -, hTurns⟩ := shiftHeads_of_dvd hNe hDvd
      obtain ⟨_, hRun, -, -⟩ := hTurns 4 le_rfl
      obtain ⟨heads, hRun', hLength, -⟩ := hTurns (fuel + 4) (by omega)
      rw [hRun, Option.bind_some] at hCall
      obtain ⟨rfl, rfl⟩ := Prod.mk.inj (Option.some.inj hCall)
      have hLess : fuel ≤ fuel + 4 - heads.length := by omega
      rw [hRun', Option.bind_some]
      exact moveList_mono hMove hLess
    · rw [shiftHeads_of_not_dvd hDvd 3] at hCall
      exact absurd hCall (by simp)

theorem shift_eq_of_none {m : TimerManager} (hCall : m.shiftCall = none) (fuel : ℕ) :
    m.shift (fuel + 1) = some { m with time := m.time + 1 } := by
  rw [shiftCall] at hCall
  rw [shift]
  split at hCall
  · exact absurd hCall (by simp)
  · next hNe =>
    rw [if_neg hNe, shiftLoop_heads]
    by_cases hDvd : 256 ∣ (m.time + 1).toNat
    · obtain ⟨j, -, -, -, hTurns⟩ := shiftHeads_of_dvd hNe hDvd
      obtain ⟨_, hRun, -, -⟩ := hTurns 4 le_rfl
      rw [hRun] at hCall
      exact absurd hCall (by simp)
    · rw [shiftHeads_of_not_dvd hDvd]
      rfl

section Walk

variable {ℓ ν : Type} [DecidableEq ℓ] [DecidableEq ν] {dest : ν → ℓ} {cur : ℓ}

/-- Where no node is put back into the list that is walked, it is emptied from its head: each turn begins at
the first node that is left. -/
theorem moveNodes_eq (nodes : List ν) {h : ListHeap ℓ ν} {σ : ℓ → List ν} {fuel : ℕ} (hRep : h.Represents σ)
    (hNodes : σ cur = nodes) (hNe : ∀ n ∈ nodes, dest n ≠ cur) (hFuel : nodes.length < fuel) :
    ∃ t σ', moveNodes dest cur fuel (h.next (.root cur)) h = some (nodes, t) ∧ t.Represents σ' ∧
      ∀ p, σ' p = if p = cur then [] else σ p ++ nodes.filter fun n => dest n = p := by
  induction nodes generalizing h σ fuel with
  | nil =>
    obtain ⟨fuel, rfl⟩ := Nat.exists_eq_succ_of_ne_zero (Nat.ne_of_gt hFuel)
    have hEmpty : h.next (.root cur) = some (.root cur) := of_decide_eq_true (hRep.isEmpty_iff.mpr hNodes)
    refine ⟨h, σ, by rw [moveNodes, if_pos hEmpty], hRep, fun p => ?_⟩
    split
    · next hp => rw [hp, hNodes]
    · rw [List.filter_nil, List.append_nil]
  | cons n rest ih =>
    obtain ⟨fuel, rfl⟩ := Nat.exists_eq_succ_of_ne_zero (Nat.ne_of_gt (Nat.zero_lt_of_lt hFuel))
    rw [List.length_cons] at hFuel
    have hMem : n ∈ σ cur := by simp [hNodes]
    have hDest : dest n ≠ cur := hNe n List.mem_cons_self
    obtain ⟨h₁, hDel, hRep₁⟩ := hRep.del hMem
    obtain ⟨h₂, hAdd, hRep₂⟩ := hRep₁.addTail (l := dest n) (hRep.taken hMem)
    rw [Function.update_of_ne hDest, hNodes, List.erase_cons_head] at hRep₂
    have hLeft : ∀ p, Function.update (Function.update σ cur rest) (dest n) (σ (dest n) ++ [n]) p =
        if p = cur then rest else σ p ++ [n].filter fun n => dest n = p := by
      intro p
      rw [Function.update_apply, Function.update_apply]
      obtain rfl | hp := eq_or_ne p (dest n)
      · simp [hDest]
      · simp [hp, hp.symm]
    have hRest := hLeft cur
    rw [if_pos rfl] at hRest
    obtain ⟨t, σ', hWalk, hRep', hEnd⟩ := ih hRep₂ hRest (fun n hn => hNe n (List.mem_cons_of_mem _ hn))
      (Nat.lt_of_succ_lt_succ hFuel)
    have hStart : h.next (.root cur) = some (.node n) := by
      rw [(hRep.ring cur).next_head, hNodes]
      rfl
    -- the node read before the node is put back is the first one of what is left
    have hTemp : h.next (.node n) = h₂.next (.root cur) := by
      have hRing := hRep.ring cur
      rw [hNodes] at hRing
      have hRotated : h.Ring (.node n :: (rest.map .node ++ [.root cur])) :=
        (Links.ring_append_comm [Addr.root cur] (Addr.node n :: rest.map .node)).mp hRing
      rw [hRotated.next_head, (hRep₂.ring cur).next_head, hRest]
      cases rest with
      | nil => rfl
      | cons m rest => rfl
    refine ⟨t, σ', ?_, hRep', fun p => ?_⟩
    · rw [moveNodes, hStart, if_neg (by simp)]
      simp only [ListHeap.getNext, Option.map_some, Option.bind_eq_bind, Option.bind_some, hDel, asTimer, hAdd, hTemp,
        hWalk]
      rfl
    · rw [hEnd, hLeft]
      split
      · rfl
      · rw [List.append_assoc, ← List.filter_append, List.singleton_append]

end Walk

def Op.Ranged : Op → Prop
  | .timeout _ _ time => -2 ^ 31 ≤ time ∧ time < 2 ^ 31
  | .updatetime => True

theorem Holds.runOps (ops : List Op) (hOps : ∀ op ∈ ops, op.Ranged) {nodes : List Timer} {m : TimerManager}
    (h : Holds nodes m) {fuel : ℕ} (hFuel : nodes.length + ops.length + 4 < fuel) :
    ∃ m' nodes', runOps fuel m ops = some m' ∧ Holds nodes' m' ∧ nodes'.length + 4 < fuel := by
  induction ops generalizing nodes m with
  | nil => exact ⟨m, nodes, rfl, h, by rwa [List.length_nil, Nat.add_zero] at hFuel⟩
  | cons op ops ih =>
    have hRest : ∀ op ∈ ops, op.Ranged := fun op hop => hOps op (List.mem_cons_of_mem _ hop)
    have hOp := hOps op List.mem_cons_self
    rw [List.length_cons] at hFuel
    cases op with
    | timeout actorName timerName time =>
      rcases le_or_gt time 0 with hNone | hPos
      · have hSame : (m.timeout actorName timerName time).1 = m := by rw [TimerManager.timeout, if_pos hNone]
        obtain ⟨m', nodes', hRun, hEnd⟩ := ih hRest h (by omega)
        refine ⟨m', nodes', ?_, hEnd⟩
        rw [TimerManager.runOps, TimerManager.apply, hSame, Option.bind_some, hRun]
      · obtain ⟨hNext, -, -⟩ := h.timeout actorName timerName hPos hOp.2
        apply ih hRest hNext
        rw [List.length_append, List.length_singleton]
        omega
    | updatetime =>
      obtain ⟨m₁, hTick, -, -, hNext⟩ := h.tick (by omega : nodes.length + 4 < fuel)
      have hLength := List.length_filter_le (fun n => decide (n.expire ≠ m.time + 1)) nodes
      obtain ⟨m', nodes', hRun, hEnd⟩ := ih hRest hNext (by omega)
      refine ⟨m', nodes', ?_, hEnd⟩
      rw [TimerManager.runOps, TimerManager.apply, hTick, Option.bind_some, hRun]

/-- The lists at `h` are those of the manager: each is the list of the nodes in `σ`, and `timer` is what the nodes
hold. -/
structure Lists {ν : Type} [DecidableEq ν] (h : ListHeap Place ν) (timer : ν → Timer) (σ : Place → List ν)
    (m : TimerManager) : Prop where
  represents : h.Represents σ
  slot : ∀ p, (σ p).map timer = m.slot p

theorem Lists.moveNodes {ν : Type} [DecidableEq ν] {h : ListHeap Place ν} {timer : ν → Timer} {σ : Place → List ν}
    {m : TimerManager} (hLists : Lists h timer σ m) {i idx fuel fuel' : ℕ}
    (hNe : ∀ n ∈ m.tv i idx, m.placeOf n ≠ .far i idx) (hFuel : (m.tv i idx).length < fuel)
    (hFuel' : (m.tv i idx).length < fuel') :
    ∃ t σ' m', moveNodes (fun n => timerList (timer n).expire m.time) (.far i idx) fuel
        (h.next (.root (.far i idx))) h = some (σ (.far i idx), t) ∧
      moveList i idx fuel' m = some m' ∧ Lists t timer σ' m' ∧ m'.tv i idx = [] := by
  have hSource : (σ (.far i idx)).map timer = m.tv i idx := hLists.slot (.far i idx)
  have hDest : ∀ n ∈ σ (.far i idx), timerList (timer n).expire m.time ≠ .far i idx := by
    intro n hn
    rw [timerList_eq]
    exact hNe _ (hSource ▸ List.mem_map_of_mem hn)
  obtain ⟨m', hMove, -, -, hSlot⟩ := moveList_eq i idx _ m fuel' rfl hFuel' hNe
  have hLess : (σ (.far i idx)).length < fuel := by rwa [← List.length_map timer, hSource]
  obtain ⟨t, σ', hWalk, hRep, hEnd⟩ := moveNodes_eq _ hLists.represents rfl hDest hLess
  refine ⟨t, σ', m', hWalk, hMove, ⟨hRep, fun p => ?_⟩, ?_⟩
  · rw [hEnd, hSlot]
    split
    · rfl
    · rw [List.map_append, hLists.slot, ← hSource, List.filter_map]
      congr 3
      funext n
      rw [Function.comp, timerList_eq]
      rfl
  · exact (hSlot (.far i idx)).trans (if_pos rfl)

theorem Holds.shiftCall {nodes : List Timer} {m : TimerManager} (h : Holds nodes m) {i idx : ℕ}
    (hCall : m.shiftCall = some (i, idx)) :
    Place.InRange (.far i idx) ∧
      ∀ n ∈ nodes, Cascade n.expire.toNat m.time.toNat (m.time + 1).toNat i (.far i idx) := by
  rcases toNat_add_one m.time with ⟨hZero, hWrap⟩ | ⟨hNe, hSucc⟩
  · rw [TimerManager.shiftCall, if_pos hZero] at hCall
    obtain ⟨rfl, rfl⟩ := Prod.mk.inj (Option.some.inj hCall)
    refine ⟨⟨by decide, by decide⟩, fun n hn => ?_⟩
    rw [hZero]
    exact cascade_wrap (h.ahead n hn) n.expire.toNat_lt hWrap
  · rw [TimerManager.shiftCall, if_neg hNe] at hCall
    by_cases hDvd : 256 ∣ (m.time + 1).toNat
    · obtain ⟨j, hj, hLow, hNot, hTurns⟩ := shiftHeads_of_dvd hNe hDvd
      obtain ⟨heads, hRun, -, -⟩ := hTurns 4 le_rfl
      rw [hRun, Option.bind_some] at hCall
      obtain ⟨rfl, rfl⟩ := Prod.mk.inj (Option.some.inj hCall)
      refine ⟨⟨hj, Nat.mod_lt _ (by decide)⟩, fun n hn => ?_⟩
      rw [hSucc] at hLow hNot ⊢
      exact Myframe.cascade hj (h.ahead n hn) n.expire.toNat_lt (hSucc ▸ UInt32.toNat_lt _) hLow hNot
    · rw [shiftHeads_of_not_dvd hDvd 3] at hCall
      exact absurd hCall (by simp)

theorem Lists.with_time {ν : Type} [DecidableEq ν] {h : ListHeap Place ν} {timer : ν → Timer} {σ : Place → List ν}
    {m : TimerManager} (hLists : Lists h timer σ m) (t : UInt32) : Lists h timer σ { m with time := t } where
  represents := hLists.represents
  slot p := by rw [slot_with_time, hLists.slot]

structure Bounded (fuel : ℕ) (m : TimerManager) : Prop where
  /-- The loop ends; if its condition holds at all, through its `break`. -/
  loop : m.time + 1 ≠ 0 →
    ∃ heads call, shiftHeads (m.time + 1) 4 tvrSize.toNat ((m.time + 1) >>> tvrBits) 0 = some (heads, call) ∧
      (∀ x ∈ heads, x.mask ≤ 2 ^ 26 ∧ x.i ≤ 3) ∧
      if 256 ∣ (m.time + 1).toNat then ∃ i ≤ 3, ∃ idx < 64, call = some (i, idx)
      else heads = [⟨256, (m.time + 1) >>> tvrBits, 0⟩] ∧ call = none
  noCall : m.shiftCall = none → m.shift fuel = some { m with time := m.time + 1 }
  /-- The list that is walked is one of the lists, and its nodes go down. -/
  call : ∀ i idx, m.shiftCall = some (i, idx) →
    Place.InRange (.far i idx) ∧
      ∀ n ∈ m.tv i idx, (timerList n.expire (m.time + 1)).rank < (Place.far i idx).rank
  /-- The walk visits the nodes that the list has, each once, and leaves the list empty. -/
  walk : ∀ i idx, m.shiftCall = some (i, idx) →
    ∀ (ν : Type) [DecidableEq ν] (h : ListHeap Place ν) (timer : ν → Timer) (σ : Place → List ν),
      Lists h timer σ m →
        ∃ t σ' m', TimerManager.moveNodes (fun n => timerList (timer n).expire (m.time + 1)) (.far i idx) fuel
            (h.next (.root (.far i idx))) h = some (σ (.far i idx), t) ∧
          (σ (.far i idx)).Nodup ∧ m.shift fuel = some m' ∧ Lists t timer σ' m' ∧ m'.tv i idx = []

theorem Holds.bounded {nodes : List Timer} {m : TimerManager} (h : Holds nodes m) {fuel : ℕ}
    (hFuel : nodes.length + 4 < fuel) : m.Bounded fuel := by
  obtain ⟨fuel, rfl⟩ := Nat.exists_eq_add_of_le' (by omega : 4 ≤ fuel)
  have hMem : ∀ {i idx}, ∀ n ∈ m.tv i idx, n ∈ nodes ∧ place n.expire.toNat m.time.toNat = .far i idx := by
    intro i idx n hn
    have hSlot : m.tv i idx = nodes.filter fun n => m.placeOf n = .far i idx := h.slot (.far i idx)
    rw [hSlot, List.mem_filter, decide_eq_true_eq] at hn
    exact hn
  constructor
  · exact shiftHeads_bounded
  · exact fun hNone => shift_eq_of_none hNone (fuel + 3)
  · intro i idx hCall
    obtain ⟨hRange, hCascade⟩ := h.shiftCall hCall
    refine ⟨hRange, fun n hn => ?_⟩
    obtain ⟨hNode, hPlace⟩ := hMem n hn
    rw [timerList_eq]
    exact Nat.lt_succ_of_le ((hCascade n hNode).moved.mp hPlace)
  · intro i idx hCall ν _ heap timer σ hLists
    obtain ⟨-, hCascade⟩ := h.shiftCall hCall
    have hLength : (m.tv i idx).length < fuel := by
      have hLe := List.length_filter_le (fun n => decide (m.placeOf n = .far i idx)) nodes
      rw [← h.slot (.far i idx)] at hLe
      exact Nat.lt_of_le_of_lt hLe (by omega)
    obtain ⟨t, σ', m', hWalk, hMove, hEnd⟩ := (hLists.with_time (m.time + 1)).moveNodes (i := i)
      (fun n hn => (hCascade n (hMem n hn).1).ne_src rfl) (Nat.lt_add_right 4 hLength) hLength
    exact ⟨t, σ', m', hWalk, hLists.represents.nodup _, shift_eq hCall hMove, hEnd⟩

/-- From whatever value `time_` starts and whatever calls and ticks come, the next `_Shift` stays in bounds; and
so does `_AddTimerNode`, at any time and for any node. -/
theorem shift_bounded (t₀ : UInt32) (ops : List Op) (hOps : ∀ op ∈ ops, op.Ranged) (fuel : ℕ)
    (hFuel : ops.length + 4 < fuel) :
    (∃ m, runOps fuel (initial t₀) ops = some m ∧ m.execute fuel = some m ∧ m.Bounded fuel) ∧
      ∀ time curTime, searchLevel time curTime 3 0 (tvrSize <<< tvnBits) ≤ 3 ∧
        (timerList time curTime).InRange := by
  obtain ⟨m, nodes, hRun, hHolds, hLess⟩ := (Holds.initial t₀).runOps ops hOps (by simpa using hFuel)
  refine ⟨⟨m, hRun, ?_, hHolds.bounded hLess⟩, fun time curTime =>
    ⟨searchLevel_le time curTime, timerList_inRange time curTime⟩⟩
  rw [execute_eq m (by omega), dispath_empty hHolds.tv1_eq_nil]

theorem shift_no_break : runOps 10 (initial 0) [] = some (initial 0) ∧
    ∀ fuel heads call, shiftHeads ((initial 0).time + 1) fuel tvrSize.toNat (((initial 0).time + 1) >>> tvrBits) 0 ≠
      some (heads, some call) := by
  refine ⟨rfl, fun fuel heads call => ?_⟩
  cases fuel with
  | zero => simp [shiftHeads]
  | succ fuel => simp [shiftHeads, show ¬((initial 0).time + 1 &&& UInt32.ofNat (tvrSize.toNat - 1) = 0) by decide]

theorem shift_bounded_wrap :
    (∃ m, runOps 10 (initial (0 - 1)) [.timeout "actor.a.1" "t" 300] = some m ∧ m.execute 10 = some m ∧
      m.Bounded 10) ∧
      ∀ time curTime, searchLevel time curTime 3 0 (tvrSize <<< tvnBits) ≤ 3 ∧
        (timerList time curTime).InRange :=
  shift_bounded (0 - 1) [.timeout "actor.a.1" "t" 300] (by simp [Op.Ranged]) 10 (by decide)

end TimerManager
end Myframe
