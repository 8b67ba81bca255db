import Myframe.Timer.Refinement
import Myframe.Library.BurstClock

/-! # The timer's worker

`Updatetime` reads the clock once and then makes a tick, under the lock, for each ten milliseconds
since its last reading. Other threads call `Timeout` at any moment, also between two of these ticks.
-/
namespace Myframe
set_option autoImplicit false

namespace TimerManager

def nodes (m : TimerManager) : List Timer :=
  (List.range 256).flatMap m.tv1 ++ (List.range 4).flatMap fun i => (List.range 64).flatMap (m.tv i)

theorem Holds.mem_nodes {nodes : List Timer} {m : TimerManager} (h : Holds nodes m) {n : Timer} :
    n ∈ m.nodes ↔ n ∈ nodes := by
  have hSlot : ∀ p, n ∈ m.slot p ↔ n ∈ nodes ∧ m.placeOf n = p := by
    intro p
    rw [h.slot, List.mem_filter, decide_eq_true_eq]
  rw [TimerManager.nodes, List.mem_append]
  simp only [List.mem_flatMap, List.mem_range]
  constructor
  · rintro (⟨idx, -, hIn⟩ | ⟨i, -, idx, -, hIn⟩)
    · exact ((hSlot (.near idx)).mp hIn).1
    · exact ((hSlot (.far i idx)).mp hIn).1
  · intro hIn
    have hPlace : n ∈ m.slot (m.placeOf n) := (hSlot _).mpr ⟨hIn, rfl⟩
    have hLevel := @RadixLevel.level_le blockSize 4 0 n.expire.toNat m.time.toNat
    rw [placeOf, place] at hPlace
    generalize RadixLevel.level blockSize 4 0 n.expire.toNat m.time.toNat = level at hPlace hLevel
    cases level with
    | zero => exact .inl ⟨n.expire.toNat % 256, by omega, hPlace⟩
    | succ i => exact .inr ⟨i, by omega, n.expire.toNat / blockSize i % 64, by omega, hPlace⟩

end TimerManager

/-- A call of `Timeout` whose node is in one of the lists: what it was called with, what the clock
read then, and, to tell calls apart, how many there had been before. -/
structure TimeoutCall where
  id : ℕ
  readAt : ℕ
  time : ℤ
  node : Timer
  deriving DecidableEq, Repr

namespace TimeoutCall

def msg (c : TimeoutCall) : Msg := TimerManager.timeoutMsg c.node.actorName c.node.timerName

/-- A reading `cp` of the clock is not too early for the message. -/
def InTime (c : TimeoutCall) (cp : ℕ) : Prop := c.time - 1 ≤ (cp : ℤ) - c.readAt

instance (c : TimeoutCall) (cp : ℕ) : Decidable (c.InTime cp) :=
  inferInstanceAs (Decidable (c.time - 1 ≤ (cp : ℤ) - c.readAt))

end TimeoutCall

/-- Where `WorkerTimer::Work` stands: outside, or in the loop of `Updatetime` with `left` turns to go. -/
inductive TimerPc where
  | idle
  | update (left : ℕ)
  deriving DecidableEq, Repr

def TimerPc.left : TimerPc → ℕ
  | .idle => 0
  | .update left => left

/-- `clock` counts in units of ten milliseconds. `send` is the worker's send queue. `pending` and
`calls` keep account only. -/
structure WorkerTimer where
  manager : TimerManager
  curPoint : ℕ
  pc : TimerPc := .idle
  send : List Msg := []
  clock : ℕ
  pending : List TimeoutCall := []
  calls : ℕ := 0

namespace WorkerTimer

inductive Label where
  | advance (k : ℕ)
  | timeout (readAt : ℕ) (actorName timerName : String) (time : ℤ)
  | updatetime
  | tick
  | send

def initial (time : UInt32) (clock : ℕ) : WorkerTimer where
  manager := .initial time
  curPoint := clock
  clock := clock

/-- The call whose node a step puts into a list. -/
def made (s : WorkerTimer) : Label → List TimeoutCall
  | .timeout readAt actorName timerName time =>
    if time ≤ 0 then []
    else [⟨s.calls, readAt, time, ⟨actorName, timerName, UInt32.ofInt time + s.manager.time⟩⟩]
  | _ => []

/-- `Updatetime` up to its loop. -/
def updatetime (s : WorkerTimer) : WorkerTimer :=
  let cp := s.clock
  if cp < s.curPoint then { s with curPoint := cp, pc := .update 0 }
  else if cp ≠ s.curPoint then
    { s with curPoint := cp, pc := .update (UInt32.ofNat (cp - s.curPoint)).toNat }
  else { s with pc := .update 0 }

/-- One turn of the loop. -/
def tick (s : WorkerTimer) : WorkerTimer :=
  match s.manager.updatetimeTick (s.pending.length + 5) with
  | none => s
  | some manager =>
    { s with
      manager := manager
      pc := .update (s.pc.left - 1)
      pending := s.pending.filter fun c => c.node ∈ manager.nodes }

/-- The calls whose nodes a step takes out of the lists. -/
def fires (s : WorkerTimer) : Label → List TimeoutCall
  | .tick => s.pending.filter fun c => c.node ∉ s.tick.manager.nodes
  | _ => []

def next (s : WorkerTimer) : Label → WorkerTimer
  | .advance k => { s with clock := s.clock + k }
  | .timeout readAt actorName timerName time =>
    { s with
      manager := (s.manager.timeout actorName timerName time).1
      pending := s.pending ++ s.made (.timeout readAt actorName timerName time)
      calls := s.calls + 1 }
  | .updatetime => s.updatetime
  | .tick => s.tick
  | .send =>
    { s with
      pc := .idle
      send := s.send ++ s.manager.timeoutList
      manager := { s.manager with timeoutList := [] } }

/-- A call takes effect when it gets the lock, which may be later than its reading. -/
def enabled (s : WorkerTimer) : Label → Prop
  | .advance _ => True
  | .timeout readAt _ _ time => readAt ≤ s.clock ∧ -2 ^ 31 ≤ time ∧ time < 2 ^ 31
  | .updatetime => s.pc = .idle
  | .tick => 0 < s.pc.left
  | .send => s.pc = .update 0

instance (s : WorkerTimer) (l : Label) : Decidable (s.enabled l) :=
  match l with
  | .advance _ => .isTrue trivial
  | .timeout readAt _ _ time =>
    inferInstanceAs (Decidable (readAt ≤ s.clock ∧ -2 ^ 31 ≤ time ∧ time < 2 ^ 31))
  | .updatetime => inferInstanceAs (Decidable (s.pc = .idle))
  | .tick => inferInstanceAs (Decidable (0 < s.pc.left))
  | .send => inferInstanceAs (Decidable (s.pc = .update 0))

def system : Transition.System WorkerTimer Label where
  enabled s l := s.enabled l
  next s l := s.next l

instance (s : WorkerTimer) (l : Label) : Decidable (system.enabled s l) :=
  inferInstanceAs (Decidable (s.enabled l))

/-- The worker's reading of the clock, the clock and the ticks still to be made. -/
def burst (s : WorkerTimer) : BurstClock.State := ⟨s.clock, s.curPoint, s.pc.left⟩

theorem burst_updatetime {s : WorkerTimer} (hOrder : s.curPoint ≤ s.clock) :
    s.updatetime.burst = s.burst.read (2 ^ 32) := by
  have hNat : (UInt32.ofNat (s.clock - s.curPoint)).toNat = (s.clock - s.curPoint) % 2 ^ 32 :=
    UInt32.toNat_ofNat'
  rw [updatetime, if_neg (Nat.not_lt_of_le hOrder)]
  split
  · simp only [burst, BurstClock.State.read, TimerPc.left, hNat]
  · next hEq =>
    have hEq : s.clock = s.curPoint := not_not.mp hEq
    simp only [burst, BurstClock.State.read, TimerPc.left, hEq, Nat.sub_self, Nat.zero_mod]

/-- What is true in every state: the lists hold the nodes of the pending calls, and the clock has not
gone back. -/
structure Sound (s : WorkerTimer) : Prop where
  holds : TimerManager.Holds (s.pending.map TimeoutCall.node) s.manager
  order : s.curPoint ≤ s.clock
  ids : ∀ c ∈ s.pending, c.id < s.calls

theorem Sound.initial (time : UInt32) (clock : ℕ) : (initial time clock).Sound where
  holds := .initial time
  order := Nat.le_refl clock
  ids := nofun

/-- A tick takes out, and hands over, what expires at the time it advances to. -/
theorem Sound.tick {s : WorkerTimer} (h : s.Sound) :
    ∃ manager, s.tick = { s with
        manager := manager
        pc := .update (s.pc.left - 1)
        pending := s.pending.filter fun c => c.node.expire ≠ s.manager.time + 1 } ∧
      manager.time = s.manager.time + 1 ∧
      s.fires .tick = s.pending.filter (fun c => c.node.expire = s.manager.time + 1) ∧
      manager.timeoutList = s.manager.timeoutList ++ (s.fires .tick).map TimeoutCall.msg ∧
      s.tick.Sound := by
  have hFuel : (s.pending.map TimeoutCall.node).length + 4 < s.pending.length + 5 := by
    rw [List.length_map]
    omega
  obtain ⟨manager, hTick, hTime, hList, hHolds⟩ := h.holds.tick hFuel
  rw [List.filter_map] at hHolds
  have hStays : ∀ c ∈ s.pending, c.node ∈ manager.nodes ↔ c.node.expire ≠ s.manager.time + 1 := by
    intro c hc
    rw [hHolds.mem_nodes, List.mem_map]
    constructor
    · rintro ⟨d, hd, hEq⟩
      have hNe := of_decide_eq_true (List.mem_filter.mp hd).2
      rwa [hEq] at hNe
    · intro hNe
      exact ⟨c, List.mem_filter.mpr ⟨hc, decide_eq_true hNe⟩, rfl⟩
  have hStep : s.tick = { s with
      manager := manager
      pc := .update (s.pc.left - 1)
      pending := s.pending.filter fun c => c.node.expire ≠ s.manager.time + 1 } := by
    have hPending : s.pending.filter (fun c => c.node ∈ manager.nodes) =
        s.pending.filter fun c => c.node.expire ≠ s.manager.time + 1 :=
      List.filter_congr fun c hc => decide_eq_decide.mpr (hStays c hc)
    simp only [WorkerTimer.tick, hTick, hPending]
  have hFires : s.fires .tick = s.pending.filter fun c => c.node.expire = s.manager.time + 1 := by
    simp only [fires, hStep]
    refine List.filter_congr fun c hc => decide_eq_decide.mpr ?_
    rw [hStays c hc, not_not]
  refine ⟨manager, hStep, hTime, hFires, ?_, ?_⟩
  · rw [hList, hFires, List.filter_map, List.map_map]
    rfl
  · rw [hStep]
    exact ⟨hHolds, h.order, fun c hc => h.ids c (List.mem_of_mem_filter hc)⟩

/-- The number of the tick, counted from now, that takes the node of a pending call out. -/
def remaining (s : WorkerTimer) (c : TimeoutCall) : ℕ := (c.node.expire - s.manager.time).toNat

theorem Sound.remaining_pos {s : WorkerTimer} (h : s.Sound) {c : TimeoutCall} (hc : c ∈ s.pending) :
    0 < s.remaining c ∧ s.remaining c < 2 ^ 31 := by
  have hAhead := h.holds.ahead c.node (List.mem_map_of_mem hc)
  have hExpire := c.node.expire.toNat_lt
  have hTime := s.manager.time.toNat_lt
  rw [remaining, UInt32.toNat_sub]
  unfold Ahead at hAhead
  omega

theorem expire_iff (s : WorkerTimer) (c : TimeoutCall) :
    c.node.expire = s.manager.time + 1 ↔ s.remaining c = 1 := by
  have hExpire := c.node.expire.toNat_lt
  have hTime := s.manager.time.toNat_lt
  rw [remaining, UInt32.toNat_sub, ← UInt32.toNat_inj, UInt32.toNat_add]
  change _ = (_ + 1) % _ ↔ _
  omega

theorem Sound.mem_fires {s : WorkerTimer} (h : s.Sound) {c : TimeoutCall} :
    c ∈ s.fires .tick ↔ c ∈ s.pending ∧ s.remaining c = 1 := by
  obtain ⟨-, -, -, hFires, -, -⟩ := h.tick
  rw [hFires, List.mem_filter, decide_eq_true_eq, expire_iff]

theorem Sound.mem_tick {s : WorkerTimer} (h : s.Sound) {c : TimeoutCall} :
    c ∈ s.tick.pending ↔ c ∈ s.pending ∧ s.remaining c ≠ 1 := by
  obtain ⟨_, hStep, -⟩ := h.tick
  rw [hStep, List.mem_filter, decide_eq_true_eq, ne_eq, expire_iff]

theorem Sound.remaining_tick {s : WorkerTimer} (h : s.Sound) {c : TimeoutCall} (hc : c ∈ s.pending) :
    s.tick.remaining c = s.remaining c - 1 := by
  obtain ⟨manager, hStep, hTime, -⟩ := h.tick
  have hPos := (h.remaining_pos hc).1
  have hExpire := c.node.expire.toNat_lt
  have hNow := s.manager.time.toNat_lt
  rw [hStep]
  simp only [remaining, hTime] at hPos ⊢
  rw [UInt32.toNat_sub] at hPos
  rw [UInt32.toNat_sub, UInt32.toNat_sub, UInt32.toNat_add]
  change (_ - (_ + 1) % _ + _) % _ = _
  omega

theorem Sound.burst_tick {s : WorkerTimer} (h : s.Sound) : s.tick.burst = s.burst.tick := by
  obtain ⟨_, hStep, -⟩ := h.tick
  rw [hStep]
  rfl

theorem remaining_of_made {s : WorkerTimer} {l : Label} (hEnabled : s.enabled l) {c : TimeoutCall}
    (hc : c ∈ s.made l) : 0 < c.time ∧ s.remaining c = c.time.toNat ∧ c.id = s.calls := by
  cases l with
  | timeout readAt actorName timerName time =>
    rw [made] at hc
    split at hc
    · cases hc
    · next hPos =>
      obtain rfl := List.mem_singleton.mp hc
      have hLt := hEnabled.2.2
      refine ⟨by simpa using hPos, ?_, rfl⟩
      have hNat : (UInt32.ofInt time).toNat = time.toNat := by
        rw [TimerManager.ofInt_eq_ofNat (by omega) hLt, UInt32.toNat_ofNat']
        exact Nat.mod_eq_of_lt (by omega)
      simp only [remaining, UInt32.add_sub_cancel, hNat]
  | advance k | updatetime | tick | send => cases hc

theorem next_of_ne_tick (s : WorkerTimer) {l : Label} (hTick : l ≠ .tick) :
    (s.next l).pending = s.pending ++ s.made l ∧ (s.next l).manager.time = s.manager.time := by
  cases l with
  | tick => exact absurd rfl hTick
  | timeout readAt actorName timerName time =>
    exact ⟨rfl, TimerManager.timeout_time s.manager actorName timerName time⟩
  | updatetime =>
    have hNone : s.made .updatetime = [] := rfl
    rw [next, updatetime, hNone, List.append_nil]
    split
    · exact ⟨rfl, rfl⟩
    · split <;> exact ⟨rfl, rfl⟩
  | advance k | send => exact ⟨(List.append_nil _).symm, rfl⟩

theorem Sound.next {s : WorkerTimer} (h : s.Sound) {l : Label} (hEnabled : s.enabled l) :
    (s.next l).Sound := by
  cases l with
  | advance k => exact ⟨h.holds, Nat.le_add_right_of_le h.order, h.ids⟩
  | timeout readAt actorName timerName time =>
    constructor
    · simp only [WorkerTimer.next, made]
      split
      · next hNot =>
        rw [TimerManager.timeout, if_pos hNot, List.append_nil]
        exact h.holds
      · next hPos =>
        obtain ⟨hHolds, -, -⟩ := h.holds.timeout actorName timerName (by omega : 0 < time) hEnabled.2.2
        rw [List.map_append, List.map_singleton, UInt32.add_comm,
          TimerManager.ofInt_eq_ofNat (by omega) hEnabled.2.2]
        exact hHolds
    · exact h.order
    · intro c hc
      obtain hOld | hNew := List.mem_append.mp hc
      · exact Nat.lt_succ_of_lt (h.ids c hOld)
      · rw [(remaining_of_made hEnabled hNew).2.2]
        exact Nat.lt_succ_self _
  | updatetime =>
    have hOrder : s.updatetime.curPoint ≤ s.updatetime.clock := by
      rw [updatetime]
      split
      · exact Nat.le_refl _
      · split
        · exact Nat.le_refl _
        · exact h.order
    have hSame : s.updatetime.manager = s.manager ∧ s.updatetime.pending = s.pending ∧
        s.updatetime.calls = s.calls := by
      rw [updatetime]
      split
      · exact ⟨rfl, rfl, rfl⟩
      · split <;> exact ⟨rfl, rfl, rfl⟩
    obtain ⟨hManager, hPending, hCalls⟩ := hSame
    refine ⟨?_, hOrder, ?_⟩
    · rw [WorkerTimer.next, hManager, hPending]
      exact h.holds
    · rw [WorkerTimer.next, hPending, hCalls]
      exact h.ids
  | tick =>
    obtain ⟨-, -, -, -, -, hSound⟩ := h.tick
    exact hSound
  | send =>
    refine ⟨⟨fun p => ?_, h.holds.ahead⟩, h.order, h.ids⟩
    rw [show (s.next .send).manager.slot p = s.manager.slot p by cases p <;> rfl]
    exact h.holds.slot p

end WorkerTimer
end Myframe
