import Mathlib.Data.List.Nodup
import Myframe.Timer.Early
import Myframe.Timer.Thread

/-! # What becomes of a timeout

From `Timeout` to the main loop: each message passes the timeout list of the manager and the send queue
of the worker, in the order in which the timers ran out.
-/
namespace Myframe
set_option autoImplicit false

namespace WorkerTimer

/-- A call which, if it is still pending, runs out at the latest at the first reading of the clock
from `due` on. -/
structure DueBy (c : TimeoutCall) (due : ℕ) (s : WorkerTimer) : Prop where
  sound : s.Sound
  old : c.id < s.calls
  late : c ∈ s.pending → s.curPoint + s.remaining c ≤ due + s.pc.left

/-- The difference to the last reading fits into the type it is computed in. -/
def KeepsUp (s : WorkerTimer) : Label → Prop
  | .updatetime => s.clock - s.curPoint < 2 ^ 32
  | .advance _ | .timeout .. | .tick | .send => True

instance (s : WorkerTimer) (l : Label) : Decidable (s.KeepsUp l) :=
  match l with
  | .updatetime => inferInstanceAs (Decidable (s.clock - s.curPoint < 2 ^ 32))
  | .advance _ | .timeout .. | .tick | .send => .isTrue trivial

variable {s : WorkerTimer} {c : TimeoutCall} {due : ℕ}

theorem reading_next (h : s.Sound) {l : Label} (hEnabled : s.enabled l) (hTick : l ≠ .tick) (hKeeps : s.KeepsUp l) :
    (s.next l).curPoint + s.pc.left = s.curPoint + (s.next l).pc.left := by
  cases l with
  | tick => exact absurd rfl hTick
  | advance k | timeout readAt actorName timerName time => rfl
  | send =>
    have hPc : s.pc = .update 0 := hEnabled
    rw [hPc]
    rfl
  | updatetime =>
    have hPc : s.pc = .idle := hEnabled
    have hBurst : s.updatetime.burst = s.burst.read (2 ^ 32) := burst_updatetime h.order
    have hReading : s.updatetime.curPoint = s.clock := congrArg BurstClock.State.reading hBurst
    have hLeft : s.updatetime.pc.left = (s.clock - s.curPoint) % 2 ^ 32 := congrArg BurstClock.State.left hBurst
    have hOrder := h.order
    rw [Nat.mod_eq_of_lt hKeeps] at hLeft
    change s.updatetime.curPoint + s.pc.left = s.curPoint + s.updatetime.pc.left
    rw [hReading, hLeft, hPc, TimerPc.left]
    omega

theorem DueBy.next (h : s.DueBy c due) {l : Label} (hEnabled : s.enabled l) (hKeeps : s.KeepsUp l) :
    (s.next l).DueBy c due := by
  refine ⟨h.sound.next hEnabled, Nat.lt_of_lt_of_le h.old (calls_next h.sound l), fun hc => ?_⟩
  obtain rfl | hTick := eq_or_ne l .tick
  · have hLeft : 0 < s.pc.left := hEnabled
    obtain ⟨hOld, hNotDue⟩ := h.sound.mem_tick.mp hc
    have hLate := h.late hOld
    have hPos := (h.sound.remaining_pos hOld).1
    have hRemaining := h.sound.remaining_tick hOld
    have hBurst := h.sound.burst_tick
    have hReading : s.tick.curPoint = s.curPoint := congrArg BurstClock.State.reading hBurst
    have hLess : s.tick.pc.left = s.pc.left - 1 := congrArg BurstClock.State.left hBurst
    rw [WorkerTimer.next, hRemaining, hReading, hLess]
    omega
  · obtain ⟨hPending, hTime⟩ := s.next_of_ne_tick hTick
    have hRemaining : (s.next l).remaining c = s.remaining c := by rw [remaining, remaining, hTime]
    have hReading := reading_next h.sound hEnabled hTick hKeeps
    rw [hPending] at hc
    obtain hOld | hNew := List.mem_append.mp hc
    · have hLate := h.late hOld
      rw [hRemaining]
      omega
    · exact absurd (remaining_of_made hEnabled hNew).2.2 (Nat.ne_of_lt h.old)

theorem DueBy.made (h : s.Sound) {l : Label} (hEnabled : s.enabled l) (hc : c ∈ s.made l) :
    (s.next l).DueBy c (s.clock + c.time.toNat) := by
  obtain ⟨-, hWait, hId⟩ := remaining_of_made hEnabled hc
  have hOrder := h.order
  cases l with
  | timeout readAt actorName timerName time =>
    have hTime := (s.next_of_ne_tick (l := .timeout readAt actorName timerName time) (by rintro ⟨⟩)).2
    have hRemaining : (s.next (.timeout readAt actorName timerName time)).remaining c = s.remaining c := by
      rw [remaining, remaining, hTime]
    refine ⟨h.next hEnabled, hId ▸ Nat.lt_succ_self _, fun _ => ?_⟩
    rw [hRemaining, hWait]
    change s.curPoint + _ ≤ s.clock + _ + s.pc.left
    omega
  | advance k | updatetime | tick | send => cases hc

theorem DueBy.not_pending (h : s.DueBy c due) (hLeft : s.pc.left = 0) (hDue : due ≤ s.curPoint) :
    c ∉ s.pending := by
  intro hc
  have hLate := h.late hc
  have hPos := (h.sound.remaining_pos hc).1
  omega

end WorkerTimer

namespace TimerThread

def made (s : TimerThread) : Label → List TimeoutCall
  | .timer l => s.timer.made l
  | .check | .recvCmd | .sleep | .exit | .event | .main | .quit => []

def fires (s : TimerThread) : Label → List TimeoutCall
  | .timer l => s.timer.fires l
  | .check | .recvCmd | .sleep | .exit | .event | .main | .quit => []

def dispatched (s : TimerThread) : Label → List Msg
  | .main =>
    match s.event with
    | .dispatch => s.timer.send.take 1
    | .none | .receive => []
  | .timer _ | .check | .recvCmd | .sleep | .exit | .event | .quit => []

/-- What has run out and has not been dispatched. -/
def underWay (s : TimerThread) : List Msg := s.timer.send ++ s.timer.manager.timeoutList

/-- The thread is about to read the clock, or has been removed from the main loop. -/
def Settled (s : TimerThread) : Prop := s.pc = .work ∧ s.timer.pc = .idle ∨ s.registered = false

def KeepsUp (s : TimerThread) : Label → Prop
  | .timer l => s.timer.KeepsUp l
  | .check | .recvCmd | .sleep | .exit | .event | .main | .quit => True

instance (s : TimerThread) : Decidable s.Settled :=
  inferInstanceAs (Decidable (s.pc = .work ∧ s.timer.pc = .idle ∨ s.registered = false))

instance (s : TimerThread) (l : Label) : Decidable (s.KeepsUp l) :=
  match l with
  | .timer l => inferInstanceAs (Decidable (s.timer.KeepsUp l))
  | .check | .recvCmd | .sleep | .exit | .event | .main | .quit => .isTrue trivial

variable {s t : TimerThread} {l : Label}

theorem timerStep_timer (s : TimerThread) (l : WorkerTimer.Label) : (s.timerStep l).timer = s.timer.next l := by
  cases l <;> rfl

/-- Apart from its own steps the timer is touched by the main loop alone, which takes from the send queue. -/
theorem next_timer (s : TimerThread) (l : Label) :
    (∃ k, l = .timer k ∧ (s.next l).timer = s.timer.next k) ∨
      (∀ k, l ≠ .timer k) ∧ (s.next l).timer = { s.timer with send := (s.next l).timer.send } ∧
        s.timer.send = s.dispatched l ++ (s.next l).timer.send := by
  cases l with
  | timer k => exact .inl ⟨k, rfl, s.timerStep_timer k⟩
  | sleep | exit | event | quit => exact .inr ⟨by rintro k ⟨⟩, rfl, rfl⟩
  | check =>
    refine .inr ⟨by rintro k ⟨⟩, ?_⟩
    simp only [next, check]
    split
    · split <;> exact ⟨rfl, rfl⟩
    all_goals exact ⟨rfl, rfl⟩
  | recvCmd =>
    refine .inr ⟨by rintro k ⟨⟩, ?_⟩
    simp only [next, recvCmd]
    split <;> exact ⟨rfl, rfl⟩
  | main =>
    refine .inr ⟨by rintro k ⟨⟩, ?_⟩
    simp only [next, mainStep, dispatched]
    cases s.event with
    | none => exact ⟨rfl, rfl⟩
    | dispatch =>
      cases hSend : s.timer.send with
      | nil => exact ⟨rfl, hSend.symm⟩
      | cons m rest => exact ⟨rfl, rfl⟩
    | receive =>
      simp only [receive]
      split
      · exact ⟨rfl, rfl⟩
      · split <;> exact ⟨rfl, rfl⟩

theorem underWay_balance (h : s.Ordered) (hEnabled : s.enabled l) :
    s.underWay ++ (s.fires l).map TimeoutCall.msg = s.dispatched l ++ (s.next l).underWay := by
  obtain ⟨k, rfl, hTimer⟩ | ⟨hNot, hTimer, hSend⟩ := s.next_timer l
  · rw [underWay, underWay, hTimer]
    cases k with
    | advance n => exact List.append_nil _
    | timeout readAt actorName timerName time =>
      have hList := timeout_timeoutList s.timer.manager actorName timerName time
      simp [fires, dispatched, WorkerTimer.fires, WorkerTimer.next, hList]
    | updatetime =>
      have hSame : s.timer.updatetime.send = s.timer.send ∧ s.timer.updatetime.manager = s.timer.manager := by
        rw [WorkerTimer.updatetime]
        split
        · exact ⟨rfl, rfl⟩
        · split <;> exact ⟨rfl, rfl⟩
      simp [fires, dispatched, WorkerTimer.fires, WorkerTimer.next, hSame]
    | tick =>
      obtain ⟨manager, hTick, -, -, hList, -⟩ := h.sound.tick
      simp [fires, dispatched, WorkerTimer.next, hTick, hList]
    | send => simp [fires, dispatched, WorkerTimer.fires, WorkerTimer.next]
  · have hFires : s.fires l = [] := by
      cases l with
      | timer k => exact absurd rfl (hNot k)
      | check | recvCmd | sleep | exit | event | main | quit => rfl
    rw [hFires, List.map_nil, List.append_nil, underWay, underWay, hTimer, ← List.append_assoc, ← hSend]

theorem pending_balance (h : s.Ordered) (hEnabled : s.enabled l) :
    (s.timer.pending ++ s.made l).Perm (s.fires l ++ (s.next l).timer.pending) := by
  obtain ⟨k, rfl, hTimer⟩ | ⟨hNot, hTimer, -⟩ := s.next_timer l
  · rw [hTimer, made, fires]
    obtain rfl | hTick := eq_or_ne k .tick
    · obtain ⟨manager, hTick, -, hFires, -⟩ := h.sound.tick
      have hSplit := List.filter_append_perm (fun c : TimeoutCall => c.node.expire = s.timer.manager.time + 1)
        s.timer.pending
      simp only [← decide_not] at hSplit
      have hMade : s.timer.made .tick = [] := rfl
      rw [hFires, WorkerTimer.next, hTick, hMade, List.append_nil]
      exact hSplit.symm
    · rw [(s.timer.next_of_ne_tick hTick).1]
      cases k with
      | tick => exact absurd rfl hTick
      | advance n | timeout readAt actorName timerName time | updatetime | send => exact List.Perm.refl _
  · have hNone : s.made l = [] ∧ s.fires l = [] := by
      cases l with
      | timer k => exact absurd rfl (hNot k)
      | check | recvCmd | sleep | exit | event | main | quit => exact ⟨rfl, rfl⟩
    rw [hNone.1, hNone.2, hTimer, List.append_nil]
    exact List.Perm.refl _

/-- Calls are told apart by their numbers. -/
theorem made_sorted (h : s.Ordered) {ls : List Label} (hRuns : system.Runs s ls) :
    (∀ c ∈ system.emitted made s ls, s.timer.calls ≤ c.id) ∧
      (system.emitted made s ls).Pairwise fun c d => c.id < d.id := by
  induction ls generalizing s with
  | nil => exact ⟨List.forall_mem_nil _, List.Pairwise.nil⟩
  | cons l ls ih =>
    obtain ⟨hEnabled, hRest⟩ := system.runs_cons.mp hRuns
    obtain ⟨hFrom, hSorted⟩ := ih (h.next hEnabled) hRest
    have hSplit : system.emitted made s (l :: ls) = s.made l ++ system.emitted made (s.next l) ls := rfl
    have hCalls : s.timer.calls ≤ (s.next l).timer.calls ∧
        (s.made l = [] ∨ ∃ c, s.made l = [c] ∧ c.id = s.timer.calls ∧ s.timer.calls < (s.next l).timer.calls) := by
      obtain ⟨k, rfl, hTimer⟩ | ⟨hNot, hTimer, -⟩ := s.next_timer l
      · rw [hTimer]
        refine ⟨WorkerTimer.calls_next h.sound k, ?_⟩
        cases k with
        | timeout readAt actorName timerName time =>
          rw [made, WorkerTimer.made]
          split
          · exact .inl rfl
          · exact .inr ⟨_, rfl, rfl, Nat.lt_succ_self _⟩
        | advance n | updatetime | tick | send => exact .inl rfl
      · rw [hTimer]
        refine ⟨Nat.le_refl _, .inl ?_⟩
        cases l with
        | timer k => exact absurd rfl (hNot k)
        | check | recvCmd | sleep | exit | event | main | quit => rfl
    rw [hSplit]
    obtain ⟨hLe, hNone | ⟨c, hOne, hId, hLt⟩⟩ := hCalls
    · rw [hNone, List.nil_append]
      exact ⟨fun d hd => Nat.le_trans hLe (hFrom d hd), hSorted⟩
    · rw [hOne, List.singleton_append]
      refine ⟨List.forall_mem_cons.mpr ⟨Nat.le_of_eq hId.symm, fun d hd => Nat.le_trans hLe (hFrom d hd)⟩, ?_⟩
      refine List.pairwise_cons.mpr ⟨fun d hd => ?_, hSorted⟩
      rw [hId]
      exact Nat.lt_of_lt_of_le hLt (hFrom d hd)

theorem made_nodup (h : s.Ordered) {ls : List Label} (hRuns : system.Runs s ls) :
    (system.emitted made s ls).Nodup := by
  refine (made_sorted h hRuns).2.imp ?_
  rintro c d hLt rfl
  exact Nat.lt_irrefl _ hLt

theorem Ordered.of_settled (h : s.Ordered) (hSettled : s.Settled) : s.timer.send = [] ∧ s.timer.pc = .idle := by
  obtain ⟨hWork, hIdle⟩ | hRemoved := hSettled
  · refine ⟨?_, hIdle⟩
    cases h.phase with
    | working _ _ _ hSend => exact hSend
    | checked hPc | asked hPc | told hPc | ended hPc | removed hPc => cases hWork.symm.trans hPc
    | stopping hPc =>
      rw [hWork] at hPc
      obtain hPc | hPc := hPc <;> cases hPc
  · have hDone : s.pc = .done := by
      by_contra hNot
      cases hRemoved.symm.trans (h.registered hNot)
    refine ⟨?_, h.idle (by rw [hDone]; rintro ⟨⟩)⟩
    cases h.phase with
    | removed _ _ _ _ hSend => exact hSend
    | ended _ hRegistered => cases hRemoved.symm.trans hRegistered
    | checked hPc | asked hPc | told hPc => cases hDone.symm.trans hPc
    | working hPc | stopping hPc =>
      rw [hDone] at hPc
      obtain hPc | hPc := hPc <;> cases hPc

theorem Ordered.underWay_nil (h : s.Ordered) (hSettled : s.Settled) : s.underWay = [] := by
  obtain ⟨hSend, hIdle⟩ := h.of_settled hSettled
  rw [TimerThread.underWay, hSend, h.list hIdle, List.append_nil]

section Runs

variable {ls : List Label}

theorem calls_account (h : s.Ordered) (hPending : s.timer.pending = []) (hRuns : system.Runs s ls) :
    (system.emitted made s ls).Perm (system.emitted fires s ls ++ (system.exec s ls).timer.pending) := by
  have hStep : ∀ (s : TimerThread) (l : Label), s.Ordered → s.enabled l → True → (s.next l).Ordered :=
    fun s l h hEn _ => h.next hEn
  have hBalance : ∀ (s : TimerThread) (l : Label), s.Ordered → s.enabled l → True →
      (s.timer.pending ++ s.made l).Perm (s.fires l ++ (s.next l).timer.pending) :=
    fun s l h hEn _ => pending_balance h hEn
  have hAll := system.conservation_perm hStep hBalance h hRuns fun _ _ => trivial
  rwa [hPending, List.nil_append] at hAll

theorem messages_account (h : s.Ordered) (hNone : s.underWay = []) (hRuns : system.Runs s ls) :
    (system.emitted fires s ls).map TimeoutCall.msg =
      system.emitted dispatched s ls ++ (system.exec s ls).underWay := by
  have hStep : ∀ (s : TimerThread) (l : Label), s.Ordered → s.enabled l → True → (s.next l).Ordered :=
    fun s l h hEn _ => h.next hEn
  have hBalance : ∀ (s : TimerThread) (l : Label), s.Ordered → s.enabled l → True →
      s.underWay ++ (s.fires l).map TimeoutCall.msg = s.dispatched l ++ (s.next l).underWay :=
    fun s l h hEn _ => underWay_balance h hEn
  have hAll := system.conservation hStep hBalance h hRuns fun _ _ => trivial
  rw [hNone, List.nil_append] at hAll
  rw [← hAll]
  exact List.map_flatMap

/-- For every interleaving of the thread, the main loop, the clock and the calls of `Timeout`: a call runs
out once at most, and the messages of those that have run out are dispatched, each once and in this order. Before
the thread reads the clock again none of them is still under way. -/
theorem dispatched_in_order (time : UInt32) (clock : ℕ) (ls : List Label)
    (hRuns : system.Runs (initial time clock) ls) :
    (system.emitted made (initial time clock) ls).Nodup ∧
      (system.emitted made (initial time clock) ls).Perm (system.emitted fires (initial time clock) ls ++
        (system.exec (initial time clock) ls).timer.pending) ∧
      (system.emitted fires (initial time clock) ls).map TimeoutCall.msg =
        system.emitted dispatched (initial time clock) ls ++ (system.exec (initial time clock) ls).underWay ∧
      ((system.exec (initial time clock) ls).Settled → (system.exec (initial time clock) ls).underWay = []) := by
  have hStart := Ordered.initial time clock
  have hEnd := ordered_visited time clock ls hRuns _ (system.mem_visited_of_exec _ ls)
  exact ⟨made_nodup hStart hRuns, calls_account hStart rfl hRuns, messages_account hStart rfl hRuns,
    hEnd.underWay_nil⟩

theorem dueBy_next {c : TimeoutCall} {due : ℕ} (h : s.timer.DueBy c due) (hEnabled : s.enabled l)
    (hKeeps : s.KeepsUp l) : (s.next l).timer.DueBy c due := by
  obtain ⟨k, rfl, hTimer⟩ | ⟨-, hTimer, -⟩ := s.next_timer l
  · rw [hTimer]
    exact h.next hEnabled.1 hKeeps
  · rw [hTimer]
    exact ⟨⟨h.sound.holds, h.sound.order, h.sound.ids⟩, h.old, h.late⟩

theorem dueBy_made (h : s.Ordered) (hEnabled : s.enabled l) {c : TimeoutCall} (hc : c ∈ s.made l) :
    (s.next l).timer.DueBy c (s.timer.clock + c.time.toNat) := by
  cases l with
  | timer k =>
    rw [next, timerStep_timer]
    exact WorkerTimer.DueBy.made h.sound hEnabled.1 hc
  | check | recvCmd | sleep | exit | event | main | quit => cases hc

theorem dueBy_exec {c : TimeoutCall} {due : ℕ} (h : s.timer.DueBy c due) (hRuns : system.Runs s ls)
    (hKeeps : ∀ p ∈ system.steps s ls, p.1.KeepsUp p.2) : (system.exec s ls).timer.DueBy c due := by
  have hStep : ∀ (s : TimerThread) (l : Label), s.timer.DueBy c due → s.enabled l → s.KeepsUp l →
      (s.next l).timer.DueBy c due := fun s l h hEn hl => dueBy_next h hEn hl
  exact system.inv_visited hStep h hRuns hKeeps _ (system.mem_visited_of_exec s ls)

/-- A call made when the clock stands at `t` has run out, and its message has been dispatched, when the thread
has made good for a reading of `t` and the time called for, or of more. -/
theorem never_late (time : UInt32) (clock : ℕ) (ls : List Label) (l : Label) (ms : List Label)
    (hRuns : system.Runs (initial time clock) (ls ++ l :: ms))
    (hKeeps : ∀ p ∈ system.steps (initial time clock) (ls ++ l :: ms), p.1.KeepsUp p.2) (c : TimeoutCall)
    (hc : c ∈ (system.exec (initial time clock) ls).made l)
    (hSettled : (system.exec (initial time clock) (ls ++ l :: ms)).Settled)
    (hDue : (system.exec (initial time clock) ls).timer.clock + c.time.toNat ≤
      (system.exec (initial time clock) (ls ++ l :: ms)).timer.curPoint) :
    (system.emitted fires (initial time clock) (ls ++ l :: ms)).count c = 1 ∧
      system.emitted dispatched (initial time clock) (ls ++ l :: ms) =
        (system.emitted fires (initial time clock) (ls ++ l :: ms)).map TimeoutCall.msg := by
  have hStart := Ordered.initial time clock
  have hEnd := ordered_visited time clock _ hRuns _ (system.mem_visited_of_exec _ _)
  obtain ⟨hBefore, hAfter⟩ := system.runs_append.mp hRuns
  obtain ⟨hEnabled, hRest⟩ := system.runs_cons.mp hAfter
  have hCall := ordered_visited time clock ls hBefore _ (system.mem_visited_of_exec _ ls)
  have hNotPending : c ∉ (system.exec (initial time clock) (ls ++ l :: ms)).timer.pending := by
    have hExec : system.exec (initial time clock) (ls ++ l :: ms) =
        system.exec ((system.exec (initial time clock) ls).next l) ms := system.exec_append _ ls (l :: ms)
    rw [system.steps_append] at hKeeps
    have hKeeps := (List.forall_mem_cons.mp (List.forall_mem_append.mp hKeeps).2).2
    have hDueBy := dueBy_exec (dueBy_made hCall hEnabled hc) hRest hKeeps
    rw [← hExec] at hDueBy
    have hLeft := congrArg TimerPc.left (hEnd.of_settled hSettled).2
    exact hDueBy.not_pending hLeft hDue
  have hMade : c ∈ system.emitted made (initial time clock) (ls ++ l :: ms) := by
    rw [system.emitted_append]
    exact List.mem_append_right _ (List.mem_append_left _ hc)
  have hCount := (calls_account hStart rfl hRuns).count_eq c
  rw [List.count_eq_one_of_mem (made_nodup hStart hRuns) hMade, List.count_append,
    List.count_eq_zero_of_not_mem hNotPending] at hCount
  refine ⟨hCount.symm, ?_⟩
  rw [messages_account hStart rfl hRuns, hEnd.underWay_nil hSettled, List.append_nil]

end Runs

def round : List Label :=
  [.timer (.advance 2), .timer .updatetime, .timer .tick, .timer .tick, .timer .tick, .timer .send, .check,
    .event, .main, .main, .main, .recvCmd, .sleep]

def roundRun : List Label := [.timer (.advance 1)] ++ .timer (.timeout 1 "actor.a.1" "t" 2) :: round

theorem dispatched_in_order_round :
    system.emitted dispatched (initial 0 0) roundRun = [TimerManager.timeoutMsg "actor.a.1" "t"] ∧
      (system.emitted fires (initial 0 0) roundRun).map TimeoutCall.msg =
        system.emitted dispatched (initial 0 0) roundRun ++ (system.exec (initial 0 0) roundRun).underWay := by
  have hAll := dispatched_in_order 0 0 roundRun (by decide +kernel)
  exact ⟨by decide +kernel, hAll.2.2.1⟩

theorem never_late_round :
    (system.emitted fires (initial 0 0) roundRun).count ⟨0, 1, 2, ⟨"actor.a.1", "t", 2⟩⟩ = 1 ∧
      system.emitted dispatched (initial 0 0) roundRun =
        (system.emitted fires (initial 0 0) roundRun).map TimeoutCall.msg :=
  never_late 0 0 [.timer (.advance 1)] (.timer (.timeout 1 "actor.a.1" "t" 2)) round (by decide +kernel)
    (by decide +kernel) ⟨0, 1, 2, ⟨"actor.a.1", "t", 2⟩⟩ (by decide +kernel) (by decide +kernel) (by decide +kernel)

end TimerThread
end Myframe
