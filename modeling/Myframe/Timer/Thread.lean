import Myframe.CmdChannel
import Myframe.Timer.WorkerTimer

/-! # The thread of the timer

The thread makes its rounds: it hands what has timed out to its send queue and, if there is something in it
or a second has gone by, has the main loop dispatch it and waits for the answer. Any other command than the
answer can only be a `kQuit`.
-/
namespace Myframe
set_option autoImplicit false

/-- Where the thread stands: in `Work`, behind it with what it returned, in `RecvFromMain`, before
`sleep_for`, behind its loop, at its end. -/
inductive ThreadPc where
  | work
  | check (dispatch : ℕ)
  | wait
  | sleep
  | exit
  | done
  deriving DecidableEq, Repr

/-- Where the main loop stands in `ProcessTimerEvent`. -/
inductive TimerEvent where
  | none
  | dispatch
  | receive
  deriving DecidableEq, Repr

structure TimerThread where
  timer : WorkerTimer
  pc : ThreadPc := .work
  curUs : ℕ := 0
  runing : Bool := true
  channel : CmdChannel := {}
  registered : Bool := true
  event : TimerEvent := .none

namespace TimerThread

def sleepUs : ℕ := 2500

def dispatchTimeoutUs : ℕ := 1000000

/-- Of the steps of `WorkerTimer`, three are the thread's own. -/
inductive Label where
  | timer (l : WorkerTimer.Label)
  | check
  | recvCmd
  | sleep
  | exit
  | event
  | main
  | quit

def initial (time : UInt32) (clock : ℕ) : TimerThread where
  timer := .initial time clock

/-- The condition in `Run`. -/
def check (s : TimerThread) (dispatch : ℕ) : TimerThread :=
  if dispatch ≠ 0 ∨ dispatchTimeoutUs ≤ s.curUs then
    { s with pc := .wait, channel := s.channel.sendToMain .kIdle }
  else { s with pc := .sleep }

/-- The end of `DispatchMsg`. -/
def recvCmd (s : TimerThread) : TimerThread :=
  match s.channel.toOwner with
  | [] => s
  | cmd :: rest =>
    { s with
      pc := .sleep
      curUs := 0
      runing := if cmd = .kQuit then false else s.runing
      channel := { s.channel with toOwner := rest } }

/-- The end of `Run`, and the condition of the loop in `ListenThread`. -/
def sleep (s : TimerThread) : TimerThread :=
  { s with pc := if s.runing = true then .work else .exit, curUs := s.curUs + sleepUs }

def receive (s : TimerThread) : TimerThread :=
  match s.channel.toMain with
  | [] => { s with event := .none }
  | cmd :: rest =>
    let s := { s with event := .none, channel := { s.channel with toMain := rest } }
    match cmd with
    | .kIdle => { s with channel := s.channel.sendToOwner .kRun }
    | .kQuit => { s with registered := false }
    | .kWaitForMsg | .kRun | .kRunWithMsg => s

def mainStep (s : TimerThread) : TimerThread :=
  match s.event with
  | .none => s
  | .dispatch =>
    match s.timer.send with
    | [] => { s with event := .receive }
    | _ :: rest => { s with timer := { s.timer with send := rest } }
  | .receive => s.receive

def timerStep (s : TimerThread) (l : WorkerTimer.Label) : TimerThread :=
  let timer := s.timer.next l
  match l with
  | .send => { s with timer := timer, pc := .check timer.send.length }
  | .advance _ | .timeout .. | .updatetime | .tick => { s with timer := timer }

def next (s : TimerThread) : Label → TimerThread
  | .timer l => s.timerStep l
  | .check =>
    match s.pc with
    | .check dispatch => s.check dispatch
    | .work | .wait | .sleep | .exit | .done => s
  | .recvCmd => s.recvCmd
  | .sleep => s.sleep
  | .exit => { s with pc := .done, channel := s.channel.sendToMain .kQuit }
  | .event => { s with event := .dispatch }
  | .main => s.mainStep
  | .quit => { s with channel := s.channel.sendToOwner .kQuit }

def enabled (s : TimerThread) : Label → Prop
  | .timer l => s.timer.enabled l ∧
    match l with
    | .updatetime | .tick | .send => s.pc = .work
    | .advance _ | .timeout .. => True
  | .check => ∃ dispatch, s.pc = .check dispatch
  | .recvCmd => s.pc = .wait ∧ s.channel.toOwner ≠ []
  | .sleep => s.pc = .sleep
  | .exit => s.pc = .exit
  | .event => s.event = .none ∧ s.registered = true ∧ s.channel.toMain ≠ []
  | .main => s.event ≠ .none
  | .quit => True

def system : Transition.System TimerThread Label where
  enabled s l := s.enabled l
  next s l := s.next l

instance (s : TimerThread) (l : Label) : Decidable (system.enabled s l) :=
  match l with
  | .timer .updatetime | .timer .tick | .timer .send =>
    inferInstanceAs (Decidable (s.timer.enabled _ ∧ s.pc = .work))
  | .timer (.advance _) | .timer (.timeout ..) => inferInstanceAs (Decidable (s.timer.enabled _ ∧ True))
  | .check => match h : s.pc with
    | .check dispatch => .isTrue ⟨dispatch, h⟩
    | .work | .wait | .sleep | .exit | .done => .isFalse (by rintro ⟨n, hn⟩; cases h.symm.trans hn)
  | .recvCmd => inferInstanceAs (Decidable (s.pc = .wait ∧ s.channel.toOwner ≠ []))
  | .sleep => inferInstanceAs (Decidable (s.pc = .sleep))
  | .exit => inferInstanceAs (Decidable (s.pc = .exit))
  | .event => inferInstanceAs (Decidable (s.event = .none ∧ s.registered = true ∧ s.channel.toMain ≠ []))
  | .main => inferInstanceAs (Decidable (s.event ≠ .none))
  | .quit => .isTrue trivial

/-- Nobody owes anybody an answer. -/
structure Quiet (s : TimerThread) : Prop where
  toMain : s.channel.toMain = []
  event : s.event = .none
  toOwner : s.channel.toOwner.count .kRun = 0

/-- The thread works on its send queue, or has left it to the main loop until there is an answer, or, after
a `kQuit`, for good. -/
inductive Phase (s : TimerThread) : Prop
  | working (hPc : s.pc = .work ∨ s.pc = .sleep) (hRuns : s.runing = true) (hQuiet : s.Quiet)
      (hSend : s.timer.send = [])
  | checked (hPc : s.pc = .check s.timer.send.length) (hRuns : s.runing = true) (hQuiet : s.Quiet)
  | asked (hPc : s.pc = .wait) (hRuns : s.runing = true) (hMain : s.channel.toMain = [.kIdle])
      (hOwner : s.channel.toOwner.count .kRun = 0)
  | told (hPc : s.pc = .wait) (hRuns : s.runing = true) (hMain : s.channel.toMain = [])
      (hEvent : s.event = .none) (hOwner : s.channel.toOwner.count .kRun = 1) (hSend : s.timer.send = [])
  | stopping (hPc : s.pc = .sleep ∨ s.pc = .exit) (hStops : s.runing = false)
      (hMain : s.channel.toMain = [.kIdle] ∨
        s.channel.toMain = [] ∧ s.event = .none ∧ s.timer.send = [])
  | ended (hPc : s.pc = .done) (hRegistered : s.registered = true)
      (hMain : s.channel.toMain = [.kIdle, .kQuit] ∨ s.channel.toMain = [.kQuit])
  | removed (hPc : s.pc = .done) (hRegistered : s.registered = false) (hMain : s.channel.toMain = [])
      (hEvent : s.event = .none) (hSend : s.timer.send = [])

structure Ordered (s : TimerThread) : Prop where
  phase : s.Phase
  sound : s.timer.Sound
  registered : s.pc ≠ .done → s.registered = true
  idle : s.pc ≠ .work → s.timer.pc = .idle
  list : s.timer.pc = .idle → s.timer.manager.timeoutList = []
  command : s.event ≠ .none → s.channel.toMain ≠ []
  drained : s.event = .receive → s.timer.send = []
  toOwner : ∀ cmd ∈ s.channel.toOwner, cmd = .kRun ∨ cmd = .kQuit

variable {s t : TimerThread}

theorem Quiet.of_same (h : s.Quiet) (hChannel : t.channel = s.channel) (hEvent : t.event = s.event) :
    t.Quiet := by
  refine ⟨?_, hEvent.trans h.event, ?_⟩
  · rw [hChannel]
    exact h.toMain
  · rw [hChannel]
    exact h.toOwner

theorem Phase.of_same (h : s.Phase) (hPc : t.pc = s.pc) (hRuns : t.runing = s.runing)
    (hChannel : t.channel = s.channel) (hRegistered : t.registered = s.registered) (hEvent : t.event = s.event)
    (hSend : t.timer.send = s.timer.send) : t.Phase := by
  cases h with
  | working h1 h2 h3 h4 =>
    exact .working (by rwa [hPc]) (hRuns.trans h2) (h3.of_same hChannel hEvent) (hSend.trans h4)
  | checked h1 h2 h3 => exact .checked (by rw [hPc, hSend, h1]) (hRuns.trans h2) (h3.of_same hChannel hEvent)
  | asked h1 h2 h3 h4 => exact .asked (hPc.trans h1) (hRuns.trans h2) (hChannel ▸ h3) (hChannel ▸ h4)
  | told h1 h2 h3 h4 h5 h6 =>
    exact .told (hPc.trans h1) (hRuns.trans h2) (hChannel ▸ h3) (hEvent.trans h4) (hChannel ▸ h5) (hSend.trans h6)
  | stopping h1 h2 h3 => exact .stopping (by rwa [hPc]) (hRuns.trans h2) (by rwa [hChannel, hEvent, hSend])
  | ended h1 h2 h3 => exact .ended (hPc.trans h1) (hRegistered.trans h2) (by rwa [hChannel])
  | removed h1 h2 h3 h4 h5 =>
    exact .removed (hPc.trans h1) (hRegistered.trans h2) (hChannel ▸ h3) (hEvent.trans h4) (hSend.trans h5)

theorem Phase.busy (h : s.Phase) (hEvent : s.event ≠ .none) (hPc : t.pc = s.pc) (hRuns : t.runing = s.runing)
    (hChannel : t.channel = s.channel) (hRegistered : t.registered = s.registered) : t.Phase := by
  cases h with
  | working _ _ hQuiet _ | checked _ _ hQuiet => exact absurd hQuiet.event hEvent
  | told _ _ _ hNone _ _ | removed _ _ _ hNone _ => exact absurd hNone hEvent
  | asked h1 h2 h3 h4 => exact .asked (hPc.trans h1) (hRuns.trans h2) (hChannel ▸ h3) (hChannel ▸ h4)
  | stopping h1 h2 h3 =>
    obtain h3 | ⟨-, hNone, -⟩ := h3
    · exact .stopping (by rwa [hPc]) (hRuns.trans h2) (.inl (hChannel ▸ h3))
    · exact absurd hNone hEvent
  | ended h1 h2 h3 => exact .ended (hPc.trans h1) (hRegistered.trans h2) (by rwa [hChannel])

theorem Ordered.initial (time : UInt32) (clock : ℕ) : (initial time clock).Ordered where
  phase := .working (.inl rfl) rfl ⟨rfl, rfl, rfl⟩ rfl
  sound := .initial time clock
  registered _ := rfl
  idle _ := rfl
  list _ := rfl
  command hEvent := absurd rfl hEvent
  drained hEvent := by cases hEvent
  toOwner _ hCmd := by cases hCmd

theorem Ordered.timer (h : s.Ordered) (hPc : t.pc = s.pc) (hRuns : t.runing = s.runing)
    (hChannel : t.channel = s.channel) (hRegistered : t.registered = s.registered) (hEvent : t.event = s.event)
    (hSend : t.timer.send = s.timer.send) (hSound : t.timer.Sound)
    (hIdle : s.pc ≠ .work → t.timer.pc = .idle) (hList : t.timer.pc = .idle → t.timer.manager.timeoutList = []) :
    t.Ordered where
  phase := h.phase.of_same hPc hRuns hChannel hRegistered hEvent hSend
  sound := hSound
  registered hNot := hRegistered.trans (h.registered (hPc ▸ hNot))
  idle hNot := hIdle (hPc ▸ hNot)
  list := hList
  command hSome := hChannel ▸ h.command (hEvent ▸ hSome)
  drained hReceive := hSend.trans (h.drained (hEvent ▸ hReceive))
  toOwner := hChannel ▸ h.toOwner

theorem timeout_timeoutList (m : TimerManager) (actorName timerName : String) (time : ℤ) :
    (m.timeout actorName timerName time).1.timeoutList = m.timeoutList := by
  rw [TimerManager.timeout]
  split
  · rfl
  · rw [TimerManager.addTimerNode_eq, TimerManager.setSlot_timeoutList]

theorem Ordered.timerStep (h : s.Ordered) {l : WorkerTimer.Label} (hEn : s.enabled (.timer l)) :
    (s.timerStep l).Ordered := by
  have hSound := h.sound.next hEn.1
  cases l with
  | advance k => exact h.timer rfl rfl rfl rfl rfl rfl hSound h.idle h.list
  | timeout readAt actorName timerName time =>
    refine h.timer rfl rfl rfl rfl rfl rfl hSound h.idle fun hIdle => ?_
    exact (timeout_timeoutList ..).trans (h.list hIdle)
  | updatetime =>
    have hBusy : s.timer.updatetime.pc ≠ .idle := by
      rw [WorkerTimer.updatetime]
      split
      · rintro ⟨⟩
      · split <;> rintro ⟨⟩
    have hSend : s.timer.updatetime.send = s.timer.send := by
      rw [WorkerTimer.updatetime]
      split
      · rfl
      · split <;> rfl
    exact h.timer rfl rfl rfl rfl rfl hSend hSound (fun hNot => absurd hEn.2 hNot)
      fun hIdle => absurd hIdle hBusy
  | tick =>
    obtain ⟨manager, hTick, -⟩ := h.sound.tick
    have hSame : s.timer.tick.send = s.timer.send ∧ s.timer.tick.pc ≠ .idle := by
      rw [hTick]
      exact ⟨rfl, by rintro ⟨⟩⟩
    exact h.timer rfl rfl rfl rfl rfl hSame.1 hSound (fun hNot => absurd hEn.2 hNot)
      fun hIdle => absurd hIdle hSame.2
  | send =>
    obtain ⟨-, hWork⟩ := hEn
    have hQuiet : s.runing = true ∧ s.Quiet := by
      cases h.phase with
      | working _ hRuns hQuiet _ => exact ⟨hRuns, hQuiet⟩
      | checked hPc | asked hPc | told hPc | ended hPc | removed hPc => cases hWork.symm.trans hPc
      | stopping hPc =>
        rw [hWork] at hPc
        obtain hPc | hPc := hPc <;> cases hPc
    exact {
      phase := .checked rfl hQuiet.1 (hQuiet.2.of_same rfl rfl)
      sound := hSound
      registered := fun _ => h.registered (by rw [hWork]; rintro ⟨⟩)
      idle := fun _ => rfl
      list := fun _ => rfl
      command := h.command
      drained := fun hReceive => by cases hReceive.symm.trans hQuiet.2.event
      toOwner := h.toOwner }

theorem Ordered.check (h : s.Ordered) {dispatch : ℕ} (hPc : s.pc = .check dispatch) :
    (s.check dispatch).Ordered := by
  obtain ⟨hSize, hRuns, hQuiet⟩ : dispatch = s.timer.send.length ∧ s.runing = true ∧ s.Quiet := by
    cases h.phase with
    | checked hChecked hRuns hQuiet => exact ⟨ThreadPc.check.inj (hPc.symm.trans hChecked), hRuns, hQuiet⟩
    | asked hOther | told hOther | ended hOther | removed hOther => cases hPc.symm.trans hOther
    | working hOther | stopping hOther =>
      rw [hPc] at hOther
      obtain hOther | hOther := hOther <;> cases hOther
  have hIdle : s.timer.pc = .idle := h.idle (by rw [hPc]; rintro ⟨⟩)
  have hRegistered : s.registered = true := h.registered (by rw [hPc]; rintro ⟨⟩)
  rw [TimerThread.check]
  split
  · constructor
    · refine .asked rfl hRuns ?_ hQuiet.toOwner
      simp only [CmdChannel.sendToMain_toMain, hQuiet.toMain, List.nil_append]
    · exact h.sound
    · exact fun _ => hRegistered
    · exact fun _ => hIdle
    · exact h.list
    · exact fun _ => List.append_ne_nil_of_right_ne_nil _ (List.cons_ne_nil _ _)
    · exact h.drained
    · exact h.toOwner
  · next hNot =>
    have hNil : s.timer.send = [] := by
      rw [hSize] at hNot
      exact List.length_eq_zero_iff.mp (not_not.mp (not_or.mp hNot).1)
    exact ⟨.working (.inr rfl) hRuns (hQuiet.of_same rfl rfl) hNil, h.sound, fun _ => hRegistered, fun _ => hIdle,
      h.list, h.command, h.drained, h.toOwner⟩

theorem Ordered.recvCmd (h : s.Ordered) (hWait : s.pc = .wait) {cmd : Cmd} {rest : List Cmd}
    (hQueue : s.channel.toOwner = cmd :: rest) : s.recvCmd.Ordered := by
  have hCmd : cmd = .kRun ∨ cmd = .kQuit := h.toOwner cmd (hQueue ▸ List.mem_cons_self)
  have hIdle : s.timer.pc = .idle := h.idle (by rw [hWait]; rintro ⟨⟩)
  have hRegistered : s.registered = true := h.registered (by rw [hWait]; rintro ⟨⟩)
  have hPhase : s.recvCmd.Phase := by
    simp only [TimerThread.recvCmd, hQueue]
    cases h.phase with
    | asked _ hRuns hMain hOwner =>
      obtain rfl | rfl := hCmd
      · rw [hQueue, List.count_cons_self] at hOwner
        cases hOwner
      · exact .stopping (.inl rfl) rfl (.inl hMain)
    | told _ hRuns hMain hEvent hOwner hSend =>
      obtain rfl | rfl := hCmd
      · refine .working (.inr rfl) hRuns ⟨hMain, hEvent, ?_⟩ hSend
        rw [hQueue, List.count_cons_self] at hOwner
        exact Nat.succ.inj hOwner
      · exact .stopping (.inl rfl) rfl (.inr ⟨hMain, hEvent, hSend⟩)
    | checked hPc | ended hPc | removed hPc => cases hWait.symm.trans hPc
    | working hPc | stopping hPc =>
      rw [hWait] at hPc
      obtain hPc | hPc := hPc <;> cases hPc
  simp only [TimerThread.recvCmd, hQueue] at hPhase ⊢
  exact ⟨hPhase, h.sound, fun _ => hRegistered, fun _ => hIdle, h.list, h.command, h.drained,
    fun c hc => h.toOwner c (hQueue ▸ List.mem_cons_of_mem cmd hc)⟩

theorem Ordered.sleep (h : s.Ordered) (hSleep : s.pc = .sleep) : s.sleep.Ordered := by
  have hIdle : s.timer.pc = .idle := h.idle (by rw [hSleep]; rintro ⟨⟩)
  have hRegistered : s.registered = true := h.registered (by rw [hSleep]; rintro ⟨⟩)
  refine ⟨?_, h.sound, fun _ => hRegistered, fun _ => hIdle, h.list, h.command, h.drained, h.toOwner⟩
  cases h.phase with
  | working _ hRuns hQuiet hSend =>
    refine .working (.inl ?_) hRuns (hQuiet.of_same rfl rfl) hSend
    rw [TimerThread.sleep, if_pos hRuns]
  | stopping _ hStops hMain =>
    refine .stopping (.inr ?_) hStops hMain
    rw [TimerThread.sleep, if_neg (by rw [hStops]; rintro ⟨⟩)]
  | checked hPc | asked hPc | told hPc | ended hPc | removed hPc => cases hSleep.symm.trans hPc

theorem Ordered.exit (h : s.Ordered) (hExit : s.pc = .exit) : (s.next .exit).Ordered := by
  have hIdle : s.timer.pc = .idle := h.idle (by rw [hExit]; rintro ⟨⟩)
  have hRegistered : s.registered = true := h.registered (by rw [hExit]; rintro ⟨⟩)
  refine ⟨?_, h.sound, fun hNot => absurd rfl hNot, fun _ => hIdle, h.list,
    fun _ => List.append_ne_nil_of_right_ne_nil _ (List.cons_ne_nil _ _), h.drained, h.toOwner⟩
  cases h.phase with
  | stopping _ _ hMain =>
    refine .ended rfl hRegistered ?_
    obtain hMain | ⟨hMain, -⟩ := hMain
    · exact .inl (by simp [TimerThread.next, hMain])
    · exact .inr (by simp [TimerThread.next, hMain])
  | checked hPc | asked hPc | told hPc | ended hPc | removed hPc => cases hExit.symm.trans hPc
  | working hPc =>
    rw [hExit] at hPc
    obtain hPc | hPc := hPc <;> cases hPc

theorem Ordered.event (h : s.Ordered) (hMain : s.channel.toMain ≠ []) :
    (s.next .event).Ordered := by
  refine ⟨?_, h.sound, h.registered, h.idle, h.list, fun _ => hMain, by rintro ⟨⟩, h.toOwner⟩
  cases h.phase with
  | working _ _ hQuiet _ | checked _ _ hQuiet => exact absurd hQuiet.toMain hMain
  | told _ _ hNil _ _ _ | removed _ _ hNil _ _ => exact absurd hNil hMain
  | asked h1 h2 h3 h4 => exact .asked h1 h2 h3 h4
  | stopping h1 h2 h3 =>
    obtain h3 | ⟨hNil, -⟩ := h3
    · exact .stopping h1 h2 (.inl h3)
    · exact absurd hNil hMain
  | ended h1 h2 h3 => exact .ended h1 h2 h3

theorem Ordered.receive (h : s.Ordered) (hEvent : s.event = .receive) : s.receive.Ordered := by
  have hSend := h.drained hEvent
  have hSome : s.event ≠ .none := by rw [hEvent]; rintro ⟨⟩
  have hRun : ∀ cmd ∈ s.channel.toOwner ++ [.kRun], cmd = .kRun ∨ cmd = .kQuit := by
    intro cmd hCmd
    obtain hCmd | hCmd := List.mem_append.mp hCmd
    · exact h.toOwner cmd hCmd
    · exact .inl (List.mem_singleton.mp hCmd)
  cases h.phase with
  | working _ _ hQuiet _ | checked _ _ hQuiet => exact absurd hQuiet.event hSome
  | told _ _ _ hNo _ _ | removed _ _ _ hNo _ => exact absurd hNo hSome
  | asked hPc hRuns hMain hOwner =>
    simp only [TimerThread.receive, hMain]
    refine ⟨.told hPc hRuns rfl rfl ?_ hSend, h.sound, h.registered, h.idle, h.list,
      fun hNot => absurd rfl hNot, fun _ => hSend, hRun⟩
    rw [CmdChannel.sendToOwner_toOwner, List.count_append, hOwner]
    rfl
  | stopping hPc hStops hMain =>
    obtain hMain | ⟨-, hEvent, -⟩ := hMain
    · simp only [TimerThread.receive, hMain]
      exact ⟨.stopping hPc hStops (.inr ⟨rfl, rfl, hSend⟩), h.sound, h.registered, h.idle, h.list,
        fun hNot => absurd rfl hNot, fun _ => hSend, hRun⟩
    · exact absurd hEvent hSome
  | ended hPc hRegistered hMain =>
    obtain hMain | hMain := hMain
    · simp only [TimerThread.receive, hMain]
      exact ⟨.ended hPc hRegistered (.inr rfl), h.sound, h.registered, h.idle, h.list,
      fun hNot => absurd rfl hNot, fun _ => hSend, hRun⟩
    · simp only [TimerThread.receive, hMain]
      exact ⟨.removed hPc rfl rfl rfl hSend, h.sound, fun hNot => absurd hPc hNot, h.idle, h.list,
        fun hNot => absurd rfl hNot, fun _ => hSend, h.toOwner⟩

theorem Ordered.mainStep (h : s.Ordered) : s.mainStep.Ordered := by
  cases hEvent : s.event with
  | none =>
    simp only [TimerThread.mainStep, hEvent]
    exact h
  | receive =>
    simp only [TimerThread.mainStep, hEvent]
    exact h.receive hEvent
  | dispatch =>
    have hSome : s.event ≠ .none := by rw [hEvent]; rintro ⟨⟩
    cases hSend : s.timer.send with
    | nil =>
      simp only [TimerThread.mainStep, hEvent, hSend]
      exact ⟨h.phase.busy hSome rfl rfl rfl rfl, h.sound, h.registered, h.idle, h.list, fun _ => h.command hSome,
        fun _ => hSend, h.toOwner⟩
    | cons m rest =>
      simp only [TimerThread.mainStep, hEvent, hSend]
      refine ⟨h.phase.busy hSome rfl rfl rfl rfl, ⟨h.sound.holds, h.sound.order, h.sound.ids⟩, h.registered, h.idle,
        h.list, fun _ => h.command hSome, fun hReceive => ?_, h.toOwner⟩
      cases hReceive

theorem Ordered.quit (h : s.Ordered) : (s.next .quit).Ordered := by
  have hCount : (s.channel.toOwner ++ [Cmd.kQuit]).count .kRun = s.channel.toOwner.count .kRun := by
    rw [List.count_append]
    rfl
  refine ⟨?_, h.sound, h.registered, h.idle, h.list, h.command, h.drained, fun cmd hCmd => ?_⟩
  · cases h.phase with
    | working h1 h2 h3 h4 => exact .working h1 h2 ⟨h3.toMain, h3.event, hCount.trans h3.toOwner⟩ h4
    | checked h1 h2 h3 => exact .checked h1 h2 ⟨h3.toMain, h3.event, hCount.trans h3.toOwner⟩
    | asked h1 h2 h3 h4 => exact .asked h1 h2 h3 (hCount.trans h4)
    | told h1 h2 h3 h4 h5 h6 => exact .told h1 h2 h3 h4 (hCount.trans h5) h6
    | stopping h1 h2 h3 => exact .stopping h1 h2 h3
    | ended h1 h2 h3 => exact .ended h1 h2 h3
    | removed h1 h2 h3 h4 h5 => exact .removed h1 h2 h3 h4 h5
  · obtain hCmd | hCmd := List.mem_append.mp hCmd
    · exact h.toOwner cmd hCmd
    · exact .inr (List.mem_singleton.mp hCmd)

theorem Ordered.next (h : s.Ordered) {l : Label} (hEn : s.enabled l) : (s.next l).Ordered := by
  cases l with
  | timer l => exact h.timerStep hEn
  | check =>
    obtain ⟨dispatch, hPc⟩ := hEn
    simp only [TimerThread.next, hPc]
    exact h.check hPc
  | recvCmd =>
    obtain ⟨cmd, rest, hQueue⟩ := List.exists_cons_of_ne_nil hEn.2
    exact h.recvCmd hEn.1 hQueue
  | sleep => exact h.sleep hEn
  | exit => exact h.exit hEn
  | event => exact h.event hEn.2.2
  | main => exact h.mainStep
  | quit => exact h.quit

theorem ordered_visited (time : UInt32) (clock : ℕ) (ls : List Label) (hRuns : system.Runs (initial time clock) ls) :
    ∀ t ∈ system.visited (initial time clock) ls, t.Ordered := by
  have hStep : ∀ (s : TimerThread) (l : Label), s.Ordered → s.enabled l → True → (s.next l).Ordered :=
    fun s l h hEn _ => h.next hEn
  exact system.inv_visited hStep (Ordered.initial time clock) hRuns fun _ _ => trivial

end TimerThread
end Myframe
