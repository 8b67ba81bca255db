import Mathlib.Data.Prod.Lex
import Myframe.Library.Rest
import Myframe.Timer.Delivery

/-! # The rounds of the timer's thread

Each round comes to its end, whatever the thread and the main loop still owe each other when it begins. Once a
`kQuit` is in the channel the rounds come to an end too: the thread takes up a command at least once a second.
-/
namespace Myframe
set_option autoImplicit false

namespace TimerThread

/-- A `kQuit` waits for the thread, or has been taken up. -/
def Told (s : TimerThread) : Prop := s.runing = false ∨ .kQuit ∈ s.channel.toOwner

instance (s : TimerThread) : Decidable s.Told :=
  inferInstanceAs (Decidable (s.runing = false ∨ .kQuit ∈ s.channel.toOwner))

/-- The steps of the thread and of the main loop. To read the clock begins a new round. -/
def Works (s : TimerThread) : Label → Prop
  | .timer .updatetime => s.Told
  | .timer (.advance _) | .timer (.timeout ..) | .quit => False
  | .timer .tick | .timer .send | .check | .recvCmd | .sleep | .exit | .event | .main => True

/-- How often the thread still has to look for a command until it finds the `kQuit`. -/
def commands (s : TimerThread) : ℕ :=
  if s.runing = true ∧ .kQuit ∈ s.channel.toOwner then s.channel.toOwner.idxOf .kQuit + 1 else 0

def untilTimeout (s : TimerThread) : ℕ := if s.Told then dispatchTimeoutUs - s.curUs else 0

def stage (s : TimerThread) : ℕ :=
  match s.pc with
  | .work =>
    match s.timer.pc with
    | .idle => if s.Told then 6 else 0
    | .update _ => 5
  | .check _ => 4
  | .wait => 3
  | .sleep => 2
  | .exit => 1
  | .done => 0

def TimerEvent.weight : TimerEvent → ℕ
  | .none => 2
  | .dispatch => 1
  | .receive => 0

def mainWork (s : TimerThread) : ℕ := 3 * s.channel.toMain.length + TimerEvent.weight s.event

def rank (s : TimerThread) : ℕ ×ₗ ℕ ×ₗ ℕ ×ₗ ℕ ×ₗ ℕ ×ₗ ℕ :=
  toLex (s.commands, toLex (s.untilTimeout, toLex (s.stage, toLex (s.timer.pc.left,
    toLex (s.mainWork, s.timer.send.length)))))

variable {s t : TimerThread} {l : Label}

theorem rank_lt_of_commands (h : t.commands < s.commands) : t.rank < s.rank :=
  Prod.Lex.toLex_lt_toLex.mpr (.inl h)

theorem rank_lt_of_untilTimeout (hCommands : t.commands = s.commands) (h : t.untilTimeout < s.untilTimeout) :
    t.rank < s.rank := by
  rw [rank, rank, hCommands]
  exact Prod.Lex.toLex_lt_toLex.mpr (.inr ⟨rfl, Prod.Lex.toLex_lt_toLex.mpr (.inl h)⟩)

theorem rank_lt_of_stage (hCommands : t.commands = s.commands) (hUntil : t.untilTimeout = s.untilTimeout)
    (h : t.stage < s.stage) : t.rank < s.rank := by
  rw [rank, rank, hCommands, hUntil]
  refine Prod.Lex.toLex_lt_toLex.mpr (.inr ⟨rfl, Prod.Lex.toLex_lt_toLex.mpr (.inr ⟨rfl, ?_⟩)⟩)
  exact Prod.Lex.toLex_lt_toLex.mpr (.inl h)

theorem rank_lt_of_left (hCommands : t.commands = s.commands) (hUntil : t.untilTimeout = s.untilTimeout)
    (hStage : t.stage = s.stage) (h : t.timer.pc.left < s.timer.pc.left) : t.rank < s.rank := by
  rw [rank, rank, hCommands, hUntil, hStage]
  refine Prod.Lex.toLex_lt_toLex.mpr (.inr ⟨rfl, Prod.Lex.toLex_lt_toLex.mpr (.inr ⟨rfl, ?_⟩)⟩)
  exact Prod.Lex.toLex_lt_toLex.mpr (.inr ⟨rfl, Prod.Lex.toLex_lt_toLex.mpr (.inl h)⟩)

/-- What the main loop does, as long as the thread has as much to do as before. -/
theorem rank_lt_of_main (hCommands : t.commands = s.commands) (hUntil : t.untilTimeout = s.untilTimeout)
    (hStage : t.stage = s.stage) (hLeft : t.timer.pc.left = s.timer.pc.left)
    (h : t.mainWork < s.mainWork ∨ t.mainWork = s.mainWork ∧ t.timer.send.length < s.timer.send.length) :
    t.rank < s.rank := by
  rw [rank, rank, hCommands, hUntil, hStage, hLeft]
  refine Prod.Lex.toLex_lt_toLex.mpr (.inr ⟨rfl, Prod.Lex.toLex_lt_toLex.mpr (.inr ⟨rfl, ?_⟩)⟩)
  refine Prod.Lex.toLex_lt_toLex.mpr (.inr ⟨rfl, Prod.Lex.toLex_lt_toLex.mpr (.inr ⟨rfl, ?_⟩)⟩)
  exact Prod.Lex.toLex_lt_toLex.mpr h

theorem commands_of_not_told (h : ¬ s.Told) : s.commands = 0 ∧ s.untilTimeout = 0 :=
  ⟨if_neg fun hBoth => h (.inr hBoth.2), if_neg h⟩

theorem stage_of_pc (hPc : t.pc = s.pc) (hTimer : t.timer.pc = s.timer.pc) (hTold : t.Told ↔ s.Told) :
    t.stage = s.stage := by
  rw [stage, stage, hPc, hTimer]
  simp only [hTold]

theorem stage_of_working {left : ℕ} (hPc : s.pc = .work) (hTimer : s.timer.pc = .update left) : s.stage = 5 := by
  rw [stage, hPc, hTimer]

theorem stage_of_idle (hPc : s.pc = .work) (hTimer : s.timer.pc = .idle) :
    s.stage = if s.Told then 6 else 0 := by
  rw [stage, hPc, hTimer]

/-- A `kRun` behind a `kQuit` makes no difference to the thread. -/
theorem sendToOwner_kRun (hOwner : t.channel.toOwner = s.channel.toOwner ++ [.kRun]) (hRuns : t.runing = s.runing)
    (hUs : t.curUs = s.curUs) :
    (t.Told ↔ s.Told) ∧ t.commands = s.commands ∧ t.untilTimeout = s.untilTimeout := by
  have hMem : Cmd.kQuit ∈ t.channel.toOwner ↔ Cmd.kQuit ∈ s.channel.toOwner := by
    rw [hOwner, List.mem_append, List.mem_singleton]
    exact or_iff_left (by rintro ⟨⟩)
  have hTold : t.Told ↔ s.Told := by rw [Told, Told, hMem, hRuns]
  refine ⟨hTold, ?_, ?_⟩
  · rw [commands, commands, hRuns]
    simp only [hMem]
    split
    · next hBoth => rw [hOwner, List.idxOf_append_of_mem hBoth.2]
    · rfl
  · rw [untilTimeout, untilTimeout, hUs]
    simp only [hTold]

theorem told_next (h : s.Told) (l : Label) : (s.next l).Told := by
  cases l with
  | timer k => cases k <;> exact h
  | sleep | exit | event => exact h
  | quit => exact .inr (List.mem_append_right _ (List.mem_singleton_self _))
  | check =>
    simp only [next, check]
    split
    · split <;> exact h
    all_goals exact h
  | recvCmd =>
    simp only [next, recvCmd]
    split
    · exact h
    · next cmd rest hQueue =>
      by_cases hQuit : cmd = .kQuit
      · exact .inl (if_pos hQuit)
      · obtain hStops | hMem := h
        · exact .inl ((if_neg hQuit).trans hStops)
        · rw [hQueue] at hMem
          exact .inr ((List.mem_cons.mp hMem).resolve_left fun hEq => hQuit hEq.symm)
  | main =>
    simp only [next, mainStep]
    split
    · exact h
    · split <;> exact h
    · simp only [receive]
      split
      · exact h
      · split
        · exact h.imp_right fun hMem => List.mem_append_left _ hMem
        all_goals exact h

/-- A dispatch that goes to the main loop sets the time back. -/
def Paced (s : TimerThread) : Prop := s.pc = .sleep → s.curUs < dispatchTimeoutUs

theorem paced_next (h : s.Paced) (hEnabled : s.enabled l) : (s.next l).Paced := by
  cases l with
  | timer k =>
    cases k with
    | send => rintro ⟨⟩
    | advance n | timeout readAt actorName timerName time | updatetime | tick => exact h
  | event | quit => exact h
  | sleep =>
    simp only [next, sleep]
    intro hPc
    split at hPc <;> cases hPc
  | exit => rintro ⟨⟩
  | check =>
    obtain ⟨dispatch, hPc⟩ := hEnabled
    simp only [next, hPc, check]
    split
    · rintro ⟨⟩
    · next hNot =>
      intro _
      exact Nat.lt_of_not_le (not_or.mp hNot).2
  | recvCmd =>
    simp only [next, recvCmd]
    split
    · exact h
    · exact fun _ => Nat.zero_lt_of_ne_zero (by decide)
  | main =>
    simp only [next, mainStep]
    split
    · exact h
    · split <;> exact h
    · simp only [receive]
      split
      · exact h
      · split <;> exact h

theorem recvCmd_rank (h : s.Ordered) (hWait : s.pc = .wait) {cmd : Cmd} {rest : List Cmd}
    (hQueue : s.channel.toOwner = cmd :: rest) : s.recvCmd.rank < s.rank := by
  have hRuns : s.runing = true := by
    cases h.phase with
    | asked _ hRuns => exact hRuns
    | told _ hRuns => exact hRuns
    | checked hPc | ended hPc | removed hPc => cases hWait.symm.trans hPc
    | working hPc | stopping hPc =>
      rw [hWait] at hPc
      obtain hPc | hPc := hPc <;> cases hPc
  obtain rfl | hRun := h.toOwner cmd (hQueue ▸ List.mem_cons_self)
  · by_cases hMem : Cmd.kQuit ∈ rest
    · apply rank_lt_of_commands
      simp [commands, recvCmd, hQueue, hRuns, hMem]
    · have hNot : ¬ s.Told ∧ ¬ s.recvCmd.Told := by
        simp [Told, recvCmd, hQueue, hRuns, hMem]
      obtain ⟨hCommands, hUntil⟩ := commands_of_not_told hNot.1
      obtain ⟨hCommands', hUntil'⟩ := commands_of_not_told hNot.2
      apply rank_lt_of_stage (hCommands'.trans hCommands.symm) (hUntil'.trans hUntil.symm)
      simp [stage, recvCmd, hQueue, hWait]
  · subst hRun
    apply rank_lt_of_commands
    simp [commands, recvCmd, hQueue, hRuns]

theorem mainStep_rank (h : s.Ordered) (hSome : s.event ≠ .none) : s.mainStep.rank < s.rank := by
  cases hEvent : s.event with
  | none => exact absurd hEvent hSome
  | dispatch =>
    cases hSend : s.timer.send with
    | nil =>
      simp only [mainStep, hEvent, hSend]
      refine rank_lt_of_main rfl rfl rfl rfl (.inl ?_)
      simp [mainWork, hEvent, TimerEvent.weight]
    | cons m rest =>
      simp only [mainStep, hEvent, hSend]
      refine rank_lt_of_main rfl rfl rfl rfl (.inr ⟨by simp [mainWork, hEvent], ?_⟩)
      simp [hSend]
  | receive =>
    obtain ⟨cmd, rest, hQueue⟩ := List.exists_cons_of_ne_nil (h.command hSome)
    have hLess : ∀ t : TimerThread, t.channel.toMain = rest → t.event = .none → t.mainWork < s.mainWork := by
      intro t hMain hNone
      rw [mainWork, mainWork, hMain, hNone, hEvent, hQueue, List.length_cons, TimerEvent.weight, TimerEvent.weight]
      omega
    simp only [mainStep, hEvent, receive, hQueue]
    cases cmd with
    | kIdle =>
      obtain ⟨hTold, hCommands, hUntil⟩ := sendToOwner_kRun (s := s) (t := { s with
        event := .none
        channel := { s.channel with toMain := rest }.sendToOwner .kRun }) rfl rfl rfl
      exact rank_lt_of_main hCommands hUntil (stage_of_pc rfl rfl hTold) rfl (.inl (hLess _ rfl rfl))
    | kQuit => exact rank_lt_of_main rfl rfl rfl rfl (.inl (hLess _ rfl rfl))
    | kWaitForMsg | kRun | kRunWithMsg => exact rank_lt_of_main rfl rfl rfl rfl (.inl (hLess _ rfl rfl))

theorem next_rank (h : s.Ordered) (hPaced : s.Paced) (hEnabled : s.enabled l) (hWorks : s.Works l) :
    (s.next l).rank < s.rank := by
  cases l with
  | timer k =>
    cases k with
    | advance n => cases hWorks
    | timeout readAt actorName timerName time => cases hWorks
    | updatetime =>
      obtain ⟨hIdle, hWork⟩ := hEnabled
      have hTold : s.Told := hWorks
      have hBusy : s.timer.updatetime.pc ≠ .idle := by
        rw [WorkerTimer.updatetime]
        split
        · rintro ⟨⟩
        · split <;> rintro ⟨⟩
      cases hPc : s.timer.updatetime.pc with
      | idle => exact absurd hPc hBusy
      | update left =>
        refine rank_lt_of_stage rfl rfl ?_
        rw [stage_of_working (s := s.next (.timer .updatetime)) hWork hPc, stage_of_idle hWork hIdle, if_pos hTold]
        exact Nat.lt_succ_self 5
    | tick =>
      obtain ⟨hLeft, hWork⟩ := hEnabled
      obtain ⟨manager, hTick, -⟩ := h.sound.tick
      have hPc : s.timer.tick.pc = .update (s.timer.pc.left - 1) := by rw [hTick]
      refine rank_lt_of_left rfl rfl ?_ ?_
      · rw [stage_of_working (s := s.next (.timer .tick)) hWork hPc]
        cases hOld : s.timer.pc with
        | idle =>
          have hLeft : 0 < s.timer.pc.left := hLeft
          rw [hOld] at hLeft
          cases hLeft
        | update left => rw [stage_of_working hWork hOld]
      · change s.timer.tick.pc.left < s.timer.pc.left
        rw [hPc]
        exact Nat.sub_lt hLeft Nat.one_pos
    | send =>
      obtain ⟨hPc, hWork⟩ := hEnabled
      refine rank_lt_of_stage rfl rfl ?_
      rw [stage_of_working hWork hPc]
      exact Nat.lt_succ_self 4
  | check =>
    obtain ⟨dispatch, hPc⟩ := hEnabled
    have hStage : s.stage = 4 := by rw [stage, hPc]
    simp only [next, hPc, check]
    split
    · refine rank_lt_of_stage rfl rfl ?_
      rw [hStage]
      exact Nat.lt_succ_self 3
    · refine rank_lt_of_stage rfl rfl ?_
      rw [hStage]
      exact Nat.lt_add_of_pos_right Nat.two_pos
  | recvCmd =>
    obtain ⟨cmd, rest, hQueue⟩ := List.exists_cons_of_ne_nil hEnabled.2
    exact recvCmd_rank h hEnabled.1 hQueue
  | sleep =>
    have hSleep : s.pc = .sleep := hEnabled
    by_cases hTold : s.Told
    · refine rank_lt_of_untilTimeout rfl ?_
      have hUs := hPaced hSleep
      have hTold' : s.sleep.Told := hTold
      change s.sleep.untilTimeout < s.untilTimeout
      rw [untilTimeout, untilTimeout, if_pos hTold, if_pos hTold']
      change dispatchTimeoutUs - (s.curUs + sleepUs) < _
      have hPos : 0 < sleepUs := by decide
      omega
    · obtain ⟨hCommands, hUntil⟩ := commands_of_not_told hTold
      obtain ⟨hCommands', hUntil'⟩ := commands_of_not_told (s := s.sleep) hTold
      refine rank_lt_of_stage (hCommands'.trans hCommands.symm) (hUntil'.trans hUntil.symm) ?_
      have hRuns : s.runing = true := Bool.eq_true_of_not_eq_false (not_or.mp hTold).1
      have hIdle : s.timer.pc = .idle := h.idle (by rw [hSleep]; rintro ⟨⟩)
      have hTold' : ¬ s.sleep.Told := hTold
      rw [next, stage_of_idle (s := s.sleep) (if_pos hRuns) hIdle, if_neg hTold', stage, hSleep]
      exact Nat.two_pos
  | exit =>
    have hExit : s.pc = .exit := hEnabled
    refine rank_lt_of_stage rfl rfl ?_
    rw [stage, stage, hExit]
    exact Nat.one_pos
  | event =>
    refine rank_lt_of_main rfl rfl rfl rfl (.inl ?_)
    have hNone : s.event = .none := hEnabled.1
    simp [mainWork, next, hNone, TimerEvent.weight]
  | main => exact mainStep_rank h hEnabled
  | quit => cases hWorks

theorem of_atRest (h : s.Ordered) (hRest : system.AtRest Works s) :
    s.Settled ∧ (s.Told → s.pc = .done ∧ s.registered = false) := by
  have hMain : s.pc ≠ .done ∨ s.registered = true → s.channel.toMain = [] := by
    intro hSome
    have hRegistered : s.registered = true := hSome.elim h.registered id
    by_contra hNe
    by_cases hNone : s.event = .none
    · exact hRest .event ⟨hNone, hRegistered, hNe⟩ trivial
    · exact hRest .main hNone trivial
  have hOwner : s.pc = .wait → s.channel.toOwner = [] := fun hPc =>
    by_contra fun hNe => hRest .recvCmd ⟨hPc, hNe⟩ trivial
  cases h.phase with
  | working hPc hRuns hQuiet hSend =>
    obtain hWork | hSleep := hPc
    · cases hTimer : s.timer.pc with
      | idle =>
        refine ⟨.inl ⟨hWork, hTimer⟩, fun hTold => ?_⟩
        exact absurd hTold (hRest (.timer .updatetime) ⟨hTimer, hWork⟩)
      | update left =>
        cases left with
        | zero => exact absurd trivial (hRest (.timer .send) ⟨hTimer, hWork⟩)
        | succ left =>
          have hLeft : 0 < s.timer.pc.left := by
            rw [hTimer]
            exact Nat.succ_pos left
          exact absurd trivial (hRest (.timer .tick) ⟨hLeft, hWork⟩)
    · exact absurd trivial (hRest .sleep hSleep)
  | checked hPc => exact absurd trivial (hRest .check ⟨_, hPc⟩)
  | asked hPc _ hIdle =>
    have hNil := hMain (.inl (by rw [hPc]; rintro ⟨⟩))
    rw [hIdle] at hNil
    cases hNil
  | told hPc _ _ _ hCount =>
    rw [hOwner hPc] at hCount
    cases hCount
  | stopping hPc =>
    obtain hSleep | hExit := hPc
    · exact absurd trivial (hRest .sleep hSleep)
    · exact absurd trivial (hRest .exit hExit)
  | ended _ hRegistered hQueue =>
    rw [hMain (.inr hRegistered)] at hQueue
    obtain hQueue | hQueue := hQueue <;> cases hQueue
  | removed hPc hRegistered => exact ⟨.inr hRegistered, fun _ => ⟨hPc, hRegistered⟩⟩

theorem paced_ordered_next (h : s.Ordered ∧ s.Paced) (hEnabled : s.enabled l) :
    (s.next l).Ordered ∧ (s.next l).Paced :=
  ⟨h.1.next hEnabled, paced_next h.2 hEnabled⟩

/-- From whatever state a run has reached, the thread and the main loop end the round without anything else going
on, and nothing is under way then. If a `kQuit` has been sent the thread has ended by then, and has been
removed from the main loop. -/
theorem rounds_end (time : UInt32) (clock : ℕ) (ls : List Label) (hRuns : system.Runs (initial time clock) ls) :
    (∀ state label, state 0 = system.exec (initial time clock) ls → ¬ system.Endless Works state label) ∧
      ∃ more, system.Runs (initial time clock) (ls ++ more) ∧
        (∀ p ∈ system.steps (system.exec (initial time clock) ls) more, p.1.Works p.2) ∧
        (system.exec (initial time clock) (ls ++ more)).Settled ∧
        (system.exec (initial time clock) (ls ++ more)).underWay = [] ∧
        ((system.exec (initial time clock) ls).Told →
          (system.exec (initial time clock) (ls ++ more)).pc = .done ∧
            (system.exec (initial time clock) (ls ++ more)).registered = false) := by
  have hAny : ∀ (s : TimerThread) (l : Label), s.Ordered ∧ s.Paced → s.enabled l → True →
      (s.next l).Ordered ∧ (s.next l).Paced := fun s l h hEn _ => paced_ordered_next h hEn
  have hStep : ∀ (s : TimerThread) (l : Label), s.Ordered ∧ s.Paced → s.enabled l → s.Works l →
      (s.next l).Ordered ∧ (s.next l).Paced := fun s l h hEn _ => paced_ordered_next h hEn
  have hLower : ∀ (s : TimerThread) (l : Label), s.Ordered ∧ s.Paced → s.enabled l → s.Works l →
      (s.next l).rank < s.rank := fun s l h hEn hWorks => next_rank h.1 h.2 hEn hWorks
  have hStart : (initial time clock).Ordered ∧ (initial time clock).Paced :=
    ⟨Ordered.initial time clock, by rintro ⟨⟩⟩
  have hReached := system.inv_visited hAny hStart hRuns (fun _ _ => trivial) _ (system.mem_visited_of_exec _ ls)
  constructor
  · intro state label hState
    exact Transition.System.not_endless hStep hLower (hState ▸ hReached)
  · obtain ⟨more, hMore, hWorks, hRest⟩ := Transition.System.exists_atRest (S := system) hStep hLower _ hReached
    have hAll : system.Runs (initial time clock) (ls ++ more) := system.runs_append.mpr ⟨hRuns, hMore⟩
    have hEnd := ordered_visited time clock _ hAll _ (system.mem_visited_of_exec _ _)
    have hExec := system.exec_append (initial time clock) ls more
    rw [← hExec] at hRest
    obtain ⟨hSettled, hQuit⟩ := of_atRest hEnd hRest
    refine ⟨more, hAll, hWorks, hSettled, hEnd.underWay_nil hSettled, fun hTold => hQuit ?_⟩
    have hKeeps : ∀ (s : TimerThread) (l : Label), s.Told → s.enabled l → True → (s.next l).Told :=
      fun s l h _ _ => told_next h l
    rw [hExec]
    exact system.inv_visited hKeeps hTold hMore (fun _ _ => trivial) _ (system.mem_visited_of_exec _ more)

/-- The `kQuit` comes while the thread has a timeout to hand over. -/
def quitRun : List Label := [.timer (.advance 1)] ++ .timer (.timeout 1 "actor.a.1" "t" 2) :: round.take 8 ++ [.quit]

theorem rounds_end_quit :
    ∃ more, system.Runs (initial 0 0) (quitRun ++ more) ∧
      (system.exec (initial 0 0) (quitRun ++ more)).underWay = [] ∧
      (system.exec (initial 0 0) (quitRun ++ more)).registered = false := by
  obtain ⟨-, more, hRuns, -, -, hNone, hQuit⟩ := rounds_end 0 0 quitRun (by decide +kernel)
  exact ⟨more, hRuns, hNone, (hQuit (by decide +kernel)).2⟩

end TimerThread
end Myframe
