import Myframe.Scheduler.Serial

/-! # Idle workers and workers that have ended

`Del` leaves the idle list alone. Whether a worker that has ended can still stand in it, or come to
the front of it, is decided where its thread ends.
-/
namespace Myframe
set_option autoImplicit false
namespace Scheduler

variable {ι ω : Type}

/-- The thread of a worker ends only when the main loop has taken the worker off the idle list for
the last `kIdle` it has sent. -/
def EndsAssigned (s : Scheduler ι ω) : Label ι ω → Prop
  | .worker w => (s.worker w).pc = .quit → w ∉ s.idle ∧ Cmd.kIdle ∉ (s.worker w).channel.toMain
  | _ => True

instance [DecidableEq ι] [DecidableEq ω] (s : Scheduler ι ω) (l : Label ι ω) : Decidable (s.EndsAssigned l) :=
  match l with
  | .worker w => inferInstanceAs (Decidable
      ((s.worker w).pc = .quit → w ∉ s.idle ∧ Cmd.kIdle ∉ (s.worker w).channel.toMain))
  | .check | .event _ | .arrive _ | .main | .post _ _ | .setRunQueueSize _ _ | .quit _
  | .addInit _ _ | .addRegister _ | .addClear _ | .addDispatch _ => .isTrue trivial

/-- Idle workers are live workers. -/
structure IdleLive (s : Scheduler ι ω) : Prop where
  served : ∀ w, s.main.served = some w → (s.worker w).registered = true
  candidate : ∀ w, s.main.candidate = some w → w ∈ s.idle
  quitting : ∀ w, Cmd.kQuit ∈ (s.worker w).channel.toMain → (s.worker w).pc = .done
  removed : ∀ w, (s.worker w).registered = false → (s.worker w).pc = .done
  ended : ∀ w, (s.worker w).pc = .done → w ∉ s.idle ∧ Cmd.kIdle ∉ (s.worker w).channel.toMain

namespace IdleLive

variable {s : Scheduler ι ω}

theorem setMain {t : Scheduler ι ω} (h : s.IdleLive) (hWorker : t.worker = s.worker)
    (hIdle : t.idle = s.idle) (hServed : ∀ w, t.main.served = some w → (s.worker w).registered = true)
    (hCandidate : ∀ w, t.main.candidate = some w → w ∈ s.idle) : t.IdleLive where
  served := by rw [hWorker]; exact hServed
  candidate := by rw [hIdle]; exact hCandidate
  quitting := by rw [hWorker]; exact h.quitting
  removed := by rw [hWorker]; exact h.removed
  ended := by rw [hWorker, hIdle]; exact h.ended

theorem congr {t : Scheduler ι ω} (h : s.IdleLive) (hWorker : t.worker = s.worker)
    (hIdle : t.idle = s.idle) (hMain : t.main = s.main) : t.IdleLive :=
  h.setMain hWorker hIdle (by rw [hMain]; exact h.served) (by rw [hMain]; exact h.candidate)

section Steps

variable [DecidableEq ω]

theorem modifyWorker (h : s.IdleLive) {w : ω} {f : CommonWorker ι → CommonWorker ι}
    (hServed : s.main.served = some w → (f (s.worker w)).registered = true)
    (hQuit : Cmd.kQuit ∈ (f (s.worker w)).channel.toMain → (f (s.worker w)).pc = .done)
    (hRemoved : (f (s.worker w)).registered = false → (f (s.worker w)).pc = .done)
    (hEnded : (f (s.worker w)).pc = .done →
      w ∉ s.idle ∧ Cmd.kIdle ∉ (f (s.worker w)).channel.toMain) : (s.modifyWorker w f).IdleLive := by
  refine ⟨fun w' hw' => ?_, h.candidate, fun w' => ?_, fun w' => ?_, fun w' => ?_⟩
  · rw [modifyWorker_worker]
    split
    · next hEq => subst hEq; exact hServed hw'
    · exact h.served w' hw'
  · rw [modifyWorker_worker]
    split
    · exact hQuit
    · exact h.quitting w'
  · rw [modifyWorker_worker]
    split
    · exact hRemoved
    · exact h.removed w'
  · rw [modifyWorker_worker]
    split
    · next hEq => rw [hEq]; exact hEnded
    · exact h.ended w'

theorem modifyWorker_quiet (h : s.IdleLive) {w : ω} {f : CommonWorker ι → CommonWorker ι}
    (hRegistered : (f (s.worker w)).registered = (s.worker w).registered)
    (hToMain : (f (s.worker w)).channel.toMain = (s.worker w).channel.toMain)
    (hDone : (f (s.worker w)).pc = .done ↔ (s.worker w).pc = .done) : (s.modifyWorker w f).IdleLive := by
  refine h.modifyWorker ?_ ?_ ?_ ?_
  · rw [hRegistered]
    exact h.served w
  · rw [hToMain, hDone]
    exact h.quitting w
  · rw [hRegistered, hDone]
    exact h.removed w
  · rw [hToMain, hDone]
    exact h.ended w

theorem sendIdle (h : s.IdleLive) {w : ω} (hPc : (s.worker w).pc ≠ .done) :
    (s.modifyWorker w fun x =>
      { x with pc := .wait, channel := x.channel.sendToMain .kIdle }).IdleLive := by
  refine h.modifyWorker (h.served w) (fun hQuit => ?_) (fun hReg => absurd (h.removed w hReg) hPc)
    (by rintro ⟨⟩)
  have hOld : Cmd.kQuit ∈ (s.worker w).channel.toMain := by simpa using hQuit
  exact absurd (h.quitting w hOld) hPc

theorem workerStep [DecidableEq ι] (h : s.IdleLive) {w : ω} (hPc' : (s.worker w).pc ≠ .done)
    (hAssigned : s.EndsAssigned (.worker w)) : (s.workerStep w).IdleLive := by
  rw [Scheduler.workerStep]
  cases hPc : (s.worker w).pc with
  | start | worked a => exact h.sendIdle hPc'
  | wait =>
    simp only
    split
    · exact h
    · next cmd rest hQueue =>
      refine h.modifyWorker_quiet rfl rfl ⟨fun hDone => ?_, fun hDone => absurd hDone hPc'⟩
      simp only at hDone
      split at hDone <;> cases hDone
  | ran =>
    refine h.modifyWorker_quiet rfl rfl ⟨fun hDone => ?_, fun hDone => absurd hDone hPc'⟩
    simp only at hDone
    split at hDone <;> cases hDone
  | work a =>
    simp only
    split
    · exact h.modifyWorker_quiet rfl rfl ⟨by rintro ⟨⟩, fun hDone => absurd hDone hPc'⟩
    · next p rest hRun =>
      have hBox : (s.mapBox a fun b => { b with run := rest }).IdleLive := h.congr rfl rfl rfl
      exact hBox.modifyWorker_quiet rfl rfl ⟨by rintro ⟨⟩, fun hDone => absurd hDone hPc'⟩
  | proc a => exact h.modifyWorker_quiet rfl rfl ⟨by rintro ⟨⟩, fun hDone => absurd hDone hPc'⟩
  | quit =>
    obtain ⟨hIdle, hToMain⟩ := hAssigned hPc
    refine h.modifyWorker (h.served w) (fun _ => rfl) (fun _ => rfl) fun _ => ⟨hIdle, ?_⟩
    rw [CmdChannel.sendToMain_toMain, List.mem_append, List.mem_singleton, not_or]
    exact ⟨hToMain, by rintro ⟨⟩⟩
  | done => exact h

theorem assign (h : s.IdleLive) {w : ω} {a : ι} :
    ({ s.modifyWorker w fun x => { x with context := some a } with
      idle := s.idle.tail, main := .requeue w a } : Scheduler ι ω).IdleLive := by
  have hGiven : (s.modifyWorker w fun x => { x with context := some a }).IdleLive :=
    h.modifyWorker_quiet rfl rfl Iff.rfl
  refine ⟨by rintro _ ⟨⟩, by rintro _ ⟨⟩, hGiven.quitting, hGiven.removed, fun w' hDone => ?_⟩
  obtain ⟨hIdle, hToMain⟩ := hGiven.ended w' hDone
  exact ⟨fun hMem => hIdle (List.mem_of_mem_tail hMem), hToMain⟩

/-- The command of an event: the sender of `kIdle` has not ended, and the sender of `kQuit` is not in
the idle list. -/
theorem receive [DecidableEq ι] (h : s.IdleLive) (c : Setting ι) {w : ω} (hMain : s.main = .receive w) :
    (s.mainStep c).IdleLive := by
  simp only [Scheduler.mainStep, hMain]
  split
  · exact h.setMain rfl rfl (by rintro _ ⟨⟩) (by rintro _ ⟨⟩)
  · next cmd rest hToMain =>
    have hRegistered := h.served w (by rw [hMain]; rfl)
    have hTaken : ({ s.modifyWorker w fun x => { x with channel := { x.channel with toMain := rest } }
        with main := .loop } : Scheduler ι ω).IdleLive := by
      have hSub : ∀ cmd', cmd' ∈ rest → cmd' ∈ (s.worker w).channel.toMain := by
        intro cmd' hMem
        rw [hToMain]
        exact List.mem_cons_of_mem _ hMem
      refine (h.modifyWorker (f := fun x => { x with channel := { x.channel with toMain := rest } })
        (h.served w) ?_ (h.removed w) ?_).setMain rfl rfl (by rintro _ ⟨⟩) (by rintro _ ⟨⟩)
      · exact fun hQuit => h.quitting w (hSub _ hQuit)
      · exact fun hDone => ⟨(h.ended w hDone).1, fun hIdle => (h.ended w hDone).2 (hSub _ hIdle)⟩
    cases cmd with
    | kIdle =>
      have hLive : (s.worker w).pc ≠ .done := by
        intro hDone
        refine (h.ended w hDone).2 ?_
        rw [hToMain]
        exact List.mem_cons_self
      have hCleared := hTaken.modifyWorker_quiet (w := w) (f := fun x => { x with context := none })
        rfl rfl Iff.rfl
      refine ⟨by rintro _ ⟨⟩, by rintro _ ⟨⟩, hCleared.quitting, hCleared.removed, fun w' hDone => ?_⟩
      obtain ⟨hIdle, hNone⟩ := hCleared.ended w' hDone
      refine ⟨fun hMem => ?_, hNone⟩
      obtain hMem | hMem := List.mem_append.mp hMem
      · exact hIdle hMem
      · obtain rfl := List.mem_singleton.mp hMem
        simp at hDone
        exact hLive hDone
    | kQuit =>
      have hDone : (s.worker w).pc = .done := by
        refine h.quitting w ?_
        rw [hToMain]
        exact List.mem_cons_self
      have hDone' : (({ s.modifyWorker w fun x => { x with channel := { x.channel with toMain := rest } }
          with main := .loop } : Scheduler ι ω).worker w).pc = .done := by
        simpa using hDone
      exact hTaken.modifyWorker (w := w) (f := fun x => { x with registered := false }) (by rintro ⟨⟩)
        (fun _ => hDone') (fun _ => hDone') (hTaken.ended w)
    | kWaitForMsg | kRun | kRunWithMsg => exact hTaken

omit [DecidableEq ω] in
theorem setMain_plain {t : Scheduler ι ω} (h : s.IdleLive) (hWorker : t.worker = s.worker)
    (hIdle : t.idle = s.idle) (hServed : t.main.served = none) (hCandidate : t.main.candidate = none) :
    t.IdleLive := by
  refine h.setMain hWorker hIdle (fun w hw => ?_) fun w hw => ?_
  · cases hServed.symm.trans hw
  · cases hCandidate.symm.trans hw

theorem mainStep [DecidableEq ι] (h : s.IdleLive) (c : Setting ι) : (s.mainStep c).IdleLive := by
  cases hMain : s.main with
  | loop => simpa only [Scheduler.mainStep, hMain] using h
  | check =>
    simp only [Scheduler.mainStep, hMain]
    split
    · exact h.setMain_plain rfl rfl rfl rfl
    · next w rest hIdle =>
      refine h.setMain rfl rfl (by rintro _ ⟨⟩) fun w' hw' => ?_
      obtain rfl := Option.some.inj hw'
      rw [hIdle]
      exact List.mem_cons_self
  | front w =>
    have hMem := h.candidate w (by rw [hMain]; rfl)
    simp only [Scheduler.mainStep, hMain]
    split
    · exact h.setMain_plain rfl rfl rfl rfl
    · refine h.setMain rfl rfl (by rintro _ ⟨⟩) fun w' hw' => ?_
      exact Option.some.inj hw' ▸ hMem
  | select w a =>
    have hMem := h.candidate w (by rw [hMain]; rfl)
    simp only [Scheduler.mainStep, hMain]
    split
    · exact h.setMain_plain rfl rfl rfl rfl
    · refine h.setMain rfl rfl (by rintro _ ⟨⟩) fun w' hw' => ?_
      exact Option.some.inj hw' ▸ hMem
  | assign w a => simpa only [Scheduler.mainStep, hMain] using h.assign
  | requeue w a =>
    simp only [Scheduler.mainStep, hMain]
    split
    · exact h.setMain_plain rfl rfl rfl rfl
    · exact h.setMain_plain rfl rfl rfl rfl
  | send w =>
    have hSent := h.modifyWorker_quiet (w := w)
      (f := fun x => { x with channel := x.channel.sendToOwner .kRun }) rfl rfl Iff.rfl
    simp only [Scheduler.mainStep, hMain]
    exact hSent.setMain_plain rfl rfl rfl rfl
  | dispatch w a =>
    have hServed := h.served w (by rw [hMain]; rfl)
    simp only [Scheduler.mainStep, hMain]
    split
    · refine h.setMain rfl rfl (fun w' hw' => ?_) (by rintro _ ⟨⟩)
      exact Option.some.inj hw' ▸ hServed
    · exact h.congr (dispatchOne_worker s c a) (dispatchOne_idle s c a) (dispatchOne_main s c a)
  | receive w => exact h.receive c hMain

omit [DecidableEq ω] in
theorem event [DecidableEq ι] (h : s.IdleLive) {w : ω} (hRegistered : (s.worker w).registered = true) :
    (s.event w).IdleLive := by
  rw [Scheduler.event]
  split
  · refine h.setMain rfl rfl (fun w' hw' => ?_) (by rintro _ ⟨⟩)
    exact Option.some.inj hw' ▸ hRegistered
  · refine h.setMain rfl rfl (fun w' hw' => ?_) (by rintro _ ⟨⟩)
    exact Option.some.inj hw' ▸ hRegistered

theorem next [DecidableEq ι] (h : s.IdleLive) (c : Setting ι) (l : Label ι ω) (hEnabled : s.enabled l)
    (hAssigned : s.EndsAssigned l) : (s.next c l).IdleLive := by
  cases l with
  | check => exact h.setMain_plain rfl rfl rfl rfl
  | event w => exact h.event hEnabled.2.1
  | arrive m => exact h.congr rfl rfl rfl
  | main => exact h.mainStep c
  | worker w => exact h.workerStep hEnabled.1 hAssigned
  | post w m | setRunQueueSize w n =>
    exact h.congr (userStep_worker s w _) (userStep_idle s w _) (userStep_main s w _)
  | quit w =>
    exact h.modifyWorker_quiet (f := fun x => { x with channel := x.channel.sendToOwner .kQuit })
      rfl rfl Iff.rfl
  | addInit a sent =>
    simp only [Scheduler.next, addInit]
    split
    · exact h.congr rfl rfl rfl
    · exact h.congr rfl rfl rfl
  | addRegister a | addClear a => exact h.congr rfl rfl rfl
  | addDispatch a =>
    simp only [Scheduler.next, addDispatch]
    split
    · exact h.congr rfl rfl rfl
    · split
      · exact h.congr rfl rfl rfl
      · exact h.congr (dispatchOne_worker s c a) (dispatchOne_idle s c a) (dispatchOne_main s c a)

end Steps

end IdleLive

theorem idleLive_initial [DecidableEq ι] (c : Setting ι) : (initial c : Scheduler ι ω).IdleLive where
  served _ hw := by cases hw
  candidate _ hw := by cases hw
  quitting _ hQuit := by cases hQuit
  removed _ hReg := by cases hReg
  ended _ hDone := by cases hDone

/-- As long as threads end only after their worker has left the idle list, no removed worker stands
in it, and the main loop never takes up a worker from it whose thread has ended. -/
theorem idle_live [DecidableEq ι] [DecidableEq ω] (c : Setting ι) (ls : List (Label ι ω))
    (hRuns : (system c).Runs (initial c) ls)
    (hAssigned : ∀ p ∈ (system c).steps (initial c) ls, p.1.EndsAssigned p.2) :
    ∀ t ∈ (system c).visited (initial c) ls,
      (∀ w, (t.worker w).registered = false → w ∉ t.idle) ∧
        ∀ w, t.main.candidate = some w → (t.worker w).pc ≠ .done ∧ (t.worker w).registered = true := by
  have hStep : ∀ (s : Scheduler ι ω) (l : Label ι ω), s.IdleLive → s.enabled l → s.EndsAssigned l →
      (s.next c l).IdleLive := fun s l h hEnabled hEnds => h.next c l hEnabled hEnds
  intro t ht
  have hLive := (system c).inv_visited hStep (idleLive_initial c) hRuns hAssigned t ht
  have hOut : ∀ w, (t.worker w).registered = false → w ∉ t.idle := fun w hReg =>
    (hLive.ended w (hLive.removed w hReg)).1
  refine ⟨hOut, fun w hCandidate => ?_⟩
  have hMem := hLive.candidate w hCandidate
  refine ⟨fun hDone => (hLive.ended w hDone).1 hMem, ?_⟩
  rw [← Bool.not_eq_false]
  exact fun hReg => hOut w hReg hMem

/-- The worker is told to quit between its assignment and the `kRun` for it. -/
def quitAssigned : List (Label Unit Bool) :=
  [.worker false, .event false, .main, .arrive helloMsg, .check, .main, .main, .main, .main, .main,
    .quit false, .worker false, .worker false, .main, .main, .event false, .main, .main]

theorem idle_live_assigned :
    (((system earlySetting).exec (initial earlySetting) quitAssigned).worker false).registered = false ∧
      ∀ t ∈ (system earlySetting).visited (initial earlySetting) quitAssigned,
        (∀ w, (t.worker w).registered = false → w ∉ t.idle) ∧
          ∀ w, t.main.candidate = some w → (t.worker w).pc ≠ .done ∧ (t.worker w).registered = true :=
  ⟨by decide, idle_live earlySetting quitAssigned (by decide) (by decide)⟩

/-- The worker is told to quit while it is idle, and removed. -/
def quitIdle : List (Label Unit Bool) :=
  [.worker false, .event false, .main, .quit false, .worker false, .worker false, .event false, .main]

/-- Then a message arrives. -/
def arriveLate : List (Label Unit Bool) := [.arrive helloMsg, .check, .main, .main, .main]

def quitIdled : Scheduler Unit Bool := (system earlySetting).exec (initial earlySetting) quitIdle

def arrivedLate : Scheduler Unit Bool := (system earlySetting).exec quitIdled arriveLate

/-- A removed worker stands in the idle list; the message is moved into the run queue and its actor
marked as running on behalf of a thread that has ended. -/
theorem idle_worker_ended : (system earlySetting).Runs (initial earlySetting) (quitIdle ++ arriveLate) ∧
    (quitIdled.worker false).registered = false ∧ false ∈ quitIdled.idle ∧
    arrivedLate.main = .assign false () ∧ (arrivedLate.worker false).pc = .done ∧
    arrivedLate.inWorker () = true ∧ (arrivedLate.box ()).run = [⟨none, helloMsg⟩] := by
  decide

end Scheduler
end Myframe
