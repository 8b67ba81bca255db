import Myframe.Scheduler.Serial
import Myframe.Scheduler.Delivery

/-! # Batches of bounded size

Nothing counts the messages that a worker runs: it goes on until the run queue is empty. The limit
holds because a batch is moved only into an empty run queue and nothing joins it there.
-/
namespace Myframe
set_option autoImplicit false

theorem CommonWorker.Calm.toOwner_countP_pos {ι : Type} {x : CommonWorker ι} (h : x.Calm)
    (hQueue : x.channel.toOwner ≠ []) : 0 < x.channel.toOwner.countP (· ≠ .kQuit) := by
  obtain ⟨cmd, rest, hCons⟩ := List.exists_cons_of_ne_nil hQueue
  have hCmd : cmd ∈ x.channel.toOwner := hCons ▸ List.mem_cons_self
  refine List.countP_pos_iff.mpr ⟨cmd, hCmd, decide_eq_true ?_⟩
  rintro rfl
  exact h.2.2.2 hCmd

namespace WorkerPc

variable {ι : Type}

def sendsIdle : WorkerPc ι → Bool
  | .start | .worked _ => true
  | _ => false

end WorkerPc

namespace Label

variable {ι ω : Type}

def IsWorker (w : ω) : Label ι ω → Prop
  | worker w' => w' = w
  | _ => False

instance [DecidableEq ω] (w : ω) : DecidablePred (@IsWorker ι ω w)
  | worker w' => inferInstanceAs (Decidable (w' = w))
  | check | event _ | arrive _ | main | post _ _ | setRunQueueSize _ _ | quit _ | addInit _ _
  | addRegister _ | addClear _ | addDispatch _ => .isFalse id

end Label

namespace Scheduler

variable {ι ω : Type}

/-- Worker `w` has been sent on its way, or is about to be, and has not begun to work. -/
def Sent (s : Scheduler ι ω) (w : ω) : Prop :=
  s.main.inHand = some w ∨ (s.worker w).channel.toOwner ≠ [] ∨ (s.worker w).pc = .ran

/-- The next step of `w` takes kRun from its channel. -/
def ReadsRun (s : Scheduler ι ω) (w : ω) : Prop :=
  (s.worker w).pc = .wait ∧ (s.worker w).channel.toOwner.head? = some .kRun

/-- The next step of `w` sends kIdle. -/
def SendsIdle (s : Scheduler ι ω) (w : ω) : Prop := (s.worker w).pc.sendsIdle = true

instance (s : Scheduler ι ω) (w : ω) : Decidable (s.SendsIdle w) :=
  inferInstanceAs (Decidable ((s.worker w).pc.sendsIdle = true))

instance [DecidableEq ι] (s : Scheduler ι ω) (w : ω) : Decidable (s.ReadsRun w) :=
  inferInstanceAs (Decidable ((s.worker w).pc = .wait ∧ (s.worker w).channel.toOwner.head? = some .kRun))

/-- What worker `w` passes to `Proc` of `a`. -/
def passedBy [DecidableEq ι] [DecidableEq ω] (w : ω) (a : ι) (s : Scheduler ι ω) :
    Label ι ω → List (Parcel (Option ι))
  | .worker w' => if w' = w ∧ (s.worker w).pc = .work a then (s.box a).run.take 1 else []
  | _ => []

variable [DecidableEq ω]

/-- What is true of the batches of `a`, none of which is larger than `limit`. -/
structure Batched (a : ι) (limit : ℤ) (s : Scheduler ι ω) : Prop where
  serialized : s.Serialized
  calm : ∀ w, (s.worker w).Calm
  carried : (s.box a).run ≠ [] → ∃ w, s.Carries w a
  short : ((s.box a).run.length : ℤ) ≤ limit
  assigned : ∀ w b, s.main = .assign w b → (s.box b).run ≠ []
  sent : ∀ w, s.Sent w → ∃ b, (s.worker w).context = some b ∧ (s.box b).run ≠ []

theorem Sent.locked {s : Scheduler ι ω} {w : ω} (h : s.Sent w) (hTurns : s.Serialized)
    (hCalm : (s.worker w).Calm) : (s.worker w).pc.locked = none := by
  have hTurn := hTurns.turn w
  simp only [turns, CommonWorker.turns] at hTurn
  obtain hHand | hQueue | hPc := h
  · rw [if_pos hHand] at hTurn
    exact WorkerPc.locked_of_not_busy (by omega)
  · have hCount := hCalm.toOwner_countP_pos hQueue
    exact WorkerPc.locked_of_not_busy (by omega)
  · rw [hPc]
    rfl

omit [DecidableEq ω] in
theorem held_eq_context {s : Scheduler ι ω} {w : ω} (hCalm : (s.worker w).Calm) :
    (s.worker w).held = (s.worker w).context := by
  rw [CommonWorker.held, if_pos hCalm.2.2.1]

theorem held_of_work {s : Scheduler ι ω} {w : ω} {a : ι} (hTurns : s.Serialized)
    (hCalm : (s.worker w).Calm) (hPc : (s.worker w).pc = .work a) : (s.worker w).held = some a := by
  rw [held_eq_context hCalm]
  exact hTurns.locked w a (by rw [hPc]; rfl)

omit [DecidableEq ω] in
theorem BoxStep.run_ne_nil {s : Scheduler ι ω} {a : ι} {box : Mailbox (Option ι)} (h : s.BoxStep a box)
    (hRun : (s.box a).run ≠ []) : box.run ≠ [] ∨ ∃ w, (s.worker w).pc = .work a := by
  cases h with
  | received | drained | posted | resized => exact .inl hRun
  | moved w hMain => exact .inl (Mailbox.moveToRun_run_ne_nil (.inr hRun))
  | worked w p rest hPc hOld => exact .inr ⟨w, hPc⟩

omit [DecidableEq ω] in
theorem BoxStep.run_length_le {s : Scheduler ι ω} {a : ι} {limit : ℤ} {box : Mailbox (Option ι)}
    (h : s.BoxStep a box) (hShort : ((s.box a).run.length : ℤ) ≤ limit) (hPos : 0 < limit)
    (hSize : (s.box a).runQueueSize = limit) (hEmpty : ∀ w, s.main = .select w a → (s.box a).run = []) :
    (box.run.length : ℤ) ≤ limit := by
  cases h with
  | received | drained | posted | resized => exact hShort
  | moved w hMain =>
    rw [← hSize]
    exact Mailbox.moveToRun_run_length_le (hEmpty w hMain) (hSize ▸ hPos)
  | worked w p rest hPc hOld =>
    rw [hOld, List.length_cons] at hShort
    push_cast at hShort
    change (rest.length : ℤ) ≤ limit
    omega

variable [DecidableEq ι]

theorem sent_mainStep {s : Scheduler ι ω} (hTurns : s.Serialized) (hCalm : ∀ w, (s.worker w).Calm)
    (c : Setting ι) {w : ω} (h : (s.mainStep c).Sent w) :
    s.Sent w ∧ ((s.mainStep c).worker w).context = (s.worker w).context ∨
      ∃ b, s.main = .assign w b ∧ ((s.mainStep c).worker w).context = some b := by
  cases hMain : s.main with
  | loop =>
    simp only [mainStep, hMain] at h ⊢
    exact .inl ⟨h, trivial⟩
  | check | front w' | select w' a | dispatch w' a =>
    have hSame : (s.mainStep c).worker = s.worker ∧ (s.mainStep c).main.inHand = none := by
      simp only [mainStep, hMain]
      split
      · exact ⟨rfl, rfl⟩
      · first
        | exact ⟨rfl, rfl⟩
        | exact ⟨dispatchOne_worker s c _, by rw [dispatchOne_main, hMain]; rfl⟩
    obtain ⟨hWorker, hHand⟩ := hSame
    rw [Sent, hWorker, hHand] at h
    rw [hWorker]
    exact .inl ⟨.inr (h.resolve_left (Option.some_ne_none w).symm), rfl⟩
  | assign w' a =>
    simp only [mainStep, hMain] at h ⊢
    obtain rfl | hNe := eq_or_ne w w'
    · exact .inr ⟨a, rfl, by simp⟩
    · simp only [Sent, modifyWorker_worker, if_neg hNe, MainPc.inHand, Option.some.injEq] at h ⊢
      exact .inl ⟨.inr (h.resolve_left hNe.symm), trivial⟩
  | requeue w' a =>
    simp only [mainStep, hMain] at h ⊢
    split at h
    · next hNil =>
      rw [if_pos hNil]
      exact .inl ⟨by rwa [Sent, hMain], rfl⟩
    · next hNil =>
      rw [if_neg hNil]
      exact .inl ⟨by rwa [Sent, hMain], rfl⟩
  | send w' =>
    simp only [mainStep, hMain] at h ⊢
    obtain rfl | hNe := eq_or_ne w w'
    · exact .inl ⟨.inl (by rw [hMain]; rfl), by simp⟩
    · simp only [Sent, modifyWorker_worker, if_neg hNe, MainPc.inHand] at h ⊢
      exact .inl ⟨.inr (h.resolve_left (Option.some_ne_none w).symm), trivial⟩
  | receive w' =>
    obtain ⟨cmd, rest, hQueue⟩ := List.exists_cons_of_ne_nil (hTurns.served w' (by rw [hMain]; rfl)).2
    have hIdle : cmd = .kIdle := by
      obtain hIdle | ⟨-, hDone⟩ := hTurns.toMain w' cmd (hQueue ▸ List.mem_cons_self)
      · exact hIdle
      · exact absurd hDone (hCalm w').2.1
    subst hIdle
    simp only [mainStep, hMain, hQueue] at h ⊢
    obtain rfl | hNe := eq_or_ne w w'
    · -- the turn of the worker is in its message, so it cannot be on its way
      have hTurn := hTurns.turn w
      simp only [turns, CommonWorker.turns, hQueue, List.count_cons_self] at hTurn
      simp only [Sent, modifyWorker_worker, if_true, MainPc.inHand, reduceCtorEq, false_or] at h
      obtain hOwner | hPc := h
      · have hCount := (hCalm w).toOwner_countP_pos hOwner
        omega
      · rw [hPc, WorkerPc.busy] at hTurn
        omega
    · simp only [Sent, modifyWorker_worker, if_neg hNe, MainPc.inHand] at h ⊢
      exact .inl ⟨.inr (h.resolve_left (Option.some_ne_none w).symm), trivial⟩

theorem sent_workerStep {s : Scheduler ι ω} {w w' : ω} (h : (s.workerStep w').Sent w) :
    s.Sent w ∧ ((s.workerStep w').worker w).context = (s.worker w).context := by
  rw [Sent, workerStep_main] at h
  obtain rfl | hNe := eq_or_ne w w'
  · revert h
    rw [Sent, workerStep]
    cases hPc : (s.worker w).pc with
    | start | ran | proc a | worked a | quit | done => simp_all
    | wait =>
      simp only
      split
      · next hNil => simp [hNil, hPc]
      · next cmd rest hQueue => simp [hQueue]
    | work a =>
      simp only
      split <;> simp_all [mapBox]
  · rw [workerStep_worker s hNe] at h ⊢
    exact ⟨h, rfl⟩

/-- A worker gets on its way only with the context that the main loop assigns to it. -/
theorem sent_next {s : Scheduler ι ω} (hTurns : s.Serialized) (hCalm : ∀ w, (s.worker w).Calm)
    (c : Setting ι) {l : Label ι ω} (hAdd : ¬ l.IsAdd) (hQuit : ¬ l.IsQuit) {w : ω}
    (h : (s.next c l).Sent w) :
    s.Sent w ∧ ((s.next c l).worker w).context = (s.worker w).context ∨
      ∃ b, l = .main ∧ s.main = .assign w b ∧ ((s.next c l).worker w).context = some b := by
  cases l with
  | check => exact .inl ⟨.inr (h.resolve_left (Option.some_ne_none w).symm), rfl⟩
  | event w' =>
    have hSame : (s.event w').worker = s.worker ∧ (s.event w').main.inHand = none := by
      rw [event]
      split <;> exact ⟨rfl, rfl⟩
    rw [next, Sent, hSame.1, hSame.2] at h
    rw [next, hSame.1]
    exact .inl ⟨.inr (h.resolve_left (Option.some_ne_none w).symm), rfl⟩
  | arrive m => exact .inl ⟨h, rfl⟩
  | main =>
    obtain hSame | ⟨b, hMain, hContext⟩ := sent_mainStep hTurns hCalm c h
    · exact .inl hSame
    · exact .inr ⟨b, rfl, hMain, hContext⟩
  | worker w' => exact .inl (sent_workerStep h)
  | post w' m | setRunQueueSize w' n =>
    rw [next, Sent, userStep_main, userStep_worker] at h
    rw [next, userStep_worker]
    exact .inl ⟨h, rfl⟩
  | quit w' => exact absurd trivial hQuit
  | addInit a sent | addRegister a | addClear a | addDispatch a => exact absurd trivial hAdd

theorem assign_mainStep {s : Scheduler ι ω} (c : Setting ι) {w : ω} {a : ι}
    (h : (s.mainStep c).main = .assign w a) : s.main = .select w a ∧ ((s.mainStep c).box a).run ≠ [] := by
  cases hMain : s.main with
  | select w' b =>
    simp only [mainStep, hMain] at h ⊢
    split at h
    · cases h
    · next hRecv =>
      obtain ⟨rfl, rfl⟩ := MainPc.assign.inj h
      rw [if_neg hRecv]
      refine ⟨rfl, ?_⟩
      change ((s.mapBox b Mailbox.moveToRun).box b).run ≠ []
      rw [mapBox_box, if_pos rfl]
      exact Mailbox.moveToRun_run_ne_nil (.inl hRecv)
  | loop | assign w' b | send w' => simp [mainStep, hMain] at h
  | check | front w' | requeue w' b =>
    simp only [mainStep, hMain] at h
    split at h <;> cases h
  | dispatch w' b =>
    simp only [mainStep, hMain] at h
    split at h
    · cases h
    · rw [dispatchOne_main, hMain] at h
      cases h
  | receive w' =>
    simp only [mainStep, hMain] at h
    split at h
    · cases h
    · split at h <;> cases h

theorem Batched.next {c : Setting ι} {a : ι} {limit : ℤ} {s : Scheduler ι ω} (h : s.Batched a limit)
    {l : Label ι ω} (hPos : 0 < limit) (hSize : (s.box a).runQueueSize = limit) (hEnabled : s.enabled l)
    (hAdd : ¬ l.IsAdd) (hQuit : ¬ l.IsQuit) : (s.next c l).Batched a limit where
  serialized := h.serialized.next c l hEnabled (addsApart_of_not_isAdd hAdd)
  calm := calm_next h.serialized h.calm c hAdd hQuit
  carried := carried_next h.serialized h.calm h.carried c hEnabled hAdd hQuit
  short := (next_box c hAdd a).run_length_le h.short hPos hSize fun w hMain =>
    run_eq_nil_of_select h.serialized h.carried hMain
  assigned w b hAssign := by
    -- a worker at work on `b` would hold it, and what is being assigned is held by nobody
    have hKept : s.main = .assign w b → ((s.next c l).box b).run ≠ [] := by
      intro hMain
      obtain hRun | ⟨w', hPc⟩ := (next_box c hAdd b).run_ne_nil (h.assigned w b hMain)
      · exact hRun
      · have hHeld := held_of_work h.serialized (h.calm w') hPc
        exact absurd hHeld ((h.serialized.chosen b (by rw [hMain]; rfl)).2 w')
    cases l with
    | check => cases hAssign
    | event w' =>
      rw [Scheduler.next, event] at hAssign
      split at hAssign <;> cases hAssign
    | main => exact (assign_mainStep c hAssign).2
    | arrive m => exact hKept hAssign
    | worker w' => exact hKept ((workerStep_main s w').symm.trans hAssign)
    | post w' m | setRunQueueSize w' n => exact hKept ((userStep_main s w' _).symm.trans hAssign)
    | quit w' => exact absurd trivial hQuit
    | addInit a sent | addRegister a | addClear a | addDispatch a => exact absurd trivial hAdd
  sent w hSent := by
    obtain ⟨hOld, hContext⟩ | ⟨b, rfl, hMain, hContext⟩ := sent_next h.serialized h.calm c hAdd hQuit hSent
    · obtain ⟨b, hb, hRun⟩ := h.sent w hOld
      refine ⟨b, hContext.trans hb, ?_⟩
      obtain hRun' | ⟨w', hPc⟩ := (next_box c hAdd b).run_ne_nil hRun
      · exact hRun'
      · have hHeld := held_of_work h.serialized (h.calm w') hPc
        have hHeld' : (s.worker w).held = some b := by rw [held_eq_context (h.calm w), hb]
        obtain rfl := h.serialized.unique w w' b hHeld' hHeld
        have hLocked := hOld.locked h.serialized (h.calm w)
        rw [hPc] at hLocked
        cases hLocked
    · refine ⟨b, hContext, ?_⟩
      have hBox : (s.mainStep c).box b = s.box b := by simp only [mainStep, hMain]; rfl
      rw [Scheduler.next, hBox]
      exact h.assigned w b hMain

omit [DecidableEq ι] in
theorem Batched.initial (c : Setting ι) (a : ι) {limit : ℤ} (hPos : 0 < limit) :
    (initial c : Scheduler ι ω).Batched a limit where
  serialized := Serialized.initial c
  calm _ := ⟨nofun, nofun, rfl, nofun⟩
  carried hRun := absurd rfl hRun
  short := hPos.le
  assigned _ _ := nofun
  sent w hSent := by
    obtain hHand | hQueue | hPc := hSent
    · cases hHand
    · exact absurd rfl hQueue
    · cases hPc

/-- Worker `w` executes `a` and will not find more to run once it has found nothing. -/
structure Executes (w : ω) (a : ι) (s : Scheduler ι ω) : Prop where
  serialized : s.Serialized
  calm : ∀ w, (s.worker w).Calm
  executing : (s.worker w).executing = some a
  done : (s.worker w).pc = .worked a → (s.box a).run = []

omit [DecidableEq ω] [DecidableEq ι] in
theorem executing_congr {s t : Scheduler ι ω} {w : ω} (hPc : (t.worker w).pc = (s.worker w).pc)
    (hContext : (t.worker w).context = (s.worker w).context) :
    (t.worker w).executing = (s.worker w).executing := by
  rw [CommonWorker.executing, CommonWorker.executing, hPc, hContext]

theorem main_worker {s : Scheduler ι ω} (hTurns : s.Serialized) (c : Setting ι) {l : Label ι ω}
    (hMain : l.IsMain) {w : ω} {a : ι} (hExec : (s.worker w).executing = some a) :
    ((s.next c l).worker w).pc = (s.worker w).pc ∧
      ((s.next c l).worker w).context = (s.worker w).context := by
  obtain ⟨-, -, hServed⟩ := hTurns.executing hExec
  have hBusy : (s.worker w).pc.busy = 1 := by
    cases hPc : (s.worker w).pc <;> simp_all [CommonWorker.executing, WorkerPc.busy]
  have hTurn := hTurns.turn w
  simp only [turns, CommonWorker.turns, hBusy] at hTurn
  cases l with
  | check | arrive m => exact ⟨rfl, rfl⟩
  | event w' =>
    simp only [next, event]
    split <;> exact ⟨rfl, rfl⟩
  | main =>
    simp only [next, mainStep]
    split
    · exact ⟨rfl, rfl⟩
    · split <;> exact ⟨rfl, rfl⟩
    · split <;> exact ⟨rfl, rfl⟩
    · split <;> exact ⟨rfl, rfl⟩
    · next w' b hPc =>
      have hNe : w ≠ w' := by
        rintro rfl
        have hIdle := List.mem_of_mem_head? (hTurns.candidate w (by rw [hPc]; rfl))
        have hCount := List.count_pos_iff.mpr hIdle
        omega
      simp only [modifyWorker_worker, if_neg hNe, and_self]
    · split <;> exact ⟨rfl, rfl⟩
    · simp only [modifyWorker_worker]
      split
      · next hEq => subst hEq; exact ⟨rfl, rfl⟩
      · exact ⟨rfl, rfl⟩
    · split
      · exact ⟨rfl, rfl⟩
      · rw [dispatchOne_worker]
        exact ⟨rfl, rfl⟩
    · next w' hPc =>
      have hNe : w ≠ w' := by
        rintro rfl
        exact hServed (by rw [hPc]; rfl)
      split
      · exact ⟨rfl, rfl⟩
      · split <;> simp only [modifyWorker_worker, if_neg hNe, and_self]
  | worker w' | post w' m | setRunQueueSize w' n | quit w' | addInit b sent | addRegister b | addClear b
  | addDispatch b => exact hMain.elim

omit [DecidableEq ι] in
theorem Executes.pc {w : ω} {a : ι} {s : Scheduler ι ω} (h : s.Executes w a) :
    (s.worker w).pc = .ran ∧ (s.worker w).context = some a ∨ (s.worker w).pc = .work a ∨
      (s.worker w).pc = .proc a ∨ (s.worker w).pc = .worked a := by
  have hExec := h.executing
  cases hPc : (s.worker w).pc <;> simp_all [CommonWorker.executing]

theorem Executes.workerStep {w : ω} {a : ι} {s : Scheduler ι ω} (h : s.Executes w a)
    (hIdle : ¬ s.SendsIdle w) :
    (((s.workerStep w).worker w).executing = some a ∧
      (((s.workerStep w).worker w).pc = .worked a → ((s.workerStep w).box a).run = [])) ∧
    (s.box a).run = s.passedBy w a (.worker w) ++ ((s.workerStep w).box a).run := by
  obtain ⟨hPc, hContext⟩ | hPc | hPc | hPc := h.pc
  · simp [Scheduler.workerStep, hPc, hContext, CommonWorker.executing, passedBy, box]
  · cases hRun : (s.box a).run with
    | nil =>
      simp only [Scheduler.workerStep, hPc, hRun, passedBy]
      simpa [CommonWorker.executing, box] using hRun
    | cons p rest =>
      have hBox : (s.workerStep w).box a = { s.box a with run := rest } := by
        simp only [Scheduler.workerStep, hPc, hRun]
        change (s.mapBox a fun b => { b with run := rest }).box a = _
        rw [mapBox_box, if_pos rfl]
      rw [hBox]
      simp [Scheduler.workerStep, hPc, hRun, CommonWorker.executing, passedBy, mapBox]
  · simp [Scheduler.workerStep, hPc, CommonWorker.executing, passedBy, box]
  · exact absurd (by rw [SendsIdle, hPc]; rfl) hIdle

/-- While a worker executes an actor its own steps are the only ones that change the actor's run
queue, and they pass on what they take out. -/
theorem Executes.next {c : Setting ι} {w : ω} {a : ι} {s : Scheduler ι ω} (h : s.Executes w a)
    {l : Label ι ω} (hEnabled : s.enabled l) (hAdd : ¬ l.IsAdd) (hQuit : ¬ l.IsQuit)
    (hIdle : s.SendsIdle w → ¬ l.IsWorker w) :
    (s.next c l).Executes w a ∧
      (s.box a).run = s.passedBy w a l ++ ((s.next c l).box a).run := by
  have hTurns := h.serialized.next c l hEnabled (addsApart_of_not_isAdd hAdd)
  have hCalm := calm_next h.serialized h.calm c hAdd hQuit
  -- steps that leave the worker and the run queue alone
  have hQuiet : ((s.next c l).worker w).pc = (s.worker w).pc →
      ((s.next c l).worker w).context = (s.worker w).context →
      ((s.next c l).box a).run = (s.box a).run → s.passedBy w a l = [] →
      (s.next c l).Executes w a ∧ (s.box a).run = s.passedBy w a l ++ ((s.next c l).box a).run := by
    intro hPc hContext hRun hNone
    refine ⟨⟨hTurns, hCalm, (executing_congr hPc hContext).trans h.executing, ?_⟩, ?_⟩
    · rw [hPc, hRun]
      exact h.done
    · rw [hNone, hRun, List.nil_append]
  have hMainLoop : l.IsMain → s.passedBy w a l = [] →
      (s.next c l).Executes w a ∧ (s.box a).run = s.passedBy w a l ++ ((s.next c l).box a).run := by
    intro hMain hNone
    obtain ⟨hPc, hContext⟩ := main_worker h.serialized c hMain h.executing
    exact hQuiet hPc hContext (main_box c hMain (h.serialized.serial.apart w a h.executing)).2 hNone
  cases l with
  | check | event w' | arrive m | main => exact hMainLoop trivial rfl
  | post w' m | setRunQueueSize w' n =>
    have hWorker := userStep_worker s w'
    refine hQuiet (by rw [Scheduler.next, hWorker]) (by rw [Scheduler.next, hWorker]) ?_ rfl
    rw [Scheduler.next, userStep_run]
    exact fun _ _ => rfl
  | worker w' =>
    obtain rfl | hNe := eq_or_ne w w'
    · obtain ⟨⟨hExec, hDone⟩, hPassed⟩ := h.workerStep fun hSends => hIdle hSends rfl
      exact ⟨⟨hTurns, hCalm, hExec, hDone⟩, hPassed⟩
    · have hWorker := workerStep_worker s hNe
      have hNone : s.passedBy w a (.worker w') = [] := by
        rw [passedBy, if_neg fun hEq => hNe hEq.1.symm]
      refine hQuiet (by rw [Scheduler.next, hWorker]) (by rw [Scheduler.next, hWorker]) ?_ hNone
      obtain hActors | ⟨b, p, rest, hPc, -, hMap⟩ := workerStep_actors s w'
      · rw [Scheduler.next, box, hActors, box]
      · have hOther : a ≠ b := by
          rintro rfl
          have hExec : (s.worker w').executing = some a := by rw [CommonWorker.executing, hPc]
          exact hNe (h.serialized.serial.one w w' a h.executing hExec)
        rw [Scheduler.next, box, hMap, ActorContextManager.mapMailbox_heap, if_neg hOther, box]
  | quit w' => exact absurd trivial hQuit
  | addInit b sent | addRegister b | addClear b | addDispatch b => exact absurd trivial hAdd

/-- Where a worker takes kRun it has a context with a batch of messages to run. -/
theorem Batched.executes {a : ι} {limit : ℤ} {s : Scheduler ι ω} (h : s.Batched a limit) {w : ω}
    (hReads : s.ReadsRun w) :
    ∃ b, (s.worker w).context = some b ∧ (s.box b).run ≠ [] ∧ (s.workerStep w).Executes w b ∧
      (s.workerStep w).box b = s.box b := by
  obtain ⟨hPc, hQueue⟩ := hReads
  obtain ⟨rest, hCons⟩ := List.head?_eq_some_iff.mp hQueue
  have hSent : s.Sent w := .inr (.inl (hCons ▸ List.cons_ne_nil _ _))
  obtain ⟨b, hContext, hRun⟩ := h.sent w hSent
  refine ⟨b, hContext, hRun, ?_, ?_⟩
  · constructor
    · exact h.serialized.workerStep w
    · exact calm_workerStep h.calm w
    · simp [workerStep, hPc, hCons, CommonWorker.executing, hContext]
    · simp [workerStep, hPc, hCons]
  · simp only [workerStep, hPc, hCons]
    rfl

/-- What a worker passes on until it finds nothing more is what there was to run when it began. -/
theorem Executes.passed_append_run {c : Setting ι} {w : ω} {a : ι} {s : Scheduler ι ω}
    (h : s.Executes w a) {ls : List (Label ι ω)} (hRuns : (system c).Runs s ls)
    (hAdded : ∀ l ∈ ls, ¬ l.IsAdd) (hQuit : ∀ l ∈ ls, ¬ l.IsQuit)
    (hIdle : ∀ p ∈ (system c).steps s ls, p.1.SendsIdle w → ¬ p.2.IsWorker w) :
    (s.box a).run = (system c).emitted (passedBy w a) s ls ++ (((system c).exec s ls).box a).run ∧
      ((system c).exec s ls).Executes w a ∧ ∀ b, b ≠ a → (system c).emitted (passedBy w b) s ls = [] := by
  have hOk : ∀ p ∈ (system c).steps s ls,
      ¬ p.2.IsAdd ∧ ¬ p.2.IsQuit ∧ (p.1.SendsIdle w → ¬ p.2.IsWorker w) := fun p hp =>
    have hMem := (system c).label_mem_of_mem_steps hp
    ⟨hAdded p.2 hMem, hQuit p.2 hMem, hIdle p hp⟩
  have hStep : ∀ (t : Scheduler ι ω) (l : Label ι ω), t.Executes w a → t.enabled l →
      ¬ l.IsAdd ∧ ¬ l.IsQuit ∧ (t.SendsIdle w → ¬ l.IsWorker w) → (t.next c l).Executes w a :=
    fun t l ht hEnabled hl => (ht.next hEnabled hl.1 hl.2.1 hl.2.2).1
  refine ⟨?_, (system c).inv_visited hStep h hRuns hOk _ ((system c).mem_visited_of_exec s ls), ?_⟩
  · have hBalance : ∀ (t : Scheduler ι ω) (l : Label ι ω), t.Executes w a → t.enabled l →
        ¬ l.IsAdd ∧ ¬ l.IsQuit ∧ (t.SendsIdle w → ¬ l.IsWorker w) →
        (t.box a).run ++ [] = t.passedBy w a l ++ ((t.next c l).box a).run := by
      intro t l ht hEnabled hl
      rw [List.append_nil]
      exact (ht.next hEnabled hl.1 hl.2.1 hl.2.2).2
    have hRun := (system c).conservation hStep hBalance h hRuns hOk
    have hNone : (system c).emitted (fun _ _ => ([] : List (Parcel (Option ι)))) s ls = [] :=
      List.flatMap_eq_nil_iff.mpr fun _ _ => rfl
    rwa [hNone, List.append_nil] at hRun
  · intro b hNe
    refine List.flatMap_eq_nil_iff.mpr fun p hp => ?_
    obtain ⟨hExec, -⟩ := (system c).inv_steps hStep h hRuns hOk p hp
    cases hLabel : p.2 with
    | worker w' =>
      rw [passedBy, if_neg]
      rintro ⟨rfl, hPc⟩
      have hExecuting := hExec.executing
      rw [CommonWorker.executing, hPc] at hExecuting
      exact hNe (Option.some.inj hExecuting)
    | check | event w' | arrive m | main | post w' m | setRunQueueSize w' n | quit w' | addInit d sent
    | addRegister d | addClear d | addDispatch d => rfl

/-- From `Exec` to `Quit`, with the actors in place before and a limit on the batches of `a`: `a` has
nothing left to run whenever its mailbox is about to be moved, and between a kRun and the next kIdle a
worker processes messages of one actor only, of `a` at least one and at most as many as the limit. -/
theorem batch_between_run_and_idle (c : Setting ι) (a : ι) {limit : ℤ} (hPos : 0 < limit)
    (ls : List (Label ι ω)) (hAdded : ∀ l ∈ ls, ¬ l.IsAdd) (hQuit : ∀ l ∈ ls, ¬ l.IsQuit)
    (hRuns : (system c).Runs (initial c) ls)
    (hSize : ∀ t ∈ (system c).visited (initial c) ls, (t.box a).runQueueSize = limit) :
    (∀ t ∈ (system c).visited (initial c) ls, ∀ w, t.main = .select w a → (t.box a).run = []) ∧
    ∀ (w : ω) (before between after : List (Label ι ω)),
      ls = before ++ .worker w :: (between ++ .worker w :: after) →
      let s := (system c).exec (initial c) before
      let t := s.workerStep w
      let u := (system c).exec t between
      s.ReadsRun w → (∀ p ∈ (system c).steps t between, p.1.SendsIdle w → ¬ p.2.IsWorker w) →
      u.SendsIdle w →
      ∃ b, (s.worker w).context = some b ∧
        (∀ d, d ≠ b → (system c).emitted (passedBy w d) t between = []) ∧
        (b = a → 1 ≤ ((system c).emitted (passedBy w a) t between).length ∧
          (((system c).emitted (passedBy w a) t between).length : ℤ) ≤ limit) := by
  have hStep : ∀ (s : Scheduler ι ω) (l : Label ι ω), s.Batched a limit → s.enabled l →
      (s.box a).runQueueSize = limit ∧ ¬ l.IsAdd ∧ ¬ l.IsQuit → (s.next c l).Batched a limit :=
    fun s l h hEnabled hOk => h.next hPos hOk.1 hEnabled hOk.2.1 hOk.2.2
  have hBatched : ∀ t ∈ (system c).visited (initial c) ls, t.Batched a limit := by
    refine (system c).inv_visited hStep (Batched.initial c a hPos) hRuns fun p hp => ?_
    have hMem := (system c).label_mem_of_mem_steps hp
    exact ⟨hSize p.1 ((system c).mem_visited_of_mem_steps hp), hAdded p.2 hMem, hQuit p.2 hMem⟩
  constructor
  · intro t ht w hMain
    exact run_eq_nil_of_select (hBatched t ht).serialized (hBatched t ht).carried hMain
  · intro w before between after hSplit s t u hReads hBusy hSends
    have hHere : (s, .worker w) ∈ (system c).steps (initial c) ls := by
      rw [hSplit, Transition.System.steps_append]
      exact List.mem_append_right _ List.mem_cons_self
    have hNow := hBatched s ((system c).mem_visited_of_mem_steps hHere)
    obtain ⟨b, hContext, hRun, hExec, hBox⟩ := hNow.executes hReads
    have hBetween : ∀ l ∈ between, l ∈ ls := by
      intro l hl
      rw [hSplit]
      simp [hl]
    have hPart : (system c).Runs t between := by
      rw [hSplit, Transition.System.runs_append, Transition.System.runs_cons,
        Transition.System.runs_append] at hRuns
      exact hRuns.2.2.1
    obtain ⟨hPassed, hEnd, hOthers⟩ := hExec.passed_append_run hPart (fun l hl => hAdded l (hBetween l hl))
      (fun l hl => hQuit l (hBetween l hl)) hBusy
    have hDone : (u.box b).run = [] := by
      apply hEnd.done
      obtain ⟨hPc, -⟩ | hPc | hPc | hPc := hEnd.pc
      · rw [SendsIdle, hPc] at hSends; cases hSends
      · rw [SendsIdle, hPc] at hSends; cases hSends
      · rw [SendsIdle, hPc] at hSends; cases hSends
      · exact hPc
    refine ⟨b, hContext, hOthers, ?_⟩
    rintro rfl
    rw [hBox, hDone, List.append_nil] at hPassed
    rw [← hPassed]
    exact ⟨List.length_pos_iff.mpr hRun, hNow.short⟩

/-- One actor, one worker and three messages. While the actor processes the first two of them it
sends one to itself. -/
def untilRun : List (Label Unit Unit) :=
  [.worker (), .event (), .main, .arrive helloMsg, .arrive helloMsg, .arrive helloMsg, .check, .main, .main,
    .main, .main, .main, .main]

def runToIdle : List (Label Unit Unit) :=
  [.worker (), .worker (), .post () helloMsg, .main, .worker (), .arrive helloMsg, .worker (), .worker (),
    .worker ()]

theorem batch_between_run_and_idle_two :
    let c := earlySetting
    let t := ((system c).exec (initial c) untilRun).workerStep ()
    1 ≤ ((system c).emitted (passedBy () ()) t runToIdle).length ∧
      (((system c).emitted (passedBy () ()) t runToIdle).length : ℤ) ≤ 2 := by
  intro c t
  have hBatch := batch_between_run_and_idle c () (by decide : (0 : ℤ) < 2)
    (untilRun ++ .worker () :: (runToIdle ++ [.worker ()])) (by decide) (by decide) (by decide) (by decide)
  obtain ⟨b, -, -, hLength⟩ := hBatch.2 () untilRun runToIdle [] rfl (by decide) (by decide) (by decide)
  exact hLength rfl

end Scheduler
end Myframe
