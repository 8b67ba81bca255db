import Mathlib.Data.Fintype.Basic
import Myframe.Library.Rest
import Myframe.Scheduler.Delivery
import Myframe.Scheduler.Fairness

/-! # Where the scheduler comes to rest

Each mark and each queue has somebody who still has to act for it: a flag that is up the worker that
was given the actor, a send queue the worker or the main loop, a receive queue the wait queue.
-/
namespace Myframe
set_option autoImplicit false
namespace Scheduler

variable {ι ω : Type}

/-- The steps that the threads of the framework take by themselves. A look at the idle workers and the
wait queue counts only if there is a worker and an actor for it. -/
def Works [DecidableEq ι] (s : Scheduler ι ω) : Label ι ω → Prop
  | .check => s.idle ≠ [] ∧ (s.actors.getContextWithMsg).2 ≠ none
  | .event _ | .main | .worker _ => True
  | _ => False

instance [DecidableEq ι] (s : Scheduler ι ω) (l : Label ι ω) : Decidable (s.Works l) :=
  match l with
  | .check => inferInstanceAs (Decidable (s.idle ≠ [] ∧ (s.actors.getContextWithMsg).2 ≠ none))
  | .event _ | .main | .worker _ => .isTrue trivial
  | .arrive _ | .post _ _ | .setRunQueueSize _ _ | .quit _ | .addInit _ _ | .addRegister _ | .addClear _
  | .addDispatch _ => .isFalse id

/-- Who has to act for a flag that is up and for messages that are to be sent. -/
structure Placed (s : Scheduler ι ω) : Prop where
  flag : ∀ a, s.inWorker a = true → s.main.chosen = some a ∨ ∃ w, (s.worker w).context = some a
  cleared : ∀ w a, s.main.served = some w → (s.worker w).context = some a → s.inWorker a = false
  idle : ∀ w ∈ s.idle, (s.worker w).context = none
  send : ∀ a, (s.box a).send ≠ [] → s.inWorker a = true ∨ ∃ w, s.main = .dispatch w a

theorem Placed.of_same {s t : Scheduler ι ω} (h : s.Placed) (hChosen : t.main.chosen = s.main.chosen)
    (hServed : t.main.served = s.main.served)
    (hDispatch : ∀ w a, s.main = .dispatch w a → (t.box a).send ≠ [] → t.main = .dispatch w a)
    (hContext : ∀ w, (t.worker w).context = (s.worker w).context) (hIdle : t.idle = s.idle)
    (hFlag : ∀ a, t.inWorker a = s.inWorker a)
    (hSend : ∀ a, (t.box a).send ≠ [] → (s.box a).send ≠ []) : t.Placed where
  flag a ha := by
    simp only [hChosen, hContext]
    exact h.flag a (hFlag a ▸ ha)
  cleared w a hw ha := by
    rw [hFlag]
    exact h.cleared w a (hServed ▸ hw) (hContext w ▸ ha)
  idle w hw := by
    rw [hContext]
    exact h.idle w (hIdle ▸ hw)
  send a ha := by
    rw [hFlag]
    obtain hUp | ⟨w, hMain⟩ := h.send a (hSend a ha)
    · exact .inl hUp
    · exact .inr ⟨w, hDispatch w a hMain ha⟩

theorem Placed.initial (c : Setting ι) : (initial c : Scheduler ι ω).Placed where
  flag _ hFlag := Bool.noConfusion hFlag
  cleared _ _ hServed := by cases hServed
  idle _ hIdle := by cases hIdle
  send _ hSend := absurd rfl hSend

variable [DecidableEq ω]

theorem count_idle_le_one {s : Scheduler ι ω} (h : s.Serialized) (w : ω) : s.idle.count w ≤ 1 := by
  have hTurn := h.turn w
  rw [turns] at hTurn
  omega

theorem Placed.assign {s : Scheduler ι ω} (h : s.Placed) (hTurns : s.Serialized) {w : ω} {a : ι}
    (hMain : s.main = .assign w a) :
    ({ s.modifyWorker w fun x => { x with context := some a } with
      idle := s.idle.tail, main := .requeue w a } : Scheduler ι ω).Placed := by
  obtain ⟨rest, hIdle⟩ : ∃ rest, s.idle = w :: rest :=
    ⟨s.idle.tail, List.eq_cons_of_mem_head? (hTurns.candidate w (by rw [hMain]; rfl))⟩
  have hFree : (s.worker w).context = none := h.idle w (hIdle ▸ List.mem_cons_self)
  have hLeft : w ∉ rest := by
    have hCount := count_idle_le_one hTurns w
    rw [hIdle, List.count_cons_self] at hCount
    exact List.count_eq_zero.mp (by omega)
  constructor
  · intro b hb
    refine .inr ?_
    simp only [modifyWorker_worker]
    obtain hChosen | ⟨w', hw'⟩ := h.flag b hb
    · rw [hMain] at hChosen
      exact ⟨w, by rw [if_pos rfl]; exact hChosen⟩
    · have hNe : w' ≠ w := by
        rintro rfl
        cases hFree.symm.trans hw'
      exact ⟨w', by rw [if_neg hNe]; exact hw'⟩
  · rintro _ _ ⟨⟩
  · intro w' hw'
    rw [hIdle] at hw'
    have hNe : w' ≠ w := by
      rintro rfl
      exact hLeft hw'
    simp only [modifyWorker_worker, if_neg hNe]
    exact h.idle w' (hIdle ▸ List.mem_cons_of_mem w hw')
  · intro b hb
    obtain hUp | ⟨w', hDispatch⟩ := h.send b hb
    · exact .inl hUp
    · cases hMain.symm.trans hDispatch

variable [DecidableEq ι]

theorem workerStep_context (s : Scheduler ι ω) (w w' : ω) :
    ((s.workerStep w).worker w').context = (s.worker w').context := by
  obtain rfl | hNe := eq_or_ne w' w
  · rw [workerStep]
    cases hPc : (s.worker w').pc with
    | start | ran | proc a | worked a | quit => simp
    | done => rfl
    | wait =>
      simp only
      split
      · rfl
      · simp
    | work a =>
      simp only
      split <;> simp [mapBox]
  · rw [workerStep_worker s hNe]

theorem Placed.receive {s : Scheduler ι ω} (h : s.Placed) (hTurns : s.Serialized) (c : Setting ι) {w : ω}
    (hMain : s.main = .receive w) : (s.mainStep c).Placed := by
  obtain ⟨cmd, rest, hQueue⟩ := List.exists_cons_of_ne_nil (hTurns.served w (by rw [hMain]; rfl)).2
  have hSend : ∀ b, (s.box b).send ≠ [] → s.inWorker b = true := by
    intro b hb
    obtain hUp | ⟨w', hDispatch⟩ := h.send b hb
    · exact hUp
    · cases hMain.symm.trans hDispatch
  have hHeld : ∀ b, s.inWorker b = true → ∃ w', w' ≠ w ∧ (s.worker w').context = some b := by
    intro b hb
    obtain hChosen | ⟨w', hw'⟩ := h.flag b hb
    · rw [hMain] at hChosen
      cases hChosen
    · refine ⟨w', ?_, hw'⟩
      rintro rfl
      cases hb.symm.trans (h.cleared w' b (by rw [hMain]; rfl) hw')
  -- any command but kIdle leaves the contexts as they are
  have hOther : ∀ t : Scheduler ι ω, t.actors = s.actors → t.idle = s.idle → t.main = .loop →
      (∀ w', (t.worker w').context = (s.worker w').context) → t.Placed := by
    intro t hActors hIdle hLoop hContext
    have hBox : ∀ b, t.box b = s.box b := fun b => by rw [box, hActors, box]
    have hFlag : ∀ b, t.inWorker b = s.inWorker b := fun b => by rw [inWorker, hActors, inWorker]
    constructor
    · intro b hb
      obtain ⟨w', -, hw'⟩ := hHeld b (hFlag b ▸ hb)
      exact .inr ⟨w', (hContext w').trans hw'⟩
    · rw [hLoop]
      rintro _ _ ⟨⟩
    · intro w' hw'
      rw [hContext]
      exact h.idle w' (hIdle ▸ hw')
    · intro b hb
      rw [hFlag]
      exact .inl (hSend b (hBox b ▸ hb))
  simp only [mainStep, hMain, hQueue]
  cases cmd with
  | kIdle =>
    constructor
    · intro b hb
      obtain ⟨w', hNe, hw'⟩ := hHeld b hb
      exact .inr ⟨w', by simp only [modifyWorker_worker, if_neg hNe]; exact hw'⟩
    · rintro _ _ ⟨⟩
    · intro w' hw'
      simp only [modifyWorker_worker]
      split
      · rfl
      · next hNe =>
        obtain hOld | hNew := List.mem_append.mp hw'
        · exact h.idle w' hOld
        · exact absurd (List.mem_singleton.mp hNew) hNe
    · exact fun b hb => .inl (hSend b hb)
  | kQuit | kWaitForMsg | kRun | kRunWithMsg =>
    refine hOther _ rfl rfl rfl fun w' => ?_
    simp only [modifyWorker_worker, apply_ite CommonWorker.context]
    split
    · next hEq => simp [hEq]
    · rfl

omit [DecidableEq ω] in
theorem dispatchOne_send {s : Scheduler ι ω} (c : Setting ι) (a b : ι)
    (h : ((s.dispatchOne c a).box b).send ≠ []) : (s.box b).send ≠ [] := by
  obtain rfl | hNe := eq_or_ne b a
  · rw [dispatchOne] at h
    split at h
    · exact h
    · next hSend => exact hSend ▸ List.cons_ne_nil _ _
  · obtain ⟨recv, hBox⟩ := dispatchOne_box s c hNe
    rwa [hBox] at h

theorem Placed.mainStep {s : Scheduler ι ω} (h : s.Placed) (hTurns : s.Serialized) (hQueued : s.Queued)
    (c : Setting ι) : (s.mainStep c).Placed := by
  cases hMain : s.main with
  | loop => simpa only [Scheduler.mainStep, hMain] using h
  | check =>
    simp only [Scheduler.mainStep, hMain]
    split
    all_goals
      exact h.of_same (by rw [hMain]; rfl) (by rw [hMain]; rfl) (by rw [hMain]; rintro _ _ ⟨⟩) (fun _ => rfl)
        rfl (fun _ => rfl) fun _ => id
  | front w =>
    simp only [Scheduler.mainStep, hMain]
    split
    · next hTake =>
      obtain rfl := ActorContextManager.getContextWithMsg_none hTake
      exact h.of_same (by rw [hMain]; rfl) (by rw [hMain]; rfl) (by rw [hMain]; rintro _ _ ⟨⟩) (fun _ => rfl)
        rfl (fun _ => rfl) fun _ => id
    · next actors a hTake =>
      obtain ⟨-, -, -, hHeap⟩ := ActorContextManager.getContextWithMsg_some hTake
      constructor
      · intro b hb
        rw [inWorker, hHeap] at hb
        split at hb
        · next hEq => exact .inl (congrArg some hEq.symm)
        · obtain hChosen | hHeld := h.flag b hb
          · rw [hMain] at hChosen
            cases hChosen
          · exact .inr hHeld
      · rintro _ _ ⟨⟩
      · exact h.idle
      · intro b hb
        have hBox : actors.heap b = s.actors.heap b ∨ (actors.heap b).inWorker = true := by
          rw [hHeap]
          split
          · exact .inr rfl
          · exact .inl rfl
        obtain hSame | hUp := hBox
        · rw [box, hSame] at hb
          obtain hUp | ⟨w', hDispatch⟩ := h.send b hb
          · exact .inl (by rw [inWorker, hSame]; exact hUp)
          · cases hMain.symm.trans hDispatch
        · exact .inl hUp
  | select w a =>
    simp only [Scheduler.mainStep, hMain, if_neg (hQueued.select w a hMain)]
    refine h.of_same (by rw [hMain]; rfl) (by rw [hMain]; rfl) (by rw [hMain]; rintro _ _ ⟨⟩) (fun _ => rfl)
      rfl (fun b => ?_) fun b hb => ?_
    · rw [inWorker, mapBox, ActorContextManager.mapMailbox_heap, inWorker]
    · change ((s.mapBox a Mailbox.moveToRun).box b).send ≠ [] at hb
      rw [mapBox_box] at hb
      split at hb
      · next hEq => rwa [Mailbox.moveToRun_send, ← hEq] at hb
      · exact hb
  | assign w a => simpa only [Scheduler.mainStep, hMain] using h.assign hTurns hMain
  | requeue w a =>
    simp only [Scheduler.mainStep, hMain]
    split
    · exact h.of_same (by rw [hMain]; rfl) (by rw [hMain]; rfl) (by rw [hMain]; rintro _ _ ⟨⟩) (fun _ => rfl)
        rfl (fun _ => rfl) fun _ => id
    · refine h.of_same (by rw [hMain]; rfl) (by rw [hMain]; rfl) (by rw [hMain]; rintro _ _ ⟨⟩) (fun _ => rfl)
        rfl (ActorContextManager.pushContext_inWorker s.actors a) fun b hb => ?_
      rwa [box, ActorContextManager.pushContext_mailbox] at hb
  | send w =>
    simp only [Scheduler.mainStep, hMain]
    refine h.of_same (by rw [hMain]; rfl) (by rw [hMain]; rfl) (by rw [hMain]; rintro _ _ ⟨⟩) (fun w' => ?_)
      rfl (fun _ => rfl) fun _ => id
    simp only [modifyWorker_worker]
    split
    · next hEq => rw [hEq]
    · rfl
  | dispatch w a =>
    simp only [Scheduler.mainStep, hMain]
    split
    · next hSend =>
      refine h.of_same (by rw [hMain]; rfl) (by rw [hMain]; rfl) (fun w' b hDispatch hb => ?_) (fun _ => rfl)
        rfl (fun _ => rfl) fun _ => id
      obtain ⟨-, rfl⟩ := MainPc.dispatch.inj (hMain.symm.trans hDispatch)
      exact absurd hSend hb
    · exact h.of_same (by rw [dispatchOne_main]) (by rw [dispatchOne_main])
        (fun w' b hDispatch _ => (dispatchOne_main s c a).trans hDispatch)
        (fun w' => by rw [dispatchOne_worker]) (dispatchOne_idle s c a) (dispatchOne_inWorker s c a)
        (dispatchOne_send c a)
  | receive w => exact h.receive hTurns c hMain

omit [DecidableEq ω] in
theorem Placed.event {s : Scheduler ι ω} (h : s.Placed) {w : ω} (hMain : s.main = .loop) :
    (s.event w).Placed := by
  have hOld : ∀ b, s.inWorker b = true → ∃ w', (s.worker w').context = some b := by
    intro b hb
    obtain hChosen | hHeld := h.flag b hb
    · rw [hMain] at hChosen
      cases hChosen
    · exact hHeld
  have hSend : ∀ b, (s.box b).send ≠ [] → s.inWorker b = true := by
    intro b hb
    obtain hUp | ⟨w', hDispatch⟩ := h.send b hb
    · exact hUp
    · cases hMain.symm.trans hDispatch
  rw [Scheduler.event]
  split
  · next hNone =>
    refine ⟨fun b hb => .inr (hOld b hb), fun w' b hw' hb => ?_, h.idle, fun b hb => .inl (hSend b hb)⟩
    obtain rfl := Option.some.inj hw'
    cases hNone.symm.trans hb
  · next a hContext =>
    have hFlag : ∀ b, (s.actors.setRuningFlag a false |>.heap b).inWorker =
        if b = a then false else s.inWorker b := by
      intro b
      rw [ActorContextManager.setRuningFlag, ActorContextManager.modify_heap,
        apply_ite ActorContext.inWorker]
      rfl
    constructor
    · intro b hb
      rw [inWorker, hFlag] at hb
      split at hb
      · cases hb
      · exact .inr (hOld b hb)
    · intro w' b hw' hb
      obtain rfl := Option.some.inj hw'
      obtain rfl := Option.some.inj (hContext.symm.trans hb)
      rw [inWorker, hFlag, if_pos rfl]
    · exact h.idle
    · intro b hb
      have hBox := setRuningFlag_box s b a false
      have hb : (s.box b).send ≠ [] := fun hNil => hb ((congrArg Mailbox.send hBox).trans hNil)
      obtain rfl | hNe := eq_or_ne b a
      · exact .inr ⟨w, rfl⟩
      · rw [inWorker, hFlag, if_neg hNe]
        exact .inl (hSend b hb)

theorem Placed.userStep {s : Scheduler ι ω} (h : s.Placed) (hTurns : s.Serialized) (w : ω)
    {f : ι → Mailbox (Option ι) → Mailbox (Option ι)} : (s.userStep w f).Placed := by
  have hFlag : ∀ b, (s.userStep w f).inWorker b = s.inWorker b := by
    intro b
    obtain hSame | ⟨a, -, hMap⟩ := userStep_actors s w f
    · rw [inWorker, hSame, inWorker]
    · rw [inWorker, hMap, ActorContextManager.mapMailbox_heap, inWorker]
  constructor
  · intro b hb
    rw [userStep_main, userStep_worker]
    exact h.flag b (hFlag b ▸ hb)
  · rw [userStep_main, userStep_worker]
    intro w' b hw' hb
    rw [hFlag]
    exact h.cleared w' b hw' hb
  · rw [userStep_worker, userStep_idle]
    exact h.idle
  · intro b hb
    rw [hFlag, userStep_main]
    obtain hBox | ⟨hPc, -⟩ := userStep_box s w f b
    · exact h.send b (hBox ▸ hb)
    · have hExec : (s.worker w).executing = some b := by rw [CommonWorker.executing, hPc]
      exact .inl (hTurns.serial.flag w b hExec)

theorem Placed.next {s : Scheduler ι ω} (h : s.Placed) (hTurns : s.Serialized) (hQueued : s.Queued)
    (c : Setting ι) {l : Label ι ω} (hEnabled : s.enabled l) (hAdd : ¬ l.IsAdd) : (s.next c l).Placed := by
  cases l with
  | check =>
    exact h.of_same (by rw [hEnabled]; rfl) (by rw [hEnabled]; rfl) (by rw [hEnabled]; rintro _ _ ⟨⟩)
      (fun _ => rfl) rfl (fun _ => rfl) fun _ => id
  | event w => exact h.event hEnabled.1
  | arrive m =>
    refine h.of_same rfl rfl (fun _ _ hDispatch _ => hDispatch) (fun _ => rfl) rfl (deliver_inWorker s c _)
      fun b hb => ?_
    obtain ⟨recv, hBox⟩ := deliver_box s c ⟨none, m⟩ b
    rwa [Scheduler.next, hBox] at hb
  | main => exact h.mainStep hTurns hQueued c
  | worker w =>
    have hMain := workerStep_main s w
    refine h.of_same (by rw [Scheduler.next, hMain]) (by rw [Scheduler.next, hMain])
      (fun _ _ hDispatch _ => hMain.trans hDispatch) (workerStep_context s w) ?_ (fun b => ?_) fun b hb => ?_
    · cases hPc : (s.worker w).pc <;>
        simp only [Scheduler.next, workerStep, hPc] <;> first | rfl | (split <;> rfl)
    · obtain hSame | ⟨a, p, rest, -, -, hMap⟩ := workerStep_actors s w
      · rw [Scheduler.next, inWorker, hSame, inWorker]
      · rw [Scheduler.next, inWorker, hMap, ActorContextManager.mapMailbox_heap, inWorker]
    · obtain ⟨run, hBox⟩ := workerStep_box s w b
      rwa [Scheduler.next, hBox] at hb
  | post w m | setRunQueueSize w n => exact h.userStep hTurns w
  | quit w =>
    refine h.of_same rfl rfl (fun _ _ hDispatch _ => hDispatch) (fun w' => ?_) rfl (fun _ => rfl) fun _ => id
    simp only [Scheduler.next, modifyWorker_worker]
    split
    · next hEq => rw [hEq]
    · rfl
  | addInit a sent | addRegister a | addClear a | addDispatch a => exact absurd trivial hAdd

/-- What is true of every state reached when all actors were added before `Exec`. -/
structure Accounted (s : Scheduler ι ω) : Prop where
  serialized : s.Serialized
  waits : s.Waits
  placed : s.Placed

theorem Accounted.next {s : Scheduler ι ω} (h : s.Accounted) (c : Setting ι) {l : Label ι ω}
    (hEnabled : s.enabled l) (hAdd : ¬ l.IsAdd) : (s.next c l).Accounted where
  serialized := h.serialized.next c l hEnabled (addsApart_of_not_isAdd hAdd)
  waits := h.waits.next c hEnabled hAdd
  placed := h.placed.next h.serialized h.waits.queued c hEnabled hAdd

theorem accounted_of_added {c : Setting ι} {ls : List (Label ι ω)} (hAdded : ∀ l ∈ ls, ¬ l.IsAdd)
    (hRuns : (system c).Runs (initial c) ls) :
    ∀ t ∈ (system c).visited (initial c) ls, t.Accounted := by
  have hStep : ∀ (s : Scheduler ι ω) (l : Label ι ω), s.Accounted → s.enabled l → ¬ l.IsAdd →
      (s.next c l).Accounted := fun s l h => h.next c
  exact (system c).inv_visited hStep ⟨Serialized.initial c, Waits.initial c, Placed.initial c⟩ hRuns fun p hp =>
    hAdded p.2 ((system c).label_mem_of_mem_steps hp)

theorem atRest_iff {c : Setting ι} {s : Scheduler ι ω} :
    (system c).AtRest Works s ↔ s.main = .loop ∧
      (∀ w, ¬ s.enabled (.event w) ∧ ¬ s.enabled (.worker w)) ∧
      (s.idle = [] ∨ (s.actors.getContextWithMsg).2 = none) := by
  constructor
  · intro h
    have hMain : s.main = .loop := by
      by_contra hNe
      exact h .main hNe trivial
    refine ⟨hMain, fun w => ⟨?_, ?_⟩, ?_⟩
    · exact fun hEvent => h (.event w) hEvent trivial
    · exact fun hWorker => h (.worker w) hWorker trivial
    · have hCheck := h .check hMain
      rw [Works, not_and_or, not_not, not_not] at hCheck
      exact hCheck
  · rintro ⟨hMain, hThreads, hCheck⟩ l hEnabled hWorks
    cases l with
    | check => exact hCheck.elim hWorks.1 hWorks.2
    | event w => exact (hThreads w).1 hEnabled
    | main => exact hEnabled hMain
    | worker w => exact (hThreads w).2 hEnabled
    | arrive m | post w m | setRunQueueSize w n | quit w | addInit a sent | addRegister a | addClear a
    | addDispatch a => exact hWorks

instance [Fintype ω] (c : Setting ι) (s : Scheduler ι ω) : Decidable ((system c).AtRest Works s) :=
  decidable_of_iff' _ atRest_iff

/-- Every worker waits in the idle list without a context, and no actor has a message or a mark. -/
structure Drained (s : Scheduler ι ω) : Prop where
  worker : ∀ w, s.worker w = { pc := .wait }
  idle : ∀ w, s.idle.count w = 1
  waitQueue : s.actors.waitQueue = []
  flag : ∀ a, s.inWorker a = false
  mailbox : ∀ a, (s.box a).recv = [] ∧ (s.box a).run = [] ∧ (s.box a).send = []

omit [DecidableEq ι] in
theorem Serialized.parked {s : Scheduler ι ω} (h : s.Serialized) {w : ω} (hCalm : (s.worker w).Calm)
    (hMain : s.main = .loop) (hEvent : ¬ s.enabled (.event w)) (hWorker : ¬ s.enabled (.worker w)) :
    (s.worker w).pc = .wait ∧ (s.worker w).channel = {} ∧ s.idle.count w = 1 := by
  obtain ⟨-, hDone, hRegistered, -⟩ := hCalm
  have hWait : (s.worker w).pc = .wait ∧ (s.worker w).channel.toOwner = [] := by
    rw [enabled, not_and, Classical.not_imp, not_not] at hWorker
    exact hWorker hDone
  have hToMain : (s.worker w).channel.toMain = [] := by
    by_contra hNe
    exact hEvent ⟨hMain, hRegistered, hNe⟩
  have hTurn := h.turn w
  rw [turns, CommonWorker.turns, hWait.1, hWait.2, hToMain, hMain] at hTurn
  refine ⟨hWait.1, ?_, by simpa [WorkerPc.busy, MainPc.inHand] using hTurn⟩
  rw [show (s.worker w).channel = ⟨(s.worker w).channel.toOwner, (s.worker w).channel.toMain⟩ from rfl,
    hWait.2, hToMain]

theorem drained_of_atRest [Nonempty ω] {c : Setting ι} {s : Scheduler ι ω} (h : s.Accounted)
    (hCalm : ∀ w, (s.worker w).Calm) (hCarried : ∀ a, (s.box a).run ≠ [] → ∃ w, s.Carries w a)
    (hRest : (system c).AtRest Works s) : s.Drained := by
  obtain ⟨hMain, hThreads, hCheck⟩ := atRest_iff.mp hRest
  have hParked := fun w => h.serialized.parked (hCalm w) hMain (hThreads w).1 (hThreads w).2
  have hIdle : ∀ w, w ∈ s.idle := fun w => List.count_pos_iff.mp (by rw [(hParked w).2.2]; exact Nat.one_pos)
  have hContext : ∀ w, (s.worker w).context = none := fun w => h.placed.idle w (hIdle w)
  have hFlag : ∀ a, s.inWorker a = false := by
    intro a
    rw [← Bool.not_eq_true]
    intro hUp
    obtain hChosen | ⟨w, hw⟩ := h.placed.flag a hUp
    · rw [hMain] at hChosen
      cases hChosen
    · cases (hContext w).symm.trans hw
  have hQueue : s.actors.waitQueue = [] := by
    obtain ⟨w⟩ := ‹Nonempty ω›
    have hNone := hCheck.resolve_left fun hNil => by
      have hw := hIdle w
      rw [hNil] at hw
      cases hw
    by_contra hNe
    obtain ⟨a, rest, hCons⟩ := List.exists_cons_of_ne_nil hNe
    exact ActorContextManager.getContextWithMsg_ne_none (hCons ▸ List.mem_cons_self) (hFlag a) hNone
  refine ⟨fun w => ?_, fun w => (hParked w).2.2, hQueue, hFlag, fun a => ⟨?_, ?_, ?_⟩⟩
  · obtain ⟨hPc, hChannel, -⟩ := hParked w
    rw [show s.worker w = ⟨(s.worker w).pc, (s.worker w).context, (s.worker w).channel,
      (s.worker w).registered⟩ from rfl, hPc, hChannel, hContext w, (hCalm w).2.2.1]
  · by_contra hNe
    have hMem := h.waits.mem hNe (hFlag a)
    rw [hQueue] at hMem
    cases hMem
  · by_contra hNe
    obtain ⟨w, hw⟩ := hCarried a hNe
    obtain ⟨-, -, hNotIdle, -⟩ := hw.resolve_left (by simp [hMain])
    exact hNotIdle (hIdle w)
  · by_contra hNe
    obtain hUp | ⟨w, hDispatch⟩ := h.placed.send a hNe
    · cases (hFlag a).symm.trans hUp
    · cases hMain.symm.trans hDispatch

/-- What all states between `Exec` and `Quit` have in common when the actors were in place before. -/
theorem accounted_of_runs {c : Setting ι} {ls : List (Label ι ω)} (hAdded : ∀ l ∈ ls, ¬ l.IsAdd)
    (hQuit : ∀ l ∈ ls, ¬ l.IsQuit) (hRuns : (system c).Runs (initial c) ls) :
    let s := (system c).exec (initial c) ls
    s.Accounted ∧ (∀ w, (s.worker w).Calm) ∧ ∀ a, (s.box a).run ≠ [] → ∃ w, s.Carries w a := by
  have hStep : ∀ (s : Scheduler ι ω) (l : Label ι ω),
      (s.Accounted ∧ (∀ w, (s.worker w).Calm) ∧ ∀ a, (s.box a).run ≠ [] → ∃ w, s.Carries w a) →
      s.enabled l → ¬ l.IsAdd ∧ ¬ l.IsQuit →
      (s.next c l).Accounted ∧ (∀ w, ((s.next c l).worker w).Calm) ∧
        ∀ a, ((s.next c l).box a).run ≠ [] → ∃ w, (s.next c l).Carries w a := by
    rintro s l ⟨hAccounted, hCalm, hCarried⟩ hEnabled ⟨hAdd, hQuit⟩
    exact ⟨hAccounted.next c hEnabled hAdd, calm_next hAccounted.serialized hCalm c hAdd hQuit,
      fun a => carried_next hAccounted.serialized hCalm (hCarried a) c hEnabled hAdd hQuit⟩
  have hStart : (initial c : Scheduler ι ω).Accounted :=
    ⟨Serialized.initial c, Waits.initial c, Placed.initial c⟩
  exact (system c).inv_visited hStep
    ⟨hStart, fun _ => ⟨by rintro ⟨⟩, by rintro ⟨⟩, rfl, List.not_mem_nil⟩,
      fun _ hRun => absurd rfl hRun⟩ hRuns
    (fun p hp =>
      have hMem := (system c).label_mem_of_mem_steps hp
      ⟨hAdded p.2 hMem, hQuit p.2 hMem⟩) _ ((system c).mem_visited_of_exec _ ls)

/-- Between `Exec` and `Quit`, with the actors in place before: whatever order the threads have taken
their steps in, the scheduler does not come to rest before every message has been processed. -/
theorem rest_drained [Nonempty ω] (c : Setting ι) (ls : List (Label ι ω)) (hAdded : ∀ l ∈ ls, ¬ l.IsAdd)
    (hQuit : ∀ l ∈ ls, ¬ l.IsQuit) (hRuns : (system c).Runs (initial c) ls)
    (hRest : (system c).AtRest Works ((system c).exec (initial c) ls)) :
    ((system c).exec (initial c) ls).Drained := by
  obtain ⟨hAccounted, hCalm, hCarried⟩ := accounted_of_runs hAdded hQuit hRuns
  exact drained_of_atRest hAccounted hCalm hCarried hRest

/-- The first actor gets a message and posts one for the second, and the only worker executes both. -/
def drainRun : List (Label Bool Unit) :=
  [.worker (), .event (), .main, .arrive helloMsg, .check, .main, .main, .main, .main, .main, .main, .main,
    .worker (), .worker (), .worker (), .post () (pairMsg "1"), .worker (), .worker (), .worker (), .event (),
    .main, .main, .main, .check, .main, .main, .main, .main, .main, .main, .main, .worker (), .worker (),
    .worker (), .worker (), .worker (), .worker (), .event (), .main, .main]

theorem rest_drained_pair : ((system pairSetting).exec (initial pairSetting) drainRun).Drained :=
  rest_drained pairSetting drainRun (by decide) (by decide) (by decide) (by decide)

/-- A worker that has ended is removed or will be, and one that was `told` to quit ends. -/
structure Ending (told : Prop) (w : ω) (s : Scheduler ι ω) : Prop where
  told : told → .kQuit ∈ (s.worker w).channel.toOwner ∨ (s.worker w).pc = .quit ∨ (s.worker w).pc = .done
  done : (s.worker w).pc = .done →
    (s.worker w).registered = false ∨ .kQuit ∈ (s.worker w).channel.toMain

variable {told : Prop} {w : ω} {s : Scheduler ι ω}

omit [DecidableEq ω] [DecidableEq ι] in
theorem Ending.congr {t : Scheduler ι ω} (h : s.Ending told w) (hWorker : t.worker = s.worker) :
    t.Ending told w where
  told := hWorker ▸ h.told
  done := hWorker ▸ h.done

omit [DecidableEq ι] in
theorem Ending.update {t : Scheduler ι ω} (h : s.Ending told w) {w' : ω} {x : CommonWorker ι}
    (hWorker : t.worker = Function.update s.worker w' x) (hPc : x.pc = (s.worker w').pc)
    (hToOwner : (s.worker w').channel.toOwner ⊆ x.channel.toOwner)
    (hToMain : x.channel.toMain = (s.worker w').channel.toMain)
    (hRegistered : x.registered = (s.worker w').registered) : t.Ending told w := by
  obtain rfl | hNe := eq_or_ne w w'
  · have hSelf : t.worker w = x := by rw [hWorker, Function.update_self]
    constructor
    · rw [hSelf, hPc]
      exact fun hTold => (h.told hTold).imp_left fun hIn => hToOwner hIn
    · rw [hSelf, hPc, hToMain, hRegistered]
      exact h.done
  · have hOther : t.worker w = s.worker w := by rw [hWorker, Function.update_of_ne hNe]
    exact ⟨by rw [hOther]; exact h.told, by rw [hOther]; exact h.done⟩

omit [DecidableEq ω] [DecidableEq ι] in
theorem Ending.goes_on {t : Scheduler ι ω} (h : s.Ending told w) (hQuit : (s.worker w).pc ≠ .quit)
    (hDone : (s.worker w).pc ≠ .done) (hToOwner : (t.worker w).channel.toOwner = (s.worker w).channel.toOwner)
    (hPc : (t.worker w).pc ≠ .done) : t.Ending told w where
  told hTold := by
    obtain hIn | hEnds | hEnded := h.told hTold
    · exact .inl (hToOwner ▸ hIn)
    · exact absurd hEnds hQuit
    · exact absurd hEnded hDone
  done hEnded := absurd hEnded hPc

omit [DecidableEq ω] [DecidableEq ι] in
theorem Ending.answered {t : Scheduler ι ω} (h : s.Ending told w) {cmd : Cmd} {rest : List Cmd}
    (hQueue : (s.worker w).channel.toMain = cmd :: rest) (hPc : (t.worker w).pc = (s.worker w).pc)
    (hToOwner : (t.worker w).channel.toOwner = (s.worker w).channel.toOwner)
    (hToMain : (t.worker w).channel.toMain = rest)
    (hRegistered : (s.worker w).registered = false → (t.worker w).registered = false)
    (hQuit : cmd = .kQuit → (t.worker w).registered = false) : t.Ending told w where
  told := by
    rw [hPc, hToOwner]
    exact h.told
  done hDone := by
    obtain hGone | hIn := h.done (hPc ▸ hDone)
    · exact .inl (hRegistered hGone)
    · rw [hQueue] at hIn
      obtain hFirst | hRest := List.mem_cons.mp hIn
      · exact .inl (hQuit hFirst.symm)
      · exact .inr (hToMain ▸ hRest)

/-- The main loop takes kQuit from the worker's channel only to remove the worker. -/
theorem Ending.mainStep (h : s.Ending told w) (c : Setting ι) : (s.mainStep c).Ending told w := by
  simp only [Scheduler.mainStep]
  split
  · exact h
  · split <;> exact h.congr rfl
  · split <;> exact h.congr rfl
  · split <;> exact h.congr rfl
  · exact h.update rfl rfl (List.Subset.refl _) rfl rfl
  · split <;> exact h.congr rfl
  · exact h.update rfl rfl (List.subset_append_left _ _) rfl rfl
  · split
    · exact h.congr rfl
    · exact h.congr (dispatchOne_worker s c _)
  · next w' hMain =>
    split
    · exact h.congr rfl
    · next cmd rest hQueue =>
      obtain rfl | hNe := eq_or_ne w w'
      · split
        · exact h.answered hQueue (by simp) (by simp) (by simp) (by simp) (by rintro ⟨⟩)
        · exact h.answered hQueue (by simp) (by simp) (by simp) (by simp) (by simp)
        · next hQuit => exact h.answered hQueue (by simp) (by simp) (by simp) (by simp) fun hCmd => absurd hCmd hQuit
      · obtain ⟨hTold, hDone⟩ := h
        split
        all_goals
          constructor
          · simpa only [modifyWorker_worker, if_neg hNe] using hTold
          · simpa only [modifyWorker_worker, if_neg hNe] using hDone

theorem Ending.workerStep (h : s.Ending told w) (w' : ω) : (s.workerStep w').Ending told w := by
  obtain rfl | hNe := eq_or_ne w w'
  · have hGoesOn : ∀ t : Scheduler ι ω, (s.worker w).pc ≠ .quit → (s.worker w).pc ≠ .done →
        (t.worker w).channel.toOwner = (s.worker w).channel.toOwner → (t.worker w).pc ≠ .done →
        t.Ending told w := fun t => h.goes_on
    rw [Scheduler.workerStep]
    cases hPc : (s.worker w).pc with
    | start | proc a | worked a =>
      exact hGoesOn _ (by rw [hPc]; rintro ⟨⟩) (by rw [hPc]; rintro ⟨⟩) (by simp) (by simp)
    | ran =>
      refine hGoesOn _ (by rw [hPc]; rintro ⟨⟩) (by rw [hPc]; rintro ⟨⟩) (by simp) ?_
      cases hContext : (s.worker w).context <;> simp [hContext]
    | wait =>
      simp only
      split
      · exact h
      · next cmd rest hQueue =>
        constructor
        · intro hTold
          obtain rfl | hCmd := eq_or_ne cmd .kQuit
          · exact .inr (.inl (by simp))
          · obtain hIn | hEnds | hEnded := h.told hTold
            · rw [hQueue] at hIn
              have hRest := (List.mem_cons.mp hIn).resolve_left hCmd.symm
              exact .inl (by simpa using hRest)
            · cases hPc.symm.trans hEnds
            · cases hPc.symm.trans hEnded
        · obtain rfl | hCmd := eq_or_ne cmd .kQuit
          · simp
          · simp [hCmd]
    | work a =>
      simp only
      split
      · exact hGoesOn _ (by rw [hPc]; rintro ⟨⟩) (by rw [hPc]; rintro ⟨⟩) (by simp) (by simp)
      · exact hGoesOn _ (by rw [hPc]; rintro ⟨⟩) (by rw [hPc]; rintro ⟨⟩) (by simp [mapBox]) (by simp)
    | quit => exact ⟨fun _ => .inr (.inr (by simp)), fun _ => .inr (by simp)⟩
    | done => exact h
  · have hOther := workerStep_worker s hNe
    exact ⟨by rw [hOther]; exact h.told, by rw [hOther]; exact h.done⟩

theorem Ending.next (h : s.Ending told w) (c : Setting ι) (l : Label ι ω) : (s.next c l).Ending told w := by
  cases l with
  | check | arrive m | addRegister a | addClear a => exact h.congr rfl
  | event w' =>
    simp only [Scheduler.next, event]
    split <;> exact h.congr rfl
  | main => exact h.mainStep c
  | worker w' => exact h.workerStep w'
  | post w' m | setRunQueueSize w' n => exact h.congr (userStep_worker s w' _)
  | quit w' => exact h.update rfl rfl (List.subset_append_left _ _) rfl rfl
  | addInit a sent =>
    simp only [Scheduler.next, addInit]
    split <;> exact h.congr rfl
  | addDispatch a =>
    simp only [Scheduler.next, addDispatch]
    split
    · exact h.congr rfl
    · split
      · exact h.congr rfl
      · exact h.congr (dispatchOne_worker s c a)

theorem Ending.exec {c : Setting ι} (h : s.Ending told w) {ls : List (Label ι ω)}
    (hRuns : (system c).Runs s ls) : ((system c).exec s ls).Ending told w := by
  have hStep : ∀ (s : Scheduler ι ω) (l : Label ι ω), s.Ending told w → s.enabled l → True →
      (s.next c l).Ending told w := fun s l h _ _ => h.next c l
  exact (system c).inv_visited hStep h hRuns (fun _ _ => trivial) _ ((system c).mem_visited_of_exec ..)

/-- Whatever else has happened, and in whatever order: the scheduler does not come to rest before each
worker that was told to quit has ended and been removed. -/
theorem rest_removed (c : Setting ι) (ls : List (Label ι ω)) (hRuns : (system c).Runs (initial c) ls)
    (hRest : (system c).AtRest Works ((system c).exec (initial c) ls)) (w : ω) (hQuit : .quit w ∈ ls) :
    (((system c).exec (initial c) ls).worker w).pc = .done ∧
      (((system c).exec (initial c) ls).worker w).registered = false := by
  obtain ⟨before, after, rfl⟩ := List.append_of_mem hQuit
  obtain ⟨hBefore, hAfter⟩ := (system c).runs_append.mp hRuns
  obtain ⟨-, hAfter⟩ := (system c).runs_cons.mp hAfter
  have hStart : (initial c : Scheduler ι ω).Ending False w := ⟨False.elim, by rintro ⟨⟩⟩
  have hBegun := hStart.exec hBefore
  have hTold : (((system c).exec (initial c) before).next c (.quit w)).Ending True w :=
    ⟨fun _ => .inl (by simp [Scheduler.next]), (hBegun.next c (.quit w)).done⟩
  have hEnd := hTold.exec hAfter
  rw [(system c).exec_append, (system c).exec_cons] at hRest ⊢
  obtain ⟨hMain, hThreads, -⟩ := atRest_iff.mp hRest
  obtain ⟨hEvent, hWorker⟩ := hThreads w
  rw [enabled, not_and, Classical.not_imp, not_not] at hWorker
  have hDone : (((system c).exec ((system c).next ((system c).exec (initial c) before) (.quit w)) after).worker w).pc
      = .done := by
    by_contra hDone
    obtain ⟨hWait, hToOwner⟩ := hWorker hDone
    obtain hIn | hPc | hPc := hEnd.told trivial
    · exact List.ne_nil_of_mem hIn hToOwner
    · cases hWait.symm.trans hPc
    · exact hDone hPc
  refine ⟨hDone, ?_⟩
  obtain hGone | hIn := hEnd.done hDone
  · exact hGone
  · by_contra hRegistered
    exact hEvent ⟨hMain, Bool.not_eq_false _ ▸ hRegistered, List.ne_nil_of_mem hIn⟩

/-- One worker is told to quit before it has reported for the first time, the other one stays. -/
def quitOne : List (Label Unit Bool) :=
  [.quit false, .worker false, .event false, .main, .worker false, .worker false, .event false, .main,
    .worker true, .event true, .main]

theorem rest_removed_one :
    (((system earlySetting).exec (initial earlySetting) quitOne).worker false).pc = .done ∧
      (((system earlySetting).exec (initial earlySetting) quitOne).worker false).registered = false :=
  rest_removed earlySetting quitOne (by decide) (by decide) false List.mem_cons_self

end Scheduler
end Myframe
