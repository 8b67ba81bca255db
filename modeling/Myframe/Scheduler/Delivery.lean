import Myframe.Scheduler.Serialized

/-! # Exactly-once, in-order delivery between two actors

While nobody quits, the messages of a pair of actors pass through the sender's send queue, the
receiver's receive queue and its run queue without loss and without overtaking. What keeps the order
when a batch goes in front of the run queue is that the run queue is empty whenever a batch is moved.
-/
namespace Myframe
set_option autoImplicit false
open Common

namespace CommonWorker

variable {ι : Type}

def Calm (x : CommonWorker ι) : Prop :=
  x.pc ≠ .quit ∧ x.pc ≠ .done ∧ x.registered = true ∧ .kQuit ∉ x.channel.toOwner

end CommonWorker

namespace Scheduler

variable {ι ω : Type}

/-- Worker `w` has been given `b` and has not finished its run queue. -/
def Carries (s : Scheduler ι ω) (w : ω) (b : ι) : Prop :=
  s.main = .assign w b ∨
    (s.worker w).held = some b ∧ (s.worker w).channel.toMain = [] ∧ w ∉ s.idle ∧
      (s.worker w).pc ≠ .start ∧ (s.worker w).pc ≠ .worked b

/-- What is true between `Exec` and `Quit` besides the turns. -/
structure Flowing [DecidableEq ω] (c : Setting ι) (b : ι) (s : Scheduler ι ω) : Prop where
  serialized : s.Serialized
  calm : ∀ w, (s.worker w).Calm
  carried : (s.box b).run ≠ [] → ∃ w, s.Carries w b
  posted : ∀ a, ∀ p ∈ (s.box a).send, p.mark = some a
  unbounded : (s.box b).pendingQueueSize ≤ 0
  registered : s.actors.ctxs (c.actorName b) = some b

/-- An ordinary local message from `a` to `b`. -/
def Between [DecidableEq ι] (c : Setting ι) (a b : ι) (p : Parcel (Option ι)) : Bool :=
  p.mark = some a ∧ p.msg.Ordinary ∧ p.msg.transMode = .kIntra ∧ p.msg.dst = c.actorName b

/-- What one step can do to the mailbox of `a`. -/
inductive BoxStep (s : Scheduler ι ω) (a : ι) : Mailbox (Option ι) → Prop where
  | received (recv : List (Parcel (Option ι))) : BoxStep s a { s.box a with recv := recv }
  | moved (w : ω) (hMain : s.main = .select w a) : BoxStep s a (s.box a).moveToRun
  | drained (w : ω) (p : Parcel (Option ι)) (rest recv : List (Parcel (Option ι)))
      (hMain : s.main = .dispatch w a) (hSend : (s.box a).send = p :: rest) :
      BoxStep s a { s.box a with send := rest, recv := recv }
  | worked (w : ω) (p : Parcel (Option ι)) (rest : List (Parcel (Option ι)))
      (hPc : (s.worker w).pc = .work a) (hRun : (s.box a).run = p :: rest) :
      BoxStep s a { s.box a with run := rest }
  | posted (m : Msg) : BoxStep s a ((s.box a).push ⟨some a, m⟩)
  | resized (n : ℤ) : BoxStep s a { s.box a with runQueueSize := n }

variable [DecidableEq ι]

theorem mainStep_box (s : Scheduler ι ω) [DecidableEq ω] (c : Setting ι) (a : ι) :
    s.BoxStep a ((s.mainStep c).box a) := by
  have hSame : s.BoxStep a (s.box a) := .received (s.box a).recv
  have hKeep : ∀ box, box = s.box a → s.BoxStep a box := fun _ hBox => hBox ▸ hSame
  simp only [mainStep]
  split
  · exact hSame
  · split <;> exact hSame
  · have hBox := ActorContextManager.getContextWithMsg_mailbox s.actors a
    split <;> next hTake => rw [hTake] at hBox; exact hKeep _ hBox
  · next w b hMain =>
    split
    · exact hSame
    · change s.BoxStep a ((s.mapBox b Mailbox.moveToRun).box a)
      rw [mapBox_box]
      split
      · next hEq => subst hEq; exact .moved w hMain
      · exact hSame
  · exact hSame
  · next w b hMain =>
    split
    · exact hSame
    · exact hKeep _ (ActorContextManager.pushContext_mailbox s.actors b a)
  · exact hSame
  · next w b hMain =>
    split
    · exact hSame
    · next p rest hSend =>
      obtain rfl | hNe := eq_or_ne a b
      · simp only [dispatchOne, hSend]
        obtain ⟨recv, hBox⟩ := deliver_box (s.mapBox a fun x => { x with send := rest }) c p a
        rw [hBox, mapBox_box, if_pos rfl]
        exact .drained w p rest recv hMain hSend
      · obtain ⟨recv, hBox⟩ := dispatchOne_box s c hNe
        rw [hBox]
        exact .received recv
  · split
    · exact hSame
    · split <;> exact hSame

theorem next_box [DecidableEq ω] {s : Scheduler ι ω} (c : Setting ι) {l : Label ι ω} (hAdd : ¬ l.IsAdd)
    (a : ι) : s.BoxStep a ((s.next c l).box a) := by
  have hSame : s.BoxStep a (s.box a) := .received (s.box a).recv
  cases l with
  | check | quit w => exact hSame
  | event w =>
    simp only [next, event]
    split
    · exact hSame
    · next b _ => exact (setRuningFlag_box s a b false).symm ▸ hSame
  | arrive m =>
    obtain ⟨recv, hBox⟩ := deliver_box s c ⟨none, m⟩ a
    rw [next, hBox]
    exact .received recv
  | main => exact mainStep_box s c a
  | worker w =>
    obtain hActors | ⟨b, p, rest, hPc, hRun, hMap⟩ := workerStep_actors s w
    · rw [next, box, hActors]
      exact hSame
    · rw [next, box, hMap, ActorContextManager.mapMailbox_heap]
      split
      · next hEq => subst hEq; exact .worked w p rest hPc hRun
      · exact hSame
  | post w m =>
    obtain hBox | ⟨-, hBox⟩ := userStep_box s w (fun a b => b.push ⟨some a, m⟩) a
    · rw [next, hBox]; exact hSame
    · rw [next, hBox]; exact .posted m
  | setRunQueueSize w n =>
    obtain hBox | ⟨-, hBox⟩ := userStep_box s w (fun _ b => { b with runQueueSize := n }) a
    · rw [next, hBox]; exact hSame
    · rw [next, hBox]; exact .resized n
  | addInit b sent | addRegister b | addClear b | addDispatch b => exact absurd trivial hAdd

omit [DecidableEq ι] in
theorem BoxStep.pendingQueueSize {s : Scheduler ι ω} {a : ι} {box : Mailbox (Option ι)}
    (h : s.BoxStep a box) : box.pendingQueueSize = (s.box a).pendingQueueSize := by
  cases h with
  | moved w hMain => exact Mailbox.moveToRun_pendingQueueSize _
  | received | drained | worked | posted | resized => rfl

omit [DecidableEq ι] in
theorem BoxStep.send {s : Scheduler ι ω} {a : ι} {box : Mailbox (Option ι)} (h : s.BoxStep a box)
    (hPosted : ∀ p ∈ (s.box a).send, p.mark = some a) : ∀ p ∈ box.send, p.mark = some a := by
  cases h with
  | moved w hMain => rwa [Mailbox.moveToRun_send]
  | received | worked | resized => exact hPosted
  | drained w p rest recv hMain hSend =>
    intro q hq
    exact hPosted q (hSend ▸ List.mem_cons_of_mem p hq)
  | posted m =>
    intro q hq
    obtain hOld | hNew := List.mem_append.mp hq
    · exact hPosted q hOld
    · rw [List.mem_singleton.mp hNew]

theorem next_ctxs [DecidableEq ω] {s : Scheduler ι ω} (c : Setting ι) {l : Label ι ω} (hAdd : ¬ l.IsAdd) :
    (s.next c l).actors.ctxs = s.actors.ctxs := by
  cases l with
  | check | quit w => rfl
  | event w =>
    simp only [next, event]
    split <;> rfl
  | arrive m => exact deliver_ctxs s c _
  | main =>
    simp only [next, mainStep]
    split
    · rfl
    · split <;> rfl
    · split
      · next hTake => rw [ActorContextManager.getContextWithMsg_none hTake]
      · next hTake => exact (ActorContextManager.getContextWithMsg_some hTake).2.2.1
    · split <;> rfl
    · rfl
    · split
      · rfl
      · exact ActorContextManager.pushContext_ctxs ..
    · rfl
    · split
      · rfl
      · exact dispatchOne_ctxs s c _
    · split
      · rfl
      · split <;> rfl
  | worker w =>
    obtain hActors | ⟨b, p, rest, -, -, hMap⟩ := workerStep_actors s w
    · rw [next, hActors]
    · rw [next, hMap]
      rfl
  | post w m | setRunQueueSize w n =>
    obtain hActors | ⟨b, -, hMap⟩ := userStep_actors s w _
    · rw [next, hActors]
    · rw [next, hMap]
      rfl
  | addInit b sent | addRegister b | addClear b | addDispatch b => exact absurd trivial hAdd

variable [DecidableEq ω]

theorem calm_workerStep {s : Scheduler ι ω} (h : ∀ w, (s.worker w).Calm) (w' w : ω) :
    ((s.workerStep w').worker w).Calm := by
  have hCalm := h w'
  obtain rfl | hNe := eq_or_ne w w'
  · rw [workerStep]
    cases hPc : (s.worker w).pc with
    | start | worked a | proc a => simp_all [CommonWorker.Calm]
    | quit | done => simp_all [CommonWorker.Calm]
    | ran => cases hContext : (s.worker w).context <;> simp_all [CommonWorker.Calm]
    | wait =>
      simp only
      split
      · exact hCalm
      · next cmd rest hQueue =>
        obtain ⟨-, -, hRegistered, hQuit⟩ := hCalm
        obtain ⟨hCmd, hRest⟩ := not_or.mp (fun hIn => hQuit (hQueue ▸ List.mem_cons.mpr hIn))
        simp [CommonWorker.Calm, Ne.symm hCmd, hRegistered, hRest]
    | work a =>
      simp only
      split <;> simp_all [CommonWorker.Calm, mapBox]
  · rw [workerStep_worker s hNe]
    exact h w

theorem calm_mainStep {s : Scheduler ι ω} (hTurns : s.Serialized) (h : ∀ w, (s.worker w).Calm)
    (c : Setting ι) (w : ω) : ((s.mainStep c).worker w).Calm := by
  have hCalm := h w
  simp only [mainStep]
  split
  · exact hCalm
  · split <;> exact hCalm
  · split <;> exact hCalm
  · split <;> exact hCalm
  · simp only [modifyWorker_worker]
    split
    · next hEq => subst hEq; exact hCalm
    · exact hCalm
  · split <;> exact hCalm
  · simp only [modifyWorker_worker]
    split
    · next hEq => subst hEq; simp_all [CommonWorker.Calm]
    · exact hCalm
  · split
    · exact hCalm
    · rwa [dispatchOne_worker]
  · next w' hMain =>
    split
    · exact hCalm
    · next cmd rest hQueue =>
      have hCmd := hTurns.toMain w' cmd (hQueue ▸ List.mem_cons_self)
      split
      · simp only [modifyWorker_worker]
        split
        · next hEq => subst hEq; simp_all [CommonWorker.Calm]
        · exact hCalm
      · obtain hIdle | ⟨-, hDone⟩ := hCmd
        · cases hIdle
        · exact absurd hDone (h w').2.1
      · next hIdle hQuit =>
        obtain rfl | ⟨rfl, -⟩ := hCmd
        · exact absurd rfl hIdle
        · exact absurd rfl hQuit

omit [DecidableEq ι] [DecidableEq ω] in
theorem BoxStep.run {s : Scheduler ι ω} {a : ι} {box : Mailbox (Option ι)} (h : s.BoxStep a box)
    (hRun : box.run ≠ []) : (s.box a).run ≠ [] ∨ ∃ w, s.main = .select w a := by
  cases h with
  | moved w hMain => exact .inr ⟨w, hMain⟩
  | received | drained | posted | resized => exact .inl hRun
  | worked w p rest hPc hOld =>
    rw [hOld]
    exact .inl nofun

omit [DecidableEq ι] [DecidableEq ω] in
/-- A worker that carries a context keeps it while the main loop works. -/
theorem Carries.of_same {s t : Scheduler ι ω} {w : ω} {b : ι} (h : s.Carries w b)
    (hMain : s.main ≠ .assign w b) (hIdle : ∀ w', w' ∈ t.idle → w' ∈ s.idle ∨ (s.worker w').channel.toMain ≠ [])
    (hWorker : (s.worker w).channel.toMain = [] → w ∉ s.idle →
      (t.worker w).held = (s.worker w).held ∧ (t.worker w).pc = (s.worker w).pc ∧
        (t.worker w).channel.toMain = (s.worker w).channel.toMain) : t.Carries w b := by
  obtain ⟨hHeld, hToMain, hNotIdle, hStart, hWorked⟩ := h.resolve_left hMain
  obtain ⟨hHeld', hPc', hToMain'⟩ := hWorker hToMain hNotIdle
  refine .inr ⟨hHeld'.trans hHeld, hToMain'.trans hToMain, fun hIn => ?_, hPc' ▸ hStart, hPc' ▸ hWorked⟩
  obtain hOld | hNe := hIdle w hIn
  · exact hNotIdle hOld
  · exact hNe hToMain

omit [DecidableEq ι] in
theorem carries_assign {s : Scheduler ι ω} (hTurns : s.Serialized) (hCalm : ∀ w, (s.worker w).Calm)
    {w : ω} {b : ι} (hMain : s.main = .assign w b) :
    ({ s.modifyWorker w fun x => { x with context := some b } with
      idle := s.idle.tail, main := .requeue w b } : Scheduler ι ω).Carries w b := by
  obtain ⟨hQuit, hDone, hRegistered, -⟩ := hCalm w
  obtain ⟨rest, hIdle⟩ : ∃ rest, s.idle = w :: rest :=
    ⟨s.idle.tail, List.eq_cons_of_mem_head? (hTurns.candidate w (by rw [hMain]; rfl))⟩
  have hTurn := hTurns.turn w
  simp only [turns, CommonWorker.turns, hIdle, List.count_cons_self] at hTurn
  have hToMain : (s.worker w).channel.toMain = [] := by
    apply List.eq_nil_iff_forall_not_mem.mpr
    intro cmd hCmd
    obtain rfl | ⟨-, hDone'⟩ := hTurns.toMain w cmd hCmd
    · have hCount := List.count_pos_iff.mpr hCmd
      omega
    · exact hDone hDone'
  have hNotIdle : w ∉ rest := by
    intro hIn
    have hCount := List.count_pos_iff.mpr hIn
    omega
  refine .inr ⟨?_, ?_, ?_, ?_, ?_⟩
  · simp [CommonWorker.held, hRegistered]
  · simpa using hToMain
  · simpa [hIdle] using hNotIdle
  · intro hPc
    simp only [modifyWorker_worker, if_true] at hPc
    rw [hPc, WorkerPc.busy] at hTurn
    omega
  · intro hPc
    simp only [modifyWorker_worker, if_true] at hPc
    rw [hPc, WorkerPc.busy] at hTurn
    omega

theorem carried_mainStep {s : Scheduler ι ω} {b : ι} (hTurns : s.Serialized)
    (hCalm : ∀ w, (s.worker w).Calm) (hCarried : (s.box b).run ≠ [] → ∃ w, s.Carries w b) (c : Setting ι)
    (hRun : ((s.mainStep c).box b).run ≠ []) : ∃ w, (s.mainStep c).Carries w b := by
  have hOld := (mainStep_box s c b).run hRun
  cases hMain : s.main with
  | loop =>
    obtain ⟨w, hw⟩ := hCarried (hOld.resolve_right (by simp [hMain]))
    exact ⟨w, by simpa only [mainStep, hMain] using hw⟩
  | check | front w' | requeue w' a | dispatch w' a =>
    have hSame : (s.mainStep c).idle = s.idle ∧ (s.mainStep c).worker = s.worker := by
      simp only [mainStep, hMain]
      split <;> first | exact ⟨rfl, rfl⟩ | exact ⟨dispatchOne_idle s c _, dispatchOne_worker s c _⟩
    obtain ⟨w, hw⟩ := hCarried (hOld.resolve_right (by simp [hMain]))
    refine ⟨w, hw.of_same (by simp [hMain]) (fun w'' hIn => .inl (hSame.1 ▸ hIn)) fun _ _ => ?_⟩
    rw [hSame.2]
    exact ⟨rfl, rfl, rfl⟩
  | send w' =>
    obtain ⟨w, hw⟩ := hCarried (hOld.resolve_right (by simp [hMain]))
    simp only [mainStep, hMain]
    refine ⟨w, hw.of_same (by simp [hMain]) (fun _ => .inl) fun _ _ => ?_⟩
    rw [modifyWorker_worker]
    split
    · next hEq => subst hEq; exact ⟨rfl, rfl, rfl⟩
    · exact ⟨rfl, rfl, rfl⟩
  | receive w' =>
    obtain ⟨w, hw⟩ := hCarried (hOld.resolve_right (by simp [hMain]))
    have hNe := (hTurns.served w' (by rw [hMain]; rfl)).2
    refine ⟨w, hw.of_same (by simp [hMain]) (fun w'' hIn => ?_) fun hToMain _ => ?_⟩
    · simp only [mainStep, hMain] at hIn
      split at hIn
      · exact .inl hIn
      · split at hIn
        · obtain hIn | hIn := List.mem_append.mp hIn
          · exact .inl hIn
          · exact .inr (List.mem_singleton.mp hIn ▸ hNe)
        · exact .inl hIn
        · exact .inl hIn
    · have hOther : w ≠ w' := by
        rintro rfl
        exact hNe hToMain
      simp only [mainStep, hMain]
      split
      · exact ⟨rfl, rfl, rfl⟩
      · split <;> simp only [modifyWorker_worker, if_neg hOther, and_self]
  | select w' a =>
    simp only [mainStep, hMain] at hRun ⊢
    split at hRun
    · next hNil =>
      obtain ⟨w, hw⟩ := hCarried hRun
      rw [if_pos hNil]
      exact ⟨w, hw.of_same (by simp [hMain]) (fun _ => .inl) fun _ _ => ⟨rfl, rfl, rfl⟩⟩
    · next hNil =>
      rw [if_neg hNil]
      obtain rfl | hNe := eq_or_ne b a
      · exact ⟨w', .inl rfl⟩
      · obtain ⟨w, hw⟩ := hCarried (hOld.resolve_right (by simp [hMain, hNe.symm]))
        exact ⟨w, hw.of_same (by simp [hMain]) (fun _ => .inl) fun _ _ => ⟨rfl, rfl, rfl⟩⟩
  | assign w' a =>
    simp only [mainStep, hMain]
    obtain ⟨w, hw⟩ := hCarried (hOld.resolve_right (by simp [hMain]))
    by_cases hHere : s.main = .assign w b
    · obtain ⟨rfl, rfl⟩ := MainPc.assign.inj (hMain.symm.trans hHere)
      exact ⟨w', carries_assign hTurns hCalm hMain⟩
    · refine ⟨w, hw.of_same hHere (fun w'' hIn => .inl (List.mem_of_mem_tail hIn)) fun _ hNotIdle => ?_⟩
      have hNe : w ≠ w' := by
        rintro rfl
        exact hNotIdle (List.mem_of_mem_head? (hTurns.candidate w (by rw [hMain]; rfl)))
      simp only [modifyWorker_worker, if_neg hNe, and_self]

theorem carried_workerStep {s : Scheduler ι ω} {b : ι} (hTurns : s.Serialized)
    (hCalm : ∀ w, (s.worker w).Calm) (hCarried : (s.box b).run ≠ [] → ∃ w, s.Carries w b) (w' : ω)
    (hRun : ((s.workerStep w').box b).run ≠ []) : ∃ w, (s.workerStep w').Carries w b := by
  have hOld : (s.box b).run ≠ [] := by
    obtain hActors | ⟨a, p, rest, -, hPop, hMap⟩ := workerStep_actors s w'
    · rwa [box, hActors] at hRun
    · rw [box, hMap, ActorContextManager.mapMailbox_heap] at hRun
      split at hRun
      · next hEq =>
        subst hEq
        rw [hPop]
        exact List.cons_ne_nil p rest
      · exact hRun
  obtain ⟨w, hw⟩ := hCarried hOld
  refine ⟨w, ?_⟩
  by_cases hHere : s.main = .assign w b
  · exact .inl ((workerStep_main s w').trans hHere)
  have hIdle : (s.workerStep w').idle = s.idle := by
    cases hPc : (s.worker w').pc <;> simp only [workerStep, hPc] <;> first | rfl | (split <;> rfl)
  obtain rfl | hNe := eq_or_ne w w'
  · obtain ⟨hHeld, hToMain, hNotIdle, hStart, hWorked⟩ := hw.resolve_left hHere
    obtain ⟨hQuit, hDone, hRegistered, hNoQuit⟩ := hCalm w
    have hContext : (s.worker w).context = some b := by
      rwa [CommonWorker.held, if_pos hRegistered] at hHeld
    have hLocked : ∀ a, (s.worker w).pc.locked = some a → a = b := fun a ha =>
      Option.some.inj ((hTurns.locked w a ha).symm.trans hContext)
    refine .inr ?_
    rw [hIdle]
    rw [workerStep]
    cases hPc : (s.worker w).pc with
    | start => exact absurd hPc hStart
    | quit => exact absurd hPc hQuit
    | done => exact absurd hPc hDone
    | worked a =>
      obtain rfl := hLocked a (by rw [hPc]; rfl)
      exact absurd hPc hWorked
    | wait =>
      simp only
      split
      · exact ⟨hHeld, hToMain, hNotIdle, hStart, hWorked⟩
      · next cmd rest hQueue =>
        have hCmd : cmd ≠ .kQuit := by
          rintro rfl
          exact hNoQuit (hQueue ▸ List.mem_cons_self)
        simpa [CommonWorker.held, hCmd, hRegistered] using ⟨hContext, hToMain, hNotIdle⟩
    | ran => simpa [CommonWorker.held, hRegistered, hContext] using ⟨hToMain, hNotIdle⟩
    | proc a => simpa [CommonWorker.held, hRegistered] using ⟨hContext, hToMain, hNotIdle⟩
    | work a =>
      obtain rfl := hLocked a (by rw [hPc]; rfl)
      obtain ⟨p, rest, hPop⟩ := List.exists_cons_of_ne_nil hOld
      simp only [hPop, modifyWorker_worker, mapBox, if_true]
      simpa [CommonWorker.held, hRegistered] using ⟨hContext, hToMain, hNotIdle⟩
  · exact hw.of_same hHere (fun _ hIn => .inl (hIdle ▸ hIn)) fun _ _ => by
      rw [workerStep_worker s hNe]
      exact ⟨rfl, rfl, rfl⟩

theorem carried_userStep {s : Scheduler ι ω} {b : ι}
    (hCarried : (s.box b).run ≠ [] → ∃ w, s.Carries w b) (w' : ω)
    {f : ι → Mailbox (Option ι) → Mailbox (Option ι)} (hf : ∀ a x, (f a x).run = x.run)
    (hRun : ((s.userStep w' f).box b).run ≠ []) : ∃ w, (s.userStep w' f).Carries w b := by
  obtain ⟨w, hw⟩ := hCarried (userStep_run s w' hf b ▸ hRun)
  refine ⟨w, ?_⟩
  by_cases hHere : s.main = .assign w b
  · exact .inl ((userStep_main s w' f).trans hHere)
  · have hIdle : (s.userStep w' f).idle = s.idle := by
      rw [userStep]
      split <;> rfl
    exact hw.of_same hHere (fun _ hIn => .inl (hIdle ▸ hIn)) fun _ _ => by
      rw [userStep_worker]
      exact ⟨rfl, rfl, rfl⟩

theorem calm_next {s : Scheduler ι ω} (hTurns : s.Serialized) (h : ∀ w, (s.worker w).Calm) (c : Setting ι)
    {l : Label ι ω} (hAdd : ¬ l.IsAdd) (hQuit : ¬ l.IsQuit) (w : ω) : ((s.next c l).worker w).Calm := by
  cases l with
  | check | arrive m => exact h w
  | event w' =>
    simp only [Scheduler.next, event]
    split <;> exact h w
  | main => exact calm_mainStep hTurns h c w
  | worker w' => exact calm_workerStep h w' w
  | post w' m | setRunQueueSize w' n =>
    rw [Scheduler.next, userStep_worker]
    exact h w
  | quit w' => exact absurd trivial hQuit
  | addInit a sent | addRegister a | addClear a | addDispatch a => exact absurd trivial hAdd

theorem carried_next {s : Scheduler ι ω} {b : ι} (hTurns : s.Serialized) (hCalm : ∀ w, (s.worker w).Calm)
    (hCarried : (s.box b).run ≠ [] → ∃ w, s.Carries w b) (c : Setting ι) {l : Label ι ω}
    (hEnabled : s.enabled l) (hAdd : ¬ l.IsAdd) (hQuit : ¬ l.IsQuit) (hRun : ((s.next c l).box b).run ≠ []) :
    ∃ w, (s.next c l).Carries w b := by
  have hOld := (next_box c hAdd b).run hRun
  cases l with
  | check =>
    obtain ⟨w, hw⟩ := hCarried hRun
    rw [Scheduler.enabled] at hEnabled
    exact ⟨w, hw.of_same (by simp [hEnabled]) (fun _ => .inl) fun _ _ => ⟨rfl, rfl, rfl⟩⟩
  | event w' =>
    have hLoop := hEnabled.1
    obtain ⟨w, hw⟩ := hCarried (hOld.resolve_right (by simp [hLoop]))
    have hSame : (s.event w').idle = s.idle ∧ (s.event w').worker = s.worker := by
      rw [event]
      split <;> exact ⟨rfl, rfl⟩
    refine ⟨w, hw.of_same (by simp [hLoop]) (fun w'' hIn => .inl (hSame.1 ▸ hIn)) fun _ _ => ?_⟩
    rw [Scheduler.next, hSame.2]
    exact ⟨rfl, rfl, rfl⟩
  | arrive m =>
    rw [Scheduler.enabled] at hEnabled
    obtain ⟨w, hw⟩ := hCarried (hOld.resolve_right (by simp [hEnabled]))
    exact ⟨w, hw.of_same (by simp [hEnabled]) (fun _ => .inl) fun _ _ => ⟨rfl, rfl, rfl⟩⟩
  | main => exact carried_mainStep hTurns hCalm hCarried c hRun
  | worker w' => exact carried_workerStep hTurns hCalm hCarried w' hRun
  | post w' m | setRunQueueSize w' n => exact carried_userStep hCarried w' (fun _ _ => rfl) hRun
  | quit w' => exact absurd trivial hQuit
  | addInit a sent | addRegister a | addClear a | addDispatch a => exact absurd trivial hAdd

theorem Flowing.next {c : Setting ι} {b : ι} {s : Scheduler ι ω} (h : s.Flowing c b) {l : Label ι ω}
    (hEnabled : s.enabled l) (hAdd : ¬ l.IsAdd) (hQuit : ¬ l.IsQuit) : (s.next c l).Flowing c b where
  serialized := h.serialized.next c l hEnabled (addsApart_of_not_isAdd hAdd)
  calm := calm_next h.serialized h.calm c hAdd hQuit
  carried := carried_next h.serialized h.calm h.carried c hEnabled hAdd hQuit
  posted a := (next_box c hAdd a).send (h.posted a)
  unbounded := by rw [(next_box c hAdd b).pendingQueueSize]; exact h.unbounded
  registered := by rw [next_ctxs c hAdd]; exact h.registered

omit [DecidableEq ι] in
/-- Whoever still has messages to run is with a worker, and then the main loop does not choose it. -/
theorem run_eq_nil_of_select {s : Scheduler ι ω} {b : ι} (hTurns : s.Serialized)
    (hCarried : (s.box b).run ≠ [] → ∃ w, s.Carries w b) {w : ω} (hMain : s.main = .select w b) :
    (s.box b).run = [] := by
  by_contra hRun
  obtain ⟨w', hw'⟩ := hCarried hRun
  obtain ⟨hHeld, -⟩ := hw'.resolve_left (by simp [hMain])
  exact (hTurns.chosen b (by rw [hMain]; rfl)).2 w' hHeld

omit [DecidableEq ι] in
theorem Flowing.initial {c : Setting ι} {b : ι} (hUnbounded : c.pendingQueueSize b ≤ 0)
    (hRegistered : c.ctxs (c.actorName b) = some b) : (initial c : Scheduler ι ω).Flowing c b where
  serialized := Serialized.initial c
  calm _ := ⟨nofun, nofun, rfl, nofun⟩
  carried hRun := absurd rfl hRun
  posted _ := nofun
  unbounded := hUnbounded
  registered := hRegistered

omit [DecidableEq ω] in
/-- A dispatch appends a message of the pair to the receiver's queue, and any other message to none
of the pair's. -/
theorem deliver_recv {c : Setting ι} {a b : ι} {cls inst : String} (hCls : DotFree cls)
    (hInst : DotFree inst) (hName : c.actorName b = address "actor" cls inst) {s : Scheduler ι ω}
    (hUnbounded : (s.box b).pendingQueueSize ≤ 0) (hRegistered : s.actors.ctxs (c.actorName b) = some b)
    (p : Parcel (Option ι)) :
    ((s.deliver c p).box b).recv.filter (Between c a b) =
      (s.box b).recv.filter (Between c a b) ++ [p].filter (Between c a b) := by
  cases hBetween : Between c a b p with
  | true =>
    have hDst : p.mark = some a ∧ p.msg.Ordinary ∧ p.msg.transMode = .kIntra ∧
        p.msg.dst = c.actorName b := by simpa [Between] using hBetween
    obtain ⟨-, hOrdinary, hIntra, hDst⟩ := hDst
    have hHas : (s.directory c).hasActor p.msg.dst = true := by
      rw [hDst]
      exact Option.isSome_iff_exists.mpr ⟨b, hRegistered⟩
    have hRoute : ((s.directory c).dispatchMsg c.walk s.subs p.msg).2 = [.actor p.msg.dst] := by
      rw [Directory.dispatchMsg_ordinary _ hOrdinary, hIntra,
        Directory.dispatchTo_actor _ hCls hInst (hDst.trans hName) hHas]
    have hBox : (s.deliver c p).box b = (s.box b).receive p := by
      simp only [deliver, hRoute, List.foldl_cons, List.foldl_nil, deliverTo, box,
        ActorContextManager.dispatchMsg_mailbox, hDst, hRegistered, if_true]
    rw [hBox, Mailbox.receive_recv_of_nonpos hUnbounded, List.filter_append]
  | false =>
    have hNone : [p].filter (Between c a b) = [] := by simp [hBetween]
    rw [hNone, List.append_nil]
    simp only [box, deliver] at hUnbounded ⊢
    generalize ((s.directory c).dispatchMsg c.walk s.subs p.msg).2 = deliveries
    generalize s.actors = actors at hUnbounded
    induction deliveries generalizing actors with
    | nil => rfl
    | cons d ds ih =>
      rw [List.foldl_cons]
      obtain hSame | hReceived := deliverTo_box actors p d b
      · rw [ih (deliverTo p actors d) (by rwa [hSame]), hSame]
      · rw [ih (deliverTo p actors d) (by rwa [hReceived, Mailbox.receive_pendingQueueSize]), hReceived,
          Mailbox.receive_recv_of_nonpos hUnbounded, List.filter_append, hNone, List.append_nil]

/-- What a worker's user code posts. -/
def postedBy (s : Scheduler ι ω) : Label ι ω → List (Parcel (Option ι))
  | .post w m =>
    match (s.worker w).pc with
    | .proc a => [⟨some a, m⟩]
    | _ => []
  | _ => []

/-- What a worker hands to `Proc` of `b`. -/
def handedTo (b : ι) (s : Scheduler ι ω) : Label ι ω → List (Parcel (Option ι))
  | .worker w =>
    if (s.worker w).pc = .work b then (s.box b).run.take 1 else []
  | _ => []

/-- The queues between two actors, the oldest message first. -/
def inFlight (c : Setting ι) (a b : ι) (s : Scheduler ι ω) : List (Parcel (Option ι)) :=
  ((s.box b).run ++ (s.box b).recv ++ (s.box a).send).filter (Between c a b)

omit [DecidableEq ω] in
theorem inFlight_of_box {c : Setting ι} {a b : ι} {s t : Scheduler ι ω}
    (h : ∀ x, t.box x = s.box x) : t.inFlight c a b = s.inFlight c a b := by
  simp only [inFlight, h]

omit [DecidableEq ω] in
theorem inFlight_of_actors {c : Setting ι} {a b : ι} {s t : Scheduler ι ω} (h : t.actors = s.actors) :
    t.inFlight c a b = s.inFlight c a b := by
  simp only [inFlight, box, h]

omit [DecidableEq ω] in
/-- A message leaves the send queue of its sender and enters the receive queue in the same step. -/
theorem inFlight_dispatchOne {c : Setting ι} {a b : ι} {cls inst : String} (hCls : DotFree cls)
    (hInst : DotFree inst) (hName : c.actorName b = address "actor" cls inst) {s : Scheduler ι ω}
    (hUnbounded : (s.box b).pendingQueueSize ≤ 0) (hRegistered : s.actors.ctxs (c.actorName b) = some b)
    (hPosted : ∀ x, ∀ p ∈ (s.box x).send, p.mark = some x) (x : ι) :
    (s.dispatchOne c x).inFlight c a b = s.inFlight c a b := by
  rw [dispatchOne]
  split
  · rfl
  · next p rest hSend =>
    have hMark : p.mark = some x := hPosted x p (hSend ▸ List.mem_cons_self)
    have hPop : ∀ y, (s.mapBox x fun z => { z with send := rest }).box y =
        { s.box y with send := if y = x then rest else (s.box y).send } := by
      intro y
      rw [mapBox_box]
      split
      · next hEq => rw [hEq]
      · rfl
    have hUnbounded' : ((s.mapBox x fun z => { z with send := rest }).box b).pendingQueueSize ≤ 0 := by
      rwa [hPop]
    have hRecv := deliver_recv (a := a) hCls hInst hName hUnbounded' hRegistered p
    obtain ⟨recv, hBox⟩ := deliver_box (s.mapBox x fun z => { z with send := rest }) c p b
    obtain ⟨recv', hBox'⟩ := deliver_box (s.mapBox x fun z => { z with send := rest }) c p a
    simp only [inFlight, List.filter_append, hRecv]
    rw [hBox, hBox', hPop, hPop]
    simp only [List.append_assoc]
    obtain rfl | hNe := eq_or_ne a x
    · rw [if_pos rfl, hSend, ← List.filter_append, List.singleton_append]
    · have hNone : [p].filter (Between c a b) = [] := by
        simp [Between, hMark, hNe.symm]
      rw [if_neg hNe, hNone, List.nil_append]

/-- A batch may go in front of the run queue because the run queue is empty then. -/
theorem inFlight_moveToRun {c : Setting ι} {a b : ι} {s : Scheduler ι ω} (h : s.Flowing c b) {w : ω}
    {x : ι} (hMain : s.main = .select w x) :
    (s.mapBox x Mailbox.moveToRun).inFlight c a b = s.inFlight c a b := by
  have hSend : ∀ y, ((s.mapBox x Mailbox.moveToRun).box y).send = (s.box y).send := by
    intro y
    rw [mapBox_box]
    split
    · next hEq => rw [hEq, Mailbox.moveToRun_send]
    · rfl
  have hMoved : ((s.mapBox x Mailbox.moveToRun).box b).run ++
      ((s.mapBox x Mailbox.moveToRun).box b).recv = (s.box b).run ++ (s.box b).recv := by
    rw [mapBox_box]
    split
    · next hEq =>
      subst hEq
      have hEmpty : (s.box b).run = [] := run_eq_nil_of_select h.serialized h.carried hMain
      rw [Mailbox.moveToRun_run_recv hEmpty, hEmpty, List.nil_append]
    · rfl
  rw [inFlight, inFlight, hMoved, hSend]

theorem inFlight_mainStep {c : Setting ι} {a b : ι} {cls inst : String} (hCls : DotFree cls)
    (hInst : DotFree inst) (hName : c.actorName b = address "actor" cls inst) {s : Scheduler ι ω}
    (h : s.Flowing c b) : (s.mainStep c).inFlight c a b = s.inFlight c a b := by
  simp only [mainStep]
  split
  · rfl
  · split <;> rfl
  · have hBox := ActorContextManager.getContextWithMsg_mailbox s.actors
    split <;> next hTake => rw [hTake] at hBox; exact inFlight_of_box hBox
  · next w x hMain =>
    split
    · rfl
    · exact inFlight_moveToRun h hMain
  · rfl
  · split
    · rfl
    · exact inFlight_of_box (ActorContextManager.pushContext_mailbox s.actors _)
  · rfl
  · split
    · rfl
    · exact inFlight_dispatchOne hCls hInst hName h.unbounded h.registered h.posted _
  · split
    · rfl
    · split <;> rfl

theorem balance_worker {c : Setting ι} {a b : ι} (s : Scheduler ι ω) (w : ω) :
    s.inFlight c a b ++ (s.postedBy (.worker w)).filter (Between c a b) =
      (s.handedTo b (.worker w)).filter (Between c a b) ++ (s.workerStep w).inFlight c a b := by
  have hNothing : s.postedBy (.worker w) = [] := rfl
  rw [hNothing, List.filter_nil, List.append_nil]
  have hActors := workerStep_actors s w
  cases hPc : (s.worker w).pc with
  | start | wait | ran | proc x | worked x | quit | done =>
    have hSame := hActors.resolve_right (by simp [hPc])
    have hNone : s.handedTo b (.worker w) = [] := by simp [handedTo, hPc]
    rw [hNone, inFlight_of_actors hSame, List.filter_nil, List.nil_append]
  | work x =>
    cases hRun : (s.box x).run with
    | nil =>
      have hSame : (s.workerStep w).actors = s.actors := by
        simp only [workerStep, hPc, hRun]
        rfl
      have hNone : s.handedTo b (.worker w) = [] := by
        simp only [handedTo, hPc, WorkerPc.work.injEq]
        split
        · next hEq => rw [← hEq, hRun]; rfl
        · rfl
      rw [hNone, inFlight_of_actors hSame, List.filter_nil, List.nil_append]
    | cons p rest =>
      have hBox : ∀ y, (s.workerStep w).box y =
          { s.box y with run := if y = x then rest else (s.box y).run } := by
        intro y
        simp only [workerStep, hPc, hRun]
        change (s.mapBox x fun z => { z with run := rest }).box y = _
        rw [mapBox_box]
        split
        · next hEq => rw [hEq]
        · rfl
      simp only [inFlight, hBox, handedTo, hPc, WorkerPc.work.injEq]
      obtain rfl | hNe := eq_or_ne x b
      · rw [if_pos rfl, if_pos rfl, hRun, ← List.filter_append]
        rfl
      · rw [if_neg hNe, if_neg hNe.symm]
        rfl

theorem balance_post {c : Setting ι} {a b : ι} (s : Scheduler ι ω) (w : ω) (m : Msg) :
    s.inFlight c a b ++ (s.postedBy (.post w m)).filter (Between c a b) =
      (s.handedTo b (.post w m)).filter (Between c a b) ++ (s.next c (.post w m)).inFlight c a b := by
  have hNothing : s.handedTo b (.post w m) = [] := rfl
  rw [hNothing, List.filter_nil, List.nil_append]
  cases hPc : (s.worker w).pc with
  | start | wait | ran | work x | worked x | quit | done =>
    have hNone : s.postedBy (.post w m) = [] := by simp [postedBy, hPc]
    rw [hNone, List.filter_nil, List.append_nil]
    simp only [next, userStep, hPc]
  | proc x =>
    have hPost : s.postedBy (.post w m) = [⟨some x, m⟩] := by simp [postedBy, hPc]
    have hBox : ∀ y, (s.next c (.post w m)).box y =
        { s.box y with send := if y = x then (s.box x).send ++ [⟨some x, m⟩] else (s.box y).send } := by
      intro y
      simp only [next, userStep, hPc]
      rw [mapBox_box]
      split
      · next hEq => rw [hEq]; rfl
      · rfl
    rw [hPost]
    simp only [inFlight, hBox, List.filter_append, List.append_assoc]
    obtain rfl | hNe := eq_or_ne a x
    · rw [if_pos rfl, List.filter_append]
    · have hNone : [(⟨some x, m⟩ : Parcel (Option ι))].filter (Between c a b) = [] := by
        simp [Between, hNe.symm]
      rw [if_neg hNe, hNone, List.append_nil]

theorem balance {c : Setting ι} {a b : ι} {cls inst : String} (hCls : DotFree cls)
    (hInst : DotFree inst) (hName : c.actorName b = address "actor" cls inst) {s : Scheduler ι ω}
    (h : s.Flowing c b) {l : Label ι ω} (hAdd : ¬ l.IsAdd) :
    s.inFlight c a b ++ (s.postedBy l).filter (Between c a b) =
      (s.handedTo b l).filter (Between c a b) ++ (s.next c l).inFlight c a b := by
  have hQuiet : s.postedBy l = [] → s.handedTo b l = [] →
      (s.next c l).inFlight c a b = s.inFlight c a b →
      s.inFlight c a b ++ (s.postedBy l).filter (Between c a b) =
        (s.handedTo b l).filter (Between c a b) ++ (s.next c l).inFlight c a b := by
    intro hNone hNone' hFlight
    rw [hNone, hNone', hFlight, List.filter_nil, List.append_nil, List.nil_append]
  cases l with
  | check | quit w => exact hQuiet rfl rfl (inFlight_of_box fun _ => rfl)
  | event w =>
    refine hQuiet rfl rfl (inFlight_of_box fun x => ?_)
    simp only [next, event]
    split
    · rfl
    · next y _ => exact setRuningFlag_box s x y false
  | arrive m =>
    refine hQuiet rfl rfl ?_
    have hRecv := deliver_recv (a := a) hCls hInst hName h.unbounded h.registered ⟨none, m⟩
    obtain ⟨recv, hBox⟩ := deliver_box s c ⟨none, m⟩ b
    obtain ⟨recv', hBox'⟩ := deliver_box s c ⟨none, m⟩ a
    have hNone : [(⟨none, m⟩ : Parcel (Option ι))].filter (Between c a b) = [] := by simp [Between]
    simp only [next, inFlight, List.filter_append, hRecv, hNone, List.append_nil]
    rw [hBox, hBox']
  | main => exact hQuiet rfl rfl (inFlight_mainStep hCls hInst hName h)
  | worker w => exact balance_worker s w
  | post w m => exact balance_post s w m
  | setRunQueueSize w n =>
    refine hQuiet rfl rfl ?_
    have hBox : ∀ x, ∃ k, (s.next c (.setRunQueueSize w n)).box x = { s.box x with runQueueSize := k } := by
      intro x
      obtain hBox | ⟨-, hBox⟩ := userStep_box s w (fun _ b => { b with runQueueSize := n }) x
      · exact ⟨(s.box x).runQueueSize, hBox⟩
      · exact ⟨n, hBox⟩
    obtain ⟨k, hB⟩ := hBox b
    obtain ⟨k', hA⟩ := hBox a
    rw [inFlight, hA, hB, inFlight]
  | addInit a sent | addRegister a | addClear a | addDispatch a => exact absurd trivial hAdd

/-- From `Exec` to `Quit`, for two actors in place before and a receiver with an unbounded queue: what
the one has posted for the other is what has been handed to the other's `Proc`, followed by what is
in the queues between them. -/
theorem sent_eq_processed_append_inFlight (c : Setting ι) (a b : ι) {cls inst : String}
    (hCls : DotFree cls) (hInst : DotFree inst) (hName : c.actorName b = address "actor" cls inst)
    (hRegistered : c.ctxs (c.actorName b) = some b) (hUnbounded : c.pendingQueueSize b ≤ 0)
    (ls : List (Label ι ω)) (hAdded : ∀ l ∈ ls, ¬ l.IsAdd) (hQuit : ∀ l ∈ ls, ¬ l.IsQuit)
    (hRuns : (system c).Runs (initial c) ls) :
    let t := (system c).exec (initial c) ls
    ((system c).emitted postedBy (initial c) ls).filter (Between c a b) =
      ((system c).emitted (handedTo b) (initial c) ls).filter (Between c a b) ++
        (t.box b).run.filter (Between c a b) ++ (t.box b).recv.filter (Between c a b) ++
        (t.box a).send.filter (Between c a b) := by
  have hStep : ∀ (s : Scheduler ι ω) (l : Label ι ω), s.Flowing c b → s.enabled l →
      ¬ l.IsAdd ∧ ¬ l.IsQuit → (s.next c l).Flowing c b :=
    fun s l h hEnabled hOk => h.next hEnabled hOk.1 hOk.2
  have hBalance : ∀ (s : Scheduler ι ω) (l : Label ι ω), s.Flowing c b → s.enabled l →
      ¬ l.IsAdd ∧ ¬ l.IsQuit →
      s.inFlight c a b ++ (s.postedBy l).filter (Between c a b) =
        (s.handedTo b l).filter (Between c a b) ++ (s.next c l).inFlight c a b :=
    fun s l h _ hOk => balance hCls hInst hName h hOk.1
  have hOk : ∀ p ∈ (system c).steps (initial c) ls, ¬ p.2.IsAdd ∧ ¬ p.2.IsQuit := fun p hp =>
    have hMem := (system c).label_mem_of_mem_steps hp
    ⟨hAdded p.2 hMem, hQuit p.2 hMem⟩
  have hRun := (system c).conservation hStep hBalance (Flowing.initial hUnbounded hRegistered) hRuns hOk
  have hEmpty : (initial c : Scheduler ι ω).inFlight c a b = [] := rfl
  rw [hEmpty, List.nil_append] at hRun
  simp only [Transition.System.emitted, List.filter_flatMap, List.append_assoc] at hRun ⊢
  rw [hRun, inFlight, List.filter_append, List.filter_append, List.append_assoc]

/-- Two actors and one worker: the first posts two messages for the second, which has processed one. -/
def pairName (b : Bool) : String := if b then "actor.b.1" else "actor.a.1"

def pairSetting : Setting Bool where
  actorName := pairName
  ctxs name := if name = pairName true then some true else if name = pairName false then some false else none

def pairMsg (data : String) : Msg := { src := "actor.a.1", dst := "actor.b.1", type := "TEXT", data := data }

def pairRun : List (Label Bool Unit) :=
  [.worker (), .event (), .main, .arrive { dst := "actor.a.1" }, .check, .main, .main, .main, .main, .main,
    .main, .main, .worker (), .worker (), .worker (), .post () (pairMsg "1"), .post () (pairMsg "2"),
    .worker (), .worker (), .worker (), .event (), .main, .main, .main, .main, .check, .main, .main, .main,
    .main, .main, .main, .main, .worker (), .worker (), .worker ()]

theorem sent_eq_processed_append_inFlight_pair :
    ((system pairSetting).emitted (handedTo true) (initial pairSetting) pairRun).filter
        (Between pairSetting false true) <+:
      ((system pairSetting).emitted postedBy (initial pairSetting) pairRun).filter
        (Between pairSetting false true) ∧
    ((system pairSetting).emitted (handedTo true) (initial pairSetting) pairRun).length = 1 := by
  have hSent := sent_eq_processed_append_inFlight pairSetting false true
    (by decide : DotFree "b") (by decide : DotFree "1") (by decide) (by decide) (by decide) pairRun
    (by decide) (by decide) (by decide)
  refine ⟨?_, by decide⟩
  rw [hSent, List.append_assoc, List.append_assoc]
  exact List.prefix_append ..

end Scheduler
end Myframe
