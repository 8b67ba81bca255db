import Myframe.Scheduler.Frame

/-! # Who has a turn and who holds a context

Each worker has one turn, and it is always in exactly one place: with the worker, in one of its two
channels, in the idle list or in the hand of the main loop. From this follows who may touch a context.
-/
namespace Myframe
set_option autoImplicit false

namespace WorkerPc

variable {ι : Type}

def busy : WorkerPc ι → ℕ
  | .start | .ran | .work _ | .proc _ | .worked _ => 1
  | .wait | .quit | .done => 0

def locked : WorkerPc ι → Option ι
  | .work a | .proc a | .worked a => some a
  | _ => none

theorem locked_of_not_busy {pc : WorkerPc ι} (h : pc.busy = 0) : pc.locked = none := by
  cases pc <;> first | rfl | nomatch h

end WorkerPc

namespace MainPc

variable {ι ω : Type}

def candidate : MainPc ι ω → Option ω
  | .front w | .select w _ | .assign w _ => some w
  | _ => none

def chosen : MainPc ι ω → Option ι
  | .select _ a | .assign _ a => some a
  | _ => none

def inHand : MainPc ι ω → Option ω
  | .requeue w _ | .send w => some w
  | _ => none

def served : MainPc ι ω → Option ω
  | .dispatch w _ | .receive w => some w
  | _ => none

def touched : MainPc ι ω → Option ι
  | .select _ a | .dispatch _ a => some a
  | _ => none

end MainPc

namespace CommonWorker

variable {ι : Type}

def turns (x : CommonWorker ι) : ℕ :=
  x.pc.busy + x.channel.toMain.count .kIdle + x.channel.toOwner.countP (· ≠ .kQuit)

/-- The context given to the worker, until the worker hands it back or is removed. -/
def held (x : CommonWorker ι) : Option ι := if x.registered then x.context else none

end CommonWorker

namespace Scheduler

variable {ι ω : Type} [DecidableEq ω]

def turns (s : Scheduler ι ω) (w : ω) : ℕ :=
  (s.worker w).turns + s.idle.count w + if s.main.inHand = some w then 1 else 0

structure Serialized (s : Scheduler ι ω) : Prop where
  turn : ∀ w, s.turns w = 1
  toMain : ∀ w, ∀ cmd ∈ (s.worker w).channel.toMain,
    cmd = .kIdle ∨ cmd = .kQuit ∧ (s.worker w).pc = .done
  gone : ∀ w, (s.worker w).registered = false → (s.worker w).pc = .done
  locked : ∀ w a, (s.worker w).pc.locked = some a → (s.worker w).context = some a
  candidate : ∀ w, s.main.candidate = some w → s.idle.head? = some w
  chosen : ∀ a, s.main.chosen = some a → s.inWorker a = true ∧ ∀ w, (s.worker w).held ≠ some a
  served : ∀ w, s.main.served = some w →
    (s.worker w).registered = true ∧ (s.worker w).channel.toMain ≠ []
  dispatch : ∀ w a, s.main = .dispatch w a → (s.worker w).context = some a
  held : ∀ w a, (s.worker w).held = some a → s.inWorker a = true ∨ s.main.served = some w
  unique : ∀ w w' a, (s.worker w).held = some a → (s.worker w').held = some a → w = w'

theorem Serialized.congr {s t : Scheduler ι ω} (h : s.Serialized) (hWorker : t.worker = s.worker)
    (hIdle : t.idle = s.idle) (hMain : t.main = s.main) (hFlag : ∀ a, t.inWorker a = s.inWorker a) :
    t.Serialized where
  turn w := by rw [turns, hWorker, hIdle, hMain]; exact h.turn w
  toMain := hWorker ▸ h.toMain
  gone := hWorker ▸ h.gone
  locked := hWorker ▸ h.locked
  candidate := by rw [hIdle, hMain]; exact h.candidate
  chosen := by simp only [hFlag, hWorker, hMain]; exact h.chosen
  served := by rw [hWorker, hMain]; exact h.served
  dispatch := by rw [hWorker, hMain]; exact h.dispatch
  held := by simp only [hFlag, hWorker, hMain]; exact h.held
  unique := by rw [hWorker]; exact h.unique

/-- A step of one worker's thread, or a command sent to it: it keeps the worker's turn, its context
and its registration, and takes nothing back that it has sent. -/
theorem Serialized.modifyWorker {s : Scheduler ι ω} (h : s.Serialized) {w : ω}
    {f : CommonWorker ι → CommonWorker ι} (hTurn : (f (s.worker w)).turns = (s.worker w).turns)
    (hToMain : ∀ cmd ∈ (f (s.worker w)).channel.toMain, cmd ∈ (s.worker w).channel.toMain ∨
      cmd = .kIdle ∨ cmd = .kQuit ∧ (f (s.worker w)).pc = .done)
    (hKept : (s.worker w).channel.toMain ≠ [] → (f (s.worker w)).channel.toMain ≠ [])
    (hContext : (f (s.worker w)).context = (s.worker w).context)
    (hRegistered : (f (s.worker w)).registered = (s.worker w).registered)
    (hGone : (s.worker w).pc = .done → (f (s.worker w)).pc = .done)
    (hLocked : ∀ a, (f (s.worker w)).pc.locked = some a → (s.worker w).context = some a) :
    (s.modifyWorker w f).Serialized := by
  have hHeld : ∀ w', ((s.modifyWorker w f).worker w').held = (s.worker w').held := by
    intro w'
    rw [modifyWorker_worker]
    split
    · next hEq => rw [CommonWorker.held, hContext, hRegistered, hEq]; rfl
    · rfl
  constructor
  · intro w'
    have hw := h.turn w'
    simp only [turns, modifyWorker_worker] at hw ⊢
    split
    · next hEq => subst hEq; rw [hTurn]; exact hw
    · exact hw
  · intro w' cmd
    rw [modifyWorker_worker]
    split
    · intro hCmd
      obtain hOld | hNew := hToMain cmd hCmd
      · exact (h.toMain w cmd hOld).imp_right fun ⟨hQuit, hDone⟩ => ⟨hQuit, hGone hDone⟩
      · exact hNew
    · exact h.toMain w' cmd
  · intro w'
    rw [modifyWorker_worker]
    split
    · next hEq => subst hEq; rw [hRegistered]; exact fun hReg => hGone (h.gone w' hReg)
    · exact h.gone w'
  · intro w' a
    rw [modifyWorker_worker]
    split
    · rw [hContext]; exact hLocked a
    · exact h.locked w' a
  · exact h.candidate
  · intro a ha
    simp only [hHeld]
    exact h.chosen a ha
  · intro w' hw'
    obtain ⟨hReg, hNe⟩ := h.served w' hw'
    rw [modifyWorker_worker]
    split
    · next hEq => subst hEq; exact ⟨hRegistered.trans hReg, hKept hNe⟩
    · exact ⟨hReg, hNe⟩
  · intro w' a hw'
    have hContext' := h.dispatch w' a hw'
    rw [modifyWorker_worker]
    split
    · next hEq => subst hEq; exact hContext.trans hContext'
    · exact hContext'
  · simp only [hHeld]
    exact h.held
  · simp only [hHeld]
    exact h.unique

/-- A worker that executes something has no command on its way to the main loop. -/
theorem Serialized.executing {s : Scheduler ι ω} (h : s.Serialized) {w : ω} {a : ι}
    (hExec : (s.worker w).executing = some a) :
    (s.worker w).held = some a ∧ (s.worker w).channel.toMain = [] ∧ s.main.served ≠ some w := by
  have hBusy : (s.worker w).pc.busy = 1 := by
    cases hPc : (s.worker w).pc <;> simp_all [CommonWorker.executing, WorkerPc.busy]
  have hNotDone : (s.worker w).pc ≠ .done := by
    intro hDone
    simp [hDone, WorkerPc.busy] at hBusy
  have hTurn := h.turn w
  simp only [turns, CommonWorker.turns, hBusy] at hTurn
  have hToMain : (s.worker w).channel.toMain = [] := by
    apply List.eq_nil_iff_forall_not_mem.mpr
    intro cmd hCmd
    obtain rfl | ⟨-, hDone⟩ := h.toMain w cmd hCmd
    · have hCount := List.count_pos_iff.mpr hCmd
      omega
    · exact hNotDone hDone
  have hRegistered : (s.worker w).registered = true := by
    by_contra hReg
    exact hNotDone (h.gone w (Bool.not_eq_true _ ▸ hReg))
  refine ⟨?_, hToMain, fun hServed => (h.served w hServed).2 hToMain⟩
  rw [CommonWorker.held, if_pos hRegistered]
  have hLocked := h.locked w a
  cases hPc : (s.worker w).pc <;> simp_all [CommonWorker.executing, WorkerPc.locked]

theorem Serialized.setMain {s : Scheduler ι ω} (h : s.Serialized) (pc : MainPc ι ω)
    (hHand : pc.inHand = s.main.inHand) (hServed : pc.served = s.main.served)
    (hCandidate : ∀ w, pc.candidate = some w → s.idle.head? = some w)
    (hChosen : ∀ a, pc.chosen = some a → s.inWorker a = true ∧ ∀ w, (s.worker w).held ≠ some a)
    (hDispatch : ∀ w a, pc = .dispatch w a → (s.worker w).context = some a) :
    ({ s with main := pc } : Scheduler ι ω).Serialized where
  turn w := by rw [turns, hHand]; exact h.turn w
  toMain := h.toMain
  gone := h.gone
  locked := h.locked
  candidate := hCandidate
  chosen := hChosen
  served := by simp only [hServed]; exact h.served
  dispatch := hDispatch
  held := by simp only [hServed]; exact h.held
  unique := h.unique

theorem Serialized.setMain_plain {s : Scheduler ι ω} (h : s.Serialized) (pc : MainPc ι ω)
    (hHand : pc.inHand = s.main.inHand) (hServed : pc.served = s.main.served)
    (hCandidate : pc.candidate = none) (hChosen : pc.chosen = none)
    (hDispatch : ∀ w a, pc ≠ .dispatch w a) : ({ s with main := pc } : Scheduler ι ω).Serialized := by
  refine h.setMain pc hHand hServed (fun w hw => ?_) (fun a ha => ?_) fun w a hPc => ?_
  · cases hCandidate.symm.trans hw
  · cases hChosen.symm.trans ha
  · exact absurd hPc (hDispatch w a)

theorem Serialized.handOver {s t : Scheduler ι ω} (h : s.Serialized) {w : ω} {x : CommonWorker ι}
    (hWorker : t.worker = Function.update s.worker w x) (hActors : t.actors = s.actors)
    (hServed : ∀ w', s.main.served = some w' → w' = w)
    (hMain : t.main.candidate = none ∧ t.main.chosen = none ∧ t.main.served = none)
    (hOthers : ∀ w' ≠ w, t.idle.count w' = s.idle.count w' ∧
      (t.main.inHand = some w' ↔ s.main.inHand = some w'))
    (hTurn : t.turns w = 1) (hPc : x.pc = (s.worker w).pc)
    (hToMain : ∀ cmd ∈ x.channel.toMain, cmd ∈ (s.worker w).channel.toMain)
    (hGone : x.registered = false → x.pc = .done)
    (hLocked : x.pc.locked = none ∨ x.context = (s.worker w).context)
    (hHeld : ∀ a, x.held = some a → s.inWorker a = true ∧ ∀ w' ≠ w, (s.worker w').held ≠ some a) :
    t.Serialized := by
  obtain ⟨hCandidate, hChosen, hServed'⟩ := hMain
  have hOther : ∀ w' ≠ w, t.worker w' = s.worker w' := by
    intro w' hNe
    rw [hWorker, Function.update_of_ne hNe]
  have hSelf : t.worker w = x := by rw [hWorker, Function.update_self]
  constructor
  · intro w'
    obtain rfl | hNe := eq_or_ne w' w
    · exact hTurn
    · obtain ⟨hCount, hHand⟩ := hOthers w' hNe
      have hOld := h.turn w'
      simp only [turns, hOther w' hNe, hCount, hHand] at hOld ⊢
      exact hOld
  · intro w' cmd hCmd
    obtain rfl | hNe := eq_or_ne w' w
    · rw [hSelf] at hCmd ⊢
      rw [hPc]
      exact h.toMain w' cmd (hToMain cmd hCmd)
    · rw [hOther w' hNe] at hCmd ⊢
      exact h.toMain w' cmd hCmd
  · intro w'
    obtain rfl | hNe := eq_or_ne w' w
    · rw [hSelf]; exact hGone
    · rw [hOther w' hNe]; exact h.gone w'
  · intro w' b
    obtain rfl | hNe := eq_or_ne w' w
    · rw [hSelf]
      intro hb
      obtain hNone | hContext := hLocked
      · rw [hNone] at hb; nomatch hb
      · rw [hContext]; exact h.locked w' b (hPc ▸ hb)
    · rw [hOther w' hNe]; exact h.locked w' b
  · intro w' hw'; rw [hCandidate] at hw'; nomatch hw'
  · intro b hb; rw [hChosen] at hb; nomatch hb
  · intro w' hw'; rw [hServed'] at hw'; nomatch hw'
  · intro w' b hw'; rw [hw'] at hServed'; nomatch hServed'
  · intro w' b hb
    rw [inWorker, hActors]
    obtain rfl | hNe := eq_or_ne w' w
    · rw [hSelf] at hb
      exact .inl (hHeld b hb).1
    · rw [hOther w' hNe] at hb
      obtain hFlag | hOld := h.held w' b hb
      · exact .inl hFlag
      · exact absurd (hServed w' hOld) hNe
  · intro w₁ w₂ b h₁ h₂
    obtain rfl | hNe₁ := eq_or_ne w₁ w <;> obtain rfl | hNe₂ := eq_or_ne w₂ w₁
    · rfl
    · rw [hSelf] at h₁
      rw [hOther w₂ hNe₂] at h₂
      exact absurd h₂ ((hHeld b h₁).2 w₂ hNe₂)
    · rfl
    · rw [hOther w₁ hNe₁] at h₁
      obtain rfl | hNe₂ := eq_or_ne w₂ w
      · rw [hSelf] at h₂
        exact absurd h₁ ((hHeld b h₂).2 w₁ hNe₁)
      · rw [hOther w₂ hNe₂] at h₂
        exact h.unique w₁ w₂ b h₁ h₂

theorem Serialized.assign {s : Scheduler ι ω} (h : s.Serialized) {w : ω} {a : ι}
    (hMain : s.main = .assign w a) :
    ({ s.modifyWorker w fun x => { x with context := some a } with
      idle := s.idle.tail, main := .requeue w a } : Scheduler ι ω).Serialized := by
  obtain ⟨rest, hIdle⟩ : ∃ rest, s.idle = w :: rest :=
    ⟨s.idle.tail, List.eq_cons_of_mem_head? (h.candidate w (by rw [hMain]; rfl))⟩
  obtain ⟨hFlag, hNone⟩ := h.chosen a (by rw [hMain]; rfl)
  have hTurn := h.turn w
  simp only [turns, CommonWorker.turns, hIdle, List.count_cons_self, hMain, MainPc.inHand,
    reduceCtorEq, if_false] at hTurn
  have hBusy : (s.worker w).pc.busy = 0 := by omega
  apply h.handOver (w := w) (x := { s.worker w with context := some a })
  · rfl
  · rfl
  · simp [hMain, MainPc.served]
  · exact ⟨rfl, rfl, rfl⟩
  · intro w' hNe
    simp [hIdle, hMain, MainPc.inHand, hNe.symm]
  · simp only [turns, CommonWorker.turns, modifyWorker_worker, hIdle, List.tail_cons, MainPc.inHand,
      if_true]
    omega
  · rfl
  · exact fun _ => id
  · exact h.gone w
  · exact .inl (WorkerPc.locked_of_not_busy hBusy)
  · intro b hb
    obtain rfl : a = b := by
      rw [CommonWorker.held] at hb
      split at hb
      · exact Option.some.inj hb
      · cases hb
    exact ⟨hFlag, fun w' _ => hNone w'⟩

theorem Serialized.send {s : Scheduler ι ω} (h : s.Serialized) {w : ω} (hMain : s.main = .send w) :
    ({ s.modifyWorker w fun x => { x with channel := x.channel.sendToOwner .kRun } with
      main := .check } : Scheduler ι ω).Serialized := by
  have hServed : ∀ w', s.main.served ≠ some w' := by simp [hMain, MainPc.served]
  have hTurn := h.turn w
  simp only [turns, CommonWorker.turns, hMain, MainPc.inHand, if_true] at hTurn
  have hOne : [Cmd.kRun].countP (· ≠ .kQuit) = 1 := rfl
  apply h.handOver (w := w)
    (x := { s.worker w with channel := (s.worker w).channel.sendToOwner .kRun })
  · rfl
  · rfl
  · exact fun w' hw' => absurd hw' (hServed w')
  · exact ⟨rfl, rfl, rfl⟩
  · intro w' hNe
    simp [hMain, MainPc.inHand, hNe.symm]
  · simp only [turns, CommonWorker.turns, modifyWorker_worker, modifyWorker_idle, MainPc.inHand, if_true,
      CmdChannel.sendToOwner_toMain, CmdChannel.sendToOwner_toOwner, List.countP_append, hOne,
      reduceCtorEq, if_false]
    omega
  · rfl
  · exact fun _ => id
  · exact h.gone w
  · exact .inr rfl
  · intro b hb
    refine ⟨(h.held w b hb).resolve_right (hServed w), fun w' hNe hw' => hNe (h.unique w' w b hw' hb)⟩

theorem Serialized.quit {s : Scheduler ι ω} (h : s.Serialized) (w : ω) :
    (s.modifyWorker w fun x => { x with channel := x.channel.sendToOwner .kQuit }).Serialized := by
  have hLocked := h.locked w
  apply h.modifyWorker <;> simp_all [CommonWorker.turns]

theorem Serialized.initial (c : Setting ι) : (initial c : Scheduler ι ω).Serialized where
  turn w := rfl
  toMain w cmd hCmd := nomatch hCmd
  gone w hGone := nomatch hGone
  locked w a hLocked := nomatch hLocked
  candidate := nofun
  chosen := nofun
  served := nofun
  dispatch := nofun
  held w a hHeld := by simp [CommonWorker.held, Scheduler.initial] at hHeld
  unique w w' a hHeld := by simp [CommonWorker.held, Scheduler.initial] at hHeld

variable [DecidableEq ι]

theorem Serialized.mapBox {s : Scheduler ι ω} (h : s.Serialized) (a : ι)
    (f : Mailbox (Option ι) → Mailbox (Option ι)) : (s.mapBox a f).Serialized := by
  exact h.congr rfl rfl rfl fun b => by rw [inWorker, Scheduler.mapBox, ActorContextManager.mapMailbox_heap]; rfl

theorem Serialized.workerStep {s : Scheduler ι ω} (h : s.Serialized) (w : ω) :
    (s.workerStep w).Serialized := by
  have hLocked := h.locked w
  rw [Scheduler.workerStep]
  cases hPc : (s.worker w).pc with
  | start | worked a =>
    apply h.modifyWorker <;> simp_all [CommonWorker.turns, WorkerPc.busy, WorkerPc.locked]
    omega
  | wait =>
    simp only
    cases hQueue : (s.worker w).channel.toOwner with
    | nil => exact h
    | cons cmd rest =>
      simp only
      by_cases hCmd : cmd = .kQuit
      · apply h.modifyWorker <;> simp_all [CommonWorker.turns, WorkerPc.busy, WorkerPc.locked]
      · apply h.modifyWorker <;> simp_all [CommonWorker.turns, WorkerPc.busy, WorkerPc.locked]
        omega
  | ran =>
    cases hContext : (s.worker w).context with
    | none => apply h.modifyWorker <;> simp_all [CommonWorker.turns, WorkerPc.busy, WorkerPc.locked]
    | some a => apply h.modifyWorker <;> simp_all [CommonWorker.turns, WorkerPc.busy, WorkerPc.locked]
  | work a =>
    simp only
    cases hRun : (s.box a).run with
    | nil => apply h.modifyWorker <;> simp_all [CommonWorker.turns, WorkerPc.busy, WorkerPc.locked]
    | cons p rest =>
      have hBox := h.mapBox a fun b => { b with run := rest }
      apply hBox.modifyWorker <;>
        simp_all [Scheduler.mapBox, CommonWorker.turns, WorkerPc.busy, WorkerPc.locked]
  | proc a => apply h.modifyWorker <;> simp_all [CommonWorker.turns, WorkerPc.busy, WorkerPc.locked]
  | quit =>
    apply h.modifyWorker <;> simp_all [CommonWorker.turns, WorkerPc.busy, WorkerPc.locked]
    exact fun cmd hCmd => hCmd.imp_right .inr
  | done => exact h

/-- The chosen context had its flag down, so no worker holds it. -/
theorem Serialized.take {s : Scheduler ι ω} (h : s.Serialized) {w : ω} (hMain : s.main = .front w)
    {actors : ActorContextManager ι (Option ι)} {a : ι}
    (hTake : s.actors.getContextWithMsg = (actors, some a)) :
    ({ s with actors := actors, main := .select w a } : Scheduler ι ω).Serialized := by
  obtain ⟨hFree, -, -, hHeap⟩ := ActorContextManager.getContextWithMsg_some hTake
  have hFlag : ∀ b, (actors.heap b).inWorker = if b = a then true else s.inWorker b := by
    intro b
    rw [hHeap, apply_ite ActorContext.inWorker]
    rfl
  have hNone : ∀ w', (s.worker w').held ≠ some a := by
    intro w' hHeld
    obtain hFlag' | hServed := h.held w' a hHeld
    · exact absurd (hFree.symm.trans hFlag') nofun
    · rw [hMain] at hServed
      cases hServed
  exact
    { turn := fun w' => by
        have hTurn := h.turn w'
        rw [turns, hMain] at hTurn
        exact hTurn
      toMain := h.toMain
      gone := h.gone
      locked := h.locked
      candidate := fun w' hw' => h.candidate w' (by rw [hMain]; exact hw')
      chosen := fun b hb => by
        obtain rfl := Option.some.inj hb
        exact ⟨by rw [inWorker, hFlag, if_pos rfl], hNone⟩
      served := nofun
      dispatch := nofun
      held := fun w' b hb => by
        obtain hFlag' | hServed := h.held w' b hb
        · refine .inl ?_
          rw [inWorker, hFlag]
          split
          · rfl
          · exact hFlag'
        · rw [hMain] at hServed
          cases hServed
      unique := h.unique }

theorem Serialized.receive {s : Scheduler ι ω} (h : s.Serialized) (c : Setting ι) {w : ω}
    (hMain : s.main = .receive w) : (s.mainStep c).Serialized := by
  have hServed : ∀ w', s.main.served = some w' → w' = w := by
    simp [hMain, MainPc.served, eq_comm]
  obtain ⟨hRegistered, hNe⟩ := h.served w (by rw [hMain]; rfl)
  obtain ⟨cmd, rest, hQueue⟩ := List.exists_cons_of_ne_nil hNe
  have hSub : ∀ cmd' ∈ rest, cmd' ∈ (s.worker w).channel.toMain := by
    rw [hQueue]
    exact fun _ => List.mem_cons_of_mem _
  have hTurn := h.turn w
  simp only [turns, CommonWorker.turns, hMain, MainPc.inHand, hQueue] at hTurn
  simp only [mainStep, hMain, hQueue]
  obtain rfl | ⟨rfl, hDone⟩ := h.toMain w cmd (by rw [hQueue]; exact List.mem_cons_self)
  · apply h.handOver (w := w) (x := { s.worker w with
      context := none, channel := { (s.worker w).channel with toMain := rest } })
    · simp [Scheduler.modifyWorker]
    · rfl
    · exact hServed
    · exact ⟨rfl, rfl, rfl⟩
    · intro w' hNe'
      simp [hMain, MainPc.inHand, hNe'.symm]
    · simp [turns, CommonWorker.turns, MainPc.inHand] at hTurn ⊢
      omega
    · rfl
    · exact hSub
    · exact h.gone w
    · have hBusy : (s.worker w).pc.busy = 0 := by
        rw [List.count_cons_self] at hTurn
        omega
      exact .inl (WorkerPc.locked_of_not_busy hBusy)
    · simp [CommonWorker.held]
  · apply h.handOver (w := w) (x := { s.worker w with
      registered := false, channel := { (s.worker w).channel with toMain := rest } })
    · simp [Scheduler.modifyWorker]
    · rfl
    · exact hServed
    · exact ⟨rfl, rfl, rfl⟩
    · intro w' hNe'
      simp [hMain, MainPc.inHand]
    · simp [turns, CommonWorker.turns, MainPc.inHand] at hTurn ⊢
      omega
    · rfl
    · exact hSub
    · exact fun _ => hDone
    · exact .inr rfl
    · simp [CommonWorker.held]

/-- The flag goes down while the worker's command waits, so the worker executes nothing. -/
theorem Serialized.event {s : Scheduler ι ω} (h : s.Serialized) {w : ω} (hMain : s.main = .loop)
    (hRegistered : (s.worker w).registered = true) (hNe : (s.worker w).channel.toMain ≠ []) :
    (s.event w).Serialized := by
  have hServed : ∀ w', s.main.served ≠ some w' := by simp [hMain, MainPc.served]
  have hTurn : ∀ w', (s.event w).turns w' = 1 := by
    intro w'
    have hOld := h.turn w'
    rw [turns, hMain] at hOld
    rw [Scheduler.event]
    split <;> exact hOld
  have hWorker : (s.event w).worker = s.worker := by rw [Scheduler.event]; split <;> rfl
  have hHeld : ∀ w' a, (s.worker w').held = some a →
      (s.event w).inWorker a = true ∨ w = w' := by
    intro w' a hw'
    have hFlag := (h.held w' a hw').resolve_right (hServed w')
    rw [Scheduler.event]
    split
    · exact .inl hFlag
    · next b hContext =>
      obtain rfl | hNe := eq_or_ne a b
      · have hSelf : (s.worker w).held = some a := by rw [CommonWorker.held, if_pos hRegistered, hContext]
        exact .inr (h.unique w w' a hSelf hw')
      · refine .inl ?_
        simp only [inWorker, ActorContextManager.setRuningFlag, ActorContextManager.modify_heap,
          if_neg hNe]
        exact hFlag
  constructor
  · exact hTurn
  · rw [hWorker]; exact h.toMain
  · rw [hWorker]; exact h.gone
  · rw [hWorker]; exact h.locked
  · rw [Scheduler.event]; split <;> rintro _ ⟨⟩
  · rw [Scheduler.event]; split <;> rintro _ ⟨⟩
  · intro w' hw'
    have hEq : w = w' := by
      rw [Scheduler.event] at hw'
      split at hw' <;> exact Option.some.inj hw'
    subst hEq
    rw [hWorker]
    exact ⟨hRegistered, hNe⟩
  · intro w' a hw'
    rw [hWorker]
    rw [Scheduler.event] at hw'
    split at hw'
    · cases hw'
    · next b hContext =>
      obtain ⟨rfl, rfl⟩ := MainPc.dispatch.inj hw'
      exact hContext
  · intro w' a hw'
    rw [hWorker] at hw'
    obtain hFlag | rfl := hHeld w' a hw'
    · exact .inl hFlag
    · refine .inr ?_
      rw [Scheduler.event]
      split <;> rfl
  · rw [hWorker]; exact h.unique

theorem Serialized.deliver {s : Scheduler ι ω} (h : s.Serialized) (c : Setting ι)
    (p : Parcel (Option ι)) : (s.deliver c p).Serialized :=
  h.congr rfl rfl rfl (deliver_inWorker s c p)

theorem Serialized.dispatchOne {s : Scheduler ι ω} (h : s.Serialized) (c : Setting ι) (a : ι) :
    (s.dispatchOne c a).Serialized := by
  rw [Scheduler.dispatchOne]
  split
  · exact h
  · exact (h.mapBox a _).deliver c _

theorem Serialized.mainStep {s : Scheduler ι ω} (h : s.Serialized) (c : Setting ι) :
    (s.mainStep c).Serialized := by
  cases hMain : s.main with
  | loop => simpa only [Scheduler.mainStep, hMain] using h
  | check =>
    simp only [Scheduler.mainStep, hMain]
    split
    · exact h.setMain_plain .loop (by rw [hMain]; rfl) (by rw [hMain]; rfl) rfl rfl (by rintro _ _ ⟨⟩)
    · next w rest hIdle =>
      refine h.setMain (.front w) (by rw [hMain]; rfl) (by rw [hMain]; rfl) ?_ (by rintro _ ⟨⟩)
        (by rintro _ _ ⟨⟩)
      intro w' hw'
      rw [hIdle]
      exact hw'
  | front w =>
    simp only [Scheduler.mainStep, hMain]
    split
    · next actors hTake =>
      obtain rfl := ActorContextManager.getContextWithMsg_none hTake
      exact h.setMain_plain .loop (by rw [hMain]; rfl) (by rw [hMain]; rfl) rfl rfl (by rintro _ _ ⟨⟩)
    · next actors a hTake => exact h.take hMain hTake
  | select w a =>
    have hCandidate := h.candidate w (by rw [hMain]; rfl)
    have hChosen := h.chosen a (by rw [hMain]; rfl)
    simp only [Scheduler.mainStep, hMain]
    split
    · exact h.setMain_plain .check (by rw [hMain]; rfl) (by rw [hMain]; rfl) rfl rfl (by rintro _ _ ⟨⟩)
    · have hMoved := h.mapBox a Mailbox.moveToRun
      refine hMoved.setMain (.assign w a) (by rw [Scheduler.mapBox, hMain]; rfl)
        (by rw [Scheduler.mapBox, hMain]; rfl) ?_ ?_ (by rintro _ _ ⟨⟩)
      · intro w' hw'
        obtain rfl := Option.some.inj hw'
        exact hCandidate
      · intro b hb
        refine hMoved.chosen b ?_
        rw [Scheduler.mapBox, hMain]
        exact hb
  | assign w a => simpa only [Scheduler.mainStep, hMain] using h.assign hMain
  | requeue w a =>
    simp only [Scheduler.mainStep, hMain]
    split
    · exact h.setMain_plain (.send w) (by rw [hMain]; rfl) (by rw [hMain]; rfl) rfl rfl (by rintro _ _ ⟨⟩)
    · have hPushed : ({ s with actors := s.actors.pushContext a } : Scheduler ι ω).Serialized :=
        h.congr rfl rfl rfl (ActorContextManager.pushContext_inWorker s.actors a)
      exact hPushed.setMain_plain (.send w) (by rw [hMain]; rfl) (by rw [hMain]; rfl) rfl rfl (by rintro _ _ ⟨⟩)
  | send w => simpa only [Scheduler.mainStep, hMain] using h.send hMain
  | dispatch w a =>
    simp only [Scheduler.mainStep, hMain]
    split
    · exact h.setMain_plain (.receive w) (by rw [hMain]; rfl) (by rw [hMain]; rfl) rfl rfl (by rintro _ _ ⟨⟩)
    · exact h.dispatchOne c a
  | receive w => exact h.receive c hMain

theorem Serialized.userStep {s : Scheduler ι ω} (h : s.Serialized) (w : ω)
    (f : ι → Mailbox (Option ι) → Mailbox (Option ι)) : (s.userStep w f).Serialized := by
  rw [Scheduler.userStep]
  split
  · exact h.mapBox _ _
  · exact h

/-- `AddActor` clears the flag and drains the send queue of a context only while the flag is down. -/
def AddsApart (s : Scheduler ι ω) : Label ι ω → Prop
  | .addClear a | .addDispatch a => s.inWorker a = false
  | _ => True

omit [DecidableEq ω] [DecidableEq ι] in
instance (s : Scheduler ι ω) (l : Label ι ω) : Decidable (s.AddsApart l) :=
  match l with
  | .addClear a | .addDispatch a => inferInstanceAs (Decidable (s.inWorker a = false))
  | .check | .event _ | .arrive _ | .main | .worker _ | .post _ _ | .setRunQueueSize _ _ | .quit _
  | .addInit _ _ | .addRegister _ => .isTrue trivial

theorem Serialized.next {s : Scheduler ι ω} (h : s.Serialized) (c : Setting ι) (l : Label ι ω)
    (hEnabled : s.enabled l) (hApart : s.AddsApart l) : (s.next c l).Serialized := by
  cases l with
  | check =>
    exact h.setMain .check (by rw [hEnabled]; rfl) (by rw [hEnabled]; rfl) nofun nofun nofun
  | event w => exact h.event hEnabled.1 hEnabled.2.1 hEnabled.2.2
  | arrive m => exact h.deliver c _
  | main => exact h.mainStep c
  | worker w => exact h.workerStep w
  | post w m | setRunQueueSize w n => exact h.userStep w _
  | quit w => exact h.quit w
  | addInit a sent =>
    simp only [Scheduler.next, addInit]
    split
    · exact h.congr rfl rfl rfl fun _ => rfl
    · have hSent := h.mapBox a fun b => { b with send := b.send ++ sent.map (⟨some a, ·⟩) }
      exact hSent.congr rfl rfl rfl fun _ => rfl
  | addRegister a =>
    refine h.congr rfl rfl rfl fun b => ?_
    simp only [Scheduler.next, inWorker, ActorContextManager.add]
    split <;> rfl
  | addClear a =>
    refine h.congr rfl rfl rfl fun b => ?_
    simp only [Scheduler.next, inWorker, ActorContextManager.setRuningFlag,
      ActorContextManager.modify_heap]
    split
    · next hEq => subst hEq; exact hApart.symm
    · rfl
  | addDispatch a =>
    simp only [Scheduler.next, addDispatch]
    split
    · exact (h.mapBox a fun b => { b with send := [] }).congr rfl rfl rfl fun _ => rfl
    · split
      · exact h.congr rfl rfl rfl fun _ => rfl
      · exact h.dispatchOne c a

omit [DecidableEq ω] [DecidableEq ι] in
theorem addsApart_of_not_isAdd {s : Scheduler ι ω} {l : Label ι ω} (h : ¬ l.IsAdd) : s.AddsApart l := by
  cases l with
  | addClear a | addDispatch a => exact absurd trivial h
  | check | event w | arrive m | main | worker w | post w m | setRunQueueSize w n | quit w
  | addInit a sent | addRegister a => trivial

theorem serialized_of_apart {c : Setting ι} {ls : List (Label ι ω)}
    (hRuns : (system c).Runs (initial c) ls)
    (hApart : ∀ p ∈ (system c).steps (initial c) ls, p.1.AddsApart p.2) :
    (∀ t ∈ (system c).visited (initial c) ls, t.Serialized) ∧
      ∀ p ∈ (system c).steps (initial c) ls, p.1.Serialized ∧ p.1.enabled p.2 := by
  have hStep : ∀ (s : Scheduler ι ω) (l : Label ι ω), s.Serialized → s.enabled l → s.AddsApart l →
      (s.next c l).Serialized := fun s l h => h.next c l
  exact ⟨(system c).inv_visited hStep (Serialized.initial c) hRuns hApart,
    (system c).inv_steps hStep (Serialized.initial c) hRuns hApart⟩

/-- No thread is inside `AddActor` when all actors were added before `Exec`. -/
theorem serialized_of_added {c : Setting ι} {ls : List (Label ι ω)} (hAdded : ∀ l ∈ ls, ¬ l.IsAdd)
    (hRuns : (system c).Runs (initial c) ls) :
    (∀ t ∈ (system c).visited (initial c) ls, t.Serialized) ∧
      ∀ p ∈ (system c).steps (initial c) ls, p.1.Serialized ∧ p.1.enabled p.2 :=
  serialized_of_apart hRuns fun p hp =>
    addsApart_of_not_isAdd (hAdded p.2 ((system c).label_mem_of_mem_steps hp))

end Scheduler
end Myframe
