import Mathlib.Algebra.BigOperators.Fin
import Mathlib.Algebra.Order.BigOperators.Group.Finset
import Mathlib.Data.Prod.Lex
import Myframe.Scheduler.Rest

/-! # The scheduler comes to rest

Every step of the framework's own threads brings messages further on their way from a send queue over
a receive queue to a run queue and out of it, or else brings a worker's turn further on its way to the
idle list.
-/
namespace Myframe
set_option autoImplicit false

/-- What is left of the turn. -/
def WorkerPc.weight {ι : Type} : WorkerPc ι → ℕ
  | .wait | .done => 0
  | .start | .worked _ | .quit => 2
  | .work _ => 3
  | .proc _ => 4
  | .ran => 5

def CommonWorker.weight {ι : Type} (x : CommonWorker ι) : ℕ :=
  x.pc.weight + x.channel.toMain.length + 6 * x.channel.toOwner.length

namespace Scheduler

variable {ι ω : Type} [DecidableEq ι]

/-- There is a worker and an actor for it. -/
def Ready (s : Scheduler ι ω) : Prop := s.idle ≠ [] ∧ (s.actors.getContextWithMsg).2 ≠ none

instance (s : Scheduler ι ω) : Decidable s.Ready :=
  inferInstanceAs (Decidable (s.idle ≠ [] ∧ (s.actors.getContextWithMsg).2 ≠ none))

/-- From `assign` on it includes the turn that the worker is about to get. -/
def mainWeight (s : Scheduler ι ω) : ℕ :=
  match s.main with
  | .loop => if s.Ready then 12 else 4
  | .check => if s.Ready then 11 else 6
  | .front _ => if s.Ready then 10 else 5
  | .select _ _ => 9
  | .assign _ _ => 150
  | .requeue _ _ => 149
  | .send _ => 148
  | .dispatch _ _ => 3
  | .receive _ => 2

theorem mainWeight_loop_le {s : Scheduler ι ω} (h : s.main = .loop) :
    4 ≤ s.mainWeight ∧ s.mainWeight ≤ 12 := by
  rw [mainWeight, h]
  dsimp only
  split <;> omega

theorem mainWeight_check_le {s : Scheduler ι ω} (h : s.main = .check) : s.mainWeight ≤ 11 := by
  rw [mainWeight, h]
  dsimp only
  split <;> omega

theorem mainWeight_congr {s t : Scheduler ι ω} (hMain : t.main = s.main) (hIdle : t.idle = s.idle)
    (hFound : (t.actors.getContextWithMsg).2 = (s.actors.getContextWithMsg).2) :
    t.mainWeight = s.mainWeight := by
  have hReady : t.Ready ↔ s.Ready := by rw [Ready, Ready, hIdle, hFound]
  simp only [mainWeight, hMain, hReady]

section Sums

variable [Fintype ι] [Fintype ω]

def load (worker : ω → CommonWorker ι) : ℕ := ∑ w, (worker w).weight

omit [DecidableEq ι] [Fintype ι] in
theorem load_update [DecidableEq ω] (worker : ω → CommonWorker ι) (w : ω) (x : CommonWorker ι) :
    load (Function.update worker w x) + (worker w).weight = load worker + x.weight := by
  have hNew := Finset.sum_update_of_mem (Finset.mem_univ w) (fun w => (worker w).weight) x.weight
  have hOld := Finset.sum_eq_add_sum_sdiff_singleton_of_mem (Finset.mem_univ w) fun w => (worker w).weight
  have hSame : load (Function.update worker w x) =
      ∑ w', Function.update (fun w => (worker w).weight) w x.weight w' := by
    refine Finset.sum_congr rfl fun w' _ => ?_
    simp only [Function.update_apply]
    split <;> rfl
  rw [hSame, hNew, load, hOld]
  omega

def control (s : Scheduler ι ω) : ℕ := s.mainWeight + 20 * load s.worker

/-- The messages that are to be sent, then those to be received, then those to be processed, and last
what is left of the turns. -/
def rank (s : Scheduler ι ω) : ℕ ×ₗ ℕ ×ₗ ℕ ×ₗ ℕ :=
  toLex (∑ a, (s.box a).send.length, toLex (∑ a, (s.box a).recv.length,
    toLex (∑ a, (s.box a).run.length, s.control)))

omit [DecidableEq ι] in
theorem sum_length_lt {β : Type} {f g : ι → List β} {a : ι} (hLess : (f a).length < (g a).length)
    (hOther : ∀ b, b ≠ a → f b = g b) : ∑ b, (f b).length < ∑ b, (g b).length := by
  refine Finset.sum_lt_sum (fun b _ => ?_) ⟨a, Finset.mem_univ a, hLess⟩
  obtain rfl | hNe := eq_or_ne b a
  · exact hLess.le
  · rw [hOther b hNe]

variable {s t : Scheduler ι ω}

theorem rank_lt_of_send (h : ∑ a, (t.box a).send.length < ∑ a, (s.box a).send.length) :
    t.rank < s.rank := Prod.Lex.toLex_lt_toLex.mpr (.inl h)

theorem rank_lt_of_recv (hSend : ∀ a, (t.box a).send = (s.box a).send)
    (h : ∑ a, (t.box a).recv.length < ∑ a, (s.box a).recv.length) : t.rank < s.rank := by
  simp only [rank, hSend]
  exact Prod.Lex.toLex_lt_toLex.mpr (.inr ⟨rfl, Prod.Lex.toLex_lt_toLex.mpr (.inl h)⟩)

theorem rank_lt_of_run (hSend : ∀ a, (t.box a).send = (s.box a).send)
    (hRecv : ∀ a, (t.box a).recv = (s.box a).recv)
    (h : ∑ a, (t.box a).run.length < ∑ a, (s.box a).run.length) : t.rank < s.rank := by
  simp only [rank, hSend, hRecv]
  refine Prod.Lex.toLex_lt_toLex.mpr (.inr ⟨rfl, Prod.Lex.toLex_lt_toLex.mpr (.inr ⟨rfl, ?_⟩)⟩)
  exact Prod.Lex.toLex_lt_toLex.mpr (.inl h)

theorem rank_lt_of_control (hBox : ∀ a, t.box a = s.box a) (h : t.control < s.control) :
    t.rank < s.rank := by
  simp only [rank, hBox]
  refine Prod.Lex.toLex_lt_toLex.mpr (.inr ⟨rfl, Prod.Lex.toLex_lt_toLex.mpr (.inr ⟨rfl, ?_⟩)⟩)
  exact Prod.Lex.toLex_lt_toLex.mpr (.inr ⟨rfl, h⟩)

variable [DecidableEq ω]

/-- A step that leaves the mailboxes alone and makes one worker lighter, by more than the main loop gets
heavier. -/
theorem rank_lt_of_worker {w : ω} {x : CommonWorker ι} (hBox : ∀ a, t.box a = s.box a)
    (hWorker : t.worker = Function.update s.worker w x)
    (hWeight : t.mainWeight + 20 * x.weight < s.mainWeight + 20 * (s.worker w).weight) : t.rank < s.rank := by
  refine rank_lt_of_control hBox ?_
  have hLoad := load_update s.worker w x
  rw [control, control, hWorker]
  omega

theorem workerStep_rank {w : ω} (h : s.enabled (.worker w)) : (s.workerStep w).rank < s.rank := by
  obtain ⟨hDone, hWait⟩ := h
  have hLight : ∀ x : CommonWorker ι, s.workerStep w = s.modifyWorker w (fun _ => x) →
      x.weight < (s.worker w).weight → (s.workerStep w).rank < s.rank := by
    intro x hStep hWeight
    rw [hStep]
    refine rank_lt_of_worker (x := x) (fun _ => rfl) rfl ?_
    have hMain : (s.modifyWorker w fun _ => x).mainWeight = s.mainWeight := mainWeight_congr rfl rfl rfl
    omega
  cases hPc : (s.worker w).pc with
  | start | proc a | worked a | quit =>
    refine hLight _ (by simp only [workerStep, hPc]; rfl) ?_
    simp only [CommonWorker.weight, hPc, WorkerPc.weight, CmdChannel.sendToMain_toMain,
      CmdChannel.sendToMain_toOwner, List.length_append, List.length_singleton]
    omega
  | ran =>
    refine hLight _ (by simp only [workerStep, hPc]; rfl) ?_
    cases hContext : (s.worker w).context <;> simp [CommonWorker.weight, hPc, WorkerPc.weight]
  | done => exact absurd hPc hDone
  | wait =>
    obtain ⟨cmd, rest, hQueue⟩ := List.exists_cons_of_ne_nil (hWait hPc)
    refine hLight _ (by simp only [workerStep, hPc, hQueue]; rfl) ?_
    simp only [CommonWorker.weight, hPc, hQueue, List.length_cons]
    split
    · simp only [WorkerPc.weight]
      omega
    · simp only [WorkerPc.weight]
      omega
  | work a =>
    cases hRun : (s.box a).run with
    | nil =>
      refine hLight _ (by simp only [workerStep, hPc, hRun]; rfl) ?_
      simp only [CommonWorker.weight, hPc, WorkerPc.weight]
      omega
    | cons p rest =>
      have hBox : ∀ b, (s.workerStep w).box b =
          { s.box b with run := if b = a then rest else (s.box b).run } := by
        intro b
        simp only [workerStep, hPc, hRun]
        change (s.mapBox a fun x => { x with run := rest }).box b = _
        rw [mapBox_box]
        split
        · next hEq => rw [hEq]
        · rfl
      refine rank_lt_of_run (fun b => by rw [hBox]) (fun b => by rw [hBox]) ?_
      apply sum_length_lt (a := a)
      · rw [hBox, if_pos rfl, hRun]
        exact Nat.lt_succ_self _
      · intro b hNe
        rw [hBox, if_neg hNe]

omit [DecidableEq ω] in
theorem event_rank {w : ω} (hMain : s.main = .loop) : (s.event w).rank < s.rank := by
  have hWeight := (mainWeight_loop_le hMain).1
  rw [event]
  split
  · refine rank_lt_of_control (fun _ => rfl) ?_
    change 2 + 20 * load s.worker < s.control
    rw [control]
    omega
  · next a hContext =>
    refine rank_lt_of_control (fun b => setRuningFlag_box s b a false) ?_
    change 3 + 20 * load s.worker < s.control
    rw [control]
    omega

omit [DecidableEq ω] in
/-- A dispatched message leaves the send queue, whatever it adds to the receive queues. -/
theorem dispatchOne_rank (c : Setting ι) {a : ι} {p : Parcel (Option ι)} {rest : List (Parcel (Option ι))}
    (hSend : (s.box a).send = p :: rest) : (s.dispatchOne c a).rank < s.rank := by
  have hSend' : ∀ b, ((s.dispatchOne c a).box b).send = if b = a then rest else (s.box b).send := by
    intro b
    simp only [dispatchOne, hSend]
    obtain ⟨recv, hBox⟩ := deliver_box (s.mapBox a fun x => { x with send := rest }) c p b
    rw [hBox, mapBox_box]
    split
    · rfl
    · rfl
  refine rank_lt_of_send (sum_length_lt (a := a) ?_ fun b hNe => by rw [hSend', if_neg hNe])
  rw [hSend', if_pos rfl, hSend]
  exact Nat.lt_succ_self _

omit [DecidableEq ω] in
theorem moveToRun_rank {w : ω} {a : ι} (hRecv : (s.box a).recv ≠ []) :
    ({ s.mapBox a Mailbox.moveToRun with main := .assign w a } : Scheduler ι ω).rank < s.rank := by
  have hBox : ∀ b, ({ s.mapBox a Mailbox.moveToRun with main := .assign w a } : Scheduler ι ω).box b =
      if b = a then (s.box a).moveToRun else s.box b := mapBox_box s a (f := Mailbox.moveToRun)
  refine rank_lt_of_recv (fun b => ?_) (sum_length_lt (a := a) ?_ fun b hNe => by rw [hBox, if_neg hNe])
  · rw [hBox]
    split
    · next hEq => rw [hEq, Mailbox.moveToRun_send]
    · rfl
  · rw [hBox, if_pos rfl]
    exact Mailbox.moveToRun_recv_length_lt hRecv

theorem mainStep_rank (h : s.Accounted) (c : Setting ι) (hMain : s.main ≠ .loop) :
    (s.mainStep c).rank < s.rank := by
  have hQuiet : ∀ t : Scheduler ι ω, (∀ a, t.box a = s.box a) → t.worker = s.worker →
      t.mainWeight < s.mainWeight → t.rank < s.rank := by
    intro t hBox hWorker hWeight
    refine rank_lt_of_control hBox ?_
    rw [control, control, hWorker]
    omega
  have hReady : ∀ w, s.main.candidate = some w → s.idle ≠ [] := by
    intro w hw hNil
    have hHead := h.serialized.candidate w hw
    rw [hNil] at hHead
    cases hHead
  cases hPc : s.main with
  | loop => exact absurd hPc hMain
  | check =>
    simp only [mainStep, hPc]
    split
    · next hNil =>
      refine hQuiet _ (fun _ => rfl) rfl ?_
      simp [mainWeight, hPc, Ready, hNil]
    · next w rest hCons =>
      refine hQuiet _ (fun _ => rfl) rfl ?_
      have hCheck : s.mainWeight = if s.Ready then 11 else 6 := by rw [mainWeight, hPc]
      rw [hCheck]
      change (if s.Ready then 10 else 5) < if s.Ready then 11 else 6
      split <;> omega
  | front w =>
    simp only [mainStep, hPc]
    split
    · next actors hTake =>
      obtain rfl := ActorContextManager.getContextWithMsg_none hTake
      refine hQuiet _ (fun _ => rfl) rfl ?_
      simp [mainWeight, hPc, Ready, hTake]
    · next actors a hTake =>
      have hFound := ActorContextManager.getContextWithMsg_mailbox s.actors
      rw [hTake] at hFound
      refine hQuiet _ hFound rfl ?_
      have hIdle := hReady w (by rw [hPc]; rfl)
      simp [mainWeight, hPc, Ready, hTake, hIdle]
  | select w a =>
    have hRecv := h.waits.queued.select w a hPc
    simp only [mainStep, hPc, if_neg hRecv]
    exact moveToRun_rank hRecv
  | assign w a =>
    simp only [mainStep, hPc]
    refine rank_lt_of_worker (fun _ => rfl) rfl ?_
    change 149 + 20 * (s.worker w).weight < s.mainWeight + 20 * (s.worker w).weight
    simp [mainWeight, hPc]
  | requeue w a =>
    simp only [mainStep, hPc]
    split
    · refine hQuiet _ (fun _ => rfl) rfl ?_
      simp [mainWeight, hPc]
    · refine hQuiet _ (ActorContextManager.pushContext_mailbox s.actors a) rfl ?_
      simp [mainWeight, hPc]
  | send w =>
    have hSend : s.mainWeight = 148 := by rw [mainWeight, hPc]
    have hTold : ∀ t : Scheduler ι ω, (∀ a, t.box a = s.box a) →
        t.worker = Function.update s.worker w
          { s.worker w with channel := (s.worker w).channel.sendToOwner .kRun } →
        t.main = .check → t.rank < s.rank := by
      intro t hBox hWorker hCheck
      refine rank_lt_of_worker hBox hWorker ?_
      have hCheckWeight := mainWeight_check_le hCheck
      simp only [CommonWorker.weight, CmdChannel.sendToOwner_toOwner, CmdChannel.sendToOwner_toMain,
        List.length_append, List.length_singleton]
      omega
    simp only [mainStep, hPc]
    exact hTold _ (fun _ => rfl) rfl rfl
  | dispatch w a =>
    simp only [mainStep, hPc]
    split
    · refine hQuiet _ (fun _ => rfl) rfl ?_
      simp [mainWeight, hPc]
    · next hSend => exact dispatchOne_rank c hSend
  | receive w =>
    obtain ⟨cmd, rest, hQueue⟩ := List.exists_cons_of_ne_nil (h.serialized.served w (by rw [hPc]; rfl)).2
    have hWeight : s.mainWeight = 2 := by rw [mainWeight, hPc]
    -- what is taken from the channel outweighs the loop
    have hTaken : ∀ (t : Scheduler ι ω) (x : CommonWorker ι), (∀ a, t.box a = s.box a) →
        t.worker = Function.update s.worker w x → t.main = .loop → x.pc = (s.worker w).pc →
        x.channel = { (s.worker w).channel with toMain := rest } → t.rank < s.rank := by
      intro t x hBox hWorker hLoop hPc' hChannel
      refine rank_lt_of_worker hBox hWorker ?_
      have hLoopWeight := (mainWeight_loop_le hLoop).2
      rw [CommonWorker.weight, CommonWorker.weight, hPc', hChannel, hQueue, List.length_cons]
      dsimp only
      omega
    simp only [mainStep, hPc, hQueue]
    cases cmd with
    | kIdle | kQuit =>
      refine hTaken _ _ (fun _ => rfl) (Function.update_idem ..) rfl ?_ ?_ <;> simp [modifyWorker]
    | kWaitForMsg | kRun | kRunWithMsg => exact hTaken _ _ (fun _ => rfl) rfl rfl rfl rfl

/-- Every step that the framework takes by itself lowers the rank. -/
theorem next_rank (h : s.Accounted) (c : Setting ι) {l : Label ι ω} (hEnabled : s.enabled l)
    (hWorks : s.Works l) : (s.next c l).rank < s.rank := by
  cases l with
  | check =>
    refine rank_lt_of_control (fun _ => rfl) ?_
    have hReady : s.Ready := hWorks
    have hLoop : s.mainWeight = 12 := by rw [mainWeight, hEnabled]; exact if_pos hReady
    have hCheck := mainWeight_check_le (s := { s with main := .check }) rfl
    rw [control, control, hLoop]
    change mainWeight { s with main := .check } + 20 * load s.worker < 12 + 20 * load s.worker
    omega
  | event w => exact event_rank hEnabled.1
  | main => exact mainStep_rank h c hEnabled
  | worker w => exact workerStep_rank hEnabled
  | arrive m | post w m | setRunQueueSize w n | quit w | addInit a sent | addRegister a | addClear a
  | addDispatch a => exact hWorks.elim

end Sums

theorem not_isAdd_of_works {s : Scheduler ι ω} {l : Label ι ω} (h : s.Works l) : ¬ l.IsAdd ∧ ¬ l.IsQuit := by
  cases l with
  | check | event w | main | worker w => exact ⟨id, id⟩
  | arrive m | post w m | setRunQueueSize w n | quit w | addInit a sent | addRegister a | addClear a
  | addDispatch a => exact h.elim

/-- With the actors in place before `Exec`, in whatever state the scheduler is left alone: its threads
cannot go on for ever, and they come to rest. -/
theorem comes_to_rest [Finite ι] [Finite ω] [DecidableEq ω] (c : Setting ι) (ls : List (Label ι ω))
    (hAdded : ∀ l ∈ ls, ¬ l.IsAdd) (hRuns : (system c).Runs (initial c) ls) :
    let s := (system c).exec (initial c) ls
    (∀ (state : ℕ → Scheduler ι ω) (label : ℕ → Label ι ω), state 0 = s →
      ¬ (system c).Endless Works state label) ∧
    ∃ more, (system c).Runs (initial c) (ls ++ more) ∧ (∀ p ∈ (system c).steps s more, p.1.Works p.2) ∧
      (system c).AtRest Works ((system c).exec s more) := by
  intro s
  have := Fintype.ofFinite ι
  have := Fintype.ofFinite ω
  have hStep : ∀ (s : Scheduler ι ω) (l : Label ι ω), s.Accounted → s.enabled l → s.Works l →
      (s.next c l).Accounted := fun s l h hEnabled hWorks => h.next c hEnabled (not_isAdd_of_works hWorks).1
  have hLower : ∀ (s : Scheduler ι ω) (l : Label ι ω), s.Accounted → s.enabled l → s.Works l →
      (s.next c l).rank < s.rank := fun s l h => next_rank h c
  have hAccounted : s.Accounted :=
    accounted_of_added hAdded hRuns _ ((system c).mem_visited_of_exec _ ls)
  constructor
  · intro state label hStart
    exact Transition.System.not_endless hStep hLower (hStart ▸ hAccounted)
  · obtain ⟨more, hMore, hWorks, hRest⟩ :=
      Transition.System.exists_atRest (S := system c) hStep hLower s hAccounted
    exact ⟨more, (system c).runs_append.mpr ⟨hRuns, hMore⟩, hWorks, hRest⟩

/-- Two actors with a message each and one idle worker. -/
theorem comes_to_rest_pair :
    ∃ more, (system pairSetting).Runs (initial pairSetting) (bothWait ++ more) ∧ more ≠ [] ∧
      (system pairSetting).AtRest Works ((system pairSetting).exec (initial pairSetting) (bothWait ++ more)) := by
  obtain ⟨-, more, hRuns, -, hRest⟩ := comes_to_rest pairSetting bothWait (by decide) (by decide)
  rw [← (system pairSetting).exec_append] at hRest
  refine ⟨more, hRuns, ?_, hRest⟩
  rintro rfl
  revert hRest
  decide

end Scheduler
end Myframe
