import Myframe.Actor.WaitQueue
import Myframe.Scheduler.Frame

/-! # No actor with messages is forgotten -/
namespace Myframe
set_option autoImplicit false

namespace MainPc

variable {ι ω : Type}

/-- The context on its way from the wait queue to a worker. -/
def handing : MainPc ι ω → Option ι
  | .select _ a | .assign _ a | .requeue _ a => some a
  | _ => none

end MainPc

namespace Scheduler

variable {ι ω : Type}

structure Queued (s : Scheduler ι ω) : Prop where
  tidy : s.actors.Tidy s.main.handing
  select : ∀ w a, s.main = .select w a → (s.box a).recv ≠ []

variable [DecidableEq ι] [DecidableEq ω]

omit [DecidableEq ω] in
theorem Queued.deliver {s : Scheduler ι ω} (h : s.Queued) (hMain : s.main.handing = none)
    (c : Setting ι) (p : Parcel (Option ι)) : (s.deliver c p).Queued := by
  have hTidy : s.actors.Tidy none := hMain ▸ h.tidy
  have hDeliver : (s.deliver c p).actors.Tidy none := by
    simp only [Scheduler.deliver]
    generalize ((s.directory c).dispatchMsg c.walk s.subs p.msg).2 = deliveries
    generalize s.actors = actors at hTidy
    induction deliveries generalizing actors with
    | nil => exact hTidy
    | cons d ds ih =>
      rw [List.foldl_cons]
      cases d with
      | actor name => exact ih _ (hTidy.dispatchMsg name p)
      | worker name | conn name => exact ih _ hTidy
  refine ⟨hMain.symm ▸ hDeliver, fun w a hSelect => ?_⟩
  rw [show s.main = .select w a from hSelect] at hMain
  cases hMain

theorem Queued.mainStep {s : Scheduler ι ω} (h : s.Queued) (c : Setting ι) : (s.mainStep c).Queued := by
  have hTidy := h.tidy
  cases hMain : s.main with
  | loop => simpa only [Scheduler.mainStep, hMain] using h
  | check =>
    rw [hMain] at hTidy
    simp only [Scheduler.mainStep, hMain]
    split <;> exact ⟨hTidy, by rintro _ _ ⟨⟩⟩
  | front w =>
    rw [hMain] at hTidy
    simp only [Scheduler.mainStep, hMain]
    split
    · next actors hTake =>
      obtain rfl := ActorContextManager.getContextWithMsg_none hTake
      exact ⟨hTidy, by rintro _ _ ⟨⟩⟩
    · next actors a hTake =>
      obtain ⟨hTaken, hNe⟩ := hTidy.getContextWithMsg hTake
      refine ⟨hTaken, fun w' b hSelect => ?_⟩
      obtain ⟨-, rfl⟩ := MainPc.select.inj hSelect
      exact hNe
  | select w a =>
    rw [hMain] at hTidy
    simp only [Scheduler.mainStep, hMain, if_neg (h.select w a hMain)]
    exact ⟨hTidy.mapMailbox a fun hNe => absurd rfl hNe, by rintro _ _ ⟨⟩⟩
  | assign w a =>
    rw [hMain] at hTidy
    simp only [Scheduler.mainStep, hMain]
    exact ⟨hTidy, by rintro _ _ ⟨⟩⟩
  | requeue w a =>
    rw [hMain] at hTidy
    simp only [Scheduler.mainStep, hMain]
    split
    · next hNil => exact ⟨hTidy.release hNil, by rintro _ _ ⟨⟩⟩
    · next hNe =>
      have hPushed : (s.actors.pushContext a).Tidy none :=
        .pushContext hTidy.nodup hTidy.mem_iff
          (fun b hb => hTidy.recv_iff b fun hEq => hb (Option.some.inj hEq).symm) hNe
      exact ⟨hPushed, by rintro _ _ ⟨⟩⟩
  | send w =>
    rw [hMain] at hTidy
    simp only [Scheduler.mainStep, hMain]
    exact ⟨hTidy, by rintro _ _ ⟨⟩⟩
  | dispatch w a =>
    rw [hMain] at hTidy
    simp only [Scheduler.mainStep, hMain]
    split
    · exact ⟨hTidy, by rintro _ _ ⟨⟩⟩
    · next p rest hSend =>
      simp only [dispatchOne, hSend]
      have hPopped : (s.mapBox a fun b => { b with send := rest }).Queued := by
        constructor
        · rw [mapBox, hMain]
          exact @ActorContextManager.Tidy.mapMailbox _ _ _ _ _ hTidy a (fun b => { b with send := rest })
            fun _ => rfl
        · intro w' b hSelect
          rw [mapBox, hMain] at hSelect
          cases hSelect
      exact hPopped.deliver (by rw [mapBox, hMain]; rfl) c p
  | receive w =>
    rw [hMain] at hTidy
    simp only [Scheduler.mainStep, hMain]
    split
    · exact ⟨hTidy, by rintro _ _ ⟨⟩⟩
    · split <;> exact ⟨hTidy, by rintro _ _ ⟨⟩⟩

omit [DecidableEq ω] [DecidableEq ι] in
/-- Steps that leave every receive queue, the wait queue and the main loop alone. -/
theorem Queued.of_actors {s t : Scheduler ι ω} (h : s.Queued) (hMain : t.main = s.main)
    (hQueue : t.actors.waitQueue = s.actors.waitQueue)
    (hHeap : ∀ a, (t.box a).recv = (s.box a).recv ∧
      (t.actors.heap a).inWaitQue = (s.actors.heap a).inWaitQue) : t.Queued := by
  constructor
  · rw [hMain]
    exact h.tidy.of_heap hQueue hHeap
  · intro w a hSelect
    rw [(hHeap a).1]
    exact h.select w a (hMain ▸ hSelect)

omit [DecidableEq ω] in
theorem Queued.mapBox {s t : Scheduler ι ω} (h : s.Queued) (hMain : t.main = s.main) {a : ι}
    {f : Mailbox (Option ι) → Mailbox (Option ι)} (hActors : t.actors = s.actors.mapMailbox a f)
    (hRecv : (f (s.box a)).recv = (s.box a).recv) : t.Queued := by
  refine h.of_actors hMain (by rw [hActors]; rfl) fun b => ?_
  rw [box, hActors, ActorContextManager.mapMailbox_heap]
  refine ⟨?_, rfl⟩
  split
  · next hEq => rw [hEq]; exact hRecv
  · rfl

theorem Queued.next {s : Scheduler ι ω} (h : s.Queued) (c : Setting ι) {l : Label ι ω}
    (hEnabled : s.enabled l) (hAdd : ¬ l.IsAdd) : (s.next c l).Queued := by
  cases l with
  | check =>
    have hTidy := h.tidy
    rw [hEnabled] at hTidy
    exact ⟨hTidy, nofun⟩
  | event w =>
    have hTidy := h.tidy
    rw [hEnabled.1] at hTidy
    simp only [Scheduler.next, event]
    split
    · exact ⟨hTidy, nofun⟩
    · next b _ =>
      refine ⟨hTidy.of_heap rfl fun a => ?_, nofun⟩
      simp only [ActorContextManager.setRuningFlag, ActorContextManager.modify_heap]
      split
      · next hEq => rw [hEq]; exact ⟨rfl, rfl⟩
      · exact ⟨rfl, rfl⟩
  | arrive m => exact h.deliver (by rw [hEnabled]; rfl) c _
  | main => exact h.mainStep c
  | worker w =>
    obtain hSame | ⟨a, p, rest, -, -, hMap⟩ := workerStep_actors s w
    · exact h.of_actors (workerStep_main s w) (congrArg _ hSame) fun a => by
        simp only [box, Scheduler.next, hSame, and_self]
    · exact h.mapBox (workerStep_main s w) hMap rfl
  | post w m =>
    obtain hSame | ⟨a, -, hMap⟩ := userStep_actors s w fun a b => b.push ⟨some a, m⟩
    · exact h.of_actors (userStep_main s w _) (congrArg _ hSame) fun a => by
        simp only [box, Scheduler.next, hSame, and_self]
    · exact h.mapBox (userStep_main s w _) hMap rfl
  | setRunQueueSize w n =>
    obtain hSame | ⟨a, -, hMap⟩ := userStep_actors s w fun _ b => { b with runQueueSize := n }
    · exact h.of_actors (userStep_main s w _) (congrArg _ hSame) fun a => by
        simp only [box, Scheduler.next, hSame, and_self]
    · exact h.mapBox (userStep_main s w _) hMap rfl
  | quit w => exact ⟨h.tidy, h.select⟩
  | addInit a sent | addRegister a | addClear a | addDispatch a => exact absurd trivial hAdd

omit [DecidableEq ω] [DecidableEq ι] in
theorem Queued.initial (c : Setting ι) : (initial c : Scheduler ι ω).Queued where
  tidy :=
    { nodup := List.nodup_nil
      mem_iff := fun _ => ⟨nofun, nofun⟩
      recv_iff := fun _ _ => ⟨fun hNe => absurd rfl hNe, nofun⟩
      between := nofun }
  select := nofun

/-- An actor has messages to receive iff its flag says that it waits iff it is in the queue, once;
only the context that the main loop is handing to a worker is in between. And the context chosen for
a worker has messages, so that the branch which leaves it marked as running is never taken. -/
theorem no_actor_forgotten (c : Setting ι) (ls : List (Label ι ω)) (hAdded : ∀ l ∈ ls, ¬ l.IsAdd)
    (hRuns : (system c).Runs (initial c) ls) :
    ∀ t ∈ (system c).visited (initial c) ls,
      (∀ a, t.actors.waitQueue.count a ≤ 1) ∧
      (∀ a, t.main.handing ≠ some a →
        ((t.box a).recv ≠ [] ↔ (t.actors.heap a).inWaitQue = true) ∧
          ((t.actors.heap a).inWaitQue = true ↔ t.actors.waitQueue.count a = 1)) ∧
      ∀ w a, t.main = .select w a → (t.box a).recv ≠ [] := by
  have hStep : ∀ (s : Scheduler ι ω) (l : Label ι ω), s.Queued → s.enabled l → ¬ l.IsAdd →
      (s.next c l).Queued := fun s l h => h.next c
  intro t ht
  have h := (system c).inv_visited hStep (Queued.initial c) hRuns
    (fun p hp => hAdded p.2 ((system c).label_mem_of_mem_steps hp)) t ht
  refine ⟨List.nodup_iff_count_le_one.mp h.tidy.nodup, fun a ha => ⟨h.tidy.recv_iff a ha, ?_⟩, h.select⟩
  rw [← h.tidy.mem_iff a]
  exact ⟨List.count_eq_one_of_mem h.tidy.nodup, fun hCount =>
    List.count_pos_iff.mp (hCount ▸ Nat.one_pos)⟩

/-- Three messages come, two of them go along with the first hand-over and one keeps the actor in the
queue. -/
theorem no_actor_forgotten_rest :
    let c : Setting Unit :=
      { actorName := fun _ => "actor.a.1"
        ctxs := fun name => if name = "actor.a.1" then some () else none }
    let m : Msg := { dst := "actor.a.1", type := "TEXT" }
    let ls : List (Label Unit Bool) :=
      [.worker false, .event false, .main, .arrive m, .arrive m, .arrive m, .check, .main, .main, .main,
        .main, .main, .main]
    (((system c).exec (initial c) ls).actors.heap ()).inWaitQue = true := by
  intro c m ls
  have h := no_actor_forgotten c ls (by decide) (by decide) _ ((system c).mem_visited_of_exec ..)
  exact (h.2.1 () (by decide)).1.mp (by decide)

end Scheduler
end Myframe
