import Myframe.Scheduler.System

/-! # What each part of a step leaves alone -/
namespace Myframe
set_option autoImplicit false
namespace Scheduler

variable {ι ω : Type}

def inWorker (s : Scheduler ι ω) (a : ι) : Bool := (s.actors.heap a).inWorker

section Workers

variable [DecidableEq ω]

@[simp] theorem modifyWorker_worker (s : Scheduler ι ω) (w w' : ω)
    (f : CommonWorker ι → CommonWorker ι) :
    (s.modifyWorker w f).worker w' = if w' = w then f (s.worker w) else s.worker w' :=
  Function.update_apply ..

@[simp] theorem modifyWorker_idle (s : Scheduler ι ω) (w : ω) (f : CommonWorker ι → CommonWorker ι) :
    (s.modifyWorker w f).idle = s.idle := rfl

@[simp] theorem modifyWorker_actors (s : Scheduler ι ω) (w : ω) (f : CommonWorker ι → CommonWorker ι) :
    (s.modifyWorker w f).actors = s.actors := rfl

end Workers

section Contexts

variable [DecidableEq ι]

theorem mapBox_box (s : Scheduler ι ω) (a b : ι) (f : Mailbox (Option ι) → Mailbox (Option ι)) :
    (s.mapBox a f).box b = if b = a then f (s.box a) else s.box b := by
  simp only [box, mapBox, ActorContextManager.mapMailbox_heap]

/-- What no copy of a message changes, its dispatch does not change. -/
theorem deliver_keeps {β : Type} (f : ActorContextManager ι (Option ι) → β) {p : Parcel (Option ι)}
    (hKeep : ∀ actors name, f (actors.dispatchMsg name p) = f actors) (s : Scheduler ι ω) (c : Setting ι) :
    f (s.deliver c p).actors = f s.actors := by
  simp only [deliver]
  generalize ((s.directory c).dispatchMsg c.walk s.subs p.msg).2 = deliveries
  generalize s.actors = actors
  induction deliveries generalizing actors with
  | nil => rfl
  | cons d ds ih =>
    rw [List.foldl_cons, ih]
    cases d with
    | actor name => exact hKeep actors name
    | worker name | conn name => rfl

theorem deliver_inWorker (s : Scheduler ι ω) (c : Setting ι) (p : Parcel (Option ι)) (a : ι) :
    (s.deliver c p).inWorker a = s.inWorker a :=
  deliver_keeps (fun actors => (actors.heap a).inWorker)
    (fun actors name => ActorContextManager.dispatchMsg_inWorker actors name p a) s c

theorem deliverTo_box (actors : ActorContextManager ι (Option ι)) (p : Parcel (Option ι)) (d : Delivery)
    (a : ι) : ((deliverTo p actors d).heap a).mailbox = (actors.heap a).mailbox ∨
      ((deliverTo p actors d).heap a).mailbox = (actors.heap a).mailbox.receive p := by
  cases d with
  | actor name =>
    simp only [deliverTo, ActorContextManager.dispatchMsg_mailbox]
    split
    · exact .inr rfl
    · exact .inl rfl
  | worker name | conn name => exact .inl rfl

theorem deliver_box (s : Scheduler ι ω) (c : Setting ι) (p : Parcel (Option ι)) (a : ι) :
    ∃ recv, (s.deliver c p).box a = { s.box a with recv := recv } := by
  simp only [deliver, box]
  generalize ((s.directory c).dispatchMsg c.walk s.subs p.msg).2 = deliveries
  generalize s.actors = actors
  induction deliveries generalizing actors with
  | nil => exact ⟨(actors.heap a).mailbox.recv, rfl⟩
  | cons d ds ih =>
    obtain ⟨recv, hRest⟩ := ih (deliverTo p actors d)
    rw [List.foldl_cons, hRest]
    obtain hSame | hReceived := deliverTo_box actors p d a
    · exact ⟨recv, by rw [hSame]⟩
    · obtain ⟨recv', hReceive⟩ := (actors.heap a).mailbox.receive_eq p
      exact ⟨recv, by rw [hReceived, hReceive]⟩

theorem dispatchOne_box (s : Scheduler ι ω) (c : Setting ι) {a b : ι} (h : a ≠ b) :
    ∃ recv, (s.dispatchOne c b).box a = { s.box a with recv := recv } := by
  rw [dispatchOne]
  split
  · exact ⟨(s.box a).recv, rfl⟩
  · next p rest _ =>
    obtain ⟨recv, hBox⟩ := deliver_box (s.mapBox b fun x => { x with send := rest }) c p a
    exact ⟨recv, by rw [hBox, mapBox_box, if_neg h]⟩

theorem deliver_ctxs (s : Scheduler ι ω) (c : Setting ι) (p : Parcel (Option ι)) :
    (s.deliver c p).actors.ctxs = s.actors.ctxs :=
  deliver_keeps (·.ctxs) (fun actors name => ActorContextManager.dispatchMsg_ctxs actors name p) s c

theorem dispatchOne_ctxs (s : Scheduler ι ω) (c : Setting ι) (b : ι) :
    (s.dispatchOne c b).actors.ctxs = s.actors.ctxs := by
  rw [dispatchOne]
  split
  · rfl
  · rw [deliver_ctxs]
    rfl

theorem dispatchOne_worker (s : Scheduler ι ω) (c : Setting ι) (b : ι) :
    (s.dispatchOne c b).worker = s.worker := by
  rw [dispatchOne]
  split <;> rfl

theorem dispatchOne_idle (s : Scheduler ι ω) (c : Setting ι) (b : ι) :
    (s.dispatchOne c b).idle = s.idle := by
  rw [dispatchOne]
  split <;> rfl

theorem dispatchOne_main (s : Scheduler ι ω) (c : Setting ι) (b : ι) :
    (s.dispatchOne c b).main = s.main := by
  rw [dispatchOne]
  split <;> rfl

theorem dispatchOne_inWorker (s : Scheduler ι ω) (c : Setting ι) (b a : ι) :
    (s.dispatchOne c b).inWorker a = s.inWorker a := by
  rw [dispatchOne]
  split
  · rfl
  · rw [deliver_inWorker]
    simp only [inWorker, mapBox, ActorContextManager.mapMailbox_heap]

/-- Of the actors a worker's thread changes the run queue it works off, and that from the front. -/
theorem workerStep_actors [DecidableEq ω] (s : Scheduler ι ω) (w : ω) :
    (s.workerStep w).actors = s.actors ∨
      ∃ a p rest, (s.worker w).pc = .work a ∧ (s.box a).run = p :: rest ∧
        (s.workerStep w).actors = s.actors.mapMailbox a fun b => { b with run := rest } := by
  cases hPc : (s.worker w).pc with
  | start | ran | proc a | worked a | quit =>
    refine .inl ?_
    simp only [workerStep, hPc]
    rfl
  | done => exact .inl (by simp only [workerStep, hPc])
  | wait =>
    refine .inl ?_
    simp only [workerStep, hPc]
    split <;> rfl
  | work a =>
    cases hRun : (s.box a).run with
    | nil =>
      refine .inl ?_
      simp only [workerStep, hPc, hRun]
      rfl
    | cons p rest =>
      refine .inr ⟨a, p, rest, rfl, hRun, ?_⟩
      simp only [workerStep, hPc, hRun]
      rfl

theorem userStep_actors (s : Scheduler ι ω) (w : ω)
    (f : ι → Mailbox (Option ι) → Mailbox (Option ι)) :
    (s.userStep w f).actors = s.actors ∨
      ∃ a, (s.worker w).pc = .proc a ∧ (s.userStep w f).actors = s.actors.mapMailbox a (f a) := by
  cases hPc : (s.worker w).pc with
  | proc a => exact .inr ⟨a, rfl, by simp only [userStep, hPc]; rfl⟩
  | start | wait | ran | work a | worked a | quit | done =>
    exact .inl (by simp only [userStep, hPc])

theorem workerStep_main [DecidableEq ω] (s : Scheduler ι ω) (w : ω) :
    (s.workerStep w).main = s.main := by
  cases hPc : (s.worker w).pc <;> simp only [workerStep, hPc] <;> first | rfl | (split <;> rfl)

theorem workerStep_worker [DecidableEq ω] (s : Scheduler ι ω) {w w' : ω} (h : w' ≠ w) :
    (s.workerStep w).worker w' = s.worker w' := by
  have hModify : ∀ (t : Scheduler ι ω) f, t.worker = s.worker → (t.modifyWorker w f).worker w' = s.worker w' := by
    intro t f hWorker
    rw [modifyWorker_worker, if_neg h, hWorker]
  cases hPc : (s.worker w).pc with
  | start | ran | proc a | worked a | quit =>
    simp only [workerStep, hPc]
    exact hModify s _ rfl
  | done => simp only [workerStep, hPc]
  | wait | work a =>
    simp only [workerStep, hPc]
    split
    · first | rfl | exact hModify s _ rfl
    · exact hModify _ _ rfl

theorem userStep_worker (s : Scheduler ι ω) (w : ω)
    (f : ι → Mailbox (Option ι) → Mailbox (Option ι)) : (s.userStep w f).worker = s.worker := by
  rw [userStep]
  split <;> rfl

theorem userStep_main (s : Scheduler ι ω) (w : ω)
    (f : ι → Mailbox (Option ι) → Mailbox (Option ι)) : (s.userStep w f).main = s.main := by
  rw [userStep]
  split <;> rfl

theorem userStep_idle (s : Scheduler ι ω) (w : ω)
    (f : ι → Mailbox (Option ι) → Mailbox (Option ι)) : (s.userStep w f).idle = s.idle := by
  rw [userStep]
  split <;> rfl

theorem workerStep_box [DecidableEq ω] (s : Scheduler ι ω) (w : ω) (a : ι) :
    ∃ run, (s.workerStep w).box a = { s.box a with run := run } := by
  obtain hSame | ⟨b, p, rest, -, -, hMap⟩ := workerStep_actors s w
  · exact ⟨(s.box a).run, by rw [box, hSame]; rfl⟩
  · rw [box, hMap, ActorContextManager.mapMailbox_heap]
    split
    · next hEq => exact ⟨rest, by rw [hEq]; rfl⟩
    · exact ⟨(s.box a).run, rfl⟩

theorem userStep_box (s : Scheduler ι ω) (w : ω) (f : ι → Mailbox (Option ι) → Mailbox (Option ι))
    (a : ι) : (s.userStep w f).box a = s.box a ∨
      (s.worker w).pc = .proc a ∧ (s.userStep w f).box a = f a (s.box a) := by
  obtain hSame | ⟨b, hPc, hMap⟩ := userStep_actors s w f
  · exact .inl (by rw [box, hSame]; rfl)
  · rw [box, hMap, ActorContextManager.mapMailbox_heap]
    split
    · next hEq => exact .inr ⟨hEq ▸ hPc, by rw [hEq]; rfl⟩
    · exact .inl rfl

theorem userStep_run (s : Scheduler ι ω) (w : ω) {f : ι → Mailbox (Option ι) → Mailbox (Option ι)}
    (hf : ∀ a x, (f a x).run = x.run) (a : ι) : ((s.userStep w f).box a).run = (s.box a).run := by
  obtain hBox | ⟨-, hBox⟩ := userStep_box s w f a
  · rw [hBox]
  · rw [hBox, hf]

theorem addInit_box (s : Scheduler ι ω) (c : Setting ι) (b : ι) (sent : List Msg) (a : ι) :
    ∃ more, (s.addInit c b sent).box a = { s.box a with send := (s.box a).send ++ more } := by
  rw [addInit]
  split
  · exact ⟨[], by rw [List.append_nil]; rfl⟩
  · simp only [box, mapBox, setAdder, ActorContextManager.mapMailbox_heap]
    split
    · next hEq => exact ⟨_, by rw [hEq]⟩
    · exact ⟨[], by rw [List.append_nil]⟩

theorem setRuningFlag_box (s : Scheduler ι ω) (a b : ι) (flag : Bool) :
    ({ s with actors := s.actors.setRuningFlag b flag } : Scheduler ι ω).box a = s.box a := by
  simp only [box, ActorContextManager.setRuningFlag, ActorContextManager.modify_heap]
  split
  · next hEq => rw [hEq]
  · rfl

end Contexts

end Scheduler
end Myframe
