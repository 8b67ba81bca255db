import Myframe.Library.ActorMachine
import Myframe.Library.Simulation
import Myframe.Scheduler.Rest

/-! # The scheduler is a machine of actors

Seen from the actors, threads, batches and hand-overs do not exist: an actor handles the messages that
were delivered to it one after the other, each in one step, and what it has posted goes out afterwards.
-/
namespace Myframe
set_option autoImplicit false
open ActorMachine

namespace Setting

variable {ι : Type} (c : Setting ι)

def directory : Directory where
  nodeAddr := c.nodeAddr
  hasActor name := (c.ctxs name).isSome
  hasEvent := c.hasEvent

def recipient : Delivery → Option ι
  | .actor name => c.ctxs name
  | .worker _ | .conn _ => none

/-- The actors that a dispatch puts a message into the mailboxes of, as often as it does. -/
def route (subs : MsgManager) (p : Parcel (Option ι)) : MsgManager × List ι :=
  let (subs, deliveries) := c.directory.dispatchMsg c.walk subs p.msg
  (subs, deliveries.filterMap c.recipient)

end Setting

/-- A message that a worker has passed to `Proc` and what `Proc` has posted since. -/
structure Handling (ι : Type) where
  message : Parcel (Option ι)
  posts : List (Parcel (Option ι)) := []

namespace Handling

variable {ι : Type}

def inHand (h : Option (Handling ι)) : List (Parcel (Option ι)) := h.toList.map message

def posting (h : Option (Handling ι)) : List (Parcel (Option ι)) := h.toList.flatMap posts

@[simp] theorem inHand_none : inHand (none : Option (Handling ι)) = [] := rfl

@[simp] theorem inHand_some (h : Handling ι) : inHand (some h) = [h.message] := rfl

@[simp] theorem posting_none : posting (none : Option (Handling ι)) = [] := rfl

@[simp] theorem posting_some (h : Handling ι) : posting (some h) = h.posts := by simp [posting]

end Handling

namespace Scheduler
open Handling

variable {ι ω : Type}

def arrived (_ : Scheduler ι ω) : Label ι ω → List (Parcel (Option ι))
  | .arrive m => [⟨none, m⟩]
  | _ => []

def postedOf [DecidableEq ι] (a : ι) (s : Scheduler ι ω) : Label ι ω → List (Parcel (Option ι))
  | .post w m => if (s.worker w).pc = .proc a then [⟨some a, m⟩] else []
  | _ => []

def dispatchedOf [DecidableEq ι] (a : ι) (s : Scheduler ι ω) : Label ι ω → List (Parcel (Option ι))
  | .main =>
    match s.main with
    | .dispatch _ b => if b = a then (s.box a).send.take 1 else []
    | _ => []
  | _ => []

def deliveredTo [DecidableEq ι] (c : Setting ι) (a : ι) (s : Scheduler ι ω) :
    Label ι ω → List (Parcel (Option ι))
  | .arrive m => copies c.route s.subs ⟨none, m⟩ a
  | .main =>
    match s.main with
    | .dispatch _ b => (s.box b).send.head?.toList.flatMap fun p => copies c.route s.subs p a
    | _ => []
  | _ => []

/-- What is true of every state reached between `Exec` and `Quit` when all actors were added before and
no mailbox is limited. -/
structure Orderly [DecidableEq ω] (c : Setting ι) (s : Scheduler ι ω) : Prop where
  serialized : s.Serialized
  calm : ∀ w, (s.worker w).Calm
  carried : ∀ a, (s.box a).run ≠ [] → ∃ w, s.Carries w a
  unbounded : ∀ a, (s.box a).pendingQueueSize ≤ 0
  ctxs : s.actors.ctxs = c.ctxs
  nodeAddr : s.nodeAddr = c.nodeAddr

/-- The machine state that a state of the scheduler stands for, `cur a` being what `a` is handling. -/
structure Abstracts (s : Scheduler ι ω) (cur : ι → Option (Handling ι))
    (t : Machine ι (Parcel (Option ι)) MsgManager) : Prop where
  busy : ∀ a, cur a ≠ none ↔ ∃ w, (s.worker w).pc = .proc a
  routes : t.routes = s.subs
  queue : ∀ a, t.queue a = inHand (cur a) ++ ((s.box a).run ++ (s.box a).recv)
  outbox : ∀ a, t.outbox a ++ posting (cur a) = (s.box a).send

variable [DecidableEq ι]

omit [DecidableEq ι] in
theorem directory_eq {c : Setting ι} {s : Scheduler ι ω} (hCtxs : s.actors.ctxs = c.ctxs)
    (hNode : s.nodeAddr = c.nodeAddr) : s.directory c = c.directory := by
  have hHas : s.actors.hasActor = fun name => (c.ctxs name).isSome := by
    funext name
    rw [ActorContextManager.hasActor, hCtxs]
  rw [directory, Setting.directory, hNode, hHas]

theorem foldl_deliverTo_mailbox (c : Setting ι) (p : Parcel (Option ι)) (b : ι)
    (deliveries : List Delivery) (actors : ActorContextManager ι (Option ι)) (hCtxs : actors.ctxs = c.ctxs)
    (hUnbounded : (actors.heap b).mailbox.pendingQueueSize ≤ 0) :
    ((deliveries.foldl (deliverTo p) actors).heap b).mailbox =
      { (actors.heap b).mailbox with
        recv := (actors.heap b).mailbox.recv ++
          List.replicate ((deliveries.filterMap c.recipient).count b) p } := by
  induction deliveries generalizing actors with
  | nil => simp
  | cons d ds ih =>
    cases d with
    | actor name =>
      have hKeep : (actors.dispatchMsg name p).ctxs = c.ctxs :=
        (ActorContextManager.dispatchMsg_ctxs actors name p).trans hCtxs
      have hMailbox := ActorContextManager.dispatchMsg_mailbox actors name p b
      rw [List.foldl_cons, deliverTo, ih _ hKeep]
      · rw [hMailbox, hCtxs, List.filterMap_cons, Setting.recipient]
        cases hName : c.ctxs name with
        | none => simp
        | some a =>
          obtain rfl | hNe := eq_or_ne a b
          · obtain ⟨recv, hReceive⟩ := (actors.heap a).mailbox.receive_eq p
            have hRecv := Mailbox.receive_recv_of_nonpos hUnbounded p
            rw [hReceive] at hRecv
            rw [if_pos rfl, hReceive]
            dsimp only at hRecv ⊢
            rw [hRecv, List.count_cons_self, List.append_assoc, List.singleton_append, List.replicate_succ]
          · rw [if_neg (by simpa using hNe)]
            simp [hNe]
      · rw [hMailbox]
        split
        · rwa [Mailbox.receive_pendingQueueSize]
        · exact hUnbounded
    | worker name | conn name =>
      rw [List.foldl_cons, deliverTo, ih _ hCtxs hUnbounded]
      rfl

variable [DecidableEq ω]

omit [DecidableEq ω] in
theorem deliver_subs {c : Setting ι} {s : Scheduler ι ω} (hCtxs : s.actors.ctxs = c.ctxs)
    (hNode : s.nodeAddr = c.nodeAddr) (p : Parcel (Option ι)) :
    (s.deliver c p).subs = (c.route s.subs p).1 := by
  simp only [deliver, directory_eq hCtxs hNode]
  rfl

omit [DecidableEq ω] in
/-- A dispatch adds to each mailbox the copies that the routing asks for. -/
theorem deliver_copies {c : Setting ι} {s : Scheduler ι ω} (hCtxs : s.actors.ctxs = c.ctxs)
    (hNode : s.nodeAddr = c.nodeAddr) {b : ι} (hUnbounded : (s.box b).pendingQueueSize ≤ 0)
    (p : Parcel (Option ι)) :
    (s.deliver c p).box b = { s.box b with recv := (s.box b).recv ++ copies c.route s.subs p b } := by
  simp only [deliver, directory_eq hCtxs hNode, box]
  exact foldl_deliverTo_mailbox c p b _ s.actors hCtxs hUnbounded

theorem mainStep_pc (s : Scheduler ι ω) (c : Setting ι) (w : ω) :
    ((s.mainStep c).worker w).pc = (s.worker w).pc := by
  have hUpdate : ∀ (t : Scheduler ι ω) (w' : ω) (x : CommonWorker ι),
      t.worker = Function.update s.worker w' x → x.pc = (s.worker w').pc →
      (t.worker w).pc = (s.worker w).pc := by
    intro t w' x hWorker hPc
    rw [hWorker, Function.update_apply]
    split
    · next hEq => rw [hPc, hEq]
    · rfl
  simp only [mainStep]
  split
  · rfl
  · split <;> rfl
  · split <;> rfl
  · split <;> rfl
  · exact hUpdate _ _ _ rfl rfl
  · split <;> rfl
  · exact hUpdate _ _ _ rfl rfl
  · split
    · rfl
    · rw [dispatchOne_worker]
  · split
    · rfl
    · split
      · exact hUpdate _ _ _ (Function.update_idem ..) (by simp [modifyWorker])
      · exact hUpdate _ _ _ (Function.update_idem ..) (by simp [modifyWorker])
      · exact hUpdate _ _ _ rfl rfl

theorem next_nodeAddr {s : Scheduler ι ω} (c : Setting ι) {l : Label ι ω} (hAdd : ¬ l.IsAdd) :
    (s.next c l).nodeAddr = s.nodeAddr := by
  cases l with
  | check | arrive m | quit w => rfl
  | event w =>
    simp only [next, event]
    split <;> rfl
  | main =>
    simp only [next, mainStep]
    split
    · rfl
    · split <;> rfl
    · split <;> rfl
    · split <;> rfl
    · rfl
    · split <;> rfl
    · rfl
    · split
      · rfl
      · rw [dispatchOne]
        split <;> rfl
    · split
      · rfl
      · split <;> rfl
  | worker w =>
    cases hPc : (s.worker w).pc <;> simp only [next, workerStep, hPc] <;> first | rfl | (split <;> rfl)
  | post w m | setRunQueueSize w n =>
    simp only [next, userStep]
    split <;> rfl
  | addInit a sent | addRegister a | addClear a | addDispatch a => exact absurd trivial hAdd

theorem Orderly.next {c : Setting ι} {s : Scheduler ι ω} (h : s.Orderly c) {l : Label ι ω}
    (hEnabled : s.enabled l) (hAdd : ¬ l.IsAdd) (hQuit : ¬ l.IsQuit) : (s.next c l).Orderly c where
  serialized := h.serialized.next c l hEnabled (addsApart_of_not_isAdd hAdd)
  calm := calm_next h.serialized h.calm c hAdd hQuit
  carried a := carried_next h.serialized h.calm (h.carried a) c hEnabled hAdd hQuit
  unbounded a := by rw [(next_box c hAdd a).pendingQueueSize]; exact h.unbounded a
  ctxs := by rw [next_ctxs c hAdd]; exact h.ctxs
  nodeAddr := by rw [next_nodeAddr c hAdd]; exact h.nodeAddr

omit [DecidableEq ι] in
theorem Orderly.initial {c : Setting ι} (hUnbounded : ∀ a, c.pendingQueueSize a ≤ 0) :
    (initial c : Scheduler ι ω).Orderly c where
  serialized := Serialized.initial c
  calm _ := ⟨by rintro ⟨⟩, by rintro ⟨⟩, rfl, List.not_mem_nil⟩
  carried _ hRun := absurd rfl hRun
  unbounded := hUnbounded
  ctxs := rfl
  nodeAddr := rfl

/-- What the machine does where the scheduler takes a step, if it does anything. -/
structure Answers (c : Setting ι) (s : Scheduler ι ω) (l : Label ι ω) (cur cur' : ι → Option (Handling ι))
    (t : Machine ι (Parcel (Option ι)) MsgManager) (acts : List (Act ι (Parcel (Option ι)))) : Prop where
  runs : (machine c.route).Runs t acts
  abstracts : (s.next c l).Abstracts cur' ((machine c.route).exec t acts)
  handed : ∀ a, inHand (cur a) ++ s.handedTo a l =
    (machine c.route).emitted (Machine.handled a) t acts ++ inHand (cur' a)
  posted : ∀ a, posting (cur a) ++ s.postedOf a l =
    (machine c.route).emitted (Machine.posted a) t acts ++ posting (cur' a)
  delivered : ∀ a, s.deliveredTo c a l = (machine c.route).emitted (Machine.delivered c.route a) t acts
  dispatched : ∀ a, s.dispatchedOf a l = (machine c.route).emitted (Machine.flushed a) t acts
  arrived : s.arrived l = (machine c.route).emitted Machine.arrived t acts

variable {c : Setting ι} {s : Scheduler ι ω} {l : Label ι ω} {cur : ι → Option (Handling ι)}
  {t : Machine ι (Parcel (Option ι)) MsgManager}

/-- Steps of which an actor does not see anything. -/
theorem answers_nil (h : s.Abstracts cur t)
    (hBusy : ∀ a, (∃ w, ((s.next c l).worker w).pc = .proc a) ↔ ∃ w, (s.worker w).pc = .proc a)
    (hSubs : (s.next c l).subs = s.subs)
    (hQueue : ∀ a, ((s.next c l).box a).run ++ ((s.next c l).box a).recv = (s.box a).run ++ (s.box a).recv)
    (hSend : ∀ a, ((s.next c l).box a).send = (s.box a).send)
    (hHanded : ∀ a, s.handedTo a l = []) (hPosted : ∀ a, s.postedOf a l = [])
    (hDelivered : ∀ a, s.deliveredTo c a l = []) (hDispatched : ∀ a, s.dispatchedOf a l = [])
    (hArrived : s.arrived l = []) : Answers c s l cur cur t [] where
  runs := List.forall_mem_nil _
  abstracts :=
    { busy := fun a => (h.busy a).trans (hBusy a).symm
      routes := h.routes.trans hSubs.symm
      queue := fun a => by rw [hQueue]; exact h.queue a
      outbox := fun a => by rw [hSend]; exact h.outbox a }
  handed a := by rw [hHanded, List.append_nil]; rfl
  posted a := by rw [hPosted, List.append_nil]; rfl
  delivered := hDelivered
  dispatched := hDispatched
  arrived := hArrived

theorem answers_arrive (hInv : s.Orderly c) (h : s.Abstracts cur t) (m : Msg) :
    Answers c s (.arrive m) cur cur t [.arrive ⟨none, m⟩] := by
  have hBox := fun b => deliver_copies hInv.ctxs hInv.nodeAddr (hInv.unbounded b) ⟨none, m⟩
  constructor
  · exact (machine c.route).runs_singleton.mpr trivial
  · constructor
    · exact h.busy
    · rw [Scheduler.next, deliver_subs hInv.ctxs hInv.nodeAddr, ← h.routes]
      rfl
    · intro b
      rw [Scheduler.next, hBox, ← List.append_assoc (s.box b).run, ← List.append_assoc (inHand _), ← h.queue b,
        ← h.routes]
      rfl
    · intro b
      rw [Scheduler.next, hBox]
      exact h.outbox b
  · intro b
    rw [(machine c.route).emitted_singleton]
    exact List.append_nil _
  · intro b
    rw [(machine c.route).emitted_singleton]
    exact List.append_nil _
  · intro b
    rw [(machine c.route).emitted_singleton, Machine.delivered, h.routes]
    rfl
  · intro b
    rw [(machine c.route).emitted_singleton]
    rfl
  · rw [(machine c.route).emitted_singleton]
    rfl

omit [DecidableEq ι] in
/-- The main loop dispatches what an actor has posted only when no worker executes the actor. -/
theorem Orderly.cur_eq_none_of_dispatch (hInv : s.Orderly c) (h : s.Abstracts cur t) {w : ω} {a : ι}
    (hMain : s.main = .dispatch w a) : cur a = none := by
  by_contra hBusy
  obtain ⟨w', hPc⟩ := (h.busy a).mp hBusy
  have hExec : (s.worker w').executing = some a := by rw [CommonWorker.executing, hPc]
  exact hInv.serialized.serial.apart w' a hExec (by rw [hMain]; rfl)

theorem answers_flush (hInv : s.Orderly c) (h : s.Abstracts cur t) {w : ω} {a : ι}
    {p : Parcel (Option ι)} {rest : List (Parcel (Option ι))} (hMain : s.main = .dispatch w a)
    (hSend : (s.box a).send = p :: rest) : Answers c s .main cur cur t [.flush a] := by
  have hIdle : cur a = none := hInv.cur_eq_none_of_dispatch h hMain
  have hOutbox : t.outbox a = p :: rest := by
    have hOut := h.outbox a
    rwa [hIdle, posting_none, List.append_nil, hSend] at hOut
  have hNext : s.next c .main = (s.mapBox a fun x => { x with send := rest }).deliver c p := by
    simp only [Scheduler.next, mainStep, hMain, hSend, dispatchOne]
  have hPopped : ∀ b, (s.mapBox a fun x => { x with send := rest }).box b =
      { s.box b with send := if b = a then rest else (s.box b).send } := by
    intro b
    rw [mapBox_box]
    split
    · next hEq => rw [hEq]
    · rfl
  have hBox : ∀ b, (s.next c .main).box b =
      { s.box b with
        send := if b = a then rest else (s.box b).send
        recv := (s.box b).recv ++ copies c.route s.subs p b } := by
    intro b
    rw [hNext, deliver_copies (s := s.mapBox a fun x => { x with send := rest }) hInv.ctxs hInv.nodeAddr
      (by rw [hPopped]; exact hInv.unbounded b), hPopped]
    rfl
  have hStep : (machine c.route).exec t [.flush a] =
      { t with outbox := Function.update t.outbox a rest }.deliver c.route p := by
    change t.next c.route (.flush a) = _
    simp only [Machine.next, hOutbox]
  constructor
  · refine (machine c.route).runs_singleton.mpr ?_
    change t.outbox a ≠ []
    rw [hOutbox]
    exact List.cons_ne_nil p rest
  · rw [hStep]
    constructor
    · intro b
      rw [h.busy b]
      simp only [Scheduler.next, mainStep_pc]
    · rw [hNext, deliver_subs (s := s.mapBox a fun x => { x with send := rest }) hInv.ctxs hInv.nodeAddr]
      change (c.route t.routes p).1 = (c.route s.subs p).1
      rw [h.routes]
    · intro b
      rw [hBox, ← List.append_assoc (s.box b).run, ← List.append_assoc (inHand _), ← h.queue b, ← h.routes]
      rfl
    · intro b
      rw [hBox]
      change Function.update t.outbox a rest b ++ posting (cur b) = _
      obtain rfl | hNe := eq_or_ne b a
      · rw [Function.update_self, hIdle, posting_none, List.append_nil, if_pos rfl]
      · rw [Function.update_of_ne hNe, if_neg hNe]
        exact h.outbox b
  · intro b
    rw [(machine c.route).emitted_singleton]
    exact List.append_nil _
  · intro b
    rw [(machine c.route).emitted_singleton]
    exact List.append_nil _
  · intro b
    rw [(machine c.route).emitted_singleton, Machine.delivered, h.routes]
    simp only [deliveredTo, hMain, hSend, hOutbox]
  · intro b
    rw [(machine c.route).emitted_singleton]
    simp only [dispatchedOf, hMain, Machine.flushed]
    split
    · next hEq => rw [← hEq, hOutbox, hSend]
    · rfl
  · rw [(machine c.route).emitted_singleton]
    rfl

omit [DecidableEq ι] in
/-- Where a worker takes a message out of the run queue the actor is handling none. -/
theorem Orderly.cur_eq_none_of_work (hInv : s.Orderly c) (h : s.Abstracts cur t) {w : ω} {a : ι}
    (hPc : (s.worker w).pc = .work a) : cur a = none := by
  by_contra hBusy
  obtain ⟨w', hPc'⟩ := (h.busy a).mp hBusy
  have hExec : (s.worker w).executing = some a := by rw [CommonWorker.executing, hPc]
  have hExec' : (s.worker w').executing = some a := by rw [CommonWorker.executing, hPc']
  obtain rfl := hInv.serialized.serial.one w w' a hExec hExec'
  cases hPc.symm.trans hPc'

theorem answers_begin (hInv : s.Orderly c) (h : s.Abstracts cur t) {w : ω} {a : ι}
    {p : Parcel (Option ι)} {rest : List (Parcel (Option ι))} (hPc : (s.worker w).pc = .work a)
    (hRun : (s.box a).run = p :: rest) :
    Answers c s (.worker w) cur (Function.update cur a (some { message := p })) t [] := by
  have hIdle : cur a = none := hInv.cur_eq_none_of_work h hPc
  have hNext : s.next c (.worker w) =
      (s.mapBox a fun x => { x with run := rest }).modifyWorker w fun x => { x with pc := .proc a } := by
    simp only [Scheduler.next, workerStep, hPc, hRun]
  have hBox : ∀ b, (s.next c (.worker w)).box b =
      { s.box b with run := if b = a then rest else (s.box b).run } := by
    intro b
    rw [hNext]
    change (s.mapBox a fun x => { x with run := rest }).box b = _
    rw [mapBox_box]
    split
    · next hEq => rw [hEq]
    · rfl
  have hPcs : ∀ w', ((s.next c (.worker w)).worker w').pc = if w' = w then .proc a else (s.worker w').pc := by
    intro w'
    rw [hNext, modifyWorker_worker]
    split <;> rfl
  constructor
  · exact List.forall_mem_nil _
  · constructor
    · intro b
      simp only [hPcs]
      obtain rfl | hNe := eq_or_ne b a
      · rw [Function.update_self]
        exact ⟨fun _ => ⟨w, if_pos rfl⟩, fun _ => Option.some_ne_none _⟩
      · rw [Function.update_of_ne hNe, h.busy b]
        constructor
        · rintro ⟨w', hw'⟩
          refine ⟨w', ?_⟩
          rw [if_neg]
          · exact hw'
          · rintro rfl
            cases hPc.symm.trans hw'
        · rintro ⟨w', hw'⟩
          refine ⟨w', ?_⟩
          split at hw'
          · exact absurd (WorkerPc.proc.inj hw').symm hNe
          · exact hw'
    · rw [hNext]
      exact h.routes
    · intro b
      rw [hBox]
      change t.queue b = _
      rw [h.queue b]
      obtain rfl | hNe := eq_or_ne b a
      · rw [Function.update_self, hIdle, if_pos rfl, hRun]
        rfl
      · rw [Function.update_of_ne hNe, if_neg hNe]
    · intro b
      rw [hBox]
      change t.outbox b ++ _ = (s.box b).send
      rw [← h.outbox b]
      obtain rfl | hNe := eq_or_ne b a
      · rw [Function.update_self, hIdle]
        rfl
      · rw [Function.update_of_ne hNe]
  · intro b
    change inHand (cur b) ++ (if (s.worker w).pc = .work b then (s.box b).run.take 1 else []) = _
    obtain rfl | hNe := eq_or_ne b a
    · rw [Function.update_self, hIdle, if_pos hPc, hRun]
      rfl
    · rw [Function.update_of_ne hNe, if_neg, List.append_nil]
      · rfl
      · exact fun hEq => hNe (WorkerPc.work.inj (hPc.symm.trans hEq)).symm
  · intro b
    change posting (cur b) ++ [] = posting (Function.update cur a (some { message := p }) b)
    rw [List.append_nil]
    obtain rfl | hNe := eq_or_ne b a
    · rw [Function.update_self, hIdle]
      rfl
    · rw [Function.update_of_ne hNe]
  · exact fun _ => rfl
  · exact fun _ => rfl
  · rfl

theorem answers_end (hInv : s.Orderly c) (h : s.Abstracts cur t) {w : ω} {a : ι}
    (hPc : (s.worker w).pc = .proc a) {current : Handling ι} (hCur : cur a = some current) :
    Answers c s (.worker w) cur (Function.update cur a none) t [.handle a current.posts] := by
  have hNext : s.next c (.worker w) = s.modifyWorker w fun x => { x with pc := .work a } := by
    simp only [Scheduler.next, workerStep, hPc]
  have hPcs : ∀ w', ((s.next c (.worker w)).worker w').pc = if w' = w then .work a else (s.worker w').pc := by
    intro w'
    rw [hNext, modifyWorker_worker]
    split <;> rfl
  have hQueue : t.queue a = current.message :: ((s.box a).run ++ (s.box a).recv) := by
    rw [h.queue a, hCur, inHand_some, List.singleton_append]
  have hStep : (machine c.route).exec t [.handle a current.posts] =
      { t with
        queue := Function.update t.queue a (t.queue a).tail
        outbox := Function.update t.outbox a (t.outbox a ++ current.posts) } := rfl
  constructor
  · refine (machine c.route).runs_singleton.mpr ?_
    change t.queue a ≠ []
    rw [hQueue]
    exact List.cons_ne_nil _ _
  · rw [hStep]
    constructor
    · intro b
      simp only [hPcs]
      obtain rfl | hNe := eq_or_ne b a
      · rw [Function.update_self]
        refine ⟨fun hNe => absurd rfl hNe, ?_⟩
        rintro ⟨w', hw'⟩
        split at hw'
        · cases hw'
        · next hOther =>
          have hExec : (s.worker w).executing = some b := by rw [CommonWorker.executing, hPc]
          have hExec' : (s.worker w').executing = some b := by rw [CommonWorker.executing, hw']
          exact absurd (hInv.serialized.serial.one w' w b hExec' hExec) hOther
      · rw [Function.update_of_ne hNe, h.busy b]
        constructor
        · rintro ⟨w', hw'⟩
          refine ⟨w', ?_⟩
          rw [if_neg]
          · exact hw'
          · rintro rfl
            exact hNe (WorkerPc.proc.inj (hPc.symm.trans hw')).symm
        · rintro ⟨w', hw'⟩
          refine ⟨w', ?_⟩
          split at hw'
          · cases hw'
          · exact hw'
    · rw [hNext]
      exact h.routes
    · intro b
      rw [hNext]
      change Function.update t.queue a (t.queue a).tail b = _
      obtain rfl | hNe := eq_or_ne b a
      · rw [Function.update_self, Function.update_self, hQueue]
        rfl
      · rw [Function.update_of_ne hNe, Function.update_of_ne hNe]
        exact h.queue b
    · intro b
      rw [hNext]
      change Function.update t.outbox a (t.outbox a ++ current.posts) b ++ _ = (s.box b).send
      rw [← h.outbox b]
      obtain rfl | hNe := eq_or_ne b a
      · rw [Function.update_self, Function.update_self, hCur, posting_none, List.append_nil, posting_some]
      · rw [Function.update_of_ne hNe, Function.update_of_ne hNe]
  · intro b
    rw [(machine c.route).emitted_singleton]
    change inHand (cur b) ++ (if (s.worker w).pc = .work b then (s.box b).run.take 1 else []) =
      (if a = b then (t.queue b).take 1 else []) ++ _
    have hNotWork : (s.worker w).pc ≠ .work b := by
      rw [hPc]
      rintro ⟨⟩
    rw [if_neg hNotWork, List.append_nil]
    obtain rfl | hNe := eq_or_ne b a
    · rw [Function.update_self, if_pos rfl, hQueue, hCur]
      rfl
    · rw [Function.update_of_ne hNe, if_neg hNe.symm, List.nil_append]
  · intro b
    rw [(machine c.route).emitted_singleton]
    change posting (cur b) ++ [] = (if a = b then current.posts else []) ++ _
    rw [List.append_nil]
    obtain rfl | hNe := eq_or_ne b a
    · rw [Function.update_self, if_pos rfl, hCur, posting_some, posting_none, List.append_nil]
    · rw [Function.update_of_ne hNe, if_neg hNe.symm, List.nil_append]
  · intro b
    rw [(machine c.route).emitted_singleton]
    rfl
  · intro b
    rw [(machine c.route).emitted_singleton]
    rfl
  · rw [(machine c.route).emitted_singleton]
    rfl

theorem answers_post (h : s.Abstracts cur t) {w : ω} {a : ι} (m : Msg) (hPc : (s.worker w).pc = .proc a)
    {current : Handling ι} (hCur : cur a = some current) :
    Answers c s (.post w m) cur
      (Function.update cur a (some { current with posts := current.posts ++ [⟨some a, m⟩] })) t [] := by
  have hNext : s.next c (.post w m) = s.mapBox a fun b => b.push ⟨some a, m⟩ := by
    simp only [Scheduler.next, userStep, hPc]
  have hBox : ∀ b, (s.next c (.post w m)).box b =
      { s.box b with send := (s.box b).send ++ if b = a then [⟨some a, m⟩] else [] } := by
    intro b
    rw [hNext, mapBox_box]
    split
    · next hEq => rw [hEq]; rfl
    · rw [List.append_nil]
  constructor
  · exact List.forall_mem_nil _
  · constructor
    · intro b
      rw [hNext]
      obtain rfl | hNe := eq_or_ne b a
      · rw [Function.update_self]
        exact ⟨fun _ => ⟨w, hPc⟩, fun _ => Option.some_ne_none _⟩
      · rw [Function.update_of_ne hNe]
        exact h.busy b
    · rw [hNext]
      exact h.routes
    · intro b
      rw [hBox]
      change t.queue b = _
      rw [h.queue b]
      obtain rfl | hNe := eq_or_ne b a
      · rw [Function.update_self, hCur]
        rfl
      · rw [Function.update_of_ne hNe]
    · intro b
      rw [hBox]
      change t.outbox b ++ _ = (s.box b).send ++ _
      rw [← h.outbox b, List.append_assoc]
      obtain rfl | hNe := eq_or_ne b a
      · rw [Function.update_self, hCur, if_pos rfl, posting_some, posting_some]
      · rw [Function.update_of_ne hNe, if_neg hNe, List.append_nil]
  · intro b
    change inHand (cur b) ++ [] = inHand (Function.update cur a _ b)
    rw [List.append_nil]
    obtain rfl | hNe := eq_or_ne b a
    · rw [Function.update_self, hCur]
      rfl
    · rw [Function.update_of_ne hNe]
  · intro b
    change posting (cur b) ++ (if (s.worker w).pc = .proc b then [⟨some b, m⟩] else []) =
      posting (Function.update cur a _ b)
    obtain rfl | hNe := eq_or_ne b a
    · rw [Function.update_self, hCur, if_pos hPc, posting_some, posting_some]
    · rw [Function.update_of_ne hNe, if_neg, List.append_nil]
      exact fun hEq => hNe (WorkerPc.proc.inj (hPc.symm.trans hEq)).symm
  · exact fun _ => rfl
  · exact fun _ => rfl
  · rfl

theorem answers_main (hInv : s.Orderly c) (h : s.Abstracts cur t) :
    ∃ acts, Answers c s .main cur cur t acts := by
  have hBusy : ∀ a, (∃ w, ((s.next c .main).worker w).pc = .proc a) ↔ ∃ w, (s.worker w).pc = .proc a := by
    simp only [Scheduler.next, mainStep_pc, implies_true]
  -- outside `DispatchMsg` the main loop neither takes nor gives anything
  have hQuiet : (∀ w a, s.main ≠ .dispatch w a) → (s.mainStep c).subs = s.subs →
      (∀ a, ((s.mainStep c).box a).run ++ ((s.mainStep c).box a).recv = (s.box a).run ++ (s.box a).recv) →
      (∀ a, ((s.mainStep c).box a).send = (s.box a).send) → ∃ acts, Answers c s .main cur cur t acts := by
    intro hNot hSubs hQueue hSend
    refine ⟨[], answers_nil h hBusy hSubs hQueue hSend (fun _ => rfl) (fun _ => rfl) (fun a => ?_) (fun a => ?_) rfl⟩
    · cases hMain : s.main <;> simp_all [deliveredTo]
    · cases hMain : s.main <;> simp_all [dispatchedOf]
  have hKept : (∀ w a, s.main ≠ .dispatch w a) → (s.mainStep c).subs = s.subs →
      (∀ a, (s.mainStep c).box a = s.box a) → ∃ acts, Answers c s .main cur cur t acts := fun hNot hSubs hBox =>
    hQuiet hNot hSubs (fun a => by rw [hBox]) fun a => by rw [hBox]
  cases hMain : s.main with
  | dispatch w a =>
    cases hSend : (s.box a).send with
    | cons p rest => exact ⟨_, answers_flush hInv h hMain hSend⟩
    | nil =>
      have hSame : s.mainStep c = { s with main := .receive w } := by simp only [mainStep, hMain, hSend]
      refine ⟨[], answers_nil h hBusy ?_ ?_ ?_ (fun _ => rfl) (fun _ => rfl) (fun b => ?_) (fun b => ?_) rfl⟩
      · rw [Scheduler.next, hSame]
      · intro b
        rw [Scheduler.next, hSame]
        rfl
      · intro b
        rw [Scheduler.next, hSame]
        rfl
      · simp [deliveredTo, hMain, hSend]
      · simp only [dispatchedOf, hMain]
        split
        · next hEq => rw [← hEq, hSend]; rfl
        · rfl
  | select w a =>
    have hEmpty : (s.box a).run = [] := run_eq_nil_of_select hInv.serialized (hInv.carried a) hMain
    have hBox : ∀ b, (s.mainStep c).box b = s.box b ∨ b = a ∧ (s.mainStep c).box b = (s.box b).moveToRun := by
      intro b
      simp only [mainStep, hMain]
      split
      · exact .inl rfl
      · have hMapped := mapBox_box s a b Mailbox.moveToRun
        split at hMapped
        · next hEq => exact .inr ⟨hEq, hMapped.trans (hEq ▸ rfl)⟩
        · exact .inl hMapped
    refine hQuiet (by rw [hMain]; rintro _ _ ⟨⟩) ?_ (fun b => ?_) fun b => ?_
    · simp only [mainStep, hMain]
      split <;> rfl
    · obtain hSame | ⟨rfl, hMoved⟩ := hBox b
      · rw [hSame]
      · rw [hMoved, Mailbox.moveToRun_run_recv hEmpty, hEmpty, List.nil_append]
    · obtain hSame | ⟨rfl, hMoved⟩ := hBox b
      · rw [hSame]
      · rw [hMoved, Mailbox.moveToRun_send]
  | loop =>
    have hSame : s.mainStep c = s := by simp only [mainStep, hMain]
    exact hKept (by rw [hMain]; rintro _ _ ⟨⟩) (by rw [hSame]) fun b => by rw [hSame]
  | check =>
    refine hKept (by rw [hMain]; rintro _ _ ⟨⟩) ?_ fun b => ?_ <;> simp only [mainStep, hMain] <;> split <;> rfl
  | front w =>
    have hFront := ActorContextManager.getContextWithMsg_mailbox s.actors
    refine hKept (by rw [hMain]; rintro _ _ ⟨⟩) ?_ fun b => ?_ <;> simp only [mainStep, hMain]
    · split <;> rfl
    · split <;> next hTake =>
        rw [hTake] at hFront
        exact hFront b
  | requeue w a =>
    refine hKept (by rw [hMain]; rintro _ _ ⟨⟩) ?_ fun b => ?_ <;> simp only [mainStep, hMain]
    · split <;> rfl
    · split
      · rfl
      · exact ActorContextManager.pushContext_mailbox s.actors a b
  | assign w a | send w =>
    refine hKept (by rw [hMain]; rintro _ _ ⟨⟩) ?_ fun b => ?_ <;> simp only [mainStep, hMain] <;> rfl
  | receive w =>
    refine hKept (by rw [hMain]; rintro _ _ ⟨⟩) ?_ fun b => ?_ <;> simp only [mainStep, hMain] <;> split
    · rfl
    · split <;> rfl
    · rfl
    · split <;> rfl

theorem answers_worker (hInv : s.Orderly c) (h : s.Abstracts cur t) (w : ω) :
    ∃ acts cur', Answers c s (.worker w) cur cur' t acts := by
  -- the thread is between two messages before and after the step
  have hQuiet : (∀ a, (s.worker w).pc ≠ .proc a) → (∀ a, ((s.workerStep w).worker w).pc ≠ .proc a) →
      (s.workerStep w).actors = s.actors → (∀ a, s.handedTo a (.worker w) = []) →
      ∃ acts cur', Answers c s (.worker w) cur cur' t acts := by
    intro hBefore hAfter hActors hHanded
    have hBox : ∀ a, (s.workerStep w).box a = s.box a := fun a => by rw [box, hActors, box]
    refine ⟨[], cur, answers_nil h (fun a => ?_) ?_ (fun a => ?_) (fun a => ?_) hHanded (fun _ => rfl)
      (fun _ => rfl) (fun _ => rfl) rfl⟩
    · refine exists_congr fun w' => ?_
      obtain rfl | hNe := eq_or_ne w' w
      · exact ⟨fun hw' => absurd hw' (hAfter a), fun hw' => absurd hw' (hBefore a)⟩
      · rw [Scheduler.next, workerStep_worker s hNe]
    · cases hPc : (s.worker w).pc <;>
        simp only [Scheduler.next, workerStep, hPc] <;> first | rfl | (split <;> rfl)
    · rw [Scheduler.next, hBox]
    · rw [Scheduler.next, hBox]
  cases hPc : (s.worker w).pc with
  | proc a =>
    obtain ⟨current, hCur⟩ := Option.ne_none_iff_exists'.mp ((h.busy a).mpr ⟨w, hPc⟩)
    exact ⟨_, _, answers_end hInv h hPc hCur⟩
  | work a =>
    cases hRun : (s.box a).run with
    | cons p rest => exact ⟨_, _, answers_begin hInv h hPc hRun⟩
    | nil =>
      refine hQuiet ?_ ?_ ?_ fun b => ?_
      · rw [hPc]
        rintro _ ⟨⟩
      · simp [workerStep, hPc, hRun]
      · simp only [workerStep, hPc, hRun]
        rfl
      · simp only [handedTo, hPc]
        split
        · next hEq =>
          obtain rfl := WorkerPc.work.inj hEq
          rw [hRun]
          rfl
        · rfl
  | start | worked a | quit | done =>
    have hActors := (workerStep_actors s w).resolve_right (by simp [hPc])
    refine hQuiet ?_ ?_ hActors fun b => ?_
    · rw [hPc]
      rintro _ ⟨⟩
    · simp [workerStep, hPc]
    · simp [handedTo, hPc]
  | wait =>
    refine hQuiet ?_ ?_ ?_ fun b => ?_
    · rw [hPc]
      rintro _ ⟨⟩
    · intro a
      simp only [workerStep, hPc]
      split
      · simp [hPc]
      · simp only [modifyWorker_worker, if_true]
        split <;> rintro ⟨⟩
    · simp only [workerStep, hPc]
      split <;> rfl
    · simp [handedTo, hPc]
  | ran =>
    refine hQuiet ?_ ?_ ?_ fun b => ?_
    · rw [hPc]
      rintro _ ⟨⟩
    · intro a
      simp only [workerStep, hPc, modifyWorker_worker, if_true]
      split <;> rintro ⟨⟩
    · simp only [workerStep, hPc]
      rfl
    · simp [handedTo, hPc]

/-- Every step of the scheduler is a step of the machine or none. -/
theorem exists_answers (hInv : s.Orderly c) (h : s.Abstracts cur t) (hEnabled : s.enabled l)
    (hAdd : ¬ l.IsAdd) (hQuit : ¬ l.IsQuit) : ∃ acts cur', Answers c s l cur cur' t acts := by
  cases l with
  | check =>
    exact ⟨[], cur, answers_nil h (fun _ => Iff.rfl) rfl (fun _ => rfl) (fun _ => rfl) (fun _ => rfl) (fun _ => rfl)
      (fun _ => rfl) (fun _ => rfl) rfl⟩
  | event w =>
    have hBox : ∀ a, (s.event w).box a = s.box a := by
      intro a
      rw [event]
      split
      · rfl
      · exact setRuningFlag_box s a _ false
    refine ⟨[], cur, answers_nil h (fun a => ?_) ?_ (fun a => ?_) (fun a => ?_) (fun _ => rfl) (fun _ => rfl)
      (fun _ => rfl) (fun _ => rfl) rfl⟩
    · simp only [Scheduler.next, event]
      split <;> exact Iff.rfl
    · simp only [Scheduler.next, event]
      split <;> rfl
    · rw [Scheduler.next, hBox]
    · rw [Scheduler.next, hBox]
  | arrive m => exact ⟨_, cur, answers_arrive hInv h m⟩
  | main =>
    obtain ⟨acts, hActs⟩ := answers_main hInv h
    exact ⟨acts, cur, hActs⟩
  | worker w => exact answers_worker hInv h w
  | post w m =>
    rw [enabled] at hEnabled
    cases hPc : (s.worker w).pc with
    | proc a =>
      obtain ⟨current, hCur⟩ := Option.ne_none_iff_exists'.mp ((h.busy a).mpr ⟨w, hPc⟩)
      exact ⟨_, _, answers_post h m hPc hCur⟩
    | start | wait | ran | work a | worked a | quit | done =>
      rw [hPc] at hEnabled
      cases hEnabled
  | setRunQueueSize w n =>
    have hBox : ∀ a, ((s.next c (.setRunQueueSize w n)).box a).run = (s.box a).run ∧
        ((s.next c (.setRunQueueSize w n)).box a).recv = (s.box a).recv ∧
          ((s.next c (.setRunQueueSize w n)).box a).send = (s.box a).send := by
      intro a
      obtain hSame | ⟨-, hSet⟩ := userStep_box s w (fun _ b => { b with runQueueSize := n }) a
      · rw [Scheduler.next, hSame]
        exact ⟨rfl, rfl, rfl⟩
      · rw [Scheduler.next, hSet]
        exact ⟨rfl, rfl, rfl⟩
    refine ⟨[], cur, answers_nil h (fun a => ?_) ?_ (fun a => ?_) (fun a => (hBox a).2.2) (fun _ => rfl)
      (fun _ => rfl) (fun _ => rfl) (fun _ => rfl) rfl⟩
    · rw [Scheduler.next, userStep_worker]
    · simp only [Scheduler.next, userStep]
      split <;> rfl
    · rw [(hBox a).1, (hBox a).2.1]
  | quit w => exact absurd trivial hQuit
  | addInit a sent | addRegister a | addClear a | addDispatch a => exact absurd trivial hAdd

/-- The run `acts` of the machine has done the same as the run `ls` of the scheduler, but for what the
actors are just handling. -/
structure Follows (c : Setting ι) (cur : ι → Option (Handling ι)) (ls : List (Label ι ω))
    (acts : List (Act ι (Parcel (Option ι)))) : Prop where
  abstracts : ((system c).exec (initial c) ls).Abstracts cur ((machine c.route).exec { routes := .empty } acts)
  handed : ∀ a, (system c).emitted (handedTo a) (initial c) ls =
    (machine c.route).emitted (Machine.handled a) { routes := .empty } acts ++ inHand (cur a)
  posted : ∀ a, (system c).emitted (postedOf a) (initial c) ls =
    (machine c.route).emitted (Machine.posted a) { routes := .empty } acts ++ posting (cur a)
  delivered : ∀ a, (system c).emitted (deliveredTo c a) (initial c) ls =
    (machine c.route).emitted (Machine.delivered c.route a) { routes := .empty } acts
  dispatched : ∀ a, (system c).emitted (dispatchedOf a) (initial c) ls =
    (machine c.route).emitted (Machine.flushed a) { routes := .empty } acts
  arrived : (system c).emitted arrived (initial c) ls =
    (machine c.route).emitted Machine.arrived { routes := .empty } acts

theorem Follows.append {ls : List (Label ι ω)} {acts more : List (Act ι (Parcel (Option ι)))}
    {cur' : ι → Option (Handling ι)} (h : Follows c cur ls acts)
    (hStep : Answers c ((system c).exec (initial c) ls) l cur cur'
      ((machine c.route).exec { routes := .empty } acts) more) : Follows c cur' (ls ++ [l]) (acts ++ more) where
  abstracts := by
    rw [(system c).exec_append, (machine c.route).exec_append]
    exact hStep.abstracts
  handed a := by
    rw [(system c).emitted_append, (system c).emitted_singleton, (machine c.route).emitted_append, h.handed,
      List.append_assoc, hStep.handed, List.append_assoc]
  posted a := by
    rw [(system c).emitted_append, (system c).emitted_singleton, (machine c.route).emitted_append, h.posted,
      List.append_assoc, hStep.posted, List.append_assoc]
  delivered a := by
    rw [(system c).emitted_append, (system c).emitted_singleton, (machine c.route).emitted_append, h.delivered,
      hStep.delivered]
  dispatched a := by
    rw [(system c).emitted_append, (system c).emitted_singleton, (machine c.route).emitted_append, h.dispatched,
      hStep.dispatched]
  arrived := by
    rw [(system c).emitted_append, (system c).emitted_singleton, (machine c.route).emitted_append, h.arrived,
      hStep.arrived]

theorem exists_follows {c : Setting ι} (hUnbounded : ∀ a, c.pendingQueueSize a ≤ 0)
    {ls : List (Label ι ω)} (hAdded : ∀ l ∈ ls, ¬ l.IsAdd) (hQuit : ∀ l ∈ ls, ¬ l.IsQuit)
    (hRuns : (system c).Runs (initial c) ls) :
    ∃ acts, (machine c.route).Runs { routes := .empty } acts ∧ ∃ cur, Follows c cur ls acts := by
  have hKeep : ∀ (s : Scheduler ι ω) (l : Label ι ω), s.Orderly c → s.enabled l → ¬ l.IsAdd ∧ ¬ l.IsQuit →
      (s.next c l).Orderly c := fun s l h hEnabled hOk => h.next hEnabled hOk.1 hOk.2
  have hStart : ∃ cur, Follows c cur ([] : List (Label ι ω)) [] := by
    refine ⟨fun _ => none, ?_, fun _ => rfl, fun _ => rfl, fun _ => rfl, fun _ => rfl, rfl⟩
    refine ⟨fun a => ⟨fun hNe => absurd rfl hNe, ?_⟩, rfl, fun _ => rfl, fun _ => rfl⟩
    rintro ⟨w, ⟨⟩⟩
  refine Transition.System.simulates (fun ls acts => ∃ cur, Follows c cur ls acts) (Orderly.initial hUnbounded)
    hKeep hStart ?_ hRuns fun p hp => ?_
  · rintro ls l acts hInv hEnabled ⟨hAdd, hNoQuit⟩ ⟨cur, hFollows⟩
    obtain ⟨more, cur', hStep⟩ := exists_answers hInv hFollows.abstracts hEnabled hAdd hNoQuit
    exact ⟨more, hStep.runs, cur', hFollows.append hStep⟩
  · have hMem := (system c).label_mem_of_mem_steps hp
    exact ⟨hAdded p.2 hMem, hQuit p.2 hMem⟩

/-- Between `Exec` and `Quit`, with the actors in place before and no limit on their mailboxes: whatever
order the main loop, the workers and the user code take their steps in, they do what a machine of
actors does that handles each message in one step. Same messages arrive, each actor handles, posts, is
given and has dispatched the same ones in the same order, but for the message it is just handling, and
the queues of the machine are those of the mailboxes. -/
theorem refines_actor_machine (c : Setting ι) (hUnbounded : ∀ a, c.pendingQueueSize a ≤ 0)
    (ls : List (Label ι ω)) (hAdded : ∀ l ∈ ls, ¬ l.IsAdd) (hQuit : ∀ l ∈ ls, ¬ l.IsQuit)
    (hRuns : (system c).Runs (initial c) ls) :
    let s := (system c).exec (initial c) ls
    ∃ (acts : List (Act ι (Parcel (Option ι)))) (cur : ι → Option (Handling ι)),
      let start : Machine ι (Parcel (Option ι)) MsgManager := { routes := .empty }
      (machine c.route).Runs start acts ∧ s.Abstracts cur ((machine c.route).exec start acts) ∧
      (system c).emitted arrived (initial c) ls = (machine c.route).emitted Machine.arrived start acts ∧
      ∀ a,
        (system c).emitted (handedTo a) (initial c) ls =
          (machine c.route).emitted (Machine.handled a) start acts ++ inHand (cur a) ∧
        (system c).emitted (postedOf a) (initial c) ls =
          (machine c.route).emitted (Machine.posted a) start acts ++ posting (cur a) ∧
        (system c).emitted (deliveredTo c a) (initial c) ls =
          (machine c.route).emitted (Machine.delivered c.route a) start acts ∧
        (system c).emitted (dispatchedOf a) (initial c) ls =
          (machine c.route).emitted (Machine.flushed a) start acts := by
  intro s
  obtain ⟨acts, hActs, cur, h⟩ := exists_follows hUnbounded hAdded hQuit hRuns
  exact ⟨acts, cur, hActs, h.abstracts, h.arrived, fun a => ⟨h.handed a, h.posted a, h.delivered a, h.dispatched a⟩⟩

/-- The first actor has handled the message that came from outside and the second one what the first
one posted. -/
theorem refines_actor_machine_pair :
    ∃ acts, (machine pairSetting.route).Runs { routes := .empty } acts ∧
      (machine pairSetting.route).emitted (Machine.handled true) { routes := .empty } acts =
        [⟨some false, pairMsg "1"⟩] := by
  obtain ⟨acts, cur, hActs, hAbstracts, -, hSame⟩ :=
    refines_actor_machine pairSetting (by decide) drainRun (by decide) (by decide) (by decide)
  obtain ⟨hHanded, -⟩ := hSame true
  have hCur : cur true = none := by
    by_contra hBusy
    exact absurd ((hAbstracts.busy true).mp hBusy) (by decide)
  rw [hCur, inHand_none, List.append_nil] at hHanded
  exact ⟨acts, hActs, by rw [← hHanded]; decide⟩

/-- What has been put into a mailbox has been handed to the actor or is in the mailbox still. -/
theorem delivered_eq {c : Setting ι} (hUnbounded : ∀ a, c.pendingQueueSize a ≤ 0)
    {ls : List (Label ι ω)} (hAdded : ∀ l ∈ ls, ¬ l.IsAdd) (hQuit : ∀ l ∈ ls, ¬ l.IsQuit)
    (hRuns : (system c).Runs (initial c) ls) (a : ι) :
    let s := (system c).exec (initial c) ls
    (system c).emitted (deliveredTo c a) (initial c) ls =
      (system c).emitted (handedTo a) (initial c) ls ++ ((s.box a).run ++ (s.box a).recv) := by
  intro s
  obtain ⟨acts, hActs, cur, h⟩ := exists_follows hUnbounded hAdded hQuit hRuns
  have hQueue := Machine.queue_history a hActs
  calc (system c).emitted (deliveredTo c a) (initial c) ls
      = (machine c.route).emitted (Machine.delivered c.route a) { routes := .empty } acts := h.delivered a
    _ = (machine c.route).emitted (Machine.handled a) { routes := .empty } acts ++
          ((machine c.route).exec { routes := .empty } acts).queue a := hQueue
    _ = (system c).emitted (handedTo a) (initial c) ls ++ ((s.box a).run ++ (s.box a).recv) := by
        rw [h.abstracts.queue a, h.handed a, List.append_assoc]

/-- Under the same conditions: of the messages put into its mailbox, copies of published ones among
them, an actor is given each one once and in their order, except for those that are still in its run
and receive queues; and what it has posted the main loop has dispatched once and in order, except for
what is still in its send queue. -/
theorem delivered_once_in_order (c : Setting ι) (hUnbounded : ∀ a, c.pendingQueueSize a ≤ 0)
    (ls : List (Label ι ω)) (hAdded : ∀ l ∈ ls, ¬ l.IsAdd) (hQuit : ∀ l ∈ ls, ¬ l.IsQuit)
    (hRuns : (system c).Runs (initial c) ls) (a : ι) :
    let s := (system c).exec (initial c) ls
    (system c).emitted (deliveredTo c a) (initial c) ls =
        (system c).emitted (handedTo a) (initial c) ls ++ ((s.box a).run ++ (s.box a).recv) ∧
      (system c).emitted (postedOf a) (initial c) ls =
        (system c).emitted (dispatchedOf a) (initial c) ls ++ (s.box a).send := by
  intro s
  refine ⟨delivered_eq hUnbounded hAdded hQuit hRuns a, ?_⟩
  obtain ⟨acts, hActs, cur, h⟩ := exists_follows hUnbounded hAdded hQuit hRuns
  have hOutbox := Machine.outbox_history a hActs
  calc (system c).emitted (postedOf a) (initial c) ls
      = (machine c.route).emitted (Machine.posted a) { routes := .empty } acts ++ posting (cur a) := h.posted a
    _ = (machine c.route).emitted (Machine.flushed a) { routes := .empty } acts ++
          (((machine c.route).exec { routes := .empty } acts).outbox a ++ posting (cur a)) := by
        rw [← List.append_assoc, ← hOutbox]
        rfl
    _ = (system c).emitted (dispatchedOf a) (initial c) ls ++ (s.box a).send := by
        rw [h.abstracts.outbox a, h.dispatched a]

theorem delivered_once_in_order_pair :
    (system pairSetting).emitted (deliveredTo pairSetting true) (initial pairSetting) pairRun =
      (system pairSetting).emitted (handedTo true) (initial pairSetting) pairRun ++
        [⟨some false, pairMsg "2"⟩] := by
  obtain ⟨hDelivered, -⟩ :=
    delivered_once_in_order pairSetting (by decide) pairRun (by decide) (by decide) (by decide) true
  rw [hDelivered]
  exact congrArg _ (by decide)

end Scheduler
end Myframe
