import Myframe.Library.Transition
import Myframe.Actor.Context
import Myframe.App.Dispatch
import Myframe.CmdChannel

/-! # The main loop and the common workers

Contexts are referred to by `ι` and workers by `ω`. Every step below is one access to what several
threads share; a run interleaves the steps of the main loop, of the workers, of callers of `Quit` and
of threads inside `AddActor`. In a queue a message is marked with the context that posted it.
-/
namespace Myframe
set_option autoImplicit false

/-- Where `WorkerContext::ListenThread` with `WorkerCommon::Run` stands. -/
inductive WorkerPc (ι : Type) where
  | start
  | wait
  | ran
  | work (a : ι)
  | proc (a : ι)
  | worked (a : ι)
  | quit
  | done
  deriving DecidableEq, Repr

namespace WorkerPc

variable {ι : Type}

def inProc : WorkerPc ι → Bool
  | .proc _ => true
  | _ => false

end WorkerPc

structure CommonWorker (ι : Type) where
  pc : WorkerPc ι := .start
  context : Option ι := none
  channel : CmdChannel := {}
  registered : Bool := true
  deriving DecidableEq, Repr

/-- Where the main loop stands: `check` to `send` in `CheckStopWorkers`, `dispatch` and `receive` in
`ProcessWorkerEvent`. -/
inductive MainPc (ι ω : Type) where
  | loop
  | check
  | front (w : ω)
  | select (w : ω) (a : ι)
  | assign (w : ω) (a : ι)
  | requeue (w : ω) (a : ι)
  | send (w : ω)
  | dispatch (w : ω) (a : ι)
  | receive (w : ω)
  deriving DecidableEq, Repr

/-- Where the thread that adds an actor stands. -/
inductive AddPc where
  | new
  | inited
  | added
  | dispatching
  | clearing
  | returned
  deriving DecidableEq, Repr

/-- The application when `Exec` starts, with what stays fixed from then on. `ctxs` holds the actors
added before; a context that is not `present` can still be added. -/
structure Setting (ι : Type) where
  actorName : ι → String
  isNode : ι → Bool := fun _ => false
  pendingQueueSize : ι → ℤ := fun _ => -1
  runQueueSize : ι → ℤ := fun _ => 2
  present : ι → Bool := fun _ => true
  ctxs : String → Option ι := fun _ => none
  nodeAddr : String := ""
  hasEvent : String → Bool := fun _ => false
  walk : SetWalk := .stored

structure Scheduler (ι ω : Type) where
  actors : ActorContextManager ι (Option ι)
  subs : MsgManager := .empty
  nodeAddr : String := ""
  idle : List ω := []
  worker : ω → CommonWorker ι := fun _ => {}
  main : MainPc ι ω := .loop
  adder : ι → AddPc

inductive Label (ι ω : Type) where
  | check
  | event (w : ω)
  | arrive (m : Msg)
  | main
  | worker (w : ω)
  | post (w : ω) (m : Msg)
  | setRunQueueSize (w : ω) (n : ℤ)
  | quit (w : ω)
  | addInit (a : ι) (sent : List Msg)
  | addRegister (a : ι)
  | addClear (a : ι)
  | addDispatch (a : ι)

namespace Label

variable {ι ω : Type}

/-- A step of a thread inside `AddActor`. -/
def IsAdd : Label ι ω → Prop
  | addInit _ _ | addRegister _ | addClear _ | addDispatch _ => True
  | _ => False

def IsMain : Label ι ω → Prop
  | check | event _ | arrive _ | main => True
  | _ => False

def IsQuit : Label ι ω → Prop
  | quit _ => True
  | _ => False

instance : DecidablePred (@IsAdd ι ω)
  | addInit _ _ | addRegister _ | addClear _ | addDispatch _ => .isTrue trivial
  | check | event _ | arrive _ | main | worker _ | post _ _ | setRunQueueSize _ _ | quit _ => .isFalse id

instance : DecidablePred (@IsQuit ι ω)
  | quit _ => .isTrue trivial
  | check | event _ | arrive _ | main | worker _ | post _ _ | setRunQueueSize _ _ | addInit _ _
  | addRegister _ | addClear _ | addDispatch _ => .isFalse id

end Label

namespace CommonWorker

variable {ι : Type}

/-- The context the worker executes: it has read kRun with it as `context_` and has not sent its
next command. -/
def executing (x : CommonWorker ι) : Option ι :=
  match x.pc with
  | .ran => x.context
  | .work a | .proc a | .worked a => some a
  | _ => none

end CommonWorker

namespace Scheduler

variable {ι ω : Type} [DecidableEq ι] [DecidableEq ω]

def box (s : Scheduler ι ω) (a : ι) : Mailbox (Option ι) := (s.actors.heap a).mailbox

def modifyWorker (s : Scheduler ι ω) (w : ω) (f : CommonWorker ι → CommonWorker ι) : Scheduler ι ω :=
  { s with worker := Function.update s.worker w (f (s.worker w)) }

def mapBox (s : Scheduler ι ω) (a : ι) (f : Mailbox (Option ι) → Mailbox (Option ι)) :
    Scheduler ι ω :=
  { s with actors := s.actors.mapMailbox a f }

def directory (c : Setting ι) (s : Scheduler ι ω) : Directory where
  nodeAddr := s.nodeAddr
  hasActor := s.actors.hasActor
  hasEvent := c.hasEvent

def deliverTo (p : Parcel (Option ι)) (actors : ActorContextManager ι (Option ι)) :
    Delivery → ActorContextManager ι (Option ι)
  | .actor name => actors.dispatchMsg name p
  | .worker _ | .conn _ => actors

/-- `App::DispatchMsg(msg)`, as far as it concerns actors. -/
def deliver (c : Setting ι) (s : Scheduler ι ω) (p : Parcel (Option ι)) : Scheduler ι ω :=
  let (subs, deliveries) := (s.directory c).dispatchMsg c.walk s.subs p.msg
  { s with subs := subs, actors := deliveries.foldl (deliverTo p) s.actors }

/-- One turn of the loop of `App::DispatchMsg(context)` over the send queue. -/
def dispatchOne (c : Setting ι) (s : Scheduler ι ω) (a : ι) : Scheduler ι ω :=
  match (s.box a).send with
  | [] => s
  | p :: rest => (s.mapBox a fun b => { b with send := rest }).deliver c p

def mainStep (c : Setting ι) (s : Scheduler ι ω) : Scheduler ι ω :=
  match s.main with
  | .loop => s
  | .check =>
    match s.idle with
    | [] => { s with main := .loop }
    | w :: _ => { s with main := .front w }
  | .front w =>
    match s.actors.getContextWithMsg with
    | (actors, none) => { s with actors := actors, main := .loop }
    | (actors, some a) => { s with actors := actors, main := .select w a }
  | .select w a =>
    -- the branch that only logs "has no msg"
    if (s.box a).recv = [] then { s with main := .check }
    else { s.mapBox a Mailbox.moveToRun with main := .assign w a }
  | .assign w a =>
    { s.modifyWorker w fun x => { x with context := some a } with
      idle := s.idle.tail, main := .requeue w a }
  | .requeue w a =>
    if (s.box a).recv = [] then { s with main := .send w }
    else { s with actors := s.actors.pushContext a, main := .send w }
  | .send w =>
    { s.modifyWorker w fun x => { x with channel := x.channel.sendToOwner .kRun } with main := .check }
  | .dispatch w a =>
    -- `clear()` is no step of its own: as long as actors are serial nobody posts for `a` here (`Serial.apart`)
    match (s.box a).send with
    | [] => { s with main := .receive w }
    | _ :: _ => s.dispatchOne c a
  | .receive w =>
    match (s.worker w).channel.toMain with
    | [] => { s with main := .loop }
    | cmd :: rest =>
      let s := s.modifyWorker w fun x => { x with channel := { x.channel with toMain := rest } }
      match cmd with
      | .kIdle =>
        { s.modifyWorker w fun x => { x with context := none } with
          idle := s.idle ++ [w], main := .loop }
      | .kQuit => { s.modifyWorker w fun x => { x with registered := false } with main := .loop }
      | _ => { s with main := .loop }

/-- `ProcessWorkerEvent` up to the clearing of the flag in `DispatchMsg(context)`. -/
def event (s : Scheduler ι ω) (w : ω) : Scheduler ι ω :=
  match (s.worker w).context with
  | none => { s with main := .receive w }
  | some a => { s with actors := s.actors.setRuningFlag a false, main := .dispatch w a }

def workerStep (s : Scheduler ι ω) (w : ω) : Scheduler ι ω :=
  let sendIdle := fun (x : CommonWorker ι) =>
    { x with pc := .wait, channel := x.channel.sendToMain .kIdle }
  match (s.worker w).pc with
  | .start => s.modifyWorker w sendIdle
  | .wait =>
    match (s.worker w).channel.toOwner with
    | [] => s
    | cmd :: rest => s.modifyWorker w fun x =>
      { x with
        pc := if cmd = .kQuit then .quit else .ran
        channel := { x.channel with toOwner := rest } }
  | .ran => s.modifyWorker w fun x =>
    { x with
      pc :=
        match x.context with
        | none => .start
        | some a => .work a }
  | .work a =>
    match (s.box a).run with
    | [] => s.modifyWorker w fun x => { x with pc := .worked a }
    | _ :: rest =>
      (s.mapBox a fun b => { b with run := rest }).modifyWorker w fun x => { x with pc := .proc a }
  | .proc a => s.modifyWorker w fun x => { x with pc := .work a }
  | .worked _ => s.modifyWorker w sendIdle
  | .quit => s.modifyWorker w fun x => { x with pc := .done, channel := x.channel.sendToMain .kQuit }
  | .done => s

/-- User code inside `Proc` of the context that the worker executes. -/
def userStep (s : Scheduler ι ω) (w : ω) (f : ι → Mailbox (Option ι) → Mailbox (Option ι)) :
    Scheduler ι ω :=
  match (s.worker w).pc with
  | .proc a => s.mapBox a (f a)
  | _ => s

def setAdder (s : Scheduler ι ω) (a : ι) (pc : AddPc) : Scheduler ι ω :=
  { s with adder := Function.update s.adder a pc }

/-- `AddActor` up to and including `ActorContext::Init`, in which the actor posts `sent`. -/
def addInit (c : Setting ι) (s : Scheduler ι ω) (a : ι) (sent : List Msg) : Scheduler ι ω :=
  if c.isNode a ∧ s.nodeAddr ≠ "" then s.setAdder a .returned
  else
    { (s.mapBox a fun b => { b with send := b.send ++ sent.map (⟨some a, ·⟩) }).setAdder a .inited with
      nodeAddr := if c.isNode a then c.actorName a else s.nodeAddr }

/-- The loop over the send queue and, as a step of its own, the `clear()` behind it. -/
def addDispatch (c : Setting ι) (s : Scheduler ι ω) (a : ι) : Scheduler ι ω :=
  if s.adder a = .clearing then (s.mapBox a fun b => { b with send := [] }).setAdder a .returned
  else
    match (s.box a).send with
    | [] => s.setAdder a .clearing
    | _ :: _ => s.dispatchOne c a

def next (c : Setting ι) (s : Scheduler ι ω) : Label ι ω → Scheduler ι ω
  | .check => { s with main := .check }
  | .event w => s.event w
  | .arrive m => s.deliver c ⟨none, m⟩
  | .main => s.mainStep c
  | .worker w => s.workerStep w
  | .post w m => s.userStep w fun a b => b.push ⟨some a, m⟩
  | .setRunQueueSize w n => s.userStep w fun _ b => { b with runQueueSize := n }
  | .quit w => s.modifyWorker w fun x => { x with channel := x.channel.sendToOwner .kQuit }
  | .addInit a sent => s.addInit c a sent
  | .addRegister a => { s.setAdder a .added with actors := (s.actors.add (c.actorName a) a).1 }
  | .addClear a => { s.setAdder a .dispatching with actors := s.actors.setRuningFlag a false }
  | .addDispatch a => s.addDispatch c a

def enabled (s : Scheduler ι ω) : Label ι ω → Prop
  | .check | .arrive _ => s.main = .loop
  | .event w =>
    s.main = .loop ∧ (s.worker w).registered = true ∧ (s.worker w).channel.toMain ≠ []
  | .main => s.main ≠ .loop
  | .worker w =>
    (s.worker w).pc ≠ .done ∧ ((s.worker w).pc = .wait → (s.worker w).channel.toOwner ≠ [])
  | .post w _ | .setRunQueueSize w _ => (s.worker w).pc.inProc = true
  | .quit _ => True
  | .addInit a _ => s.adder a = .new
  | .addRegister a => s.adder a = .inited
  | .addClear a => s.adder a = .added
  | .addDispatch a => s.adder a = .dispatching ∨ s.adder a = .clearing

instance (s : Scheduler ι ω) (l : Label ι ω) : Decidable (s.enabled l) :=
  match l with
  | .check | .arrive _ => inferInstanceAs (Decidable (s.main = .loop))
  | .event w => inferInstanceAs (Decidable (s.main = .loop ∧ (s.worker w).registered = true ∧
      (s.worker w).channel.toMain ≠ []))
  | .main => inferInstanceAs (Decidable (s.main ≠ .loop))
  | .worker w => inferInstanceAs (Decidable ((s.worker w).pc ≠ .done ∧
      ((s.worker w).pc = .wait → (s.worker w).channel.toOwner ≠ [])))
  | .post w _ | .setRunQueueSize w _ => inferInstanceAs (Decidable ((s.worker w).pc.inProc = true))
  | .quit _ => inferInstanceAs (Decidable True)
  | .addInit a _ => inferInstanceAs (Decidable (s.adder a = .new))
  | .addRegister a => inferInstanceAs (Decidable (s.adder a = .inited))
  | .addClear a => inferInstanceAs (Decidable (s.adder a = .added))
  | .addDispatch a => inferInstanceAs (Decidable (s.adder a = .dispatching ∨ s.adder a = .clearing))

def system (c : Setting ι) : Transition.System (Scheduler ι ω) (Label ι ω) where
  enabled s l := s.enabled l
  next s l := s.next c l

instance (c : Setting ι) (s : Scheduler ι ω) (l : Label ι ω) : Decidable ((system c).enabled s l) :=
  inferInstanceAs (Decidable (s.enabled l))

/-- Every context is as its constructor left it but for its name and limits, and no worker has taken
a step. The messages sent before `Exec` arrive in the first steps of a run. -/
def initial (c : Setting ι) : Scheduler ι ω where
  actors :=
    { heap := fun a =>
        { mailbox :=
            { addr := c.actorName a
              pendingQueueSize := c.pendingQueueSize a
              runQueueSize := c.runQueueSize a } }
      ctxs := c.ctxs }
  nodeAddr := c.nodeAddr
  adder := fun a => if c.present a then .returned else .new

end Scheduler
end Myframe
