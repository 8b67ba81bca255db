import Myframe.Library.Transition
import Myframe.Mailbox
import Myframe.CmdChannel
import Myframe.App.Dispatch
import Myframe.App.Event

/-! # The main loop and the user workers

A user worker runs code of its own and may call whatever its mailbox offers to its owner, also while the
main loop handles its event. One step of the main loop is a message dispatched, a round of `WeakupWorker`, the
`clear()` of a send queue or a command read.
-/
namespace Myframe
set_option autoImplicit false

inductive CtrlOwner where
  | kMain
  | kWorker
  deriving DecidableEq, Repr

inductive WorkerType where
  | kWorkerCommon
  | kWorkerTimer
  | kWorkerUser
  deriving DecidableEq, Repr

/-- Where the thread of a user worker stands: in its own code, in `RecvFromMain`, or at its end. -/
inductive UserPc where
  | running
  | blocked
  | done
  deriving DecidableEq, Repr

structure WorkerContext (γ : Type) where
  name : String
  type : WorkerType := .kWorkerUser
  mailbox : Mailbox γ := {}
  ctrlOwner : CtrlOwner := .kWorker
  inMsgWaitQueue : Bool := false
  channel : CmdChannel := {}
  runing : Bool := true
  pc : UserPc := .running
  registered : Bool := true

/-- What the mailbox lets its owner do. -/
inductive OwnerCall (γ : Type) where
  | send (p : Parcel γ)
  | sendClear
  | moveToRun
  | popRun
  | setRunQueueSize (n : ℤ)
  | setPendingQueueSize (n : ℤ)

def OwnerCall.apply {γ : Type} (b : Mailbox γ) : OwnerCall γ → Mailbox γ
  | .send p => b.push p
  | .sendClear => { b with send := [] }
  | .moveToRun => b.moveToRun
  | .popRun => { b with run := b.run.tail }
  | .setRunQueueSize n => { b with runQueueSize := n }
  | .setPendingQueueSize n => { b with pendingQueueSize := n }

/-- `names` is the name index of `EventManager`, as far as it holds workers; `event` is the worker whose event
the main loop handles. -/
structure WorkerContextManager (ω γ : Type) where
  heap : ω → WorkerContext γ
  names : String → Option ω
  weakup : List ω := []
  subs : MsgManager := .empty
  event : Option ω := none
  eventPc : EventPc := .draining

namespace WorkerContextManager

inductive Label (ω γ : Type) where
  | arrive (p : Parcel γ)
  | weakup
  | event (w : ω)
  | main
  | call (w : ω) (f : OwnerCall γ)
  | sendCmd (w : ω) (wait : Bool)
  | recvCmd (w : ω)
  | stop (w : ω)
  | exit (w : ω)
  | quit (w : ω)

variable {ω γ : Type} [DecidableEq ω]

def modify (s : WorkerContextManager ω γ) (w : ω) (f : WorkerContext γ → WorkerContext γ) :
    WorkerContextManager ω γ :=
  { s with heap := Function.update s.heap w (f (s.heap w)) }

def dispatchWorkerMsg (s : WorkerContextManager ω γ) (name : String) (p : Parcel γ) :
    WorkerContextManager ω γ :=
  match s.names name with
  | none => s
  | some w =>
    if (s.heap w).type ≠ .kWorkerUser then s
    else
      let s' := s.modify w fun x => { x with mailbox := x.mailbox.receive p }
      if (s.heap w).inMsgWaitQueue then s'
      else { s'.modify w fun x => { x with inMsgWaitQueue := true } with weakup := s.weakup ++ [w] }

/-- What `WeakupWorker` does with a worker that waits. -/
def handOver (s : WorkerContextManager ω γ) (w : ω) : WorkerContextManager ω γ :=
  s.modify w fun x =>
    { x with
      mailbox := x.mailbox.moveToRun
      ctrlOwner := .kWorker
      inMsgWaitQueue := false
      channel := x.channel.sendToOwner .kRunWithMsg }

/-- The walk over the weak-up list; `kept` are the workers passed over. -/
def weakupLoop : List ω → List ω → WorkerContextManager ω γ → WorkerContextManager ω γ
  | [], kept, s => { s with weakup := kept }
  | w :: rest, kept, s =>
    if (s.heap w).ctrlOwner = .kWorker then weakupLoop rest (kept ++ [w]) s
    else weakupLoop rest kept (s.handOver w)

def weakupWorker (s : WorkerContextManager ω γ) : WorkerContextManager ω γ := weakupLoop s.weakup [] s

def pushWaitWorker (s : WorkerContextManager ω γ) (w : ω) : WorkerContextManager ω γ :=
  s.modify w fun x => { x with ctrlOwner := .kMain }

def del (s : WorkerContextManager ω γ) (w : ω) : WorkerContextManager ω γ :=
  { s.modify w fun x => { x with registered := false } with
    names := Function.update s.names (s.heap w).name none }

/-- What the rest of the application holds while it runs. -/
structure Setting where
  nodeAddr : String := ""
  hasActor : String → Bool := fun _ => false
  walk : SetWalk := .stored

def directory (c : Setting) (s : WorkerContextManager ω γ) : Directory where
  nodeAddr := c.nodeAddr
  hasActor := c.hasActor
  hasEvent name := (s.names name).isSome

def deliverTo (p : Parcel γ) (s : WorkerContextManager ω γ) : Delivery → WorkerContextManager ω γ
  | .worker name => s.dispatchWorkerMsg name p
  | .actor _ | .conn _ => s

/-- `App::DispatchMsg(msg)`, as far as it concerns workers. -/
def deliver (c : Setting) (s : WorkerContextManager ω γ) (p : Parcel γ) : WorkerContextManager ω γ :=
  let (subs, deliveries) := (s.directory c).dispatchMsg c.walk s.subs p.msg
  deliveries.foldl (deliverTo p) { s with subs := subs }

/-- The last part of `ProcessUserEvent`. -/
def receive (s : WorkerContextManager ω γ) (w : ω) : WorkerContextManager ω γ :=
  match (s.heap w).channel.toMain with
  | [] => s
  | cmd :: rest =>
    let s := s.modify w fun x => { x with channel := { x.channel with toMain := rest } }
    match cmd with
    | .kIdle => s.modify w fun x => { x with channel := x.channel.sendToOwner .kRun }
    | .kWaitForMsg => s.pushWaitWorker w
    | .kQuit => s.del w
    | _ => s

/-- One step of `App::ProcessUserEvent`. -/
def processUserEvent (c : Setting) (s : WorkerContextManager ω γ) (w : ω) : WorkerContextManager ω γ :=
  match s.eventPc with
  | .draining =>
    match (s.heap w).mailbox.send with
    | p :: rest => (s.modify w fun x => { x with mailbox := { x.mailbox with send := rest } }).deliver c p
    | [] => { s with eventPc := .clearing }
  | .clearing =>
    { s.modify w fun x => { x with mailbox := { x.mailbox with send := [] } } with eventPc := .receiving }
  | .receiving => { s.receive w with event := none }

def next (c : Setting) (s : WorkerContextManager ω γ) : Label ω γ → WorkerContextManager ω γ
  | .arrive p => s.deliver c p
  | .weakup => s.weakupWorker
  | .event w => { s with event := some w, eventPc := .draining }
  | .main =>
    match s.event with
    | none => s
    | some w => s.processUserEvent c w
  | .call w f => s.modify w fun x => { x with mailbox := f.apply x.mailbox }
  | .sendCmd w wait => s.modify w fun x =>
    { x with pc := .blocked, channel := x.channel.sendToMain (if wait then .kWaitForMsg else .kIdle) }
  | .recvCmd w =>
    match (s.heap w).channel.toOwner with
    | [] => s
    | cmd :: rest => s.modify w fun x =>
      { x with
        pc := .running
        runing := if cmd = .kQuit then false else x.runing
        channel := { x.channel with toOwner := rest } }
  | .stop w => s.modify w fun x => { x with runing := false }
  | .exit w => s.modify w fun x => { x with pc := .done, channel := x.channel.sendToMain .kQuit }
  | .quit w => s.modify w fun x => { x with channel := x.channel.sendToOwner .kQuit }

/-- The main loop takes up nothing new while it handles an event. -/
def enabled (s : WorkerContextManager ω γ) : Label ω γ → Prop
  | .quit _ => True
  | .arrive _ | .weakup => s.event = none
  | .event w => s.event = none ∧ (s.heap w).registered = true ∧ (s.heap w).channel.toMain ≠ []
  | .main => s.event ≠ none
  | .call w _ | .sendCmd w _ | .stop w => (s.heap w).pc = .running
  | .recvCmd w => (s.heap w).pc = .blocked ∧ (s.heap w).channel.toOwner ≠ []
  | .exit w => (s.heap w).pc = .running ∧ (s.heap w).runing = false

def system (c : Setting) : Transition.System (WorkerContextManager ω γ) (Label ω γ) where
  enabled s l := s.enabled l
  next s l := s.next c l

omit [DecidableEq ω] in
instance (s : WorkerContextManager ω γ) (l : Label ω γ) : Decidable (s.enabled l) :=
  match l with
  | .quit _ => .isTrue trivial
  | .arrive _ | .weakup => inferInstanceAs (Decidable (s.event = none))
  | .event w => inferInstanceAs (Decidable
      (s.event = none ∧ (s.heap w).registered = true ∧ (s.heap w).channel.toMain ≠ []))
  | .main => inferInstanceAs (Decidable (s.event ≠ none))
  | .call w _ | .sendCmd w _ | .stop w => inferInstanceAs (Decidable ((s.heap w).pc = .running))
  | .recvCmd w =>
    inferInstanceAs (Decidable ((s.heap w).pc = .blocked ∧ (s.heap w).channel.toOwner ≠ []))
  | .exit w => inferInstanceAs (Decidable ((s.heap w).pc = .running ∧ (s.heap w).runing = false))

instance (c : Setting) (s : WorkerContextManager ω γ) (l : Label ω γ) :
    Decidable ((system c).enabled s l) :=
  inferInstanceAs (Decidable (s.enabled l))

/-- Workers as `AddWorker` leaves them, under any names and with any limits. -/
def initial (name : ω → String) (type : ω → WorkerType) (pendingQueueSize runQueueSize : ω → ℤ)
    (names : String → Option ω) : WorkerContextManager ω γ where
  heap w :=
    { name := name w
      type := type w
      mailbox :=
        { addr := name w, pendingQueueSize := pendingQueueSize w, runQueueSize := runQueueSize w } }
  names := names

end WorkerContextManager
end Myframe
