import Myframe.Library.Transition
import Myframe.Mailbox
import Myframe.CmdChannel
import Myframe.EventManager
import Myframe.App.Dispatch
import Myframe.App.Event

/-! # Calls from outside: `App::Send` and `App::SendRequest`

A call borrows a connection from the pool, posts its message through it and waits on its command
channel. Calls run in threads of their own, so their steps and those of the main loop are small.
Which of the ready events the poller reports, and when, is left open.
-/
namespace Myframe
set_option autoImplicit false

inductive ConnType where
  | kSendReq
  | kSend
  deriving DecidableEq, Repr

structure EventConn (κ : Type) where
  connType : ConnType := .kSendReq
  mailbox : Mailbox (Origin κ) := {}
  channel : CmdChannel := {}

/-- How far a call has come; the connection is the one it has taken. -/
inductive CallPc (κ : Type) where
  | start
  | allocated (n : ℕ)
  | typed (n : ℕ)
  | cleared (n : ℕ)
  | queued (n : ℕ)
  | waiting (n : ℕ)
  | woken (n : ℕ)
  | popped (n : ℕ) (p : Parcel (Origin κ))
  | finished (n : ℕ) (r : Option (Parcel (Origin κ)))
  | unregistered (n : ℕ)
  | returned (r : Option (Parcel (Origin κ)))
  deriving DecidableEq

/-- The type tells `App::Send` from `App::SendRequest`. -/
structure Call (κ : Type) where
  type : ConnType := .kSendReq
  msg : Msg := {}
  pc : CallPc κ := .start

/-- Where `Notify` stands: the connection is found, its type is checked, it is deleted from the
event manager, it is in the idle list, the message is stored. -/
inductive Notify (κ : Type) where
  | ready
  | found (n : ℕ) (p : Parcel (Origin κ))
  | checked (n : ℕ) (p : Parcel (Origin κ))
  | deleted (n : ℕ) (p : Parcel (Origin κ))
  | released (n : ℕ) (p : Parcel (Origin κ))
  | stored (n : ℕ)
  deriving DecidableEq

/-- `event` is the connection whose event the main loop processes and `eventPc` how far it has come,
`deliveries` is what is left of the message it dispatches, `received` holds all that actors and workers
have been sent. -/
structure EventConnManager (κ : Type) where
  conns : ℕ → EventConn κ := fun _ => {}
  idleConn : List ℕ := []
  connSz : ℕ := 0
  evMgr : EventManager := {}
  calls : κ → Call κ := fun _ => {}
  notify : Notify κ := .ready
  deliveries : List (Delivery × Parcel (Origin κ)) := []
  event : Option ℕ := none
  eventPc : EventPc := .draining
  subs : MsgManager := .empty
  received : List (Parcel (Origin κ)) := []

namespace EventConnManager

inductive Label (κ : Type) where
  | alloc (k : κ) (type : ConnType) (msg : Msg)
  | call (k : κ)
  | main
  | event (n : ℕ)
  | answer (p : Parcel (Origin κ)) (m : Msg)
  | arrive (m : Msg)

structure Setting where
  nodeAddr : String := ""
  hasActor : String → Bool := fun _ => false
  hasWorker : String → Bool := fun _ => false
  walk : SetWalk := .stored

variable {κ : Type}

def mapConn (s : EventConnManager κ) (n : ℕ) (f : EventConn κ → EventConn κ) : EventConnManager κ :=
  { s with conns := Function.update s.conns n (f (s.conns n)) }

def name (s : EventConnManager κ) (n : ℕ) : String := (s.conns n).mailbox.addr

def addEventConn (s : EventConnManager κ) : EventConnManager κ :=
  { s with
    conns := Function.update s.conns s.connSz
      { mailbox := { addr := "event.conn." ++ toString s.connSz } }
    idleConn := s.idleConn ++ [s.connSz]
    connSz := s.connSz + 1 }

/-- `Init(sz)` on an application without connections. -/
def initial : ℕ → EventConnManager κ
  | 0 => {}
  | sz + 1 => (initial sz).addEventConn

section Calls

variable [DecidableEq κ]

def setPc (s : EventConnManager κ) (k : κ) (pc : CallPc κ) : EventConnManager κ :=
  { s with calls := Function.update s.calls k { s.calls k with pc := pc } }

/-- `Alloc`, under the lock of the manager, at the beginning of a call. -/
def alloc (s : EventConnManager κ) (k : κ) (type : ConnType) (msg : Msg) : EventConnManager κ :=
  let s := if s.idleConn = [] then s.addEventConn else s
  match s.idleConn with
  | [] => s
  | n :: rest =>
    if s.evMgr.evs n = true then
      { s with
        idleConn := rest
        calls := Function.update s.calls k { type := type, msg := msg, pc := .returned none } }
    else
      { s with
        idleConn := rest
        evMgr := s.evMgr.add n (s.name n)
        calls := Function.update s.calls k { type := type, msg := msg, pc := .allocated n } }

/-- The message as `EventConn::Send` posts it. -/
def stamped (s : EventConnManager κ) (n : ℕ) (msg : Msg) : Msg :=
  if msg.src = "" then { msg with src := s.name n } else msg

def callStep (s : EventConnManager κ) (k : κ) : EventConnManager κ :=
  let x := s.calls k
  match x.pc with
  | .start | .returned _ => s
  | .allocated n => (s.mapConn n fun c => { c with connType := x.type }).setPc k (.typed n)
  | .typed n =>
    (s.mapConn n fun c => { c with mailbox := { c.mailbox with send := [] } }).setPc k (.cleared n)
  | .cleared n =>
    if x.msg.dst = "" then s.setPc k (.finished n none)
    else
      (s.mapConn n fun c =>
        { c with mailbox := c.mailbox.push ⟨.call k, s.stamped n x.msg⟩ }).setPc k (.queued n)
  | .queued n =>
    (s.mapConn n fun c =>
      { c with
        channel := c.channel.sendToMain
          (match x.type with | .kSend => .kRun | .kSendReq => .kRunWithMsg) }).setPc k (.waiting n)
  | .waiting n =>
    (s.mapConn n fun c =>
      { c with channel := { c.channel with toOwner := c.channel.toOwner.tail } }).setPc k
        (match x.type with | .kSend => .finished n none | .kSendReq => .woken n)
  | .woken n =>
    match (s.conns n).mailbox.recv with
    | [] => s.setPc k (.finished n none)
    | p :: rest =>
      (s.mapConn n fun c => { c with mailbox := { c.mailbox with recv := rest } }).setPc k (.popped n p)
  | .popped n p =>
    (s.mapConn n fun c => { c with mailbox := { c.mailbox with recv := [] } }).setPc k
      (.finished n (some p))
  | .finished n r =>
    match x.type with
    | .kSendReq => s.setPc k (.returned r)
    | .kSend =>
      if s.evMgr.evs n = true then
        { s with evMgr := s.evMgr.del n (s.name n) }.setPc k (.unregistered n)
      else s.setPc k (.returned r)
  | .unregistered n => { s with idleConn := s.idleConn ++ [n] }.setPc k (.returned none)

end Calls

def directory (c : Setting) : Directory where
  nodeAddr := c.nodeAddr
  hasActor := c.hasActor
  hasEvent := c.hasWorker

/-- `App::DispatchMsg(msg)`: what it will do. -/
def dispatch (c : Setting) (s : EventConnManager κ) (p : Parcel (Origin κ)) : EventConnManager κ :=
  let (subs, deliveries) := (directory c).dispatchMsg c.walk s.subs p.msg
  { s with subs := subs, deliveries := deliveries.map fun d => (d, p) }

/-- The last part of `ProcessEventConn`. -/
def receive (s : EventConnManager κ) (n : ℕ) : EventConnManager κ :=
  match (s.conns n).channel.toMain with
  | [] => s
  | cmd :: rest =>
    let s := s.mapConn n fun x => { x with channel := { x.channel with toMain := rest } }
    if cmd = .kRun then s.mapConn n fun x => { x with channel := x.channel.sendToOwner .kIdle } else s

def notifyStep (s : EventConnManager κ) : Notify κ → EventConnManager κ
  | .ready => s
  | .found n p =>
    if (s.conns n).connType = .kSend then { s with notify := .ready }
    else { s with notify := .checked n p }
  | .checked n p =>
    if s.evMgr.evs n = true then
      { s with evMgr := s.evMgr.del n (s.name n), notify := .deleted n p }
    else { s with notify := .released n p }
  | .deleted n p => { s with idleConn := s.idleConn ++ [n], notify := .released n p }
  | .released n p =>
    { s.mapConn n fun x => { x with mailbox := x.mailbox.receive p } with notify := .stored n }
  | .stored n =>
    { s.mapConn n fun x => { x with channel := x.channel.sendToOwner .kIdle } with notify := .ready }

/-- One delivery of the message being dispatched: a connection is looked up, first by its name and
then by its handle. -/
def deliver (s : EventConnManager κ) (p : Parcel (Origin κ)) : Delivery → EventConnManager κ
  | .conn name =>
    match s.evMgr.names name with
    | none => s
    | some n => if s.evMgr.evs n = true then { s with notify := .found n p } else s
  | .actor _ | .worker _ => { s with received := s.received ++ [p] }

/-- One step of `ProcessEventConn`. -/
def processEventConn (c : Setting) (s : EventConnManager κ) (n : ℕ) : EventConnManager κ :=
  match s.eventPc with
  | .draining =>
    match (s.conns n).mailbox.send with
    | p :: rest =>
      (s.mapConn n fun x => { x with mailbox := { x.mailbox with send := rest } }).dispatch c p
    | [] => { s with eventPc := .clearing }
  | .clearing =>
    { s.mapConn n fun x => { x with mailbox := { x.mailbox with send := [] } } with eventPc := .receiving }
  | .receiving => { s.receive n with event := none }

def mainStep (c : Setting) (s : EventConnManager κ) : EventConnManager κ :=
  match s.notify with
  | .ready =>
    match s.deliveries with
    | (d, p) :: rest => { s with deliveries := rest }.deliver p d
    | [] =>
      match s.event with
      | none => s
      | some n => s.processEventConn c n
  | pc => s.notifyStep pc

/-- The main loop has something to finish before it takes up anything new. -/
def busy (s : EventConnManager κ) : Bool :=
  match s.notify, s.deliveries, s.event with
  | .ready, [], none => false
  | _, _, _ => true

variable [DecidableEq κ]

def next (c : Setting) (s : EventConnManager κ) : Label κ → EventConnManager κ
  | .alloc k type msg => s.alloc k type msg
  | .call k => s.callStep k
  | .main => s.mainStep c
  | .event n => { s with event := some n, eventPc := .draining }
  | .answer p m => s.dispatch c ⟨.answer p.mark, { m with dst := p.msg.src }⟩
  | .arrive m => s.dispatch c ⟨.other, m⟩

/-- A call goes on by itself except where it waits for a command. -/
def ready (s : EventConnManager κ) (k : κ) : Bool :=
  match (s.calls k).pc with
  | .start | .returned _ => false
  | .waiting n => !(s.conns n).channel.toOwner.isEmpty
  | _ => true

/-- An actor may answer what it has received as often as it likes. -/
def enabled (s : EventConnManager κ) : Label κ → Prop
  | .alloc k _ _ => (s.calls k).pc = .start
  | .call k => s.ready k = true
  | .main => s.busy = true
  | .event n => s.busy = false ∧ s.evMgr.evs n = true ∧ (s.conns n).channel.toMain ≠ []
  | .answer p _ => s.busy = false ∧ p ∈ s.received
  | .arrive _ => s.busy = false

def system (c : Setting) : Transition.System (EventConnManager κ) (Label κ) where
  enabled s l := s.enabled l
  next s l := s.next c l

instance (s : EventConnManager κ) (l : Label κ) : Decidable (s.enabled l) :=
  match l with
  | .alloc k _ _ => inferInstanceAs (Decidable ((s.calls k).pc = .start))
  | .call k => inferInstanceAs (Decidable (s.ready k = true))
  | .main => inferInstanceAs (Decidable (s.busy = true))
  | .event n => inferInstanceAs (Decidable
      (s.busy = false ∧ s.evMgr.evs n = true ∧ (s.conns n).channel.toMain ≠ []))
  | .answer p _ => inferInstanceAs (Decidable (s.busy = false ∧ p ∈ s.received))
  | .arrive _ => inferInstanceAs (Decidable (s.busy = false))

instance (c : Setting) (s : EventConnManager κ) (l : Label κ) : Decidable ((system c).enabled s l) :=
  inferInstanceAs (Decidable (s.enabled l))

end EventConnManager
end Myframe
