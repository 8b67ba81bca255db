import Myframe.Library.Transition
import Myframe.Mailbox
import Myframe.App.Dispatch

/-! # Requests and responses between actors

The code of an actor runs in `Init`, in `Proc` and in its callbacks, and may request, respond or
send whatever it likes at any of these times. Which call of the actor a step belongs to plays no
part here, except that a callback runs inside `ProcResponse`.
-/
namespace Myframe
set_option autoImplicit false

/-- The requests of all actors, each known by the actor and the number of its requests before it. -/
abbrev RequestOrigin (ι : Type) : Type := Origin (ι × ℕ)

/-- The part of an actor's context that requests use. A callback is known by the number of requests
issued before the one it was registered with, and `calling` is the iterator of `ProcResponse`. -/
structure RequestContext (ι : Type) where
  mailbox : Mailbox (RequestOrigin ι) := {}
  requestId : UInt32 := 0
  requestCallbacks : String → Option ℕ := fun _ => none
  issued : ℕ := 0
  calling : Option String := none

namespace RequestContext

variable {ι : Type}

def request (x : RequestContext ι) (a : ι) (msg : Msg) : RequestContext ι × Bool :=
  if msg.dst = "" then (x, false)
  else if msg.dst = x.mailbox.addr then (x, false)
  else
    let id := toString x.requestId.toNat
    ({ x with
        requestId := x.requestId + 1
        issued := x.issued + 1
        requestCallbacks := Function.update x.requestCallbacks id (some x.issued)
        mailbox := x.mailbox.pushTo msg.dst
          ⟨.call (a, x.issued), { msg with type := msgTypeRequest, desc := id }⟩ }, true)

def response (x : RequestContext ι) (req : Parcel (RequestOrigin ι)) (msg : Msg) :
    RequestContext ι × Bool :=
  if req.msg.type ≠ msgTypeRequest then (x, false)
  else if req.msg.desc = "" then (x, false)
  else if req.msg.src = "" then (x, false)
  else if req.msg.src = x.mailbox.addr then (x, false)
  else
    ({ x with
        mailbox := x.mailbox.push
          ⟨.answer req.mark,
            { msg with
              src := x.mailbox.addr
              dst := req.msg.src
              name := req.msg.name
              type := msgTypeResponse
              desc := req.msg.desc }⟩ }, true)

/-- The callback found is invoked at once and erased when it returns. -/
def procResponse (x : RequestContext ι) (p : Parcel (RequestOrigin ι)) : RequestContext ι × Option ℕ :=
  match x.requestCallbacks p.msg.desc with
  | none => (x, none)
  | some n => ({ x with calling := some p.msg.desc }, some n)

/-- `Proc`, up to the code of the actor: the callback it invokes, if it does. -/
def proc (x : RequestContext ι) (p : Parcel (RequestOrigin ι)) : RequestContext ι × Option ℕ :=
  if p.msg.type = msgTypeResponse then x.procResponse p else (x, none)

def erase (x : RequestContext ι) : RequestContext ι :=
  match x.calling with
  | none => x
  | some id =>
    { x with requestCallbacks := Function.update x.requestCallbacks id none, calling := none }

end RequestContext

structure Exchange (ι : Type) where
  actors : ι → RequestContext ι
  posted : List (Parcel (RequestOrigin ι)) := []

namespace Exchange

/-- `send` is any other use of the mailbox, and may forge everything but a response. -/
inductive Label (ι : Type) where
  | request (a : ι) (msg : Msg)
  | response (a : ι) (req : Parcel (RequestOrigin ι)) (msg : Msg)
  | send (a : ι) (msg : Msg)
  | dispatch (a : ι)
  | proc (a : ι) (p : Parcel (RequestOrigin ι))
  | callbackReturn (a : ι)

/-- The address of every actor; `ctxs` are the actors registered under a name. -/
structure Setting (ι : Type) where
  actorName : ι → String
  ctxs : String → Option ι
  nodeAddr : String := ""

variable {ι : Type} [DecidableEq ι]

def modify (s : Exchange ι) (a : ι) (f : RequestContext ι → RequestContext ι) : Exchange ι :=
  { s with actors := Function.update s.actors a (f (s.actors a)) }

omit [DecidableEq ι] in
def directory (c : Setting ι) : Directory where
  nodeAddr := c.nodeAddr
  hasActor name := (c.ctxs name).isSome
  hasEvent _ := false

/-- The main loop puts the message into the receive queue of the actor. -/
def reaches (c : Setting ι) (msg : Msg) (a : ι) : Bool :=
  ((directory c).dispatchTo msg msg.dst msg.transMode).any fun
    | .actor name => decide (c.ctxs name = some a)
    | .worker _ | .conn _ => false

def next (s : Exchange ι) : Label ι → Exchange ι
  | .request a msg => s.modify a fun x => (x.request a msg).1
  | .response a req msg => s.modify a fun x => (x.response req msg).1
  | .send a msg => s.modify a fun x => { x with mailbox := x.mailbox.push ⟨.other, msg⟩ }
  | .dispatch a =>
    match (s.actors a).mailbox.send with
    | [] => s
    | p :: rest =>
      { s.modify a fun x => { x with mailbox := { x.mailbox with send := rest } } with
        posted := s.posted ++ [p] }
  | .proc a p => s.modify a fun x => (x.proc p).1
  | .callbackReturn a => s.modify a RequestContext.erase

/-- An actor processes one message at a time. It may keep a message and respond to it later and
more than once; only `Response` makes responses. -/
def enabled (c : Setting ι) (s : Exchange ι) : Label ι → Prop
  | .request _ _ => True
  | .response _ req _ => req ∈ s.posted
  | .send _ msg => msg.type ≠ msgTypeResponse
  | .dispatch a => (s.actors a).mailbox.send ≠ []
  | .proc a p => (s.actors a).calling = none ∧ p ∈ s.posted ∧ reaches c p.msg a = true
  | .callbackReturn a => (s.actors a).calling ≠ none

def system (c : Setting ι) : Transition.System (Exchange ι) (Label ι) where
  enabled := enabled c
  next := next

instance (c : Setting ι) (s : Exchange ι) (l : Label ι) : Decidable ((system c).enabled s l) :=
  match l with
  | .request _ _ => .isTrue trivial
  | .response _ req _ => inferInstanceAs (Decidable (req ∈ s.posted))
  | .send _ msg => inferInstanceAs (Decidable (msg.type ≠ msgTypeResponse))
  | .dispatch a => inferInstanceAs (Decidable ((s.actors a).mailbox.send ≠ []))
  | .proc a p => inferInstanceAs
    (Decidable ((s.actors a).calling = none ∧ p ∈ s.posted ∧ reaches c p.msg a = true))
  | .callbackReturn a => inferInstanceAs (Decidable ((s.actors a).calling ≠ none))

def initial (c : Setting ι) : Exchange ι where
  actors a := { mailbox := { addr := c.actorName a } }

end Exchange
end Myframe
