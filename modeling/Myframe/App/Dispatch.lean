import Myframe.MsgManager

/-! # Where `App::DispatchMsg` sends a message

The result of a dispatch is the list of calls it makes on the managers that own the receive queues.
-/
namespace Myframe
set_option autoImplicit false
open Common

inductive Delivery where
  | actor (name : String)
  | worker (name : String)
  | conn (name : String)
  deriving DecidableEq, Repr

/-- What a dispatch asks of the rest of the application. -/
structure Directory where
  nodeAddr : String
  hasActor : String → Bool
  hasEvent : String → Bool

namespace Directory

variable (d : Directory)

def trans2actor (dst : String) : List Delivery := if d.hasActor dst then [.actor dst] else []

def trans2worker (dst : String) : List Delivery := if d.hasEvent dst then [.worker dst] else []

def trans2ev (part1 dst : String) : List Delivery := if part1 = "conn" then [.conn dst] else []

def trans2dds : List Delivery :=
  if d.nodeAddr = "" then []
  else if d.nodeAddr.toList.take 5 = "actor".toList then [.actor d.nodeAddr]
  else if d.nodeAddr.toList.take 6 = "worker".toList then [.worker d.nodeAddr]
  else []

/-- The three `trans2hybird` functions differ in the local one only. -/
def trans2hybird (l : List Delivery) : List Delivery :=
  if d.nodeAddr = "" then l else l ++ d.trans2dds

def transMap (l : List Delivery) : TransMode → List Delivery
  | .kIntra => l
  | .kDDS => d.trans2dds
  | .kHybrid => d.trans2hybird l

/-- `DispatchMsg(msg, dst, trans_mode)`. -/
def dispatchTo (msg : Msg) (dst : String) (mode : TransMode) : List Delivery :=
  let dstAddr := if dst = "" then msg.dst else dst
  match splitMsgName dstAddr with
  | [part0, part1, _] =>
    if part0 = "actor" then d.transMap (d.trans2actor dstAddr) mode
    else if part0 = "worker" then d.transMap (d.trans2worker dstAddr) mode
    else if part0 = "event" then d.transMap (trans2ev part1 dstAddr) mode
    else []
  | _ => []

/-- `DispatchMsg(msg)`: the subscriptions it leaves behind and the deliveries it makes. -/
def dispatchMsg (w : SetWalk) (subs : MsgManager) (msg : Msg) : MsgManager × List Delivery :=
  let (subs', forward, calls) := subs.outcome w msg
  if msg.type = msgTypeSub then
    (subs', if forward then d.dispatchTo msg d.nodeAddr .kDDS else [])
  else if msg.type = msgTypePub then
    (subs', calls.flatMap fun call => d.dispatchTo msg (if call.1 = "" then d.nodeAddr else call.1) call.2)
  else (subs', d.dispatchTo msg msg.dst msg.transMode)

theorem dispatchMsg_ordinary {msg : Msg} (h : msg.Ordinary) (w : SetWalk) (subs : MsgManager) :
    (d.dispatchMsg w subs msg).2 = d.dispatchTo msg msg.dst msg.transMode := by
  simp only [dispatchMsg, if_neg h.1, if_neg h.2]

theorem dispatchTo_actor {cls inst : String} (hCls : DotFree cls) (hInst : DotFree inst) {msg : Msg}
    (hDst : msg.dst = address "actor" cls inst) (hHas : d.hasActor msg.dst = true) :
    d.dispatchTo msg msg.dst .kIntra = [.actor msg.dst] := by
  have hActor : DotFree "actor" := by decide
  have hSplit : splitMsgName msg.dst = ["actor", cls, inst] := by
    rw [hDst, splitMsgName_address hActor hCls hInst]
  simp only [dispatchTo, ite_self, hSplit, if_true, transMap, trans2actor, hHas]

/-- With no node actor a message comes to the actor it is addressed to, if to any. -/
theorem eq_of_actor_mem_dispatchTo (hNode : d.nodeAddr.toList.take 5 ≠ "actor".toList) {msg : Msg}
    {mode : TransMode} {name : String} (h : .actor name ∈ d.dispatchTo msg msg.dst mode) :
    name = msg.dst := by
  have hDds : .actor name ∉ d.trans2dds := by
    simp only [trans2dds, if_neg hNode]
    split
    · exact List.not_mem_nil
    · split <;> simp
  have hMap : ∀ l : List Delivery, .actor name ∈ d.transMap l mode → .actor name ∈ l := by
    intro l hl
    cases mode with
    | kIntra => exact hl
    | kDDS => exact absurd hl hDds
    | kHybrid =>
      simp only [transMap, trans2hybird] at hl
      split at hl
      · exact hl
      · exact (List.mem_append.mp hl).resolve_right hDds
  simp only [dispatchTo, ite_self] at h
  split at h
  · split at h
    · have hActor := hMap _ h
      simp only [trans2actor] at hActor
      split at hActor
      · exact Delivery.actor.inj (List.mem_singleton.mp hActor)
      · cases hActor
    · split at h
      · have hWorker := hMap _ h
        simp only [trans2worker] at hWorker
        split at hWorker <;> simp at hWorker
      · split at h
        · have hConn := hMap _ h
          simp only [trans2ev] at hConn
          split at hConn <;> simp at hConn
        · cases h
  · cases h

end Directory
end Myframe
