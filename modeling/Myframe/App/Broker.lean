import Myframe.Library.Broker
import Myframe.App.Routing
import Myframe.MsgManager.Modes

/-! # The application as a broker

`App::DispatchMsg` with its table of subscriptions and its routing table, seen by one actor: it puts as
many copies of a message into the actor's mailbox as a broker owes the actor. The gate is the node.
-/
namespace Myframe
set_option autoImplicit false
open Common

namespace MsgManager

/-- The table holds what has been asked for. -/
structure Holds (history : List (Broker.Order String String)) (s : MsgManager) : Prop where
  nodup : ∀ topic, (s.names topic).Nodup
  mem_iff : ∀ c topic, c ∈ s.names topic ↔ Broker.Asked history c topic

theorem Holds.empty : Holds [] empty where
  nodup _ := List.nodup_nil
  mem_iff _ _ := iff_of_false List.not_mem_nil Broker.not_asked_nil

end MsgManager

namespace Directory

open MsgManager

/-- The routing table has a row for the address. -/
def known (dst : String) : Bool :=
  match splitMsgName dst with
  | [part0, _, _] => decide (part0 = "actor" ∨ part0 = "worker" ∨ part0 = "event")
  | _ => false

/-- What a message is to a broker. -/
def order (m : Msg) : Broker.Order String String :=
  if m.type = msgTypeSub then .wish m.src (getTopicName m true) (decide (Local m)) (decide (Remote m))
  else if m.type = msgTypePub then .publish (getTopicName m false) (decide (Local m)) (decide (Remote m))
  else .send m.dst (decide (Local m)) (decide (Remote m) && known m.dst)

theorem order_sub {m : Msg} (h : m.type = msgTypeSub) :
    order m = .wish m.src (getTopicName m true) (decide (Local m)) (decide (Remote m)) := if_pos h

theorem order_pub {m : Msg} (h : m.type = msgTypePub) :
    order m = .publish (getTopicName m false) (decide (Local m)) (decide (Remote m)) := by
  rw [order, if_neg (by rw [h]; decide), if_pos h]

/-- Only a SUB is a wish. -/
theorem sub_of_order {m : Msg} {c topic : String} {here out : Bool} (h : order m = .wish c topic here out) :
    m.type = msgTypeSub ∧ m.src = c ∧ getTopicName m true = topic ∧ here = decide (Local m) := by
  rw [order] at h
  split at h
  · next hSub =>
    obtain ⟨rfl, rfl, rfl, -⟩ := Broker.Order.wish.inj h
    exact ⟨hSub, rfl, rfl, rfl⟩
  · split at h <;> cases h

end Directory

namespace MsgManager

open Directory

theorem Holds.outcome {history : List (Broker.Order String String)} {s : MsgManager} (h : s.Holds history)
    (w : SetWalk) (m : Msg) : (s.outcome w m).1.Holds (history ++ [order m]) where
  nodup topic := by
    rw [names, outcome_lookup]
    split
    · exact addSubInfo_nodup h.nodup m topic
    · exact h.nodup topic
  mem_iff c topic := by
    rw [Broker.asked_append_singleton, ← h.mem_iff, names, outcome_lookup]
    split
    · next hSub =>
      refine (addSubInfo_names s m c topic).trans (or_congr_right ?_)
      constructor
      · rintro ⟨hLocal, rfl, rfl⟩
        exact ⟨_, by rw [order_sub hSub, decide_eq_true hLocal]⟩
      · rintro ⟨out, hOrder⟩
        obtain ⟨-, hSrc, hTopic, hLocal⟩ := sub_of_order hOrder
        exact ⟨of_decide_eq_true hLocal.symm, hSrc, hTopic⟩
    · next hSub =>
      refine (or_iff_left ?_).symm
      rintro ⟨out, hOrder⟩
      exact hSub (sub_of_order hOrder).1

end MsgManager

namespace Directory

open MsgManager

section Actor

variable {d : Directory} {name cls inst : String} (hCls : DotFree cls) (hInst : DotFree inst)
  (hName : name = address "actor" cls inst)
include hName

theorem count_trans2dds : d.trans2dds.count (.actor name) = if d.nodeAddr = name then 1 else 0 := by
  split
  · next hNode => rw [App.trans2dds_actor (hNode.trans hName), hNode, List.count_singleton_self]
  · next hNode =>
    refine List.count_eq_zero_of_not_mem fun hMem => ?_
    rw [trans2dds] at hMem
    split at hMem
    · cases hMem
    · split at hMem
      · exact hNode (Delivery.actor.inj (List.mem_singleton.mp hMem)).symm
      · split at hMem
        · cases List.mem_singleton.mp hMem
        · cases hMem

include hCls hInst

theorem splitMsgName_name : splitMsgName name = ["actor", cls, inst] := by
  rw [hName, splitMsgName_address (by decide) hCls hInst]

theorem known_name : known name = true := by
  simp [known, splitMsgName_name hCls hInst hName]

/-- The row of the table that an address chooses has a cell for the actor only if the address is the
actor's. -/
theorem count_dispatchTo (hHas : d.hasActor name = true) {msg : Msg} {dst a : String}
    (hAddr : (if dst = "" then msg.dst else dst) = a) (mode : TransMode) :
    (d.dispatchTo msg dst mode).count (.actor name) =
      (if mode ≠ .kDDS ∧ a = name then 1 else 0) +
        if d.nodeAddr = name ∧ mode ≠ .kIntra ∧ known a = true then 1 else 0 := by
  have hRow : ∀ l : List Delivery, known a = true → l.count (.actor name) = (if a = name then 1 else 0) →
      (d.transMap l mode).count (.actor name) =
        (if mode ≠ .kDDS ∧ a = name then 1 else 0) +
          if d.nodeAddr = name ∧ mode ≠ .kIntra ∧ known a = true then 1 else 0 := by
    intro l hKnown hCount
    rw [App.transMap_eq, List.count_append, hKnown]
    cases mode <;> simp [hCount, count_trans2dds hName]
  have hOther : splitMsgName a ≠ ["actor", cls, inst] → a ≠ name := fun hNe hEq =>
    hNe (hEq ▸ splitMsgName_name hCls hInst hName)
  rw [dispatchTo]
  simp only [hAddr]
  split
  · next part0 part1 part2 hSplit =>
    split
    · next hPart =>
      refine hRow _ (by simp [known, hSplit, hPart]) ?_
      rw [trans2actor]
      split
      · simp only [List.count_singleton, beq_iff_eq, Delivery.actor.injEq]
      · next hNot =>
        rw [if_neg (by rintro rfl; exact hNot hHas)]
        rfl
    · next hActor =>
      have hNe : a ≠ name := hOther (by rw [hSplit]; simp [hActor])
      split
      · next hPart =>
        refine hRow _ (by simp [known, hSplit, hPart]) ?_
        rw [trans2worker, if_neg hNe]
        split <;> rfl
      · next hWorker =>
        split
        · next hPart =>
          refine hRow _ (by simp [known, hSplit, hPart]) ?_
          rw [trans2ev, if_neg hNe]
          split <;> rfl
        · next hEvent => simp [known, hSplit, hActor, hWorker, hEvent, hNe]
  · next hSplit =>
    have hUnknown : known a = false := by
      rw [known]
      split
      · next part0 part1 part2 hThree => exact absurd hThree (hSplit part0 part1 part2)
      · rfl
    have hNe : a ≠ name := hOther fun hThree => hSplit _ _ _ hThree
    simp [hUnknown, hNe]

/-- What goes to the node comes to the actor if it is the node. -/
theorem count_dispatchTo_node (hHas : d.hasActor name = true) (msg : Msg) :
    (d.dispatchTo msg d.nodeAddr .kDDS).count (.actor name) = if d.nodeAddr = name then 1 else 0 := by
  rw [count_dispatchTo hCls hInst hName hHas rfl]
  by_cases hNode : d.nodeAddr = name
  · have hSome : name ≠ "" := hName ▸ address_ne_empty _ _ _
    simp [hNode, hSome, known_name hCls hInst hName]
  · simp [hNode]

theorem count_sub (hHas : d.hasActor name = true) {history : List (Broker.Order String String)} {s : MsgManager}
    (h : s.Holds history) (w : SetWalk) {m : Msg} (hSub : m.type = msgTypeSub) :
    (d.dispatchMsg w s m).2.count (.actor name) =
      Broker.due history name (decide (d.nodeAddr = name)) (order m) := by
  have hForward : (s.outcome w m).2.1 = true ↔
      Remote m ∧ ¬ (Local m ∧ Broker.Asked history m.src (getTopicName m true)) := by
    rw [MsgManager.outcome, if_pos hSub, forwards_iff, h.mem_iff, Remote, Local]
    cases m.transMode <;> simp
  rw [order_sub hSub, Broker.due]
  simp only [dispatchMsg, hSub, if_true, decide_eq_true_eq]
  split
  · next hYes => simp only [count_dispatchTo_node hCls hInst hName hHas, hForward.mp hYes, and_true, not_false_iff]
  · next hNo =>
    rw [hForward] at hNo
    simp only [hNo, and_false, if_false, List.count_nil]

theorem count_calls (hHas : d.hasActor name = true) (msg : Msg) {l : List String} (h : l.Nodup) (hSent : "" ∉ l) :
    (l.flatMap fun c => d.dispatchTo msg (if c = "" then d.nodeAddr else c) .kIntra).count (.actor name) =
      if name ∈ l then 1 else 0 := by
  induction l with
  | nil => rfl
  | cons c l ih =>
    rw [List.mem_cons, not_or] at hSent
    obtain ⟨hMem, hNodup⟩ := List.nodup_cons.mp h
    have hCall : (if c = "" then d.nodeAddr else c) = c := if_neg (Ne.symm hSent.1)
    have hAddr : (if c = "" then msg.dst else c) = c := if_neg (Ne.symm hSent.1)
    rw [List.flatMap_cons, List.count_append, ih hNodup hSent.2, hCall,
      count_dispatchTo hCls hInst hName hHas hAddr]
    obtain rfl | hNe := eq_or_ne c name
    · simp [hMem]
    · simp [hNe, hNe.symm]

theorem count_pub (hHas : d.hasActor name = true) {history : List (Broker.Order String String)} {s : MsgManager}
    (h : s.Holds history) (hSent : ∀ topic, "" ∉ s.names topic) (w : SetWalk) {m : Msg}
    (hPub : m.type = msgTypePub) : (d.dispatchMsg w s m).2.count (.actor name) =
      Broker.due history name (decide (d.nodeAddr = name)) (order m) := by
  have hSub : m.type ≠ msgTypeSub := by rw [hPub]; decide
  have hWalk : ((w.order (s.lookup (getTopicName m false))).map SubInfo.comName).Perm
      (s.names (getTopicName m false)) := (w.perm _).map _
  have hLocal := count_calls hCls hInst hName hHas m (hWalk.nodup_iff.mpr (h.nodup _))
    fun hMem => hSent _ (hWalk.mem_iff.mp hMem)
  simp only [hWalk.mem_iff, h.mem_iff, List.flatMap_map] at hLocal
  rw [order_pub hPub, Broker.due]
  simp only [dispatchMsg, hPub, if_neg (show msgTypePub ≠ msgTypeSub by decide), if_true, decide_eq_true_eq,
    outcome_pub hPub, dispatchPubMsg]
  rw [List.flatMap_append, List.count_append]
  congr 1
  · split
    · next hMode =>
      rw [List.flatMap_map, hLocal]
      simp only [show Local m from hMode, true_and]
    · next hMode => simp only [show ¬ Local m from hMode, false_and, if_false, List.flatMap_nil, List.count_nil]
  · split
    · next hMode =>
      rw [List.flatMap_singleton, if_pos rfl, count_dispatchTo_node hCls hInst hName hHas]
      simp only [show Remote m from hMode, and_true]
    · next hMode => simp only [show ¬ Remote m from hMode, and_false, if_false, List.flatMap_nil, List.count_nil]

/-- An actor is put as many copies of a message into its mailbox as a broker owes it. -/
theorem count_dispatchMsg (hHas : d.hasActor name = true) {history : List (Broker.Order String String)}
    {s : MsgManager} (h : s.Holds history) (hSent : ∀ topic, "" ∉ s.names topic) (w : SetWalk) (m : Msg) :
    (d.dispatchMsg w s m).2.count (.actor name) =
      Broker.due history name (decide (d.nodeAddr = name)) (order m) := by
  by_cases hSub : m.type = msgTypeSub
  · exact count_sub hCls hInst hName hHas h w hSub
  · by_cases hPub : m.type = msgTypePub
    · exact count_pub hCls hInst hName hHas h hSent w hPub
    · rw [dispatchMsg_ordinary d ⟨hSub, hPub⟩, count_dispatchTo hCls hInst hName hHas (ite_self _), order,
        if_neg hSub, if_neg hPub, Broker.due]
      cases hMode : m.transMode <;> simp [Local, Remote, hMode]

end Actor
end Directory
end Myframe
