import Mathlib.Logic.Function.Iterate
import Myframe.App.Instances
import Myframe.UserWorker.Weakup

/-! # Whom an ordinary message comes to

The nine cells of the routing table against the two recipients a message may have: the component it is
addressed to and the node.
-/
namespace Myframe
set_option autoImplicit false
open Common

/-- The receive queues of an application. -/
inductive Queue (ι ω : Type) where
  | actor (i : ι)
  | worker (w : ω)
  | conn (n : ℕ)
  deriving DecidableEq

/-- The first part of the names of such components. -/
def Queue.part0 {ι ω : Type} : Queue ι ω → String
  | .actor _ => "actor"
  | .worker _ => "worker"
  | .conn _ => "event"

namespace App

variable {ι ω κ : Type}

def box (a : App ι ω κ) : Queue ι ω → Mailbox (Origin κ)
  | .actor i => (a.actorCtxMgr.heap i).mailbox
  | .worker w => (a.workerCtxMgr.heap w).mailbox
  | .conn n => (a.conns n).mailbox

/-- The component is registered under this name: an actor, a user worker, or a connection that waits for
the answer to a request. -/
def Registered (a : App ι ω κ) (name : String) : Queue ι ω → Prop
  | .actor i => a.actorCtxMgr.ctxs name = some i
  | .worker w => a.workerCtxMgr.names name = some w ∧ (a.workerCtxMgr.heap w).type = .kWorkerUser
  | .conn n => a.evMgr.names name = some n ∧ a.evMgr.evs n = true ∧ (a.conns n).connType = .kSendReq

/-- Each component is registered under one name, which is made as the code makes it. -/
structure WellNamed (a : App ι ω κ) : Prop where
  own : ∀ q name name', a.Registered name q → a.Registered name' q → name = name'
  actor : ∀ name i, a.Registered name (.actor i) → ∃ type inst, name = address "actor" type inst
  worker : ∀ name w, a.Registered name (.worker w) → ∃ type inst, name = address "worker" type inst
  conn : ∀ name n, a.Registered name (.conn n) → ∃ inst, name = address "event" "conn" inst
  node : a.nodeAddr = "" ∨
    ∃ type inst, a.nodeAddr = address "actor" type inst ∨ a.nodeAddr = address "worker" type inst

/-- Three parts, the first of which the table has a row for. -/
def Known (dst : String) : Prop :=
  ∃ part0 part1 part2, splitMsgName dst = [part0, part1, part2] ∧
    (part0 = "actor" ∨ part0 = "worker" ∨ part0 = "event")

/-- The component the message is addressed to, where its mode keeps it in the process. -/
def Addressee (a : App ι ω κ) (msg : Msg) (q : Queue ι ω) : Prop :=
  (splitMsgName msg.dst).length = 3 ∧ a.Registered msg.dst q ∧
    (msg.transMode = .kIntra ∨ msg.transMode = .kHybrid)

/-- The node, where the mode of the message leads out of the process. -/
def NodeCopy (a : App ι ω κ) (msg : Msg) (q : Queue ι ω) : Prop :=
  Known msg.dst ∧ a.nodeAddr ≠ "" ∧ a.Registered a.nodeAddr q ∧
    (msg.transMode = .kDDS ∨ msg.transMode = .kHybrid)

def queueOf (a : App ι ω κ) : Delivery → Option (Queue ι ω)
  | .actor name => (a.actorCtxMgr.ctxs name).map .actor
  | .worker name => (a.workerCtxMgr.names name).bind fun w =>
    if (a.workerCtxMgr.heap w).type = .kWorkerUser then some (.worker w) else none
  | .conn name => (a.evMgr.names name).bind fun n =>
    if a.evMgr.evs n = true ∧ (a.conns n).connType = .kSendReq then some (.conn n) else none

theorem queueOf_actor {a : App ι ω κ} {name : String} {q : Queue ι ω} :
    a.queueOf (.actor name) = some q ↔ ∃ i, q = .actor i ∧ a.Registered name q := by
  rw [queueOf, Option.map_eq_some_iff]
  constructor
  · rintro ⟨i, hi, rfl⟩
    exact ⟨i, rfl, hi⟩
  · rintro ⟨i, rfl, hi⟩
    exact ⟨i, hi, rfl⟩

theorem queueOf_worker {a : App ι ω κ} {name : String} {q : Queue ι ω} :
    a.queueOf (.worker name) = some q ↔ ∃ w, q = .worker w ∧ a.Registered name q := by
  rw [queueOf, Option.bind_eq_some_iff]
  constructor
  · rintro ⟨w, hw, hq⟩
    split at hq
    · next hType =>
      obtain rfl := Option.some.inj hq
      exact ⟨w, rfl, hw, hType⟩
    · cases hq
  · rintro ⟨w, rfl, hw, hType⟩
    exact ⟨w, hw, if_pos hType⟩

theorem queueOf_conn {a : App ι ω κ} {name : String} {q : Queue ι ω} :
    a.queueOf (.conn name) = some q ↔ ∃ n, q = .conn n ∧ a.Registered name q := by
  rw [queueOf, Option.bind_eq_some_iff]
  constructor
  · rintro ⟨n, hn, hq⟩
    split at hq
    · next hWaits =>
      obtain rfl := Option.some.inj hq
      exact ⟨n, rfl, hn, hWaits⟩
    · cases hq
  · rintro ⟨n, rfl, hn, hWaits⟩
    exact ⟨n, hn, if_pos hWaits⟩

theorem finds_eq (a : App ι ω κ) (d : Delivery) : a.finds d = (a.queueOf d).isSome := by
  cases d with
  | actor name => exact Option.isSome_map.symm
  | worker name =>
    rw [finds, queueOf]
    cases a.workerCtxMgr.names name with
    | none => rfl
    | some w =>
      simp only [Option.any_some, Option.bind_some]
      split <;> simp [*]
  | conn name =>
    rw [finds, queueOf]
    cases a.evMgr.names name with
    | none => rfl
    | some n =>
      simp only [Option.any_some, Option.bind_some]
      split <;> simp_all

section Deliver

variable [DecidableEq ι] [DecidableEq ω]

theorem deliverTo_of_none {a : App ι ω κ} {d : Delivery} (h : a.queueOf d = none) (p : Parcel (Origin κ)) :
    a.deliverTo p d = a := by
  rw [deliverTo, finds_eq, h, if_neg (by simp)]

omit [DecidableEq ι] in
theorem dispatchWorkerMsg_mailbox {γ : Type} (s : WorkerContextManager ω γ) {name : String} {w : ω}
    (hName : s.names name = some w) (hType : (s.heap w).type = .kWorkerUser) (p : Parcel γ) (v : ω) :
    ((s.dispatchWorkerMsg name p).heap v).mailbox =
      if w = v then (s.heap v).mailbox.receive p else (s.heap v).mailbox := by
  have hUser : ¬ (s.heap w).type ≠ .kWorkerUser := not_not.mpr hType
  rw [WorkerContextManager.dispatchWorkerMsg, hName]
  simp only [if_neg hUser]
  obtain rfl | hNe := eq_or_ne w v
  · split <;> simp
  · split <;> simp [WorkerContextManager.modify_heap, hNe.symm]

theorem deliverTo_box (p : Parcel (Origin κ)) (a : App ι ω κ) (d : Delivery) (q : Queue ι ω) :
    (a.deliverTo p d).box q = if a.queueOf d = some q then (a.box q).receive p else a.box q := by
  cases hQueue : a.queueOf d with
  | none => rw [deliverTo_of_none hQueue, if_neg nofun]
  | some r =>
    have hFinds : a.finds d = true := by rw [finds_eq, hQueue]; rfl
    rw [deliverTo, if_pos hFinds]
    cases d with
    | actor name =>
      obtain ⟨i, rfl, hi⟩ := queueOf_actor.mp hQueue
      have hi : a.actorCtxMgr.ctxs name = some i := hi
      cases q with
      | actor j => simp [box, ActorContextManager.dispatchMsg_mailbox, hi]
      | worker w | conn n => simp [box]
    | worker name =>
      obtain ⟨w, rfl, hw, hType⟩ := queueOf_worker.mp hQueue
      cases q with
      | worker v => simp [box, dispatchWorkerMsg_mailbox _ hw hType]
      | actor i | conn n => simp [box]
    | conn name =>
      obtain ⟨n, rfl, hn, -⟩ := queueOf_conn.mp hQueue
      cases q with
      | conn m =>
        obtain rfl | hNe := eq_or_ne n m
        · simp [notify, box, hn]
        · simp [notify, box, hn, hNe, Function.update_of_ne hNe.symm]
      | actor i | worker w => simp [notify, box, hn]

omit [DecidableEq ι] [DecidableEq ω] in
theorem notify_registers (a : App ι ω κ) (name : String) (p : Parcel (Origin κ)) :
    (a.notify name p).actorCtxMgr = a.actorCtxMgr ∧ (a.notify name p).workerCtxMgr = a.workerCtxMgr := by
  rw [notify]
  split <;> exact ⟨rfl, rfl⟩

omit [DecidableEq ι] in
theorem dispatchWorkerMsg_registers {γ : Type} (s : WorkerContextManager ω γ) (name : String) (p : Parcel γ) :
    (s.dispatchWorkerMsg name p).names = s.names ∧
      ∀ w, ((s.dispatchWorkerMsg name p).heap w).type = (s.heap w).type := by
  have hModify : ∀ (t : WorkerContextManager ω γ) (v : ω) (f : WorkerContext γ → WorkerContext γ),
      (∀ x, (f x).type = x.type) → ∀ w, ((t.modify v f).heap w).type = (t.heap w).type := by
    intro t v f hType w
    rw [WorkerContextManager.modify_heap]
    split
    · next hEq => rw [hType, hEq]
    · rfl
  rw [WorkerContextManager.dispatchWorkerMsg]
  split
  · exact ⟨rfl, fun _ => rfl⟩
  · next v _ =>
    split
    · exact ⟨rfl, fun _ => rfl⟩
    · have hRecv := hModify s v (fun x => { x with mailbox := x.mailbox.receive p }) fun _ => rfl
      split
      · exact ⟨rfl, hRecv⟩
      · refine ⟨rfl, fun w => ?_⟩
        exact (hModify _ v (fun x => { x with inMsgWaitQueue := true }) (fun _ => rfl) w).trans (hRecv w)

theorem deliverTo_queueOf (p : Parcel (Origin κ)) (a : App ι ω κ) (d : Delivery) {d' : Delivery}
    (h : ∀ name, d' ≠ .conn name) : (a.deliverTo p d).queueOf d' = a.queueOf d' := by
  have hSame : (a.deliverTo p d).actorCtxMgr.ctxs = a.actorCtxMgr.ctxs ∧
      (a.deliverTo p d).workerCtxMgr.names = a.workerCtxMgr.names ∧
      ∀ w, ((a.deliverTo p d).workerCtxMgr.heap w).type = (a.workerCtxMgr.heap w).type := by
    rw [deliverTo]
    split
    · cases d with
      | actor name => exact ⟨ActorContextManager.dispatchMsg_ctxs .., rfl, fun _ => rfl⟩
      | worker name => exact ⟨rfl, dispatchWorkerMsg_registers ..⟩
      | conn name =>
        obtain ⟨hActors, hWorkers⟩ := notify_registers { a with received := a.received ++ [(.conn name, p)] } name p
        simp only [hActors, hWorkers, true_and, implies_true]
    · exact ⟨rfl, rfl, fun _ => rfl⟩
  obtain ⟨hCtxs, hNames, hTypes⟩ := hSame
  cases d' with
  | actor name => rw [queueOf, queueOf, hCtxs]
  | worker name => simp only [queueOf, hNames, hTypes]
  | conn name => exact absurd rfl (h name)

/-- Each delivery is one `Recv` of the queue it comes to. -/
theorem deliverAll_box (p : Parcel (Origin κ)) {ds : List Delivery}
    (h : ds.Pairwise fun _ d => ∀ name, d ≠ .conn name) (a : App ι ω κ) (q : Queue ι ω) :
    (ds.foldl (deliverTo p) a).box q =
      (fun b => b.receive p)^[(ds.filterMap a.queueOf).count q] (a.box q) := by
  induction ds generalizing a with
  | nil => rfl
  | cons d ds ih =>
    obtain ⟨hLater, hRest⟩ := List.pairwise_cons.mp h
    have hSame : ds.filterMap (a.deliverTo p d).queueOf = ds.filterMap a.queueOf :=
      List.filterMap_congr fun d' hd' => deliverTo_queueOf p a d (hLater d' hd')
    rw [List.foldl_cons, ih hRest, hSame, deliverTo_box, List.filterMap_cons]
    cases hQueue : a.queueOf d with
    | none => rw [if_neg nofun]
    | some r =>
      simp only [Option.some_inj, List.count_cons, beq_iff_eq]
      split
      · rw [Function.iterate_succ_apply]
      · rfl

/-- The queues that `DispatchMsg` gives an ordinary message to, with their repetitions. -/
def given (a : App ι ω κ) (msg : Msg) : List (Queue ι ω) :=
  (({ a with nameList := splitMsgName msg.dst } : App ι ω κ).deliveries msg.dst msg.transMode).filterMap a.queueOf

omit [DecidableEq ι] [DecidableEq ω] in
theorem trans2dds_not_conn (d : Directory) : ∀ x ∈ d.trans2dds, ∀ name, x ≠ .conn name := by
  intro x hx name
  rw [Directory.trans2dds] at hx
  split at hx
  · cases hx
  · split at hx
    · rw [List.mem_singleton.mp hx]
      rintro ⟨⟩
    · split at hx
      · rw [List.mem_singleton.mp hx]
        rintro ⟨⟩
      · cases hx

omit [DecidableEq ι] [DecidableEq ω] in
/-- A connection comes first: what follows are copies for the node. -/
theorem transMap_pairwise (d : Directory) {l : List Delivery} (h : l.length ≤ 1) (mode : TransMode) :
    (d.transMap l mode).Pairwise fun _ x => ∀ name, x ≠ .conn name := by
  have hLocal : l.Pairwise fun _ x => ∀ name, x ≠ .conn name := by
    match l, h with
    | [], _ => exact .nil
    | [x], _ => exact List.pairwise_singleton ..
  have hDds : d.trans2dds.Pairwise fun _ x => ∀ name, x ≠ .conn name :=
    List.Pairwise.imp_of_mem (fun _ hx _ => trans2dds_not_conn d _ hx) (List.pairwise_of_forall fun _ _ => trivial)
  cases mode with
  | kIntra => exact hLocal
  | kDDS => exact hDds
  | kHybrid =>
    rw [Directory.transMap, Directory.trans2hybird]
    split
    · exact hLocal
    · exact List.pairwise_append.mpr ⟨hLocal, hDds, fun _ _ x hx => trans2dds_not_conn d x hx⟩

omit [DecidableEq ι] [DecidableEq ω] in
theorem deliveries_pairwise (a : App ι ω κ) (dst : String) (mode : TransMode) :
    (a.deliveries dst mode).Pairwise fun _ x => ∀ name, x ≠ .conn name := by
  rw [deliveries]
  split
  · split
    · exact transMap_pairwise _ (by rw [Directory.trans2actor]; split <;> simp) mode
    · split
      · exact transMap_pairwise _ (by rw [Directory.trans2worker]; split <;> simp) mode
      · split
        · exact transMap_pairwise _ (by rw [Directory.trans2ev]; split <;> simp) mode
        · exact .nil
  · exact .nil

theorem dispatchMsg_box (w : SetWalk) (a : App ι ω κ) {p : Parcel (Origin κ)} (h : p.msg.Ordinary)
    (q : Queue ι ω) :
    (a.dispatchMsg w p).box q = (fun b => b.receive p)^[(a.given p.msg).count q] (a.box q) := by
  have hCalls : a.calls w p.msg = [(p.msg.dst, p.msg.transMode)] := by
    simp only [calls, if_neg h.1, if_neg h.2]
  have hDst : dstAddr p p.msg.dst = p.msg.dst := ite_self _
  rw [dispatchMsg, hCalls, List.foldl_cons, List.foldl_nil, call, hDst]
  exact deliverAll_box p (deliveries_pairwise ..) _ q

end Deliver

theorem transMap_eq (d : Directory) (l : List Delivery) (mode : TransMode) :
    d.transMap l mode = (if mode = .kDDS then [] else l) ++ if mode = .kIntra then [] else d.trans2dds := by
  cases mode with
  | kIntra => exact (List.append_nil l).symm
  | kDDS => rfl
  | kHybrid =>
    rw [Directory.transMap, Directory.trans2hybird]
    split
    · next hNone => simp [Directory.trans2dds, hNone]
    · rfl

theorem splitMsgName_head {a b c : String} (ha : DotFree a) :
    ∃ rest, splitMsgName (address a b c) = a :: rest := by
  have hNe : (address a b c).toList ≠ [] := by simp [address_toList]
  rw [splitMsgName, if_neg hNe, address_toList, splitLoop_dotFree [] _ ha]
  simp

theorem splitMsgName_head_two {a b c : String} (ha : DotFree a) (hb : DotFree b) :
    ∃ rest, splitMsgName (address a b c) = a :: b :: rest := by
  have hNe : (address a b c).toList ≠ [] := by simp [address_toList]
  rw [splitMsgName, if_neg hNe, address_toList, splitLoop_dotFree [] _ ha, splitLoop_dotFree [] _ hb]
  simp

variable {a : App ι ω κ}

/-- The kind of a registered component shows in the first part of its name. -/
theorem WellNamed.head (h : a.WellNamed) {name : String} {q : Queue ι ω} (hReg : a.Registered name q) :
    (splitMsgName name).head? = some q.part0 := by
  cases q with
  | actor i =>
    obtain ⟨type, inst, rfl⟩ := h.actor name i hReg
    obtain ⟨rest, hHead⟩ := splitMsgName_head (a := "actor") (b := type) (c := inst) (by decide)
    rw [hHead]
    rfl
  | worker w =>
    obtain ⟨type, inst, rfl⟩ := h.worker name w hReg
    obtain ⟨rest, hHead⟩ := splitMsgName_head (a := "worker") (b := type) (c := inst) (by decide)
    rw [hHead]
    rfl
  | conn n =>
    obtain ⟨inst, rfl⟩ := h.conn name n hReg
    obtain ⟨rest, hHead⟩ := splitMsgName_head (a := "event") (b := "conn") (c := inst) (by decide)
    rw [hHead]
    rfl

theorem WellNamed.part0 (h : a.WellNamed) {dst part0 part1 part2 : String} {q : Queue ι ω}
    (hSplit : splitMsgName dst = [part0, part1, part2]) (hReg : a.Registered dst q) : part0 = q.part0 := by
  have hHead := h.head hReg
  rw [hSplit] at hHead
  exact Option.some.inj hHead

theorem WellNamed.part1_conn (h : a.WellNamed) {dst part0 part1 part2 : String} {n : ℕ}
    (hSplit : splitMsgName dst = [part0, part1, part2]) (hReg : a.Registered dst (.conn n)) :
    part1 = "conn" := by
  obtain ⟨inst, rfl⟩ := h.conn dst n hReg
  obtain ⟨rest, hHead⟩ := splitMsgName_head_two (a := "event") (b := "conn") (c := inst) (by decide) (by decide)
  rw [hHead] at hSplit
  exact (List.cons.inj (List.cons.inj hSplit).2).1.symm

theorem mem_filterMap_ite {b : Prop} [Decidable b] {x : Delivery} {q : Queue ι ω} :
    q ∈ (if b then [x] else []).filterMap a.queueOf ↔ b ∧ a.queueOf x = some q := by
  split
  · next hb => simp [hb]
  · next hb => simp [hb]

/-- The row of the table finds the component the address names, and no other. -/
theorem row_of_known (h : a.WellNamed) {msg : Msg} (hKnown : Known msg.dst) : ∃ l : List Delivery,
    l.length ≤ 1 ∧ (∀ q, q ∈ l.filterMap a.queueOf ↔ a.Registered msg.dst q) ∧
      a.given msg = (a.directory.transMap l msg.transMode).filterMap a.queueOf := by
  obtain ⟨part0, part1, part2, hSplit, hPart⟩ := hKnown
  rw [given, deliveries, hSplit]
  obtain rfl | rfl | rfl := hPart
  · refine ⟨a.directory.trans2actor msg.dst, ?_, fun q => ?_, rfl⟩
    · rw [Directory.trans2actor]
      split <;> simp
    · rw [Directory.trans2actor, mem_filterMap_ite, queueOf_actor]
      constructor
      · rintro ⟨-, i, -, hReg⟩
        exact hReg
      · intro hReg
        cases q with
        | actor i => exact ⟨Option.isSome_iff_exists.mpr ⟨i, hReg⟩, i, rfl, hReg⟩
        | worker w => exact absurd (h.part0 hSplit hReg) (by simp [Queue.part0])
        | conn n => exact absurd (h.part0 hSplit hReg) (by simp [Queue.part0])
  · refine ⟨a.directory.trans2worker msg.dst, ?_, fun q => ?_, rfl⟩
    · rw [Directory.trans2worker]
      split <;> simp
    · rw [Directory.trans2worker, mem_filterMap_ite, queueOf_worker]
      constructor
      · rintro ⟨-, w, -, hReg⟩
        exact hReg
      · intro hReg
        cases q with
        | actor i => exact absurd (h.part0 hSplit hReg) (by simp [Queue.part0])
        | worker w => exact ⟨Option.isSome_iff_exists.mpr ⟨w, hReg.1⟩, w, rfl, hReg⟩
        | conn n => exact absurd (h.part0 hSplit hReg) (by simp [Queue.part0])
  · refine ⟨Directory.trans2ev part1 msg.dst, ?_, fun q => ?_, rfl⟩
    · rw [Directory.trans2ev]
      split <;> simp
    · rw [Directory.trans2ev, mem_filterMap_ite, queueOf_conn]
      constructor
      · rintro ⟨-, n, -, hReg⟩
        exact hReg
      · intro hReg
        cases q with
        | actor i => exact absurd (h.part0 hSplit hReg) (by simp [Queue.part0])
        | worker w => exact absurd (h.part0 hSplit hReg) (by simp [Queue.part0])
        | conn n => exact ⟨h.part1_conn hSplit hReg, n, rfl, hReg⟩

theorem given_of_not_known {msg : Msg} (h : ¬ Known msg.dst) : a.given msg = [] := by
  rw [given, deliveries]
  split
  · next part0 part1 part2 hSplit =>
    have hNot : ¬ (part0 = "actor" ∨ part0 = "worker" ∨ part0 = "event") := fun hPart =>
      h ⟨part0, part1, part2, hSplit, hPart⟩
    rw [not_or, not_or] at hNot
    rw [if_neg hNot.1, if_neg hNot.2.1, if_neg hNot.2.2]
    rfl
  · rfl

theorem trans2dds_length (d : Directory) : d.trans2dds.length ≤ 1 := by
  rw [Directory.trans2dds]
  split
  · exact Nat.zero_le 1
  · split
    · exact le_rfl
    · split
      · exact le_rfl
      · exact Nat.zero_le 1

theorem trans2dds_actor {d : Directory} {type inst : String} (h : d.nodeAddr = address "actor" type inst) :
    d.trans2dds = [.actor d.nodeAddr] := by
  have hTake : d.nodeAddr.toList.take 5 = "actor".toList := by rw [h, address_toList]; rfl
  rw [Directory.trans2dds, if_neg (h ▸ address_ne_empty _ _ _), if_pos hTake]

theorem trans2dds_worker {d : Directory} {type inst : String} (h : d.nodeAddr = address "worker" type inst) :
    d.trans2dds = [.worker d.nodeAddr] := by
  have hTake : d.nodeAddr.toList.take 6 = "worker".toList := by rw [h, address_toList]; rfl
  have hNot : d.nodeAddr.toList.take 5 ≠ "actor".toList := by
    rw [h, address_toList]
    simp
  rw [Directory.trans2dds, if_neg (h ▸ address_ne_empty _ _ _), if_neg hNot, if_pos hTake]

/-- Copies for the node come to the component registered under `node_addr_`. -/
theorem mem_trans2dds (h : a.WellNamed) {q : Queue ι ω} :
    q ∈ a.directory.trans2dds.filterMap a.queueOf ↔ a.nodeAddr ≠ "" ∧ a.Registered a.nodeAddr q := by
  obtain hNone | ⟨type, inst, hNode | hNode⟩ := h.node
  · simp [Directory.trans2dds, directory, hNone]
  · have hNe : a.nodeAddr ≠ "" := hNode ▸ address_ne_empty _ _ _
    have hMem := mem_filterMap_ite (a := a) (b := True) (x := .actor a.nodeAddr) (q := q)
    rw [if_pos trivial, true_and, queueOf_actor] at hMem
    rw [and_iff_right hNe, show a.directory.trans2dds = [.actor a.nodeAddr] from trans2dds_actor hNode, hMem]
    constructor
    · intro hMem
      obtain ⟨i, -, hReg⟩ := hMem
      exact hReg
    · intro hReg
      obtain ⟨rest, hSplit⟩ := splitMsgName_head (a := "actor") (b := type) (c := inst) (by decide)
      have hPart := h.head hReg
      rw [hNode, hSplit] at hPart
      cases q with
      | actor i => exact ⟨i, rfl, hReg⟩
      | worker w | conn n => simp [Queue.part0] at hPart
  · have hNe : a.nodeAddr ≠ "" := hNode ▸ address_ne_empty _ _ _
    have hMem := mem_filterMap_ite (a := a) (b := True) (x := .worker a.nodeAddr) (q := q)
    rw [if_pos trivial, true_and, queueOf_worker] at hMem
    rw [and_iff_right hNe, show a.directory.trans2dds = [.worker a.nodeAddr] from trans2dds_worker hNode, hMem]
    constructor
    · intro hMem
      obtain ⟨w, -, hReg⟩ := hMem
      exact hReg
    · intro hReg
      obtain ⟨rest, hSplit⟩ := splitMsgName_head (a := "worker") (b := type) (c := inst) (by decide)
      have hPart := h.head hReg
      rw [hNode, hSplit] at hPart
      cases q with
      | worker w => exact ⟨w, rfl, hReg⟩
      | actor i | conn n => simp [Queue.part0] at hPart

theorem count_of_length {l : List (Queue ι ω)} [DecidableEq ι] [DecidableEq ω] (h : l.length ≤ 1)
    (q : Queue ι ω) : (q ∈ l → l.count q = 1) ∧ (q ∉ l → l.count q = 0) := by
  refine ⟨fun hMem => ?_, List.count_eq_zero_of_not_mem⟩
  have hPos : 0 < l.count q := List.count_pos_iff.mpr hMem
  have hLe : l.count q ≤ l.length := List.count_le_length
  omega

theorem addressee_known (h : a.WellNamed) {msg : Msg} {q : Queue ι ω} (hTo : a.Addressee msg q) :
    Known msg.dst := by
  obtain ⟨hLength, hReg, -⟩ := hTo
  obtain ⟨part0, part1, part2, hSplit⟩ := List.length_eq_three.mp hLength
  refine ⟨part0, part1, part2, hSplit, ?_⟩
  rw [h.part0 hSplit hReg]
  cases q with
  | actor i => exact .inl rfl
  | worker w => exact .inr (.inl rfl)
  | conn n => exact .inr (.inr rfl)

variable [DecidableEq ι] [DecidableEq ω]

theorem given_count (h : a.WellNamed) (msg : Msg) (q : Queue ι ω) : ∃ m n, (a.given msg).count q = m + n ∧
    (a.Addressee msg q → m = 1) ∧ (¬ a.Addressee msg q → m = 0) ∧
    (a.NodeCopy msg q → n = 1) ∧ (¬ a.NodeCopy msg q → n = 0) := by
  by_cases hKnown : Known msg.dst
  · obtain ⟨l, hLength, hRow, hGiven⟩ := row_of_known h hKnown
    have hRowLength := (List.length_filterMap_le a.queueOf l).trans hLength
    have hNodeLength := (List.length_filterMap_le a.queueOf a.directory.trans2dds).trans (trans2dds_length _)
    obtain ⟨hRowOne, hRowZero⟩ := count_of_length hRowLength q
    obtain ⟨hNodeOne, hNodeZero⟩ := count_of_length hNodeLength q
    rw [hRow] at hRowOne hRowZero
    rw [mem_trans2dds h] at hNodeOne hNodeZero
    have hThree : (splitMsgName msg.dst).length = 3 := by
      obtain ⟨part0, part1, part2, hSplit, -⟩ := hKnown
      rw [hSplit]
      rfl
    rw [hGiven, transMap_eq, List.filterMap_append, List.count_append, Addressee, NodeCopy, and_iff_right hThree,
      and_iff_right hKnown, ← and_assoc]
    refine ⟨_, _, rfl, ?_⟩
    generalize (a.nodeAddr ≠ "" ∧ a.Registered a.nodeAddr q) = node at hNodeOne hNodeZero ⊢
    cases msg.transMode with
    | kIntra => simpa using ⟨hRowOne, hRowZero⟩
    | kDDS => simpa using ⟨hNodeOne, hNodeZero⟩
    | kHybrid => simpa using ⟨hRowOne, hRowZero, hNodeOne, hNodeZero⟩
  · refine ⟨0, 0, by rw [given_of_not_known hKnown]; rfl, ?_, fun _ => rfl, ?_, fun _ => rfl⟩
    · exact fun hTo => absurd (addressee_known h hTo) hKnown
    · exact fun hCopy => absurd hCopy.1 hKnown

/-- Each recipient is given the message once, and nobody else is given it. -/
def RoutedOnce (a : App ι ω κ) (msg : Msg) : Prop :=
  ∀ q, (a.Addressee msg q ∨ a.NodeCopy msg q → (a.given msg).count q = 1) ∧
    (¬ (a.Addressee msg q ∨ a.NodeCopy msg q) → (a.given msg).count q = 0)

theorem routedOnce_iff_apart (h : a.WellNamed) (msg : Msg) :
    a.RoutedOnce msg ↔ ∀ q, ¬ (a.Addressee msg q ∧ a.NodeCopy msg q) := by
  refine forall_congr' fun q => ?_
  obtain ⟨m, n, hCount, hToOne, hToZero, hCopyOne, hCopyZero⟩ := given_count h msg q
  rw [hCount]
  by_cases hTo : a.Addressee msg q <;> by_cases hCopy : a.NodeCopy msg q <;> simp_all

/-- The node is there and a `kHybrid` message is addressed to it. -/
def ToNode (a : App ι ω κ) (msg : Msg) : Prop :=
  msg.transMode = .kHybrid ∧ (splitMsgName msg.dst).length = 3 ∧ msg.dst = a.nodeAddr ∧
    ∃ q, a.Registered a.nodeAddr q

/-- A message comes to its recipients once each just where the node is not addressed with a copy for it. -/
theorem routedOnce_iff (w : SetWalk) (h : a.WellNamed) {p : Parcel (Origin κ)} (hOrdinary : p.msg.Ordinary) :
    (∀ q, (a.dispatchMsg w p).box q = (fun b => b.receive p)^[(a.given p.msg).count q] (a.box q)) ∧
      (a.RoutedOnce p.msg ↔ ¬ a.ToNode p.msg) := by
  refine ⟨dispatchMsg_box w a hOrdinary, ?_⟩
  rw [routedOnce_iff_apart h, ← not_exists, not_iff_not]
  constructor
  · rintro ⟨q, ⟨hThree, hReg, hLocal⟩, -, -, hNode, hRemote⟩
    refine ⟨?_, hThree, h.own q _ _ hReg hNode, q, hNode⟩
    obtain hIntra | hHybrid := hLocal
    · exact absurd hRemote (by rw [hIntra]; decide)
    · exact hHybrid
  · rintro ⟨hMode, hThree, hDst, q, hReg⟩
    have hTo : a.Addressee p.msg q := ⟨hThree, hDst ▸ hReg, .inr hMode⟩
    refine ⟨q, hTo, addressee_known h hTo, ?_, hReg, .inr hMode⟩
    intro hEmpty
    rw [hDst, hEmpty] at hThree
    exact absurd hThree (by decide)

/-- An actor and the node, which has the last word on what leaves the process. -/
def nodeName : String := "actor.node.1"

def nodeApp : App Bool Unit Unit where
  nodeAddr := nodeName
  actorCtxMgr :=
    { heap := fun _ => { mailbox := {} }
      ctxs := fun name => if name = nodeName then some true else if name = "actor.a.1" then some false else none }
  workerCtxMgr := { heap := fun _ => { name := "" }, names := fun _ => none }

theorem nodeApp_registered {name : String} {q : Queue Bool Unit} (h : nodeApp.Registered name q) :
    name = nodeName ∧ q = .actor true ∨ name = "actor.a.1" ∧ q = .actor false := by
  cases q with
  | actor i =>
    simp only [Registered, nodeApp] at h
    split at h
    · next hName => exact .inl ⟨hName, congrArg Queue.actor (Option.some.inj h).symm⟩
    · split at h
      · next hName => exact .inr ⟨hName, congrArg Queue.actor (Option.some.inj h).symm⟩
      · cases h
  | worker w => cases h.1
  | conn n => cases h.1

theorem nodeApp_wellNamed : nodeApp.WellNamed where
  own q name name' h h' := by
    obtain ⟨rfl, rfl⟩ | ⟨rfl, rfl⟩ := nodeApp_registered h <;>
      obtain ⟨rfl, hq⟩ | ⟨rfl, hq⟩ := nodeApp_registered h' <;> simp_all
  actor name i h := by
    obtain ⟨rfl, -⟩ | ⟨rfl, -⟩ := nodeApp_registered h
    · exact ⟨"node", "1", by decide⟩
    · exact ⟨"a", "1", by decide⟩
  worker name w h := by
    obtain ⟨-, hq⟩ | ⟨-, hq⟩ := nodeApp_registered h <;> cases hq
  conn name n h := by
    obtain ⟨-, hq⟩ | ⟨-, hq⟩ := nodeApp_registered h <;> cases hq
  node := .inr ⟨"node", "1", .inl (by decide)⟩

def toActor : Parcel (Origin Unit) where
  mark := .other
  msg := { src := "actor.b.1", dst := "actor.a.1", transMode := .kHybrid }

/-- To another actor: once to it, once to the node. -/
theorem routedOnce_iff_actor : nodeApp.RoutedOnce toActor.msg :=
  ((routedOnce_iff .stored nodeApp_wellNamed (p := toActor) (by decide)).2).mpr fun h =>
    absurd h.2.2.1 (by decide)

/-- To the node itself: twice. -/
theorem node_served_twice :
    ¬ nodeApp.RoutedOnce { src := "actor.a.1", dst := nodeName, transMode := .kHybrid } := by
  intro hOnce
  have hTo : nodeApp.Addressee { src := "actor.a.1", dst := nodeName, transMode := .kHybrid } (.actor true) :=
    ⟨by decide, by rfl, .inr rfl⟩
  exact absurd ((hOnce (.actor true)).1 (.inl hTo)) (by decide)

end App
end Myframe
