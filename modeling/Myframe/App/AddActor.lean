import Mathlib.Algebra.Ring.Nat
import Myframe.App.Dispatch

/-! # Adding actors before `Exec`

What an actor posts in `Init` is dispatched at once, or cached until the actor it is addressed to is added,
or cached until `Exec`. `Init` succeeds here, and all workers were added before.
-/
namespace Myframe
set_option autoImplicit false
open Common

namespace Msg

def isSub (m : Msg) : Prop := m.type = msgTypeSub

/-- A subscription that `AddSubInfo` stores. -/
def Recorded (m : Msg) : Prop := m.isSub ∧ (m.transMode = .kIntra ∨ m.transMode = .kHybrid)

/-- A subscription of the same subscriber to the same topic. -/
def Repeats (x m : Msg) : Prop :=
  m.Recorded ∧ m.src = x.src ∧ MsgManager.getTopicName m true = MsgManager.getTopicName x true

instance (m : Msg) : Decidable m.isSub := inferInstanceAs (Decidable (_ = _))

instance (m : Msg) : Decidable m.Recorded := inferInstanceAs (Decidable (_ ∧ _))

instance (x m : Msg) : Decidable (x.Repeats m) := inferInstanceAs (Decidable (_ ∧ _ ∧ _))

end Msg

/-- An actor and what it posts in `Init`. `Send(dst, msg)` and `Subscribe` put its name into a SUB; the
topics of its subscriptions differ where their addresses do, as they do for addresses of three parts. -/
structure Entrant where
  typeName : String
  instName : String
  sends : List Msg
  own : ∀ m ∈ sends, m.isSub → m.src = address "actor" typeName instName
  oneDst : ∀ m ∈ sends, ∀ x ∈ sends, x.Recorded → x.Repeats m → m.dst = x.dst
  deriving DecidableEq

namespace Entrant

def name (a : Entrant) : String := address "actor" a.typeName a.instName

theorem name_toList (a : Entrant) :
    a.name.toList = "actor".toList ++ '.' :: (a.typeName.toList ++ '.' :: a.instName.toList) :=
  address_toList ..

theorem name_take_actor (a : Entrant) : a.name.toList.take 5 = "actor".toList := by
  rw [name_toList]
  rfl

theorem name_take_worker (a : Entrant) : a.name.toList.take 6 ≠ "worker".toList := by
  rw [name_toList]
  simp

theorem name_ne_empty (a : Entrant) : a.name ≠ "" := by
  intro h
  have hTake := name_take_actor a
  rw [h] at hTake
  cases hTake

/-- The address of the node among these actors. -/
def nodeOf (l : List Entrant) : String := ((l.find? (·.typeName = "node")).map name).getD ""

theorem nodeOf_append (l r : List Entrant) : nodeOf (l ++ r) = if nodeOf l = "" then nodeOf r else nodeOf l := by
  rw [nodeOf, List.find?_append, nodeOf, nodeOf]
  cases hFind : l.find? (·.typeName = "node") with
  | none => simp
  | some n => simp [name_ne_empty]

theorem nodeOf_concat (l : List Entrant) (a : Entrant) :
    nodeOf (l ++ [a]) = if nodeOf l = "" then if a.typeName = "node" then a.name else "" else nodeOf l := by
  rw [nodeOf_append]
  by_cases hNode : a.typeName = "node" <;> simp [nodeOf, hNode]

theorem nodeOf_ne_empty {l : List Entrant} {n : Entrant} (hn : n ∈ l) (hNode : n.typeName = "node") :
    nodeOf l ≠ "" := by
  rw [nodeOf]
  cases hFind : l.find? (·.typeName = "node") with
  | none => exact absurd (decide_eq_true hNode) (List.find?_eq_none.mp hFind n hn)
  | some m => exact m.name_ne_empty

theorem exists_of_nodeOf {l : List Entrant} (h : nodeOf l ≠ "") :
    ∃ n ∈ l, n.typeName = "node" ∧ nodeOf l = n.name := by
  rw [nodeOf] at h ⊢
  cases hFind : l.find? (·.typeName = "node") with
  | none =>
    rw [hFind] at h
    exact absurd rfl h
  | some n =>
    have hNode := List.find?_some hFind
    exact ⟨n, List.mem_of_find?_eq_some hFind, of_decide_eq_true hNode, rfl⟩

end Entrant

/-- What is registered in `ev_mgr_`, and what of it is a user worker. -/
structure Workers where
  hasEvent : String → Bool := fun _ => false
  isUser : String → Bool := fun _ => false
  walk : SetWalk := .stored

/-- `received` is what mailboxes have been given. -/
structure Startup where
  nodeAddr : String := ""
  actors : List String := []
  cacheMsgs : List Msg := []
  subs : MsgManager := .empty
  received : List (Delivery × Msg) := []

namespace Startup

variable (w : Workers)

def directory (s : Startup) : Directory where
  nodeAddr := s.nodeAddr
  hasActor name := decide (name ∈ s.actors)
  hasEvent := w.hasEvent

def dispatch (s : Startup) (msg : Msg) : Startup :=
  let r := (s.directory w).dispatchMsg w.walk s.subs msg
  { s with subs := r.1, received := s.received ++ r.2.map fun d => (d, msg) }

def dispatchList (s : Startup) (msgs : List Msg) : Startup := msgs.foldl (dispatch w) s

def hasUserInst (s : Startup) (name : String) : Bool :=
  if name.toList.take 6 = "worker".toList then w.isUser name
  else if name.toList.take 5 = "actor".toList then decide (name ∈ s.actors)
  else false

/-- What `AddActor` returns: a second node is refused. -/
def accepts (s : Startup) (a : Entrant) : Bool := a.typeName != "node" || s.nodeAddr == ""

/-- The node's address is set before `Init`; a second actor of one name stays out of the table. -/
def enter (s : Startup) (a : Entrant) : Startup :=
  { s with
    nodeAddr := if a.typeName = "node" then a.name else s.nodeAddr
    actors := if a.name ∈ s.actors then s.actors else s.actors ++ [a.name] }

def caches (s : Startup) (m : Msg) : Bool :=
  !s.hasUserInst w m.dst || decide (m.transMode = .kDDS ∨ m.transMode = .kHybrid)

def addActor (s : Startup) (a : Entrant) : Startup :=
  if s.accepts a = true then
    let s := s.enter a
    let s := dispatchList w { s with cacheMsgs := s.cacheMsgs.filter (·.dst ≠ a.name) }
      (s.cacheMsgs.filter (·.dst = a.name))
    dispatchList w { s with cacheMsgs := s.cacheMsgs ++ a.sends.filter (s.caches w) }
      (a.sends.filter fun m => !s.caches w m)
  else s

/-- The beginning of `Exec`. -/
def exec (s : Startup) : Startup := dispatchList w { s with cacheMsgs := [] } s.cacheMsgs

def addAll (s : Startup) (order : List Entrant) : Startup := order.foldl (addActor w) s

def start (order : List Entrant) : Startup := exec w (addAll w {} order)

end Startup

namespace Directory

/-- Where a message goes that is dispatched and not dropped as a repeat. -/
def out (d : Directory) (m : Msg) : List Delivery :=
  if m.isSub then d.dispatchTo m d.nodeAddr .kDDS else d.dispatchTo m m.dst m.transMode

/-- The state of the table and the mailboxes after a message dispatched while the directory was `e.1`. -/
def post (walk : SetWalk) (r : MsgManager × List (Delivery × Msg)) (e : Directory × Msg) :
    MsgManager × List (Delivery × Msg) :=
  ((e.1.dispatchMsg walk r.1 e.2).1, r.2 ++ (e.1.dispatchMsg walk r.1 e.2).2.map fun d => (d, e.2))

end Directory

namespace MsgManager

def Seen (s : MsgManager) (x : Msg) : Prop := x.src ∈ (s.lookup (getTopicName x true)).map SubInfo.comName

instance (s : MsgManager) (x : Msg) : Decidable (s.Seen x) := inferInstanceAs (Decidable (_ ∈ _))

theorem outcome_mem {walk : SetWalk} {s : MsgManager} {m : Msg} {key c : String} :
    c ∈ ((s.outcome walk m).1.lookup key).map SubInfo.comName ↔
      c ∈ (s.lookup key).map SubInfo.comName ∨ m.Recorded ∧ m.src = c ∧ getTopicName m true = key := by
  rw [outcome_lookup, addSubInfo_lookup]
  split
  · next hSub =>
    split
    · next hHit =>
      rw [mem_emplace]
      refine or_congr_right ⟨fun hEq => ⟨⟨hSub, hHit.1⟩, hEq.symm, hHit.2.symm⟩, fun hRec => hRec.2.1.symm⟩
    · next hMiss =>
      refine (or_iff_left ?_).symm
      rintro ⟨hRec, -, hKey⟩
      exact hMiss ⟨hRec.2, hKey.symm⟩
  · next hSub => exact (or_iff_left fun hRec => hSub hRec.1.1).symm

theorem outcome_seen {walk : SetWalk} {s : MsgManager} {x m : Msg} :
    (s.outcome walk m).1.Seen x ↔ s.Seen x ∨ x.Repeats m := outcome_mem

theorem outcome_nodup {walk : SetWalk} {s : MsgManager} (h : ∀ key, ((s.lookup key).map SubInfo.comName).Nodup)
    (m : Msg) (key : String) : (((s.outcome walk m).1.lookup key).map SubInfo.comName).Nodup := by
  rw [outcome_lookup, addSubInfo_lookup]
  split
  · split
    · exact emplace_nodup (h key) _
    · exact h key
  · exact h key

end MsgManager

namespace Directory

open MsgManager

variable {walk : SetWalk} {d : Directory} {s : MsgManager} {m x : Msg}

theorem dispatchMsg_subs : (d.dispatchMsg walk s m).1 = (s.outcome walk m).1 := by
  unfold dispatchMsg
  dsimp only
  split
  · rfl
  · split <;> rfl

/-- Only a repeat that the table has makes a difference to where a message goes. -/
theorem dispatchMsg_out (hPub : m.type ≠ msgTypePub) :
    (d.dispatchMsg walk s m).2 =
      if m.isSub ∧ (m.transMode = .kIntra ∨ m.transMode = .kHybrid ∧ s.Seen m) then [] else d.out m := by
  by_cases hSub : m.type = msgTypeSub
  · have hForward : (s.outcome walk m).2.1 = (s.addSubInfo m).2 := by rw [outcome, if_pos hSub]
    have hSeen : setFind (s.lookup (getTopicName m true)) m.src = decide (s.Seen m) := by
      rw [Bool.eq_iff_iff, setFind_iff, decide_eq_true_iff]
      rfl
    simp only [dispatchMsg, out, Msg.isSub, hForward, addSubInfo_forward, hSeen, hSub, true_and]
    cases hMode : m.transMode with
    | kIntra => simp
    | kDDS => simp
    | kHybrid => by_cases h : s.Seen m <;> simp [h]
  · have hNot : ¬ (m.isSub ∧ (m.transMode = .kIntra ∨ m.transMode = .kHybrid ∧ s.Seen m)) := fun h => hSub h.1
    rw [if_neg hNot, out, if_neg (show ¬ m.isSub from hSub)]
    simp only [dispatchMsg, if_neg hSub, if_neg hPub]

/-- The directories in force when a message was dispatched that was not dropped as a repeat. -/
def effective (es : List (Directory × Msg)) (x : Msg) : List Directory :=
  if x.Recorded then
    match es.find? fun e => x.Repeats e.2 with
    | some e => if e.2 = x ∧ x.transMode = .kHybrid then [e.1] else []
    | none => []
  else (es.filter (·.2 = x)).map Prod.fst

def copies (ds : List Directory) (v : Delivery) (x : Msg) : ℕ := (ds.map fun d => (d.out x).count v).sum

theorem post_subs (walk : SetWalk) (r : MsgManager × List (Delivery × Msg)) (e : Directory × Msg) :
    (post walk r e).1 = (r.1.outcome walk e.2).1 := dispatchMsg_subs

theorem post_count (walk : SetWalk) (r : MsgManager × List (Delivery × Msg)) (e : Directory × Msg)
    (v : Delivery) (x : Msg) : (post walk r e).2.count (v, x) =
      r.2.count (v, x) + if e.2 = x then (e.1.dispatchMsg walk r.1 x).2.count v else 0 := by
  have hMap : ∀ ds : List Delivery, (ds.map fun d => (d, e.2)).count (v, x) =
      if e.2 = x then ds.count v else 0 := by
    intro ds
    induction ds with
    | nil => simp
    | cons d ds ih =>
      rw [List.map_cons, List.count_cons, List.count_cons, ih]
      by_cases hEq : e.2 = x <;> simp [hEq]
  rw [post, List.count_append, hMap]
  split
  · next hEq => rw [hEq]
  · rfl

theorem count_foldl_plain (walk : SetWalk) (v : Delivery) (hPub : x.type ≠ msgTypePub) (hRec : ¬ x.Recorded)
    (es : List (Directory × Msg)) (r : MsgManager × List (Delivery × Msg)) :
    (es.foldl (post walk) r).2.count (v, x) = r.2.count (v, x) + copies (effective es x) v x := by
  have hNot : ∀ s : MsgManager, ¬ (x.isSub ∧ (x.transMode = .kIntra ∨ x.transMode = .kHybrid ∧ s.Seen x)) :=
    fun s h => hRec ⟨h.1, h.2.imp_right And.left⟩
  induction es generalizing r with
  | nil => simp [effective, hRec, copies]
  | cons e es ih =>
    rw [List.foldl_cons, ih, post_count, dispatchMsg_out hPub, if_neg (hNot _)]
    simp only [effective, hRec, if_false, copies, List.filter_cons]
    obtain hEq | hNe := eq_or_ne e.2 x
    · simp [hEq]
      omega
    · simp [hNe]

/-- Of the subscriptions of one subscriber to one topic only the first is anything to the node. -/
theorem count_foldl_recorded (walk : SetWalk) (v : Delivery) (hRec : x.Recorded)
    (es : List (Directory × Msg)) (r : MsgManager × List (Delivery × Msg)) :
    (es.foldl (post walk) r).2.count (v, x) =
      r.2.count (v, x) + if r.1.Seen x then 0 else copies (effective es x) v x := by
  have hPub : x.type ≠ msgTypePub := by
    rw [show x.type = msgTypeSub from hRec.1]
    decide
  induction es generalizing r with
  | nil => simp [effective, hRec, copies]
  | cons e es ih =>
    have hSeen : (post walk r e).1.Seen x ↔ r.1.Seen x ∨ x.Repeats e.2 := by
      rw [post_subs]
      exact outcome_seen
    rw [List.foldl_cons, ih, post_count, dispatchMsg_out hPub]
    simp only [hSeen]
    by_cases hBefore : r.1.Seen x
    · have hDrop : x.isSub ∧ (x.transMode = .kIntra ∨ x.transMode = .kHybrid ∧ r.1.Seen x) :=
        ⟨hRec.1, hRec.2.imp_right fun h => ⟨h, hBefore⟩⟩
      rw [if_pos hDrop]
      simp [hBefore]
    · by_cases hRepeats : x.Repeats e.2
      · simp only [hBefore, false_or, hRepeats, if_true, if_false, effective, hRec, List.find?_cons,
          decide_true, copies, and_false, or_false]
        obtain hEq | hNe := eq_or_ne e.2 x
        · obtain hIntra | hHybrid := hRec.2
          · simp [hEq, hIntra, hRec.1]
          · simp [hEq, hHybrid]
        · simp [hNe]
      · have hNe : e.2 ≠ x := by
          rintro rfl
          exact hRepeats ⟨hRec, rfl, rfl⟩
        simp [hBefore, hRepeats, hNe, effective, hRec]

theorem foldl_subs_mem (walk : SetWalk) (es : List (Directory × Msg)) (r : MsgManager × List (Delivery × Msg))
    (key c : String) : c ∈ ((es.foldl (post walk) r).1.lookup key).map SubInfo.comName ↔
      c ∈ (r.1.lookup key).map SubInfo.comName ∨
        ∃ m ∈ es.map Prod.snd, m.Recorded ∧ m.src = c ∧ getTopicName m true = key := by
  induction es generalizing r with
  | nil => simp
  | cons e es ih =>
    rw [List.foldl_cons, ih, post_subs, outcome_mem, List.map_cons, or_assoc]
    simp only [List.mem_cons, exists_eq_or_imp]

theorem foldl_subs_nodup (walk : SetWalk) (es : List (Directory × Msg)) (r : MsgManager × List (Delivery × Msg))
    (h : ∀ key, ((r.1.lookup key).map SubInfo.comName).Nodup) (key : String) :
    (((es.foldl (post walk) r).1.lookup key).map SubInfo.comName).Nodup := by
  induction es generalizing r with
  | nil => exact h key
  | cons e es ih =>
    refine ih _ fun key => ?_
    rw [post_subs]
    exact outcome_nodup h e.2 key

theorem mem_of_effective {es : List (Directory × Msg)} {d : Directory} (h : d ∈ effective es x) :
    (d, x) ∈ es ∧ ¬ (x.isSub ∧ x.transMode = .kIntra) ∧
      (x.Recorded → (es.map Prod.snd).find? (fun m => x.Repeats m) = some x) := by
  rw [effective] at h
  split at h
  · next hRec =>
    split at h
    · next e hFind =>
      split at h
      · next hEq =>
        obtain rfl := List.mem_singleton.mp h
        obtain ⟨rfl, hMode⟩ := hEq
        refine ⟨List.mem_of_find?_eq_some hFind, fun hIntra => ?_, fun _ => ?_⟩
        · rw [hIntra.2] at hMode
          cases hMode
        · rw [List.find?_map]
          exact congrArg (Option.map Prod.snd) hFind
      · cases h
    · cases h
  · next hRec =>
    obtain ⟨e, he, rfl⟩ := List.mem_map.mp h
    obtain ⟨hMem, hEq⟩ := List.mem_filter.mp he
    obtain rfl := of_decide_eq_true hEq
    exact ⟨hMem, fun hIntra => hRec ⟨hIntra.1, .inl hIntra.2⟩, fun hYes => absurd hYes hRec⟩

theorem effective_length_plain (hRec : ¬ x.Recorded) (es : List (Directory × Msg)) :
    (effective es x).length = (es.map Prod.snd).count x := by
  rw [effective, if_neg hRec, List.length_map, ← List.countP_eq_length_filter, List.count, List.countP_map]
  refine List.countP_congr fun e _ => ?_
  simp

theorem effective_length_recorded (hRec : x.Recorded) (es : List (Directory × Msg)) :
    (effective es x).length =
      if (es.map Prod.snd).find? (fun m => x.Repeats m) = some x ∧ x.transMode = .kHybrid then 1 else 0 := by
  rw [effective, if_pos hRec, List.find?_map, Function.comp_def]
  cases es.find? (fun e => x.Repeats e.2) with
  | none => simp
  | some e =>
    by_cases hEq : e.2 = x ∧ x.transMode = .kHybrid
    · simp [hEq]
    · simp [hEq]

theorem copies_eq {ds : List Directory} {v : Delivery} {c : ℕ} (h : ∀ d ∈ ds, (d.out x).count v = c) :
    copies ds v x = ds.length * c := by
  rw [copies, List.map_congr_left h, List.map_const', List.sum_replicate_nat]

theorem copies_lt {ds : List Directory} {v : Delivery} (hLe : ∀ d ∈ ds, (d.out x).count v ≤ 1) {d : Directory}
    (hd : d ∈ ds) (hLost : (d.out x).count v = 0) : copies ds v x < ds.length := by
  have hBound : ∀ es : List Directory, (∀ e ∈ es, (e.out x).count v ≤ 1) → copies es v x ≤ es.length := by
    intro es hes
    induction es with
    | nil => exact Nat.le_refl 0
    | cons e es ih =>
      obtain ⟨hHead, hTail⟩ := List.forall_mem_cons.mp hes
      have hRest := ih hTail
      simp only [copies, List.map_cons, List.sum_cons, List.length_cons] at hRest ⊢
      omega
  obtain ⟨before, after, rfl⟩ := List.append_of_mem hd
  have hBefore := hBound before fun e he => hLe e (List.mem_append_left _ he)
  have hAfter := hBound after fun e he => hLe e (List.mem_append_right _ (List.mem_cons_of_mem d he))
  simp only [copies, List.map_append, List.map_cons, List.sum_append, List.sum_cons, List.length_append,
    List.length_cons] at hBefore hAfter ⊢
  omega

/-- An address that `DispatchMsg` can do something with. -/
def Known (addr : String) : Prop :=
  (splitMsgName addr).length = 3 ∧ ((splitMsgName addr).head? = some "actor" ∨
    (splitMsgName addr).head? = some "worker" ∨ (splitMsgName addr).head? = some "event")

instance (addr : String) : Decidable (Known addr) := inferInstanceAs (Decidable (_ ∧ _))

/-- Where a message for `addr` goes in the process. -/
def localTo (d : Directory) (addr : String) : List Delivery :=
  match splitMsgName addr with
  | [part0, part1, _] =>
    if part0 = "actor" then d.trans2actor addr
    else if part0 = "worker" then d.trans2worker addr
    else if part0 = "event" then trans2ev part1 addr
    else []
  | _ => []

theorem trans2dds_of_empty (h : d.nodeAddr = "") : d.trans2dds = [] := by rw [trans2dds, if_pos h]

theorem transMap_eq (l : List Delivery) : d.transMap l = fun
    | .kIntra => l
    | .kDDS => d.trans2dds
    | .kHybrid => l ++ d.trans2dds := by
  funext mode
  cases mode with
  | kIntra | kDDS => rfl
  | kHybrid =>
    rw [transMap, trans2hybird]
    split
    · next hEmpty => rw [trans2dds_of_empty hEmpty, List.append_nil]
    · rfl

theorem dispatchTo_eq (d : Directory) (m : Msg) (dst : String) (mode : TransMode) :
    d.dispatchTo m dst mode =
      if Known (if dst = "" then m.dst else dst) then
        d.transMap (d.localTo (if dst = "" then m.dst else dst)) mode
      else [] := by
  unfold dispatchTo localTo
  generalize (if dst = "" then m.dst else dst) = addr
  dsimp only
  by_cases hKnown : Known addr
  · rw [if_pos hKnown]
    obtain ⟨p, q, r, hParts⟩ := List.length_eq_three.mp hKnown.1
    simp only [hParts]
    split
    · rfl
    · next hActor =>
      split
      · rfl
      · next hWorker =>
        split
        · rfl
        · next hEvent => exact absurd hKnown.2 (by simp [hParts, hActor, hWorker, hEvent])
  · rw [if_neg hKnown]
    split
    · next p q r hParts =>
      have hNone : p ≠ "actor" ∧ p ≠ "worker" ∧ p ≠ "event" := by simpa [Known, hParts] using hKnown
      rw [if_neg hNone.1, if_neg hNone.2.1, if_neg hNone.2.2]
    · rfl

/-- The message is meant for the node at this address. -/
def Copied (addr : String) (x : Msg) : Prop :=
  addr ≠ "" ∧ x.transMode ≠ .kIntra ∧ Known (if x.isSub then addr else x.dst)

instance (addr : String) (x : Msg) : Decidable (Copied addr x) := inferInstanceAs (Decidable (_ ∧ _ ∧ _))

def localCopy (d : Directory) (x : Msg) : List Delivery :=
  if ¬ x.isSub ∧ x.transMode ≠ .kDDS ∧ Known x.dst then d.localTo x.dst else []

def nodeCopy (d : Directory) (x : Msg) : List Delivery := if Copied d.nodeAddr x then d.trans2dds else []

theorem out_eq (h : ¬ (x.isSub ∧ x.transMode = .kIntra)) : d.out x = d.localCopy x ++ d.nodeCopy x := by
  rw [out, localCopy, nodeCopy]
  split
  · next hSub =>
    have hMode : x.transMode ≠ .kIntra := fun hMode => h ⟨hSub, hMode⟩
    have hLocal : ¬ (¬ x.isSub ∧ x.transMode ≠ .kDDS ∧ Known x.dst) := fun hNot => hNot.1 hSub
    rw [dispatchTo_eq, transMap_eq, if_neg hLocal, List.nil_append]
    by_cases hEmpty : d.nodeAddr = ""
    · simp [trans2dds_of_empty hEmpty]
    · simp [Copied, hSub, hEmpty, hMode]
  · next hSub =>
    rw [dispatchTo_eq, ite_self, transMap_eq]
    by_cases hKnown : Known x.dst
    · by_cases hEmpty : d.nodeAddr = ""
      · cases hMode : x.transMode <;> simp [Copied, hSub, hKnown, hEmpty, trans2dds_of_empty hEmpty]
      · cases hMode : x.transMode <;> simp [Copied, hSub, hKnown, hEmpty, hMode]
    · simp [Copied, hSub, hKnown]

theorem localCopy_congr {e : Directory} (hActor : d.hasActor x.dst = e.hasActor x.dst)
    (hEvent : d.hasEvent = e.hasEvent) : d.localCopy x = e.localCopy x := by
  simp only [localCopy, localTo, trans2actor, trans2worker, hActor, hEvent]

theorem nodeCopy_congr {e : Directory} (h : d.nodeAddr = e.nodeAddr) : d.nodeCopy x = e.nodeCopy x := by
  simp only [nodeCopy, trans2dds, h]

theorem nodeCopy_of_empty (h : d.nodeAddr = "") : d.nodeCopy x = [] := by
  rw [nodeCopy, if_neg fun hCopied => hCopied.1 h]

theorem localCopy_count {addr : String} (h : x.dst ≠ addr) : (d.localCopy x).count (.actor addr) = 0 := by
  refine List.count_eq_zero.mpr fun hMem => ?_
  have hActor : ∀ name, .actor addr ∈ d.localTo name → addr = name := by
    intro name hMem
    simp only [localTo, trans2actor, trans2worker, trans2ev] at hMem
    split at hMem
    · grind
    · cases hMem
  rw [localCopy] at hMem
  split at hMem
  · exact h (hActor _ hMem).symm
  · cases hMem

theorem nodeCopy_count {a : Entrant} (hNode : d.nodeAddr = a.name) (hCopied : Copied a.name x) :
    (d.nodeCopy x).count (.actor a.name) = 1 := by
  rw [nodeCopy, hNode, if_pos hCopied, trans2dds, hNode, if_neg a.name_ne_empty, if_pos a.name_take_actor,
    List.count_singleton_self]

theorem out_count {a : Entrant} (h : ¬ (x.isSub ∧ x.transMode = .kIntra)) (hLocal : x.isSub ∨ x.dst ≠ a.name)
    (hCopied : Copied a.name x) :
    (d.nodeAddr = a.name → (d.out x).count (.actor a.name) = 1) ∧
      (d.nodeAddr = "" → (d.out x).count (.actor a.name) = 0) := by
  have hZero : (d.localCopy x).count (.actor a.name) = 0 := by
    obtain hSub | hDst := hLocal
    · rw [localCopy, if_neg fun hNot => hNot.1 hSub, List.count_nil]
    · exact localCopy_count hDst
  rw [out_eq h, List.count_append, hZero, Nat.zero_add]
  exact ⟨fun hNode => nodeCopy_count hNode hCopied, fun hEmpty => by rw [nodeCopy_of_empty hEmpty, List.count_nil]⟩

end Directory
end Myframe
