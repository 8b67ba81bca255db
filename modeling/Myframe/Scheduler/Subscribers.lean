import Myframe.App.AddActor
import Myframe.Actor.Publish
import Myframe.Scheduler.Atomic

/-! # What the actors are handed

Between a publisher and a subscriber lie the publisher's send queue, the dispatches, the receive queue,
batches and workers. What comes of all this is what a broker owes who hears the messages in the order in
which the main loop dispatches them.
-/
namespace Myframe
set_option autoImplicit false
open Common

namespace Scheduler
open ActorMachine
open Directory (order order_sub order_pub sub_of_order count_dispatchMsg dispatchMsg_subs)

variable {ι ω : Type} [DecidableEq ι] [DecidableEq ω]

def dispatched (s : Scheduler ι ω) : Label ι ω → List (Parcel (Option ι))
  | .arrive m => [⟨none, m⟩]
  | .main =>
    match s.main with
    | .dispatch _ a => (s.box a).send.head?.toList
    | _ => []
  | .addDispatch a => if s.adder a = .clearing then [] else (s.box a).send.head?.toList
  | _ => []

theorem mainStep_subs (c : Setting ι) {s : Scheduler ι ω} (h : ∀ w a, s.main ≠ .dispatch w a) :
    (s.mainStep c).subs = s.subs := by
  simp only [mainStep]
  split
  · rfl
  · split <;> rfl
  · split <;> rfl
  · split <;> rfl
  · rfl
  · split <;> rfl
  · rfl
  · next w a hMain => exact absurd hMain (h w a)
  · split
    · rfl
    · split <;> rfl

def orderOf (p : Parcel (Option ι)) : Broker.Order String String := order p.msg

/-- A step dispatches one message or none, and the table and the mailboxes know of no other. -/
theorem hears {c : Setting ι} {s : Scheduler ι ω} (hCtxs : s.actors.ctxs = c.ctxs) (hNode : s.nodeAddr = c.nodeAddr)
    {l : Label ι ω} (hAdd : ¬ l.IsAdd) (b : ι) :
    (s.dispatched l = [] ∧ s.deliveredTo c b l = [] ∧ (s.next c l).subs = s.subs) ∨
      ∃ p, s.dispatched l = [p] ∧ s.deliveredTo c b l = copies c.route s.subs p b ∧
        (s.next c l).subs = (c.route s.subs p).1 := by
  cases l with
  | arrive m => exact .inr ⟨⟨none, m⟩, rfl, rfl, deliver_subs hCtxs hNode _⟩
  | check | quit w => exact .inl ⟨rfl, rfl, rfl⟩
  | event w =>
    refine .inl ⟨rfl, rfl, ?_⟩
    simp only [next, event]
    split <;> rfl
  | main =>
    cases hMain : s.main with
    | dispatch w a =>
      cases hSend : (s.box a).send with
      | nil =>
        refine .inl ⟨by simp [dispatched, hMain, hSend], by simp [deliveredTo, hMain, hSend], ?_⟩
        simp only [next, mainStep, hMain, hSend]
      | cons p rest =>
        refine .inr ⟨p, by simp [dispatched, hMain, hSend], by simp [deliveredTo, hMain, hSend], ?_⟩
        simp only [next, mainStep, hMain, hSend, dispatchOne]
        exact deliver_subs (s := s.mapBox a fun x => { x with send := rest }) hCtxs hNode p
    | loop | check | front w | select w a | assign w a | requeue w a | send w | receive w =>
      refine .inl ⟨by simp only [dispatched, hMain], by simp only [deliveredTo, hMain], ?_⟩
      exact mainStep_subs c (by rw [hMain]; rintro _ _ ⟨⟩)
  | worker w =>
    refine .inl ⟨rfl, rfl, ?_⟩
    cases hPc : (s.worker w).pc <;> simp only [next, workerStep, hPc] <;> first | rfl | (split <;> rfl)
  | post w m | setRunQueueSize w n =>
    refine .inl ⟨rfl, rfl, ?_⟩
    simp only [next, userStep]
    split <;> rfl
  | addInit a sent | addRegister a | addClear a | addDispatch a => exact absurd trivial hAdd

/-- The actor is registered under its name and no other, and the name is made of parts without dots. -/
structure Named (c : Setting ι) (b : ι) : Prop where
  own : ∀ name, c.ctxs name = some b ↔ name = c.actorName b
  parts : ∃ cls inst, DotFree cls ∧ DotFree inst ∧ c.actorName b = address "actor" cls inst

omit [DecidableEq ω] in
theorem count_recipient {c : Setting ι} {b : ι} (h : Named c b) (ds : List Delivery) :
    (ds.filterMap c.recipient).count b = ds.count (.actor (c.actorName b)) := by
  induction ds with
  | nil => rfl
  | cons d ds ih =>
    rw [List.filterMap_cons, List.count_cons, ← ih]
    cases d with
    | actor name =>
      have hOwn := h.own name
      cases hName : c.ctxs name with
      | none => simp_all [Setting.recipient]
      | some a => simp_all [Setting.recipient, List.count_cons]
    | worker name | conn name => rfl

/-- The table and the registers of a state in which the messages of a history have been dispatched. -/
structure HasHeard (c : Setting ι) (s : Scheduler ι ω) (history : List (Broker.Order String String)) : Prop where
  ctxs : s.actors.ctxs = c.ctxs
  nodeAddr : s.nodeAddr = c.nodeAddr
  subs : s.subs.Holds history
  sent : ∀ topic, "" ∉ s.subs.names topic

theorem HasHeard.next {c : Setting ι} {s : Scheduler ι ω} {history : List (Broker.Order String String)}
    (h : HasHeard c s history) {b : ι} (hNamed : Named c b) {l : Label ι ω} (hAdd : ¬ l.IsAdd)
    (hSent : ∀ p ∈ s.dispatched l, p.msg.type = msgTypeSub → p.msg.src ≠ "") :
    s.deliveredTo c b l = Broker.owed orderOf (c.actorName b) (decide (c.nodeAddr = c.actorName b))
        history (s.dispatched l) ∧
      HasHeard c (s.next c l) (history ++ (s.dispatched l).map orderOf) := by
  have hCtxs : (s.next c l).actors.ctxs = c.ctxs := (next_ctxs c hAdd).trans h.ctxs
  have hNode : (s.next c l).nodeAddr = c.nodeAddr := (next_nodeAddr c hAdd).trans h.nodeAddr
  obtain ⟨hHeard, hDelivered, hSubs⟩ | ⟨p, hHeard, hDelivered, hSubs⟩ := hears h.ctxs h.nodeAddr hAdd b
  · rw [hHeard, hDelivered, List.map_nil, List.append_nil]
    exact ⟨rfl, hCtxs, hNode, hSubs ▸ h.subs, hSubs ▸ h.sent⟩
  · obtain ⟨cls, inst, hCls, hInst, hName⟩ := hNamed.parts
    have hHas : c.directory.hasActor (c.actorName b) = true :=
      Option.isSome_iff_exists.mpr ⟨b, (hNamed.own _).mpr rfl⟩
    have hCount : (c.route s.subs p).2.count b = Broker.due history (c.actorName b)
        (decide (c.nodeAddr = c.actorName b)) (order p.msg) :=
      (count_recipient hNamed _).trans (count_dispatchMsg hCls hInst hName hHas h.subs h.sent c.walk p.msg)
    have hTable : (c.route s.subs p).1 = (s.subs.outcome c.walk p.msg).1 := dispatchMsg_subs
    have hHolds := h.subs.outcome c.walk p.msg
    rw [← hTable, ← hSubs] at hHolds
    rw [hHeard, hDelivered, Broker.owed_singleton, copies, hCount]
    refine ⟨rfl, hCtxs, hNode, hHolds, fun topic hMem => ?_⟩
    rw [hHolds.mem_iff, Broker.asked_append_singleton, ← h.subs.mem_iff] at hMem
    obtain hOld | ⟨out, hOrder⟩ := hMem
    · exact h.sent topic hOld
    · obtain ⟨hSub, hSrc, -⟩ := sub_of_order hOrder
      exact hSent p (by rw [hHeard]; exact List.mem_singleton_self p) hSub hSrc

section Runs

variable {c : Setting ι} {ls : List (Label ι ω)} {b : ι}

def owedTo (c : Setting ι) (b : ι) (ms : List (Parcel (Option ι))) : List (Parcel (Option ι)) :=
  Broker.owed orderOf (c.actorName b) (decide (c.nodeAddr = c.actorName b)) [] ms

theorem delivered_eq_owed (hNamed : Named c b) (hAdded : ∀ l ∈ ls, ¬ l.IsAdd)
    (hRuns : (system c).Runs (initial c) ls)
    (hSent : ∀ p ∈ (system c).emitted dispatched (initial c) ls, p.msg.type = msgTypeSub → p.msg.src ≠ "") :
    (system c).emitted (deliveredTo c b) (initial c) ls =
      owedTo c b ((system c).emitted dispatched (initial c) ls) := by
  have hStart : HasHeard c (initial c : Scheduler ι ω) [] :=
    ⟨rfl, rfl, MsgManager.Holds.empty, fun _ => List.not_mem_nil⟩
  have hStep : ∀ (s : Scheduler ι ω) (l : Label ι ω) history, HasHeard c s history → s.enabled l →
      (¬ l.IsAdd ∧ ∀ p ∈ s.dispatched l, p.msg.type = msgTypeSub → p.msg.src ≠ "") →
      s.deliveredTo c b l = Broker.owed orderOf (c.actorName b)
          (decide (c.nodeAddr = c.actorName b)) history (s.dispatched l) ∧
        HasHeard c (s.next c l) (history ++ (s.dispatched l).map orderOf) :=
    fun s l history h _ hOk => h.next hNamed hOk.1 hOk.2
  refine Broker.emitted_owed (system c) hStep hStart hRuns fun q hq => ?_
  refine ⟨hAdded q.2 ((system c).label_mem_of_mem_steps hq), fun p hp => hSent p ?_⟩
  exact List.mem_flatMap.mpr ⟨q, hq, hp⟩

end Runs

/-- Between `Exec` and `Quit`, with the actors in place before and no limit on their mailboxes, in every
run: what an actor has been handed, followed by what is left in its mailbox, is what a broker owes it who
hears the messages in the order of their dispatch. Where the scheduler has come to rest the actor has been
handed all of it. -/
theorem handed_as_owed [Nonempty ω] (c : Setting ι) (hUnbounded : ∀ a, c.pendingQueueSize a ≤ 0) {b : ι}
    (hNamed : Named c b) (ls : List (Label ι ω)) (hAdded : ∀ l ∈ ls, ¬ l.IsAdd) (hQuit : ∀ l ∈ ls, ¬ l.IsQuit)
    (hRuns : (system c).Runs (initial c) ls)
    (hSent : ∀ p ∈ (system c).emitted dispatched (initial c) ls, p.msg.type = msgTypeSub → p.msg.src ≠ "") :
    let s := (system c).exec (initial c) ls
    let owed := owedTo c b ((system c).emitted dispatched (initial c) ls)
    (system c).emitted (handedTo b) (initial c) ls ++ ((s.box b).run ++ (s.box b).recv) = owed ∧
      ((system c).AtRest Works s → (system c).emitted (handedTo b) (initial c) ls = owed) := by
  intro s owed
  have hAll : (system c).emitted (handedTo b) (initial c) ls ++ ((s.box b).run ++ (s.box b).recv) = owed :=
    (delivered_eq hUnbounded hAdded hQuit hRuns b).symm.trans (delivered_eq_owed hNamed hAdded hRuns hSent)
  refine ⟨hAll, fun hRest => ?_⟩
  obtain ⟨hAccounted, hCalm, hCarried⟩ := accounted_of_runs hAdded hQuit hRuns
  obtain ⟨hRecv, hRun, -⟩ := (drained_of_atRest hAccounted hCalm hCarried hRest).mailbox b
  rwa [hRecv, hRun, List.append_nil, List.append_nil] at hAll

/-- The second actor subscribes to the first one, which then publishes a message. -/
def pairSubscriber : LinkedActor Unit where
  typeName := "b"
  instName := "1"
  ctx := some { mailbox := { addr := "actor.b.1" } }
  addr := by simpa using (by decide)

def pairPub : Msg := { src := "actor.a.1", name := "x", type := msgTypePub }

def topicRun : List (Label Bool Unit) :=
  [.worker (), .event (), .main, .arrive (pairSubscriber.subscription "actor.a.1" "x" .kIntra), .arrive pairPub,
    .check, .main, .main, .main, .main, .main, .main, .main, .worker (), .worker (), .worker ()]

theorem pairSetting_named : Named pairSetting true where
  own name := by simp [pairSetting, pairName]
  parts := ⟨"b", "1", by decide, by decide, by decide⟩

theorem handed_as_owed_pair :
    (system pairSetting).emitted (handedTo true) (initial pairSetting) topicRun = [⟨none, pairPub⟩] := by
  obtain ⟨hAll, -⟩ := handed_as_owed pairSetting (by decide) pairSetting_named topicRun (by decide) (by decide)
    (by decide) (by decide)
  have hEmpty : (((system pairSetting).exec (initial pairSetting) topicRun).box true).run ++
      (((system pairSetting).exec (initial pairSetting) topicRun).box true).recv = [] := by decide
  rw [hEmpty, List.append_nil] at hAll
  rw [hAll]
  decide

/-- A local SUB for the topic of a published message. -/
def Asks (b : String) (p q : Parcel (Option ι)) : Prop :=
  q.msg.type = msgTypeSub ∧ MsgManager.Local q.msg ∧ q.msg.src = b ∧ q.msg.dst = p.msg.src ∧ q.msg.name = p.msg.name

omit [DecidableEq ι] [DecidableEq ω] in
theorem asked_iff {b : String} {p : Parcel (Option ι)} {before : List (Parcel (Option ι))}
    (hSrc : ThreePart p.msg.src) (hTopics : ∀ q ∈ before, MsgManager.Addressed q.msg) :
    Broker.Asked ([] ++ before.map orderOf) b (MsgManager.getTopicName p.msg false) ↔
      ∃ q ∈ before, Asks b p q := by
  rw [List.nil_append]
  constructor
  · rintro ⟨out, hMem⟩
    obtain ⟨q, hq, hOrder⟩ := List.mem_map.mp hMem
    obtain ⟨hSub, hFrom, hTopic, hLocal⟩ := sub_of_order hOrder
    have hDst : ThreePart q.msg.dst := (hTopics q hq).1 hSub
    obtain ⟨hTo, hName⟩ := MsgManager.topicName_inj hDst hSrc hTopic
    exact ⟨q, hq, hSub, of_decide_eq_true hLocal.symm, hFrom, hTo, hName⟩
  · rintro ⟨q, hq, hSub, hLocal, rfl, hDst, hName⟩
    have hTopic : MsgManager.getTopicName q.msg true = MsgManager.getTopicName p.msg false := by
      simp only [MsgManager.getTopicName, if_true, hDst, hName, Bool.false_eq_true, if_false]
    refine ⟨decide (MsgManager.Remote q.msg), List.mem_map.mpr ⟨q, hq, ?_⟩⟩
    rw [orderOf, order_sub hSub, hTopic, decide_eq_true hLocal]

/-- Under the same conditions, for an actor that is not the node, when the SUB messages come from
`Actor::Subscribe`: it is handed each dispatched message once at most, in the order of dispatch; of the
published ones only such as it had asked for before they were dispatched, and never its own; and where
the scheduler has come to rest it has been handed each local one that it had asked for. -/
theorem handed_only_asked [Nonempty ω] (c : Setting ι) (hUnbounded : ∀ a, c.pendingQueueSize a ≤ 0) {b : ι}
    (hNamed : Named c b) (hNode : c.nodeAddr ≠ c.actorName b) (ls : List (Label ι ω))
    (hAdded : ∀ l ∈ ls, ¬ l.IsAdd) (hQuit : ∀ l ∈ ls, ¬ l.IsQuit) (hRuns : (system c).Runs (initial c) ls)
    (hSub : ∀ p ∈ (system c).emitted dispatched (initial c) ls,
      p.msg.type = msgTypeSub → LinkedActor.Subscribes p.msg)
    (hTopics : ∀ p ∈ (system c).emitted dispatched (initial c) ls, MsgManager.Addressed p.msg) :
    let s := (system c).exec (initial c) ls
    let heard := (system c).emitted dispatched (initial c) ls
    let handed := (system c).emitted (handedTo b) (initial c) ls
    handed.Sublist heard ∧
      (∀ p ∈ handed, p.msg.type = msgTypePub → p.msg.src ≠ c.actorName b ∧
        ∃ before after, heard = before ++ p :: after ∧ ∃ q ∈ before, Asks (c.actorName b) p q) ∧
      ((system c).AtRest Works s → ∀ before p after, heard = before ++ p :: after →
        p.msg.type = msgTypePub → MsgManager.Local p.msg → (∃ q ∈ before, Asks (c.actorName b) p q) →
        p ∈ handed) := by
  intro s heard handed
  have hSent : ∀ p ∈ heard, p.msg.type = msgTypeSub → p.msg.src ≠ "" := fun p hp hType => (hSub p hp hType).addressed.1
  have hGate : decide (c.nodeAddr = c.actorName b) = false := decide_eq_false hNode
  have hAll : handed ++ ((s.box b).run ++ (s.box b).recv) = owedTo c b heard :=
    (delivered_eq hUnbounded hAdded hQuit hRuns b).symm.trans (delivered_eq_owed hNamed hAdded hRuns hSent)
  rw [owedTo, hGate] at hAll
  have hHanded : handed.Sublist (Broker.owed orderOf (c.actorName b) false [] heard) :=
    hAll ▸ List.sublist_append_left ..
  refine ⟨hHanded.trans (Broker.owed_sublist [] heard), fun p hp hPub => ?_, fun hRest before p after hHeard hPub
    hLocal hAsks => ?_⟩
  · have hRead : orderOf p = .publish _ _ _ := order_pub hPub
    obtain ⟨-, before, after, hHeard, hAsked⟩ := Broker.asked_of_mem_owed hRead (hHanded.subset hp)
    have hBefore : ∀ q ∈ before, q ∈ heard := fun q hq => hHeard ▸ List.mem_append_left _ hq
    have hp : p ∈ heard := hHeard ▸ List.mem_append_right _ List.mem_cons_self
    obtain ⟨q, hq, hAsks⟩ :=
      (asked_iff ((hTopics p hp).2 hPub) fun q hq => hTopics q (hBefore q hq)).mp hAsked
    refine ⟨?_, before, after, hHeard, q, hq, hAsks⟩
    obtain ⟨hType, -, hFrom, hTo, -⟩ := hAsks
    rw [← hFrom, ← hTo]
    exact (hSub q (hBefore q hq) hType).addressed.2
  · have hBefore : ∀ q ∈ before, q ∈ heard := fun q hq => hHeard ▸ List.mem_append_left _ hq
    have hp : p ∈ heard := hHeard ▸ List.mem_append_right _ List.mem_cons_self
    have hRead : orderOf p = .publish _ _ _ := order_pub hPub
    rw [decide_eq_true hLocal] at hRead
    have hAsked := (asked_iff ((hTopics p hp).2 hPub) fun q hq => hTopics q (hBefore q hq)).mpr hAsks
    obtain ⟨hAccounted, hCalm, hCarried⟩ := accounted_of_runs hAdded hQuit hRuns
    obtain ⟨hRecv, hRun, -⟩ := (drained_of_atRest hAccounted hCalm hCarried hRest).mailbox b
    rw [hRecv, hRun, List.append_nil, List.append_nil, hHeard] at hAll
    rw [hAll]
    exact Broker.mem_owed_of_asked hRead hAsked

theorem handed_only_asked_pair :
    Asks "actor.b.1" ⟨none, pairPub⟩
      (⟨none, pairSubscriber.subscription "actor.a.1" "x" .kIntra⟩ : Parcel (Option Bool)) := by
  have hHeard : (system pairSetting).emitted dispatched (initial pairSetting) topicRun =
      [⟨none, pairSubscriber.subscription "actor.a.1" "x" .kIntra⟩, ⟨none, pairPub⟩] := by decide
  have hAddr : ThreePart "actor.a.1" := ⟨"actor", "a", "1", by decide, by decide, by decide, by decide⟩
  have hSub : ∀ p ∈ (system pairSetting).emitted dispatched (initial pairSetting) topicRun,
      p.msg.type = msgTypeSub → LinkedActor.Subscribes p.msg := by
    rw [hHeard]
    intro p hp hType
    obtain rfl | rfl := List.mem_pair.mp hp
    · exact ⟨pairSubscriber, "actor.a.1", "x", .kIntra, rfl⟩
    · exact absurd hType (by decide)
  have hTopics : ∀ p ∈ (system pairSetting).emitted dispatched (initial pairSetting) topicRun,
      MsgManager.Addressed p.msg := by
    rw [hHeard]
    intro p hp
    obtain rfl | rfl := List.mem_pair.mp hp
    · exact ⟨fun _ => hAddr, fun hPub => absurd hPub (by decide)⟩
    · exact ⟨fun hType => absurd hType (by decide), fun _ => hAddr⟩
  have hHanded : ⟨none, pairPub⟩ ∈ (system pairSetting).emitted (handedTo true) (initial pairSetting) topicRun := by
    decide
  obtain ⟨-, hAsked, -⟩ := handed_only_asked pairSetting (by decide) pairSetting_named (by decide) topicRun
    (by decide) (by decide) (by decide) hSub hTopics
  obtain ⟨-, before, after, hSplit, q, hq, hAsks⟩ := hAsked _ hHanded rfl
  rw [hHeard] at hSplit
  obtain _ | ⟨x, _ | ⟨y, before⟩⟩ := before
  · cases hq
  · obtain ⟨rfl, -⟩ := List.cons.inj hSplit
    rwa [List.mem_singleton.mp hq] at hAsks
  · simp at hSplit

end Scheduler
end Myframe
