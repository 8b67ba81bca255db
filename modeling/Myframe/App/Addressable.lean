import Myframe.App.Outcome
import Myframe.App.Routing
import Myframe.Actor.WaitQueue

/-! # Messages for an actor that has been added

Every call of `DispatchMsg(msg)`, whoever the message is from, against the name that the actor is
registered under.
-/
namespace Myframe
set_option autoImplicit false
open Common

namespace ActorContextManager

variable {γ : Type}

/-- The queue agrees with the mailboxes, and only contexts below `n` are in use. -/
structure Ready (m : ActorContextManager ℕ γ) (n : ℕ) : Prop where
  tidy : m.Tidy none
  queued : ∀ i ∈ m.waitQueue, i < n
  registered : ∀ name i, m.ctxs name = some i → i < n

theorem mem_pushContext {m : ActorContextManager ℕ γ} {i j : ℕ} (h : j ∈ (m.pushContext i).waitQueue) :
    j ∈ m.waitQueue ∨ j = i := by
  rw [pushContext] at h
  split at h
  · exact .inl h
  · exact (List.mem_append.mp h).imp_right List.mem_singleton.mp

theorem Ready.dispatchMsg {m : ActorContextManager ℕ γ} {n : ℕ} (h : m.Ready n) (name : String)
    (p : Parcel γ) : (m.dispatchMsg name p).Ready n where
  tidy := h.tidy.dispatchMsg name p
  queued i hi := by
    rw [ActorContextManager.dispatchMsg] at hi
    split at hi
    · exact h.queued i hi
    · next a hName =>
      obtain hOld | rfl := mem_pushContext hi
      · exact h.queued i hOld
      · exact h.registered name i hName
  registered name' i hi := h.registered name' i (by rwa [dispatchMsg_ctxs] at hi)

theorem Ready.mapMailbox {m : ActorContextManager ℕ γ} {n : ℕ} (h : m.Ready n) (i : ℕ)
    {f : Mailbox γ → Mailbox γ} (hRecv : ∀ b, (f b).recv = b.recv) : (m.mapMailbox i f).Ready n where
  tidy := h.tidy.mapMailbox i fun _ => hRecv _
  queued := h.queued
  registered := h.registered

theorem Ready.setRuningFlag {m : ActorContextManager ℕ γ} {n : ℕ} (h : m.Ready n) (i : ℕ) (b : Bool) :
    (m.setRuningFlag i b).Ready n where
  tidy := h.tidy.of_heap rfl fun a => by
    rw [ActorContextManager.setRuningFlag, modify_heap]
    split
    · next hEq => rw [hEq]; exact ⟨rfl, rfl⟩
    · exact ⟨rfl, rfl⟩
  queued := h.queued
  registered := h.registered

theorem Ready.add {m : ActorContextManager ℕ γ} {n : ℕ} (h : m.Ready n) {ctx : ActorContext γ}
    (hRecv : ctx.mailbox.recv = []) (hFlag : ctx.inWaitQue = false) (name : String) :
    (({ m with heap := Function.update m.heap n ctx } : ActorContextManager ℕ γ).add name n).1.Ready (n + 1) := by
  have hNotMem : n ∉ m.waitQueue := fun hMem => (h.queued n hMem).ne rfl
  have hTidy : (({ m with heap := Function.update m.heap n ctx } : ActorContextManager ℕ γ)).Tidy none := by
    refine ⟨h.tidy.nodup, fun a => ?_, fun a _ => ?_, fun a hNone => ?_⟩
    · obtain rfl | hNe := eq_or_ne a n
      · simp [hNotMem, hFlag]
      · simp only [Function.update_of_ne hNe]
        exact h.tidy.mem_iff a
    · obtain rfl | hNe := eq_or_ne a n
      · simp [hRecv, hFlag]
      · simp only [Function.update_of_ne hNe]
        exact h.tidy.recv_iff a (Option.some_ne_none a).symm
    · exact absurd hNone.symm (Option.some_ne_none a)
  rw [ActorContextManager.add]
  split
  · exact ⟨hTidy, fun i hi => (h.queued i hi).trans n.lt_succ_self,
      fun name i hi => (h.registered name i hi).trans n.lt_succ_self⟩
  · refine ⟨hTidy.of_heap rfl fun _ => ⟨rfl, rfl⟩, fun i hi => (h.queued i hi).trans n.lt_succ_self,
      fun name' i hi => ?_⟩
    simp only [Function.update_apply] at hi
    split at hi
    · exact (Option.some.inj hi) ▸ n.lt_succ_self
    · exact (h.registered name' i hi).trans n.lt_succ_self

theorem Ready.mem_waitQueue {m : ActorContextManager ℕ γ} {n i : ℕ} (h : m.Ready n)
    (hRecv : (m.heap i).mailbox.recv ≠ []) : i ∈ m.waitQueue :=
  (h.tidy.mem_iff i).mpr ((h.tidy.recv_iff i (Option.some_ne_none i).symm).mp hRecv)

end ActorContextManager

namespace Application

variable {κ : Type} (w : SetWalk) (o : Platform κ)

def Ready (s : Application κ) : Prop := s.actorCtxMgr.Ready s.ctxCount

/-- The calls of `DispatchMsg(msg)` for a list of messages, with the states they are made in. -/
def dispatched : List (Parcel (Origin κ)) → Application κ → List (Application κ × Parcel (Origin κ))
  | [], _ => []
  | p :: ps, s => (s, p) :: dispatched ps (s.dispatchMsg w p)

def addActorDispatched (s : Application κ) (a : Actor κ) (cfg : Json) :
    List (Application κ × Parcel (Origin κ)) :=
  if s.admits a.typeName = true then
    match s.initContext a cfg with
    | .error _ => []
    | .ok (ctx, code) =>
      if code ≠ 0 then []
      else
        let t := (s.setNode a.typeName a.getActorName).enter a cfg ctx
        let u := cacheSends s.ctxCount (recvCached w a.getActorName t)
        dispatched w (t.cacheMsgs.filter (·.msg.dst = a.getActorName))
            { t with cacheMsgs := t.cacheMsgs.filter (·.msg.dst ≠ a.getActorName) } ++
          dispatched w (u.sendOf s.ctxCount) (u.mapActors fun m => m.setRuningFlag s.ctxCount false)
  else []

def addActorsDispatched (s : Application κ) : List (Json × Actor κ) → List (Application κ × Parcel (Origin κ))
  | [] => []
  | (inst, a) :: rest =>
    match instanceConfig inst with
    | .error _ => []
    | .ok cfg =>
      addActorDispatched w s a cfg ++
        if (s.addActor w a cfg).2 = .ok true then addActorsDispatched (s.addActor w a cfg).1 rest else []

def dispatchedBy (s : Application κ) : Label κ → List (Application κ × Parcel (Origin κ))
  | .addActor a cfg => s.addActorDispatched w a cfg
  | .loadServiceFromJson service _ =>
    if s.state = .kUninitialized ∨ s.state = .kQuitting ∨ s.state = .kQuit then []
    else
      match (s.mods.loadService o s.libDir service).2 with
      | .ok (some (actors, _)) =>
        addActorsDispatched w { s with mods := (s.mods.loadService o s.libDir service).1 } actors
      | _ => []
  | .exec =>
    if s.state = .kInitialized ∨ s.state = .kQuitting then dispatched w s.cacheMsgs { s with state := .kRunning }
    else []
  | .processWorkerEvent i posted =>
    let t := s.mapActors fun m => m.mapMailbox i fun b => { b with run := [], send := b.send ++ posted }
    dispatched w (t.sendOf i) (t.mapActors fun m => m.setRuningFlag i false)
  | .deliver ps => dispatched w ps s
  | _ => []

/-- The message goes into the mailbox of the actor, nowhere else, and the actor waits for a worker. -/
def Delivers (s : Application κ) (p : Parcel (Origin κ)) (name : String) (i : ℕ) : Prop :=
  ((s.dispatchMsg w p).actorCtxMgr.heap i).mailbox = (s.actorCtxMgr.heap i).mailbox.receive p ∧
    i ∈ (s.dispatchMsg w p).actorCtxMgr.waitQueue ∧
    (s.dispatchMsg w p).received = s.received ++ [(.actor name, p)]

theorem Ready.dispatchMsg {s : Application κ} (h : s.Ready) (p : Parcel (Origin κ)) : (s.dispatchMsg w p).Ready :=
  App.dispatchMsg_actors (Q := fun m => m.Ready s.ctxCount) (fun _ name hm => hm.dispatchMsg name p) w h

/-- A name with a dot inside takes its owner out of reach. -/
theorem delivers_iff {s : Application κ} (h : s.Ready) {cls inst : String} {i : ℕ}
    (hName : s.actorCtxMgr.ctxs (address "actor" cls inst) = some i) {p : Parcel (Origin κ)}
    (hOrdinary : p.msg.Ordinary) (hMode : p.msg.transMode = .kIntra)
    (hDst : p.msg.dst = address "actor" cls inst) :
    s.Delivers w p (address "actor" cls inst) i ↔ DotFree cls ∧ DotFree inst := by
  have hActor : DotFree "actor" := by decide
  have hCalls : s.toApp.calls w p.msg = [(address "actor" cls inst, .kIntra)] := by
    simp only [App.calls, if_neg hOrdinary.1, if_neg hOrdinary.2, hDst, hMode]
  have hAddr : dstAddr p (address "actor" cls inst) = address "actor" cls inst := by
    rw [dstAddr, hDst, ite_self]
  have hDispatch : s.toApp.dispatchMsg w p =
      ({ s.toApp with subs := (s.subs.outcome w p.msg).1 } : App ℕ ℕ κ).call p
        (address "actor" cls inst, .kIntra) := by
    rw [App.dispatchMsg, hCalls]
    rfl
  by_cases hFree : DotFree cls ∧ DotFree inst
  · refine iff_of_true ?_ hFree
    have hCall : ∀ b : App ℕ ℕ κ, b.actorCtxMgr = s.actorCtxMgr → b.received = s.received →
        (b.call p (address "actor" cls inst, .kIntra)).received =
            s.received ++ [(.actor (address "actor" cls inst), p)] ∧
          (b.call p (address "actor" cls inst, .kIntra)).actorCtxMgr =
            s.actorCtxMgr.dispatchMsg (address "actor" cls inst) p := by
      intro b hSame hReceived
      simp only [App.call, hAddr, App.deliveries, splitMsgName_address hActor hFree.1 hFree.2, if_true,
        Directory.transMap, Directory.trans2actor, App.directory, hSame, hName, Option.isSome_some,
        List.foldl_cons, List.foldl_nil, App.deliverTo, App.finds, hReceived, and_self]
    obtain ⟨hReceived, hActors⟩ := hCall { s.toApp with subs := (s.subs.outcome w p.msg).1 } rfl rfl
    have hBox : ((s.dispatchMsg w p).actorCtxMgr.heap i).mailbox = (s.actorCtxMgr.heap i).mailbox.receive p := by
      rw [Application.dispatchMsg, hDispatch, hActors, ActorContextManager.dispatchMsg_mailbox, if_pos hName]
    refine ⟨hBox, (h.dispatchMsg w p).mem_waitQueue ?_, ?_⟩
    · rw [hBox]
      exact Mailbox.receive_recv_ne_nil _ _
    · rw [Application.dispatchMsg, hDispatch]
      exact hReceived
  · refine iff_of_false (fun hDelivers => ?_) hFree
    have hLength : (splitMsgName (address "actor" cls inst)).length ≠ 3 := fun hThree =>
      hFree ((splitMsgName_address_length hActor).mp hThree)
    have hSame : (s.dispatchMsg w p).received = s.received := by
      rw [Application.dispatchMsg, hDispatch, App.call, hAddr]
      simp only [App.deliveries_of_length hLength, List.foldl_nil]
    have hReceived := hDelivers.2.2
    rw [hSame] at hReceived
    exact absurd (congrArg List.length hReceived) (by simp)

theorem Ready.dispatched {s : Application κ} (h : s.Ready) (ps : List (Parcel (Origin κ))) :
    (dispatchList w ps s).Ready ∧
      ∀ e ∈ dispatched w ps s, e.1.Ready ∧ e.1.actorCtxMgr.ctxs = s.actorCtxMgr.ctxs := by
  induction ps generalizing s with
  | nil => exact ⟨h, by rintro e ⟨⟩⟩
  | cons p ps ih =>
    obtain ⟨hAfter, hEvents⟩ := ih (h.dispatchMsg w p)
    refine ⟨hAfter, List.forall_mem_cons.mpr ⟨⟨h, rfl⟩, fun e he => ?_⟩⟩
    obtain ⟨hReady, hCtxs⟩ := hEvents e he
    exact ⟨hReady, hCtxs.trans (s.toApp.dispatchMsg_frame w p).1⟩

theorem Ready.setSend {s : Application κ} (h : s.Ready) (i : ℕ) (send : List (Parcel (Origin κ))) :
    (s.setSend i send).Ready :=
  ActorContextManager.Ready.mapMailbox h i (f := fun b => { b with send := send }) fun _ => rfl

theorem Ready.dispatchContext {s : Application κ} (h : s.Ready) (i : ℕ) :
    (Application.dispatchContext w i s).Ready ∧
      ∀ e ∈ Application.dispatched w (s.sendOf i) (s.mapActors fun m => m.setRuningFlag i false),
        e.1.Ready ∧ e.1.actorCtxMgr.ctxs = s.actorCtxMgr.ctxs := by
  have hFlag : (s.mapActors fun m => m.setRuningFlag i false).Ready :=
    ActorContextManager.Ready.setRuningFlag h i false
  obtain ⟨hAfter, hEvents⟩ := hFlag.dispatched w (s.sendOf i)
  exact ⟨hAfter.setSend i [], hEvents⟩

theorem Ready.enter {s : Application κ} (h : s.Ready) (a : Actor κ) (cfg : Json)
    {ctx : ActorContext (Origin κ)} (hRecv : ctx.mailbox.recv = []) (hFlag : ctx.inWaitQue = false) :
    (s.enter a cfg ctx).Ready :=
  ActorContextManager.Ready.add h hRecv hFlag a.getActorName

theorem initContext_new {s : Application κ} {a : Actor κ} {cfg : Json}
    {ctx : ActorContext (Origin κ)} {code : ℤ} (h : s.initContext a cfg = .ok (ctx, code)) :
    ctx.mailbox.recv = [] ∧ ctx.inWaitQue = false ∧ ctx.mailbox.send = (a.init cfg).2 := by
  obtain ⟨pendingQueueSize, -, h⟩ := Json.bind_ok_iff.mp h
  obtain ⟨runQueueSize, -, h⟩ := Json.bind_ok_iff.mp h
  obtain ⟨rfl, -⟩ := Prod.mk.inj (Except.ok.inj h)
  exact ⟨rfl, rfl, rfl⟩

/-- The calls that `AddActor` makes find the actor registered, if its name was free. -/
theorem Ready.addActor {s : Application κ} (h : s.Ready) (a : Actor κ) (cfg : Json) :
    (s.addActor w a cfg).1.Ready ∧
      ∀ e ∈ s.addActorDispatched w a cfg, e.1.Ready ∧
        e.1.actorCtxMgr.ctxs =
          if (s.actorCtxMgr.ctxs a.getActorName).isSome then s.actorCtxMgr.ctxs
          else Function.update s.actorCtxMgr.ctxs a.getActorName (some s.ctxCount) := by
  rw [addActorDispatched]
  obtain ⟨hAdmits, hEq⟩ | ⟨hAdmits, ⟨e, hRun, hEq⟩ | ⟨ctx, code, hRun, hCode, hEq⟩ | ⟨ctx, hRun, hEq⟩⟩ :=
    s.addActor_cases w a cfg
  · rw [hEq, hAdmits, if_neg Bool.false_ne_true]
    exact ⟨h, by rintro e ⟨⟩⟩
  · rw [hEq, hAdmits, if_pos rfl, hRun]
    exact ⟨h, by rintro e ⟨⟩⟩
  · rw [hEq, hAdmits, if_pos rfl, hRun]
    simp only [ne_eq, hCode, not_false_eq_true, if_true]
    exact ⟨h, by rintro e ⟨⟩⟩
  · rw [hEq, hAdmits, if_pos rfl, hRun]
    simp only [ne_eq, not_true_eq_false, if_false]
    obtain ⟨hRecv, hFlag, -⟩ := initContext_new hRun
    have hEnter : ((s.setNode a.typeName a.getActorName).enter a cfg ctx).Ready :=
      Ready.enter (s := s.setNode a.typeName a.getActorName) h a cfg hRecv hFlag
    have hCtxs := enter_ctxs (s.setNode a.typeName a.getActorName) a cfg ctx
    generalize (s.setNode a.typeName a.getActorName).enter a cfg ctx = t at hEnter hCtxs ⊢
    obtain ⟨hCached, hCachedEvents⟩ := Ready.dispatched w
      (s := { t with cacheMsgs := t.cacheMsgs.filter (·.msg.dst ≠ a.getActorName) }) hEnter
      (t.cacheMsgs.filter (·.msg.dst = a.getActorName))
    have hCachedCtxs : (recvCached w a.getActorName t).actorCtxMgr.ctxs = t.actorCtxMgr.ctxs := by
      obtain ⟨app, hSame, hKept, -⟩ := dispatchList_frame w (t.cacheMsgs.filter (·.msg.dst = a.getActorName))
        { t with cacheMsgs := t.cacheMsgs.filter (·.msg.dst ≠ a.getActorName) }
      rw [recvCached, hSame]
      exact hKept
    have hSends : (cacheSends s.ctxCount (recvCached w a.getActorName t)).Ready := hCached.setSend s.ctxCount _
    obtain ⟨hAfter, hSent⟩ := hSends.dispatchContext w s.ctxCount
    refine ⟨hAfter, fun e he => ?_⟩
    obtain hFirst | hLater := List.mem_append.mp he
    · obtain ⟨hReady, hSame⟩ := hCachedEvents e hFirst
      exact ⟨hReady, hSame.trans hCtxs⟩
    · obtain ⟨hReady, hSame⟩ := hSent e hLater
      exact ⟨hReady, hSame.trans (hCachedCtxs.trans hCtxs)⟩

/-- A call of `DispatchMsg(msg)` in a state in which all is in order and this name is the context's. -/
def Finds (name : String) (i : ℕ) (e : Application κ × Parcel (Origin κ)) : Prop :=
  e.1.Ready ∧ e.1.actorCtxMgr.ctxs name = some i

theorem Ready.addActor_finds {s : Application κ} (h : s.Ready) {name : String} {i : ℕ}
    (hName : s.actorCtxMgr.ctxs name = some i) (a : Actor κ) (cfg : Json) :
    ∀ e ∈ s.addActorDispatched w a cfg, Finds name i e := by
  intro e he
  obtain ⟨hReady, hCtxs⟩ := (h.addActor w a cfg).2 e he
  refine ⟨hReady, ?_⟩
  rw [hCtxs]
  split
  · exact hName
  · next hFree =>
    rw [Function.update_of_ne (by rintro rfl; exact hFree (by rw [hName]; rfl))]
    exact hName

theorem Ready.addActors {s : Application κ} (h : s.Ready) (xs : List (Json × Actor κ)) :
    (s.addActors w xs).1.Ready ∧ ∀ name i, s.actorCtxMgr.ctxs name = some i →
      ∀ e ∈ addActorsDispatched w s xs, Finds name i e := by
  induction xs generalizing s with
  | nil => exact ⟨h, by rintro name i - e ⟨⟩⟩
  | cons x xs ih =>
    obtain ⟨inst, a⟩ := x
    rw [Application.addActors, addActorsDispatched]
    cases instanceConfig inst with
    | error e => exact ⟨h, by rintro name i - e ⟨⟩⟩
    | ok cfg =>
      obtain ⟨hAfter, -⟩ := h.addActor w a cfg
      simp only
      split
      · next hOk =>
        obtain ⟨hLast, hRest⟩ := ih hAfter
        refine ⟨hLast, fun name i hName e he => ?_⟩
        obtain hMem | hMem := List.mem_append.mp he
        · exact h.addActor_finds w hName a cfg e hMem
        · exact hRest name i ((s.addActor_grows w a cfg).ctxs name i hName) e hMem
      · refine ⟨hAfter, fun name i hName e he => ?_⟩
        rw [List.append_nil] at he
        exact h.addActor_finds w hName a cfg e he

theorem Ready.of_eq {s t : Application κ} (h : s.Ready) (hActors : t.actorCtxMgr = s.actorCtxMgr)
    (hCount : t.ctxCount = s.ctxCount) : t.Ready := by
  rw [Ready, hActors, hCount]
  exact h

theorem Ready.loadServiceFromJson {s : Application κ} (h : s.Ready) (service : Json) (grants : ℕ → Grant) :
    (s.loadServiceFromJson w o service grants).1.Ready ∧ ∀ name i, s.actorCtxMgr.ctxs name = some i →
      ∀ e ∈ s.dispatchedBy w o (.loadServiceFromJson service grants), Finds name i e := by
  have hQuiet : ∀ {t : Application κ}, t.Ready → t.Ready ∧ ∀ name i, s.actorCtxMgr.ctxs name = some i →
      ∀ e ∈ ([] : List (Application κ × Parcel (Origin κ))), Finds name i e :=
    fun ht => ⟨ht, by rintro name i - e ⟨⟩⟩
  rw [Application.loadServiceFromJson, dispatchedBy]
  split
  · exact hQuiet h
  · simp only
    generalize s.mods.loadService o s.libDir service = r
    obtain ⟨m, e | _ | ⟨actors, workers⟩⟩ := r
    · exact hQuiet (t := { s with mods := m }) h
    · exact hQuiet (t := { s with mods := m }) h
    · obtain ⟨hAfter, hEvents⟩ := Ready.addActors w (s := { s with mods := m }) h actors
      refine ⟨?_, hEvents⟩
      simp only
      split
      · obtain ⟨hActors, -, hCount⟩ :=
          addWorkers_frame workers (Application.addActors w ({ s with mods := m } : Application κ) actors).1 grants
        exact hAfter.of_eq hActors hCount
      · exact hAfter

theorem Ready.assign {s : Application κ} (h : s.Ready) : s.assign.Ready := by
  rw [Application.assign]
  cases hTake : s.actorCtxMgr.getContextWithMsg with
  | mk m found =>
    cases found with
    | none =>
      obtain rfl := ActorContextManager.getContextWithMsg_none hTake
      exact h
    | some i =>
      obtain ⟨hTidy, hRecv⟩ := h.tidy.getContextWithMsg hTake
      obtain ⟨-, hPerm, hCtxs, -⟩ := ActorContextManager.getContextWithMsg_some hTake
      have hQueued : ∀ j ∈ i :: m.waitQueue, j < s.ctxCount := fun j hj => h.queued j (hPerm.mem_iff.mp hj)
      have hRegistered : ∀ name j, m.ctxs name = some j → j < s.ctxCount := by
        rw [hCtxs]
        exact h.registered
      have hMoved := hTidy.mapMailbox i (f := Mailbox.moveToRun) fun hNe => absurd rfl hNe
      simp only
      rw [if_neg hRecv]
      split
      · next hNil =>
        exact ⟨hMoved.release hNil, fun j hj => hQueued j (List.mem_cons_of_mem _ hj), hRegistered⟩
      · next hLeft =>
        refine ⟨.pushContext hMoved.nodup hMoved.mem_iff (fun b hb => hMoved.recv_iff b ?_) hLeft,
          fun j hj => ?_, fun name j hName => hRegistered name j ?_⟩
        · exact fun hSame => hb (Option.some.inj hSame).symm
        · obtain hOld | rfl := ActorContextManager.mem_pushContext hj
          · exact hQueued j (List.mem_cons_of_mem _ hOld)
          · exact hQueued j List.mem_cons_self
        · rwa [ActorContextManager.pushContext_ctxs] at hName

theorem Ready.next {s : Application κ} (h : s.Ready) (l : Label κ) :
    (s.next w o l).Ready ∧ ∀ name i, s.actorCtxMgr.ctxs name = some i →
      ∀ e ∈ s.dispatchedBy w o l, Finds name i e := by
  have hQuiet : ∀ {t : Application κ}, t.Ready → t.Ready ∧ ∀ name i, s.actorCtxMgr.ctxs name = some i →
      ∀ e ∈ ([] : List (Application κ × Parcel (Origin κ))), Finds name i e :=
    fun ht => ⟨ht, by rintro name i - e ⟨⟩⟩
  have hCalls : ∀ {t u : Application κ} {es : List (Application κ × Parcel (Origin κ))},
      (u.Ready ∧ ∀ e ∈ es, e.1.Ready ∧ e.1.actorCtxMgr.ctxs = t.actorCtxMgr.ctxs) →
        t.actorCtxMgr.ctxs = s.actorCtxMgr.ctxs →
          u.Ready ∧ ∀ name i, s.actorCtxMgr.ctxs name = some i → ∀ e ∈ es, Finds name i e := by
    rintro t u es ⟨hAfter, hEvents⟩ hSame
    refine ⟨hAfter, fun name i hName e he => ?_⟩
    obtain ⟨hReady, hCtxs⟩ := hEvents e he
    exact ⟨hReady, by rw [hCtxs, hSame]; exact hName⟩
  cases l with
  | addActor a cfg => exact ⟨(h.addActor w a cfg).1, fun name i hName => h.addActor_finds w hName a cfg⟩
  | loadServiceFromJson service grants => exact h.loadServiceFromJson w o service grants
  | addWorker v g =>
    obtain ⟨hActors, -, hCount⟩ := s.addWorker_frame v g
    exact hQuiet (h.of_eq hActors hCount)
  | init libDir pendingQueueSize runQueueSize =>
    rw [Application.next, call, init]
    refine hQuiet ?_
    split <;> exact h
  | loadMod dlPath | regActor className func | regWorker className func => exact hQuiet h
  | quit =>
    rw [Application.next, call, quit]
    refine hQuiet ?_
    split <;> exact h
  | exec =>
    rw [Application.next, call, exec, dispatchedBy]
    split
    · exact hCalls (Ready.dispatched w (s := { s with state := .kRunning }) h s.cacheMsgs) rfl
    · exact hQuiet h
  | deliver ps => exact hCalls (h.dispatched w ps) rfl
  | processWorkerEvent i posted =>
    have hRun : (s.mapActors fun m => m.mapMailbox i fun b =>
        { b with run := [], send := b.send ++ posted }).Ready :=
      ActorContextManager.Ready.mapMailbox h i (f := fun b => { b with run := [], send := b.send ++ posted })
        fun _ => rfl
    exact hCalls (hRun.dispatchContext w i) rfl
  | assign => exact hQuiet h.assign

theorem Ready.emitted {s : Application κ} (h : s.Ready) {name : String} {i : ℕ}
    (hName : s.actorCtxMgr.ctxs name = some i) (ls : List (Label κ)) :
    ∀ e ∈ (system w o).emitted (dispatchedBy w o) s ls, Finds name i e := by
  induction ls generalizing s with
  | nil => rintro e ⟨⟩
  | cons l ls ih =>
    obtain ⟨hAfter, hEvents⟩ := h.next w o l
    intro e he
    obtain hNow | hLater := List.mem_append.mp he
    · exact hEvents name i hName e hNow
    · exact ih hAfter ((s.next_grows w o l).1.ctxs name i hName) e hLater

theorem ready_exec (ls : List (Label κ)) : ((system w o).exec {} ls).Ready := by
  have hStart : ({} : Application κ).Ready := by
    refine ⟨⟨List.nodup_nil, fun a => ?_, fun a _ => ?_, nofun⟩, nofun, nofun⟩
    · exact iff_of_false nofun nofun
    · exact iff_of_false (fun hNe => hNe rfl) nofun
  have hStep : ∀ (s : Application κ) (l : Label κ), s.Ready → (system w o).enabled s l → True →
      ((system w o).next s l).Ready := fun s l h _ _ => (h.next w o l).1
  exact (system w o).inv_visited hStep hStart (fun _ _ => trivial) (fun _ _ => trivial) _
    ((system w o).mem_visited_of_exec {} ls)

/-- An ordinary local message for an actor that was added under a new name, dispatched at any time from its
addition on, comes to it just where neither its class nor its instance name has a dot. -/
theorem addressable_iff (ls : List (Label κ)) {a : Actor κ} {cfg : Json}
    (hOk : (((system w o).exec {} ls).addActor w a cfg).2 = .ok true)
    (hNew : ((system w o).exec {} ls).actorCtxMgr.ctxs a.getActorName = none) (ms : List (Label κ))
    {e : Application κ × Parcel (Origin κ)}
    (he : e ∈ (system w o).emitted (dispatchedBy w o) ((system w o).exec {} ls) (.addActor a cfg :: ms))
    (hOrdinary : e.2.msg.Ordinary) (hMode : e.2.msg.transMode = .kIntra) (hDst : e.2.msg.dst = a.getActorName) :
    e.1.Delivers w e.2 a.getActorName ((system w o).exec {} ls).ctxCount ↔
      DotFree a.typeName ∧ DotFree a.instName := by
  have hReady := ready_exec w o ls
  generalize (system w o).exec {} ls = s at hOk hNew he hReady ⊢
  obtain ⟨app, cache, hEq, hCtxs, -⟩ := addActor_accepted w ((addActor_ok_iff w).mp hOk)
  have hFinds : Finds a.getActorName s.ctxCount e := by
    obtain hNow | hLater := List.mem_append.mp he
    · obtain ⟨hThen, hSame⟩ := (hReady.addActor w a cfg).2 e hNow
      refine ⟨hThen, ?_⟩
      rw [hSame, hNew]
      exact Function.update_self ..
    · refine Ready.emitted w o (hReady.next w o (.addActor a cfg)).1 ?_ ms e hLater
      rw [next, call, hEq]
      simp only [hCtxs, hNew, Option.isSome_none, Bool.false_eq_true, if_false, Function.update_self]
  exact delivers_iff w hFinds.1 hFinds.2 hOrdinary hMode hDst

def started : List (Label ℕ) := [.init "lib" (-1) 2]

def toPlain : Parcel (Origin ℕ) where
  mark := .other
  msg := { src := "actor.B.b", dst := "actor.A.a" }

theorem addressable_plain :
    (((system .stored {}).exec {} started).addActor .stored plainActor .null).2 = .ok true ∧
      (((system .stored {}).exec {} started).addActor .stored plainActor .null).1.Delivers .stored toPlain
        "actor.A.a" 0 := by
  have hOk : (((system .stored {}).exec {} started).addActor .stored plainActor .null).2 = .ok true := by
    decide
  refine ⟨hOk, ?_⟩
  exact (addressable_iff .stored {} started hOk (by decide)
    [.deliver [toPlain]] (e := (_, toPlain)) (List.mem_append_right _ (List.mem_append_left _ List.mem_cons_self))
    (by decide) (by decide) (by decide)).mpr ⟨by decide, by decide⟩

def dottedActor : Actor ℕ where
  typeName := "A"
  instName := "a.b"
  init _ := (0, [])

def toDotted : Parcel (Origin ℕ) where
  mark := .other
  msg := { src := "actor.B.b", dst := "actor.A.a.b" }

/-- The actor is added and known as a user instance, and no message comes to it. -/
theorem dotted_name_unreachable :
    (((system .stored {}).exec {} started).addActor .stored dottedActor .null).2 = .ok true ∧
      (((system .stored {}).exec {} started).addActor .stored dottedActor .null).1.hasUserInst
        dottedActor.getActorName = true ∧
      toDotted.msg.dst = dottedActor.getActorName ∧
      ¬ (((system .stored {}).exec {} started).addActor .stored dottedActor .null).1.Delivers .stored toDotted
        dottedActor.getActorName 0 := by
  refine ⟨by decide, by decide, by decide, fun hDelivers => ?_⟩
  exact absurd hDelivers.2.1 (by decide)

end Application
end Myframe
