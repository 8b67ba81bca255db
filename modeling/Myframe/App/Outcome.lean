import Myframe.App.Application

/-! # What the calls that add come back with

`AddActor` and `AddWorker` change one store after the other and turn back between them. What they return is
compared here with what they leave.
-/
namespace Myframe
set_option autoImplicit false
open Common

/-- The stores that the two calls write to. -/
structure Stores (κ : Type) where
  nodeAddr : String
  actors : String → Option ℕ
  cacheMsgs : List (Parcel (Origin κ))
  handles : ℕ → Bool
  workerNames : String → Option ℕ
  connNames : String → Option ℕ
  curWorkerCount : ℤ

namespace Application

variable {κ : Type}

def stores (s : Application κ) : Stores κ where
  nodeAddr := s.nodeAddr
  actors := s.actorCtxMgr.ctxs
  cacheMsgs := s.cacheMsgs
  handles := s.hasHandle
  workerNames := s.workerCtxMgr.names
  connNames := s.evMgr.names
  curWorkerCount := s.curWorkerCount

/-- The checks are passed, and `Init` of the actor succeeds. -/
def Accepts (s : Application κ) (a : Actor κ) (cfg : Json) : Prop :=
  s.admits a.typeName = true ∧ ∃ ctx, s.initContext a cfg = .ok (ctx, 0)

theorem addActor_cases (w : SetWalk) (s : Application κ) (a : Actor κ) (cfg : Json) :
    s.admits a.typeName = false ∧ s.addActor w a cfg = (s, .ok false) ∨
      s.admits a.typeName = true ∧
        ((∃ e, s.initContext a cfg = .error e ∧
            s.addActor w a cfg = (s.setNode a.typeName a.getActorName, .error e)) ∨
          (∃ ctx code, s.initContext a cfg = .ok (ctx, code) ∧ code ≠ 0 ∧
            s.addActor w a cfg = (s.setNode a.typeName a.getActorName, .ok false)) ∨
          ∃ ctx, s.initContext a cfg = .ok (ctx, 0) ∧
            s.addActor w a cfg =
              (dispatchContext w s.ctxCount (cacheSends s.ctxCount (recvCached w a.getActorName
                ((s.setNode a.typeName a.getActorName).enter a cfg ctx))), .ok true)) := by
  have hInit : (s.setNode a.typeName a.getActorName).initContext a cfg = s.initContext a cfg := rfl
  rw [addActor]
  cases hAdmits : s.admits a.typeName with
  | false => exact .inl ⟨rfl, if_neg Bool.false_ne_true⟩
  | true =>
    refine .inr ⟨rfl, ?_⟩
    simp only [if_true, hInit]
    cases hRun : s.initContext a cfg with
    | error e => exact .inl ⟨e, rfl, rfl⟩
    | ok r =>
      obtain ⟨ctx, code⟩ := r
      obtain rfl | hCode := eq_or_ne code 0
      · exact .inr (.inr ⟨ctx, rfl, rfl⟩)
      · exact .inr (.inl ⟨ctx, code, rfl, hCode, if_pos hCode⟩)

theorem addActor_of_init (w : SetWalk) {s : Application κ} {a : Actor κ} {cfg : Json}
    {ctx : ActorContext (Origin κ)} (hAdmits : s.admits a.typeName = true)
    (hRun : s.initContext a cfg = .ok (ctx, 0)) :
    s.addActor w a cfg =
      (dispatchContext w s.ctxCount (cacheSends s.ctxCount (recvCached w a.getActorName
        ((s.setNode a.typeName a.getActorName).enter a cfg ctx))), .ok true) := by
  have hInit : (s.setNode a.typeName a.getActorName).initContext a cfg = .ok (ctx, 0) := hRun
  rw [addActor, if_pos hAdmits]
  simp only [hInit]
  rfl

variable (w : SetWalk) (o : Platform κ)

/-- A call that returns `false` has changed none of the stores. -/
def AllOrNothing (s : Application κ) (l : Label κ) : Prop :=
  (s.call w o l).2 = .ok false → (s.next w o l).stores = s.stores

/-- The calls that turn back after a store has been changed: a node whose `Init` fails; a worker whose
handle is taken, if it is a node; a worker that the poller does not take. -/
def LeavesBehind (s : Application κ) : Label κ → Prop
  | .addActor a cfg =>
    s.admits a.typeName = true ∧ a.typeName = "node" ∧
      ∃ ctx code, s.initContext a cfg = .ok (ctx, code) ∧ code ≠ 0
  | .addWorker v g =>
    s.admits v.typeName = true ∧
      (s.hasHandle g.handle = true ∧ v.typeName = "node" ∨
        s.hasHandle g.handle = false ∧ g.polled = false)
  | _ => False

theorem setNode_of_ne (s : Application κ) {typeName : String} (h : typeName ≠ "node") (name : String) :
    s.setNode typeName name = s := by
  rw [setNode, if_neg h]

theorem setNode_stores_ne {s : Application κ} (hAdmits : s.admits "node" = true) {a b c : String} :
    (s.setNode "node" (address a b c)).stores ≠ s.stores := by
  intro hSame
  have hEmpty : s.nodeAddr = "" := by
    simp only [admits, Bool.and_eq_true, Bool.or_eq_true, decide_eq_true_eq] at hAdmits
    exact hAdmits.2.resolve_left fun hNe => hNe rfl
  have hNode : address a b c = s.nodeAddr := congrArg Stores.nodeAddr hSame
  exact address_ne_empty a b c (hNode.trans hEmpty)

theorem addActor_allOrNothing_iff (s : Application κ) (a : Actor κ) (cfg : Json) :
    (s.AllOrNothing w o (.addActor a cfg) ↔ ¬ s.LeavesBehind (.addActor a cfg)) ∧
      (¬ s.LeavesBehind (.addActor a cfg) → (s.addActor w a cfg).2 = .ok false →
        (s.addActor w a cfg).1 = s) := by
  rw [AllOrNothing, next, call, LeavesBehind]
  obtain ⟨hAdmits, hEq⟩ | ⟨hAdmits, ⟨e, hRun, hEq⟩ | ⟨ctx, code, hRun, hCode, hEq⟩ | ⟨ctx, hRun, hEq⟩⟩ :=
    s.addActor_cases w a cfg
  · rw [hEq]
    refine ⟨iff_of_true (fun _ => rfl) ?_, fun _ _ => rfl⟩
    rintro ⟨hTrue, -⟩
    exact Bool.false_ne_true (hAdmits.symm.trans hTrue)
  · rw [hEq, hRun]
    refine ⟨iff_of_true (by rintro ⟨⟩) ?_, by rintro - ⟨⟩⟩
    rintro ⟨-, -, ctx, code, ⟨⟩, -⟩
  · rw [hEq]
    obtain hNode | hOther := eq_or_ne a.typeName "node"
    · have hLeaves : s.admits a.typeName = true ∧ a.typeName = "node" ∧
          ∃ ctx code, s.initContext a cfg = .ok (ctx, code) ∧ code ≠ 0 := ⟨hAdmits, hNode, ctx, code, hRun, hCode⟩
      refine ⟨iff_of_false (fun hSame => ?_) (not_not.mpr hLeaves), fun hNot => absurd hLeaves hNot⟩
      rw [hNode] at hSame hAdmits
      exact setNode_stores_ne hAdmits (hSame rfl)
    · rw [setNode_of_ne s hOther]
      exact ⟨iff_of_true (fun _ => rfl) fun hLeaves => hOther hLeaves.2.1, fun _ _ => rfl⟩
  · rw [hEq]
    refine ⟨iff_of_true (by rintro ⟨⟩) ?_, by rintro - ⟨⟩⟩
    rintro ⟨-, -, ctx', code, hRun', hCode⟩
    rw [hRun] at hRun'
    cases hRun'
    exact hCode rfl

theorem addWorker_allOrNothing_iff (s : Application κ) (v : Worker) (g : Grant) :
    (s.AllOrNothing w o (.addWorker v g) ↔ ¬ s.LeavesBehind (.addWorker v g)) ∧
      (¬ s.LeavesBehind (.addWorker v g) → (s.addWorker v g).2 = .ok false → (s.addWorker v g).1 = s) := by
  rw [AllOrNothing, next, call, LeavesBehind, addWorker]
  cases hAdmits : s.admits v.typeName with
  | false =>
    rw [if_neg Bool.false_ne_true]
    exact ⟨iff_of_true (fun _ => rfl) fun hLeaves => Bool.false_ne_true hLeaves.1, fun _ _ => rfl⟩
  | true =>
    cases hTaken : s.hasHandle g.handle with
    | true =>
      simp only [if_true]
      obtain hNode | hOther := eq_or_ne v.typeName "node"
      · refine ⟨iff_of_false (fun hSame => ?_) (by simp [hNode]),
          fun hNot => absurd ⟨trivial, .inl ⟨trivial, hNode⟩⟩ hNot⟩
        rw [hNode] at hSame hAdmits
        exact setNode_stores_ne hAdmits (hSame trivial)
      · rw [setNode_of_ne s hOther]
        exact ⟨iff_of_true (fun _ => rfl) (by simp [hOther]), fun _ _ => rfl⟩
    | false =>
      simp only [if_true, Bool.false_eq_true, if_false, Except.ok.injEq]
      cases hPolled : g.polled with
      | true => exact ⟨iff_of_true (by rintro ⟨⟩) (by simp), by rintro - ⟨⟩⟩
      | false =>
        refine ⟨iff_of_false (fun hSame => ?_) (by simp), fun hNot => absurd (by simp) hNot⟩
        have hCount : s.curWorkerCount + 1 = s.curWorkerCount := congrArg Stores.curWorkerCount (hSame rfl)
        omega

/-- `AddActor` and `AddWorker` leave nothing behind just where they do not turn back half-way, and then a
call that failed might as well not have been made. -/
theorem allOrNothing_iff (s : Application κ) :
    (∀ a cfg, (s.AllOrNothing w o (.addActor a cfg) ↔ ¬ s.LeavesBehind (.addActor a cfg)) ∧
      (¬ s.LeavesBehind (.addActor a cfg) → (s.addActor w a cfg).2 = .ok false →
        (s.addActor w a cfg).1 = s)) ∧
    ∀ v g, (s.AllOrNothing w o (.addWorker v g) ↔ ¬ s.LeavesBehind (.addWorker v g)) ∧
      (¬ s.LeavesBehind (.addWorker v g) → (s.addWorker v g).2 = .ok false → (s.addWorker v g).1 = s) :=
  ⟨s.addActor_allOrNothing_iff w o, s.addWorker_allOrNothing_iff w o⟩

def failingNode : Actor ℕ where
  typeName := "node"
  instName := "n"
  init _ := (-1, [])

/-- After the failed call no other node is let in; a worker that the poller refuses is counted. -/
theorem failed_call_stays :
    ((init {} "lib" (-1) 2).addActor .stored failingNode .null).2 = .ok false ∧
      ((init {} "lib" (-1) 2).addActor .stored failingNode .null).1.nodeAddr = "actor.node.n" ∧
      ((init {} "lib" (-1) 2 : Application ℕ).addWorker ⟨"", "W", "1", .kWorkerUser⟩ ⟨7, false⟩).2 = .ok false ∧
      ((init {} "lib" (-1) 2 : Application ℕ).addWorker ⟨"", "W", "1", .kWorkerUser⟩ ⟨7, false⟩).1.curWorkerCount = 1 ∧
      ¬ (init {} "lib" (-1) 2).AllOrNothing .stored {} (.addActor failingNode .null) := by
  refine ⟨by decide, by decide, by decide, by decide, fun hSame => ?_⟩
  exact absurd (congrArg Stores.nodeAddr (hSame (by decide))) (by decide)

theorem enter_ctxs (s : Application κ) (a : Actor κ) (cfg : Json) (ctx : ActorContext (Origin κ)) :
    (s.enter a cfg ctx).actorCtxMgr.ctxs =
      if (s.actorCtxMgr.ctxs a.getActorName).isSome then s.actorCtxMgr.ctxs
      else Function.update s.actorCtxMgr.ctxs a.getActorName (some s.ctxCount) := by
  rw [enter, ActorContextManager.add]
  cases (s.actorCtxMgr.ctxs a.getActorName).isSome <;> simp

theorem addActor_accepted {s : Application κ} {a : Actor κ} {cfg : Json} (h : s.Accepts a cfg) :
    ∃ (app : App ℕ ℕ κ) (cache : List (Parcel (Origin κ))),
      s.addActor w a cfg =
          ({ s with
              toApp := app
              cacheMsgs := cache
              ctxCount := s.ctxCount + 1
              config := Function.update s.config s.ctxCount cfg }, .ok true) ∧
        app.actorCtxMgr.ctxs =
          (if (s.actorCtxMgr.ctxs a.getActorName).isSome then s.actorCtxMgr.ctxs
          else Function.update s.actorCtxMgr.ctxs a.getActorName (some s.ctxCount)) ∧
        app.nodeAddr = (s.setNode a.typeName a.getActorName).nodeAddr := by
  obtain ⟨hAdmits, ctx, hRun⟩ := h
  rw [addActor_of_init w hAdmits hRun]
  generalize hEnter : (s.setNode a.typeName a.getActorName).enter a cfg ctx = t
  have hCtxs : t.actorCtxMgr.ctxs = if (s.actorCtxMgr.ctxs a.getActorName).isSome then s.actorCtxMgr.ctxs
      else Function.update s.actorCtxMgr.ctxs a.getActorName (some s.ctxCount) :=
    hEnter ▸ enter_ctxs (s.setNode a.typeName a.getActorName) a cfg ctx
  have hNode : t.nodeAddr = (s.setNode a.typeName a.getActorName).nodeAddr := hEnter ▸ rfl
  obtain ⟨app, hCached, hCtxs', hNode'⟩ := dispatchList_frame w (t.cacheMsgs.filter (·.msg.dst = a.getActorName))
    { t with cacheMsgs := t.cacheMsgs.filter (·.msg.dst ≠ a.getActorName) }
  rw [recvCached, hCached, dispatchContext]
  obtain ⟨app', hSent, hCtxs'', hNode''⟩ := dispatchList_frame w _ _
  rw [hSent]
  subst hEnter
  exact ⟨_, _, rfl, hCtxs''.trans (hCtxs'.trans hCtxs), hNode''.trans (hNode'.trans hNode)⟩

theorem addActor_rejected {s : Application κ} {a : Actor κ} {cfg : Json} (h : ¬ s.Accepts a cfg) :
    ∃ (addr : String) (r : Result), s.addActor w a cfg = ({ s with nodeAddr := addr }, r) ∧ r ≠ .ok true := by
  obtain ⟨-, hEq⟩ | ⟨hAdmits, ⟨e, -, hEq⟩ | ⟨ctx, code, -, -, hEq⟩ | ⟨ctx, hRun, -⟩⟩ := s.addActor_cases w a cfg
  · exact ⟨s.nodeAddr, .ok false, hEq, by rintro ⟨⟩⟩
  · exact ⟨_, .error e, hEq, by rintro ⟨⟩⟩
  · exact ⟨_, .ok false, hEq, by rintro ⟨⟩⟩
  · exact absurd ⟨hAdmits, ctx, hRun⟩ h

theorem addActor_ok_iff {s : Application κ} {a : Actor κ} {cfg : Json} :
    (s.addActor w a cfg).2 = .ok true ↔ s.Accepts a cfg := by
  constructor
  · intro hOk
    by_contra hNot
    obtain ⟨addr, r, hEq, hNe⟩ := addActor_rejected w hNot
    rw [hEq] at hOk
    exact hNe hOk
  · intro hAccepts
    obtain ⟨app, cache, hEq, -⟩ := addActor_accepted w hAccepts
    rw [hEq]

/-- The registered contexts have been made. -/
def Counted (s : Application κ) : Prop := ∀ name i, s.actorCtxMgr.ctxs name = some i → i < s.ctxCount

/-- What is registered stays, and the configurations of the contexts stay. -/
structure Grows (s t : Application κ) : Prop where
  ctxs : ∀ name i, s.actorCtxMgr.ctxs name = some i → t.actorCtxMgr.ctxs name = some i
  config : ∀ i < s.ctxCount, t.config i = s.config i
  count : s.ctxCount ≤ t.ctxCount

theorem Grows.refl (s : Application κ) : s.Grows s := ⟨fun _ _ h => h, fun _ _ => rfl, le_rfl⟩

theorem Grows.trans {s t u : Application κ} (h : s.Grows t) (h' : t.Grows u) : s.Grows u where
  ctxs name i hName := h'.ctxs name i (h.ctxs name i hName)
  config i hi := (h'.config i (hi.trans_le h.count)).trans (h.config i hi)
  count := h.count.trans h'.count

theorem Grows.of_eq {s t : Application κ} (hCtxs : t.actorCtxMgr.ctxs = s.actorCtxMgr.ctxs)
    (hConfig : t.config = s.config) (hCount : t.ctxCount = s.ctxCount) : s.Grows t where
  ctxs name i hName := by rw [hCtxs]; exact hName
  config i _ := by rw [hConfig]
  count := hCount.ge

theorem addActor_grows (s : Application κ) (a : Actor κ) (cfg : Json) : s.Grows (s.addActor w a cfg).1 := by
  by_cases hAccepts : s.Accepts a cfg
  · obtain ⟨app, cache, hEq, hCtxs, -⟩ := addActor_accepted w hAccepts
    rw [hEq]
    refine ⟨fun name i hName => ?_, fun i hi => Function.update_of_ne hi.ne .., Nat.le_succ _⟩
    simp only [hCtxs]
    split
    · exact hName
    · next hFree =>
      obtain rfl | hNe := eq_or_ne name a.getActorName
      · rw [hName] at hFree
        exact absurd rfl hFree
      · rw [Function.update_of_ne hNe]
        exact hName
  · obtain ⟨addr, r, hEq, -⟩ := addActor_rejected w hAccepts
    rw [hEq]
    exact .of_eq rfl rfl rfl

theorem Counted.addActor {s : Application κ} (h : s.Counted) (a : Actor κ) (cfg : Json) :
    (s.addActor w a cfg).1.Counted := by
  by_cases hAccepts : s.Accepts a cfg
  · obtain ⟨app, cache, hEq, hCtxs, -⟩ := addActor_accepted w hAccepts
    rw [hEq]
    intro name i hName
    simp only [hCtxs] at hName
    split at hName
    · exact (h name i hName).trans (Nat.lt_succ_self _)
    · rw [Function.update_apply] at hName
      split at hName
      · obtain rfl := Option.some.inj hName
        exact Nat.lt_succ_self _
      · exact (h name i hName).trans (Nat.lt_succ_self _)
  · obtain ⟨addr, r, hEq, -⟩ := addActor_rejected w hAccepts
    rw [hEq]
    exact h

/-- The new context is the one of its name from then on just where the name is new. -/
theorem addActor_own_iff {s t : Application κ} (h : s.Counted) {a : Actor κ} {cfg : Json}
    (hAccepts : s.Accepts a cfg) (hGrows : (s.addActor w a cfg).1.Grows t) :
    t.actorCtxMgr.ctxs a.getActorName = some s.ctxCount ∧ t.config s.ctxCount = cfg ↔
      s.actorCtxMgr.ctxs a.getActorName = none := by
  obtain ⟨app, cache, hEq, hCtxs, -⟩ := addActor_accepted w hAccepts
  rw [hEq] at hGrows
  constructor
  · rintro ⟨hOwn, -⟩
    by_contra hOld
    obtain ⟨i, hi⟩ := Option.ne_none_iff_exists'.mp hOld
    have hStays := hGrows.ctxs a.getActorName i (by simp only [hCtxs, hi, Option.isSome_some, if_true])
    rw [hOwn] at hStays
    exact (h _ _ hi).ne (Option.some.inj hStays).symm
  · intro hNew
    constructor
    · apply hGrows.ctxs
      simp only [hCtxs, hNew, Option.isSome_none, Bool.false_eq_true, if_false, Function.update_self]
    · rw [hGrows.config s.ctxCount (Nat.lt_succ_self _)]
      exact Function.update_self ..

theorem addActor_free_iff {s : Application κ} {a : Actor κ} {cfg : Json} (hAccepts : s.Accepts a cfg)
    (hNew : s.actorCtxMgr.ctxs a.getActorName = none) (name : String) :
    (s.addActor w a cfg).1.actorCtxMgr.ctxs name = none ↔
      name ≠ a.getActorName ∧ s.actorCtxMgr.ctxs name = none := by
  obtain ⟨app, cache, hEq, hCtxs, -⟩ := addActor_accepted w hAccepts
  rw [hEq]
  simp only [hCtxs, hNew, Option.isSome_none, Bool.false_eq_true, if_false]
  rw [Function.update_apply]
  split
  · next hSame => simp [hSame]
  · next hNe => exact (and_iff_right hNe).symm

/-- `AddActor` returns `true` exactly if the context made for this actor is then the one of its name, with its
configuration. -/
def Registers (s : Application κ) (a : Actor κ) (cfg : Json) : Prop :=
  (s.addActor w a cfg).2 = .ok true ↔
    (s.addActor w a cfg).1.actorCtxMgr.ctxs a.getActorName = some s.ctxCount ∧
      (s.addActor w a cfg).1.config s.ctxCount = cfg

theorem registers_iff {s : Application κ} (h : s.Counted) (a : Actor κ) (cfg : Json) :
    s.Registers w a cfg ↔ (s.Accepts a cfg → s.actorCtxMgr.ctxs a.getActorName = none) := by
  rw [Registers, addActor_ok_iff]
  by_cases hAccepts : s.Accepts a cfg
  · rw [addActor_own_iff w h hAccepts (.refl _), iff_true_left hAccepts, forall_prop_of_true hAccepts]
  · obtain ⟨addr, r, hEq, -⟩ := addActor_rejected w hAccepts
    rw [hEq]
    simp only [hAccepts, false_iff, false_imp_iff, iff_true]
    rintro ⟨hName, -⟩
    exact (h _ _ hName).ne rfl

def configOf (inst : Json) : Json := (instanceConfig inst).toOption.getD .null

theorem addActors_grows (xs : List (Json × Actor κ)) (s : Application κ) : s.Grows (s.addActors w xs).1 := by
  induction xs generalizing s with
  | nil => exact .refl s
  | cons x xs ih =>
    rw [addActors]
    split
    · exact .refl s
    · next cfg _ =>
      split
      · exact (s.addActor_grows w x.2 cfg).trans (ih _)
      · exact s.addActor_grows w x.2 cfg

theorem Counted.addActors {s : Application κ} (h : s.Counted) (xs : List (Json × Actor κ)) :
    (s.addActors w xs).1.Counted := by
  induction xs generalizing s with
  | nil => exact h
  | cons x xs ih =>
    rw [Application.addActors]
    split
    · exact h
    · next cfg _ =>
      split
      · exact ih (h.addActor w x.2 cfg)
      · exact h.addActor w x.2 cfg

theorem addWorker_frame (s : Application κ) (v : Worker) (g : Grant) :
    (s.addWorker v g).1.actorCtxMgr = s.actorCtxMgr ∧ (s.addWorker v g).1.config = s.config ∧
      (s.addWorker v g).1.ctxCount = s.ctxCount := by
  rw [addWorker]
  split
  · simp only
    split <;> exact ⟨rfl, rfl, rfl⟩
  · exact ⟨rfl, rfl, rfl⟩

theorem addWorkers_frame (xs : List (Json × Worker)) (s : Application κ) (grants : ℕ → Grant) :
    (s.addWorkers xs grants).1.actorCtxMgr = s.actorCtxMgr ∧ (s.addWorkers xs grants).1.config = s.config ∧
      (s.addWorkers xs grants).1.ctxCount = s.ctxCount := by
  induction xs generalizing s grants with
  | nil => exact ⟨rfl, rfl, rfl⟩
  | cons x xs ih =>
    rw [addWorkers]
    split
    · exact ⟨rfl, rfl, rfl⟩
    · obtain ⟨hActors, hConfig, hCount⟩ := s.addWorker_frame x.2 (grants 0)
      split
      · obtain ⟨hActors', hConfig', hCount'⟩ := ih (s.addWorker x.2 (grants 0)).1 fun n => grants (n + 1)
        exact ⟨hActors'.trans hActors, hConfig'.trans hConfig, hCount'.trans hCount⟩
      · exact ⟨hActors, hConfig, hCount⟩

theorem forall_getElem?_cons {α : Type} {x : α} {xs : List α} {P : ℕ → α → Prop} :
    (∀ k y, (x :: xs)[k]? = some y → P k y) ↔ P 0 x ∧ ∀ k y, xs[k]? = some y → P (k + 1) y := by
  constructor
  · intro hAll
    exact ⟨hAll 0 x rfl, fun k y hy => hAll (k + 1) y hy⟩
  · rintro ⟨hFirst, hLater⟩ k y hy
    cases k with
    | zero =>
      cases hy
      exact hFirst
    | succ k => exact hLater k y hy

theorem addActors_cons_of_ok {x : Json × Actor κ} {xs : List (Json × Actor κ)} {s : Application κ}
    (hOk : (s.addActors w (x :: xs)).2 = .ok true) :
    s.Accepts x.2 (configOf x.1) ∧
      s.addActors w (x :: xs) = (s.addActor w x.2 (configOf x.1)).1.addActors w xs := by
  cases hCfg : instanceConfig x.1 with
  | error e => simp [addActors, hCfg] at hOk
  | ok cfg =>
    have hConfig : configOf x.1 = cfg := by rw [configOf, hCfg]; rfl
    have hAdded : (s.addActor w x.2 cfg).2 = .ok true := by
      by_contra hNot
      rw [addActors, hCfg] at hOk
      simp only [if_neg hNot] at hOk
      exact hNot hOk
    rw [hConfig, addActors, hCfg]
    exact ⟨(addActor_ok_iff w).mp hAdded, if_pos hAdded⟩

/-- Where all are added, each is registered as its own just where the names are new and differ. -/
theorem addActors_own_iff {xs : List (Json × Actor κ)} {s : Application κ} (h : s.Counted)
    (hOk : (s.addActors w xs).2 = .ok true) :
    (∀ k x, xs[k]? = some x →
        (s.addActors w xs).1.actorCtxMgr.ctxs x.2.getActorName = some (s.ctxCount + k) ∧
          (s.addActors w xs).1.config (s.ctxCount + k) = configOf x.1) ↔
      (xs.map (·.2.getActorName)).Nodup ∧ ∀ x ∈ xs, s.actorCtxMgr.ctxs x.2.getActorName = none := by
  induction xs generalizing s with
  | nil => simp
  | cons x xs ih =>
    obtain ⟨hAccepts, hEq⟩ := addActors_cons_of_ok w hOk
    rw [hEq] at hOk ⊢
    have hCount : (s.addActor w x.2 (configOf x.1)).1.ctxCount = s.ctxCount + 1 := by
      obtain ⟨app, cache, hNext, -⟩ := addActor_accepted w hAccepts
      rw [hNext]
    have hHead := addActor_own_iff w h hAccepts (addActors_grows w xs (s.addActor w x.2 (configOf x.1)).1)
    have hRest := ih (h.addActor w x.2 (configOf x.1)) hOk
    simp only [hCount] at hRest
    rw [forall_getElem?_cons, Nat.add_zero, hHead]
    simp only [Nat.add_comm _ 1, ← Nat.add_assoc] at hRest ⊢
    rw [hRest, List.map_cons, List.nodup_cons, List.forall_mem_cons]
    constructor
    · rintro ⟨hNew, hNodup, hOthers⟩
      have hFree : ∀ y ∈ xs, y.2.getActorName ≠ x.2.getActorName ∧
          s.actorCtxMgr.ctxs y.2.getActorName = none :=
        fun y hy => (addActor_free_iff w hAccepts hNew _).mp (hOthers y hy)
      refine ⟨⟨fun hMem => ?_, hNodup⟩, hNew, fun y hy => (hFree y hy).2⟩
      obtain ⟨y, hy, hSame⟩ := List.mem_map.mp hMem
      exact (hFree y hy).1 hSame
    · rintro ⟨⟨hNotMem, hNodup⟩, hNew, hOthers⟩
      refine ⟨hNew, hNodup, fun y hy => (addActor_free_iff w hAccepts hNew _).mpr ⟨?_, hOthers y hy⟩⟩
      exact fun hSame => hNotMem (List.mem_map.mpr ⟨y, hy, hSame⟩)

/-- Each actor instance of the service has the context made for it under its name, with its configuration;
the contexts are made in the order of the instances. -/
def LoadsAll (s : Application κ) (service : Json) (grants : ℕ → Grant) : Prop :=
  ∀ k e, (ModManager.actorInstances o service)[k]? = some e →
    (s.loadServiceFromJson w o service grants).1.actorCtxMgr.ctxs e.1 = some (s.ctxCount + k) ∧
      (s.loadServiceFromJson w o service grants).1.config (s.ctxCount + k) = configOf e.2

/-- The names of the actor instances are new and differ from each other. -/
def NewNames (s : Application κ) (service : Json) : Prop :=
  ((ModManager.actorInstances o service).map Prod.fst).Nodup ∧
    ∀ e ∈ ModManager.actorInstances o service, s.actorCtxMgr.ctxs e.1 = none

theorem loadServiceFromJson_cases (s : Application κ) (service : Json) (grants : ℕ → Grant) :
    (∃ (m : ModManager κ) (r : Result),
        s.loadServiceFromJson w o service grants = ({ s with mods := m }, r) ∧ r ≠ .ok true) ∨
      ∃ (m : ModManager κ) (actors : List (Json × Actor κ)) (workers : List (Json × Worker)),
        actors.map (fun x => (x.2.getActorName, x.1)) = ModManager.actorInstances o service ∧
          let t : Application κ := { s with mods := m }
          ((t.addActors w actors).2 ≠ .ok true ∧ s.loadServiceFromJson w o service grants = t.addActors w actors ∨
            (t.addActors w actors).2 = .ok true ∧
              s.loadServiceFromJson w o service grants = (t.addActors w actors).1.addWorkers workers grants) := by
  rw [loadServiceFromJson]
  split
  · exact .inl ⟨s.mods, .ok false, rfl, by rintro ⟨⟩⟩
  · simp only
    split
    · next e _ => exact .inl ⟨_, .error e, rfl, by rintro ⟨⟩⟩
    · exact .inl ⟨_, .ok false, rfl, by rintro ⟨⟩⟩
    · next actors workers hLoaded =>
      refine .inr ⟨(s.mods.loadService o s.libDir service).1, actors, workers,
        ModManager.loadService_spec o hLoaded, ?_⟩
      split
      · next hOk => exact .inr ⟨hOk, rfl⟩
      · next hNot => exact .inl ⟨hNot, rfl⟩

theorem loadsAll_iff {s : Application κ} (h : s.Counted) {service : Json} {grants : ℕ → Grant}
    (hOk : (s.loadServiceFromJson w o service grants).2 = .ok true) :
    s.LoadsAll w o service grants ↔ s.NewNames o service := by
  obtain ⟨m, r, hEq, hNe⟩ | ⟨m, actors, workers, hNames, hWay⟩ := s.loadServiceFromJson_cases w o service grants
  · rw [hEq] at hOk
    exact absurd hOk hNe
  · obtain ⟨hNot, hEq⟩ | ⟨hAdded, hEq⟩ := hWay
    · rw [hEq] at hOk
      exact absurd hOk hNot
    · obtain ⟨hCtxs, hConfig, -⟩ :=
        addWorkers_frame workers (addActors w ({ s with mods := m } : Application κ) actors).1 grants
      have hOwn := addActors_own_iff w (s := { s with mods := m }) h hAdded
      rw [LoadsAll, NewNames, hEq, hCtxs, hConfig, ← hNames]
      simp only [List.getElem?_map, Option.map_eq_some_iff, List.map_map, List.forall_mem_map]
      refine Iff.trans ?_ hOwn
      constructor
      · exact fun hAll k x hx => hAll k _ ⟨x, hx, rfl⟩
      · rintro hAll k _ ⟨x, hx, rfl⟩
        exact hAll k x hx

theorem next_quiet (s : Application κ) {l : Label κ} (hAdd : ∀ a cfg, l ≠ .addActor a cfg)
    (hLoad : ∀ service grants, l ≠ .loadServiceFromJson service grants) :
    (s.next w o l).actorCtxMgr.ctxs = s.actorCtxMgr.ctxs ∧ (s.next w o l).config = s.config ∧
      (s.next w o l).ctxCount = s.ctxCount := by
  cases l with
  | addActor a cfg => exact absurd rfl (hAdd a cfg)
  | loadServiceFromJson service grants => exact absurd rfl (hLoad service grants)
  | addWorker v g =>
    obtain ⟨hActors, hConfig, hCount⟩ := s.addWorker_frame v g
    exact ⟨congrArg _ hActors, hConfig, hCount⟩
  | init libDir pendingQueueSize runQueueSize =>
    rw [next, call, init]
    split <;> exact ⟨rfl, rfl, rfl⟩
  | loadMod dlPath | regActor className func | regWorker className func => exact ⟨rfl, rfl, rfl⟩
  | quit =>
    rw [next, call, quit]
    split <;> exact ⟨rfl, rfl, rfl⟩
  | exec =>
    rw [next, call, exec]
    split
    · obtain ⟨app, hEq, hCtxs, -⟩ := dispatchList_frame w s.cacheMsgs { s with state := .kRunning }
      rw [hEq]
      exact ⟨hCtxs, rfl, rfl⟩
    · exact ⟨rfl, rfl, rfl⟩
  | deliver ps =>
    obtain ⟨app, hEq, hCtxs, -⟩ := dispatchList_frame w ps s
    rw [next, call, hEq]
    exact ⟨hCtxs, rfl, rfl⟩
  | processWorkerEvent i posted =>
    rw [next, call, processWorkerEvent, dispatchContext]
    obtain ⟨app, hEq, hCtxs, -⟩ := dispatchList_frame w _ _
    rw [hEq]
    exact ⟨hCtxs, rfl, rfl⟩
  | assign =>
    obtain ⟨m, hEq, hCtxs⟩ := s.assign_frame
    rw [next, call, hEq]
    exact ⟨hCtxs, rfl, rfl⟩

theorem loadServiceFromJson_grows (s : Application κ) (service : Json) (grants : ℕ → Grant) :
    s.Grows (s.loadServiceFromJson w o service grants).1 ∧
      (s.Counted → (s.loadServiceFromJson w o service grants).1.Counted) := by
  obtain ⟨m, r, hEq, -⟩ | ⟨m, actors, workers, -, hWay⟩ := s.loadServiceFromJson_cases w o service grants
  · rw [hEq]
    exact ⟨.of_eq rfl rfl rfl, id⟩
  · have hGrows := addActors_grows w actors { s with mods := m }
    have hCounted := fun h : s.Counted => Counted.addActors w (s := { s with mods := m }) h actors
    obtain ⟨-, hEq⟩ | ⟨-, hEq⟩ := hWay
    · rw [hEq]
      exact ⟨⟨hGrows.ctxs, hGrows.config, hGrows.count⟩, hCounted⟩
    · obtain ⟨hActors, hConfig, hCount⟩ :=
        addWorkers_frame workers (addActors w ({ s with mods := m } : Application κ) actors).1 grants
      rw [hEq]
      refine ⟨Grows.trans ⟨hGrows.ctxs, hGrows.config, hGrows.count⟩ (.of_eq (congrArg _ hActors) hConfig hCount),
        fun h name i hName => ?_⟩
      rw [hActors] at hName
      rw [hCount]
      exact hCounted h name i hName

theorem next_grows (s : Application κ) (l : Label κ) :
    s.Grows (s.next w o l) ∧ (s.Counted → (s.next w o l).Counted) := by
  by_cases hAdd : ∃ a cfg, l = .addActor a cfg
  · obtain ⟨a, cfg, rfl⟩ := hAdd
    exact ⟨s.addActor_grows w a cfg, fun h => h.addActor w a cfg⟩
  · by_cases hLoad : ∃ service grants, l = .loadServiceFromJson service grants
    · obtain ⟨service, grants, rfl⟩ := hLoad
      exact s.loadServiceFromJson_grows w o service grants
    · obtain ⟨hCtxs, hConfig, hCount⟩ := s.next_quiet w o (l := l) (fun a cfg hIs => hAdd ⟨a, cfg, hIs⟩)
        fun service grants hIs => hLoad ⟨service, grants, hIs⟩
      refine ⟨.of_eq hCtxs hConfig hCount, fun h name i hName => ?_⟩
      rw [hCtxs] at hName
      rw [hCount]
      exact h name i hName

theorem counted_exec (ls : List (Label κ)) : ((system w o).exec {} ls).Counted := by
  have hStart : ({} : Application κ).Counted := by rintro name i ⟨⟩
  have hStep : ∀ (s : Application κ) (l : Label κ), s.Counted → (system w o).enabled s l → True →
      ((system w o).next s l).Counted := fun s l h _ _ => (s.next_grows w o l).2 h
  exact (system w o).inv_visited hStep hStart (fun _ _ => trivial) (fun _ _ => trivial) _
    ((system w o).mem_visited_of_exec {} ls)

/-- In every state that calls can lead to: a success of `AddActor` tells that the actor is registered just
where its name is new, and that of `LoadServiceFromJson` just where all names are. -/
theorem registers_exec_iff (ls : List (Label κ)) :
    (∀ a cfg, ((system w o).exec {} ls).Registers w a cfg ↔
      (((system w o).exec {} ls).Accepts a cfg →
        ((system w o).exec {} ls).actorCtxMgr.ctxs a.getActorName = none)) ∧
    ∀ service grants, (((system w o).exec {} ls).loadServiceFromJson w o service grants).2 = .ok true →
      (((system w o).exec {} ls).LoadsAll w o service grants ↔ ((system w o).exec {} ls).NewNames o service) :=
  ⟨registers_iff w (counted_exec w o ls), fun _ _ => loadsAll_iff w o (counted_exec w o ls)⟩

def plainActor : Actor ℕ where
  typeName := "A"
  instName := "a"
  init _ := (0, [])

/-- A service of one class with two instances of one name. -/
def twoOfAName : Json :=
  .object
    [("actor", .object [("A", .array [.object [("instance_name", .string "a")],
      .object [("instance_config", .object [("n", .int 2)]), ("instance_name", .string "a")]])]),
     ("type", .string "class")]

def withActor : List (Label ℕ) := [.init "lib" (-1) 2, .addActor plainActor .null]

def withClass : List (Label ℕ) := [.init "lib" (-1) 2, .regActor "A" fun _ _ => (0, [])]

/-- `AddActor` returns `true` for a second actor of one name, and so does `LoadServiceFromJson`. -/
theorem same_name_succeeds :
    (((system .stored {}).exec {} withActor).addActor .stored plainActor .null).2 = .ok true ∧
      ¬ ((system .stored {}).exec {} withActor).Registers .stored plainActor .null ∧
      (((system .stored {}).exec {} withClass).loadServiceFromJson .stored {} twoOfAName fun n => ⟨n, true⟩).2 =
        .ok true ∧
      ¬ ((system .stored {}).exec {} withClass).LoadsAll .stored {} twoOfAName fun n => ⟨n, true⟩ := by
  refine ⟨by decide, fun hOwn => ?_, by decide, fun hAll => ?_⟩
  · exact absurd (hOwn.mp (by decide)).1 (by decide)
  · exact absurd (hAll 1 (address "actor" "A" "a", _) rfl).1 (by decide)

end Application
end Myframe
