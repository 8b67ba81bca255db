import Myframe.App.Outcome
import Myframe.App.Routing
import Myframe.EventConn.Titles
import Myframe.UserWorker.Rest

/-! # The names in the registers of an application

Whatever calls have been made: each component is registered under one name, and under one of the form that
its kind has.
-/
namespace Myframe
set_option autoImplicit false
open Common

theorem EventConnManager.title_eq (n : ℕ) : title n = address "event" "conn" (toString n) := by
  apply String.toList_injective
  rw [address_toList, title, String.toList_append]
  rfl

namespace App

variable {ι ω κ : Type}

/-- The registers hold what the code that adds to them puts in. -/
structure Made (a : App ι ω κ) : Prop where
  actor : ∀ name i, a.actorCtxMgr.ctxs name = some i → ∃ type inst, name = address "actor" type inst
  once : ∀ i name name', a.actorCtxMgr.ctxs name = some i → a.actorCtxMgr.ctxs name' = some i → name = name'
  worker : ∀ name w, a.workerCtxMgr.names name = some w → (a.workerCtxMgr.heap w).registered = true ∧
    (a.workerCtxMgr.heap w).name = name ∧ ∃ type inst, name = address "worker" type inst
  conn : ∀ name n, a.evMgr.names name = some n →
    (a.conns n).mailbox.addr = name ∧ ∃ inst, name = address "event" "conn" inst
  node : a.nodeAddr = "" ∨
    ∃ type inst, a.nodeAddr = address "actor" type inst ∨ a.nodeAddr = address "worker" type inst

variable {a b : App ι ω κ}

theorem Made.wellNamed (h : a.Made) : a.WellNamed where
  own q name name' hReg hReg' := by
    cases q with
    | actor i => exact h.once i name name' hReg hReg'
    | worker w => exact (h.worker name w hReg.1).2.1.symm.trans (h.worker name' w hReg'.1).2.1
    | conn n => exact (h.conn name n hReg.1).1.symm.trans (h.conn name' n hReg'.1).1
  actor := h.actor
  worker name w hReg := (h.worker name w hReg.1).2.2
  conn name n hReg := (h.conn name n hReg.1).2
  node := h.node

theorem Made.of_ctxs (h : a.Made) (hCtxs : b.actorCtxMgr.ctxs = a.actorCtxMgr.ctxs)
    (hSame : b = { a with actorCtxMgr := b.actorCtxMgr }) : b.Made := by
  obtain ⟨hActor, hOnce, hWorker, hConn, hNode⟩ := h
  rw [← hCtxs] at hActor hOnce
  rw [hSame]
  exact ⟨hActor, hOnce, hWorker, hConn, hNode⟩

theorem Made.reached (h : a.Made) {m : WorkerContextManager ω (Origin κ)}
    (hNames : m.names = a.workerCtxMgr.names) (hReached : ∀ w, (a.workerCtxMgr.heap w).Reached (m.heap w)) :
    { a with workerCtxMgr := m }.Made := by
  refine ⟨h.actor, h.once, fun name w hName => ?_, h.conn, h.node⟩
  obtain ⟨recv, flag, hHeap⟩ := hReached w
  simp only [hHeap]
  exact h.worker name w (by rw [← hNames]; exact hName)

theorem Made.notify (h : a.Made) (name : String) (p : Parcel (Origin κ)) : (a.notify name p).Made := by
  rw [App.notify]
  split
  · exact h
  · next n _ =>
    refine ⟨h.actor, h.once, h.worker, fun name' m hName => ?_, h.node⟩
    simp only [EventManager.del_names, Function.update_apply] at hName
    split at hName
    · cases hName
    · obtain ⟨hAddr, hTitle⟩ := h.conn name' m hName
      refine ⟨?_, hTitle⟩
      obtain rfl | hNe := eq_or_ne m n
      · obtain ⟨recv, hRecv⟩ := (a.conns m).mailbox.receive_eq p
        simp only [Function.update_self, hRecv]
        exact hAddr
      · simp only [Function.update_of_ne hNe]
        exact hAddr

variable [DecidableEq ι] [DecidableEq ω]

theorem Made.deliverTo (h : a.Made) (p : Parcel (Origin κ)) (d : Delivery) : (a.deliverTo p d).Made := by
  rw [App.deliverTo]
  split
  · have hListed : { a with received := a.received ++ [(d, p)] }.Made :=
      ⟨h.actor, h.once, h.worker, h.conn, h.node⟩
    cases d with
    | actor name => exact hListed.of_ctxs (ActorContextManager.dispatchMsg_ctxs ..) rfl
    | worker name =>
      exact hListed.reached (dispatchWorkerMsg_registers ..).1 fun w =>
        a.workerCtxMgr.dispatchWorkerMsg_reached name p w
    | conn name => exact hListed.notify name p
  · exact h

theorem Made.dispatchMsg (h : a.Made) (w : SetWalk) (p : Parcel (Origin κ)) : (a.dispatchMsg w p).Made := by
  refine dispatchMsg_inv (fun b d hb => hb.deliverTo p d) (fun b l hb => ?_) (fun b m hb => ?_) w h
  · exact ⟨hb.actor, hb.once, hb.worker, hb.conn, hb.node⟩
  · exact ⟨hb.actor, hb.once, hb.worker, hb.conn, hb.node⟩

end App

namespace Application

variable {κ : Type} (w : SetWalk) (o : Platform κ)

/-- The next context has no name yet. -/
structure Made (s : Application κ) : Prop where
  app : s.toApp.Made
  counted : s.Counted

variable {s t : Application κ}

theorem Made.dispatchList (h : s.toApp.Made) (ps : List (Parcel (Origin κ))) : (dispatchList w ps s).toApp.Made := by
  induction ps generalizing s with
  | nil => exact h
  | cons p ps ih => exact ih (s := s.dispatchMsg w p) (h.dispatchMsg w p)

theorem Made.mapActors (h : s.toApp.Made) {f : ActorContextManager ℕ (Origin κ) → ActorContextManager ℕ (Origin κ)}
    (hCtxs : (f s.actorCtxMgr).ctxs = s.actorCtxMgr.ctxs) : (s.mapActors f).toApp.Made := h.of_ctxs hCtxs rfl

theorem Made.recvCached (h : s.toApp.Made) (name : String) : (recvCached w name s).toApp.Made :=
  Made.dispatchList w (s := { s with cacheMsgs := s.cacheMsgs.filter (·.msg.dst ≠ name) }) h
    (s.cacheMsgs.filter (·.msg.dst = name))

theorem Made.setSend (h : s.toApp.Made) (i : ℕ) (send : List (Parcel (Origin κ))) : (s.setSend i send).toApp.Made :=
  Made.mapActors h rfl

theorem Made.cacheSends (h : s.toApp.Made) (i : ℕ) : (cacheSends i s).toApp.Made := Made.setSend h i _

theorem Made.dispatchContext (h : s.toApp.Made) (i : ℕ) : (dispatchContext w i s).toApp.Made := by
  rw [Application.dispatchContext]
  have hFlag : (s.mapActors fun m => m.setRuningFlag i false).toApp.Made := Made.mapActors h rfl
  exact Made.setSend (Made.dispatchList w hFlag _) i []

theorem Made.setNode (h : s.toApp.Made) {typeName name : String}
    (hName : ∃ type inst, name = address "actor" type inst ∨ name = address "worker" type inst) :
    (s.setNode typeName name).toApp.Made := by
  refine ⟨h.actor, h.once, h.worker, h.conn, ?_⟩
  rw [Application.setNode]
  dsimp only
  split
  · exact .inr hName
  · exact h.node

/-- The context that is added has no other name. -/
theorem Made.enter (h : s.Made) (a : Actor κ) (cfg : Json) (ctx : ActorContext (Origin κ)) :
    (s.enter a cfg ctx).toApp.Made := by
  have hCtxs := enter_ctxs s a cfg ctx
  have hNew : ∀ name, (s.enter a cfg ctx).actorCtxMgr.ctxs name = some s.ctxCount → name = a.getActorName := by
    intro name hName
    rw [hCtxs] at hName
    split at hName
    · exact absurd (h.counted name _ hName) (lt_irrefl _)
    · rw [Function.update_apply] at hName
      split at hName
      · next hIs => exact hIs
      · exact absurd (h.counted name _ hName) (lt_irrefl _)
  have hOld : ∀ name i, (s.enter a cfg ctx).actorCtxMgr.ctxs name = some i →
      i = s.ctxCount ∨ s.actorCtxMgr.ctxs name = some i := by
    intro name i hName
    rw [hCtxs] at hName
    split at hName
    · exact .inr hName
    · rw [Function.update_apply] at hName
      split at hName
      · exact .inl (Option.some.inj hName).symm
      · exact .inr hName
  refine ⟨fun name i hName => ?_, fun i name name' hName hName' => ?_, h.app.worker, h.app.conn, h.app.node⟩
  · obtain rfl | hSame := hOld name i hName
    · exact ⟨a.typeName, a.instName, hNew name hName⟩
    · exact h.app.actor name i hSame
  · obtain rfl | hSame := hOld name i hName
    · exact (hNew name hName).trans (hNew name' hName').symm
    · obtain rfl | hSame' := hOld name' i hName'
      · exact absurd (h.counted name _ hSame) (lt_irrefl _)
      · exact h.app.once i name name' hSame hSame'

theorem Made.addActor (h : s.Made) (a : Actor κ) (cfg : Json) : (s.addActor w a cfg).1.Made := by
  refine ⟨?_, h.counted.addActor w a cfg⟩
  have hNode : (s.setNode a.typeName a.getActorName).Made :=
    ⟨Made.setNode h.app ⟨a.typeName, a.instName, .inl rfl⟩, h.counted⟩
  obtain ⟨-, hEq⟩ | ⟨-, ⟨e, -, hEq⟩ | ⟨ctx, code, -, -, hEq⟩ | ⟨ctx, -, hEq⟩⟩ := s.addActor_cases w a cfg
  · rw [hEq]
    exact h.app
  · rw [hEq]
    exact hNode.app
  · rw [hEq]
    exact hNode.app
  · rw [hEq]
    have hCached := Made.recvCached w (hNode.enter a cfg ctx) a.getActorName
    exact Made.dispatchContext w (Made.cacheSends hCached s.ctxCount) s.ctxCount

/-- A handle is free if no worker has it, so no name leads to it. -/
theorem Made.addWorker (h : s.Made) (v : Worker) (g : Grant) : (s.addWorker v g).1.Made := by
  have hNode : (s.setNode v.typeName v.getWorkerName).toApp.Made :=
    Made.setNode h.app ⟨v.typeName, v.instName, .inr rfl⟩
  refine ⟨?_, ?_⟩
  · rw [Application.addWorker]
    split
    · dsimp only
      split
      · exact hNode
      · next hFree =>
        rw [Bool.not_eq_true, hasHandle, Bool.or_eq_false_iff] at hFree
        refine ⟨hNode.actor, hNode.once, fun name i hName => ?_, hNode.conn, hNode.node⟩
        simp only [Function.update_apply] at hName ⊢
        split at hName
        · next hIs =>
          rw [if_pos (Option.some.inj hName).symm]
          exact ⟨rfl, hIs.symm, v.typeName, v.instName, hIs⟩
        · obtain ⟨hTaken, hOwn⟩ := hNode.worker name i hName
          have hNe : i ≠ g.handle := by
            rintro rfl
            cases hFree.2.symm.trans hTaken
          rw [if_neg hNe]
          exact ⟨hTaken, hOwn⟩
    · exact h.app
  · obtain ⟨hActors, -, hCount⟩ := s.addWorker_frame v g
    intro name i hName
    rw [hActors] at hName
    rw [hCount]
    exact h.counted name i hName

theorem Made.addActors (h : s.Made) (xs : List (Json × Actor κ)) : (s.addActors w xs).1.Made := by
  induction xs generalizing s with
  | nil => exact h
  | cons x xs ih =>
    rw [Application.addActors]
    split
    · exact h
    · split
      · exact ih (h.addActor w x.2 _)
      · exact h.addActor w x.2 _

theorem Made.addWorkers (h : s.Made) (xs : List (Json × Worker)) (grants : ℕ → Grant) :
    (s.addWorkers xs grants).1.Made := by
  induction xs generalizing s grants with
  | nil => exact h
  | cons x xs ih =>
    rw [Application.addWorkers]
    split
    · exact h
    · split
      · exact ih (h.addWorker x.2 (grants 0)) _
      · exact h.addWorker x.2 (grants 0)

theorem Made.of_eq (h : s.Made) (hApp : t.toApp = s.toApp) (hCount : t.ctxCount = s.ctxCount) : t.Made := by
  refine ⟨hApp ▸ h.app, fun name i hName => ?_⟩
  rw [hApp] at hName
  rw [hCount]
  exact h.counted name i hName

theorem Made.loadServiceFromJson (h : s.Made) (service : Json) (grants : ℕ → Grant) :
    (s.loadServiceFromJson w o service grants).1.Made := by
  obtain ⟨m, r, hEq, -⟩ | ⟨m, actors, workers, -, hWay⟩ := s.loadServiceFromJson_cases w o service grants
  · rw [hEq]
    exact h.of_eq rfl rfl
  · have hMods : ({ s with mods := m } : Application κ).Made := h.of_eq rfl rfl
    obtain ⟨-, hEq⟩ | ⟨-, hEq⟩ := hWay
    · rw [hEq]
      exact hMods.addActors w actors
    · rw [hEq]
      exact (hMods.addActors w actors).addWorkers workers grants

theorem Made.next (h : s.Made) (l : Label κ) : (s.next w o l).Made := by
  refine ⟨?_, (s.next_grows w o l).2 h.counted⟩
  cases l with
  | addActor a cfg => exact (h.addActor w a cfg).app
  | addWorker v g => exact (h.addWorker v g).app
  | loadServiceFromJson service grants => exact (h.loadServiceFromJson w o service grants).app
  | init libDir pendingQueueSize runQueueSize =>
    rw [Application.next, call, init]
    split
    · exact h.app
    · exact h.app
  | loadMod dlPath | regActor className func | regWorker className func => exact h.app
  | quit =>
    rw [Application.next, call, quit]
    split
    · exact h.app
    · exact h.app
  | exec =>
    rw [Application.next, call, exec]
    split
    · exact Made.dispatchList w (s := { s with state := .kRunning }) h.app s.cacheMsgs
    · exact h.app
  | deliver ps => exact Made.dispatchList w h.app ps
  | processWorkerEvent i posted => exact Made.dispatchContext w (Made.mapActors h.app rfl) i
  | assign =>
    obtain ⟨m, hEq, hCtxs⟩ := s.assign_frame
    rw [Application.next, call, hEq]
    exact h.app.of_ctxs hCtxs rfl

/-- An application that has its connections from a pool and nothing else yet. -/
def pooled (m : EventConnManager κ) : Application κ := { conns := m.conns, idleConn := m.idleConn, evMgr := m.evMgr }

theorem made_pooled {m : EventConnManager κ} (h : m.Titled) : (pooled m).Made := by
  refine ⟨⟨by rintro name i ⟨⟩, by rintro i name name' ⟨⟩, by rintro name i ⟨⟩, fun name n hName => ?_, .inl rfl⟩,
    by rintro name i ⟨⟩⟩
  obtain ⟨hOwn, hTitle⟩ := h.registered name n hName
  exact ⟨hOwn, toString n, hTitle.trans (EventConnManager.title_eq n)⟩

/-- Whatever state the calls of clients have brought the pool to, and whatever is added and dispatched then. -/
theorem wellNamed_exec [DecidableEq κ] (c : EventConnManager.Setting) (sz : ℕ) {ks : List (EventConnManager.Label κ)}
    (hRuns : (EventConnManager.system c).Runs (EventConnManager.initial sz) ks) (ls : List (Label κ)) :
    ((system w o).exec (pooled ((EventConnManager.system c).exec (EventConnManager.initial sz) ks)) ls).WellNamed := by
  have hPool := EventConnManager.titled_visited c sz hRuns _ ((EventConnManager.system c).mem_visited_of_exec _ ks)
  have hStep : ∀ (s : Application κ) (l : Label κ), s.Made → (system w o).enabled s l → True →
      ((system w o).next s l).Made := fun s l h _ _ => h.next w o l
  have hMade := (system w o).inv_visited hStep (made_pooled hPool) (fun _ _ => trivial) (fun _ _ => trivial) _
    ((system w o).mem_visited_of_exec _ ls)
  exact hMade.app.wellNamed

end Application
end Myframe
