import Myframe.App.Instances
import Myframe.App.Lifecycle
import Myframe.ModManager

/-! # An application and the calls that add to it

The calls run one after the other, between them the main loop takes its steps. `Init` of an actor posts
messages and does nothing else to the application; code that throws leaves behind what it has changed.
-/
namespace Myframe
set_option autoImplicit false
open Common

/-- Contexts are counted as they are made, workers go by the handles of their command channels. The
name index of the event manager stands in two parts, that of the workers and that of the connections. -/
structure Application (κ : Type) extends App ℕ ℕ κ where
  actorCtxMgr := { heap := fun _ => { mailbox := {} }, ctxs := fun _ => none }
  workerCtxMgr := { heap := fun _ => { name := "", registered := false }, names := fun _ => none }
  state : AppState := .kUninitialized
  libDir : String := ""
  defaultPendingQueueSize : ℤ := -1
  defaultRunQueueSize : ℤ := 2
  cacheMsgs : List (Parcel (Origin κ)) := []
  mods : ModManager κ := {}
  ctxCount : ℕ := 0
  config : ℕ → Json := fun _ => .null
  curWorkerCount : ℤ := 0

abbrev Result := Except Json.Throw Bool

/-- What the system gives a new worker: the handle of its channel and the answer of the poller. -/
structure Grant where
  handle : ℕ
  polled : Bool := true

namespace Application

variable {κ : Type}

def hasHandle (s : Application κ) (h : ℕ) : Bool := s.evMgr.evs h || (s.workerCtxMgr.heap h).registered

def hasUserInst (s : Application κ) (name : String) : Bool :=
  if name.toList.take 6 = "worker".toList then
    (s.workerCtxMgr.names name).any fun h =>
      (s.workerCtxMgr.heap h).registered && (s.workerCtxMgr.heap h).type = .kWorkerUser
  else if name.toList.take 5 = "actor".toList then (s.actorCtxMgr.ctxs name).isSome
  else false

/-- The checks on the state and on the node, the same in `AddActor` and `AddWorker`. -/
def admits (s : Application κ) (typeName : String) : Bool :=
  s.state ≠ .kUninitialized && s.state ≠ .kQuitting && s.state ≠ .kQuit &&
    (typeName ≠ "node" || s.nodeAddr = "")

def setNode (s : Application κ) (typeName name : String) : Application κ :=
  { s with nodeAddr := if typeName = "node" then name else s.nodeAddr }

def queueSize (cfg : Json) (key : String) (dflt : ℤ) : Except Json.Throw ℤ := do
  if ← cfg.isMember key then (← cfg.get key).asInt else return dflt

/-- `ActorContext::Init`: the context and the code that `Init` of the actor returns. -/
def initContext (s : Application κ) (a : Actor κ) (cfg : Json) :
    Except Json.Throw (ActorContext (Origin κ) × ℤ) := do
  let pendingQueueSize ← queueSize cfg "pending_queue_size" s.defaultPendingQueueSize
  let runQueueSize ← queueSize cfg "run_queue_size" s.defaultRunQueueSize
  let mailbox : Mailbox (Origin κ) :=
    { addr := a.getActorName
      send := (a.init cfg).2
      pendingQueueSize := pendingQueueSize
      runQueueSize := runQueueSize }
  return ({ mailbox := mailbox }, (a.init cfg).1)

/-- `ActorContextManager::Add` for the new context; nobody looks at what it returns. -/
def enter (s : Application κ) (a : Actor κ) (cfg : Json) (ctx : ActorContext (Origin κ)) : Application κ :=
  { s with
    actorCtxMgr :=
      ({ s.actorCtxMgr with heap := Function.update s.actorCtxMgr.heap s.ctxCount ctx }.add
        a.getActorName s.ctxCount).1
    ctxCount := s.ctxCount + 1
    config := Function.update s.config s.ctxCount cfg }

section Dispatch

variable (w : SetWalk)

def dispatchMsg (s : Application κ) (p : Parcel (Origin κ)) : Application κ :=
  { s with toApp := s.toApp.dispatchMsg w p }

def dispatchList (ps : List (Parcel (Origin κ))) (s : Application κ) : Application κ :=
  ps.foldl (dispatchMsg w) s

/-- The messages for a new actor that came before it. -/
def recvCached (name : String) (s : Application κ) : Application κ :=
  dispatchList w (s.cacheMsgs.filter (·.msg.dst = name))
    { s with cacheMsgs := s.cacheMsgs.filter (·.msg.dst ≠ name) }

/-- Whether a message that an actor has posted in `Init` is put off. -/
def caches (s : Application κ) (m : Msg) : Bool :=
  s.state ≠ .kRunning &&
    (!s.hasUserInst m.dst || m.transMode = .kDDS || m.transMode = .kHybrid)

def mapActors (s : Application κ)
    (f : ActorContextManager ℕ (Origin κ) → ActorContextManager ℕ (Origin κ)) : Application κ :=
  { s with actorCtxMgr := f s.actorCtxMgr }

def sendOf (s : Application κ) (i : ℕ) : List (Parcel (Origin κ)) := (s.actorCtxMgr.heap i).mailbox.send

def setSend (s : Application κ) (i : ℕ) (send : List (Parcel (Origin κ))) : Application κ :=
  s.mapActors fun m => m.mapMailbox i fun b => { b with send := send }

def cacheSends (i : ℕ) (s : Application κ) : Application κ :=
  { s.setSend i ((s.sendOf i).filter fun p => !s.caches p.msg) with
    cacheMsgs := s.cacheMsgs ++ (s.sendOf i).filter fun p => s.caches p.msg }

/-- `DispatchMsg(context)`. -/
def dispatchContext (i : ℕ) (s : Application κ) : Application κ :=
  (dispatchList w (s.sendOf i) (s.mapActors fun m => m.setRuningFlag i false)).setSend i []

def addActor (s : Application κ) (a : Actor κ) (cfg : Json) : Application κ × Result :=
  if s.admits a.typeName = true then
    let t := s.setNode a.typeName a.getActorName
    match t.initContext a cfg with
    | .error e => (t, .error e)
    | .ok (ctx, code) =>
      if code ≠ 0 then (t, .ok false)
      else
        (dispatchContext w s.ctxCount
          (cacheSends s.ctxCount (recvCached w a.getActorName (t.enter a cfg ctx))), .ok true)
  else (s, .ok false)

end Dispatch

def addWorker (s : Application κ) (v : Worker) (g : Grant) : Application κ × Result :=
  if s.admits v.typeName = true then
    let t := s.setNode v.typeName v.getWorkerName
    if s.hasHandle g.handle = true then (t, .ok false)
    else
      ({ t with
          workerCtxMgr :=
            { t.workerCtxMgr with
              heap := Function.update t.workerCtxMgr.heap g.handle { name := v.getWorkerName, type := v.type }
              names := Function.update t.workerCtxMgr.names v.getWorkerName (some g.handle) }
          curWorkerCount := t.curWorkerCount + 1 }, .ok g.polled)
  else (s, .ok false)

def instanceConfig (inst : Json) : Except Json.Throw Json := do
  if ← inst.isMember "instance_config" then inst.get "instance_config" else return .null

def addActors (w : SetWalk) (s : Application κ) : List (Json × Actor κ) → Application κ × Result
  | [] => (s, .ok true)
  | (inst, a) :: rest =>
    match instanceConfig inst with
    | .error e => (s, .error e)
    | .ok cfg =>
      if (s.addActor w a cfg).2 = .ok true then addActors w (s.addActor w a cfg).1 rest
      else s.addActor w a cfg

def addWorkers (s : Application κ) : List (Json × Worker) → (ℕ → Grant) → Application κ × Result
  | [], _ => (s, .ok true)
  | (inst, v) :: rest, grants =>
    match instanceConfig inst with
    | .error e => (s, .error e)
    | .ok _ =>
      if (s.addWorker v (grants 0)).2 = .ok true then
        addWorkers (s.addWorker v (grants 0)).1 rest fun n => grants (n + 1)
      else s.addWorker v (grants 0)

def loadServiceFromJson (w : SetWalk) (o : Platform κ) (s : Application κ) (service : Json)
    (grants : ℕ → Grant) : Application κ × Result :=
  if s.state = .kUninitialized ∨ s.state = .kQuitting ∨ s.state = .kQuit then (s, .ok false)
  else
    let r := s.mods.loadService o s.libDir service
    let t := { s with mods := r.1 }
    match r.2 with
    | .error e => (t, .error e)
    | .ok none => (t, .ok false)
    | .ok (some (actors, workers)) =>
      if (t.addActors w actors).2 = .ok true then (t.addActors w actors).1.addWorkers workers grants
      else t.addActors w actors

/-- `Init`, up to the workers that it adds. -/
def init (s : Application κ) (libDir : String) (pendingQueueSize runQueueSize : ℤ) : Application κ :=
  if s.state = .kUninitialized then
    { s with
      state := .kInitialized
      libDir := libDir
      defaultPendingQueueSize := pendingQueueSize
      defaultRunQueueSize := runQueueSize }
  else s

/-- `Exec`, up to its loop. -/
def exec (w : SetWalk) (s : Application κ) : Application κ :=
  if s.state = .kInitialized ∨ s.state = .kQuitting then
    { dispatchList w s.cacheMsgs { s with state := .kRunning } with cacheMsgs := [] }
  else s

/-- `Quit`, up to the commands for the workers. -/
def quit (s : Application κ) : Application κ :=
  if s.state = .kRunning ∨ s.state = .kInitialized then { s with state := .kQuitting } else s

/-- A round of `CheckStopWorkers`. -/
def assign (s : Application κ) : Application κ :=
  match s.actorCtxMgr.getContextWithMsg with
  | (m, none) => { s with actorCtxMgr := m }
  | (m, some i) =>
    if (m.heap i).mailbox.recv = [] then { s with actorCtxMgr := m }
    else
      let m := m.mapMailbox i Mailbox.moveToRun
      { s with actorCtxMgr := if (m.heap i).mailbox.recv = [] then m else m.pushContext i }

/-- The event of a worker that has run the actor `i`, which has posted these messages meanwhile. -/
def processWorkerEvent (w : SetWalk) (s : Application κ) (i : ℕ) (posted : List (Parcel (Origin κ))) :
    Application κ :=
  dispatchContext w i
    (s.mapActors fun m => m.mapMailbox i fun b => { b with run := [], send := b.send ++ posted })

/-- `deliver` is the dispatch of what a worker, the timer or a connection has posted. -/
inductive Label (κ : Type) where
  | init (libDir : String) (pendingQueueSize runQueueSize : ℤ)
  | loadMod (dlPath : String)
  | regActor (className : String) (func : String → Init κ)
  | regWorker (className : String) (func : String → WorkerType)
  | addActor (a : Actor κ) (cfg : Json)
  | addWorker (v : Worker) (g : Grant)
  | loadServiceFromJson (service : Json) (grants : ℕ → Grant)
  | exec
  | quit
  | assign
  | processWorkerEvent (i : ℕ) (posted : List (Parcel (Origin κ)))
  | deliver (ps : List (Parcel (Origin κ)))

variable (w : SetWalk) (o : Platform κ)

/-- The state after a step, and what the call comes back with where it is one that tells. -/
def call (s : Application κ) : Label κ → Application κ × Result
  | .init libDir pendingQueueSize runQueueSize => (s.init libDir pendingQueueSize runQueueSize, .ok true)
  | .loadMod dlPath => ({ s with mods := (s.mods.loadMod o dlPath).1 }, .ok (s.mods.loadMod o dlPath).2)
  | .regActor className func =>
    ({ s with mods := (s.mods.regActor className func).1 }, .ok (s.mods.regActor className func).2)
  | .regWorker className func =>
    ({ s with mods := (s.mods.regWorker className func).1 }, .ok (s.mods.regWorker className func).2)
  | .addActor a cfg => s.addActor w a cfg
  | .addWorker v g => s.addWorker v g
  | .loadServiceFromJson service grants => s.loadServiceFromJson w o service grants
  | .exec => (s.exec w, .ok true)
  | .quit => (s.quit, .ok true)
  | .assign => (s.assign, .ok true)
  | .processWorkerEvent i posted => (s.processWorkerEvent w i posted, .ok true)
  | .deliver ps => (dispatchList w ps s, .ok true)

def next (s : Application κ) (l : Label κ) : Application κ := (s.call w o l).1

def system : Transition.System (Application κ) (Label κ) where
  enabled _ _ := True
  next := next w o

end Application

namespace App

variable {ι ω κ : Type} [DecidableEq ι] [DecidableEq ω]

/-- What deliveries keep, and the list of the parts of a name and the subscriptions do not enter, a dispatch
keeps. -/
theorem dispatchMsg_inv {P : App ι ω κ → Prop} {p : Parcel (Origin κ)}
    (hDeliver : ∀ a d, P a → P (a.deliverTo p d)) (hNames : ∀ a l, P a → P { a with nameList := l })
    (hSubs : ∀ a m, P a → P { a with subs := m }) (w : SetWalk) {a : App ι ω κ} (h : P a) :
    P (a.dispatchMsg w p) := by
  have hDeliveries : ∀ (ds : List Delivery) (b : App ι ω κ), P b → P (ds.foldl (deliverTo p) b) := by
    intro ds
    induction ds with
    | nil => exact fun _ => id
    | cons d ds ih => exact fun b hb => ih _ (hDeliver b d hb)
  have hCalls : ∀ (cs : List (String × TransMode)) (b : App ι ω κ), P b → P (cs.foldl (call p) b) := by
    intro cs
    induction cs with
    | nil => exact fun _ => id
    | cons c cs ih => exact fun b hb => ih _ (hDeliveries _ _ (hNames b _ hb))
  exact hCalls _ _ (hSubs a _ h)

theorem deliverTo_actors {Q : ActorContextManager ι (Origin κ) → Prop} {p : Parcel (Origin κ)}
    (hKeep : ∀ m name, Q m → Q (m.dispatchMsg name p)) {a : App ι ω κ} (h : Q a.actorCtxMgr) (d : Delivery) :
    Q (a.deliverTo p d).actorCtxMgr := by
  rw [deliverTo]
  split
  · cases d with
    | actor name => exact hKeep _ name h
    | worker name => exact h
    | conn name =>
      simp only [notify]
      split <;> exact h
  · exact h

theorem dispatchMsg_actors {Q : ActorContextManager ι (Origin κ) → Prop} {p : Parcel (Origin κ)}
    (hKeep : ∀ m name, Q m → Q (m.dispatchMsg name p)) (w : SetWalk) {a : App ι ω κ} (h : Q a.actorCtxMgr) :
    Q (a.dispatchMsg w p).actorCtxMgr :=
  dispatchMsg_inv (P := fun b => Q b.actorCtxMgr) (fun _ d hb => deliverTo_actors hKeep hb d) (fun _ _ hb => hb)
    (fun _ _ hb => hb) w h

theorem deliverTo_nodeAddr (a : App ι ω κ) (p : Parcel (Origin κ)) (d : Delivery) :
    (a.deliverTo p d).nodeAddr = a.nodeAddr := by
  rw [deliverTo]
  split
  · cases d with
    | actor name | worker name => rfl
    | conn name =>
      simp only [notify]
      split <;> rfl
  · rfl

theorem dispatchMsg_frame (w : SetWalk) (a : App ι ω κ) (p : Parcel (Origin κ)) :
    (a.dispatchMsg w p).actorCtxMgr.ctxs = a.actorCtxMgr.ctxs ∧ (a.dispatchMsg w p).nodeAddr = a.nodeAddr := by
  constructor
  · exact dispatchMsg_actors (Q := fun m => m.ctxs = a.actorCtxMgr.ctxs)
      (fun m name hm => (m.dispatchMsg_ctxs name p).trans hm) w rfl
  · exact dispatchMsg_inv (P := fun b => b.nodeAddr = a.nodeAddr)
      (fun b d hb => (b.deliverTo_nodeAddr p d).trans hb) (fun _ _ hb => hb) (fun _ _ hb => hb) w rfl

end App

namespace Application

variable {κ : Type} (w : SetWalk)

theorem dispatchList_frame (ps : List (Parcel (Origin κ))) (s : Application κ) :
    ∃ app : App ℕ ℕ κ, dispatchList w ps s = { s with toApp := app } ∧
      app.actorCtxMgr.ctxs = s.actorCtxMgr.ctxs ∧ app.nodeAddr = s.nodeAddr := by
  induction ps generalizing s with
  | nil => exact ⟨s.toApp, rfl, rfl, rfl⟩
  | cons p ps ih =>
    obtain ⟨hCtxs, hNode⟩ := s.toApp.dispatchMsg_frame w p
    obtain ⟨app, hEq, hCtxs', hNode'⟩ := ih (s.dispatchMsg w p)
    exact ⟨app, hEq, hCtxs'.trans hCtxs, hNode'.trans hNode⟩

theorem assign_frame (s : Application κ) :
    ∃ m : ActorContextManager ℕ (Origin κ),
      s.assign = { s with actorCtxMgr := m } ∧ m.ctxs = s.actorCtxMgr.ctxs := by
  rw [assign]
  cases hTake : s.actorCtxMgr.getContextWithMsg with
  | mk m found =>
    cases found with
    | none =>
      obtain rfl := ActorContextManager.getContextWithMsg_none hTake
      exact ⟨_, rfl, rfl⟩
    | some i =>
      obtain ⟨-, -, hCtxs, -⟩ := ActorContextManager.getContextWithMsg_some hTake
      simp only
      split
      · exact ⟨m, rfl, hCtxs⟩
      · refine ⟨_, rfl, ?_⟩
        split
        · exact hCtxs
        · rw [ActorContextManager.pushContext_ctxs]
          exact hCtxs

end Application
end Myframe
