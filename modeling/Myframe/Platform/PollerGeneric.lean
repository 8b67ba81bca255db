import Mathlib.Data.Fintype.Defs
import Myframe.EventConn.Steps

/-! # Commands and notifications with the condition variable

A send appends its command to the channel and the handle of the channel to the poller, in one step here.
`Wait` takes all handles, `ProcessEvent` goes through them and reads one command for each. Workers and
connections have channels; what an actor posts, the main loop dispatches in the event of a worker.
-/
namespace Myframe
set_option autoImplicit false

inductive Handle (ω : Type) where
  | worker (w : ω)
  | conn (n : ℕ)
  deriving DecidableEq, Repr

def Handle.isWorker {ω : Type} : Handle ω → Bool
  | .worker _ => true
  | .conn _ => false

/-- A worker runs until it sends, and again when it has been answered. -/
inductive TurnPc where
  | running
  | sent
  | awaiting
  | ended
  deriving DecidableEq, Repr

structure TurnWorker where
  toMain : List Cmd := []
  pc : TurnPc := .running
  registered : Bool := true

/-- `batch` is what is left of the handles that `Wait` has returned, `current` the one whose event is being
processed. `user` is the call that has taken a connection last, `senders` are the calls that have sent the
commands in its channel. -/
structure PollerGeneric (ω κ : Type) where
  mgr : EventConnManager κ
  workers : ω → TurnWorker := fun _ => {}
  evs : List (Handle ω) := []
  batch : List (Handle ω) := []
  current : Option (Handle ω) := none
  user : ℕ → Option κ := fun _ => none
  senders : ℕ → List κ := fun _ => []

namespace PollerGeneric

inductive Label (ω κ : Type) where
  | alloc (k : κ) (type : ConnType) (msg : Msg)
  | call (k : κ)
  | send (w : ω) (wait : Bool)
  | exit (w : ω)
  | reply (w : ω)
  | wait
  | take
  | answer (p : Parcel (Origin κ)) (m : Msg)
  | arrive (m : Msg)
  | main
  | recv

variable {ω κ : Type}

def toMain (s : PollerGeneric ω κ) : Handle ω → List Cmd
  | .worker w => (s.workers w).toMain
  | .conn n => (s.mgr.conns n).channel.toMain

/-- `ev_mgr_->Get<Event>(h)` finds something. -/
def registered (s : PollerGeneric ω κ) : Handle ω → Bool
  | .worker w => (s.workers w).registered
  | .conn n => s.mgr.evMgr.evs n

/-- The connection whose command the next step of the main loop reads. -/
def reading (s : EventConnManager κ) : Option ℕ :=
  match s.notify, s.deliveries, s.event with
  | .ready, [], some n => if s.eventPc = .receiving then some n else none
  | _, _, _ => none

/-- `Get` finds nothing for a handle that is not registered, and `ProcessEvent` goes on to the next. -/
def take (s : PollerGeneric ω κ) : PollerGeneric ω κ :=
  match s.batch with
  | [] => s
  | h :: rest =>
    if s.registered h then
      { s with
        batch := rest
        current := some h
        mgr := match h with | .worker _ => s.mgr | .conn n => { s.mgr with event := some n, eventPc := .draining } }
    else { s with batch := rest }

def mainStep (c : EventConnManager.Setting) (s : PollerGeneric ω κ) : PollerGeneric ω κ :=
  match reading s.mgr with
  | some n =>
    { s with
      mgr := s.mgr.mainStep c
      current := none
      senders := Function.update s.senders n (s.senders n).tail }
  | none => { s with mgr := s.mgr.mainStep c }

section Steps

variable [DecidableEq ω] [DecidableEq κ]

def setWorker (s : PollerGeneric ω κ) (w : ω) (x : TurnWorker) : PollerGeneric ω κ :=
  { s with workers := Function.update s.workers w x }

def sendToMain (s : PollerGeneric ω κ) (w : ω) (cmd : Cmd) (pc : TurnPc) : PollerGeneric ω κ :=
  { s.setWorker w { s.workers w with toMain := (s.workers w).toMain ++ [cmd], pc := pc } with
    evs := s.evs ++ [.worker w] }

/-- `RecvFromOwner` in the event of a worker, and what follows it. -/
def recv (s : PollerGeneric ω κ) : PollerGeneric ω κ :=
  match s.current with
  | some (.worker w) =>
    match (s.workers w).toMain with
    | [] => s
    | .kQuit :: rest =>
      { s.setWorker w { s.workers w with toMain := rest, registered := false } with current := none }
    | _ :: rest =>
      { s.setWorker w { s.workers w with toMain := rest, pc := .awaiting } with current := none }
  | _ => s

def alloc (s : PollerGeneric ω κ) (k : κ) (type : ConnType) (msg : Msg) : PollerGeneric ω κ :=
  match ((s.mgr.alloc k type msg).calls k).pc with
  | .allocated n => { s with mgr := s.mgr.alloc k type msg, user := Function.update s.user n (some k) }
  | _ => { s with mgr := s.mgr.alloc k type msg }

def callStep (s : PollerGeneric ω κ) (k : κ) : PollerGeneric ω κ :=
  match (s.mgr.calls k).pc with
  | .queued n =>
    { s with
      mgr := s.mgr.callStep k
      evs := s.evs ++ [.conn n]
      senders := Function.update s.senders n (s.senders n ++ [k]) }
  | _ => { s with mgr := s.mgr.callStep k }

def next (c : EventConnManager.Setting) (s : PollerGeneric ω κ) : Label ω κ → PollerGeneric ω κ
  | .alloc k type msg => s.alloc k type msg
  | .call k => s.callStep k
  | .send w wait => s.sendToMain w (if wait then .kWaitForMsg else .kIdle) .sent
  | .exit w => s.sendToMain w .kQuit .ended
  | .reply w => s.setWorker w { s.workers w with pc := .running }
  | .wait => { s with evs := [], batch := s.evs }
  | .take => s.take
  | .answer p m => { s with mgr := s.mgr.next c (.answer p m) }
  | .arrive m => { s with mgr := s.mgr.next c (.arrive m) }
  | .main => s.mainStep c
  | .recv => s.recv

def AtWorker (s : PollerGeneric ω κ) : Prop :=
  s.mgr.busy = false ∧ s.current.any Handle.isWorker = true

def enabled (s : PollerGeneric ω κ) : Label ω κ → Prop
  | .alloc k _ _ => (s.mgr.calls k).pc = .start
  | .call k => s.mgr.ready k = true
  | .send w _ | .exit w => (s.workers w).pc = .running
  | .reply w => (s.workers w).pc = .awaiting
  | .wait => s.mgr.busy = false ∧ s.current = none ∧ s.batch = []
  | .take => s.mgr.busy = false ∧ s.current = none ∧ s.batch ≠ []
  | .answer p _ => s.AtWorker ∧ p ∈ s.mgr.received
  | .arrive _ => s.AtWorker
  | .main => s.mgr.busy = true
  | .recv => s.AtWorker

def system (c : EventConnManager.Setting) : Transition.System (PollerGeneric ω κ) (Label ω κ) where
  enabled s l := s.enabled l
  next s l := s.next c l

instance (c : EventConnManager.Setting) (s : PollerGeneric ω κ) (l : Label ω κ) :
    Decidable ((system c).enabled s l) :=
  match l with
  | .alloc k _ _ => inferInstanceAs (Decidable ((s.mgr.calls k).pc = .start))
  | .call k => inferInstanceAs (Decidable (s.mgr.ready k = true))
  | .send w _ | .exit w => inferInstanceAs (Decidable ((s.workers w).pc = .running))
  | .reply w => inferInstanceAs (Decidable ((s.workers w).pc = .awaiting))
  | .wait => inferInstanceAs (Decidable (s.mgr.busy = false ∧ s.current = none ∧ s.batch = []))
  | .take => inferInstanceAs (Decidable (s.mgr.busy = false ∧ s.current = none ∧ s.batch ≠ []))
  | .answer p _ => inferInstanceAs (Decidable
      ((s.mgr.busy = false ∧ s.current.any Handle.isWorker = true) ∧ p ∈ s.mgr.received))
  | .arrive _ | .recv => inferInstanceAs (Decidable
      (s.mgr.busy = false ∧ s.current.any Handle.isWorker = true))
  | .main => inferInstanceAs (Decidable (s.mgr.busy = true))

end Steps

def initial (sz : ℕ) : PollerGeneric ω κ where
  mgr := .initial sz

section Count

variable [DecidableEq ω]

/-- The handles of a channel that are queued, in the batch, or being processed. -/
def waiting (s : PollerGeneric ω κ) (h : Handle ω) : ℕ :=
  s.evs.count h + s.batch.count h + if s.current = some h then 1 else 0

def Balanced (s : PollerGeneric ω κ) : Prop := ∀ h, (s.toMain h).length = s.waiting h

end Count

/-- `ProcessEvent` takes up no handle that is not registered. -/
def TakesRegistered (s : PollerGeneric ω κ) : Label ω κ → Prop
  | .take => ∀ h ∈ s.batch.head?, s.registered h = true
  | _ => True

/-- `Alloc` takes no connection that has a command to be read, and no call sends one on a connection that
another call has taken since. -/
def SendsOwn (s : PollerGeneric ω κ) : Label ω κ → Prop
  | .alloc .. => ∀ n ∈ s.mgr.idleConn.head?, s.mgr.evMgr.evs n = false → (s.mgr.conns n).channel.toMain = []
  | .call k => ∀ n, (s.mgr.calls k).pc = .queued n → s.user n = some k
  | _ => True

instance (s : PollerGeneric ω κ) (l : Label ω κ) : Decidable (s.TakesRegistered l) :=
  match l with
  | .take => inferInstanceAs (Decidable (∀ h ∈ s.batch.head?, s.registered h = true))
  | .alloc .. | .call _ | .send .. | .exit _ | .reply _ | .wait | .answer .. | .arrive _ | .main | .recv =>
    .isTrue trivial

instance [DecidableEq κ] (s : PollerGeneric ω κ) (l : Label ω κ) : Decidable (s.SendsOwn l) :=
  match l with
  | .alloc .. => inferInstanceAs (Decidable (∀ n ∈ s.mgr.idleConn.head?, s.mgr.evMgr.evs n = false →
      (s.mgr.conns n).channel.toMain = []))
  | .call k => match h : (s.mgr.calls k).pc with
    | .queued m => decidable_of_iff (s.user m = some k)
      ⟨fun hUser _ hn => CallPc.queued.inj (h.symm.trans hn) ▸ hUser, fun hAll => hAll m h⟩
    | .start | .allocated _ | .typed _ | .cleared _ | .waiting _ | .woken _ | .popped .. | .finished ..
    | .unregistered _ | .returned _ => .isTrue fun _ hn => nomatch h.symm.trans hn
  | .send .. | .exit _ | .reply _ | .wait | .take | .answer .. | .arrive _ | .main | .recv => .isTrue trivial

/-- Every command on a connection is one of the call that uses it. -/
def Own (s : PollerGeneric ω κ) : Prop := ∀ n, ∀ k ∈ s.senders n, s.user n = some k

/-- `RecvFromOwner` finds a command, and on the channel of a worker no other one. -/
def Finds (s : PollerGeneric ω κ) : Label ω κ → Prop
  | .main => ∀ n ∈ reading s.mgr, (s.mgr.conns n).channel.toMain ≠ []
  | .recv => ∀ w, s.current = some (.worker w) → (s.workers w).toMain.length = 1
  | _ => True

/-- On a connection it finds one of the call that uses it. -/
def ReadsOwn (s : PollerGeneric ω κ) : Label ω κ → Prop
  | .main => ∀ n ∈ reading s.mgr, ∃ k, (s.senders n).head? = some k ∧ s.user n = some k
  | _ => True

def eventConn : Option (Handle ω) → Option ℕ
  | some (.conn n) => some n
  | some (.worker _) | none => none

structure Formed (s : PollerGeneric ω κ) : Prop where
  sized : s.mgr.Sized
  fresh : ∀ n, s.mgr.connSz ≤ n → (s.mgr.conns n).channel.toMain = []
  parallel : ∀ n, (s.senders n).length = (s.mgr.conns n).channel.toMain.length
  event : s.mgr.event = eventConn s.current
  idle : ∀ w, (s.workers w).pc = .running ∨ (s.workers w).pc = .awaiting → (s.workers w).toMain = []
  short : ∀ w, (s.workers w).toMain.length ≤ 1

theorem receive_toMain (s : EventConnManager κ) (n m : ℕ) :
    ((s.receive n).conns m).channel.toMain =
      if m = n then (s.conns m).channel.toMain.tail else (s.conns m).channel.toMain := by
  unfold EventConnManager.receive
  split
  · next hNil =>
    split
    · next hEq => rw [hEq, hNil, List.tail_nil]
    · rfl
  · next cmd rest hMain =>
    dsimp only
    obtain rfl | hNe := eq_or_ne m n
    · split <;> simp [hMain]
    · rw [if_neg hNe]
      split <;> simp only [EventConnManager.mapConn_conns_ne _ _ _ hNe]

theorem notifyStep_toMain (s : EventConnManager κ) (m : ℕ) :
    (s.notifyStep s.notify).event = s.event ∧
      ((s.notifyStep s.notify).conns m).channel.toMain = (s.conns m).channel.toMain := by
  cases hNotify : s.notify with
  | ready => exact ⟨rfl, rfl⟩
  | found n p | checked n p =>
    rw [EventConnManager.notifyStep]
    split <;> exact ⟨rfl, rfl⟩
  | deleted n p => exact ⟨rfl, rfl⟩
  | released n p =>
    refine ⟨rfl, congrArg CmdChannel.toMain ?_⟩
    exact s.mapConn_channel n m (fun x => { x with mailbox := x.mailbox.receive p }) rfl
  | stored n =>
    refine ⟨rfl, ?_⟩
    obtain rfl | hNe := eq_or_ne m n
    · simp [EventConnManager.notifyStep]
    · simp only [EventConnManager.notifyStep, EventConnManager.mapConn_conns_ne _ _ _ hNe]

theorem deliver_toMain (s : EventConnManager κ) (p : Parcel (Origin κ)) (d : Delivery) :
    (s.deliver p d).event = s.event ∧ (s.deliver p d).conns = s.conns := by
  cases d with
  | actor name | worker name => exact ⟨rfl, rfl⟩
  | conn name =>
    simp only [EventConnManager.deliver]
    split
    · exact ⟨rfl, rfl⟩
    · split <;> exact ⟨rfl, rfl⟩

/-- A step of the main loop reads the command of one connection or none at all. -/
theorem mainStep_toMain (s : EventConnManager κ) (c : EventConnManager.Setting) :
    (∃ n, reading s = some n ∧ s.event = some n ∧ (s.mainStep c).event = none ∧
      ∀ m, ((s.mainStep c).conns m).channel.toMain =
        if m = n then (s.conns m).channel.toMain.tail else (s.conns m).channel.toMain) ∨
    reading s = none ∧ (s.mainStep c).event = s.event ∧
      ∀ m, ((s.mainStep c).conns m).channel.toMain = (s.conns m).channel.toMain := by
  cases hNotify : s.notify with
  | ready =>
    cases hDel : s.deliveries with
    | cons dp rest =>
      have hNext : s.mainStep c = { s with deliveries := rest }.deliver dp.2 dp.1 := by
        simp only [EventConnManager.mainStep, hNotify, hDel]
      obtain ⟨hEvent, hConns⟩ := deliver_toMain { s with deliveries := rest } dp.2 dp.1
      refine .inr ⟨by simp only [reading, hNotify, hDel], by rw [hNext, hEvent], fun m => ?_⟩
      rw [hNext, hConns]
    | nil =>
      cases hEvent : s.event with
      | none =>
        have hNext : s.mainStep c = s := by simp only [EventConnManager.mainStep, hNotify, hDel, hEvent]
        refine .inr ⟨by simp only [reading, hNotify, hDel, hEvent], by rw [hNext, hEvent], fun m => ?_⟩
        rw [hNext]
      | some n =>
        have hNext : s.mainStep c = s.processEventConn c n := by
          simp only [EventConnManager.mainStep, hNotify, hDel, hEvent]
        rw [hNext]
        cases hPc : s.eventPc with
        | draining =>
          refine .inr ⟨by simp only [reading, hNotify, hDel, hEvent, hPc, reduceCtorEq, if_false], ?_⟩
          rw [EventConnManager.processEventConn, hPc, ← hEvent]
          cases hSend : (s.conns n).mailbox.send with
          | nil => exact ⟨rfl, fun _ => rfl⟩
          | cons p rest =>
            exact ⟨rfl, fun m => congrArg CmdChannel.toMain
              (s.mapConn_channel n m (fun x => { x with mailbox := { x.mailbox with send := rest } }) rfl)⟩
        | clearing =>
          refine .inr ⟨by simp only [reading, hNotify, hDel, hEvent, hPc, reduceCtorEq, if_false], ?_⟩
          rw [EventConnManager.processEventConn, hPc, ← hEvent]
          exact ⟨rfl, fun m => congrArg CmdChannel.toMain
            (s.mapConn_channel n m (fun x => { x with mailbox := { x.mailbox with send := [] } }) rfl)⟩
        | receiving =>
          refine .inl ⟨n, by simp only [reading, hNotify, hDel, hEvent, hPc, if_true], rfl, ?_⟩
          rw [EventConnManager.processEventConn, hPc]
          exact ⟨rfl, fun m => receive_toMain s n m⟩
  | found _ _ | checked _ _ | deleted _ _ | released _ _ | stored _ =>
    have hNext : s.mainStep c = s.notifyStep s.notify := by simp only [EventConnManager.mainStep, hNotify]
    refine .inr ⟨by simp only [reading, hNotify], ?_, fun m => ?_⟩
    · rw [hNext]
      exact (notifyStep_toMain s 0).1
    · rw [hNext]
      exact (notifyStep_toMain s m).2

theorem alloc_toMain [DecidableEq κ] (s : EventConnManager κ) (k : κ) (type : ConnType) (msg : Msg)
    (hFresh : (s.conns s.connSz).channel.toMain = []) :
    (s.alloc k type msg).event = s.event ∧ s.connSz ≤ (s.alloc k type msg).connSz ∧
      ∀ m, ((s.alloc k type msg).conns m).channel.toMain = (s.conns m).channel.toMain := by
  obtain ⟨t, n, rest, hFrom, -, hEq⟩ := s.alloc_cases k type msg
  have hSame : (s.alloc k type msg).event = t.event ∧ (s.alloc k type msg).connSz = t.connSz ∧
      (s.alloc k type msg).conns = t.conns := by
    obtain ⟨-, hEq⟩ | ⟨-, hEq⟩ := hEq <;> rw [hEq] <;> exact ⟨rfl, rfl, rfl⟩
  rw [hSame.1, hSame.2.1, hSame.2.2]
  obtain ⟨-, rfl⟩ | ⟨-, rfl⟩ := hFrom
  · exact ⟨rfl, Nat.le_refl _, fun _ => rfl⟩
  · refine ⟨rfl, Nat.le_succ _, fun m => ?_⟩
    obtain rfl | hNe := eq_or_ne m s.connSz
    · rw [hFresh, EventConnManager.addEventConn]
      simp only [Function.update_self]
    · rw [EventConnManager.addEventConn]
      simp only [Function.update_of_ne hNe]

/-- A call appends its command when it has posted its message, and changes the queue at no other time. -/
theorem callStep_toMain [DecidableEq κ] (s : EventConnManager κ) {k : κ} {n : ℕ} (hHolds : s.Holds k n) :
    (s.callStep k).event = s.event ∧
      (if (s.calls k).pc = .queued n then
        ∃ cmd, ((s.callStep k).conns n).channel.toMain = (s.conns n).channel.toMain ++ [cmd]
      else ((s.callStep k).conns n).channel.toMain = (s.conns n).channel.toMain) := by
  cases hPc : (s.calls k).pc with
  | start | returned r => exact absurd hHolds (EventConnManager.not_holds hPc rfl)
  | allocated m | typed m | waiting m | popped m p =>
    obtain rfl : m = n := hHolds.eq hPc rfl
    exact ⟨by simp only [EventConnManager.callStep, hPc]; rfl, by simp [EventConnManager.callStep, hPc]⟩
  | queued m =>
    obtain rfl : m = n := hHolds.eq hPc rfl
    exact ⟨by simp only [EventConnManager.callStep, hPc]; rfl, by simp [EventConnManager.callStep, hPc]⟩
  | cleared m | woken m =>
    obtain rfl : m = n := hHolds.eq hPc rfl
    simp only [EventConnManager.callStep, hPc, reduceCtorEq, if_false]
    split <;> exact ⟨rfl, by simp⟩
  | finished m r =>
    simp only [EventConnManager.callStep, hPc, reduceCtorEq, if_false]
    split
    · exact ⟨rfl, rfl⟩
    · split <;> exact ⟨rfl, rfl⟩
  | unregistered m =>
    simp only [EventConnManager.callStep, hPc, reduceCtorEq, if_false]
    exact ⟨rfl, rfl⟩

variable {s t : PollerGeneric ω κ}

section Formed

variable [DecidableEq ω] [DecidableEq κ]

omit [DecidableEq ω] in
theorem Formed.alloc (hF : s.Formed) (k : κ) (type : ConnType) (msg : Msg) : (s.alloc k type msg).Formed := by
  obtain ⟨hEvent, hSz, hMain⟩ := alloc_toMain s.mgr k type msg (hF.fresh _ (Nat.le_refl _))
  have hSame : (s.alloc k type msg).mgr = s.mgr.alloc k type msg ∧
      (s.alloc k type msg).workers = s.workers ∧ (s.alloc k type msg).senders = s.senders ∧
      (s.alloc k type msg).current = s.current := by
    unfold PollerGeneric.alloc
    split <;> exact ⟨rfl, rfl, rfl, rfl⟩
  obtain ⟨hMgr, hWorkers, hSenders, hCurrent⟩ := hSame
  refine ⟨?_, fun n hn => ?_, fun n => ?_, ?_, by rw [hWorkers]; exact hF.idle, by rw [hWorkers]; exact hF.short⟩
  · rw [hMgr]
    exact hF.sized.alloc k type msg
  · rw [hMgr] at hn ⊢
    rw [hMain]
    exact hF.fresh n (Nat.le_trans hSz hn)
  · rw [hMgr, hMain, hSenders]
    exact hF.parallel n
  · rw [hMgr, hEvent, hCurrent]
    exact hF.event

omit [DecidableEq ω] in
theorem Formed.callStep (hF : s.Formed) {k : κ} (hReady : s.mgr.ready k = true) : (s.callStep k).Formed := by
  obtain ⟨n, hHolds⟩ := EventConnManager.holds_of_ready hReady
  have hFrame := EventConnManager.callStep_frame hHolds
  have hSized := hF.sized.callStep hReady
  have hLt := hF.sized.holds_lt k n hHolds
  obtain ⟨hEvent, hMain⟩ := callStep_toMain s.mgr hHolds
  have hFresh : ∀ m, (s.mgr.callStep k).connSz ≤ m → ((s.mgr.callStep k).conns m).channel.toMain = [] := by
    intro m hm
    rw [hFrame.connSz] at hm
    rw [hFrame.conn m (Nat.ne_of_gt (Nat.lt_of_lt_of_le hLt hm))]
    exact hF.fresh m hm
  rw [PollerGeneric.callStep]
  split
  · next m hQueued =>
    obtain rfl : m = n := hHolds.eq hQueued rfl
    rw [if_pos hQueued] at hMain
    obtain ⟨cmd, hMain⟩ := hMain
    refine ⟨hSized, hFresh, fun v => ?_, hEvent.trans hF.event, hF.idle, hF.short⟩
    obtain rfl | hNe := eq_or_ne v m
    · simp only [Function.update_self, hMain, List.length_append, List.length_singleton, hF.parallel v]
    · simp only [Function.update_of_ne hNe, hFrame.conn v hNe]
      exact hF.parallel v
  · next hNot =>
    rw [if_neg (hNot n)] at hMain
    refine ⟨hSized, hFresh, fun v => ?_, hEvent.trans hF.event, hF.idle, hF.short⟩
    obtain rfl | hNe := eq_or_ne v n
    · simp only [hMain]
      exact hF.parallel v
    · simp only [hFrame.conn v hNe]
      exact hF.parallel v

omit [DecidableEq ω] [DecidableEq κ] in
theorem Formed.mainStep (hF : s.Formed) (c : EventConnManager.Setting) : (s.mainStep c).Formed := by
  have hSz := (EventConnManager.mainStep_frame s.mgr c).connSz
  have hSized := hF.sized.mainStep c
  obtain ⟨n, hReading, -, hEvent, hMain⟩ | ⟨hReading, hEvent, hMain⟩ := mainStep_toMain s.mgr c
  · simp only [PollerGeneric.mainStep, hReading]
    refine ⟨hSized, fun m hm => ?_, fun m => ?_, hEvent, hF.idle, hF.short⟩
    · have hNil := hF.fresh m (hSz ▸ hm)
      rw [hMain, hNil]
      split <;> rfl
    · simp only [hMain]
      obtain rfl | hNe := eq_or_ne m n
      · rw [Function.update_self, if_pos rfl, List.length_tail, List.length_tail, hF.parallel]
      · rw [Function.update_of_ne hNe, if_neg hNe, hF.parallel]
  · simp only [PollerGeneric.mainStep, hReading]
    refine ⟨hSized, fun m hm => ?_, fun m => ?_, hEvent.trans hF.event, hF.idle, hF.short⟩
    · rw [hMain]
      exact hF.fresh m (hSz ▸ hm)
    · simp only [hMain]
      exact hF.parallel m

omit [DecidableEq κ] in
theorem Formed.setWorker (hF : s.Formed) {w : ω} {x : TurnWorker} (hMgr : t.mgr = s.mgr)
    (hSenders : t.senders = s.senders) (hEvent : eventConn t.current = eventConn s.current)
    (hWorkers : t.workers = Function.update s.workers w x)
    (hIdle : x.pc = .running ∨ x.pc = .awaiting → x.toMain = []) (hShort : x.toMain.length ≤ 1) : t.Formed := by
  refine ⟨hMgr ▸ hF.sized, hMgr ▸ hF.fresh, fun n => ?_, ?_, fun v => ?_, fun v => ?_⟩
  · rw [hMgr, hSenders]
    exact hF.parallel n
  · rw [hMgr, hEvent]
    exact hF.event
  · rw [hWorkers]
    obtain rfl | hNe := eq_or_ne v w
    · rw [Function.update_self]
      exact hIdle
    · rw [Function.update_of_ne hNe]
      exact hF.idle v
  · rw [hWorkers]
    obtain rfl | hNe := eq_or_ne v w
    · rw [Function.update_self]
      exact hShort
    · rw [Function.update_of_ne hNe]
      exact hF.short v

omit [DecidableEq κ] in
theorem Formed.sendToMain (hF : s.Formed) {w : ω} (hRunning : (s.workers w).pc = .running) (cmd : Cmd)
    {pc : TurnPc} (hPc : pc = .sent ∨ pc = .ended) : (s.sendToMain w cmd pc).Formed := by
  have hNil := hF.idle w (.inl hRunning)
  refine hF.setWorker rfl rfl rfl rfl (fun hPc' => ?_) ?_
  · obtain rfl | rfl := hPc <;> obtain hPc' | hPc' := hPc' <;> cases hPc'
  · rw [hNil]
    exact Nat.le_refl _

omit [DecidableEq κ] in
theorem Formed.recv (hF : s.Formed) : s.recv.Formed := by
  unfold PollerGeneric.recv
  split
  · next w hCurrent =>
    have hShort := hF.short w
    have hRest : ∀ cmd rest, (s.workers w).toMain = cmd :: rest → rest = [] := by
      intro cmd rest hMain
      rw [hMain, List.length_cons] at hShort
      exact List.eq_nil_of_length_eq_zero (by omega)
    have hEvent : eventConn (none : Option (Handle ω)) = eventConn s.current := by rw [hCurrent]; rfl
    split
    · exact hF
    · next rest hMain =>
      refine hF.setWorker rfl rfl hEvent rfl (fun _ => hRest _ rest hMain) ?_
      rw [hRest _ rest hMain]
      exact Nat.zero_le _
    · next cmd rest _ hMain =>
      refine hF.setWorker rfl rfl hEvent rfl (fun _ => hRest _ rest hMain) ?_
      rw [hRest _ rest hMain]
      exact Nat.zero_le _
  · exact hF

omit [DecidableEq ω] [DecidableEq κ] in
theorem Formed.take (hF : s.Formed) (hCurrent : s.current = none) : s.take.Formed := by
  have hEvent := hF.event
  rw [hCurrent] at hEvent
  unfold PollerGeneric.take
  split
  · exact hF
  · next h rest _ =>
    split
    · cases h with
      | worker w => exact ⟨hF.sized, hF.fresh, hF.parallel, hEvent, hF.idle, hF.short⟩
      | conn n => exact ⟨hF.sized.of_same rfl rfl rfl rfl rfl, hF.fresh, hF.parallel, rfl, hF.idle, hF.short⟩
    · exact ⟨hF.sized, hF.fresh, hF.parallel, hF.event, hF.idle, hF.short⟩

theorem formed_next (hF : s.Formed) (c : EventConnManager.Setting) {l : Label ω κ} (hEn : s.enabled l) :
    (s.next c l).Formed := by
  cases l with
  | alloc k type msg => exact hF.alloc k type msg
  | call k => exact hF.callStep hEn
  | send w wait => exact hF.sendToMain hEn _ (.inl rfl)
  | exit w => exact hF.sendToMain hEn _ (.inr rfl)
  | reply w =>
    have hNil := hF.idle w (.inr hEn)
    refine hF.setWorker rfl rfl rfl rfl (fun _ => hNil) ?_
    rw [hNil]
    exact Nat.zero_le _
  | wait => exact ⟨hF.sized, hF.fresh, hF.parallel, hF.event, hF.idle, hF.short⟩
  | take => exact hF.take hEn.2.1
  | answer p m | arrive m =>
    exact ⟨hF.sized.of_same rfl rfl rfl rfl rfl, hF.fresh, hF.parallel, hF.event, hF.idle, hF.short⟩
  | main => exact hF.mainStep c
  | recv => exact hF.recv

end Formed

theorem initial_conns (sz : ℕ) :
    (EventConnManager.initial sz : EventConnManager κ).event = none ∧
      ∀ n, ((EventConnManager.initial sz : EventConnManager κ).conns n).channel = {} := by
  induction sz with
  | zero => exact ⟨rfl, fun _ => rfl⟩
  | succ sz ih =>
    refine ⟨ih.1, fun n => ?_⟩
    simp only [EventConnManager.initial, EventConnManager.addEventConn, Function.update_apply]
    split
    · rfl
    · exact ih.2 n

theorem formed_initial (sz : ℕ) : (initial sz : PollerGeneric ω κ).Formed := by
  obtain ⟨hEvent, hConns⟩ : (EventConnManager.initial sz : EventConnManager κ).event = none ∧ _ :=
    initial_conns sz
  refine ⟨EventConnManager.sized_initial sz, fun n _ => ?_, fun n => ?_, hEvent, fun w _ => rfl,
    fun w => Nat.zero_le _⟩
  · simp only [initial, hConns]
  · simp only [initial, hConns]
    rfl

end PollerGeneric
end Myframe
