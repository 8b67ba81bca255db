import Mathlib.Data.Fintype.Defs
import Mathlib.Data.Int.Order.Basic
import Myframe.App.Lifecycle
import Myframe.EventConn.Steps

/-! # Calls from outside while `Exec` ends

A call looks at `state_` first and takes its connection later. After its loop `Exec` empties the pool, then
tells the connections that are registered, and stores `kQuit` last.
-/
namespace Myframe
set_option autoImplicit false

/-- Which of the two channels the build has picked. -/
inductive Backend where
  | linux
  | generic
  deriving DecidableEq, Repr

/-- What `RecvFromMain` returns once it has read a command: the length read, or zero. -/
def Backend.recvRet : Backend → ℤ
  | .linux => 1
  | .generic => 0

/-- Where `Exec` stands: in its loop, behind it, behind `ev_conn_mgr_->Clear`, behind `ev_mgr_->Clear`, at
its end. -/
inductive ExitPc where
  | loop
  | left
  | emptied
  | cleared
  | returned
  deriving DecidableEq, Repr

def ExitPc.past : ExitPc → Bool
  | .loop | .left | .emptied => false
  | .cleared | .returned => true

/-- `passed` are the calls that have found the application running, `cmd` and `ret` are what an `App::Send`
has read and will return, `dispatched` are the messages from connections that `App::DispatchMsg` has been
called with. -/
structure Shutdown (κ : Type) where
  mgr : EventConnManager κ
  state : AppState := .kRunning
  exec : ExitPc := .loop
  passed : κ → Bool := fun _ => false
  cmd : κ → Option Cmd := fun _ => none
  ret : κ → ℤ := fun _ => -1
  dispatched : List (Parcel (Origin κ)) := []

namespace Shutdown

inductive Label (κ : Type) where
  | check (k : κ) (type : ConnType) (msg : Msg)
  | alloc (k : κ)
  | call (k : κ)
  | main
  | event (n : ℕ)
  | answer (p : Parcel (Origin κ)) (m : Msg)
  | arrive (m : Msg)
  | exec
  | quit

variable {κ : Type}

/-- The message that the next step of the main loop hands to `App::DispatchMsg`. -/
def dispatching (s : EventConnManager κ) : List (Parcel (Origin κ)) :=
  match s.notify, s.deliveries, s.event, s.eventPc with
  | .ready, [], some n, .draining => (s.conns n).mailbox.send.take 1
  | _, _, _, _ => []

/-- The connection whose send queue the next step of the main loop clears. -/
def clearing (s : EventConnManager κ) : Option ℕ :=
  match s.notify, s.deliveries, s.event, s.eventPc with
  | .ready, [], some n, .clearing => some n
  | _, _, _, _ => none

/-- `EventManager::Clear`. -/
def clearEvents (s : EventConnManager κ) : EventConnManager κ :=
  { s with
    conns := fun n =>
      if s.evMgr.evs n = true then
        { s.conns n with channel := (s.conns n).channel.sendToOwner .kQuit }
      else s.conns n
    evMgr := {} }

def execStep (s : Shutdown κ) : Shutdown κ :=
  match s.exec with
  | .loop => { s with exec := .left }
  | .left => { s with mgr := { s.mgr with idleConn := [] }, exec := .emptied }
  | .emptied => { s with mgr := clearEvents s.mgr, exec := .cleared }
  | .cleared => { s with state := .kQuit, exec := .returned }
  | .returned => s

variable [DecidableEq κ]

def check (s : Shutdown κ) (k : κ) (type : ConnType) (msg : Msg) : Shutdown κ :=
  if s.state = .kRunning then
    { s with
      mgr := { s.mgr with calls := Function.update s.mgr.calls k { type := type, msg := msg } }
      passed := Function.update s.passed k true }
  else
    { s with
      mgr := { s.mgr with
        calls := Function.update s.mgr.calls k { type := type, msg := msg, pc := .returned none } } }

def callStep (b : Backend) (s : Shutdown κ) (k : κ) : Shutdown κ :=
  match (s.mgr.calls k).pc, (s.mgr.calls k).type with
  | .waiting n, .kSend =>
    { s with
      mgr := s.mgr.callStep k
      cmd := Function.update s.cmd k (s.mgr.conns n).channel.toOwner.head?
      ret := Function.update s.ret k b.recvRet }
  | _, _ => { s with mgr := s.mgr.callStep k }

/-- The store of a `Quit` may come at any time after its check. -/
def next (c : EventConnManager.Setting) (b : Backend) (s : Shutdown κ) : Label κ → Shutdown κ
  | .check k type msg => s.check k type msg
  | .alloc k => { s with mgr := s.mgr.alloc k (s.mgr.calls k).type (s.mgr.calls k).msg }
  | .call k => s.callStep b k
  | .main => { s with mgr := s.mgr.mainStep c, dispatched := s.dispatched ++ dispatching s.mgr }
  | .event n => { s with mgr := s.mgr.next c (.event n) }
  | .answer p m => { s with mgr := s.mgr.next c (.answer p m) }
  | .arrive m => { s with mgr := s.mgr.next c (.arrive m) }
  | .exec => s.execStep
  | .quit => { s with state := .kQuitting }

def enabled (s : Shutdown κ) : Label κ → Prop
  | .check k _ _ => (s.mgr.calls k).pc = .start ∧ s.passed k = false
  | .alloc k => (s.mgr.calls k).pc = .start ∧ s.passed k = true
  | .call k => s.mgr.enabled (.call k)
  | .main => s.exec = .loop ∧ s.mgr.enabled .main
  | .event n => s.exec = .loop ∧ s.mgr.enabled (.event n)
  | .answer p m => s.exec = .loop ∧ s.mgr.enabled (.answer p m)
  | .arrive m => s.exec = .loop ∧ s.mgr.enabled (.arrive m)
  | .exec => s.mgr.busy = false ∧ s.exec ≠ .returned
  | .quit => True

def system (c : EventConnManager.Setting) (b : Backend) : Transition.System (Shutdown κ) (Label κ) where
  enabled s l := s.enabled l
  next s l := s.next c b l

instance (c : EventConnManager.Setting) (b : Backend) (s : Shutdown κ) (l : Label κ) :
    Decidable ((system c b).enabled s l) :=
  match l with
  | .check k _ _ => inferInstanceAs (Decidable ((s.mgr.calls k).pc = .start ∧ s.passed k = false))
  | .alloc k => inferInstanceAs (Decidable ((s.mgr.calls k).pc = .start ∧ s.passed k = true))
  | .call k => inferInstanceAs (Decidable (s.mgr.enabled (.call k)))
  | .main => inferInstanceAs (Decidable (s.exec = .loop ∧ s.mgr.enabled .main))
  | .event n => inferInstanceAs (Decidable (s.exec = .loop ∧ s.mgr.enabled (.event n)))
  | .answer p m => inferInstanceAs (Decidable (s.exec = .loop ∧ s.mgr.enabled (.answer p m)))
  | .arrive m => inferInstanceAs (Decidable (s.exec = .loop ∧ s.mgr.enabled (.arrive m)))
  | .exec => inferInstanceAs (Decidable (s.mgr.busy = false ∧ s.exec ≠ .returned))
  | .quit => .isTrue trivial

def initial (sz : ℕ) : Shutdown κ where
  mgr := .initial sz

/-- No call that is about to wait takes its connection when all others have been told, and none takes a
connection that is still in a call's hands. -/
def InTime (s : Shutdown κ) : Label κ → Prop
  | .alloc k => ((s.mgr.calls k).msg.dst = "" ∨ s.exec.past = false) ∧
    ∀ n, s.mgr.idleConn.head? = some n → ∀ l, ¬ s.mgr.Holds l n
  | _ => True

instance [Fintype κ] (s : Shutdown κ) (l : Label κ) : Decidable (s.InTime l) :=
  match l with
  | .alloc k => match h : s.mgr.idleConn.head? with
    | none => decidable_of_iff ((s.mgr.calls k).msg.dst = "" ∨ s.exec.past = false)
      ⟨fun hTime => ⟨hTime, fun _ hn => nomatch h.symm.trans hn⟩, And.left⟩
    | some m => decidable_of_iff
        (((s.mgr.calls k).msg.dst = "" ∨ s.exec.past = false) ∧ ∀ l, ¬ s.mgr.Holds l m)
      ⟨fun ⟨hTime, hFree⟩ => ⟨hTime, fun _ hn => Option.some.inj (h.symm.trans hn) ▸ hFree⟩,
        fun ⟨hTime, hFree⟩ => ⟨hTime, hFree m h⟩⟩
  | .check .. | .call _ | .main | .event _ | .answer .. | .arrive _ | .exec | .quit => .isTrue trivial

/-- Once `Exec` has returned, whoever waits has a command to read. -/
def NoneStuck (s : Shutdown κ) : Prop :=
  s.exec = .returned → ∀ k n, (s.mgr.calls k).pc = .waiting n → (s.mgr.conns n).channel.toOwner ≠ []

end Shutdown

namespace EventConnManager

variable {κ : Type}

/-- A command is there, or the registration or a `Notify` will bring one. -/
def Promised (past : Bool) (s : EventConnManager κ) (n : ℕ) : Prop :=
  (s.conns n).channel.toOwner ≠ [] ∨ past = false ∧ (s.evMgr.evs n = true ∨ s.notify.releasing = some n)

structure Awaited (past : Bool) (s : EventConnManager κ) : Prop extends s.Sized where
  unique : ∀ k l n, s.Holds k n → s.Holds l n → k = l
  promised : ∀ k n, s.Holds k n → (s.calls k).pc.early = true → (s.calls k).msg.dst ≠ "" →
    s.Promised past n
  sent : ∀ k n, (s.calls k).pc = .queued n ∨ (s.calls k).pc = .waiting n → (s.calls k).msg.dst ≠ ""

variable {past : Bool} {s t : EventConnManager κ}

theorem Awaited.addEventConn (h : s.Awaited past) : s.addEventConn.Awaited past where
  toSized := h.toSized.addEventConn
  unique := h.unique
  promised k n hk hEarly hDst := by
    have hNe : n ≠ s.connSz := Nat.ne_of_lt (h.holds_lt k n hk)
    have hConn : s.addEventConn.conns n = s.conns n := Function.update_of_ne hNe ..
    rw [Promised, hConn]
    exact h.promised k n hk hEarly hDst
  sent := h.sent

theorem awaited_initial (sz : ℕ) : (initial sz : EventConnManager κ).Awaited past := by
  induction sz with
  | zero =>
    refine ⟨sized_initial 0, ?_, ?_, ?_⟩
    · rintro _ _ _ ⟨⟩
    · rintro _ _ ⟨⟩
    · rintro _ _ (⟨⟨⟩⟩ | ⟨⟨⟩⟩)
  | succ sz ih => exact ih.addEventConn

theorem Awaited.mainStep (h : s.Awaited past) (c : Setting) : (s.mainStep c).Awaited past := by
  have hFrame := mainStep_frame s c
  have hHolds : ∀ k n, (s.mainStep c).Holds k n ↔ s.Holds k n := fun k n => by
    rw [Holds, hFrame.calls, Holds]
  refine ⟨h.toSized.mainStep c, fun k l n hk hl => ?_, fun k n hk hEarly hDst => ?_,
    by rw [hFrame.calls]; exact h.sent⟩
  · exact h.unique k l n ((hHolds k n).mp hk) ((hHolds l n).mp hl)
  · rw [hFrame.calls] at hEarly hDst
    have hStep := mainStep_spec s c n
    obtain ⟨cmds, hCmds⟩ := hStep.toOwner
    obtain hSome | ⟨hPast, hReg | hReleasing⟩ := h.promised k n ((hHolds k n).mp hk) hEarly hDst
    · exact .inl (by rw [hCmds]; exact List.append_ne_nil_of_left_ne_nil hSome cmds)
    · obtain hSame | ⟨-, hReleasing⟩ := hStep.evs
      · exact .inr ⟨hPast, .inl (hSame.trans hReg)⟩
      · exact .inr ⟨hPast, .inr hReleasing⟩
    · obtain hStill | hTold := hStep.releasing hReleasing
      · exact .inr ⟨hPast, .inr hStill⟩
      · exact .inl hTold

theorem Awaited.of_same (h : s.Awaited past) (hConns : t.conns = s.conns) (hIdle : t.idleConn = s.idleConn)
    (hSz : t.connSz = s.connSz) (hEvs : t.evMgr = s.evMgr) (hCalls : t.calls = s.calls)
    (hNotify : t.notify = s.notify) : t.Awaited past := by
  have hHolds : ∀ k n, t.Holds k n ↔ s.Holds k n := fun k n => by rw [Holds, hCalls, Holds]
  refine ⟨h.toSized.of_same hIdle hSz hEvs hCalls hNotify, fun k l n hk hl => ?_, fun k n hk => ?_,
    by rw [hCalls]; exact h.sent⟩
  · exact h.unique k l n ((hHolds k n).mp hk) ((hHolds l n).mp hl)
  · rw [Promised, hCalls, hConns, hEvs, hNotify]
    exact h.promised k n ((hHolds k n).mp hk)

theorem Awaited.clearEvents (h : s.Awaited false) (hIdle : s.notify = .ready) :
    (Shutdown.clearEvents s).Awaited true := by
  refine ⟨⟨h.holds_lt, h.idle_lt, by rintro _ ⟨⟩, h.notify_lt⟩, h.unique,
    fun k n hk hEarly hDst => .inl ?_, h.sent⟩
  simp only [Shutdown.clearEvents]
  obtain hSome | ⟨-, hReg | hReleasing⟩ := h.promised k n hk hEarly hDst
  · split
    · exact List.append_ne_nil_of_left_ne_nil hSome [.kQuit]
    · exact hSome
  · rw [if_pos hReg]
    exact List.append_ne_nil_of_right_ne_nil _ (List.cons_ne_nil _ _)
  · rw [hIdle] at hReleasing
    cases hReleasing

variable [DecidableEq κ]

theorem Awaited.taken (h : t.Awaited past) {n : ℕ} {rest : List ℕ} {k : κ} {x : Call κ}
    (hIdle : t.idleConn = n :: rest) (hFree : ∀ l, ¬ t.Holds l n) (hPc : x.pc = .allocated n)
    (hTime : x.msg.dst = "" ∨ past = false) : (t.taken n rest k x).Awaited past := by
  refine ⟨h.toSized.taken hIdle hPc, fun l l' m hl hl' => ?_, fun l m hl hEarly hDst => ?_, fun l m hl => ?_⟩
  · obtain ⟨rfl, rfl⟩ | ⟨-, hOld⟩ := taken_holds hPc hl
    · obtain ⟨rfl, -⟩ | ⟨-, hOld'⟩ := taken_holds hPc hl'
      · rfl
      · exact absurd hOld' (hFree l')
    · obtain ⟨-, rfl⟩ | ⟨-, hOld'⟩ := taken_holds hPc hl'
      · exact absurd hOld (hFree l)
      · exact h.unique l l' m hOld hOld'
  · obtain ⟨rfl, rfl⟩ | ⟨hNe, hOld⟩ := taken_holds hPc hl
    · rw [taken_calls_self] at hDst
      exact .inr ⟨hTime.resolve_left hDst, .inl taken_evs_self⟩
    · rw [taken_calls_ne hNe] at hEarly hDst
      have hOther : m ≠ n := by
        rintro rfl
        exact hFree l hOld
      rw [Promised, taken_evs_ne hOther]
      exact h.promised l m hOld hEarly hDst
  · obtain rfl | hNe := eq_or_ne l k
    · rw [taken_calls_self, hPc] at hl
      obtain hl | hl := hl <;> cases hl
    · rw [taken_calls_ne hNe] at hl ⊢
      exact h.sent l m hl

theorem Awaited.setCall (h : t.Awaited past) {k : κ} {x : Call κ} (hNone : x.pc.conn = none) :
    ({ t with calls := Function.update t.calls k x } : EventConnManager κ).Awaited past := by
  refine ⟨h.toSized.setCall hNone, fun l l' m hl hl' => ?_, fun l m hl hEarly hDst => ?_, fun l m hl => ?_⟩
  · exact h.unique l l' m (holds_setCall hNone hl).2 (holds_setCall hNone hl').2
  · obtain ⟨hNe, hOld⟩ := holds_setCall hNone hl
    simp only [Function.update_of_ne hNe] at hEarly hDst
    exact h.promised l m hOld hEarly hDst
  · obtain rfl | hNe := eq_or_ne l k
    · simp only [Function.update_self] at hl
      obtain hl | hl := hl <;> rw [hl] at hNone <;> cases hNone
    · simp only [Function.update_of_ne hNe] at hl ⊢
      exact h.sent l m hl

theorem Awaited.alloc (h : s.Awaited past) (k : κ) {type : ConnType} {msg : Msg}
    (hTime : msg.dst = "" ∨ past = false) (hFree : ∀ n, s.idleConn.head? = some n → ∀ l, ¬ s.Holds l n) :
    (s.alloc k type msg).Awaited past := by
  obtain ⟨t, n, rest, hFrom, hIdle, hEq⟩ := s.alloc_cases k type msg
  have ht : t.Awaited past ∧ ∀ l, ¬ t.Holds l n := by
    obtain ⟨-, rfl⟩ | ⟨hNil, rfl⟩ := hFrom
    · exact ⟨h, hFree n (by rw [hIdle]; rfl)⟩
    · rw [EventConnManager.addEventConn, hNil] at hIdle
      obtain rfl : s.connSz = n := (List.cons.inj hIdle).1
      exact ⟨h.addEventConn, fun l hl => absurd (h.holds_lt l _ hl) (lt_irrefl _)⟩
  obtain ⟨-, hEq⟩ | ⟨-, hEq⟩ := hEq
  · rw [hEq]
    exact ht.1.taken hIdle ht.2 rfl hTime
  · rw [hEq]
    have hRest : ({ t with idleConn := rest } : EventConnManager κ).Awaited past :=
      ⟨ht.1.toSized.pop hIdle, ht.1.unique, ht.1.promised, ht.1.sent⟩
    exact hRest.setCall rfl

theorem Awaited.callStep (h : s.Awaited past) {k : κ} (hReady : s.ready k = true) :
    (s.callStep k).Awaited past := by
  obtain ⟨n, hHolds⟩ := holds_of_ready hReady
  have hFrame := callStep_frame hHolds
  have hAfter : ∀ l m, (s.callStep k).Holds l m → s.Holds l m := fun _ _ hl => holds_of_callStep hHolds hl
  refine ⟨h.toSized.callStep hReady, fun l l' m hl hl' => h.unique l l' m (hAfter l m hl) (hAfter l' m hl'),
    fun l m hl hEarly hDst => ?_, fun l m hl => ?_⟩
  · have hl' := hAfter l m hl
    rw [Promised, hFrame.notify]
    obtain rfl | hNe := eq_or_ne l k
    · obtain rfl : n = m := Option.some.inj (hHolds.symm.trans hl')
      obtain ⟨hOwner, hEvs⟩ := toOwner_of_callStep hHolds hEarly
      rw [hOwner, hEvs]
      exact h.promised l n hHolds (early_of_callStep hHolds hEarly).1 (hFrame.msg ▸ hDst)
    · have hOther : m ≠ n := by
        rintro rfl
        exact hNe (h.unique l k m hl' hHolds)
      rw [hFrame.others l hNe] at hEarly hDst
      rw [hFrame.conn m hOther]
      have hEvs : (s.callStep k).evMgr.evs m = s.evMgr.evs m := by
        obtain hEvs | ⟨-, -, hEvs⟩ := hFrame.evs
        · rw [hEvs]
        · rw [hEvs, Function.update_of_ne hOther]
      rw [hEvs]
      exact h.promised l m hl' hEarly hDst
  · obtain rfl | hNe := eq_or_ne l k
    · rw [hFrame.msg]
      obtain hPc | hPc := sent_of_callStep hHolds hl
      · exact hPc.2
      · exact h.sent l n (.inl hPc)
    · rw [hFrame.others l hNe] at hl ⊢
      exact h.sent l m hl

end EventConnManager

namespace Shutdown

variable {κ : Type} [DecidableEq κ]

theorem callStep_mgr (b : Backend) (s : Shutdown κ) (k : κ) :
    (s.callStep b k).mgr = s.mgr.callStep k ∧ (s.callStep b k).exec = s.exec := by
  unfold callStep
  split <;> exact ⟨rfl, rfl⟩

theorem awaited_next (c : EventConnManager.Setting) (b : Backend) (s : Shutdown κ) (l : Label κ)
    (h : s.mgr.Awaited s.exec.past) (hEn : s.enabled l) (hTime : s.InTime l) :
    (s.next c b l).mgr.Awaited (s.next c b l).exec.past := by
  cases l with
  | check k type msg =>
    simp only [next, check]
    split
    · exact h.setCall rfl
    · exact h.setCall rfl
  | alloc k => exact h.alloc k hTime.1 hTime.2
  | call k =>
    obtain ⟨hMgr, hExec⟩ := s.callStep_mgr b k
    simp only [next, hMgr, hExec]
    exact h.callStep hEn
  | main => exact h.mainStep c
  | event n => exact h.of_same rfl rfl rfl rfl rfl rfl
  | answer p m | arrive m => exact h.of_same rfl rfl rfl rfl rfl rfl
  | quit => exact h
  | exec =>
    simp only [next, execStep]
    cases hExec : s.exec with
    | loop | cleared =>
      rw [hExec] at h
      exact h
    | returned => exact absurd hExec hEn.2
    | left =>
      rw [hExec] at h
      exact ⟨⟨h.holds_lt, by rintro _ ⟨⟩, h.evs_lt, h.notify_lt⟩, h.unique, h.promised, h.sent⟩
    | emptied =>
      rw [hExec] at h
      refine h.clearEvents ?_
      have hBusy := hEn.1
      rw [EventConnManager.busy] at hBusy
      split at hBusy
      · assumption
      · cases hBusy

/-- Nobody is left waiting, as far as nobody takes a connection too late or out of another call's hands. -/
theorem noneStuck_visited (c : EventConnManager.Setting) (b : Backend) (sz : ℕ) (ls : List (Label κ))
    (h : (system c b).Runs (initial sz) ls)
    (hTime : ∀ p ∈ (system c b).steps (initial sz) ls, p.1.InTime p.2) :
    ∀ t ∈ (system c b).visited (initial sz) ls, t.NoneStuck := by
  intro t ht hReturned k n hWaiting
  have hAwaited : t.mgr.Awaited t.exec.past :=
    (system c b).inv_visited (I := fun s => s.mgr.Awaited s.exec.past)
      (fun s l hs hEn hOk => awaited_next c b s l hs hEn hOk) (EventConnManager.awaited_initial sz) h hTime t ht
  have hHolds : t.mgr.Holds k n := by rw [EventConnManager.Holds, hWaiting]; rfl
  have hEarly : (t.mgr.calls k).pc.early = true := by rw [hWaiting]; rfl
  obtain hSome | ⟨hPast, -⟩ := hAwaited.promised k n hHolds hEarly (hAwaited.sent k n (.inr hWaiting))
  · exact hSome
  · rw [hReturned] at hPast
    cases hPast

/-- A call that begins before the end of the loop. In the first run it has its connection in time. -/
def heldRun : List (Label Unit) :=
  [.check () .kSendReq { dst := "actor.a.1" }, .alloc (), .call (), .call (), .call (), .call (), .quit, .exec,
    .exec, .exec, .exec]

theorem noneStuck_visited_held :
    ((system {} .linux).exec (initial 1) heldRun).exec = .returned ∧
    ∀ t ∈ (system {} .linux).visited (initial 1) heldRun, t.NoneStuck :=
  ⟨by decide, noneStuck_visited {} .linux 1 heldRun (by decide) (by decide)⟩

def lateRun : List (Label Unit) :=
  [.check () .kSendReq { dst := "actor.a.1" }, .quit, .exec, .exec, .exec, .exec, .alloc (), .call (), .call (),
    .call (), .call ()]

/-- Here it has looked at the state in time, but gets its connection when `Exec` is over. -/
theorem late_call_stuck : (system {} .linux).Runs (initial 1) lateRun ∧
    ¬ ∀ t ∈ (system {} .linux).visited (initial 1) lateRun, t.NoneStuck := by
  refine ⟨by decide, fun hNone => ?_⟩
  have hLast := hNone _ ((system {} .linux).mem_visited_of_exec (initial 1) lateRun)
  have hSome := hLast (by decide) () 1 (by decide)
  exact hSome (by decide)

end Shutdown
end Myframe
