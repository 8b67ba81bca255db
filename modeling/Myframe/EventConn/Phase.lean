import Myframe.EventConn.System

/-! # The phases of a connection

A connection is held by at most one call. What its flags, its queues and its command channel may
look like depends on how far that call and a `Notify` for it have come.
-/
namespace Myframe
set_option autoImplicit false

variable {κ : Type}

namespace CallPc

def conn : CallPc κ → Option ℕ
  | .start | .returned _ => none
  | .allocated n | .typed n | .cleared n | .queued n | .waiting n | .woken n | .popped n _
  | .finished n _ | .unregistered n => some n

def early : CallPc κ → Bool
  | .allocated _ | .typed _ | .cleared _ | .queued _ | .waiting _ => true
  | .start | .woken _ | .popped .. | .finished .. | .unregistered _ | .returned _ => false

/-- The commands that an `App::Send` is owed. -/
def owed : CallPc κ → ℕ
  | .waiting _ => 1
  | .start | .allocated _ | .typed _ | .cleared _ | .queued _ | .woken _ | .popped .. | .finished ..
  | .unregistered _ | .returned _ => 0

/-- An `App::Send` deletes its connection from the event manager before it pushes it back. -/
def registered : CallPc κ → Bool
  | .unregistered _ => false
  | .start | .allocated _ | .typed _ | .cleared _ | .queued _ | .waiting _ | .woken _ | .popped ..
  | .finished .. | .returned _ => true

end CallPc

namespace Notify

/-- The connection that a `Notify` has made up its mind to release. -/
def serving : Notify κ → Option ℕ
  | .ready | .found .. => none
  | .checked n _ | .deleted n _ | .released n _ | .stored n => some n

end Notify

namespace EventConnManager

def Holds (s : EventConnManager κ) (k : κ) (n : ℕ) : Prop := (s.calls k).pc.conn = some n

instance (s : EventConnManager κ) (k : κ) (n : ℕ) : Decidable (s.Holds k n) :=
  inferInstanceAs (Decidable ((s.calls k).pc.conn = some n))

theorem Holds.eq {s : EventConnManager κ} {k : κ} {m n : ℕ} (h : s.Holds k n) {pc : CallPc κ}
    (hPc : (s.calls k).pc = pc) (hm : pc.conn = some m) : m = n := by
  rw [Holds, hPc, hm] at h
  exact Option.some.inj h

theorem not_holds {s : EventConnManager κ} {k : κ} {n : ℕ} {pc : CallPc κ} (hPc : (s.calls k).pc = pc)
    (hNone : pc.conn = none) : ¬ s.Holds k n := by
  rw [Holds, hPc, hNone]
  nofun

/-- The flags, the command queue of the owner and the receive queue of a connection. -/
structure At (s : EventConnManager κ) (n : ℕ) (registered idle : Bool) (toOwner : List Cmd)
    (recv : List (Parcel (Origin κ))) : Prop where
  registered : s.evMgr.evs n = registered
  idle : n ∈ s.idleConn ↔ idle = true
  toOwner : (s.conns n).channel.toOwner = toOwner
  recv : (s.conns n).mailbox.recv = recv

/-- A connection held by an `App::Send`: a `kRun` is on its way in one of the two directions while
the call waits and at no other time. -/
structure Sent (s : EventConnManager κ) (x : Call κ) (n : ℕ) : Prop where
  notServed : s.notify.serving ≠ some n
  place : ∃ toOwner, s.At n x.pc.registered false toOwner [] ∧
    (s.conns n).channel.toMain.count .kRun + toOwner.length = x.pc.owed
  typed : x.pc ≠ .allocated n → (s.conns n).connType = .kSend

/-- The message that a `Notify` gives to a call which has not read its command yet. -/
structure Chosen (R : Parcel (Origin κ) → Prop) (x : Call κ) (p : Parcel (Origin κ)) : Prop where
  fits : R p
  early : x.pc.early = true
  dst : x.msg.dst ≠ ""

/-- A connection held by an `App::SendRequest`, from its allocation to the end of the call. -/
inductive Asked (R : Parcel (Origin κ) → Prop) (s : EventConnManager κ) (x : Call κ) (n : ℕ) : Prop
  | untouched (hFree : s.notify.serving ≠ some n) (hAt : s.At n true false [] [])
      (hPc : x.pc.early = true ∨ x.pc = .finished n none ∧ x.msg.dst = "")
  | checked (p : Parcel (Origin κ)) (hNotify : s.notify = .checked n p) (hAt : s.At n true false [] [])
      (hChosen : Chosen R x p)
  | deleted (p : Parcel (Origin κ)) (hNotify : s.notify = .deleted n p) (hAt : s.At n false false [] [])
      (hChosen : Chosen R x p)
  | released (p : Parcel (Origin κ)) (hNotify : s.notify = .released n p) (hAt : s.At n false true [] [])
      (hChosen : Chosen R x p)
  | stored (p : Parcel (Origin κ)) (hNotify : s.notify = .stored n) (hAt : s.At n false true [] [p])
      (hChosen : Chosen R x p)
  | given (p : Parcel (Origin κ)) (hFree : s.notify.serving ≠ some n)
      (hAt : s.At n false true [.kIdle] [p]) (hChosen : Chosen R x p)
  | taken (p : Parcel (Origin κ)) (hFree : s.notify.serving ≠ some n) (hAt : s.At n false true [] [p])
      (hFits : R p) (hPc : x.pc = .woken n)
  | answered (p : Parcel (Origin κ)) (hFree : s.notify.serving ≠ some n)
      (hAt : s.At n false true [] []) (hFits : R p)
      (hPc : x.pc = .popped n p ∨ x.pc = .finished n (some p))

structure Unheld (s : EventConnManager κ) (n : ℕ) : Prop where
  notServed : s.notify.serving ≠ some n
  unregistered : n ∈ s.idleConn → s.evMgr.evs n = false
  toOwner : (s.conns n).channel.toOwner = []
  recv : (s.conns n).mailbox.recv = []
  toMain : (s.conns n).channel.toMain.count .kRun = 0

/-- `R k p` says that the message `p` may be given to the call `k`. -/
structure Proper (R : κ → Parcel (Origin κ) → Prop) (s : EventConnManager κ) (n : ℕ) : Prop where
  unique : ∀ k l, s.Holds k n → s.Holds l n → k = l
  sent : ∀ k, s.Holds k n → (s.calls k).type = .kSend → s.Sent (s.calls k) n
  asked : ∀ k, s.Holds k n → (s.calls k).type = .kSendReq →
    s.Asked (R k) (s.calls k) n ∧ (s.conns n).channel.toMain.count .kRun = 0
  unheld : (∀ k, ¬ s.Holds k n) → s.Unheld n
  found : ∀ p, s.notify = .found n p → s.evMgr.evs n = true ∨
    (s.conns n).connType = .kSend ∧ ∀ k, s.Holds k n → (s.calls k).type = .kSend

structure Sound (R : κ → Parcel (Origin κ) → Prop) (s : EventConnManager κ) : Prop where
  nodup : s.idleConn.Nodup
  idle_lt : ∀ n ∈ s.idleConn, n < s.connSz
  holds_lt : ∀ k n, s.Holds k n → n < s.connSz
  evs_lt : ∀ n, s.evMgr.evs n = true → n < s.connSz
  found_lt : ∀ n p, s.notify = .found n p → n < s.connSz
  returned : ∀ k p, (s.calls k).type = .kSendReq → (s.calls k).pc = .returned (some p) → R k p
  proper : ∀ n, s.Proper R n

/-- Nothing that concerns the connection is different. -/
structure SameAt (s t : EventConnManager κ) (n : ℕ) : Prop where
  connType : (t.conns n).connType = (s.conns n).connType
  recv : (t.conns n).mailbox.recv = (s.conns n).mailbox.recv
  toOwner : (t.conns n).channel.toOwner = (s.conns n).channel.toOwner
  toMain : (t.conns n).channel.toMain.count .kRun = (s.conns n).channel.toMain.count .kRun
  idle : n ∈ t.idleConn ↔ n ∈ s.idleConn
  evs : t.evMgr.evs n = s.evMgr.evs n
  calls : ∀ k, s.Holds k n ∨ t.Holds k n → t.calls k = s.calls k
  notify : t.notify = s.notify ∨ s.notify.serving ≠ some n ∧ t.notify.serving ≠ some n
  found : ∀ p, t.notify = .found n p → s.notify = .found n p ∨ s.evMgr.evs n = true

namespace SameAt

variable {s t : EventConnManager κ} {n : ℕ}

theorem holds (h : SameAt s t n) (k : κ) : t.Holds k n ↔ s.Holds k n := by
  constructor
  · intro hHolds
    rwa [Holds, ← h.calls k (.inr hHolds)]
  · intro hHolds
    rwa [Holds, h.calls k (.inl hHolds)]

theorem at_iff (h : SameAt s t n) {registered idle : Bool} {toOwner : List Cmd}
    {recv : List (Parcel (Origin κ))} (hAt : s.At n registered idle toOwner recv) :
    t.At n registered idle toOwner recv where
  registered := h.evs.trans hAt.registered
  idle := h.idle.trans hAt.idle
  toOwner := h.toOwner.trans hAt.toOwner
  recv := h.recv.trans hAt.recv

theorem serving (h : SameAt s t n) (hFree : s.notify.serving ≠ some n) : t.notify.serving ≠ some n := by
  obtain hEq | ⟨-, hNe⟩ := h.notify
  · rwa [hEq]
  · exact hNe

theorem notify_eq (h : SameAt s t n) {pc : Notify κ} (hNotify : s.notify = pc)
    (hServing : pc.serving = some n) : t.notify = pc := by
  obtain hEq | ⟨hNe, -⟩ := h.notify
  · rw [hEq, hNotify]
  · rw [hNotify] at hNe
    exact absurd hServing hNe

theorem asked (h : SameAt s t n) {R : Parcel (Origin κ) → Prop} {x : Call κ} (hAsked : s.Asked R x n) :
    t.Asked R x n := by
  cases hAsked with
  | untouched hFree hAt hPc => exact .untouched (h.serving hFree) (h.at_iff hAt) hPc
  | checked p hNotify hAt hChosen => exact .checked p (h.notify_eq hNotify rfl) (h.at_iff hAt) hChosen
  | deleted p hNotify hAt hChosen => exact .deleted p (h.notify_eq hNotify rfl) (h.at_iff hAt) hChosen
  | released p hNotify hAt hChosen => exact .released p (h.notify_eq hNotify rfl) (h.at_iff hAt) hChosen
  | stored p hNotify hAt hChosen => exact .stored p (h.notify_eq hNotify rfl) (h.at_iff hAt) hChosen
  | given p hFree hAt hChosen => exact .given p (h.serving hFree) (h.at_iff hAt) hChosen
  | taken p hFree hAt hFits hPc => exact .taken p (h.serving hFree) (h.at_iff hAt) hFits hPc
  | answered p hFree hAt hFits hPc => exact .answered p (h.serving hFree) (h.at_iff hAt) hFits hPc

theorem sent (h : SameAt s t n) {x : Call κ} (hSent : s.Sent x n) : t.Sent x n := by
  obtain ⟨hFree, ⟨toOwner, hAt, hCount⟩, hTyped⟩ := hSent
  exact ⟨h.serving hFree, ⟨toOwner, h.at_iff hAt, by rw [h.toMain, hCount]⟩,
    fun hPc => h.connType.trans (hTyped hPc)⟩

theorem proper (h : SameAt s t n) {R : κ → Parcel (Origin κ) → Prop} (hProper : s.Proper R n) :
    t.Proper R n where
  unique k l hk hl := hProper.unique k l ((h.holds k).mp hk) ((h.holds l).mp hl)
  sent k hk hType := by
    rw [h.calls k (.inr hk)] at hType ⊢
    exact h.sent (hProper.sent k ((h.holds k).mp hk) hType)
  asked k hk hType := by
    rw [h.calls k (.inr hk)] at hType ⊢
    obtain ⟨hAsked, hCount⟩ := hProper.asked k ((h.holds k).mp hk) hType
    exact ⟨h.asked hAsked, h.toMain.trans hCount⟩
  unheld hNone := by
    obtain ⟨hFree, hReg, hOwner, hRecv, hMain⟩ := hProper.unheld fun k hk => hNone k ((h.holds k).mpr hk)
    refine ⟨h.serving hFree, fun hIdle => ?_, h.toOwner.trans hOwner, h.recv.trans hRecv,
      h.toMain.trans hMain⟩
    rw [h.evs]
    exact hReg (h.idle.mp hIdle)
  found p hp := by
    rw [h.connType, h.evs]
    obtain hFound | hReg := h.found p hp
    · refine (hProper.found p hFound).imp_right fun ⟨hConn, hAll⟩ => ⟨hConn, fun k hk => ?_⟩
      rw [h.calls k (.inr hk)]
      exact hAll k ((h.holds k).mp hk)
    · exact .inl hReg

end SameAt

section Parts

variable (s : EventConnManager κ) (n : ℕ) (f : EventConn κ → EventConn κ)

@[simp] theorem mapConn_conns_self : (s.mapConn n f).conns n = f (s.conns n) :=
  Function.update_self ..

@[simp] theorem mapConn_idleConn : (s.mapConn n f).idleConn = s.idleConn := rfl

@[simp] theorem mapConn_evMgr : (s.mapConn n f).evMgr = s.evMgr := rfl

@[simp] theorem mapConn_notify : (s.mapConn n f).notify = s.notify := rfl

@[simp] theorem mapConn_connSz : (s.mapConn n f).connSz = s.connSz := rfl

@[simp] theorem mapConn_calls : (s.mapConn n f).calls = s.calls := rfl

theorem mapConn_conns_ne {m : ℕ} (h : m ≠ n) : (s.mapConn n f).conns m = s.conns m :=
  Function.update_of_ne h ..

variable [DecidableEq κ] (k : κ) (pc : CallPc κ)

@[simp] theorem setPc_calls_self : (s.setPc k pc).calls k = { s.calls k with pc := pc } :=
  Function.update_self ..

@[simp] theorem setPc_conns : (s.setPc k pc).conns = s.conns := rfl

@[simp] theorem setPc_idleConn : (s.setPc k pc).idleConn = s.idleConn := rfl

@[simp] theorem setPc_evMgr : (s.setPc k pc).evMgr = s.evMgr := rfl

@[simp] theorem setPc_notify : (s.setPc k pc).notify = s.notify := rfl

@[simp] theorem setPc_connSz : (s.setPc k pc).connSz = s.connSz := rfl

theorem setPc_calls_ne {l : κ} (h : l ≠ k) : (s.setPc k pc).calls l = s.calls l :=
  Function.update_of_ne h ..

end Parts

end EventConnManager
end Myframe
