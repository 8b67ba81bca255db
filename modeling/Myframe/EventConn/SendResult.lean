import Myframe.EventConn.Answers
import Myframe.EventConn.Turns

/-! # What `App::Send` reports -/
namespace Myframe
set_option autoImplicit false

variable {κ : Type}

namespace Shutdown

def Dispatched (s : Shutdown κ) (k : κ) : Prop := ∃ p ∈ s.dispatched, p.mark = .call k

theorem Dispatched.mono {s t : Shutdown κ} {k : κ} (h : s.Dispatched k) (hSub : s.dispatched ⊆ t.dispatched) :
    t.Dispatched k := by
  obtain ⟨p, hMem, hMark⟩ := h
  exact ⟨p, hSub hMem, hMark⟩

/-- An `App::Send` that has returned reports success only for a message that the main loop has dispatched,
and failure when it has read a `kQuit`. -/
def Truthful (s : Shutdown κ) : Prop :=
  ∀ k r, (s.mgr.calls k).type = .kSend → (s.mgr.calls k).msg.dst ≠ "" →
    (s.mgr.calls k).pc = .returned r →
    (s.ret k ≠ -1 → s.Dispatched k) ∧ (s.cmd k = some .kQuit → s.ret k = -1)

/-- The `clear()` that comes next does not take the message of this call. -/
def Keeps (s : Shutdown κ) (k : κ) : Prop :=
  ∀ n ∈ clearing s.mgr, s.mgr.Holds k n → ∀ p ∈ (s.mgr.conns n).mailbox.send, p.mark ≠ .call k

instance [DecidableEq κ] (s : Shutdown κ) (k : κ) : Decidable (s.Keeps k) :=
  inferInstanceAs (Decidable (∀ n ∈ clearing s.mgr, s.mgr.Holds k n →
    ∀ p ∈ (s.mgr.conns n).mailbox.send, p.mark ≠ .call k))

/-- `EventManager::Clear` comes when the answer is already there for every `App::Send` that has yet to read
one on a registered connection; no `clear()` takes the message of an `App::Send` in progress; the pool shares
no connection, and `Notify` releases none but those of requests in progress. -/
def Answered [DecidableEq κ] (s : Shutdown κ) : Label κ → Prop
  | .alloc k => s.mgr.Apart (fun _ _ => True) (.alloc k (s.mgr.calls k).type (s.mgr.calls k).msg)
  | .main => s.mgr.Apart (fun _ _ => True) .main ∧ ∀ k, (s.mgr.calls k).type = .kSend → s.Keeps k
  | .exec => s.exec = .emptied → ∀ k, ∀ n ∈ (s.mgr.calls k).pc.conn, (s.mgr.calls k).type = .kSend →
    (s.mgr.calls k).msg.dst ≠ "" → (s.mgr.calls k).pc.early = true → s.mgr.evMgr.evs n = true →
    (s.mgr.conns n).channel.toOwner ≠ []
  | _ => True

instance [DecidableEq κ] [Fintype κ] (s : Shutdown κ) (l : Label κ) : Decidable (s.Answered l) :=
  match l with
  | .alloc k => inferInstanceAs (Decidable
      (s.mgr.Apart (fun _ _ => True) (.alloc k (s.mgr.calls k).type (s.mgr.calls k).msg)))
  | .main => inferInstanceAs (Decidable
      (s.mgr.Apart (fun _ _ => True) .main ∧ ∀ k, (s.mgr.calls k).type = .kSend → s.Keeps k))
  | .exec => inferInstanceAs (Decidable (s.exec = .emptied →
      ∀ k, ∀ n ∈ (s.mgr.calls k).pc.conn, (s.mgr.calls k).type = .kSend →
        (s.mgr.calls k).msg.dst ≠ "" → (s.mgr.calls k).pc.early = true → s.mgr.evMgr.evs n = true →
        (s.mgr.conns n).channel.toOwner ≠ []))
  | .check .. | .call _ | .event _ | .answer .. | .arrive _ | .quit => .isTrue trivial

end Shutdown

namespace EventConnManager

theorem processEventConn_toOwner (s : EventConnManager κ) (c : Setting) (m n : ℕ) :
    ((s.processEventConn c m).conns n).channel.toOwner = (s.conns n).channel.toOwner ∨
      m = n ∧ s.eventPc = .receiving ∧ (s.conns n).channel.toMain.head? = some .kRun ∧
        ((s.processEventConn c m).conns n).channel.toOwner = (s.conns n).channel.toOwner ++ [.kIdle] := by
  have hSend := fun send => congrArg CmdChannel.toOwner (s.setSend_channel m n send)
  unfold EventConnManager.processEventConn
  split
  · split
    · next p rest _ => exact .inl (hSend rest)
    · exact .inl rfl
  · exact .inl (hSend [])
  · next hPc =>
    obtain hSame | ⟨hEq, hRun, hTold⟩ := s.receive_toOwner m n
    · exact .inl hSame
    · exact .inr ⟨hEq, hPc, hRun, hTold⟩

theorem mainStep_toOwner (s : EventConnManager κ) (c : Setting) {n : ℕ} (hFree : s.notify.serving ≠ some n) :
    ((s.mainStep c).conns n).channel.toOwner = (s.conns n).channel.toOwner ∨
      s.event = some n ∧ s.eventPc = .receiving ∧ (s.conns n).channel.toMain.head? = some .kRun ∧
        ((s.mainStep c).conns n).channel.toOwner = (s.conns n).channel.toOwner ++ [.kIdle] := by
  unfold EventConnManager.mainStep
  split
  · split
    · next d p rest _ =>
      cases d with
      | actor name | worker name => exact .inl rfl
      | conn name =>
        simp only [EventConnManager.deliver]
        split
        · exact .inl rfl
        · split <;> exact .inl rfl
    · split
      · exact .inl rfl
      · next m hEvent =>
        obtain hSame | ⟨rfl, hPc, hRun, hTold⟩ := s.processEventConn_toOwner c m n
        · exact .inl hSame
        · exact .inr ⟨hEvent, hPc, hRun, hTold⟩
  · next pc hPc =>
    cases hNotify : s.notify with
    | ready | deleted m p => exact .inl rfl
    | found m p | checked m p =>
      rw [notifyStep]
      split <;> exact .inl rfl
    | released m p | stored m =>
      have hNe : n ≠ m := by
        rintro rfl
        rw [hNotify] at hFree
        exact hFree rfl
      left
      simp only [notifyStep, mapConn_conns_ne _ _ _ hNe]

variable [DecidableEq κ]

theorem waiting_of_callStep {s : EventConnManager κ} {k : κ} {n : ℕ} (hHolds : s.Holds k n)
    (hBefore : (s.calls k).pc.early = true) (hAfter : ((s.callStep k).calls k).pc.early = false) :
    (s.calls k).pc = .waiting n ∨ (s.calls k).msg.dst = "" := by
  by_cases hWaiting : (s.calls k).pc = .waiting n
  · exact .inl hWaiting
  · refine .inr (by_contra fun hDst => ?_)
    have hStill := (early_callStep hHolds hBefore (fun _ => hDst) hWaiting).1
    exact Bool.false_ne_true (hAfter.symm.trans hStill)

theorem place_of_callStep {s : EventConnManager κ} {k : κ} {n : ℕ} (hHolds : s.Holds k n)
    (hType : (s.calls k).type = .kSend)
    (hPlace : s.evMgr.evs n = true ∨ (s.calls k).pc = .unregistered n →
      (s.conns n).channel.toOwner.length ≤ (s.calls k).pc.owed)
    (hReg : (s.callStep k).evMgr.evs n = true ∨ ((s.callStep k).calls k).pc = .unregistered n) :
    ((s.callStep k).conns n).channel.toOwner.length ≤ ((s.callStep k).calls k).pc.owed := by
  cases hPc : (s.calls k).pc with
  | start | returned r => exact absurd hHolds (not_holds hPc rfl)
  | allocated m | typed m | queued m | popped m p =>
    obtain rfl : m = n := hHolds.eq hPc rfl
    rw [hPc] at hPlace
    simp only [callStep, hPc] at hReg ⊢
    have hLength := hPlace (.inl (by simpa using hReg))
    simp [CallPc.owed] at hLength ⊢
    simp [hLength]
  | cleared m =>
    obtain rfl : m = n := hHolds.eq hPc rfl
    rw [hPc] at hPlace
    simp only [callStep, hPc] at hReg ⊢
    split
    · next hDst =>
      have hLength := hPlace (.inl (by simpa [hDst] using hReg))
      simpa [CallPc.owed] using hLength
    · next hDst =>
      have hLength := hPlace (.inl (by simpa [hDst] using hReg))
      simpa [CallPc.owed] using hLength
  | woken m =>
    obtain rfl : m = n := hHolds.eq hPc rfl
    rw [hPc] at hPlace
    simp only [callStep, hPc] at hReg ⊢
    split at hReg
    · have hLength := hPlace (.inl (by simpa using hReg))
      simpa [CallPc.owed] using hLength
    · have hLength := hPlace (.inl (by simpa using hReg))
      simpa [CallPc.owed] using hLength
  | waiting m =>
    obtain rfl : m = n := hHolds.eq hPc rfl
    rw [hPc] at hPlace
    simp only [callStep, hPc, hType] at hReg ⊢
    have hLength := hPlace (.inl (by simpa using hReg))
    simp [CallPc.owed] at hLength ⊢
    omega
  | finished m r =>
    obtain rfl : m = n := hHolds.eq hPc rfl
    rw [hPc] at hPlace
    simp only [callStep, hPc, hType] at hReg ⊢
    split at hReg
    · next hOld =>
      have hLength := hPlace (.inl hOld)
      simpa [hOld, CallPc.owed] using hLength
    · next hOld =>
      simp [hOld] at hReg
  | unregistered m =>
    obtain rfl : m = n := hHolds.eq hPc rfl
    have hLength := hPlace (.inr hPc)
    rw [hPc] at hLength
    simpa [callStep, hPc, CallPc.owed] using hLength

theorem gone_of_callStep {s : EventConnManager κ} {k : κ} {m n : ℕ} (hHolds : s.Holds k n)
    (hPc' : ((s.callStep k).calls k).pc = .unregistered m) :
    (s.calls k).type = .kSend ∧ (s.callStep k).evMgr.evs m = false := by
  cases hPc : (s.calls k).pc with
  | start | returned r => exact absurd hHolds (not_holds hPc rfl)
  | allocated v | typed v | queued v | popped v p | unregistered v =>
    simp [callStep, hPc] at hPc'
  | waiting v => cases hType : (s.calls k).type <;> simp [callStep, hPc, hType] at hPc'
  | cleared v | woken v =>
    simp only [callStep, hPc] at hPc'
    split at hPc' <;> simp at hPc'
  | finished v r =>
    simp only [callStep, hPc] at hPc' ⊢
    cases hType : (s.calls k).type with
    | kSendReq => simp [hType] at hPc'
    | kSend =>
      simp only [hType] at hPc'
      split at hPc'
      · next hReg =>
        simp only [setPc_calls_self, CallPc.unregistered.injEq] at hPc'
        subst hPc'
        simp [hReg]
      · simp at hPc'

theorem Sound.setCall {R : κ → Parcel (Origin κ) → Prop} {s : EventConnManager κ} (h : s.Sound R) {k : κ}
    {x : Call κ} (hStart : (s.calls k).pc = .start) (hPc : x.pc = .start ∨ x.pc = .returned none) :
    ({ s with calls := Function.update s.calls k x } : EventConnManager κ).Sound R := by
  have hNone : x.pc.conn = none := by obtain hPc | hPc := hPc <;> rw [hPc] <;> rfl
  have hOther : ∀ l m, s.Holds l m ∨
      ({ s with calls := Function.update s.calls k x } : EventConnManager κ).Holds l m → l ≠ k := by
    rintro l m hl rfl
    obtain hl | hl := hl
    · exact not_holds hStart rfl hl
    · simp only [Holds, Function.update_self, hNone] at hl
      cases hl
  refine ⟨h.nodup, h.idle_lt, fun l m hl => ?_, h.evs_lt, h.found_lt, fun l p hType hRet => ?_, fun m => ?_⟩
  · have hNe := hOther l m (.inr hl)
    simp only [Holds, Function.update_of_ne hNe] at hl
    exact h.holds_lt l m hl
  · obtain rfl | hNe := eq_or_ne l k
    · simp only [Function.update_self] at hRet
      obtain hPc | hPc := hPc <;> rw [hPc] at hRet <;> cases hRet
    · simp only [Function.update_of_ne hNe] at hType hRet
      exact h.returned l p hType hRet
  · refine SameAt.proper ?_ (h.proper m)
    exact ⟨rfl, rfl, rfl, rfl, .rfl, rfl, fun l hl => Function.update_of_ne (hOther l m hl) .., .inl rfl,
      fun _ hp => .inl hp⟩

end EventConnManager

namespace Shutdown

variable [DecidableEq κ]

/-- What an `App::Send` finds on its connection is the answer to its dispatched message. -/
structure HonestAt (s : Shutdown κ) (k : κ) : Prop where
  fresh : (s.mgr.calls k).pc = .start ∨ (s.mgr.calls k).pc.early = true → s.ret k = -1
  sends : ∀ n, s.mgr.Holds k n → (s.mgr.calls k).type = .kSend → (s.mgr.calls k).msg.dst ≠ "" →
    (s.mgr.calls k).pc.early = true →
    (s.mgr.conns n).channel.toOwner = [] ∨
      (s.mgr.conns n).channel.toOwner.head? = some .kIdle ∧ s.Dispatched k
  done : (s.mgr.calls k).type = .kSend → (s.mgr.calls k).msg.dst ≠ "" → (s.mgr.calls k).pc ≠ .start →
    (s.mgr.calls k).pc.early = false → s.ret k = -1 ∨ s.Dispatched k ∧ s.cmd k ≠ some .kQuit

structure Honest (s : Shutdown κ) : Prop where
  unique : ∀ k l n, s.mgr.Holds k n → s.mgr.Holds l n → k = l
  each : ∀ k, s.HonestAt k

omit [DecidableEq κ] in
theorem Honest.truthful {s : Shutdown κ} (h : s.Honest) : s.Truthful := by
  intro k r hType hDst hReturned
  obtain hRet | ⟨hDispatched, hCmd⟩ :=
    (h.each k).done hType hDst (by rw [hReturned]; rintro ⟨⟩) (by rw [hReturned]; rfl)
  · exact ⟨fun hNe => absurd hRet hNe, fun _ => hRet⟩
  · exact ⟨fun _ => hDispatched, fun hQuit => absurd hQuit hCmd⟩

omit [DecidableEq κ] in
theorem HonestAt.congr {s t : Shutdown κ} {k : κ} (h : s.HonestAt k) (hCall : t.mgr.calls k = s.mgr.calls k)
    (hOwner : ∀ n, s.mgr.Holds k n →
      (t.mgr.conns n).channel.toOwner = (s.mgr.conns n).channel.toOwner)
    (hRet : t.ret k = s.ret k) (hCmd : t.cmd k = s.cmd k) (hDispatched : s.dispatched ⊆ t.dispatched) :
    t.HonestAt k := by
  have hStill : s.Dispatched k → t.Dispatched k := fun hDone => hDone.mono hDispatched
  refine ⟨?_, fun n hn => ?_, ?_⟩
  · rw [hCall, hRet]
    exact h.fresh
  · have hHolds : s.mgr.Holds k n := by rwa [EventConnManager.Holds, ← hCall]
    rw [hCall, hOwner n hHolds]
    exact fun hType hDst hEarly => (h.sends n hHolds hType hDst hEarly).imp_right (And.imp_right hStill)
  · rw [hCall, hRet, hCmd]
    exact fun hType hDst hNot hLate => (h.done hType hDst hNot hLate).imp_right (And.imp_left hStill)

section CallStep

variable (b : Backend) (s : Shutdown κ) {k l : κ}

theorem callStep_dispatched : (s.callStep b k).dispatched = s.dispatched := by
  unfold callStep
  split <;> rfl

theorem callStep_other (hNe : l ≠ k) :
    (s.callStep b k).ret l = s.ret l ∧ (s.callStep b k).cmd l = s.cmd l := by
  unfold callStep
  split
  · exact ⟨Function.update_of_ne hNe .., Function.update_of_ne hNe ..⟩
  · exact ⟨rfl, rfl⟩

theorem callStep_own (hPc : ∀ n, (s.mgr.calls k).pc ≠ .waiting n) :
    (s.callStep b k).ret k = s.ret k ∧ (s.callStep b k).cmd k = s.cmd k := by
  unfold callStep
  split
  · next n hWaiting _ => exact absurd hWaiting (hPc n)
  · exact ⟨rfl, rfl⟩

theorem callStep_waiting {n : ℕ} (hPc : (s.mgr.calls k).pc = .waiting n)
    (hType : (s.mgr.calls k).type = .kSend) :
    (s.callStep b k).cmd k = (s.mgr.conns n).channel.toOwner.head? := by
  simp only [callStep, hPc, hType, Function.update_self]

end CallStep

theorem Honest.callStep {s : Shutdown κ} (h : s.Honest) (b : Backend) {k : κ}
    (hReady : s.mgr.ready k = true) : (s.callStep b k).Honest := by
  obtain ⟨n, hHolds⟩ := EventConnManager.holds_of_ready hReady
  have hFrame := EventConnManager.callStep_frame hHolds
  obtain ⟨hMgr, -⟩ := s.callStep_mgr b k
  have hSub : s.dispatched ⊆ (s.callStep b k).dispatched := by rw [callStep_dispatched]; exact .refl _
  have hStill : s.Dispatched k → (s.callStep b k).Dispatched k := fun hDone => hDone.mono hSub
  constructor
  · intro l l' m hl hl'
    rw [hMgr] at hl hl'
    exact h.unique l l' m (EventConnManager.holds_of_callStep hHolds hl)
      (EventConnManager.holds_of_callStep hHolds hl')
  · intro l
    obtain rfl | hNe := eq_or_ne l k
    · -- the call has not got past its wait in this step
      have hKept : ((s.mgr.callStep l).calls l).pc.early = true ∨ (s.mgr.calls l).pc.early = false →
          (s.callStep b l).ret l = s.ret l ∧ (s.callStep b l).cmd l = s.cmd l := by
        intro hEarly
        refine s.callStep_own b fun m hWaiting => ?_
        obtain rfl := hHolds.eq hWaiting rfl
        obtain hEarly | hEarly := hEarly
        · exact (EventConnManager.early_of_callStep hHolds hEarly).2.1 hWaiting
        · rw [hWaiting] at hEarly
          cases hEarly
      refine ⟨fun hPc => ?_, fun m hm hType hDst hEarly => ?_, fun hType hDst _ hLate => ?_⟩
      · rw [hMgr] at hPc
        have hEarly := hPc.resolve_left (EventConnManager.callStep_started hHolds)
        rw [(hKept (.inl hEarly)).1]
        exact (h.each l).fresh (.inr (EventConnManager.early_of_callStep hHolds hEarly).1)
      · rw [hMgr] at hm hType hDst hEarly ⊢
        obtain rfl : n = m := Option.some.inj (hHolds.symm.trans (EventConnManager.holds_of_callStep hHolds hm))
        rw [hFrame.type] at hType
        rw [hFrame.msg] at hDst
        rw [(EventConnManager.toOwner_of_callStep hHolds hEarly).1]
        have hBefore := (EventConnManager.early_of_callStep hHolds hEarly).1
        exact ((h.each l).sends n hHolds hType hDst hBefore).imp_right (And.imp_right hStill)
      · rw [hMgr] at hType hDst hLate
        rw [hFrame.type] at hType
        rw [hFrame.msg] at hDst
        cases hBefore : (s.mgr.calls l).pc.early with
        | false =>
          have hStarted : (s.mgr.calls l).pc ≠ .start := fun hStart =>
            EventConnManager.not_holds hStart rfl hHolds
          rw [(hKept (.inr hBefore)).1, (hKept (.inr hBefore)).2]
          exact ((h.each l).done hType hDst hStarted hBefore).imp_right (And.imp_left hStill)
        | true =>
          have hWaiting := (EventConnManager.waiting_of_callStep hHolds hBefore hLate).resolve_right hDst
          obtain hNone | ⟨hHead, hDone⟩ := (h.each l).sends n hHolds hType hDst hBefore
          · exact absurd hWaiting (EventConnManager.not_waiting hReady hNone)
          · refine .inr ⟨hStill hDone, ?_⟩
            rw [s.callStep_waiting b hWaiting hType, hHead]
            rintro ⟨⟩
    · refine (h.each l).congr ?_ (fun m hm => ?_) (s.callStep_other b hNe).1 (s.callStep_other b hNe).2 hSub
      · rw [hMgr, hFrame.others l hNe]
      · have hOther : m ≠ n := by
          rintro rfl
          exact hNe (h.unique l k m hm hHolds)
        rw [hMgr, hFrame.conn m hOther]

theorem Honest.setCall {s t : Shutdown κ} (h : s.Honest) {k : κ} {x : Call κ}
    (hStart : (s.mgr.calls k).pc = .start) (hPc : x.pc = .start ∨ x.pc = .returned none)
    (hCalls : t.mgr.calls = Function.update s.mgr.calls k x)
    (hOwner : ∀ l n, s.mgr.Holds l n → t.mgr.conns n = s.mgr.conns n) (hRet : t.ret = s.ret)
    (hCmd : t.cmd = s.cmd) (hDispatched : t.dispatched = s.dispatched) : t.Honest := by
  have hOther : ∀ l n, t.mgr.Holds l n → l ≠ k ∧ s.mgr.Holds l n := by
    intro l n hl
    rw [EventConnManager.Holds, hCalls] at hl
    obtain rfl | hNe := eq_or_ne l k
    · rw [Function.update_self] at hl
      obtain hPc | hPc := hPc <;> rw [hPc] at hl <;> cases hl
    · rw [Function.update_of_ne hNe] at hl
      exact ⟨hNe, hl⟩
  refine ⟨fun l l' n hl hl' => h.unique l l' n (hOther l n hl).2 (hOther l' n hl').2, fun l => ?_⟩
  obtain rfl | hNe := eq_or_ne l k
  · have hFresh : t.ret l = -1 := by
      rw [hRet]
      exact (h.each l).fresh (.inl hStart)
    exact ⟨fun _ => hFresh, fun n hn => absurd rfl (hOther l n hn).1, fun _ _ _ _ => .inl hFresh⟩
  · refine (h.each l).congr ?_ (fun n hn => by rw [hOwner l n hn]) (by rw [hRet]) (by rw [hCmd])
      (by rw [hDispatched]; exact .refl _)
    rw [hCalls, Function.update_of_ne hNe]

theorem Honest.taken {s : Shutdown κ} (h : s.Honest) {t : EventConnManager κ} {n : ℕ} {rest : List ℕ} {k : κ}
    {x : Call κ} (hCalls : t.calls = s.mgr.calls)
    (hConns : ∀ l m, s.mgr.Holds l m → t.conns m = s.mgr.conns m) (hFree : ∀ l, ¬ t.Holds l n)
    (hOwner : (t.conns n).channel.toOwner = []) (hPc : x.pc = .allocated n)
    (hStart : (s.mgr.calls k).pc = .start) : ({ s with mgr := t.taken n rest k x } : Shutdown κ).Honest := by
  have hHolds : ∀ l m, t.Holds l m ↔ s.mgr.Holds l m := fun l m => by
    rw [EventConnManager.Holds, hCalls, EventConnManager.Holds]
  constructor
  · intro l l' m hl hl'
    obtain ⟨rfl, rfl⟩ | ⟨-, hOld⟩ := EventConnManager.taken_holds hPc hl
    · obtain ⟨rfl, -⟩ | ⟨-, hOld'⟩ := EventConnManager.taken_holds hPc hl'
      · rfl
      · exact absurd hOld' (hFree l')
    · obtain ⟨-, rfl⟩ | ⟨-, hOld'⟩ := EventConnManager.taken_holds hPc hl'
      · exact absurd hOld (hFree l)
      · exact h.unique l l' m ((hHolds l m).mp hOld) ((hHolds l' m).mp hOld')
  · intro l
    obtain rfl | hNe := eq_or_ne l k
    · have hFresh : s.ret l = -1 := (h.each l).fresh (.inl hStart)
      refine ⟨fun _ => hFresh, fun m hm _ _ _ => .inl ?_, fun _ _ _ _ => .inl hFresh⟩
      obtain ⟨-, rfl⟩ | ⟨hNe, -⟩ := EventConnManager.taken_holds hPc hm
      · exact hOwner
      · exact absurd rfl hNe
    · refine (h.each l).congr ?_ (fun m hm => ?_) rfl rfl (.refl _)
      · rw [← hCalls]
        exact EventConnManager.taken_calls_ne hNe
      · exact congrArg (fun x => x.channel.toOwner) (hConns l m hm)

/-- A message stays posted until it is dispatched. The command that announces it may stand first while an
event is processed, but only if the message was there before the loop over the send queue has ended. -/
structure Looping (s : Shutdown κ) : Prop where
  sound : s.mgr.Sound fun _ _ => True
  posted : ∀ k n, s.mgr.Holds k n → (s.mgr.calls k).type = .kSend →
    (s.mgr.calls k).pc = .queued n ∨
      (s.mgr.calls k).pc = .waiting n ∧ 0 < (s.mgr.conns n).channel.toMain.count .kRun →
    (∃ p ∈ (s.mgr.conns n).mailbox.send, p.mark = .call k) ∨ s.Dispatched k
  drained : ∀ k n, s.mgr.Holds k n → (s.mgr.calls k).type = .kSend → s.mgr.event = some n →
    s.mgr.eventPc ≠ .draining → (s.mgr.conns n).channel.toMain.head? = some .kRun → s.Dispatched k

omit [DecidableEq κ] in
theorem Looping.waiting {s : Shutdown κ} (h : s.Looping) {k : κ} {n : ℕ} (hHolds : s.mgr.Holds k n)
    (hType : (s.mgr.calls k).type = .kSend) (hRun : (s.mgr.conns n).channel.toMain.head? = some .kRun) :
    ((s.mgr.calls k).pc = .waiting n ∧ 0 < (s.mgr.conns n).channel.toMain.count .kRun) ∧
      (s.mgr.conns n).channel.toOwner = [] := by
  obtain ⟨-, ⟨toOwner, hAt, hCount⟩, -⟩ := (h.sound.proper n).sent k hHolds hType
  have hPos : 0 < (s.mgr.conns n).channel.toMain.count .kRun := List.count_pos_iff.mpr (List.mem_of_head? hRun)
  have hWaiting : (s.mgr.calls k).pc = .waiting n := by
    cases hPc : (s.mgr.calls k).pc with
    | waiting m => rw [hHolds.eq hPc rfl]
    | start | allocated | typed | cleared | queued | woken | popped | finished | unregistered | returned =>
      rw [hPc, CallPc.owed] at hCount
      omega
  rw [hWaiting] at hCount
  have hOwed : CallPc.owed (.waiting n : CallPc κ) = 1 := rfl
  have hEmpty : toOwner.length = 0 := by omega
  exact ⟨⟨hWaiting, hPos⟩, hAt.toOwner.trans (List.eq_nil_of_length_eq_zero hEmpty)⟩

omit [DecidableEq κ] in
theorem Honest.mainStep {s : Shutdown κ} (h : s.Honest) (hLoop : s.Looping)
    (c : EventConnManager.Setting) : ({ s with
      mgr := s.mgr.mainStep c
      dispatched := s.dispatched ++ dispatching s.mgr } : Shutdown κ).Honest := by
  have hCalls := (EventConnManager.mainStep_frame s.mgr c).calls
  have hHolds : ∀ k n, (s.mgr.mainStep c).Holds k n ↔ s.mgr.Holds k n := fun k n => by
    rw [EventConnManager.Holds, hCalls, EventConnManager.Holds]
  have hStill : ∀ k, s.Dispatched k → ({ s with
      mgr := s.mgr.mainStep c
      dispatched := s.dispatched ++ dispatching s.mgr } : Shutdown κ).Dispatched k :=
    fun k hDone => hDone.mono (List.subset_append_left ..)
  refine ⟨fun k l n hk hl => h.unique k l n ((hHolds k n).mp hk) ((hHolds l n).mp hl), fun k => ?_⟩
  refine ⟨?_, fun n hn => ?_, ?_⟩
  · simp only [hCalls]
    exact (h.each k).fresh
  · replace hn := (hHolds k n).mp hn
    simp only [hCalls]
    intro hType hDst hEarly
    have hFree := ((hLoop.sound.proper n).sent k hn hType).notServed
    obtain hSame | ⟨hEvent, hPc, hRun, hTold⟩ := EventConnManager.mainStep_toOwner s.mgr c hFree
    · rw [hSame]
      exact ((h.each k).sends n hn hType hDst hEarly).imp_right (And.imp_right (hStill k))
    · have hDone := hLoop.drained k n hn hType hEvent (by rw [hPc]; rintro ⟨⟩) hRun
      rw [hTold, (hLoop.waiting hn hType hRun).2]
      exact .inr ⟨rfl, hStill k hDone⟩
  · simp only [hCalls]
    exact fun hType hDst hNot hLate =>
      ((h.each k).done hType hDst hNot hLate).imp_right (And.imp_left (hStill k))

omit [DecidableEq κ] in
/-- A message that the call has posted waits to be sent until it is dispatched, where no `clear()` erases it. -/
theorem mainStep_keeps {s : Shutdown κ} (c : EventConnManager.Setting) (hBusy : s.mgr.busy = true) {k : κ} {n : ℕ}
    (hKeeps : s.Keeps k) (hHolds : s.mgr.Holds k n)
    (h : (∃ p ∈ (s.mgr.conns n).mailbox.send, p.mark = .call k) ∨ s.Dispatched k) :
    (∃ p ∈ ((s.mgr.mainStep c).conns n).mailbox.send, p.mark = .call k) ∨
      ∃ p ∈ s.dispatched ++ dispatching s.mgr, p.mark = .call k := by
  obtain ⟨p, hMem, hMark⟩ | ⟨p, hMem, hMark⟩ := h
  · cases EventConnManager.mainStep_turn c hBusy with
    | notified hPosts _ _ _ _ _ | delivered _ hPosts _ _ _ _ | drained _ _ hPosts _ _ _ _ =>
      exact .inl ⟨p, by rwa [hPosts.send], hMark⟩
    | received _ _ _ hSend _ _ _ _ => exact .inl ⟨p, by rwa [hSend], hMark⟩
    | sent m q _ hOne hOwn hOther _ _ _ =>
      obtain rfl | hNe := eq_or_ne n m
      · rw [hOwn] at hMem
        obtain rfl | hMem := List.mem_cons.mp hMem
        · exact .inr ⟨p, List.mem_append_right _ (by rw [hOne]; exact List.mem_singleton_self p), hMark⟩
        · exact .inl ⟨p, hMem, hMark⟩
      · exact .inl ⟨p, by rwa [hOther n hNe], hMark⟩
    | cleared m _ _ hClearing _ hOther _ _ _ =>
      obtain rfl | hNe := eq_or_ne n m
      · exact absurd hMark (hKeeps n hClearing hHolds p hMem)
      · exact .inl ⟨p, by rwa [hOther n hNe], hMark⟩
  · exact .inr ⟨p, List.mem_append_left _ hMem, hMark⟩

omit [DecidableEq κ] in
theorem Looping.mainStep_posted {s : Shutdown κ} (h : s.Looping) (c : EventConnManager.Setting)
    (hBusy : s.mgr.busy = true) {k : κ} {n : ℕ} (hKeeps : s.Keeps k) (hHolds : s.mgr.Holds k n)
    (hType : (s.mgr.calls k).type = .kSend)
    (hPc : (s.mgr.calls k).pc = .queued n ∨
      (s.mgr.calls k).pc = .waiting n ∧ 0 < ((s.mgr.mainStep c).conns n).channel.toMain.count .kRun) :
    (∃ p ∈ ((s.mgr.mainStep c).conns n).mailbox.send, p.mark = .call k) ∨
      ∃ p ∈ s.dispatched ++ dispatching s.mgr, p.mark = .call k := by
  refine mainStep_keeps c hBusy hKeeps hHolds (h.posted k n hHolds hType ?_)
  refine hPc.imp_right (And.imp_right fun hCount => ?_)
  exact Nat.lt_of_lt_of_le hCount ((EventConnManager.mainStep_toMain c hBusy n).count_le _)

omit [DecidableEq κ] in
/-- Where the loop over the send queue ends, what the next command announces has been dispatched. -/
theorem Looping.mainStep_drained {s : Shutdown κ} (h : s.Looping) (c : EventConnManager.Setting)
    (hBusy : s.mgr.busy = true) {k : κ} {n : ℕ} (hHolds : s.mgr.Holds k n)
    (hType : (s.mgr.calls k).type = .kSend) (hEvent : (s.mgr.mainStep c).event = some n)
    (hPc : (s.mgr.mainStep c).eventPc ≠ .draining)
    (hRun : ((s.mgr.mainStep c).conns n).channel.toMain.head? = some .kRun) : s.Dispatched k := by
  cases EventConnManager.mainStep_turn c hBusy with
  | notified hPosts _ _ hStill hSame _ | delivered _ hPosts _ _ hStill hSame =>
    rw [hPosts.toMain] at hRun
    exact h.drained k n hHolds hType (hStill ▸ hEvent) (hSame ▸ hPc) hRun
  | sent _ _ _ _ _ _ hMain hStill hSame =>
    rw [hMain] at hRun
    exact h.drained k n hHolds hType (hStill ▸ hEvent) (hSame ▸ hPc) hRun
  | drained m hOwn hPosts _ hNil hStill _ =>
    rw [hPosts.toMain] at hRun
    obtain rfl : m = n := Option.some.inj (hOwn.symm.trans (hStill ▸ hEvent))
    obtain ⟨p, hMem, -⟩ | hDone := h.posted k m hHolds hType (.inr (h.waiting hHolds hType hRun).1)
    · rw [hNil] at hMem
      cases hMem
    · exact hDone
  | cleared _ _ _ _ _ _ hMain hStill hSame =>
    rw [hMain] at hRun
    exact h.drained k n hHolds hType (hStill ▸ hEvent) (by rw [hSame.1]; rintro ⟨⟩) hRun
  | received _ _ _ _ _ _ _ hNone =>
    rw [hNone] at hEvent
    cases hEvent

omit [DecidableEq κ] in
theorem Looping.mainStep {s : Shutdown κ} (h : s.Looping) (c : EventConnManager.Setting)
    (hBusy : s.mgr.busy = true) (hApart : s.mgr.Apart (fun _ _ => True) .main)
    (hKeeps : ∀ k, (s.mgr.calls k).type = .kSend → s.Keeps k) :
    ({ s with
      mgr := s.mgr.mainStep c
      dispatched := s.dispatched ++ dispatching s.mgr } : Shutdown κ).Looping := by
  have hCalls := (EventConnManager.mainStep_frame s.mgr c).calls
  have hHolds : ∀ k n, (s.mgr.mainStep c).Holds k n → s.mgr.Holds k n := fun k n hn => by
    rwa [EventConnManager.Holds, ← hCalls]
  refine ⟨h.sound.mainStep c hApart, fun k n hn => ?_, fun k n hn => ?_⟩
  · simp only [hCalls]
    exact fun hType => h.mainStep_posted c hBusy (hKeeps k hType) (hHolds k n hn) hType
  · simp only [hCalls]
    intro hType hEvent hPc hRun
    exact (h.mainStep_drained c hBusy (hHolds k n hn) hType hEvent hPc hRun).mono (List.subset_append_left ..)

/-- The command with which a call announces its message stands behind the one that the event has come for. -/
theorem Looping.callStep_drained {s : Shutdown κ} (hLoop : s.Looping) (hServed : s.mgr.Served)
    {k l : κ} {m n : ℕ} (hHolds : s.mgr.Holds k n) (hl : s.mgr.Holds l m)
    (hType : (s.mgr.calls l).type = .kSend) (hEvent : s.mgr.event = some m)
    (hPc : s.mgr.eventPc ≠ .draining)
    (hRun : ((s.mgr.callStep k).conns m).channel.toMain.head? = some .kRun) : s.Dispatched l := by
  refine hLoop.drained l m hl hType hEvent hPc ?_
  obtain rfl | hNe := eq_or_ne m n
  · cases EventConnManager.callStep_turn hHolds with
    | quiet _ hMain _ _ | emptied _ _ _ hMain | pushed _ _ _ _ hMain => rwa [hMain] at hRun
    | told _ _ _ hMain =>
      obtain ⟨cmd, hMain⟩ := hMain
      obtain ⟨old, rest, hOld⟩ := List.exists_cons_of_ne_nil (hServed.event m hEvent).2
      rw [hMain, hOld] at hRun
      rw [hOld]
      exact hRun
  · rwa [(EventConnManager.callStep_frame hHolds).conn m hNe] at hRun

theorem Looping.callStep {s : Shutdown κ} (hLoop : s.Looping) (h : s.Honest) (hServed : s.mgr.Served)
    (b : Backend) {k : κ} (hReady : s.mgr.ready k = true) : (s.callStep b k).Looping := by
  obtain ⟨n, hHolds⟩ := EventConnManager.holds_of_ready hReady
  have hFrame := EventConnManager.callStep_frame hHolds
  obtain ⟨hMgr, -⟩ := s.callStep_mgr b k
  refine ⟨by rw [hMgr]; exact hLoop.sound.callStep hReady, fun l m hl hType hPc => ?_,
    fun l m hl hType hEvent hPc hRun => ?_⟩
  · rw [hMgr] at hl hType hPc ⊢
    have hl' := EventConnManager.holds_of_callStep hHolds hl
    rw [Dispatched, callStep_dispatched]
    obtain rfl | hNe := eq_or_ne l k
    · obtain rfl : n = m := Option.some.inj (hHolds.symm.trans hl')
      rw [hFrame.type] at hType
      obtain ⟨hCleared, hDst⟩ | hQueued :=
        EventConnManager.sent_of_callStep hHolds (hPc.imp_right And.left)
      · refine .inl ⟨⟨.call l, s.mgr.stamped n (s.mgr.calls l).msg⟩, ?_, rfl⟩
        simp only [EventConnManager.callStep, hCleared, if_neg hDst, EventConnManager.setPc_conns,
          EventConnManager.mapConn_conns_self, Mailbox.push_send]
        exact List.mem_append_right _ (List.mem_singleton_self _)
      · have hSend : ((s.mgr.callStep l).conns n).mailbox.send = (s.mgr.conns n).mailbox.send := by
          simp only [EventConnManager.callStep, hQueued, EventConnManager.setPc_conns,
            EventConnManager.mapConn_conns_self]
        rw [hSend]
        exact hLoop.posted l n hHolds hType (.inl hQueued)
    · have hOther : m ≠ n := by
        rintro rfl
        exact hNe (h.unique l k m hl' hHolds)
      rw [hFrame.others l hNe] at hType hPc
      rw [hFrame.conn m hOther] at hPc ⊢
      exact hLoop.posted l m hl' hType hPc
  · rw [hMgr] at hl hType hEvent hPc hRun
    rw [Dispatched, callStep_dispatched]
    have hOldType : (s.mgr.calls l).type = .kSend := by
      obtain rfl | hNe := eq_or_ne l k
      · exact hFrame.type.symm.trans hType
      · rwa [hFrame.others l hNe] at hType
    rw [(EventConnManager.callStep_event s.mgr k).1] at hEvent
    rw [(EventConnManager.callStep_event s.mgr k).2] at hPc
    exact hLoop.callStep_drained hServed hHolds (EventConnManager.holds_of_callStep hHolds hl) hOldType hEvent hPc hRun

theorem Looping.alloc {s : Shutdown κ} (hLoop : s.Looping) (h : s.Honest) {k : κ} {type : ConnType} {msg : Msg}
    (hStart : (s.mgr.calls k).pc = .start)
    (hApart : s.mgr.Apart (fun _ _ => True) (.alloc k type msg)) :
    ({ s with mgr := s.mgr.alloc k type msg } : Shutdown κ).Looping ∧
      ({ s with mgr := s.mgr.alloc k type msg } : Shutdown κ).Honest := by
  obtain ⟨t, n, rest, hFrom, ht, -, hFree, hEq⟩ := hLoop.sound.alloc_spec k type msg hApart
  have hSame : t.calls = s.mgr.calls ∧ ∀ l m, s.mgr.Holds l m → t.conns m = s.mgr.conns m := by
    obtain ⟨-, rfl⟩ | ⟨-, rfl⟩ := hFrom
    · exact ⟨rfl, fun _ _ _ => rfl⟩
    · refine ⟨rfl, fun l m hl => Function.update_of_ne ?_ ..⟩
      exact Nat.ne_of_lt (hLoop.sound.holds_lt l m hl)
  have hEvents : t.event = s.mgr.event ∧ t.eventPc = s.mgr.eventPc := by
    obtain ⟨-, rfl⟩ | ⟨-, rfl⟩ := hFrom
    · exact ⟨rfl, rfl⟩
    · exact ⟨rfl, rfl⟩
  have hUnheld := (ht.proper n).unheld hFree
  have hSound := hLoop.sound.alloc type msg hStart hApart
  rw [hEq] at hSound ⊢
  -- another call keeps its connection, and the new one has no command on its own
  have hOld : ∀ {l m}, l ≠ k → t.Holds l m → s.mgr.Holds l m ∧
      (t.taken n rest k { type := type, msg := msg, pc := .allocated n }).conns m = s.mgr.conns m := by
    intro l m _ hl
    have hl' : s.mgr.Holds l m := by rwa [EventConnManager.Holds, ← hSame.1]
    exact ⟨hl', hSame.2 l m hl'⟩
  refine ⟨⟨hSound, fun l m hl hType hPc => ?_, fun l m hl hType hEvent hPc hRun => ?_⟩, ?_⟩
  · simp only at hl hType hPc ⊢
    obtain ⟨rfl, rfl⟩ | ⟨hNe, hHeld⟩ := EventConnManager.taken_holds rfl hl
    · rw [EventConnManager.taken_calls_self] at hPc
      obtain hPc | ⟨hPc, -⟩ := hPc <;> cases hPc
    · obtain ⟨hl', hConns⟩ := hOld hNe hHeld
      rw [EventConnManager.taken_calls_ne hNe, hSame.1] at hType hPc
      rw [hConns] at hPc ⊢
      exact hLoop.posted l m hl' hType hPc
  · simp only at hl hType hEvent hPc hRun
    obtain ⟨rfl, rfl⟩ | ⟨hNe, hHeld⟩ := EventConnManager.taken_holds rfl hl
    · have hNone : (t.conns m).channel.toMain.count .kRun = 0 := hUnheld.toMain
      exact absurd (List.mem_of_head? hRun) (List.count_eq_zero.mp hNone)
    · obtain ⟨hl', hConns⟩ := hOld hNe hHeld
      rw [EventConnManager.taken_calls_ne hNe, hSame.1] at hType
      rw [hConns] at hRun
      exact hLoop.drained l m hl' hType (hEvents.1.symm.trans hEvent) (hEvents.2 ▸ hPc) hRun
  · exact h.taken hSame.1 hSame.2 hFree hUnheld.toOwner rfl hStart

/-- What is left once the pool has been emptied. -/
structure Ending (s : Shutdown κ) : Prop where
  nodup : s.mgr.idleConn.Nodup
  idle_lt : ∀ n ∈ s.mgr.idleConn, n < s.mgr.connSz
  holds_lt : ∀ k n, s.mgr.Holds k n → n < s.mgr.connSz
  idle : ∀ n ∈ s.mgr.idleConn, s.mgr.evMgr.evs n = false ∧ (s.mgr.conns n).channel.toOwner = [] ∧
    ∀ k, ¬ s.mgr.Holds k n
  place : ∀ k n, s.mgr.Holds k n → (s.mgr.calls k).type = .kSend →
    s.mgr.evMgr.evs n = true ∨ (s.mgr.calls k).pc = .unregistered n →
    (s.mgr.conns n).channel.toOwner.length ≤ (s.mgr.calls k).pc.owed
  gone : ∀ k n, (s.mgr.calls k).pc = .unregistered n →
    (s.mgr.calls k).type = .kSend ∧ s.mgr.evMgr.evs n = false

omit [DecidableEq κ] in
theorem Ending.of_sound {s : Shutdown κ} (h : s.mgr.Sound fun _ _ => True) (e : ExitPc) :
    ({ s with mgr := { s.mgr with idleConn := [] }, exec := e } : Shutdown κ).Ending := by
  refine ⟨List.nodup_nil, by rintro _ ⟨⟩, h.holds_lt, by rintro _ ⟨⟩, fun k n hn hType _ => ?_,
    fun k n hPc => ?_⟩
  · obtain ⟨-, ⟨toOwner, hAt, hCount⟩, -⟩ := (h.proper n).sent k hn hType
    have hLength : (s.mgr.conns n).channel.toOwner.length = toOwner.length := by rw [hAt.toOwner]
    simp only [hLength]
    omega
  · have hn : s.mgr.Holds k n := congrArg CallPc.conn hPc
    cases hType : (s.mgr.calls k).type with
    | kSend =>
      obtain ⟨-, ⟨toOwner, hAt, -⟩, -⟩ := (h.proper n).sent k hn hType
      exact ⟨rfl, hAt.registered.trans (congrArg CallPc.registered hPc)⟩
    | kSendReq => exact absurd hPc ((h.proper n).asked k hn hType).1.not_unregistered

omit [DecidableEq κ] in
theorem Ending.clearEvents {s : Shutdown κ} (h : s.Ending) (e : ExitPc) :
    ({ s with mgr := clearEvents s.mgr, exec := e } : Shutdown κ).Ending := by
  have hSame : ∀ n, s.mgr.evMgr.evs n = false → (Shutdown.clearEvents s.mgr).conns n = s.mgr.conns n :=
    fun n hn => if_neg (by rw [hn]; exact Bool.false_ne_true)
  refine ⟨h.nodup, h.idle_lt, h.holds_lt, fun n hn => ?_, fun k n hn hType hReg => ?_,
    fun k n hPc => ⟨(h.gone k n hPc).1, rfl⟩⟩
  · obtain ⟨hEvs, hOwner, hFree⟩ := h.idle n hn
    refine ⟨rfl, ?_, hFree⟩
    simp only [hSame n hEvs, hOwner]
  · have hPc := hReg.resolve_left (by rintro ⟨⟩)
    simp only [hSame n (h.gone k n hPc).2]
    exact h.place k n hn hType (.inr hPc)

/-- `EventManager::Clear` finds the answer already there for whoever waits for one. -/
theorem Honest.clearEvents {s : Shutdown κ} (h : s.Honest) (hAnswered : s.Answered .exec)
    (hExec : s.exec = .emptied) (e : ExitPc) :
    ({ s with mgr := clearEvents s.mgr, exec := e } : Shutdown κ).Honest := by
  refine ⟨h.unique, fun k => ⟨(h.each k).fresh, fun n hn hType hDst hEarly => ?_, (h.each k).done⟩⟩
  have hBefore := (h.each k).sends n hn hType hDst hEarly
  simp only [Shutdown.clearEvents]
  split
  · next hReg =>
    obtain hNone | ⟨hHead, hDone⟩ := hBefore
    · exact absurd hNone (hAnswered hExec k n hn hType hDst hEarly hReg)
    · refine .inr ⟨?_, hDone⟩
      rw [CmdChannel.sendToOwner_toOwner, List.head?_append, hHead]
      rfl
  · exact hBefore

theorem Ending.callStep {s : Shutdown κ} (hEnd : s.Ending) (h : s.Honest) (b : Backend) {k : κ}
    (hReady : s.mgr.ready k = true) : (s.callStep b k).Ending := by
  obtain ⟨n, hHolds⟩ := EventConnManager.holds_of_ready hReady
  have hFrame := EventConnManager.callStep_frame hHolds
  obtain ⟨hMgr, -⟩ := s.callStep_mgr b k
  have hBack : ∀ {l m}, (s.mgr.callStep k).Holds l m → s.mgr.Holds l m :=
    fun hl => EventConnManager.holds_of_callStep hHolds hl
  have hEvs : ∀ m, (s.mgr.callStep k).evMgr.evs m = s.mgr.evMgr.evs m ∨
      m = n ∧ (s.mgr.callStep k).evMgr.evs m = false := by
    intro m
    obtain hSame | ⟨-, -, hDel⟩ := hFrame.evs
    · exact .inl (by rw [hSame])
    · obtain rfl | hNe := eq_or_ne m n
      · exact .inr ⟨rfl, by rw [hDel, Function.update_self]⟩
      · exact .inl (by rw [hDel, Function.update_of_ne hNe])
  have hUnheld : ∀ m ∈ s.mgr.idleConn, m ≠ n := by
    rintro m hm rfl
    exact (hEnd.idle m hm).2.2 k hHolds
  refine ⟨?_, fun m hm => ?_, fun l m hl => ?_, fun m hm => ?_, fun l m hl hType hReg => ?_,
    fun l m hPc => ?_⟩
  · rw [hMgr]
    obtain hIdle | ⟨-, hIdle⟩ := hFrame.idle
    · rw [hIdle]
      exact hEnd.nodup
    · rw [hIdle]
      refine List.nodup_append.mpr ⟨hEnd.nodup, List.nodup_singleton n, fun m hm m' hMem => ?_⟩
      rw [List.mem_singleton.mp hMem]
      exact hUnheld m hm
  · rw [hMgr] at hm ⊢
    rw [hFrame.connSz]
    obtain hIdle | ⟨-, hIdle⟩ := hFrame.idle
    · exact hEnd.idle_lt m (hIdle ▸ hm)
    · rw [hIdle, List.mem_append, List.mem_singleton] at hm
      obtain hm | rfl := hm
      · exact hEnd.idle_lt m hm
      · exact hEnd.holds_lt k m hHolds
  · rw [hMgr] at hl ⊢
    rw [hFrame.connSz]
    exact hEnd.holds_lt l m (hBack hl)
  · rw [hMgr] at hm ⊢
    have hOld : m ∈ s.mgr.idleConn → (s.mgr.callStep k).evMgr.evs m = false ∧
        ((s.mgr.callStep k).conns m).channel.toOwner = [] ∧ ∀ l, ¬ (s.mgr.callStep k).Holds l m := by
      intro hMem
      obtain ⟨hReg, hOwner, hFree⟩ := hEnd.idle m hMem
      refine ⟨?_, by rw [hFrame.conn m (hUnheld m hMem), hOwner], fun l hl => hFree l (hBack hl)⟩
      obtain hSame | ⟨-, hDel⟩ := hEvs m
      · rw [hSame, hReg]
      · exact hDel
    obtain hIdle | ⟨hPc, hIdle⟩ := hFrame.idle
    · exact hOld (hIdle ▸ hm)
    · rw [hIdle, List.mem_append, List.mem_singleton] at hm
      obtain hm | rfl := hm
      · exact hOld hm
      · -- the connection that an `App::Send` gives back
        obtain ⟨hType, hReg⟩ := hEnd.gone k m hPc
        have hOwner := hEnd.place k m hHolds hType (.inr hPc)
        rw [hPc] at hOwner
        simp only [EventConnManager.callStep, hPc]
        refine ⟨hReg, List.eq_nil_of_length_eq_zero (Nat.le_zero.mp hOwner), fun l hl => ?_⟩
        obtain rfl : l = k := h.unique l k m (hBack (by simpa only [EventConnManager.callStep, hPc] using hl)) hHolds
        exact absurd (EventConnManager.holds_setPc.mp hl) (by rintro ⟨⟩)
  · rw [hMgr] at hl hType hReg ⊢
    obtain rfl | hNe := eq_or_ne l k
    · obtain rfl : n = m := Option.some.inj (hHolds.symm.trans (hBack hl))
      rw [hFrame.type] at hType
      exact EventConnManager.place_of_callStep hHolds hType (hEnd.place l n hHolds hType) hReg
    · have hOther : m ≠ n := by
        rintro rfl
        exact hNe (h.unique l k m (hBack hl) hHolds)
      have hSame := (hEvs m).resolve_right fun hDel => hOther hDel.1
      rw [hFrame.others l hNe] at hType hReg ⊢
      rw [hSame] at hReg
      rw [hFrame.conn m hOther]
      exact hEnd.place l m (hBack hl) hType hReg
  · rw [hMgr] at hPc ⊢
    obtain rfl | hNe := eq_or_ne l k
    · rw [hFrame.type]
      exact EventConnManager.gone_of_callStep hHolds hPc
    · rw [hFrame.others l hNe] at hPc ⊢
      obtain ⟨hType, hReg⟩ := hEnd.gone l m hPc
      refine ⟨hType, ?_⟩
      obtain hSame | ⟨-, hDel⟩ := hEvs m
      · rw [hSame, hReg]
      · exact hDel

omit [DecidableEq κ] in
theorem Ending.pop {s : Shutdown κ} (hEnd : s.Ending) {t : EventConnManager κ} {n : ℕ} {rest : List ℕ}
    (hFrom : s.mgr.idleConn ≠ [] ∧ t = s.mgr ∨ s.mgr.idleConn = [] ∧ t = s.mgr.addEventConn)
    (hIdle : t.idleConn = n :: rest) :
    ({ s with mgr := { t with idleConn := rest } } : Shutdown κ).Ending ∧ n ∉ rest ∧ n < t.connSz ∧
      (∀ l, ¬ t.Holds l n) ∧ (t.conns n).channel.toOwner = [] := by
  obtain ⟨-, rfl⟩ | ⟨hNil, rfl⟩ := hFrom
  · have hMem : n ∈ s.mgr.idleConn := hIdle ▸ List.mem_cons_self
    have hTail : ∀ m ∈ rest, m ∈ s.mgr.idleConn := fun m hm => hIdle ▸ List.mem_cons_of_mem n hm
    obtain ⟨hNotMem, hNodup⟩ := List.nodup_cons.mp (hIdle ▸ hEnd.nodup)
    obtain ⟨-, hOwner, hFree⟩ := hEnd.idle n hMem
    exact ⟨⟨hNodup, fun m hm => hEnd.idle_lt m (hTail m hm), hEnd.holds_lt, fun m hm => hEnd.idle m (hTail m hm),
      hEnd.place, hEnd.gone⟩, hNotMem, hEnd.idle_lt n hMem, hFree, hOwner⟩
  · rw [EventConnManager.addEventConn, hNil] at hIdle
    obtain ⟨rfl, rfl⟩ := List.cons.inj hIdle
    have hOld : ∀ l m, s.mgr.Holds l m → s.mgr.addEventConn.conns m = s.mgr.conns m := fun l m hl =>
      Function.update_of_ne (Nat.ne_of_lt (hEnd.holds_lt l m hl)) ..
    refine ⟨⟨List.nodup_nil, by rintro _ ⟨⟩, fun l m hl => Nat.lt_succ_of_lt (hEnd.holds_lt l m hl),
      by rintro _ ⟨⟩, fun l m hl hType hReg => ?_, hEnd.gone⟩, by rintro ⟨⟩, Nat.lt_succ_self _,
      fun l hl => absurd (hEnd.holds_lt l _ hl) (Nat.lt_irrefl _), ?_⟩
    · simp only [hOld l m hl]
      exact hEnd.place l m hl hType hReg
    · simp only [EventConnManager.addEventConn, Function.update_self]

theorem Ending.taken {s : Shutdown κ} {t : EventConnManager κ} {n : ℕ} {rest : List ℕ} {k : κ} {x : Call κ}
    (hEnd : ({ s with mgr := { t with idleConn := rest } } : Shutdown κ).Ending) (hNotMem : n ∉ rest)
    (hLt : n < t.connSz) (hFree : ∀ l, ¬ t.Holds l n) (hOwner : (t.conns n).channel.toOwner = [])
    (hPc : x.pc = .allocated n) : ({ s with mgr := t.taken n rest k x } : Shutdown κ).Ending := by
  have hNe : ∀ m ∈ rest, m ≠ n := by
    rintro m hm rfl
    exact hNotMem hm
  have hHeld : ∀ l m, t.Holds l m → m ≠ n := by
    rintro l m hl rfl
    exact hFree l hl
  refine ⟨hEnd.nodup, hEnd.idle_lt, fun l m hl => ?_, fun m hm => ?_, fun l m hl hType hReg => ?_,
    fun l m hGone => ?_⟩
  · obtain ⟨-, rfl⟩ | ⟨-, hOld⟩ := EventConnManager.taken_holds hPc hl
    · exact hLt
    · exact hEnd.holds_lt l m hOld
  · obtain ⟨hReg, hNone, hUnheld⟩ := hEnd.idle m hm
    refine ⟨(EventConnManager.taken_evs_ne (hNe m hm)).trans hReg, hNone, fun l hl => ?_⟩
    obtain ⟨-, rfl⟩ | ⟨-, hOld⟩ := EventConnManager.taken_holds hPc hl
    · exact hNotMem hm
    · exact hUnheld l hOld
  · obtain ⟨rfl, rfl⟩ | ⟨hOther, hOld⟩ := EventConnManager.taken_holds hPc hl
    · refine Nat.le_trans (Nat.le_of_eq ?_) (Nat.zero_le _)
      exact List.length_eq_zero_iff.mpr hOwner
    · rw [EventConnManager.taken_calls_ne hOther] at hType hReg ⊢
      rw [EventConnManager.taken_evs_ne (hHeld l m hOld)] at hReg
      exact hEnd.place l m hOld hType hReg
  · obtain rfl | hOther := eq_or_ne l k
    · rw [EventConnManager.taken_calls_self, hPc] at hGone
      cases hGone
    · rw [EventConnManager.taken_calls_ne hOther] at hGone ⊢
      obtain ⟨hType, hReg⟩ := hEnd.gone l m hGone
      rw [EventConnManager.taken_evs_ne (hHeld l m (congrArg CallPc.conn hGone))]
      exact ⟨hType, hReg⟩

theorem Ending.setCall {s t : Shutdown κ} (h : s.Ending) {k : κ} {x : Call κ}
    (hPc : x.pc = .start ∨ x.pc = .returned none)
    (hMgr : t.mgr = { s.mgr with calls := Function.update s.mgr.calls k x }) : t.Ending := by
  have hOther : ∀ l, t.mgr.calls l = s.mgr.calls l ∨
      (t.mgr.calls l).pc.conn = none := by
    intro l
    rw [hMgr]
    obtain rfl | hNe := eq_or_ne l k
    · refine .inr ?_
      simp only [Function.update_self]
      obtain hPc | hPc := hPc <;> rw [hPc] <;> rfl
    · exact .inl (Function.update_of_ne hNe ..)
  have hHolds : ∀ {l m}, t.mgr.Holds l m → t.mgr.calls l = s.mgr.calls l ∧ s.mgr.Holds l m := by
    intro l m hl
    obtain hSame | hNone := hOther l
    · exact ⟨hSame, by rwa [EventConnManager.Holds, ← hSame]⟩
    · exact absurd (hNone.symm.trans hl) (by rintro ⟨⟩)
  have hIdle : t.mgr.idleConn = s.mgr.idleConn := by rw [hMgr]
  have hSz : t.mgr.connSz = s.mgr.connSz := by rw [hMgr]
  have hEvs : t.mgr.evMgr = s.mgr.evMgr := by rw [hMgr]
  have hConns : t.mgr.conns = s.mgr.conns := by rw [hMgr]
  refine ⟨hIdle ▸ h.nodup, by rw [hIdle, hSz]; exact h.idle_lt, fun l m hl => ?_, fun m hm => ?_,
    fun l m hl => ?_, fun l m hGone => ?_⟩
  · rw [hSz]
    exact h.holds_lt l m (hHolds hl).2
  · rw [hIdle] at hm
    rw [hEvs, hConns]
    exact ⟨(h.idle m hm).1, (h.idle m hm).2.1, fun l hl => (h.idle m hm).2.2 l (hHolds hl).2⟩
  · rw [hEvs, hConns, (hHolds hl).1]
    exact h.place l m (hHolds hl).2
  · obtain ⟨hSame, -⟩ := hHolds (show t.mgr.Holds l m from congrArg CallPc.conn hGone)
    rw [hSame] at hGone ⊢
    rw [hEvs]
    exact h.gone l m hGone

theorem Ending.alloc {s : Shutdown κ} (hEnd : s.Ending) (h : s.Honest) {k : κ} {type : ConnType} {msg : Msg}
    (hStart : (s.mgr.calls k).pc = .start) :
    ({ s with mgr := s.mgr.alloc k type msg } : Shutdown κ).Ending ∧
      ({ s with mgr := s.mgr.alloc k type msg } : Shutdown κ).Honest := by
  obtain ⟨t, n, rest, hFrom, hIdle, hEq⟩ := s.mgr.alloc_cases k type msg
  obtain ⟨hPop, hNotMem, hLt, hFree, hOwner⟩ := hEnd.pop hFrom hIdle
  have hSame : t.calls = s.mgr.calls ∧ ∀ l m, s.mgr.Holds l m → t.conns m = s.mgr.conns m := by
    obtain ⟨-, rfl⟩ | ⟨-, rfl⟩ := hFrom
    · exact ⟨rfl, fun _ _ _ => rfl⟩
    · exact ⟨rfl, fun l m hl => Function.update_of_ne (Nat.ne_of_lt (hEnd.holds_lt l m hl)) ..⟩
  obtain ⟨-, hEq⟩ | ⟨-, hEq⟩ := hEq
  · simp only [hEq]
    exact ⟨hPop.taken hNotMem hLt hFree hOwner rfl, h.taken hSame.1 hSame.2 hFree hOwner rfl hStart⟩
  · have hPc : ({ type := type, msg := msg, pc := .returned none } : Call κ).pc = .start ∨
        ({ type := type, msg := msg, pc := .returned none } : Call κ).pc = .returned none := .inr rfl
    simp only [hEq]
    refine ⟨hPop.setCall hPc rfl, h.setCall hStart hPc ?_ hSame.2 rfl rfl rfl⟩
    rw [hSame.1]

/-- What else holds depends on how far `Exec` has come. -/
def Stage (s : Shutdown κ) : Prop :=
  match s.exec with
  | .loop | .left => s.Looping
  | .emptied | .cleared | .returned => s.Ending

omit [DecidableEq κ] in
theorem Stage.cases {s : Shutdown κ} (h : s.Stage) :
    (s.exec = .loop ∨ s.exec = .left) ∧ s.Looping ∨
      (s.exec = .emptied ∨ s.exec = .cleared ∨ s.exec = .returned) ∧ s.Ending := by
  rw [Stage] at h
  split at h
  · next hExec => exact .inl ⟨.inl hExec, h⟩
  · next hExec => exact .inl ⟨.inr hExec, h⟩
  · next hExec => exact .inr ⟨.inl hExec, h⟩
  · next hExec => exact .inr ⟨.inr (.inl hExec), h⟩
  · next hExec => exact .inr ⟨.inr (.inr hExec), h⟩

omit [DecidableEq κ] in
theorem Stage.of_looping {s t : Shutdown κ} (h : s.Stage) (hExec : t.exec = s.exec)
    (hLoop : s.Looping → t.Looping) (hEnd : s.Ending → t.Ending) : t.Stage := by
  rw [Stage, hExec]
  rw [Stage] at h
  split at h
  · exact hLoop h
  · exact hLoop h
  · exact hEnd h
  · exact hEnd h
  · exact hEnd h

theorem Looping.setCall {s t : Shutdown κ} (h : s.Looping) {k : κ} {x : Call κ}
    (hStart : (s.mgr.calls k).pc = .start) (hPc : x.pc = .start ∨ x.pc = .returned none)
    (hMgr : t.mgr = { s.mgr with calls := Function.update s.mgr.calls k x })
    (hDispatched : t.dispatched = s.dispatched) : t.Looping := by
  have hOther : ∀ l n, t.mgr.Holds l n → t.mgr.calls l = s.mgr.calls l ∧ s.mgr.Holds l n := by
    intro l n hn
    have hNe : l ≠ k := by
      rintro rfl
      rw [EventConnManager.Holds, hMgr] at hn
      simp only [Function.update_self] at hn
      obtain hPc | hPc := hPc <;> rw [hPc] at hn <;> cases hn
    have hCall : t.mgr.calls l = s.mgr.calls l := by rw [hMgr]; exact Function.update_of_ne hNe ..
    exact ⟨hCall, by rwa [EventConnManager.Holds, ← hCall]⟩
  have hConns : t.mgr.conns = s.mgr.conns := by rw [hMgr]
  have hEvent : t.mgr.event = s.mgr.event := by rw [hMgr]
  have hEventPc : t.mgr.eventPc = s.mgr.eventPc := by rw [hMgr]
  refine ⟨hMgr ▸ h.sound.setCall hStart hPc, fun l n hn => ?_, fun l n hn => ?_⟩
  · rw [(hOther l n hn).1, hConns, Dispatched, hDispatched]
    exact h.posted l n (hOther l n hn).2
  · rw [(hOther l n hn).1, hConns, Dispatched, hDispatched, hEvent, hEventPc]
    exact h.drained l n (hOther l n hn).2

omit [DecidableEq κ] in
theorem Looping.of_same {s t : Shutdown κ} (h : s.Looping) (hSound : t.mgr.Sound fun _ _ => True)
    (hConns : t.mgr.conns = s.mgr.conns) (hCalls : t.mgr.calls = s.mgr.calls)
    (hEvent : t.mgr.eventPc ≠ .draining → t.mgr.event = s.mgr.event ∧ t.mgr.eventPc = s.mgr.eventPc)
    (hDispatched : t.dispatched = s.dispatched) : t.Looping := by
  refine ⟨hSound, fun k n hn => ?_, fun k n hn hType hOwn hPc hRun => ?_⟩
  · rw [hCalls, hConns, Dispatched, hDispatched]
    exact h.posted k n (by rwa [EventConnManager.Holds, ← hCalls])
  · obtain ⟨hSame, hSamePc⟩ := hEvent hPc
    rw [hCalls] at hType
    rw [hConns] at hRun
    rw [Dispatched, hDispatched]
    exact h.drained k n (by rwa [EventConnManager.Holds, ← hCalls]) hType (hSame ▸ hOwn) (hSamePc ▸ hPc) hRun

omit [DecidableEq κ] in
theorem Honest.of_same {s t : Shutdown κ} (h : s.Honest) (hConns : t.mgr.conns = s.mgr.conns)
    (hCalls : t.mgr.calls = s.mgr.calls) (hRet : t.ret = s.ret) (hCmd : t.cmd = s.cmd)
    (hDispatched : t.dispatched = s.dispatched) : t.Honest := by
  refine ⟨fun k l n hk hl => h.unique k l n ?_ ?_, fun k => (h.each k).congr ?_ (fun n _ => ?_) ?_ ?_ ?_⟩
  · rwa [EventConnManager.Holds, ← hCalls]
  · rwa [EventConnManager.Holds, ← hCalls]
  · rw [hCalls]
  · rw [hConns]
  · rw [hRet]
  · rw [hCmd]
  · rw [hDispatched]
    exact .refl _

theorem honest_exec {s : Shutdown κ} (hHonest : s.Honest) (hStage : s.Stage) (hAnswered : s.Answered .exec) :
    s.execStep.Honest ∧ s.execStep.Stage := by
  rw [execStep]
  obtain ⟨hExec | hExec, hLoop⟩ | ⟨hExec | hExec | hExec, hEnd⟩ := hStage.cases
  · rw [hExec]
    exact ⟨hHonest.of_same rfl rfl rfl rfl rfl, hLoop.of_same hLoop.sound rfl rfl (fun _ => ⟨rfl, rfl⟩) rfl⟩
  · rw [hExec]
    exact ⟨hHonest.of_same rfl rfl rfl rfl rfl, .of_sound hLoop.sound .emptied⟩
  · rw [hExec]
    exact ⟨hHonest.clearEvents hAnswered hExec .cleared, hEnd.clearEvents .cleared⟩
  · rw [hExec]
    exact ⟨hHonest.of_same rfl rfl rfl rfl rfl,
      ⟨hEnd.nodup, hEnd.idle_lt, hEnd.holds_lt, hEnd.idle, hEnd.place, hEnd.gone⟩⟩
  · simp only [hExec]
    exact ⟨hHonest, hStage⟩

theorem honest_next (c : EventConnManager.Setting) (b : Backend) (s : Shutdown κ) (l : Label κ)
    (h : s.Honest ∧ s.Stage) (hServed : s.mgr.Served) (hEn : s.enabled l) (hAnswered : s.Answered l) :
    (s.next c b l).Honest ∧ (s.next c b l).Stage := by
  obtain ⟨hHonest, hStage⟩ := h
  have hLooping : s.exec = .loop → s.Looping := fun hExec => by rwa [Stage, hExec] at hStage
  cases l with
  | check k type msg =>
    simp only [next, check]
    split
    · have hPc : ({ type := type, msg := msg } : Call κ).pc = .start ∨
          ({ type := type, msg := msg } : Call κ).pc = .returned none := .inl rfl
      exact ⟨hHonest.setCall hEn.1 hPc rfl (fun _ _ _ => rfl) rfl rfl rfl, hStage.of_looping rfl
        (fun hLoop => hLoop.setCall hEn.1 hPc rfl rfl) fun hEnd => hEnd.setCall hPc rfl⟩
    · have hPc : ({ type := type, msg := msg, pc := .returned none } : Call κ).pc = .start ∨
          ({ type := type, msg := msg, pc := .returned none } : Call κ).pc = .returned none := .inr rfl
      exact ⟨hHonest.setCall hEn.1 hPc rfl (fun _ _ _ => rfl) rfl rfl rfl, hStage.of_looping rfl
        (fun hLoop => hLoop.setCall hEn.1 hPc rfl rfl) fun hEnd => hEnd.setCall hPc rfl⟩
  | alloc k =>
    refine ⟨?_, hStage.of_looping rfl (fun hLoop => (hLoop.alloc hHonest hEn.1 hAnswered).1)
      fun hEnd => (hEnd.alloc hHonest hEn.1).1⟩
    obtain ⟨-, hLoop⟩ | ⟨-, hEnd⟩ := hStage.cases
    · exact (hLoop.alloc hHonest hEn.1 hAnswered).2
    · exact (hEnd.alloc hHonest hEn.1).2
  | call k =>
    exact ⟨hHonest.callStep b hEn, hStage.of_looping (s.callStep_mgr b k).2
      (fun hLoop => hLoop.callStep hHonest hServed b hEn) fun hEnd => hEnd.callStep hHonest b hEn⟩
  | main =>
    have hLoop := hLooping hEn.1
    have hNext := hLoop.mainStep c hEn.2 hAnswered.1 hAnswered.2
    refine ⟨hHonest.mainStep hLoop c, ?_⟩
    simpa only [Stage, next, hEn.1] using hNext
  | event n =>
    have hLoop := hLooping hEn.1
    refine ⟨hHonest.of_same rfl rfl rfl rfl rfl, ?_⟩
    simp only [Stage, next, hEn.1]
    exact hLoop.of_same (hLoop.sound.next c hEn.2 trivial) rfl rfl (fun hPc => absurd rfl hPc) rfl
  | answer p m | arrive m =>
    have hLoop := hLooping hEn.1
    refine ⟨hHonest.of_same rfl rfl rfl rfl rfl, ?_⟩
    simp only [Stage, next, hEn.1]
    exact hLoop.of_same (hLoop.sound.next c hEn.2 trivial) rfl rfl (fun _ => ⟨rfl, rfl⟩) rfl
  | quit =>
    refine ⟨hHonest.of_same rfl rfl rfl rfl rfl, hStage.of_looping rfl (fun hLoop => ?_) fun hEnd => ?_⟩
    · exact hLoop.of_same hLoop.sound rfl rfl (fun _ => ⟨rfl, rfl⟩) rfl
    · exact ⟨hEnd.nodup, hEnd.idle_lt, hEnd.holds_lt, hEnd.idle, hEnd.place, hEnd.gone⟩
  | exec => exact honest_exec hHonest hStage hAnswered

omit [DecidableEq κ] in
theorem honest_initial (sz : ℕ) : (initial sz : Shutdown κ).Honest ∧ (initial sz : Shutdown κ).Stage := by
  have hCalls : (initial sz : Shutdown κ).mgr.calls = fun _ => {} := by
    show (EventConnManager.initial sz : EventConnManager κ).calls = fun _ => {}
    induction sz with
    | zero => rfl
    | succ sz ih => exact ih
  have hNone : ∀ k n, ¬ (initial sz : Shutdown κ).mgr.Holds k n := by
    intro k n hk
    rw [EventConnManager.Holds, hCalls] at hk
    cases hk
  refine ⟨⟨fun k l n hk _ => absurd hk (hNone k n), fun k => ?_⟩,
    ⟨EventConnManager.Sound.initial sz, fun k n hk => absurd hk (hNone k n), fun k n hk => absurd hk (hNone k n)⟩⟩
  refine ⟨fun _ => rfl, fun n hk => absurd hk (hNone k n), fun _ _ hNot => absurd ?_ hNot⟩
  rw [hCalls]

theorem honest_visited (c : EventConnManager.Setting) (b : Backend) (sz : ℕ) (ls : List (Label κ))
    (hRuns : (system c b).Runs (initial sz) ls)
    (hAnswered : ∀ p ∈ (system c b).steps (initial sz) ls, p.1.Answered p.2) :
    ∀ t ∈ (system c b).visited (initial sz) ls, t.Honest := by
  have hStep : ∀ (s : Shutdown κ) (l : Label κ), (s.Honest ∧ s.Stage) ∧ s.mgr.Served → s.enabled l → s.Answered l →
      ((s.next c b l).Honest ∧ (s.next c b l).Stage) ∧ (s.next c b l).mgr.Served := fun s l h hEn hOk =>
    ⟨honest_next c b s l h.1 h.2 hEn hOk, served_next c b s l h.2 hEn⟩
  intro t ht
  exact ((system c b).inv_visited hStep ⟨honest_initial sz, served_initial sz⟩ hRuns hAnswered t ht).1.1

/-- One `App::Send`. It has its answer before the loop ends, or only its message posted. -/
def answeredRun : List (Label Unit) :=
  [.check () .kSend { dst := "actor.a.1" }, .alloc (), .call (), .call (), .call (), .call (), .event 0, .main,
    .main, .main, .main, .quit, .exec, .exec, .exec, .exec, .call (), .call ()]

def interruptedRun : List (Label Unit) :=
  [.check () .kSend { dst := "actor.a.1" }, .alloc (), .call (), .call (), .call (), .call (), .quit, .exec,
    .exec, .exec, .exec, .call (), .call ()]

/-- A message from outside answers a request before the event of its command has been taken up. The next
call on the connection posts its message behind the loop over the send queue, and `clear()` takes it. -/
def erasedRun : List (Label Bool) :=
  [.check false .kSendReq { dst := "actor.a.1" }, .alloc false, .call false, .call false, .call false, .call false,
    .arrive { dst := "event.conn.0" }, .main, .main, .main, .main, .main, .main, .call false, .call false,
    .call false, .call false, .check true .kSend { dst := "actor.a.1" }, .alloc true, .call true, .call true,
    .event 0, .main, .call true, .main, .main, .call true, .event 0, .main, .main, .main, .call true, .call true,
    .call true]

example : (system {} .linux).Runs (initial 1) erasedRun ∧
    let s := (system {} .linux).exec (initial 1) erasedRun
    (s.mgr.calls true).pc = .returned none ∧ s.ret true = 1 ∧ s.dispatched = [] := by decide

end Shutdown
end Myframe
