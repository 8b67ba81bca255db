import Myframe.EventConn.SendResult
import Myframe.Mailbox.Ledger

/-! # No message from outside is dispatched twice

A call posts its message once. From then on the message is in the send queue of one connection or has
been dispatched; a later call on the connection may clear the queue, but nobody fills it with an old
message.
-/
namespace Myframe
set_option autoImplicit false

variable {κ : Type}

namespace CallPc

def parcel : CallPc κ → Option (Parcel (Origin κ))
  | .start | .allocated _ | .typed _ | .cleared _ | .queued _ | .waiting _ | .woken _ | .unregistered _ => none
  | .popped _ p => some p
  | .finished _ r | .returned r => r

end CallPc

namespace Notify

def parcel : Notify κ → Option (Parcel (Origin κ))
  | .ready | .stored _ => none
  | .found _ p | .checked _ p | .deleted _ p | .released _ p => some p

end Notify

namespace EventConnManager

/-- The message has been dispatched, and this is where it has got to. -/
inductive OnItsWay (s : EventConnManager κ) (q : Parcel (Origin κ)) : Prop
  | received (h : q ∈ s.received)
  | delivery (d : Delivery) (h : (d, q) ∈ s.deliveries)
  | notify (h : s.notify.parcel = some q)
  | recv (n : ℕ) (h : q ∈ (s.conns n).mailbox.recv)
  | call (k : κ) (h : (s.calls k).pc.parcel = some q)

theorem mem_receive {b : Mailbox (Origin κ)} {p q : Parcel (Origin κ)} (h : q ∈ (b.receive p).recv) :
    q ∈ b.recv ∨ q = p := by
  rw [Mailbox.receive] at h
  split at h
  · obtain h | h := List.mem_append.mp h
    · rw [Mailbox.dropOverflow_eq_drop] at h
      exact .inl (List.mem_of_mem_drop h)
    · exact .inr (List.mem_singleton.mp h)
  · obtain h | h := List.mem_append.mp h
    · exact .inl h
    · exact .inr (List.mem_singleton.mp h)

theorem OnItsWay.of_notify {s t : EventConnManager κ} {q : Parcel (Origin κ)} (h : t.OnItsWay q)
    (hReceived : t.received = s.received) (hDeliveries : t.deliveries = s.deliveries)
    (hCalls : t.calls = s.calls) (hNotify : t.notify.parcel = some q → s.notify.parcel = some q)
    (hRecv : ∀ n, q ∈ (t.conns n).mailbox.recv → q ∈ (s.conns n).mailbox.recv ∨ s.notify.parcel = some q) :
    s.OnItsWay q := by
  cases h with
  | received h => exact .received (hReceived ▸ h)
  | delivery d h => exact .delivery d (hDeliveries ▸ h)
  | notify h => exact .notify (hNotify h)
  | recv n h =>
    obtain h | h := hRecv n h
    · exact .recv n h
    · exact .notify h
  | call k h => exact .call k (hCalls ▸ h)

theorem notifyStep_onItsWay {s : EventConnManager κ} {q : Parcel (Origin κ)}
    (h : (s.notifyStep s.notify).OnItsWay q) : s.OnItsWay q := by
  cases hNotify : s.notify with
  | ready =>
    rw [hNotify] at h
    exact h
  | found n p =>
    rw [hNotify, notifyStep] at h
    split at h
    · exact h.of_notify rfl rfl rfl (by rintro ⟨⟩) fun _ => .inl
    · exact h.of_notify rfl rfl rfl (fun hq => by rw [hNotify]; exact hq) fun _ => .inl
  | checked n p =>
    rw [hNotify, notifyStep] at h
    split at h
    · exact h.of_notify rfl rfl rfl (fun hq => by rw [hNotify]; exact hq) fun _ => .inl
    · exact h.of_notify rfl rfl rfl (fun hq => by rw [hNotify]; exact hq) fun _ => .inl
  | deleted n p =>
    rw [hNotify, notifyStep] at h
    exact h.of_notify rfl rfl rfl (fun hq => by rw [hNotify]; exact hq) fun _ => .inl
  | released n p =>
    rw [hNotify, notifyStep] at h
    refine h.of_notify rfl rfl rfl (by rintro ⟨⟩) fun m hm => ?_
    obtain rfl | hNe := eq_or_ne m n
    · simp only [mapConn_conns_self] at hm
      obtain hOld | rfl := mem_receive hm
      · exact .inl hOld
      · exact .inr (by rw [hNotify]; rfl)
    · simp only [mapConn_conns_ne _ _ _ hNe] at hm
      exact .inl hm
  | stored n =>
    rw [hNotify, notifyStep] at h
    refine h.of_notify rfl rfl rfl (by rintro ⟨⟩) fun m hm => .inl ?_
    obtain rfl | hNe := eq_or_ne m n
    · simpa only [mapConn_conns_self] using hm
    · simpa only [mapConn_conns_ne _ _ _ hNe] using hm

theorem deliver_onItsWay {s : EventConnManager κ} {p q : Parcel (Origin κ)} {d : Delivery}
    (h : (s.deliver p d).OnItsWay q) : s.OnItsWay q ∨ q = p := by
  cases d with
  | actor name | worker name =>
    cases h with
    | received h =>
      obtain h | h := List.mem_append.mp h
      · exact .inl (.received h)
      · exact .inr (List.mem_singleton.mp h)
    | delivery d h => exact .inl (.delivery d h)
    | notify h => exact .inl (.notify h)
    | recv n h => exact .inl (.recv n h)
    | call k h => exact .inl (.call k h)
  | conn name =>
    rw [deliver] at h
    split at h
    · exact .inl h
    · split at h
      · cases h with
        | received h => exact .inl (.received h)
        | delivery d h => exact .inl (.delivery d h)
        | notify h => exact .inr (Option.some.inj h).symm
        | recv n h => exact .inl (.recv n h)
        | call k h => exact .inl (.call k h)
      · exact .inl h

theorem dispatch_onItsWay {s : EventConnManager κ} {c : Setting} {p q : Parcel (Origin κ)}
    (h : (s.dispatch c p).OnItsWay q) : s.OnItsWay q ∨ q = p := by
  cases h with
  | received h => exact .inl (.received h)
  | delivery d h =>
    obtain ⟨e, -, hEq⟩ := List.mem_map.mp h
    exact .inr (Prod.mk.inj hEq).2.symm
  | notify h => exact .inl (.notify h)
  | recv n h => exact .inl (.recv n h)
  | call k h => exact .inl (.call k h)

theorem mapConn_onItsWay {s : EventConnManager κ} {n : ℕ} {f : EventConn κ → EventConn κ}
    {q : Parcel (Origin κ)} (h : (s.mapConn n f).OnItsWay q)
    (hRecv : q ∈ (f (s.conns n)).mailbox.recv → q ∈ (s.conns n).mailbox.recv) : s.OnItsWay q := by
  refine h.of_notify rfl rfl rfl id fun m hm => .inl ?_
  obtain rfl | hNe := eq_or_ne m n
  · rw [mapConn_conns_self] at hm
    exact hRecv hm
  · rwa [mapConn_conns_ne _ _ _ hNe] at hm

theorem receive_onItsWay {s : EventConnManager κ} {n : ℕ} {q : Parcel (Origin κ)}
    (h : (s.receive n).OnItsWay q) : s.OnItsWay q := by
  unfold receive at h
  split at h
  · exact h
  · dsimp only at h
    split at h
    · exact mapConn_onItsWay (mapConn_onItsWay h id) id
    · exact mapConn_onItsWay h id

theorem processEventConn_onItsWay {s : EventConnManager κ} {c : Setting} {n : ℕ} {q : Parcel (Origin κ)}
    (h : (s.processEventConn c n).OnItsWay q) (hNotify : s.notify = .ready) (hDeliveries : s.deliveries = [])
    (hEvent : s.event = some n) : s.OnItsWay q ∨ q ∈ Shutdown.dispatching s := by
  cases hPc : s.eventPc with
  | draining =>
    simp only [processEventConn, hPc] at h
    split at h
    · next p rest hSend =>
      obtain hOld | rfl := dispatch_onItsWay h
      · exact .inl (mapConn_onItsWay hOld id)
      · right
        simp only [Shutdown.dispatching, hNotify, hDeliveries, hEvent, hPc, hSend, List.take_succ_cons, List.take_zero]
        exact List.mem_singleton_self q
    · exact .inl (h.of_notify rfl rfl rfl id fun _ => .inl)
  | clearing =>
    simp only [processEventConn, hPc] at h
    have hBefore := h.of_notify (s := s.mapConn n fun x => { x with mailbox := { x.mailbox with send := [] } })
      rfl rfl rfl id fun _ => .inl
    exact .inl (mapConn_onItsWay hBefore id)
  | receiving =>
    simp only [processEventConn, hPc] at h
    exact .inl (receive_onItsWay (h.of_notify (s := s.receive n) rfl rfl rfl id fun _ => .inl))

theorem mainStep_onItsWay {s : EventConnManager κ} {c : Setting} {q : Parcel (Origin κ)}
    (h : (s.mainStep c).OnItsWay q) : s.OnItsWay q ∨ q ∈ Shutdown.dispatching s := by
  unfold mainStep at h
  split at h
  · next hReady =>
    split at h
    · next d p rest hDeliveries =>
      left
      obtain hOld | rfl := deliver_onItsWay h
      · cases hOld with
        | received h => exact .received h
        | delivery e h => exact .delivery e (by rw [hDeliveries]; exact List.mem_cons_of_mem _ h)
        | notify h => exact .notify h
        | recv n h => exact .recv n h
        | call k h => exact .call k h
      · exact .delivery d (by rw [hDeliveries]; exact List.mem_cons_self)
    · next hNil =>
      split at h
      · exact .inl h
      · next n hEvent => exact processEventConn_onItsWay h hReady hNil hEvent
  · exact .inl (notifyStep_onItsWay h)

variable [DecidableEq κ]

theorem setCall_onItsWay {s : EventConnManager κ} {k : κ} {x : Call κ} {q : Parcel (Origin κ)}
    (h : ({ s with calls := Function.update s.calls k x } : EventConnManager κ).OnItsWay q) :
    s.OnItsWay q ∨ x.pc.parcel = some q := by
  cases h with
  | received h => exact .inl (.received h)
  | delivery d h => exact .inl (.delivery d h)
  | notify h => exact .inl (.notify h)
  | recv n h => exact .inl (.recv n h)
  | call l h =>
    obtain rfl | hNe := eq_or_ne l k
    · simp only [Function.update_self] at h
      exact .inr h
    · simp only [Function.update_of_ne hNe] at h
      exact .inl (.call l h)

theorem setPc_onItsWay {s : EventConnManager κ} {k : κ} {pc : CallPc κ} {q : Parcel (Origin κ)}
    (h : (s.setPc k pc).OnItsWay q) : s.OnItsWay q ∨ pc.parcel = some q := setCall_onItsWay h

theorem callStep_onItsWay {s : EventConnManager κ} {k : κ} {q : Parcel (Origin κ)}
    (h : (s.callStep k).OnItsWay q) : s.OnItsWay q := by
  have hOwn : (s.calls k).pc.parcel = some q → s.OnItsWay q := fun hPc => .call k hPc
  have hNone : ∀ {t : EventConnManager κ} {pc : CallPc κ}, (t.setPc k pc).OnItsWay q → pc.parcel = none →
      t.OnItsWay q := by
    intro t pc h hNone
    refine (setPc_onItsWay h).resolve_right fun hSome => ?_
    rw [hNone] at hSome
    cases hSome
  cases hPc : (s.calls k).pc with
  | start | returned r =>
    simp only [callStep, hPc] at h
    exact h
  | allocated n | queued n =>
    simp only [callStep, hPc] at h
    exact mapConn_onItsWay (hNone h rfl) id
  | typed n =>
    simp only [callStep, hPc] at h
    exact mapConn_onItsWay (hNone h rfl) id
  | cleared n =>
    simp only [callStep, hPc] at h
    split at h
    · exact hNone h rfl
    · exact mapConn_onItsWay (hNone h rfl) id
  | waiting n =>
    simp only [callStep, hPc] at h
    refine mapConn_onItsWay (hNone h ?_) id
    cases (s.calls k).type <;> rfl
  | woken n =>
    simp only [callStep, hPc] at h
    split at h
    · exact hNone h rfl
    · next p rest hRecv =>
      obtain h | h := setPc_onItsWay h
      · refine mapConn_onItsWay h fun hq => ?_
        rw [hRecv]
        exact List.mem_cons_of_mem p hq
      · obtain rfl : p = q := Option.some.inj h
        exact .recv n (by rw [hRecv]; exact List.mem_cons_self)
  | popped n p =>
    simp only [callStep, hPc] at h
    obtain h | h := setPc_onItsWay h
    · exact mapConn_onItsWay h (by rintro ⟨⟩)
    · exact hOwn (by rw [hPc]; exact h)
  | finished n r =>
    rw [hPc] at hOwn
    simp only [callStep, hPc] at h
    split at h
    · exact (setPc_onItsWay h).elim id hOwn
    · split at h
      · exact (hNone h rfl).of_notify rfl rfl rfl id fun _ => .inl
      · exact (setPc_onItsWay h).elim id hOwn
  | unregistered n =>
    simp only [callStep, hPc] at h
    exact (hNone h rfl).of_notify rfl rfl rfl id fun _ => .inl

omit [DecidableEq κ] in
theorem addEventConn_onItsWay {s : EventConnManager κ} {q : Parcel (Origin κ)}
    (h : s.addEventConn.OnItsWay q) : s.OnItsWay q := by
  refine h.of_notify rfl rfl rfl id fun n hn => .inl ?_
  obtain rfl | hNe := eq_or_ne n s.connSz
  · simp only [addEventConn, Function.update_self] at hn
    cases hn
  · simpa only [addEventConn, Function.update_of_ne hNe] using hn

theorem alloc_onItsWay {s : EventConnManager κ} {k : κ} {type : ConnType} {msg : Msg} {q : Parcel (Origin κ)}
    (h : (s.alloc k type msg).OnItsWay q) : s.OnItsWay q := by
  obtain ⟨t, n, rest, hFrom, -, hEq⟩ := s.alloc_cases k type msg
  have ht : t.OnItsWay q → s.OnItsWay q := by
    obtain ⟨-, rfl⟩ | ⟨-, rfl⟩ := hFrom
    · exact id
    · exact addEventConn_onItsWay
  refine ht ?_
  obtain ⟨-, hEq⟩ | ⟨-, hEq⟩ := hEq
  · rw [hEq] at h
    exact (setCall_onItsWay (h.of_notify rfl rfl rfl id fun _ => .inl)).resolve_right (by rintro ⟨⟩)
  · rw [hEq] at h
    exact (setCall_onItsWay (h.of_notify rfl rfl rfl id fun _ => .inl)).resolve_right (by rintro ⟨⟩)

end EventConnManager

namespace Shutdown

/-- How many of the messages are the one that the call has posted. -/
def countOf [DecidableEq κ] (k : κ) (ps : List (Parcel (Origin κ))) : ℕ :=
  (ps.map Parcel.mark).count (.call k)

section Count

variable [DecidableEq κ] (k : κ)

@[simp] theorem countOf_nil : countOf k [] = 0 := rfl

theorem countOf_append (ps qs : List (Parcel (Origin κ))) :
    countOf k (ps ++ qs) = countOf k ps + countOf k qs := by
  rw [countOf, List.map_append, List.count_append, countOf, countOf]

theorem countOf_cons (p : Parcel (Origin κ)) (ps : List (Parcel (Origin κ))) :
    countOf k (p :: ps) = countOf k [p] + countOf k ps := countOf_append k [p] ps

theorem countOf_of_ne {p : Parcel (Origin κ)} (h : p.mark ≠ .call k) : countOf k [p] = 0 := by
  rw [countOf, List.map_singleton, List.count_singleton, if_neg (by simpa using h)]

theorem countOf_self (m : Msg) : countOf k [⟨.call k, m⟩] = 1 := by
  simp [countOf]

theorem Dispatched.count_pos {s : Shutdown κ} (h : s.Dispatched k) : 0 < countOf k s.dispatched := by
  obtain ⟨p, hMem, hMark⟩ := h
  exact List.count_pos_iff.mpr (hMark ▸ List.mem_map_of_mem hMem)

end Count

variable [DecidableEq κ]

/-- The message of a call is in one send queue or has been dispatched, after the call has posted it. -/
def Single (s : Shutdown κ) (k : κ) : Prop :=
  ∃ n, (∀ m, m ≠ n → countOf k (s.mgr.conns m).mailbox.send = 0) ∧
    countOf k (s.mgr.conns n).mailbox.send + countOf k s.dispatched ≤ (s.mgr.calls k).pc.posted.toNat

theorem Single.dispatched_le {s : Shutdown κ} {k : κ} (h : s.Single k) : countOf k s.dispatched ≤ 1 := by
  obtain ⟨n, -, hOwn⟩ := h
  calc countOf k s.dispatched ≤ countOf k (s.mgr.conns n).mailbox.send + countOf k s.dispatched :=
        Nat.le_add_left ..
    _ ≤ (s.mgr.calls k).pc.posted.toNat := hOwn
    _ ≤ 1 := Bool.toNat_le _

theorem Single.of_le {s t : Shutdown κ} {k : κ} (h : s.Single k)
    (hSend : ∀ m, countOf k (t.mgr.conns m).mailbox.send ≤ countOf k (s.mgr.conns m).mailbox.send)
    (hDispatched : t.dispatched = s.dispatched)
    (hPosted : (s.mgr.calls k).pc.posted = true → (t.mgr.calls k).pc.posted = true) : t.Single k := by
  obtain ⟨n, hOther, hOwn⟩ := h
  refine ⟨n, fun m hNe => Nat.eq_zero_of_le_zero (hOther m hNe ▸ hSend m), ?_⟩
  rw [hDispatched]
  have hBound : (s.mgr.calls k).pc.posted.toNat ≤ (t.mgr.calls k).pc.posted.toNat := by
    cases hBefore : (s.mgr.calls k).pc.posted with
    | false => exact Nat.zero_le _
    | true => rw [hPosted hBefore]
  have := hSend n
  omega

theorem Single.callStep {s : Shutdown κ} {k l : κ} {n : ℕ} (h : s.Single l) (b : Backend)
    (hHolds : s.mgr.Holds k n) : (s.callStep b k).Single l := by
  obtain ⟨hMgr, -⟩ := s.callStep_mgr b k
  have hFrame := EventConnManager.callStep_frame hHolds
  have hDispatched : (s.callStep b k).dispatched = s.dispatched := callStep_dispatched ..
  have hLess : countOf l ((s.mgr.callStep k).conns n).mailbox.send ≤ countOf l (s.mgr.conns n).mailbox.send →
      ((s.mgr.calls k).pc.posted = true → ((s.mgr.callStep k).calls k).pc.posted = true) →
      (s.callStep b k).Single l := by
    intro hSend hPosted
    refine h.of_le (fun m => ?_) hDispatched fun hBefore => ?_
    · rw [hMgr]
      obtain rfl | hNe := eq_or_ne m n
      · exact hSend
      · rw [hFrame.conn m hNe]
    · rw [hMgr]
      obtain rfl | hNe := eq_or_ne l k
      · exact hPosted hBefore
      · rw [hFrame.others l hNe]
        exact hBefore
  cases EventConnManager.callStep_turn hHolds with
  | quiet hSend hMain hPosted hAfter => exact hLess (by rw [hSend]) hPosted
  | emptied hPc hAfter hNil hMain =>
    refine hLess (by rw [hNil]; exact Nat.zero_le _) fun hBefore => ?_
    rw [hPc] at hBefore
    cases hBefore
  | told hPc hAfter hSend hMain => exact hLess (by rw [hSend]) fun _ => by rw [hAfter]; rfl
  | pushed m hPc hAfter hSend hMain =>
    obtain rfl | hNe := eq_or_ne l k
    · -- nothing of the call's is anywhere yet
      obtain ⟨n', hOther, hOwn⟩ := h
      rw [hPc] at hOwn
      have hNone : ∀ m, countOf l (s.mgr.conns m).mailbox.send = 0 := by
        intro m
        obtain rfl | hNe := eq_or_ne m n'
        · exact Nat.eq_zero_of_add_eq_zero_right (Nat.le_zero.mp hOwn)
        · exact hOther m hNe
      refine ⟨n, fun m hm => ?_, ?_⟩
      · rw [hMgr, hFrame.conn m hm]
        exact hNone m
      · rw [hMgr, hSend, hAfter, hDispatched, countOf_append, hNone, countOf_self]
        have hZero := Nat.eq_zero_of_add_eq_zero_left (Nat.le_zero.mp hOwn)
        rw [hZero]
        exact Nat.le_refl _
    · refine hLess ?_ fun _ => by rw [hAfter]; rfl
      rw [hSend, countOf_append, countOf_of_ne l (by rintro ⟨⟩; exact hNe rfl)]
      exact Nat.le_refl _

theorem Single.mainStep {s t : Shutdown κ} {k : κ} (h : s.Single k) {mgr : EventConnManager κ}
    (hTurn : EventConnManager.MainTurn s.mgr mgr) (hCalls : mgr.calls = s.mgr.calls) (hMgr : t.mgr = mgr)
    (hDispatched : t.dispatched = s.dispatched ++ dispatching s.mgr) : t.Single k := by
  subst hMgr
  have hQuiet : dispatching s.mgr = [] →
      (∀ m, countOf k (t.mgr.conns m).mailbox.send ≤ countOf k (s.mgr.conns m).mailbox.send) → t.Single k := by
    intro hNil hSend
    refine h.of_le hSend (by rw [hDispatched, hNil, List.append_nil]) fun hBefore => ?_
    rw [hCalls]
    exact hBefore
  cases hTurn with
  | notified hPosts hNil _ _ _ _ | delivered _ hPosts hNil _ _ _ | drained _ _ hPosts hNil _ _ _ =>
    exact hQuiet hNil fun m => by rw [hPosts.send]
  | received n _ hNil hSend _ _ _ _ => exact hQuiet hNil fun m => by rw [hSend]
  | cleared n _ hNil _ hOwn hOther _ _ _ =>
    refine hQuiet hNil fun m => ?_
    obtain rfl | hNe := eq_or_ne m n
    · rw [hOwn]
      exact Nat.zero_le _
    · rw [hOther m hNe]
  | sent n p hEvent hOne hOwn hOther hMain hStill hPc =>
    obtain ⟨n', hZero, hBound⟩ := h
    rw [← hCalls] at hBound
    obtain rfl | hNe := eq_or_ne n n'
    · refine ⟨n, fun m hm => ?_, ?_⟩
      · rw [hOther m hm]
        exact hZero m hm
      · rw [hOwn, countOf_cons] at hBound
        rw [hDispatched, hOne, countOf_append]
        omega
    · -- it is not the message of this call
      have hNone := hZero n hNe
      rw [hOwn, countOf_cons] at hNone
      refine ⟨n', fun m hm => ?_, ?_⟩
      · obtain rfl | hm' := eq_or_ne m n
        · omega
        · rw [hOther m hm']
          exact hZero m hm
      · rw [hOther n' hNe.symm, hDispatched, hOne, countOf_append]
        omega

/-- What a call has posted is on its way nowhere but after it has been dispatched, and so is an answer to it. -/
structure Traced (s : Shutdown κ) : Prop where
  source : ∀ n, ∀ p ∈ (s.mgr.conns n).mailbox.send, ∃ k, p.mark = .call k
  known : ∀ q, s.mgr.OnItsWay q → ∀ k, q.mark = .call k ∨ q.mark = .answer (.call k) → s.Dispatched k

omit [DecidableEq κ] in
theorem Traced.of_same {s t : Shutdown κ} (h : s.Traced)
    (hSend : ∀ n, ∀ p ∈ (t.mgr.conns n).mailbox.send, p ∈ (s.mgr.conns n).mailbox.send)
    (hWay : ∀ q, t.mgr.OnItsWay q → s.mgr.OnItsWay q) (hDispatched : t.dispatched = s.dispatched) :
    t.Traced where
  source n p hp := h.source n p (hSend n p hp)
  known q hq k hMark := (h.known q (hWay q hq) k hMark).mono (hDispatched ▸ List.Subset.refl _)

theorem Traced.callStep {s : Shutdown κ} (h : s.Traced) (b : Backend) {k : κ} {n : ℕ}
    (hHolds : s.mgr.Holds k n) : (s.callStep b k).Traced := by
  obtain ⟨hMgr, -⟩ := s.callStep_mgr b k
  have hFrame := EventConnManager.callStep_frame hHolds
  have hDispatched : (s.callStep b k).dispatched = s.dispatched := callStep_dispatched ..
  constructor
  · intro m p hp
    rw [hMgr] at hp
    obtain rfl | hNe := eq_or_ne m n
    · cases EventConnManager.callStep_turn hHolds with
      | quiet hSend _ _ _ | told _ _ hSend _ => exact h.source m p (hSend ▸ hp)
      | emptied _ _ hNil _ =>
        rw [hNil] at hp
        cases hp
      | pushed _ _ _ hSend _ =>
        rw [hSend] at hp
        obtain hp | hp := List.mem_append.mp hp
        · exact h.source m p hp
        · exact ⟨k, congrArg Parcel.mark (List.mem_singleton.mp hp)⟩
    · rw [hFrame.conn m hNe] at hp
      exact h.source m p hp
  · intro q hq l hMark
    rw [hMgr] at hq
    exact (h.known q (EventConnManager.callStep_onItsWay hq) l hMark).mono (hDispatched ▸ List.Subset.refl _)

omit [DecidableEq κ] in
theorem Traced.mainStep {s t : Shutdown κ} (h : s.Traced) (c : EventConnManager.Setting)
    (hBusy : s.mgr.busy = true) (hMgr : t.mgr = s.mgr.mainStep c)
    (hDispatched : t.dispatched = s.dispatched ++ dispatching s.mgr) : t.Traced := by
  have hStill : ∀ k, s.Dispatched k → t.Dispatched k := fun k hk =>
    hk.mono (hDispatched ▸ List.subset_append_left ..)
  have hTurn := EventConnManager.mainStep_turn c hBusy
  rw [← hMgr] at hTurn
  have hSource : ∀ p ∈ dispatching s.mgr, ∃ n, p ∈ (s.mgr.conns n).mailbox.send := by
    intro p hp
    cases hTurn with
    | notified _ hNil _ _ _ _ | delivered _ _ hNil _ _ _ | drained _ _ _ hNil _ _ _ | cleared _ _ hNil _ _ _ _ _ _
    | received _ _ hNil _ _ _ _ _ =>
      rw [hNil] at hp
      cases hp
    | sent n p' _ hOne hOwn _ _ _ _ =>
      rw [hOne] at hp
      rw [List.mem_singleton.mp hp]
      exact ⟨n, hOwn ▸ List.mem_cons_self⟩
  constructor
  · intro m p hp
    cases hTurn with
    | notified hPosts _ _ _ _ _ | delivered _ hPosts _ _ _ _ | drained _ _ hPosts _ _ _ _ =>
      exact h.source m p (hPosts.send m ▸ hp)
    | received _ _ _ hSend _ _ _ _ => exact h.source m p (hSend m ▸ hp)
    | cleared n _ _ _ hOwn hOther _ _ _ =>
      obtain rfl | hNe := eq_or_ne m n
      · rw [hOwn] at hp
        cases hp
      · exact h.source m p (hOther m hNe ▸ hp)
    | sent n p' _ _ hOwn hOther _ _ _ =>
      obtain rfl | hNe := eq_or_ne m n
      · exact h.source m p (hOwn ▸ List.mem_cons_of_mem p' hp)
      · exact h.source m p (hOther m hNe ▸ hp)
  · intro q hq k hMark
    rw [hMgr] at hq
    obtain hOld | hNew := EventConnManager.mainStep_onItsWay hq
    · exact hStill k (h.known q hOld k hMark)
    · obtain ⟨n, hPosted⟩ := hSource q hNew
      obtain ⟨k', hCall⟩ := h.source n q hPosted
      refine ⟨q, hDispatched ▸ List.mem_append_right _ hNew, ?_⟩
      obtain hMark | hMark := hMark
      · exact hMark
      · rw [hCall] at hMark
        cases hMark

theorem once_of_same {s t : Shutdown κ} (h : (∀ k, s.Single k) ∧ s.Traced)
    (hSend : ∀ n, (t.mgr.conns n).mailbox.send = (s.mgr.conns n).mailbox.send ∨ (t.mgr.conns n).mailbox.send = [])
    (hCalls : ∀ k, (s.mgr.calls k).pc = .start ∨ t.mgr.calls k = s.mgr.calls k)
    (hWay : ∀ q, t.mgr.OnItsWay q → s.mgr.OnItsWay q) (hDispatched : t.dispatched = s.dispatched) :
    (∀ k, t.Single k) ∧ t.Traced := by
  obtain ⟨hSingle, hTraced⟩ := h
  constructor
  · intro k
    refine (hSingle k).of_le (fun m => ?_) hDispatched fun hBefore => ?_
    · obtain hSame | hNil := hSend m
      · rw [hSame]
      · rw [hNil]
        exact Nat.zero_le _
    · obtain hStart | hSame := hCalls k
      · rw [hStart] at hBefore
        cases hBefore
      · rw [hSame]
        exact hBefore
  · refine hTraced.of_same (fun n p hp => ?_) hWay hDispatched
    obtain hSame | hNil := hSend n
    · exact hSame ▸ hp
    · rw [hNil] at hp
      cases hp

theorem once_setCall {s t : Shutdown κ} (h : (∀ k, s.Single k) ∧ s.Traced) {k : κ} {x : Call κ}
    (hStart : (s.mgr.calls k).pc = .start) (hNone : x.pc.parcel = none)
    (hMgr : t.mgr = { s.mgr with calls := Function.update s.mgr.calls k x })
    (hDispatched : t.dispatched = s.dispatched) : (∀ k, t.Single k) ∧ t.Traced := by
  refine once_of_same h (fun n => .inl ?_) (fun l => ?_) (fun q hq => ?_) hDispatched
  · rw [hMgr]
  · obtain rfl | hNe := eq_or_ne l k
    · exact .inl hStart
    · rw [hMgr]
      exact .inr (Function.update_of_ne hNe ..)
  · rw [hMgr] at hq
    refine (EventConnManager.setCall_onItsWay hq).resolve_right ?_
    rw [hNone]
    rintro ⟨⟩

theorem once_alloc {s : Shutdown κ} (h : (∀ k, s.Single k) ∧ s.Traced) {k : κ} {type : ConnType} {msg : Msg}
    (hStart : (s.mgr.calls k).pc = .start) :
    (∀ l, ({ s with mgr := s.mgr.alloc k type msg } : Shutdown κ).Single l) ∧
      ({ s with mgr := s.mgr.alloc k type msg } : Shutdown κ).Traced := by
  obtain ⟨t, n, rest, hFrom, -, hEq⟩ := s.mgr.alloc_cases k type msg
  have hConns : ∀ m, (t.conns m).mailbox.send = (s.mgr.conns m).mailbox.send ∨ (t.conns m).mailbox.send = [] := by
    intro m
    obtain ⟨-, rfl⟩ | ⟨-, rfl⟩ := hFrom
    · exact .inl rfl
    · obtain rfl | hNe := eq_or_ne m s.mgr.connSz
      · exact .inr (by simp only [EventConnManager.addEventConn, Function.update_self])
      · exact .inl (by simp only [EventConnManager.addEventConn, Function.update_of_ne hNe])
  have hCalls : t.calls = s.mgr.calls := by
    obtain ⟨-, rfl⟩ | ⟨-, rfl⟩ := hFrom
    · rfl
    · rfl
  refine once_of_same h (fun m => ?_) (fun l => ?_) (fun q hq => EventConnManager.alloc_onItsWay hq) rfl
  · obtain ⟨-, hEq⟩ | ⟨-, hEq⟩ := hEq
    · simp only [hEq]
      exact hConns m
    · simp only [hEq]
      exact hConns m
  · obtain rfl | hNe := eq_or_ne l k
    · exact .inl hStart
    · right
      obtain ⟨-, hEq⟩ | ⟨-, hEq⟩ := hEq
      · simp only [hEq, EventConnManager.taken_calls_ne hNe, hCalls]
      · simp only [hEq, Function.update_of_ne hNe, hCalls]

/-- What is taken up from outside is no message of a call and answers only what has been dispatched. -/
theorem once_dispatch {s : Shutdown κ} (h : (∀ k, s.Single k) ∧ s.Traced) (c : EventConnManager.Setting)
    {p : Parcel (Origin κ)} (hKnown : ∀ k, p.mark = .call k ∨ p.mark = .answer (.call k) → s.Dispatched k) :
    (∀ k, ({ s with mgr := s.mgr.dispatch c p } : Shutdown κ).Single k) ∧
      ({ s with mgr := s.mgr.dispatch c p } : Shutdown κ).Traced := by
  obtain ⟨hSingle, hTraced⟩ := h
  refine ⟨fun k => (hSingle k).of_le (fun _ => Nat.le_refl _) rfl id, hTraced.source, fun q hq k hMark => ?_⟩
  obtain hOld | rfl := EventConnManager.dispatch_onItsWay hq
  · exact hTraced.known q hOld k hMark
  · exact hKnown k hMark

theorem once_execStep {s : Shutdown κ} (h : (∀ k, s.Single k) ∧ s.Traced) :
    (∀ k, s.execStep.Single k) ∧ s.execStep.Traced := by
  rw [execStep]
  cases s.exec with
  | loop | cleared => exact once_of_same h (fun _ => .inl rfl) (fun _ => .inr rfl) (fun _ => id) rfl
  | returned => exact h
  | left =>
    exact once_of_same h (fun _ => .inl rfl) (fun _ => .inr rfl)
      (fun q hq => hq.of_notify rfl rfl rfl id fun _ => .inl) rfl
  | emptied =>
    have hBox : ∀ n, ((clearEvents s.mgr).conns n).mailbox = (s.mgr.conns n).mailbox := by
      intro n
      simp only [clearEvents]
      split
      · rfl
      · rfl
    refine once_of_same h (fun n => .inl (by rw [hBox])) (fun _ => .inr rfl) (fun q hq => ?_) rfl
    refine hq.of_notify rfl rfl rfl id fun n hn => .inl ?_
    rwa [hBox] at hn

theorem once_next (c : EventConnManager.Setting) (b : Backend) (s : Shutdown κ) (l : Label κ)
    (h : (∀ k, s.Single k) ∧ s.Traced) (hEn : s.enabled l) :
    (∀ k, (s.next c b l).Single k) ∧ (s.next c b l).Traced := by
  cases l with
  | check k type msg =>
    simp only [next, check]
    split
    · exact once_setCall h hEn.1 rfl rfl rfl
    · exact once_setCall h hEn.1 rfl rfl rfl
  | alloc k => exact once_alloc h hEn.1
  | call k =>
    obtain ⟨n, hHolds⟩ := EventConnManager.holds_of_ready hEn
    exact ⟨fun l => (h.1 l).callStep b hHolds, h.2.callStep b hHolds⟩
  | main =>
    have hTurn := EventConnManager.mainStep_turn c hEn.2
    have hCalls := (EventConnManager.mainStep_frame s.mgr c).calls
    exact ⟨fun k => (h.1 k).mainStep hTurn hCalls rfl rfl, h.2.mainStep c hEn.2 rfl rfl⟩
  | event n =>
    exact once_of_same h (fun _ => .inl rfl) (fun _ => .inr rfl)
      (fun q hq => hq.of_notify rfl rfl rfl id fun _ => .inl) rfl
  | answer p m =>
    refine once_dispatch h c fun k hMark => ?_
    obtain hMark | hMark := hMark
    · cases hMark
    · exact h.2.known p (.received hEn.2.2) k (.inl (Origin.answer.inj hMark))
  | arrive m =>
    refine once_dispatch h c fun k hMark => ?_
    obtain hMark | hMark := hMark
    · cases hMark
    · cases hMark
  | exec => exact once_execStep h
  | quit => exact once_of_same h (fun _ => .inl rfl) (fun _ => .inr rfl) (fun _ => id) rfl

theorem once_initial (sz : ℕ) : (∀ k, (initial sz : Shutdown κ).Single k) ∧ (initial sz : Shutdown κ).Traced := by
  induction sz with
  | zero =>
    refine ⟨fun k => ⟨0, fun _ _ => rfl, Nat.zero_le _⟩, ?_, ?_⟩
    · rintro _ _ ⟨⟩
    · intro q hq
      cases hq with
      | received h | delivery _ h | notify h | recv _ h | call _ h => cases h
  | succ sz ih =>
    refine once_of_same ih (fun n => ?_) (fun _ => .inr rfl)
      (fun q hq => EventConnManager.addEventConn_onItsWay hq) rfl
    simp only [initial, EventConnManager.initial, EventConnManager.addEventConn]
    obtain rfl | hNe := eq_or_ne n (EventConnManager.initial sz : EventConnManager κ).connSz
    · rw [Function.update_self]
      exact .inr rfl
    · rw [Function.update_of_ne hNe]
      exact .inl rfl

end Shutdown
end Myframe
