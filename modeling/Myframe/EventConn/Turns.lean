import Myframe.EventConn.Shutdown

/-! # What each step does to the posted messages

The main loop takes up an event only where a command is to be read, and the command stays until then: what
is announced later stands behind it.
-/
namespace Myframe
set_option autoImplicit false

variable {κ : Type}

namespace CallPc

/-- The call has posted its message, or is past the place where it would have. -/
def posted : CallPc κ → Bool
  | .start | .allocated _ | .typed _ | .cleared _ => false
  | .queued _ | .waiting _ | .woken _ | .popped .. | .finished .. | .unregistered _ | .returned _ => true

end CallPc

namespace Notify

/-- What is left to do. -/
def weight : Notify κ → ℕ
  | .ready => 0
  | .stored _ => 1
  | .released .. => 2
  | .deleted .. => 3
  | .checked .. => 4
  | .found .. => 5

end Notify

namespace EventConnManager

/-- What has been posted on a connection, and the commands with which its owner has announced it. -/
structure SamePosts (s t : EventConnManager κ) : Prop where
  send : ∀ n, (t.conns n).mailbox.send = (s.conns n).mailbox.send
  toMain : ∀ n, (t.conns n).channel.toMain = (s.conns n).channel.toMain

theorem SamePosts.of_conns {s t : EventConnManager κ} (h : t.conns = s.conns) : SamePosts s t := by
  constructor
  · intro n
    rw [h]
  · intro n
    rw [h]

theorem SamePosts.mapConn (s : EventConnManager κ) (m : ℕ) {f : EventConn κ → EventConn κ}
    (hSend : (f (s.conns m)).mailbox.send = (s.conns m).mailbox.send)
    (hMain : (f (s.conns m)).channel.toMain = (s.conns m).channel.toMain) : SamePosts s (s.mapConn m f) := by
  constructor
  · intro n
    obtain rfl | hNe := eq_or_ne n m
    · rw [mapConn_conns_self, hSend]
    · rw [mapConn_conns_ne _ _ _ hNe]
  · intro n
    obtain rfl | hNe := eq_or_ne n m
    · rw [mapConn_conns_self, hMain]
    · rw [mapConn_conns_ne _ _ _ hNe]

/-- The main loop goes on with a `Notify`, takes up the next delivery, dispatches a message that has been
posted, finds none left, clears the send queue, or reads a command. -/
inductive MainTurn (s t : EventConnManager κ) : Prop
  | notified (hPosts : SamePosts s t) (hDispatching : Shutdown.dispatching s = [])
      (hDeliveries : t.deliveries = s.deliveries) (hEvent : t.event = s.event) (hPc : t.eventPc = s.eventPc)
      (hNotify : t.notify.weight < s.notify.weight)
  | delivered (d : Delivery × Parcel (Origin κ)) (hPosts : SamePosts s t)
      (hDispatching : Shutdown.dispatching s = []) (hDeliveries : s.deliveries = d :: t.deliveries)
      (hEvent : t.event = s.event) (hPc : t.eventPc = s.eventPc)
  | sent (n : ℕ) (p : Parcel (Origin κ)) (hEvent : s.event = some n) (hDispatching : Shutdown.dispatching s = [p])
      (hOwn : (s.conns n).mailbox.send = p :: (t.conns n).mailbox.send)
      (hOther : ∀ m, m ≠ n → (t.conns m).mailbox.send = (s.conns m).mailbox.send)
      (hMain : ∀ m, (t.conns m).channel.toMain = (s.conns m).channel.toMain) (hStill : t.event = s.event)
      (hPc : t.eventPc = s.eventPc)
  | drained (n : ℕ) (hEvent : s.event = some n) (hPosts : SamePosts s t)
      (hDispatching : Shutdown.dispatching s = []) (hNil : (s.conns n).mailbox.send = [])
      (hStill : t.event = s.event) (hPc : s.eventPc = .draining ∧ t.eventPc = .clearing)
  | cleared (n : ℕ) (hEvent : s.event = some n) (hDispatching : Shutdown.dispatching s = [])
      (hClearing : Shutdown.clearing s = some n) (hOwn : (t.conns n).mailbox.send = [])
      (hOther : ∀ m, m ≠ n → (t.conns m).mailbox.send = (s.conns m).mailbox.send)
      (hMain : ∀ m, (t.conns m).channel.toMain = (s.conns m).channel.toMain) (hStill : t.event = s.event)
      (hPc : s.eventPc = .clearing ∧ t.eventPc = .receiving)
  | received (n : ℕ) (hEvent : s.event = some n) (hDispatching : Shutdown.dispatching s = [])
      (hSend : ∀ m, (t.conns m).mailbox.send = (s.conns m).mailbox.send)
      (hOwn : (t.conns n).channel.toMain = (s.conns n).channel.toMain.tail)
      (hOther : ∀ m, m ≠ n → (t.conns m).channel.toMain = (s.conns m).channel.toMain)
      (hPc : s.eventPc = .receiving) (hNone : t.event = none)

theorem notifyStep_posts (s : EventConnManager κ) : SamePosts s (s.notifyStep s.notify) := by
  cases s.notify with
  | ready | deleted n p => exact .of_conns rfl
  | found n p | checked n p =>
    rw [notifyStep]
    split
    · exact .of_conns rfl
    · exact .of_conns rfl
  | released n p =>
    obtain ⟨hSend, hMain⟩ := SamePosts.mapConn s n (f := fun x => { x with mailbox := x.mailbox.receive p })
      (Mailbox.receive_send _ p) rfl
    exact ⟨hSend, hMain⟩
  | stored n =>
    obtain ⟨hSend, hMain⟩ := SamePosts.mapConn s n
      (f := fun x => { x with channel := x.channel.sendToOwner .kIdle }) rfl rfl
    exact ⟨hSend, hMain⟩

theorem notifyStep_weight {s : EventConnManager κ} (h : s.notify ≠ .ready) :
    (s.notifyStep s.notify).notify.weight < s.notify.weight := by
  cases hNotify : s.notify with
  | ready => exact absurd hNotify h
  | found n p | checked n p =>
    rw [notifyStep]
    split <;> simp [Notify.weight]
  | deleted n p | released n p | stored n => simp [notifyStep, Notify.weight]

theorem notifyStep_rest (s : EventConnManager κ) :
    (s.notifyStep s.notify).deliveries = s.deliveries ∧ (s.notifyStep s.notify).event = s.event ∧
      (s.notifyStep s.notify).eventPc = s.eventPc := by
  cases s.notify with
  | found n p | checked n p =>
    rw [notifyStep]
    split
    · exact ⟨rfl, rfl, rfl⟩
    · exact ⟨rfl, rfl, rfl⟩
  | ready | deleted n p | released n p | stored n => exact ⟨rfl, rfl, rfl⟩

theorem notifyStep_turn {s : EventConnManager κ} (h : s.notify ≠ .ready) :
    MainTurn s (s.notifyStep s.notify) := by
  have hDispatching : Shutdown.dispatching s = [] := by
    rw [Shutdown.dispatching]
    split
    · next hReady _ _ _ => exact absurd hReady h
    · rfl
  obtain ⟨hDeliveries, hEvent, hPc⟩ := s.notifyStep_rest
  exact .notified s.notifyStep_posts hDispatching hDeliveries hEvent hPc (notifyStep_weight h)

theorem receive_posts (s : EventConnManager κ) (n : ℕ) :
    (∀ m, ((s.receive n).conns m).mailbox.send = (s.conns m).mailbox.send) ∧
      ((s.receive n).conns n).channel.toMain = (s.conns n).channel.toMain.tail ∧
      ∀ m, m ≠ n → ((s.receive n).conns m).channel.toMain = (s.conns m).channel.toMain := by
  unfold receive
  split
  · next hMain => exact ⟨fun _ => rfl, by rw [hMain]; rfl, fun _ _ => rfl⟩
  · next cmd rest hMain =>
    rw [hMain]
    dsimp only
    refine ⟨fun m => ?_, ?_, fun m hNe => ?_⟩
    · obtain rfl | hNe := eq_or_ne m n
      · split <;> simp
      · split <;> simp only [mapConn_conns_ne _ _ _ hNe]
    · split <;> simp
    · split <;> simp only [mapConn_conns_ne _ _ _ hNe]

theorem setSend_posts (s : EventConnManager κ) (n : ℕ) (send : List (Parcel (Origin κ))) :
    let t := s.mapConn n fun x => { x with mailbox := { x.mailbox with send := send } }
    (t.conns n).mailbox.send = send ∧ (∀ m, m ≠ n → (t.conns m).mailbox.send = (s.conns m).mailbox.send) ∧
      ∀ m, (t.conns m).channel.toMain = (s.conns m).channel.toMain := by
  refine ⟨by rw [mapConn_conns_self], fun m hNe => by rw [mapConn_conns_ne _ _ _ hNe], fun m => ?_⟩
  obtain rfl | hNe := eq_or_ne m n
  · rw [mapConn_conns_self]
  · rw [mapConn_conns_ne _ _ _ hNe]

theorem processEventConn_turn {s : EventConnManager κ} (c : Setting) {n : ℕ} (hNotify : s.notify = .ready)
    (hDeliveries : s.deliveries = []) (hEvent : s.event = some n) : MainTurn s (s.processEventConn c n) := by
  cases hPc : s.eventPc with
  | draining =>
    have hDispatching : Shutdown.dispatching s = (s.conns n).mailbox.send.take 1 := by
      simp only [Shutdown.dispatching, hNotify, hDeliveries, hEvent, hPc]
    cases hSend : (s.conns n).mailbox.send with
    | cons p rest =>
      simp only [processEventConn, hPc, hSend]
      obtain ⟨hOwn, hOther, hMain⟩ := s.setSend_posts n rest
      have hHead := hSend.trans (congrArg (List.cons p) hOwn.symm)
      exact .sent n p hEvent (by rw [hDispatching, hSend]; rfl) hHead hOther hMain rfl rfl
    | nil =>
      simp only [processEventConn, hPc, hSend]
      exact .drained n hEvent (.of_conns rfl) (by rw [hDispatching, hSend]; rfl) hSend rfl ⟨hPc, rfl⟩
  | clearing =>
    have hDispatching : Shutdown.dispatching s = [] := by
      simp only [Shutdown.dispatching, hNotify, hDeliveries, hEvent, hPc]
    have hClearing : Shutdown.clearing s = some n := by
      simp only [Shutdown.clearing, hNotify, hDeliveries, hEvent, hPc]
    simp only [processEventConn, hPc]
    obtain ⟨hOwn, hOther, hMain⟩ := s.setSend_posts n []
    exact .cleared n hEvent hDispatching hClearing hOwn hOther hMain rfl ⟨hPc, rfl⟩
  | receiving =>
    have hDispatching : Shutdown.dispatching s = [] := by
      simp only [Shutdown.dispatching, hNotify, hDeliveries, hEvent, hPc]
    simp only [processEventConn, hPc]
    obtain ⟨hSame, hOwn, hOther⟩ := s.receive_posts n
    exact .received n hEvent hDispatching hSame hOwn hOther hPc rfl

theorem mainStep_turn {s : EventConnManager κ} (c : Setting) (h : s.busy = true) :
    MainTurn s (s.mainStep c) := by
  cases hNotify : s.notify with
  | ready =>
    cases hDeliveries : s.deliveries with
    | cons d rest =>
      have hDispatching : Shutdown.dispatching s = [] := by rw [Shutdown.dispatching, hDeliveries, hNotify]
      obtain ⟨d, p⟩ := d
      simp only [mainStep, hNotify, hDeliveries]
      cases d with
      | actor name | worker name => exact .delivered _ (.of_conns rfl) hDispatching hDeliveries rfl rfl
      | conn name =>
        simp only [deliver]
        split
        · exact .delivered _ (.of_conns rfl) hDispatching hDeliveries rfl rfl
        · split
          · exact .delivered _ (.of_conns rfl) hDispatching hDeliveries rfl rfl
          · exact .delivered _ (.of_conns rfl) hDispatching hDeliveries rfl rfl
    | nil =>
      cases hEvent : s.event with
      | none =>
        rw [busy, hNotify, hDeliveries, hEvent] at h
        cases h
      | some n =>
        simp only [mainStep, hNotify, hDeliveries, hEvent]
        exact processEventConn_turn c hNotify hDeliveries hEvent
  | found n p | checked n p | deleted n p | released n p | stored n =>
    have hTurn := notifyStep_turn (s := s) (by rw [hNotify]; rintro ⟨⟩)
    rw [hNotify] at hTurn
    rw [mainStep, hNotify]
    exact hTurn

theorem mainStep_toMain {s : EventConnManager κ} (c : Setting) (h : s.busy = true) (n : ℕ) :
    (((s.mainStep c).conns n).channel.toMain).Sublist (s.conns n).channel.toMain := by
  cases mainStep_turn c h with
  | notified hPosts _ _ _ _ _ | delivered _ hPosts _ _ _ _ | drained _ _ hPosts _ _ _ _ =>
    rw [hPosts.toMain]
  | sent _ _ _ _ _ _ hMain _ _ | cleared _ _ _ _ _ _ hMain _ _ => rw [hMain]
  | received m _ _ _ hOwn hOther _ _ =>
    obtain rfl | hNe := eq_or_ne n m
    · rw [hOwn]
      exact List.tail_sublist _
    · rw [hOther n hNe]

/-- The connection whose event is being processed has a command to read. -/
structure Served (s : EventConnManager κ) : Prop extends s.Sized where
  event : ∀ n, s.event = some n → n < s.connSz ∧ (s.conns n).channel.toMain ≠ []

theorem Served.of_same {s t : EventConnManager κ} (h : s.Served) (ht : t.Sized) (hSz : s.connSz ≤ t.connSz)
    (hEvent : t.event = s.event)
    (hMain : ∀ n < s.connSz, (s.conns n).channel.toMain ≠ [] → (t.conns n).channel.toMain ≠ []) :
    t.Served where
  toSized := ht
  event n hn := by
    obtain ⟨hLt, hSome⟩ := h.event n (hEvent ▸ hn)
    exact ⟨Nat.lt_of_lt_of_le hLt hSz, hMain n hLt hSome⟩

theorem Served.addEventConn {s : EventConnManager κ} (h : s.Served) : s.addEventConn.Served := by
  refine h.of_same h.toSized.addEventConn (Nat.le_succ _) rfl fun n hLt hSome => ?_
  simpa only [EventConnManager.addEventConn, Function.update_of_ne (Nat.ne_of_lt hLt)] using hSome

theorem Served.mainStep {s : EventConnManager κ} (h : s.Served) (c : Setting) (hBusy : s.busy = true) :
    (s.mainStep c).Served := by
  have hSz := (mainStep_frame s c).connSz.ge
  have hSized := h.toSized.mainStep c
  cases mainStep_turn c hBusy with
  | notified hPosts _ _ hStill _ _ | delivered _ hPosts _ _ hStill _ | drained _ _ hPosts _ _ hStill _ =>
    exact h.of_same hSized hSz hStill fun n _ hSome => by rwa [hPosts.toMain]
  | sent _ _ _ _ _ _ hMain hStill _ | cleared _ _ _ _ _ _ hMain hStill _ =>
    exact h.of_same hSized hSz hStill fun n _ hSome => by rwa [hMain]
  | received _ _ _ _ _ _ _ hNone =>
    refine ⟨hSized, fun n hn => ?_⟩
    rw [hNone] at hn
    cases hn

variable [DecidableEq κ]

/-- A call clears the send queue, posts its message, or announces it. -/
inductive CallTurn (s t : EventConnManager κ) (k : κ) (n : ℕ) : Prop
  | quiet (hSend : (t.conns n).mailbox.send = (s.conns n).mailbox.send)
      (hMain : (t.conns n).channel.toMain = (s.conns n).channel.toMain)
      (hPosted : (s.calls k).pc.posted = true → (t.calls k).pc.posted = true)
      (hAfter : ∀ m, (t.calls k).pc ≠ .queued m ∧ (t.calls k).pc ≠ .waiting m)
  | emptied (hPc : (s.calls k).pc = .typed n) (hAfter : (t.calls k).pc = .cleared n)
      (hNil : (t.conns n).mailbox.send = [])
      (hMain : (t.conns n).channel.toMain = (s.conns n).channel.toMain)
  | pushed (m : Msg) (hPc : (s.calls k).pc = .cleared n) (hAfter : (t.calls k).pc = .queued n)
      (hSend : (t.conns n).mailbox.send = (s.conns n).mailbox.send ++ [⟨.call k, m⟩])
      (hMain : (t.conns n).channel.toMain = (s.conns n).channel.toMain)
  | told (hPc : (s.calls k).pc = .queued n) (hAfter : (t.calls k).pc = .waiting n)
      (hSend : (t.conns n).mailbox.send = (s.conns n).mailbox.send)
      (hMain : ∃ cmd, (t.conns n).channel.toMain = (s.conns n).channel.toMain ++ [cmd])

theorem callStep_turn {s : EventConnManager κ} {k : κ} {n : ℕ} (h : s.Holds k n) :
    CallTurn s (s.callStep k) k n := by
  cases hPc : (s.calls k).pc with
  | start | returned r => exact absurd h (not_holds hPc rfl)
  | allocated m =>
    obtain rfl : m = n := h.eq hPc rfl
    apply CallTurn.quiet <;> simp [callStep, hPc, CallPc.posted]
  | typed m =>
    obtain rfl : m = n := h.eq hPc rfl
    apply CallTurn.emptied hPc <;> simp [callStep, hPc]
  | cleared m =>
    obtain rfl : m = n := h.eq hPc rfl
    rw [callStep, hPc]
    dsimp only
    split
    · apply CallTurn.quiet <;> simp [hPc, CallPc.posted]
    · refine .pushed (s.stamped m (s.calls k).msg) hPc ?_ ?_ ?_
      · rw [setPc_calls_self]
      · rw [setPc_conns, mapConn_conns_self, Mailbox.push_send]
      · rw [setPc_conns, mapConn_conns_self]
  | queued m =>
    obtain rfl : m = n := h.eq hPc rfl
    rw [callStep, hPc]
    refine .told hPc ?_ ?_ ?_
    · rw [setPc_calls_self]
    · rw [setPc_conns, mapConn_conns_self]
    · rw [setPc_conns, mapConn_conns_self, CmdChannel.sendToMain_toMain]
      exact ⟨_, rfl⟩
  | waiting m =>
    obtain rfl : m = n := h.eq hPc rfl
    cases hType : (s.calls k).type with
    | kSend | kSendReq => apply CallTurn.quiet <;> simp [callStep, hPc, hType, CallPc.posted]
  | woken m =>
    obtain rfl : m = n := h.eq hPc rfl
    rw [callStep, hPc]
    dsimp only
    split <;> apply CallTurn.quiet <;> simp [CallPc.posted]
  | popped m p | unregistered m =>
    obtain rfl : m = n := h.eq hPc rfl
    apply CallTurn.quiet <;> simp [callStep, hPc, CallPc.posted]
  | finished m r =>
    obtain rfl : m = n := h.eq hPc rfl
    rw [callStep, hPc]
    dsimp only
    split
    · apply CallTurn.quiet <;> simp [CallPc.posted]
    · split <;> apply CallTurn.quiet <;> simp [CallPc.posted]

theorem Served.alloc {s : EventConnManager κ} (h : s.Served) (k : κ) (type : ConnType) (msg : Msg) :
    (s.alloc k type msg).Served := by
  have hSized := h.toSized.alloc k type msg
  obtain ⟨t, n, rest, hFrom, -, hEq⟩ := s.alloc_cases k type msg
  have ht : t.Served := by
    obtain ⟨-, rfl⟩ | ⟨-, rfl⟩ := hFrom
    · exact h
    · exact h.addEventConn
  obtain ⟨-, hEq⟩ | ⟨-, hEq⟩ := hEq
  · rw [hEq] at hSized ⊢
    exact ht.of_same hSized (Nat.le_refl _) rfl fun _ _ => id
  · rw [hEq] at hSized ⊢
    exact ht.of_same hSized (Nat.le_refl _) rfl fun _ _ => id

theorem callStep_event (s : EventConnManager κ) (k : κ) :
    (s.callStep k).event = s.event ∧ (s.callStep k).eventPc = s.eventPc := by
  cases hPc : (s.calls k).pc with
  | start | allocated n | typed n | queued n | waiting n | popped n p | unregistered n | returned r =>
    simp [EventConnManager.callStep, hPc, setPc, EventConnManager.mapConn]
  | cleared n | woken n =>
    simp only [EventConnManager.callStep, hPc]
    split <;> exact ⟨rfl, rfl⟩
  | finished n r =>
    simp only [EventConnManager.callStep, hPc]
    split
    · exact ⟨rfl, rfl⟩
    · split <;> exact ⟨rfl, rfl⟩

theorem Served.callStep {s : EventConnManager κ} (h : s.Served) {k : κ} (hReady : s.ready k = true) :
    (s.callStep k).Served := by
  obtain ⟨n, hHolds⟩ := holds_of_ready hReady
  have hFrame := callStep_frame hHolds
  refine h.of_same (h.toSized.callStep hReady) hFrame.connSz.ge (callStep_event s k).1 fun m _ hSome => ?_
  obtain rfl | hNe := eq_or_ne m n
  · cases callStep_turn hHolds with
    | quiet _ hMain _ _ | emptied _ _ _ hMain | pushed _ _ _ _ hMain => rwa [hMain]
    | told _ _ _ hMain =>
      obtain ⟨cmd, hMain⟩ := hMain
      rw [hMain]
      exact List.append_ne_nil_of_left_ne_nil hSome [cmd]
  · rwa [hFrame.conn m hNe]

end EventConnManager

namespace Shutdown

open EventConnManager (Served)

variable [DecidableEq κ]

theorem served_next (c : EventConnManager.Setting) (b : Backend) (s : Shutdown κ) (l : Label κ)
    (h : s.mgr.Served) (hEn : s.enabled l) : (s.next c b l).mgr.Served := by
  have hSame : ∀ t : EventConnManager κ, t.Sized → t.connSz = s.mgr.connSz → t.event = s.mgr.event →
      t.conns = s.mgr.conns → t.Served := by
    intro t ht hSz hEvent hConns
    exact h.of_same ht hSz.ge hEvent fun n _ hSome => by rwa [hConns]
  cases l with
  | check k type msg =>
    simp only [next, check]
    split
    · exact hSame _ (h.toSized.setCall rfl) rfl rfl rfl
    · exact hSame _ (h.toSized.setCall rfl) rfl rfl rfl
  | alloc k => exact h.alloc k _ _
  | call k =>
    simp only [next, (s.callStep_mgr b k).1]
    exact h.callStep hEn
  | main => exact h.mainStep c hEn.2
  | event n =>
    refine ⟨h.toSized.of_same rfl rfl rfl rfl rfl, ?_⟩
    rintro _ ⟨⟩
    exact ⟨h.evs_lt n hEn.2.2.1, hEn.2.2.2⟩
  | answer p m | arrive m => exact hSame _ (h.toSized.of_same rfl rfl rfl rfl rfl) rfl rfl rfl
  | quit => exact h
  | exec =>
    simp only [next, execStep]
    cases hExec : s.exec with
    | loop | cleared | returned => exact h
    | left => exact hSame _ ⟨h.holds_lt, by rintro _ ⟨⟩, h.evs_lt, h.notify_lt⟩ rfl rfl rfl
    | emptied =>
      refine h.of_same ⟨h.holds_lt, h.idle_lt, by rintro _ ⟨⟩, h.notify_lt⟩ (Nat.le_refl _) rfl fun n _ hSome => ?_
      simp only [clearEvents]
      split
      · exact hSome
      · exact hSome

omit [DecidableEq κ] in
theorem served_initial (sz : ℕ) : (initial sz : Shutdown κ).mgr.Served := by
  induction sz with
  | zero => exact ⟨EventConnManager.sized_initial 0, by rintro _ ⟨⟩⟩
  | succ sz ih => exact ih.addEventConn

end Shutdown
end Myframe
