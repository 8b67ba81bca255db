import Myframe.Mailbox.Ledger
import Myframe.UserWorker.Rest

/-! # What becomes of the messages of a user worker

A message that is dispatched to a worker waits in its receive queue, then in its run queue; one that the worker
posts waits in its send queue until the main loop handles its event.
-/
namespace Myframe
set_option autoImplicit false

/-- A move keeps the order of what has come if there is no limit, or nothing to be put in front of. -/
theorem Mailbox.moveToRun_inOrder {γ : Type} {b : Mailbox γ}
    (h : 0 < b.runQueueSize → b.run = [] ∨ b.recv = []) : b.moveToRun.run ++ b.moveToRun.recv = b.run ++ b.recv := by
  by_cases hPos : 0 < b.runQueueSize
  · rw [moveToRun_of_pos hPos]
    obtain hRun | hRecv := h hPos
    · simp [hRun]
    · simp [hRecv]
  · rw [moveToRun_of_nonpos hPos]
    exact List.append_nil _

namespace OwnerCall

variable {γ : Type}

def popped (b : Mailbox γ) : OwnerCall γ → List (Parcel γ)
  | .popRun => b.run.take 1
  | .send _ | .sendClear | .moveToRun | .setRunQueueSize _ | .setPendingQueueSize _ => []

def posted : OwnerCall γ → List (Parcel γ)
  | .send p => [p]
  | .sendClear | .moveToRun | .popRun | .setRunQueueSize _ | .setPendingQueueSize _ => []

end OwnerCall

namespace WorkerContextManager

variable {ω γ : Type} [DecidableEq ω]

/-- What `DispatchWorkerMsg` puts into the mailbox of `w` for a delivery. -/
def copy (s : WorkerContextManager ω γ) (w : ω) (p : Parcel γ) : Delivery → List (Parcel γ)
  | .worker name => if s.names name = some w ∧ (s.heap w).type = .kWorkerUser then [p] else []
  | .actor _ | .conn _ => []

def copies (c : Setting) (w : ω) (s : WorkerContextManager ω γ) (p : Parcel γ) : List (Parcel γ) :=
  ((s.directory c).dispatchMsg c.walk s.subs p.msg).2.flatMap (s.copy w p)

/-- What the next step of the main loop takes out of the send queue of `v` to dispatch it. -/
def drained (s : WorkerContextManager ω γ) (v : ω) : List (Parcel γ) :=
  if s.event = some v ∧ s.eventPc = .draining then (s.heap v).mailbox.send.take 1 else []

def undrained (s : WorkerContextManager ω γ) (v : ω) : List (Parcel γ) :=
  if s.event = some v then
    match s.eventPc with
    | .draining => (s.heap v).mailbox.send.tail
    | .clearing => []
    | .receiving => (s.heap v).mailbox.send
  else (s.heap v).mailbox.send

def received (c : Setting) (w : ω) (s : WorkerContextManager ω γ) : Label ω γ → List (Parcel γ)
  | .arrive p => s.copies c w p
  | .main =>
    match s.event with
    | none => []
    | some v => (s.drained v).flatMap (s.copies c w)
  | .weakup | .event _ | .call .. | .sendCmd .. | .recvCmd _ | .stop _ | .exit _ | .quit _ => []

def given (w : ω) (s : WorkerContextManager ω γ) : Label ω γ → List (Parcel γ)
  | .call v f => if v = w then f.popped (s.heap w).mailbox else []
  | .arrive _ | .weakup | .event _ | .main | .sendCmd .. | .recvCmd _ | .stop _ | .exit _ | .quit _ => []

def posted (w : ω) (_ : WorkerContextManager ω γ) : Label ω γ → List (Parcel γ)
  | .call v f => if v = w then f.posted else []
  | .arrive _ | .weakup | .event _ | .main | .sendCmd .. | .recvCmd _ | .stop _ | .exit _ | .quit _ => []

def dispatched (w : ω) (s : WorkerContextManager ω γ) : Label ω γ → List (Parcel γ)
  | .main => s.drained w
  | .arrive _ | .weakup | .event _ | .call .. | .sendCmd .. | .recvCmd _ | .stop _ | .exit _ | .quit _ => []

/-- What is asked of `w`: it leaves its mailbox alone while the main loop is at it, drops nothing of its own, sets
no limit to what it is sent, and lets no batch overtake another. -/
def Orderly (w : ω) (s : WorkerContextManager ω γ) : Label ω γ → Prop
  | .weakup => w ∈ s.weakup → (s.heap w).ctrlOwner = .kMain → (s.heap w).pc ≠ .running ∧
    (0 < (s.heap w).mailbox.runQueueSize → (s.heap w).mailbox.run = [] ∨ (s.heap w).mailbox.recv = [])
  | .call v f => v = w → (s.event = some w → s.eventPc = .receiving) ∧
    match f with
    | .moveToRun =>
      0 < (s.heap w).mailbox.runQueueSize → (s.heap w).mailbox.run = [] ∨ (s.heap w).mailbox.recv = []
    | .setPendingQueueSize n => n ≤ 0
    | .sendClear => False
    | .send _ | .popRun | .setRunQueueSize _ => True
  | .arrive _ | .event _ | .main | .sendCmd .. | .recvCmd _ | .stop _ | .exit _ | .quit _ => True

instance (w : ω) (s : WorkerContextManager ω γ) (l : Label ω γ) : Decidable (Orderly w s l) :=
  match l with
  | .weakup => inferInstanceAs (Decidable (w ∈ s.weakup → (s.heap w).ctrlOwner = .kMain → (s.heap w).pc ≠ .running ∧
      (0 < (s.heap w).mailbox.runQueueSize → (s.heap w).mailbox.run = [] ∨ (s.heap w).mailbox.recv = [])))
  | .call v .moveToRun => inferInstanceAs (Decidable (v = w → (s.event = some w → s.eventPc = .receiving) ∧
      (0 < (s.heap w).mailbox.runQueueSize → (s.heap w).mailbox.run = [] ∨ (s.heap w).mailbox.recv = [])))
  | .call v (.setPendingQueueSize n) =>
    inferInstanceAs (Decidable (v = w → (s.event = some w → s.eventPc = .receiving) ∧ n ≤ 0))
  | .call v .sendClear =>
    inferInstanceAs (Decidable (v = w → (s.event = some w → s.eventPc = .receiving) ∧ False))
  | .call v (.send _) | .call v .popRun | .call v (.setRunQueueSize _) =>
    inferInstanceAs (Decidable (v = w → (s.event = some w → s.eventPc = .receiving) ∧ True))
  | .arrive _ | .event _ | .main | .sendCmd .. | .recvCmd _ | .stop _ | .exit _ | .quit _ => .isTrue trivial

variable {s t : WorkerContextManager ω γ} {w : ω}

/-- What dispatching does for `w`: the copies come to its receive queue. -/
structure Takes (w : ω) (ps : List (Parcel γ)) (s t : WorkerContextManager ω γ) : Prop where
  names : t.names = s.names
  type : (t.heap w).type = (s.heap w).type
  mailbox : (t.heap w).mailbox = { (s.heap w).mailbox with recv := (s.heap w).mailbox.recv ++ ps }

omit [DecidableEq ω] in
theorem Takes.refl (w : ω) (s : WorkerContextManager ω γ) : Takes w [] s s :=
  ⟨rfl, rfl, by rw [List.append_nil]⟩

omit [DecidableEq ω] in
theorem Takes.trans {ps qs : List (Parcel γ)} {u : WorkerContextManager ω γ} (h : Takes w ps s t)
    (h' : Takes w qs t u) : Takes w (ps ++ qs) s u := by
  refine ⟨h'.names.trans h.names, h'.type.trans h.type, ?_⟩
  rw [h'.mailbox, h.mailbox, List.append_assoc]

theorem takes_dispatchWorkerMsg (hPending : (s.heap w).mailbox.pendingQueueSize ≤ 0) (name : String)
    (p : Parcel γ) : Takes w (s.copy w p (.worker name)) s (s.dispatchWorkerMsg name p) := by
  by_cases hTo : s.names name = some w ∧ (s.heap w).type = .kWorkerUser
  · have hCopy : s.copy w p (.worker name) = [p] := if_pos hTo
    obtain ⟨hName, hUser⟩ := hTo
    rw [hCopy, dispatchWorkerMsg]
    simp only [hName]
    rw [if_neg (not_not.mpr hUser)]
    split
    · refine ⟨rfl, by rw [modify_heap_self], ?_⟩
      rw [modify_heap_self, Mailbox.receive_of_nonpos hPending]
    · refine ⟨rfl, ?_, ?_⟩
      · simp only [modify_heap_self]
      · simp only [modify_heap_self, Mailbox.receive_of_nonpos hPending]
  · have hCopy : s.copy w p (.worker name) = [] := if_neg hTo
    rw [hCopy, dispatchWorkerMsg]
    split
    · exact .refl w s
    · next v hName =>
      split
      · exact .refl w s
      · next hUser =>
        have hNe : w ≠ v := by
          rintro rfl
          exact hTo ⟨hName, not_not.mp hUser⟩
        split
        · refine ⟨rfl, ?_, ?_⟩
          · rw [modify_heap, if_neg hNe]
          · rw [modify_heap, if_neg hNe, List.append_nil]
        · refine ⟨rfl, ?_, ?_⟩
          · simp only [modify_heap, if_neg hNe]
          · simp only [modify_heap, if_neg hNe, List.append_nil]

theorem takes_deliver (c : Setting) (hPending : (s.heap w).mailbox.pendingQueueSize ≤ 0) (p : Parcel γ) :
    Takes w (s.copies c w p) s (s.deliver c p) := by
  have hFold : ∀ (ds : List Delivery) (t : WorkerContextManager ω γ), t.names = s.names →
      (t.heap w).type = (s.heap w).type → (t.heap w).mailbox.pendingQueueSize ≤ 0 →
      Takes w (ds.flatMap (s.copy w p)) t (ds.foldl (deliverTo p) t) := by
    intro ds
    induction ds with
    | nil => exact fun t _ _ _ => .refl w t
    | cons d ds ih =>
      intro t hNames hType hPending
      have hHead : Takes w (s.copy w p d) t (deliverTo p t d) := by
        cases d with
        | worker name =>
          have hCopy : s.copy w p (.worker name) = t.copy w p (.worker name) := by rw [copy, copy, hNames, hType]
          rw [hCopy]
          exact takes_dispatchWorkerMsg hPending name p
        | actor name | conn name => exact .refl w t
      rw [List.flatMap_cons, List.foldl_cons]
      refine hHead.trans (ih _ (hHead.names.trans hNames) (hHead.type.trans hType) ?_)
      rw [hHead.mailbox]
      exact hPending
  have hAll := hFold ((s.directory c).dispatchMsg c.walk s.subs p.msg).2
    { s with subs := ((s.directory c).dispatchMsg c.walk s.subs p.msg).1 } rfl rfl hPending
  exact ⟨hAll.names, hAll.type, hAll.mailbox⟩

theorem copies_setSend (c : Setting) (s : WorkerContextManager ω γ) (v : ω) (send : List (Parcel γ)) :
    (s.modify v fun x => { x with mailbox := { x.mailbox with send := send } }).copies c w = s.copies c w := by
  have hType : ((s.modify v fun x => { x with mailbox := { x.mailbox with send := send } }).heap w).type =
      (s.heap w).type := by
    rw [modify_heap]
    split
    · next hw => rw [hw]
    · rfl
  funext p
  rw [copies, copies]
  congr 1
  funext d
  cases d with
  | worker name =>
    rw [copy, copy, hType]
    rfl
  | actor name | conn name => rfl

def mailboxAfter (c : Setting) (w : ω) (s : WorkerContextManager ω γ) : Label ω γ → Mailbox γ
  | .arrive p => { (s.heap w).mailbox with recv := (s.heap w).mailbox.recv ++ s.copies c w p }
  | .weakup =>
    if w ∈ s.weakup ∧ (s.heap w).ctrlOwner = .kMain then (s.heap w).mailbox.moveToRun else (s.heap w).mailbox
  | .main =>
    { (s.heap w).mailbox with recv := (s.heap w).mailbox.recv ++ s.received c w .main, send := s.undrained w }
  | .call v f => if v = w then f.apply (s.heap w).mailbox else (s.heap w).mailbox
  | .event _ | .sendCmd .. | .recvCmd _ | .stop _ | .exit _ | .quit _ => (s.heap w).mailbox

theorem modify_mailbox (s : WorkerContextManager ω γ) (v w : ω) {f : WorkerContext γ → WorkerContext γ}
    (hf : (f (s.heap v)).mailbox = (s.heap v).mailbox) : ((s.modify v f).heap w).mailbox = (s.heap w).mailbox := by
  rw [modify_heap]
  split
  · next hw => rw [hf, hw]
  · rfl

theorem receive_mailbox (s : WorkerContextManager ω γ) (v w : ω) :
    ((s.receive v).heap w).mailbox = (s.heap w).mailbox := by
  cases hTo : (s.heap v).channel.toMain with
  | nil => simp only [receive, hTo]
  | cons cmd rest =>
    obtain ⟨hElse, hOwn⟩ := receive_heap hTo
    obtain rfl | hNe := eq_or_ne w v
    · rw [hOwn]
      cases cmd <;> rfl
    · rw [hElse w hNe]

theorem processUserEvent_mailbox (c : Setting) (hPending : (s.heap w).mailbox.pendingQueueSize ≤ 0) {v : ω}
    (hEvent : s.event = some v) :
    ((s.processUserEvent c v).heap w).mailbox = { (s.heap w).mailbox with
      recv := (s.heap w).mailbox.recv ++ (s.drained v).flatMap (s.copies c w)
      send := s.undrained w } := by
  have hOther : w ≠ v → s.undrained w = (s.heap w).mailbox.send := fun hNe =>
    if_neg (by rw [hEvent]; exact fun hEq => hNe (Option.some.inj hEq).symm)
  have hSet : ∀ send : List (Parcel γ),
      ((s.modify v fun x => { x with mailbox := { x.mailbox with send := send } }).heap w).mailbox =
        { (s.heap w).mailbox with send := if w = v then send else (s.heap w).mailbox.send } := by
    intro send
    rw [modify_heap]
    split
    · next hw => rw [hw]
    · rfl
  cases hPc : s.eventPc with
  | draining =>
    cases hSend : (s.heap v).mailbox.send with
    | cons p rest =>
      have hDrained : s.drained v = [p] := by
        rw [drained, if_pos ⟨hEvent, hPc⟩, hSend]
        rfl
      have hTakes := takes_deliver (s := s.modify v fun x =>
        { x with mailbox := { x.mailbox with send := rest } }) (w := w) c (by rw [hSet]; exact hPending) p
      simp only [processUserEvent, hPc, hSend]
      rw [hTakes.mailbox, hSet, copies_setSend, hDrained, List.flatMap_singleton]
      obtain rfl | hNe := eq_or_ne w v
      · have hLeft : s.undrained w = rest := by simp only [undrained, hEvent, hPc, hSend, if_true, List.tail_cons]
        rw [if_pos rfl, hLeft]
      · rw [if_neg hNe, hOther hNe]
    | nil =>
      have hDrained : s.drained v = [] := by
        rw [drained, if_pos ⟨hEvent, hPc⟩, hSend]
        rfl
      simp only [processUserEvent, hPc, hSend]
      rw [hDrained, List.flatMap_nil, List.append_nil]
      obtain rfl | hNe := eq_or_ne w v
      · have hLeft : s.undrained w = (s.heap w).mailbox.send := by
          simp only [undrained, hEvent, hPc, hSend, if_true, List.tail_nil]
        rw [hLeft]
      · rw [hOther hNe]
  | clearing =>
    have hDrained : s.drained v = [] := if_neg (by rw [hPc]; rintro ⟨-, ⟨⟩⟩)
    simp only [processUserEvent, hPc]
    rw [hSet, hDrained, List.flatMap_nil, List.append_nil]
    obtain rfl | hNe := eq_or_ne w v
    · have hLeft : s.undrained w = [] := by simp only [undrained, hEvent, hPc, if_true]
      rw [if_pos rfl, hLeft]
    · rw [if_neg hNe, hOther hNe]
  | receiving =>
    have hDrained : s.drained v = [] := if_neg (by rw [hPc]; rintro ⟨-, ⟨⟩⟩)
    have hLeft : s.undrained w = (s.heap w).mailbox.send := by simp only [undrained, hPc, ite_self]
    simp only [processUserEvent, hPc]
    rw [receive_mailbox, hDrained, hLeft, List.flatMap_nil, List.append_nil]

theorem next_mailbox (c : Setting) (hListed : s.Listed) (hPending : (s.heap w).mailbox.pendingQueueSize ≤ 0)
    {l : Label ω γ} (hEnabled : s.enabled l) : ((s.next c l).heap w).mailbox = s.mailboxAfter c w l := by
  cases l with
  | arrive p => exact (takes_deliver c hPending p).mailbox
  | weakup =>
    rw [next, weakupWorker_heap hListed, mailboxAfter]
    split <;> rfl
  | event v => rfl
  | main =>
    obtain ⟨v, hEvent⟩ := Option.ne_none_iff_exists'.mp hEnabled
    have hReceived : s.received c w .main = (s.drained v).flatMap (s.copies c w) := by simp only [received, hEvent]
    rw [next, hEvent, mailboxAfter, hReceived]
    exact processUserEvent_mailbox c hPending hEvent
  | call v f =>
    rw [next, modify_heap, mailboxAfter]
    obtain rfl | hNe := eq_or_ne w v
    · rw [if_pos rfl, if_pos rfl]
    · rw [if_neg hNe, if_neg hNe.symm]
  | recvCmd v =>
    simp only [next]
    split
    · rfl
    · exact modify_mailbox s v w rfl
  | sendCmd v wait | stop v | exit v | quit v =>
    rw [next]
    exact modify_mailbox s v w rfl

/-- The worker has set no limit to what it is sent, and has posted nothing behind the loop over its send queue. -/
structure Unlimited (w : ω) (s : WorkerContextManager ω γ) : Prop where
  listed : s.Listed
  pending : (s.heap w).mailbox.pendingQueueSize ≤ 0
  emptied : s.event = some w → s.eventPc = .clearing → (s.heap w).mailbox.send = []

theorem pending_next (h : Unlimited w s) (c : Setting) {l : Label ω γ} (hEnabled : s.enabled l)
    (hOrderly : s.Orderly w l) : ((s.next c l).heap w).mailbox.pendingQueueSize ≤ 0 := by
  rw [next_mailbox c h.listed h.pending hEnabled]
  cases l with
  | weakup =>
    rw [mailboxAfter]
    split
    · rw [Mailbox.moveToRun_pendingQueueSize]
      exact h.pending
    · exact h.pending
  | call v f =>
    rw [mailboxAfter]
    split
    · next hv =>
      cases f with
      | setPendingQueueSize n => exact (hOrderly hv).2
      | moveToRun =>
        rw [OwnerCall.apply, Mailbox.moveToRun_pendingQueueSize]
        exact h.pending
      | send p | sendClear | popRun | setRunQueueSize n => exact h.pending
    · exact h.pending
  | arrive p | event v | main | sendCmd v wait | recvCmd v | stop v | exit v | quit v => exact h.pending

/-- The loop ends at an empty send queue, and up to `clear()` its owner posts nothing. -/
theorem emptied_next (h : Unlimited w s) (c : Setting) {l : Label ω γ} (hEnabled : s.enabled l)
    (hOrderly : s.Orderly w l) (hEvent : (s.next c l).event = some w) (hPc : (s.next c l).eventPc = .clearing) :
    ((s.next c l).heap w).mailbox.send = [] := by
  cases l with
  | arrive p =>
    rw [next, (s.deliver_event c p).1, hEnabled] at hEvent
    cases hEvent
  | weakup =>
    rw [next, weakupWorker, (weakupLoop_event s.weakup [] s).1, hEnabled] at hEvent
    cases hEvent
  | event v => cases hPc
  | main =>
    obtain ⟨v, hServed⟩ := Option.ne_none_iff_exists'.mp hEnabled
    simp only [next, hServed] at hEvent hPc ⊢
    cases hAt : s.eventPc with
    | draining =>
      cases hSend : (s.heap v).mailbox.send with
      | cons p rest =>
        simp only [processUserEvent, hAt, hSend] at hPc
        rw [(deliver_event c _ p).2, modify_eventPc, hAt] at hPc
        cases hPc
      | nil =>
        simp only [processUserEvent, hAt, hSend] at hEvent ⊢
        cases hServed.symm.trans hEvent
        exact hSend
    | clearing =>
      simp only [processUserEvent, hAt] at hPc
      cases hPc
    | receiving =>
      simp only [processUserEvent, hAt] at hEvent
      cases hEvent
  | call v f =>
    rw [next, modify_heap]
    split
    · next hv =>
      have hReceiving := (hOrderly hv.symm).1 hEvent
      cases hReceiving.symm.trans hPc
    · exact h.emptied hEvent hPc
  | recvCmd v =>
    have hSame : ((s.next c (.recvCmd v)).heap w).mailbox = (s.heap w).mailbox :=
      next_mailbox c h.listed h.pending hEnabled
    rw [hSame]
    cases hOwner : (s.heap v).channel.toOwner with
    | nil =>
      simp only [next, hOwner] at hEvent hPc
      exact h.emptied hEvent hPc
    | cons cmd rest =>
      simp only [next, hOwner, modify_event, modify_eventPc] at hEvent hPc
      exact h.emptied hEvent hPc
  | sendCmd v wait | stop v | exit v | quit v =>
    rw [next_mailbox c h.listed h.pending hEnabled]
    exact h.emptied hEvent hPc

theorem unlimited_next (h : Unlimited w s) (c : Setting) {l : Label ω γ} (hEnabled : s.enabled l)
    (hOrderly : s.Orderly w l) : Unlimited w (s.next c l) :=
  ⟨h.listed.next c l, pending_next h c hEnabled hOrderly, emptied_next h c hEnabled hOrderly⟩

/-- What has come to `w` and not been given to it. -/
def waiting (w : ω) (s : WorkerContextManager ω γ) : List (Parcel γ) :=
  (s.heap w).mailbox.run ++ (s.heap w).mailbox.recv

theorem waiting_balance (h : Unlimited w s) (c : Setting) {l : Label ω γ} (hEnabled : s.enabled l)
    (hOrderly : s.Orderly w l) :
    s.waiting w ++ s.received c w l = s.given w l ++ (s.next c l).waiting w := by
  rw [waiting, waiting, next_mailbox c h.listed h.pending hEnabled]
  cases l with
  | arrive p => exact List.append_assoc ..
  | weakup =>
    rw [received, given, List.append_nil, List.nil_append, mailboxAfter]
    split
    · next hTaken => exact (Mailbox.moveToRun_inOrder (hOrderly hTaken.1 hTaken.2).2).symm
    · rfl
  | main => exact List.append_assoc ..
  | call v f =>
    rw [received, given, List.append_nil, mailboxAfter]
    split
    · next hv =>
      cases f with
      | popRun =>
        rw [OwnerCall.popped, OwnerCall.apply, ← List.append_assoc, ← List.drop_one, List.take_append_drop]
      | moveToRun => exact (Mailbox.moveToRun_inOrder (hOrderly hv).2).symm
      | send p | sendClear | setRunQueueSize n | setPendingQueueSize n => rfl
    · rfl
  | event v | sendCmd v wait | recvCmd v | stop v | exit v | quit v => exact List.append_nil _

/-- At `clear()` there is nothing to erase. -/
theorem drained_undrained (h : Unlimited w s) : s.drained w ++ s.undrained w = (s.heap w).mailbox.send := by
  by_cases hEvent : s.event = some w
  · rw [drained, undrained, if_pos hEvent]
    cases hPc : s.eventPc with
    | draining =>
      rw [if_pos ⟨hEvent, rfl⟩, ← List.drop_one]
      exact List.take_append_drop 1 _
    | clearing =>
      rw [if_neg (by rintro ⟨-, ⟨⟩⟩), h.emptied hEvent hPc]
      rfl
    | receiving =>
      rw [if_neg (by rintro ⟨-, ⟨⟩⟩)]
      rfl
  · rw [drained, undrained, if_neg fun hBoth => hEvent hBoth.1, if_neg hEvent]
    rfl

theorem send_balance (h : Unlimited w s) (c : Setting) {l : Label ω γ} (hEnabled : s.enabled l)
    (hOrderly : s.Orderly w l) :
    (s.heap w).mailbox.send ++ s.posted w l = s.dispatched w l ++ ((s.next c l).heap w).mailbox.send := by
  rw [next_mailbox c h.listed h.pending hEnabled]
  cases l with
  | weakup =>
    rw [posted, dispatched, List.append_nil, List.nil_append, mailboxAfter]
    split
    · rw [Mailbox.moveToRun_send]
    · rfl
  | main =>
    rw [posted, List.append_nil]
    exact (drained_undrained h).symm
  | call v f =>
    rw [posted, dispatched, List.nil_append, mailboxAfter]
    split
    · next hv =>
      cases f with
      | send p => rfl
      | sendClear => cases (hOrderly hv).2
      | moveToRun => rw [OwnerCall.posted, List.append_nil, OwnerCall.apply, Mailbox.moveToRun_send]
      | popRun | setRunQueueSize n | setPendingQueueSize n => exact List.append_nil _
    · exact List.append_nil _
  | arrive p | event v | sendCmd v wait | recvCmd v | stop v | exit v | quit v => exact List.append_nil _

/-- Of all messages dispatched to a worker, each is given to it once and in the order of dispatch, but for those that
still wait in its mailbox; and of all it has posted, the main loop has dispatched each once and in order, but for
those in its send queue. -/
theorem user_messages_once (c : Setting) (name : ω → String) (pendingQueueSize runQueueSize : ω → ℤ)
    (names : String → Option ω) (ls : List (Label ω γ)) (w : ω) (hPending : pendingQueueSize w ≤ 0)
    (hRuns : (system c).Runs (users name pendingQueueSize runQueueSize names) ls)
    (hOrderly : ∀ p ∈ (system c).steps (users name pendingQueueSize runQueueSize names) ls, p.1.Orderly w p.2) :
    (system c).emitted (received c w) (users name pendingQueueSize runQueueSize names) ls =
        (system c).emitted (given w) (users name pendingQueueSize runQueueSize names) ls ++
          ((system c).exec (users name pendingQueueSize runQueueSize names) ls).waiting w ∧
      (system c).emitted (posted w) (users name pendingQueueSize runQueueSize names) ls =
        (system c).emitted (dispatched w) (users name pendingQueueSize runQueueSize names) ls ++
          (((system c).exec (users name pendingQueueSize runQueueSize names) ls).heap w).mailbox.send := by
  have hStart : Unlimited w (users (γ := γ) name pendingQueueSize runQueueSize names) :=
    ⟨(users_attended name pendingQueueSize runQueueSize names).listed, hPending, by rintro ⟨⟩⟩
  have hStep : ∀ (s : WorkerContextManager ω γ) (l : Label ω γ), Unlimited w s → s.enabled l → s.Orderly w l →
      Unlimited w (s.next c l) := fun s l h hEn hl => unlimited_next h c hEn hl
  have hWaiting : ∀ (s : WorkerContextManager ω γ) (l : Label ω γ), Unlimited w s → s.enabled l → s.Orderly w l →
      s.waiting w ++ s.received c w l = s.given w l ++ (s.next c l).waiting w :=
    fun s l h hEn hl => waiting_balance h c hEn hl
  have hSend : ∀ (s : WorkerContextManager ω γ) (l : Label ω γ), Unlimited w s → s.enabled l → s.Orderly w l →
      (s.heap w).mailbox.send ++ s.posted w l = s.dispatched w l ++ ((s.next c l).heap w).mailbox.send :=
    fun s l h hEn hl => send_balance h c hEn hl
  have hIn := (system c).conservation hStep hWaiting hStart hRuns hOrderly
  have hOut := (system c).conservation hStep hSend hStart hRuns hOrderly
  exact ⟨hIn, hOut⟩

/-- The worker posts an answer to the first of its messages. -/
def answerRun : List (Label Unit Unit) :=
  handedRun.take 8 ++ [.call () .popRun, .call () (.send ⟨(), { dst := "actor.a.1" }⟩), .sendCmd () false, .event (),
    .main, .main, .main, .main]

theorem user_messages_once_answer :
    ((system {}).emitted (given ()) askStart answerRun).length = 1 ∧
      (system {}).emitted (posted ()) askStart answerRun =
        (system {}).emitted (dispatched ()) askStart answerRun ++
          (((system {}).exec askStart answerRun).heap ()).mailbox.send := by
  have hRun : (system {}).Runs askStart answerRun := by decide
  obtain ⟨-, hOut⟩ := user_messages_once {} _ _ _ _ answerRun () (by decide) hRun (by decide)
  exact ⟨by decide, hOut⟩

end WorkerContextManager
end Myframe
