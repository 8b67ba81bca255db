import Mathlib.Algebra.Order.BigOperators.Group.Finset
import Mathlib.Data.Fintype.EquivFin
import Mathlib.Data.Prod.Lex
import Myframe.Library.Rest
import Myframe.UserWorker.Weakup

/-! # The user workers come to rest

Left to themselves, the main loop and the user workers do what is to be done and then wait. No worker waits
for an answer then: it runs code of its own, or waits for messages while there are none, or has been removed.
-/
namespace Myframe
set_option autoImplicit false

namespace WorkerContext

variable {γ : Type} {x y z : WorkerContext γ}

/-- What a message that is dispatched can change. -/
def Reached (x y : WorkerContext γ) : Prop :=
  ∃ recv flag, y = { x with mailbox := { x.mailbox with recv := recv }, inMsgWaitQueue := flag }

theorem Reached.refl (x : WorkerContext γ) : x.Reached x := ⟨_, _, rfl⟩

theorem Reached.trans (h : x.Reached y) (h' : y.Reached z) : x.Reached z := by
  obtain ⟨recv, flag, rfl⟩ := h
  obtain ⟨recv', flag', rfl⟩ := h'
  exact ⟨_, _, rfl⟩

/-- What `ProcessUserEvent` does with a command. -/
def answer (x : WorkerContext γ) : Cmd → WorkerContext γ
  | .kIdle => { x with channel := x.channel.sendToOwner .kRun }
  | .kWaitForMsg => { x with ctrlOwner := .kMain }
  | .kQuit => { x with registered := false }
  | .kRun | .kRunWithMsg => x

/-- A worker that waits has asked and not been answered yet, or has an answer it has not read, or has left
its mailbox to the main loop. What is left in the send queue of a worker that does not run has been announced by
a command behind those that count as heard. -/
structure Owed (heard : ℕ) (x : WorkerContext γ) : Prop where
  commands : ∀ cmd ∈ x.channel.toMain, cmd = .kIdle ∨ cmd = .kWaitForMsg ∨ cmd = .kQuit
  blocked : x.pc = .blocked → x.channel.toMain ≠ [] ∨ x.channel.toOwner ≠ [] ∨ x.ctrlOwner = .kMain
  running : x.pc ≠ .done → x.registered = true ∧ .kQuit ∉ x.channel.toMain
  ended : x.pc = .done → x.registered = true → .kQuit ∈ x.channel.toMain
  sent : x.pc ≠ .running → x.registered = true → x.mailbox.send ≠ [] → heard < x.channel.toMain.length
  last : heard ≠ 0 → x.channel.toMain.head? = some .kQuit → x.mailbox.send = []
  gone : x.registered = false → x.mailbox.send = []

variable {heard : ℕ}

theorem Owed.reached (h : x.Owed heard) (hReached : x.Reached y) : y.Owed heard := by
  obtain ⟨recv, flag, rfl⟩ := hReached
  exact ⟨h.commands, h.blocked, h.running, h.ended, h.sent, h.last, h.gone⟩

theorem Owed.head_ne (h : x.Owed heard) (hNot : x.pc ≠ .done) : x.channel.toMain.head? ≠ some .kQuit :=
  fun hHead => (h.running hNot).2 (List.mem_of_head? hHead)

theorem Owed.ne_gone (h : x.Owed heard) (hNot : x.pc ≠ .done) : x.registered ≠ false := by
  rw [(h.running hNot).1]
  rintro ⟨⟩

theorem Owed.mailbox (h : x.Owed heard) (hRunning : x.pc = .running) (b : Mailbox γ) :
    ({ x with mailbox := b } : WorkerContext γ).Owed heard := by
  have hNot : x.pc ≠ .done := by rw [hRunning]; rintro ⟨⟩
  exact ⟨h.commands, h.blocked, h.running, h.ended, fun hStopped => absurd hRunning hStopped,
    fun _ hHead => absurd hHead (h.head_ne hNot), fun hGone => absurd hGone (h.ne_gone hNot)⟩

theorem Owed.setSend (h : x.Owed heard) {send : List (Parcel γ)} (hLess : send ≠ [] → x.mailbox.send ≠ []) :
    ({ x with mailbox := { x.mailbox with send := send } } : WorkerContext γ).Owed heard := by
  have hNil : x.mailbox.send = [] → send = [] := fun hNil => by_contra fun hSome => hLess hSome hNil
  exact ⟨h.commands, h.blocked, h.running, h.ended,
    fun hStopped hRegistered hSome => h.sent hStopped hRegistered (hLess hSome),
    fun hHeard hHead => hNil (h.last hHeard hHead), fun hGone => hNil (h.gone hGone)⟩

theorem Owed.drained (h : x.Owed heard) (hNil : x.mailbox.send = []) (heard' : ℕ) : x.Owed heard' :=
  ⟨h.commands, h.blocked, h.running, h.ended, fun _ _ hSome => absurd hNil hSome, fun _ _ => hNil, fun _ => hNil⟩

theorem Owed.awake (h : x.Owed heard) : (WorkerContextManager.awake x).Owed heard := by
  have hSend : (WorkerContextManager.awake x).mailbox.send = x.mailbox.send := Mailbox.moveToRun_send _
  refine ⟨h.commands, fun _ => .inr (.inl ?_), h.running, h.ended, ?_, ?_, ?_⟩
  · exact List.append_ne_nil_of_right_ne_nil _ (List.cons_ne_nil _ _)
  · rw [hSend]
    exact h.sent
  · rw [hSend]
    exact h.last
  · rw [hSend]
    exact h.gone

theorem Owed.sendCmd (h : x.Owed heard) (hRunning : x.pc = .running) (hHeard : heard ≤ x.channel.toMain.length)
    (wait : Bool) : ({ x with
      pc := .blocked
      channel := x.channel.sendToMain (if wait then .kWaitForMsg else .kIdle) } : WorkerContext γ).Owed heard := by
  have hOpen : x.registered = true ∧ Cmd.kQuit ∉ x.channel.toMain := h.running (by rw [hRunning]; rintro ⟨⟩)
  have hCmd : (if wait then Cmd.kWaitForMsg else Cmd.kIdle) = .kIdle ∨
      (if wait then Cmd.kWaitForMsg else Cmd.kIdle) = .kWaitForMsg := by cases wait <;> decide
  have hNone : Cmd.kQuit ∉ x.channel.toMain ++ [if wait then Cmd.kWaitForMsg else Cmd.kIdle] := by
    intro hMem
    obtain hOld | hNew := List.mem_append.mp hMem
    · exact hOpen.2 hOld
    · rw [← List.mem_singleton.mp hNew] at hCmd
      obtain hCmd | hCmd := hCmd <;> cases hCmd
  refine ⟨fun cmd hMem => ?_, fun _ => .inl ?_, fun _ => ⟨hOpen.1, hNone⟩, by rintro ⟨⟩, fun _ _ _ => ?_,
    fun _ hHead => absurd (List.mem_of_head? hHead) hNone, fun hGone => ?_⟩
  · obtain hOld | hNew := List.mem_append.mp hMem
    · exact h.commands cmd hOld
    · rw [List.mem_singleton.mp hNew]
      exact hCmd.imp_right .inl
  · exact List.append_ne_nil_of_right_ne_nil _ (List.cons_ne_nil _ _)
  · rw [CmdChannel.sendToMain_toMain, List.length_append]
    exact Nat.lt_succ_of_le hHeard
  · cases hGone.symm.trans hOpen.1

theorem Owed.recvCmd (h : x.Owed heard) (hBlocked : x.pc = .blocked) (runing : Bool) (rest : List Cmd) :
    ({ x with
      pc := .running
      runing := runing
      channel := { x.channel with toOwner := rest } } : WorkerContext γ).Owed heard := by
  have hOpen : x.registered = true ∧ Cmd.kQuit ∉ x.channel.toMain := h.running (by rw [hBlocked]; rintro ⟨⟩)
  exact ⟨h.commands, by rintro ⟨⟩, fun _ => hOpen, by rintro ⟨⟩, fun hStopped => absurd rfl hStopped, h.last, h.gone⟩

theorem Owed.exit (h : x.Owed heard) (hRunning : x.pc = .running) (hHeard : heard ≤ x.channel.toMain.length) :
    ({ x with pc := .done, channel := x.channel.sendToMain .kQuit } : WorkerContext γ).Owed heard := by
  have hOpen : x.registered = true ∧ Cmd.kQuit ∉ x.channel.toMain := h.running (by rw [hRunning]; rintro ⟨⟩)
  have hMem : Cmd.kQuit ∈ x.channel.toMain ++ [Cmd.kQuit] := List.mem_append_right _ (List.mem_singleton_self _)
  refine ⟨fun cmd hMem => ?_, by rintro ⟨⟩, fun hNot => absurd rfl hNot, fun _ _ => hMem, fun _ _ _ => ?_,
    fun hSome hHead => ?_, fun hGone => ?_⟩
  · obtain hOld | hNew := List.mem_append.mp hMem
    · exact h.commands cmd hOld
    · exact .inr (.inr (List.mem_singleton.mp hNew))
  · rw [CmdChannel.sendToMain_toMain, List.length_append]
    exact Nat.lt_succ_of_le hHeard
  · -- the command that the event is about is an earlier one
    have hOld : x.channel.toMain ≠ [] := by
      intro hNil
      rw [hNil] at hHeard
      exact hSome (Nat.le_zero.mp hHeard)
    obtain ⟨cmd, rest, hTo⟩ := List.exists_cons_of_ne_nil hOld
    rw [CmdChannel.sendToMain_toMain, hTo] at hHead
    obtain rfl : cmd = .kQuit := Option.some.inj hHead
    exact absurd (hTo ▸ List.mem_cons_self) hOpen.2
  · cases hGone.symm.trans hOpen.1

theorem Owed.quit (h : x.Owed heard) :
    ({ x with channel := x.channel.sendToOwner .kQuit } : WorkerContext γ).Owed heard :=
  ⟨h.commands, fun _ => .inr (.inl (List.append_ne_nil_of_right_ne_nil _ (List.cons_ne_nil _ _))), h.running, h.ended,
    h.sent, h.last, h.gone⟩

theorem Owed.answer (h : x.Owed 1) {cmd : Cmd} {rest : List Cmd} (hTo : x.channel.toMain = cmd :: rest) :
    (({ x with channel := { x.channel with toMain := rest } } : WorkerContext γ).answer cmd).Owed 0 := by
  have hRest : ∀ c ∈ rest, c = .kIdle ∨ c = .kWaitForMsg ∨ c = .kQuit := fun c hc =>
    h.commands c (hTo ▸ List.mem_cons_of_mem _ hc)
  have hOpen : x.pc ≠ .done → x.registered = true ∧ Cmd.kQuit ∉ rest := fun hNot =>
    ⟨(h.running hNot).1, fun hMem => (h.running hNot).2 (hTo ▸ List.mem_cons_of_mem _ hMem)⟩
  have hEnded : cmd ≠ .kQuit → x.pc = .done → x.registered = true → Cmd.kQuit ∈ rest := fun hCmd hDone hRegistered =>
    (List.mem_cons.mp (hTo ▸ h.ended hDone hRegistered)).resolve_left fun hEq => hCmd hEq.symm
  have hSent : x.pc ≠ .running → x.registered = true → x.mailbox.send ≠ [] → 0 < rest.length := by
    intro hStopped hRegistered hSome
    have hBehind := h.sent hStopped hRegistered hSome
    rw [hTo, List.length_cons] at hBehind
    exact Nat.lt_of_succ_lt_succ hBehind
  obtain rfl | rfl | rfl := h.commands cmd (hTo ▸ List.mem_cons_self)
  · exact ⟨hRest, fun _ => .inr (.inl (List.append_ne_nil_of_right_ne_nil _ (List.cons_ne_nil _ _))), hOpen,
      hEnded (by rintro ⟨⟩), hSent, fun hHeard => absurd rfl hHeard, h.gone⟩
  · exact ⟨hRest, fun _ => .inr (.inr rfl), hOpen, hEnded (by rintro ⟨⟩), hSent,
      fun hHeard => absurd rfl hHeard, h.gone⟩
  · have hDone : x.pc = .done := by
      by_contra hNot
      exact (h.running hNot).2 (hTo ▸ List.mem_cons_self)
    refine ⟨hRest, fun hBlocked => ?_, fun hNot => absurd hDone hNot, by rintro _ ⟨⟩, by rintro _ ⟨⟩,
      fun hHeard => absurd rfl hHeard, fun _ => h.last Nat.one_ne_zero (by rw [hTo]; rfl)⟩
    cases hBlocked.symm.trans hDone

end WorkerContext

namespace WorkerContextManager

section Rank

variable {ω γ : Type} {s t : WorkerContextManager ω γ}

def alive (x : WorkerContext γ) : ℕ := if x.pc = .done then 0 else 1

def waits (x : WorkerContext γ) : ℕ := if x.ctrlOwner = .kMain then 1 else 0

def load (x : WorkerContext γ) : ℕ := x.mailbox.send.length + 4 * x.channel.toMain.length

variable [Fintype ω]

def pending (s : WorkerContextManager ω γ) : ℕ := ∑ w, load (s.heap w) + s.eventPc.left s.event

def rank (s : WorkerContextManager ω γ) : ℕ ×ₗ ℕ ×ₗ ℕ ×ₗ ℕ :=
  toLex (∑ w, alive (s.heap w), toLex (s.pending,
    toLex (∑ w, waits (s.heap w), ∑ w, (s.heap w).channel.toOwner.length)))

theorem sum_lt {f g : ω → ℕ} {w : ω} (hLess : f w < g w) (hOther : ∀ v, v ≠ w → f v ≤ g v) :
    ∑ v, f v < ∑ v, g v := by
  refine Finset.sum_lt_sum (fun v _ => ?_) ⟨w, Finset.mem_univ w, hLess⟩
  obtain rfl | hNe := eq_or_ne v w
  · exact hLess.le
  · exact hOther v hNe

theorem pending_lt {w : ω} (hOther : ∀ v, v ≠ w → load (t.heap v) = load (s.heap v))
    (h : load (t.heap w) + t.eventPc.left t.event < load (s.heap w) + s.eventPc.left s.event) :
    t.pending < s.pending := by
  classical
  have hRest : ∑ v ∈ Finset.univ.erase w, load (t.heap v) = ∑ v ∈ Finset.univ.erase w, load (s.heap v) :=
    Finset.sum_congr rfl fun v hv => hOther v (Finset.ne_of_mem_erase hv)
  rw [pending, pending, ← Finset.add_sum_erase _ _ (Finset.mem_univ w), ← Finset.add_sum_erase _ _ (Finset.mem_univ w),
    hRest]
  omega

theorem pending_congr (hLoad : ∀ w, load (t.heap w) = load (s.heap w)) (hEvent : t.event = s.event)
    (hPc : t.eventPc = s.eventPc) : t.pending = s.pending := by
  rw [pending, pending, hEvent, hPc]
  simp only [hLoad]

theorem rank_lt_of_alive (h : ∑ w, alive (t.heap w) < ∑ w, alive (s.heap w)) : t.rank < s.rank :=
  Prod.Lex.toLex_lt_toLex.mpr (.inl h)

theorem rank_lt_of_pending (hAlive : ∀ w, alive (t.heap w) = alive (s.heap w)) (h : t.pending < s.pending) :
    t.rank < s.rank := by
  simp only [rank, hAlive]
  exact Prod.Lex.toLex_lt_toLex.mpr (.inr ⟨rfl, Prod.Lex.toLex_lt_toLex.mpr (.inl h)⟩)

theorem rank_lt_of_waits (hAlive : ∀ w, alive (t.heap w) = alive (s.heap w)) (hPending : t.pending = s.pending)
    (h : ∑ w, waits (t.heap w) < ∑ w, waits (s.heap w)) : t.rank < s.rank := by
  simp only [rank, hAlive, hPending]
  refine Prod.Lex.toLex_lt_toLex.mpr (.inr ⟨rfl, Prod.Lex.toLex_lt_toLex.mpr (.inr ⟨rfl, ?_⟩)⟩)
  exact Prod.Lex.toLex_lt_toLex.mpr (.inl h)

theorem rank_lt_of_toOwner (hAlive : ∀ w, alive (t.heap w) = alive (s.heap w)) (hPending : t.pending = s.pending)
    (hWaits : ∀ w, waits (t.heap w) = waits (s.heap w))
    (h : ∑ w, (t.heap w).channel.toOwner.length < ∑ w, (s.heap w).channel.toOwner.length) : t.rank < s.rank := by
  simp only [rank, hAlive, hPending, hWaits]
  refine Prod.Lex.toLex_lt_toLex.mpr (.inr ⟨rfl, Prod.Lex.toLex_lt_toLex.mpr (.inr ⟨rfl, ?_⟩)⟩)
  exact Prod.Lex.toLex_lt_toLex.mpr (.inr ⟨rfl, h⟩)

end Rank

variable {ω γ : Type} [DecidableEq ω] {s t : WorkerContextManager ω γ}

theorem modify_reached (s : WorkerContextManager ω γ) (w : ω) (f : WorkerContext γ → WorkerContext γ)
    (h : (s.heap w).Reached (f (s.heap w))) (v : ω) : (s.heap v).Reached ((s.modify w f).heap v) := by
  rw [modify_heap]
  split
  · next hv => rwa [hv]
  · exact .refl _

theorem receive_reached (x : WorkerContext γ) (p : Parcel γ) :
    x.Reached { x with mailbox := x.mailbox.receive p } := by
  obtain ⟨recv, hRecv⟩ := x.mailbox.receive_eq p
  exact ⟨recv, x.inMsgWaitQueue, by rw [hRecv]⟩

theorem dispatchWorkerMsg_reached (s : WorkerContextManager ω γ) (name : String) (p : Parcel γ) (v : ω) :
    (s.heap v).Reached ((s.dispatchWorkerMsg name p).heap v) := by
  rw [dispatchWorkerMsg]
  split
  · exact .refl _
  · next w _ =>
    split
    · exact .refl _
    · have hRecv := s.modify_reached w (fun x => { x with mailbox := x.mailbox.receive p }) (receive_reached _ p) v
      split
      · exact hRecv
      · exact hRecv.trans (modify_reached _ w (fun x => { x with inMsgWaitQueue := true }) ⟨_, _, rfl⟩ v)

theorem deliver_reached (c : Setting) (s : WorkerContextManager ω γ) (p : Parcel γ) (v : ω) :
    (s.heap v).Reached ((s.deliver c p).heap v) := by
  simp only [deliver]
  generalize ((s.directory c).dispatchMsg c.walk s.subs p.msg).2 = deliveries
  generalize hStart : ({ s with subs := _ } : WorkerContextManager ω γ) = t
  have hHeap : t.heap = s.heap := by rw [← hStart]
  rw [← hHeap]
  clear hStart hHeap
  induction deliveries generalizing t with
  | nil => exact .refl _
  | cons d ds ih =>
    rw [List.foldl_cons]
    cases d with
    | worker name => exact (t.dispatchWorkerMsg_reached name p v).trans (ih _)
    | actor name | conn name => exact ih t

theorem dispatchWorkerMsg_event (s : WorkerContextManager ω γ) (name : String) (p : Parcel γ) :
    (s.dispatchWorkerMsg name p).event = s.event ∧ (s.dispatchWorkerMsg name p).eventPc = s.eventPc := by
  rw [dispatchWorkerMsg]
  split
  · exact ⟨rfl, rfl⟩
  · split
    · exact ⟨rfl, rfl⟩
    · split
      · exact ⟨rfl, rfl⟩
      · exact ⟨rfl, rfl⟩

theorem deliver_event (c : Setting) (s : WorkerContextManager ω γ) (p : Parcel γ) :
    (s.deliver c p).event = s.event ∧ (s.deliver c p).eventPc = s.eventPc := by
  have hFold : ∀ (ds : List Delivery) (t : WorkerContextManager ω γ),
      (ds.foldl (deliverTo p) t).event = t.event ∧ (ds.foldl (deliverTo p) t).eventPc = t.eventPc := by
    intro ds
    induction ds with
    | nil => exact fun _ => ⟨rfl, rfl⟩
    | cons d ds ih =>
      intro t
      obtain ⟨hEvent, hPc⟩ := ih (deliverTo p t d)
      cases d with
      | worker name =>
        obtain ⟨hEvent', hPc'⟩ := t.dispatchWorkerMsg_event name p
        exact ⟨hEvent.trans hEvent', hPc.trans hPc'⟩
      | actor name | conn name => exact ⟨hEvent, hPc⟩
  exact hFold _ _

theorem weakupLoop_event (l kept : List ω) (s : WorkerContextManager ω γ) :
    (weakupLoop l kept s).event = s.event ∧ (weakupLoop l kept s).eventPc = s.eventPc := by
  induction l generalizing kept s with
  | nil => exact ⟨rfl, rfl⟩
  | cons v rest ih =>
    rw [weakupLoop]
    split
    · exact ih _ s
    · exact ih kept (s.handOver v)

theorem receive_heap {w : ω} {cmd : Cmd} {rest : List Cmd} (hTo : (s.heap w).channel.toMain = cmd :: rest) :
    (∀ v, v ≠ w → (s.receive w).heap v = s.heap v) ∧
      (s.receive w).heap w = ({ s.heap w with
        channel := { (s.heap w).channel with toMain := rest } } : WorkerContext γ).answer cmd := by
  simp only [receive, hTo]
  constructor
  · intro v hNe
    cases cmd <;> simp [pushWaitWorker, del, modify_heap, hNe]
  · cases cmd <;> simp [pushWaitWorker, del, WorkerContext.answer]

def heard (s : WorkerContextManager ω γ) (w : ω) : ℕ := s.eventPc.heard s.event w

/-- Who is owed what; the command that an event is about is there until it is read. -/
structure Attended (s : WorkerContextManager ω γ) : Prop where
  listed : s.Listed
  owed : ∀ v, (s.heap v).Owed (s.heard v)
  served : ∀ w, s.event = some w → (s.heap w).channel.toMain ≠ []

theorem Attended.heard_le (h : s.Attended) (w : ω) : s.heard w ≤ (s.heap w).channel.toMain.length := by
  rw [heard, EventPc.heard]
  split
  · next hOwn => exact List.length_pos_of_ne_nil (h.served w hOwn.1)
  · exact Nat.zero_le _

theorem heard_of_none (h : s.event = none) (w : ω) : s.heard w = 0 :=
  EventPc.heard_of_ne _ (by rw [h]; rintro ⟨⟩)

theorem Attended.modify (h : s.Attended) (w : ω) {f : WorkerContext γ → WorkerContext γ}
    (hFlag : (f (s.heap w)).inMsgWaitQueue = (s.heap w).inMsgWaitQueue) (hw : (f (s.heap w)).Owed (s.heard w))
    (hMain : (s.heap w).channel.toMain ≠ [] → (f (s.heap w)).channel.toMain ≠ []) : (s.modify w f).Attended := by
  refine ⟨h.listed.modify w hFlag, fun v => ?_, fun v hv => ?_⟩
  · rw [modify_heap]
    split
    · next hEq =>
      rw [hEq]
      exact hw
    · exact h.owed v
  · rw [modify_heap]
    split
    · next hEq => exact hMain (h.served w (hEq ▸ hv))
    · exact h.served v hv

theorem Attended.deliver (h : s.Attended) (c : Setting) (p : Parcel γ) : (s.deliver c p).Attended := by
  obtain ⟨hEvent, hPc⟩ := s.deliver_event c p
  refine ⟨kept_listed.deliver c p h.listed, fun v => ?_, fun v hv => ?_⟩
  · rw [heard, hEvent, hPc]
    exact (h.owed v).reached (s.deliver_reached c p v)
  · obtain ⟨recv, flag, hHeap⟩ := s.deliver_reached c p v
    rw [hHeap]
    exact h.served v (hEvent ▸ hv)

theorem Attended.processUserEvent (h : s.Attended) (c : Setting) {w : ω} (hEvent : s.event = some w) :
    (s.processUserEvent c w).Attended := by
  have hOther : ∀ v, v ≠ w → ∀ pc : EventPc, pc.heard s.event v = 0 := by
    intro v hNe pc
    rw [hEvent]
    exact EventPc.heard_of_ne pc fun hEq => hNe (Option.some.inj hEq).symm
  cases hPc : s.eventPc with
  | draining =>
    cases hSend : (s.heap w).mailbox.send with
    | cons p rest =>
      simp only [WorkerContextManager.processUserEvent, hPc, hSend]
      refine (h.modify w rfl ((h.owed w).setSend fun _ => ?_) id).deliver c p
      rw [hSend]
      exact List.cons_ne_nil p rest
    | nil =>
      simp only [WorkerContextManager.processUserEvent, hPc, hSend]
      refine ⟨⟨h.listed.nodup, h.listed.mem_iff⟩, fun v => ?_, h.served⟩
      obtain rfl | hNe := eq_or_ne v w
      · exact (h.owed v).drained hSend _
      · have hOwed := h.owed v
        rw [heard, hOther v hNe] at hOwed
        rw [heard, hOther v hNe]
        exact hOwed
  | clearing =>
    simp only [WorkerContextManager.processUserEvent, hPc]
    have hCleared : (s.modify w fun x => { x with mailbox := { x.mailbox with send := [] } }).Attended :=
      h.modify w rfl ((h.owed w).setSend fun hSome => absurd rfl hSome) id
    refine ⟨⟨hCleared.listed.nodup, hCleared.listed.mem_iff⟩, fun v => ?_, hCleared.served⟩
    have hOwed := hCleared.owed v
    have hSame : EventPc.receiving.heard s.event v = s.eventPc.heard s.event v := by
      rw [EventPc.heard, EventPc.heard, hPc]
      simp
    rw [heard] at hOwed ⊢
    rw [modify_event, modify_eventPc, ← hSame] at hOwed
    exact hOwed
  | receiving =>
    simp only [WorkerContextManager.processUserEvent, hPc]
    obtain ⟨cmd, rest, hTo⟩ := List.exists_cons_of_ne_nil (h.served w hEvent)
    obtain ⟨hElse, hOwn⟩ := receive_heap hTo
    have hListed := kept_listed.receive w h.listed
    refine ⟨⟨hListed.nodup, hListed.mem_iff⟩, fun v => ?_, by rintro _ ⟨⟩⟩
    have hOwed := h.owed v
    rw [heard_of_none rfl]
    obtain rfl | hNe := eq_or_ne v w
    · have hOne : s.heard v = 1 := by
        rw [heard, hEvent, hPc]
        exact EventPc.heard_self v (by rintro ⟨⟩)
      rw [hOne] at hOwed
      simp only [hOwn]
      exact hOwed.answer hTo
    · rw [heard, hOther v hNe] at hOwed
      simp only [hElse v hNe]
      exact hOwed

theorem attended_next (c : Setting) (h : s.Attended) {l : Label ω γ} (hEnabled : s.enabled l) :
    (s.next c l).Attended := by
  cases l with
  | arrive p => exact h.deliver c p
  | weakup =>
    have hNone : s.weakupWorker.event = none := (weakupLoop_event s.weakup [] s).1.trans hEnabled
    refine ⟨h.listed.next c .weakup, fun v => ?_, fun v hv => ?_⟩
    · have hOwed := h.owed v
      rw [heard_of_none hEnabled] at hOwed
      rw [next, heard_of_none hNone, weakupWorker_heap h.listed]
      split
      · exact hOwed.awake
      · exact hOwed
    · cases hNone.symm.trans hv
  | event w =>
    refine ⟨⟨h.listed.nodup, h.listed.mem_iff⟩, fun v => ?_, ?_⟩
    · have hOwed := h.owed v
      rw [heard_of_none hEnabled.1] at hOwed
      rw [heard, next, EventPc.heard_draining]
      exact hOwed
    · rintro v ⟨⟩
      exact hEnabled.2.2
  | main =>
    obtain ⟨w, hEvent⟩ := Option.ne_none_iff_exists'.mp hEnabled
    rw [next, hEvent]
    exact h.processUserEvent c hEvent
  | call w f =>
    rw [next]
    exact h.modify w rfl ((h.owed w).mailbox hEnabled (f.apply (s.heap w).mailbox)) id
  | sendCmd w wait =>
    rw [next]
    exact h.modify w rfl ((h.owed w).sendCmd hEnabled (h.heard_le w) wait) fun _ =>
      List.append_ne_nil_of_right_ne_nil _ (List.cons_ne_nil _ _)
  | recvCmd w =>
    simp only [next]
    split
    · exact h
    · exact h.modify w rfl ((h.owed w).recvCmd hEnabled.1 _ _) id
  | stop w =>
    obtain ⟨hCommands, hBlocked, hRunning, hEnded, hSent, hLast, hGone⟩ := h.owed w
    rw [next]
    exact h.modify w rfl ⟨hCommands, hBlocked, hRunning, hEnded, hSent, hLast, hGone⟩ id
  | exit w =>
    rw [next]
    exact h.modify w rfl ((h.owed w).exit hEnabled.1 (h.heard_le w)) fun _ =>
      List.append_ne_nil_of_right_ne_nil _ (List.cons_ne_nil _ _)
  | quit w =>
    rw [next]
    exact h.modify w rfl (h.owed w).quit id

/-- What is done without new messages and without the code of a worker. -/
def Works (s : WorkerContextManager ω γ) : Label ω γ → Prop
  | .weakup => ∃ w ∈ s.weakup, (s.heap w).ctrlOwner = .kMain
  | .event _ | .main | .recvCmd _ | .exit _ => True
  | .arrive _ | .call .. | .sendCmd .. | .stop _ | .quit _ => False

theorem setSend_heap (s : WorkerContextManager ω γ) (w : ω) (send : List (Parcel γ)) (v : ω) :
    let t := s.modify w fun x => { x with mailbox := { x.mailbox with send := send } }
    alive (t.heap v) = alive (s.heap v) ∧ (v ≠ w → load (t.heap v) = load (s.heap v)) ∧
      (v = w → load (t.heap v) = send.length + 4 * (s.heap w).channel.toMain.length) := by
  intro t
  have hHeap := s.modify_heap w v fun x => { x with mailbox := { x.mailbox with send := send } }
  obtain rfl | hNe := eq_or_ne v w
  · rw [if_pos rfl] at hHeap
    exact ⟨by rw [hHeap]; rfl, fun hNe => absurd rfl hNe, fun _ => by rw [hHeap]; rfl⟩
  · rw [if_neg hNe] at hHeap
    exact ⟨by rw [hHeap], fun _ => by rw [hHeap], fun hEq => absurd hEq hNe⟩

theorem deliver_heap (c : Setting) (s : WorkerContextManager ω γ) (p : Parcel γ) (v : ω) :
    alive ((s.deliver c p).heap v) = alive (s.heap v) ∧ load ((s.deliver c p).heap v) = load (s.heap v) := by
  obtain ⟨recv, flag, hHeap⟩ := s.deliver_reached c p v
  rw [hHeap]
  exact ⟨rfl, rfl⟩

/-- Each step of an event takes something off what is pending, and no worker ends. -/
theorem processUserEvent_rank [Fintype ω] (c : Setting) {w : ω} (hEvent : s.event = some w)
    (hServed : (s.heap w).channel.toMain ≠ []) : (s.processUserEvent c w).rank < s.rank := by
  cases hPc : s.eventPc with
  | draining =>
    cases hSend : (s.heap w).mailbox.send with
    | cons p rest =>
      simp only [processUserEvent, hPc, hSend]
      have hTaken := s.setSend_heap w rest
      refine rank_lt_of_pending (fun v => ?_) (pending_lt (w := w) (fun v hNe => ?_) ?_)
      · rw [(deliver_heap c _ p v).1, (hTaken v).1]
      · rw [(deliver_heap c _ p v).2, (hTaken v).2.1 hNe]
      · rw [(deliver_heap c _ p w).2, (hTaken w).2.2 rfl, (deliver_event c _ p).1, (deliver_event c _ p).2,
          modify_event, modify_eventPc, load, hSend, List.length_cons]
        omega
    | nil =>
      simp only [processUserEvent, hPc, hSend]
      refine rank_lt_of_pending (fun _ => rfl) ?_
      rw [pending, pending, hEvent, hPc]
      exact Nat.add_lt_add_left (Nat.lt_succ_self 1) _
  | clearing =>
    simp only [processUserEvent, hPc]
    have hCleared := s.setSend_heap w []
    refine rank_lt_of_pending (fun v => (hCleared v).1) (pending_lt (w := w) (fun v => (hCleared v).2.1) ?_)
    have hLeft : EventPc.receiving.left s.event + 1 = s.eventPc.left s.event := by rw [hEvent, hPc]; rfl
    rw [(hCleared w).2.2 rfl, load, List.length_nil]
    simp only [modify_event]
    omega
  | receiving =>
    simp only [processUserEvent, hPc]
    obtain ⟨cmd, rest, hTo⟩ := List.exists_cons_of_ne_nil hServed
    obtain ⟨hElse, hOwn⟩ := receive_heap hTo
    have hAnswer : ∀ x : WorkerContext γ, (x.answer cmd).pc = x.pc ∧ load (x.answer cmd) = load x := by
      intro x
      cases cmd <;> exact ⟨rfl, rfl⟩
    refine rank_lt_of_pending (fun v => ?_) (pending_lt (w := w) (fun v hNe => ?_) ?_)
    · obtain rfl | hNe := eq_or_ne v w
      · simp only [hOwn, alive, (hAnswer _).1]
      · simp only [hElse v hNe]
    · rw [hElse v hNe]
    · have hLeft := (s.receive w).eventPc.left_le (none : Option ω)
      simp only [hOwn, (hAnswer _).2]
      simp only [load, hTo, List.length_cons]
      omega

theorem next_rank [Fintype ω] (c : Setting) (h : s.Attended) {l : Label ω γ} (hEnabled : s.enabled l)
    (hWorks : s.Works l) : (s.next c l).rank < s.rank := by
  cases l with
  | weakup =>
    obtain ⟨w, hMem, hOwner⟩ := hWorks
    have hHeap := weakupWorker_heap h.listed
    obtain ⟨hEvent, hPc⟩ := weakupLoop_event s.weakup [] s
    refine rank_lt_of_waits (fun v => ?_) (pending_congr (fun v => ?_) hEvent hPc) (sum_lt (w := w) ?_ fun v _ => ?_)
    · rw [next, hHeap]
      split <;> rfl
    · rw [next, hHeap]
      split
      · rw [load, load, awake, Mailbox.moveToRun_send]
        rfl
      · rfl
    · rw [next, hHeap, if_pos ⟨hMem, hOwner⟩, waits, waits, if_pos hOwner]
      exact Nat.one_pos
    · rw [next, hHeap]
      split
      · exact Nat.zero_le _
      · exact Nat.le_refl _
  | event w =>
    refine rank_lt_of_pending (fun _ => rfl) ?_
    rw [pending, pending, next, hEnabled.1]
    exact Nat.add_lt_add_left (Nat.lt_succ_self 2) _
  | main =>
    obtain ⟨w, hEvent⟩ := Option.ne_none_iff_exists'.mp hEnabled
    rw [next, hEvent]
    exact processUserEvent_rank c hEvent (h.served w hEvent)
  | recvCmd w =>
    obtain ⟨hBlocked, hSome⟩ := hEnabled
    obtain ⟨cmd, rest, hOwner⟩ := List.exists_cons_of_ne_nil hSome
    simp only [next, hOwner]
    refine rank_lt_of_toOwner (fun v => ?_) (pending_congr (fun v => ?_) rfl rfl) (fun v => ?_)
      (sum_lt (w := w) ?_ fun v hNe => ?_)
    · rw [modify_heap]
      split
      · next hv =>
        rw [hv, alive, alive, hBlocked]
        rfl
      · rfl
    · rw [modify_heap]
      split
      · next hv => rw [hv, load, load]
      · rfl
    · rw [modify_heap]
      split
      · next hv => rw [hv, waits, waits]
      · rfl
    · rw [modify_heap_self, hOwner]
      exact Nat.lt_succ_self _
    · rw [modify_heap, if_neg hNe]
  | exit w =>
    refine rank_lt_of_alive (sum_lt (w := w) ?_ fun v hNe => ?_)
    · rw [next, modify_heap_self, alive, alive, hEnabled.1]
      exact Nat.one_pos
    · rw [next, modify_heap, if_neg hNe]
  | arrive p | call w f | sendCmd w wait | stop w | quit w => cases hWorks

/-- How a worker stands that neither has anything to do for the main loop nor is owed anything by it. -/
inductive Resting (x : WorkerContext γ) : Prop
  | working (hPc : x.pc = .running) (hRuns : x.runing = true)
  | waiting (hPc : x.pc = .blocked) (hOwner : x.ctrlOwner = .kMain) (hMain : x.channel.toMain = [])
      (hNone : x.channel.toOwner = []) (hFlag : x.inMsgWaitQueue = false) (hSend : x.mailbox.send = [])
  | removed (hPc : x.pc = .done) (hRegistered : x.registered = false) (hSend : x.mailbox.send = [])

theorem resting_of_atRest (c : Setting) (h : s.Attended) (hRest : (system c).AtRest Works s) (w : ω) :
    Resting (s.heap w) := by
  have hOwed := h.owed w
  have hIdle : s.event = none := by_contra fun hEvent => hRest .main hEvent trivial
  have hMain : (s.heap w).registered = true → (s.heap w).channel.toMain = [] := fun hRegistered =>
    by_contra fun hNe => hRest (.event w) ⟨hIdle, hRegistered, hNe⟩ trivial
  cases hPc : (s.heap w).pc with
  | running =>
    refine .working hPc ?_
    by_contra hStops
    exact hRest (.exit w) ⟨hPc, Bool.eq_false_of_not_eq_true hStops⟩ trivial
  | blocked =>
    have hStays : (s.heap w).pc ≠ .done := by rw [hPc]; rintro ⟨⟩
    have hRegistered := (hOwed.running hStays).1
    have hNil := hMain hRegistered
    have hNone : (s.heap w).channel.toOwner = [] :=
      by_contra fun hNe => hRest (.recvCmd w) ⟨hPc, hNe⟩ trivial
    have hOwner : (s.heap w).ctrlOwner = .kMain :=
      ((hOwed.blocked hPc).resolve_left fun hNe => hNe hNil).resolve_left fun hNe => hNe hNone
    have hFlag : (s.heap w).inMsgWaitQueue ≠ true := fun hFlag =>
      hRest .weakup hIdle ⟨w, (h.listed.mem_iff w).mpr hFlag, hOwner⟩
    have hSend : (s.heap w).mailbox.send = [] := by
      by_contra hSome
      have hBehind := hOwed.sent (by rw [hPc]; rintro ⟨⟩) hRegistered hSome
      rw [hNil] at hBehind
      exact Nat.not_lt_zero _ hBehind
    exact .waiting hPc hOwner hNil hNone (Bool.eq_false_of_not_eq_true hFlag) hSend
  | done =>
    have hRegistered : (s.heap w).registered ≠ true := by
      intro hRegistered
      have hQuit := hOwed.ended hPc hRegistered
      rw [hMain hRegistered] at hQuit
      cases hQuit
    have hGone := Bool.eq_false_of_not_eq_true hRegistered
    exact .removed hPc hGone (hOwed.gone hGone)

/-- User workers as `AddWorker` leaves them. -/
def users (name : ω → String) (pendingQueueSize runQueueSize : ω → ℤ) (names : String → Option ω) :
    WorkerContextManager ω γ :=
  initial name (fun _ => .kWorkerUser) pendingQueueSize runQueueSize names

section Runs

variable (c : Setting) (name : ω → String) (pendingQueueSize runQueueSize : ω → ℤ) (names : String → Option ω)
  (ls : List (Label ω γ))

theorem users_attended : (users (γ := γ) name pendingQueueSize runQueueSize names).Attended := by
  refine ⟨initial_listed name _ pendingQueueSize runQueueSize names, fun v => ?_, by rintro _ ⟨⟩⟩
  exact ⟨List.forall_mem_nil _, by rintro ⟨⟩, fun _ => ⟨rfl, List.not_mem_nil⟩, by rintro ⟨⟩,
    fun hStopped => absurd rfl hStopped, by rintro _ ⟨⟩, by rintro ⟨⟩⟩

theorem attended_exec (hRuns : (system c).Runs (users name pendingQueueSize runQueueSize names) ls) :
    ((system c).exec (users name pendingQueueSize runQueueSize names) ls).Attended := by
  have hStep : ∀ (s : WorkerContextManager ω γ) (l : Label ω γ), s.Attended → s.enabled l → True →
      (s.next c l).Attended := fun s l h hEn _ => attended_next c h hEn
  exact (system c).inv_visited hStep (users_attended name pendingQueueSize runQueueSize names) hRuns
    (fun _ _ => trivial) _ ((system c).mem_visited_of_exec _ ls)

/-- From every state that a run can reach: without new messages, and without the code of a worker, the main loop
and the workers do not go on for ever, and they get to a state in which nothing is left for them to do. -/
theorem workers_come_to_rest [Finite ω]
    (hRuns : (system c).Runs (users name pendingQueueSize runQueueSize names) ls) :
    let s := (system c).exec (users name pendingQueueSize runQueueSize names) ls
    (∀ state label, state 0 = s → ¬ (system c).Endless Works state label) ∧
      ∃ more, (system c).Runs (users name pendingQueueSize runQueueSize names) (ls ++ more) ∧
        (∀ p ∈ (system c).steps s more, p.1.Works p.2) ∧ (system c).AtRest Works ((system c).exec s more) := by
  intro s
  have := Fintype.ofFinite ω
  have hStep : ∀ (s : WorkerContextManager ω γ) (l : Label ω γ), s.Attended → s.enabled l → s.Works l →
      (s.next c l).Attended := fun s l h hEn _ => attended_next c h hEn
  have hLower : ∀ (s : WorkerContextManager ω γ) (l : Label ω γ), s.Attended → s.enabled l → s.Works l →
      (s.next c l).rank < s.rank := fun s l h hEn hWorks => next_rank c h hEn hWorks
  have hReached : s.Attended := attended_exec c name pendingQueueSize runQueueSize names ls hRuns
  constructor
  · intro state label hStart
    exact Transition.System.not_endless hStep hLower (hStart ▸ hReached)
  · obtain ⟨more, hMore, hWorks, hRest⟩ := Transition.System.exists_atRest (S := system c) hStep hLower s hReached
    exact ⟨more, (system c).runs_append.mpr ⟨hRuns, hMore⟩, hWorks, hRest⟩

/-- Where they have come to rest no worker waits for the main loop but those that wait for messages, and nothing
that a worker has posted is left in its send queue once it waits or has ended. As long as each hand-over takes the
whole receive queue there is no message for a worker that waits. -/
theorem rest_answered (hRuns : (system c).Runs (users name pendingQueueSize runQueueSize names) ls)
    (hRest : (system c).AtRest Works ((system c).exec (users name pendingQueueSize runQueueSize names) ls)) :
    (∀ w, Resting (((system c).exec (users name pendingQueueSize runQueueSize names) ls).heap w)) ∧
      ((∀ p ∈ (system c).steps (users name pendingQueueSize runQueueSize names) ls, p.1.HandsOverAll p.2) →
        ∀ w, (((system c).exec (users name pendingQueueSize runQueueSize names) ls).heap w).pc = .blocked →
          (((system c).exec (users name pendingQueueSize runQueueSize names) ls).heap w).mailbox.recv = []) := by
  have hAll := resting_of_atRest c (attended_exec c name pendingQueueSize runQueueSize names ls hRuns) hRest
  refine ⟨hAll, fun hHandsOver w hBlocked => ?_⟩
  have hStep : ∀ (s : WorkerContextManager ω γ) (l : Label ω γ), s.Listed ∧ s.Flagged → s.enabled l →
      s.HandsOverAll l → (s.next c l).Listed ∧ (s.next c l).Flagged := fun s l h hEn hl =>
    ⟨h.1.next c l, h.2.next h.1 hEn hl⟩
  have hStart : (users (γ := γ) name pendingQueueSize runQueueSize names).Listed ∧
      (users (γ := γ) name pendingQueueSize runQueueSize names).Flagged :=
    ⟨initial_listed name _ pendingQueueSize runQueueSize names,
      initial_flagged name _ pendingQueueSize runQueueSize names⟩
  have hFlagged := ((system c).inv_visited hStep hStart hRuns hHandsOver _ ((system c).mem_visited_of_exec _ ls)).2
  by_contra hNe
  have hFlag := hFlagged w (by rw [hBlocked]; rintro ⟨⟩) hNe
  cases hAll w with
  | waiting _ _ _ _ hNot => cases hFlag.symm.trans hNot
  | working hPc | removed hPc => cases hBlocked.symm.trans hPc

end Runs

/-- A worker waits, a message for it comes, and the application is told to quit. -/
def askStart : WorkerContextManager Unit Unit :=
  users (fun _ => "worker.a.1") (fun _ => -1) (fun _ => -1) fun name => if name = "worker.a.1" then some () else none

def askRun : List (Label Unit Unit) := [.sendCmd () true, .arrive ⟨(), { dst := "worker.a.1" }⟩, .quit ()]

theorem workers_come_to_rest_asked :
    ∃ more, (system {}).Runs askStart (askRun ++ more) ∧
      (system {}).AtRest Works ((system {}).exec ((system {}).exec askStart askRun) more) ∧ more ≠ [] := by
  have hRun : (system {}).Runs askStart askRun := by decide
  obtain ⟨-, more, hRuns, -, hRest⟩ := workers_come_to_rest {} _ _ _ _ askRun hRun
  refine ⟨more, hRuns, hRest, ?_⟩
  rintro rfl
  exact hRest (.event ()) (by decide) trivial

/-- It is handed one message and waits for the next. -/
def handedRun : List (Label Unit Unit) :=
  [.arrive ⟨(), { dst := "worker.a.1" }⟩, .sendCmd () true, .event (), .main, .main, .main, .weakup, .recvCmd (),
    .sendCmd () true, .event (), .main, .main, .main]

theorem handed_atRest : (system {}).AtRest Works ((system {}).exec askStart handedRun) := by
  intro l hEnabled hWorks
  cases l with
  | weakup =>
    obtain ⟨w, hMem, -⟩ := hWorks
    have hNone : ((system {}).exec askStart handedRun).weakup = [] := by decide
    rw [hNone] at hMem
    cases hMem
  | main => exact absurd hEnabled (by decide)
  | event w | recvCmd w | exit w =>
    cases w
    exact absurd hEnabled (by decide)
  | arrive p | call w f | sendCmd w wait | stop w | quit w => cases hWorks

theorem rest_answered_handed :
    Resting (((system {}).exec askStart handedRun).heap ()) ∧
      (((system {}).exec askStart handedRun).heap ()).mailbox.recv = [] := by
  have hRun : (system {}).Runs askStart handedRun := by decide
  obtain ⟨hAll, hNone⟩ := rest_answered {} _ _ _ _ handedRun hRun handed_atRest
  exact ⟨hAll (), hNone (by decide) () (by decide)⟩

end WorkerContextManager
end Myframe
