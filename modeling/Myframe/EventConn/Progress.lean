import Mathlib.Algebra.BigOperators.Fin
import Mathlib.Algebra.Order.BigOperators.Group.Finset
import Mathlib.Data.Prod.Lex
import Myframe.EventConn.Once
import Myframe.Library.Rest

/-! # What a call may wait for

A call goes through its steps once, a posted message is dispatched once, and a command is read once. So
the calls and the main loop come to rest, and then no call waits for the main loop.
-/
namespace Myframe
set_option autoImplicit false

variable {κ : Type}

def CallPc.weight : CallPc κ → ℕ
  | .start | .returned _ => 0
  | .unregistered _ => 1
  | .finished .. => 2
  | .popped .. => 3
  | .woken _ => 4
  | .waiting _ => 5
  | .queued _ => 6
  | .cleared _ => 7
  | .typed _ => 8
  | .allocated _ => 9

theorem Notify.weight_le (x : Notify κ) : x.weight ≤ 5 := by
  cases x <;> simp [Notify.weight]

namespace EventConnManager

def load (x : EventConn κ) : ℕ := x.mailbox.send.length + 4 * x.channel.toMain.length

def pending (s : EventConnManager κ) : ℕ := ∑ n ∈ Finset.range s.connSz, load (s.conns n) + s.eventPc.left s.event

def undelivered (s : EventConnManager κ) : ℕ := 6 * s.deliveries.length + s.notify.weight

def rank [Fintype κ] (s : EventConnManager κ) : ℕ ×ₗ ℕ ×ₗ ℕ :=
  toLex (∑ k, (s.calls k).pc.weight, toLex (s.pending, s.undelivered))

theorem sum_load {s t : EventConnManager κ} {n : ℕ} (hLt : n < s.connSz)
    (hOther : ∀ m, m ≠ n → load (t.conns m) = load (s.conns m)) :
    ∑ m ∈ Finset.range s.connSz, load (t.conns m) + load (s.conns n) =
      ∑ m ∈ Finset.range s.connSz, load (s.conns m) + load (t.conns n) := by
  have hMem : n ∈ Finset.range s.connSz := Finset.mem_range.mpr hLt
  have hRest : ∑ m ∈ (Finset.range s.connSz).erase n, load (t.conns m) =
      ∑ m ∈ (Finset.range s.connSz).erase n, load (s.conns m) :=
    Finset.sum_congr rfl fun m hm => hOther m (Finset.ne_of_mem_erase hm)
  rw [← Finset.add_sum_erase _ _ hMem, ← Finset.add_sum_erase _ _ hMem, hRest]
  omega

theorem SamePosts.load {s t : EventConnManager κ} (h : SamePosts s t) (n : ℕ) :
    load (t.conns n) = load (s.conns n) := by
  rw [EventConnManager.load, h.send, h.toMain, EventConnManager.load]

section Rank

variable [Fintype κ] {s t : EventConnManager κ}

theorem rank_lt_of_pending (hCalls : t.calls = s.calls) (h : t.pending < s.pending) : t.rank < s.rank := by
  rw [rank, rank, hCalls]
  exact Prod.Lex.toLex_lt_toLex.mpr (.inr ⟨rfl, Prod.Lex.toLex_lt_toLex.mpr (.inl h)⟩)

theorem rank_lt_of_undelivered (hCalls : t.calls = s.calls) (hPending : t.pending = s.pending)
    (h : t.undelivered < s.undelivered) : t.rank < s.rank := by
  rw [rank, rank, hCalls, hPending]
  exact Prod.Lex.toLex_lt_toLex.mpr (.inr ⟨rfl, Prod.Lex.toLex_lt_toLex.mpr (.inr ⟨rfl, h⟩)⟩)

theorem mainStep_rank (c : Setting) (hBusy : s.busy = true)
    (hEvent : ∀ n, s.event = some n → n < s.connSz ∧ (s.conns n).channel.toMain ≠ []) :
    (s.mainStep c).rank < s.rank := by
  obtain ⟨hCalls, hSz, -⟩ := mainStep_frame s c
  have hSame : SamePosts s (s.mainStep c) → (s.mainStep c).event = s.event → (s.mainStep c).eventPc = s.eventPc →
      (s.mainStep c).pending = s.pending := by
    intro hPosts hStill hPc
    rw [pending, pending, hSz, hStill, hPc]
    simp only [hPosts.load]
  cases mainStep_turn c hBusy with
  | notified hPosts _ hDeliveries hStill hPc hNotify =>
    apply rank_lt_of_undelivered hCalls (hSame hPosts hStill hPc)
    rw [undelivered, undelivered, hDeliveries]
    omega
  | delivered d hPosts _ hDeliveries hStill hPc =>
    apply rank_lt_of_undelivered hCalls (hSame hPosts hStill hPc)
    have hLess := (s.mainStep c).notify.weight_le
    rw [undelivered, undelivered, hDeliveries, List.length_cons]
    omega
  | sent n p hSome _ hOwn hOther hMain hStill hPc =>
    have hSum := sum_load (t := s.mainStep c) (hEvent n hSome).1 fun m hNe => by
      rw [load, hOther m hNe, hMain, load]
    have hLess : load ((s.mainStep c).conns n) + 1 = load (s.conns n) := by
      rw [load, load, hOwn, hMain, List.length_cons]
      omega
    apply rank_lt_of_pending hCalls
    rw [pending, pending, hSz, hStill, hPc]
    omega
  | drained n hSome hPosts _ _ hStill hPc =>
    have hLeft : (s.mainStep c).eventPc.left (s.mainStep c).event + 1 = s.eventPc.left s.event := by
      simp only [EventPc.left, hStill, hSome, hPc.1, hPc.2]
    apply rank_lt_of_pending hCalls
    rw [pending, pending, hSz]
    simp only [hPosts.load]
    omega
  | cleared n hSome _ _ hOwn hOther hMain hStill hPc =>
    have hSum := sum_load (t := s.mainStep c) (hEvent n hSome).1 fun m hNe => by
      rw [load, hOther m hNe, hMain, load]
    have hLess : load ((s.mainStep c).conns n) ≤ load (s.conns n) := by
      rw [load, load, hOwn, hMain, List.length_nil]
      omega
    have hLeft : (s.mainStep c).eventPc.left (s.mainStep c).event + 1 = s.eventPc.left s.event := by
      simp only [EventPc.left, hStill, hSome, hPc.1, hPc.2]
    apply rank_lt_of_pending hCalls
    rw [pending, pending, hSz]
    omega
  | received n hSome _ hSend hOwn hOther _ _ =>
    obtain ⟨hLt, hToMain⟩ := hEvent n hSome
    have hSum := sum_load (t := s.mainStep c) hLt fun m hNe => by
      rw [load, hSend, hOther m hNe, load]
    have hLess : load ((s.mainStep c).conns n) + 4 = load (s.conns n) := by
      have hPos := List.length_pos_of_ne_nil hToMain
      rw [load, load, hSend, hOwn, List.length_tail]
      omega
    have hLeft := (s.mainStep c).eventPc.left_le (s.mainStep c).event
    apply rank_lt_of_pending hCalls
    rw [pending, pending, hSz]
    omega

theorem event_rank {n : ℕ} (hBusy : s.busy = false) :
    ({ s with event := some n, eventPc := .draining } : EventConnManager κ).rank < s.rank := by
  have hNone : s.event = none := by
    rw [busy] at hBusy
    split at hBusy
    · assumption
    · cases hBusy
  refine rank_lt_of_pending rfl ?_
  rw [pending, pending, hNone]
  exact Nat.add_lt_add_left (Nat.lt_succ_self 2) _

variable [DecidableEq κ]

omit [Fintype κ] in
theorem callStep_weight {k : κ} (h : s.ready k = true) :
    ((s.callStep k).calls k).pc.weight < (s.calls k).pc.weight := by
  cases hPc : (s.calls k).pc with
  | start | returned r =>
    rw [ready, hPc] at h
    cases h
  | allocated n | typed n | queued n | popped n p | unregistered n => simp [callStep, hPc, CallPc.weight]
  | waiting n => cases hType : (s.calls k).type <;> simp [callStep, hPc, hType, CallPc.weight]
  | cleared n | woken n =>
    simp only [callStep, hPc]
    split <;> simp [CallPc.weight]
  | finished n r =>
    simp only [callStep, hPc]
    split
    · simp [CallPc.weight]
    · split <;> simp [CallPc.weight]

theorem callStep_rank {k : κ} (h : s.ready k = true) : (s.callStep k).rank < s.rank := by
  obtain ⟨n, hHolds⟩ := holds_of_ready h
  have hOther := (callStep_frame hHolds).others
  refine Prod.Lex.toLex_lt_toLex.mpr (.inl ?_)
  refine Finset.sum_lt_sum (fun l _ => ?_) ⟨k, Finset.mem_univ k, callStep_weight h⟩
  obtain rfl | hNe := eq_or_ne l k
  · exact (callStep_weight h).le
  · rw [hOther l hNe]

end Rank

end EventConnManager

namespace Shutdown

open EventConnManager (Served)

variable [DecidableEq κ]

/-- The steps that the main loop and the calls in progress take by themselves. -/
def Works (_ : Shutdown κ) : Label κ → Prop
  | .call _ | .main | .event _ => True
  | _ => False

instance (s : Shutdown κ) (l : Label κ) : Decidable (s.Works l) :=
  match l with
  | .call _ | .main | .event _ => .isTrue trivial
  | .check .. | .alloc _ | .answer .. | .arrive _ | .exec | .quit => .isFalse id

theorem served_exec (c : EventConnManager.Setting) (b : Backend) (sz : ℕ) (ls : List (Label κ))
    (hRuns : (system c b).Runs (initial sz) ls) : ((system c b).exec (initial sz) ls).mgr.Served := by
  have hNext : ∀ (s : Shutdown κ) (l : Label κ), s.mgr.Served → s.enabled l → True →
      (s.next c b l).mgr.Served := fun s l h hEn _ => served_next c b s l h hEn
  exact (system c b).inv_visited hNext (served_initial sz) hRuns (fun _ _ => trivial) _
    ((system c b).mem_visited_of_exec _ ls)

def rank [Fintype κ] (s : Shutdown κ) : ℕ ×ₗ ℕ ×ₗ ℕ := s.mgr.rank

theorem next_rank [Fintype κ] (c : EventConnManager.Setting) (b : Backend) {s : Shutdown κ} {l : Label κ}
    (h : s.mgr.Served) (hEn : s.enabled l) (hWorks : s.Works l) : (s.next c b l).rank < s.rank := by
  rw [rank, rank]
  cases l with
  | call k =>
    simp only [next, (s.callStep_mgr b k).1]
    exact EventConnManager.callStep_rank hEn
  | main => exact EventConnManager.mainStep_rank c hEn.2 h.event
  | event n => exact EventConnManager.event_rank hEn.2.1
  | check | alloc | answer | arrive | exec | quit => exact hWorks.elim

/-- With finitely many calls, in whatever state they and the main loop are left alone: they cannot go on for
ever, and they come to rest. -/
theorem calls_come_to_rest [Finite κ] (c : EventConnManager.Setting) (b : Backend) (sz : ℕ)
    (ls : List (Label κ)) (hRuns : (system c b).Runs (initial sz) ls) :
    let s := (system c b).exec (initial sz) ls
    (∀ (state : ℕ → Shutdown κ) (label : ℕ → Label κ), state 0 = s →
      ¬ (system c b).Endless Works state label) ∧
    ∃ more, (system c b).Runs (initial sz) (ls ++ more) ∧ (∀ p ∈ (system c b).steps s more, p.1.Works p.2) ∧
      (system c b).AtRest Works ((system c b).exec s more) := by
  intro s
  have := Fintype.ofFinite κ
  have hStep : ∀ (s : Shutdown κ) (l : Label κ), s.mgr.Served → s.enabled l → s.Works l →
      (s.next c b l).mgr.Served := fun s l h hEn _ => served_next c b s l h hEn
  have hLower : ∀ (s : Shutdown κ) (l : Label κ), s.mgr.Served → s.enabled l → s.Works l →
      (s.next c b l).rank < s.rank := fun s l h => next_rank c b h
  have hServed : s.mgr.Served := served_exec c b sz ls hRuns
  constructor
  · intro state label hStart
    exact Transition.System.not_endless hStep hLower (hStart ▸ hServed)
  · obtain ⟨more, hMore, hWorks, hRest⟩ :=
      Transition.System.exists_atRest (S := system c b) hStep hLower s hServed
    exact ⟨more, (system c b).runs_append.mpr ⟨hRuns, hMore⟩, hWorks, hRest⟩

def begunRun : List (Label Unit) := [.check () .kSend { dst := "actor.a.1" }, .alloc ()]

theorem calls_come_to_rest_begun :
    ∃ more, (system {} .linux).Runs (initial 1) (begunRun ++ more) ∧ more ≠ [] ∧
      (system {} .linux).AtRest Works ((system {} .linux).exec (initial 1) (begunRun ++ more)) := by
  obtain ⟨-, more, hRuns, -, hRest⟩ := calls_come_to_rest {} .linux 1 begunRun (by decide)
  rw [← (system {} .linux).exec_append] at hRest
  refine ⟨more, hRuns, ?_, hRest⟩
  rintro rfl
  exact hRest (.call ()) (by decide) trivial

/-- No `clear()` takes the message of a call in progress. -/
def Keeping (s : Shutdown κ) : Label κ → Prop
  | .main => ∀ k, s.Keeps k
  | _ => True

instance [Fintype κ] (s : Shutdown κ) (l : Label κ) : Decidable (s.Keeping l) :=
  match l with
  | .main => inferInstanceAs (Decidable (∀ k, s.Keeps k))
  | .check .. | .alloc _ | .call _ | .event _ | .answer .. | .arrive _ | .exec | .quit => .isTrue trivial

def heard (s : EventConnManager κ) (n : ℕ) : ℕ := s.eventPc.heard s.event n

omit [DecidableEq κ] in
theorem heard_congr {s t : EventConnManager κ} (hEvent : t.event = s.event) (hPc : t.eventPc = s.eventPc) (n : ℕ) :
    heard t n = heard s n := by
  rw [heard, heard, hEvent, hPc]

/-- What a call has posted is still there until it is dispatched, and has been announced when the call
waits. An `App::Send` returns what reading a command returns. -/
structure Asks (b : Backend) (s : Shutdown κ) : Prop where
  posted : ∀ k n, (s.mgr.calls k).pc = .queued n ∨ (s.mgr.calls k).pc = .waiting n →
    (∃ p ∈ (s.mgr.conns n).mailbox.send, p.mark = .call k) ∨ s.Dispatched k
  announced : ∀ k n, (s.mgr.calls k).pc = .waiting n → (s.mgr.conns n).mailbox.send ≠ [] →
    heard s.mgr n < (s.mgr.conns n).channel.toMain.length
  returned : s.exec = .loop → ∀ k, s.passed k = true → (s.mgr.calls k).type = .kSend →
    (s.mgr.calls k).msg.dst ≠ "" → (s.mgr.calls k).pc ≠ .start → (s.mgr.calls k).pc.early = false →
    s.ret k = b.recvRet

variable {b : Backend} {s t : Shutdown κ}

omit [DecidableEq κ] in
theorem Asks.of_same (h : s.Asks b) (hCalls : t.mgr.calls = s.mgr.calls)
    (hPosts : EventConnManager.SamePosts s.mgr t.mgr) (hHeard : ∀ n, heard t.mgr n ≤ heard s.mgr n)
    (hDispatched : s.dispatched ⊆ t.dispatched) (hLoop : t.exec = .loop → s.exec = .loop)
    (hPassed : t.passed = s.passed) (hRet : t.ret = s.ret) : t.Asks b where
  posted k n hPc := by
    rw [hPosts.send]
    exact (h.posted k n (hCalls ▸ hPc)).imp_right fun hDone => hDone.mono hDispatched
  announced k n hPc hSend := by
    rw [hPosts.toMain]
    rw [hPosts.send] at hSend
    exact Nat.lt_of_le_of_lt (hHeard n) (h.announced k n (hCalls ▸ hPc) hSend)
  returned hExec k := by
    rw [hCalls, hPassed, hRet]
    exact h.returned (hLoop hExec) k

omit [DecidableEq κ] in
/-- What is posted behind the loop over the send queue has its own command behind the one of the event. -/
theorem Asks.mainStep_announced (h : s.Asks b) (c : EventConnManager.Setting) (hBusy : s.mgr.busy = true) {k : κ}
    {n : ℕ} (hPc : (s.mgr.calls k).pc = .waiting n) (hSome : ((s.mgr.mainStep c).conns n).mailbox.send ≠ []) :
    heard (s.mgr.mainStep c) n < ((s.mgr.mainStep c).conns n).channel.toMain.length := by
  cases EventConnManager.mainStep_turn c hBusy with
  | notified hPosts _ _ hStill hSame _ | delivered _ hPosts _ _ hStill hSame =>
    rw [hPosts.send] at hSome
    rw [heard_congr hStill hSame, hPosts.toMain]
    exact h.announced k n hPc hSome
  | sent m p _ _ hOwn hOther hMain hStill hSame =>
    rw [heard_congr hStill hSame, hMain]
    refine h.announced k n hPc ?_
    obtain rfl | hNe := eq_or_ne n m
    · rw [hOwn]
      exact List.cons_ne_nil _ _
    · rwa [hOther n hNe] at hSome
  | drained m hEvent hPosts _ hNil hStill _ =>
    rw [hPosts.send] at hSome
    have hNe : m ≠ n := by
      rintro rfl
      exact hSome hNil
    have hOther : (s.mgr.mainStep c).event ≠ some n := by
      rw [hStill, hEvent]
      exact fun hEq => hNe (Option.some.inj hEq)
    rw [heard, EventPc.heard_of_ne _ hOther, hPosts.toMain]
    exact Nat.lt_of_le_of_lt (Nat.zero_le _) (h.announced k n hPc hSome)
  | cleared m hEvent _ _ hOwn hOther hMain hStill _ =>
    have hNe : n ≠ m := by
      rintro rfl
      exact hSome hOwn
    have hElse : (s.mgr.mainStep c).event ≠ some n := by
      rw [hStill, hEvent]
      exact fun hEq => hNe (Option.some.inj hEq).symm
    rw [hOther n hNe] at hSome
    rw [heard, EventPc.heard_of_ne _ hElse, hMain]
    exact Nat.lt_of_le_of_lt (Nat.zero_le _) (h.announced k n hPc hSome)
  | received m hEvent _ hSend hOwn hOther hReceiving hNone =>
    rw [hSend] at hSome
    have hBefore := h.announced k n hPc hSome
    rw [heard, EventPc.heard_of_ne _ (by rw [hNone]; rintro ⟨⟩)]
    obtain rfl | hNe := eq_or_ne n m
    · have hOne : heard s.mgr n = 1 := by
        rw [heard, hEvent, hReceiving]
        exact EventPc.heard_self n (by rintro ⟨⟩)
      rw [hOwn, List.length_tail]
      omega
    · rw [hOther n hNe]
      omega

omit [DecidableEq κ] in
theorem Asks.mainStep (h : s.Asks b) (c : EventConnManager.Setting) (hBusy : s.mgr.busy = true)
    (hKeeps : ∀ k, s.Keeps k) : ({ s with
      mgr := s.mgr.mainStep c
      dispatched := s.dispatched ++ dispatching s.mgr } : Shutdown κ).Asks b := by
  have hCalls := (EventConnManager.mainStep_frame s.mgr c).calls
  refine ⟨fun k n hPc => ?_, fun k n hPc hSome => ?_, by simpa only [hCalls] using h.returned⟩
  · simp only [hCalls] at hPc
    have hHolds : s.mgr.Holds k n := by
      obtain hPc | hPc := hPc <;> exact congrArg CallPc.conn hPc
    exact mainStep_keeps c hBusy (hKeeps k) hHolds (h.posted k n hPc)
  · simp only [hCalls] at hPc
    exact h.mainStep_announced c hBusy hPc hSome

theorem callStep_passed (b : Backend) (s : Shutdown κ) (k : κ) : (s.callStep b k).passed = s.passed := by
  unfold callStep
  split
  · rfl
  · rfl

theorem callStep_ret {n : ℕ} {k : κ} (hPc : (s.mgr.calls k).pc = .waiting n)
    (hType : (s.mgr.calls k).type = .kSend) : (s.callStep b k).ret k = b.recvRet := by
  simp only [callStep, hPc, hType, Function.update_self]

theorem Asks.callStep_returned (h : s.Asks b) {k : κ} {n : ℕ} (hHolds : s.mgr.Holds k n)
    (hExec : s.exec = .loop) (hPassed : s.passed k = true) (hType : (s.mgr.calls k).type = .kSend)
    (hDst : (s.mgr.calls k).msg.dst ≠ "") (hLate : ((s.mgr.callStep k).calls k).pc.early = false) :
    (s.callStep b k).ret k = b.recvRet := by
  have hStarted : (s.mgr.calls k).pc ≠ .start := fun hStart => EventConnManager.not_holds hStart rfl hHolds
  cases hEarly : (s.mgr.calls k).pc.early with
  | true =>
    have hWaiting := (EventConnManager.waiting_of_callStep hHolds hEarly hLate).resolve_right hDst
    exact callStep_ret hWaiting hType
  | false =>
    have hNot : ∀ m, (s.mgr.calls k).pc ≠ .waiting m := by
      intro m hWaiting
      rw [hWaiting] at hEarly
      cases hEarly
    rw [(callStep_own b s hNot).1]
    exact h.returned hExec k hPassed hType hDst hStarted hEarly

theorem Asks.callStep (h : s.Asks b) (hHonest : s.Honest) (hServed : s.mgr.Served) {k : κ}
    (hReady : s.mgr.ready k = true) :
    (s.callStep b k).Asks b := by
  obtain ⟨n, hHolds⟩ := EventConnManager.holds_of_ready hReady
  have hFrame := EventConnManager.callStep_frame hHolds
  have hTurn := EventConnManager.callStep_turn hHolds
  obtain ⟨hMgr, hExec⟩ := s.callStep_mgr b k
  -- the other calls wait on other connections
  have hElse : ∀ {l m}, l ≠ k → s.mgr.Holds l m → m ≠ n := by
    rintro l m hNe hl rfl
    exact hNe (hHonest.unique l k m hl hHolds)
  have hHeld : ∀ {l m}, (s.mgr.calls l).pc = .queued m ∨ (s.mgr.calls l).pc = .waiting m → s.mgr.Holds l m := by
    intro l m hPc
    obtain hPc | hPc := hPc <;> exact congrArg CallPc.conn hPc
  refine ⟨fun l m hPc => ?_, fun l m hPc hSome => ?_, fun hLoop l hPassed hType hDst hStarted hLate => ?_⟩
  · rw [hMgr] at hPc ⊢
    rw [Dispatched, callStep_dispatched]
    obtain rfl | hNe := eq_or_ne l k
    · obtain rfl : n = m := by
        have hAfter : ((s.mgr.callStep l).calls l).pc.conn = some m := by
          obtain hPc | hPc := hPc <;> rw [hPc] <;> rfl
        exact Option.some.inj (hHolds.symm.trans (EventConnManager.holds_of_callStep hHolds hAfter))
      cases hTurn with
      | pushed msg _ _ hSend _ =>
        rw [hSend]
        exact .inl ⟨⟨.call l, msg⟩, List.mem_append_right _ (List.mem_singleton_self _), rfl⟩
      | told hQueued _ hSend _ =>
        rw [hSend]
        exact h.posted l n (.inl hQueued)
      | emptied _ hAfter _ _ =>
        rw [hAfter] at hPc
        obtain hPc | hPc := hPc <;> cases hPc
      | quiet _ _ _ hAfter => exact absurd hPc (not_or.mpr (hAfter n))
    · rw [hFrame.others l hNe] at hPc
      rw [hFrame.conn m (hElse hNe (hHeld hPc))]
      exact h.posted l m hPc
  · rw [hMgr] at hPc hSome ⊢
    obtain ⟨hEvent, hEventPc⟩ := EventConnManager.callStep_event s.mgr k
    rw [heard_congr hEvent hEventPc]
    obtain rfl | hNe := eq_or_ne l k
    · cases hTurn with
      | quiet _ _ _ hAfter => exact absurd hPc (hAfter m).2
      | emptied _ hAfter _ _ => cases hAfter.symm.trans hPc
      | pushed _ _ hAfter _ _ => cases hAfter.symm.trans hPc
      | told _ hAfter _ hMain =>
        obtain rfl : n = m := CallPc.waiting.inj (hAfter.symm.trans hPc)
        obtain ⟨cmd, hMain⟩ := hMain
        rw [hMain, List.length_append, heard, EventPc.heard]
        split
        · next hOwn => exact Nat.lt_add_of_pos_left (List.length_pos_of_ne_nil (hServed.event n hOwn.1).2)
        · exact Nat.succ_pos _
    · rw [hFrame.others l hNe] at hPc
      have hConn := hFrame.conn m (hElse hNe (hHeld (.inr hPc)))
      rw [hConn] at hSome ⊢
      exact h.announced l m hPc hSome
  · rw [hExec] at hLoop
    rw [callStep_passed] at hPassed
    rw [hMgr] at hType hDst hStarted hLate
    obtain rfl | hNe := eq_or_ne l k
    · rw [hFrame.type] at hType
      rw [hFrame.msg] at hDst
      exact h.callStep_returned hHolds hLoop hPassed hType hDst hLate
    · rw [hFrame.others l hNe] at hType hDst hStarted hLate
      rw [(callStep_other b s hNe).1]
      exact h.returned hLoop l hPassed hType hDst hStarted hLate

omit [DecidableEq κ] in
theorem Asks.begin (h : s.Asks b) {k : κ} (hOther : ∀ l, l ≠ k → t.mgr.calls l = s.mgr.calls l)
    (hOwn : ∀ m, (t.mgr.calls k).pc ≠ .queued m ∧ (t.mgr.calls k).pc ≠ .waiting m)
    (hConns : ∀ l m, s.mgr.Holds l m → t.mgr.conns m = s.mgr.conns m)
    (hHeard : ∀ n, heard t.mgr n = heard s.mgr n) (hDispatched : t.dispatched = s.dispatched)
    (hExec : t.exec = s.exec) (hRet : t.ret = s.ret) (hPassed : ∀ l, l ≠ k → t.passed l = s.passed l)
    (hStill : s.exec = .loop → t.passed k = true → (t.mgr.calls k).pc = .start ∨
      (t.mgr.calls k).pc.early = true) : t.Asks b := by
  have hNe : ∀ {l m}, (t.mgr.calls l).pc = .queued m ∨ (t.mgr.calls l).pc = .waiting m → l ≠ k := by
    rintro l m hPc rfl
    exact absurd hPc (not_or.mpr (hOwn m))
  have hHeld : ∀ {l m}, (s.mgr.calls l).pc = .queued m ∨ (s.mgr.calls l).pc = .waiting m → s.mgr.Holds l m := by
    intro l m hPc
    obtain hPc | hPc := hPc <;> exact congrArg CallPc.conn hPc
  refine ⟨fun l m hPc => ?_, fun l m hPc hSome => ?_, fun hLoop l hPass hType hDst hStarted hLate => ?_⟩
  · rw [hOther l (hNe hPc)] at hPc
    rw [hConns l m (hHeld hPc), Dispatched, hDispatched]
    exact h.posted l m hPc
  · rw [hOther l (hNe (.inr hPc))] at hPc
    rw [hConns l m (hHeld (.inr hPc))] at hSome ⊢
    rw [hHeard]
    exact h.announced l m hPc hSome
  · rw [hExec] at hLoop
    obtain rfl | hNe := eq_or_ne l k
    · obtain hStart | hEarly := hStill hLoop hPass
      · exact absurd hStart hStarted
      · rw [hLate] at hEarly
        cases hEarly
    · rw [hOther l hNe] at hType hDst hStarted hLate
      rw [hPassed l hNe] at hPass
      rw [hRet]
      exact h.returned hLoop l hPass hType hDst hStarted hLate

theorem Asks.alloc (h : s.Asks b) (hSized : s.mgr.Sized) (hStage : s.Stage) {k : κ} {type : ConnType} {msg : Msg}
    (hApart : s.mgr.Apart (fun _ _ => True) (.alloc k type msg)) :
    ({ s with mgr := s.mgr.alloc k type msg } : Shutdown κ).Asks b := by
  obtain ⟨t, n, rest, hFrom, -, hEq⟩ := s.mgr.alloc_cases k type msg
  have hCalls : t.calls = s.mgr.calls := by
    obtain ⟨-, rfl⟩ | ⟨-, rfl⟩ := hFrom <;> rfl
  have hConns : ∀ l m, s.mgr.Holds l m → t.conns m = s.mgr.conns m := by
    intro l m hl
    obtain ⟨-, rfl⟩ | ⟨-, rfl⟩ := hFrom
    · rfl
    · exact Function.update_of_ne (Nat.ne_of_lt (hSized.holds_lt l m hl)) ..
  have hEvent : t.event = s.mgr.event ∧ t.eventPc = s.mgr.eventPc := by
    obtain ⟨-, rfl⟩ | ⟨-, rfl⟩ := hFrom
    · exact ⟨rfl, rfl⟩
    · exact ⟨rfl, rfl⟩
  have hEarly : s.exec = .loop → ((s.mgr.alloc k type msg).calls k).pc.early = true := by
    intro hExec
    have hLoop : s.Looping := by rwa [Stage, hExec] at hStage
    obtain ⟨_, _, _, -, -, -, -, hTaken⟩ := hLoop.sound.alloc_spec k type msg hApart
    rw [hTaken, EventConnManager.taken_calls_self]
    rfl
  refine h.begin (k := k) (fun l hNe => ?_) (fun m => ?_) (fun l m hl => ?_) (fun m => ?_) rfl rfl rfl
    (fun _ _ => rfl) fun hExec _ => .inr (hEarly hExec)
  · obtain ⟨-, hEq⟩ | ⟨-, hEq⟩ := hEq
    · simp only [hEq, EventConnManager.taken_calls_ne hNe, hCalls]
    · simp only [hEq, Function.update_of_ne hNe, hCalls]
  · obtain ⟨-, hEq⟩ | ⟨-, hEq⟩ := hEq
    · simp [hEq, EventConnManager.taken_calls_self]
    · simp [hEq]
  · obtain ⟨-, hEq⟩ | ⟨-, hEq⟩ := hEq
    · simp only [hEq]
      exact hConns l m hl
    · simp only [hEq]
      exact hConns l m hl
  · obtain ⟨-, hEq⟩ | ⟨-, hEq⟩ := hEq
    · simp only [hEq]
      exact heard_congr hEvent.1 hEvent.2 m
    · simp only [hEq]
      exact heard_congr hEvent.1 hEvent.2 m

theorem asks_next (c : EventConnManager.Setting) (b : Backend) (s : Shutdown κ) (l : Label κ)
    (h : (s.Honest ∧ s.Stage) ∧ s.mgr.Served ∧ s.Asks b) (hEn : s.enabled l) (hAnswered : s.Answered l)
    (hKeeping : s.Keeping l) : (s.next c b l).Asks b := by
  obtain ⟨⟨hHonest, hStage⟩, hServed, hAsks⟩ := h
  cases l with
  | check k type msg =>
    simp only [next, check]
    split
    · refine hAsks.begin (k := k) (fun l hNe => Function.update_of_ne hNe ..) (fun m => ?_) (fun _ _ _ => rfl)
        (fun _ => rfl) rfl rfl rfl (fun l hNe => Function.update_of_ne hNe ..) fun _ _ => .inl ?_
      · simp
      · simp
    · refine hAsks.begin (k := k) (fun l hNe => Function.update_of_ne hNe ..) (fun m => ?_) (fun _ _ _ => rfl)
        (fun _ => rfl) rfl rfl rfl (fun _ _ => rfl) fun _ hPassed => ?_
      · simp
      · rw [hEn.2] at hPassed
        cases hPassed
  | alloc k => exact hAsks.alloc hServed.toSized hStage hAnswered
  | call k => exact hAsks.callStep hHonest hServed hEn
  | main => exact hAsks.mainStep c hEn.2 hKeeping
  | event n =>
    refine hAsks.of_same rfl (.of_conns rfl) (fun m => ?_) (List.Subset.refl _) id rfl rfl
    exact Nat.le_trans (Nat.le_of_eq (EventPc.heard_draining (some n) m)) (Nat.zero_le _)
  | answer p m | arrive m | quit =>
    exact hAsks.of_same rfl (.of_conns rfl) (fun _ => Nat.le_refl _) (List.Subset.refl _) id rfl rfl
  | exec =>
    simp only [next, execStep]
    cases hExec : s.exec with
    | loop | left | cleared =>
      exact hAsks.of_same rfl (.of_conns rfl) (fun _ => Nat.le_refl _) (List.Subset.refl _) (by rintro ⟨⟩) rfl rfl
    | emptied =>
      refine hAsks.of_same rfl ⟨fun n => ?_, fun n => ?_⟩ (fun _ => Nat.le_refl _) (List.Subset.refl _)
        (by rintro ⟨⟩) rfl rfl
      · simp only [clearEvents]
        split <;> rfl
      · simp only [clearEvents]
        split <;> rfl
    | returned => exact absurd hExec hEn.2

omit [DecidableEq κ] in
theorem asks_initial (b : Backend) (sz : ℕ) : (initial sz : Shutdown κ).Asks b := by
  have hCalls : ∀ k, (initial sz : Shutdown κ).mgr.calls k = {} := by
    intro k
    induction sz with
    | zero => rfl
    | succ sz ih => exact ih
  refine ⟨fun k n hPc => ?_, fun k n hPc => ?_, fun _ k hPassed => by cases hPassed⟩
  · rw [hCalls] at hPc
    obtain hPc | hPc := hPc <;> cases hPc
  · rw [hCalls] at hPc
    cases hPc

/-- What holds in every state of an orderly run. -/
structure Orderly (b : Backend) (s : Shutdown κ) : Prop where
  honest : s.Honest
  stage : s.Stage
  served : s.mgr.Served
  asks : s.Asks b
  single : ∀ k, s.Single k

theorem orderly_visited (c : EventConnManager.Setting) (b : Backend) (sz : ℕ) (ls : List (Label κ))
    (hRuns : (system c b).Runs (initial sz) ls)
    (hAnswered : ∀ p ∈ (system c b).steps (initial sz) ls, p.1.Answered p.2 ∧ p.1.Keeping p.2) :
    ∀ t ∈ (system c b).visited (initial sz) ls, t.Orderly b := by
  have hStep : ∀ (s : Shutdown κ) (l : Label κ), s.Orderly b ∧ s.Traced → s.enabled l →
      s.Answered l ∧ s.Keeping l → (s.next c b l).Orderly b ∧ (s.next c b l).Traced := by
    rintro s l ⟨h, hTraced⟩ hEn ⟨hOk, hKeeping⟩
    obtain ⟨hHonest, hStage⟩ := honest_next c b s l ⟨h.honest, h.stage⟩ h.served hEn hOk
    obtain ⟨hSingle, hTraced'⟩ := once_next c b s l ⟨h.single, hTraced⟩ hEn
    exact ⟨⟨hHonest, hStage, served_next c b s l h.served hEn,
      asks_next c b s l ⟨⟨h.honest, h.stage⟩, h.served, h.asks⟩ hEn hOk hKeeping, hSingle⟩, hTraced'⟩
  obtain ⟨hHonest, hStage⟩ := honest_initial (κ := κ) sz
  obtain ⟨hSingle, hTraced⟩ := once_initial (κ := κ) sz
  intro t ht
  exact ((system c b).inv_visited hStep ⟨⟨hHonest, hStage, served_initial sz, asks_initial b sz, hSingle⟩,
    hTraced⟩ hRuns hAnswered t ht).1

omit [DecidableEq κ] in
theorem waiting_of_not_ready {s : EventConnManager κ} {k : κ} {n : ℕ} (hHolds : s.Holds k n)
    (hReady : s.ready k = false) : (s.calls k).pc = .waiting n ∧ (s.conns n).channel.toOwner = [] := by
  cases hPc : (s.calls k).pc with
  | start | returned r => exact absurd hHolds (EventConnManager.not_holds hPc rfl)
  | waiting m =>
    obtain rfl : m = n := hHolds.eq hPc rfl
    rw [EventConnManager.ready, hPc] at hReady
    exact ⟨rfl, by simpa using hReady⟩
  | allocated | typed | cleared | queued | woken | popped | finished | unregistered =>
    rw [EventConnManager.ready, hPc] at hReady
    cases hReady

/-- A request that nobody answers. -/
def askedRun : List (Label Unit) :=
  [.check () .kSendReq { dst := "actor.a.1" }, .alloc (), .call (), .call (), .call (), .call (), .event 0, .main,
    .main, .main, .main]

end Shutdown
end Myframe
