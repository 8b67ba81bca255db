import Myframe.Mailbox
import Mathlib.Logic.Function.Basic
import Mathlib.Data.List.Count

/-! # Actor contexts and their manager

Contexts live in a heap and are referred to by pointers `ι`. The manager holds the registered names
and the queue of contexts that wait for a worker.
-/
namespace Myframe
set_option autoImplicit false

structure ActorContext (γ : Type) where
  mailbox : Mailbox γ
  inWorker : Bool := false
  inWaitQue : Bool := false

structure ActorContextManager (ι γ : Type) where
  heap : ι → ActorContext γ
  ctxs : String → Option ι
  waitQueue : List ι := []

namespace ActorContextManager

variable {ι γ : Type}

/-- The loop of `GetContextWithMsg` over the wait queue: the first context that is not running, and
the queue with the running ones passed over put at its end. -/
def scan (running : ι → Bool) : List ι → List ι → Option ι × List ι
  | [], passed => (none, passed)
  | a :: queue, passed =>
    if running a then scan running queue (passed ++ [a]) else (some a, queue ++ passed)

theorem scan_none {running : ι → Bool} {queue passed : List ι}
    (h : (scan running queue passed).1 = none) :
    (scan running queue passed).2 = passed ++ queue := by
  induction queue generalizing passed with
  | nil => rw [scan, List.append_nil]
  | cons a queue ih =>
    rw [scan] at h ⊢
    split at h
    · next hRun => rw [if_pos hRun, ih h, List.append_assoc, List.singleton_append]
    · cases h

theorem scan_some {running : ι → Bool} {queue passed : List ι} {a : ι}
    (h : (scan running queue passed).1 = some a) :
    running a = false ∧ (a :: (scan running queue passed).2).Perm (passed ++ queue) := by
  induction queue generalizing passed with
  | nil => nomatch h
  | cons b queue ih =>
    rw [scan] at h ⊢
    split at h
    · next hRun =>
      rw [if_pos hRun]
      obtain ⟨hFree, hPerm⟩ := ih h
      exact ⟨hFree, hPerm.trans (by rw [List.append_assoc, List.singleton_append])⟩
    · next hRun =>
      obtain rfl := Option.some.inj h
      rw [if_neg hRun]
      exact ⟨Bool.not_eq_true _ ▸ hRun, @List.perm_append_comm _ (b :: queue) passed⟩

/-- What is taken stands behind running contexts only, and these go to the end. -/
theorem scan_split {running : ι → Bool} {queue passed : List ι} {a : ι}
    (h : (scan running queue passed).1 = some a) :
    ∃ skipped rest, (∀ b ∈ skipped, running b = true) ∧ queue = skipped ++ a :: rest ∧
      (scan running queue passed).2 = rest ++ (passed ++ skipped) := by
  induction queue generalizing passed with
  | nil => nomatch h
  | cons b queue ih =>
    rw [scan] at h ⊢
    split at h
    · next hRun =>
      obtain ⟨skipped, rest, hSkipped, hQueue, hScan⟩ := ih h
      rw [if_pos hRun, hScan, hQueue]
      refine ⟨b :: skipped, rest, List.forall_mem_cons.mpr ⟨hRun, hSkipped⟩, rfl, ?_⟩
      rw [List.append_assoc passed, List.singleton_append]
    · next hRun =>
      obtain rfl := Option.some.inj h
      rw [if_neg hRun]
      exact ⟨[], queue, List.forall_mem_nil _, rfl, by rw [List.append_nil]⟩

/-- A context that waits and is not running is not passed over. -/
theorem scan_ne_none {running : ι → Bool} {queue passed : List ι} {a : ι} (hMem : a ∈ queue)
    (hFree : running a = false) : (scan running queue passed).1 ≠ none := by
  induction queue generalizing passed with
  | nil => cases hMem
  | cons b queue ih =>
    rw [scan]
    split
    · next hRun =>
      obtain rfl | hMem := List.mem_cons.mp hMem
      · cases hFree.symm.trans hRun
      · exact ih hMem
    · exact Option.some_ne_none b

variable [DecidableEq ι]

def modify (s : ActorContextManager ι γ) (a : ι) (f : ActorContext γ → ActorContext γ) :
    ActorContextManager ι γ :=
  { s with heap := Function.update s.heap a (f (s.heap a)) }

def setRuningFlag (s : ActorContextManager ι γ) (a : ι) (b : Bool) : ActorContextManager ι γ :=
  s.modify a fun c => { c with inWorker := b }

def mapMailbox (s : ActorContextManager ι γ) (a : ι) (f : Mailbox γ → Mailbox γ) :
    ActorContextManager ι γ :=
  s.modify a fun c => { c with mailbox := f c.mailbox }

def hasActor (s : ActorContextManager ι γ) (name : String) : Bool := (s.ctxs name).isSome

def pushContext (s : ActorContextManager ι γ) (a : ι) : ActorContextManager ι γ :=
  if (s.heap a).inWaitQue then s
  else
    { s.modify a fun c => { c with inWaitQue := true } with waitQueue := s.waitQueue ++ [a] }

def dispatchMsg (s : ActorContextManager ι γ) (name : String) (p : Parcel γ) :
    ActorContextManager ι γ :=
  match s.ctxs name with
  | none => s
  | some a => (s.mapMailbox a fun b => b.receive p).pushContext a

/-- A second context of one name stays out of the table; `AddActor` does not look at the result. -/
def add (s : ActorContextManager ι γ) (name : String) (a : ι) : ActorContextManager ι γ × Bool :=
  if (s.ctxs name).isSome then (s, false)
  else ({ s with ctxs := Function.update s.ctxs name (some a) }, true)

def getContextWithMsg (s : ActorContextManager ι γ) : ActorContextManager ι γ × Option ι :=
  let (found, queue) := scan (fun a => (s.heap a).inWorker) s.waitQueue []
  match found with
  | none => ({ s with waitQueue := queue }, none)
  | some a =>
    ({ s.modify a fun c => { c with inWorker := true, inWaitQue := false } with waitQueue := queue },
      some a)

@[simp] theorem modify_heap (s : ActorContextManager ι γ) (a b : ι)
    (f : ActorContext γ → ActorContext γ) :
    (s.modify a f).heap b = if b = a then f (s.heap a) else s.heap b := Function.update_apply ..

@[simp] theorem mapMailbox_heap (s : ActorContextManager ι γ) (a b : ι) (f : Mailbox γ → Mailbox γ) :
    (s.mapMailbox a f).heap b =
      { s.heap b with mailbox := if b = a then f (s.heap a).mailbox else (s.heap b).mailbox } := by
  rw [mapMailbox, modify_heap]
  split
  · next hEq => rw [hEq]
  · rfl

theorem pushContext_ctxs (s : ActorContextManager ι γ) (a : ι) : (s.pushContext a).ctxs = s.ctxs := by
  unfold pushContext; split <;> rfl

theorem pushContext_mailbox (s : ActorContextManager ι γ) (a b : ι) :
    ((s.pushContext a).heap b).mailbox = (s.heap b).mailbox := by
  unfold pushContext
  split
  · rfl
  · rw [modify_heap]
    split
    · next hEq => rw [hEq]
    · rfl

theorem pushContext_inWorker (s : ActorContextManager ι γ) (a b : ι) :
    ((s.pushContext a).heap b).inWorker = (s.heap b).inWorker := by
  unfold pushContext
  split
  · rfl
  · rw [modify_heap]
    split
    · next hEq => rw [hEq]
    · rfl

theorem dispatchMsg_ctxs (s : ActorContextManager ι γ) (name : String) (p : Parcel γ) :
    (s.dispatchMsg name p).ctxs = s.ctxs := by
  unfold dispatchMsg
  split
  · rfl
  · rw [pushContext_ctxs]
    rfl

theorem dispatchMsg_inWorker (s : ActorContextManager ι γ) (name : String) (p : Parcel γ) (b : ι) :
    ((s.dispatchMsg name p).heap b).inWorker = (s.heap b).inWorker := by
  unfold dispatchMsg
  split
  · rfl
  · rw [pushContext_inWorker, mapMailbox_heap]

/-- A dispatch adds to the receive queue of the context of that name and touches no mailbox else. -/
theorem dispatchMsg_mailbox (s : ActorContextManager ι γ) (name : String) (p : Parcel γ) (b : ι) :
    ((s.dispatchMsg name p).heap b).mailbox =
      if s.ctxs name = some b then (s.heap b).mailbox.receive p else (s.heap b).mailbox := by
  unfold dispatchMsg
  split
  · next hNone => rw [hNone, if_neg nofun]
  · next a hSome =>
    simp only [pushContext_mailbox, mapMailbox_heap, hSome, Option.some_inj]
    split
    · next hEq => rw [if_pos hEq.symm, hEq]
    · next hEq => rw [if_neg (Ne.symm hEq)]

theorem getContextWithMsg_none {s t : ActorContextManager ι γ} (h : s.getContextWithMsg = (t, none)) :
    t = s := by
  rw [getContextWithMsg] at h
  cases hFound : (scan (fun a => (s.heap a).inWorker) s.waitQueue []).1 with
  | none =>
    have hQueue := scan_none hFound
    simp only [hFound, hQueue, List.nil_append, Prod.mk.injEq, and_true] at h
    exact h.symm
  | some a => simp [hFound] at h

/-- The context taken was waiting and not running, and it leaves the queue. -/
theorem getContextWithMsg_some {s t : ActorContextManager ι γ} {a : ι}
    (h : s.getContextWithMsg = (t, some a)) :
    (s.heap a).inWorker = false ∧ (a :: t.waitQueue).Perm s.waitQueue ∧ t.ctxs = s.ctxs ∧
      ∀ b, t.heap b =
        if b = a then { s.heap a with inWorker := true, inWaitQue := false } else s.heap b := by
  rw [getContextWithMsg] at h
  cases hFound : (scan (fun a => (s.heap a).inWorker) s.waitQueue []).1 with
  | none => simp [hFound] at h
  | some b =>
    obtain ⟨hFree, hPerm⟩ := scan_some hFound
    simp only [hFound, Prod.mk.injEq, Option.some.injEq] at h
    obtain ⟨rfl, rfl⟩ := h
    refine ⟨hFree, hPerm, rfl, fun c => ?_⟩
    exact modify_heap s b c fun x => { x with inWorker := true, inWaitQue := false }

theorem getContextWithMsg_mailbox (s : ActorContextManager ι γ) (b : ι) :
    ((s.getContextWithMsg).1.heap b).mailbox = (s.heap b).mailbox := by
  cases hTake : s.getContextWithMsg with
  | mk t found =>
    cases found with
    | none => rw [getContextWithMsg_none hTake]
    | some a =>
      obtain ⟨-, -, -, hHeap⟩ := getContextWithMsg_some hTake
      rw [hHeap]
      split
      · next hEq => rw [hEq]
      · rfl

end ActorContextManager
end Myframe
