import Myframe.Actor.Context
import Mathlib.Data.List.Nodup

/-! # The wait queue and the mailboxes

A context waits exactly while it has messages to receive. One context may be in between: the one that
the main loop has taken from the queue and not handed over yet.
-/
namespace Myframe
set_option autoImplicit false
namespace ActorContextManager

variable {ι γ : Type}

/-- The queue, the flags and the receive queues agree, except at the context `between`. -/
structure Tidy (s : ActorContextManager ι γ) (between : Option ι) : Prop where
  nodup : s.waitQueue.Nodup
  mem_iff : ∀ a, a ∈ s.waitQueue ↔ (s.heap a).inWaitQue = true
  recv_iff : ∀ a, between ≠ some a →
    ((s.heap a).mailbox.recv ≠ [] ↔ (s.heap a).inWaitQue = true)
  between : ∀ a, between = some a → (s.heap a).inWaitQue = false

theorem Tidy.release {s : ActorContextManager ι γ} {a : ι} (h : s.Tidy (some a))
    (hNil : (s.heap a).mailbox.recv = []) : s.Tidy none where
  nodup := h.nodup
  mem_iff := h.mem_iff
  recv_iff b _ := by
    obtain rfl | hb := eq_or_ne a b
    · rw [hNil, h.between a rfl]
      exact ⟨fun hNe => absurd rfl hNe, nofun⟩
    · exact h.recv_iff b fun hEq => hb (Option.some.inj hEq)
  between := nofun

theorem Tidy.of_heap {s t : ActorContextManager ι γ} {between : Option ι} (h : s.Tidy between)
    (hQueue : t.waitQueue = s.waitQueue)
    (hHeap : ∀ a, (t.heap a).mailbox.recv = (s.heap a).mailbox.recv ∧
      (t.heap a).inWaitQue = (s.heap a).inWaitQue) : t.Tidy between where
  nodup := hQueue ▸ h.nodup
  mem_iff a := by rw [hQueue, (hHeap a).2]; exact h.mem_iff a
  recv_iff a ha := by rw [(hHeap a).1, (hHeap a).2]; exact h.recv_iff a ha
  between a ha := by rw [(hHeap a).2]; exact h.between a ha

variable [DecidableEq ι]

theorem Tidy.mapMailbox {s : ActorContextManager ι γ} {between : Option ι} (h : s.Tidy between) (a : ι)
    {f : Mailbox γ → Mailbox γ}
    (hRecv : between ≠ some a → (f (s.heap a).mailbox).recv = (s.heap a).mailbox.recv) :
    (s.mapMailbox a f).Tidy between where
  nodup := h.nodup
  mem_iff b := by rw [mapMailbox_heap]; exact h.mem_iff b
  recv_iff b hb := by
    rw [mapMailbox_heap]
    split
    · next hEq =>
      subst hEq
      rw [hRecv hb]
      exact h.recv_iff b hb
    · exact h.recv_iff b hb
  between b hb := by rw [mapMailbox_heap]; exact h.between b hb

theorem Tidy.pushContext {s : ActorContextManager ι γ} {a : ι} (hNodup : s.waitQueue.Nodup)
    (hMem : ∀ b, b ∈ s.waitQueue ↔ (s.heap b).inWaitQue = true)
    (hRecv : ∀ b, b ≠ a → ((s.heap b).mailbox.recv ≠ [] ↔ (s.heap b).inWaitQue = true))
    (hNe : (s.heap a).mailbox.recv ≠ []) : (s.pushContext a).Tidy none := by
  rw [ActorContextManager.pushContext]
  split
  · next hFlag =>
    refine ⟨hNodup, hMem, fun b _ => ?_, nofun⟩
    obtain rfl | hb := eq_or_ne b a
    · exact ⟨fun _ => hFlag, fun _ => hNe⟩
    · exact hRecv b hb
  · next hFlag =>
    have hNotMem : a ∉ s.waitQueue := fun hIn => hFlag ((hMem a).mp hIn)
    refine ⟨?_, fun b => ?_, fun b _ => ?_, nofun⟩
    · exact List.nodup_append.mpr ⟨hNodup, List.nodup_singleton a, by
        rintro b hb c hc rfl
        exact hNotMem (List.mem_singleton.mp hc ▸ hb)⟩
    · rw [modify_heap]
      split
      · next hEq => simp [hEq]
      · next hb => simp [hMem b, hb]
    · rw [modify_heap]
      split
      · exact ⟨fun _ => rfl, fun _ => hNe⟩
      · next hb => exact hRecv b hb

theorem Tidy.dispatchMsg {s : ActorContextManager ι γ} (h : s.Tidy none) (name : String)
    (p : Parcel γ) : (s.dispatchMsg name p).Tidy none := by
  rw [ActorContextManager.dispatchMsg]
  split
  · exact h
  · next a hSome =>
    apply Tidy.pushContext
    · exact h.nodup
    · intro b
      rw [mapMailbox_heap]
      exact h.mem_iff b
    · intro b hb
      rw [mapMailbox_heap, if_neg hb]
      exact h.recv_iff b nofun
    · rw [mapMailbox_heap, if_pos rfl]
      exact Mailbox.receive_recv_ne_nil _ _

theorem Tidy.getContextWithMsg {s t : ActorContextManager ι γ} {a : ι} (h : s.Tidy none)
    (hTake : s.getContextWithMsg = (t, some a)) : t.Tidy (some a) ∧ (t.heap a).mailbox.recv ≠ [] := by
  obtain ⟨-, hPerm, -, hHeap⟩ := getContextWithMsg_some hTake
  obtain ⟨hNotMem, hNodup⟩ := List.nodup_cons.mp (hPerm.nodup_iff.mpr h.nodup)
  have hMem : ∀ b, b ∈ s.waitQueue ↔ b = a ∨ b ∈ t.waitQueue := by
    intro b
    rw [← hPerm.mem_iff, List.mem_cons]
  have hNe : (s.heap a).mailbox.recv ≠ [] :=
    (h.recv_iff a nofun).mpr ((h.mem_iff a).mp ((hMem a).mpr (.inl rfl)))
  refine ⟨⟨hNodup, fun b => ?_, fun b hb => ?_, fun b hb => ?_⟩, ?_⟩
  · rw [hHeap]
    split
    · next hEq => simp [hEq, hNotMem]
    · next hb => rw [← h.mem_iff b, hMem b, or_iff_right hb]
  · have hb : b ≠ a := fun hEq => hb (hEq ▸ rfl)
    rw [hHeap, if_neg hb]
    exact h.recv_iff b nofun
  · obtain rfl := Option.some.inj hb
    rw [hHeap, if_pos rfl]
  · rw [hHeap, if_pos rfl]
    exact hNe

end ActorContextManager
end Myframe
