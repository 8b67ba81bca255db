import Myframe.Msg

/-! # Mailboxes

Three queues: `recv` is filled by the main loop, `run` is what the owner may process, `send` holds
what the owner has posted and the main loop has not dispatched yet.
-/
namespace Myframe
set_option autoImplicit false

structure Mailbox (γ : Type) where
  addr : String := ""
  recv : List (Parcel γ) := []
  send : List (Parcel γ) := []
  run : List (Parcel γ) := []
  pendingQueueSize : ℤ := -1
  runQueueSize : ℤ := -1

namespace Mailbox

variable {γ : Type}

def push (b : Mailbox γ) (p : Parcel γ) : Mailbox γ := { b with send := b.send ++ [p] }

/-- `Send(dst, msg)` stamps the sender's address. -/
def pushTo (b : Mailbox γ) (dst : String) (p : Parcel γ) : Mailbox γ :=
  b.push { p with msg := { p.msg with src := b.addr, dst := dst } }

/-- `for (; recv_.size() >= n;) recv_.pop_front()`. -/
def dropOverflow (n : ℕ) : List (Parcel γ) → List (Parcel γ)
  | [] => []
  | p :: ps => if n ≤ (p :: ps).length then dropOverflow n ps else p :: ps

def receive (b : Mailbox γ) (p : Parcel γ) : Mailbox γ :=
  if 0 < b.pendingQueueSize then
    { b with recv := dropOverflow b.pendingQueueSize.toNat b.recv ++ [p] }
  else { b with recv := b.recv ++ [p] }

/-- With a batch limit the batch goes in front of what `run` still holds, without one behind it. -/
def moveToRun (b : Mailbox γ) : Mailbox γ :=
  if 0 < b.runQueueSize then
    { b with
      run := b.recv.take b.runQueueSize.toNat ++ b.run
      recv := b.recv.drop b.runQueueSize.toNat }
  else { b with run := b.run ++ b.recv, recv := [] }

@[simp] theorem push_send (b : Mailbox γ) (p : Parcel γ) : (b.push p).send = b.send ++ [p] := rfl

@[simp] theorem push_recv (b : Mailbox γ) (p : Parcel γ) : (b.push p).recv = b.recv := rfl

theorem receive_eq (b : Mailbox γ) (p : Parcel γ) : ∃ recv, b.receive p = { b with recv := recv } := by
  unfold receive; split <;> exact ⟨_, rfl⟩

@[simp] theorem receive_send (b : Mailbox γ) (p : Parcel γ) : (b.receive p).send = b.send := by
  unfold receive; split <;> rfl

@[simp] theorem receive_pendingQueueSize (b : Mailbox γ) (p : Parcel γ) :
    (b.receive p).pendingQueueSize = b.pendingQueueSize := by
  unfold receive; split <;> rfl

theorem receive_recv_of_nonpos {b : Mailbox γ} (h : b.pendingQueueSize ≤ 0) (p : Parcel γ) :
    (b.receive p).recv = b.recv ++ [p] := by
  rw [receive, if_neg (not_lt.mpr h)]

/-- What has just been received is never dropped. -/
theorem receive_recv_ne_nil (b : Mailbox γ) (p : Parcel γ) : (b.receive p).recv ≠ [] := by
  unfold receive; split <;> simp

@[simp] theorem moveToRun_send (b : Mailbox γ) : b.moveToRun.send = b.send := by
  unfold moveToRun; split <;> rfl

@[simp] theorem moveToRun_pendingQueueSize (b : Mailbox γ) :
    b.moveToRun.pendingQueueSize = b.pendingQueueSize := by
  unfold moveToRun; split <;> rfl

/-- A move keeps the order of all messages only because the run queue was empty. -/
theorem moveToRun_run_recv {b : Mailbox γ} (h : b.run = []) :
    b.moveToRun.run ++ b.moveToRun.recv = b.recv := by
  unfold moveToRun; split <;> simp [h]

theorem moveToRun_run_ne_nil {b : Mailbox γ} (h : b.recv ≠ [] ∨ b.run ≠ []) : b.moveToRun.run ≠ [] := by
  unfold moveToRun
  split
  · intro hNil
    obtain ⟨hTake, hRun⟩ := List.append_eq_nil_iff.mp hNil
    obtain hZero | hRecv := List.take_eq_nil_iff.mp hTake
    · omega
    · exact h.elim (absurd hRecv) (absurd hRun)
  · intro hNil
    obtain ⟨hRun, hRecv⟩ := List.append_eq_nil_iff.mp hNil
    exact h.elim (absurd hRecv) (absurd hRun)

theorem moveToRun_recv_length_lt {b : Mailbox γ} (h : b.recv ≠ []) :
    b.moveToRun.recv.length < b.recv.length := by
  have hPos := List.length_pos_of_ne_nil h
  unfold moveToRun
  split
  · simp only [List.length_drop]
    omega
  · exact hPos

/-- A batch is within its limit as long as it is not put in front of another. -/
theorem moveToRun_run_length_le {b : Mailbox γ} (h : b.run = []) (hSize : 0 < b.runQueueSize) :
    (b.moveToRun.run.length : ℤ) ≤ b.runQueueSize := by
  rw [moveToRun, if_pos hSize, h, List.append_nil, List.length_take]
  omega

end Mailbox
end Myframe
