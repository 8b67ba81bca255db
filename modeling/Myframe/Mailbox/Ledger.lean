import Mathlib.Data.List.Nodup
import Mathlib.Data.List.Range
import Myframe.Library.Transition
import Myframe.Mailbox

/-! # What a mailbox does with what it is given

Messages are numbered as they arrive, and `returned` is what `PopRun` has given out so far.
-/
namespace Myframe
set_option autoImplicit false

namespace Mailbox

variable {γ : Type}

def setRunQueueSize (b : Mailbox γ) (sz : ℤ) : Mailbox γ := { b with runQueueSize := sz }

/-- A null pointer where nothing is left. -/
def popRun (b : Mailbox γ) : Option (Parcel γ) × Mailbox γ :=
  match b.run with
  | [] => (none, b)
  | p :: ps => (some p, { b with run := ps })

theorem dropOverflow_eq_drop (n : ℕ) (ps : List (Parcel γ)) :
    dropOverflow n ps = ps.drop (ps.length + 1 - n) := by
  induction ps with
  | nil => rw [dropOverflow, List.drop_nil]
  | cons p ps ih =>
    rw [dropOverflow]
    split
    · next hFull =>
      rw [ih, List.length_cons, show ps.length + 1 + 1 - n = ps.length + 1 - n + 1 by
        rw [List.length_cons] at hFull; omega, List.drop_succ_cons]
    · next hRoom =>
      rw [List.length_cons] at hRoom ⊢
      rw [Nat.sub_eq_zero_of_le (by omega), List.drop_zero]

theorem receive_of_nonpos {b : Mailbox γ} (h : b.pendingQueueSize ≤ 0) (p : Parcel γ) :
    b.receive p = { b with recv := b.recv ++ [p] } := if_neg (not_lt.mpr h)

theorem moveToRun_of_pos {b : Mailbox γ} (h : 0 < b.runQueueSize) : b.moveToRun =
    { b with
      run := b.recv.take b.runQueueSize.toNat ++ b.run
      recv := b.recv.drop b.runQueueSize.toNat } := if_pos h

theorem moveToRun_of_nonpos {b : Mailbox γ} (h : ¬ 0 < b.runQueueSize) :
    b.moveToRun = { b with run := b.run ++ b.recv, recv := [] } := if_neg h

theorem popRun_eq (b : Mailbox γ) : b.popRun = (b.run.head?, { b with run := b.run.tail }) := by
  rw [popRun]
  split
  · next hRun =>
    cases b
    subst hRun
    rfl
  · next hRun => rw [hRun, List.head?_cons, List.tail_cons]

theorem popRun_append (b : Mailbox γ) : b.popRun.1.toList ++ b.popRun.2.run = b.run := by
  rw [popRun_eq]
  cases b.run with
  | nil => rfl
  | cons p ps => rfl

end Mailbox

inductive QueueOp where
  | recv (msg : Msg)
  | setRunQueueSize (sz : ℤ)
  | moveToRun
  | popRun
  deriving DecidableEq

def QueueOp.isRecv : QueueOp → Bool
  | .recv _ => true
  | _ => false

structure Ledger where
  box : Mailbox ℕ
  received : List (Parcel ℕ) := []
  returned : List (Parcel ℕ) := []

namespace Ledger

def next (s : Ledger) : QueueOp → Ledger
  | .recv msg =>
    { s with
      box := s.box.receive ⟨s.received.length, msg⟩
      received := s.received ++ [⟨s.received.length, msg⟩] }
  | .setRunQueueSize sz => { s with box := s.box.setRunQueueSize sz }
  | .moveToRun => { s with box := s.box.moveToRun }
  | .popRun => { s with box := s.box.popRun.2, returned := s.returned ++ s.box.popRun.1.toList }

def system : Transition.System Ledger QueueOp where
  enabled _ _ := True
  next := next

def fresh (addr : String) (pending run : ℤ) : Ledger where
  box := { addr := addr, pendingQueueSize := pending, runQueueSize := run }

/-- What has been received is numbered in its order, and `recv` is the end of it. -/
structure Filed (s : Ledger) (old : List (Parcel ℕ)) : Prop where
  split : s.received = old ++ s.box.recv
  marks : s.received.map Parcel.mark = List.range s.received.length

theorem mark_lt_of_mem {s : Ledger} {old : List (Parcel ℕ)} (h : s.Filed old) {p : Parcel ℕ} (hp : p ∈ s.received) :
    p.mark < s.received.length := by
  have hMark : p.mark ∈ s.received.map Parcel.mark := List.mem_map_of_mem hp
  rw [h.marks] at hMark
  exact List.mem_range.mp hMark

theorem Filed.nodup {s : Ledger} {old : List (Parcel ℕ)} (h : s.Filed old) : (old ++ s.box.recv).Nodup := by
  rw [← h.split]
  refine List.Nodup.of_map Parcel.mark ?_
  rw [h.marks]
  exact List.nodup_range

theorem filed_fresh (addr : String) (pending run : ℤ) : (fresh addr pending run).Filed [] := ⟨rfl, rfl⟩

theorem marks_recv (s : Ledger) (msg : Msg) (h : s.received.map Parcel.mark = List.range s.received.length) :
    (s.next (.recv msg)).received.map Parcel.mark = List.range (s.next (.recv msg)).received.length := by
  simp only [next, List.map_append, h, List.map_singleton, List.length_append, List.length_singleton,
    List.range_succ]

/-- What `PopRun` has returned, `run` and `recv` together are what has been received, in its order. -/
def Fifo (s : Ledger) : Prop := s.returned ++ (s.box.run ++ s.box.recv) = s.received

instance (s : Ledger) : Decidable s.Fifo := inferInstanceAs (Decidable (_ = _))

/-- A batch is moved in front of what `run` still holds. -/
def InOrder (s : Ledger) : QueueOp → Prop
  | .moveToRun => 0 < s.box.runQueueSize → s.box.run = [] ∨ s.box.recv = []
  | _ => True

structure Held (s : Ledger) : Prop where
  unbounded : s.box.pendingQueueSize ≤ 0
  filed : ∃ old, s.Filed old ∧ (s.returned ++ s.box.run).Perm old

theorem Held.next {s : Ledger} (h : s.Held) (op : QueueOp) : (s.next op).Held := by
  obtain ⟨hBound, old, hFiled, hPerm⟩ := h
  cases op with
  | recv msg =>
    refine ⟨?_, old, ⟨?_, marks_recv s msg hFiled.marks⟩, ?_⟩
    · simpa only [Ledger.next, Mailbox.receive_pendingQueueSize] using hBound
    · simp only [Ledger.next, Mailbox.receive_of_nonpos hBound]
      rw [hFiled.split, List.append_assoc]
    · simpa only [Ledger.next, Mailbox.receive_of_nonpos hBound] using hPerm
  | setRunQueueSize sz => exact ⟨hBound, old, ⟨hFiled.split, hFiled.marks⟩, hPerm⟩
  | moveToRun =>
    by_cases hLimit : 0 < s.box.runQueueSize
    · have hSwap : (s.box.recv.take s.box.runQueueSize.toNat ++ s.box.run).Perm
          (s.box.run ++ s.box.recv.take s.box.runQueueSize.toNat) := List.perm_append_comm
      refine ⟨?_, old ++ s.box.recv.take s.box.runQueueSize.toNat, ⟨?_, hFiled.marks⟩, ?_⟩
      · simpa only [Ledger.next, Mailbox.moveToRun_pendingQueueSize] using hBound
      · simp only [Ledger.next, Mailbox.moveToRun_of_pos hLimit]
        rw [List.append_assoc, List.take_append_drop, hFiled.split]
      · simp only [Ledger.next, Mailbox.moveToRun_of_pos hLimit]
        refine (hSwap.append_left _).trans ?_
        rw [← List.append_assoc]
        exact hPerm.append_right _
    · refine ⟨?_, old ++ s.box.recv, ⟨?_, hFiled.marks⟩, ?_⟩
      · simpa only [Ledger.next, Mailbox.moveToRun_pendingQueueSize] using hBound
      · simp only [Ledger.next, Mailbox.moveToRun_of_nonpos hLimit]
        rw [List.append_nil, hFiled.split]
      · simp only [Ledger.next, Mailbox.moveToRun_of_nonpos hLimit]
        rw [← List.append_assoc]
        exact hPerm.append_right _
  | popRun =>
    refine ⟨?_, old, ⟨?_, hFiled.marks⟩, ?_⟩
    · simpa only [Ledger.next, Mailbox.popRun_eq] using hBound
    · simpa only [Ledger.next, Mailbox.popRun_eq] using hFiled.split
    · simp only [Ledger.next]
      rwa [List.append_assoc, Mailbox.popRun_append]

theorem swap_iff {old batch run returned : List (Parcel ℕ)} (hNodup : (old ++ batch).Nodup)
    (hPerm : (returned ++ run).Perm old) :
    returned ++ (batch ++ run) = old ++ batch ↔ returned ++ run = old ∧ (run = [] ∨ batch = []) := by
  constructor
  · intro hEq
    obtain rfl | hRun := eq_or_ne run []
    · rw [List.append_nil] at hEq ⊢
      exact ⟨List.append_cancel_right hEq, .inl rfl⟩
    obtain rfl | hBatch := eq_or_ne batch []
    · rw [List.nil_append, List.append_nil] at hEq
      exact ⟨hEq, .inr rfl⟩
    have hLast := congrArg List.getLast? hEq
    rw [← List.append_assoc, List.getLast?_append_of_ne_nil _ hRun, List.getLast?_append_of_ne_nil _ hBatch,
      List.getLast?_eq_some_getLast hRun, List.getLast?_eq_some_getLast hBatch] at hLast
    have hMem : run.getLast hRun ∈ old :=
      hPerm.mem_iff.mp (List.mem_append_right _ (List.getLast_mem hRun))
    rw [Option.some.inj hLast] at hMem
    exact absurd rfl ((List.nodup_append.mp hNodup).2.2 _ hMem _ (List.getLast_mem hBatch))
  · rintro ⟨rfl, rfl | rfl⟩
    · rw [List.append_nil, List.append_nil]
    · rw [List.nil_append, List.append_nil]

theorem fifo_next_iff {s : Ledger} (h : s.Held) (op : QueueOp) : (s.next op).Fifo ↔ s.Fifo ∧ s.InOrder op := by
  obtain ⟨hBound, old, hFiled, hPerm⟩ := h
  have hFifo : s.Fifo ↔ s.returned ++ s.box.run = old := by
    rw [Fifo, hFiled.split, ← List.append_assoc, List.append_left_inj]
  cases op with
  | recv msg =>
    simp only [Fifo, InOrder, and_true, Ledger.next, Mailbox.receive_of_nonpos hBound]
    rw [← List.append_assoc, ← List.append_assoc, List.append_left_inj, List.append_assoc]
  | setRunQueueSize sz => exact (and_iff_left trivial).symm
  | moveToRun =>
    by_cases hLimit : 0 < s.box.runQueueSize
    · have hNodup := hFiled.nodup
      rw [← List.take_append_drop s.box.runQueueSize.toNat s.box.recv, ← List.append_assoc] at hNodup
      have hBatch : s.box.recv.take s.box.runQueueSize.toNat = [] ↔ s.box.recv = [] := by
        rw [List.take_eq_nil_iff]
        exact or_iff_right (by omega)
      rw [hFifo, InOrder, forall_prop_of_true hLimit, ← hBatch, ← swap_iff hNodup.of_append_left hPerm]
      simp only [Fifo, Ledger.next, Mailbox.moveToRun_of_pos hLimit]
      rw [hFiled.split, show old ++ s.box.recv = old ++ s.box.recv.take s.box.runQueueSize.toNat ++
        s.box.recv.drop s.box.runQueueSize.toNat by rw [List.append_assoc, List.take_append_drop],
        ← List.append_assoc, List.append_left_inj]
    · rw [InOrder, forall_prop_of_false hLimit, and_true]
      simp only [Fifo, Ledger.next, Mailbox.moveToRun_of_nonpos hLimit, List.append_nil]
  | popRun =>
    simp only [Fifo, InOrder, and_true, Ledger.next]
    rw [← List.append_assoc, List.append_assoc s.returned, Mailbox.popRun_append, List.append_assoc,
      Mailbox.popRun_eq]

theorem fifo_exec_iff {s : Ledger} (h : s.Held) (ops : List QueueOp) :
    (system.exec s ops).Fifo ↔ s.Fifo ∧ ∀ p ∈ system.steps s ops, p.1.InOrder p.2 := by
  induction ops generalizing s with
  | nil => simp [Transition.System.steps]
  | cons op ops ih =>
    have hNext : (system.next s op).Held := h.next op
    have hStep : (system.next s op).Fifo ↔ s.Fifo ∧ s.InOrder op := fifo_next_iff h op
    rw [Transition.System.exec_cons, ih hNext, hStep, Transition.System.steps, List.forall_mem_cons,
      and_assoc]

/-- The order is kept just where each bounded batch is moved into an empty `run`, or is empty. -/
theorem fifo_iff (addr : String) {pending : ℤ} (h : pending ≤ 0) (run : ℤ) (ops : List QueueOp) :
    (system.exec (fresh addr pending run) ops).Fifo ↔
      ∀ p ∈ system.steps (fresh addr pending run) ops, p.1.InOrder p.2 := by
  rw [fifo_exec_iff ⟨h, [], filed_fresh addr pending run, .refl _⟩]
  exact and_iff_right rfl

/-- Batches of one message, the first of which is read before the second is moved. -/
theorem fifo_iff_read :
    (system.exec (fresh "actor.a.1" (-1) 1) [.recv {}, .recv {}, .moveToRun, .popRun, .moveToRun]).Fifo :=
  (fifo_iff "actor.a.1" (by decide) 1 _).mpr (by
    simp [system, Transition.System.steps, next, fresh, InOrder, Mailbox.moveToRun, Mailbox.receive,
      Mailbox.popRun])

theorem second_batch_overtakes :
    ¬ (system.exec (fresh "worker.a.1" (-1) 1) [.recv {}, .recv {}, .moveToRun, .moveToRun]).Fifo := by
  decide

/-- `run` is emptied before the next move, as `CheckStopWorkers` and `Work` do. -/
def batched : Transition.System Ledger QueueOp where
  enabled s op := op = .moveToRun → s.box.run = []
  next := next

structure Bounded (P : ℕ) (s : Ledger) : Prop where
  bound : s.box.pendingQueueSize = P
  length_le : s.box.recv.length ≤ P
  filed : ∃ old, s.Filed old ∧ (s.returned ++ s.box.run).Sublist old

theorem bounded_fresh (addr : String) (P : ℕ) (run : ℤ) : (fresh addr P run).Bounded P :=
  ⟨rfl, Nat.zero_le P, [], filed_fresh addr P run, .refl _⟩

theorem Bounded.receive {P : ℕ} (hP : 0 < P) {s : Ledger} (h : s.Bounded P) (msg : Msg) :
    s.box.receive ⟨s.received.length, msg⟩ =
      { s.box with recv := s.box.recv.drop (s.box.recv.length + 1 - P) ++ [⟨s.received.length, msg⟩] } := by
  have hPos : 0 < s.box.pendingQueueSize := by rw [h.bound]; exact Int.natCast_pos.mpr hP
  have hNat : s.box.pendingQueueSize.toNat = P := by rw [h.bound, Int.toNat_natCast]
  rw [Mailbox.receive, if_pos hPos, Mailbox.dropOverflow_eq_drop, hNat]

theorem Bounded.next {P : ℕ} (hP : 0 < P) {s : Ledger} (h : s.Bounded P) {op : QueueOp}
    (hRun : op = .moveToRun → s.box.run = []) : (s.next op).Bounded P := by
  obtain ⟨old, hFiled, hSub⟩ := h.filed
  cases op with
  | recv msg =>
    have hLe := h.length_le
    refine ⟨?_, ?_, old ++ s.box.recv.take (s.box.recv.length + 1 - P), ⟨?_, marks_recv s msg hFiled.marks⟩, ?_⟩
    · simp only [Ledger.next, Mailbox.receive_pendingQueueSize, h.bound]
    · simp only [Ledger.next, h.receive hP, List.length_append, List.length_drop, List.length_singleton]
      omega
    · simp only [Ledger.next, h.receive hP]
      rw [List.append_assoc, ← List.append_assoc (List.take ..), List.take_append_drop, ← List.append_assoc,
        ← hFiled.split]
    · simp only [Ledger.next, h.receive hP]
      exact hSub.trans (List.sublist_append_left ..)
  | setRunQueueSize sz => exact ⟨h.bound, h.length_le, old, ⟨hFiled.split, hFiled.marks⟩, hSub⟩
  | moveToRun =>
    have hEmpty := hRun rfl
    rw [hEmpty, List.append_nil] at hSub
    have hMoved : s.received = (old ++ s.box.moveToRun.run) ++ s.box.moveToRun.recv := by
      rw [List.append_assoc, Mailbox.moveToRun_run_recv hEmpty, hFiled.split]
    refine ⟨?_, ?_, old ++ s.box.moveToRun.run, ⟨hMoved, hFiled.marks⟩, hSub.append_right _⟩
    · simp only [Ledger.next, Mailbox.moveToRun_pendingQueueSize, h.bound]
    · refine le_trans ?_ h.length_le
      rw [← Mailbox.moveToRun_run_recv hEmpty, List.length_append]
      exact Nat.le_add_left ..
  | popRun =>
    refine ⟨?_, ?_, old, ⟨?_, hFiled.marks⟩, ?_⟩
    · simpa only [Ledger.next, Mailbox.popRun_eq] using h.bound
    · simpa only [Ledger.next, Mailbox.popRun_eq] using h.length_le
    · simpa only [Ledger.next, Mailbox.popRun_eq] using hFiled.split
    · simp only [Ledger.next]
      rwa [List.append_assoc, Mailbox.popRun_append]

/-- The message has been received and is in `recv` still. -/
def Waiting (s : Ledger) (i : ℕ) : Prop := i ∈ s.box.recv.map Parcel.mark

instance (s : Ledger) (i : ℕ) : Decidable (s.Waiting i) := inferInstanceAs (Decidable (_ ∈ _))

theorem waiting_iff {s : Ledger} {old : List (Parcel ℕ)} (h : s.Filed old) {i : ℕ} :
    s.Waiting i ↔ i < s.received.length ∧ s.received.length ≤ i + s.box.recv.length := by
  have hLength : s.received.length = old.length + s.box.recv.length := by rw [h.split, List.length_append]
  have hMarks : s.box.recv.map Parcel.mark = List.range' old.length s.box.recv.length := by
    have hAll := h.marks
    rw [hLength, h.split, List.map_append, List.range_eq_range', ← List.range'_append_1, Nat.zero_add] at hAll
    exact (List.append_inj' hAll (by rw [List.length_map, List.length_range'])).2
  rw [Waiting, hMarks, List.mem_range'_1]
  omega

def Drops (s : Ledger) (i : ℕ) (op : QueueOp) : Prop :=
  op.isRecv = true ∧ s.Waiting i ∧ ¬ (s.next op).Waiting i

def Moves (s : Ledger) (i : ℕ) (op : QueueOp) : Prop :=
  op = .moveToRun ∧ s.Waiting i ∧ ¬ (s.next op).Waiting i

instance (s : Ledger) (i : ℕ) (op : QueueOp) : Decidable (s.Moves i op) := inferInstanceAs (Decidable (_ ∧ _))

/-- The message is dropped in the course of these operations. -/
def DroppedIn (s : Ledger) (i : ℕ) (ops : List QueueOp) : Prop :=
  ∃ p ∈ batched.steps s ops, p.1.Drops i p.2

/-- As many messages are received before a move takes it. -/
def OvertakenIn (s : Ledger) (i n : ℕ) (ops : List QueueOp) : Prop :=
  ∃ first, first <+: ops ∧ first.countP QueueOp.isRecv = n ∧
    ∀ p ∈ batched.steps s first, ¬ p.1.Moves i p.2

theorem drops_recv_iff {P : ℕ} (hP : 0 < P) {s : Ledger} (h : s.Bounded P) {i : ℕ} (hWaiting : s.Waiting i)
    (msg : Msg) : ¬ (s.next (.recv msg)).Waiting i ↔ s.received.length = i + P := by
  obtain ⟨old, hFiled, -⟩ := h.filed
  have hNext : (s.next (.recv msg)).Bounded P := h.next hP (by rintro ⟨⟩)
  obtain ⟨old', hFiled', -⟩ := hNext.filed
  have hLength : (s.next (.recv msg)).box.recv.length = s.box.recv.length - (s.box.recv.length + 1 - P) + 1 := by
    simp only [Ledger.next, h.receive hP, List.length_append, List.length_drop, List.length_singleton]
  have hCount : (s.next (.recv msg)).received.length = s.received.length + 1 := by
    simp only [Ledger.next, List.length_append, List.length_singleton]
  have hLe := h.length_le
  rw [waiting_iff hFiled] at hWaiting
  rw [waiting_iff hFiled', hLength, hCount]
  omega

theorem waiting_of_next {s : Ledger} {op : QueueOp} {i : ℕ} (hi : i < s.received.length)
    (h : (s.next op).Waiting i) : s.Waiting i := by
  cases op with
  | recv msg =>
    have hBox : ∃ k, (s.box.receive ⟨s.received.length, msg⟩).recv =
        s.box.recv.drop k ++ [⟨s.received.length, msg⟩] := by
      rw [Mailbox.receive]
      split
      · exact ⟨_, by rw [Mailbox.dropOverflow_eq_drop]⟩
      · exact ⟨0, rfl⟩
    obtain ⟨k, hBox⟩ := hBox
    simp only [Waiting, next, hBox, List.map_append, List.map_drop, List.mem_append, List.map_singleton,
      List.mem_singleton] at h
    obtain h | rfl := h
    · exact List.mem_of_mem_drop h
    · exact absurd hi (lt_irrefl _)
  | setRunQueueSize sz => exact h
  | moveToRun =>
    simp only [Waiting, next, Mailbox.moveToRun] at h
    split at h
    · rw [List.map_drop] at h
      exact List.mem_of_mem_drop h
    · cases h
  | popRun => simpa only [Waiting, next, Mailbox.popRun_eq] using h

theorem received_le_next (s : Ledger) (op : QueueOp) : s.received.length ≤ (s.next op).received.length := by
  cases op with
  | recv msg => simp only [next, List.length_append, Nat.le_add_right]
  | setRunQueueSize sz | moveToRun | popRun => exact le_rfl

theorem not_droppedIn {s : Ledger} {i : ℕ} {ops : List QueueOp} (hi : i < s.received.length)
    (hGone : ¬ s.Waiting i) : ¬ s.DroppedIn i ops := by
  induction ops generalizing s with
  | nil => simp [DroppedIn, Transition.System.steps]
  | cons op ops ih =>
    rintro ⟨p, hMem, hDrops⟩
    obtain rfl | hMem := List.mem_cons.mp hMem
    · exact hGone hDrops.2.1
    · exact ih (hi.trans_le (s.received_le_next op)) (fun h => hGone (waiting_of_next hi h)) ⟨p, hMem, hDrops⟩

theorem droppedIn_cons {s : Ledger} {i : ℕ} {op : QueueOp} {ops : List QueueOp} :
    s.DroppedIn i (op :: ops) ↔ s.Drops i op ∨ (s.next op).DroppedIn i ops := by
  simp only [DroppedIn, Transition.System.steps, List.mem_cons, exists_eq_or_imp]
  rfl

theorem overtakenIn_cons {s : Ledger} {i n : ℕ} {op : QueueOp} {ops : List QueueOp} :
    s.OvertakenIn i n (op :: ops) ↔ n = 0 ∨ ¬ s.Moves i op ∧
      ∃ m, m + (if op.isRecv = true then 1 else 0) = n ∧ (s.next op).OvertakenIn i m ops := by
  constructor
  · rintro ⟨first, hPrefix, hCount, hMoves⟩
    cases first with
    | nil => exact .inl hCount.symm
    | cons op' first =>
      obtain ⟨rfl, hTail⟩ := List.cons_prefix_cons.mp hPrefix
      rw [Transition.System.steps, List.forall_mem_cons] at hMoves
      refine .inr ⟨hMoves.1, _, ?_, first, hTail, rfl, hMoves.2⟩
      rw [← hCount, List.countP_cons]
  · rintro (rfl | ⟨hMoves, m, hCount, first, hPrefix, hFirst, hRest⟩)
    · exact ⟨[], List.nil_prefix, rfl, by simp [Transition.System.steps]⟩
    · refine ⟨op :: first, List.cons_prefix_cons.mpr ⟨rfl, hPrefix⟩, ?_, ?_⟩
      · rw [List.countP_cons, hFirst, hCount]
      · rw [Transition.System.steps, List.forall_mem_cons]
        exact ⟨hMoves, hRest⟩

theorem overtakenIn_zero (s : Ledger) (i : ℕ) (ops : List QueueOp) : s.OvertakenIn i 0 ops :=
  ⟨[], List.nil_prefix, rfl, by simp [Transition.System.steps]⟩

theorem waiting_next {s : Ledger} {i : ℕ} {op : QueueOp} (h : s.Waiting i) (hRecv : op.isRecv ≠ true)
    (hMoves : ¬ s.Moves i op) : (s.next op).Waiting i := by
  cases op with
  | recv msg => exact absurd rfl hRecv
  | setRunQueueSize sz => exact h
  | moveToRun => exact by_contra fun hGone => hMoves ⟨rfl, h, hGone⟩
  | popRun => simpa only [Waiting, next, Mailbox.popRun_eq] using h

theorem received_next (s : Ledger) (op : QueueOp) :
    (s.next op).received.length = s.received.length + if op.isRecv = true then 1 else 0 := by
  cases op with
  | recv msg => simp only [next, List.length_append, List.length_singleton, QueueOp.isRecv, if_true]
  | setRunQueueSize sz | moveToRun | popRun => rfl

/-- A message in `recv` is dropped where enough are received before a move takes it. -/
theorem droppedIn_iff {P : ℕ} (hP : 0 < P) {s : Ledger} (h : s.Bounded P) {i : ℕ} (hWaiting : s.Waiting i)
    {ops : List QueueOp} (hRuns : batched.Runs s ops) :
    s.DroppedIn i ops ↔ s.OvertakenIn i (i + P + 1 - s.received.length) ops := by
  induction ops generalizing s with
  | nil =>
    obtain ⟨old, hFiled, -⟩ := h.filed
    have hHere := (waiting_iff hFiled).mp hWaiting
    have hLe := h.length_le
    constructor
    · rintro ⟨p, hMem, -⟩
      cases hMem
    · rintro ⟨first, hPrefix, hCount, -⟩
      rw [List.prefix_nil.mp hPrefix, List.countP_nil] at hCount
      omega
  | cons op ops ih =>
    obtain ⟨old, hFiled, -⟩ := h.filed
    have hHere := (waiting_iff hFiled).mp hWaiting
    have hLe := h.length_le
    rw [Transition.System.runs_cons] at hRuns
    have hNext : (s.next op).Bounded P := h.next hP hRuns.1
    have hCount := s.received_next op
    rw [droppedIn_cons, overtakenIn_cons, or_iff_right (a := _ = 0) (by omega)]
    by_cases hRecv : op.isRecv = true
    · have hMoves : ¬ s.Moves i op := by
        rintro ⟨rfl, -⟩
        cases hRecv
      have hGone : ¬ (s.next op).Waiting i ↔ s.received.length = i + P := by
        cases op with
        | recv msg => exact drops_recv_iff hP h hWaiting msg
        | setRunQueueSize sz | moveToRun | popRun => cases hRecv
      rw [if_pos hRecv] at hCount ⊢
      rw [and_iff_right hMoves]
      by_cases hNow : s.received.length = i + P
      · exact iff_of_true (.inl ⟨hRecv, hWaiting, hGone.mpr hNow⟩) ⟨0, by omega, overtakenIn_zero ..⟩
      · have hDrops : ¬ s.Drops i op := fun hDrops => hNow (hGone.mp hDrops.2.2)
        rw [or_iff_right hDrops, ih hNext (by_contra fun h => hNow (hGone.mp h)) hRuns.2, hCount]
        constructor
        · exact fun hRest => ⟨_, by omega, hRest⟩
        · rintro ⟨m, hm, hRest⟩
          rwa [show i + P + 1 - (s.received.length + 1) = m by omega]
    · have hDrops : ¬ s.Drops i op := fun hDrops => hRecv hDrops.1
      rw [or_iff_right hDrops]
      rw [if_neg hRecv] at hCount ⊢
      by_cases hMoves : s.Moves i op
      · have hi : i < (s.next op).received.length := by omega
        exact iff_of_false (not_droppedIn hi hMoves.2.2) fun hBoth => hBoth.1 hMoves
      · rw [ih hNext (waiting_next hWaiting hRecv hMoves) hRuns.2, hCount, and_iff_right hMoves]
        simp

/-- The message is in `recv` or `run`, or `PopRun` has returned it. -/
def Found (s : Ledger) (p : Parcel ℕ) : Prop := p ∈ s.returned ++ (s.box.run ++ s.box.recv)

instance (s : Ledger) (p : Parcel ℕ) : Decidable (s.Found p) := inferInstanceAs (Decidable (_ ∈ _))

/-- A received message is in `recv` if its number is there, and then nowhere else. -/
theorem Filed.waiting_iff_mem {s : Ledger} {old : List (Parcel ℕ)} (h : s.Filed old) {p : Parcel ℕ}
    (hp : p ∈ s.received) : s.Waiting p.mark ↔ p ∈ s.box.recv := by
  constructor
  · intro hWaiting
    obtain ⟨q, hq, hMark⟩ := List.mem_map.mp hWaiting
    have hReceived : q ∈ s.received := h.split ▸ List.mem_append_right _ hq
    have hNodup : (s.received.map Parcel.mark).Nodup := h.marks ▸ List.nodup_range
    rwa [← List.inj_on_of_nodup_map hNodup hReceived hp hMark]
  · exact List.mem_map_of_mem

/-- Nothing but a drop loses a message. -/
theorem found_next_iff {P : ℕ} (hP : 0 < P) {s : Ledger} (h : s.Bounded P) {op : QueueOp}
    (hRun : op = .moveToRun → s.box.run = []) {p : Parcel ℕ} (hp : p ∈ s.received) :
    (s.next op).Found p ↔ s.Found p ∧ ¬ s.Drops p.mark op := by
  obtain ⟨old, hFiled, hSub⟩ := h.filed
  cases op with
  | recv msg =>
    obtain ⟨old', hFiled', -⟩ := (h.next hP hRun).filed
    have hNext : p ∈ (s.next (.recv msg)).received := List.mem_append_left _ hp
    have hDrops : s.Drops p.mark (.recv msg) ↔ p ∈ s.box.recv ∧ p ∉ (s.next (.recv msg)).box.recv := by
      rw [Drops, hFiled.waiting_iff_mem hp, hFiled'.waiting_iff_mem hNext]
      exact and_iff_right rfl
    have hOnce : p ∈ s.returned ++ s.box.run → p ∉ s.box.recv := fun hOld hRecv =>
      (List.nodup_append.mp hFiled.nodup).2.2 p (hSub.subset hOld) p hRecv rfl
    have hKept : p ∈ (s.next (.recv msg)).box.recv → p ∈ s.box.recv := fun hStays =>
      (hFiled.waiting_iff_mem hp).mp (waiting_of_next (mark_lt_of_mem hFiled hp)
        ((hFiled'.waiting_iff_mem hNext).mpr hStays))
    have hRest : (s.next (.recv msg)).returned ++ (s.next (.recv msg)).box.run = s.returned ++ s.box.run := by
      simp only [next, h.receive hP]
    rw [Found, Found, ← List.append_assoc, ← List.append_assoc, hRest, hDrops, List.mem_append,
      List.mem_append (s := s.returned ++ s.box.run) (t := s.box.recv)]
    constructor
    · rintro (hOld | hStays)
      · exact ⟨.inl hOld, fun hGone => hOnce hOld hGone.1⟩
      · exact ⟨.inr (hKept hStays), fun hGone => hGone.2 hStays⟩
    · rintro ⟨hOld | hRecv, hStays⟩
      · exact .inl hOld
      · exact .inr (by_contra fun hGone => hStays ⟨hRecv, hGone⟩)
  | moveToRun =>
    have hDrops : ¬ s.Drops p.mark .moveToRun := by
      rintro ⟨⟨⟩, -⟩
    have hSame : (s.next .moveToRun).box.run ++ (s.next .moveToRun).box.recv = s.box.run ++ s.box.recv := by
      rw [hRun rfl, List.nil_append]
      exact Mailbox.moveToRun_run_recv (hRun rfl)
    rw [and_iff_left hDrops, Found, hSame]
    rfl
  | popRun =>
    have hDrops : ¬ s.Drops p.mark .popRun := by
      rintro ⟨⟨⟩, -⟩
    have hSame : (s.next .popRun).returned ++ ((s.next .popRun).box.run ++ (s.next .popRun).box.recv) =
        s.returned ++ (s.box.run ++ s.box.recv) := by
      simp only [next]
      rw [List.append_assoc, ← List.append_assoc s.box.popRun.1.toList, Mailbox.popRun_append, Mailbox.popRun_eq]
    rw [and_iff_left hDrops, Found, hSame, Found]
  | setRunQueueSize sz =>
    have hDrops : ¬ s.Drops p.mark (.setRunQueueSize sz) := by
      rintro ⟨⟨⟩, -⟩
    exact (and_iff_left hDrops).symm

theorem found_exec_iff {P : ℕ} (hP : 0 < P) {s : Ledger} (h : s.Bounded P) {p : Parcel ℕ} (hp : p ∈ s.received)
    {ops : List QueueOp} (hRuns : batched.Runs s ops) :
    (batched.exec s ops).Found p ↔ s.Found p ∧ ¬ s.DroppedIn p.mark ops := by
  induction ops generalizing s with
  | nil => simp [DroppedIn, Transition.System.steps]
  | cons op ops ih =>
    rw [Transition.System.runs_cons] at hRuns
    have hReceived : p ∈ (s.next op).received := by
      cases op with
      | recv msg => exact List.mem_append_left _ hp
      | setRunQueueSize sz | moveToRun | popRun => exact hp
    have hTail := ih (h.next hP hRuns.1) hReceived hRuns.2
    rw [Transition.System.exec_cons]
    refine hTail.trans ?_
    rw [found_next_iff hP h hRuns.1 hp, droppedIn_cons, not_or, and_assoc]

/-- What a receipt leaves in `recv`, and what has been moved to `run` so far. -/
structure Spared (P : ℕ) (s : Ledger) : Prop where
  length_le : ∀ msg, (s.next (.recv msg)).box.recv.length ≤ P
  kept : ∀ msg, (s.next (.recv msg)).box.recv.getLast? = some ⟨s.received.length, msg⟩
  moved : (s.returned ++ s.box.run).Sublist s.received

theorem Bounded.spared {P : ℕ} (hP : 0 < P) {s : Ledger} (h : s.Bounded P) : s.Spared P where
  length_le msg := (h.next hP (by rintro ⟨⟩) : (s.next (.recv msg)).Bounded P).length_le
  kept msg := by
    simp only [Ledger.next, h.receive hP]
    exact List.getLast?_concat
  moved := by
    obtain ⟨old, hFiled, hSub⟩ := h.filed
    rw [hFiled.split]
    exact hSub.trans (List.sublist_append_left ..)

theorem bounded_visited (addr : String) {P : ℕ} (hP : 0 < P) (run : ℤ) {ops : List QueueOp}
    (hRuns : batched.Runs (fresh addr P run) ops) : ∀ s ∈ batched.visited (fresh addr P run) ops, s.Bounded P :=
  have hStep : ∀ (s : Ledger) (op : QueueOp), s.Bounded P → batched.enabled s op → True →
      (batched.next s op).Bounded P := fun _ _ h hEnabled _ => h.next hP hEnabled
  batched.inv_visited hStep (bounded_fresh addr P run) hRuns fun _ _ => trivial

/-- `recv` stays within its bound, the last message is kept, a message is dropped just where `P` more are
received before it is moved, the moves keep the order, and what is not dropped stays in `recv` until a move puts
it into `run`, from where `PopRun` returns it. -/
theorem bounded_mailbox (addr : String) {P : ℕ} (hP : 0 < P) (run : ℤ) {ops : List QueueOp}
    (hRuns : batched.Runs (fresh addr P run) ops) :
    (∀ s ∈ batched.visited (fresh addr P run) ops, s.Spared P) ∧
      ∀ before msg after, ops = before ++ .recv msg :: after →
        let s := batched.exec (fresh addr P run) before
        ((s.next (.recv msg)).DroppedIn s.received.length after ↔
          (s.next (.recv msg)).OvertakenIn s.received.length P after) ∧
        ((batched.exec (fresh addr P run) ops).Found ⟨s.received.length, msg⟩ ↔
          ¬ (s.next (.recv msg)).DroppedIn s.received.length after) := by
  have hBounded := bounded_visited addr hP run hRuns
  refine ⟨fun s hs => (hBounded s hs).spared hP, ?_⟩
  rintro before msg after rfl s
  rw [Transition.System.runs_append, Transition.System.runs_cons] at hRuns
  have hHere : s.Bounded P := bounded_visited addr hP run hRuns.1 s (batched.mem_visited_of_exec _ _)
  have hNext : (s.next (.recv msg)).Bounded P := hHere.next hP (by rintro ⟨⟩)
  have hMem : (⟨s.received.length, msg⟩ : Parcel ℕ) ∈ (s.next (.recv msg)).box.recv :=
    List.mem_of_getLast? ((hHere.spared hP).kept msg)
  have hLast : (s.next (.recv msg)).Waiting s.received.length := List.mem_map_of_mem hMem
  have hReceived : (⟨s.received.length, msg⟩ : Parcel ℕ) ∈ (s.next (.recv msg)).received :=
    List.mem_append_right _ List.mem_cons_self
  constructor
  · rw [droppedIn_iff hP hNext hLast hRuns.2.2, received_next,
      if_pos (show (QueueOp.recv msg).isRecv = true from rfl),
      show s.received.length + P + 1 - (s.received.length + 1) = P by omega]
  · have hFound : (s.next (.recv msg)).Found ⟨s.received.length, msg⟩ :=
      List.mem_append_right _ (List.mem_append_right _ hMem)
    have hEnd := found_exec_iff hP hNext hReceived hRuns.2.2
    rw [Transition.System.exec_append, Transition.System.exec_cons]
    exact hEnd.trans (and_iff_right hFound)

/-- Room for two messages and batches of one: the first message is moved, and the second is dropped. -/
def partialRun : List QueueOp := [.recv {}, .recv {}, .moveToRun, .recv {}, .recv {}]

theorem bounded_mailbox_two :
    ((batched.exec (fresh "actor.a.1" (2 : ℕ) 1) partialRun).Found ⟨0, {}⟩ ∧
      (batched.exec (fresh "actor.a.1" (2 : ℕ) 1) [.recv {}, .recv {}]).DroppedIn 1 [.moveToRun, .recv {}, .recv {}]) ∧
      ¬ (batched.exec (fresh "actor.a.1" (2 : ℕ) 1) partialRun).Found ⟨1, {}⟩ := by
  have hRuns : batched.Runs (fresh "actor.a.1" (2 : ℕ) 1) partialRun := by
    simp only [partialRun, Transition.System.runs_cons]
    exact ⟨by rintro ⟨⟩, by rintro ⟨⟩, fun _ => rfl, by rintro ⟨⟩, by rintro ⟨⟩, by rintro _ ⟨⟩⟩
  have hBoth := bounded_mailbox "actor.a.1" Nat.two_pos 1 hRuns
  obtain ⟨hDropped, hFound⟩ := hBoth.2 [.recv {}] {} [.moveToRun, .recv {}, .recv {}] rfl
  have hSecond := hDropped.mpr ⟨[.moveToRun, .recv {}, .recv {}], List.prefix_rfl, rfl, by decide⟩
  exact ⟨⟨by decide, hSecond⟩, fun hStays => hFound.mp hStays hSecond⟩

end Ledger
end Myframe
