import Mathlib.Data.List.Flatten
import Mathlib.Data.List.Induction

/-! # A plain queue of delayed entries

The specification of a timer service: every entry carries the tick at which it is due, a tick hands
over what is due in the order in which it was pushed. Delays are positive.
-/
namespace DelayQueue
set_option autoImplicit false

universe u

inductive Op (α : Type u) where
  | push (delay : ℕ) (a : α)
  | tick

structure Queue (α : Type u) where
  now : ℕ := 0
  pending : List (ℕ × α) := []
  fired : List α := []

variable {α : Type u}

def Queue.apply (q : Queue α) : Op α → Queue α
  | .push delay a => { q with pending := q.pending ++ [(q.now + delay, a)] }
  | .tick =>
    { now := q.now + 1
      pending := q.pending.filter (fun x => x.1 ≠ q.now + 1)
      fired := q.fired ++ (q.pending.filter (fun x => x.1 = q.now + 1)).map Prod.snd }

def run (ops : List (Op α)) : Queue α := ops.foldl Queue.apply {}

def ticks : List (Op α) → ℕ
  | [] => 0
  | .push _ _ :: ops => ticks ops
  | .tick :: ops => ticks ops + 1

/-- The pushed entries in their order, each with the number of the tick at which it is due; `k`
ticks have gone by. -/
def calls : ℕ → List (Op α) → List (ℕ × α)
  | _, [] => []
  | k, .push delay a :: ops => (k + delay, a) :: calls k ops
  | k, .tick :: ops => calls (k + 1) ops

/-- What the queue hands over in `n` ticks: at each tick the calls due at it, oldest first. -/
def schedule (n : ℕ) (cs : List (ℕ × α)) : List α :=
  (List.range n).flatMap fun k => (cs.filter (fun x => x.1 = k + 1)).map Prod.snd

theorem run_append (ops : List (Op α)) (op : Op α) : run (ops ++ [op]) = (run ops).apply op := by
  simp [run]

theorem ticks_append (ops : List (Op α)) (op : Op α) :
    ticks (ops ++ [op]) = ticks ops + ticks [op] := by
  induction ops with
  | nil => simp [ticks]
  | cons head ops ih =>
    cases head <;> simp only [List.cons_append, ticks, ih]
    omega

theorem calls_append (k : ℕ) (ops : List (Op α)) (op : Op α) :
    calls k (ops ++ [op]) = calls k ops ++ calls (k + ticks ops) [op] := by
  induction ops generalizing k with
  | nil => simp [ticks, calls]
  | cons head ops ih =>
    cases head with
    | push delay a => simp only [List.cons_append, calls, ticks, ih]
    | tick =>
      have hTicks : k + 1 + ticks ops = k + (ticks ops + 1) := by omega
      simp only [List.cons_append, calls, ticks, ih, hTicks]

theorem schedule_succ (n : ℕ) (cs : List (ℕ × α)) :
    schedule (n + 1) cs = schedule n cs ++ (cs.filter (fun x => x.1 = n + 1)).map Prod.snd := by
  simp [schedule, List.range_succ]

theorem schedule_append_later {n : ℕ} {cs : List (ℕ × α)} {due : ℕ} {a : α} (h : n < due) :
    schedule n (cs ++ [(due, a)]) = schedule n cs := by
  have hSame : ∀ k ∈ List.range n, ((cs ++ [(due, a)]).filter (fun x => x.1 = k + 1)).map Prod.snd =
      (cs.filter (fun x => x.1 = k + 1)).map Prod.snd := by
    intro k hk
    have hlt : k < n := List.mem_range.mp hk
    have hne : ¬due = k + 1 := by omega
    simp [List.filter_append, hne]
  simp only [schedule, List.flatMap_def, List.map_congr_left hSame]

def Op.Positive : Op α → Prop
  | .push delay _ => 0 < delay
  | .tick => True

/-- The queue's state in closed form, whatever was pushed and whenever it ticked. -/
theorem run_eq (ops : List (Op α)) (h : ∀ op ∈ ops, op.Positive) :
    (run ops).now = ticks ops ∧
      (run ops).pending = (calls 0 ops).filter (fun x => ticks ops < x.1) ∧
      (run ops).fired = schedule (ticks ops) (calls 0 ops) := by
  induction ops using List.reverseRecOn with
  | nil => exact ⟨rfl, rfl, rfl⟩
  | append_singleton ops op ih =>
    obtain ⟨hNow, hPending, hFired⟩ := ih (fun op hop => h op (List.mem_append_left _ hop))
    have hOp := h op (by simp)
    rw [run_append, ticks_append, calls_append]
    cases op with
    | push delay a =>
      have hlt : ticks ops < ticks ops + delay := Nat.lt_add_of_pos_right hOp
      have hTicks : ticks ops + ticks [Op.push delay a] = ticks ops := rfl
      rw [hTicks, Nat.zero_add]
      refine ⟨hNow, ?_, ?_⟩
      · simp [Queue.apply, calls, hNow, hPending, List.filter_append, hlt]
      · simp [Queue.apply, calls, hFired, schedule_append_later hlt]
    | tick =>
      have hTicks : ticks ops + ticks [(Op.tick : Op α)] = ticks ops + 1 := rfl
      have hCalls : calls (0 + ticks ops) [(Op.tick : Op α)] = [] := rfl
      rw [hTicks, hCalls, List.append_nil]
      refine ⟨by simp [Queue.apply, hNow], ?_, ?_⟩
      · simp only [Queue.apply, hNow, hPending, List.filter_filter]
        apply List.filter_congr
        intro x _
        rw [← Bool.decide_and, decide_eq_decide]
        omega
      · simp only [Queue.apply, hNow, hPending, hFired, List.filter_filter, schedule_succ]
        congr 2
        apply List.filter_congr
        intro x _
        rw [← Bool.decide_and, decide_eq_decide]
        omega

end DelayQueue
