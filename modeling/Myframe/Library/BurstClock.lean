import Mathlib.Data.List.Count
import Myframe.Library.Transition

/-! # A counter that follows a clock in bursts

The follower reads the clock now and then and makes up for what has gone by since its last reading,
one tick at a time. It counts modulo `period`, so that it never makes up for whole periods. What is
asked here is at which reading the `m`-th tick from now is made.
-/
namespace BurstClock
set_option autoImplicit false

structure State where
  clock : ℕ
  reading : ℕ
  left : ℕ
  deriving DecidableEq, Repr

inductive Label where
  | advance (k : ℕ)
  | read
  | tick
  deriving DecidableEq, Repr

namespace State

variable (period : ℕ)

def advance (s : State) (k : ℕ) : State := { s with clock := s.clock + k }

def read (s : State) : State :=
  { s with reading := s.clock, left := (s.clock - s.reading) % period }

def tick (s : State) : State := { s with left := s.left - 1 }

def next (s : State) : Label → State
  | .advance k => s.advance k
  | .read => s.read period
  | .tick => s.tick

def enabled (s : State) : Label → Prop
  | .advance _ => True
  | .read => s.left = 0
  | .tick => 0 < s.left

/-- The earliest reading at which the `m`-th tick from now can be made. -/
def earliest (s : State) (m : ℕ) : ℕ :=
  if m ≤ s.left then s.reading
  else max s.clock (s.reading + period * ((s.clock - s.reading) / period) + (m - s.left))

end State

def system (period : ℕ) : Transition.System State Label where
  enabled s l := s.enabled l
  next s l := s.next period l

namespace State

variable {period : ℕ} {s : State} {m : ℕ}

theorem earliest_of_le (h : m ≤ s.left) : s.earliest period m = s.reading := if_pos h

theorem earliest_of_lt (h : s.left < m) : s.earliest period m =
    max s.clock (s.reading + period * ((s.clock - s.reading) / period) + (m - s.left)) :=
  if_neg (Nat.not_le_of_lt h)

theorem clock_le_earliest (h : s.left < m) : s.clock ≤ s.earliest period m := by
  rw [earliest_of_lt h]
  exact Nat.le_max_left ..

theorem earliest_tick (h : 0 < s.left) : s.tick.earliest period m = s.earliest period (m + 1) := by
  rw [earliest, earliest, tick]
  have hIff : m ≤ s.left - 1 ↔ m + 1 ≤ s.left := by omega
  have hSub : m - (s.left - 1) = m + 1 - s.left := by omega
  simp only [hIff, hSub]

/-- A reading settles when a tick is made, and settles it as early as it could have been. -/
theorem earliest_read (hOrder : s.reading ≤ s.clock) (hLeft : s.left = 0) (hm : 0 < m) :
    (s.read period).earliest period m = s.earliest period m := by
  have hSplit := Nat.div_add_mod (s.clock - s.reading) period
  have hZero : (s.clock - s.clock) / period = 0 := by rw [Nat.sub_self, Nat.zero_div]
  have hLt : s.left < m := hLeft ▸ hm
  rw [earliest_of_lt hLt, hLeft, Nat.sub_zero, earliest, read]
  simp only [hZero, Nat.mul_zero]
  generalize period * ((s.clock - s.reading) / period) = whole at hSplit ⊢
  generalize (s.clock - s.reading) % period = rest at hSplit ⊢
  split <;> omega

theorem earliest_advance (k : ℕ) : s.earliest period m ≤ (s.advance k).earliest period m := by
  obtain hLe | hLt := Nat.lt_or_ge s.left m |>.symm
  · rw [earliest_of_le hLe, earliest_of_le (show m ≤ (s.advance k).left from hLe)]
    exact Nat.le_refl _
  · rw [earliest_of_lt hLt, earliest_of_lt (show (s.advance k).left < m from hLt)]
    simp only [advance]
    have hDiv : (s.clock - s.reading) / period ≤ (s.clock + k - s.reading) / period :=
      Nat.div_le_div_right (by omega)
    have hMul := Nat.mul_le_mul_left period hDiv
    omega

/-- Nothing is lost by waiting for the earliest reading. -/
theorem earliest_wait (hOrder : s.reading ≤ s.clock) (hLeft : s.left = 0) (hm : 0 < m) (hPeriod : m < period) :
    let t := s.advance (s.earliest period m - s.clock)
    t.clock = s.earliest period m ∧ t.earliest period m = s.earliest period m ∧
      m ≤ (t.clock - t.reading) % period := by
  intro t
  have hLt : s.left < m := hLeft ▸ hm
  have hClock : t.clock = s.earliest period m := by
    have hLe : s.clock ≤ s.earliest period m := clock_le_earliest hLt
    simp only [t, advance]
    omega
  have hSplit := Nat.div_add_mod (s.clock - s.reading) period
  have hRest := Nat.mod_lt (s.clock - s.reading) (Nat.zero_lt_of_lt hPeriod)
  have hValue := @earliest_of_lt period s m hLt
  rw [hLeft, Nat.sub_zero] at hValue
  -- either the clock is far enough already, or the tick falls into the period begun
  have hGone : t.clock - t.reading = period * ((s.clock - s.reading) / period) +
      max ((s.clock - s.reading) % period) m := by
    rw [hClock, hValue]
    simp only [t, advance]
    omega
  have hMax : max ((s.clock - s.reading) % period) m < period := by omega
  have hMod : (t.clock - t.reading) % period = max ((s.clock - s.reading) % period) m := by
    rw [hGone, Nat.mul_add_mod, Nat.mod_eq_of_lt hMax]
  have hDiv : (t.clock - t.reading) / period = (s.clock - s.reading) / period := by
    rw [hGone, Nat.mul_add_div (Nat.zero_lt_of_lt hPeriod), Nat.div_eq_of_lt hMax, Nat.add_zero]
  refine ⟨hClock, ?_, hMod ▸ Nat.le_max_right ..⟩
  rw [earliest_of_lt (show t.left < m from hLt), hDiv, hClock, hValue]
  simp only [t, advance, hLeft]
  omega

theorem exists_ready (hOrder : s.reading ≤ s.clock) (hm : 0 < m) (hPeriod : m < period) :
    ∃ ls, (system period).Runs s ls ∧ ls.count .tick = 0 ∧
      let t := (system period).exec s ls
      0 < t.left ∧ t.reading ≤ t.clock ∧ t.earliest period m = s.earliest period m := by
  obtain hLeft | hLeft := Nat.eq_zero_or_pos s.left
  · obtain ⟨hClock, hSame, hTicks⟩ := earliest_wait hOrder hLeft hm hPeriod
    have hOrder' : (s.advance (s.earliest period m - s.clock)).reading ≤
        (s.advance (s.earliest period m - s.clock)).clock := Nat.le_add_right_of_le hOrder
    refine ⟨[.advance (s.earliest period m - s.clock), .read], ?_, rfl, ?_, ?_, ?_⟩
    · exact (system period).runs_cons.mpr ⟨trivial, (system period).runs_singleton.mpr hLeft⟩
    · exact Nat.lt_of_lt_of_le hm hTicks
    · exact Nat.le_refl _
    · exact (earliest_read hOrder' hLeft hm).trans hSame
  · exact ⟨[], nofun, rfl, hLeft, hOrder, rfl⟩

/-- The earliest reading is one at which the tick can indeed be made. -/
theorem exists_run (k : ℕ) (hOrder : s.reading ≤ s.clock) (hPeriod : k + 1 < period) :
    ∃ ls, (system period).Runs s ls ∧ ls.count .tick = k ∧
      0 < ((system period).exec s ls).left ∧
      ((system period).exec s ls).reading = s.earliest period (k + 1) := by
  induction k generalizing s with
  | zero =>
    obtain ⟨ls, hRuns, hCount, hLeft, -, hSame⟩ := exists_ready hOrder Nat.one_pos hPeriod
    exact ⟨ls, hRuns, hCount, hLeft, by rw [← hSame, earliest_of_le hLeft]⟩
  | succ k ih =>
    obtain ⟨ls, hRuns, hCount, hLeft, hOrder', hSame⟩ := exists_ready hOrder k.succ.succ_pos hPeriod
    obtain ⟨ms, hRuns', hCount', hLeft', hReading⟩ :=
      ih (s := ((system period).exec s ls).tick) hOrder' (by omega)
    refine ⟨ls ++ .tick :: ms, ?_, ?_, ?_, ?_⟩
    · exact (system period).runs_append.mpr ⟨hRuns, (system period).runs_cons.mpr ⟨hLeft, hRuns'⟩⟩
    · rw [List.count_append, hCount, List.count_cons_self, hCount', Nat.zero_add]
    · rw [Transition.System.exec_append]
      exact hLeft'
    · rw [Transition.System.exec_append, ← hSame, ← earliest_tick hLeft]
      exact hReading

end State
end BurstClock
