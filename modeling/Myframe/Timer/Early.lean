import Myframe.Timer.WorkerTimer

/-! # Timers that fire early

A node expires so many ticks after the manager's time, not after the clock. A worker that was held up
makes the ticks it owes in one go, and what was added meanwhile expires in the middle of them.
-/
namespace Myframe
set_option autoImplicit false
namespace WorkerTimer

/-- The ticks that a new node has to wait for take long enough. If they are all among those that the
loop has still to make, they count for its reading. If not, there is another reading to come: either
the clock is far enough by now, or what the manager's time lacks, less whole turns of its 32 bits,
is no more than one tick. -/
def AllowsFor (s : WorkerTimer) (c : TimeoutCall) : Prop :=
  if c.time.toNat ≤ s.pc.left then c.readAt + c.time.toNat ≤ s.curPoint + 1
  else c.readAt + c.time.toNat ≤ s.clock + 1 ∨
    c.readAt + s.pc.left ≤ s.curPoint + 2 ^ 32 * ((s.clock - s.curPoint) / 2 ^ 32) + 1

instance (s : WorkerTimer) (c : TimeoutCall) : Decidable (s.AllowsFor c) :=
  inferInstanceAs (Decidable (if c.time.toNat ≤ s.pc.left then c.readAt + c.time.toNat ≤ s.curPoint + 1
    else c.readAt + c.time.toNat ≤ s.clock + 1 ∨
      c.readAt + s.pc.left ≤ s.curPoint + 2 ^ 32 * ((s.clock - s.curPoint) / 2 ^ 32) + 1))

def OnTime (s : WorkerTimer) (l : Label) : Prop := ∀ c ∈ s.made l, s.AllowsFor c

instance (s : WorkerTimer) (l : Label) : Decidable (s.OnTime l) :=
  inferInstanceAs (Decidable (∀ c ∈ s.made l, s.AllowsFor c))

/-- The same by the reading at which the last of these ticks can be made. -/
theorem allowsFor_iff (s : WorkerTimer) (c : TimeoutCall) :
    s.AllowsFor c ↔ c.readAt + c.time.toNat ≤ s.burst.earliest (2 ^ 32) c.time.toNat + 1 := by
  rw [AllowsFor]
  split
  · next hLe => rw [BurstClock.State.earliest_of_le hLe, burst]
  · next hNot =>
    have hLt : s.burst.left < c.time.toNat := Nat.lt_of_not_le hNot
    rw [BurstClock.State.earliest_of_lt hLt]
    simp only [burst] at hLt ⊢
    omega

theorem inTime_iff {c : TimeoutCall} (hPos : 0 < c.time) (cp : ℕ) :
    c.InTime cp ↔ c.readAt + c.time.toNat ≤ cp + 1 := by
  rw [TimeoutCall.InTime]
  omega

theorem earliest_next {s : WorkerTimer} (h : s.Sound) {l : Label} (hEnabled : s.enabled l)
    (hTick : l ≠ .tick) {m : ℕ} (hm : 0 < m) :
    s.burst.earliest (2 ^ 32) m ≤ (s.next l).burst.earliest (2 ^ 32) m := by
  cases l with
  | advance k => exact BurstClock.State.earliest_advance k
  | timeout readAt actorName timerName time => exact Nat.le_refl _
  | updatetime =>
    have hIdle : s.burst.left = 0 := by rw [burst, show s.pc = .idle from hEnabled]; rfl
    rw [next, burst_updatetime h.order, BurstClock.State.earliest_read h.order hIdle hm]
  | tick => exact absurd rfl hTick
  | send =>
    have hSame : (s.next .send).burst = s.burst := by
      rw [next, burst, burst, show s.pc = .update 0 from hEnabled]
      rfl
    rw [hSame]

/-- The pending calls that `P` picks out cannot fire too early any more. -/
structure Tracks (P : TimeoutCall → Prop) (s : WorkerTimer) : Prop where
  sound : s.Sound
  late : ∀ c ∈ s.pending, P c → 0 < c.time ∧
    c.readAt + c.time.toNat ≤ s.burst.earliest (2 ^ 32) (s.remaining c) + 1

theorem Tracks.next {P : TimeoutCall → Prop} {s : WorkerTimer} (h : s.Tracks P) {l : Label}
    (hEnabled : s.enabled l) (hOnTime : ∀ c ∈ s.made l, P c → s.AllowsFor c) : (s.next l).Tracks P := by
  refine ⟨h.sound.next hEnabled, fun c hc hP => ?_⟩
  obtain rfl | hTick := eq_or_ne l .tick
  · obtain ⟨hOld, hNotDue⟩ := h.sound.mem_tick.mp hc
    obtain ⟨hPos, hLate⟩ := h.late c hOld hP
    have hRemaining := (h.sound.remaining_pos hOld).1
    have hSame : s.remaining c - 1 + 1 = s.remaining c := by omega
    refine ⟨hPos, ?_⟩
    rwa [WorkerTimer.next, h.sound.burst_tick, h.sound.remaining_tick hOld,
      BurstClock.State.earliest_tick (show 0 < s.burst.left from hEnabled), hSame]
  · obtain ⟨hPending, hTime⟩ := s.next_of_ne_tick hTick
    have hRemaining : (s.next l).remaining c = s.remaining c := by rw [remaining, remaining, hTime]
    rw [hPending] at hc
    rw [hRemaining]
    obtain hOld | hNew := List.mem_append.mp hc
    · obtain ⟨hPos, hLate⟩ := h.late c hOld hP
      have hLe := earliest_next h.sound hEnabled hTick (h.sound.remaining_pos hOld).1
      exact ⟨hPos, by omega⟩
    · obtain ⟨hPos, hWait, -⟩ := remaining_of_made hEnabled hNew
      have hAllows := (s.allowsFor_iff c).mp (hOnTime c hNew hP)
      have hLe := earliest_next h.sound hEnabled hTick (by omega : 0 < c.time.toNat)
      rw [hWait]
      exact ⟨hPos, by omega⟩

theorem Tracks.inTime {P : TimeoutCall → Prop} {s : WorkerTimer} (h : s.Tracks P) {l : Label}
    (hEnabled : s.enabled l) {c : TimeoutCall} (hc : c ∈ s.fires l) (hP : P c) : c.InTime s.curPoint := by
  cases l with
  | tick =>
    obtain ⟨hPending, hDue⟩ := h.sound.mem_fires.mp hc
    obtain ⟨hPos, hLate⟩ := h.late c hPending hP
    rw [hDue, BurstClock.State.earliest_of_le (show 1 ≤ s.burst.left from hEnabled)] at hLate
    exact (inTime_iff hPos s.curPoint).mpr hLate
  | advance k | timeout readAt actorName timerName time | updatetime | send => cases hc

theorem waits_of_ne_tick {s : WorkerTimer} (h : s.Sound) {l : Label} (hEnabled : s.enabled l)
    (hTick : l ≠ .tick) {c : TimeoutCall} (hc : c ∈ s.pending) :
    (s.next l).Sound ∧ c ∈ (s.next l).pending ∧ (s.next l).remaining c = s.remaining c := by
  obtain ⟨hPending, hTime⟩ := s.next_of_ne_tick hTick
  refine ⟨h.next hEnabled, ?_, ?_⟩
  · rw [hPending]
    exact List.mem_append_left _ hc
  · rw [remaining, remaining, hTime]

/-- What the worker and the clock can do they can do here, and meanwhile a pending call waits for its
tick. -/
theorem exists_step {s : WorkerTimer} (h : s.Sound) {c : TimeoutCall} (hc : c ∈ s.pending)
    {l : BurstClock.Label} (hEnabled : s.burst.enabled l) (hFew : [l].count .tick < s.remaining c) :
    ∃ ms, system.Runs s ms ∧ (system.exec s ms).Sound ∧ c ∈ (system.exec s ms).pending ∧
      (system.exec s ms).burst = s.burst.next (2 ^ 32) l ∧
      (system.exec s ms).remaining c + [l].count .tick = s.remaining c := by
  cases l with
  | advance k =>
    obtain ⟨hSound, hIn, hWaits⟩ := waits_of_ne_tick h (l := .advance k) trivial nofun hc
    exact ⟨[.advance k], system.runs_singleton.mpr trivial, hSound, hIn, rfl, hWaits⟩
  | read =>
    cases hPc : s.pc with
    | idle =>
      obtain ⟨hSound, hIn, hWaits⟩ := waits_of_ne_tick h (l := .updatetime) hPc nofun hc
      exact ⟨[.updatetime], system.runs_singleton.mpr hPc, hSound, hIn, burst_updatetime h.order, hWaits⟩
    | update left =>
      -- the worker ends the call it is in before it begins the next one
      have hDone : s.pc = .update 0 := by
        have hLeft : s.pc.left = 0 := hEnabled
        rw [hPc] at hLeft ⊢
        exact congrArg TimerPc.update hLeft
      obtain ⟨hSound, hIn, hWaits⟩ := waits_of_ne_tick h (l := .send) hDone nofun hc
      obtain ⟨hSound', hIn', hWaits'⟩ := waits_of_ne_tick hSound (l := .updatetime) rfl nofun hIn
      refine ⟨[.send, .updatetime], ?_, hSound', hIn', ?_, hWaits'.trans hWaits⟩
      · exact system.runs_cons.mpr ⟨hDone, system.runs_singleton.mpr rfl⟩
      · have hSame : (s.next .send).burst = s.burst := by
          rw [next, burst, burst, hDone]
          rfl
        exact (burst_updatetime hSound.order).trans (by rw [hSame]; rfl)
  | tick =>
    have hFew : 1 < s.remaining c := hFew
    have hWaits := h.remaining_tick hc
    refine ⟨[.tick], system.runs_singleton.mpr hEnabled, h.next (l := .tick) hEnabled,
      h.mem_tick.mpr ⟨hc, Nat.ne_of_gt hFew⟩, h.burst_tick, ?_⟩
    change s.tick.remaining c + 1 = s.remaining c
    omega

theorem exists_run {s : WorkerTimer} (h : s.Sound) {c : TimeoutCall} (hc : c ∈ s.pending)
    {ls : List BurstClock.Label} (hRuns : (BurstClock.system (2 ^ 32)).Runs s.burst ls)
    (hFew : ls.count .tick < s.remaining c) :
    ∃ ms, system.Runs s ms ∧ (system.exec s ms).Sound ∧ c ∈ (system.exec s ms).pending ∧
      (system.exec s ms).burst = (BurstClock.system (2 ^ 32)).exec s.burst ls ∧
      (system.exec s ms).remaining c + ls.count .tick = s.remaining c := by
  induction ls generalizing s with
  | nil => exact ⟨[], nofun, h, hc, rfl, rfl⟩
  | cons l ls ih =>
    have hCount : (l :: ls).count .tick = [l].count .tick + ls.count .tick := by
      rw [← List.count_append, List.singleton_append]
    obtain ⟨hEnabled, hRest⟩ := (BurstClock.system (2 ^ 32)).runs_cons.mp hRuns
    obtain ⟨ms, hRun, hSound, hIn, hBurst, hWaits⟩ := exists_step h hc hEnabled (by omega)
    obtain ⟨ns, hRun', hSound', hIn', hBurst', hWaits'⟩ :=
      ih hSound hIn (by rw [hBurst]; exact hRest) (by omega)
    refine ⟨ms ++ ns, system.runs_append.mpr ⟨hRun, hRun'⟩, ?_⟩
    rw [Transition.System.exec_append, Transition.System.exec_cons]
    refine ⟨hSound', hIn', ?_, by omega⟩
    rw [hBurst', hBurst]
    rfl

/-- A new node that has to wait too little can be taken out too early. -/
theorem exists_early {s : WorkerTimer} (h : s.Sound) {l : Label} (hEnabled : s.enabled l)
    {c : TimeoutCall} (hc : c ∈ s.made l) (hNot : ¬ s.AllowsFor c) :
    ∃ ms, system.Runs (s.next l) ms ∧
      ∃ q ∈ system.steps (s.next l) ms, c ∈ q.1.fires q.2 ∧ ¬ c.InTime q.1.curPoint := by
  obtain ⟨hPos, hWait, -⟩ := remaining_of_made hEnabled hc
  have hTick : l ≠ .tick := by
    rintro rfl
    cases hc
  obtain ⟨hPending, hTime⟩ := s.next_of_ne_tick hTick
  have hIn : c ∈ (s.next l).pending := hPending ▸ List.mem_append_right _ hc
  have hRemaining : (s.next l).remaining c = c.time.toNat := by rw [remaining, hTime, ← hWait, remaining]
  have hSound : (s.next l).Sound := h.next hEnabled
  have hBurst : (s.next l).burst = s.burst := by
    cases l with
    | timeout readAt actorName timerName time => rfl
    | advance k | updatetime | tick | send => cases hc
  obtain ⟨k, hk⟩ : ∃ k, c.time.toNat = k + 1 := Nat.exists_eq_add_one.mpr (by omega)
  have hPeriod : k + 1 < 2 ^ 32 := by
    have hLt := (hSound.remaining_pos hIn).2
    omega
  obtain ⟨ls, hRuns, hCount, hLeft, hReading⟩ :=
    BurstClock.State.exists_run (s := (s.next l).burst) k hSound.order hPeriod
  obtain ⟨ms, hRun, hSound', hIn', hBurst', hWaits⟩ := exists_run hSound hIn hRuns (by omega)
  rw [← hBurst'] at hLeft hReading
  have hDue : c ∈ (system.exec (s.next l) ms).fires .tick := hSound'.mem_fires.mpr ⟨hIn', by omega⟩
  have hLast : system.Runs (system.exec (s.next l) ms) [.tick] := system.runs_singleton.mpr hLeft
  refine ⟨ms ++ [.tick], system.runs_append.mpr ⟨hRun, hLast⟩, (system.exec (s.next l) ms, .tick), ?_, hDue, ?_⟩
  · rw [Transition.System.steps_append]
    exact List.mem_append_right _ List.mem_cons_self
  · have hReading : (system.exec (s.next l) ms).curPoint = s.burst.earliest (2 ^ 32) c.time.toNat := by
      rw [hk, ← hBurst]
      exact hReading
    rw [inTime_iff hPos, hReading, ← s.allowsFor_iff c]
    exact hNot

theorem calls_next {s : WorkerTimer} (h : s.Sound) (l : Label) : s.calls ≤ (s.next l).calls := by
  cases l with
  | advance k | send => exact Nat.le_refl _
  | timeout readAt actorName timerName time => exact Nat.le_succ _
  | updatetime =>
    rw [next, updatetime]
    split
    · exact Nat.le_refl _
    · split <;> exact Nat.le_refl _
  | tick =>
    obtain ⟨_, hStep, -⟩ := h.tick
    rw [next, hStep]

/-- A call made on time, followed on its own through whatever comes after it. -/
theorem inTime_of_allowsFor {s : WorkerTimer} (h : s.Sound) {l : Label} (hEnabled : s.enabled l)
    {c : TimeoutCall} (hc : c ∈ s.made l) (hAllows : s.AllowsFor c) {ms : List Label}
    (hRuns : system.Runs (s.next l) ms) :
    ∀ q ∈ system.steps (s.next l) ms, c ∈ q.1.fires q.2 → c.InTime q.1.curPoint := by
  have hId : c.id = s.calls := (remaining_of_made hEnabled hc).2.2
  have hStep : ∀ (t : WorkerTimer) (l : Label), t.Tracks (· = c) ∧ c.id < t.calls → t.enabled l → True →
      (t.next l).Tracks (· = c) ∧ c.id < (t.next l).calls := by
    rintro t l ⟨ht, hLt⟩ hl -
    refine ⟨ht.next hl ?_, Nat.lt_of_lt_of_le hLt (calls_next ht.sound l)⟩
    rintro d hd rfl
    exact absurd (remaining_of_made hl hd).2.2 (Nat.ne_of_lt hLt)
  have hBefore : s.Tracks (· = c) := by
    refine ⟨h, ?_⟩
    rintro d hd rfl
    exact absurd hId (Nat.ne_of_lt (h.ids d hd))
  have hStart : (s.next l).Tracks (· = c) ∧ c.id < (s.next l).calls := by
    constructor
    · refine hBefore.next hEnabled ?_
      rintro d - rfl
      exact hAllows
    · cases l with
      | timeout readAt actorName timerName time => exact hId ▸ Nat.lt_succ_self _
      | advance k | updatetime | tick | send => cases hc
  intro q hq hFires
  obtain ⟨⟨hTracks, -⟩, hEnabled'⟩ := system.inv_steps hStep hStart hRuns (fun _ _ => trivial) q hq
  exact hTracks.inTime hEnabled' hFires rfl

/-- For every interleaving. The messages a tick appends are those of the calls whose nodes it takes
out. No call is answered too early in a run in which each is made while the worker is on time. And
a call can be answered too early, however the run goes on from it, just if it is not. -/
theorem in_time_iff (time : UInt32) (clock : ℕ) (ls : List Label)
    (hRuns : system.Runs (initial time clock) ls) :
    (∀ p ∈ system.steps (initial time clock) ls, p.2 = .tick →
      (p.1.next p.2).manager.timeoutList =
        p.1.manager.timeoutList ++ (p.1.fires p.2).map TimeoutCall.msg) ∧
    ((∀ p ∈ system.steps (initial time clock) ls, p.1.OnTime p.2) →
      ∀ p ∈ system.steps (initial time clock) ls, ∀ c ∈ p.1.fires p.2, c.InTime p.1.curPoint) ∧
    ∀ p ∈ system.steps (initial time clock) ls,
      (∀ c ∈ p.1.made p.2, ∀ ms, system.Runs (p.1.next p.2) ms →
        ∀ q ∈ system.steps (p.1.next p.2) ms, c ∈ q.1.fires q.2 → c.InTime q.1.curPoint) ↔
      p.1.OnTime p.2 := by
  have hSound : ∀ p ∈ system.steps (initial time clock) ls, p.1.Sound ∧ p.1.enabled p.2 :=
    system.inv_steps (fun s l h hEnabled (_ : True) => h.next hEnabled) (Sound.initial time clock) hRuns
      fun _ _ => trivial
  refine ⟨fun p hp hTick => ?_, fun hOnTime p hp c hc => ?_, fun p hp => ⟨fun hAll c hc => ?_, ?_⟩⟩
  · obtain ⟨manager, hStep, -, -, hList, -⟩ := (hSound p hp).1.tick
    rw [hTick, WorkerTimer.next, hStep]
    exact hList
  · have hStep : ∀ (s : WorkerTimer) (l : Label), s.Tracks (fun _ => True) → s.enabled l → s.OnTime l →
        (s.next l).Tracks fun _ => True := fun s l h hEnabled hl => h.next hEnabled fun c hc _ => hl c hc
    have hStart : (initial time clock).Tracks fun _ => True :=
      ⟨Sound.initial time clock, fun _ hc => absurd hc List.not_mem_nil⟩
    have hTracks := system.inv_steps hStep hStart hRuns hOnTime p hp
    exact hTracks.1.inTime hTracks.2 hc trivial
  · by_contra hNot
    obtain ⟨ms, hRun, q, hq, hFires, hEarly⟩ := exists_early (hSound p hp).1 (hSound p hp).2 hc hNot
    exact hEarly (hAll c hc ms hRun q hq hFires)
  · intro hOnTime c hc ms hRun
    exact inTime_of_allowsFor (hSound p hp).1 (hSound p hp).2 hc (hOnTime c hc) hRun

/-- One call is made just before a reading, another while its ticks are made. -/
def promptRun : List Label :=
  [.timeout 0 "actor.a.1" "t" 2, .advance 1, .updatetime, .timeout 1 "actor.b.1" "t" 1, .tick, .send,
    .advance 1, .updatetime, .tick, .send]

theorem in_time_prompt :
    (∀ p ∈ system.steps (initial 0 0) promptRun, ∀ c ∈ p.1.fires p.2, c.InTime p.1.curPoint) ∧
      (system.exec (initial 0 0) promptRun).send =
        [TimerManager.timeoutMsg "actor.b.1" "t", TimerManager.timeoutMsg "actor.a.1" "t"] := by
  obtain ⟨-, hInTime, -⟩ := in_time_iff 0 0 promptRun (by decide +kernel)
  exact ⟨hInTime (by decide +kernel), by decide +kernel⟩

/-- The worker is held up for five ticks, in the last of which an actor asks for three. It has them
at once, from the ticks made up for. -/
def heldUpRun : List Label :=
  [.advance 5, .timeout 5 "actor.a.1" "t" 3, .updatetime, .tick, .tick, .tick]

theorem held_up_fires_early : system.Runs (initial 0 0) heldUpRun ∧
    ∃ p ∈ system.steps (initial 0 0) heldUpRun, ∃ c ∈ p.1.fires p.2, ¬ c.InTime p.1.curPoint := by
  decide +kernel

end WorkerTimer
end Myframe
