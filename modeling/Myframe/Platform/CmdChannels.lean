import Myframe.Library.Transition
import Myframe.CmdChannel
import Mathlib.Data.Int.Order.Basic

/-! # The two implementations of the command channel

A call that receives carries the command that arrives while it runs, if any does, with the time in
milliseconds after which it comes. A call that nothing ever answers does not return.
-/
namespace Myframe
set_option autoImplicit false

namespace CmdChannel

inductive CmdCall where
  | sendToOwner (cmd : Cmd)
  | recvFromMain (timeoutMs : ℤ) (arrival : Option (ℕ × Cmd))
  | sendToMain (cmd : Cmd)
  | recvFromOwner (arrival : Option (ℕ × Cmd))
  deriving DecidableEq, Repr

/-- What a call returns and writes to `*cmd`. It is undefined where the code takes the front of an
empty list. -/
inductive Outcome where
  | returned (ret : ℤ) (cmd : Option Cmd)
  | waits
  | undefined
  deriving DecidableEq, Repr

inductive Answer where
  | returned (ok : Bool) (cmd : Option Cmd)
  | waits
  | undefined
  deriving DecidableEq, Repr

namespace Outcome

def answer : Outcome → Answer
  | returned ret cmd => .returned (0 ≤ ret) cmd
  | waits => .waits
  | undefined => .undefined

def ret : Outcome → Option ℤ
  | returned ret _ => some ret
  | waits | undefined => none

def received : Outcome → List Cmd
  | returned _ cmd => cmd.toList
  | waits | undefined => []

end Outcome

/-- How long a call may wait, and what comes of waiting on an empty queue: no return, no command, or
a command. -/
def waitFor : Option ℕ → Option (ℕ × Cmd) → Option (Option Cmd)
  | none, none => none
  | none, some (_, cmd) => some (some cmd)
  | some _, none => some none
  | some ms, some (t, cmd) => if t < ms then some (some cmd) else some none

def late (arrival : Option (ℕ × Cmd)) : List Cmd := (arrival.map Prod.snd).toList

def read (wait : Option ℕ) (arrival : Option (ℕ × Cmd)) : List Cmd → List Cmd × Option (Option Cmd)
  | cmd :: rest => (rest ++ late arrival, some (some cmd))
  | [] =>
    match waitFor wait arrival with
    | some none => (late arrival, some none)
    | got => ([], got)

def ownWait (timeoutMs : ℤ) : Option ℕ := if timeoutMs < 0 then none else some timeoutMs.toNat

def answered : Option (Option Cmd) → Answer
  | some cmd => .returned cmd.isSome cmd
  | none => .waits

/-- What a command channel is for. -/
def interface (c : CmdChannel) : CmdCall → CmdChannel × Answer
  | .sendToOwner cmd => (c.sendToOwner cmd, .returned true none)
  | .sendToMain cmd => (c.sendToMain cmd, .returned true none)
  | .recvFromMain timeoutMs arrival =>
    let (queue, got) := read (ownWait timeoutMs) arrival c.toOwner
    ({ c with toOwner := queue }, answered got)
  | .recvFromOwner arrival =>
    let (queue, got) := read none arrival c.toMain
    ({ c with toMain := queue }, answered got)

/-- The commands sent to the owner while a call runs, by the call or during it. -/
def CmdCall.sentToOwner : CmdCall → List Cmd
  | sendToOwner cmd => [cmd]
  | recvFromMain _ arrival => late arrival
  | sendToMain _ | recvFromOwner _ => []

def CmdCall.sentToMain : CmdCall → List Cmd
  | sendToMain cmd => [cmd]
  | recvFromOwner arrival => late arrival
  | sendToOwner _ | recvFromMain _ _ => []

/-- The commands the owner gets from a call. -/
def CmdCall.gotFromMain (o : Outcome) : CmdCall → List Cmd
  | recvFromMain _ _ => o.received
  | sendToOwner _ | sendToMain _ | recvFromOwner _ => []

def CmdCall.gotFromOwner (o : Outcome) : CmdCall → List Cmd
  | recvFromOwner _ => o.received
  | sendToOwner _ | sendToMain _ | recvFromMain _ _ => []

end CmdChannel

open CmdChannel (CmdCall Outcome Answer)

/-- `rcvTimeo` is `SO_RCVTIMEO` of the owner's descriptor in milliseconds, zero for none. -/
structure CmdChannelLinux where
  channel : CmdChannel := {}
  nonblock : Bool := false
  rcvTimeo : ℕ := 0
  deriving DecidableEq, Repr

namespace CmdChannelLinux

/-- The descriptor as `RecvFromMain` sets it before it reads. -/
def setOptions (s : CmdChannelLinux) (timeoutMs : ℤ) : CmdChannelLinux :=
  if timeoutMs < 0 then { s with nonblock := false }
  else if timeoutMs = 0 then { s with nonblock := true }
  else { s with rcvTimeo := timeoutMs.toNat }

/-- How long `read` on the owner's descriptor waits. -/
def readWait (s : CmdChannelLinux) : Option ℕ :=
  if s.nonblock then some 0 else if s.rcvTimeo = 0 then none else some s.rcvTimeo

def result : Option (Option Cmd) → Outcome
  | some (some cmd) => .returned 1 (some cmd)
  | some none => .returned (-1) none
  | none => .waits

def call (s : CmdChannelLinux) : CmdCall → CmdChannelLinux × Outcome
  | .sendToOwner cmd => ({ s with channel := s.channel.sendToOwner cmd }, .returned 1 none)
  | .sendToMain cmd => ({ s with channel := s.channel.sendToMain cmd }, .returned 1 none)
  | .recvFromMain timeoutMs arrival =>
    let s := s.setOptions timeoutMs
    let (queue, got) := CmdChannel.read s.readWait arrival s.channel.toOwner
    ({ s with channel := { s.channel with toOwner := queue } }, result got)
  | .recvFromOwner arrival =>
    let (queue, got) := CmdChannel.read none arrival s.channel.toMain
    ({ s with channel := { s.channel with toMain := queue } }, result got)

def system : Transition.System CmdChannelLinux CmdCall where
  enabled _ _ := True
  next s c := (s.call c).1

end CmdChannelLinux

structure CmdChannelGeneric where
  channel : CmdChannel := {}
  deriving DecidableEq, Repr

namespace CmdChannelGeneric

/-- How long the condition variable is waited for. -/
def cvWait (timeoutMs : ℤ) : Option ℕ := if 0 < timeoutMs then some timeoutMs.toNat else none

/-- The queue is not looked at again when the wait has expired. -/
def result : Option (Option Cmd) → Outcome
  | some (some cmd) => .returned 0 (some cmd)
  | some none => .undefined
  | none => .waits

def call (s : CmdChannelGeneric) : CmdCall → CmdChannelGeneric × Outcome
  | .sendToOwner cmd => ({ s with channel := s.channel.sendToOwner cmd }, .returned 0 none)
  | .sendToMain cmd => ({ s with channel := s.channel.sendToMain cmd }, .returned 0 none)
  | .recvFromMain timeoutMs arrival =>
    let (queue, got) := CmdChannel.read (cvWait timeoutMs) arrival s.channel.toOwner
    ({ s with channel := { s.channel with toOwner := queue } }, result got)
  | .recvFromOwner arrival =>
    let (queue, got) := CmdChannel.read (some 0) arrival s.channel.toMain
    ({ s with channel := { s.channel with toMain := queue } }, result got)

def system : Transition.System CmdChannelGeneric CmdCall where
  enabled _ _ := True
  next s c := (s.call c).1

end CmdChannelGeneric

namespace CmdChannel

/-- A read that does not return found nothing, may wait for ever, and is never answered. -/
theorem read_waits {wait : Option ℕ} {arrival : Option (ℕ × Cmd)} {queue : List Cmd}
    (h : (read wait arrival queue).2 = none) : queue = [] ∧ wait = none ∧ arrival = none := by
  cases queue with
  | cons cmd rest => cases h
  | nil =>
    rcases wait with _ | ms <;> rcases arrival with _ | ⟨t, cmd⟩
    · exact ⟨rfl, rfl, rfl⟩
    · cases h
    · cases h
    · simp only [read, waitFor] at h
      split at h
      · cases h
      · next hLate =>
        split at h
        · cases h
        · next hNot => exact absurd (if_neg hNot) hLate

theorem read_balance (wait : Option ℕ) (arrival : Option (ℕ × Cmd)) (queue : List Cmd) :
    queue ++ late arrival =
      (read wait arrival queue).2.join.toList ++ (read wait arrival queue).1 := by
  cases queue with
  | cons cmd rest => rfl
  | nil =>
    rw [read]
    rcases wait with _ | ms <;> rcases arrival with _ | ⟨t, cmd⟩
    · rfl
    · rfl
    · rfl
    · simp only [waitFor]
      split
      · next hSplit =>
        split at hSplit
        · cases hSplit
        · rfl
      · next hGot =>
        split
        · rfl
        · next hLate => exact absurd (if_neg hLate) hGot

end CmdChannel

theorem CmdChannelLinux.result_received (got : Option (Option Cmd)) :
    (CmdChannelLinux.result got).received = got.join.toList := by
  rcases got with _ | _ | cmd <;> rfl

theorem CmdChannelGeneric.result_received (got : Option (Option Cmd)) :
    (CmdChannelGeneric.result got).received = got.join.toList := by
  rcases got with _ | _ | cmd <;> rfl

theorem CmdChannelLinux.setOptions_channel (s : CmdChannelLinux) (timeoutMs : ℤ) :
    (s.setOptions timeoutMs).channel = s.channel := by
  rw [setOptions]
  split
  · rfl
  · split <;> rfl

theorem CmdChannelLinux.call_balance (s : CmdChannelLinux) (c : CmdCall) :
    s.channel.toOwner ++ c.sentToOwner = c.gotFromMain (s.call c).2 ++ (s.call c).1.channel.toOwner ∧
      s.channel.toMain ++ c.sentToMain = c.gotFromOwner (s.call c).2 ++ (s.call c).1.channel.toMain := by
  cases c with
  | sendToOwner cmd | sendToMain cmd => simp [call, CmdCall.sentToOwner, CmdCall.sentToMain, CmdCall.gotFromMain,
      CmdCall.gotFromOwner]
  | recvFromMain timeoutMs arrival =>
    constructor
    · have hRead := CmdChannel.read_balance (s.setOptions timeoutMs).readWait arrival s.channel.toOwner
      simpa only [call, CmdCall.sentToOwner, CmdCall.gotFromMain, result_received, setOptions_channel] using hRead
    · simp [call, CmdCall.sentToMain, CmdCall.gotFromOwner, setOptions_channel]
  | recvFromOwner arrival =>
    refine ⟨by simp [call, CmdCall.sentToOwner, CmdCall.gotFromMain], ?_⟩
    have hRead := CmdChannel.read_balance none arrival s.channel.toMain
    simpa only [call, CmdCall.sentToMain, CmdCall.gotFromOwner, result_received] using hRead

theorem CmdChannelGeneric.call_balance (s : CmdChannelGeneric) (c : CmdCall) :
    s.channel.toOwner ++ c.sentToOwner = c.gotFromMain (s.call c).2 ++ (s.call c).1.channel.toOwner ∧
      s.channel.toMain ++ c.sentToMain = c.gotFromOwner (s.call c).2 ++ (s.call c).1.channel.toMain := by
  cases c with
  | sendToOwner cmd | sendToMain cmd => simp [call, CmdCall.sentToOwner, CmdCall.sentToMain, CmdCall.gotFromMain,
      CmdCall.gotFromOwner]
  | recvFromMain timeoutMs arrival =>
    refine ⟨?_, by simp [call, CmdCall.sentToMain, CmdCall.gotFromOwner]⟩
    have hRead := CmdChannel.read_balance (cvWait timeoutMs) arrival s.channel.toOwner
    simpa only [call, CmdCall.sentToOwner, CmdCall.gotFromMain, result_received] using hRead
  | recvFromOwner arrival =>
    refine ⟨by simp [call, CmdCall.sentToOwner, CmdCall.gotFromMain], ?_⟩
    have hRead := CmdChannel.read_balance (some 0) arrival s.channel.toMain
    simpa only [call, CmdCall.sentToMain, CmdCall.gotFromOwner, result_received] using hRead

namespace CmdChannel

/-- Commands come out in the order in which they were sent, in both directions. -/
structure Ordered {σ : Type} (S : Transition.System σ CmdCall) (channel : σ → CmdChannel)
    (outcome : σ → CmdCall → Outcome) (s : σ) (history : List CmdCall) : Prop where
  toOwner : (channel s).toOwner ++ S.emitted (fun _ c => c.sentToOwner) s history =
    S.emitted (fun s c => c.gotFromMain (outcome s c)) s history ++ (channel (S.exec s history)).toOwner
  toMain : (channel s).toMain ++ S.emitted (fun _ c => c.sentToMain) s history =
    S.emitted (fun s c => c.gotFromOwner (outcome s c)) s history ++ (channel (S.exec s history)).toMain

end CmdChannel

theorem CmdChannelLinux.ordered (s : CmdChannelLinux) (history : List CmdCall) :
    CmdChannel.Ordered system channel (fun s c => (s.call c).2) s history where
  toOwner := system.conservation (I := fun _ => True) (fun _ _ _ _ (_ : True) => trivial)
    (fun s c _ _ _ => (s.call_balance c).1) trivial (fun _ _ => trivial) fun _ _ => trivial
  toMain := system.conservation (I := fun _ => True) (fun _ _ _ _ (_ : True) => trivial)
    (fun s c _ _ _ => (s.call_balance c).2) trivial (fun _ _ => trivial) fun _ _ => trivial

theorem CmdChannelGeneric.ordered (s : CmdChannelGeneric) (history : List CmdCall)
    (hDefined : ∀ p ∈ system.steps s history, (p.1.call p.2).2 ≠ .undefined) :
    CmdChannel.Ordered system channel (fun s c => (s.call c).2) s history where
  toOwner := system.conservation (I := fun _ => True)
    (fun s c _ _ (_ : (s.call c).2 ≠ .undefined) => trivial)
    (fun s c _ _ _ => (s.call_balance c).1) trivial (fun _ _ => trivial) hDefined
  toMain := system.conservation (I := fun _ => True)
    (fun s c _ _ (_ : (s.call c).2 ≠ .undefined) => trivial)
    (fun s c _ _ _ => (s.call_balance c).2) trivial (fun _ _ => trivial) hDefined

namespace CmdChannelLinux

theorem exec_rcvTimeo (s : CmdChannelLinux) (history : List CmdCall) :
    (system.exec s history).rcvTimeo = 0 ↔
      s.rcvTimeo = 0 ∧ ∀ timeoutMs arrival, .recvFromMain timeoutMs arrival ∈ history → timeoutMs ≤ 0 := by
  induction history generalizing s with
  | nil => simp
  | cons c history ih =>
    rw [Transition.System.exec_cons, ih]
    have hNext : (system.next s c).rcvTimeo = 0 ↔
        s.rcvTimeo = 0 ∧ ∀ timeoutMs arrival, c = .recvFromMain timeoutMs arrival → timeoutMs ≤ 0 := by
      cases c with
      | sendToOwner cmd | sendToMain cmd | recvFromOwner arrival => simp [system, call]
      | recvFromMain timeoutMs arrival =>
        simp only [system, call, setOptions]
        split
        · next hNeg => simp [Int.le_of_lt hNeg]
        · split
          · next hZero => simp [hZero]
          · next hNonneg hNonzero =>
            have hPos : 0 < timeoutMs := by omega
            refine iff_of_false (fun hNone => ?_) fun h => absurd (h.2 _ _ rfl) (not_le.mpr hPos)
            have hLen : timeoutMs.toNat = 0 := hNone
            omega
    rw [hNext]
    constructor
    · rintro ⟨⟨hStart, hHead⟩, hTail⟩
      refine ⟨hStart, fun timeoutMs arrival hMem => ?_⟩
      obtain hEq | hMem := List.mem_cons.mp hMem
      · exact hHead _ _ hEq.symm
      · exact hTail _ _ hMem
    · rintro ⟨hStart, hAll⟩
      refine ⟨⟨hStart, fun timeoutMs arrival hEq => ?_⟩, fun timeoutMs arrival hMem => ?_⟩
      · exact hAll _ arrival (List.mem_cons.mpr (.inl hEq.symm))
      · exact hAll _ arrival (List.mem_cons_of_mem _ hMem)

def Unbounded (history : List CmdCall) : Prop :=
  ∃ timeoutMs < 0, ∃ arrival, .recvFromMain timeoutMs arrival ∈ history

theorem unbounded_cons {c : CmdCall} {history : List CmdCall} :
    Unbounded (c :: history) ↔
      (∃ timeoutMs < 0, ∃ arrival, c = .recvFromMain timeoutMs arrival) ∨ Unbounded history := by
  constructor
  · rintro ⟨timeoutMs, hNeg, arrival, hMem⟩
    obtain hEq | hMem := List.mem_cons.mp hMem
    · exact .inl ⟨timeoutMs, hNeg, arrival, hEq.symm⟩
    · exact .inr ⟨timeoutMs, hNeg, arrival, hMem⟩
  · rintro (⟨timeoutMs, hNeg, arrival, rfl⟩ | ⟨timeoutMs, hNeg, arrival, hMem⟩)
    · exact ⟨timeoutMs, hNeg, arrival, List.mem_cons_self⟩
    · exact ⟨timeoutMs, hNeg, arrival, List.mem_cons_of_mem _ hMem⟩

/-- A call with a negative timeout follows every call with timeout zero. -/
def Reset (history : List CmdCall) : Prop :=
  ∀ before arrival after, history = before ++ .recvFromMain 0 arrival :: after → Unbounded after

theorem reset_cons {c : CmdCall} {history : List CmdCall} :
    Reset (c :: history) ↔ ((∃ arrival, c = .recvFromMain 0 arrival) → Unbounded history) ∧ Reset history := by
  constructor
  · intro h
    refine ⟨?_, fun before arrival after hEq => h (c :: before) arrival after (by rw [hEq]; rfl)⟩
    rintro ⟨arrival, rfl⟩
    exact h [] arrival history rfl
  · rintro ⟨hHead, hTail⟩ before arrival after hEq
    cases before with
    | nil =>
      obtain ⟨rfl, rfl⟩ := List.cons.inj hEq
      exact hHead ⟨arrival, rfl⟩
    | cons b before => exact hTail before arrival after (List.cons.inj hEq).2

theorem exec_nonblock (s : CmdChannelLinux) (history : List CmdCall) :
    (system.exec s history).nonblock = false ↔
      (s.nonblock = true → Unbounded history) ∧ Reset history := by
  induction history generalizing s with
  | nil =>
    have hReset : Reset [] := by
      intro before arrival after hEq
      cases before <;> cases hEq
    simp [Unbounded, hReset]
  | cons c history ih =>
    rw [Transition.System.exec_cons, ih, reset_cons, unbounded_cons]
    cases c with
    | sendToOwner cmd | sendToMain cmd | recvFromOwner arrival => simp [system, call]
    | recvFromMain timeoutMs arrival =>
      simp only [system, call, setOptions]
      split
      · next hNeg =>
        have hUnbounded : ∃ t < 0, ∃ a, CmdCall.recvFromMain timeoutMs arrival = .recvFromMain t a :=
          ⟨timeoutMs, hNeg, arrival, rfl⟩
        have hNonzero : ¬ ∃ a, CmdCall.recvFromMain timeoutMs arrival = .recvFromMain 0 a := by
          rintro ⟨a, hEq⟩
          obtain ⟨rfl, -⟩ := CmdCall.recvFromMain.inj hEq
          exact Int.lt_irrefl 0 hNeg
        constructor
        · rintro ⟨-, hReset⟩
          exact ⟨fun _ => .inl hUnbounded, fun hZero => absurd hZero hNonzero, hReset⟩
        · rintro ⟨-, -, hReset⟩
          exact ⟨by rintro ⟨⟩, hReset⟩
      · next hNonneg =>
        have hBounded : ¬ ∃ t < 0, ∃ a, CmdCall.recvFromMain timeoutMs arrival = .recvFromMain t a := by
          rintro ⟨t, hNeg, a, hEq⟩
          obtain ⟨rfl, -⟩ := CmdCall.recvFromMain.inj hEq
          exact hNonneg hNeg
        rw [or_iff_right hBounded]
        split
        · next hZero =>
          subst hZero
          constructor
          · rintro ⟨hUnbounded, hReset⟩
            exact ⟨fun _ => hUnbounded rfl, fun _ => hUnbounded rfl, hReset⟩
          · rintro ⟨-, hUnbounded, hReset⟩
            exact ⟨fun _ => hUnbounded ⟨arrival, rfl⟩, hReset⟩
        · next hNonzero => simp [hNonzero]

/-- A receive waits by its own timeout, whatever was called before, but for two cases: it may wait
for ever and an earlier one had a positive timeout, or it has a positive timeout and an earlier one had
timeout zero, with none without an end in between. -/
theorem waits_own_iff (history : List CmdCall) (timeoutMs : ℤ) :
    ((system.exec {} history).setOptions timeoutMs).readWait = CmdChannel.ownWait timeoutMs ↔
      (timeoutMs < 0 → ∀ t arrival, .recvFromMain t arrival ∈ history → t ≤ 0) ∧
        (0 < timeoutMs → Reset history) := by
  have hTimeo := exec_rcvTimeo {} history
  have hMode := exec_nonblock {} history
  rw [and_iff_right rfl] at hTimeo
  rw [and_iff_right (by rintro ⟨⟩)] at hMode
  rw [← hTimeo, ← hMode, setOptions, CmdChannel.ownWait]
  split
  · next hNeg =>
    rw [forall_prop_of_true hNeg, and_iff_left fun hPos => absurd hPos (by omega)]
    simp [readWait]
  · next hNonneg =>
    rw [and_iff_right fun hNeg => absurd hNeg hNonneg]
    split
    · next hZero =>
      refine iff_of_true ?_ fun hPos => absurd hPos (by omega)
      simp [readWait, hZero]
    · next hNonzero =>
      have hPos : 0 < timeoutMs := by omega
      have hMs : timeoutMs.toNat ≠ 0 := by omega
      rw [forall_prop_of_true hPos]
      cases hBlock : (system.exec {} history).nonblock with
      | false => simp [readWait, hMs]
      | true => simp [readWait, hMs.symm]

end CmdChannelLinux

theorem CmdChannelGeneric.waits_own_iff (timeoutMs : ℤ) :
    cvWait timeoutMs = CmdChannel.ownWait timeoutMs ↔ timeoutMs ≠ 0 := by
  rw [cvWait, CmdChannel.ownWait]
  split
  · next hPos =>
    rw [if_neg (by omega)]
    exact iff_of_true rfl (by omega)
  · next hNonpos =>
    split
    · next hNeg => exact iff_of_true rfl (by omega)
    · next hNonneg => exact iff_of_false (by rintro ⟨⟩) fun h => h (by omega)

def CmdChannelLinux.WaitsOwn (s : CmdChannelLinux) : CmdCall → Prop
  | .recvFromMain timeoutMs _ => (s.setOptions timeoutMs).readWait = CmdChannel.ownWait timeoutMs
  | .sendToOwner _ | .sendToMain _ | .recvFromOwner _ => True

theorem CmdChannelLinux.result_answer (got : Option (Option Cmd)) :
    (CmdChannelLinux.result got).answer = CmdChannel.answered got := by
  rcases got with _ | _ | cmd <;> rfl

/-- Such a call does what the interface says: a wait that expires is reported as a failure and leaves
queue and `*cmd` alone. -/
theorem CmdChannelLinux.interface_call {s : CmdChannelLinux} {c : CmdCall} (h : s.WaitsOwn c) :
    s.channel.interface c = ((s.call c).1.channel, (s.call c).2.answer) := by
  cases c with
  | sendToOwner cmd | sendToMain cmd => rfl
  | recvFromMain timeoutMs arrival =>
    have hOwn : (s.setOptions timeoutMs).readWait = CmdChannel.ownWait timeoutMs := h
    simp only [CmdChannel.interface, call, hOwn, setOptions_channel, result_answer]
  | recvFromOwner arrival => simp only [CmdChannel.interface, call, result_answer]

namespace CmdChannel

/-- On the history both channels do what the interface says, and report it by the same values. -/
structure Conforms (history : List CmdCall) : Prop where
  linux : ∀ p ∈ CmdChannelLinux.system.steps {} history,
    p.1.channel.interface p.2 = ((p.1.call p.2).1.channel, (p.1.call p.2).2.answer)
  generic : ∀ p ∈ CmdChannelGeneric.system.steps {} history,
    p.1.channel.interface p.2 = ((p.1.call p.2).1.channel, (p.1.call p.2).2.answer)
  values : CmdChannelLinux.system.emitted (fun s c => [(s.call c).2.ret]) {} history =
    CmdChannelGeneric.system.emitted (fun s c => [(s.call c).2.ret]) {} history

/-- The call never returns: it waits for ever and nothing answers it. -/
def CmdCall.Unanswered (c : CmdCall) : Prop := ∃ timeoutMs < 0, c = .recvFromMain timeoutMs none

/-- On new channels the first call that returns does so with different values, unless it is undefined
on one of them and not on the other. -/
theorem unanswered_of_first {c : CmdCall}
    (hGeneric : ({} : CmdChannel).interface c =
      ((CmdChannelGeneric.call {} c).1.channel, (CmdChannelGeneric.call {} c).2.answer))
    (hValue : (CmdChannelLinux.call {} c).2.ret = (CmdChannelGeneric.call {} c).2.ret) : c.Unanswered := by
  cases c with
  | sendToOwner cmd | sendToMain cmd => cases hValue
  | recvFromOwner arrival =>
    rcases arrival with _ | ⟨t, cmd⟩
    · cases hGeneric
    · cases hGeneric
  | recvFromMain timeoutMs arrival =>
    have hWaits : (read (CmdChannelLinux.setOptions {} timeoutMs).readWait arrival []).2 = none := by
      simp only [CmdChannelLinux.call, CmdChannelGeneric.call, CmdChannelLinux.setOptions_channel] at hValue
      revert hValue
      generalize (read (CmdChannelLinux.setOptions {} timeoutMs).readWait arrival []).2 = got
      generalize (read (CmdChannelGeneric.cvWait timeoutMs) arrival []).2 = got'
      rcases got with _ | _ | cmd <;> rcases got' with _ | _ | cmd' <;> rintro ⟨⟩
      · rfl
      · rfl
    obtain ⟨-, hWait, rfl⟩ := read_waits hWaits
    refine ⟨timeoutMs, ?_, rfl⟩
    by_contra hNonneg
    simp only [CmdChannelLinux.setOptions, if_neg hNonneg] at hWait
    split at hWait
    · cases hWait
    · next hNonzero =>
      have hMs : timeoutMs.toNat ≠ 0 := by omega
      simp [CmdChannelLinux.readWait, hMs] at hWait

theorem unanswered_call {c : CmdCall} (h : c.Unanswered) :
    CmdChannelLinux.call {} c = ({}, .waits) ∧ CmdChannelGeneric.call {} c = ({}, .waits) ∧
      ({} : CmdChannel).interface c = ({}, .waits) := by
  obtain ⟨timeoutMs, hNeg, rfl⟩ := h
  have hOptions : CmdChannelLinux.setOptions {} timeoutMs = {} := if_pos hNeg
  have hCv : CmdChannelGeneric.cvWait timeoutMs = none := if_neg (by omega)
  have hOwn : ownWait timeoutMs = none := if_pos hNeg
  refine ⟨?_, ?_, ?_⟩
  · simp only [CmdChannelLinux.call, hOptions]
    rfl
  · simp only [CmdChannelGeneric.call, hCv]
    rfl
  · simp only [interface, hOwn]
    rfl

theorem conforms_cons {c : CmdCall} {history : List CmdCall} (h : c.Unanswered) :
    Conforms (c :: history) ↔ Conforms history := by
  obtain ⟨hLinux, hGeneric, hInterface⟩ := unanswered_call h
  have hNextLinux : CmdChannelLinux.system.next {} c = {} := congrArg Prod.fst hLinux
  have hNextGeneric : CmdChannelGeneric.system.next {} c = {} := congrArg Prod.fst hGeneric
  constructor
  · rintro ⟨hL, hG, hV⟩
    rw [Transition.System.steps, hNextLinux, List.forall_mem_cons] at hL
    rw [Transition.System.steps, hNextGeneric, List.forall_mem_cons] at hG
    simp only [Transition.System.emitted, Transition.System.steps, hNextLinux, hNextGeneric, hLinux,
      hGeneric, List.flatMap_cons, List.append_cancel_left_eq] at hV
    exact ⟨hL.2, hG.2, hV⟩
  · rintro ⟨hL, hG, hV⟩
    refine ⟨?_, ?_, ?_⟩
    · rw [Transition.System.steps, hNextLinux, List.forall_mem_cons, hLinux]
      exact ⟨hInterface, hL⟩
    · rw [Transition.System.steps, hNextGeneric, List.forall_mem_cons, hGeneric]
      exact ⟨hInterface, hG⟩
    · simp only [Transition.System.emitted, Transition.System.steps, hNextLinux, hNextGeneric, hLinux,
        hGeneric, List.flatMap_cons, List.append_cancel_left_eq]
      exact hV

theorem conforms_nil : Conforms [] := ⟨by rintro _ ⟨⟩, by rintro _ ⟨⟩, rfl⟩

theorem conforms_iff_unanswered (history : List CmdCall) :
    Conforms history ↔ ∀ c ∈ history, c.Unanswered := by
  induction history with
  | nil => exact iff_of_true conforms_nil (by rintro _ ⟨⟩)
  | cons c history ih =>
    rw [List.forall_mem_cons]
    constructor
    · intro hConforms
      have hFirst : c.Unanswered := by
        refine unanswered_of_first (hConforms.generic _ List.mem_cons_self) ?_
        have hValues := hConforms.values
        simp only [Transition.System.emitted, Transition.System.steps, List.flatMap_cons,
          List.singleton_append] at hValues
        exact (List.cons.inj hValues).1
      exact ⟨hFirst, ih.mp ((conforms_cons hFirst).mp hConforms)⟩
    · rintro ⟨hFirst, hRest⟩
      exact (conforms_cons hFirst).mpr (ih.mpr hRest)

/-- The account of the two channels: what holds of the order, of the timeouts and of the values. -/
theorem channels_account (history : List CmdCall) :
    Ordered CmdChannelLinux.system (·.channel) (fun s c => (s.call c).2) {} history ∧
      ((∀ p ∈ CmdChannelGeneric.system.steps {} history, (p.1.call p.2).2 ≠ .undefined) →
        Ordered CmdChannelGeneric.system (·.channel) (fun s c => (s.call c).2) {} history) ∧
      (∀ timeoutMs arrival,
        (CmdChannelLinux.system.exec {} history).WaitsOwn (.recvFromMain timeoutMs arrival) ↔
          (timeoutMs < 0 → ∀ t a, .recvFromMain t a ∈ history → t ≤ 0) ∧
            (0 < timeoutMs → CmdChannelLinux.Reset history)) ∧
      (∀ (s : CmdChannelLinux) (c : CmdCall), s.WaitsOwn c →
        s.channel.interface c = ((s.call c).1.channel, (s.call c).2.answer)) ∧
      (∀ timeoutMs, CmdChannelGeneric.cvWait timeoutMs = ownWait timeoutMs ↔ timeoutMs ≠ 0) ∧
      (Conforms history ↔ ∀ c ∈ history, c.Unanswered) :=
  ⟨CmdChannelLinux.ordered {} history, CmdChannelGeneric.ordered {} history,
    fun timeoutMs _ => CmdChannelLinux.waits_own_iff history timeoutMs,
    fun _ _ => CmdChannelLinux.interface_call, CmdChannelGeneric.waits_own_iff,
    conforms_iff_unanswered history⟩

def oneCommand : List CmdCall := [.sendToOwner .kRun, .recvFromMain (-1) none]

def timeoutFirst : List CmdCall := [.recvFromMain 5 none, .recvFromMain (-1) none]

def zeroFirst : List CmdCall := [.recvFromMain 0 none, .recvFromMain 5 (some (3, .kRun))]

theorem channels_differ :
    CmdChannelLinux.system.emitted (fun s c => [(s.call c).2]) {} oneCommand =
        [.returned 1 none, .returned 1 (some .kRun)] ∧
      CmdChannelGeneric.system.emitted (fun s c => [(s.call c).2]) {} oneCommand =
        [.returned 0 none, .returned 0 (some .kRun)] ∧
      CmdChannelLinux.system.emitted (fun s c => [(s.call c).2]) {} timeoutFirst =
        [.returned (-1) none, .returned (-1) none] ∧
      CmdChannelLinux.system.emitted (fun s c => [(s.call c).2]) {} zeroFirst =
        [.returned (-1) none, .returned (-1) none] ∧
      CmdChannelGeneric.system.emitted (fun s c => [(s.call c).2]) {} [.recvFromMain 0 none] = [.waits] ∧
      CmdChannelGeneric.system.emitted (fun s c => [(s.call c).2]) {} [.recvFromMain 5 none] =
        [.undefined] ∧
      ¬ Conforms oneCommand ∧ ¬ Conforms timeoutFirst ∧ ¬ Conforms zeroFirst := by
  refine ⟨by decide, by decide, by decide, by decide, by decide, by decide, ?_, ?_, ?_⟩
  · exact fun h => absurd h.values (by decide)
  · exact fun h => absurd h.values (by decide)
  · exact fun h => absurd h.values (by decide)

end CmdChannel

end Myframe
