import Myframe.Msg
import Mathlib.Logic.Function.Basic

/-! # The timer manager

A wheel of 256 slots for the current block of ticks and four wheels of 64 slots for the coarser
ones. A slot is an intrusive list and is read here as the sequence of its nodes. The loops take
fuel; running out of it is `none`.
-/
namespace Myframe
set_option autoImplicit false

def tvnBits : UInt32 := 6
def tvrBits : UInt32 := 8
def tvnSize : UInt32 := 1 <<< tvnBits
def tvrSize : UInt32 := 1 <<< tvrBits
def tvnMask : UInt32 := tvnSize - 1
def tvrMask : UInt32 := tvrSize - 1

structure Timer where
  actorName : String
  timerName : String
  expire : UInt32
  deriving DecidableEq, Repr

structure TimerManager where
  tv1 : ℕ → List Timer
  tv : ℕ → ℕ → List Timer
  time : UInt32
  timeoutList : List Msg

namespace TimerManager

/-- The constructor: every list is empty and `time` keeps whatever value its memory had. -/
def initial (time : UInt32) : TimerManager where
  tv1 := fun _ => []
  tv := fun _ _ => []
  time := time
  timeoutList := []

def setTv1 (m : TimerManager) (idx : ℕ) (l : List Timer) : TimerManager :=
  { m with tv1 := Function.update m.tv1 idx l }

def setTv (m : TimerManager) (i idx : ℕ) (l : List Timer) : TimerManager :=
  { m with tv := Function.update m.tv i (Function.update (m.tv i) idx l) }

/-- `for (i = 0; i < 3; ++i)` of `_AddTimerNode`, with `n` turns left. After the third one `mask`
has wrapped to zero, but it is not looked at any more. -/
def searchLevel (time curTime : UInt32) : ℕ → ℕ → UInt32 → ℕ
  | 0, i, _ => i
  | n + 1, i, mask =>
    if time ||| (mask - 1) = curTime ||| (mask - 1) then i
    else searchLevel time curTime n (i + 1) (mask <<< tvnBits)

def addTimerNode (m : TimerManager) (node : Timer) : TimerManager :=
  let time := node.expire
  let curTime := m.time
  if time ||| tvrMask = curTime ||| tvrMask then
    let idx := (time &&& tvrMask).toNat
    m.setTv1 idx (m.tv1 idx ++ [node])
  else
    let i := searchLevel time curTime 3 0 (tvrSize <<< tvnBits)
    let idx := ((time >>> (tvrBits + UInt32.ofNat i * tvnBits)) &&& tvnMask).toNat
    m.setTv i idx (m.tv i idx ++ [node])

/-- `time` is a C `int`; the sum with `time_` is taken modulo 2^32. -/
def timeout (m : TimerManager) (actorName timerName : String) (time : ℤ) : TimerManager × ℤ :=
  if time ≤ 0 then (m, -1)
  else (m.addTimerNode ⟨actorName, timerName, UInt32.ofInt time + m.time⟩, 0)

def timeoutMsg (actorName timerName : String) : Msg where
  src := "worker.timer"
  dst := actorName
  name := timerName
  type := msgTypeTimer
  transMode := .kIntra

def dispath (m : TimerManager) (idx : ℕ) : TimerManager :=
  { m.setTv1 idx [] with
    timeoutList := m.timeoutList ++ (m.tv1 idx).map fun t => timeoutMsg t.actorName t.timerName }

/-- `while (!tv1_[idx].IsEmpty()) _Dispath(&tv1_[idx])`. -/
def executeLoop (idx : ℕ) : ℕ → TimerManager → Option TimerManager
  | 0, _ => none
  | fuel + 1, m => if (m.tv1 idx).isEmpty then some m else executeLoop idx fuel (m.dispath idx)

def execute (fuel : ℕ) (m : TimerManager) : Option TimerManager :=
  executeLoop (m.time &&& tvrMask).toNat fuel m

/-- `temp` is read before the node is put back, so the walk ends with the node that was last then,
even if that very node returns to the list. -/
def moveList (level idx : ℕ) : ℕ → TimerManager → Option TimerManager
  | 0, _ => none
  | fuel + 1, m =>
    match m.tv level idx with
    | [] => some m
    | node :: rest =>
      let m' := (m.setTv level idx rest).addTimerNode node
      if rest.isEmpty then some m' else moveList level idx fuel m'

/-- `while ((ct & (mask - 1)) == 0)`; `mask` is a C `int`. -/
def shiftLoop (ct : UInt32) : ℕ → ℕ → UInt32 → ℕ → TimerManager → Option TimerManager
  | 0, _, _, _, _ => none
  | fuel + 1, mask, time, i, m =>
    if ct &&& UInt32.ofNat (mask - 1) = 0 then
      let idx := (time &&& tvnMask).toNat
      if idx ≠ 0 then moveList i idx fuel m
      else shiftLoop ct fuel (mask <<< 6) (time >>> tvnBits) (i + 1) m
    else some m

def shift (fuel : ℕ) (m : TimerManager) : Option TimerManager :=
  let ct := m.time + 1
  let m := { m with time := ct }
  if ct = 0 then moveList 3 0 fuel m
  else shiftLoop ct fuel tvrSize.toNat (ct >>> tvrBits) 0 m

/-- `_Updatetime`, one tick. -/
def updatetimeTick (fuel : ℕ) (m : TimerManager) : Option TimerManager :=
  (m.execute fuel).bind fun m => (m.shift fuel).bind fun m => m.execute fuel

inductive Op where
  | timeout (actorName timerName : String) (time : ℤ)
  | updatetime

def apply (fuel : ℕ) (m : TimerManager) : Op → Option TimerManager
  | .timeout actorName timerName time => some (m.timeout actorName timerName time).1
  | .updatetime => m.updatetimeTick fuel

def runOps (fuel : ℕ) : TimerManager → List Op → Option TimerManager
  | m, [] => some m
  | m, op :: ops => (m.apply fuel op).bind fun m => runOps fuel m ops

end TimerManager
end Myframe
