import Myframe.Library.LinkRing

/-! # Intrusive lists

The lists and nodes of a program with their pointers. Nothing is deleted with a node. To follow a null
pointer, or to run out of fuel, is `none`.
-/
namespace Myframe
set_option autoImplicit false

/-- Where a `ListNode` is: inside a `List`, or on its own. -/
inductive Addr (ℓ ν : Type) where
  | root (l : ℓ)
  | node (n : ν)
  deriving DecidableEq

structure ListHeap (ℓ ν : Type) extends LinkRing.Links (Addr ℓ ν) where
  count : ℓ → ℤ

namespace ListHeap

variable {ℓ ν : Type} [DecidableEq ℓ] [DecidableEq ν]

def getPrev (h : ListHeap ℓ ν) (p : Option (Addr ℓ ν)) : Option (Option (Addr ℓ ν)) := p.map h.prev

def getNext (h : ListHeap ℓ ν) (p : Option (Addr ℓ ν)) : Option (Option (Addr ℓ ν)) := p.map h.next

def setPrev (h : ListHeap ℓ ν) (p v : Option (Addr ℓ ν)) : Option (ListHeap ℓ ν) :=
  p.map fun a => { h with prev := Function.update h.prev a v }

def setNext (h : ListHeap ℓ ν) (p v : Option (Addr ℓ ν)) : Option (ListHeap ℓ ν) :=
  p.map fun a => { h with next := Function.update h.next a v }

def setCount (h : ListHeap ℓ ν) (l : ℓ) (n : ℤ) : ListHeap ℓ ν :=
  { h with count := Function.update h.count l n }

/-- `__Init`. -/
def init (h : ListHeap ℓ ν) (l : ℓ) : ListHeap ℓ ν :=
  { next := Function.update h.next (.root l) (some (.root l))
    prev := Function.update h.prev (.root l) (some (.root l))
    count := Function.update h.count l 0 }

/-- All lists are new, and so are all nodes. -/
def initial : ListHeap ℓ ν where
  next
    | .root l => some (.root l)
    | .node _ => none
  prev
    | .root l => some (.root l)
    | .node _ => none
  count _ := 0

/-- `__Add`. -/
def rawAdd (h : ListHeap ℓ ν) (l : ℓ) (prev next node : Option (Addr ℓ ν)) : Option (ListHeap ℓ ν) :=
  if node = none then some h
  else do
    let h ← (h.setCount l (h.count l + 1)).setNext prev node
    let h ← h.setPrev next node
    let h ← h.setPrev node prev
    h.setNext node next

def addHead (h : ListHeap ℓ ν) (l : ℓ) (node : Option (Addr ℓ ν)) : Option (ListHeap ℓ ν) :=
  h.rawAdd l (some (.root l)) (h.next (.root l)) node

def addTail (h : ListHeap ℓ ν) (l : ℓ) (node : Option (Addr ℓ ν)) : Option (ListHeap ℓ ν) :=
  h.rawAdd l (h.prev (.root l)) (some (.root l)) node

/-- `__Del`. -/
def rawDel (h : ListHeap ℓ ν) (l : ℓ) (prev next : Option (Addr ℓ ν)) : Option (ListHeap ℓ ν) := do
  let h ← (h.setCount l (h.count l - 1)).setNext prev next
  h.setPrev next prev

def del (h : ListHeap ℓ ν) (l : ℓ) (node : Option (Addr ℓ ν)) : Option (ListHeap ℓ ν) := do
  let h ← h.rawDel l (← h.getPrev node) (← h.getNext node)
  let h ← h.setNext node node
  h.setPrev node node

def isEmpty (h : ListHeap ℓ ν) (l : ℓ) : Bool := h.next (.root l) = some (.root l)

def delHead (h : ListHeap ℓ ν) (l : ℓ) : Option (ListHeap ℓ ν) :=
  if h.isEmpty l then some h else h.del l (h.next (.root l))

def delTail (h : ListHeap ℓ ν) (l : ℓ) : Option (ListHeap ℓ ν) :=
  if h.isEmpty l then some h else h.del l (h.prev (.root l))

def moveHead (h : ListHeap ℓ ν) (l : ℓ) (node : Option (Addr ℓ ν)) : Option (ListHeap ℓ ν) := do
  let h ← h.rawDel l (← h.getPrev node) (← h.getNext node)
  h.addHead l node

def moveTail (h : ListHeap ℓ ν) (l : ℓ) (node : Option (Addr ℓ ν)) : Option (ListHeap ℓ ν) := do
  let h ← h.rawDel l (← h.getPrev node) (← h.getNext node)
  h.addTail l node

def append (h : ListHeap ℓ ν) (l source : ℓ) : Option (ListHeap ℓ ν) :=
  if h.isEmpty source then some h
  else do
    let fHead := h.next (.root source)
    let fTail := h.prev (.root source)
    let h ← h.setNext (h.prev (.root l)) fHead
    let h ← h.setPrev fHead (h.prev (.root l))
    let h ← h.setNext fTail (some (.root l))
    let h ← h.setPrev (some (.root l)) fTail
    return (h.setCount l (h.count l + h.count source)).init source

/-- The two loops of `GetData`, which differ in the link they follow and in how they count. -/
def seek (step : Addr ℓ ν → Option (Addr ℓ ν)) (dir index : ℤ) :
    ℕ → ℤ → Option (Addr ℓ ν) → Option (Option (Addr ℓ ν))
  | 0, _, _ => none
  | fuel + 1, tempIndex, temp =>
    if index ≠ tempIndex then temp.bind fun a => seek step dir index fuel (tempIndex + dir) (step a)
    else some temp

def getData (fuel : ℕ) (h : ListHeap ℓ ν) (l : ℓ) (index : ℤ) : Option (Option (Addr ℓ ν)) :=
  if h.isEmpty l then some (some (.root l))
  else if index < 0 ∨ index ≥ h.count l then some none
  else if index ≥ (h.count l).tdiv 2 then seek h.prev (-1) index fuel (h.count l) (some (.root l))
  else seek h.next 1 index fuel (-1) (some (.root l))

def delWithIndex (fuel : ℕ) (h : ListHeap ℓ ν) (l : ℓ) (index : ℤ) : Option (ListHeap ℓ ν) :=
  if h.isEmpty l then some h
  else do
    let temp ← h.getData fuel l index
    if temp = none then return h
    else h.rawDel l (← h.getPrev temp) (← h.getNext temp)

/-- `while (!IsEmpty()) DelHead()`. -/
def clearLoop (l : ℓ) : ℕ → ListHeap ℓ ν → Option (ListHeap ℓ ν)
  | 0, _ => none
  | fuel + 1, h => if h.isEmpty l then some h else (h.delHead l).bind (clearLoop l fuel)

def clear (fuel : ℕ) (h : ListHeap ℓ ν) (l : ℓ) : Option (ListHeap ℓ ν) :=
  (clearLoop l fuel h).map fun h => h.setCount l 0

inductive Op (ℓ ν : Type) where
  | addHead (l : ℓ) (n : ν)
  | addTail (l : ℓ) (n : ν)
  | del (l : ℓ) (n : ν)
  | moveHead (l : ℓ) (n : ν)
  | moveTail (l : ℓ) (n : ν)
  | delHead (l : ℓ)
  | delTail (l : ℓ)
  | delWithIndex (l : ℓ) (index : ℤ)
  | append (l source : ℓ)
  | clear (l : ℓ)

def apply (fuel : ℕ) (h : ListHeap ℓ ν) : Op ℓ ν → Option (ListHeap ℓ ν)
  | .addHead l n => h.addHead l (some (.node n))
  | .addTail l n => h.addTail l (some (.node n))
  | .del l n => h.del l (some (.node n))
  | .moveHead l n => h.moveHead l (some (.node n))
  | .moveTail l n => h.moveTail l (some (.node n))
  | .delHead l => h.delHead l
  | .delTail l => h.delTail l
  | .delWithIndex l index => h.delWithIndex fuel l index
  | .append l source => h.append l source
  | .clear l => h.clear fuel l

def runOps (fuel : ℕ) : ListHeap ℓ ν → List (Op ℓ ν) → Option (ListHeap ℓ ν)
  | h, [] => some h
  | h, op :: ops => (h.apply fuel op).bind fun h => runOps fuel h ops

/-- The nodes read by `next` from `Begin()` to `End()`. -/
def forward (fuel : ℕ) (h : ListHeap ℓ ν) (l : ℓ) : Option (List (Addr ℓ ν)) :=
  LinkRing.Links.walk h.next (.root l) fuel (h.next (.root l))

/-- The nodes read by `prev` from `End()`. -/
def backward (fuel : ℕ) (h : ListHeap ℓ ν) (l : ℓ) : Option (List (Addr ℓ ν)) :=
  LinkRing.Links.walk h.prev (.root l) fuel (h.prev (.root l))

end ListHeap
end Myframe
