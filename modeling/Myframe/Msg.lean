import Mathlib.Data.String.Basic

/-! # Messages -/
namespace Myframe
set_option autoImplicit false

inductive TransMode where
  | kHybrid
  | kIntra
  | kDDS
  deriving DecidableEq, Repr

/-- A message as the framework reads it. The payload is carried along and never inspected. -/
structure Msg where
  src : String := ""
  dst : String := ""
  name : String := ""
  type : String := ""
  desc : String := ""
  data : String := ""
  transMode : TransMode := .kIntra
  deriving DecidableEq, Repr

def msgTypeSub : String := "MYFRAME_SUBSCRIBE"
def msgTypePub : String := "MYFRAME_PUBLISH"
def msgTypeTimer : String := "MYFRAME_TIMER"
def msgTypeRequest : String := "MYFRAME_REQUEST"
def msgTypeResponse : String := "MYFRAME_RESPONSE"

/-- Neither of the two types that `App::DispatchMsg` treats apart. -/
def Msg.Ordinary (m : Msg) : Prop := m.type ≠ msgTypeSub ∧ m.type ≠ msgTypePub

instance (m : Msg) : Decidable m.Ordinary := inferInstanceAs (Decidable (_ ∧ _))

/-- A message in a queue. The mark says where it comes from; the code has no such field and no
definition that follows the code looks at it. -/
structure Parcel (γ : Type) where
  mark : γ
  msg : Msg
  deriving DecidableEq, Repr

/-- Where a message comes from: a call, an answer to a message, or elsewhere. -/
inductive Origin (κ : Type) where
  | call (k : κ)
  | answer (o : Origin κ)
  | other
  deriving DecidableEq, Repr

/-- The message was sent in answer to what the call had posted. -/
def Answers {κ : Type} (k : κ) (p : Parcel (Origin κ)) : Prop := p.mark = .answer (.call k)

instance {κ : Type} [DecidableEq κ] (k : κ) (p : Parcel (Origin κ)) : Decidable (Answers k p) :=
  inferInstanceAs (Decidable (p.mark = .answer (.call k)))

end Myframe
