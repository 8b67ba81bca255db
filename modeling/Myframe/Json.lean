import Mathlib.Algebra.Ring.Int.Defs
import Mathlib.Data.Rat.Defs
import Mathlib.Data.String.Basic

/-! # JSON values and the accessors of `Json::Value`

An accessor that is used on a kind of value it is not meant for throws.
-/
namespace Myframe
set_option autoImplicit false

/-- A `double` stands with its value. The members of an object are listed as they are walked, by their
keys. -/
inductive Json where
  | null
  | bool (b : Bool)
  | int (n : ℤ)
  | real (x : ℚ)
  | string (s : String)
  | array (elems : List Json)
  | object (members : List (String × Json))

namespace Json

/-- `Json::LogicError`. -/
inductive Throw where
  | logicError
  deriving DecidableEq, Repr

def isNull : Json → Bool
  | null => true
  | _ => false

def isString : Json → Bool
  | string _ => true
  | _ => false

def isObject : Json → Bool
  | object _ => true
  | _ => false

def isMember (v : Json) (key : String) : Except Throw Bool :=
  match v with
  | null => .ok false
  | object members => .ok (members.lookup key).isSome
  | _ => .error .logicError

/-- `operator[]` of a constant value: null where there is no such member. -/
def get (v : Json) (key : String) : Except Throw Json :=
  match v with
  | null => .ok null
  | object members => .ok ((members.lookup key).getD null)
  | _ => .error .logicError

def getMemberNames : Json → Except Throw (List String)
  | null => .ok []
  | object members => .ok (members.map Prod.fst)
  | _ => .error .logicError

/-- What a loop over the value walks. -/
def elements : Json → List Json
  | array elems => elems
  | object members => members.map Prod.snd
  | _ => []

/-- `showReal` prints a `double`. -/
def asString (showReal : ℚ → String) : Json → Except Throw String
  | null => .ok ""
  | bool b => .ok (if b then "true" else "false")
  | int n => .ok (toString n)
  | real x => .ok (showReal x)
  | string s => .ok s
  | array _ | object _ => .error .logicError

def minInt : ℤ := -2 ^ 31

def maxInt : ℤ := 2 ^ 31 - 1

/-- A `double` in range is cut off towards zero. -/
def asInt : Json → Except Throw ℤ
  | null => .ok 0
  | bool b => .ok (if b then 1 else 0)
  | int n => if minInt ≤ n ∧ n ≤ maxInt then .ok n else .error .logicError
  | real x =>
    if (minInt : ℚ) ≤ x ∧ x ≤ (maxInt : ℚ) then .ok (if 0 ≤ x then x.floor else x.ceil)
    else .error .logicError
  | string _ | array _ | object _ => .error .logicError

theorem bind_ok_iff {ε α β : Type} {x : Except ε α} {f : α → Except ε β} {b : β} :
    (x >>= f) = .ok b ↔ ∃ a, x = .ok a ∧ f a = .ok b := by
  cases x with
  | error e => exact iff_of_false (by rintro ⟨⟩) (by rintro ⟨a, ⟨⟩, -⟩)
  | ok a =>
    constructor
    · exact fun h => ⟨a, rfl, h⟩
    · rintro ⟨_, ⟨⟩, h⟩
      exact h

/-- Members may be asked for. -/
def IsMap : Json → Prop
  | null | object _ => True
  | _ => False

/-- The member under the key, if there is one. -/
def member (v : Json) (key : String) : Option Json :=
  match v with
  | object members => members.lookup key
  | _ => none

/-- `asString` may be used. -/
def Printable : Json → Prop
  | array _ | object _ => False
  | _ => True

/-- `asInt` may be used. -/
def Countable : Json → Prop
  | null | bool _ => True
  | int n => minInt ≤ n ∧ n ≤ maxInt
  | real x => (minInt : ℚ) ≤ x ∧ x ≤ (maxInt : ℚ)
  | _ => False

theorem isMember_eq {v : Json} (h : v.IsMap) (key : String) : v.isMember key = .ok (v.member key).isSome := by
  cases v with
  | null => rfl
  | object members => rfl
  | bool b | int n | real x | string t | array elems => exact absurd h not_false

theorem get_eq {v : Json} (h : v.IsMap) (key : String) : v.get key = .ok ((v.member key).getD .null) := by
  cases v with
  | null => rfl
  | object members => rfl
  | bool b | int n | real x | string t | array elems => exact absurd h not_false

theorem isMember_error {v : Json} (h : ¬v.IsMap) (key : String) : v.isMember key = .error .logicError := by
  cases v with
  | null => exact absurd trivial h
  | object members => exact absurd trivial h
  | bool b | int n | real x | string t | array elems => rfl

theorem get_error {v : Json} (h : ¬v.IsMap) (key : String) : v.get key = .error .logicError := by
  cases v with
  | null => exact absurd trivial h
  | object members => exact absurd trivial h
  | bool b | int n | real x | string t | array elems => rfl

theorem asString_ok_iff {showReal : ℚ → String} {v : Json} : (∃ s, v.asString showReal = .ok s) ↔ v.Printable := by
  cases v with
  | null | bool b | int n | real x | string t => exact iff_of_true ⟨_, rfl⟩ trivial
  | array elems | object members => exact iff_of_false (by rintro ⟨s, ⟨⟩⟩) not_false

theorem asInt_ok_iff {v : Json} : (∃ n, v.asInt = .ok n) ↔ v.Countable := by
  cases v with
  | null | bool b => exact iff_of_true ⟨_, rfl⟩ trivial
  | int n =>
    rw [asInt, Countable]
    split
    · next h => exact iff_of_true ⟨n, rfl⟩ h
    · next h => exact iff_of_false (by rintro ⟨k, ⟨⟩⟩) h
  | real x =>
    rw [asInt, Countable]
    split
    · next h => exact iff_of_true ⟨_, rfl⟩ h
    · next h => exact iff_of_false (by rintro ⟨k, ⟨⟩⟩) h
  | string t | array elems | object members => exact iff_of_false (by rintro ⟨k, ⟨⟩⟩) not_false

end Json
end Myframe
