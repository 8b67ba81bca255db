import Mathlib.Data.String.Basic

/-! # Addresses and paths -/
namespace Myframe
set_option autoImplicit false

namespace Common

/-- The scan of `SplitMsgName`: `token` is what has been read since the last dot. -/
def splitLoop : List Char → List Char → List (List Char)
  | token, [] => [token]
  | token, c :: cs => if c = '.' then token :: splitLoop [] cs else splitLoop (token ++ [c]) cs

/-- The last token is pushed inside the loop, at the last character: no character, no token. -/
def splitMsgName (name : String) : List String :=
  if name.toList = [] then [] else (splitLoop [] name.toList).map String.ofList

/-- `path::filename()`. -/
def filename (path : String) : String :=
  String.ofList (path.toList.reverse.takeWhile (· ≠ '/')).reverse

/-- `dir / path`. -/
def joinPath (dir path : String) : String :=
  if path.toList.head? = some '/' then path
  else if filename dir = "" then dir ++ path
  else dir ++ "/" ++ path

def isAbsolutePath (path : String) : Bool := path.toList.head? = some '/'

/-- `workRoot` is what `GetWorkRoot` returns. -/
def getAbsolutePath (workRoot flagPath : String) : String :=
  if isAbsolutePath flagPath = true then flagPath
  else if workRoot = "" then flagPath
  else joinPath workRoot flagPath

def DotFree (s : String) : Prop := '.' ∉ s.toList

instance (s : String) : Decidable (DotFree s) := inferInstanceAs (Decidable (¬ _))

theorem splitLoop_dotFree (token part : List Char) (hPart : '.' ∉ part) (rest : List Char) :
    splitLoop token (part ++ '.' :: rest) = (token ++ part) :: splitLoop [] rest := by
  induction part generalizing token with
  | nil => simp [splitLoop]
  | cons c cs ih =>
    obtain ⟨hc, hcs⟩ := not_or.mp (fun h => hPart (List.mem_cons.mpr h))
    rw [List.cons_append, splitLoop, if_neg (Ne.symm hc), ih _ hcs, List.append_assoc]
    rfl

theorem splitLoop_last (token part : List Char) (hPart : '.' ∉ part) :
    splitLoop token part = [token ++ part] := by
  induction part generalizing token with
  | nil => simp [splitLoop]
  | cons c cs ih =>
    obtain ⟨hc, hcs⟩ := not_or.mp (fun h => hPart (List.mem_cons.mpr h))
    rw [splitLoop, if_neg (Ne.symm hc), ih _ hcs, List.append_assoc]
    rfl

theorem toString_injective {m n : ℕ} (h : toString m = toString n) : m = n := by
  have hDigits : Nat.toDigits 10 m = Nat.toDigits 10 n := by
    rw [← Nat.toList_repr, ← Nat.toList_repr]
    exact congrArg String.toList h
  rw [← @Nat.ofDigitChars_ten_toDigits m, hDigits, Nat.ofDigitChars_ten_toDigits]

/-- The address of a component, `a.b.c` with no further dots. -/
def address (a b c : String) : String := a ++ "." ++ b ++ "." ++ c

theorem address_toList (a b c : String) :
    (address a b c).toList = a.toList ++ '.' :: (b.toList ++ '.' :: c.toList) := by
  simp [address, String.toList_append]

theorem address_ne_empty (a b c : String) : address a b c ≠ "" := by
  intro hEmpty
  have hList := congrArg String.toList hEmpty
  simp [address_toList] at hList

theorem splitMsgName_address {a b c : String} (ha : DotFree a) (hb : DotFree b) (hc : DotFree c) :
    splitMsgName (address a b c) = [a, b, c] := by
  have hNe : (address a b c).toList ≠ [] := by simp [address_toList]
  rw [splitMsgName, if_neg hNe, address_toList, splitLoop_dotFree [] _ ha, splitLoop_dotFree [] _ hb,
    splitLoop_last [] _ hc]
  simp

theorem splitLoop_length (token cs : List Char) : (splitLoop token cs).length = cs.count '.' + 1 := by
  induction cs generalizing token with
  | nil => rfl
  | cons c cs ih =>
    rw [splitLoop]
    split
    · next hDot => rw [List.length_cons, ih, hDot, List.count_cons_self]
    · next hOther => rw [ih, List.count_cons_of_ne hOther]

theorem splitMsgName_length {name : String} (h : name.toList ≠ []) :
    (splitMsgName name).length = name.toList.count '.' + 1 := by
  rw [splitMsgName, if_neg h, List.length_map, splitLoop_length]

/-- An address has three parts just where there is no dot in them. -/
theorem splitMsgName_address_length {a b c : String} (ha : DotFree a) :
    (splitMsgName (address a b c)).length = 3 ↔ DotFree b ∧ DotFree c := by
  have hNe : (address a b c).toList ≠ [] := by simp [address_toList]
  have hNone : a.toList.count '.' = 0 := List.count_eq_zero.mpr ha
  rw [splitMsgName_length hNe, address_toList, List.count_append, List.count_cons_self, List.count_append,
    List.count_cons_self, hNone, DotFree, DotFree, ← List.count_eq_zero, ← List.count_eq_zero]
  omega

end Common
end Myframe
