import Myframe.Library.Lookahead
import Myframe.Library.SortedMap
import Mathlib.Data.String.Basic

/-! # The parser of the command line

An argument is a C string; a letter of it stands for a byte.
-/
namespace Myframe
namespace Cmdline
set_option autoImplicit false

/-- An option by its letter, if it has one. The reader refuses what it would throw on. -/
inductive OptionBase (V : Type) where
  | withoutValue (shortName : Option Char) (has : Bool)
  | withValue (shortName : Option Char) (need : Bool) (read : String → Option V) (has : Bool) (actual : V)

/-- How a call of the parser ends otherwise than by returning. -/
inductive Halt where
  | exit (code : ℤ)
  | cmdlineError (what : String)
  deriving DecidableEq, Repr

variable {V : Type}

namespace OptionBase

def shortName : OptionBase V → Option Char
  | withoutValue c _ => c
  | withValue c _ _ _ _ => c

def hasValue : OptionBase V → Bool
  | withoutValue _ _ => false
  | withValue _ _ _ _ _ => true

def hasSet : OptionBase V → Bool
  | withoutValue _ has => has
  | withValue _ _ _ has _ => has

def valid : OptionBase V → Bool
  | withoutValue _ _ => true
  | withValue _ need _ has _ => !need || has

def set : OptionBase V → Option (OptionBase V)
  | withoutValue c _ => some (withoutValue c true)
  | withValue _ _ _ _ _ => none

/-- `set` of a value. -/
def setTo (value : String) : OptionBase V → Option (OptionBase V)
  | withoutValue _ _ => none
  | withValue c need read _ _ => (read value).map fun actual => withValue c need read true actual

end OptionBase

/-- The options are a map, from the names. -/
@[ext]
structure Parser (V : Type) where
  options : List (String × OptionBase V) := []
  sorted : SortedMap.Sorted options := by exact List.Pairwise.nil
  others : List String := []
  errors : List String := []

namespace Parser

def report (p : Parser V) (error : String) : Parser V := { p with errors := p.errors ++ [error] }

def putOption (p : Parser V) (name : String) (o : OptionBase V) : Parser V :=
  { p with options := SortedMap.put name o p.options, sorted := p.sorted.put name o }

def add (p : Parser V) (name : String) (o : OptionBase V) : Except Halt (Parser V) :=
  if (p.options.lookup name).isSome then .error (.cmdlineError ("multiple definition: " ++ name))
  else .ok (p.putOption name o)

def exist (p : Parser V) (name : String) : Except Halt Bool :=
  match p.options.lookup name with
  | none => .error (.cmdlineError ("there is no flag: --" ++ name))
  | some o => .ok o.hasSet

def get (p : Parser V) (name : String) : Except Halt V :=
  match p.options.lookup name with
  | none => .error (.cmdlineError ("there is no flag: --" ++ name))
  | some (.withoutValue _ _) => .error (.cmdlineError ("type mismatch flag '" ++ name ++ "'"))
  | some (.withValue _ _ _ _ actual) => .ok actual

def setOption (p : Parser V) (name : String) : Parser V :=
  match p.options.lookup name with
  | none => p.report ("undefined option: --" ++ name)
  | some o =>
    match o.set with
    | none => p.report ("option needs value: --" ++ name)
    | some o => p.putOption name o

/-- `set_option` with a value. -/
def setOptionTo (p : Parser V) (name value : String) : Parser V :=
  match p.options.lookup name with
  | none => p.report ("undefined option: --" ++ name)
  | some o =>
    match o.setTo value with
    | none => p.report ("option value is invalid: --" ++ name ++ "=" ++ value)
    | some o => p.putOption name o

/-- The table of the letters, or one that two options have. -/
def shortNames : List (String × OptionBase V) → List (Char × String) → Except Char (List (Char × String))
  | [], lookup => .ok lookup
  | (name, o) :: rest, lookup =>
    if name = "" then shortNames rest lookup
    else
      match o.shortName with
      | none => shortNames rest lookup
      | some initial =>
        if (lookup.lookup initial).isSome then .error initial
        else shortNames rest (SortedMap.put initial name lookup)

/-- An argument after its two dashes. -/
def longArg (p : Parser V) (text : List Char) (next : Option String) : Parser V × Bool :=
  match text.dropWhile (· ≠ '=') with
  | _ :: val => (p.setOptionTo (.ofList (text.takeWhile (· ≠ '='))) (.ofList val), false)
  | [] =>
    let name := String.ofList text
    match p.options.lookup name with
    | none => (p.report ("undefined option: --" ++ name), false)
    | some o =>
      if o.hasValue = true then
        match next with
        | none => (p.report ("option needs value: --" ++ name), false)
        | some value => (p.setOptionTo name value, true)
      else (p.setOption name, false)

/-- The option of a letter, or what is reported of it. In the table `""` stands for a letter of two options. -/
def shortOption (lookup : List (Char × String)) (c : Char) : Except String String :=
  match lookup.lookup c with
  | none => .error ("undefined short option: -" ++ c.toString)
  | some name => if name = "" then .error ("ambiguous short option: -" ++ c.toString) else .ok name

/-- An argument after its dash: the letters before the last are set, the last may take the next argument. -/
def shortArg (lookup : List (Char × String)) (next : Option String) : Parser V → Char → List Char → Parser V × Bool
  | p, last, [] =>
    match shortOption lookup last with
    | .error e => (p.report e, false)
    | .ok name =>
      match next, (p.options.lookup name).any OptionBase.hasValue with
      | some value, true => (p.setOptionTo name value, true)
      | _, _ => (p.setOption name, false)
  | p, last, c :: cs =>
    match shortOption lookup last with
    | .error e => shortArg lookup next (p.report e) c cs
    | .ok name => shortArg lookup next (p.setOption name) c cs

/-- One turn of the loop over the arguments, and whether it has skipped the next one. -/
def turn (lookup : List (Char × String)) (p : Parser V) (arg : String) (next : Option String) : Parser V × Bool :=
  if arg.toList.take 2 = ['-', '-'] then p.longArg (arg.toList.drop 2) next
  else if arg.toList.take 1 = ['-'] then
    match arg.toList.drop 1 with
    | [] => (p, false)
    | c :: cs => p.shortArg lookup next c cs
  else ({ p with others := p.others ++ [arg] }, false)

/-- The loop over the options that may be needed. -/
def checkNeeded (p : Parser V) : Parser V :=
  p.options.foldl (fun q e => if e.2.valid = true then q else q.report ("need option: --" ++ e.1)) p

def clear (p : Parser V) : Parser V := { p with others := [], errors := [] }

def parse (p : Parser V) (argv : List String) : Parser V × Bool :=
  match argv with
  | [] => (p.clear.report "argument number must be longer than 0", false)
  | _ :: args =>
    match shortNames p.options [] with
    | .error initial => (p.clear.report ("short option '" ++ initial.toString ++ "' is ambiguous"), false)
    | .ok lookup =>
      let q := (Lookahead.scan (turn lookup) p.clear args).checkNeeded
      (q, q.errors = [])

/-- The usage that goes out with an exit is left out. -/
def check (p : Parser V) (argc : ℕ) (ok : Bool) : Except Halt (Parser V) := do
  if (argc = 1 && !ok) || (← p.exist "help") then .error (.exit 0)
  else if !ok then .error (.exit 1)
  else return p

def parseCheck (p : Parser V) (argv : List String) : Except Halt (Parser V) := do
  let p ← if (p.options.lookup "help").isSome then pure p else p.add "help" (.withoutValue (some '?') false)
  (p.parse argv).1.check argv.length (p.parse argv).2

end Parser
end Cmdline
end Myframe
