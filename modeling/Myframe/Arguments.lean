import Myframe.Common
import Myframe.Json
import Myframe.Library.SortedMap
import Mathlib.Data.String.Basic
import Mathlib.Logic.Function.Basic

/-! # Arguments, their file and the settings of the application -/
namespace Myframe
set_option autoImplicit false

inductive ArgType where
  | kArgString
  | kArgInteger
  | kArgNull
  deriving DecidableEq, Repr

/-- A value that is not set is never read. -/
structure Argument where
  type : ArgType
  key : String
  valueInt : Int32 := 0
  valueStr : String := ""
  deriving DecidableEq, Repr

abbrev Arguments := List Argument

/-- The content of the files. -/
abbrev Disk := String → Option String

/-- jsoncpp's writer and its strict reader, and the file system: `write` is what opening a file, truncating it and
writing into it leaves, and whether it went well; `workRoot` is the directory the library is installed in. -/
structure Files where
  toStyledString : Json → String
  parse : String → Option Json
  write : Disk → String → String → Disk × Bool
  workRoot : String

def Files.absolutePath (o : Files) (path : String) : String := Common.getAbsolutePath o.workRoot path

namespace Json

def isInt : Json → Bool
  | int n => minInt ≤ n && n ≤ maxInt
  | real x => (minInt : ℚ) ≤ x && x ≤ (maxInt : ℚ) && x.isInt
  | _ => false

/-- The assignment `v[key] = x`; the members are in the order of their keys. -/
def set (v : Json) (key : String) (x : Json) : Except Throw Json :=
  match v with
  | null => .ok (object [(key, x)])
  | object members => .ok (object (SortedMap.put key x members))
  | _ => .error .logicError

end Json

namespace Common

def loadJsonFromFile (o : Files) (disk : Disk) (jsonFile : String) : Json :=
  ((disk jsonFile).bind o.parse).getD .null

def saveFile (o : Files) (disk : Disk) (filepath data : String) : Disk × Bool := o.write disk filepath data

end Common

namespace Arguments

def setStr (args : Arguments) (key value : String) : Arguments :=
  args ++ [{ type := .kArgString, key := key, valueStr := value }]

def setInt (args : Arguments) (key : String) (value : Int32) : Arguments :=
  args ++ [{ type := .kArgInteger, key := key, valueInt := value }]

/-- One turn of the loop of `Load`. -/
def loadArg (showReal : ℚ → String) (root : Json) (args : Arguments) (argKey : String) :
    Except Json.Throw Arguments := do
  let argValue ← root.get argKey
  if argValue.isInt then
    return args ++ [{ type := .kArgInteger, key := argKey, valueInt := .ofInt (← argValue.asInt) }]
  else if argValue.isString then
    return args ++ [{ type := .kArgString, key := argKey, valueStr := ← argValue.asString showReal }]
  else return args

def load (o : Files) (showReal : ℚ → String) (disk : Disk) (args : Arguments) (filepath : String) :
    Except Json.Throw (Arguments × Bool) := do
  let root := Common.loadJsonFromFile o disk filepath
  if root.isNull then return (args, false)
  else return ((← (← root.getMemberNames).foldlM (loadArg showReal root) args), true)

/-- One turn of the loop of `Save`. -/
def saveArg (root : Json) (arg : Argument) : Except Json.Throw Json := do
  let root ← if arg.type = .kArgInteger then root.set arg.key (.int arg.valueInt.toInt) else pure root
  if arg.type = .kArgString then root.set arg.key (.string arg.valueStr) else pure root

def saveRoot (args : Arguments) : Except Json.Throw Json := args.foldlM saveArg .null

def save (o : Files) (disk : Disk) (args : Arguments) (filepath : String) : Except Json.Throw (Disk × Bool) := do
  return Common.saveFile o disk filepath (o.toStyledString (← args.saveRoot))

end Arguments

def argKeyServiceLibDir : String := "app.lib_dir"
def argKeyThreadPoolSize : String := "app.thread_pool_size"
def argKeyWarningMsgSize : String := "app.warning_msg_size"
def argKeyPendingQueueSize : String := "app.pending_queue_size"
def argKeyRunQueueSize : String := "app.run_queue_size"
def argKeyEventConneSize : String := "app.event_conn_size"

/-- The locals of `App::Init` that are scanned for. -/
@[ext]
structure Settings where
  libDir : String := "lib"
  threadPoolSize : Int32 := 4
  eventConnSize : Int32 := 2
  warningMsgSize : Int32 := 10
  defaultPendingQueueSize : Int32 := -1
  defaultRunQueueSize : Int32 := 2
  deriving DecidableEq, Repr

namespace Settings

/-- One turn of the loop over the arguments in `App::Init`. -/
def scanArg (s : Settings) (arg : Argument) : Settings :=
  let s := if arg.type = .kArgString then
      if arg.key = argKeyServiceLibDir then { s with libDir := arg.valueStr } else s
    else s
  if arg.type = .kArgInteger then
    let valueInt := arg.valueInt
    let s := if arg.key = argKeyThreadPoolSize then { s with threadPoolSize := valueInt } else s
    let s := if arg.key = argKeyWarningMsgSize then { s with warningMsgSize := valueInt } else s
    let s := if arg.key = argKeyPendingQueueSize then { s with defaultPendingQueueSize := valueInt } else s
    let s := if arg.key = argKeyRunQueueSize then { s with defaultRunQueueSize := valueInt } else s
    if arg.key = argKeyEventConneSize then { s with eventConnSize := valueInt } else s
  else s

/-- What `App::Init` takes from its arguments: the directory as the path that `GetAbsolutePath` makes of it. -/
def ofArguments (o : Files) (args : Arguments) : Settings :=
  let s := args.foldl scanArg {}
  { s with libDir := o.absolutePath s.libDir }

end Settings
end Myframe
