import Myframe.Arguments
import Myframe.Launcher.CommandLine
import Myframe.ModManager

/-! # The arguments of the launcher

What is given on the command line goes before what stands in the configuration file of the framework.
-/
namespace Myframe
set_option autoImplicit false

/-- The number of the process, and the directories that the build has put in. -/
structure Surroundings where
  getpid : ℕ
  logDir : String
  libDir : String
  serviceDir : String
  confDir : String

structure ModuleArgument where
  threadPollSize : Int32 := 4
  connEventSize : Int32 := 2
  warningMsgSize : Int32 := 10
  defaultPendingQueueSize : Int32 := -1
  defaultRunQueueSize : Int32 := 2
  logMaxSizeMb : Int32 := 100
  logDir : String := ""
  libDir : String := ""
  confDir : String := ""
  confList : List String := []
  defaultSysConfDir : String
  cmd : String := ""
  binaryName : String := ""
  processName : String := ""
  parser : Cmdline.Parser String := {}

namespace ModuleArgument

open Cmdline

/-- What ends the launcher before its time: an exit or an error of the parser, or what an accessor throws. -/
abbrev Stop := Halt ⊕ Json.Throw

def stringOption (shortName : Option Char) : OptionBase String := .withValue shortName false some false ""

def make (o : Files) (defaultSysConfDir : String) : Except Halt ModuleArgument := do
  let parser ← Parser.add {} "process-name" (stringOption (some 'p'))
  let parser ← parser.add "sys-conf" (stringOption (some 's'))
  let parser ← parser.add "dir" (stringOption (some 'd'))
  let parser ← parser.add "log-dir" (stringOption none)
  let parser ← parser.add "lib-dir" (stringOption none)
  return { defaultSysConfDir := o.absolutePath defaultSysConfDir, parser := parser }

/-- An integer of the file that passes the check. -/
def readInt (root : Json) (key : String) (accepts : ℤ → Bool) (old : Int32) : Except Json.Throw Int32 := do
  if ← root.isMember key then
    let v ← root.get key
    if v.isInt = true then
      let n ← v.asInt
      return if accepts n then .ofInt n else old
    else return old
  else return old

def readString (showReal : ℚ → String) (root : Json) (key old : String) : Except Json.Throw String := do
  if ← root.isMember key then
    let v ← root.get key
    if v.isString = true then v.asString showReal else return old
  else return old

def isSize (n : ℤ) : Bool := 0 < n && n < 1024

variable (env : Surroundings) (o : Files) (showReal : ℚ → String) (disk : Disk)

def fullSysConf (x : ModuleArgument) (sysConf : String) : String :=
  if Common.isAbsolutePath sysConf = true then sysConf else Common.joinPath x.defaultSysConfDir sysConf

def parseSysConf (x : ModuleArgument) (sysConf : String) : Except Json.Throw (ModuleArgument × Bool) := do
  let root := Common.loadJsonFromFile o disk (x.fullSysConf sysConf)
  if root.isNull || !root.isObject then return (x, false)
  else
    let threadPollSize ← readInt root "thread_poll_size" isSize x.threadPollSize
    let connEventSize ← readInt root "conn_event_size" isSize x.connEventSize
    let warningMsgSize ← readInt root "warning_msg_size" isSize x.warningMsgSize
    let logDir ← readString showReal root "log_dir" x.logDir
    let libDir ← readString showReal root "lib_dir" x.libDir
    let confDir ← readString showReal root "service_dir" x.confDir
    let defaultPendingQueueSize ← readInt root "default_pending_queue_size" (fun _ => true) x.defaultPendingQueueSize
    let defaultRunQueueSize ← readInt root "default_run_queue_size" (fun _ => true) x.defaultRunQueueSize
    let logMaxSizeMb ← readInt root "log_max_size_mb" (fun _ => true) x.logMaxSizeMb
    return ({ x with
      threadPollSize := threadPollSize
      connEventSize := connEventSize
      warningMsgSize := warningMsgSize
      logDir := logDir
      libDir := libDir
      confDir := confDir
      defaultPendingQueueSize := defaultPendingQueueSize
      defaultRunQueueSize := defaultRunQueueSize
      logMaxSizeMb := logMaxSizeMb }, true)

/-- `ParseArgument` goes in four parts: the command line, the name of the process, the configuration file and the
directories. -/
def takeProcessName (x : ModuleArgument) : Except Stop ModuleArgument := do
  let processName ← (x.parser.get "process-name").mapError .inl
  return { x with processName := if processName ≠ "" then processName else x.processName }

def takeSysConf (x : ModuleArgument) : Except Stop ModuleArgument := do
  let sysConf ← (x.parser.get "sys-conf").mapError .inl
  if sysConf ≠ "" then
    let r ← (x.parseSysConf o showReal disk sysConf).mapError Sum.inr
    if r.2 = true then return r.1 else .error (.inl (.exit (-1)))
  else return x

def takeDirs (x : ModuleArgument) : Except Stop ModuleArgument := do
  let dir ← (x.parser.get "dir").mapError .inl
  let logDir ← (x.parser.get "log-dir").mapError .inl
  let libDir ← (x.parser.get "lib-dir").mapError .inl
  return { x with
    confDir := if dir ≠ "" then dir else x.confDir
    logDir := if logDir ≠ "" then logDir else x.logDir
    libDir := if libDir ≠ "" then libDir else x.libDir
    confList := x.confList ++ x.parser.others }

def parseArgument (x : ModuleArgument) (argv0 : String) (args : List String) : Except Stop ModuleArgument := do
  let x := { x with
    binaryName := Common.filename argv0
    processName := Common.filename argv0 ++ "_" ++ toString env.getpid
    cmd := (argv0 :: args).foldl (fun cmd arg => cmd ++ arg ++ " ") "" }
  let parser ← (x.parser.parseCheck (argv0 :: args)).mapError .inl
  let x ← { x with parser := parser }.takeProcessName
  (← x.takeSysConf o showReal disk).takeDirs

end ModuleArgument

/-- What `main` hands on: the calls of `InitLog` and of `Init`, and what to load. -/
structure Launch where
  logDir : String
  processName : String
  logMaxSizeMb : Int32
  args : Arguments
  serviceDir : String
  confFiles : List String

namespace Launch

/-- A directory of the arguments, or the one that the build has put in. -/
def dirOf (o : Files) (given builtIn : String) : String := o.absolutePath (if given = "" then builtIn else given)

def ofModuleArgument (env : Surroundings) (o : Files) (x : ModuleArgument) : Launch :=
  let serviceDir := dirOf o x.confDir env.serviceDir
  let args := Arguments.setStr [] argKeyServiceLibDir (dirOf o x.libDir env.libDir)
  let args := Arguments.setInt args argKeyThreadPoolSize x.threadPollSize
  let args := Arguments.setInt args argKeyEventConneSize x.connEventSize
  let args := Arguments.setInt args argKeyWarningMsgSize x.warningMsgSize
  let args := Arguments.setInt args argKeyPendingQueueSize x.defaultPendingQueueSize
  let args := Arguments.setInt args argKeyRunQueueSize x.defaultRunQueueSize
  { logDir := dirOf o x.logDir env.logDir
    processName := x.processName
    logMaxSizeMb := x.logMaxSizeMb
    args := args
    serviceDir := serviceDir
    confFiles := x.confList.map fun conf =>
      if Common.isAbsolutePath conf = true then conf else Common.joinPath serviceDir conf }

/-- `main` up to `Init`. -/
def main (env : Surroundings) (o : Files) (showReal : ℚ → String) (disk : Disk) (argv0 : String)
    (args : List String) : Except ModuleArgument.Stop Launch := do
  let x ← (ModuleArgument.make o env.confDir).mapError Sum.inl
  return ofModuleArgument env o (← x.parseArgument env o showReal disk argv0 args)

end Launch
end Myframe
