import Mathlib.Data.List.Count

/-! # Command channels

Two queues of commands, one in each direction between the main loop and the owner of the channel.
-/
namespace Myframe
set_option autoImplicit false

inductive Cmd where
  | kQuit
  | kIdle
  | kWaitForMsg
  | kRun
  | kRunWithMsg
  deriving DecidableEq, Repr

structure CmdChannel where
  toOwner : List Cmd := []
  toMain : List Cmd := []
  deriving DecidableEq, Repr

namespace CmdChannel

def sendToOwner (c : CmdChannel) (cmd : Cmd) : CmdChannel := { c with toOwner := c.toOwner ++ [cmd] }

def sendToMain (c : CmdChannel) (cmd : Cmd) : CmdChannel := { c with toMain := c.toMain ++ [cmd] }

@[simp] theorem sendToOwner_toOwner (c : CmdChannel) (cmd : Cmd) :
    (c.sendToOwner cmd).toOwner = c.toOwner ++ [cmd] := rfl

@[simp] theorem sendToOwner_toMain (c : CmdChannel) (cmd : Cmd) :
    (c.sendToOwner cmd).toMain = c.toMain := rfl

@[simp] theorem sendToMain_toOwner (c : CmdChannel) (cmd : Cmd) :
    (c.sendToMain cmd).toOwner = c.toOwner := rfl

@[simp] theorem sendToMain_toMain (c : CmdChannel) (cmd : Cmd) :
    (c.sendToMain cmd).toMain = c.toMain ++ [cmd] := rfl

end CmdChannel
end Myframe
