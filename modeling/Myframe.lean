import Myframe.Library.Transition
import Myframe.Library.RadixLevel
import Myframe.Library.DelayQueue
import Myframe.Library.BurstClock
import Myframe.Library.Repeats
import Myframe.Library.LinkRing
import Myframe.Library.SortedMap
import Myframe.Timer.Refinement
import Myframe.Timer.WorkerTimer
import Myframe.Timer.Early
import Myframe.MsgManager
import Myframe.MsgManager.Modes
import Myframe.Mailbox.Ledger
import Myframe.Scheduler.Serialized
import Myframe.Scheduler.Serial
import Myframe.Actor.WaitQueue
import Myframe.Scheduler.WaitQueue
import Myframe.Scheduler.Idle
import Myframe.Scheduler.Delivery
import Myframe.Scheduler.Batch
import Myframe.UserWorker.System
import Myframe.UserWorker.Weakup
import Myframe.UserWorker.Handshake
import Myframe.EventManager
import Myframe.App.Registry
import Myframe.App.Lifecycle
import Myframe.EventConn.System
import Myframe.App.Instances
import Myframe.App.AddOrder
import Myframe.App.Routing
import Myframe.EventConn.Phase
import Myframe.EventConn.Sound
import Myframe.EventConn.Main
import Myframe.EventConn.Answers
import Myframe.EventConn.Pool
import Myframe.EventConn.Shutdown
import Myframe.EventConn.SendResult
import Myframe.Platform.CmdChannels
import Myframe.Platform.Balance
import Myframe.Actor.Request
import Myframe.Actor.Correlation
import Myframe.Actor.Local
import Myframe.Json
import Myframe.ModManager
import Myframe.App.Application
import Myframe.App.Outcome
import Myframe.App.Addressable
import Myframe.App.InitOrder
import Myframe.Common.SplitMsgName
import Myframe.IntrusiveList.Refinement
import Myframe.Timer.Cascade
import Myframe.ModManager.Libraries
import Myframe.Arguments.RoundTrip
import Myframe.Library.EarlyExit
import Myframe.ModManager.Loading
import Myframe.App.LoadSafe
import Myframe.Library.Rest
import Myframe.Library.TurnQueue
import Myframe.Scheduler.Drain
import Myframe.Library.ActorMachine
import Myframe.Library.Simulation
import Myframe.Scheduler.Atomic
import Myframe.App.LoadService
import Myframe.Launcher.Accepts
import Myframe.Launcher.ModuleArgument
import Myframe.Launcher.Outcome
import Myframe.Launcher.Render
import Myframe.Launcher.Services
import Myframe.EventConn.Once
import Myframe.EventConn.Progress
import Myframe.App.Naming
import Myframe.Timer.Delivery
import Myframe.Timer.Rounds
import Myframe.UserWorker.Delivery
import Myframe.Actor.Publish
import Myframe.Scheduler.Subscribers
