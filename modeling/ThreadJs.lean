import ThreadJs.Lib.Machine
import ThreadJs.Lib.Simulation
import ThreadJs.Lib.Parties
import ThreadJs.Lib.Chain
import ThreadJs.Lib.Table
import ThreadJs.Lib.Utf8
import ThreadJs.Lib.Json.Lex
import ThreadJs.Lib.Json.Parse
import ThreadJs.Lib.Json.Print
import ThreadJs.Lib.Json.Chars
import ThreadJs.Lib.Js.Number
import ThreadJs.Lib.Js.Object
import ThreadJs.Lib.Js.Heap
import ThreadJs.Lib.Js.Source
import ThreadJs.Lib.Js.Strings
import ThreadJs.Lib.Js.Lines
import ThreadJs.Lib.Js.CString
import ThreadJs.Events.Emitter
import ThreadJs.Events.Registry
import ThreadJs.Events.Walk
import ThreadJs.Events.Refinement
import ThreadJs.Events.Count
import ThreadJs.Events.Apart
import ThreadJs.Events.Reentrant
import ThreadJs.Events.Held
import ThreadJs.Events.Nested
import ThreadJs.Events.Throwing
import ThreadJs.Events.Realm
import ThreadJs.Events.Names
import ThreadJs.Filter.CreateFilter
import ThreadJs.Rpc.Proxy
import ThreadJs.Rpc.Correlation
import ThreadJs.Rpc.Failures
import ThreadJs.Exports.Script
import ThreadJs.Exports.Quoting
import ThreadJs.Exports.Calls
import ThreadJs.Exports.Reachable
import ThreadJs.Mailbox.HandOver
import ThreadJs.Mailbox.Steady
import ThreadJs.Mailbox.Teardown
import ThreadJs.Mailbox.Closed
import ThreadJs.Mailbox.Connection
import ThreadJs.Message.Typed
import ThreadJs.Message.Registration
import ThreadJs.Message.CreateNode
import ThreadJs.Message.ErrorReport
import ThreadJs.Message.Exchange
import ThreadJs.Wait.WaitThread
import ThreadJs.Wait.LostWakeUp
import ThreadJs.Wait.Pairing
import ThreadJs.Wait.Buffer
import ThreadJs.Wait.RoundTrip
import ThreadJs.Wait.Spurious
import ThreadJs.Script.DoScript
import ThreadJs.Script.Idle
import ThreadJs.Script.LifeCycle
import ThreadJs.Script.StopLoop
import ThreadJs.Script.StopEarly
import ThreadJs.Script.UseTime
import ThreadJs.Registry.ObjectMap
import ThreadJs.Registry.Balance
import ThreadJs.Registry.ThreadId
import ThreadJs.Timers.Pool
import ThreadJs.Timers.Ownership
import ThreadJs.Timers.History
import ThreadJs.Timers.Effect
import ThreadJs.Timers.Sound
import ThreadJs.Timers.TickOrder
import ThreadJs.Timers.ComeRound
import ThreadJs.Timers.TickQueue
import ThreadJs.Timers.Cleared
import ThreadJs.Timers.Kinds
import ThreadJs.Timers.Identifiers
import ThreadJs.Serialize.Value
import ThreadJs.Serialize.RoundTrip
import ThreadJs.Serialize.Normal
import ThreadJs.Template.Parse
import ThreadJs.Template.Recognition
import ThreadJs.Template.Instance
import ThreadJs.Warp.Files
import ThreadJs.Warp.Source
import ThreadJs.Warp.UserLines
import ThreadJs.Report.Builder
import ThreadJs.Report.ErrorEvent
import ThreadJs.Report.Tree
import ThreadJs.Report.MultLine
import ThreadJs.Message.Envelope
import ThreadJs.Message.Boot
import ThreadJs.Cli.Repl
import ThreadJs.Lib.Graph
import ThreadJs.Message.Circular
import ThreadJs.Serialize.Shared
import ThreadJs.Lib.Json.Numeral
import ThreadJs.Rpc.Halves
import ThreadJs.Rpc.Remote
import ThreadJs.Rpc.EndToEnd
import ThreadJs.Rpc.Console
import ThreadJs.Wait.Barrier
import ThreadJs.Script.EndsItself
import ThreadJs.Script.Pooled
import ThreadJs.Lib.Heap
import ThreadJs.Mailbox.Buffers
import ThreadJs.Serialize.Serialized
