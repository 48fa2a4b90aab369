import LuaIde.ArmedLines
import LuaIde.BreakpointAdapter
import LuaIde.BreakpointHit
import LuaIde.BreakpointSet
import LuaIde.ChunkSafety
import LuaIde.CommandWords
import LuaIde.Console
import LuaIde.DataStack
import LuaIde.EnabledActions
import LuaIde.EventDispatch
import LuaIde.EventStream
import LuaIde.FailedQueries
import LuaIde.Framing
import LuaIde.GlobalsComposition
import LuaIde.GlobalsRoundTrip
import LuaIde.Interference
import LuaIde.LineIndices
import LuaIde.LineStops
import LuaIde.LocalIdentity
import LuaIde.LocalValue
import LuaIde.LockStep
import LuaIde.LostUpdates
import LuaIde.LuaTableLength
import LuaIde.LuaTableTraversal
import LuaIde.LuaTableView
import LuaIde.MalformedLines
import LuaIde.PartitionScanner
import LuaIde.ReplyBuffers
import LuaIde.ScriptErrors
import LuaIde.Snapshot
import LuaIde.SocketChannel
import LuaIde.StackRoundTrip
import LuaIde.SuspendAgreement
import LuaIde.SuspendRequest
import LuaIde.ThreadListeners
import LuaIde.Traceback
import LuaIde.Undisturbed
import LuaIde.ValueEquality
import LuaIde.WordFinder
