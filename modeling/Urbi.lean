import Urbi.Lib.StateExcept
import Urbi.Lib.Cursor
import Urbi.Lib.Binary64
import Urbi.Chunk.Opcode
import Urbi.Chunk.Proto
import Urbi.Chunk.Verify
import Urbi.Chunk.WellFormed
import Urbi.Chunk.Varint
import Urbi.Chunk.Serialize
import Urbi.Chunk.Deserialize
import Urbi.Chunk.Lengths
import Urbi.Chunk.RoundTrip
import Urbi.Rt.Value
import Urbi.Rt.Strand
import Urbi.Rt.Unwind
import Urbi.Rt.Dispatch
import Urbi.Rt.Machine
import Urbi.Rt.Typing
import Urbi.Rt.Arms
import Urbi.Rt.Preserve
import Urbi.Rt.Invariant
import Urbi.Rt.Sound
import Urbi.Rt.Park
import Urbi.Rt.Stop
import Urbi.Rt.Control
import Urbi.Rt.Pending
import Urbi.Rt.Outward
import Urbi.Rt.Cancel
import Urbi.Rt.Gates
import Urbi.Emit.Ast
import Urbi.Emit.State
import Urbi.Emit.Expr
import Urbi.Emit.Ctrl
import Urbi.Emit.Compile
import Urbi.Emit.Capture
import Urbi.Emit.Tables
import Urbi.Emit.Arms
import Urbi.Emit.Loads
import Urbi.Lib.Search
import Urbi.Obj.Heap
import Urbi.Obj.Resolve
import Urbi.Obj.Access
import Urbi.Obj.Watched
import Urbi.Lib.Heap
import Urbi.Lib.Linked
import Urbi.Sched.Queue
import Urbi.Sched.World
import Urbi.Sched.Machine
import Urbi.Chunk.Reserialize
import Urbi.Chunk.Declared
import Urbi.Rt.Join
import Urbi.Gc.Collect
import Urbi.Gc.Exact
import Urbi.Gc.Mutator
import Urbi.Obj.Discipline
import Urbi.Obj.Names
import Urbi.Obj.Sealed
import Urbi.Obj.Change
import Urbi.Obj.Slots
import Urbi.Obj.Coherent
import Urbi.Sched.Quiet
import Urbi.Sched.Whenever
import Urbi.Isr.Exact
import Urbi.Repl.Frame
import Urbi.Repl.Ndjson
import Urbi.Repl.Dispatch
import Urbi.Rt.Frames
import Urbi.Obj.Store
import Urbi.Obj.Escape
import Urbi.Sched.Lists
import Urbi.Sched.Walk
import Urbi.Sched.FanOut
import Urbi.Sched.Drain
import Urbi.Obj.Preorder
import Urbi.Obj.Stamp
import Urbi.Sched.Timers
import Urbi.Rt.Compare
import Urbi.Lib.Assoc
import Urbi.Rt.Dict
import Urbi.Lib.Buckets
import Urbi.Rt.Intern
import Urbi.Rt.Upvals
import Urbi.Gc.Raw
import Urbi.Lex.Lexer
import Urbi.Lex.Hidden
import Urbi.Lex.Syncline
import Urbi.Lex.Literals
import Urbi.Lex.Integers
import Urbi.Stdlib.Sort
import Urbi.Stdlib.Split
import Urbi.Parse.Separators
import Urbi.Lib.Json
import Urbi.Repl.Request
import Urbi.Repl.Sweep
import Urbi.Stdlib.Regexp
import Urbi.Emit.Lines
import Urbi.Util.Arena
import Urbi.Port.Allocator
