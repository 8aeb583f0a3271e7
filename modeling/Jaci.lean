import Jaci.Ast.Escape
import Jaci.Ast.Lines
import Jaci.BufLib.Refinement
import Jaci.Builtins.Bit32
import Jaci.Builtins.Fields
import Jaci.Builtins.PackRoundTrip
import Jaci.Builtins.Quotients
import Jaci.Bundle.Embedded
import Jaci.Bundle.Trailer
import Jaci.Bytecode.Expand
import Jaci.Bytecode.LineInfo
import Jaci.Class.New
import Jaci.Cli.NormalForm
import Jaci.Cli.Resets
import Jaci.Compile.Undo
import Jaci.Config.Aliases
import Jaci.Dense.Maps
import Jaci.Ffi.Calls
import Jaci.Hash.Codecs
import Jaci.Hir.ScalarReplacement
import Jaci.Json.Framing
import Jaci.Json.MsgPack
import Jaci.Lib.DoubleArith
import Jaci.Lib.Probing
import Jaci.Lsp.Rename
import Jaci.Lsp.SemanticTokens
import Jaci.Lsp.Sources
import Jaci.LuaJson.Heap
import Jaci.LuaJson.Height
import Jaci.LuaJson.Printed
import Jaci.LuaJson.Strict
import Jaci.LuaJson.Unicode
import Jaci.Mem.Run
import Jaci.Mir.Guards
import Jaci.Mir.Values
import Jaci.Net.Chunked
import Jaci.Net.Closing
import Jaci.Net.Fragments
import Jaci.Net.Percent
import Jaci.Net.Url
import Jaci.Promise.Combinators
import Jaci.Promise.Settles
import Jaci.Reactor.Callbacks
import Jaci.Reactor.Clock
import Jaci.Reactor.Microtasks
import Jaci.Reactor.Timers
import Jaci.Require.Placeholders
import Jaci.Sccp.ArithPass
import Jaci.Sccp.Settled
import Jaci.Str.World
import Jaci.StrLib.Bounds
import Jaci.StrLib.Leftmost
import Jaci.TabLib.Quick
import Jaci.Table.Failure
import Jaci.Table.Traversal
import Jaci.Task.Delivery
import Jaci.Utf8Lib.Walk
import Jaci.Vfs.RoundTrip
import Jaci.Vfs.Safety
