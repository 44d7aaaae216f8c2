import Rustrapper.Lua.Unwind
import Rustrapper.Lua.Buffers
import Rustrapper.Lua.Isolation
import Rustrapper.Lua.Arena
import Rustrapper.Lua.Grammar
import Rustrapper.Lua.Tokens
import Rustrapper.Lua.Death
import Rustrapper.Lua.Continue
import Rustrapper.Rom.Image
import Rustrapper.Bios.Memory
import Rustrapper.Net.Receive
import Rustrapper.Net.Parsers
import Rustrapper.Net.Transfer
import Rustrapper.Bios.Pci
import Rustrapper.Bios.Handles
import Rustrapper.Native.Shelf
import Rustrapper.Lua.Tables
import Rustrapper.Codec.Words
import Rustrapper.Lua.Pack
import Rustrapper.Lua.RoundTrip
import Rustrapper.Arith.Progression
import Rustrapper.Lua.ForIn
import Rustrapper.Lua.Globals
import Rustrapper.Lua.ListKeys
import Rustrapper.Lua.ListLength
import Rustrapper.Lua.Loops
import Rustrapper.Lua.Move
import Rustrapper.Lua.Method
import Rustrapper.Lua.Writing
import Rustrapper.Effect.Raises
import Rustrapper.Lua.Agreement
import Rustrapper.Lua.Captures
import Rustrapper.Lua.Enumeration
import Rustrapper.Lua.Integers
import Rustrapper.Lua.Items
import Rustrapper.Arith.Binary64
import Rustrapper.Arith.FloatOps
import Rustrapper.Arith.Remainder
import Rustrapper.Lua.Modulo
import Rustrapper.Arith.Scientific
import Rustrapper.Codec.Layout
import Rustrapper.Codec.Text
import Rustrapper.Lua.BaseNumbers
import Rustrapper.Lua.Format
import Rustrapper.Lua.PackSize
import Rustrapper.Lua.Quote
import Rustrapper.Lua.SciText
import Rustrapper.Lua.UnpackSafe
import Rustrapper.Net.Answers
import Rustrapper.Net.Lease
import Rustrapper.Net.Oack
import Rustrapper.Lua.FormatFloat
import Rustrapper.Lua.StringFormat
import Rustrapper.Net.Datagram
import Rustrapper.Uefi.LoadOption
import Rustrapper.Bios.Request
import Rustrapper.Uefi.DevicePath
import Rustrapper.Boot.Elf
import Rustrapper.Native.Lines
import Rustrapper.Lua.Io
import Rustrapper.Net.IpLiteral
import Rustrapper.Repl.Keys
import Rustrapper.Repl.Chunk
import Rustrapper.Repl.Editing
import Rustrapper.Repl.Screen
import Rustrapper.Bios.Enable
import Rustrapper.Lua.Preservation
import Rustrapper.Lua.ReadBack
