import Elua.Foundation.TransitionSystem
import Elua.Foundation.Channel
import Elua.Foundation.Transducer
import Elua.Buf.Interleaving
import Elua.Sermux.MuxServer
import Elua.Sermux.BoardToPc
import Elua.Sermux.PcToBoard
import Elua.Romfs.OpenFailure
import Elua.Romfs.FlashDiscipline
import Elua.Romfs.EntrySizes
import Elua.Romfs.FileMap
import Elua.Romfs.Mkfs
import Elua.Salloc.HeapRuns
import Elua.Uart.HandlerChain
import Elua.Interrupts.HookRuns
import Elua.Rfs.LateResponses
import Elua.Sermux.Resync
import Elua.Foundation.Layout
import Elua.Lua.Proto
import Elua.Lua.Bytecode
import Elua.Lua.Undump
import Elua.Lua.UndumpReads
import Elua.Devman.Registry
import Elua.Devman.Descriptors
import Elua.Devman.PathResolution
import Elua.Romfs.DirHandles
import Elua.Timers.ElapsedTime
import Elua.Timers.Systimer
import Elua.Timers.VirtualTimer
import Elua.Timers.MatchInterrupts
import Elua.Timers.MatchRuns
import Elua.Lua.Number
import Elua.Lua.Rotable
import Elua.Lua.Collector
import Elua.Lua.MemoryLimit
import Elua.Shell.CopyMove
import Elua.Foundation.FloatFormat
import Elua.LuaRpc.Numbers
import Elua.LuaRpc.Negotiation
import Elua.LuaRpc.Values
import Elua.LuaRpc.ValueRoundTrip
import Elua.Salloc.RequestSizes
import Elua.Newlib.Sbrk
import Elua.Newlib.SbrkRuns
import Elua.Uip.AppCall
import Elua.Uip.Send
import Elua.Uip.Reading
import Elua.Uip.Receive
import Elua.Uip.Telnet
import Elua.Uip.Accept
import Elua.Foundation.CyclicRedundancy
import Elua.Xmodem.Receiver
import Elua.Xmodem.Reception
import Elua.Rfs.PacketReaders
import Elua.Rfs.PacketBounds
import Elua.Romfs.FileNames
import Elua.Build.Rebuilding
import Elua.Build.Incremental
import Elua.Sermux.ServiceTable
import Elua.Timers.PeriodConversion
import Elua.Buf.Resizing
import Elua.Lua.DumpPlan
import Elua.LuaRpc.SerialPeek
import Elua.Lua.DumpFailures
import Elua.Lua.HeaderAcceptance
import Elua.Lua.CrossCompile
import Elua.LuaRpc.StackAgreement
import Elua.LuaRpc.StackBalance
import Elua.Foundation.Parts
import Elua.Rfs.ChunkedTransfers
import Elua.Rfs.ChunkedParts
import Elua.Rfs.ChunkedResults
import Elua.Rfs.MuxRequests
import Elua.Rfs.FullNames
import Elua.Foundation.Buckets
import Elua.Lua.StringTable
import Elua.Lua.Interning
import Elua.Foundation.Links
import Elua.Lua.TableNodes
import Elua.Lua.NodeMoves
import Elua.Lua.Compaction
import Elua.Lua.HashPart
import Elua.Lua.TableInvariant
import Elua.Lua.TableStores
import Elua.Lua.TableSizes
import Elua.Lua.TableRehash
import Elua.Lua.TableRuns
import Elua.Console.LineInput
import Elua.Console.TcpInput
import Elua.Console.Terminal
import Elua.Lua.ForeignKeys
import Elua.Lua.SetTable
import Elua.Foundation.BitFields
import Elua.Bitarray.Storage
import Elua.Bitarray.Bounds
import Elua.Bitarray.Elements
import Elua.Bitarray.Sequences
import Elua.Foundation.Words
import Elua.Shell.CommandLine
import Elua.Shell.Dispatch
import Elua.CommonFs.PatternMatches
import Elua.CommonFs.Paths
import Elua.CommonFs.Walkdir
import Elua.CommonFs.WalkRuns
import Elua.CommonFs.WalkCompleteness
import Elua.Foundation.Slots
import Elua.Semifs.Descriptors
import Elua.Flash.UnalignedWrites
import Elua.Xmodem.LostAck
import Elua.Adc.Smoothing
import Elua.Uart.Read
import Elua.Adc.DeviceSequence
import Elua.Mmcfs.Opens
import Elua.Flash.Sectors
import Elua.Romfs.HardwareFormat
import Elua.Config.Modules
import Elua.CommonFs.PathJoin
import Elua.Config.IpAddress
import Elua.Foundation.Rearrangement
import Elua.Lua.Outcomes
import Elua.Lua.TableMap
import Elua.Lua.TableAssignments
import Elua.Lua.TableBorder
import Elua.Lua.Sort
import Elua.Lua.SortOrder
import Elua.Lua.PatternCode
import Elua.Lua.PatternSyntax
import Elua.Lua.PatternMeaning
import Elua.Lua.PatternMatch
