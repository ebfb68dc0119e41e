import Montauk.Automata.PosAutomaton
import Montauk.Text.Bytes
import Montauk.Text.CaseFold
import Montauk.Text.Field
import Montauk.Text.Engine
import Montauk.Text.ScanCount
import Montauk.Automata.PowerShape
import Montauk.Text.Count
import Montauk.Text.Items
import Montauk.Text.Spans
import Montauk.Text.Literals
import Montauk.Text.FoldFaces
import Montauk.Text.Split
import Montauk.Trace.Log
import Montauk.Trace.Ntsync
import Montauk.Sort.SpectralMerge
import Montauk.Sort.RadixPar
import Montauk.Emit.JsonWriter
import Montauk.Trace.Mmap
import Montauk.Trace.Futex
import Montauk.Trace.Tracking
import Montauk.Trace.Migrations
import Montauk.App.DoubleBuffer
import Montauk.Tools.Exposition
import Montauk.Trace.Records
import Montauk.App.MetricsText
import Montauk.Text.Mismatch
import Montauk.Text.Replace
import Montauk.Text.ParSearch
import Montauk.Text.Width
import Montauk.Kernel.Netlink
import Montauk.Kernel.ProcTracking
import Montauk.Tools.GoldenRound
import Montauk.Tools.Silent
import Montauk.Tools.WaitReplay
import Montauk.Tools.PairingProcess
import Montauk.Tools.DoubleFree
import Montauk.Cli.StrMap
import Montauk.Sort.Select
import Montauk.Strings.Introsort
import Montauk.Trace.Substr
import Montauk.Cli.Context
import Montauk.Sort.Patience
import Montauk.Sort.ClassifyAvx
import Montauk.Sort.Refine
import Montauk.Text.Tally
import Montauk.Strings.MsdRadix
import Montauk.Trace.Framing
import Montauk.Trace.Snapshot
import Montauk.Trace.Heap
import Montauk.Stats.PermTest
import Montauk.Stats.Cliff
import Montauk.Tools.NaturalVersion
import Montauk.Tools.Population
import Montauk.Tools.Trajectory
import Montauk.Tools.IoWaits
import Montauk.Sort.PackFloat
import Montauk.Tools.DispatchVerdict
import Montauk.Tools.KickReplay
import Montauk.Tools.StrandReplay
import Montauk.Tools.LocalityReplay
import Montauk.Tools.ServiceReplay
import Montauk.Tools.StallAccount
import Montauk.Tools.IdleLedger
import Montauk.Tools.HolderLedger
import Montauk.App.TomlReader
import Montauk.Machine.Fields
import Montauk.Machine.Numerals
import Montauk.Machine.AttributeReads
import Montauk.Collect.StatLine
import Montauk.Kernel.NetlinkReads
import Montauk.Sort.Prefixes
import Montauk.Collect.TopRows
import Montauk.Emit.SinkMemory
import Montauk.Strings.StringsMemory
import Montauk.Par.ParallelFor
import Montauk.Text.Backrefs
