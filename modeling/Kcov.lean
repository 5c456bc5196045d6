import Kcov.Lib.Bytes
import Kcov.Lib.Decoder
import Kcov.Lib.Stream
import Kcov.Lib.Words
import Kcov.Lib.Runs
import Kcov.Lib.Counter
import Kcov.Lib.Crc
import Kcov.Lib.Counting
import Kcov.Lib.Paths
import Kcov.Lib.Search
import Kcov.Lib.OrderedMap
import Kcov.Lib.Ranking
import Kcov.Lib.FirstMax
import Kcov.Lib.Memo
import Kcov.Lib.Utf8
import Kcov.Lib.Lexer
import Kcov.Lib.Json
import Kcov.Lib.Xml
import Kcov.Engines.Engine
import Kcov.Engines.Ptrace
import Kcov.Engines.Breakpoints
import Kcov.Engines.WaitEvent
import Kcov.Engines.Python
import Kcov.Engines.PythonTrace
import Kcov.Engines.PythonDatum
import Kcov.Solib.PhdrData
import Kcov.Solib.Handler
import Kcov.Utils
import Kcov.Strings
import Kcov.EscapeJson
import Kcov.Numbers
import Kcov.Configuration
import Kcov.Filter
import Kcov.PathFilter
import Kcov.Reporter.Line
import Kcov.Reporter.State
import Kcov.Reporter.Covered
import Kcov.Reporter.Database
import Kcov.Reporter.Unmarshal
import Kcov.Reporter.Links
import Kcov.Reporter.Lookup
import Kcov.Reporter.Steps
import Kcov.Reporter.Counts
import Kcov.Reporter.Bounds
import Kcov.Reporter.Stored
import Kcov.Reporter.Limited
import Kcov.Reporter.Accumulation
import Kcov.Reporter.Compiled
import Kcov.Reporter.Sessions
import Kcov.Reporter.Retention
import Kcov.Reporter.ScriptHits
import Kcov.Caches
import Kcov.Reporter.Exclusion
import Kcov.Reporter.MarshalSize
import Kcov.Reporter.Regions
import Kcov.Reporter.Summary
import Kcov.Reporter.CodeLines
import Kcov.Reporter.Additive
import Kcov.Reporter.HitOrder
import Kcov.Parsers.DebugLink
import Kcov.Parsers.Elf
import Kcov.Parsers.ElfLines
import Kcov.Parsers.Dwarf
import Kcov.Parsers.Disassembler
import Kcov.Solib.Loading
import Kcov.Engines.Bash
import Kcov.Engines.BashRecords
import Kcov.Engines.BashMarker
import Kcov.Engines.BashLines
import Kcov.Engines.BashHeredocs
import Kcov.Engines.BashComments
import Kcov.Engines.PythonLines
import Kcov.Engines.LineEndings
import Kcov.Lib.Getopt
import Kcov.CommandLine
import Kcov.Rejected
import Kcov.ProgramArguments
import Kcov.Kernel.KprobeCoverage
import Kcov.Kernel.Ownership
import Kcov.Kernel.Texts
import Kcov.SystemMode.FileData
import Kcov.SystemMode.ProcessedFile
import Kcov.SystemMode.Processing
import Kcov.SystemMode.Decoding
import Kcov.SystemMode.Registration
import Kcov.SystemMode.Daemon
import Kcov.SystemMode.ProcessEntry
import Kcov.SystemMode.Options
import Kcov.SystemMode.Memory
import Kcov.SystemMode.Bitmap
import Kcov.SystemMode.HitSet
import Kcov.SystemMode.OutputThread
import Kcov.SystemMode.Written
import Kcov.SystemMode.Shutdown
import Kcov.SystemMode.Backed
import Kcov.SystemMode.Stops
import Kcov.SystemMode.EndToEnd
import Kcov.Merge.Parser
import Kcov.Merge.Records
import Kcov.Merge.System
import Kcov.Merge.Agreement
import Kcov.Merge.Metadata
import Kcov.Merge.RoundTrip
import Kcov.Merge.Decoding
import Kcov.Merge.Output
import Kcov.Merge.Nested
import Kcov.Merge.Reachable
import Kcov.Merge.Pending
import Kcov.Merge.Directories
import Kcov.Merge.MergeMode
import Kcov.Writers.Base
import Kcov.Writers.Totals
import Kcov.Writers.CommonPath
import Kcov.Writers.Uploads
import Kcov.Writers.JsonFiles
import Kcov.Writers.Print
import Kcov.Writers.XmlReports
import Kcov.Writers.JsonReports
import Kcov.Writers.Coveralls
import Kcov.Writers.WellFormed
import Kcov.Lib.Percent
import Kcov.Writers.GlobalIndex
import Kcov.Collector
import Kcov.Engines.Tracing
import Kcov.Engines.Scripts
import Kcov.Engines.Matching
import Kcov.Engines.BashRun
import Kcov.Engines.PythonRun
import Kcov.Kernel.Probing
import Kcov.Kernel.Places
