import Hrbl.Lib.Align
import Hrbl.Lib.Outcome
import Hrbl.Lib.Bytes
import Hrbl.Lib.Ambient
import Hrbl.Lib.StableSort
import Hrbl.Lib.Comparator
import Hrbl.Lib.OpenAddressing
import Hrbl.Lib.Relocation
import Hrbl.Lib.Json
import Hrbl.Lib.JsonDecode
import Hrbl.Lib.Outputs
import Hrbl.Lib.Ini
import Hrbl.Lib.Cursor
import Hrbl.Format
import Hrbl.Document
import Hrbl.Strings
import Hrbl.Layout
import Hrbl.Writer
import Hrbl.Construction
import Hrbl.EntrySort
import Hrbl.Pool
import Hrbl.Encoder
import Hrbl.Collection
import Hrbl.Emission
import Hrbl.Finalize
import Hrbl.Verify
import Hrbl.Reader
import Hrbl.Tiling
import Hrbl.Utf8
import Hrbl.Envelope
import Hrbl.PoolScan
import Hrbl.RootScan
import Hrbl.Interning
import Hrbl.Contents
import Hrbl.Search
import Hrbl.Lookup
import Hrbl.Tampering
import Hrbl.Session
import Hrbl.Refinement
import Hrbl.Growth
import Hrbl.Caches
import Hrbl.Replay
import Hrbl.LastError
import Hrbl.ConvertJson
import Hrbl.Placement
import Hrbl.Acceptance
import Hrbl.Arrangement
import Hrbl.Paths
import Hrbl.Forging
import Hrbl.Trails
import Hrbl.Iteration
import Hrbl.Export
import Hrbl.Printing
import Hrbl.JsonExport
import Hrbl.Escaping
import Hrbl.ExportIni
import Hrbl.PrintingIni
import Hrbl.IniLines
import Hrbl.Keeping
import Hrbl.IniExport
import Hrbl.Formatting
import Hrbl.IniSections
import Hrbl.IniReading
import Hrbl.Canonical
import Hrbl.Lib.Quoting
import Hrbl.IniEscaping
import Hrbl.Sparing
import Hrbl.Reaching
import Hrbl.Overrun
import Hrbl.Fixups
import Hrbl.Lib.Nesting
import Hrbl.Alignment
import Hrbl.Conversion
import Hrbl.YamlExport
import Hrbl.Rebuilding
import Hrbl.Safety
import Hrbl.Straying
import Hrbl.Lib.Descent
import Hrbl.Graph
import Hrbl.Clients
import Hrbl.Passing
import Hrbl.Depth
import Hrbl.DepthYaml
import Hrbl.DepthIni
import Hrbl.Lib.Approximation
import Hrbl.Levels
import Hrbl.Proceeding
import Hrbl.Confinement
import Hrbl.Looping
import Hrbl.Resealing
import Hrbl.Covering
import Hrbl.Written
import Hrbl.Fields
import Hrbl.Sealing
import Hrbl.Converted
import Hrbl.Lib.Truncation
import Hrbl.Truncating
import Hrbl.Refusals
import Hrbl.Lib.Additions
import Hrbl.Characters
