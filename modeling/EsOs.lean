import EsOs.Es.DateTime
import EsOs.Es.Formatter
import EsOs.Es.List
import EsOs.Es.OrderedMap
import EsOs.Es.Proofs.DateTime
import EsOs.Es.Proofs.Formatter
import EsOs.Es.Proofs.List
import EsOs.Es.Proofs.ListCalls
import EsOs.Es.Proofs.ListIterator
import EsOs.Es.Proofs.OrderedMap
import EsOs.Es.Proofs.Tree
import EsOs.Es.Proofs.TreeIteration
import EsOs.Es.Proofs.TreeLinks
import EsOs.Es.Proofs.TreeRemovals
import EsOs.Es.Proofs.Utf
import EsOs.Es.Tree
import EsOs.Es.TreeLinks
import EsOs.Es.Utf
import EsOs.Escort.Address
import EsOs.Escort.Components
import EsOs.Escort.HttpDate
import EsOs.Escort.HttpHeader
import EsOs.Escort.Proofs.Address
import EsOs.Escort.Proofs.Authority
import EsOs.Escort.Proofs.DotSegments
import EsOs.Escort.Proofs.Encoded
import EsOs.Escort.Proofs.Exact
import EsOs.Escort.Proofs.Grammar
import EsOs.Escort.Proofs.Host
import EsOs.Escort.Proofs.HttpDate
import EsOs.Escort.Proofs.HttpHeader
import EsOs.Escort.Proofs.Layout
import EsOs.Escort.Proofs.Literal
import EsOs.Escort.Proofs.Parser
import EsOs.Escort.Proofs.Quad
import EsOs.Escort.Proofs.Relative
import EsOs.Escort.Proofs.Resolve
import EsOs.Escort.Url
import EsOs.Esjs.Array
import EsOs.Esjs.Ecma
import EsOs.Esjs.Ends
import EsOs.Esjs.Proofs.Ecma
import EsOs.Esjs.Proofs.Ends
import EsOs.Esjs.Proofs.Split
import EsOs.Esjs.Proofs.UriEscape
import EsOs.Esjs.Split
import EsOs.Esjs.Statement
import EsOs.Esjs.UriEscape
import EsOs.Fat.Check
import EsOs.Fat.Cluster
import EsOs.Fat.Create
import EsOs.Fat.Directory
import EsOs.Fat.Format
import EsOs.Fat.Name
import EsOs.Fat.Proofs.Accounting
import EsOs.Fat.Proofs.Addressing
import EsOs.Fat.Proofs.Available
import EsOs.Fat.Proofs.Check
import EsOs.Fat.Proofs.CheckEnds
import EsOs.Fat.Proofs.Cluster
import EsOs.Fat.Proofs.Create
import EsOs.Fat.Proofs.Edit
import EsOs.Fat.Proofs.Entry
import EsOs.Fat.Proofs.FileSize
import EsOs.Fat.Proofs.Format
import EsOs.Fat.Proofs.FreeChain
import EsOs.Fat.Proofs.FullVolume
import EsOs.Fat.Proofs.LongName
import EsOs.Fat.Proofs.Name
import EsOs.Fat.Proofs.NewEntry
import EsOs.Fat.Proofs.OemName
import EsOs.Fat.Proofs.Position
import EsOs.Fat.Proofs.Remove
import EsOs.Fat.Proofs.SetSize
import EsOs.Fat.Proofs.Slots
import EsOs.Fat.Proofs.StoreLaw
import EsOs.Fat.Proofs.Time
import EsOs.Fat.Rename
import EsOs.Fat.Time
import EsOs.Fat.Volume
import EsOs.Iso9660.Stream
import EsOs.Kernel.Alarm
import EsOs.Kernel.Arena
import EsOs.Kernel.Arguments
import EsOs.Kernel.Cache
import EsOs.Kernel.Heap
import EsOs.Kernel.Mmu
import EsOs.Kernel.Mount
import EsOs.Kernel.Page
import EsOs.Kernel.Partition
import EsOs.Kernel.PartitionStream
import EsOs.Kernel.Program
import EsOs.Kernel.Proofs.Alarm
import EsOs.Kernel.Proofs.Arena
import EsOs.Kernel.Proofs.Arguments
import EsOs.Kernel.Proofs.CacheCoherence
import EsOs.Kernel.Proofs.CacheRuns
import EsOs.Kernel.Proofs.Coverage
import EsOs.Kernel.Proofs.FailedWrite
import EsOs.Kernel.Proofs.Heap
import EsOs.Kernel.Proofs.Interference
import EsOs.Kernel.Proofs.MapList
import EsOs.Kernel.Proofs.Mmu
import EsOs.Kernel.Proofs.PageData
import EsOs.Kernel.Proofs.PageOwnership
import EsOs.Kernel.Proofs.PageTable
import EsOs.Kernel.Proofs.Partition
import EsOs.Kernel.Proofs.Placement
import EsOs.Kernel.Proofs.Program
import EsOs.Kernel.Proofs.Queues
import EsOs.Kernel.Proofs.Swap
import EsOs.Kernel.Proofs.Syscall
import EsOs.Kernel.Proofs.Unmap
import EsOs.Kernel.Proofs.Upcall
import EsOs.Kernel.Proofs.Validity
import EsOs.Kernel.Queries
import EsOs.Kernel.Sched
import EsOs.Kernel.Swap
import EsOs.Kernel.Syscall
import EsOs.Kernel.Upcall
import EsOs.Kernel.WriteBack
import EsOs.Lib.Calendar
import EsOs.Lib.Chain
import EsOs.Lib.Circular
import EsOs.Lib.Digits
import EsOs.Lib.Extents
import EsOs.Lib.Fifo
import EsOs.Lib.Gather
import EsOs.Lib.Intervals
import EsOs.Lib.Iteration
import EsOs.Lib.Linked
import EsOs.Lib.Memory
import EsOs.Lib.OnesComplement
import EsOs.Lib.Placement
import EsOs.Lib.System
import EsOs.Lib.Unicode
import EsOs.Lib.Uri
import EsOs.Lib.WeakOrder
import EsOs.Lib.Word
import EsOs.Lib.Zipper
import EsOs.Net.Congestion
import EsOs.Net.Connection
import EsOs.Net.Dhcp
import EsOs.Net.DhcpLease
import EsOs.Net.HostName
import EsOs.Net.Icmp
import EsOs.Net.Inet4
import EsOs.Net.Input
import EsOs.Net.Messenger
import EsOs.Net.Options
import EsOs.Net.Proofs.AckNow
import EsOs.Net.Proofs.Acked
import EsOs.Net.Proofs.Answers
import EsOs.Net.Proofs.Backlog
import EsOs.Net.Proofs.Close
import EsOs.Net.Proofs.Congestion
import EsOs.Net.Proofs.Delivery
import EsOs.Net.Proofs.Dhcp
import EsOs.Net.Proofs.DhcpLease
import EsOs.Net.Proofs.Duplicates
import EsOs.Net.Proofs.Fragment
import EsOs.Net.Proofs.HostName
import EsOs.Net.Proofs.OptionSize
import EsOs.Net.Proofs.Options
import EsOs.Net.Proofs.Output
import EsOs.Net.Proofs.Reading
import EsOs.Net.Proofs.Reass
import EsOs.Net.Proofs.ReassComplete
import EsOs.Net.Proofs.ReassSafe
import EsOs.Net.Proofs.Received
import EsOs.Net.Proofs.ResponseBounds
import EsOs.Net.Proofs.Ring
import EsOs.Net.Proofs.RingCalls
import EsOs.Net.Proofs.SackOption
import EsOs.Net.Proofs.Scoreboard
import EsOs.Net.Proofs.ScoreboardRuns
import EsOs.Net.Proofs.SendFrame
import EsOs.Net.Proofs.SendMax
import EsOs.Net.Proofs.Transport
import EsOs.Net.Proofs.Trim
import EsOs.Net.Proofs.TrimRange
import EsOs.Net.Proofs.Window
import EsOs.Net.Reass
import EsOs.Net.Received
import EsOs.Net.Resolver
import EsOs.Net.Ring
import EsOs.Net.SackOption
import EsOs.Net.Sender
import EsOs.Net.Stream
import EsOs.Net.Transport
