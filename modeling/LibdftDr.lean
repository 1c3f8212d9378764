import LibdftDr.TagMap.Handles
import LibdftDr.Library.Sparse
import LibdftDr.Library.Overlap
import LibdftDr.TagMap.Directory
import LibdftDr.Library.BinarySearch
import LibdftDr.Library.Runs
import LibdftDr.Mnt.Image
import LibdftDr.Mnt.Consumer
import LibdftDr.Mnt.Candidates
import LibdftDr.Mnt.Modules
import LibdftDr.Syscall.Fds
import LibdftDr.Sinks.FuncSinks
import LibdftDr.Core.State
import LibdftDr.Core.Handlers
import LibdftDr.Core.Transfer
import LibdftDr.Core.Compare
import LibdftDr.Core.CleanCall
import LibdftDr.Core.Operands
import LibdftDr.Core.Router
import LibdftDr.Core.Inserted
import LibdftDr.Core.UpperHalf
import LibdftDr.Sdft.Hook
import LibdftDr.Sdft.Transfer
import LibdftDr.Sdft.Summaries
import LibdftDr.Sdft.Conservative
import LibdftDr.Syscall.Hooks
import LibdftDr.Syscall.Painting
import LibdftDr.Syscall.Failures
import LibdftDr.Syscall.Mmap
import LibdftDr.Api.Tags
import LibdftDr.Machine.Events
import LibdftDr.Machine.Labels
import LibdftDr.Machine.Reads
import LibdftDr.Sinks.Records
import LibdftDr.Sinks.Lines
import LibdftDr.Core.GprCells
import LibdftDr.Machine.RegFile
import LibdftDr.Core.Lea
import LibdftDr.Api.Lifecycle
import LibdftDr.Mnt.Ranges
import LibdftDr.Core.Agreement
import LibdftDr.Sdft.Indices
import LibdftDr.Api.Clearing
import LibdftDr.Core.Meanings
import LibdftDr.Core.Cmpxchg
import LibdftDr.Core.Extensions
import LibdftDr.Core.Muldiv
import LibdftDr.Core.Rmw
import LibdftDr.Core.Shifts
import LibdftDr.Core.Stack
import LibdftDr.Core.CompareValues
import LibdftDr.TagMap.Reached
import LibdftDr.Sinks.TagTexts
import LibdftDr.Sinks.Decoding
import LibdftDr.Syscall.Reads
import LibdftDr.Syscall.Mappings
import LibdftDr.Syscall.MmapLabels
import LibdftDr.Sdft.Values
import LibdftDr.Sinks.PcRanges
import LibdftDr.Mnt.Opaque
import LibdftDr.Mnt.Encoding
import LibdftDr.Library.Configuration
import LibdftDr.Sdft.Directives
import LibdftDr.Sdft.Comments
import LibdftDr.Api.Ranges
import LibdftDr.Library.Assignments
import LibdftDr.Core.Simultaneous
import LibdftDr.Core.Swaps
import LibdftDr.Library.Dataflow
import LibdftDr.Core.Plans
import LibdftDr.Core.Enacting
import LibdftDr.Machine.Plans
import LibdftDr.Machine.Provenance
import LibdftDr.Library.RunLength
import LibdftDr.Library.Simulation
import LibdftDr.TagMap.RunningLength
import LibdftDr.TagMap.Bitmap
import LibdftDr.TagMap.Padding
import LibdftDr.TagMap.Merging
import LibdftDr.TagMap.SetBits
import LibdftDr.TagMap.Compressed
import LibdftDr.Library.Interleaving
import LibdftDr.Machine.Threads
import LibdftDr.Syscall.Descriptors
import LibdftDr.Syscall.Table
import LibdftDr.Machine.Syscalls
import LibdftDr.Clients.EgressSanitizer
import LibdftDr.Clients.SyntheticUnit
import LibdftDr.Library.FirstWins
import LibdftDr.Sdft.Wrapping
