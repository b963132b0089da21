import ExperimentalKernel.ByteMemory
import ExperimentalKernel.PointerArray
import ExperimentalKernel.LabelledRuns
import ExperimentalKernel.KernelHeapProgram
import ExperimentalKernel.HeapLayout
import ExperimentalKernel.HeapAllocate
import ExperimentalKernel.HeapFree
import ExperimentalKernel.HeapCoalesce
import ExperimentalKernel.HeapBoot
import ExperimentalKernel.HeapPayloads
import ExperimentalKernel.HeapGroups
import ExperimentalKernel.HeapReclamation
import ExperimentalKernel.PagingProgram
import ExperimentalKernel.FrameAllocation
import ExperimentalKernel.PageTableCloning
import ExperimentalKernel.DirectoryCloning
import ExperimentalKernel.BitmapOverrun
import ExperimentalKernel.AddressSpaceIsolation
import ExperimentalKernel.PageWalks
import ExperimentalKernel.WalkRuns
import ExperimentalKernel.SchedulerProgram
import ExperimentalKernel.ProcessList
import ExperimentalKernel.SchedulerContexts
import ExperimentalKernel.KernelStrings
import ExperimentalKernel.InitrdProgram
import ExperimentalKernel.InitrdInit
import ExperimentalKernel.InitrdDirectory
import ExperimentalKernel.InitrdWriter
import ExperimentalKernel.InitrdImage
import ExperimentalKernel.InitrdRoundTrip
import ExperimentalKernel.InitrdReading
import ExperimentalKernel.WordStack
import ExperimentalKernel.InterruptStubs
import ExperimentalKernel.InterruptFrames
import ExperimentalKernel.RoundRobin
import ExperimentalKernel.SchedulerTurns
import ExperimentalKernel.InitrdListing
import ExperimentalKernel.BootPaging
import ExperimentalKernel.HeapWellFormed
import ExperimentalKernel.HeapPlacement
import ExperimentalKernel.HeapFusion
import ExperimentalKernel.FirstMatches
import ExperimentalKernel.HeapSearch
import ExperimentalKernel.HeapAligned
import ExperimentalKernel.HeapRequests
import ExperimentalKernel.TracedMemory
import ExperimentalKernel.HeapAccesses
import ExperimentalKernel.HeapFootprint
import ExperimentalKernel.FrameSearch
import ExperimentalKernel.FrameCycles
import ExperimentalKernel.InitrdReadLimits
import ExperimentalKernel.BootIdentity
import ExperimentalKernel.TableShortage
import ExperimentalKernel.InitrdWriterLimits
import ExperimentalKernel.FrameChains
import ExperimentalKernel.StackMoving
import ExperimentalKernel.ScreenProgram
import ExperimentalKernel.ScreenNumerals
import ExperimentalKernel.ScreenCursor
import ExperimentalKernel.SegmentDescriptors
import ExperimentalKernel.StringCompare
import ExperimentalKernel.RangeErase
import ExperimentalKernel.SortedIndex
import ExperimentalKernel.IndexCapacity
import ExperimentalKernel.InterruptControllers
import ExperimentalKernel.SharedDirent
import ExperimentalKernel.SerialPlacement
import ExperimentalKernel.BootAllocation
import ExperimentalKernel.BootExhaustion
import ExperimentalKernel.CloneShortage
import ExperimentalKernel.OwnMemories
import ExperimentalKernel.AddressSpaces
import ExperimentalKernel.ProcessMemories
import ExperimentalKernel.TextTerminal
import ExperimentalKernel.ScreenTexts
import ExperimentalKernel.ScreenTerminal
import ExperimentalKernel.FaultReports
import ExperimentalKernel.InitrdConsole
import ExperimentalKernel.Preemption
import ExperimentalKernel.DescriptorTables
import ExperimentalKernel.UserMode
import ExperimentalKernel.StartupOrder
import ExperimentalKernel.HeapPages
import ExperimentalKernel.HeapAccounting
import ExperimentalKernel.KernelRuns
