import VintageUnix.Main
import VintageUnix.Memory.Strings
import VintageUnix.Proofs.ArgumentVectors
import VintageUnix.Proofs.BlockSearches
import VintageUnix.Proofs.BlockTransfers
import VintageUnix.Proofs.BreakBounds
import VintageUnix.Proofs.CacheTransparency
import VintageUnix.Proofs.CallFootprint
import VintageUnix.Proofs.ComparedBranches
import VintageUnix.Proofs.EndedProcesses
import VintageUnix.Proofs.ExecFrames
import VintageUnix.Proofs.ExtendedInstructions
import VintageUnix.Proofs.FailedCalls
import VintageUnix.Proofs.FlagWords
import VintageUnix.Proofs.FoldedModifiers
import VintageUnix.Proofs.ForkIsolation
import VintageUnix.Proofs.ForkResumption
import VintageUnix.Proofs.HandlerRuns
import VintageUnix.Proofs.HostActions
import VintageUnix.Proofs.IndirectCalls
import VintageUnix.Proofs.InitialStack
import VintageUnix.Proofs.InstructionBytes
import VintageUnix.Proofs.Listings
import VintageUnix.Proofs.LoadedImages
import VintageUnix.Proofs.MinixExecutables
import VintageUnix.Proofs.MultiplicativeInstructions
import VintageUnix.Proofs.NestedCalls
import VintageUnix.Proofs.OpenDescriptors
import VintageUnix.Proofs.OperandSteps
import VintageUnix.Proofs.PositionIndependence
import VintageUnix.Proofs.ProcessNumbers
import VintageUnix.Proofs.RelocatedFrames
import VintageUnix.Proofs.RootDirectory
import VintageUnix.Proofs.SegmentFilling
import VintageUnix.Proofs.SharedStreams
import VintageUnix.Proofs.ShiftInstructions
import VintageUnix.Proofs.SignalDelivery
import VintageUnix.Proofs.SlicedRuns
import VintageUnix.Proofs.StackFrames
import VintageUnix.Proofs.StatusRecords
import VintageUnix.Proofs.TraceIndependence
import VintageUnix.Proofs.UnixV6Executables
import VintageUnix.Proofs.WaitOwnership
import VintageUnix.Proofs.WrittenFiles
import VintageUnix.Text.Quoted
