import LibCC.AllocationFailures
import LibCC.Attitude
import LibCC.AttitudeConvergence
import LibCC.AttitudeFilter
import LibCC.BitSmear
import LibCC.BlockLedger
import LibCC.CString
import LibCC.DampedNorm
import LibCC.DoubleSingle
import LibCC.DoubleSingleError
import LibCC.DoubleSingleProduct
import LibCC.DoubleSingleRoundTrip
import LibCC.DoubleSingleSplit
import LibCC.DoubleSingleSteps
import LibCC.DoubleSingleSum
import LibCC.DoublyLinked
import LibCC.FamilyLedger
import LibCC.FiniteTable
import LibCC.FloatRounding
import LibCC.FramedProgram
import LibCC.FrustumPlanes
import LibCC.GaussJordan
import LibCC.GramSchmidt
import LibCC.JobqEffort
import LibCC.JobqHistory
import LibCC.JobqMemory
import LibCC.JobqModel
import LibCC.JobqProgress
import LibCC.JobqRuns
import LibCC.JobqSystem
import LibCC.JobqWakeups
import LibCC.JsmnBlocks
import LibCC.JsmnDoc
import LibCC.JsmnFormat
import LibCC.JsmnOwnership
import LibCC.JsmnPending
import LibCC.JsmnReader
import LibCC.JsmnReadings
import LibCC.JsmnReadsBack
import LibCC.JsmnRebuild
import LibCC.JsmnRoundTrip
import LibCC.JsmnStream
import LibCC.JsmnStreamRuns
import LibCC.JsmnTokens
import LibCC.JsmnTree
import LibCC.JsmnTruncation
import LibCC.JsmnWrapper
import LibCC.JsonDecode
import LibCC.JsonText
import LibCC.LabelledRun
import LibCC.ListAccount
import LibCC.ListConservation
import LibCC.ListInvariant
import LibCC.ListModel
import LibCC.ListPool
import LibCC.ListPrivate
import LibCC.ListRefinement
import LibCC.ListRuns
import LibCC.ListSections
import LibCC.ListSequences
import LibCC.ListSorted
import LibCC.ListSortedRuns
import LibCC.ListThreads
import LibCC.Lookat
import LibCC.MapInvariant
import LibCC.MapLoop
import LibCC.MapModel
import LibCC.MapNodeOrder
import LibCC.MapNodeReads
import LibCC.MapRuns
import LibCC.MapStringTable
import LibCC.MapStrings
import LibCC.MapTable
import LibCC.MapTraversal
import LibCC.MapUpdate
import LibCC.Mat4
import LibCC.MemoryAccount
import LibCC.MemoryDebugModel
import LibCC.MemoryDebugRuns
import LibCC.MemoryDebugSystem
import LibCC.MemoryMirror
import LibCC.MemoryModel
import LibCC.MemorySystem
import LibCC.MemoryTracker
import LibCC.Misalignment
import LibCC.MultimapHolds
import LibCC.MultimapInvariant
import LibCC.MultimapModel
import LibCC.MultimapStrings
import LibCC.MultimapSweep
import LibCC.MultimapTable
import LibCC.MultimapUpdate
import LibCC.MurmurHash
import LibCC.NearestFloat
import LibCC.NestedTraversal
import LibCC.OrderedCursor
import LibCC.Orientation
import LibCC.Orthonormal
import LibCC.PoolCount
import LibCC.Pow2n
import LibCC.PriorityOrder
import LibCC.Projection
import LibCC.QuaternionMatrix
import LibCC.RangedFloat
import LibCC.RaySphere
import LibCC.RectIntersect
import LibCC.RngSingle
import LibCC.RngUniform
import LibCC.RotationAngles
import LibCC.Rotations
import LibCC.RoundedPair
import LibCC.RoundingRay
import LibCC.RowOperations
import LibCC.RunProgress
import LibCC.SequenceFamily
import LibCC.SizeLedger
import LibCC.Slerp
import LibCC.SortedSearch
import LibCC.StableOrder
import LibCC.StateProgram
import LibCC.TracedAccount
import LibCC.TracedContainers
import LibCC.TracedFamilies
import LibCC.TracedHeap
import LibCC.TracedJobq
import LibCC.TracedList
import LibCC.TracedMap
import LibCC.TracedMapRuns
import LibCC.TracedMultimap
import LibCC.TracedMultimapAnswers
import LibCC.TracedMultimapCalls
import LibCC.TracedMultimapRuns
import LibCC.TracedRefinement
import LibCC.TracedRuns
import LibCC.TracedTracker
import LibCC.TracedWorkq
import LibCC.Vec3
import LibCC.WordMix
import LibCC.WorkqCalls
import LibCC.WorkqDelete
import LibCC.WorkqDisposal
import LibCC.WorkqEffort
import LibCC.WorkqFrames
import LibCC.WorkqInvariant
import LibCC.WorkqIters
import LibCC.WorkqLife
import LibCC.WorkqModel
import LibCC.WorkqPriority
import LibCC.WorkqProgress
import LibCC.WorkqPurges
import LibCC.WorkqSafety
import LibCC.WorkqSections
import LibCC.WorkqSteps
import LibCC.WorkqStructure
import LibCC.WorkqSystem
import LibCC.WorkqWakeups
