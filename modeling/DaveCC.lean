import DaveCC.Optimization.FoldingAgreement
import DaveCC.Optimization.AnalyzeSound
import DaveCC.Serialize.GraphRoundTrip
import DaveCC.Backend.SwitchCorrect
import DaveCC.Serialize.WireSafety
import DaveCC.Frontend.ConditionalSections
import DaveCC.Frontend.SourceLines
import DaveCC.Frontend.Backtracking
import DaveCC.Frontend.EvaluatorAgreement
import DaveCC.Linker.ResolutionOrder
import DaveCC.Linker.CollectionSoundness
import DaveCC.PCode.CheckedRuns
import DaveCC.Backend.TargetEditing
import DaveCC.Linker.DynamicLookupSoundness
import DaveCC.Linker.ArraySections
import DaveCC.Backend.ExceptionTableSoundness
import DaveCC.Frontend.StructRelayout
import DaveCC.Archive.ArchiveRoundTrip
import DaveCC.Optimization.ConstantDivision
import DaveCC.Optimization.Reassociation
import DaveCC.Optimization.StrengthPreservation
import DaveCC.Optimization.BranchAlignment
import DaveCC.Loader.LifecycleHistories
import DaveCC.Debug.LineTableDecoding
import DaveCC.Optimization.LoopAnalysis
import DaveCC.Backend.EdgeHistory
import DaveCC.Optimization.AliasSoundness
import DaveCC.Optimization.TailCallSafety
import DaveCC.Optimization.CopySoundness
import DaveCC.Container.DictionaryRuns
import DaveCC.Container.BitSetRuns
import DaveCC.Frontend.OperatorTokens
import DaveCC.Frontend.SourceLocations
import DaveCC.Frontend.TypoCorrection
import DaveCC.Container.BinaryTreeRuns
import DaveCC.Frontend.Utf8
import DaveCC.Optimization.SccpTermination
