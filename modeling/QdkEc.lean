import QdkEc.Pauliverse.StabilizerQueries
import QdkEc.Paulimer.PauliGroupIntersection
import QdkEc.Paulimer.GroupEncoding
import QdkEc.Paulimer.DiagonalResource
import QdkEc.Paulimer.CliffordSerialization
import QdkEc.Paulimer.CliffordTextRoundTrip
import QdkEc.DeqRuntime.MonolithicFrames
import QdkEc.DeqRuntime.SymbolicComponents
import QdkEc.DeqRuntime.FrameInterleavings
import QdkEc.DeqRuntime.SubgraphCalls
import QdkEc.DeqRuntime.JitDeterminism
import QdkEc.DeqRuntime.CacheTransparency
import QdkEc.DeqRuntime.DecodeAtomicity
import QdkEc.DeqRuntime.BatchExecution
import QdkEc.DeqTranspiler.ComposeSoundness
import QdkEc.Qodec.SaveSafety
import QdkEc.Qodec.ArtifactReferences
import QdkEc.Pauliverse.SampledDistribution
import QdkEc.Binar.BitSelection
import QdkEc.Binar.MatrixResize
import QdkEc.Binar.StoredElimination
import QdkEc.Paulimer.PauliGroupModulo
import QdkEc.Paulimer.PauliCentralizer
import QdkEc.Paulimer.PositionedPauli
import QdkEc.Paulimer.CliffordExtension
import QdkEc.Paulimer.PauliAlgorithms
import QdkEc.Pauliverse.HintedMeasurement
import QdkEc.Paulimer.StabilizerRestriction
import QdkEc.Paulimer.BorderedTransvections
import QdkEc.DeqRuntime.LossAccumulation
import QdkEc.DeqRuntime.MergedFactors
import QdkEc.DeqRuntime.RelativeProgram
import QdkEc.DeqRuntime.WindowShrinking
import QdkEc.Pauliverse.CorrelatedFaults
import QdkEc.DeqTranspiler.CheckNormalForm
