import MoeSpecialization.Client.Bracket
import MoeSpecialization.Common.TensorIndex
import MoeSpecialization.Eplb.ChunkUtils
import MoeSpecialization.Eplb.Loader
import MoeSpecialization.Eplb.Window
import MoeSpecialization.Metrics.ExpertGroups
import MoeSpecialization.Metrics.InputDirs
import MoeSpecialization.Metrics.Isolation
import MoeSpecialization.Metrics.ModelReport
import MoeSpecialization.Metrics.NGram
import MoeSpecialization.Metrics.PrimaryExpert
import MoeSpecialization.Metrics.Rss
import MoeSpecialization.Metrics.RunLengths
import MoeSpecialization.Metrics.Stability
import MoeSpecialization.Metrics.Transitions
import MoeSpecialization.Pipeline.Attribution
import MoeSpecialization.Pipeline.ExpertFilter
import MoeSpecialization.Pipeline.GeneratingPosition
import MoeSpecialization.Pipeline.GroupMetrics
import MoeSpecialization.Pipeline.Heatmap
import MoeSpecialization.Pipeline.Placement
import MoeSpecialization.Pipeline.TokenWindows
import MoeSpecialization.Postprocess.FailingFiles
import MoeSpecialization.Postprocess.Partition
import MoeSpecialization.Postprocess.RequestIds
import MoeSpecialization.Recorder.Communicator
import MoeSpecialization.Recorder.Snapshots
import MoeSpecialization.Recorder.StatBuffer
