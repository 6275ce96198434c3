import ZstdPure.Encode.Parallel
import ZstdPure.Proofs.StreamEncodeProofs
import ZstdPure.Proofs.NCountProofs
import ZstdPure.Proofs.ConcatenationProofs
import ZstdPure.Proofs.DictionaryWindowProofs
import ZstdPure.Proofs.SeekableStreamProofs
import ZstdPure.Proofs.TotalityProofs
import ZstdPure.Proofs.BitWriterProofs
import ZstdPure.Proofs.SeqSectionProofs
import ZstdPure.Proofs.TwoStateProofs
import ZstdPure.Proofs.ExecProofs
import ZstdPure.Proofs.LiteralsSectionProofs
import ZstdPure.Proofs.FrameHeaderProofs
import ZstdPure.Proofs.SeekTableProofs
import ZstdPure.Proofs.HttpProfileProofs
import ZstdPure.Proofs.ParamsProofs
import ZstdPure.Proofs.StreamMemoryProofs
import ZstdPure.Proofs.SlideStreamProofs
import ZstdPure.Proofs.LiteralsSizeProofs
import ZstdPure.Proofs.CodeTableFromHuffProofs
import ZstdPure.Proofs.CodeLengthsProofs
import ZstdPure.Proofs.SeqCostProofs
import ZstdPure.Proofs.FieldReadProofs
import ZstdPure.Proofs.NoRegressionProofs
import ZstdPure.Proofs.ExactConsumptionProofs
import ZstdPure.Proofs.TrainStructuredProofs
import ZstdPure.Proofs.OptProofs
import ZstdPure.Proofs.FrontierProofs
import ZstdPure.Proofs.LdmProofs
import ZstdPure.Proofs.TreeRunProofs
import ZstdPure.Proofs.FastProofs
import ZstdPure.Proofs.ChainProofs
import ZstdPure.Proofs.FinderProofs
import ZstdPure.Proofs.LockstepProofs
import ZstdPure.Encode.Seekable
import ZstdPure.Proofs.ArchiveProofs
import ZstdPure.Proofs.DictRoundTripProofs
import ZstdPure.Lib.ArgMin
import ZstdPure.Proofs.ConformanceProofs
import ZstdPure.Proofs.TrainOptimizedProofs
