import GlmSpark.LosslessSpeculation
import GlmSpark.MambaAlignedSplit
import GlmSpark.CertSelection
import GlmSpark.CertBound
import GlmSpark.HybridTargets
import GlmSpark.HybridDrafts
import GlmSpark.KvLensMirror
import GlmSpark.EarlyPlan
import GlmSpark.KdaParity
import GlmSpark.TruncationFrame
import GlmSpark.DevSelect
import GlmSpark.LookupAttribution
import GlmSpark.LookupEstimates
import GlmSpark.LookupRows
import GlmSpark.LookupTiers
import GlmSpark.HybridInterference
import GlmSpark.BoundaryFlags
import GlmSpark.LeversControl
import GlmSpark.OwnershipAlgebra
import GlmSpark.PrefillShard
import GlmSpark.RejectionSampler
import GlmSpark.QuantMix
import GlmSpark.TensorFile
import GlmSpark.FastLoadRun
import GlmSpark.KdaConvSplit
import GlmSpark.AdaptiveKRun
import GlmSpark.SharedPriceRun
import GlmSpark.RoceSetup
import GlmSpark.RoceLiveness
import GlmSpark.KpoolRing
import GlmSpark.PrefillTopk
import GlmSpark.VerifyCutCommits
