import Hakutaku.Proofs.BlockLookupCorrect
import Hakutaku.Proofs.CursorRefines
import Hakutaku.Proofs.ReadTransparency
import Hakutaku.Proofs.SignatureCommits
import Hakutaku.Proofs.CatalogBijection
import Hakutaku.Proofs.PathIndexCorrect
import Hakutaku.Proofs.CatalogSafety
import Hakutaku.Proofs.CanonicalCodecs
import Hakutaku.Proofs.BuildCacheCodec
import Hakutaku.PackerSpec
import Hakutaku.Proofs.PagedTables
import Hakutaku.Proofs.NonceUnique
import Hakutaku.Proofs.FingerprintInjective
import Hakutaku.Proofs.CachedFileReadable
import Hakutaku.Proofs.CachedBuildEqual
import Hakutaku.Proofs.PathGrammar
import Hakutaku.Proofs.CompactionSpec
import Hakutaku.Proofs.ClockCacheCorrect
import Hakutaku.Proofs.FileRecordsBacked
import Hakutaku.Proofs.ResourceBudget
import Hakutaku.Proofs.SegmentStream
import Hakutaku.Proofs.ReadLoopsExact
import Hakutaku.Proofs.KeyFilesSafe
import Hakutaku.Proofs.PlansExact
import Hakutaku.Proofs.ExtractionConfined
import Hakutaku.Proofs.StorageConserved
import Hakutaku.Proofs.AvailabilityIsolated
import Hakutaku.Proofs.RoundTrip
