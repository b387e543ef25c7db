import Reflow.Proofs.AnchoredPatterns
import Reflow.Proofs.BlockAlternatives
import Reflow.Proofs.CaptureCoverage
import Reflow.Proofs.CaptureSearch
import Reflow.Proofs.Indentation
import Reflow.Proofs.KeptPreferences
import Reflow.Proofs.LimitGuards
import Reflow.Proofs.MismatchPlaces
import Reflow.Proofs.RepetitionBounds
import Reflow.Proofs.ResolvedReferences
import Reflow.Proofs.SingleEvaluation
import Reflow.Proofs.SteadyBlocks
import Reflow.Proofs.StoredWords
import Reflow.Settings.EditCodec
