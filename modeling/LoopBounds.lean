import LoopBounds.Main
import LoopBounds.Proofs.Range.TakenTest
import LoopBounds.Proofs.Range.Box
import LoopBounds.Proofs.Range.Cancellation
import LoopBounds.Proofs.Range.UnsafeCount
import LoopBounds.Proofs.Flow.ExactDominators
import LoopBounds.Proofs.Listing.Denotation
import LoopBounds.Proofs.Listing.HoistedFlag
import LoopBounds.Proofs.Guarded.Answers
import LoopBounds.Proofs.Func.PhiRule
import LoopBounds.Proofs.Range.Operations
import LoopBounds.Proofs.Classify.Reordered
import LoopBounds.Proofs.Classify.Condensation
import LoopBounds.Proofs.Range.ExactArithmetic
import LoopBounds.Proofs.Descriptor.Commutation
import LoopBounds.Proofs.Listing.Tokens
import LoopBounds.Proofs.Range.ReportRows
import LoopBounds.Proofs.Listing.Spelling
import LoopBounds.Proofs.Listing.SpelledProgram
import LoopBounds.Proofs.Listing.Insertion
