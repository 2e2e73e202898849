import ModifiedUtf8.Edit
import ModifiedUtf8.Main
import ModifiedUtf8.Proofs.Sequence
import ModifiedUtf8.Proofs.Scan
import ModifiedUtf8.Proofs.Legality
import ModifiedUtf8.Proofs.RoundTrip
import ModifiedUtf8.Proofs.Chunks
import ModifiedUtf8.Proofs.Boundaries
import ModifiedUtf8.Proofs.Lenient
import ModifiedUtf8.Proofs.Reading
import ModifiedUtf8.Proofs.Quoting
import ModifiedUtf8.Proofs.Repairing
import ModifiedUtf8.Proofs.Storing
import ModifiedUtf8.Proofs.Sessions
import ModifiedUtf8.Proofs.ReadingBack
import ModifiedUtf8.Proofs.Normalizing
import ModifiedUtf8.Proofs.Fitting
import ModifiedUtf8.Proofs.Dropping
import ModifiedUtf8.Proofs.Limiting
import ModifiedUtf8.Proofs.Meaning
import ModifiedUtf8.Proofs.Measuring
import ModifiedUtf8.Proofs.Offsets
import ModifiedUtf8.Proofs.Rendering
import ModifiedUtf8.Proofs.Joining
import ModifiedUtf8.Proofs.Stopping
import ModifiedUtf8.Proofs.Flushing
import ModifiedUtf8.Proofs.Progress
import ModifiedUtf8.Proofs.Reporting
import ModifiedUtf8.Proofs.Settling
