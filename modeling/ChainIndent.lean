import ChainIndent.Words
import ChainIndent.Callback
import ChainIndent.Forest
import ChainIndent.Schedule
import ChainIndent.Main
import ChainIndent.Proofs.Placement
import ChainIndent.Proofs.Extent
import ChainIndent.Proofs.Returns
import ChainIndent.Proofs.Relaid
import ChainIndent.Proofs.SecondRun
import ChainIndent.Proofs.Idempotence
import ChainIndent.Proofs.Lossless
import ChainIndent.Proofs.Effect
import ChainIndent.Proofs.Nesting
import ChainIndent.Proofs.Agreement
import ChainIndent.Proofs.Confinement
import ChainIndent.Proofs.FailOpen
import ChainIndent.Proofs.Accounting
import ChainIndent.Proofs.BraceBalance
import ChainIndent.Proofs.Overflow
import ChainIndent.Proofs.LineEndings
import ChainIndent.Proofs.RoundTrip
import ChainIndent.Proofs.LastStyle
import ChainIndent.Proofs.Markers
import ChainIndent.Proofs.Surroundings
import ChainIndent.Proofs.Transparency
import ChainIndent.Proofs.Levels
import ChainIndent.Proofs.Boundaries
import ChainIndent.Proofs.Indifference
import ChainIndent.Proofs.Files
import ChainIndent.Proofs.FileRun
import ChainIndent.Proofs.Loading
import ChainIndent.Proofs.Layers
import ChainIndent.Proofs.Decoding
import ChainIndent.Proofs.Atomicity
import ChainIndent.Proofs.Ancestors
import ChainIndent.Proofs.Directories
import ChainIndent.Proofs.Search
import ChainIndent.Proofs.Spelling
import ChainIndent.Proofs.Independence
import ChainIndent.Proofs.Repeats
import ChainIndent.Proofs.AnyOrder
