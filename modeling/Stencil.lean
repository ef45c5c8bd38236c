import Stencil.Files.Tree
import Stencil.Generator.Bench
import Stencil.Main
import Stencil.Plan.Encode
import Stencil.Proofs.Selector.Grammar
import Stencil.Proofs.Selector.Rewriting
import Stencil.Proofs.Selector.Composition
import Stencil.Proofs.Selector.Denotation
import Stencil.Proofs.Selector.Repetition
import Stencil.Proofs.Generator.Frame
import Stencil.Proofs.Path.Texts
import Stencil.Proofs.Placeholder
import Stencil.Proofs.Generator.Simultaneous
import Stencil.Proofs.Generator.Documents
import Stencil.Proofs.Plan.Locality
import Stencil.Proofs.Plan.Positions
import Stencil.Proofs.Cli.Routes
import Stencil.Proofs.Plan.Inlining
import Stencil.Proofs.Generator.Fusion
import Stencil.Proofs.Generator.Congruence
import Stencil.Proofs.Generator.Dedup
import Stencil.Proofs.Generator.FirstOccurrences
import Stencil.Proofs.Generator.EarlyDedup
import Stencil.Proofs.Generator.Overwrites
import Stencil.Proofs.Path.Naming
import Stencil.Proofs.Path.Writing
import Stencil.Proofs.Path.Edits
import Stencil.Proofs.Selector.Echoes
import Stencil.Proofs.Generator.Overlaps
import Stencil.Proofs.Generator.Repeated
import Stencil.Proofs.Generator.Renames
import Stencil.Proofs.Json.Numerals
import Stencil.Proofs.Json.Compact
import Stencil.Proofs.Generator.SerializedDedup
import Stencil.Proofs.Selector.Descent
import Stencil.Proofs.Selector.Cuts
import Stencil.Proofs.Plan.Encoding
