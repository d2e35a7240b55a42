import Wordmill.Draw.Script
import Wordmill.Main
import Wordmill.Proofs.Bytecode.Assumptions
import Wordmill.Proofs.Bytecode.Boundaries
import Wordmill.Proofs.Bytecode.CodeSize
import Wordmill.Proofs.Bytecode.Correctness
import Wordmill.Proofs.Bytecode.Disassembly
import Wordmill.Proofs.Bytecode.Emission
import Wordmill.Proofs.Bytecode.Failure
import Wordmill.Proofs.Bytecode.Following
import Wordmill.Proofs.Bytecode.Grouping
import Wordmill.Proofs.Bytecode.Language
import Wordmill.Proofs.Bytecode.Layout
import Wordmill.Proofs.Bytecode.Linked
import Wordmill.Proofs.Bytecode.Linking
import Wordmill.Proofs.Bytecode.ListingText
import Wordmill.Proofs.Bytecode.Names
import Wordmill.Proofs.Bytecode.Operands
import Wordmill.Proofs.Bytecode.Overflow
import Wordmill.Proofs.Bytecode.Reachable
import Wordmill.Proofs.Bytecode.Recovery
import Wordmill.Proofs.Bytecode.Renaming
import Wordmill.Proofs.Bytecode.Safety
import Wordmill.Proofs.Bytecode.Steps
import Wordmill.Proofs.Bytecode.Tiling
import Wordmill.Proofs.Capacity
import Wordmill.Proofs.Grammar.Arrangement
import Wordmill.Proofs.Grammar.Compiling
import Wordmill.Proofs.Grammar.Cutting
import Wordmill.Proofs.Grammar.Extent
import Wordmill.Proofs.Grammar.Gathering
import Wordmill.Proofs.Grammar.Line
import Wordmill.Proofs.Grammar.Order
import Wordmill.Proofs.Grammar.Outcome
import Wordmill.Proofs.Grammar.ScopeTree
import Wordmill.Proofs.Grammar.Scopes
import Wordmill.Proofs.Grammar.Spacing
import Wordmill.Proofs.Grammar.Visiting
import Wordmill.Proofs.Json.Conformance
import Wordmill.Proofs.Json.Grammar
import Wordmill.Proofs.Json.Library
import Wordmill.Proofs.Json.Members
import Wordmill.Proofs.Json.PassingOver
import Wordmill.Proofs.Json.Scalars
import Wordmill.Proofs.Json.Scanning
import Wordmill.Proofs.Options.RoundTrip
import Wordmill.Proofs.Options.Syllables
import Wordmill.Proofs.Pattern.Completeness
import Wordmill.Proofs.Pattern.Evaluation
import Wordmill.Proofs.Pattern.Regrouping
import Wordmill.Proofs.Pattern.Rendering
import Wordmill.Proofs.Pattern.Repair
import Wordmill.Proofs.Pattern.Soundness
import Wordmill.Proofs.Pattern.Weight
import Wordmill.Proofs.Room
import Wordmill.Proofs.Run
import Wordmill.Proofs.Text.Lines
import Wordmill.Proofs.Text.Numeral
import Wordmill.Proofs.Text.Offsets
import Wordmill.Proofs.Text.Quoted
import Wordmill.Proofs.Text.Trim
import Wordmill.Proofs.Words.Drafts
import Wordmill.Proofs.Words.Room
import Wordmill.Proofs.Words.Session
import Wordmill.Proofs.Words.Sources
