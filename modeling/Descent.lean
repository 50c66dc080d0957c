import Descent.Main
import Descent.Parser.Custom
import Descent.Proofs.Cursor.Order
import Descent.Proofs.Cursor.Speculation
import Descent.Proofs.Parser.Balance
import Descent.Proofs.Parser.Choice
import Descent.Proofs.Parser.Operations
import Descent.Proofs.Grammar.Levels
import Descent.Proofs.Grammar.Parts
import Descent.Proofs.Grammar.Unrolling
import Descent.Proofs.Grammar.Endings
import Descent.Proofs.Grammar.Raising
import Descent.Proofs.Grammar.Runs
import Descent.Proofs.Grammar.Refinement
import Descent.Proofs.Grammar.Provenance
import Descent.Proofs.Grammar.Depth
import Descent.Proofs.Grammar.Errors
import Descent.Proofs.Grammar.Termination
import Descent.Proofs.Grammar.ControlFlow
import Descent.Proofs.Grammar.Labels
import Descent.Proofs.Grammar.Locality
import Descent.Proofs.Grammar.Lossless
import Descent.Proofs.Grammar.RunText
import Descent.Proofs.Grammar.EndOfInput
import Descent.Proofs.Tokenizer.Places
import Descent.Proofs.Tokenizer.Outcome
import Descent.Proofs.Parser.Repetition
import Descent.Proofs.Cursor.Blocks
import Descent.Proofs.Grammar.Regrouping
import Descent.Proofs.Parser.Grouping
import Descent.Proofs.Grammar.Repetition
import Descent.Proofs.Grammar.Congruence
import Descent.Proofs.Grammar.Attempts
import Descent.Proofs.Grammar.Segments
import Descent.Proofs.Tokenizer.Concatenation
import Descent.Proofs.Tokenizer.RuleOrder
import Descent.Proofs.Tokenizer.Building
import Descent.Proofs.Tokenizer.Extension
import Descent.Proofs.Listing.Symbols
import Descent.Proofs.Text.Quoted
import Descent.Proofs.Token.Dump
