import HandlerGrammar.WordSet
import HandlerGrammar.Token
import HandlerGrammar.Text.Quoted
import HandlerGrammar.Text.Escape
import HandlerGrammar.Text.Source
import HandlerGrammar.Decimal.Shortest
import HandlerGrammar.Lexeme.Reading
import HandlerGrammar.TokenStream
import HandlerGrammar.ParseTree
import HandlerGrammar.Grammar.Parse
import HandlerGrammar.Registry.Basic
import HandlerGrammar.Proofs.Stream.Classification
import HandlerGrammar.Proofs.Stream.Delivery
import HandlerGrammar.Proofs.Matching.Contracts
import HandlerGrammar.Proofs.Matching.Prediction
import HandlerGrammar.Proofs.Matching.Derivation
import HandlerGrammar.Proofs.Matching.Termination
import HandlerGrammar.Proofs.Stream.Lookahead
import HandlerGrammar.Proofs.Matching.Parsing
import HandlerGrammar.Proofs.Document.Language
import HandlerGrammar.Proofs.Document.Layout
import HandlerGrammar.Proofs.Document.Matching
import HandlerGrammar.Proofs.Document.Drafting
import HandlerGrammar.Proofs.Document.Acceptance
import HandlerGrammar.Proofs.Registry.Forest
import HandlerGrammar.Proofs.Registry.Cycles
import HandlerGrammar.Proofs.Registry.Chains
import HandlerGrammar.Proofs.Registry.Assembly
import HandlerGrammar.Proofs.Registry.Sorting
import HandlerGrammar.Proofs.Registry.History
import HandlerGrammar.Proofs.Arena.Calls
import HandlerGrammar.Proofs.Document.Transcript
import HandlerGrammar.Proofs.Matching.ContextFree
import HandlerGrammar.Proofs.Tree.Gathering
import HandlerGrammar.Proofs.Matching.Assembly
import HandlerGrammar.Proofs.Document.Parts
import HandlerGrammar.Proofs.Document.Nesting
import HandlerGrammar.Proofs.Transform.Runs
import HandlerGrammar.Proofs.Document.Wrappers
import HandlerGrammar.Proofs.Document.Containers
import HandlerGrammar.Proofs.Matching.Depth
import HandlerGrammar.Proofs.Stream.View
import HandlerGrammar.Proofs.Parsing.View
import HandlerGrammar.Proofs.Parsing.Session
import HandlerGrammar.Proofs.Document.Generation
import HandlerGrammar.Proofs.Parsing.Soundness
import HandlerGrammar.Proofs.Parsing.Foresight
import HandlerGrammar.Proofs.Parsing.FirstTokens
import HandlerGrammar.Proofs.Matching.Frontier
import HandlerGrammar.Proofs.Parsing.Ending
import HandlerGrammar.Proofs.Parsing.Conservation
import HandlerGrammar.Proofs.Document.Formation
import HandlerGrammar.Proofs.Document.GenericJson
import HandlerGrammar.Proofs.Tree.Mapping
import HandlerGrammar.Proofs.Document.Reservation
import HandlerGrammar.Proofs.Document.Unparsing
import HandlerGrammar.Proofs.Parsing.Dispatch
import HandlerGrammar.Proofs.Matching.Entering
import HandlerGrammar.Proofs.Matching.Recording
import HandlerGrammar.Proofs.Parsing.Mismatch
import HandlerGrammar.Proofs.Matching.Tally
import HandlerGrammar.Proofs.Parsing.LineOrder
import HandlerGrammar.Proofs.Transform.Folding
import HandlerGrammar.Proofs.Transform.StartLine
import HandlerGrammar.Proofs.Tree.Opening
import HandlerGrammar.Proofs.Document.MemberOrder
import HandlerGrammar.Proofs.Document.SourceOrder
import HandlerGrammar.Proofs.Matching.References
import HandlerGrammar.Proofs.Arena.Closing
import HandlerGrammar.Proofs.Arena.Renumbering
import HandlerGrammar.Proofs.Registry.Batches
import HandlerGrammar.Proofs.Transform.NormalForm
import HandlerGrammar.Proofs.Parsing.Repetition
import HandlerGrammar.Proofs.Scanning.Rejection
import HandlerGrammar.Proofs.Scanning.Printing
import HandlerGrammar.Proofs.Scanning.Escapes
import HandlerGrammar.Proofs.Scanning.Literals
import HandlerGrammar.Proofs.Stream.LineNumbers
import HandlerGrammar.Proofs.Stream.Refilling
import HandlerGrammar.Proofs.Matching.Inspection
import HandlerGrammar.Proofs.Scanning.Integers
import HandlerGrammar.Proofs.Tree.Regrouping
import HandlerGrammar.Proofs.Document.Shapes
