import MinimalistGrammar.Derivation.Node
import MinimalistGrammar.Main
import MinimalistGrammar.Proofs.Parse.Agreement
import MinimalistGrammar.Proofs.Parse.Bounds
import MinimalistGrammar.Proofs.Parse.Completeness
import MinimalistGrammar.Proofs.Parse.Items
import MinimalistGrammar.Proofs.Parse.Linearization
import MinimalistGrammar.Proofs.Parse.Movement
import MinimalistGrammar.Proofs.Parse.Outcome
import MinimalistGrammar.Proofs.Parse.Phase
import MinimalistGrammar.Proofs.Parse.Projection
import MinimalistGrammar.Proofs.Parse.ShortestMove
import MinimalistGrammar.Proofs.Parse.Text
import MinimalistGrammar.Proofs.Parse.Validity
import MinimalistGrammar.Proofs.Sat.Replies
import MinimalistGrammar.Proofs.Sat.Completion
import MinimalistGrammar.Proofs.Sat.Limit
import MinimalistGrammar.Proofs.Encoding.Skeleton
import MinimalistGrammar.Proofs.Parse.Requirements
import MinimalistGrammar.Derivation.Placement
import MinimalistGrammar.Proofs.Derivation.Placement
import MinimalistGrammar.Proofs.Derivation.Linearization
import MinimalistGrammar.Proofs.Selection.Pronunciation
import MinimalistGrammar.Proofs.Parse.Pronunciation
import MinimalistGrammar.Proofs.Sat.Timeout
import MinimalistGrammar.Proofs.Parse.Predication
import MinimalistGrammar.Proofs.Sat.Normal
import MinimalistGrammar.Proofs.Lexicon.Pattern
import MinimalistGrammar.Proofs.Lexicon.Compact
import MinimalistGrammar.Proofs.Lexicon.Export
import MinimalistGrammar.Proofs.Parse.Configuration
import MinimalistGrammar.Proofs.Parse.Families
import MinimalistGrammar.Proofs.Schema.Table
