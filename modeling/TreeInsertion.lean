import TreeInsertion.Main
import TreeInsertion.Grammar.Printer
import TreeInsertion.Proofs.Lexicon
import TreeInsertion.Proofs.Selection
import TreeInsertion.Proofs.Chart.Growth
import TreeInsertion.Proofs.Chart.Derivations
import TreeInsertion.Proofs.Chart.Schedule
import TreeInsertion.Proofs.Chart.Closure
import TreeInsertion.Proofs.Chart.Stages
import TreeInsertion.Proofs.Chart.Frontier
import TreeInsertion.Proofs.Chart.Strict
import TreeInsertion.Proofs.Chart.Substitution
import TreeInsertion.Proofs.Forest.Insertion
import TreeInsertion.Proofs.Forest.Unpacking
import TreeInsertion.Proofs.Wrapping
import TreeInsertion.Proofs.Forest.Cycles
import TreeInsertion.Proofs.Forest.Account
import TreeInsertion.Proofs.Forest.Recounting
import TreeInsertion.Proofs.Forest.Stems
import TreeInsertion.Proofs.AnchorPlaces
import TreeInsertion.Proofs.Forest.Windows
import TreeInsertion.Proofs.Forest.Trees
import TreeInsertion.Proofs.Forest.Splitting
import TreeInsertion.Proofs.Forest.Determination
import TreeInsertion.Proofs.Forest.Ambiguity
import TreeInsertion.Proofs.Candidates
import TreeInsertion.Proofs.Occurrences
import TreeInsertion.Proofs.RuleOrder
import TreeInsertion.Proofs.Relevance
import TreeInsertion.Proofs.Forest.Enumeration
import TreeInsertion.Proofs.Forest.Descent
import TreeInsertion.Proofs.Forest.Packing
import TreeInsertion.Proofs.Forest.Union
import TreeInsertion.Proofs.Forest.Support
import TreeInsertion.Proofs.Decimal.Bits
import TreeInsertion.Proofs.Decimal.RoundTrip
import TreeInsertion.Proofs.Grammar.Tokens
import TreeInsertion.Proofs.Grammar.Statements
import TreeInsertion.Proofs.Grammar.RoundTrip
import TreeInsertion.Proofs.Weights
import TreeInsertion.Proofs.Grammar.InStep
import TreeInsertion.Proofs.Leaves
import TreeInsertion.Proofs.Forest.Fit
import TreeInsertion.Proofs.Forest.Grove
import TreeInsertion.Proofs.Forest.Drawing
import TreeInsertion.Proofs.Grammar.Progress
