import Hornbase.Command
import Hornbase.Derivation
import Hornbase.Document
import Hornbase.Interpreter
import Hornbase.Proofs.Branch
import Hornbase.Proofs.Queries
import Hornbase.Value
import Hornbase.Proofs.Labelling
import Hornbase.Proofs.Grounding
import Hornbase.Proofs.Soundness
import Hornbase.Proofs.Completeness
import Hornbase.Proofs.Repetition
import Hornbase.Proofs.Explanation
import Hornbase.Proofs.Templates
import Hornbase.Proofs.Lifetimes
import Hornbase.Proofs.Verdicts
import Hornbase.Proofs.CallGraph
import Hornbase.Proofs.Pruning
import Hornbase.Proofs.Answers
import Hornbase.Proofs.Filtering
import Hornbase.Proofs.ClauseOrder
import Hornbase.Proofs.GoalOrder
import Hornbase.Proofs.Additions
import Hornbase.Proofs.Persistence
import Hornbase.Proofs.Thinning
import Hornbase.Proofs.Isolation
import Hornbase.Proofs.Loading
import Hornbase.Proofs.Duplicates
import Hornbase.Proofs.FactMatching
import Hornbase.Proofs.DistinctFacts
import Hornbase.Proofs.HeadPositions
import Hornbase.Proofs.Forwarding
import Hornbase.Proofs.Refusals
import Hornbase.Proofs.Operands
import Hornbase.Proofs.Links
import Hornbase.Proofs.Retries
