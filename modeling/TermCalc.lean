import TermCalc.Main
import TermCalc.Evaluation.Direct
import TermCalc.Proofs.Evaluation.Fuel
import TermCalc.Proofs.Registry.Building
import TermCalc.Proofs.Evaluation.Stackless
import TermCalc.Proofs.Registry.Table
import TermCalc.Proofs.Syntax.Grammar
import TermCalc.Proofs.Syntax.Layout
import TermCalc.Proofs.Syntax.Lexing
import TermCalc.Proofs.Syntax.Spelling
import TermCalc.Proofs.Syntax.Rereading
import TermCalc.Proofs.Syntax.RoundTrip
import TermCalc.Proofs.Term.Regrouping
import TermCalc.Proofs.Syntax.Regrouping
import TermCalc.Proofs.Syntax.Reprinting
import TermCalc.Proofs.Evaluation.Values
import TermCalc.Proofs.Evaluation.Failures
import TermCalc.Proofs.Evaluation.Discipline
import TermCalc.Proofs.Syntax.Nodes
import TermCalc.Proofs.Syntax.Readers
import TermCalc.Proofs.Syntax.Tiling
import TermCalc.Proofs.Term.Places
import TermCalc.Proofs.Evaluation.Blindness
import TermCalc.Proofs.Number.Literals
import TermCalc.Proofs.Syntax.Appending
import TermCalc.Proofs.Syntax.Joining
import TermCalc.Proofs.Evaluation.Sequencing
import TermCalc.Proofs.Evaluation.Lockstep
import TermCalc.Proofs.Registry.History
import TermCalc.Proofs.Term.Equivalence
import TermCalc.Proofs.Term.Proper
import TermCalc.Proofs.Results
import TermCalc.Proofs.Evaluation.Computing
import TermCalc.Proofs.Term.Printing
import TermCalc.Proofs.Syntax.Faults
import TermCalc.Proofs.Session.Statements
import TermCalc.Proofs.Evaluation.Safety
import TermCalc.Proofs.Session.Programs
import TermCalc.Proofs.Session.Safety
import TermCalc.Proofs.Evaluation.Framing
import TermCalc.Proofs.Session.Delivery
import TermCalc.Proofs.Registry.Agreement
import TermCalc.Proofs.Session.Ordering
import TermCalc.Proofs.Syntax.Blanks
import TermCalc.Proofs.Syntax.Chains
import TermCalc.Proofs.Syntax.Displacement
import TermCalc.Proofs.Syntax.Bodies
import TermCalc.Proofs.Evaluation.Unfolding
import TermCalc.Proofs.Term.Backends
import TermCalc.Proofs.Evaluation.Writing
import TermCalc.Proofs.Syntax.Spacing
import TermCalc.Proofs.Syntax.Parentheses
import TermCalc.Proofs.Syntax.Embedding
import TermCalc.Proofs.Evaluation.Blocks
import TermCalc.Proofs.Syntax.Calls
import TermCalc.Proofs.Registry.Admission
import TermCalc.Proofs.Evaluation.Assigning
import TermCalc.Proofs.Evaluation.Structure
import TermCalc.Proofs.Term.Renaming
import TermCalc.Proofs.Evaluation.Marking
import TermCalc.Proofs.Evaluation.Quiet
import TermCalc.Proofs.Session.Marking
import TermCalc.Proofs.Syntax.Positions
import TermCalc.Proofs.Number.Longest
import TermCalc.Proofs.Syntax.Strings
import TermCalc.Proofs.Evaluation.Conversion
import TermCalc.Proofs.Term.Settling
import TermCalc.Proofs.Term.Visits
