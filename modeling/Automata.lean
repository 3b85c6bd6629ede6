import Automata.Text.Quoted
import Automata.Text.Blank
import Automata.Text.Lines
import Automata.Text.Style
import Automata.Label
import Automata.Flags
import Automata.Error
import Automata.Distinct
import Automata.Nfa.Basic
import Automata.Discovery
import Automata.Event
import Automata.Table
import Automata.Nfa.Closure
import Automata.Nfa.Run
import Automata.Nfa.Printer
import Automata.Dfa.Basic
import Automata.Dfa.Run
import Automata.Dfa.Printer
import Automata.Nfa.Subset
import Automata.Nfa.SubsetName
import Automata.Dfa.OfNfa
import Automata.Nfa.Copy
import Automata.Nfa.Fragment
import Automata.Pattern.Reading
import Automata.Pattern.Compile
import Automata.Pattern.Parser
import Automata.Pattern.Build
import Automata.Description.Combinators
import Automata.Description.Reader
import Automata.Description.Build
import Automata.Nfa.Lemmas
import Automata.Nfa.Path
import Automata.Pattern.Language
import Automata.Pattern.Grammar
import Automata.Dfa.Lemmas
import Automata.Proofs.Discovery
import Automata.Proofs.Nfa.WellFormed
import Automata.Proofs.Nfa.Run
import Automata.Proofs.Nfa.Copy
import Automata.Proofs.Nfa.Combination
import Automata.Proofs.Nfa.Fragment
import Automata.Proofs.Pattern.Parser
import Automata.Proofs.Pattern.Derivation
import Automata.Proofs.Pattern.Build
import Automata.Proofs.Pattern.Place
import Automata.Proofs.Pattern.Productions
import Automata.Proofs.Pattern.Compile
import Automata.Proofs.Pattern.Fault
import Automata.Proofs.Nfa.Subset
import Automata.Proofs.Nfa.SubsetName
import Automata.Proofs.Dfa.Run
import Automata.Proofs.Dfa.OfNfa
import Automata.Proofs.Dfa.Determinized
import Automata.Proofs.Dfa.Outcome
import Automata.Proofs.Description.Build
import Automata.Proofs.Description.Words
import Automata.Proofs.Description.Format
import Automata.Proofs.Description.Listing
import Automata.Proofs.Description.Reader
import Automata.Proofs.Dfa.Unambiguous
import Automata.Proofs.History
import Automata.Proofs.Nfa.History
import Automata.Proofs.Dfa.History
import Automata.Proofs.Dfa.Mirror
import Automata.Proofs.Description.Readings
import Automata.Proofs.Nfa.Trim
import Automata.Proofs.Dfa.DeadState
import Automata.Proofs.Pattern.Trim
import Automata.Proofs.Nfa.Order
import Automata.Proofs.Dfa.Order
import Automata.Proofs.Distance
import Automata.Proofs.Nfa.Closure
import Automata.Proofs.Dfa.Finality
import Automata.Proofs.Pattern.States
import Automata.Proofs.Nfa.Extension
import Automata.Proofs.Dfa.Totality
import Automata.Proofs.Pattern.Reading
import Automata.Proofs.FirstWord
import Automata.Proofs.Dfa.Layout
import Automata.Proofs.Table
import Automata.Proofs.Printer
import Automata.Proofs.Nfa.EdgeCopy
