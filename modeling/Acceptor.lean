import Acceptor.Codegen.Evaluation
import Acceptor.Codegen.Expansion
import Acceptor.Codegen.Program
import Acceptor.Drawing.Look
import Acceptor.Drawing.Reading
import Acceptor.Label
import Acceptor.Nfa.Path
import Acceptor.Pattern.Blocks
import Acceptor.Pattern.Descent
import Acceptor.Pattern.Grammar
import Acceptor.Pattern.Language
import Acceptor.Pattern.Matcher
import Acceptor.Pattern.Print
import Acceptor.Pattern.Regroup
import Acceptor.Pattern.Scan
import Acceptor.Pattern.Traversal
import Acceptor.Pushdown.FreeMoves
import Acceptor.Pushdown.Languages
import Acceptor.Pushdown.Memory
import Acceptor.Pushdown.Run
import Acceptor.Proofs.Codegen.Errors
import Acceptor.Proofs.Codegen.Expressions
import Acceptor.Proofs.Codegen.Literals
import Acceptor.Proofs.Codegen.Spelling
import Acceptor.Proofs.Codegen.Tokens
import Acceptor.Proofs.Codegen.Walk
import Acceptor.Proofs.Dfa.Canonical
import Acceptor.Proofs.Dfa.Consumed
import Acceptor.Proofs.Dfa.Counting
import Acceptor.Proofs.Dfa.Dead
import Acceptor.Proofs.Dfa.Functional
import Acceptor.Proofs.Dfa.Hopeless
import Acceptor.Proofs.Dfa.Layout
import Acceptor.Proofs.Dfa.Numbering
import Acceptor.Proofs.Dfa.Renaming
import Acceptor.Proofs.Diagram
import Acceptor.Proofs.Distance
import Acceptor.Proofs.Drawing.Labels
import Acceptor.Proofs.Drawing.Looks
import Acceptor.Proofs.Drawing.Reading
import Acceptor.Proofs.Nfa.Closure
import Acceptor.Proofs.Nfa.Discovery
import Acceptor.Proofs.Nfa.Kept
import Acceptor.Proofs.Nfa.Lockstep
import Acceptor.Proofs.Nfa.Recognized
import Acceptor.Proofs.Nfa.Renaming
import Acceptor.Proofs.Nfa.Singletons
import Acceptor.Proofs.Pattern.Blocks
import Acceptor.Proofs.Pattern.Descent
import Acceptor.Proofs.Pattern.Faults
import Acceptor.Proofs.Pattern.Freshness
import Acceptor.Proofs.Pattern.IdleBrackets
import Acceptor.Proofs.Pattern.Layout
import Acceptor.Proofs.Pattern.Matcher
import Acceptor.Proofs.Pattern.Printing
import Acceptor.Proofs.Pattern.Reading
import Acceptor.Proofs.Pattern.Recognition
import Acceptor.Proofs.Pattern.Regroup
import Acceptor.Proofs.Pattern.RoundTrip
import Acceptor.Proofs.Pattern.Shortest
import Acceptor.Proofs.Pattern.Traversal
import Acceptor.Proofs.Pattern.Trim
import Acceptor.Proofs.Pattern.Writing
import Acceptor.Proofs.Pushdown.Frame
import Acceptor.Proofs.Pushdown.Greedy
import Acceptor.Proofs.Pushdown.History
import Acceptor.Proofs.Pushdown.Languages
import Acceptor.Proofs.Pushdown.Memory
import Acceptor.Proofs.Pushdown.Ranked
import Acceptor.Proofs.Pushdown.Settling
import Acceptor.Proofs.Recognizer
import Acceptor.Proofs.Search
import Acceptor.Proofs.SearchOrder
import Acceptor.Proofs.Text.Classes
