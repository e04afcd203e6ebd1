import RegexAutomaton.Expression.Alternatives
import RegexAutomaton.Expression.Course
import RegexAutomaton.Expression.Matching
import RegexAutomaton.Expression.Pattern
import RegexAutomaton.Expression.Stars
import RegexAutomaton.Main
import RegexAutomaton.Nfa.Consistent
import RegexAutomaton.Nfa.Construction
import RegexAutomaton.Nfa.Determined
import RegexAutomaton.Nfa.Embedding
import RegexAutomaton.Nfa.Isomorphism
import RegexAutomaton.Nfa.Language
import RegexAutomaton.Nfa.Looping
import RegexAutomaton.Nfa.Trim
import RegexAutomaton.Nfa.Unlinking
import RegexAutomaton.Proofs.Alternation
import RegexAutomaton.Proofs.Brackets
import RegexAutomaton.Proofs.Consistency
import RegexAutomaton.Proofs.Determinism
import RegexAutomaton.Proofs.Discovery
import RegexAutomaton.Proofs.Embedding
import RegexAutomaton.Proofs.Extension
import RegexAutomaton.Proofs.FinalStars
import RegexAutomaton.Proofs.Grouping
import RegexAutomaton.Proofs.Inlay
import RegexAutomaton.Proofs.Isomorphisms
import RegexAutomaton.Proofs.Iteration
import RegexAutomaton.Proofs.Legibility
import RegexAutomaton.Proofs.Looping
import RegexAutomaton.Proofs.Products
import RegexAutomaton.Proofs.Repetition
import RegexAutomaton.Proofs.Retreats
import RegexAutomaton.Proofs.Sizes
import RegexAutomaton.Proofs.Transcripts
import RegexAutomaton.Proofs.Trimness
import RegexAutomaton.Proofs.Unlinking
import RegexAutomaton.Proofs.Unstarred
import RegexAutomaton.Table.Legible
import RegexAutomaton.Table.Loops
