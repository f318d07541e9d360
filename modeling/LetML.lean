import LetML.Main
import LetML.Proofs.Instance
import LetML.Proofs.Unification
import LetML.Session.Files
import LetML.Proofs.Environment
import LetML.Proofs.Covering
import LetML.Proofs.Typing
import LetML.Proofs.Patterns
import LetML.Proofs.Soundness
import LetML.Proofs.Completeness
import LetML.Proofs.Growth
import LetML.Proofs.ValueTyping
import LetML.Proofs.Safety
import LetML.Proofs.Normalize
import LetML.Proofs.SessionInvariant
import LetML.Proofs.FreeNames
import LetML.Proofs.Evaluation
import LetML.Proofs.Resemblance
import LetML.Proofs.ClauseSemantics
import LetML.Proofs.ClauseTyping
import LetML.Proofs.Capture
import LetML.Proofs.Grammar
import LetML.Proofs.Unambiguous
import LetML.Proofs.ParserRun
import LetML.Proofs.ParserCompleteness
import LetML.Proofs.ParserSoundness
import LetML.Proofs.Lexing
import LetML.Proofs.StatementText
import LetML.Proofs.Loading
import LetML.Proofs.Journal
import LetML.Proofs.Slots
import LetML.Proofs.SessionSlots
import LetML.Proofs.Simulation
import LetML.Proofs.Correspondence
import LetML.Proofs.NestedLet
import LetML.Proofs.MostGeneral
import LetML.Proofs.WrittenTrees
import LetML.Proofs.Tracing
import LetML.Proofs.MentionedTypes
import LetML.Proofs.SessionSameness
import LetML.Proofs.MentionedNames
import LetML.Proofs.Dialogue
import LetML.Proofs.AlphaEquivalence
import LetML.Proofs.SchemeText
import LetML.Proofs.Spelling
import LetML.Proofs.SourceText
import LetML.Proofs.Acceptance
import LetML.Proofs.Faults
import LetML.Proofs.Viability
import LetML.Proofs.SyntaxErrors
import LetML.Proofs.Computation
import LetML.Proofs.ListLiterals
import LetML.Proofs.SchemeNames
import LetML.Proofs.PreludeText
import LetML.Proofs.Equations
import LetML.Proofs.ListFunctions
import LetML.Proofs.PreludeSession
import LetML.Proofs.PreludeLaws
import LetML.Proofs.Composition
import LetML.Proofs.DataText
import LetML.Proofs.Shift
import LetML.Proofs.ShiftedRuns
import LetML.Proofs.LongestMatch
import LetML.Proofs.Tiling
import LetML.Proofs.Persistence
import LetML.Proofs.Hygiene
import LetML.Proofs.Matching
import LetML.Proofs.Termination
