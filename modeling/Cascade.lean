import Cascade.Main
import Cascade.Text.Indent
import Cascade.Proofs.Balance
import Cascade.Proofs.SelectorValues
import Cascade.Proofs.References
import Cascade.Proofs.ExpansionOrder
import Cascade.Proofs.Termination
import Cascade.Proofs.Inlining
import Cascade.Proofs.Grouping
import Cascade.Proofs.Kinship
import Cascade.Proofs.Simulation
import Cascade.Proofs.MixinSimulation
import Cascade.Proofs.StatementSimulation
import Cascade.Proofs.Numerals
import Cascade.Proofs.Escapes
import Cascade.Proofs.Lexemes
import Cascade.Proofs.Joining
import Cascade.Proofs.Lookahead
import Cascade.Proofs.Spelling
import Cascade.Proofs.RoundTrip
import Cascade.Proofs.ShortNumbers
import Cascade.Proofs.ShortForms
import Cascade.Proofs.SelfReference
import Cascade.Proofs.Fixpoints
import Cascade.Proofs.Definitions
import Cascade.Proofs.Substitution
import Cascade.Proofs.SubstitutionTermination
import Cascade.Proofs.Composition
import Cascade.Proofs.Limits
import Cascade.Proofs.Readings
import Cascade.Proofs.Expansions
import Cascade.Proofs.SelectorGrammar
import Cascade.Proofs.SelectorReading
import Cascade.Proofs.SelectorLists
import Cascade.Proofs.SelectorLanguage
import Cascade.Proofs.Gathering
import Cascade.Proofs.SelectorGroups
import Cascade.Proofs.Following
import Cascade.Proofs.Continuation
import Cascade.Proofs.FollowingStatements
import Cascade.Proofs.LexicalGrammar
import Cascade.Proofs.Coverage
import Cascade.Proofs.Provenance
import Cascade.Proofs.SoundReading
import Cascade.Proofs.Faults
import Cascade.Proofs.Layout
import Cascade.Proofs.StyleRules
import Cascade.Proofs.FlatTexts
import Cascade.Proofs.Placement
import Cascade.Proofs.ParentReferences
import Cascade.Proofs.SourceTokens
import Cascade.Proofs.SingleTokens
import Cascade.Proofs.WrittenPairs
import Cascade.Proofs.Sums
import Cascade.Proofs.Adjacency
import Cascade.Proofs.SelectorTokens
import Cascade.Proofs.ResolvedSelectors
import Cascade.Proofs.WrittenSelectors
import Cascade.Proofs.WrittenArguments
import Cascade.Proofs.Spacing
import Cascade.Proofs.EnclosedTexts
import Cascade.Proofs.PlainArguments
import Cascade.Proofs.SelectorRoundTrip
import Cascade.Proofs.PrettySelectors
import Cascade.Proofs.Contents
import Cascade.Proofs.Instantiation
import Cascade.Proofs.FlatBlocks
import Cascade.Proofs.ValuesInPlace
import Cascade.Proofs.Matching
import Cascade.Proofs.PairedReading
import Cascade.Proofs.OpenBodies
import Cascade.Proofs.BodyEnds
import Cascade.Proofs.NumberGrammar
import Cascade.Proofs.PlainNumbers
import Cascade.Proofs.Importance
import Cascade.Proofs.Outcomes
import Cascade.Proofs.ListReading
import Cascade.Proofs.Relocation
import Cascade.Proofs.Headers
import Cascade.Proofs.WrittenLines
import Cascade.Proofs.Documents
import Cascade.Proofs.OutputPaths
import Cascade.Proofs.BracketDepth
import Cascade.Proofs.PlainCompounds
