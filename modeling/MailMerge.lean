import MailMerge.Main
import MailMerge.Proofs.LexicalScope
import MailMerge.Proofs.Chains
import MailMerge.Proofs.ElementGrammar
import MailMerge.Proofs.ConditionGrammar
import MailMerge.Proofs.Balance
import MailMerge.Proofs.TemplateGrammar
import MailMerge.Proofs.JsonReading
import MailMerge.Proofs.JsonNumbers
import MailMerge.Proofs.JsonRoundTrip
import MailMerge.Proofs.Patterns
import MailMerge.Proofs.Agreement
import MailMerge.Proofs.RecordLookup
import MailMerge.Proofs.Substitution
import MailMerge.Proofs.Concatenation
import MailMerge.Proofs.ItemPaths
import MailMerge.Proofs.LoopUnrolling
import MailMerge.Proofs.SteadyParsing
import MailMerge.Proofs.Relocation
import MailMerge.Proofs.Splitting
import MailMerge.Proofs.Juxtaposition
import MailMerge.Proofs.ItemRenaming
import MailMerge.Proofs.Disk
import MailMerge.Proofs.Documents
import MailMerge.Proofs.FileWriting
import MailMerge.Proofs.NumberedDocuments
import MailMerge.Proofs.PlainRendering
import MailMerge.Proofs.SingleRecord
import MailMerge.Proofs.UnnamedMembers
import MailMerge.Proofs.Escaping
import MailMerge.Proofs.MacroBlocks
import MailMerge.Proofs.Isolation
import MailMerge.Proofs.StoredTree
import MailMerge.Proofs.TokenJoining
import MailMerge.Proofs.Connectives
import MailMerge.Proofs.RepeatedMembers
import MailMerge.Proofs.HandedOut
import MailMerge.Proofs.NumberTexts
import MailMerge.Proofs.Accesses
import MailMerge.Proofs.BlockLines
import MailMerge.Proofs.TokenSpelling
import MailMerge.Proofs.TokenSpacing
import MailMerge.Proofs.WrittenElements
import MailMerge.Proofs.ReplacedPatterns
import MailMerge.Proofs.RewrittenSources
import MailMerge.Proofs.UnrolledSources
import MailMerge.Proofs.RenamedSources
import MailMerge.Proofs.OpenBlocks
import MailMerge.Proofs.TokenPlaces
import MailMerge.Proofs.ErrorPlaces
import MailMerge.Proofs.ErrorLines
import MailMerge.Proofs.PatternMeaning
import MailMerge.Proofs.MissingValues
import MailMerge.Proofs.StringConstants
import MailMerge.Proofs.GlobExpressions
import MailMerge.Proofs.MacroTables
import MailMerge.Proofs.MacroOrder
import MailMerge.Proofs.FileLines
import MailMerge.Proofs.UnknownKinds
import MailMerge.Proofs.KindBarriers
import MailMerge.Proofs.GroupedKinds
import MailMerge.Proofs.NamedDocuments
import MailMerge.Proofs.PatternComposition
