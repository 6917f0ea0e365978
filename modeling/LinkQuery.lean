import LinkQuery.Main
import LinkQuery.Proofs.Acceptance
import LinkQuery.Proofs.AcceptedTexts
import LinkQuery.Proofs.Arithmetic
import LinkQuery.Proofs.Beginnings
import LinkQuery.Proofs.CallTexts
import LinkQuery.Proofs.Coverage
import LinkQuery.Proofs.CurrentPeriods
import LinkQuery.Proofs.Dates
import LinkQuery.Proofs.Descents
import LinkQuery.Proofs.ErrorPositions
import LinkQuery.Proofs.Evaluability
import LinkQuery.Proofs.FieldTrees
import LinkQuery.Proofs.FilterTexts
import LinkQuery.Proofs.GroupCycles
import LinkQuery.Proofs.GroupExpansion
import LinkQuery.Proofs.GroupMeaning
import LinkQuery.Proofs.HeightLimit
import LinkQuery.Proofs.Idempotence
import LinkQuery.Proofs.Lexing
import LinkQuery.Proofs.LinkFilters
import LinkQuery.Proofs.LocalTimes
import LinkQuery.Proofs.MetricFilters
import LinkQuery.Proofs.MetricHeights
import LinkQuery.Proofs.Mirroring
import LinkQuery.Proofs.MissingMeaning
import LinkQuery.Proofs.NestingLimit
import LinkQuery.Proofs.Numerals
import LinkQuery.Proofs.OffsetZones
import LinkQuery.Proofs.Opposites
import LinkQuery.Proofs.PathMeaning
import LinkQuery.Proofs.Phrases
import LinkQuery.Proofs.PlainPaths
import LinkQuery.Proofs.Precedence
import LinkQuery.Proofs.Primitives
import LinkQuery.Proofs.PrintedTerms
import LinkQuery.Proofs.Printing
import LinkQuery.Proofs.PromotedMeaning
import LinkQuery.Proofs.QuantifierForms
import LinkQuery.Proofs.RelativeTime
import LinkQuery.Proofs.Relaying
import LinkQuery.Proofs.RepeatedLinks
import LinkQuery.Proofs.Rereading
import LinkQuery.Proofs.Rollback
import LinkQuery.Proofs.Settling
import LinkQuery.Proofs.SpelledFilters
import LinkQuery.Proofs.TermPhrases
import LinkQuery.Proofs.Termination
import LinkQuery.Proofs.TimestampForms
import LinkQuery.Proofs.Timestamps
import LinkQuery.Proofs.Typing
import LinkQuery.Proofs.UnitPartition
import LinkQuery.Settings.Document
import LinkQuery.Store.Evaluation
