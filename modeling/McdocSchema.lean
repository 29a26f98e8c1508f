import McdocSchema.Coverage
import McdocSchema.Main
import McdocSchema.Profile.Share
import McdocSchema.Proofs.Acceptance
import McdocSchema.Proofs.BrokenTexts
import McdocSchema.Proofs.CanonicalForm
import McdocSchema.Proofs.Compiled
import McdocSchema.Proofs.CompiledShape
import McdocSchema.Proofs.Completion
import McdocSchema.Proofs.Concatenation
import McdocSchema.Proofs.Containment
import McdocSchema.Proofs.CorrectPrefix
import McdocSchema.Proofs.DecimalValue
import McdocSchema.Proofs.DeclarationRuns
import McdocSchema.Proofs.DeclaredFields
import McdocSchema.Proofs.DefinitionTable
import McdocSchema.Proofs.Denotation
import McdocSchema.Proofs.Derivation
import McdocSchema.Proofs.DistinctSchemas
import McdocSchema.Proofs.DocComments
import McdocSchema.Proofs.DocumentAcceptance
import McdocSchema.Proofs.EditedRuns
import McdocSchema.Proofs.EditedTexts
import McdocSchema.Proofs.EditedTrees
import McdocSchema.Proofs.Edits
import McdocSchema.Proofs.EmittedTypes
import McdocSchema.Proofs.Failures
import McdocSchema.Proofs.Fingerprints
import McdocSchema.Proofs.FolderRun
import McdocSchema.Proofs.FolderSources
import McdocSchema.Proofs.GeneratedJson
import McdocSchema.Proofs.Grammar
import McdocSchema.Proofs.History
import McdocSchema.Proofs.Imports
import McdocSchema.Proofs.IntegerBounds
import McdocSchema.Proofs.JoinedText
import McdocSchema.Proofs.JoinedTokens
import McdocSchema.Proofs.JsonGrammar
import McdocSchema.Proofs.JsonNumbers
import McdocSchema.Proofs.JsonText
import McdocSchema.Proofs.Legible
import McdocSchema.Proofs.LengthFaults
import McdocSchema.Proofs.LengthRanges
import McdocSchema.Proofs.LexemeRests
import McdocSchema.Proofs.Locality
import McdocSchema.Proofs.Locating
import McdocSchema.Proofs.Meaning
import McdocSchema.Proofs.Mirror
import McdocSchema.Proofs.NodePositions
import McdocSchema.Proofs.NodeTokens
import McdocSchema.Proofs.NumberLiterals
import McdocSchema.Proofs.NumberText
import McdocSchema.Proofs.NumberTokens
import McdocSchema.Proofs.Numbering
import McdocSchema.Proofs.Numerals
import McdocSchema.Proofs.Printer
import McdocSchema.Proofs.RangeText
import McdocSchema.Proofs.ReadBack
import McdocSchema.Proofs.Relocation
import McdocSchema.Proofs.RemoteWalk
import McdocSchema.Proofs.Renaming
import McdocSchema.Proofs.Requests
import McdocSchema.Proofs.Respacing
import McdocSchema.Proofs.RoundTrip
import McdocSchema.Proofs.Runs
import McdocSchema.Proofs.ScannedNumbers
import McdocSchema.Proofs.ScannedParts
import McdocSchema.Proofs.Seam
import McdocSchema.Proofs.Spelling
import McdocSchema.Proofs.SpotRuns
import McdocSchema.Proofs.Spots
import McdocSchema.Proofs.Spreads
import McdocSchema.Proofs.StringLiterals
import McdocSchema.Proofs.Tiling
import McdocSchema.Proofs.TreeGrowth
import McdocSchema.Proofs.TruePositions
import McdocSchema.Proofs.Tuples
import McdocSchema.Proofs.TypeRuns
import McdocSchema.Proofs.Writing
import McdocSchema.Proofs.WrittenLabels
import McdocSchema.Proofs.WrittenPaths
import McdocSchema.Proofs.WrittenPlaces
import McdocSchema.Round
import McdocSchema.SelfCheck
import McdocSchema.Value.Element
import McdocSchema.Workload
