import PrismaTypes.Command.Arguments
import PrismaTypes.Command.Failure
import PrismaTypes.Command.Host
import PrismaTypes.Command.LogLine
import PrismaTypes.Command.LogSettings
import PrismaTypes.Command.Project
import PrismaTypes.Command.Run
import PrismaTypes.Command.Terminal
import PrismaTypes.Command.Usage
import PrismaTypes.Config.Basic
import PrismaTypes.Config.Mapping
import PrismaTypes.Config.Reader
import PrismaTypes.Config.Violation
import PrismaTypes.Decimal.Digits
import PrismaTypes.Decimal.Double
import PrismaTypes.Decimal.Layout
import PrismaTypes.Decimal.Numeral
import PrismaTypes.Decimal.Scaled
import PrismaTypes.Decimal.Shortest
import PrismaTypes.Files.Error
import PrismaTypes.Files.Path
import PrismaTypes.Files.Tree
import PrismaTypes.Grammar.Attempts
import PrismaTypes.Grammar.Match
import PrismaTypes.Grammar.Node
import PrismaTypes.Grammar.Pattern
import PrismaTypes.Grammar.Report
import PrismaTypes.Grammar.Rule
import PrismaTypes.Grammar.Token
import PrismaTypes.Json.Fault
import PrismaTypes.Json.Printer
import PrismaTypes.Json.Reader
import PrismaTypes.Json.Value
import PrismaTypes.Main
import PrismaTypes.Members
import PrismaTypes.Metadata.Reader
import PrismaTypes.Metadata.Writer
import PrismaTypes.Notice
import PrismaTypes.Outline.Attribute
import PrismaTypes.Outline.Basic
import PrismaTypes.Outline.Reader
import PrismaTypes.Proofs.AcceptedTexts
import PrismaTypes.Proofs.AlikeOutlines
import PrismaTypes.Proofs.Assembly
import PrismaTypes.Proofs.AttributeMeaning
import PrismaTypes.Proofs.AttributeOrder
import PrismaTypes.Proofs.BareTrees
import PrismaTypes.Proofs.BlankLines
import PrismaTypes.Proofs.BlockKeywords
import PrismaTypes.Proofs.BlockText
import PrismaTypes.Proofs.Canonical
import PrismaTypes.Proofs.CommentText
import PrismaTypes.Proofs.Completeness
import PrismaTypes.Proofs.Composition
import PrismaTypes.Proofs.ConfigOverlay
import PrismaTypes.Proofs.ConfigReload
import PrismaTypes.Proofs.ConfigRules
import PrismaTypes.Proofs.Derivation
import PrismaTypes.Proofs.DisplayedValues
import PrismaTypes.Proofs.DocumentedItems
import PrismaTypes.Proofs.FieldFlags
import PrismaTypes.Proofs.FileTrees
import PrismaTypes.Proofs.FirmBlocks
import PrismaTypes.Proofs.FirmMatches
import PrismaTypes.Proofs.FirmValues
import PrismaTypes.Proofs.HostActions
import PrismaTypes.Proofs.IntegerDefaults
import PrismaTypes.Proofs.JsonNumbers
import PrismaTypes.Proofs.JsonText
import PrismaTypes.Proofs.LineEndings
import PrismaTypes.Proofs.LocalScans
import PrismaTypes.Proofs.Matching
import PrismaTypes.Proofs.MemberPlaces
import PrismaTypes.Proofs.MetadataReading
import PrismaTypes.Proofs.MetadataRoundTrip
import PrismaTypes.Proofs.MetadataSettling
import PrismaTypes.Proofs.NameRules
import PrismaTypes.Proofs.NamespaceRuns
import PrismaTypes.Proofs.OrderedMembers
import PrismaTypes.Proofs.OutlineReading
import PrismaTypes.Proofs.OutputFiles
import PrismaTypes.Proofs.PathSegments
import PrismaTypes.Proofs.QuotedTexts
import PrismaTypes.Proofs.RelaidBlocks
import PrismaTypes.Proofs.Relayout
import PrismaTypes.Proofs.Resolution
import PrismaTypes.Proofs.Rows
import PrismaTypes.Proofs.RunFootprint
import PrismaTypes.Proofs.SourceReader
import PrismaTypes.Proofs.SourceReading
import PrismaTypes.Proofs.StringLiterals
import PrismaTypes.Proofs.TargetNames
import PrismaTypes.Proofs.TrailingLines
import PrismaTypes.Proofs.TreeShape
import PrismaTypes.Proofs.ValueText
import PrismaTypes.Schema.Basic
import PrismaTypes.Schema.Default
import PrismaTypes.Schema.Documentation
import PrismaTypes.Schema.Error
import PrismaTypes.Schema.Namespace
import PrismaTypes.Schema.OfOutline
import PrismaTypes.Schema.Parse
import PrismaTypes.Schema.Scalar
import PrismaTypes.Text.Blank
import PrismaTypes.Text.Hidden
import PrismaTypes.Text.Location
import PrismaTypes.Text.Quoted
import PrismaTypes.TypeScript.Declaration
import PrismaTypes.TypeScript.DocComment
