import Stylesheet.AllowList
import Stylesheet.Automaton
import Stylesheet.Automaton.CharSet
import Stylesheet.Automaton.Draft
import Stylesheet.Automaton.Words
import Stylesheet.Charset
import Stylesheet.Comment
import Stylesheet.Component
import Stylesheet.FileTree
import Stylesheet.Json
import Stylesheet.Json.Reader
import Stylesheet.Layer
import Stylesheet.Longhand
import Stylesheet.Markup
import Stylesheet.Media.Condition
import Stylesheet.Media.Merge
import Stylesheet.Media.Order
import Stylesheet.Node
import Stylesheet.Node.Printer
import Stylesheet.Node.Reader
import Stylesheet.Options
import Stylesheet.Path
import Stylesheet.Pattern
import Stylesheet.Pattern.CharSet
import Stylesheet.Pattern.Compose
import Stylesheet.Pattern.Reader
import Stylesheet.Pipeline
import Stylesheet.Proofs.AllowListEntries
import Stylesheet.Proofs.BackgroundTwice
import Stylesheet.Proofs.BalancedLists
import Stylesheet.Proofs.BorderTwice
import Stylesheet.Proofs.Boundary
import Stylesheet.Proofs.ConditionParts
import Stylesheet.Proofs.CornerRadii
import Stylesheet.Proofs.Cut
import Stylesheet.Proofs.DeclarationText
import Stylesheet.Proofs.Edge
import Stylesheet.Proofs.EmptyMedia
import Stylesheet.Proofs.Everywhere
import Stylesheet.Proofs.ExemptLayers
import Stylesheet.Proofs.Fusion
import Stylesheet.Proofs.FusionFrame
import Stylesheet.Proofs.FusionGuards
import Stylesheet.Proofs.FusionTwice
import Stylesheet.Proofs.Gathering
import Stylesheet.Proofs.Grouping
import Stylesheet.Proofs.ItemReading
import Stylesheet.Proofs.JsonText
import Stylesheet.Proofs.LayerOrder
import Stylesheet.Proofs.LayerWalk
import Stylesheet.Proofs.Legible
import Stylesheet.Proofs.ListCutting
import Stylesheet.Proofs.LocalChange
import Stylesheet.Proofs.LostGaps
import Stylesheet.Proofs.MediaCount
import Stylesheet.Proofs.MediaMerge
import Stylesheet.Proofs.MediaTwice
import Stylesheet.Proofs.MinifiedBranch
import Stylesheet.Proofs.MinifiedNames
import Stylesheet.Proofs.MinifiedParts
import Stylesheet.Proofs.MinifiedPrelude
import Stylesheet.Proofs.MinifiedSelector
import Stylesheet.Proofs.NameSpelling
import Stylesheet.Proofs.OptionsText
import Stylesheet.Proofs.OrphanText
import Stylesheet.Proofs.PassOrder
import Stylesheet.Proofs.PlainWord
import Stylesheet.Proofs.Position
import Stylesheet.Proofs.Processing
import Stylesheet.Proofs.PurgeMonotone
import Stylesheet.Proofs.PurgeTree
import Stylesheet.Proofs.PurgeTwice
import Stylesheet.Proofs.PurgeVerdict
import Stylesheet.Proofs.RangeNotation
import Stylesheet.Proofs.ReadTree
import Stylesheet.Proofs.Regrouping
import Stylesheet.Proofs.Reorganizing
import Stylesheet.Proofs.Reprint
import Stylesheet.Proofs.ResetLonghands
import Stylesheet.Proofs.RoundTrip
import Stylesheet.Proofs.SafeTree
import Stylesheet.Proofs.SelectorMeaning
import Stylesheet.Proofs.SelectorReading
import Stylesheet.Proofs.SelectorText
import Stylesheet.Proofs.SettledReading
import Stylesheet.Proofs.ShortForm
import Stylesheet.Proofs.Shortening
import Stylesheet.Proofs.SideCascade
import Stylesheet.Proofs.SimpleText
import Stylesheet.Proofs.SourceFiles
import Stylesheet.Proofs.TameText
import Stylesheet.Proofs.TokenShape
import Stylesheet.Proofs.Trimming
import Stylesheet.Proofs.UsedNames
import Stylesheet.Proofs.ValueGuard
import Stylesheet.Proofs.ValueLayout
import Stylesheet.Proofs.ValueText
import Stylesheet.Proofs.Weight
import Stylesheet.Proofs.WellFormedSelector
import Stylesheet.Proofs.WideKeywords
import Stylesheet.Purge
import Stylesheet.Selector
import Stylesheet.Selector.Reader
import Stylesheet.Shorthand
import Stylesheet.Shorthand.Background
import Stylesheet.Shorthand.Border
import Stylesheet.Shorthand.Font
import Stylesheet.Source
import Stylesheet.Text
import Stylesheet.Token
import Stylesheet.Token.Lexer
import Stylesheet.Unicode.Decimal
import Stylesheet.Unicode.Folding
import Stylesheet.Unicode.Utf8
import Stylesheet.Unicode.Word
import Stylesheet.Value
