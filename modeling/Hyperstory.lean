import Hyperstory.Build
import Hyperstory.CommandLine
import Hyperstory.Decimal.Shortest
import Hyperstory.Diagnostic
import Hyperstory.Directive
import Hyperstory.Disk
import Hyperstory.Glob
import Hyperstory.Html
import Hyperstory.Located
import Hyperstory.Log
import Hyperstory.Main
import Hyperstory.Markdown
import Hyperstory.Markdown.Block
import Hyperstory.Markdown.Blocks
import Hyperstory.Markdown.Container
import Hyperstory.Markdown.Delimiter
import Hyperstory.Markdown.Inline
import Hyperstory.Markdown.Layout
import Hyperstory.Markdown.Leaf
import Hyperstory.Markdown.Line
import Hyperstory.Markdown.Link
import Hyperstory.Markdown.Tag
import Hyperstory.Path
import Hyperstory.Project
import Hyperstory.Project.Error
import Hyperstory.Project.Settings
import Hyperstory.Run
import Hyperstory.Story.Compiler
import Hyperstory.Story.Expansion
import Hyperstory.Story.Markup
import Hyperstory.Story.Source
import Hyperstory.Text.Blank
import Hyperstory.Text.Caseless
import Hyperstory.Text.CodeRanges
import Hyperstory.Text.Digit
import Hyperstory.Text.Entity
import Hyperstory.Text.Half
import Hyperstory.Text.Newline
import Hyperstory.Text.Printable
import Hyperstory.Text.Punctuation
import Hyperstory.Text.Quoted
import Hyperstory.Text.Replace
import Hyperstory.Text.Unescape
import Hyperstory.Token
import Hyperstory.Token.Render
import Hyperstory.Tree.Cursor
import Hyperstory.Tree.Forest
import Hyperstory.Tree.Leaves
import Hyperstory.Tree.OfTokens
import Hyperstory.Tree.Outline
import Hyperstory.Tree.ToTokens
import Hyperstory.Url
import Hyperstory.Url.Percent
import Hyperstory.Url.Punycode
import Hyperstory.Watch
import Hyperstory.Yaml.Base64
import Hyperstory.Yaml.Cursor
import Hyperstory.Yaml.Node
import Hyperstory.Yaml.Number
import Hyperstory.Yaml.Scalar
import Hyperstory.Yaml.Scanner
import Hyperstory.Yaml.Slots
import Hyperstory.Yaml.Source
import Hyperstory.Yaml.Tag
import Hyperstory.Yaml.Timestamp
import Hyperstory.Yaml.Token
import Hyperstory.Yaml.Value
import Hyperstory.Proofs.Links
import Hyperstory.Proofs.Rows
import Hyperstory.Proofs.ChildLists
import Hyperstory.Proofs.Edits
import Hyperstory.Proofs.Reading
import Hyperstory.Proofs.Built
import Hyperstory.Proofs.Recursion
import Hyperstory.Proofs.Passes
import Hyperstory.Proofs.WellLinked
import Hyperstory.Proofs.Traversal
import Hyperstory.Proofs.Splicing
import Hyperstory.Proofs.Merging
import Hyperstory.Proofs.Replacing
import Hyperstory.Proofs.Walk
import Hyperstory.Proofs.Compiling
import Hyperstory.Proofs.Declarations
import Hyperstory.Proofs.Sections
import Hyperstory.Proofs.Moments
import Hyperstory.Proofs.Leftovers
import Hyperstory.Proofs.Placement
import Hyperstory.Proofs.Session
import Hyperstory.Proofs.Drafts
import Hyperstory.Proofs.Numbering
import Hyperstory.Proofs.InlineIds
import Hyperstory.Proofs.Escapes
import Hyperstory.Proofs.Cuts
import Hyperstory.Proofs.Braces
import Hyperstory.Proofs.Settled
import Hyperstory.Proofs.RoundTrip
import Hyperstory.Proofs.Rescanning
import Hyperstory.Proofs.EmittedMarkup
import Hyperstory.Proofs.Rendering
import Hyperstory.Proofs.Alike
import Hyperstory.Proofs.Runs
import Hyperstory.Proofs.Planning
import Hyperstory.Proofs.StoryFiles
import Hyperstory.Proofs.FileOrder
import Hyperstory.Proofs.FailedBuilds
import Hyperstory.Proofs.PageDrafts
import Hyperstory.Proofs.FailedFiles
import Hyperstory.Proofs.Streams
import Hyperstory.Proofs.StreamHtml
import Hyperstory.Proofs.Faults
import Hyperstory.Proofs.CommonMark
import Hyperstory.Proofs.Paths
import Hyperstory.Proofs.DirectoryTrees
import Hyperstory.Proofs.DirectoryChanges
import Hyperstory.Proofs.Effects
import Hyperstory.Proofs.Cleaning
import Hyperstory.Proofs.Loading
import Hyperstory.Proofs.Installing
import Hyperstory.Proofs.Output
import Hyperstory.Proofs.DryRuns
import Hyperstory.Proofs.Globs
import Hyperstory.Proofs.Gathering
import Hyperstory.Proofs.Replanning
import Hyperstory.Proofs.Rebuilding
import Hyperstory.Proofs.Watching
import Hyperstory.Proofs.PercentEncoding
import Hyperstory.Proofs.Destinations
import Hyperstory.Proofs.SectionLinks
import Hyperstory.Proofs.Templates
import Hyperstory.Proofs.InlineLines
import Hyperstory.Proofs.Positions
import Hyperstory.Proofs.Emphasis
import Hyperstory.Proofs.Sourced
import Hyperstory.Proofs.Parsed
import Hyperstory.Proofs.Deliveries
import Hyperstory.Proofs.Obstacles
import Hyperstory.Proofs.Interruptions
import Hyperstory.Proofs.Whereabouts
import Hyperstory.Proofs.Patterns
import Hyperstory.Proofs.GatheredFiles
import Hyperstory.Proofs.YamlValues
import Hyperstory.Proofs.ProjectFiles
import Hyperstory.Proofs.Removals
