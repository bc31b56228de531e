import WordTemplate.Container.Fragments
import WordTemplate.Container.Hiding
import WordTemplate.Container.Loop
import WordTemplate.Container.Placement
import WordTemplate.Container.Repetition
import WordTemplate.Container.Section
import WordTemplate.Container.Sections
import WordTemplate.ContentType
import WordTemplate.Data.Numeral
import WordTemplate.Data.Printer
import WordTemplate.Data.Reader
import WordTemplate.Data.Record
import WordTemplate.Data.Value
import WordTemplate.Decimal.Binary
import WordTemplate.Decimal.Layout
import WordTemplate.Decimal.Reading
import WordTemplate.Decimal.Shortest
import WordTemplate.Document.Basic
import WordTemplate.Document.Copy
import WordTemplate.Document.Edit
import WordTemplate.Document.Error
import WordTemplate.Document.Navigation
import WordTemplate.Document.Node
import WordTemplate.Document.Plant
import WordTemplate.Document.Tree
import WordTemplate.Error
import WordTemplate.Filling.Compiler
import WordTemplate.Filling.Plugin
import WordTemplate.Filling.Standard
import WordTemplate.Filling.Workspace
import WordTemplate.Journal
import WordTemplate.Leaf.Link
import WordTemplate.Leaf.Picture
import WordTemplate.Leaf.RawMarkup
import WordTemplate.Leaf.Text
import WordTemplate.Markup.Attributes
import WordTemplate.Markup.Build
import WordTemplate.Markup.Error
import WordTemplate.Markup.Escape
import WordTemplate.Markup.Event
import WordTemplate.Markup.Printer
import WordTemplate.Package.Basic
import WordTemplate.Package.Processing
import WordTemplate.Package.Resources
import WordTemplate.Scope
import WordTemplate.Tag.Basic
import WordTemplate.Tag.Delimiters
import WordTemplate.Tag.Extraction
import WordTemplate.Tag.Options
import WordTemplate.Tag.Reading
import WordTemplate.Tag.Scan
import WordTemplate.Text.Alphanumeric
import WordTemplate.Text.Base64
import WordTemplate.Text.Blank
import WordTemplate.Text.Hexadecimal
import WordTemplate.Text.Numeral
import WordTemplate.Text.Offset
import WordTemplate.Text.Search
import WordTemplate.Word.Name
import WordTemplate.Word.Paragraph
import WordTemplate.Word.Properties
import WordTemplate.Word.Structure
import WordTemplate.Word.TextNode
import WordTemplate.Proofs.Container.Copies
import WordTemplate.Proofs.Container.Cutting
import WordTemplate.Proofs.Container.Enclosing
import WordTemplate.Proofs.Container.Hiding
import WordTemplate.Proofs.Container.Merging
import WordTemplate.Proofs.Container.Regions
import WordTemplate.Proofs.Container.Repetition
import WordTemplate.Proofs.Container.Returning
import WordTemplate.Proofs.Container.Severing
import WordTemplate.Proofs.Document.Adding
import WordTemplate.Proofs.Document.Intact
import WordTemplate.Proofs.Tag.Scanning
import WordTemplate.Proofs.Word.Intact
import WordTemplate.Proofs.Markup.Escaping
import WordTemplate.Proofs.Markup.Tags
import WordTemplate.Proofs.Operations
import WordTemplate.Proofs.Markup.Pieces
import WordTemplate.Proofs.Document.Planting
import WordTemplate.Proofs.Markup.RoundTrip
import WordTemplate.Proofs.Document.TextChanges
import WordTemplate.Proofs.Word.TextNode
import WordTemplate.Proofs.Tag.Regions
import WordTemplate.Proofs.Tag.Extraction
import WordTemplate.Proofs.Tag.Partition
import WordTemplate.Proofs.Document.Placing
import WordTemplate.Proofs.Document.Reached
import WordTemplate.Proofs.Leaf.Text
import WordTemplate.Proofs.Filling.Dispatching
import WordTemplate.Proofs.Filling.Unrolling
import WordTemplate.Proofs.Filling.Working
import WordTemplate.Proofs.Leaf.Insertion
import WordTemplate.Proofs.Leaf.Link
import WordTemplate.Proofs.Word.Absorbing
import WordTemplate.Proofs.Tag.Readiness
import WordTemplate.Proofs.Filling.Compiling
import WordTemplate.Proofs.Total.Steps
import WordTemplate.Proofs.Total.Splitting
import WordTemplate.Proofs.Total.Cutting
import WordTemplate.Proofs.Total.Properties
import WordTemplate.Proofs.Total.Joining
import WordTemplate.Proofs.Total.Hiding
import WordTemplate.Proofs.Total.Writing
import WordTemplate.Proofs.Filling.Template
import WordTemplate.Proofs.Total.Copies
import WordTemplate.Proofs.Total.Containers
import WordTemplate.Proofs.Total.Filling
import WordTemplate.Proofs.Filling.Spelling
import WordTemplate.Proofs.Total.Taking
import WordTemplate.Proofs.Total.Rendering
import WordTemplate.Proofs.Filling.Untouched
import WordTemplate.Proofs.Filling.Scoping
import WordTemplate.Proofs.Package.Accounting
import WordTemplate.Proofs.Package.Reordering
import WordTemplate.Proofs.Document.Leaves
import WordTemplate.Proofs.Document.Succeeding
import WordTemplate.Proofs.Document.Trees
import WordTemplate.Proofs.Document.Rewiring
import WordTemplate.Proofs.Word.Halving
import WordTemplate.Proofs.Word.Parting
import WordTemplate.Proofs.Word.Tidying
import WordTemplate.Proofs.Word.Levels
import WordTemplate.Proofs.Word.HeadAndTail
import WordTemplate.Proofs.Word.Uniting
import WordTemplate.Proofs.Container.Assembling
import WordTemplate.Proofs.Container.Reassembling
import WordTemplate.Proofs.Container.Splicing
import WordTemplate.Proofs.Word.Collecting
import WordTemplate.Proofs.Word.Snipping
import WordTemplate.Proofs.Word.Demands
import WordTemplate.Proofs.Word.Ensuring
import WordTemplate.Proofs.Container.Vanishing
import WordTemplate.Proofs.Container.Intact
import WordTemplate.Proofs.Container.HiddenSections
import WordTemplate.Proofs.Leaf.Intact
import WordTemplate.Proofs.Leaf.Linking
import WordTemplate.Proofs.Filling.Hiding
import WordTemplate.Proofs.Leaf.Lines
import WordTemplate.Proofs.Data.Fields
import WordTemplate.Proofs.Text.Searching
import WordTemplate.Proofs.Text.Trimming
import WordTemplate.Proofs.Text.Numeral
import WordTemplate.Proofs.Tag.Options
import WordTemplate.Proofs.Tag.Writing
import WordTemplate.Proofs.Document.Insertions
import WordTemplate.Proofs.Document.TextSteps
import WordTemplate.Proofs.Container.Duplication
import WordTemplate.Proofs.Document.Contents
import WordTemplate.Proofs.Document.Sealing
import WordTemplate.Proofs.Document.Securing
import WordTemplate.Proofs.Word.Securing
import WordTemplate.Proofs.Container.Securing
import WordTemplate.Proofs.Container.Wrapping
import WordTemplate.Proofs.Leaf.Securing
import WordTemplate.Proofs.Filling.Wrappers
