import TemplateCompiler.Output.Pool
import TemplateCompiler.Output.Sink
import TemplateCompiler.Workspace
import TemplateCompiler.Proofs.Blanks
import TemplateCompiler.Proofs.Fields
import TemplateCompiler.Proofs.ListSearch
import TemplateCompiler.Proofs.Code.Listing
import TemplateCompiler.Proofs.Code.Move
import TemplateCompiler.Proofs.Code.Locality
import TemplateCompiler.Proofs.Code.Resolution
import TemplateCompiler.Proofs.Code.Decoding
import TemplateCompiler.Proofs.Code.Atom
import TemplateCompiler.Proofs.Code.Trimming
import TemplateCompiler.Proofs.Code.WrittenText
import TemplateCompiler.Proofs.InPlace.Pass
import TemplateCompiler.Proofs.InPlace.Trim
import TemplateCompiler.Proofs.InPlace.Run
import TemplateCompiler.Proofs.Code.PushRun
import TemplateCompiler.Proofs.Code.Reference
import TemplateCompiler.Proofs.Code.Gathering
import TemplateCompiler.Proofs.Code.StatementLines
import TemplateCompiler.Proofs.Code.Regrouping
import TemplateCompiler.Proofs.Code.Finishing
import TemplateCompiler.Proofs.Code.Scanning
import TemplateCompiler.Proofs.Template.Static
import TemplateCompiler.Proofs.Template.Delimited
import TemplateCompiler.Proofs.Code.TextRun
import TemplateCompiler.Proofs.Template.Document
import TemplateCompiler.Proofs.Template.Exposure
import TemplateCompiler.Proofs.Template.Quiet
import TemplateCompiler.Proofs.Template.Statements
import TemplateCompiler.Proofs.Template.Folding
import TemplateCompiler.Proofs.Template.HostCode
import TemplateCompiler.Proofs.Template.Blocks
import TemplateCompiler.Proofs.Template.Openers
import TemplateCompiler.Proofs.Template.Uglify
import TemplateCompiler.Proofs.Output.Delivery
import TemplateCompiler.Proofs.Output.HandOver
import TemplateCompiler.Proofs.Template.Comments
import TemplateCompiler.Proofs.Template.Removal
import TemplateCompiler.Proofs.Output.Custody
import TemplateCompiler.Proofs.Store.Nesting
import TemplateCompiler.Proofs.Template.Visits
import TemplateCompiler.Proofs.Store.FiniteTree
import TemplateCompiler.Proofs.Store.Stopping
import TemplateCompiler.Proofs.Code.Reindenting
import TemplateCompiler.Proofs.Template.CodeNesting
import TemplateCompiler.Proofs.Template.QuotedValues
import TemplateCompiler.Proofs.Template.WrittenTag
import TemplateCompiler.Proofs.Template.AttributedTag
import TemplateCompiler.Proofs.Template.MarkedScript
