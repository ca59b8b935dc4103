import ResourceAudit.Main
import ResourceAudit.Proofs.Distinct
import ResourceAudit.Proofs.Resource.Table
import ResourceAudit.Proofs.Resource.Grouping
import ResourceAudit.Proofs.Resource.Duplicates
import ResourceAudit.Proofs.Text.Cut
import ResourceAudit.Proofs.Text.Trim
import ResourceAudit.Proofs.Xml.Markup
import ResourceAudit.Proofs.Xml.Forest
import ResourceAudit.Proofs.Resource.Meaning
import ResourceAudit.Proofs.Documentation.Outdent
import ResourceAudit.Proofs.Documentation.RoundTrip
import ResourceAudit.Proofs.Project.Evaluation
import ResourceAudit.Proofs.Path.Normal
import ResourceAudit.Proofs.Path.Order
import ResourceAudit.Proofs.FileTree.WellFormed
import ResourceAudit.Proofs.Project.Sources
import ResourceAudit.Proofs.Project.Removal
import ResourceAudit.Proofs.Glob.Matching
import ResourceAudit.Proofs.Glob.Reading
import ResourceAudit.Proofs.Glob.Naming
import ResourceAudit.Proofs.FileTree.Places
import ResourceAudit.Proofs.Glob.Search
import ResourceAudit.Proofs.Project.Wildcards
import ResourceAudit.Proofs.Compilation.Merging
import ResourceAudit.Proofs.Resource.Order
import ResourceAudit.Proofs.Compilation.Order
import ResourceAudit.Proofs.Compilation.Repetition
import ResourceAudit.Proofs.FileTree.Spelling
import ResourceAudit.Proofs.Workspace.Reading
import ResourceAudit.Proofs.Run.Ending
import ResourceAudit.Proofs.Workspace.Retrieval
import ResourceAudit.Proofs.CSharp.Occurrence
import ResourceAudit.Proofs.Solution.Lines
import ResourceAudit.Proofs.Symbol.Declaration
import ResourceAudit.Proofs.Solution.Formats
import ResourceAudit.Proofs.Resource.Growth
import ResourceAudit.Proofs.Xml.Truncation
import ResourceAudit.Proofs.Documentation.Truncation
import ResourceAudit.Proofs.Xml.BrokenReference
import ResourceAudit.Proofs.Xml.Slot
import ResourceAudit.Proofs.Documentation.Malformed
import ResourceAudit.Proofs.Resource.Normal
import ResourceAudit.Proofs.Project.Conditional
import ResourceAudit.Proofs.EmptyElement
import ResourceAudit.Proofs.Project.Branches
import ResourceAudit.Proofs.Xml.Cut
import ResourceAudit.Proofs.Solution.Truncation
import ResourceAudit.Proofs.Solution.Records
import ResourceAudit.Proofs.Documentation.TypeForm
import ResourceAudit.Proofs.Documentation.TypeExpr
import ResourceAudit.Proofs.Documentation.TypeChain
import ResourceAudit.Proofs.Documentation.Brackets
import ResourceAudit.Proofs.Documentation.MemberName
import ResourceAudit.Proofs.Symbol.Overload
import ResourceAudit.Proofs.Path.Joining
import ResourceAudit.Proofs.FileTree.Files
import ResourceAudit.Proofs.Project.Outputs
import ResourceAudit.Proofs.Project.Ignored
import ResourceAudit.Proofs.Version.Reading
import ResourceAudit.Proofs.Version.Order
import ResourceAudit.Proofs.Results
import ResourceAudit.Proofs.Sorting
import ResourceAudit.Proofs.Report.Reading
import ResourceAudit.Proofs.Documentation.Indentation
import ResourceAudit.Proofs.Workspace.Sharing
import ResourceAudit.Proofs.FileTree.Listing
import ResourceAudit.Proofs.Toolchain.Discovery
import ResourceAudit.Proofs.Config.Search
import ResourceAudit.Proofs.Path.Location
import ResourceAudit.Proofs.Project.Expansion
