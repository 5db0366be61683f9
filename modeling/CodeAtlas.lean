import CodeAtlas.Text.Search
import CodeAtlas.Text.Blank
import CodeAtlas.Text.Lines
import CodeAtlas.Text.Utf8
import CodeAtlas.Text.Percent
import CodeAtlas.Path
import CodeAtlas.Digest
import CodeAtlas.Assoc
import CodeAtlas.Json
import CodeAtlas.Json.Printer
import CodeAtlas.Json.Parser
import CodeAtlas.Label
import CodeAtlas.Source.Spot
import CodeAtlas.Fault
import CodeAtlas.Location
import CodeAtlas.Source.SyntaxTree
import CodeAtlas.Language
import CodeAtlas.Action
import CodeAtlas.Environment
import CodeAtlas.Graph.Node
import CodeAtlas.Graph.NodeTable
import CodeAtlas.Graph.Family
import CodeAtlas.Graph.Skeleton
import CodeAtlas.Graph.Relationship
import CodeAtlas.Graph.Graph
import CodeAtlas.Project.Disk
import CodeAtlas.Project.Walk
import CodeAtlas.Project.FileStats
import CodeAtlas.Outline
import CodeAtlas.Hierarchy
import CodeAtlas.References
import CodeAtlas.Server.Session
import CodeAtlas.Server.Answers
import CodeAtlas.Server.Servers
import CodeAtlas.Build.Progress
import CodeAtlas.Build.Builder
import CodeAtlas.Build.Change
import CodeAtlas.Build.Review
import CodeAtlas.Json.Access
import CodeAtlas.Text.Word
import CodeAtlas.Text.Digit
import CodeAtlas.Text.Identifier
import CodeAtlas.Text.Case
import CodeAtlas.Text.Pattern
import CodeAtlas.Text.Pattern.Match
import CodeAtlas.Text.Expression.Escape
import CodeAtlas.Text.Expression.Set
import CodeAtlas.Text.Expression.Count
import CodeAtlas.Text.Expression
import CodeAtlas.Text.Replacement
import CodeAtlas.Marking
import CodeAtlas.Database.Escape
import CodeAtlas.Database.Query
import CodeAtlas.Database.Store
import CodeAtlas.Run
import CodeAtlas.Description
import CodeAtlas.Description.Node
import CodeAtlas.Main
import CodeAtlas.Number
import CodeAtlas.Number.Decimal
import CodeAtlas.Json.Spelling
import CodeAtlas.Text.Shown
import CodeAtlas.Proofs.Action
import CodeAtlas.Proofs.Json
import CodeAtlas.Proofs.Server.Exchange
import CodeAtlas.Proofs.Assoc
import CodeAtlas.Proofs.Server.Conversation
import CodeAtlas.Proofs.Path
import CodeAtlas.Proofs.Project.Disk
import CodeAtlas.Proofs.Outcome
import CodeAtlas.Proofs.Project.Walk
import CodeAtlas.Proofs.Graph.Table
import CodeAtlas.Proofs.Graph.Kin
import CodeAtlas.Proofs.Graph.Index
import CodeAtlas.Proofs.Hierarchy
import CodeAtlas.Proofs.Build.Chart
import CodeAtlas.Proofs.Path.Plain
import CodeAtlas.Proofs.Build.Identity
import CodeAtlas.Proofs.Server.Tables
import CodeAtlas.Proofs.References
import CodeAtlas.Proofs.Path.Above
import CodeAtlas.Proofs.Graph.Prune
import CodeAtlas.Proofs.Graph.Filter
import CodeAtlas.Proofs.Build.Gather
import CodeAtlas.Proofs.Build.Uses
import CodeAtlas.Proofs.Build.Update
import CodeAtlas.Proofs.Build.Lost
import CodeAtlas.Proofs.Json.Sameness
import CodeAtlas.Proofs.Server.Listening
import CodeAtlas.Proofs.Server.Dialling
import CodeAtlas.Proofs.Server.Script
import CodeAtlas.Proofs.Server.Connections
import CodeAtlas.Proofs.Server.Interjections
import CodeAtlas.Proofs.Build.Edges
import CodeAtlas.Proofs.Graph.Growth
import CodeAtlas.Proofs.Graph.Trail
import CodeAtlas.Proofs.Graph.Family
import CodeAtlas.Proofs.Build.Growth
import CodeAtlas.Proofs.Build.Orphans
import CodeAtlas.Proofs.Build.Clash
import CodeAtlas.Proofs.Build.Mark
import CodeAtlas.Proofs.Build.Rework
import CodeAtlas.Proofs.Build.Review
import CodeAtlas.Proofs.Build.ReviewNodes
import CodeAtlas.Proofs.Build.ReviewEdges
import CodeAtlas.Proofs.Build.Parents
import CodeAtlas.Proofs.Build.Stages
import CodeAtlas.Proofs.Build.Consistency
import CodeAtlas.Proofs.Build.Folders
import CodeAtlas.Proofs.Text.Utf8
import CodeAtlas.Proofs.Source.Layout
import CodeAtlas.Proofs.Run.Deletion
import CodeAtlas.Proofs.Server.Mentions
import CodeAtlas.Proofs.Build.Asked
import CodeAtlas.Proofs.Server.Spelling
import CodeAtlas.Proofs.Build.Respelling
import CodeAtlas.Proofs.Skeleton.Patches
import CodeAtlas.Proofs.Skeleton.Planting
import CodeAtlas.Proofs.Skeleton.Telling
import CodeAtlas.Proofs.Skeleton.Bodies
import CodeAtlas.Proofs.Skeleton.Signatures
import CodeAtlas.Proofs.Skeleton.Marks
import CodeAtlas.Proofs.Skeleton.Moving
import CodeAtlas.Proofs.Build.Moved
import CodeAtlas.Proofs.Source.Address
import CodeAtlas.Proofs.Outline.Sites
import CodeAtlas.Proofs.Outline.Grafts
import CodeAtlas.Proofs.Outline.Traversal
import CodeAtlas.Proofs.Outline.Search
import CodeAtlas.Proofs.Outline.Attribution
import CodeAtlas.Proofs.Source.Cursor
import CodeAtlas.Proofs.Language.Usage
import CodeAtlas.Proofs.Build.Sources
import CodeAtlas.Proofs.Build.Processing
import CodeAtlas.Proofs.Build.Scopes
import CodeAtlas.Proofs.Server.Contents
import CodeAtlas.Proofs.Source.Columns
import CodeAtlas.Proofs.Build.Positions
import CodeAtlas.Proofs.Project.Listing
import CodeAtlas.Proofs.Project.Ignored
import CodeAtlas.Proofs.Language.Inheritance
import CodeAtlas.Proofs.Skeleton.Sprouts
import CodeAtlas.Proofs.Build.Untouched
import CodeAtlas.Proofs.Database.Escape
import CodeAtlas.Proofs.Project.Levels
import CodeAtlas.Proofs.Marking.Uses
import CodeAtlas.Proofs.Project.Cleared
import CodeAtlas.Proofs.Marking.Nodes
import CodeAtlas.Proofs.Path.Ancestors
import CodeAtlas.Proofs.Marking.Literal
import CodeAtlas.Proofs.Marking.Fits
