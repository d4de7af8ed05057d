import UniformLayout.Artifact.Accessor
import UniformLayout.Artifact.Code
import UniformLayout.Artifact.Data
import UniformLayout.Artifact.HostType
import UniformLayout.Artifact.Identifier
import UniformLayout.Artifact.Plan
import UniformLayout.Artifact.Unit
import UniformLayout.Artifact.Wrapper
import UniformLayout.BaseType
import UniformLayout.BaseType.Name
import UniformLayout.Binding.HandleTable
import UniformLayout.Binding.Pool
import UniformLayout.Binding.TextureUnit
import UniformLayout.Compilation
import UniformLayout.Compilation.Batch
import UniformLayout.Compilation.Emission
import UniformLayout.Compilation.Plan
import UniformLayout.Compilation.Unit
import UniformLayout.Declaration
import UniformLayout.Error
import UniformLayout.Files
import UniformLayout.Identity
import UniformLayout.Identity.Sha1
import UniformLayout.Image
import UniformLayout.Instance
import UniformLayout.Instance.Access
import UniformLayout.Instance.DirtySet
import UniformLayout.Instance.Packing
import UniformLayout.Layout
import UniformLayout.Layout.Std140
import UniformLayout.Notice
import UniformLayout.Numeric.Align
import UniformLayout.Registry.Basic
import UniformLayout.Registry.Cache
import UniformLayout.Registry.Generation
import UniformLayout.Registry.Mint
import UniformLayout.Registry.Registration
import UniformLayout.Registry.Snapshot
import UniformLayout.Resolution
import UniformLayout.Schema
import UniformLayout.Schema.Build
import UniformLayout.Settings
import UniformLayout.Settings.File
import UniformLayout.Sink
import UniformLayout.Source.Comment
import UniformLayout.Source.Constant
import UniformLayout.Source.Contents
import UniformLayout.Source.Cursor
import UniformLayout.Source.Member
import UniformLayout.Source.Token
import UniformLayout.Source.Uniform
import UniformLayout.Staging
import UniformLayout.Table
import UniformLayout.Text.Blank
import UniformLayout.Text.Case
import UniformLayout.Text.Cut
import UniformLayout.Text.Digits
import UniformLayout.Text.Numbered
import UniformLayout.Text.Path
import UniformLayout.Toml.Calendar
import UniformLayout.Toml.DateTime
import UniformLayout.Toml.Document
import UniformLayout.Toml.Number
import UniformLayout.Toml.Quoted
import UniformLayout.Toml.Reader
import UniformLayout.Toml.Tree
import UniformLayout.Toml.Value
import UniformLayout.Value
import UniformLayout.Proofs.Layout.Exact
import UniformLayout.Proofs.Layout.Placement
import UniformLayout.Proofs.Layout.Refinement
import UniformLayout.Proofs.Registry.Consistency
import UniformLayout.Proofs.Registry.Operations
import UniformLayout.Proofs.Registry.Reachable
import UniformLayout.Proofs.Compilation.Plan
import UniformLayout.Proofs.Registry.Undo
import UniformLayout.Proofs.Compilation.Emission
import UniformLayout.Proofs.Compilation.Failure
import UniformLayout.Proofs.Identity.Fingerprint
import UniformLayout.Proofs.Resolution.Hashes
import UniformLayout.Proofs.Identity.Expansion
import UniformLayout.Proofs.Resolution.Renaming
import UniformLayout.Proofs.Schema.Built
import UniformLayout.Proofs.Schema.Regular
import UniformLayout.Proofs.Image
import UniformLayout.Proofs.Footprint
import UniformLayout.Proofs.Value
import UniformLayout.Proofs.Instance.Image
import UniformLayout.Proofs.Instance.Reached
import UniformLayout.Proofs.Artifact.HostLayout
import UniformLayout.Proofs.Artifact.Members
import UniformLayout.Proofs.Artifact.Placement
import UniformLayout.Proofs.Artifact.OnHost
import UniformLayout.Proofs.Source.Starts
import UniformLayout.Proofs.Source.Reading
import UniformLayout.Proofs.Source.Writing
import UniformLayout.Proofs.Source.Grammar
import UniformLayout.Proofs.Source.Recognition
import UniformLayout.Proofs.Source.RoundTrip
import UniformLayout.Proofs.Source.Comments
import UniformLayout.Proofs.Source.Lines
import UniformLayout.Proofs.Source.Group
import UniformLayout.Proofs.Source.Twins
import UniformLayout.Proofs.Source.Standing
import UniformLayout.Proofs.Source.Passing
import UniformLayout.Proofs.Source.Bodies
import UniformLayout.Proofs.Compilation.Origin
import UniformLayout.Proofs.Compilation.Emitted
import UniformLayout.Proofs.Compilation.Locations
import UniformLayout.Proofs.Compilation.Lookups
import UniformLayout.Proofs.Binding.Serving
import UniformLayout.Proofs.Compilation.Refusals
import UniformLayout.Proofs.Compilation.Slots
import UniformLayout.Proofs.Layout.Skeleton
import UniformLayout.Proofs.Identity.Sealed
import UniformLayout.Proofs.Schema.Outline
import UniformLayout.Proofs.Compilation.Stored
import UniformLayout.Proofs.Compilation.Replan
import UniformLayout.Proofs.Compilation.Reuse
import UniformLayout.Proofs.Compilation.Passes
import UniformLayout.Proofs.Compilation.Absorption
import UniformLayout.Proofs.Compilation.Repetition
import UniformLayout.Proofs.Registry.Isolation
import UniformLayout.Proofs.Resolution.Chains
import UniformLayout.Proofs.Resolution.Cycles
import UniformLayout.Proofs.Instance.Cells
import UniformLayout.Proofs.Instance.Fresh
import UniformLayout.Proofs.Instance.Writes
import UniformLayout.Proofs.Instance.Ranges
import UniformLayout.Proofs.Instance.Upload
import UniformLayout.Proofs.Instance.Mirror
import UniformLayout.Proofs.Artifact.Facade
import UniformLayout.Proofs.Artifact.Rebuilt
import UniformLayout.Proofs.Compilation.Accounts
import UniformLayout.Proofs.Compilation.Written
import UniformLayout.Proofs.Registry.Linearization
import UniformLayout.Proofs.Registry.Extension
import UniformLayout.Proofs.Registry.Repetition
import UniformLayout.Proofs.Registry.Residue
import UniformLayout.Proofs.Registry.Persistence
import UniformLayout.Proofs.Registry.Generating
import UniformLayout.Proofs.Registry.Sessions
import UniformLayout.Proofs.Compilation.History
import UniformLayout.Proofs.Compilation.Parallel
import UniformLayout.Proofs.Compilation.Trust
import UniformLayout.Proofs.Compilation.Reliance
import UniformLayout.Proofs.Binding.Units
import UniformLayout.Proofs.Schema.Units
import UniformLayout.Proofs.Instance.Sockets
import UniformLayout.Proofs.Instance.Units
import UniformLayout.Proofs.Instance.Naming
import UniformLayout.Proofs.Compilation.FieldNames
import UniformLayout.Proofs.Artifact.Items
import UniformLayout.Proofs.Artifact.Planning
import UniformLayout.Proofs.Compilation.ItemNames
import UniformLayout.Proofs.Registry.Declared
import UniformLayout.Proofs.Compilation.Borrowed
import UniformLayout.Proofs.Compilation.FirstDeclared
import UniformLayout.Proofs.Binding.Assignment
import UniformLayout.Proofs.Compilation.SlotCalls
import UniformLayout.Proofs.Instance.InPlace
import UniformLayout.Proofs.Instance.Spots
import UniformLayout.Proofs.Instance.Frame
import UniformLayout.Proofs.Instance.Order
import UniformLayout.Proofs.Instance.Paths
import UniformLayout.Proofs.Instance.Changes
import UniformLayout.Proofs.Instance.Listing
import UniformLayout.Proofs.Instance.Tracking
import UniformLayout.Proofs.Instance.Offsets
import UniformLayout.Proofs.Instance.Sums
import UniformLayout.Proofs.Instance.Waiting
import UniformLayout.Proofs.Compilation.Leaves
import UniformLayout.Proofs.Source.Relocation
import UniformLayout.Proofs.Source.Relocated
import UniformLayout.Proofs.Source.Leading
import UniformLayout.Proofs.Source.Constants
import UniformLayout.Proofs.Source.Initialisers
import UniformLayout.Proofs.Source.Qualified
import UniformLayout.Proofs.Source.Directives
import UniformLayout.Proofs.Source.Definitions
import UniformLayout.Proofs.Source.Statements
import UniformLayout.Proofs.Source.Numbers
import UniformLayout.Proofs.Source.NamedNumbers
import UniformLayout.Proofs.Compilation.Copies
import UniformLayout.Proofs.Resolution.Permuted
