import ModuleAtlas.Atlas.Basic
import ModuleAtlas.Atlas.Link
import ModuleAtlas.Atlas.LocationCache
import ModuleAtlas.Atlas.Nesting
import ModuleAtlas.Atlas.TableCache
import ModuleAtlas.Command.Arguments
import ModuleAtlas.Command.Run
import ModuleAtlas.Draft.Basic
import ModuleAtlas.Draft.Facts
import ModuleAtlas.Draft.File
import ModuleAtlas.Draft.TypeSlices
import ModuleAtlas.ImportSite
import ModuleAtlas.Json.Binary64
import ModuleAtlas.Json.Comments
import ModuleAtlas.Json.Printer
import ModuleAtlas.Json.Reader
import ModuleAtlas.Json.Record
import ModuleAtlas.Json.Value
import ModuleAtlas.Main
import ModuleAtlas.Path.Basic
import ModuleAtlas.Project
import ModuleAtlas.Proofs.Agreement
import ModuleAtlas.Proofs.AliasExpansion
import ModuleAtlas.Proofs.Batches
import ModuleAtlas.Proofs.CallableExports
import ModuleAtlas.Proofs.Canonical
import ModuleAtlas.Proofs.Changes
import ModuleAtlas.Proofs.CursorPositions
import ModuleAtlas.Proofs.Dependencies
import ModuleAtlas.Proofs.Draft
import ModuleAtlas.Proofs.Eviction
import ModuleAtlas.Proofs.Finds
import ModuleAtlas.Proofs.Freshness
import ModuleAtlas.Proofs.ImportSites
import ModuleAtlas.Proofs.JsonComments
import ModuleAtlas.Proofs.JsonGrammar
import ModuleAtlas.Proofs.JsonPrinting
import ModuleAtlas.Proofs.JsonSpelling
import ModuleAtlas.Proofs.Kept
import ModuleAtlas.Proofs.Keyed
import ModuleAtlas.Proofs.Lifting
import ModuleAtlas.Proofs.Link
import ModuleAtlas.Proofs.LinkedNames
import ModuleAtlas.Proofs.LocatedPackages
import ModuleAtlas.Proofs.Locations
import ModuleAtlas.Proofs.LockedVersions
import ModuleAtlas.Proofs.ModeNames
import ModuleAtlas.Proofs.Modes
import ModuleAtlas.Proofs.Nesting
import ModuleAtlas.Proofs.NormalForm
import ModuleAtlas.Proofs.NoticedChanges
import ModuleAtlas.Proofs.Origins
import ModuleAtlas.Proofs.Overloads
import ModuleAtlas.Proofs.Path
import ModuleAtlas.Proofs.PathOrder
import ModuleAtlas.Proofs.Plain
import ModuleAtlas.Proofs.ReferenceChains
import ModuleAtlas.Proofs.Resolution
import ModuleAtlas.Proofs.Runs
import ModuleAtlas.Proofs.Scripts
import ModuleAtlas.Proofs.SearchOrder
import ModuleAtlas.Proofs.Settled
import ModuleAtlas.Proofs.Standing
import ModuleAtlas.Proofs.StarClosure
import ModuleAtlas.Proofs.Statements
import ModuleAtlas.Proofs.StoredVersions
import ModuleAtlas.Proofs.StraightLoads
import ModuleAtlas.Proofs.TableCodec
import ModuleAtlas.Proofs.Tables
import ModuleAtlas.Proofs.Termination
import ModuleAtlas.Proofs.Tree
import ModuleAtlas.Proofs.UniqueNames
import ModuleAtlas.Proofs.Watch
import ModuleAtlas.Proofs.WholeWords
import ModuleAtlas.Proofs.WithoutImports
import ModuleAtlas.Resolution.Alias
import ModuleAtlas.Resolution.Candidates
import ModuleAtlas.Resolution.Location
import ModuleAtlas.Resolution.Lockfile
import ModuleAtlas.Resolution.Manifest
import ModuleAtlas.Resolution.PackageSearch
import ModuleAtlas.Resolution.Store
import ModuleAtlas.Symbols.Codec
import ModuleAtlas.Symbols.Declaration
import ModuleAtlas.Symbols.Table
import ModuleAtlas.Syntax.Body
import ModuleAtlas.Syntax.Dialect
import ModuleAtlas.Syntax.Element
import ModuleAtlas.Syntax.Expression
import ModuleAtlas.Syntax.LineEnd
import ModuleAtlas.Syntax.Outline
import ModuleAtlas.Syntax.Parser
import ModuleAtlas.Syntax.Program
import ModuleAtlas.Syntax.Rules
import ModuleAtlas.Syntax.Signature
import ModuleAtlas.Syntax.Source
import ModuleAtlas.Syntax.Statement
import ModuleAtlas.Text.Blank
import ModuleAtlas.Text.Order
import ModuleAtlas.Text.Position
import ModuleAtlas.Text.Quotes
import ModuleAtlas.Text.Replace
import ModuleAtlas.Text.Script
import ModuleAtlas.Tree.Basic
