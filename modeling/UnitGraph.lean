import UnitGraph.Files.Corpus
import UnitGraph.Files.Export
import UnitGraph.Graph.Statistics
import UnitGraph.Traversal.Entered
import UnitGraph.Proofs.Extraction.Settlement
import UnitGraph.Proofs.Traversal.Origin
import UnitGraph.Proofs.Extraction.Agenda
import UnitGraph.Proofs.Extraction.Entities
import UnitGraph.Proofs.Extraction.Nodes
import UnitGraph.Proofs.Extraction.Exclusivity
import UnitGraph.Proofs.Extraction.Agreement
import UnitGraph.Proofs.Extraction.Canonical
import UnitGraph.Proofs.Extraction.Coverage
import UnitGraph.Proofs.Extraction.Image
import UnitGraph.Proofs.Assembly.Run
import UnitGraph.Proofs.Extraction.Innermost
import UnitGraph.Proofs.Extraction.Blocks
import UnitGraph.Proofs.Labelled.Exact
import UnitGraph.Proofs.Labelled.Tokens
import UnitGraph.Proofs.Labelled.Labels
import UnitGraph.Proofs.Extraction.Presentation
import UnitGraph.Proofs.Extraction.Restriction
import UnitGraph.Proofs.Labelled.Outline
import UnitGraph.Proofs.Extraction.Renumbering
import UnitGraph.Proofs.Extraction.Growth
import UnitGraph.Proofs.Extraction.Definitions
import UnitGraph.Proofs.Extraction.Skipping
import UnitGraph.Proofs.Extraction.FlowOption
import UnitGraph.Proofs.Source.History
import UnitGraph.Proofs.Source.Locations
import UnitGraph.Proofs.Extraction.Slices
import UnitGraph.Proofs.Graph.Exploration
import UnitGraph.Proofs.Extraction.Refusal
import UnitGraph.Proofs.Unit.Aliases
import UnitGraph.Proofs.Unit.Searches
import UnitGraph.Proofs.Files.Corpus
import UnitGraph.Proofs.Files.Path
import UnitGraph.Proofs.Files.Sources
import UnitGraph.Proofs.Files.Discovery
import UnitGraph.Proofs.Document.Json
import UnitGraph.Proofs.Document.Legible
import UnitGraph.Proofs.Document.Scalars
import UnitGraph.Proofs.Document.Yaml
import UnitGraph.Proofs.Document.Lossless
import UnitGraph.Proofs.Graph.Subtree
import UnitGraph.Proofs.Graph.Statistics
import UnitGraph.Proofs.Extraction.DocumentOrder
import UnitGraph.Proofs.Registry.History
import UnitGraph.Proofs.Unit.Pointers
