import ScopeAtlas.Error
import ScopeAtlas.Markup.Document
import ScopeAtlas.Markup.Fingerprint
import ScopeAtlas.Markup.Name
import ScopeAtlas.Text.Fold
import ScopeAtlas.Language.Registry
import ScopeAtlas.Scope.Declaration
import ScopeAtlas.Graph.Withdraw
import ScopeAtlas.CallGraph
import ScopeAtlas.Settings.Basic
import ScopeAtlas.Snapshot
import ScopeAtlas.Survey.Walk
import ScopeAtlas.Proofs.Merging
import ScopeAtlas.Proofs.Withdrawal
import ScopeAtlas.Proofs.Standing
import ScopeAtlas.Proofs.Content
import ScopeAtlas.Proofs.Growth
import ScopeAtlas.Proofs.Reading
import ScopeAtlas.Proofs.Surveying
import ScopeAtlas.Proofs.Nesting
import ScopeAtlas.Proofs.Keys
import ScopeAtlas.Proofs.History
import ScopeAtlas.Proofs.Entries
import ScopeAtlas.Proofs.Views
import ScopeAtlas.Proofs.Invariants
import ScopeAtlas.Proofs.Contributions
import ScopeAtlas.Proofs.Paths
import ScopeAtlas.Proofs.KeyedUnion
import ScopeAtlas.Proofs.ViewOrder
import ScopeAtlas.Proofs.Symmetry
import ScopeAtlas.Proofs.Retraction
import ScopeAtlas.Proofs.Undoing
import ScopeAtlas.Proofs.Ranks
import ScopeAtlas.Proofs.Absorption
import ScopeAtlas.Proofs.Grouping
import ScopeAtlas.Proofs.Batches
import ScopeAtlas.Proofs.Fingerprints
import ScopeAtlas.Proofs.Holdings
import ScopeAtlas.Proofs.Shares
import ScopeAtlas.Proofs.Interleaving
import ScopeAtlas.Proofs.Gathering
import ScopeAtlas.Proofs.Bookkeeping
import ScopeAtlas.Proofs.Incremental
import ScopeAtlas.Proofs.Searches
import ScopeAtlas.Proofs.Tangles
import ScopeAtlas.Proofs.Findings
import ScopeAtlas.Proofs.Extension
import ScopeAtlas.Proofs.Persistence
import ScopeAtlas.Proofs.Lifetimes
import ScopeAtlas.Proofs.Resemblance
import ScopeAtlas.Proofs.Spelling
import ScopeAtlas.Proofs.Rendering
import ScopeAtlas.Proofs.Filing
import ScopeAtlas.Proofs.Enclosure
import ScopeAtlas.Proofs.LexicalOwnership
import ScopeAtlas.Proofs.Lineages
import ScopeAtlas.Proofs.Links
import ScopeAtlas.Proofs.Visibility
import ScopeAtlas.Proofs.Grafting
import ScopeAtlas.Proofs.Unifying
import ScopeAtlas.Proofs.Disagreements
import ScopeAtlas.Proofs.Indexes
import ScopeAtlas.Proofs.Impact
import ScopeAtlas.Proofs.Calling
import ScopeAtlas.Proofs.Refusals
import ScopeAtlas.Proofs.TypeNames
import ScopeAtlas.Proofs.LexicalPaths
import ScopeAtlas.Proofs.HeldUses
import ScopeAtlas.Proofs.LexicalContext
import ScopeAtlas.Proofs.Receivers
import ScopeAtlas.Proofs.QualifiedNamespaces
import ScopeAtlas.Proofs.Positions
import ScopeAtlas.Proofs.LocationTexts
import ScopeAtlas.Proofs.Numerals
import ScopeAtlas.Proofs.Lexemes
import ScopeAtlas.Proofs.Lines
import ScopeAtlas.Proofs.StackWalk
import ScopeAtlas.Proofs.WrittenParents
import ScopeAtlas.Proofs.OpenScopes

