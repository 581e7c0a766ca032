import ScopeRules.Proofs.Alive
import ScopeRules.Proofs.Ancestors
import ScopeRules.Proofs.Cells
import ScopeRules.Proofs.Clauses
import ScopeRules.Proofs.Entries
import ScopeRules.Proofs.ForeignEntry
import ScopeRules.Proofs.IssuedIds
import ScopeRules.Proofs.NearestEntry
import ScopeRules.Proofs.Pieces
import ScopeRules.Proofs.Run
import ScopeRules.Proofs.SelfReferences
import ScopeRules.Proofs.Sound
import ScopeRules.Proofs.Trail
import ScopeRules.Walk
import ScopeRules.Proofs.Registration
import ScopeRules.Proofs.Owners
import ScopeRules.Proofs.Twins
import ScopeRules.Proofs.Likeness
import ScopeRules.Proofs.Mirror
import ScopeRules.Proofs.Abreast
import ScopeRules.Proofs.Compactions
import ScopeRules.Proofs.Walks
import ScopeRules.Proofs.LoadOrder
import ScopeRules.Proofs.ByteOrder
import ScopeRules.Proofs.Dictionaries
import ScopeRules.Proofs.Listing
import ScopeRules.Proofs.Paths
import ScopeRules.Proofs.Batches
import ScopeRules.Proofs.Stamps
import ScopeRules.Proofs.Apart
import ScopeRules.Proofs.Within
import ScopeRules.Proofs.Parts
import ScopeRules.Proofs.Isolation
import ScopeRules.Proofs.Afresh
import ScopeRules.Proofs.Clearing
import ScopeRules.Proofs.KeyOrder
import ScopeRules.Proofs.SlotBySlot
import ScopeRules.Proofs.Counterparts
import ScopeRules.Proofs.Correspondence
import ScopeRules.Proofs.Rearranged
import ScopeRules.Proofs.Views
import ScopeRules.Proofs.WaysIn
import ScopeRules.Proofs.Chains
import ScopeRules.Proofs.Requests
import ScopeRules.Proofs.Replies
import ScopeRules.Proofs.Readings
import ScopeRules.Proofs.InOrder
import ScopeRules.Proofs.MatchGroups
import ScopeRules.Proofs.Pruning
import ScopeRules.Proofs.Slots
import ScopeRules.Proofs.Mentions
import ScopeRules.Proofs.Interning
import ScopeRules.Proofs.Handles
import ScopeRules.Proofs.Nulls
import ScopeRules.Proofs.Reloading
import ScopeRules.Proofs.Suffixes
import ScopeRules.Proofs.Sameness
import ScopeRules.Proofs.IncludeStrings
import ScopeRules.Proofs.WrongKinds
import ScopeRules.Proofs.EventLog
import ScopeRules.Proofs.LastWrites
import ScopeRules.Proofs.Insertions
