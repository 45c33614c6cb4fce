import PeerExchange.Main
import PeerExchange.Proofs.BindingFixpoint
import PeerExchange.Proofs.BoundKeys
import PeerExchange.Proofs.CarriedInventions
import PeerExchange.Proofs.ColumnAlignment
import PeerExchange.Proofs.ColumnNames
import PeerExchange.Proofs.Composition
import PeerExchange.Proofs.ConformingRuns
import PeerExchange.Proofs.Convergence
import PeerExchange.Proofs.DeltaCoverage
import PeerExchange.Proofs.Distrust
import PeerExchange.Proofs.Documents
import PeerExchange.Proofs.EditCycle
import PeerExchange.Proofs.EditedRelations
import PeerExchange.Proofs.EquatedInsertions
import PeerExchange.Proofs.Exactness
import PeerExchange.Proofs.FreshenedRules
import PeerExchange.Proofs.Homomorphisms
import PeerExchange.Proofs.InsertExactness
import PeerExchange.Proofs.InstalledPrograms
import PeerExchange.Proofs.InventedTexts
import PeerExchange.Proofs.InventiveUnfolding
import PeerExchange.Proofs.LoadedTuples
import PeerExchange.Proofs.MergedInsertions
import PeerExchange.Proofs.MinimizedRules
import PeerExchange.Proofs.OuterJoinRows
import PeerExchange.Proofs.ProgramClosure
import PeerExchange.Proofs.Propagation
import PeerExchange.Proofs.ProvenanceMeaning
import PeerExchange.Proofs.QueuedEdits
import PeerExchange.Proofs.QuietGroups
import PeerExchange.Proofs.ReadStatements
import PeerExchange.Proofs.Recomputation
import PeerExchange.Proofs.RepeatedInsertion
import PeerExchange.Proofs.RetractionExactness
import PeerExchange.Proofs.SafePrograms
import PeerExchange.Proofs.ScopedStatements
import PeerExchange.Proofs.SourceLineage
import PeerExchange.Proofs.SpokenSessions
import PeerExchange.Proofs.StatedValues
import PeerExchange.Proofs.Stratification
import PeerExchange.Proofs.TableNames
import PeerExchange.Proofs.Transactions
import PeerExchange.Proofs.TypedProvenance
import PeerExchange.Proofs.TypedRules
import PeerExchange.Proofs.VirtualCycles
import PeerExchange.Proofs.WrittenMappings
import PeerExchange.Session.Memory
import PeerExchange.Session.Recorded
import PeerExchange.Session.Scripted
