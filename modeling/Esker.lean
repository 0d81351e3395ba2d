import Esker.Fallible
import Esker.Quorum
import Esker.Consensus.RawNode
import Esker.Consensus.Ballot
import Esker.Consensus.Campaign
import Esker.Consensus.Opening
import Esker.Txn.Serializable
import Esker.Txn.Redelivery
import Esker.Engine.GroupCommit
import Esker.Engine.LogRetention
import Esker.Engine.Families
import Esker.Engine.Picker
import Esker.Engine.Recovery
import Esker.Gc.Reads
import Esker.Gc.Retention
import Esker.Store.RegionMap
import Esker.Store.Compaction
import Esker.Store.Reclaim
import Esker.Store.Replay
import Esker.Store.Fragments
import Esker.Store.Keys
import Esker.Store.Copies
import Esker.Store.MergedScan
import Esker.Store.LogRefinement
import Esker.Sql.Route
import Esker.Sql.Writes
import Esker.Sql.Backfill
import Esker.Groups
import Esker.Sql.Aggregates
import Esker.Sql.Grouping
import Esker.Sql.Intervals
import Esker.Sql.Like
import Esker.Sql.RowLocks
import Esker.Pd.AddressBook
import Esker.Pd.Oracle
import Esker.Pd.Balancing
import Esker.Pd.Safepoints
