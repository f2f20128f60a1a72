import RedlineDb.LostUpdate
import RedlineDb.FuzzyCheckpoint
import RedlineDb.RowIds
import RedlineDb.WalRounds
import RedlineDb.CatalogDdl
import RedlineDb.StatementAtomicity
import RedlineDb.WalCheckpoint
import RedlineDb.TxIdReuse
import RedlineDb.SemanticFold
import RedlineDb.GroupCommit
import RedlineDb.BtreeLinks
import RedlineDb.ControlFiles
import RedlineDb.LockManager
import RedlineDb.PageReuse
import RedlineDb.VacuumHorizon
import RedlineDb.WriteAhead
import RedlineDb.PageGuards
import RedlineDb.TxnEnd
import RedlineDb.PageScan
import RedlineDb.UniqueLocks
import RedlineDb.Backup
import RedlineDb.CatalogExpr
import RedlineDb.RecordCodec
import RedlineDb.RowSizes
import RedlineDb.JoinRows
import RedlineDb.Predicates
import RedlineDb.TopK
import RedlineDb.SetOps
import RedlineDb.Glob
import RedlineDb.Calendar
import RedlineDb.JsonPath
import RedlineDb.Ntile
import RedlineDb.VectoredWrite
import RedlineDb.KeyCompare
