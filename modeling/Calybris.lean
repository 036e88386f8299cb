import Calybris.Kernel.Saturation
import Calybris.Kernel.Order
import Calybris.Kernel.Loosening
import Calybris.Kernel.Counterfactual
import Calybris.Hybrid.Batch
import Calybris.Audit.Compare
import Calybris.Audit.Times
import Calybris.Audit.Revocation
import Calybris.Witness.Store
import Calybris.Witness.Request
import Calybris.Witness.Quorum
import Calybris.Witness.FileStore
import Calybris.Witness.Append
import Calybris.Budget.LedgerDigest
import Calybris.Budget.Fleet
import Calybris.Budget.Owned
import Calybris.Budget.Locks
import Calybris.Wal.Agreement
import Calybris.Wal.Epochs
import Calybris.Persistence.Plan
import Calybris.Agent.Drain
import Calybris.Agent.Accuracy
import Calybris.Verify.Agreement
import Calybris.Receipt.Verify
import Calybris.Outcome.Record
import Calybris.Ots.Upgrade
import Calybris.Exploration.Draw
import Calybris.Tsa.Nonce
import Calybris.Trust.Utc
import Calybris.Verify.Decompress
