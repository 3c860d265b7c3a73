import Minemon.Core.Commitment
import Minemon.Pledge.Fold
import Minemon.Redeem.Fold
import Minemon.Fork.ForkPoint
import Minemon.Accounts.Heights
import Minemon.Accounts.Locks
import Minemon.Fork.Download
import Minemon.Service.Submit
import Minemon.Run.Traces
import Minemon.Wallet.Rescan
import Minemon.Mining.ProofDecoding
import Minemon.Pool.Relay
import Minemon.Address.Base32
import Minemon.Dex.Payouts
import Minemon.Wallet.Selection
import Minemon.Net.Orphans
import Minemon.Pool.ListUnspent
import Minemon.Storage.CTSDB
import Minemon.Storage.UnspentDB
import Minemon.Crypto.BaseUint
import Minemon.Peer.ConnAttempt
import Minemon.Xengine.RWAccess
import Minemon.Crypto.Hex
import Minemon.Fork.Heaviest
import Minemon.Storage.BlockFile
