import Lattica.Attest.Edits
import Lattica.Cli.Leaders
import Lattica.Cli.RpcAttest
import Lattica.Liquidator.Accounts
import Lattica.Liquidator.Simulate
import Lattica.Listener.Agreement
import Lattica.Listener.Equivocation
import Lattica.Listener.Finalization
import Lattica.Listener.Footprint
import Lattica.Listener.Isolation
import Lattica.Listener.LeaderCache
import Lattica.Listener.LeaderRpc
import Lattica.Listener.Marker
import Lattica.Listener.Network
import Lattica.Listener.Observed
import Lattica.Listener.Protocol
import Lattica.Listener.Readiness
import Lattica.Listener.Rejections
import Lattica.Listener.Replay
import Lattica.Listener.Resolving
import Lattica.Listener.Safety
import Lattica.Listener.SharedFaults
import Lattica.Listener.SlotRoot
import Lattica.Lthash.AccountMap
import Lattica.Lthash.Binding
import Lattica.Lthash.LtHash
import Lattica.WasmVerify.Boundary
