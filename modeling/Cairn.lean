import Cairn.Ports.Attribution
import Cairn.Ports.Bisection
import Cairn.Ports.Canary
import Cairn.Ports.Canonical.Cursor
import Cairn.Ports.Canonical.Paths
import Cairn.Ports.Checkpoint
import Cairn.Ports.Crypto.Hiding
import Cairn.Ports.Dilution
import Cairn.Ports.Gossip
import Cairn.Ports.Incentive.Coalition
import Cairn.Ports.Incentive.Exact
import Cairn.Ports.Knowledge.Gaming
import Cairn.Ports.Ledger.AtRest
import Cairn.Ports.Ledger.Proof
import Cairn.Ports.Ledger.Reload
import Cairn.Ports.Node.Answers
import Cairn.Ports.Node.Bounded
import Cairn.Ports.Node.Discipline
import Cairn.Ports.Node.Honest
import Cairn.Ports.Node.Independence
import Cairn.Ports.Node.Memo
import Cairn.Ports.Node.Refusal
import Cairn.Ports.Node.Shares
import Cairn.Ports.Node.Spending
import Cairn.Ports.Node.Wedge
import Cairn.Ports.P2p.Announce
import Cairn.Ports.P2p.Decoders
import Cairn.Ports.P2p.Hops
import Cairn.Ports.P2p.Session
import Cairn.Ports.Partition
import Cairn.Ports.Reference.Agree
import Cairn.Ports.Reference.Records
import Cairn.Ports.Sealed
import Cairn.Ports.Shards.Store
import Cairn.Ports.Slices
import Cairn.Ports.Stall
import Cairn.Ports.Store.Quota
import Cairn.Ports.Subsets
import Cairn.Ports.Swarm.Frame
import Cairn.Ports.Sync.Encode
import Cairn.Ports.Sync.Ids
import Cairn.Ports.Sync.Reconcile
import Cairn.Ports.Tier
import Cairn.Ports.Time
import Cairn.Ports.Vdf
import Cairn.Ports.Verifiers.Code
