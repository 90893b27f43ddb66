import Namecoin.Chain.Claimed
import Namecoin.Chain.PrivateCopies
import Namecoin.Chain.Retarget
import Namecoin.Chain.Runs
import Namecoin.Dns.Responses
import Namecoin.Gossip.Acks
import Namecoin.Gossip.CatchUp
import Namecoin.Node.Confirmations
import Namecoin.Node.Crashes
import Namecoin.Node.Difficulty
import Namecoin.Node.Lifecycle
import Namecoin.Node.Returns
import Namecoin.Paxos.Agreement
import Namecoin.Paxos.Broadcasts
import Namecoin.Paxos.Naming
import Namecoin.Paxos.Numbers
import Namecoin.Paxos.Proposals
import Namecoin.Paxos.Waiters
import Namecoin.Service.Copies
import Namecoin.Sharing.Addressing
import Namecoin.Sharing.RoundTrip
import Namecoin.Sharing.Search
import Namecoin.State.Binding
import Namecoin.State.Exactness
