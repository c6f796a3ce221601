import Rollcall.BackOff
import Rollcall.Dict
import Rollcall.Listing
import Rollcall.Store.Tree
import Rollcall.Registry
import Rollcall.Board
import Rollcall.Lifecycle
import Rollcall.Contributors
import Rollcall.Naming
import Rollcall.Known
import Rollcall.Signal
import Rollcall.World
import Rollcall.Rehearsal
import Rollcall.Http.Exchange
import Rollcall.Main
import Rollcall.Proofs.View
import Rollcall.Proofs.Portrait
import Rollcall.Proofs.Leadership
import Rollcall.Proofs.Board
import Rollcall.Proofs.Periods
import Rollcall.Proofs.Runners
import Rollcall.Proofs.Lookout
import Rollcall.Proofs.Blockade
import Rollcall.Proofs.Expiry
import Rollcall.Proofs.Propagation
import Rollcall.Proofs.Acquaintance
import Rollcall.Proofs.News
import Rollcall.Proofs.Council
import Rollcall.Proofs.Lookups
import Rollcall.Proofs.Origins
import Rollcall.Proofs.Departure
import Rollcall.Proofs.Contributors
import Rollcall.Proofs.Tally
import Rollcall.Proofs.Pauses
import Rollcall.Proofs.PolicyText
import Rollcall.Proofs.Store.Vault
import Rollcall.Proofs.Store.Promptness
import Rollcall.Proofs.Store.Revisions
import Rollcall.Proofs.Store.Hierarchy
import Rollcall.Proofs.Http.Delivery
import Rollcall.Proofs.Http.Requests
import Rollcall.Proofs.Json.Nesting
import Rollcall.Proofs.Store.Node
import Rollcall.Proofs.Store.Queue
