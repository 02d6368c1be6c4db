import BeaconChain.Chain.Walk
import BeaconChain.Json.Reference
import BeaconChain.Proofs.Archive.Ledger
import BeaconChain.Proofs.Archive.Scan
import BeaconChain.Proofs.BlockTree.Ghost
import BeaconChain.Proofs.BlockTree.Latest
import BeaconChain.Proofs.BlockTree.Raised
import BeaconChain.Proofs.BlockTree.Resumption
import BeaconChain.Proofs.BlockTree.Subtree
import BeaconChain.Proofs.Chain.Faultless
import BeaconChain.Proofs.Chain.Head
import BeaconChain.Proofs.Chain.LookUps
import BeaconChain.Proofs.Chain.Retry
import BeaconChain.Proofs.Chain.Snapshot
import BeaconChain.Proofs.Chain.Walk
import BeaconChain.Proofs.ForkChoice.Deferral
import BeaconChain.Proofs.ForkChoice.Messages
import BeaconChain.Proofs.ForkChoice.Outcomes
import BeaconChain.Proofs.ForkChoice.Stakes
import BeaconChain.Proofs.ForkChoice.Weights
import BeaconChain.Proofs.RecentChain.Agreement
import BeaconChain.Proofs.RecentChain.Arrival
import BeaconChain.Proofs.RecentChain.Custody
import BeaconChain.Proofs.RecentChain.Outcome
import BeaconChain.Proofs.RecentChain.Stale
import BeaconChain.Proofs.RecentChain.Tip
import BeaconChain.Rules.Scripted
