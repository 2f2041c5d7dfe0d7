import Trv1Chain.Bft.Types
import Trv1Chain.Lib.Quorum
import Trv1Chain.Lib.Record
import Trv1Chain.Lib.Log
import Trv1Chain.Lib.Run
import Trv1Chain.Bft.Vote
import Trv1Chain.Bft.Block
import Trv1Chain.Bft.StateMachine
import Trv1Chain.Bft.Moves
import Trv1Chain.Bft.History
import Trv1Chain.Proof.CommitCertificate
import Trv1Chain.Proof.Equivocation
import Trv1Chain.Proof.Lock
import Trv1Chain.Proof.VoteHistory
import Trv1Chain.Validator.Signing
import Trv1Chain.Proof.Agreement
import Trv1Chain.Proof.ProposalAuth
import Trv1Chain.Mempool.Pool
import Trv1Chain.Proof.BlockBody
import Trv1Chain.State.StateDb
import Trv1Chain.Fees.FeeMarket
import Trv1Chain.Validator.Node
import Trv1Chain.Validator.Turns
import Trv1Chain.Validator.Machine
import Trv1Chain.Proof.Replica
import Trv1Chain.Proof.Chain
import Trv1Chain.Proof.Spending
import Trv1Chain.Lib.Delivery
import Trv1Chain.Validator.Cluster
import Trv1Chain.Proof.Opening
import Trv1Chain.Proof.OpeningNode
import Trv1Chain.Proof.OpeningCluster
import Trv1Chain.Proof.FaultFree
import Trv1Chain.Proof.Ledger
import Trv1Chain.Proof.Withdrawal
import Trv1Chain.Proof.StakingTotal
import Trv1Chain.Proof.StepVotes
import Trv1Chain.Proof.PoolRemoval
import Trv1Chain.Proof.Proposals
import Trv1Chain.Proof.HeldBlocks
import Trv1Chain.Proof.HashChain
import Trv1Chain.Proof.Assembly
import Trv1Chain.Proof.Accountability
import Trv1Chain.Proof.Replication
import Trv1Chain.Proof.Integrity
import Trv1Chain.Rpc.Server
import Trv1Chain.Lib.Lru
import Trv1Chain.Proof.PoolIndex
import Trv1Chain.Storage.Tiered
import Trv1Chain.Proof.TieredMap
import Trv1Chain.ValidatorSet.Manager
import Trv1Chain.Proof.ActiveSet
import Trv1Chain.Slashing.Engine
import Trv1Chain.Slashing.Economy
import Trv1Chain.Proof.SlashLedgers
import Trv1Chain.Proof.LockedStake
import Trv1Chain.Proof.Jail
import Trv1Chain.Genesis.Config
import Trv1Chain.Validator.Registry
import Trv1Chain.Proof.EpochClock
import Trv1Chain.Proof.ValidatorSets
import Trv1Chain.Proof.EvidenceOrder
import Trv1Chain.Lib.Seating
import Trv1Chain.Proof.RotationOrder
import Trv1Chain.Proof.Strongest
import Trv1Chain.Rewards.Developer
import Trv1Chain.Proof.DeveloperFees
import Trv1Chain.Proof.Payloads
import Trv1Chain.Proof.GenesisSupply
import Trv1Chain.Proof.MerkleRoot
import Trv1Chain.Fees.Split
import Trv1Chain.Proof.FeeSplit
import Trv1Chain.Net.Network
import Trv1Chain.Proof.Bans
import Trv1Chain.Storage.Clients
import Trv1Chain.Proof.LostUpdate
import Trv1Chain.Lib.Slots
import Trv1Chain.ValidatorSet.Proposer
import Trv1Chain.Proof.ProposerSlots
import Trv1Chain.Proof.VotingPower
import Trv1Chain.Proof.EarliestFirst
import Trv1Chain.Staking.Rewards
import Trv1Chain.Proof.StakingRewards
import Trv1Chain.Proof.BaseFee
import Trv1Chain.Lib.StableSort
import Trv1Chain.Proof.Arrivals
import Trv1Chain.Proof.NonceOrder
import Trv1Chain.Storage.Faults
import Trv1Chain.Proof.Archiving
import Trv1Chain.Lib.Framing
import Trv1Chain.Proof.RatioPath
import Trv1Chain.Proof.Commuting
import Trv1Chain.Proof.StateRoot
import Trv1Chain.State.Files
import Trv1Chain.Proof.SavedState
import Trv1Chain.Proof.Jailing
import Trv1Chain.Proof.SlashHistory
import Trv1Chain.Proof.Duplicates
import Trv1Chain.Proof.EvidenceOnce
import Trv1Chain.Proof.Coherence
import Trv1Chain.Proof.Panics
import Trv1Chain.Proof.VoteQuorums
import Trv1Chain.Proof.ServedChain
import Trv1Chain.Lib.Locks
import Trv1Chain.Rpc.Tasks
import Trv1Chain.Lib.Atomic
import Trv1Chain.Proof.Interleaving
import Trv1Chain.Proof.Restarts
import Trv1Chain.Lib.Format
import Trv1Chain.Proof.Halts
import Trv1Chain.Proof.Gossip
import Trv1Chain.Genesis.Files
import Trv1Chain.Proof.GenesisFiles
import Trv1Chain.Validator.Station
import Trv1Chain.Proof.Deadlock
import Trv1Chain.Lib.Fifo
import Trv1Chain.Proof.Channels
import Trv1Chain.Proof.Provenance
import Trv1Chain.Lib.Flow
import Trv1Chain.Proof.Statistics
import Trv1Chain.Proof.RegistryLists
