import DistLabs.KV.Checked
import DistLabs.KV.Clients
import DistLabs.KV.Contract
import DistLabs.KV.Deployment
import DistLabs.KV.EndToEnd
import DistLabs.KV.Linearize
import DistLabs.KV.Prefix
import DistLabs.KV.Replay
import DistLabs.KV.Replicas
import DistLabs.KV.Server
import DistLabs.KV.Service
import DistLabs.KV.Snapshots
import DistLabs.KV.System
import DistLabs.KV.Wakeups
import DistLabs.Labgob
import DistLabs.Labrpc.Delivery
import DistLabs.Labrpc.Network
import DistLabs.Labrpc.Returning
import DistLabs.Labrpc.Turns
import DistLabs.Lib.Codec
import DistLabs.Lib.FileSystem
import DistLabs.Lib.Grouping
import DistLabs.Lib.Intervals
import DistLabs.Lib.Ledger
import DistLabs.Lib.LedgerFrame
import DistLabs.Lib.LedgerKept
import DistLabs.Lib.LedgerStep
import DistLabs.Lib.Linearizable
import DistLabs.Lib.Links
import DistLabs.Lib.Lists
import DistLabs.Lib.Machine
import DistLabs.Lib.Quorum
import DistLabs.Lib.Simulations
import DistLabs.MapReduce.Coordinator
import DistLabs.MapReduce.Equivalence
import DistLabs.MapReduce.Files
import DistLabs.MapReduce.Finishing
import DistLabs.MapReduce.Intermediate
import DistLabs.MapReduce.Output
import DistLabs.MapReduce.Phases
import DistLabs.MapReduce.Process
import DistLabs.MapReduce.Requests
import DistLabs.MapReduce.Sequential
import DistLabs.MapReduce.Site
import DistLabs.MapReduce.Solo
import DistLabs.MapReduce.Worker
import DistLabs.Porcupine.Bitset
import DistLabs.Porcupine.Checker
import DistLabs.Porcupine.Explore
import DistLabs.Porcupine.Keys
import DistLabs.Porcupine.KvModel
import DistLabs.Porcupine.Nodes
import DistLabs.Porcupine.Operations
import DistLabs.Porcupine.Parallel
import DistLabs.Porcupine.Search
import DistLabs.Porcupine.Single
import DistLabs.Raft.AppendEffect
import DistLabs.Raft.ApplyLoop
import DistLabs.Raft.Backup
import DistLabs.Raft.Bounds
import DistLabs.Raft.Cells
import DistLabs.Raft.Cluster
import DistLabs.Raft.CommitLog
import DistLabs.Raft.Compaction
import DistLabs.Raft.Delivery
import DistLabs.Raft.Durable
import DistLabs.Raft.Election
import DistLabs.Raft.Elections
import DistLabs.Raft.Handover
import DistLabs.Raft.Histories
import DistLabs.Raft.LogMatching
import DistLabs.Raft.Matching
import DistLabs.Raft.Mirror
import DistLabs.Raft.Origins
import DistLabs.Raft.Pairing
import DistLabs.Raft.Progress
import DistLabs.Raft.Provenance
import DistLabs.Raft.Refinement
import DistLabs.Raft.Reordering
import DistLabs.Raft.Replicate
import DistLabs.Raft.Replicators
import DistLabs.Raft.Roles
import DistLabs.Raft.Safety
import DistLabs.Raft.Serial
import DistLabs.Raft.Server
import DistLabs.Raft.Simulation
import DistLabs.Raft.Spec
import DistLabs.Raft.Starts
import DistLabs.Raft.Trans
import DistLabs.Raft.VoteRequests
import DistLabs.Raft.Votes
