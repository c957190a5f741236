import Rlnc.Acceptance
import Rlnc.Actor
import Rlnc.Agreement
import Rlnc.Amplification
import Rlnc.Arrivals
import Rlnc.Authenticity
import Rlnc.Bandwidth
import Rlnc.Bfkw
import Rlnc.BfkwProtocol
import Rlnc.BfkwStrategy
import Rlnc.Binding
import Rlnc.BlockCodec
import Rlnc.Blocks
import Rlnc.Broadcast
import Rlnc.Chunking
import Rlnc.CodedRuns
import Rlnc.Coding
import Rlnc.Combination
import Rlnc.Completion
import Rlnc.Consistency
import Rlnc.Counters
import Rlnc.Cuts
import Rlnc.Decodability
import Rlnc.Delivery
import Rlnc.Draws
import Rlnc.Echelon
import Rlnc.Elimination
import Rlnc.Engine
import Rlnc.Events
import Rlnc.Flooding
import Rlnc.Forwarding
import Rlnc.Groups
import Rlnc.InOrder
import Rlnc.Information
import Rlnc.Innovation
import Rlnc.Integrity
import Rlnc.Inversion
import Rlnc.Linalg
import Rlnc.Liveness
import Rlnc.Mesh
import Rlnc.Metrics
import Rlnc.Network
import Rlnc.Operations
import Rlnc.Packets
import Rlnc.Packing
import Rlnc.Panics
import Rlnc.Pedersen
import Rlnc.PedersenProtocol
import Rlnc.PedersenStrategy
import Rlnc.Policies
import Rlnc.Progress
import Rlnc.Proposing
import Rlnc.Provision
import Rlnc.Protocols
import Rlnc.Quiescence
import Rlnc.Reference
import Rlnc.Relabelling
import Rlnc.Relaying
import Rlnc.Reordering
import Rlnc.Representation
import Rlnc.Robustness
import Rlnc.Runs
import Rlnc.Sampling
import Rlnc.Scalars
import Rlnc.Schedules
import Rlnc.Shortfall
import Rlnc.Simulator
import Rlnc.Spread
import Rlnc.Strategies
import Rlnc.Termination
import Rlnc.Topology
import Rlnc.Varint
import Rlnc.Walks
import Rlnc.Wire
import Rlnc.WorkQueue
