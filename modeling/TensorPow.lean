import TensorPow.Accum.Tree
import TensorPow.Cells.Basic
import TensorPow.Coder.Interval
import TensorPow.Coder.Product
import TensorPow.Coder.Regroup
import TensorPow.Coder.Remainder
import TensorPow.Coder.Slices
import TensorPow.Coeffs.Basic
import TensorPow.Conflict.Basic
import TensorPow.Exn.Basic
import TensorPow.Exn.State
import TensorPow.Gf2.Trace
import TensorPow.Gf2.Word
import TensorPow.Iblt.Basic
import TensorPow.Iblt.Run
import TensorPow.Proof.ActiveChain
import TensorPow.Proof.Address
import TensorPow.Proof.Admission
import TensorPow.Proof.AnchorChain
import TensorPow.Proof.AnchorMeta
import TensorPow.Proof.Apply
import TensorPow.Proof.Atomic
import TensorPow.Proof.BlockBinding
import TensorPow.Proof.BlueScore
import TensorPow.Proof.Codec
import TensorPow.Proof.Commitment
import TensorPow.Proof.Commute
import TensorPow.Proof.Conflicts
import TensorPow.Proof.Conservation
import TensorPow.Proof.Convergence
import TensorPow.Proof.DagOrder
import TensorPow.Proof.Das
import TensorPow.Proof.DasGrid
import TensorPow.Proof.DasWire
import TensorPow.Proof.Decode
import TensorPow.Proof.Erasure
import TensorPow.Proof.ErlayDecode
import TensorPow.Proof.ErlayField
import TensorPow.Proof.ErlayMassey
import TensorPow.Proof.ErlayPoly
import TensorPow.Proof.ErlayRoots
import TensorPow.Proof.ErlaySession
import TensorPow.Proof.ErlayWire
import TensorPow.Proof.Finality
import TensorPow.Proof.FruitDag
import TensorPow.Proof.FruitOrder
import TensorPow.Proof.Ghostdag
import TensorPow.Proof.Gossip
import TensorPow.Proof.Graphene
import TensorPow.Proof.Iblt
import TensorPow.Proof.Interpreter
import TensorPow.Proof.Issuance
import TensorPow.Proof.Learned
import TensorPow.Proof.Maturity
import TensorPow.Proof.Mempool
import TensorPow.Proof.Multisig
import TensorPow.Proof.Operations
import TensorPow.Proof.Outputs
import TensorPow.Proof.Partition
import TensorPow.Proof.Peeling
import TensorPow.Proof.Pool
import TensorPow.Proof.Pow
import TensorPow.Proof.PowBinding
import TensorPow.Proof.RangeCoder
import TensorPow.Proof.Reconstruct
import TensorPow.Proof.Relay
import TensorPow.Proof.RelayTree
import TensorPow.Proof.Replay
import TensorPow.Proof.Restart
import TensorPow.Proof.Routing
import TensorPow.Proof.Selection
import TensorPow.Proof.ShardBytes
import TensorPow.Proof.Sighash
import TensorPow.Proof.Spend
import TensorPow.Proof.Split
import TensorPow.Proof.Steps
import TensorPow.Proof.Stop
import TensorPow.Proof.Subscriptions
import TensorPow.Proof.Sync
import TensorPow.Proof.Template
import TensorPow.Proof.Topology
import TensorPow.Proof.UtxoProofs
import TensorPow.Proof.UtxoSet
import TensorPow.Proof.Validators
import TensorPow.Proof.Wallet
import TensorPow.Proof.WebSocket
import TensorPow.Proof.WebSocketSession
import TensorPow.Proof.Wtema
import TensorPow.Queue.Bounded
import TensorPow.Recurrence.Massey
import TensorPow.Recurrence.PowerSums
import TensorPow.Sorted.Basic
import TensorPow.Sparse.Tree
import TensorPow.Spec.Address
import TensorPow.Spec.Basic
import TensorPow.Spec.Blocks
import TensorPow.Spec.Branch
import TensorPow.Spec.Codec
import TensorPow.Spec.Commitment
import TensorPow.Spec.Das
import TensorPow.Spec.DasCodec
import TensorPow.Spec.Erlay
import TensorPow.Spec.ErlaySketch
import TensorPow.Spec.Finality
import TensorPow.Spec.Ghostdag
import TensorPow.Spec.Gossip
import TensorPow.Spec.Graphene
import TensorPow.Spec.Headers
import TensorPow.Spec.Iblt
import TensorPow.Spec.Interpreter
import TensorPow.Spec.Learned
import TensorPow.Spec.Mempool
import TensorPow.Spec.Node
import TensorPow.Spec.Pool
import TensorPow.Spec.Pow
import TensorPow.Spec.Reject
import TensorPow.Spec.Reshard
import TensorPow.Spec.Restart
import TensorPow.Spec.Rewards
import TensorPow.Spec.Script
import TensorPow.Spec.ShardTree
import TensorPow.Spec.Store
import TensorPow.Spec.Subscriptions
import TensorPow.Spec.Sync
import TensorPow.Spec.Template
import TensorPow.Spec.Topology
import TensorPow.Spec.Transaction
import TensorPow.Spec.Turbine
import TensorPow.Spec.Utxo
import TensorPow.Spec.Wallet
import TensorPow.Spec.WebSocket
import TensorPow.Stream.Ask
import TensorPow.Table.Basic
import TensorPow.Wire.Bytes
import TensorPow.Wire.Hex
import TensorPow.Wire.Reader
import TensorPow.Wire.Slice
import TensorPow.Wire.Varint
import TensorPow.Wire.Xor
