import TensorPow.Spec.Node

/-!
# Opening a node on a store

The constructor of `TensorPowNode` and `sync_from`. Both rebuild the state in memory
from the columns of the store, whose values are read back from their bytes.
-/

namespace TensorPow

open Wire

variable {C : Crypto}

namespace Store

/-- `get_shard_tree`. -/
def getShardTree (s : Store C) : Except PyError (Option ShardTree) :=
  match s.shardTree with
  | none => .ok none
  | some t => (ShardTree.deserialize t.serialize).map some

/-- One item of `UTXOSet(store.utxos())`: decoded under its key, then added. -/
def addStored (set : UTXOSet C) (item : Hash × UTXO) : Except PyError (UTXOSet C) := do
  set.add (← UTXO.fromBytes C item.2.toBytes item.1)

/-- `UTXOSet(store.utxos())`: the column in the order of its keys. -/
def readUtxoSet (s : Store C) : Except PyError (UTXOSet C) := s.utxo.toList.foldlM addStored .empty

/-- `mempool_txs`, decoded. -/
def readMempoolTxs (s : Store C) : Except PyError (List Transaction) :=
  s.mempoolTxs.mapM fun tx => Transaction.fromBytes tx.toBytes

/-- One column of `sync_from`: put every item of the source, delete every key it lacks. -/
def syncColumn {K V : Type} [LinearOrder K] (target source : Table K V) : Table K V :=
  Table.eraseAll (Table.putAll target source.toList) (target.keys.filter fun k => !source.contains k)

/-- The same for a key of its own. -/
def syncItem {V : Type} (target source : Option V) : Option V :=
  match source with
  | some v => some v
  | none => if target.isSome then none else target

/-- The write of `sync_from`. -/
def syncFrom (target source : Store C) : Store C where
  headers := syncColumn target.headers source.headers
  bodies := syncColumn target.bodies source.bodies
  utxo := syncColumn target.utxo source.utxo
  fruitMeta := syncColumn target.fruitMeta source.fruitMeta
  anchorMeta := syncColumn target.anchorMeta source.anchorMeta
  coinbaseClaimed := syncColumn target.coinbaseClaimed source.coinbaseClaimed
  anchorHeight := syncItem target.anchorHeight source.anchorHeight
  anchorTip := syncItem target.anchorTip source.anchorTip
  mintedSupply := syncItem target.mintedSupply source.mintedSupply
  shardTree := syncItem target.shardTree source.shardTree
  feeFloors := syncColumn target.feeFloors source.feeFloors
  mempool := syncColumn target.mempool source.mempool

end Store

namespace Node

/-- What the constructor and `sync_from` rebuild from the store. -/
def reload (n : Node C) : Except Stop (Node C) := do
  let tree ← raising n.store.getShardTree
  let utxoSet ← raising n.store.readUtxoSet
  let n := { n with shardTree := tree.getD .root, utxoSet }
  let transactions ← raising n.store.readMempoolTxs
  let (mempool, store) ← n.rebuildMempool transactions
  return { n with mempool, store }

/-- `TensorPowNode(config)` on an existing store. -/
def opened (store : Store C) : Except Stop (Node C) :=
  reload { store, shardTree := .root, utxoSet := .empty, mempool := Mempool.new .root ∅, fruitDagCache := none }

/-- `sync_from` another node, once its write has succeeded. -/
def syncFrom (n other : Node C) : Except Stop (Node C) :=
  reload { n with store := n.store.syncFrom other.store, fruitDagCache := none }

end Node

end TensorPow
