import TensorPow.Spec.Blocks
import TensorPow.Spec.Reject

/-!
# The persistent store

The columns of `storage/rocksdb.py`, with typed keys and values: a column holds the
values whose canonical bytes the code stores. The `dag` column is split by its key
prefixes.

* `BatchPut`, `BatchDelete`, `Store.writeBatch`: an atomic batch, puts before deletes.
-/

namespace TensorPow

open Wire

/-- A stored body. -/
inductive Body (C : Crypto) where
  | fruit (f : Fruit C)
  | anchor (a : Anchor C)
deriving DecidableEq

/-- `_FruitMeta`. -/
structure FruitMeta where
  coinbaseClaimMatoms : ℕ
  tipMatoms : ℕ
deriving DecidableEq

/-- `_AnchorMeta`. -/
structure AnchorMeta where
  height : ℕ
  target : Hash
  cumulativeWork : ℕ
deriving DecidableEq

/-- `_encode_fruit_meta`: both amounts must fit eight bytes. -/
def encodeFruitMeta (m : FruitMeta) : Except PyError FruitMeta := do
  Exn.ensure (m.coinbaseClaimMatoms ≤ u64Max) (.valueError "value outside uint64 range")
  Exn.ensure (m.tipMatoms ≤ u64Max) (.valueError "value outside uint64 range")
  return m

/-- `_encode_anchor_meta`: the height must fit eight bytes, the work thirty-two. -/
def encodeAnchorMeta (m : AnchorMeta) : Except PyError AnchorMeta := do
  Exn.ensure (m.height ≤ u64Max) (.valueError "value outside uint64 range")
  Exn.ensure (m.cumulativeWork ≤ u256Max) (.valueError "value outside uint256 range")
  return m

/-- The store. -/
structure Store (C : Crypto) where
  headers : Table Hash Bytes
  bodies : Table Hash (Body C)
  utxo : Table Hash UTXO
  fruitMeta : Table Hash FruitMeta
  anchorMeta : Table Hash AnchorMeta
  coinbaseClaimed : Table Hash ℕ
  anchorHeight : Option ℕ
  anchorTip : Option Hash
  mintedSupply : Option ℕ
  shardTree : Option ShardTree
  feeFloors : Table ℕ ℕ
  mempool : Table Hash Transaction

/-- One put of a batch. -/
inductive BatchPut (C : Crypto) where
  | header (h : Hash) (bytes : Bytes)
  | body (h : Hash) (b : Body C)
  | utxo (key : Hash) (u : UTXO)
  | fruitMeta (h : Hash) (m : FruitMeta)
  | anchorMeta (h : Hash) (m : AnchorMeta)
  | coinbaseClaimed (h : Hash) (height : ℕ)
  | anchorHeight (height : ℕ)
  | anchorTip (h : Hash)
  | mintedSupply (amount : ℕ)
  | shardTree (t : ShardTree)
  | feeFloor (shardId floor : ℕ)
  | mempool (txId : Hash) (tx : Transaction)

/-- One delete of a batch. -/
inductive BatchDelete where
  | utxo (key : Hash)
  | coinbaseClaimed (h : Hash)
  | feeFloor (shardId : ℕ)
  | mempool (txId : Hash)

namespace Store

variable {C : Crypto}

/-- An empty store. -/
def empty : Store C :=
  ⟨∅, ∅, ∅, ∅, ∅, ∅, none, none, none, none, ∅, ∅⟩

/-- One put. -/
def put (s : Store C) : BatchPut C → Store C
  | .header h bytes => { s with headers := s.headers.insert h bytes }
  | .body h b => { s with bodies := s.bodies.insert h b }
  | .utxo key u => { s with utxo := s.utxo.insert key u }
  | .fruitMeta h m => { s with fruitMeta := s.fruitMeta.insert h m }
  | .anchorMeta h m => { s with anchorMeta := s.anchorMeta.insert h m }
  | .coinbaseClaimed h height => { s with coinbaseClaimed := s.coinbaseClaimed.insert h height }
  | .anchorHeight height => { s with anchorHeight := some height }
  | .anchorTip h => { s with anchorTip := some h }
  | .mintedSupply amount => { s with mintedSupply := some amount }
  | .shardTree t => { s with shardTree := some t }
  | .feeFloor shardId floor => { s with feeFloors := s.feeFloors.insert shardId floor }
  | .mempool txId tx => { s with mempool := s.mempool.insert txId tx }

/-- One delete. -/
def delete (s : Store C) : BatchDelete → Store C
  | .utxo key => { s with utxo := s.utxo.erase key }
  | .coinbaseClaimed h => { s with coinbaseClaimed := s.coinbaseClaimed.erase h }
  | .feeFloor shardId => { s with feeFloors := s.feeFloors.erase shardId }
  | .mempool txId => { s with mempool := s.mempool.erase txId }

/-- `write_batch`: every put, then every delete. -/
def writeBatch (s : Store C) (puts : List (BatchPut C)) (deletes : List BatchDelete) : Store C :=
  deletes.foldl delete (puts.foldl put s)

/-- `mempool_txs`: the pending transactions in the order of their ids. -/
def mempoolTxs (s : Store C) : List Transaction := s.mempool.toList.map Prod.snd

end Store

end TensorPow
