import TensorPow.Spec.Basic
import TensorPow.Wire.Reader

/-!
# Outpoints, unspent outputs and the UTXO set

`state/utxo.py`, without the sparse Merkle commitment, which no function of the node
reads. A `UTXOSet` carries the proof that its three indexes agree, so `add` and `remove`
can only be written in a way that keeps them consistent.
-/

namespace TensorPow

open Wire

/-- `MAX_SUPPLY_MATOMS`. -/
def maxSupplyMatoms : ℕ := 2100000000000000

/-- `TX_OUTPUT_PAYLOAD_MAX_BYTES`. -/
def txOutputPayloadMaxBytes : ℕ := 2048

/-- The active output templates. -/
inductive Template where
  | pkh
  | multisig
  | hashlock
deriving DecidableEq, Repr

/-- The template's `template_id`. -/
def Template.id : Template → ℕ
  | .pkh => 0
  | .multisig => 1
  | .hashlock => 2

/-- The template of a `template_id`, if it is active. -/
def Template.ofId (id : ℕ) : Except PyError Template :=
  match id with
  | 0 => .ok .pkh
  | 1 => .ok .multisig
  | 2 => .ok .hashlock
  | _ => .error (.valueError "template_id must be an active output template")

/-- `Outpoint`: a transaction output reference. -/
structure Outpoint where
  txId : Hash
  outputIndex : ℕ
  index_le : outputIndex ≤ u32Max
deriving DecidableEq

namespace Outpoint

/-- `Outpoint(tx_id, output_index)`. -/
def make (txId : Hash) (outputIndex : ℕ) : Except PyError Outpoint :=
  if h : outputIndex ≤ u32Max then .ok ⟨txId, outputIndex, h⟩
  else .error (.valueError "output_index outside uint range")

/-- `Outpoint.to_bytes`. -/
def toBytes (o : Outpoint) : Bytes := o.txId.bytes ++ le 4 o.outputIndex

theorem toBytes_injective : Function.Injective toBytes := by
  rintro ⟨t, i, hi⟩ ⟨t', i', hi'⟩ h
  obtain ⟨ht, hx⟩ := List.append_inj h (by simp)
  have hlt : ∀ n, n ≤ u32Max → n < 256 ^ 4 := by unfold u32Max; omega
  cases FixedBytes.bytes_inj.1 ht
  cases le_inj (hlt i hi) (hlt i' hi') hx
  rfl

/-- Outpoints are ordered by their bytes. -/
instance : LinearOrder Outpoint := LinearOrder.lift' toBytes toBytes_injective

/-- `Outpoint.key`: the storage key of the outpoint. -/
def key (C : Crypto) (o : Outpoint) : Hash := C.domainHash domainOutpoint o.toBytes

end Outpoint

/-- The fields of an unspent output. -/
structure UTXOFields where
  outpoint : Outpoint
  amountMatoms : ℕ
  template : Template
  ownerPubkeyHash : Hash
  locktimeMs : ℕ
  lockheight : ℕ
  payload : Bytes
deriving DecidableEq

/-- `UTXO.__post_init__`. -/
def UTXOFields.postInit (u : UTXOFields) : Except PyError Unit := do
  requireUint "amount_matoms" u.amountMatoms u64Max
  Exn.ensure (u.amountMatoms ≠ 0) (.valueError "amount_matoms must be nonzero")
  Exn.ensure (u.amountMatoms ≤ maxSupplyMatoms) (.valueError "amount_matoms exceeds MAX_SUPPLY_MATOMS")
  requireUint "locktime_ms" u.locktimeMs u64Max
  requireUint "lockheight" u.lockheight u64Max
  Exn.ensure (u.payload.length ≤ txOutputPayloadMaxBytes) (.valueError "payload must be <= 2048 bytes")

/-- `UTXO`. -/
structure UTXO extends UTXOFields where
  valid : toUTXOFields.postInit = .ok ()
deriving DecidableEq

/-- The constructor: the fields, if they pass the checks. -/
def UTXO.make (f : UTXOFields) : Except PyError UTXO :=
  match h : f.postInit with
  | .ok () => .ok ⟨f, h⟩
  | .error e => .error e

namespace UTXO

/-- `UTXO_FIXED_BYTES`. -/
def fixedBytes : ℕ := 36 + 8 + 2 + 32 + 8 + 8 + 2

/-- `UTXO.to_bytes`. -/
def toBytes (u : UTXO) : Bytes :=
  u.outpoint.toBytes ++ le 8 u.amountMatoms ++ le 2 u.template.id ++ u.ownerPubkeyHash.bytes ++
    le 8 u.locktimeMs ++ le 8 u.lockheight ++ le 2 u.payload.length ++ u.payload

/-- `UTXO.value_hash`. -/
def valueHash (C : Crypto) (u : UTXO) : Hash := C.domainHash domainUtxo u.toBytes

/-- What `UTXO.from_bytes` reads at fixed offsets. -/
structure Encoded where
  txId : Hash
  outputIndex : ℕ
  amountMatoms : ℕ
  templateId : ℕ
  ownerPubkeyHash : Hash
  locktimeMs : ℕ
  lockheight : ℕ
  payloadLen : ℕ

/-- The error of bytes that end too early. -/
def truncated : PyError := .valueError "UTXO bytes are truncated"

/-- The reads of `UTXO.from_bytes` up to the payload, in order. -/
def readFields : Reader PyError Encoded := do
  let txId ← Reader.fixed truncated 32
  let outputIndex ← Reader.uint truncated 4
  let amountMatoms ← Reader.uint truncated 8
  let templateId ← Reader.uint truncated 2
  let ownerPubkeyHash ← Reader.fixed truncated 32
  let locktimeMs ← Reader.uint truncated 8
  let lockheight ← Reader.uint truncated 8
  let payloadLen ← Reader.uint truncated 2
  return { txId, outputIndex, amountMatoms, templateId, ownerPubkeyHash, locktimeMs, lockheight, payloadLen }

/-- `UTXO.from_bytes` with an `expected_outpoint_key`. -/
def fromBytes (C : Crypto) (data : Bytes) (expectedOutpointKey : Hash) : Except PyError UTXO := do
  Exn.ensure (fixedBytes ≤ data.length) truncated
  let (e, payload) ← Reader.parse (do
    let e ← readFields
    let payload ← Reader.rest
    return (e, payload)) data
  let outpoint ← Outpoint.make e.txId e.outputIndex
  Exn.ensure (data.length = fixedBytes + e.payloadLen)
    (.valueError "UTXO payload length does not match encoded bytes")
  let template ← Template.ofId e.templateId
  let utxo ← make { outpoint, amountMatoms := e.amountMatoms, template, ownerPubkeyHash := e.ownerPubkeyHash,
                    locktimeMs := e.locktimeMs, lockheight := e.lockheight, payload }
  Exn.ensure (utxo.outpoint.key C = expectedOutpointKey) (.valueError "UTXO outpoint does not match expected key")
  return utxo

end UTXO

/-! ## The set -/

/-- The outpoints of one owner. -/
def ownersOf (t : Table Outpoint UTXO) (w : Hash) : Finset Outpoint :=
  ((t.toList.filter fun p => p.2.ownerPubkeyHash = w).map Prod.fst).toFinset

/-- A group of outpoints as the owner index files it: empty groups are not kept. -/
def filed (s : Finset Outpoint) : Option (Finset Outpoint) := if s = ∅ then none else some s

theorem mem_ownersOf {t : Table Outpoint UTXO} {w : Hash} {o : Outpoint} :
    o ∈ ownersOf t w ↔ ∃ u, t[o]? = some u ∧ u.ownerPubkeyHash = w := by
  simp only [ownersOf, List.mem_toFinset, List.mem_map, List.mem_filter, decide_eq_true_eq, Prod.exists,
    Table.mem_toList]
  constructor
  · rintro ⟨_, u, hu, rfl⟩
    exact ⟨u, hu⟩
  · rintro ⟨u, hu⟩
    exact ⟨o, u, hu, rfl⟩

theorem getD_filed (s : Finset Outpoint) : (filed s).getD ∅ = s := by
  unfold filed
  split
  · rename_i h; exact h.symm
  · rfl

/-- `UTXOSet`: unspent outputs by outpoint, by storage key and by owner. -/
structure UTXOSet (C : Crypto) where
  utxos : Table Outpoint UTXO
  outpointByKey : Table Hash Outpoint
  outpointsByOwner : Table Hash (Finset Outpoint)
  /-- Every entry is filed under its own outpoint. -/
  outpoint_eq : ∀ {o : Outpoint} {u : UTXO}, utxos[o]? = some u → u.outpoint = o
  /-- The key index holds exactly the keys of the entries. -/
  key_iff : ∀ {k : Hash} {o : Outpoint}, outpointByKey[k]? = some o ↔
    (∃ u, utxos[o]? = some u) ∧ o.key C = k
  /-- The owner index holds exactly the entries grouped by owner. -/
  owner_eq : ∀ w : Hash, outpointsByOwner[w]? = filed (ownersOf utxos w)

namespace UTXOSet

variable {C : Crypto}

/-- `UTXOSet()`. -/
def empty : UTXOSet C where
  utxos := ∅
  outpointByKey := ∅
  outpointsByOwner := ∅
  outpoint_eq h := by simp at h
  key_iff := by simp
  owner_eq w := by
    have hnone : ownersOf ∅ w = ∅ := by
      refine Finset.eq_empty_of_forall_notMem fun o ho => ?_
      obtain ⟨u, hu, -⟩ := mem_ownersOf.1 ho
      simp at hu
    rw [hnone]
    simp [filed]

/-- `UTXOSet.get`. -/
def get (s : UTXOSet C) (o : Outpoint) : Option UTXO := s.utxos[o]?

/-- `UTXOSet.utxos`: all entries in the order of their outpoints' bytes. -/
def entries (s : UTXOSet C) : List UTXO := s.utxos.toList.map Prod.snd

/-- `setdefault(owner, set()).add(outpoint)` on the owner index. -/
def addOwner (t : Table Hash (Finset Outpoint)) (w : Hash) (o : Outpoint) : Table Hash (Finset Outpoint) :=
  t.insert w (insert o (t[w]?.getD ∅))

/-- `_outpoints_by_owner[owner].remove(outpoint)`, dropping a group that becomes empty. -/
def dropOwner (t : Table Hash (Finset Outpoint)) (w : Hash) (o : Outpoint) : Table Hash (Finset Outpoint) :=
  let rest := (t[w]?.getD ∅).erase o
  if rest = ∅ then t.erase w else t.insert w rest

theorem get_addOwner (s : UTXOSet C) {u : UTXO} (h : s.utxos[u.outpoint]? = none) (w : Hash) :
    (addOwner s.outpointsByOwner u.ownerPubkeyHash u.outpoint)[w]? =
      filed (ownersOf (s.utxos.insert u.outpoint u) w) := by
  have hins : ∀ o, o ∈ ownersOf (s.utxos.insert u.outpoint u) w ↔
      (o = u.outpoint ∧ u.ownerPubkeyHash = w) ∨ o ∈ ownersOf s.utxos w := by
    intro o
    simp only [mem_ownersOf, Table.get_insert]
    by_cases ho : u.outpoint = o
    · subst ho
      simp [h]
    · have ho' : ¬o = u.outpoint := fun e => ho e.symm
      simp [ho, ho']
  rw [addOwner, Table.get_insert]
  split
  · rename_i hw
    subst hw
    have hgroup : ownersOf (s.utxos.insert u.outpoint u) u.ownerPubkeyHash =
        insert u.outpoint (ownersOf s.utxos u.ownerPubkeyHash) := by
      ext o
      rw [hins, Finset.mem_insert]
      simp
    rw [s.owner_eq, getD_filed, hgroup, filed, if_neg (Finset.insert_ne_empty _ _)]
  · rename_i hw
    have hgroup : ownersOf (s.utxos.insert u.outpoint u) w = ownersOf s.utxos w := by
      ext o
      rw [hins]
      simp [hw]
    rw [s.owner_eq, hgroup]

theorem get_dropOwner (s : UTXOSet C) {o : Outpoint} {u : UTXO} (h : s.utxos[o]? = some u) (w : Hash) :
    (dropOwner s.outpointsByOwner u.ownerPubkeyHash o)[w]? = filed (ownersOf (s.utxos.erase o) w) := by
  have hers : ∀ x, x ∈ ownersOf (s.utxos.erase o) w ↔ x ≠ o ∧ x ∈ ownersOf s.utxos w := by
    intro x
    simp only [mem_ownersOf, Table.get_erase]
    by_cases hx : o = x
    · subst hx
      simp
    · simp [hx, Ne.symm hx]
  rw [dropOwner, s.owner_eq, getD_filed]
  by_cases hw : u.ownerPubkeyHash = w
  · subst hw
    have hgroup : ownersOf (s.utxos.erase o) u.ownerPubkeyHash =
        (ownersOf s.utxos u.ownerPubkeyHash).erase o := by
      ext x
      rw [hers, Finset.mem_erase]
    rw [hgroup]
    simp only [filed]
    split
    · rw [Table.get_erase, if_pos rfl]
    · rw [Table.get_insert, if_pos rfl]
  · have hgroup : ownersOf (s.utxos.erase o) w = ownersOf s.utxos w := by
      ext x
      rw [hers]
      refine ⟨And.right, fun hx => ⟨?_, hx⟩⟩
      rintro rfl
      obtain ⟨v, hv, hvw⟩ := mem_ownersOf.1 hx
      cases h.symm.trans hv
      exact hw hvw
    rw [hgroup, ← s.owner_eq]
    split
    · rw [Table.get_erase, if_neg hw]
    · rw [Table.get_insert, if_neg hw]

/-- The set with an entry under a new outpoint and a new key. -/
def insertNew (s : UTXOSet C) (u : UTXO) (h : s.utxos[u.outpoint]? = none)
    (hk : s.outpointByKey[u.outpoint.key C]? = none) : UTXOSet C where
  utxos := s.utxos.insert u.outpoint u
  outpointByKey := s.outpointByKey.insert (u.outpoint.key C) u.outpoint
  outpointsByOwner := addOwner s.outpointsByOwner u.ownerPubkeyHash u.outpoint
  outpoint_eq := by
    intro o v hv
    rw [Table.get_insert] at hv
    split at hv
    · cases hv; assumption
    · exact s.outpoint_eq hv
  key_iff := by
    intro k o
    simp only [Table.get_insert]
    by_cases hko : u.outpoint.key C = k
    · subst hko
      rw [if_pos rfl, Option.some.injEq]
      constructor
      · rintro rfl
        exact ⟨⟨u, if_pos rfl⟩, rfl⟩
      · rintro ⟨⟨v, hv⟩, hkey⟩
        by_contra hne
        rw [if_neg hne] at hv
        have := s.key_iff.2 ⟨⟨v, hv⟩, hkey⟩
        rw [hk] at this
        cases this
    · rw [if_neg hko, s.key_iff]
      refine and_congr_left fun hkey => ?_
      have hne : u.outpoint ≠ o := fun e => hko (e ▸ hkey)
      rw [if_neg hne]
  owner_eq := get_addOwner s h

/-- The set without an entry. -/
def eraseOld (s : UTXOSet C) (o : Outpoint) (u : UTXO) (h : s.utxos[o]? = some u) : UTXOSet C where
  utxos := s.utxos.erase o
  outpointByKey := s.outpointByKey.erase (o.key C)
  outpointsByOwner := dropOwner s.outpointsByOwner u.ownerPubkeyHash o
  outpoint_eq := by
    intro x v hv
    rw [Table.get_erase] at hv
    split at hv
    · cases hv
    · exact s.outpoint_eq hv
  key_iff := by
    intro k x
    simp only [Table.get_erase]
    by_cases hko : o.key C = k
    · subst hko
      rw [if_pos rfl]
      simp only [reduceCtorEq, false_iff, not_and]
      rintro ⟨v, hv⟩ hkey
      have hne : o ≠ x := by
        rintro rfl
        simp at hv
      rw [if_neg hne] at hv
      have hx := s.key_iff.2 ⟨⟨v, hv⟩, hkey⟩
      have ho := s.key_iff.2 ⟨⟨u, h⟩, rfl⟩
      rw [ho] at hx
      exact hne (Option.some.inj hx)
    · rw [if_neg hko, s.key_iff]
      refine and_congr_left fun hkey => ?_
      have hne : o ≠ x := fun e => hko (e ▸ hkey)
      rw [if_neg hne]
  owner_eq := get_dropOwner s h

/-- `UTXOSet.add`: add one unspent output, rejecting duplicate outpoints and keys. -/
def add (s : UTXOSet C) (u : UTXO) : Except PyError (UTXOSet C) :=
  if h : s.utxos[u.outpoint]? = none then
    if hk : s.outpointByKey[u.outpoint.key C]? = none then .ok (s.insertNew u h hk)
    else .error (.valueError "duplicate UTXO Merkle key")
  else .error (.keyError "outpoint already exists in UTXO set")

/-- `UTXOSet.remove`: remove one unspent output. -/
def remove (s : UTXOSet C) (o : Outpoint) : Except PyError (UTXOSet C) :=
  match h : s.utxos[o]? with
  | some u => .ok (s.eraseOld o u h)
  | none => .error (.keyError "outpoint is not present in UTXO set")

/-- `UTXOSet(utxos)`: the entries added one after another. -/
def ofList (l : List UTXO) : Except PyError (UTXOSet C) := l.foldlM add empty

/-- The sum of the amounts. -/
def totalMatoms (s : UTXOSet C) : ℕ := Table.total (fun u => u.amountMatoms) s.utxos

/-- The entries determine the indexes. -/
theorem ext_utxos {s t : UTXOSet C} (h : s.utxos = t.utxos) : s = t := by
  have hkeys : s.outpointByKey = t.outpointByKey := by
    apply Table.ext_get
    intro k
    apply Option.ext
    intro o
    rw [s.key_iff, t.key_iff, h]
  have howners : s.outpointsByOwner = t.outpointsByOwner := by
    apply Table.ext_get
    intro w
    rw [s.owner_eq, t.owner_eq, h]
  cases s
  cases t
  cases h
  cases hkeys
  cases howners
  rfl

end UTXOSet

end TensorPow
