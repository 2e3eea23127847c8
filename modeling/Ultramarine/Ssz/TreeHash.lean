import Ultramarine.Oracles
import Ultramarine.Lib.Merkle

/-!
# SSZ tree hashing

The roots of `ethereum_compat/beacon_block_body.rs` and `ethereum_compat/beacon_header.rs`, over
the two-to-one hash of the oracles. `merkleHasher n` is the incremental merkleizer opened for `n`
leaves: its root is fixed once the tree of the next power of two is full, and what is written
beyond that does not enter it.

`BeaconBlockBodyMinimal` is built by `from_ultramarine_data` only, which sets every field but the
execution payload root and the commitments to a constant; the body is therefore modelled by those
two, and the constant leaves are computed as the code computes them.
-/

namespace Ultramarine.Ssz

open Lib

variable (o : Oracles)

/-- `MerkleHasher::with_leaves(n)`, fed with `leaves` and finished. -/
def merkleHasher (n : Nat) (leaves : List B256) : B256 :=
  Merkle.root o.hash32Concat 0 (Merkle.depthFor n) leaves

/-- `u64_to_bytes32`: eight little-endian bytes, padded with zeros. -/
def u64ToBytes32 (n : Nat) : B256 := toChunk (leBytes 8 n)

/-- `mix_in_length` -/
def mixInLength (root : B256) (length : Nat) : B256 :=
  o.hash32Concat root (u64ToBytes32 length)

/-- `tree_hash_empty_list` -/
def treeHashEmptyList : B256 := mixInLength o 0 0

/-- The tree hash of a byte array of fixed length: its 32-byte chunks, merkleized. -/
def treeHashFixedVector (bytes : Bytes) : B256 :=
  let leaves := (chunks 32 bytes).map toChunk
  if bytes = [] then 0 else merkleHasher o leaves.length leaves

/-- `tree_hash_variable_bytes_ssz` -/
def treeHashVariableBytesSsz (data : Bytes) : B256 :=
  if data = [] then treeHashEmptyList o
  else
    let leaves := (chunks 32 data).map toChunk
    mixInLength o (merkleHasher o leaves.length leaves) data.length

/-- `tree_hash_transactions_ssz` -/
def treeHashTransactionsSsz (transactions : List Bytes) : B256 :=
  if transactions = [] then treeHashEmptyList o
  else mixInLength o
    (merkleHasher o transactions.length (transactions.map (treeHashVariableBytesSsz o)))
    transactions.length

/-- `tree_hash_withdrawal_ssz` -/
def treeHashWithdrawalSsz (w : Withdrawal) : B256 :=
  merkleHasher o 4
    [u64ToBytes32 w.index, u64ToBytes32 w.validatorIndex, toChunk (bitVecBytes w.address.bytes),
      u64ToBytes32 w.amount]

/-- `tree_hash_withdrawals_ssz` -/
def treeHashWithdrawalsSsz (withdrawals : List Withdrawal) : B256 :=
  if withdrawals = [] then treeHashEmptyList o
  else mixInLength o
    (merkleHasher o withdrawals.length (withdrawals.map (treeHashWithdrawalSsz o)))
    withdrawals.length

/-- `compute_execution_payload_header_root`: seventeen leaves written to a merkleizer opened for
sixteen. -/
def computeExecutionPayloadHeaderRoot (h : ExecutionPayloadHeader) : B256 :=
  merkleHasher o 16
    [h.parentHash,
      toChunk (bitVecBytes h.feeRecipient.bytes),
      h.stateRoot,
      h.receiptsRoot,
      treeHashFixedVector o (bitVecBytes h.logsBloom),
      h.prevRandao,
      u64ToBytes32 h.blockNumber,
      u64ToBytes32 h.gasLimit,
      u64ToBytes32 h.gasUsed,
      u64ToBytes32 h.timestamp,
      treeHashVariableBytesSsz o h.extraData,
      toChunk (leBytes 32 h.baseFeePerGas.toNat),
      h.blockHash,
      h.transactionsRoot,
      h.withdrawalsRoot,
      u64ToBytes32 h.blobGasUsed,
      u64ToBytes32 h.excessBlobGas]

/-- `TreeHash` of a commitment: 48 bytes in two chunks. -/
def commitmentRoot (c : KzgCommitment) : B256 := treeHashFixedVector o (bitVecBytes c.bytes)

/-- The depth of the commitments tree: `MAX_BLOB_COMMITMENTS_PER_BLOCK` is `2 ^ 12`. -/
def commitmentsDepth : Nat := 12

/-- `tree_hash_kzg_commitments` -/
def treeHashKzgCommitments (commitments : List KzgCommitment) : B256 :=
  if commitments = [] then treeHashEmptyList o
  else mixInLength o
    (Merkle.root o.hash32Concat 0 commitmentsDepth (commitments.map (commitmentRoot o)))
    commitments.length

/-- `BeaconBlockBodyMinimal`, less the fields `from_ultramarine_data` sets to constants. -/
structure BeaconBlockBodyMinimal where
  executionPayloadRoot : B256
  blobKzgCommitments : List KzgCommitment
deriving DecidableEq

/-- `BeaconBlockBodyMinimal::from_ultramarine_data` -/
def fromUltramarineData (commitments : List KzgCommitment) (header : ExecutionPayloadHeader) :
    BeaconBlockBodyMinimal where
  executionPayloadRoot := computeExecutionPayloadHeaderRoot o header
  blobKzgCommitments := commitments

/-- The root of a 96-byte zero array, in four leaves. -/
def zeroBytes96Root : B256 := merkleHasher o 4 [0, 0, 0]

/-- `Eth1Data::default().tree_hash_root()` -/
def defaultEth1DataRoot : B256 := merkleHasher o 4 [0, u64ToBytes32 0, 0]

/-- `SyncAggregate::default().tree_hash_root()` -/
def defaultSyncAggregateRoot : B256 :=
  merkleHasher o 2 [merkleHasher o 2 [0, 0], zeroBytes96Root o]

/-- `body_merkle_leaves`, before padding: the twelve field roots, the last one given. -/
def bodyMerkleLeaves (body : BeaconBlockBodyMinimal) (commitmentsRoot : B256) : List B256 :=
  [zeroBytes96Root o, defaultEth1DataRoot o, 0,
    treeHashEmptyList o, treeHashEmptyList o, treeHashEmptyList o, treeHashEmptyList o,
    treeHashEmptyList o, defaultSyncAggregateRoot o, body.executionPayloadRoot,
    treeHashEmptyList o, commitmentsRoot]

/-- `BeaconBlockBodyMinimal::compute_body_root` -/
def computeBodyRoot (body : BeaconBlockBodyMinimal) : B256 :=
  merkleHasher o 16 (bodyMerkleLeaves o body (treeHashKzgCommitments o body.blobKzgCommitments))

/-- `BeaconBlockHeader` -/
structure BeaconBlockHeader where
  slot : Nat
  proposerIndex : Nat
  parentRoot : B256
  stateRoot : B256
  bodyRoot : B256
deriving DecidableEq, Repr

/-- `BeaconBlockHeader::hash_tree_root` -/
def BeaconBlockHeader.hashTreeRoot (h : BeaconBlockHeader) : B256 :=
  merkleHasher o 5
    [u64ToBytes32 h.slot, u64ToBytes32 h.proposerIndex, h.parentRoot, h.stateRoot, h.bodyRoot]

/-- `SignedBeaconBlockHeader` -/
structure SignedBeaconBlockHeader where
  message : BeaconBlockHeader
  signature : Signature
deriving DecidableEq, Repr

/-- The bytes a proposer signs for a header. -/
def SignedBeaconBlockHeader.signingRoot (h : SignedBeaconBlockHeader) : Bytes :=
  bitVecBytes (h.message.hashTreeRoot o)

/-- `SignedBeaconBlockHeader::verify_signature` -/
def SignedBeaconBlockHeader.verifySignature (h : SignedBeaconBlockHeader) (key : PublicKey) :
    Bool :=
  o.verify key (h.signingRoot o) h.signature

/-- `ExecutionPayloadHeader::from_payload`. The two roots it computes cannot fail: each merkleizer
is opened for the number of leaves written to it. -/
def fromPayload (p : ExecutionPayloadV3) (requestsHash : Option B256) : ExecutionPayloadHeader where
  blockHash := p.blockHash
  parentHash := p.parentHash
  stateRoot := p.stateRoot
  receiptsRoot := p.receiptsRoot
  logsBloom := p.logsBloom
  blockNumber := p.blockNumber
  gasLimit := p.gasLimit
  gasUsed := p.gasUsed
  timestamp := p.timestamp
  baseFeePerGas := p.baseFeePerGas
  extraData := p.extraData
  transactionsRoot := treeHashTransactionsSsz o p.transactions
  withdrawalsRoot := treeHashWithdrawalsSsz o p.withdrawals
  blobGasUsed := p.blobGasUsed
  excessBlobGas := p.excessBlobGas
  prevRandao := p.prevRandao
  feeRecipient := p.feeRecipient
  requestsHash := requestsHash

end Ultramarine.Ssz
