import Ultramarine.State.Sync

/-!
# Deciding a height

`process_decided_certificate` and `commit` of `consensus/src/state.rs`. A decided block is checked
against the blobs the node holds, its blobs are promoted, the execution engine imports it, and
`commit` makes the height durable in five transactions: decided value, consensus metadata, blob
metadata, block data, prune.

The engine is a script of answers. An answer that says "syncing" also says whether the node's retry
timeout has expired by then; running out of answers is a transport error. The forkchoice calls made
before `newPayload` are left out: their result is not used.
-/

namespace Ultramarine

open Lib Ssz

/-- `PayloadStatusEnum` -/
inductive PayloadStatus where
  | valid
  | accepted
  | syncing
  | invalid
deriving DecidableEq, Repr

/-- An answer to `engine_newPayload`. -/
inductive PayloadAnswer where
  | valid
  | accepted
  | invalid
  | syncing (expired : Bool)
  | error
deriving DecidableEq, Repr

/-- An answer to `engine_forkchoiceUpdated`. -/
inductive ForkchoiceAnswer where
  | ok
  | syncing (expired : Bool)
  | error
deriving DecidableEq, Repr

/-- The answers of the execution engine to one decided block. -/
structure EngineScript where
  newPayload : List PayloadAnswer
  forkchoice : List ForkchoiceAnswer
deriving DecidableEq, Repr

/-- The `newPayload` call and its retries. The flag says that the engine was still syncing when the
timeout expired. -/
def newPayloadLoop : List PayloadAnswer → Exit Err (PayloadStatus × Bool)
  | [] => .error .engine
  | .error :: _ => .error .engine
  | .valid :: _ => .ok (.valid, false)
  | .accepted :: _ => .ok (.accepted, false)
  | .invalid :: _ => .ok (.invalid, false)
  | .syncing true :: _ => .ok (.syncing, true)
  | .syncing false :: rest => newPayloadLoop rest

/-- The final forkchoice call and its retries: whether it was applied. -/
def forkchoiceLoop : List ForkchoiceAnswer → Exit Err Bool
  | [] => .error .engine
  | .error :: _ => .error .engine
  | .ok :: _ => .ok true
  | .syncing true :: _ => .ok false
  | .syncing false :: rest => forkchoiceLoop rest

/-! ## Committing -/

/-- The validator-set hash of the consensus metadata: the Merkle root of the padded addresses. -/
def validatorSetHash (cfg : Config) : B256 :=
  let leaves := cfg.validators.validators.map fun v => toChunk (bitVecBytes v.address.bytes)
  merkleHasher cfg.oracles leaves.length leaves

/-- The consensus metadata of a committed proposal. -/
def consensusMetadata (cfg : Config) (certificate : CommitCertificate) (proposal : ProposedValue) :
    ConsensusBlockMetadata where
  height := certificate.height
  round := certificate.round
  proposer := proposal.proposer
  timestamp := proposal.value.metadata.executionPayloadHeader.timestamp
  validatorSetHash := validatorSetHash cfg
  executionBlockHash := proposal.value.metadata.executionPayloadHeader.blockHash
  gasLimit := proposal.value.metadata.executionPayloadHeader.gasLimit
  gasUsed := proposal.value.metadata.executionPayloadHeader.gasUsed

/-- The height below which undecided rows are pruned: the retention window, held back by pending
uploads. -/
def retainHeight (mem : Memory) (height : Height) : Height :=
  let window := max mem.blobRetentionWindow 1
  let floor := height - (window - 1)
  match mem.pendingArchiveHeights.keys.head? with
  | some pending => min pending floor
  | none => floor

/-- The tracked rounds of a height. -/
def Memory.trackedRounds (mem : Memory) (height : Height) : List Round :=
  (mem.blobRounds.keys.filter fun slot => slot.height = height).map (·.round)

/-- Delete the metadata and the blobs of one round that was not decided. -/
def dropFailedRound (height : Height) (round : Round) : Act Unit := do
  storeWrite (.deleteBlobMetadataUndecided ⟨height, round⟩)
  dropRound height round.asI64

/-- No round of the height is tracked any more. -/
def Memory.forgetRounds (height : Height) (mem : Memory) : Memory :=
  { mem with blobRounds := Table.eraseWhere (fun slot => slot.height = height) mem.blobRounds }

/-- The clean-up of a committed height: every tracked round but the decided one. -/
def dropFailedRounds (height : Height) (round : Round) : Act Unit := do
  let mem ← getMem
  Prog.forEach (dropFailedRound height)
    ((mem.trackedRounds height).filter fun r => r ≠ round ∧ r ≠ .nil)
  Prog.modifyMem (Memory.forgetRounds height)

/-- The payload of the decided round becomes that of the height. -/
def copyBlockData (slot : Slot) : Act Unit := do
  let d ← getDisk
  match d.store.loadBlockPayloadRecord slot with
  | some record => storeWrite (.insertDecidedBlockData slot.height record)
  | none => pure ()

/-- The first four transactions of `commit`. -/
def commitTables (cfg : Config) (certificate : CommitCertificate) (proposal : ProposedValue) :
    Act Unit := do
  let slot : Slot := ⟨certificate.height, certificate.round⟩
  storeDecidedValue certificate proposal.value
  let d ← getDisk
  Prog.ofExit (.ensure (d.store.decidedValues[certificate.height]? ≠ none) .decidedValueNotStored)
  putConsensusBlockMetadata certificate.height (consensusMetadata cfg certificate proposal)
  markBlobMetadataDecided slot
  let d ← getDisk
  let metadata ← Prog.ofExit (d.store.getBlobMetadata certificate.height)
  let metadata ← Prog.ofExit (Exit.ofOption (.missingBlobMetadata slot) metadata)
  cacheBlobRoot cfg certificate.height metadata
  copyBlockData slot

/-- The rest of a first commit: undecided rows out of the retention window, failed rounds. -/
def commitCleanup (height : Height) (round : Round) : Act Unit := do
  let mem ← getMem
  storeWrite (.prune (retainHeight mem height))
  dropFailedRounds height round

/-- `commit` of a proposal that is still undecided. -/
def commitProposal (cfg : Config) (certificate : CommitCertificate) (proposal : ProposedValue) :
    Act Unit := do
  commitTables cfg certificate proposal
  commitCleanup certificate.height certificate.round

/-- `commit` of a height that is decided already: promote again, refresh the cache. -/
def commitReplay (cfg : Config) (certificate : CommitCertificate) : Act Unit := do
  let slot : Slot := ⟨certificate.height, certificate.round⟩
  markDecided certificate.height certificate.round.asI64
  let d ← getDisk
  match d.store.getBlobMetadata certificate.height with
  | .ok (some metadata) => cacheBlobRoot cfg certificate.height metadata
  | .ok none =>
    match d.store.blobMetadataUndecided[slot]? with
    | some metadata =>
      let _ ← (markBlobMetadataDecided slot).attempt
      cacheBlobRoot cfg certificate.height metadata
    | none => pure ()
  | _ => pure ()

/-- The end of `commit`: finality moves, archived heights are pruned, the next height starts. -/
def finishCommit (height : Height) : Act Unit := do
  Prog.modifyMem fun mem =>
    { mem with latestFinalizedHeight := max mem.latestFinalizedHeight height }
  flushPendingPrunes
  Prog.modifyMem fun mem =>
    { mem with currentHeight := max mem.currentHeight (height + 1), currentRound := .some 0 }

/-- `commit` up to the height being durable: a first commit, or a replay. -/
def commitHeight (cfg : Config) (certificate : CommitCertificate) : Act Unit := do
  let d ← getDisk
  match d.store.undecidedProposals[Slot.mk certificate.height certificate.round]?,
      d.store.decidedValues[certificate.height]? with
  | some proposal, _ => commitProposal cfg certificate proposal
  | none, some _ => commitReplay cfg certificate
  | none, none => Prog.fail .missingProposal

/-- `State::commit` -/
def commit (cfg : Config) (certificate : CommitCertificate) : Act Unit := do
  commitHeight cfg certificate
  finishCommit certificate.height

/-! ## `process_decided_certificate` -/

/-- `DecidedOutcome` -/
structure DecidedOutcome where
  executionBlock : ExecutionBlock
  payloadStatus : PayloadStatus
  executionPending : Bool
  txCount : Nat
  blockBytes : Nat
  blobCount : Nat
  archiveJob : Option ArchiveJob
deriving DecidableEq

/-- What the checks before promotion establish. -/
structure DecidedCheck where
  payload : ExecutionPayloadV3
  versionedHashes : List B256
  alreadyDecided : Bool
deriving DecidableEq

/-- The blob hashes a decided block stands for: those of its transactions, else those of the
proposal's commitments. -/
def expectedHashes (cfg : Config) (s : Store) (slot : Slot) (txHashes : List B256) : List B256 :=
  if txHashes = [] then
    match s.undecidedProposals[slot]? with
    | some proposal => versionedHashesFromCommitments cfg.oracles
        proposal.value.metadata.blobKzgCommitments
    | none => []
  else txHashes

/-- The blobs a decided block is checked against: those of the round, else those already decided. -/
def BlobStore.forDecision (b : BlobStore) (slot : Slot) : List BlobSidecar :=
  match b.getUndecidedBlobs slot.height slot.round.asI64 with
  | [] => b.getDecidedBlobs slot.height
  | blobs => blobs

/-- The blobs of the block were promoted before the decision. -/
def BlobStore.alreadyDecided (b : BlobStore) (slot : Slot) : Bool :=
  b.getUndecidedBlobs slot.height slot.round.asI64 = [] ∧ b.getDecidedBlobs slot.height ≠ []

/-- The checks of `process_decided_certificate` before promotion. -/
def checkDecided (cfg : Config) (d : Disk) (slot : Slot) (bytes : Bytes) :
    Exit Err DecidedCheck := do
  Exit.ensure (bytes ≠ []) .emptyPayload
  let payload ← Exit.ofOption .payloadDecode (cfg.oracles.fromSszBytes bytes)
  let txHashes ← Exit.ofOption .blockConversion (cfg.oracles.tryIntoBlock payload)
  let hashes := expectedHashes cfg d.store slot txHashes
  if hashes = [] then pure ⟨payload, hashes, false⟩
  else
    let blobs := d.blobs.forDecision slot
    Exit.ensure (blobs.length = hashes.length) (.blobCountMismatch hashes.length blobs.length)
    Exit.ensure (versionedHashesFromSidecars cfg.oracles blobs = hashes) .versionedHashMismatch
    pure ⟨payload, hashes, d.blobs.alreadyDecided slot⟩

/-- `State::mark_el_degraded` -/
def Memory.markElDegraded (mem : Memory) : Memory :=
  { mem with elDegraded := true, lastFcuHead := none }

/-- The checks of the imported block against the chain: `prev_randao`, and the parent hash if the
parent was executed here. -/
def checkImported (mem : Memory) (height : Height) (payload : ExecutionPayloadV3) :
    Exit Err Unit := do
  Exit.ensure (payload.prevRandao = loadPrevRandao) .prevRandaoMismatch
  Exit.ensure (mem.executedHeight + 1 = height →
    mem.latestBlock.all fun b => b.blockHash = payload.parentHash) .parentHashMismatch

/-- The import of a decided block: `newPayload`, the checks, the final forkchoice call. Returns the
payload status and whether the forkchoice was applied. -/
def importBlock (height : Height) (payload : ExecutionPayloadV3) (script : EngineScript) :
    Act (PayloadStatus × Bool) := do
  let (status, pending) ← Prog.ofExit (newPayloadLoop script.newPayload)
  Prog.onlyIf pending (Prog.modifyMem Memory.markElDegraded)
  Prog.ofExit (.ensure (status ≠ .invalid) .invalidPayload)
  let mem ← getMem
  Prog.ofExit (checkImported mem height payload)
  if pending then pure (status, false)
  else
    let applied ← Prog.ofExit (forkchoiceLoop script.forkchoice)
    if applied then pure (status, true)
    else
      Prog.modifyMem Memory.markElDegraded
      pure (.syncing, false)

/-- The block the node keeps as `latest_block` after a decision. -/
def executionBlockOfPayload (payload : ExecutionPayloadV3) : ExecutionBlock where
  blockHash := payload.blockHash
  blockNumber := payload.blockNumber
  parentHash := payload.parentHash
  timestamp := payload.timestamp
  prevRandao := loadPrevRandao

/-- The archive job of a height this node proposed. -/
def ownArchiveJob (cfg : Config) (d : Disk) (slot : Slot) : Option ArchiveJob :=
  match d.store.undecidedProposals[slot]? with
  | some proposal =>
    if proposal.proposer = cfg.address then
      match buildArchiveJob cfg d slot.height slot.round with
      | .ok job => job
      | _ => none
    else none
  | none => none

/-- The archive job a decision with blobs leaves. -/
def decidedArchiveJob (cfg : Config) (d : Disk) (slot : Slot) (blobCount : Nat) :
    Option ArchiveJob :=
  if 0 < blobCount then ownArchiveJob cfg d slot else none

/-- The memory of a decision that the engine has applied. -/
def Memory.executed (height : Height) (mem : Memory) : Memory :=
  { mem with executedHeight := height, elDegraded := false }

/-- What `process_decided_certificate` does once the height is committed: the block becomes
`latest_block`, and a block of this node is left to be archived. -/
def finishDecided (cfg : Config) (slot : Slot) (check : DecidedCheck) (bytes : Bytes)
    (status : PayloadStatus) (applied : Bool) : Act DecidedOutcome := do
  Prog.modifyMem fun mem =>
    { mem with latestBlock := some (executionBlockOfPayload check.payload) }
  Prog.onlyIf applied (Prog.modifyMem (Memory.executed slot.height))
  let d ← getDisk
  Prog.onlyIf (0 < check.versionedHashes.length ∧ cfg.archiverEnabled ∧
      (decidedArchiveJob cfg d slot check.versionedHashes.length).isSome)
    (Prog.modifyMem fun mem =>
      { mem with pendingArchiveHeights := mem.pendingArchiveHeights.insert slot.height () })
  pure
    { executionBlock := executionBlockOfPayload check.payload
      payloadStatus := status
      executionPending := !applied
      txCount := check.payload.transactions.length
      blockBytes := bytes.length
      blobCount := check.versionedHashes.length
      archiveJob := decidedArchiveJob cfg d slot check.versionedHashes.length }

theorem finishDecided_silent (cfg : Config) (slot : Slot) (check : DecidedCheck) (bytes : Bytes)
    (status : PayloadStatus) (applied : Bool) :
    Prog.Silent (finishDecided cfg slot check bytes status applied) :=
  (Prog.Silent.modifyMem _).bind fun _ =>
    (Prog.Silent.onlyIf (Prog.Silent.modifyMem _)).bind fun _ => getDisk_silent.bind fun _ =>
      (Prog.Silent.onlyIf (Prog.Silent.modifyMem _)).bind fun _ => Prog.Silent.pure _

/-- The counters of a decided block. -/
def Memory.countBlock (payload : ExecutionPayloadV3) (bytes : Bytes) (mem : Memory) : Memory :=
  { mem with
    txsCount := mem.txsCount + payload.transactions.length
    chainBytes := mem.chainBytes + bytes.length }

/-- `State::process_decided_certificate` -/
def processDecidedCertificate (cfg : Config) (certificate : CommitCertificate) (bytes : Bytes)
    (script : EngineScript) : Act DecidedOutcome := do
  let slot : Slot := ⟨certificate.height, certificate.round⟩
  let d ← getDisk
  let check ← Prog.ofExit (checkDecided cfg d slot bytes)
  Prog.onlyIf (!check.alreadyDecided) (markDecided slot.height slot.round.asI64)
  let (status, applied) ← importBlock slot.height check.payload script
  Prog.modifyMem (Memory.countBlock check.payload bytes)
  commit cfg certificate
  finishDecided cfg slot check bytes status applied

end Ultramarine
