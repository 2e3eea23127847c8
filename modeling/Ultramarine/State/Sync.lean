import Ultramarine.State.Receive
import Ultramarine.State.Archive

/-!
# Synced packages

`process_synced_package` of `consensus/src/state.rs`. The payload is stored before anything of the
package is checked; the sidecars of a `Full` package are stored, checked, and dropped again if a
check fails; an accepted package promotes its blobs and its blob metadata at once, before consensus
decides.
-/

namespace Ultramarine

open Lib Ssz

/-- `State::store_synced_block_data` -/
def storeSyncedBlockData (slot : Slot) (record : BlockPayloadRecord) : Act Unit := do
  Prog.ofExit (validateExecutionRequests record.executionRequests)
  storeUndecidedBlockData slot record

/-- The sidecars of a `Full` package: stored, checked, and promoted. `none` means that the package
is rejected, its sidecars dropped. -/
def syncSidecars (cfg : Config) (height : Height) (round : Round) (proposer : Address)
    (metadata : ValueMetadata) (sidecars : List BlobSidecar) :
    Act (Option SignedBeaconBlockHeader) := do
  match ← (verifyAndStore cfg height round.asI64 sidecars).attempt with
  | .error _ => pure none
  | .ok () =>
    if metadata.blobKzgCommitments.length ≠ sidecars.length then
      dropRound height round.asI64
      pure none
    else if ¬ (sidecars.map (·.index)).Nodup then
      dropRound height round.asI64
      pure none
    else if ¬ ∀ s ∈ sidecars, metadata.blobKzgCommitments[s.index]? = some s.kzgCommitment then
      dropRound height round.asI64
      storeWrite (.deleteBlobMetadataUndecided ⟨height, round⟩)
      pure none
    else
      let d ← getDisk
      match verifyBlobSidecars cfg d height proposer metadata sidecars with
      | .ok signedHeader =>
        markDecided height round.asI64
        pure (some signedHeader)
      | _ =>
        dropRound height round.asI64
        pure none

/-- The memory with the root of a height's metadata cached. -/
def Memory.withBlobRoot (cfg : Config) (height : Height) (metadata : BlobMetadata) (mem : Memory) :
    Memory :=
  { mem with
    lastBlobSidecarRoot := metadata.computeBlobRoot cfg.oracles
    lastBlobSidecarHeight := height }

/-- Keep the root of the metadata of a height as the parent of the next one. -/
def cacheBlobRoot (cfg : Config) (height : Height) (metadata : BlobMetadata) : Act Unit :=
  Prog.modifyMem (Memory.withBlobRoot cfg height metadata)

/-- Store the metadata of a synced value and promote it. -/
def promoteSyncedMetadata (cfg : Config) (slot : Slot) (metadata : BlobMetadata) : Act Unit := do
  putBlobMetadataUndecided slot metadata
  markBlobMetadataDecided slot
  cacheBlobRoot cfg slot.height metadata

/-- The value a synced package is replayed to consensus as. -/
def syncedProposal (height : Height) (round : Round) (proposer : Address) (value : Value) :
    ProposedValue :=
  ⟨height, round, .nil, proposer, value, .valid⟩

/-- The rest of a `Full` package, once its sidecars (if any) carried a verified header. -/
def acceptFull (cfg : Config) (height : Height) (round : Round) (proposer : Address)
    (value : Value) (sidecars : List BlobSidecar) (notices : List ArchiveNotice)
    (signedHeader : Option SignedBeaconBlockHeader) : Act (Option ProposedValue) := do
  let d ← getDisk
  match resolveParentRootForHeight cfg d height with
  | .ok parentRoot =>
    if signedHeader.any (fun h => h.message.parentRoot ≠ parentRoot) then
      dropRound height round.asI64
      storeWrite (.deleteBlobMetadataUndecided ⟨height, round⟩)
      pure none
    else
      let metadata ← Prog.ofExit (Exit.orPanic (blockMetadata? height parentRoot
        value.metadata.blobKzgCommitments (sidecars.map (·.blobKeccak cfg.oracles))
        value.metadata.executionPayloadHeader (cfg.validatorIndex proposer)))
      promoteSyncedMetadata cfg ⟨height, round⟩ metadata
      storeUndecidedProposal (syncedProposal height round proposer value)
      handleArchiveNotices cfg notices
      pure (some (syncedProposal height round proposer value))
  | _ => pure none

/-- `process_synced_package` on a `Full` package. -/
def processSyncedFull (cfg : Config) (height : Height) (round : Round) (proposer : Address)
    (value : Value) (payload : Bytes) (sidecars : List BlobSidecar) (requests : List Bytes)
    (notices : List ArchiveNotice) : Act (Option ProposedValue) := do
  storeSyncedBlockData ⟨height, round⟩ ⟨payload, requests⟩
  if sidecars = [] then acceptFull cfg height round proposer value sidecars notices none
  else
    match ← syncSidecars cfg height round proposer value.metadata sidecars with
    | none => pure none
    | some signedHeader =>
      acceptFull cfg height round proposer value sidecars notices (some signedHeader)

/-- The keccak hashes a `MetadataOnly` package knows: those of its notices, zero elsewhere. -/
def noticeKeccaks (count : Nat) (notices : List ArchiveNotice) : List B256 :=
  notices.foldl (fun hashes n => hashes.set n.body.blobIndex n.body.blobKeccak)
    (List.replicate count 0)

theorem length_foldl_set : ∀ (notices : List ArchiveNotice) (hashes : List B256),
    (notices.foldl (fun hashes n => hashes.set n.body.blobIndex n.body.blobKeccak) hashes).length =
      hashes.length
  | [], _ => rfl
  | n :: notices, hashes => by
    rw [List.foldl_cons, length_foldl_set notices, List.length_set]

theorem length_noticeKeccaks (count : Nat) (notices : List ArchiveNotice) :
    (noticeKeccaks count notices).length = count := by
  unfold noticeKeccaks
  rw [length_foldl_set, List.length_replicate]

/-- The block a value's header stands for. -/
def executionBlockOfHeader (header : ExecutionPayloadHeader) : ExecutionBlock where
  blockHash := header.blockHash
  blockNumber := header.blockNumber
  parentHash := header.parentHash
  timestamp := header.timestamp
  prevRandao := loadPrevRandao

/-- Move `latest_block` forward to a synced block. -/
def advanceLatestBlock (block : ExecutionBlock) (latest : Option ExecutionBlock) :
    Option ExecutionBlock :=
  match latest with
  | some b => if b.blockNumber < block.blockNumber then some block else some b
  | none => some block

/-- `process_synced_package` on a `MetadataOnly` package. Without a payload only its notices are
used. -/
def processSyncedMetadataOnly (cfg : Config) (height : Height) (round : Round)
    (proposer : Address) (value : Value) (notices : List ArchiveNotice) (payload : Option Bytes)
    (requests : List Bytes) : Act (Option ProposedValue) := do
  match payload with
  | none =>
    handleArchiveNotices cfg notices
    pure none
  | some payload =>
    storeSyncedBlockData ⟨height, round⟩ ⟨payload, requests⟩
    let d ← getDisk
    match resolveParentRootForHeight cfg d height with
    | .ok parentRoot =>
      let commitments := value.metadata.blobKzgCommitments
      let header := value.metadata.executionPayloadHeader
      let metadata ← Prog.ofExit (Exit.orPanic (blockMetadata? height parentRoot commitments
        (noticeKeccaks commitments.length notices) header (cfg.validatorIndex proposer)))
      promoteSyncedMetadata cfg ⟨height, round⟩ metadata
      Prog.modifyMem fun mem =>
        { mem with
          latestBlock := advanceLatestBlock (executionBlockOfHeader header) mem.latestBlock }
      handleArchiveNotices cfg notices
      storeUndecidedProposal (syncedProposal height round proposer value)
      pure (some (syncedProposal height round proposer value))
    | _ => pure none

/-- `State::process_synced_package` -/
def processSyncedPackage (cfg : Config) (height : Height) (round : Round) (proposer : Address) :
    SyncedValuePackage → Act (Option ProposedValue)
  | .full value payload sidecars requests notices =>
    processSyncedFull cfg height round proposer value payload sidecars requests notices
  | .metadataOnly value notices payload requests =>
    processSyncedMetadataOnly cfg height round proposer value notices payload requests

end Ultramarine
