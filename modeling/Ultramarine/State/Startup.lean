import Ultramarine.State.Decide

/-!
# Starting a node

What `node/src/node.rs` and the first message of the application loop do before consensus runs:
a fresh `State`, the blob-root cache from the decided metadata (seeding the genesis entry into an
empty store), the removal of stale metadata, the queues of pending uploads and prunes, and the
execution block of the highest decided height.
-/

namespace Ultramarine

open Lib

/-- `State::hydrate_blob_parent_root` -/
def hydrateBlobParentRoot (cfg : Config) : Act Unit := do
  let d ← getDisk
  match ← Prog.ofExit d.store.getLatestBlobMetadata with
  | some (height, metadata) => cacheBlobRoot cfg height metadata
  | none =>
    storeWrite .insertGenesisBlobMetadata
    cacheBlobRoot cfg 0 BlobMetadata.genesis

/-- `State::cleanup_stale_blob_metadata` -/
def cleanupStaleBlobMetadata : Act Unit := do
  let m ← Prog.get
  Prog.writeAll ((m.disk.store.undecidedBlobMetadataBefore m.mem.currentHeight).map fun slot =>
    .store (.deleteBlobMetadataUndecided slot))

/-- One height of `rehydrate_pending_prunes`. -/
def rehydrateHeight (cfg : Config) (height : Height) : Act Unit := do
  let m ← Prog.get
  match ← Prog.ofExit (m.disk.store.getBlobMetadata height) with
  | none => pure ()
  | some metadata =>
    if metadata.blobCount = 0 ∨ metadata.pruned then pure ()
    else if !metadata.allArchived then
      if cfg.archiverEnabled ∧ proposerAddressForHeight cfg m.disk.store height
          metadata.proposerIndexHint = some cfg.address then
        Prog.modifyMem fun mem =>
          { mem with pendingArchiveHeights := mem.pendingArchiveHeights.insert height () }
      else pure ()
    else if m.mem.isHeightFinalized height then pruneArchivedHeight height metadata
    else
      Prog.modifyMem fun mem =>
        { mem with pendingPruneHeights := mem.pendingPruneHeights.insert height () }

/-- `State::rehydrate_pending_prunes` -/
def rehydratePendingPrunes (cfg : Config) : Act Unit := do
  let d ← getDisk
  Prog.modifyMem fun mem =>
    { mem with
      latestFinalizedHeight := d.store.maxDecidedValueHeight.getD mem.latestFinalizedHeight
      pendingPruneHeights := ∅
      pendingArchiveHeights := ∅ }
  Prog.forEach (rehydrateHeight cfg) d.store.decidedHeights

/-- `load_execution_block`: from the decided value, else from the decided blob metadata. -/
def loadExecutionBlock (s : Store) (height : Height) : Exit Err (Option ExecutionBlock) :=
  match s.decidedValues[height]? with
  | some decided => .ok (some (executionBlockOfHeader decided.value.metadata.executionPayloadHeader))
  | none => do
    let metadata ← s.getBlobMetadata height
    pure (metadata.map fun m => executionBlockOfHeader m.executionPayloadHeader)

/-- `load_decided_block`: the block of the highest decided height. -/
def loadDecidedBlock (s : Store) : Exit Err (Option ExecutionBlock) :=
  match s.maxDecidedValueHeight with
  | none => .ok none
  | some height => loadExecutionBlock s height

/-- The height a start resumes at. -/
def resumeHeight (s : Store) : Height :=
  match s.maxDecidedValueHeight with
  | some height => height + 1
  | none => 1

/-- `AppMsg::ConsensusReady`: take `latest_block` from the highest decided height, and tell
consensus where to start. -/
def consensusReady : Act Height := do
  let d ← getDisk
  let block ← Prog.ofExit (loadDecidedBlock d.store)
  Prog.modifyMem fun mem => { mem with latestBlock := block <|> mem.latestBlock }
  let mem ← getMem
  Prog.ofExit (.ensure (mem.latestBlock ≠ none) .missingLatestBlock)
  pure (resumeHeight d.store)

/-- From a stopped node to one that consensus can talk to. -/
def start (cfg : Config) : Act Height := do
  Prog.modifyMem fun _ =>
    { Memory.new cfg.startHeight with latestBlock := some cfg.genesisBlock }
  hydrateBlobParentRoot cfg
  cleanupStaleBlobMetadata
  rehydratePendingPrunes cfg
  consensusReady

/-- The start of a node up to its clean-up: the state is built, the blob root taken from the store,
stale metadata removed. -/
def startCleanup (cfg : Config) : Act Unit := do
  Prog.modifyMem fun _ =>
    { Memory.new cfg.startHeight with latestBlock := some cfg.genesisBlock }
  hydrateBlobParentRoot cfg
  cleanupStaleBlobMetadata

theorem start_eq (cfg : Config) : start cfg = (do
    startCleanup cfg
    rehydratePendingPrunes cfg
    consensusReady) := by
  unfold start startCleanup
  simp only [bind_assoc]

end Ultramarine
