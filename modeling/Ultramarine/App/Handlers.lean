import Ultramarine.State.Startup

/-!
# The application loop

The handlers of `node/src/app.rs`: what the node does for each message of the consensus engine, and
for the notices of its own archiver. A handler's error is logged and the loop goes on, so each
handler ends in a reply and never in an error; a panic stops the node.

`AppMsg::ExtendVote`, `VerifyVoteExtension` and `GetHistoryMinHeight` touch nothing and are left
out.
-/

namespace Ultramarine

open Lib Ssz

/-- The engine's part in `ensure_el_matches_cl_head`: whether the cool-down of a degraded engine is
still running, whether the last forkchoice success is recent, and the answer to a new call. -/
structure GateAnswer where
  coolingDown : Bool
  cacheFresh : Bool
  applied : Bool
deriving DecidableEq, Repr

/-- `resolve_cl_head` -/
def resolveClHead : Act ExecutionBlock := do
  let m ← Prog.get
  match ← Prog.ofExit (loadDecidedBlock m.disk.store) with
  | some block =>
    Prog.modifyMem fun mem => { mem with latestBlock := some block }
    pure block
  | none => Prog.ofExit (Exit.ofOption .missingLatestBlock m.mem.latestBlock)

/-- `ensure_el_matches_cl_head` -/
def ensureElMatchesClHead (gate : GateAnswer) : Act ExecutionBlock := do
  let block ← resolveClHead
  let mem ← getMem
  if mem.elDegraded ∧ gate.coolingDown then Prog.fail .engine
  else if mem.lastFcuHead = some block.blockHash ∧ gate.cacheFresh then pure block
  else if gate.applied then
    Prog.modifyMem fun mem =>
      { mem with elDegraded := false, lastFcuHead := some block.blockHash }
    pure block
  else
    Prog.modifyMem Memory.markElDegraded
    Prog.fail .engine

/-- `STALE_ROUND_BLOB_RETENTION` -/
def staleRoundBlobRetention : Nat := 3

/-- Delete everything stored for one stale round. -/
def dropStaleRound (height : Height) (round : Round) : Act Unit := do
  storeWrite (.deleteBlobMetadataUndecided ⟨height, round⟩)
  storeWrite (.deleteUndecidedProposal ⟨height, round⟩)
  storeWrite (.deleteUndecidedBlockData ⟨height, round⟩)
  dropRound height round.asI64

/-- `State::cleanup_stale_round_blobs` -/
def cleanupStaleRoundBlobs (height : Height) (currentRound : Round) : Act Unit := do
  let cutoff := currentRound.asI64 - staleRoundBlobRetention
  if cutoff ≤ 0 then pure ()
  else
    let mem ← getMem
    Prog.forEach (dropStaleRound height)
      ((mem.trackedRounds height).filter fun r => r.asI64 < cutoff ∧ r ≠ .nil)
    Prog.modifyMem fun mem =>
      { mem with
        blobRounds := Table.eraseWhere
          (fun slot => slot.height = height ∧ slot.round.asI64 < cutoff) mem.blobRounds }

/-- `AppMsg::StartedRound` -/
def startedRound (height : Height) (round : Round) : Act Unit := do
  Prog.onlyIf (0 < round.asI64) (cleanupStaleRoundBlobs height round)
  Prog.modifyMem fun mem => { mem with currentHeight := height, currentRound := round }

/-- What the execution engine built: payload, execution requests, blobs. -/
structure BuiltPayload where
  payload : ExecutionPayloadV3
  requests : List Bytes
  bundle : Option BlobsBundle

/-- The part of `handle_get_value` after the engine has built a payload. -/
def proposeBuilt (cfg : Config) (height : Height) (round : Round) (built : BuiltPayload) :
    Act (LocallyProposedValue × List StreamMessage) := do
  let bytes := cfg.oracles.asSszBytes built.payload
  let proposal ← proposeValueWithBlobs cfg height round built.payload built.requests built.bundle
  storeUndecidedBlockData ⟨height, round⟩ ⟨bytes, built.requests⟩
  let d ← getDisk
  let sidecars ← Prog.ofExit (prepareBlobSidecarParts cfg d proposal built.bundle)
  verifyAndStore cfg height round.asI64 sidecars
  let messages ← streamProposal cfg proposal bytes sidecars built.requests cfg.address
  pure (proposal, messages)

/-- `handle_get_value`: nothing is built for a round that has a payload already. The slot throttle
and an engine that fails to build are one outcome, no payload. -/
def handleGetValue (cfg : Config) (height : Height) (round : Round) (gate : GateAnswer)
    (built : Option BuiltPayload) : Act (Option (LocallyProposedValue × List StreamMessage)) := do
  let d ← getDisk
  match d.store.loadBlockPayloadRecord ⟨height, round⟩ with
  | some _ => pure none
  | none =>
    let _ ← ensureElMatchesClHead gate
    let built ← Prog.ofExit (Exit.ofOption .engine built)
    let reply ← proposeBuilt cfg height round built
    pure (some reply)

/-- `restream_archive_notices` -/
def restreamArchiveNotices : List ArchiveNotice → Act (List StreamMessage)
  | [] => pure []
  | notice :: rest => do
    let message ← streamArchiveNotice notice
    let messages ← restreamArchiveNotices rest
    pure (message :: messages)

/-- `State::load_archive_notices` -/
def Store.loadArchiveNotices (s : Store) (height : Height) : List ArchiveNotice :=
  (s.archiveRecords height).map ArchiveRecord.intoNotice

/-- `State::get_blobs_with_status_check`; a metadata row that cannot be read counts as not
pruned. -/
def getBlobsWithStatusCheck (d : Disk) (height : Height) : Except (List String) (List BlobSidecar) :=
  match d.store.getBlobMetadata height with
  | .ok (some metadata) =>
    if metadata.pruned then .error metadata.locators else .ok (d.blobs.getDecidedBlobs height)
  | _ => .ok (d.blobs.getDecidedBlobs height)

/-- `State::get_undecided_blobs_with_status_check` -/
def getUndecidedBlobsWithStatusCheck (d : Disk) (slot : Slot) :
    Except (List String) (List BlobSidecar) :=
  match d.store.getBlobMetadata slot.height with
  | .ok (some metadata) =>
    if metadata.pruned ∧ 0 < metadata.blobCount then .error metadata.locators
    else .ok (d.blobs.getUndecidedBlobs slot.height slot.round.asI64)
  | _ => .ok (d.blobs.getUndecidedBlobs slot.height slot.round.asI64)

/-- What a restream loads: the proposal, its payload, its metadata, and the sidecars to send. -/
structure Restream where
  proposal : ProposedValue
  record : BlockPayloadRecord
  metadata : BlobMetadata
  sidecars : List BlobSidecar
  pruned : Bool

/-- The loading half of `AppMsg::RestreamProposal`; `none` where the handler gives up. Pruned blobs
are restreamed as a payload without sidecars. -/
def loadRestream (cfg : Config) (d : Disk) (slot : Slot) : Option Restream := do
  let proposal ← d.store.undecidedProposals[slot]?
  let record ← d.store.loadBlockPayloadRecord slot
  match d.store.loadBlobMetadataForRound slot with
  | .ok (some metadata) =>
    if metadata.blobCount = 0 then some ⟨proposal, record, metadata, [], false⟩
    else
      match getUndecidedBlobsWithStatusCheck d slot with
      | .error _ => some ⟨proposal, record, metadata, [], true⟩
      | .ok blobs =>
        if blobs = [] then none
        else
          match rebuildBlobSidecarsForRestream cfg metadata cfg.address blobs with
          | .ok sidecars => some ⟨proposal, record, metadata, sidecars, false⟩
          | _ => none
  | _ => none

/-- The proposal of a restream is the one stored for its slot. -/
theorem loadRestream_proposal {cfg : Config} {d : Disk} {slot : Slot} {r : Restream}
    (h : loadRestream cfg d slot = some r) : d.store.undecidedProposals[slot]? = some r.proposal := by
  unfold loadRestream at h
  obtain ⟨proposal, hproposal, h⟩ := Option.bind_eq_some_iff.1 h
  obtain ⟨record, _, h⟩ := Option.bind_eq_some_iff.1 h
  rw [hproposal]
  split at h
  · split at h
    · cases h
      rfl
    split at h
    · cases h
      rfl
    split at h
    · cases h
    split at h
    · cases h
      rfl
    · cases h
  · cases h

/-- The row of a restream is the one stored for its slot. -/
theorem loadRestream_metadata {cfg : Config} {d : Disk} {slot : Slot} {r : Restream}
    (h : loadRestream cfg d slot = some r) :
    d.store.loadBlobMetadataForRound slot = .ok (some r.metadata) := by
  unfold loadRestream at h
  obtain ⟨proposal, _, h⟩ := Option.bind_eq_some_iff.1 h
  obtain ⟨record, _, h⟩ := Option.bind_eq_some_iff.1 h
  split at h
  · rename_i metadata hmetadata
    rw [hmetadata]
    split at h
    · cases h
      rfl
    split at h
    · cases h
      rfl
    split at h
    · cases h
    split at h
    · cases h
      rfl
    · cases h
  · cases h

/-- Copy a proposal to the round it is restreamed in. -/
def copyToRound (cfg : Config) (slot : Slot) (r : Restream) : Act Unit := do
  storeUndecidedProposal { r.proposal with round := slot.round, proposer := cfg.address }
  storeUndecidedBlockData slot r.record
  putBlobMetadataUndecided slot r.metadata
  verifyAndStore cfg slot.height slot.round.asI64 r.sidecars

/-- The round a restream takes its proposal from. -/
def restreamSource (round validRound : Round) : Round :=
  if validRound = .nil then round else validRound

/-- `AppMsg::RestreamProposal`, in the name of `address`. -/
def restreamProposal (cfg : Config) (height : Height) (round validRound : Round)
    (address : Address) : Act (List StreamMessage) := do
  if address ≠ cfg.address then pure []
  else
    let proposalRound := restreamSource round validRound
    let d ← getDisk
    match loadRestream cfg d ⟨height, proposalRound⟩ with
    | none => pure []
    | some r =>
      let notices := d.store.loadArchiveNotices height
      let early ← restreamArchiveNotices (if r.pruned then notices else [])
      Prog.onlyIf (round ≠ proposalRound) (copyToRound cfg ⟨height, round⟩ r)
      let messages ← streamProposal cfg ⟨height, round, r.proposal.value⟩
        r.record.executionPayloadSsz r.sidecars r.record.executionRequests cfg.address
      let late ← restreamArchiveNotices notices
      pure (early ++ messages ++ late)

/-- `AppMsg::ReceivedProposalPart`: the value consensus is told about. -/
def onReceivedProposalPart (cfg : Config) (now : Nat) (peer : PeerId) (part : StreamMessage)
    (gate : GateAnswer) : Act (Option ProposedValue) := do
  match part.content.asData.bind ProposalPart.asArchiveNotice with
  | some notice =>
    let _ ← (handleArchiveNotice cfg notice).attempt
    pure none
  | none =>
    match ← receivedProposalPart cfg now peer part with
    | none => pure none
    | some value =>
      let _ ← ensureElMatchesClHead gate
      pure (some value)

/-- `Next`: go on to the next height, or do this one again. -/
inductive Next where
  | start (height : Height)
  | restart (height : Height)
deriving DecidableEq, Repr

/-- The block a decision is checked against: the decided one one height below, if it is another
block than the one in memory. -/
def realignedBlock (s : Store) (height : Height) (latest : Option ExecutionBlock) :
    Option ExecutionBlock :=
  if height = 0 then latest
  else
    match loadExecutionBlock s (height - 1) with
    | .ok (some prev) =>
      if latest.all fun b => b.blockNumber ≠ prev.blockNumber then some prev else latest
    | _ => latest

/-- The memory with `latest_block` taken from the disk. -/
def Memory.realign (s : Store) (height : Height) (mem : Memory) : Memory :=
  { mem with latestBlock := realignedBlock s height mem.latestBlock }

/-- `AppMsg::Decided`, first half: take `latest_block` from the disk if it is another block than
the parent. -/
def realignLatestBlock (height : Height) : Act Unit := do
  let d ← getDisk
  Prog.modifyMem (Memory.realign d.store height)

/-- `AppMsg::Decided` -/
def decided (cfg : Config) (certificate : CommitCertificate) (script : EngineScript) : Act Next := do
  realignLatestBlock certificate.height
  let d ← getDisk
  match d.store.loadBlockPayloadRecord ⟨certificate.height, certificate.round⟩ with
  | none => pure (.restart certificate.height)
  | some record =>
    if record.executionPayloadSsz = [] then pure (.restart certificate.height)
    else
      match ← (processDecidedCertificate cfg certificate record.executionPayloadSsz
          script).attempt with
      | .error _ => pure (.restart certificate.height)
      | .ok _ =>
        let mem ← getMem
        pure (.start mem.currentHeight)

/-- `AppMsg::GetDecidedValue`: the certificate and the package a lagging peer is sent. -/
def getDecidedValue (d : Disk) (height : Height) :
    Option (CommitCertificate × SyncedValuePackage) := do
  let decided ← d.store.decidedValues[height]?
  let record := d.store.loadBlockPayloadRecord ⟨height, decided.certificate.round⟩
  let notices := d.store.loadArchiveNotices height
  let package : SyncedValuePackage :=
    match record, getBlobsWithStatusCheck d height with
    | some r, .ok blobs =>
      .full decided.value r.executionPayloadSsz blobs r.executionRequests notices
    | some r, .error _ =>
      .metadataOnly decided.value notices (some r.executionPayloadSsz) r.executionRequests
    | none, _ => .metadataOnly decided.value notices none []
  pure (decided.certificate, package)

end Ultramarine
