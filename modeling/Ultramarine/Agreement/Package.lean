import Ultramarine.App.Decision

/-!
# Sending and receiving a decided height

What the two kinds of packages share. `SentHeight` is a height as an honest peer has committed it;
`HonestNotices` are the notices of its proposer; `HasParent` says that the receiver has decided the
parent of the block.

Results:

* `noticesFit_of_honest`: honest notices fit the row the receiver builds from the package;
* `checkImported_realigned`: what the checks of the import ask of the block below.
-/

namespace Ultramarine

open Lib Ssz Prog

variable {h : Height} {cfg : Config} {commitments : List KzgCommitment}
  {notices : List ArchiveNotice} {proposer : Address}

/-! ## The metadata row of a package -/

/-- A row is built from as many keccak hashes as there are commitments, and has no records yet. -/
theorem exists_blockMetadata? (height : Height) (root : B256) {keccaks : List B256}
    (header : ExecutionPayloadHeader) (hint : Option Nat) (hcount : commitments.length ≤ u16Max)
    (hlen : keccaks.length = commitments.length) :
    ∃ row, blockMetadata? height root commitments keccaks header hint = some row ∧
      row.blobKeccakHashes = keccaks ∧ row.pruned = false ∧
      ∀ i, row.archivalStatus i = none := by
  unfold blockMetadata?
  split
  · rename_i hnil
    subst hnil
    have hkeccaks : keccaks = [] := List.eq_nil_of_length_eq_zero hlen
    subst hkeccaks
    exact ⟨_, rfl, rfl, rfl, fun _ => rfl⟩
  · refine ⟨_, dif_pos ⟨hcount, hlen⟩, rfl, rfl, fun i => ?_⟩
    unfold BlobMetadata.archivalStatus
    by_cases hi : i < commitments.length <;> simp [hi]

/-! ## Notices -/

/-- The notices of an honest proposer for the blobs of its block: one for each blob at most. -/
structure HonestNotices (cfg : Config) (h : Height) (proposer : Address)
    (commitments : List KzgCommitment) (notices : List ArchiveNotice) : Prop where
  nodup : (notices.map (·.body.blobIndex)).Nodup
  height : ∀ n ∈ notices, n.body.height = h
  round : ∀ n ∈ notices, n.body.round.asI64 ≤ i32Max
  archiver : ∀ n ∈ notices, n.body.archivedBy = proposer
  verified : ∀ n ∈ notices, ∃ v, cfg.validators.getByAddress proposer = some v ∧
    n.verify cfg.oracles v.publicKey = true
  commitment : ∀ n ∈ notices, commitments[n.body.blobIndex]? = some n.body.kzgCommitment

theorem ArchiveNotice.transmit_eq {n : ArchiveNotice} (h : n.body.round.asI64 ≤ i32Max) :
    n.transmit = n := by
  unfold ArchiveNotice.transmit
  rw [ArchiveNoticeBody.fromProto_toProto h]

/-- Honest notices survive the wire. -/
theorem HonestNotices.map_transmit (hn : HonestNotices cfg h proposer commitments notices) :
    notices.map ArchiveNotice.transmit = notices := by
  conv_rhs => rw [← List.map_id notices]
  exact List.map_congr_left fun n hmem => ArchiveNotice.transmit_eq (hn.round n hmem)

/-- Honest notices fit a row of their block whose keccak hashes agree with them. -/
theorem noticesFit_of_honest {row : BlobMetadata}
    (hn : HonestNotices cfg h proposer row.blobKzgCommitments notices)
    (hhint : row.proposerIndexHint = cfg.validatorIndex proposer)
    (hnew : ∀ i, row.archivalStatus i = none)
    (hkeccak : ∀ n ∈ notices, row.blobKeccakHashes[n.body.blobIndex]? = some n.body.blobKeccak) :
    NoticesFit cfg h row notices := by
  refine ⟨hn.nodup, fun n hmem => ?_, fun n _ => hnew _⟩
  obtain ⟨v, hv, hverify⟩ := hn.verified n hmem
  have hindex : (cfg.validatorIndex proposer).isSome = true := by
    unfold Config.validatorIndex
    rw [ValidatorSet.isSome_validatorIndex, hv]
    rfl
  obtain ⟨i, hi⟩ := Option.isSome_iff_exists.1 hindex
  obtain ⟨w, hw, haddress⟩ := ValidatorSet.validatorIndex_eq_some hi
  have harchiver := hn.archiver n hmem
  exact ⟨hn.height n hmem, ⟨v, by rw [harchiver]; exact hv, hverify⟩,
    ⟨i, w, by rw [hhint]; exact hi, hw, by rw [haddress, harchiver]⟩, hn.commitment n hmem,
    .inr (hkeccak n hmem)⟩

/-! ## The chain below -/

/-- The node has a block `prev` one height below that of the payload. -/
structure HasParent (s : Store) (h : Height) (payload : ExecutionPayloadV3)
    (prev : ExecutionBlock) : Prop where
  ne_zero : h ≠ 0
  prevRandao : payload.prevRandao = loadPrevRandao
  decided : loadExecutionBlock s (h - 1) = .ok (some prev)
  number : prev.blockNumber < payload.blockNumber

/-- A decision whose `latest_block` is another block than `prev` takes `prev` as the parent, and
checks its hash if the parent was executed here. -/
theorem checkImported_realigned {s : Store} {mem : Memory} {payload : ExecutionPayloadV3}
    {prev : ExecutionBlock} (hparent : HasParent s h payload prev)
    (hlatest : ∀ b, mem.latestBlock = some b → b.blockNumber ≠ prev.blockNumber) :
    checkImported (mem.realign s h) h payload = .ok () ↔
      (mem.executedHeight + 1 = h → prev.blockHash = payload.parentHash) := by
  have hrealigned : realignedBlock s h mem.latestBlock = some prev := by
    unfold realignedBlock
    rw [if_neg hparent.ne_zero, hparent.decided]
    refine if_pos ?_
    cases hb : mem.latestBlock with
    | none => rfl
    | some b => simpa using hlatest b hb
  have hmem : (mem.realign s h).latestBlock = some prev := hrealigned
  unfold checkImported
  simp only [Exit.bind_eq_ok, Exit.ensure_eq_ok, exists_const, hmem, Option.all_some,
    decide_eq_true_eq]
  exact and_iff_right hparent.prevRandao

theorem loadExecutionBlock_sameAt {n : Height} {d d' : Disk} (h : Disk.SameAt n d d') :
    loadExecutionBlock d'.store n = loadExecutionBlock d.store n := by
  unfold loadExecutionBlock
  rw [h.value, h.getBlobMetadata]

/-! ## A committed height -/

/-- A height as an honest peer has committed it: the value, the certificate, and the payload the
value was built from. -/
structure SentHeight (cfg : Config) (d : Disk) (c : CommitCertificate) (value : Value)
    (record : BlockPayloadRecord) (payload : ExecutionPayloadV3) (txHashes : List B256) : Prop where
  decided : d.store.decidedValues[c.height]? = some ⟨value, c⟩
  round_ne : c.round ≠ .nil
  round_le : c.round.asI64 ≤ i32Max
  loaded : d.store.loadBlockPayloadRecord ⟨c.height, c.round⟩ = some record
  requests : validateExecutionRequests record.executionRequests = .ok ()
  bytes : record.executionPayloadSsz ≠ []
  decoded : cfg.oracles.fromSszBytes record.executionPayloadSsz = some payload
  transactions : cfg.oracles.tryIntoBlock payload = some txHashes
  header : value.metadata.executionPayloadHeader = fromPayload cfg.oracles payload
    (some (cfg.oracles.computeRequestsHash record.executionRequests))
  count : value.metadata.blobKzgCommitments.length ≤ u16Max

/-- The blob hashes the block stands for. -/
def Value.blobHashes (o : Oracles) (v : Value) (txHashes : List B256) : List B256 :=
  if txHashes = [] then versionedHashesFromCommitments o v.metadata.blobKzgCommitments
  else txHashes

/-- The hashes a decision expects of a slot that holds the value. -/
theorem expectedHashes_of_proposal {cfg : Config} {s : Store} {slot : Slot} {p : ProposedValue}
    (hp : s.undecidedProposals[slot]? = some p) (txHashes : List B256) :
    expectedHashes cfg s slot txHashes = p.value.blobHashes cfg.oracles txHashes := by
  unfold expectedHashes Value.blobHashes
  rw [hp]

end Ultramarine
