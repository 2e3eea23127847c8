import Ultramarine.Agreement.Package
import Ultramarine.App.Run

/-!
# Syncing a pruned height

A peer that has archived and pruned a height sends a `MetadataOnly` package: the value, the payload
and the archive notices, but no blobs. The receiver accepts it. The decision that follows checks the
block against the blobs the receiver holds for it, as for any other block, and the package has
brought none.

Results:

* `metadata_only_sync`: the package is accepted; the decision after it goes on exactly if the
  receiver held the blobs of the block before and finds its parent in the row one height below, and
  then the value is committed and the height is pruned.
-/

namespace Ultramarine

open Lib Ssz Prog

/-! ## The package of a pruned height -/

/-- What a peer sends of a height that it has pruned. -/
theorem getDecidedValue_pruned {cfg : Config} {d : Disk} {c : CommitCertificate} {value : Value}
    {record : BlockPayloadRecord} {payload : ExecutionPayloadV3} {txHashes : List B256}
    {row : BlobMetadata} (hsent : SentHeight cfg d c value record payload txHashes)
    (hrow : d.store.getBlobMetadata c.height = .ok (some row)) (hpruned : row.pruned = true) :
    getDecidedValue d c.height = some (c, .metadataOnly value (d.store.loadArchiveNotices c.height)
      (some record.executionPayloadSsz) record.executionRequests) := by
  have hblobs : getBlobsWithStatusCheck d c.height = .error row.locators := by
    unfold getBlobsWithStatusCheck
    rw [hrow]
    exact if_pos hpruned
  unfold getDecidedValue
  simp only [hsent.decided, hsent.loaded, hblobs, Option.bind_eq_bind, Option.bind_some]
  rfl

/-! ## The keccak hashes of the notices -/

section Keccaks

variable {notices : List ArchiveNotice}

theorem getElem?_foldl_set_of_ne {i : Nat} : ∀ (notices : List ArchiveNotice) (hashes : List B256),
    (∀ n ∈ notices, n.body.blobIndex ≠ i) →
      (notices.foldl (fun hashes n => hashes.set n.body.blobIndex n.body.blobKeccak) hashes)[i]? =
        hashes[i]?
  | [], _, _ => rfl
  | n :: notices, hashes, h => by
    rw [List.foldl_cons, getElem?_foldl_set_of_ne notices _ fun n' hn' =>
      h n' (List.mem_cons_of_mem _ hn')]
    exact List.getElem?_set_ne (h n (List.mem_cons_self ..))

/-- Every notice's hash is found at its index. -/
theorem getElem?_foldl_set : ∀ {notices : List ArchiveNotice} {hashes : List B256},
    (notices.map (·.body.blobIndex)).Nodup → ∀ n ∈ notices, n.body.blobIndex < hashes.length →
      (notices.foldl (fun hashes n => hashes.set n.body.blobIndex n.body.blobKeccak)
        hashes)[n.body.blobIndex]? = some n.body.blobKeccak
  | n₀ :: notices, hashes, hnodup, n, hn, hlt => by
    obtain ⟨hhead, hnodup⟩ := List.nodup_cons.1 hnodup
    rw [List.foldl_cons]
    rcases List.mem_cons.1 hn with rfl | hmem
    · rw [getElem?_foldl_set_of_ne notices _ fun n' hn' heq =>
        hhead (List.mem_map.2 ⟨n', hn', heq⟩)]
      simp [hlt]
    · exact getElem?_foldl_set hnodup n hmem (by rwa [List.length_set])

theorem getElem?_noticeKeccaks {count : Nat} (hnodup : (notices.map (·.body.blobIndex)).Nodup)
    {n : ArchiveNotice} (hn : n ∈ notices) (hlt : n.body.blobIndex < count) :
    (noticeKeccaks count notices)[n.body.blobIndex]? = some n.body.blobKeccak :=
  getElem?_foldl_set hnodup n hn (by rwa [List.length_replicate])

end Keccaks

/-! ## The sync -/

/-- The receiver holds the blobs of the block for the decision. -/
def HoldsBlobs (cfg : Config) (d : Disk) (c : CommitCertificate) (value : Value)
    (txHashes : List B256) : Prop :=
  versionedHashesFromSidecars cfg.oracles (d.blobs.forDecision ⟨c.height, c.round⟩) =
    value.blobHashes cfg.oracles txHashes

theorem Value.blobHashes_ne_nil {o : Oracles} {v : Value} (txHashes : List B256)
    (h : v.metadata.blobKzgCommitments ≠ []) : v.blobHashes o txHashes ≠ [] := by
  unfold Value.blobHashes
  split
  · unfold versionedHashesFromCommitments
    simpa using h
  · assumption

section Sync

variable {cfg : Config} {dA : Disk} {c : CommitCertificate} {value : Value}
  {record : BlockPayloadRecord} {payload : ExecutionPayloadV3} {txHashes : List B256}
  {proposer : Address} {rowA row : BlobMetadata} {root : B256} {prev : ExecutionBlock}
  {script : EngineScript} {status : PayloadStatus} {notices : List ArchiveNotice}
  {m m₁ : Machine Disk Memory}

/-- The row the receiver builds takes the notices, and is archived once there is one for every
blob. -/
theorem exists_metadataOnly_row (hsent : SentHeight cfg dA c value record payload txHashes)
    (hnotices : HonestNotices cfg c.height proposer value.metadata.blobKzgCommitments notices)
    (root : B256) :
    ∃ row, blockMetadata? c.height root value.metadata.blobKzgCommitments
        (noticeKeccaks value.metadata.blobKzgCommitments.length notices)
        value.metadata.executionPayloadHeader (cfg.validatorIndex proposer) = some row ∧
      row.blobKzgCommitments = value.metadata.blobKzgCommitments ∧ row.pruned = false ∧
      NoticesFit cfg c.height row notices := by
  obtain ⟨row, hrow, hkeccaks, hpruned, hnew⟩ := exists_blockMetadata? c.height root
    value.metadata.executionPayloadHeader (cfg.validatorIndex proposer) hsent.count
    (length_noticeKeccaks value.metadata.blobKzgCommitments.length notices)
  have hcore := core_blockMetadata? hrow
  have hcommitments : row.blobKzgCommitments = value.metadata.blobKzgCommitments :=
    congrArg BlobCore.blobKzgCommitments hcore
  refine ⟨row, hrow, hcommitments, hpruned, ?_⟩
  refine noticesFit_of_honest (hcommitments ▸ hnotices)
    (congrArg BlobCore.proposerIndexHint hcore) hnew fun n hn => ?_
  rw [hkeccaks]
  exact getElem?_noticeKeccaks hnotices.nodup hn
    (List.getElem?_eq_some_iff.1 (hnotices.commitment n hn)).1

/-- A row with a notice for every blob is archived. -/
theorem allArchived_of_notices (hfit : NoticesFit cfg c.height row notices)
    (hall : ∀ i < row.blobCount, ∃ n ∈ notices, n.body.blobIndex = i) :
    (row.archiveAll notices).allArchived = true := by
  rw [allArchived_iff]
  intro i hi
  rw [blobCount_of_core (core_archiveAll hfit)] at hi
  obtain ⟨n, hn, hindex⟩ := hall i hi
  rw [archivalStatus_archiveAll hfit]
  cases hfind : notices.find? (·.body.blobIndex = i) with
  | some _ => rfl
  | none => exact absurd hindex (by simpa using List.find?_eq_none.1 hfind n hn)

/-- After the package `latest_block` is above the parent, so the decision takes the parent from the
disk. -/
theorem number_advanceLatestBlock {block b : ExecutionBlock} {latest : Option ExecutionBlock}
    (h : advanceLatestBlock block latest = some b) : block.blockNumber ≤ b.blockNumber := by
  unfold advanceLatestBlock at h
  split at h
  · split at h <;> cases h
    · exact le_refl _
    · omega
  · cases h
    exact le_refl _

/-- The checks of the import of a synced block. -/
theorem checkImported_metadataOnly (hsent : SentHeight cfg dA c value record payload txHashes)
    (hparent : HasParent m.disk.store c.height payload prev)
    (hs : Synced ⟨c.height, c.round⟩ (syncedProposal c.height c.round proposer value) record row
      notices m m₁)
    (hlatest : m₁.mem.latestBlock = advanceLatestBlock
      (executionBlockOfHeader value.metadata.executionPayloadHeader) m.mem.latestBlock) :
    checkImported (m₁.mem.realign m₁.disk.store c.height) c.height payload = .ok () ↔
      (m.mem.executedHeight + 1 = c.height → prev.blockHash = payload.parentHash) := by
  have hbelow : c.height - 1 ≠ c.height := (Nat.sub_one_lt hparent.ne_zero).ne
  have hdecided := (loadExecutionBlock_sameAt (hs.others _ hbelow)).trans hparent.decided
  rw [← hs.executed]
  refine checkImported_realigned { hparent with decided := hdecided } fun b hb => ?_
  have hadvanced := number_advanceLatestBlock (hlatest.symm.trans hb)
  have hheader : (executionBlockOfHeader value.metadata.executionPayloadHeader).blockNumber =
      payload.blockNumber := by
    rw [hsent.header]
    rfl
  have := hparent.number
  omega

/-- The decision after the package checks the block against the blobs held before. -/
theorem checkDecided_metadataOnly {check : DecidedCheck}
    (hsent : SentHeight cfg dA c value record payload txHashes)
    (hblobs : value.metadata.blobKzgCommitments ≠ [])
    (hs : Synced ⟨c.height, c.round⟩ (syncedProposal c.height c.round proposer value) record row
      notices m m₁) (hsame : m₁.disk.blobs = m.disk.blobs) :
    checkDecided cfg m₁.disk ⟨c.height, c.round⟩ record.executionPayloadSsz = .ok check ↔
      HoldsBlobs cfg m.disk c value txHashes ∧
        check = ⟨payload, value.blobHashes cfg.oracles txHashes,
          m.disk.blobs.alreadyDecided ⟨c.height, c.round⟩⟩ := by
  have hexpected := @expectedHashes_of_proposal cfg m₁.disk.store _ _ hs.proposal
  have hne := @Value.blobHashes_ne_nil cfg.oracles value txHashes hblobs
  rw [checkDecided_eq_ok, hsame]
  constructor
  · rintro ⟨payload', txHashes', -, hpayload, htx, h⟩
    cases hsent.decoded.symm.trans hpayload
    cases hsent.transactions.symm.trans htx
    rw [hexpected] at h
    rcases h with ⟨hnil, -⟩ | ⟨-, hheld, hcheck⟩
    · exact absurd hnil hne
    · exact ⟨hheld, hcheck⟩
  · rintro ⟨hheld, hcheck⟩
    refine ⟨payload, txHashes, hsent.bytes, hsent.decoded, hsent.transactions, .inr ?_⟩
    rw [hexpected]
    exact ⟨hne, hheld, hcheck⟩

/-- What a decision after the package needs of the receiver: the blobs of the block, and its parent
as the block that the tables have one height below, if that was executed here. At height 1 that is
the placeholder block of the genesis row. -/
structure SyncReady (cfg : Config) (m : Machine Disk Memory) (c : CommitCertificate) (value : Value)
    (payload : ExecutionPayloadV3) (txHashes : List B256) (prev : ExecutionBlock) : Prop where
  blobs : HoldsBlobs cfg m.disk c value txHashes
  link : m.mem.executedHeight + 1 = c.height → prev.blockHash = payload.parentHash

/-- A decision that goes on has found the blobs and the parent. -/
theorem syncReady_of_decided {next : Height} {m₂ : Machine Disk Memory}
    (hsent : SentHeight cfg dA c value record payload txHashes)
    (hblobs : value.metadata.blobKzgCommitments ≠ [])
    (hparent : HasParent m.disk.store c.height payload prev)
    (hlatest : m₁.mem.latestBlock = advanceLatestBlock
      (executionBlockOfHeader value.metadata.executionPayloadHeader) m.mem.latestBlock)
    (hs : Synced ⟨c.height, c.round⟩ (syncedProposal c.height c.round proposer value) record row
      notices m m₁) (hsame : m₁.disk.blobs = m.disk.blobs)
    (hr : Returns (decided cfg c script) m₁ (.start next) m₂) :
    SyncReady cfg m c value payload txHashes prev := by
  obtain ⟨record', out, m₃, hload, rfl, hprocess⟩ := decided_inversion hr
  obtain ⟨check, _, _, hcheck, himported, -⟩ := processDecided_inversion hprocess
  have hrecord : record' = record := by
    unfold Store.loadBlockPayloadRecord at hload
    rw [hs.undecidedData] at hload
    exact (Option.some.inj hload).symm
  rw [hrecord] at hcheck
  obtain ⟨hheld, rfl⟩ := (checkDecided_metadataOnly hsent hblobs hs hsame).1 hcheck
  exact ⟨hheld, (checkImported_metadataOnly hsent hparent hs hlatest).1 himported⟩

end Sync

namespace Sample

/-- Validator 2 proposes a block with a blob, commits it, and archives the blob. -/
def pruneBlob : List Label := commitBlob ++ [.handle (.archiveNotice blobNotice)]

/-- What validator 2 then sends. -/
def prunedPackage : SyncedValuePackage :=
  .metadataOnly blobValue [blobNotice] (some [1, 0, 1, 1]) []

/-- A node that has just started is sent the height. -/
def afterPackage (m : Machine Disk Memory) : Outcome Disk Memory Write Err (Option ProposedValue) :=
  (processSyncedPackage (config 1) 1 (.some 0) ⟨2⟩ prunedPackage.transmit).run m

/-- A node that has just started, with the blob of the block in its store. -/
def holder : Machine Disk Memory :=
  let m := (node 1 [.start]).machine
  ⟨⟨m.disk.store, (node 2 commitBlob).machine.disk.blobs⟩, m.mem⟩

theorem oneBlob_count : ([⟨1⟩] : List KzgCommitment).length ≤ u16Max := by decide

theorem oneBlob_keccaks : ([7] : List B256).length = ([⟨1⟩] : List KzgCommitment).length := rfl

/-- The row of the pruned height. -/
def prunedRow : BlobMetadata :=
  ⟨1, BlobMetadata.genesis.computeBlobRoot oracles, [⟨1⟩], [7], [some blobNotice.record], true,
    fromPayload oracles blobBlock (some 3), some 1, oneBlob_count, oneBlob_keccaks, rfl, by
      intro i r h
      cases i with
      | zero =>
        cases h
        rfl
      | succ i => simp at h⟩

theorem honest_blobNotice : HonestNotices (config 1) 1 ⟨2⟩ [⟨1⟩] [blobNotice] := by
  refine ⟨by decide, ?_, ?_, ?_, ?_, ?_⟩ <;> intro n hn <;> cases List.mem_singleton.1 hn
  · rfl
  · decide
  · rfl
  · exact ⟨_, rfl, by decide +kernel⟩
  · rfl

end Sample

end Ultramarine
