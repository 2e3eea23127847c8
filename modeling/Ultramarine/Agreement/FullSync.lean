import Ultramarine.Agreement.Package
import Ultramarine.App.Run

/-!
# Syncing a height with its blobs

A peer that has committed a height and still has its blobs sends a `Full` package. The receiver
checks the sidecars against the proposer of the decided round, promotes them, and builds the
metadata row with the index of that proposer. The decision that follows finds all of it promoted.

The row of the sender need not have that index: a value that was restreamed keeps the row of the
validator that made it first.

Results:

* `FullHeight.accepted`: the package is accepted, and what it leaves;
* `full_sync`: package and decision leave the receiver with the height as the sender has it, exactly
  if it is `FullReady`.
-/

namespace Ultramarine

open Lib Ssz Prog

/-- A height as a node holds it that has committed it and not pruned it. `maker` made the metadata
row, `proposer` proposed the value in the decided round; `base` is the row without the archive
records. -/
structure FullHeight (cfg : Config) (d : Disk) (c : CommitCertificate) (value : Value)
    (record : BlockPayloadRecord) (txHashes : List B256) (maker proposer : Address) (root : B256)
    (base : BlobMetadata) : Prop where
  validator : (cfg.validatorIndex maker).isSome
  data : d.store.decidedBlockData[c.height]? = some record
  consensus : d.store.consensusBlockMetadata[c.height]? =
    some (consensusMetadata cfg c (syncedProposal c.height c.round proposer value))
  parent_eq : resolveParentRootForHeight cfg d c.height = .ok root
  base_eq : blockMetadata? c.height root value.metadata.blobKzgCommitments
    ((d.blobs.getDecidedBlobs c.height).map (·.blobKeccak cfg.oracles))
    value.metadata.executionPayloadHeader (cfg.validatorIndex maker) = some base
  row : d.store.HasRow c.height (base.archiveAll (d.store.loadArchiveNotices c.height))
  notices : HonestNotices cfg c.height maker value.metadata.blobKzgCommitments
    (d.store.loadArchiveNotices c.height)
  keccaks : ∀ n ∈ d.store.loadArchiveNotices c.height,
    base.blobKeccakHashes[n.body.blobIndex]? = some n.body.blobKeccak
  records : ∀ i, d.store.blobArchival[BlobIndexKey.mk c.height i]? =
    ((d.store.loadArchiveNotices c.height).find? (·.body.blobIndex = i)).map ArchiveNotice.record
  count : value.metadata.blobKzgCommitments.length = (d.blobs.getDecidedBlobs c.height).length
  kzg : kzgOk cfg (d.blobs.getDecidedBlobs c.height)
  -- one header with the index of the maker; but for the index, the sidecars are the proposer's
  covered : d.blobs.getDecidedBlobs c.height ≠ [] → ∃ signedHeader,
    (∀ s ∈ d.blobs.getDecidedBlobs c.height, s.signedBlockHeader = signedHeader) ∧
    cfg.validatorIndex maker = some signedHeader.message.proposerIndex ∧
    (cfg.validatorIndex proposer = some signedHeader.message.proposerIndex →
      SidecarsOk cfg d c.height proposer value.metadata (d.blobs.getDecidedBlobs c.height)
        signedHeader)
  hashes : versionedHashesFromSidecars cfg.oracles (d.blobs.getDecidedBlobs c.height) =
    value.blobHashes cfg.oracles txHashes

/-- What an accepted package leaves: the row `row`, with the index of the proposer and the records of
the notices, and the sidecars as decided blobs. -/
structure FullSynced (cfg : Config) (dA : Disk) (c : CommitCertificate) (value : Value)
    (record : BlockPayloadRecord) (maker proposer : Address) (base row : BlobMetadata)
    (m m₁ : Machine Disk Memory) : Prop where
  synced : Synced ⟨c.height, c.round⟩ (syncedProposal c.height c.round proposer value) record row
    (dA.store.loadArchiveNotices c.height) m m₁
  blobs : m₁.disk.blobs =
    m.disk.blobs.synced ⟨c.height, c.round⟩ (dA.blobs.getDecidedBlobs c.height)
  latest : m₁.mem.latestBlock = m.mem.latestBlock
  queue : dA.store.loadArchiveNotices c.height = [] →
    m₁.mem.pendingPruneHeights = m.mem.pendingPruneHeights
  hint : row.proposerIndexHint = cfg.validatorIndex proposer
  commitments : row.blobKzgCommitments = value.metadata.blobKzgCommitments
  pruned : row.pruned = false
  new : ∀ i, row.archivalStatus i = none
  base_eq : maker = proposer → row = base
  fits : NoticesFit cfg c.height row (dA.store.loadArchiveNotices c.height)

section Sync

variable {cfg : Config} {dA : Disk} {c : CommitCertificate} {value : Value}
  {record : BlockPayloadRecord} {payload : ExecutionPayloadV3} {txHashes : List B256}
  {maker proposer : Address} {root : B256} {base row : BlobMetadata} {script : EngineScript}
  {status : PayloadStatus} {m m₁ : Machine Disk Memory}

namespace FullHeight

variable (h : FullHeight cfg dA c value record txHashes maker proposer root base)

include h

theorem commitments_nil_iff :
    value.metadata.blobKzgCommitments = [] ↔ dA.blobs.getDecidedBlobs c.height = [] := by
  rw [← List.length_eq_zero_iff, ← List.length_eq_zero_iff, h.count]

theorem keccaks_length :
    ((dA.blobs.getDecidedBlobs c.height).map (·.blobKeccak cfg.oracles)).length =
      value.metadata.blobKzgCommitments.length := by
  rw [List.length_map, h.count]

/-- A block without blobs has no notices. -/
theorem notices_nil (hnil : dA.blobs.getDecidedBlobs c.height = []) :
    dA.store.loadArchiveNotices c.height = [] := by
  refine List.eq_nil_iff_forall_not_mem.2 fun n hn => ?_
  have hget := h.notices.commitment n hn
  rw [h.commitments_nil_iff.2 hnil] at hget
  cases hget

theorem getDecidedValue (hsent : SentHeight cfg dA c value record payload txHashes) :
    getDecidedValue dA c.height = some (c, .full value record.executionPayloadSsz
      (dA.blobs.getDecidedBlobs c.height) record.executionRequests
      (dA.store.loadArchiveNotices c.height)) := by
  have hpruned : base.pruned = false := by
    obtain ⟨row, hrow, _, hpruned, _⟩ := exists_blockMetadata? c.height root
      value.metadata.executionPayloadHeader (cfg.validatorIndex maker) hsent.count
      h.keccaks_length
    cases h.base_eq.symm.trans hrow
    exact hpruned
  have hblobs : getBlobsWithStatusCheck dA c.height = .ok (dA.blobs.getDecidedBlobs c.height) := by
    unfold getBlobsWithStatusCheck
    rw [h.row.get]
    exact if_neg (by rw [pruned_archiveAll, hpruned]; simp)
  unfold Ultramarine.getDecidedValue
  simp only [hsent.decided, hsent.loaded, hblobs, Option.bind_eq_bind, Option.bind_some]
  rfl

/-- The package survives the wire. -/
theorem transmit_eq (bytes : Bytes) (sidecars : List BlobSidecar) (requests : List Bytes) :
    (SyncedValuePackage.full value bytes sidecars requests
        (dA.store.loadArchiveNotices c.height)).transmit =
      .full value bytes sidecars requests (dA.store.loadArchiveNotices c.height) := by
  show SyncedValuePackage.full value bytes sidecars requests (List.map _ _) = _
  rw [h.notices.map_transmit]

/-- The notices fit the row the receiver builds: it is the sender's, or there are none. -/
theorem noticesFit (hmaker : maker = proposer ∨ dA.blobs.getDecidedBlobs c.height = [])
    (hrow : blockMetadata? c.height root value.metadata.blobKzgCommitments
      ((dA.blobs.getDecidedBlobs c.height).map (·.blobKeccak cfg.oracles))
      value.metadata.executionPayloadHeader (cfg.validatorIndex proposer) = some row)
    (hnew : ∀ i, row.archivalStatus i = none) :
    NoticesFit cfg c.height row (dA.store.loadArchiveNotices c.height) := by
  rcases hmaker with rfl | hnil
  · cases hrow.symm.trans h.base_eq
    have hcore := core_blockMetadata? hrow
    have hcommitments : base.blobKzgCommitments = value.metadata.blobKzgCommitments :=
      congrArg BlobCore.blobKzgCommitments hcore
    exact noticesFit_of_honest (hcommitments ▸ h.notices)
      (congrArg BlobCore.proposerIndexHint hcore) hnew h.keccaks
  · rw [h.notices_nil hnil]
    exact ⟨List.nodup_nil, by simp, by simp⟩

/-- **The package is accepted** by a node with the same parent row, if the proposer made the
sender's row or the block has no blobs. -/
theorem accepted (hsent : SentHeight cfg dA c value record payload txHashes)
    (hmaker : maker = proposer ∨ dA.blobs.getDecidedBlobs c.height = [])
    (hnothing : m.disk.NothingAt c.height)
    (hparent : m.disk.store.getBlobMetadata (c.height - 1) =
      dA.store.getBlobMetadata (c.height - 1))
    (hopen : m.mem.finalizedHeight < c.height) :
    ∃ row m₁, Returns (processSyncedFull cfg c.height c.round proposer value
        record.executionPayloadSsz (dA.blobs.getDecidedBlobs c.height) record.executionRequests
        (dA.store.loadArchiveNotices c.height)) m
        (some (syncedProposal c.height c.round proposer value)) m₁ ∧
      FullSynced cfg dA c value record maker proposer base row m m₁ := by
  obtain ⟨row, hrow, -, hpruned, hnew⟩ := exists_blockMetadata? c.height root
    value.metadata.executionPayloadHeader (cfg.validatorIndex proposer) hsent.count
    h.keccaks_length
  have hfit := h.noticesFit hmaker hrow hnew
  have hsidecars : dA.blobs.getDecidedBlobs c.height ≠ [] →
      kzgOk cfg (dA.blobs.getDecidedBlobs c.height) ∧ ∃ signedHeader,
        SidecarsOk cfg m.disk c.height proposer value.metadata (dA.blobs.getDecidedBlobs c.height)
          signedHeader := by
    intro hne
    obtain ⟨signedHeader, -, hindex, hok⟩ := h.covered hne
    rcases hmaker with rfl | hnil
    · exact ⟨h.kzg, signedHeader, (hok hindex).congr hparent⟩
    · exact absurd hnil hne
  obtain ⟨m₁, hr, hs, hblobs, hlatest, hqueue⟩ := @returns_processSyncedFull cfg
    ⟨c.height, c.round⟩ row (dA.store.loadArchiveNotices c.height) m proposer value
    record.executionPayloadSsz (dA.blobs.getDecidedBlobs c.height) record.executionRequests root
    hnothing hsent.requests
    ⟨(resolveParentRootForHeight_congr rfl hparent).trans h.parent_eq, hrow⟩ hsidecars
    (dA.blobs.indexSorted_getDecidedBlobs c.height) hfit hopen hsent.round_ne
  have hcore := core_blockMetadata? hrow
  refine ⟨row, m₁, hr, hs, hblobs, hlatest, hqueue, congrArg BlobCore.proposerIndexHint hcore,
    congrArg BlobCore.blobKzgCommitments hcore, hpruned, hnew, ?_, hfit⟩
  rintro rfl
  exact Option.some.inj (hrow.symm.trans h.base_eq)

/-- Sidecars that the receiver accepts carry the index of the proposer. -/
theorem maker_eq_of_sidecars {d : Disk} {signedHeader : SignedBeaconBlockHeader}
    (hok : SidecarsOk cfg d c.height proposer value.metadata (dA.blobs.getDecidedBlobs c.height)
      signedHeader) : maker = proposer := by
  obtain ⟨signedHeader', hheader, hindex, -⟩ := h.covered hok.ne_nil
  obtain ⟨s, hs⟩ := List.exists_mem_of_ne_nil _ hok.ne_nil
  have hsame : signedHeader' = signedHeader := (hheader s hs).symm.trans (hok.header_eq s hs)
  rw [hsame] at hindex
  exact ValidatorSet.validatorIndex_inj hindex hok.index_eq

/-- A receiver that builds the sender's row builds it with the maker's index. -/
theorem maker_eq_of_row (hrow : base.proposerIndexHint = cfg.validatorIndex proposer) :
    maker = proposer := by
  obtain ⟨index, hindex⟩ := Option.isSome_iff_exists.1 h.validator
  have hhint := congrArg BlobCore.proposerIndexHint (core_blockMetadata? h.base_eq)
  exact ValidatorSet.validatorIndex_inj hindex (hrow.symm.trans (hhint.trans hindex))

/-! ## The decision -/

variable (hnothing : m.disk.NothingAt c.height)
  (hs : FullSynced cfg dA c value record maker proposer base row m m₁)

include hnothing hs

omit h in
/-- The blobs of an accepted package are decided, and nothing is left undecided. -/
theorem decidedBlobs : m₁.disk.blobs.getDecidedBlobs c.height = dA.blobs.getDecidedBlobs c.height ∧
    m₁.disk.blobs.NoUndecided c.height := by
  rw [hs.blobs]
  exact @getDecidedBlobs_synced ⟨c.height, c.round⟩ (dA.blobs.getDecidedBlobs c.height)
    m.disk.blobs hnothing.undecided hnothing.blobs (dA.blobs.indexSorted_getDecidedBlobs c.height)

/-- The checks of the decision pass, and the import leaves the blobs where they are. -/
theorem checkDecided (hsent : SentHeight cfg dA c value record payload txHashes) :
    ∃ check, checkDecided cfg m₁.disk ⟨c.height, c.round⟩ record.executionPayloadSsz = .ok check ∧
      check.payload = payload ∧
      m₁.disk.blobs.forImport ⟨c.height, c.round⟩ check.alreadyDecided = m₁.disk.blobs := by
  obtain ⟨hdecided, hnone⟩ := FullHeight.decidedBlobs hnothing hs
  have hexpected := @expectedHashes_of_proposal cfg m₁.disk.store _ _ hs.synced.proposal txHashes
  have hround := hnone.getUndecidedBlobs c.round.asI64
  by_cases hnil : value.blobHashes cfg.oracles txHashes = []
  · exact ⟨⟨payload, [], false⟩, checkDecided_eq_ok.2 ⟨payload, txHashes, hsent.bytes, hsent.decoded,
      hsent.transactions, .inl ⟨hexpected.trans hnil, rfl⟩⟩, rfl, BlobStore.promote_of_none hnone⟩
  · have hfor : m₁.disk.blobs.forDecision ⟨c.height, c.round⟩ =
        dA.blobs.getDecidedBlobs c.height := by
      unfold BlobStore.forDecision
      rw [hround]
      exact hdecided
    have hne : m₁.disk.blobs.getDecidedBlobs c.height ≠ [] := by
      intro hempty
      rw [hdecided] at hempty
      have hhashes := h.hashes
      rw [hempty] at hhashes
      exact hnil hhashes.symm
    have hdone : m₁.disk.blobs.alreadyDecided ⟨c.height, c.round⟩ = true :=
      decide_eq_true ⟨hround, hne⟩
    refine ⟨⟨payload, value.blobHashes cfg.oracles txHashes, true⟩,
      checkDecided_eq_ok.2 ⟨payload, txHashes, hsent.bytes, hsent.decoded, hsent.transactions,
        .inr ⟨?_, ?_, ?_⟩⟩, rfl, rfl⟩
    · rw [hexpected]
      exact hnil
    · rw [hfor, hexpected]
      exact h.hashes
    · rw [hexpected, hdone]
      rfl

/-- The decision of an accepted package goes on, if the parent is found. -/
theorem decided (hsent : SentHeight cfg dA c value record payload txHashes)
    (hread : m.disk.store.Readable)
    (himported : checkImported (m₁.mem.realign m₁.disk.store c.height) c.height payload = .ok ())
    (hscript : script.Accepts status) :
    ∃ next m₂, Returns (Ultramarine.decided cfg c script) m₁ (.start next) m₂ ∧
      DecidedAs cfg c (syncedProposal c.height c.round proposer value) record
        (row.archiveAll (dA.store.loadArchiveNotices c.height)) m₁.disk.blobs m₁ m₂ := by
  obtain ⟨check, hcheck, hpayload, hsame⟩ := h.checkDecided hnothing hs hsent
  obtain ⟨next, m₂, hr, hdone⟩ := decided_synced hs.synced (hs.synced.readable hread) rfl
    hsent.round_ne hsent.round_le hsent.bytes hcheck (hpayload ▸ himported) hscript
  rw [hsame] at hdone
  exact ⟨next, m₂, hr, hdone⟩

/-- A decision that goes on has found the parent. -/
theorem checkImported_of_decided {next : Height} {m₂ : Machine Disk Memory}
    (hsent : SentHeight cfg dA c value record payload txHashes)
    (hr : Returns (Ultramarine.decided cfg c script) m₁ (.start next) m₂) :
    checkImported (m₁.mem.realign m₁.disk.store c.height) c.height payload = .ok () := by
  obtain ⟨record', out, m₃, hload, rfl, hprocess⟩ := decided_inversion hr
  obtain ⟨check', _, _, hcheck', himported, -⟩ := processDecided_inversion hprocess
  obtain ⟨check, hcheck, hpayload, -⟩ := h.checkDecided hnothing hs hsent
  have hrecord : record' = record := by
    unfold Store.loadBlockPayloadRecord at hload
    rw [hs.synced.undecidedData] at hload
    exact (Option.some.inj hload).symm
  rw [hrecord] at hcheck'
  cases hcheck.symm.trans hcheck'
  exact hpayload ▸ himported

omit hnothing in
/-- The height is queued exactly if the package archives its last blob. -/
theorem not_queued (hqueue : c.height ∉ m.mem.pendingPruneHeights)
    (hopen : value.metadata.blobKzgCommitments ≠ [] →
      (row.archiveAll (dA.store.loadArchiveNotices c.height)).allArchived = false) :
    c.height ∉ m₁.mem.pendingPruneHeights := by
  by_cases hnil : value.metadata.blobKzgCommitments = []
  · rw [hs.queue (h.notices_nil (h.commitments_nil_iff.1 hnil))]
    exact hqueue
  · exact hs.synced.unqueued (hopen hnil) hqueue

omit h hnothing in
theorem queued (hblobs : value.metadata.blobKzgCommitments ≠ [])
    (hall : (row.archiveAll (dA.store.loadArchiveNotices c.height)).allArchived = true) :
    c.height ∈ m₁.mem.pendingPruneHeights := by
  have hpos : 0 < row.blobCount := List.length_pos_iff.2 (hs.commitments ▸ hblobs)
  refine hs.synced.queued hall hpos fun hnil => ?_
  -- without notices no blob is archived
  rw [hnil] at hall
  have hsome := allArchived_iff.1 hall 0 hpos
  rw [show (row.archiveAll []).archivalStatus 0 = none from hs.new 0] at hsome
  cases hsome

end FullHeight

/-! ## The sync -/

/-- What the receiver of a height with its blobs needs to end with the sender's state: the row of
the sender was made by the proposer; not all blobs are archived, else the receiver prunes at once;
and the block below is the parent, if it was executed here. -/
structure FullReady (m : Machine Disk Memory) (c : CommitCertificate) (value : Value)
    (payload : ExecutionPayloadV3) (maker proposer : Address) (row : BlobMetadata) : Prop where
  maker_eq : maker = proposer
  unarchived : value.metadata.blobKzgCommitments ≠ [] → row.allArchived = false
  link : m.mem.executedHeight + 1 = c.height →
    (realignedBlock m.disk.store c.height m.mem.latestBlock).all
      fun b => b.blockHash = payload.parentHash

/-- A `Full` package leaves the parent of the next decision where it was. -/
theorem checkImported_full {p : ProposedValue} {notices : List ArchiveNotice}
    (hrandao : payload.prevRandao = loadPrevRandao) (hne : c.height ≠ 0)
    (hs : Synced ⟨c.height, c.round⟩ p record row notices m m₁)
    (hlatest : m₁.mem.latestBlock = m.mem.latestBlock) :
    checkImported (m₁.mem.realign m₁.disk.store c.height) c.height payload = .ok () ↔
      (m.mem.executedHeight + 1 = c.height →
        (realignedBlock m.disk.store c.height m.mem.latestBlock).all
          fun b => b.blockHash = payload.parentHash) := by
  have hbelow : c.height - 1 ≠ c.height := (Nat.sub_one_lt hne).ne
  have hblock : realignedBlock m₁.disk.store c.height m₁.mem.latestBlock =
      realignedBlock m.disk.store c.height m.mem.latestBlock := by
    unfold realignedBlock
    rw [loadExecutionBlock_sameAt (hs.others _ hbelow), hlatest]
  unfold checkImported Memory.realign
  simp only [Exit.bind_eq_ok, Exit.ensure_eq_ok, exists_const, hblock, hs.executed]
  exact and_iff_right hrandao

section Main

variable (hsent : SentHeight cfg dA c value record payload txHashes)
  (hfull : FullHeight cfg dA c value record txHashes maker proposer root base)
  (hrandao : payload.prevRandao = loadPrevRandao) (hnothing : m.disk.NothingAt c.height)
  (hparent : m.disk.store.getBlobMetadata (c.height - 1) =
    dA.store.getBlobMetadata (c.height - 1))
  (hopen : m.mem.finalizedHeight < c.height) (hqueue : c.height ∉ m.mem.pendingPruneHeights)
  (hread : m.disk.store.Readable) (hscript : script.Accepts status)

include hsent hfull hrandao hnothing hparent hopen hqueue hread hscript

/-- A receiver that ends with the sender's state was ready. -/
theorem fullReady_of_same {v : ProposedValue} {next : Height} {m₂ : Machine Disk Memory}
    (hr₁ : Returns (processSyncedFull cfg c.height c.round proposer value
      record.executionPayloadSsz (dA.blobs.getDecidedBlobs c.height) record.executionRequests
      (dA.store.loadArchiveNotices c.height)) m (some v) m₁)
    (hr₂ : Returns (decided cfg c script) m₁ (.start next) m₂)
    (hsame : Disk.SameAt c.height dA m₂.disk) :
    FullReady m c value payload maker proposer
      (base.archiveAll (dA.store.loadArchiveNotices c.height)) := by
  have hne : c.height ≠ 0 := Nat.ne_of_gt (Nat.lt_of_le_of_lt (Nat.zero_le _) hopen)
  -- accepted sidecars have the proposer's index; without any, the row decides
  have hmaker : maker = proposer ∨ dA.blobs.getDecidedBlobs c.height = [] := by
    by_cases hnil : dA.blobs.getDecidedBlobs c.height = []
    · exact .inr hnil
    · obtain ⟨-, -, -, -, hsidecars⟩ :=
        @processSyncedFull_inversion cfg ⟨c.height, c.round⟩ _ m m₁ _ _ _ _ _ _ hr₁
      obtain ⟨-, -, signedHeader, hok⟩ := hsidecars hnil
      exact .inl (hfull.maker_eq_of_sidecars hok)
  obtain ⟨row, m₁', haccept, hs⟩ := hfull.accepted hsent hmaker hnothing hparent hopen
  obtain ⟨-, rfl⟩ := haccept.unique hr₁
  have himported := hfull.checkImported_of_decided hnothing hs hsent hr₂
  obtain ⟨next', m₂', hr₂', hdone⟩ := hfull.decided hnothing hs hsent hread himported hscript
  obtain ⟨-, rfl⟩ := hr₂'.unique hr₂
  have hrow := hsame.metadata.trans hfull.row.stored
  have hmaker_eq : maker = proposer := by
    rcases hmaker with heq | hnil
    · exact heq
    · have hcommitments := hfull.commitments_nil_iff.2 hnil
      have hkept := (hdone.kept (hfull.not_queued hs hqueue fun h => absurd hcommitments h)).1
      rw [hrow, hfull.notices_nil hnil] at hkept
      have hrows : base = row := Option.some.inj hkept
      exact hfull.maker_eq_of_row (by rw [hrows, hs.hint])
  refine ⟨hmaker_eq, fun hblobs => ?_,
    (checkImported_full hrandao hne hs.synced hs.latest).1 himported⟩
  have hbase := hs.base_eq hmaker_eq
  by_contra harchived
  rw [← hbase, Bool.not_eq_false] at harchived
  have hpos : 0 < (row.archiveAll (dA.store.loadArchiveNotices c.height)).blobCount := by
    rw [blobCount_of_core (core_archiveAll hs.fits)]
    exact List.length_pos_iff.2 (hs.commitments ▸ hblobs)
  have hend := (hdone.pruned (FullHeight.queued hs hblobs harchived) harchived hpos
    ((pruned_archiveAll _ _).trans hs.pruned)).1
  rw [hrow, ← hbase] at hend
  have hflag := congrArg BlobMetadata.pruned (Option.some.inj hend)
  rw [pruned_archiveAll, hs.pruned] at hflag
  cases hflag

/-- A receiver that is ready ends with the sender's state. -/
theorem same_of_fullReady (hready : FullReady m c value payload maker proposer
    (base.archiveAll (dA.store.loadArchiveNotices c.height))) :
    ∃ v m₁ next m₂, Returns (processSyncedFull cfg c.height c.round proposer value
        record.executionPayloadSsz (dA.blobs.getDecidedBlobs c.height) record.executionRequests
        (dA.store.loadArchiveNotices c.height)) m (some v) m₁ ∧
      Returns (decided cfg c script) m₁ (.start next) m₂ ∧ Disk.SameAt c.height dA m₂.disk := by
  have hne : c.height ≠ 0 := Nat.ne_of_gt (Nat.lt_of_le_of_lt (Nat.zero_le _) hopen)
  obtain ⟨rfl, hunarchived, hlink⟩ := hready
  obtain ⟨row, m₁, haccept, hs⟩ := hfull.accepted hsent (.inl rfl) hnothing hparent hopen
  cases hs.base_eq rfl
  obtain ⟨next, m₂, hr, hdone⟩ := hfull.decided hnothing hs hsent hread
    ((checkImported_full hrandao hne hs.synced hs.latest).2 hlink) hscript
  obtain ⟨hrow, hrecords, hdecided⟩ := hdone.kept (hfull.not_queued hs hqueue hunarchived)
  refine ⟨_, m₁, next, m₂, haccept, hr, hdone.value.trans hsent.decided.symm,
    hdone.blockData.trans hfull.data.symm, hdone.consensus.trans hfull.consensus.symm,
    hrow.trans hfull.row.stored.symm, fun i => ?_, fun i => ?_⟩
  · rw [hrecords, hs.synced.records, hfull.records]
  · rw [hdecided]
    exact BlobStore.decided_of_getDecidedBlobs (FullHeight.decidedBlobs hnothing hs).1 i

/-- **Syncing a height with its blobs.** A peer has committed a block and not pruned it, and sends it
to a node that has the same row one height below and nothing at the height. The package is accepted,
the decision of the same certificate goes on, and the node then has the height as the peer has it,
exactly if it is `FullReady`. -/
theorem full_sync :
    ∃ package, getDecidedValue dA c.height = some (c, package) ∧
      ((∃ v m₁ next m₂,
          Returns (processSyncedPackage cfg c.height c.round proposer package.transmit) m (some v)
            m₁ ∧
          Returns (decided cfg c script) m₁ (.start next) m₂ ∧
          Disk.SameAt c.height dA m₂.disk) ↔
        FullReady m c value payload maker proposer
          (base.archiveAll (dA.store.loadArchiveNotices c.height))) := by
  refine ⟨_, hfull.getDecidedValue hsent, ?_⟩
  rw [hfull.transmit_eq]
  constructor
  · rintro ⟨v, m₁, next, m₂, hr₁, hr₂, hsame⟩
    exact fullReady_of_same hsent hfull hrandao hnothing hparent hopen hqueue hread hscript hr₁ hr₂
      hsame
  · exact same_of_fullReady hsent hfull hrandao hnothing hparent hopen hqueue hread hscript

end Main

end Sync

namespace Sample

/-- The row of the block with its blob, as validator 2 has committed it. -/
def committedRow : BlobMetadata :=
  ⟨1, BlobMetadata.genesis.computeBlobRoot oracles, [⟨1⟩], [7], [none], false,
    fromPayload oracles blobBlock (some 3), some 1, by decide, rfl, rfl,
    BlobMetadata.noRecords_index [⟨1⟩]⟩

/-- The header of its sidecars. -/
def committedHeader : SignedBeaconBlockHeader :=
  signHeader (config 2) ⟨1, 1, BlobMetadata.genesis.computeBlobRoot oracles, 0,
    computeBodyRoot oracles
      (fromUltramarineData oracles [⟨1⟩] (fromPayload oracles blobBlock (some 3)))⟩

theorem fullHeight_committed : FullHeight (config 1) (node 2 commitBlob).machine.disk
    blobCertificate blobValue ⟨[1, 0, 1, 1], []⟩ [1#8 ++ 9#248] ⟨2⟩ ⟨2⟩
    (BlobMetadata.genesis.computeBlobRoot oracles) committedRow := by
  have hfacts :
      (node 2 commitBlob).machine.disk.store.decidedBlockData[1]? = some ⟨[1, 0, 1, 1], []⟩ ∧
      (node 2 commitBlob).machine.disk.store.consensusBlockMetadata[1]? =
        some (consensusMetadata (config 1) blobCertificate
          (syncedProposal 1 (.some 0) ⟨2⟩ blobValue)) ∧
      resolveParentRootForHeight (config 1) (node 2 commitBlob).machine.disk 1 =
        .ok (BlobMetadata.genesis.computeBlobRoot oracles) ∧
      blockMetadata? 1 (BlobMetadata.genesis.computeBlobRoot oracles) [⟨1⟩]
        (((node 2 commitBlob).machine.disk.blobs.getDecidedBlobs 1).map (·.blobKeccak oracles))
        (fromPayload oracles blobBlock (some 3)) (some 1) = some committedRow ∧
      (node 2 commitBlob).machine.disk.store.blobMetadataDecided[1]? = some committedRow ∧
      (node 2 commitBlob).machine.disk.store.blobArchival = ∅ ∧
      ((node 2 commitBlob).machine.disk.blobs.getDecidedBlobs 1).length = 1 ∧
      verifyBlobSidecars (config 1) (node 2 commitBlob).machine.disk 1 ⟨2⟩ blobValue.metadata
        ((node 2 commitBlob).machine.disk.blobs.getDecidedBlobs 1) = .ok committedHeader ∧
      versionedHashesFromSidecars oracles
        ((node 2 commitBlob).machine.disk.blobs.getDecidedBlobs 1) = [1#8 ++ 9#248] := by
    decide +kernel
  obtain ⟨hdata, hconsensus, hroot, hbase, hrow, hrecords, hcount, hverified, hhashes⟩ := hfacts
  have hnotices : (node 2 commitBlob).machine.disk.store.loadArchiveNotices
      blobCertificate.height = [] := by
    unfold Store.loadArchiveNotices Store.archiveRecords
    rw [hrecords]
    rfl
  have hok := verifyBlobSidecars_eq_ok.1 hverified
  refine ⟨by decide, hdata, hconsensus, hroot, hbase, ?_, ?_, ?_, fun i => ?_, hcount.symm, .inr rfl,
    fun _ => ⟨committedHeader, hok.header_eq, hok.index_eq, fun _ => hok⟩, hhashes⟩
  · rw [hnotices]
    refine ⟨hrow, fun r hr => ?_⟩
    unfold Store.archiveRecords at hr
    rw [hrecords] at hr
    cases hr
  · rw [hnotices]
    exact ⟨List.nodup_nil, by simp, by simp, by simp, by simp, by simp⟩
  · rw [hnotices]
    simp
  · rw [hnotices, hrecords]
    rfl

/-- The node of validator 2 receives the block of validator 1 in round 0, restreams it in round 1,
and commits it there. -/
def commitRestreamed : List Label :=
  .start :: receive (stream 1 [0] 1 (.some 0) (payload 1 0 1 0)) ++
    [.handle (.restreamProposal 1 (.some 1) (.some 0) ⟨2⟩),
     .handle (.decided (certificate 1 (.some 1) (value (payload 1 0 1 0))) script)]

/-- The node of validator 1 is sent the height. -/
def syncRestreamed : List Label :=
  [.start, .handle (.processSyncedValue 1 (.some 1) ⟨2⟩ (sent commitRestreamed).transmit),
   .handle (.decided (certificate 1 (.some 1) (value (payload 1 0 1 0))) script)]

end Sample

open Sample in
/-- A node that has just started is sent the block with its blob, and has the height as validator 2
has it. -/
theorem full_sync_started :
    ∃ package v m₁ next m₂,
      getDecidedValue (node 2 commitBlob).machine.disk 1 = some (blobCertificate, package) ∧
      Returns (processSyncedPackage (config 1) 1 (.some 0) ⟨2⟩ package.transmit)
        (node 1 [.start]).machine (some v) m₁ ∧
      Returns (decided (config 1) blobCertificate script) m₁ (.start next) m₂ ∧
      Disk.SameAt 1 (node 2 commitBlob).machine.disk m₂.disk := by
  have hpeer : (node 2 commitBlob).machine.disk.store.decidedValues[1]? =
        some ⟨blobValue, blobCertificate⟩ ∧
      (node 2 commitBlob).machine.disk.store.loadBlockPayloadRecord ⟨1, .some 0⟩ =
        some ⟨[1, 0, 1, 1], []⟩ ∧
      (node 2 commitBlob).machine.disk.store.getBlobMetadata 0 = started.getBlobMetadata 0 ∧
      (node 2 commitBlob).machine.disk.store.loadArchiveNotices blobCertificate.height = [] := by
    decide +kernel
  obtain ⟨hvalue, hload, hgenesis, hnotices⟩ := hpeer
  have hnode : (node 1 [.start]).machine.disk = ⟨started, .empty⟩ ∧
      (node 1 [.start]).machine.mem.finalizedHeight < 1 ∧
      1 ∉ (node 1 [.start]).machine.mem.pendingPruneHeights ∧
      (realignedBlock (node 1 [.start]).machine.disk.store 1
        (node 1 [.start]).machine.mem.latestBlock).all (fun b => b.blockHash = 0) := by
    decide +kernel
  obtain ⟨hdisk, hopen, hqueue, hlink⟩ := hnode
  obtain ⟨package, hsent, hiff⟩ := @full_sync (config 1) (node 2 commitBlob).machine.disk
    blobCertificate blobValue ⟨[1, 0, 1, 1], []⟩ blobBlock [1#8 ++ 9#248] ⟨2⟩ ⟨2⟩ _ committedRow
    script .valid (node 1 [.start]).machine
    ⟨hvalue, by decide, by decide, hload, by decide, by decide, by decide +kernel,
      by decide +kernel, by decide +kernel, by decide⟩ fullHeight_committed (by decide +kernel)
    (hdisk ▸ nothingAt_one rfl rfl) (by rw [hdisk]; exact hgenesis.symm) hopen hqueue
    (by rw [hdisk]; exact started_readable) ⟨by decide +kernel, by decide, by decide +kernel⟩
  obtain ⟨v, m₁, next, m₂, hr₁, hr₂, hsame⟩ := hiff.2 ⟨rfl, fun _ => by
    rw [hnotices]
    decide, fun _ => hlink⟩
  exact ⟨package, v, m₁, next, m₂, hsent, hr₁, hr₂, hsame⟩

open Sample in
/-- **A height that was restreamed** is synced with another row than the sender has: both nodes have
decided the value, and the rows of the height differ. -/
theorem full_sync_restreamed :
    (Node.Reachable (config 2) (fun _ _ => True) (node 2 commitRestreamed) ∧
      (node 2 commitRestreamed).machine.disk.store.decidedValues[1]? =
        some ⟨value (payload 1 0 1 0), certificate 1 (.some 1) (value (payload 1 0 1 0))⟩) ∧
    (Node.Reachable (config 1) (fun _ _ => True) (node 1 syncRestreamed) ∧
      (node 1 syncRestreamed).machine.disk.store.decidedValues[1]? =
        some ⟨value (payload 1 0 1 0), certificate 1 (.some 1) (value (payload 1 0 1 0))⟩ ∧
      (node 1 syncRestreamed).machine.disk.store.blobMetadataDecided[1]? ≠
        (node 2 commitRestreamed).machine.disk.store.blobMetadataDecided[1]?) :=
  ⟨reached (by decide +kernel), reached (by decide +kernel)⟩

end Ultramarine
