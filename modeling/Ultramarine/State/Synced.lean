import Ultramarine.State.Notices

/-!
# What a synced package leaves behind

The big-step reading of `process_synced_package` at a height that the tables know nothing about. An
accepted package leaves its payload and its proposal under the slot, and the metadata row of the
height is decided at once, with the archive records of the package's notices (`Synced`).

Results:

* `returns_processSyncedMetadataOnly`: a `MetadataOnly` package with a payload stores no blobs;
* `returns_syncSidecars`: the sidecars of a `Full` package are promoted exactly if they verify;
* `returns_processSyncedFull`: a `Full` package whose sidecars verify leaves them decided.
-/

namespace Ultramarine

open Lib Ssz Prog

/-! ## Promoting the metadata of a package -/

/-- The store once a row is promoted at a height. -/
def Store.withRow (slot : Slot) (row : BlobMetadata) (s : Store) : Store :=
  (s.apply (.insertBlobMetadataUndecided slot row)).apply (.markBlobMetadataDecided slot)

section WithRow

variable {slot : Slot} {row : BlobMetadata} {s : Store}

/-- A free slot promotes the row it is given. -/
theorem Store.withRow_eq (hfree : s.blobMetadataUndecided[slot]? = none) :
    s.withRow slot row = { s with
      blobMetadataDecided := s.blobMetadataDecided.insert slot.height row
      latestHeight := some slot.height
      blobMetadataUndecided := (s.blobMetadataUndecided.insertIfNew slot row).erase slot } := by
  have hget : (s.blobMetadataUndecided.insertIfNew slot row)[slot]? = some row := by
    rw [Table.getElem?_insertIfNew_eq, if_pos rfl, hfree]
    rfl
  unfold Store.withRow
  simp only [Store.apply, hget]

theorem Store.withRow_metadata (hfree : s.blobMetadataUndecided[slot]? = none) (n : Height) :
    (s.withRow slot row).blobMetadataDecided[n]? =
      if slot.height = n then some row else s.blobMetadataDecided[n]? := by
  rw [Store.withRow_eq hfree]
  exact Table.getElem?_insert_eq _ _ _ _

theorem returns_promoteSyncedMetadata {cfg : Config} {m : Machine Disk Memory} :
    Returns (promoteSyncedMetadata cfg slot row) m ()
      ⟨⟨m.disk.store.withRow slot row, m.disk.blobs⟩,
        m.mem.withBlobRoot cfg slot.height row⟩ := by
  have hsome : ((m.disk.store.apply (.insertBlobMetadataUndecided slot row)).promotedRow
      slot).isSome := by
    have hget := (Table.getElem?_insertIfNew_eq m.disk.store.blobMetadataUndecided slot slot
      row).trans (if_pos rfl)
    exact congrArg Option.isSome (congrArg (fun x => x <|> _) hget)
  unfold promoteSyncedMetadata putBlobMetadataUndecided cacheBlobRoot
  refine returns_storeWrite_bind.2 ?_
  refine Returns.bind (a := ()) (returns_markBlobMetadataDecided.2 ⟨hsome, rfl⟩) ?_
  exact returns_modifyMem.2 rfl

end WithRow

/-! ## A synced slot -/

/-- What an accepted package leaves at its slot: payload, proposal, and the decided row with the
records of its notices. Other heights are as they were. -/
structure Synced (slot : Slot) (p : ProposedValue) (record : BlockPayloadRecord)
    (row : BlobMetadata) (notices : List ArchiveNotice) (m m' : Machine Disk Memory) : Prop where
  proposal : m'.disk.store.undecidedProposals[slot]? = some p
  undecidedData : m'.disk.store.undecidedBlockData[slot]? = some record
  blockData : m'.disk.store.decidedBlockData[slot.height]? = none
  undecidedRow : m'.disk.store.blobMetadataUndecided[slot]? = none
  hasRow : m'.disk.store.HasRow slot.height (row.archiveAll notices)
  records : ∀ i, m'.disk.store.blobArchival[BlobIndexKey.mk slot.height i]? =
    (notices.find? (·.body.blobIndex = i)).map ArchiveNotice.record
  others : ∀ n, n ≠ slot.height → Disk.SameAt n m.disk m'.disk
  executed : m'.mem.executedHeight = m.mem.executedHeight
  queued : (row.archiveAll notices).allArchived = true → 0 < row.blobCount → notices ≠ [] →
    slot.height ∈ m'.mem.pendingPruneHeights
  unqueued : (row.archiveAll notices).allArchived = false →
    slot.height ∉ m.mem.pendingPruneHeights → slot.height ∉ m'.mem.pendingPruneHeights

variable {m₁ : Machine Disk Memory} {proposer : Address} {sidecars : List BlobSidecar}
  {signedHeader : Option SignedBeaconBlockHeader}

section Synced

variable {cfg : Config} {slot : Slot} {p : ProposedValue} {record : BlockPayloadRecord}
  {row : BlobMetadata} {notices : List ArchiveNotice} {m m' : Machine Disk Memory}

theorem archivalStatus_lt {i : Nat} {r : ArchiveRecord} (h : row.archivalStatus i = some r) :
    i < row.blobCount := by
  have hget := Option.join_eq_some_iff.1 h
  have hlt := (List.getElem?_eq_some_iff.1 hget).1
  rwa [row.records_length] at hlt

/-- A synced store is readable if it was before. -/
theorem Synced.readable (hs : Synced slot p record row notices m m')
    (hread : m.disk.store.Readable) : m'.disk.store.Readable := by
  intro n row' hrow' r hr
  by_cases hn : n = slot.height
  · subst hn
    cases hrow'.symm.trans hs.hasRow.stored
    exact archivalStatus_lt (hs.hasRow.records r hr)
  · rw [(hs.others n hn).metadata] at hrow'
    rw [(hs.others n hn).archiveRecords] at hr
    exact hread n row' hrow' r hr

/-- The store of a package before its notices: payload and row. -/
def Store.syncedTables (slot : Slot) (record : BlockPayloadRecord) (row : BlobMetadata)
    (s : Store) : Store :=
  (s.apply (.insertUndecidedBlockData slot record)).withRow slot row

/-- The tables of a package at a height without rows. -/
theorem Store.NothingAt.syncedTables_eq {s : Store} (hnothing : s.NothingAt slot.height) :
    s.syncedTables slot record row = { s with
      undecidedBlockData := s.undecidedBlockData.insertIfNew slot record
      blobMetadataDecided := s.blobMetadataDecided.insert slot.height row
      latestHeight := some slot.height
      blobMetadataUndecided := (s.blobMetadataUndecided.insertIfNew slot row).erase slot } :=
  Store.withRow_eq (s := s.apply (.insertUndecidedBlockData slot record))
    (hnothing.undecidedRow slot.round)

/-- The row of a height that had no records has them all. -/
theorem Store.NothingAt.hasRow_syncedTables {s : Store} (hnothing : s.NothingAt slot.height) :
    (s.syncedTables slot record row).HasRow slot.height row := by
  rw [hnothing.syncedTables_eq]
  refine ⟨(Table.getElem?_insert_eq _ _ _ _).trans (if_pos rfl), fun r hr => ?_⟩
  obtain ⟨i, hget⟩ := Store.mem_archiveRecords.1 hr
  exact absurd (hget.symm.trans (hnothing.records i)) (by simp)

/-- The machine of a package: its tables are synced, its notices are recorded, and the proposal is
stored before or after that. -/
theorem synced_of_notices {m₀ m' : Machine Disk Memory} {t t' : Table Slot ProposedValue}
    (hnothing : m.disk.store.NothingAt slot.height)
    (hstore : m₀.disk.store = { m.disk.store.syncedTables slot record row with undecidedProposals := t })
    (hblobs : ∀ n i, n ≠ slot.height → m₀.disk.blobs.decided[BlobIndexKey.mk n i]? = m.disk.blobs.decided[BlobIndexKey.mk n i]?)
    (hexecuted : m₀.mem.executedHeight = m.mem.executedHeight)
    (hqueue : m₀.mem.pendingPruneHeights = m.mem.pendingPruneHeights)
    (hdone : NoticesDone slot.height row notices m₀ m₁)
    (hstore' : m'.disk.store = { m₁.disk.store with undecidedProposals := t' })
    (hblobs' : m'.disk.blobs = m₁.disk.blobs) (hmem' : m'.mem = m₁.mem) (hp : t'[slot]? = some p) :
    Synced slot p record row notices m m' := by
  rw [hnothing.syncedTables_eq] at hstore
  have hstore₁ := hdone.archived.store
  rw [hstore] at hstore₁
  refine ⟨?_, ?_, ?_, ?_, ?_, fun i => ?_, fun n hn => ?_, ?_, ?_, ?_⟩
  · rw [hstore']
    exact hp
  · rw [hstore', hstore₁]
    refine (Table.getElem?_insertIfNew_eq _ _ _ _).trans ?_
    rw [if_pos rfl, hnothing.undecidedData]
    rfl
  · rw [hstore', hstore₁]
    exact hnothing.blockData
  · rw [hstore', hstore₁]
    exact (Table.getElem?_erase_eq _ _ _).trans (if_pos rfl)
  · refine hdone.hasRow.congr ?_ ?_ <;> rw [hstore']
  · have hnone : m₀.disk.store.blobArchival[BlobIndexKey.mk slot.height i]? = none := by
      rw [hstore]
      exact hnothing.records i
    have hrecords : m'.disk.store.blobArchival = m₁.disk.store.blobArchival := by rw [hstore']
    rw [hrecords, hdone.records i, hnone]
    cases (notices.find? (·.body.blobIndex = i)).map ArchiveNotice.record <;> rfl
  · -- the tables of other heights: neither the package nor its notices touch them
    have hrest := hdone.archived.sameAt hn
    have hbefore : Disk.SameAt n m.disk m₀.disk := by
      refine ⟨?_, ?_, ?_, ?_, fun i => ?_, fun i => hblobs n i hn⟩ <;> rw [hstore]
      exact (Table.getElem?_insert_eq _ _ _ _).trans (if_neg hn.symm)
    refine (hbefore.trans hrest).trans ⟨?_, ?_, ?_, ?_, fun i => ?_, fun i => ?_⟩
    all_goals first | rw [hstore'] | rw [hblobs']
  · obtain ⟨_, _, hmem⟩ := hdone.mem
    rw [hmem', hmem, ← hexecuted]
  · rw [hmem']
    exact hdone.queued
  · intro hpartial hnot
    rw [hmem']
    refine hdone.unqueued hpartial ?_
    rw [hqueue]
    exact hnot

/-! ## A `MetadataOnly` package -/

/-- **An accepted `MetadataOnly` package** leaves no blobs, and moves `latest_block` forward. -/
theorem returns_processSyncedMetadataOnly {proposer : Address} {value : Value} {bytes : Bytes}
    {requests : List Bytes} {root : B256}
    (hnothing : m.disk.store.NothingAt slot.height)
    (hrequests : validateExecutionRequests requests = .ok ())
    (hroot : resolveParentRootForHeight cfg m.disk slot.height = .ok root)
    (hrow : blockMetadata? slot.height root value.metadata.blobKzgCommitments
      (noticeKeccaks value.metadata.blobKzgCommitments.length notices)
      value.metadata.executionPayloadHeader (cfg.validatorIndex proposer) = some row)
    (hfit : NoticesFit cfg slot.height row notices) (hopen : m.mem.finalizedHeight < slot.height)
    (hround : slot.round ≠ .nil) :
    ∃ m', Returns (processSyncedMetadataOnly cfg slot.height slot.round proposer value notices
        (some bytes) requests) m (some (syncedProposal slot.height slot.round proposer value)) m' ∧
      Synced slot (syncedProposal slot.height slot.round proposer value) ⟨bytes, requests⟩ row
        notices m m' ∧
      m'.disk.blobs = m.disk.blobs ∧
      m'.mem.latestBlock = advanceLatestBlock
        (executionBlockOfHeader value.metadata.executionPayloadHeader) m.mem.latestBlock := by
  let m₀ : Machine Disk Memory :=
    ⟨⟨m.disk.store.syncedTables slot ⟨bytes, requests⟩ row, m.disk.blobs⟩,
      { m.mem.withBlobRoot cfg slot.height row with
        latestBlock := advanceLatestBlock
          (executionBlockOfHeader value.metadata.executionPayloadHeader) m.mem.latestBlock }⟩
  obtain ⟨m₁, hnotices, hdone⟩ := returns_handleArchiveNotices (m := m₀) hfit
    hnothing.hasRow_syncedTables hopen
  have hstore₀ : m₀.disk.store = { m.disk.store.syncedTables slot ⟨bytes, requests⟩ row with
      undecidedProposals := m.disk.store.undecidedProposals } := by
    show m.disk.store.syncedTables slot ⟨bytes, requests⟩ row = _
    rw [hnothing.syncedTables_eq]
  have hproposals : m₁.disk.store.undecidedProposals = m.disk.store.undecidedProposals := by
    rw [hdone.archived.store, hstore₀]
  have hinsert : (m₁.disk.store.undecidedProposals.insertIfNew slot
      (syncedProposal slot.height slot.round proposer value))[slot]? =
        some (syncedProposal slot.height slot.round proposer value) := by
    rw [Table.getElem?_insertIfNew_eq, if_pos rfl, hproposals, hnothing.proposal]
    rfl
  refine ⟨afterStore m₁ (.insertUndecidedProposal (syncedProposal slot.height slot.round proposer
    value)), ?_, ?_, hdone.archived.blobs, ?_⟩
  · unfold processSyncedMetadataOnly storeSyncedBlockData storeUndecidedBlockData
      storeUndecidedProposal
    simp only [bind_assoc]
    refine returns_ofExit_bind.2 ⟨(), hrequests, returns_storeWrite_bind.2 ?_⟩
    rw [returns_getDisk_bind]
    have hroot' : resolveParentRootForHeight cfg (afterStore m (.insertUndecidedBlockData slot
      ⟨bytes, requests⟩)).disk slot.height = .ok root := hroot
    rw [hroot']
    refine returns_ofExit_bind.2 ⟨row, Exit.orPanic_eq_ok.2 hrow, ?_⟩
    refine Returns.bind (a := ()) returns_promoteSyncedMetadata (returns_modifyMem_bind.2 ?_)
    refine hnotices.bind (returns_ofExit_bind.2 ⟨(), Exit.ensure_eq_ok.2 hround, ?_⟩)
    exact returns_storeWrite_bind.2 (returns_pure.2 ⟨rfl, rfl⟩)
  · exact synced_of_notices hnothing hstore₀ (fun _ _ _ => rfl) rfl rfl hdone rfl rfl rfl hinsert
  · obtain ⟨_, _, hmem⟩ := hdone.mem
    exact congrArg Memory.latestBlock hmem

/-! ## A `Full` package -/

/-- The blobs once the sidecars of a package are stored and promoted. -/
def BlobStore.synced (slot : Slot) (sidecars : List BlobSidecar) (b : BlobStore) : BlobStore :=
  (b.putAll slot.height slot.round.asI64 sidecars).promote slot.height slot.round.asI64

/-- A rejection ends in `none`, whatever it cleans up first. -/
theorem not_returns_rejected {α : Type} {p : Act Unit} {a : α} :
    ¬ Returns (do p; pure none) m (some a) m' := by
  intro hr
  obtain ⟨_, _, _, hr⟩ := returns_bind.1 hr
  cases (returns_pure.1 hr).1

/-- **The sidecars of a package are promoted** exactly if they verify. -/
theorem returns_syncSidecars {proposer : Address} {metadata : ValueMetadata}
    {sidecars : List BlobSidecar} {signedHeader : SignedBeaconBlockHeader} :
    Returns (syncSidecars cfg slot.height slot.round proposer metadata sidecars) m
        (some signedHeader) m' ↔
      kzgOk cfg sidecars ∧ (sidecars.map (·.index)).Nodup ∧
        SidecarsOk cfg m.disk slot.height proposer metadata sidecars signedHeader ∧
        m' = ⟨⟨m.disk.store, m.disk.blobs.synced slot sidecars⟩, m.mem⟩ := by
  unfold syncSidecars
  rw [returns_bind]
  constructor
  · rintro ⟨r, m₁, hattempt, hr⟩
    rcases returns_attempt.1 hattempt with ⟨_, rfl, hverify⟩ | ⟨e, rfl, _⟩
    swap
    · cases (returns_pure.1 hr).1
    obtain ⟨hkzg, rfl⟩ := returns_verifyAndStore.1 hverify
    dsimp only at hr
    split at hr
    · exact absurd hr not_returns_rejected
    split at hr
    · exact absurd hr not_returns_rejected
    rename_i hnodup
    split at hr
    · obtain ⟨_, _, _, hr⟩ := returns_bind.1 hr
      exact absurd hr not_returns_rejected
    rw [returns_getDisk_bind] at hr
    split at hr
    · rename_i signedHeader' hok
      obtain ⟨_, m₂, hpromote, hr⟩ := returns_bind.1 hr
      obtain ⟨heq, rfl⟩ := returns_pure.1 hr
      cases heq
      rw [returns_markDecided] at hpromote
      exact ⟨hkzg, not_not.1 hnodup, (verifyBlobSidecars_eq_ok.1 hok).congr rfl, hpromote⟩
    · exact absurd hr not_returns_rejected
  · rintro ⟨hkzg, hnodup, hok, rfl⟩
    refine ⟨.ok (), _, returns_attempt.2 (.inl ⟨(), rfl, returns_verifyAndStore.2 ⟨hkzg, rfl⟩⟩), ?_⟩
    dsimp only
    rw [if_neg (not_not.2 hok.count_eq), if_neg (not_not.2 hnodup),
      if_neg (not_not.2 hok.commitment_eq), returns_getDisk_bind]
    have hok' : SidecarsOk cfg ⟨m.disk.store, m.disk.blobs.putAll slot.height slot.round.asI64
      sidecars⟩ slot.height proposer metadata sidecars signedHeader := hok.congr rfl
    rw [verifyBlobSidecars_eq_ok.2 hok']
    exact Returns.bind (a := ()) (returns_markDecided.2 rfl) (returns_pure.2 ⟨rfl, rfl⟩)

/-- The row of an accepted `Full` package. -/
structure FullRow (cfg : Config) (d : Disk) (slot : Slot) (proposer : Address) (value : Value)
    (sidecars : List BlobSidecar) (root : B256) (row : BlobMetadata) : Prop where
  parent_eq : resolveParentRootForHeight cfg d slot.height = .ok root
  row_eq : blockMetadata? slot.height root value.metadata.blobKzgCommitments
    (sidecars.map (·.blobKeccak cfg.oracles)) value.metadata.executionPayloadHeader
    (cfg.validatorIndex proposer) = some row

/-- Once its sidecars are promoted, only the round of a package can still be wrong. -/
theorem acceptFull_inversion {value : Value} {v : ProposedValue}
    (hr : Returns (acceptFull cfg slot.height slot.round proposer value sidecars notices signedHeader) m (some v) m') :
    slot.round ≠ .nil ∧ v = syncedProposal slot.height slot.round proposer value ∧
      ∃ root row, FullRow cfg m.disk slot proposer value sidecars root row := by
  unfold acceptFull at hr
  rw [returns_getDisk_bind] at hr
  split at hr
  · rename_i root hroot
    split at hr
    · obtain ⟨_, _, _, hr⟩ := returns_bind.1 hr
      exact absurd hr not_returns_rejected
    · obtain ⟨row, hrow, hr⟩ := returns_ofExit_bind.1 hr
      obtain ⟨_, _, _, hr⟩ := returns_bind.1 hr
      unfold storeUndecidedProposal at hr
      simp only [bind_assoc, returns_ofExit_bind, Exit.ensure_eq_ok, exists_const] at hr
      obtain ⟨hround, hr⟩ := hr
      have hr := returns_storeWrite_bind.1 hr
      obtain ⟨_, _, _, hr⟩ := returns_bind.1 hr
      obtain ⟨heq, _⟩ := returns_pure.1 hr
      exact ⟨hround, (Option.some.inj heq).symm, root, row, hroot, Exit.orPanic_eq_ok.1 hrow⟩
  · cases (returns_pure.1 hr).1

/-- **What an accepted `Full` package has passed**: the requests, the parent, and the sidecars, if
there are any. -/
theorem processSyncedFull_inversion {proposer : Address} {value : Value} {bytes : Bytes}
    {sidecars : List BlobSidecar} {requests : List Bytes} {v : ProposedValue}
    (hr : Returns (processSyncedFull cfg slot.height slot.round proposer value bytes sidecars
      requests notices) m (some v) m') :
    validateExecutionRequests requests = .ok () ∧ slot.round ≠ .nil ∧
      v = syncedProposal slot.height slot.round proposer value ∧
      (∃ root row, FullRow cfg m.disk slot proposer value sidecars root row) ∧
      (sidecars ≠ [] → kzgOk cfg sidecars ∧ (sidecars.map (·.index)).Nodup ∧
        ∃ signedHeader,
          SidecarsOk cfg m.disk slot.height proposer value.metadata sidecars signedHeader) := by
  unfold processSyncedFull storeSyncedBlockData storeUndecidedBlockData at hr
  simp only [bind_assoc] at hr
  obtain ⟨_, hrequests, hr⟩ := returns_ofExit_bind.1 hr
  have hr := returns_storeWrite_bind.1 hr
  split at hr
  · rename_i hnil
    obtain ⟨hround, hv, root, row, hrow⟩ := acceptFull_inversion hr
    exact ⟨hrequests, hround, hv, ⟨root, row, hrow.1, hrow.2⟩, fun hne => absurd hnil hne⟩
  · obtain ⟨answer, m₁, hsidecars, hr⟩ := returns_bind.1 hr
    cases answer with
    | none => cases (returns_pure.1 hr).1
    | some signedHeader =>
      obtain ⟨hkzg, hnodup, hok, rfl⟩ := returns_syncSidecars.1 hsidecars
      obtain ⟨hround, hv, root, row, hrow⟩ := acceptFull_inversion hr
      exact ⟨hrequests, hround, hv, ⟨root, row, hrow.1, hrow.2⟩,
        fun _ => ⟨hkzg, hnodup, signedHeader, hok.congr rfl⟩⟩

theorem BlobStore.synced_nil {b : BlobStore}
    (hundecided : ∀ r i, b.undecided[BlobKey.mk slot.height r i]? = none) :
    b.synced slot [] = b := by
  have hnone : b.NoUndecided slot.height := by
    rintro ⟨_, r, i⟩ s hs rfl
    rw [hundecided] at hs
    cases hs
  exact BlobStore.promote_of_none hnone

/-- Sidecars that are stored at a height without blobs are its decided blobs once promoted. -/
theorem getDecidedBlobs_synced {sidecars : List BlobSidecar} {b : BlobStore}
    (hundecided : ∀ r i, b.undecided[BlobKey.mk slot.height r i]? = none)
    (hdecided : ∀ i, b.decided[BlobIndexKey.mk slot.height i]? = none)
    (hsorted : BlobStore.IndexSorted sidecars) :
    (b.synced slot sidecars).getDecidedBlobs slot.height = sidecars ∧
      (b.synced slot sidecars).NoUndecided slot.height := by
  have hround := BlobStore.getUndecidedBlobs_putAll_of_sorted hsorted
    (hundecided slot.round.asI64)
  have hput : ∀ (k : BlobKey) (s : BlobSidecar),
      (b.putAll slot.height slot.round.asI64 sidecars).undecided[k]? = some s →
        k.height = slot.height → k.round = slot.round.asI64 := by
    rintro ⟨_, r, i⟩ s hs rfl
    rw [BlobStore.undecided_putAll, hundecided] at hs
    by_contra hne
    simp [hne] at hs
  refine ⟨?_, BlobStore.noUndecided_promote hput⟩
  by_cases hnil : sidecars = []
  · subst hnil
    rw [BlobStore.synced_nil hundecided]
    exact BlobStore.getDecidedBlobs_eq b List.Pairwise.nil fun s => by simp [hdecided]
  · unfold BlobStore.synced
    rw [BlobStore.getDecidedBlobs_promote (by rw [hround]; exact hnil) fun i hi => ?_, hround]
    rw [BlobStore.decided_putAll, hdecided] at hi
    cases hi

/-- The rest of a package whose sidecars are promoted. -/
theorem returns_acceptFull {value : Value} {root : B256}
    (hrow : FullRow cfg m.disk slot proposer value sidecars root row)
    (hsigned : ∀ h ∈ signedHeader, h.message.parentRoot = root) (hround : slot.round ≠ .nil)
    (hnotices : Returns (handleArchiveNotices cfg notices) (afterStore ⟨⟨m.disk.store.withRow slot row, m.disk.blobs⟩, m.mem.withBlobRoot cfg slot.height row⟩ (.insertUndecidedProposal (syncedProposal slot.height slot.round proposer value))) () m₁) :
    Returns (acceptFull cfg slot.height slot.round proposer value sidecars notices signedHeader) m
      (some (syncedProposal slot.height slot.round proposer value)) m₁ := by
  have hmatch : ¬ (signedHeader.any (fun h => h.message.parentRoot ≠ root) = true) := by
    cases signedHeader with
    | none => simp
    | some h => simpa using hsigned h rfl
  unfold acceptFull storeUndecidedProposal
  rw [returns_getDisk_bind, hrow.parent_eq]
  dsimp only
  rw [if_neg hmatch]
  refine returns_ofExit_bind.2 ⟨row, Exit.orPanic_eq_ok.2 hrow.row_eq, ?_⟩
  refine Returns.bind (a := ()) returns_promoteSyncedMetadata ?_
  simp only [bind_assoc]
  refine returns_ofExit_bind.2 ⟨(), Exit.ensure_eq_ok.2 hround, returns_storeWrite_bind.2 ?_⟩
  exact hnotices.bind (returns_pure.2 ⟨rfl, rfl⟩)

/-- **An accepted `Full` package** leaves its sidecars decided, and `latest_block` where it was. -/
theorem returns_processSyncedFull {proposer : Address} {value : Value} {bytes : Bytes}
    {sidecars : List BlobSidecar} {requests : List Bytes} {root : B256}
    (hnothing : m.disk.NothingAt slot.height)
    (hrequests : validateExecutionRequests requests = .ok ())
    (hrow : FullRow cfg m.disk slot proposer value sidecars root row)
    (hsidecars : sidecars ≠ [] → kzgOk cfg sidecars ∧ ∃ signedHeader,
      SidecarsOk cfg m.disk slot.height proposer value.metadata sidecars signedHeader)
    (hsorted : BlobStore.IndexSorted sidecars) (hfit : NoticesFit cfg slot.height row notices)
    (hopen : m.mem.finalizedHeight < slot.height) (hround : slot.round ≠ .nil) :
    ∃ m', Returns (processSyncedFull cfg slot.height slot.round proposer value bytes sidecars
        requests notices) m (some (syncedProposal slot.height slot.round proposer value)) m' ∧
      Synced slot (syncedProposal slot.height slot.round proposer value) ⟨bytes, requests⟩ row
        notices m m' ∧
      m'.disk.blobs = m.disk.blobs.synced slot sidecars ∧
      m'.mem.latestBlock = m.mem.latestBlock ∧
      (notices = [] → m'.mem.pendingPruneHeights = m.mem.pendingPruneHeights) := by
  let p := syncedProposal slot.height slot.round proposer value
  let m₀ : Machine Disk Memory := afterStore
    ⟨⟨m.disk.store.syncedTables slot ⟨bytes, requests⟩ row, m.disk.blobs.synced slot sidecars⟩,
      m.mem.withBlobRoot cfg slot.height row⟩ (.insertUndecidedProposal p)
  have hhas : m₀.disk.store.HasRow slot.height row :=
    hnothing.store.hasRow_syncedTables.congr rfl rfl
  obtain ⟨m₁, hnotices, hdone⟩ := returns_handleArchiveNotices (m := m₀) hfit hhas hopen
  have hstore₀ : m₀.disk.store = { m.disk.store.syncedTables slot ⟨bytes, requests⟩ row with
      undecidedProposals := m.disk.store.undecidedProposals.insertIfNew slot p } := by
    show (m.disk.store.syncedTables slot ⟨bytes, requests⟩ row).apply
      (.insertUndecidedProposal p) = _
    rw [hnothing.store.syncedTables_eq]
    rfl
  have hproposals : m₁.disk.store.undecidedProposals =
      m.disk.store.undecidedProposals.insertIfNew slot p := by
    rw [hdone.archived.store, hstore₀]
  have hinsert : (m.disk.store.undecidedProposals.insertIfNew slot p)[slot]? = some p := by
    rw [Table.getElem?_insertIfNew_eq, if_pos rfl, hnothing.store.proposal]
    rfl
  refine ⟨m₁, ?_, ?_, hdone.archived.blobs, ?_, fun hnil => ?_⟩
  · unfold processSyncedFull storeSyncedBlockData storeUndecidedBlockData
    simp only [bind_assoc]
    refine returns_ofExit_bind.2 ⟨(), hrequests, returns_storeWrite_bind.2 ?_⟩
    split
    · rename_i hnil
      subst hnil
      refine returns_acceptFull ⟨hrow.1, hrow.2⟩ (fun _ h => by cases h) hround ?_
      show Returns _ (afterStore ⟨⟨_, m.disk.blobs⟩, _⟩ _) () m₁
      rw [← BlobStore.synced_nil hnothing.undecided]
      exact hnotices
    · rename_i hne
      obtain ⟨hkzg, signedHeader, hok⟩ := hsidecars hne
      have hnodup : (sidecars.map (·.index)).Nodup :=
        List.pairwise_map.2 (hsorted.imp fun h => h.ne)
      refine Returns.bind (a := some signedHeader)
        (returns_syncSidecars.2 ⟨hkzg, hnodup, hok.congr rfl, rfl⟩) ?_
      refine returns_acceptFull ⟨hrow.1, hrow.2⟩ (fun h hh => ?_) hround hnotices
      cases hh
      exact Exit.ok.inj (hok.parentRoot_eq.symm.trans hrow.parent_eq)
  · exact synced_of_notices hnothing.store hstore₀
      (fun n i hn => (BlobStore.decided_promote_of_ne _ hn).trans (by rw [BlobStore.decided_putAll]))
      rfl rfl hdone (by rw [← hproposals]) rfl rfl hinsert
  · obtain ⟨_, _, hmem⟩ := hdone.mem
    rw [hmem]
    rfl
  · subst hnil
    cases returns_forEach_nil.1 hnotices
    rfl

end Synced

end Ultramarine
