import Ultramarine.Lib.Moves
import Ultramarine.State.Node

/-!
# Archive notices and pruning

`handle_archive_notice`, `prune_archived_height` and `flush_pending_prunes` of
`consensus/src/state.rs`. A notice adds an archive record to the decided metadata of its height;
once every blob of a finalized height has a record, its blobs are deleted and the metadata is
marked pruned. `build_archive_job` says what is left to upload.

Results:

* `checkArchiveNotice_eq_some`: what a notice that is recorded has passed;
* `handleArchiveNotice_archives`, `flushPendingPrunes_prunes`: every write of archiving is one of
  `ArchiveEffect`, with what holds when it is made, and its changes of the memory are set aside.
-/

namespace Ultramarine

open Lib Prog

/-- Every blob of the height has an archive record. -/
def BlobMetadata.allArchived (m : BlobMetadata) : Bool :=
  (List.range m.blobCount).all fun i => (m.archivalStatus i).isSome

/-- The locators of the archived blobs, by index. -/
def BlobMetadata.locators (m : BlobMetadata) : List String :=
  (List.range m.blobCount).filterMap fun i => (m.archivalStatus i).map fun r => r.body.locator

/-- The greatest height known to be decided. -/
def Memory.finalizedHeight (mem : Memory) : Height :=
  max (mem.currentHeight - 1) mem.latestFinalizedHeight

/-- `State::is_height_finalized` -/
def Memory.isHeightFinalized (mem : Memory) (height : Height) : Bool :=
  height ≤ mem.finalizedHeight

/-- `State::proposer_address_for_height`: by the hint, else from the consensus metadata. -/
def proposerAddressForHeight (cfg : Config) (s : Store) (height : Height) (hint : Option Nat) :
    Option Address :=
  match hint.bind fun i => cfg.validators.validators[i]? with
  | some v => some v.address
  | none => (s.consensusBlockMetadata[height]?).map (·.proposer)

/-- `State::prune_archived_height` -/
def pruneArchivedHeight (height : Height) (metadata : BlobMetadata) : Act Unit := do
  if metadata.pruned ∨ metadata.blobCount = 0 then pure ()
  else
    markArchived height (List.range metadata.blobCount)
    storeWrite (.updateBlobMetadata height metadata.markPruned)
    Prog.modifyMem fun mem =>
      { mem with
        pendingArchiveHeights := mem.pendingArchiveHeights.erase height
        pendingPruneHeights := mem.pendingPruneHeights.erase height }

/-- The checks of `handle_archive_notice`. Returns the metadata to record the notice in, with a
keccak placeholder filled, or `none` if the same record is there already. -/
def checkArchiveNotice (cfg : Config) (s : Store) (notice : ArchiveNotice) :
    Exit Err (Option BlobMetadata) := do
  let height := notice.body.height
  let index := notice.body.blobIndex
  let validator ← Exit.ofOption .unknownArchiver (cfg.validators.getByAddress notice.body.archivedBy)
  Exit.ensure (notice.verify cfg.oracles validator.publicKey) .noticeSignature
  let metadata ← s.getBlobMetadata height
  let metadata ← Exit.ofOption (.missingNoticeMetadata height) metadata
  Exit.ensure (index < metadata.blobCount) (.indexOutOfRange index)
  Exit.ensure ((proposerAddressForHeight cfg s height metadata.proposerIndexHint).all
    (notice.body.archivedBy = ·)) .notProposer
  Exit.ensure (metadata.blobKzgCommitments[index]? = some notice.body.kzgCommitment)
    (.commitmentMismatch index)
  let stored := metadata.blobKeccakHashes[index]?
  Exit.ensure (stored = some 0 ∨ stored = some notice.body.blobKeccak) .noticeHashMismatch
  let metadata := metadata.updateKeccakHash index notice.body.blobKeccak
  match metadata.archivalStatus index with
  | none => pure (some metadata)
  | some existing => do
    Exit.ensure (existing.body.providerId = notice.body.providerId ∧
      existing.body.locator = notice.body.locator ∧
      existing.body.blobKeccak = notice.body.blobKeccak) .conflictingNotice
    pure none

/-- What `handle_archive_notice` does once the record is stored: prune a finalized height that is
archived as a whole, or remember to. -/
def finishArchive (height : Height) (metadata : BlobMetadata) : Act Unit := do
  if metadata.allArchived ∧ 0 < metadata.blobCount then
    Prog.modifyMem fun mem =>
      { mem with pendingArchiveHeights := mem.pendingArchiveHeights.erase height }
    let mem ← getMem
    if mem.isHeightFinalized height then pruneArchivedHeight height metadata
    else
      Prog.modifyMem fun mem =>
        { mem with pendingPruneHeights := mem.pendingPruneHeights.insert height () }
  else pure ()

/-- `State::handle_archive_notice`. A row keeps the wire form of the record's round. -/
def handleArchiveNotice (cfg : Config) (notice : ArchiveNotice) : Act Unit := do
  let d ← getDisk
  match ← Prog.ofExit (checkArchiveNotice cfg d.store notice) with
  | none => pure ()
  | some metadata =>
    let record := ArchiveRecord.fromNotice notice.transmit
    storeWrite (.insertArchiveRecord notice.body.height notice.body.blobIndex record)
    let metadata ← Prog.ofExit (Exit.orPanic (metadata.setArchiveRecord? record))
    storeWrite (.updateBlobMetadata notice.body.height metadata)
    finishArchive notice.body.height metadata

theorem checkArchiveNotice_ne_panic (cfg : Config) (s : Store) (notice : ArchiveNotice) :
    checkArchiveNotice cfg s notice ≠ .panic := by
  unfold checkArchiveNotice
  simp only [ne_eq, Exit.bind_eq_panic, Exit.ofOption_ne_panic, Exit.ensure_ne_panic,
    Store.getBlobMetadata_ne_panic, false_or, not_exists, not_and]
  intro _ _ _ _ metadata _ metadata' _ _ _ _ _ _ _ _ _
  split <;> simp [Exit.bind_eq_panic]

/-- What a notice that is recorded has passed; `metadata` is the row it is checked against. -/
structure ArchiveNotice.Checked (cfg : Config) (s : Store) (notice : ArchiveNotice)
    (metadata : BlobMetadata) : Prop where
  signed : ∃ v, cfg.validators.getByAddress notice.body.archivedBy = some v ∧
    notice.verify cfg.oracles v.publicKey = true
  metadata_eq : s.getBlobMetadata notice.body.height = .ok (some metadata)
  index_lt : notice.body.blobIndex < metadata.blobCount
  proposer : (proposerAddressForHeight cfg s notice.body.height metadata.proposerIndexHint).all
    (notice.body.archivedBy = ·) = true
  commitment : metadata.blobKzgCommitments[notice.body.blobIndex]? = some notice.body.kzgCommitment
  keccak : metadata.blobKeccakHashes[notice.body.blobIndex]? = some 0 ∨
    metadata.blobKeccakHashes[notice.body.blobIndex]? = some notice.body.blobKeccak
  unarchived : metadata.archivalStatus notice.body.blobIndex = none

section Checked

variable {cfg : Config} {s : Store} {notice : ArchiveNotice} {row : BlobMetadata}

/-- **When a notice is recorded**, and in which row. -/
theorem checkArchiveNotice_eq_some :
    checkArchiveNotice cfg s notice = .ok (some row) ↔
      ∃ metadata, notice.Checked cfg s metadata ∧
        row = metadata.updateKeccakHash notice.body.blobIndex notice.body.blobKeccak := by
  unfold checkArchiveNotice
  simp only [Exit.bind_eq_ok, Exit.ofOption_eq_ok, Exit.ensure_eq_ok, exists_const,
    BlobMetadata.archivalStatus_updateKeccakHash]
  constructor
  · rintro ⟨v, hv, hsigned, _, hget, metadata, rfl, hindex, hproposer, hcommitment, hkeccak, h⟩
    refine ⟨metadata, ?_⟩
    cases hstatus : metadata.archivalStatus notice.body.blobIndex with
    | none =>
      rw [hstatus] at h
      cases h
      exact ⟨⟨⟨v, hv, hsigned⟩, hget, hindex, hproposer, hcommitment, hkeccak, hstatus⟩, rfl⟩
    | some existing =>
      rw [hstatus] at h
      simp [Exit.bind_eq_ok] at h
  · rintro ⟨metadata, ⟨⟨v, hv, hsigned⟩, hget, hindex, hproposer, hcommitment, hkeccak, hstatus⟩,
      rfl⟩
    refine ⟨v, hv, hsigned, _, hget, metadata, rfl, hindex, hproposer, hcommitment, hkeccak, ?_⟩
    rw [hstatus]
    rfl

/-- A notice that passes its checks is for a blob of the row. -/
theorem checkArchiveNotice_recordable (h : checkArchiveNotice cfg s notice = .ok (some row)) :
    row.setArchiveRecord? (.fromNotice notice.transmit) ≠ none := by
  obtain ⟨metadata, hchecked, rfl⟩ := checkArchiveNotice_eq_some.1 h
  have hlen : (ArchiveRecord.fromNotice notice.transmit).body.blobIndex < (metadata.updateKeccakHash
      notice.body.blobIndex notice.body.blobKeccak).archivalRecords.length := by
    rw [BlobMetadata.records_length]
    exact lt_of_lt_of_eq hchecked.index_lt
      (BlobMetadata.blobCount_of_core (metadata.core_updateKeccakHash _ _)).symm
  unfold BlobMetadata.setArchiveRecord?
  rw [if_pos hlen]
  simp

end Checked

theorem total_pruneArchivedHeight (height : Height) (metadata : BlobMetadata) :
    Prog.Total (pruneArchivedHeight height metadata) := by
  unfold pruneArchivedHeight
  split
  · exact .pure _
  · exact (Prog.Total.writeAll _).bind fun _ => (total_storeWrite _).bind fun _ => .modifyMem _

theorem total_finishArchive (height : Height) (metadata : BlobMetadata) :
    Prog.Total (finishArchive height metadata) := by
  unfold finishArchive
  split
  · refine (Prog.Total.modifyMem _).bind fun _ => total_getMem.bind fun _ => ?_
    split
    · exact total_pruneArchivedHeight height metadata
    · exact .modifyMem _
  · exact .pure _

/-- **A notice is recorded or refused**, whatever it says. -/
theorem handleArchiveNotice_calm (cfg : Config) (notice : ArchiveNotice) :
    Prog.Calm (handleArchiveNotice cfg notice) := by
  intro m hpanic
  unfold handleArchiveNotice at hpanic
  rw [panics_getDisk_bind, Prog.panics_ofExit_bind] at hpanic
  rcases hpanic with hpanic | ⟨checked, hcheck, hpanic⟩
  · exact checkArchiveNotice_ne_panic _ _ _ hpanic
  · cases checked with
    | none => cases hpanic
    | some metadata =>
      rw [panics_storeWrite_bind, Prog.panics_ofExit_bind, Exit.orPanic_eq_panic] at hpanic
      rcases hpanic with hpanic | ⟨metadata', _, hpanic⟩
      · exact checkArchiveNotice_recordable hcheck hpanic
      · rw [panics_storeWrite_bind] at hpanic
        exact Prog.Calm.of_total (total_finishArchive _ _) _ hpanic

/-- The notices of a synced package: errors are logged and skipped. -/
def handleArchiveNotices (cfg : Config) (notices : List ArchiveNotice) : Act Unit :=
  Prog.forEach (fun n => do let _ ← (handleArchiveNotice cfg n).attempt) notices

theorem total_handleArchiveNotices (cfg : Config) (notices : List ArchiveNotice) :
    Prog.Total (handleArchiveNotices cfg notices) :=
  Prog.Total.forEach (fun n => (handleArchiveNotice_calm cfg n).total_attempt.bind fun _ => .pure ())
    notices

/-- One height of `flush_pending_prunes`. -/
def flushPendingPrune (height : Height) : Act Unit := do
  Prog.modifyMem fun mem => { mem with pendingPruneHeights := mem.pendingPruneHeights.erase height }
  let d ← getDisk
  match ← Prog.ofExit (d.store.getBlobMetadata height) with
  | none => pure ()
  | some metadata =>
    if metadata.blobCount = 0 then pure ()
    else if metadata.allArchived then pruneArchivedHeight height metadata
    else
      Prog.modifyMem fun mem =>
        { mem with pendingPruneHeights := mem.pendingPruneHeights.insert height () }

/-- `State::flush_pending_prunes` -/
def flushPendingPrunes : Act Unit := do
  let mem ← getMem
  let ready := mem.pendingPruneHeights.keys.filter fun h => h ≤ mem.finalizedHeight
  Prog.forEach flushPendingPrune ready

/-! ## What archiving writes -/

/-- The height can be pruned: the row that is rewritten is the stored one or the one that is read
back, both have a record for every blob, and the height is final. -/
structure Prunable (m : Machine Disk Memory) (height : Height) (metadata : BlobMetadata) : Prop where
  loaded : ∃ md, m.disk.store.getBlobMetadata height = .ok (some md) ∧ md.core = metadata.core ∧
    md.allArchived = true
  row : m.disk.store.blobMetadataDecided[height]? = some metadata ∨
    m.disk.store.getBlobMetadata height = .ok (some metadata)
  archived : metadata.allArchived = true
  final : m.mem.isHeightFinalized height = true

/-- The writes of pruning. `m` is the machine just before the write. -/
inductive PruneEffect (m : Machine Disk Memory) : Write → Prop
  | delete {height : Height} {metadata : BlobMetadata} {i : Nat} (h : Prunable m height metadata)
      (hi : i < metadata.blobCount) : PruneEffect m (.blob (.deleteDecided height i))
  | pruned {height : Height} {metadata : BlobMetadata} (h : Prunable m height metadata) :
      PruneEffect m (.store (.updateBlobMetadata height metadata.markPruned))

/-- The writes of archiving. -/
inductive ArchiveEffect (cfg : Config) (m : Machine Disk Memory) : Write → Prop
  | record {n : ArchiveNotice} {metadata : BlobMetadata}
      (h : n.Checked cfg m.disk.store metadata) :
      ArchiveEffect cfg m (.store (.insertArchiveRecord n.body.height n.body.blobIndex
        (.fromNotice n.transmit)))
  | update {n : ArchiveNotice} {metadata row : BlobMetadata} {s : Store}
      (h : n.Checked cfg s metadata)
      (hstore : m.disk.store = s.apply (.insertArchiveRecord n.body.height n.body.blobIndex
        (.fromNotice n.transmit)))
      (hrow : (metadata.updateKeccakHash n.body.blobIndex n.body.blobKeccak).setArchiveRecord?
        (.fromNotice n.transmit) = some row) :
      ArchiveEffect cfg m (.store (.updateBlobMetadata n.body.height row))
  | prune {w : Write} (h : PruneEffect m w) : ArchiveEffect cfg m w

/-! ## What archiving changes -/

/-- The memories agree on how far the node is. -/
structure Memory.SameHead (a b : Memory) : Prop where
  currentHeight : b.currentHeight = a.currentHeight
  currentRound : b.currentRound = a.currentRound
  latestBlock : b.latestBlock = a.latestBlock
  executedHeight : b.executedHeight = a.executedHeight
  latestFinalizedHeight : b.latestFinalizedHeight = a.latestFinalizedHeight

/-- The memories differ in what is set aside only: the stream buffers, the tracked rounds, the blob-root
cache, the queues and the counters of the chain. -/
def Memory.Aside (a b : Memory) : Prop :=
  b = { a with
    streamsMap := b.streamsMap
    blobRounds := b.blobRounds
    lastBlobSidecarRoot := b.lastBlobSidecarRoot
    lastBlobSidecarHeight := b.lastBlobSidecarHeight
    pendingArchiveHeights := b.pendingArchiveHeights
    pendingPruneHeights := b.pendingPruneHeights
    txsCount := b.txsCount
    chainBytes := b.chainBytes }

theorem Memory.Aside.sameHead {a b : Memory} (h : a.Aside b) : a.SameHead b := by
  rw [h]
  exact ⟨rfl, rfl, rfl, rfl, rfl⟩

theorem Memory.SameHead.refl (a : Memory) : a.SameHead a := ⟨rfl, rfl, rfl, rfl, rfl⟩

theorem Memory.SameHead.trans {a b c : Memory} (h : a.SameHead b) (h' : b.SameHead c) :
    a.SameHead c :=
  ⟨h'.currentHeight.trans h.currentHeight, h'.currentRound.trans h.currentRound,
    h'.latestBlock.trans h.latestBlock, h'.executedHeight.trans h.executedHeight,
    h'.latestFinalizedHeight.trans h.latestFinalizedHeight⟩

theorem Memory.SameHead.finalizedHeight {a b : Memory} (h : a.SameHead b) :
    b.finalizedHeight = a.finalizedHeight := by
  unfold Memory.finalizedHeight
  rw [h.currentHeight, h.latestFinalizedHeight]

/-- A call that changes only what is set aside. -/
abbrev MovesAside {α : Type} (p : Act α) (m : Machine Disk Memory) : Prop :=
  Moves (fun a mem => a.mem.Aside mem) p m

/-- The writes of the call are ones that `A` allows, and it changes only what is set aside. -/
def Archives (A : Machine Disk Memory → Write → Prop) {α : Type} (p : Act α)
    (m : Machine Disk Memory) : Prop :=
  Emits A (p.run m) ∧ MovesAside p m

section Effects

variable {cfg : Config} {m m' : Machine Disk Memory} {height : Height} {metadata : BlobMetadata} {α : Type}
  {A B : Machine Disk Memory → Write → Prop}

/-- A call whose changes leave the head alone. -/
theorem sameHead_of_moves {p : Act α} (h : Moves (fun a mem => a.mem.SameHead mem) p m) :
    m.mem.SameHead (p.run m).state.mem :=
  (h.invariant (I := fun a => m.mem.SameHead a.mem) (.refl _) (fun _ _ ha hstep => ha.trans hstep)
    fun _ _ ha => ha).2

theorem sameHead_of_returns {p : Act α} {a : α} (h : Moves (fun a mem => a.mem.SameHead mem) p m)
    (hr : Returns p m a m') : m.mem.SameHead m'.mem := by
  rw [← hr.2]
  exact sameHead_of_moves h

theorem sameHead_of_aside {p : Act α} (h : MovesAside p m) :
    m.mem.SameHead (p.run m).state.mem :=
  sameHead_of_moves (h.mono fun _ _ hstep => hstep.sameHead)

namespace Archives

theorem closed : Closed fun (p : Act _) m => Archives A p m where
  still hlog hstate := ⟨.of_log_nil hlog, .of_eq hlog hstate⟩
  bind h hf := ⟨h.1.bind fun a ha => (hf a ha).1, h.2.bind fun a ha => (hf a ha).2⟩
  attempt h := ⟨h.1.attempt, h.2.attempt⟩

theorem write {w : Write} (h : A m w) : Archives A (Prog.write w) m := ⟨.write h, .write _⟩

theorem aside {g : Memory → Memory} (h : m.mem.Aside (g m.mem)) :
    Archives A (Prog.modifyMem g) m := ⟨.of_log_nil rfl, .modifyMem h⟩

theorem mono {p : Act α} (h : Archives A p m) (hAB : ∀ m w, A m w → B m w) : Archives B p m :=
  ⟨h.1.mono hAB, h.2⟩

end Archives

theorem Prunable.congr {m' : Machine Disk Memory} (h : Prunable m height metadata)
    (hstore : m'.disk.store = m.disk.store) (hmem : m'.mem = m.mem) :
    Prunable m' height metadata := by
  refine ⟨?_, ?_, h.archived, ?_⟩
  · rw [hstore]
    exact h.loaded
  · rw [hstore]
    exact h.row
  · rw [hmem]
    exact h.final

/-- Pruning keeps the hashes of the stored row. -/
theorem Prunable.keccaks (h : Prunable m height metadata) :
    ∃ row, m.disk.store.blobMetadataDecided[height]? = some row ∧
      metadata.blobKeccakHashes = row.blobKeccakHashes := by
  rcases h.row with hrow | hload
  · exact ⟨metadata, hrow, rfl⟩
  · obtain ⟨row, hrow, hhydrate⟩ := Store.getBlobMetadata_eq_some_iff.1 hload
    exact ⟨row, hrow, Store.keccaks_hydrate hhydrate⟩

theorem blobOnly_markArchived (height : Height) (indices : List Nat) :
    BlobOnly (indices.map fun i => .blob (.deleteDecided height i)) := fun w hw => by
  obtain ⟨i, _, rfl⟩ := List.mem_map.1 hw
  exact ⟨_, rfl⟩

theorem state_markArchived (height : Height) (indices : List Nat) (m : Machine Disk Memory) :
    ((markArchived height indices).run m).state.disk.store = m.disk.store ∧
      ((markArchived height indices).run m).state.mem = m.mem :=
  (blobOnly_markArchived height indices).frame m

theorem pruneArchivedHeight_prunes (h : Prunable m height metadata) :
    Archives PruneEffect (pruneArchivedHeight height metadata) m := by
  unfold pruneArchivedHeight
  split
  · exact Archives.closed.pure _
  · refine Archives.closed.bind ⟨?_, .writeAll _ _⟩ fun _ _ => ?_
    · refine Emits.writeAll_of (I := fun d : Disk => d.store = m.disk.store) rfl ?_
      intro w hw d hd
      obtain ⟨i, hi, rfl⟩ := List.mem_map.1 hw
      exact ⟨.delete (h.congr hd rfl) (List.mem_range.1 hi), hd⟩
    · obtain ⟨hstore, hmem⟩ := state_markArchived height (List.range metadata.blobCount) m
      exact Archives.closed.bind (.write (.pruned (h.congr hstore hmem))) fun _ _ => .aside rfl

/-- The row a notice leaves, as it is read back: the same, and archived wherever the stored row is. -/
theorem loaded_afterNotice {n : ArchiveNotice} {s : Store} {row : BlobMetadata}
    (h : n.Checked cfg s metadata)
    (hrow : (metadata.updateKeccakHash n.body.blobIndex n.body.blobKeccak).setArchiveRecord?
      (.fromNotice n.transmit) = some row) :
    ∃ md, ((s.apply (.insertArchiveRecord n.body.height n.body.blobIndex
        (.fromNotice n.transmit))).apply (.updateBlobMetadata n.body.height row)).getBlobMetadata
          n.body.height = .ok (some md) ∧ md.core = row.core ∧
      ∀ i, (row.archivalStatus i).isSome → (md.archivalStatus i).isSome := by
  obtain ⟨stored, hstored, hhydrate⟩ := Store.getBlobMetadata_eq_some_iff.1 h.metadata_eq
  have hcore : row.core = stored.core := by
    rw [BlobMetadata.core_setArchiveRecord? hrow, BlobMetadata.core_updateKeccakHash,
      Store.core_hydrate hhydrate]
  have hcount : row.blobCount = stored.blobCount := BlobMetadata.blobCount_of_core hcore
  -- the old records had a blob, and so has the new one
  have hlt : ∀ r ∈ ((s.apply (.insertArchiveRecord n.body.height n.body.blobIndex
      (.fromNotice n.transmit))).apply (.updateBlobMetadata n.body.height row)).archiveRecords
        n.body.height, r.body.blobIndex < row.blobCount := by
    intro r hr
    obtain ⟨i, hget⟩ := Store.mem_archiveRecords.1 hr
    have hget := (Table.getElem?_insert_eq _ _ _ _).symm.trans hget
    rw [hcount]
    split at hget
    · cases hget
      rw [← BlobMetadata.blobCount_of_core (Store.core_hydrate hhydrate)]
      exact h.index_lt
    · refine Store.isSome_hydrate.1 ?_ r (Store.mem_archiveRecords.2 ⟨i, hget⟩)
      rw [hhydrate]
      rfl
  obtain ⟨md, hmd, hmdcore, hstatus⟩ := Store.exists_hydrate hlt
  refine ⟨md, Store.getBlobMetadata_eq_some_iff.2 ⟨row, ?_, hmd⟩, hmdcore, hstatus⟩
  exact (Table.getElem?_insert_eq _ _ _ _).trans (if_pos rfl)

theorem allArchived_of_status {md : BlobMetadata} (hcore : md.core = metadata.core)
    (hstatus : ∀ i, (metadata.archivalStatus i).isSome → (md.archivalStatus i).isSome)
    (h : metadata.allArchived = true) : md.allArchived = true := by
  unfold BlobMetadata.allArchived at h ⊢
  rw [BlobMetadata.blobCount_of_core hcore, List.all_eq_true]
  exact fun i hi => hstatus i (List.all_eq_true.1 h i hi)

/-- After the two transactions of a notice, only pruning follows. -/
theorem finishArchive_prunes {n : ArchiveNotice} {s : Store} {row : BlobMetadata}
    (h : n.Checked cfg s metadata)
    (hrow : (metadata.updateKeccakHash n.body.blobIndex n.body.blobKeccak).setArchiveRecord?
      (.fromNotice n.transmit) = some row)
    (hstore : m.disk.store = (s.apply (.insertArchiveRecord n.body.height n.body.blobIndex
      (.fromNotice n.transmit))).apply (.updateBlobMetadata n.body.height row)) :
    Archives PruneEffect (finishArchive n.body.height row) m := by
  unfold finishArchive
  split
  · rename_i hall
    refine Archives.closed.bind (.aside rfl) fun _ _ => Archives.closed.getMem_bind ?_
    split
    · rename_i hfinal
      obtain ⟨md, hmd, hcore, hstatus⟩ := loaded_afterNotice h hrow
      rw [← hstore] at hmd
      refine pruneArchivedHeight_prunes ⟨⟨md, hmd, hcore, ?_⟩, .inl ?_, hall.1, hfinal⟩
      · exact allArchived_of_status hcore hstatus hall.1
      · show m.disk.store.blobMetadataDecided[n.body.height]? = some row
        rw [hstore]
        exact (Table.getElem?_insert_eq _ _ _ _).trans (if_pos rfl)
    · exact .aside rfl
  · exact Archives.closed.pure _

/-- **What a notice does.** -/
theorem handleArchiveNotice_archives (cfg : Config) (notice : ArchiveNotice)
    (m : Machine Disk Memory) : Archives (ArchiveEffect cfg) (handleArchiveNotice cfg notice) m := by
  refine Archives.closed.getDisk_bind (Archives.closed.ofExit_bind fun result hresult => ?_)
  cases result with
  | none => exact Archives.closed.pure _
  | some checked =>
    obtain ⟨metadata, hchecked, rfl⟩ := checkArchiveNotice_eq_some.1 hresult
    refine Archives.closed.bind (.write (.record hchecked)) fun _ _ => ?_
    refine Archives.closed.ofExit_bind fun row hrow => ?_
    have hrow := Exit.orPanic_eq_ok.1 hrow
    refine Archives.closed.bind (.write (.update hchecked rfl hrow)) fun _ _ => ?_
    exact (finishArchive_prunes hchecked hrow rfl).mono fun _ _ h => .prune h

theorem handleArchiveNotices_archives (cfg : Config) (notices : List ArchiveNotice)
    (m : Machine Disk Memory) : Archives (ArchiveEffect cfg) (handleArchiveNotices cfg notices) m :=
  Archives.closed.forEach fun n _ m =>
    Archives.closed.bind (Archives.closed.attempt (handleArchiveNotice_archives cfg n m)) fun _ _ =>
      Archives.closed.pure _

/-- A row that is read back with all its records can be pruned once its height is final. -/
theorem prunable_of_loaded (hmd : m.disk.store.getBlobMetadata height = .ok (some metadata))
    (hall : metadata.allArchived = true) (hfinal : m.mem.isHeightFinalized height = true) :
    Prunable m height metadata :=
  ⟨⟨metadata, hmd, rfl, hall⟩, .inr hmd, hall, hfinal⟩

theorem flushPendingPrune_prunes (hfinal : m.mem.isHeightFinalized height = true) :
    Archives PruneEffect (flushPendingPrune height) m := by
  refine Archives.closed.bind (.aside rfl) fun _ _ => Archives.closed.getDisk_bind ?_
  refine Archives.closed.ofExit_bind fun result hresult => ?_
  cases result with
  | none => exact Archives.closed.pure _
  | some metadata =>
    dsimp only
    split
    · exact Archives.closed.pure _
    · split
      · rename_i hall
        exact pruneArchivedHeight_prunes (prunable_of_loaded hresult hall hfinal)
      · exact .aside rfl

/-- **What `flush_pending_prunes` does.** -/
theorem flushPendingPrunes_prunes (m : Machine Disk Memory) :
    Archives PruneEffect flushPendingPrunes m := by
  refine Archives.closed.getMem_bind (Archives.closed.forEach_of
    (I := fun m' => m.mem.SameHead m'.mem) (fun height hready m' hm' => ?_) (.refl _))
  have hle : height ≤ m.mem.finalizedHeight := by simpa using (List.mem_filter.1 hready).2
  rw [← hm'.finalizedHeight] at hle
  have hprunes := flushPendingPrune_prunes (decide_eq_true hle)
  exact ⟨hprunes, hm'.trans (sameHead_of_aside hprunes.2)⟩

end Effects

/-- `ArchiveJob` -/
structure ArchiveJob where
  height : Height
  round : Round
  blobIndices : List Nat
  commitments : List KzgCommitment
  blobKeccaks : List B256
  versionedHashes : List B256
deriving DecidableEq

/-- `State::build_archive_job`: the decided blobs of the height without an archive record. -/
def buildArchiveJob (cfg : Config) (d : Disk) (height : Height) (round : Round) :
    Exit Err (Option ArchiveJob) := do
  match ← d.store.getBlobMetadata height with
  | none => pure none
  | some metadata =>
    if metadata.blobCount = 0 then pure none
    else
      let archived := d.store.archivedBlobIndexes height
      let blobs := (d.blobs.getDecidedBlobs height).filter fun s => s.index ∉ archived
      if blobs = [] then pure none
      else
        pure (some
          { height, round
            blobIndices := blobs.map (·.index)
            commitments := blobs.map (·.kzgCommitment)
            blobKeccaks := blobs.map (·.blobKeccak cfg.oracles)
            versionedHashes := versionedHashesFromSidecars cfg.oracles blobs })

end Ultramarine
