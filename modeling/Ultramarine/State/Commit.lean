import Ultramarine.State.Decide

/-!
# What a decision leaves behind

The big-step reading of `commit` and `process_decided_certificate`: when they return, and what the
disk holds then.

* `Store.committed` is the store after the first four transactions of `commit`;
* `Disk.SameAt h` says that the disks agree on everything decided at height `h`. What `commit` does
  after those transactions is such a step, except that it prunes an archived height.

Results:

* `returns_commitTables`: the first four transactions return exactly if the round has a wire form
  and the metadata of the height can be read back;
* `returns_commit`: a commit is a first commit or a replay, and then only clean-up;
* `processDecided_inversion`: what a decision that returns has checked.
-/

namespace Ultramarine

open Lib Ssz Prog

/-! ## What is decided at one height -/

/-- The disks agree on everything decided at height `h`. -/
structure Disk.SameAt (h : Height) (d d' : Disk) : Prop where
  value : d'.store.decidedValues[h]? = d.store.decidedValues[h]?
  blockData : d'.store.decidedBlockData[h]? = d.store.decidedBlockData[h]?
  consensus : d'.store.consensusBlockMetadata[h]? = d.store.consensusBlockMetadata[h]?
  metadata : d'.store.blobMetadataDecided[h]? = d.store.blobMetadataDecided[h]?
  records : ∀ i, d'.store.blobArchival[BlobIndexKey.mk h i]? =
    d.store.blobArchival[BlobIndexKey.mk h i]?
  blobs : ∀ i, d'.blobs.decided[BlobIndexKey.mk h i]? = d.blobs.decided[BlobIndexKey.mk h i]?

/-- No table has a row at height `h`, undecided or decided. -/
structure Store.NothingAt (h : Height) (s : Store) : Prop where
  proposal : ∀ r, s.undecidedProposals[Slot.mk h r]? = none
  undecidedData : ∀ r, s.undecidedBlockData[Slot.mk h r]? = none
  undecidedRow : ∀ r, s.blobMetadataUndecided[Slot.mk h r]? = none
  value : s.decidedValues[h]? = none
  blockData : s.decidedBlockData[h]? = none
  consensus : s.consensusBlockMetadata[h]? = none
  metadata : s.blobMetadataDecided[h]? = none
  records : ∀ i, s.blobArchival[BlobIndexKey.mk h i]? = none

/-- Nothing at all is stored at height `h`. -/
structure Disk.NothingAt (h : Height) (d : Disk) : Prop where
  store : d.store.NothingAt h
  undecided : ∀ r i, d.blobs.undecided[BlobKey.mk h r i]? = none
  blobs : ∀ i, d.blobs.decided[BlobIndexKey.mk h i]? = none

variable {height k : Height} {u : Unit} {d d₁ d₂ d₃ : Disk} {metadata : BlobMetadata}
  {bytes : Bytes} {check : DecidedCheck} {m m' : Machine Disk Memory} {b : BlobStore}
  {p : ProposedValue} {a : Memory} {c : CommitCertificate} {cfg : Config} {round : Int} {s : Store}
  {status : PayloadStatus}

theorem Disk.NothingAt.slot {h : Height} (hd : d.NothingAt h) (r : Round) : d.FreeSlot ⟨h, r⟩ :=
  ⟨hd.store.proposal r, hd.store.undecidedData r, hd.store.undecidedRow r, hd.undecided _⟩

/-- The write does not touch what is decided at height `h`. -/
def Write.leaves (h : Height) : Write → Prop
  | .store (.insertDecidedValue d) => d.certificate.height ≠ h
  | .store (.insertDecidedBlockData n _) => n ≠ h
  | .store (.insertConsensusBlockMetadata n _) => n ≠ h
  | .store (.insertArchiveRecord n _ _) => n ≠ h
  | .store (.updateBlobMetadata n _) => n ≠ h
  | .store (.markBlobMetadataDecided slot) => slot.height ≠ h
  | .store .insertGenesisBlobMetadata => h ≠ 0
  | .blob (.putDecided n _) => n ≠ h
  | .blob (.deleteDecided n _) => n ≠ h
  | _ => True

namespace Disk.SameAt

variable {h : Height} {d d₁ d₂ d₃ : Disk}

theorem refl (d : Disk) : Disk.SameAt h d d := ⟨rfl, rfl, rfl, rfl, fun _ => rfl, fun _ => rfl⟩

theorem trans (h₁ : Disk.SameAt h d₁ d₂) (h₂ : Disk.SameAt h d₂ d₃) : Disk.SameAt h d₁ d₃ :=
  ⟨h₂.value.trans h₁.value, h₂.blockData.trans h₁.blockData, h₂.consensus.trans h₁.consensus,
    h₂.metadata.trans h₁.metadata, fun i => (h₂.records i).trans (h₁.records i),
    fun i => (h₂.blobs i).trans (h₁.blobs i)⟩

theorem apply {w : Write} (hw : w.leaves h) : Disk.SameAt h d (d.apply w) := by
  have hkey : ∀ {n : Height} {i j : Nat}, n ≠ h → BlobIndexKey.mk n i ≠ BlobIndexKey.mk h j :=
    fun hn heq => hn (congrArg BlobIndexKey.height heq)
  cases w with
  | store w =>
    cases w with
    | insertDecidedValue dv =>
      refine ⟨?_, rfl, rfl, rfl, fun _ => rfl, fun _ => rfl⟩
      exact (Table.getElem?_insert_eq _ _ _ _).trans (if_neg hw)
    | insertDecidedBlockData n record =>
      refine ⟨rfl, ?_, rfl, rfl, fun _ => rfl, fun _ => rfl⟩
      exact (Table.getElem?_insertIfNew_eq _ _ _ _).trans (if_neg hw)
    | insertConsensusBlockMetadata n metadata =>
      refine ⟨rfl, rfl, ?_, rfl, fun _ => rfl, fun _ => rfl⟩
      exact (Table.getElem?_insert_eq _ _ _ _).trans (if_neg hw)
    | insertArchiveRecord n i record =>
      refine ⟨rfl, rfl, rfl, rfl, fun j => ?_, fun _ => rfl⟩
      exact (Table.getElem?_insert_eq _ _ _ _).trans (if_neg (hkey hw))
    | updateBlobMetadata n metadata =>
      refine ⟨rfl, rfl, rfl, ?_, fun _ => rfl, fun _ => rfl⟩
      exact (Table.getElem?_insert_eq _ _ _ _).trans (if_neg hw)
    | markBlobMetadataDecided slot =>
      simp only [Disk.apply, Store.apply]
      split
      · exact ⟨rfl, rfl, rfl, rfl, fun _ => rfl, fun _ => rfl⟩
      · refine ⟨rfl, rfl, rfl, ?_, fun _ => rfl, fun _ => rfl⟩
        exact (Table.getElem?_insert_eq _ _ _ _).trans (if_neg hw)
    | insertGenesisBlobMetadata =>
      simp only [Disk.apply, Store.apply]
      split
      · exact ⟨rfl, rfl, rfl, rfl, fun _ => rfl, fun _ => rfl⟩
      · refine ⟨rfl, rfl, rfl, ?_, fun _ => rfl, fun _ => rfl⟩
        exact (Table.getElem?_insert_eq _ _ _ _).trans (if_neg hw.symm)
    | _ => exact ⟨rfl, rfl, rfl, rfl, fun _ => rfl, fun _ => rfl⟩
  | blob w =>
    cases w with
    | putDecided n s =>
      refine ⟨rfl, rfl, rfl, rfl, fun _ => rfl, fun j => ?_⟩
      exact (Table.getElem?_insert_eq _ _ _ _).trans (if_neg (hkey hw))
    | deleteDecided n i =>
      refine ⟨rfl, rfl, rfl, rfl, fun _ => rfl, fun j => ?_⟩
      exact (Table.getElem?_erase_eq _ _ _).trans (if_neg (hkey hw))
    | _ => exact ⟨rfl, rfl, rfl, rfl, fun _ => rfl, fun _ => rfl⟩

/-- A call whose writes all leave the height alone. -/
theorem run {α : Type} {p : Act α} (hp : Emits (fun _ w => w.leaves h) (p.run m)) :
    Disk.SameAt h m.disk (p.run m).state.disk :=
  (p.disk_invariant (I := Disk.SameAt h m.disk) (refl m.disk)
    fun e he hsame => hsame.trans (apply (hp e he))).2

theorem archiveRecords (hsame : Disk.SameAt h d₁ d₂) :
    d₂.store.archiveRecords h = d₁.store.archiveRecords h := by
  unfold Store.archiveRecords
  rw [Table.scan_congr]
  rintro ⟨n, i⟩ hn
  simp only [beq_iff_eq] at hn
  subst hn
  exact hsame.records i

theorem getBlobMetadata (hsame : Disk.SameAt h d₁ d₂) :
    d₂.store.getBlobMetadata h = d₁.store.getBlobMetadata h := by
  unfold Store.getBlobMetadata
  rw [hsame.metadata, hsame.archiveRecords]

theorem getDecidedBlobs (hsame : Disk.SameAt h d₁ d₂) :
    d₂.blobs.getDecidedBlobs h = d₁.blobs.getDecidedBlobs h := by
  unfold BlobStore.getDecidedBlobs
  rw [Table.scan_congr]
  rintro ⟨n, i⟩ hn
  simp only [beq_iff_eq] at hn
  subst hn
  exact hsame.blobs i

end Disk.SameAt

/-! ## The first four transactions of `commit` -/

/-- The metadata row a commit of the slot promotes or finds promoted. -/
def Store.promotedRow (s : Store) (slot : Slot) : Option BlobMetadata :=
  s.blobMetadataUndecided[slot]? <|> s.blobMetadataDecided[slot.height]?

/-- The metadata a commit of the slot reads back. -/
def Store.promoted (s : Store) (slot : Slot) : Option BlobMetadata := do
  let row ← s.promotedRow slot
  Store.hydrate row (s.archiveRecords slot.height)

/-- The store after the first three transactions of `commit`. -/
def Store.recorded (cfg : Config) (c : CommitCertificate) (p : ProposedValue) (s : Store) : Store :=
  ((s.apply (.insertDecidedValue ⟨p.value, c⟩)).apply
    (.insertConsensusBlockMetadata c.height (consensusMetadata cfg c p))).apply
      (.markBlobMetadataDecided ⟨c.height, c.round⟩)

/-- The store with the payload of a slot copied to its height. -/
def Store.withBlockData (slot : Slot) (s : Store) : Store :=
  match s.loadBlockPayloadRecord slot with
  | some record => s.apply (.insertDecidedBlockData slot.height record)
  | none => s

/-- The store after the first four transactions of `commit`. -/
def Store.committed (cfg : Config) (c : CommitCertificate) (p : ProposedValue) (s : Store) :
    Store :=
  (s.recorded cfg c p).withBlockData ⟨c.height, c.round⟩

theorem returns_markBlobMetadataDecided {slot : Slot} :
    Returns (markBlobMetadataDecided slot) m u m' ↔
      (m.disk.store.promotedRow slot).isSome ∧
        afterStore m (.markBlobMetadataDecided slot) = m' := by
  unfold markBlobMetadataDecided Store.promotedRow
  rw [returns_getDisk_bind]
  split
  · rename_i h
    rw [returns_storeWrite, h]
    simp
  · rename_i hu hd
    rw [returns_pure, hu, hd]
    simp only [afterStore, Store.apply, hu]
    simp
  · rename_i hu hd
    rw [hu, hd]
    simp [returns_fail]

namespace Store

variable {s : Store} {slot : Slot}

theorem apply_mark_decided (s : Store) (slot : Slot) (h : Height) :
    (s.apply (.markBlobMetadataDecided slot)).blobMetadataDecided[h]? =
      if slot.height = h then s.promotedRow slot else s.blobMetadataDecided[h]? := by
  simp only [Store.apply, Store.promotedRow]
  cases hu : s.blobMetadataUndecided[slot]? with
  | none =>
    by_cases hh : slot.height = h
    · subst hh
      rw [if_pos rfl]
      rfl
    · rw [if_neg hh]
  | some row => exact Table.getElem?_insert_eq _ _ _ _

/-- A promotion touches the metadata tables only. -/
theorem apply_mark_fields (s : Store) (slot : Slot) :
    (s.apply (.markBlobMetadataDecided slot)).decidedValues = s.decidedValues ∧
      (s.apply (.markBlobMetadataDecided slot)).consensusBlockMetadata =
        s.consensusBlockMetadata ∧
      (s.apply (.markBlobMetadataDecided slot)).blobArchival = s.blobArchival ∧
      (s.apply (.markBlobMetadataDecided slot)).undecidedProposals = s.undecidedProposals ∧
      (s.apply (.markBlobMetadataDecided slot)).undecidedBlockData = s.undecidedBlockData ∧
      (s.apply (.markBlobMetadataDecided slot)).decidedBlockData = s.decidedBlockData := by
  simp only [Store.apply]
  split <;> exact ⟨rfl, rfl, rfl, rfl, rfl, rfl⟩

variable (cfg : Config) (c : CommitCertificate) (p : ProposedValue) (s)

theorem recorded_fields :
    (s.recorded cfg c p).decidedValues = s.decidedValues.insert c.height ⟨p.value, c⟩ ∧
      (s.recorded cfg c p).consensusBlockMetadata =
        s.consensusBlockMetadata.insert c.height (consensusMetadata cfg c p) ∧
      (s.recorded cfg c p).blobArchival = s.blobArchival ∧
      (s.recorded cfg c p).undecidedProposals = s.undecidedProposals ∧
      (s.recorded cfg c p).undecidedBlockData = s.undecidedBlockData ∧
      (s.recorded cfg c p).decidedBlockData = s.decidedBlockData :=
  apply_mark_fields _ _

/-- The fields of a committed store, in terms of the store before. -/
theorem committed_fields :
    (s.committed cfg c p).decidedValues = s.decidedValues.insert c.height ⟨p.value, c⟩ ∧
      (s.committed cfg c p).consensusBlockMetadata =
        s.consensusBlockMetadata.insert c.height (consensusMetadata cfg c p) ∧
      (s.committed cfg c p).blobArchival = s.blobArchival ∧
      (s.committed cfg c p).undecidedProposals = s.undecidedProposals ∧
      (s.committed cfg c p).undecidedBlockData = s.undecidedBlockData := by
  obtain ⟨hvalues, hconsensus, hrecords, hproposals, hdata, _⟩ := recorded_fields s cfg c p
  unfold committed withBlockData
  split <;> exact ⟨hvalues, hconsensus, hrecords, hproposals, hdata⟩

theorem undecidedRow_apply_mark (s : Store) (slot k : Slot) :
    (s.apply (.markBlobMetadataDecided slot)).blobMetadataUndecided[k]? =
      if slot = k then none else s.blobMetadataUndecided[k]? := by
  simp only [Store.apply]
  split
  · rename_i hnone
    split
    · rename_i hk
      rw [← hk, hnone]
    · rfl
  · exact Table.getElem?_erase_eq _ _ _

/-- The row of the decided round is promoted; the others are as they were. -/
theorem committed_undecidedRow (k : Slot) :
    (s.committed cfg c p).blobMetadataUndecided[k]? =
      if Slot.mk c.height c.round = k then none else s.blobMetadataUndecided[k]? := by
  have hrecorded : (s.recorded cfg c p).blobMetadataUndecided[k]? =
      if Slot.mk c.height c.round = k then none else s.blobMetadataUndecided[k]? :=
    undecidedRow_apply_mark _ _ _
  unfold committed withBlockData
  split <;> exact hrecorded

theorem committed_decidedValue :
    (s.committed cfg c p).decidedValues[c.height]? = some ⟨p.value, c⟩ := by
  rw [(committed_fields s cfg c p).1, Table.getElem?_insert_eq, if_pos rfl]

theorem committed_consensus :
    (s.committed cfg c p).consensusBlockMetadata[c.height]? = some (consensusMetadata cfg c p) := by
  rw [(committed_fields s cfg c p).2.1, Table.getElem?_insert_eq, if_pos rfl]

theorem recorded_metadata (h : Height) :
    (s.recorded cfg c p).blobMetadataDecided[h]? =
      if c.height = h then s.promotedRow ⟨c.height, c.round⟩ else s.blobMetadataDecided[h]? :=
  apply_mark_decided _ _ _

theorem committed_metadata (h : Height) :
    (s.committed cfg c p).blobMetadataDecided[h]? =
      if c.height = h then s.promotedRow ⟨c.height, c.round⟩ else s.blobMetadataDecided[h]? := by
  rw [← recorded_metadata s cfg c p]
  unfold committed withBlockData
  split <;> rfl

theorem withBlockData_decided (slot : Slot) :
    (s.withBlockData slot).decidedBlockData[slot.height]? =
      (s.decidedBlockData[slot.height]? <|> s.undecidedBlockData[slot]?) := by
  have hinsert : ∀ record, (s.apply
      (.insertDecidedBlockData slot.height record)).decidedBlockData[slot.height]? =
        some ((s.decidedBlockData[slot.height]?).getD record) := fun record =>
    (Table.getElem?_insertIfNew_eq _ _ _ _).trans (if_pos rfl)
  unfold withBlockData loadBlockPayloadRecord
  cases hu : s.undecidedBlockData[slot]? with
  | some record =>
    refine (hinsert record).trans ?_
    cases s.decidedBlockData[slot.height]? <;> rfl
  | none =>
    cases hd : s.decidedBlockData[slot.height]? with
    | some record =>
      refine (hinsert record).trans ?_
      rw [hd]
      rfl
    | none => exact hd

theorem committed_blockData :
    (s.committed cfg c p).decidedBlockData[c.height]? =
      (s.decidedBlockData[c.height]? <|> s.undecidedBlockData[Slot.mk c.height c.round]?) := by
  obtain ⟨_, _, _, _, hundecided, hdecided⟩ := recorded_fields s cfg c p
  rw [← hundecided, ← hdecided]
  exact withBlockData_decided _ ⟨c.height, c.round⟩

end Store

/-- The four transactions remove no decided row. -/
theorem Disk.grows_committed (cfg : Config) (c : CommitCertificate) (p : ProposedValue) (d : Disk) :
    Disk.Grows d ⟨d.store.committed cfg c p, d.blobs⟩ := by
  have hrecorded : Disk.Grows d ⟨d.store.recorded cfg c p, d.blobs⟩ :=
    ((Disk.Grows.apply d (.store (.insertDecidedValue ⟨p.value, c⟩))).trans
      (.apply _ (.store (.insertConsensusBlockMetadata c.height (consensusMetadata cfg c p))))).trans
        (.apply _ (.store (.markBlobMetadataDecided ⟨c.height, c.round⟩)))
  unfold Store.committed Store.withBlockData
  split
  · rename_i record _
    exact hrecorded.trans (.apply _ (.store (.insertDecidedBlockData c.height record)))
  · exact hrecorded

theorem Store.recorded_getBlobMetadata {cfg : Config} {c : CommitCertificate} {p : ProposedValue}
    {s : Store} {metadata : BlobMetadata} :
    (s.recorded cfg c p).getBlobMetadata c.height = .ok (some metadata) ↔
      s.promoted ⟨c.height, c.round⟩ = some metadata := by
  have hrecords : (s.recorded cfg c p).archiveRecords c.height = s.archiveRecords c.height := by
    unfold Store.archiveRecords
    rw [(Store.recorded_fields s cfg c p).2.2.1]
  rw [Store.getBlobMetadata_eq_some_iff, Store.recorded_metadata, if_pos rfl, hrecords]
  unfold Store.promoted
  exact Option.bind_eq_some_iff.symm

theorem Store.committed_getBlobMetadata :
    (s.committed cfg c p).getBlobMetadata c.height = .ok (some metadata) ↔
      s.promoted ⟨c.height, c.round⟩ = some metadata := by
  rw [← @Store.recorded_getBlobMetadata cfg c p]
  unfold Store.committed Store.withBlockData
  split <;> rfl

theorem returns_copyBlockData {slot : Slot} :
    Returns (copyBlockData slot) m u m' ↔
      m' = { m with disk := { m.disk with store := m.disk.store.withBlockData slot } } := by
  unfold copyBlockData Store.withBlockData
  rw [returns_getDisk_bind]
  cases m.disk.store.loadBlockPayloadRecord slot with
  | some record => exact returns_storeWrite.trans eq_comm
  | none =>
    rw [returns_pure]
    exact ⟨fun h => h.2.symm, fun h => ⟨rfl, h.symm⟩⟩

/-- **When the first four transactions of `commit` return**, and the machine they leave. -/
theorem returns_commitTables :
    Returns (commitTables cfg c p) m u m' ↔
      c.round ≠ .nil ∧ c.round.asI64 ≤ i32Max ∧
        ∃ metadata, m.disk.store.promoted ⟨c.height, c.round⟩ = some metadata ∧
          m' = ⟨⟨m.disk.store.committed cfg c p, m.disk.blobs⟩,
            m.mem.withBlobRoot cfg c.height metadata⟩ := by
  have hvalue : (m.disk.store.apply (.insertDecidedValue ⟨p.value, c⟩)).decidedValues[c.height]? ≠
      none := by
    have hsome := (Table.getElem?_insert_eq m.disk.store.decidedValues c.height c.height
      (DecidedValue.mk p.value c)).trans (if_pos rfl)
    exact fun hnone => Option.some_ne_none _ (hsome.symm.trans hnone)
  unfold commitTables storeDecidedValue putConsensusBlockMetadata cacheBlobRoot
  simp only [bind_assoc, returns_getDisk_bind, returns_ofExit_bind, returns_storeWrite_bind,
    Exit.ensure_eq_ok, exists_const, returns_bind (p := markBlobMetadataDecided _),
    returns_markBlobMetadataDecided, returns_modifyMem_bind, Exit.ofOption_eq_ok,
    returns_copyBlockData]
  constructor
  · rintro ⟨hnil, _, hle, m₁, ⟨_, rfl⟩, x, hx, metadata, rfl, rfl⟩
    exact ⟨hnil, hle, metadata, Store.recorded_getBlobMetadata.1 hx, rfl⟩
  · rintro ⟨hnil, hle, metadata, hmetadata, rfl⟩
    refine ⟨hnil, hvalue, hle, _, ⟨?_, rfl⟩, _, Store.recorded_getBlobMetadata.2 hmetadata,
      metadata, rfl, rfl⟩
    obtain ⟨row, hrow, _⟩ := Option.bind_eq_some_iff.1 hmetadata
    exact Option.isSome_iff_exists.2 ⟨row, hrow⟩

/-! ## The clean-up of a commit -/

section Cleanup

variable {h : Height} {m m' : Machine Disk Memory}

/-- The writes that drop the failed rounds of a height. -/
theorem dropFailedRounds_writes {A : Machine Disk Memory → Write → Prop} {round : Round}
    (hrow : ∀ m r, A m (.store (.deleteBlobMetadataUndecided ⟨height, r⟩)))
    (hblob : ∀ m (r : Round) i, A m (.blob (.deleteUndecided ⟨height, r.asI64, i⟩))) :
    Emits A ((dropFailedRounds height round).run m) := by
  unfold dropFailedRounds dropFailedRound
  rw [run_getMem_bind]
  refine Emits.bind ((Emits.closed _).forEach fun r _ m => ?_) fun _ _ => Emits.of_log_nil rfl
  exact Emits.bind (Emits.write (hrow _ r)) fun _ _ => dropRound_writes fun a i _ => hblob a r i

theorem total_dropRound (height : Height) (round : Int) : Total (dropRound height round) := by
  intro m
  obtain ⟨u, m', hr⟩ : ∃ u m', Returns (Prog.writeAll (dropRoundWrites m.disk.blobs height round) :
      Act Unit) m u m' := Total.writeAll _ m
  exact ⟨u, m', returns_getDisk_bind.2 hr⟩

theorem foldl_dropRoundWrites :
    ∀ (entries : List (BlobKey × BlobSidecar)) (d : Disk),
      (entries.map fun e => Write.blob (.deleteUndecided e.1)).foldl (fun d w => DiskOp.apply w d) d =
        { d with blobs := entries.foldl (fun b e => b.deleteUndecided e.1) d.blobs }
  | [], _ => rfl
  | e :: entries, d => by
    rw [List.map_cons, List.foldl_cons, List.foldl_cons, foldl_dropRoundWrites entries]
    rfl

theorem returns_dropRound :
    Returns (dropRound height round) m u m' ↔
      m' = { m with disk := { m.disk with blobs := m.disk.blobs.withoutRound height round } } := by
  unfold dropRound dropRoundWrites
  rw [returns_getDisk_bind, returns_writeAll, foldl_dropRoundWrites]
  exact eq_comm

theorem keepsMem_dropRound (height : Height) (round : Int) : KeepsMem (dropRound height round) := by
  intro m
  unfold dropRound
  rw [run_getDisk_bind]
  exact KeepsMem.writeAll _ m

theorem total_dropFailedRound (height : Height) (round : Round) :
    Total (dropFailedRound height round) :=
  Total.bind (Total.write _) fun _ => total_dropRound height round.asI64

theorem keepsMem_dropFailedRound (height : Height) (round : Round) :
    KeepsMem (dropFailedRound height round) :=
  KeepsMem.bind (KeepsMem.write _) fun _ => keepsMem_dropRound height round.asI64

/-- Dropping the failed rounds always returns and forgets the rounds of the height. -/
theorem returns_dropFailedRounds (height : Height) (round : Round) (m : Machine Disk Memory) :
    ∃ m', Returns (dropFailedRounds height round) m () m' ∧
      m'.mem = m.mem.forgetRounds height := by
  have htotal := Total.forEach (total_dropFailedRound height)
    ((m.mem.trackedRounds height).filter fun r => r ≠ round ∧ r ≠ .nil)
  have hkeeps := KeepsMem.forEach (keepsMem_dropFailedRound height)
    ((m.mem.trackedRounds height).filter fun r => r ≠ round ∧ r ≠ .nil)
  obtain ⟨u, m₁, hloop⟩ := htotal m
  have hmem : m₁.mem = m.mem := by
    rw [← hloop.2]
    exact hkeeps m
  refine ⟨⟨m₁.disk, m₁.mem.forgetRounds height⟩, ?_, by rw [hmem]⟩
  unfold dropFailedRounds
  exact returns_getMem_bind.2 (hloop.bind (returns_modifyMem.2 rfl))

/-! ## Pruning at the end of a commit -/

/-- The height can be read, is archived as a whole and not pruned yet. -/
def Disk.PrunableAt (d : Disk) (h : Height) (metadata : BlobMetadata) : Prop :=
  d.store.getBlobMetadata h = .ok (some metadata) ∧ metadata.allArchived = true ∧
    0 < metadata.blobCount ∧ metadata.pruned = false

/-- The disks agree on everything decided at height `h`, but its blobs are gone and its metadata
says so. -/
structure Disk.PrunedAt (h : Height) (md : BlobMetadata) (d d' : Disk) : Prop where
  value : d'.store.decidedValues[h]? = d.store.decidedValues[h]?
  blockData : d'.store.decidedBlockData[h]? = d.store.decidedBlockData[h]?
  consensus : d'.store.consensusBlockMetadata[h]? = d.store.consensusBlockMetadata[h]?
  metadata : d'.store.blobMetadataDecided[h]? = some md.markPruned
  records : ∀ i, d'.store.blobArchival[BlobIndexKey.mk h i]? =
    d.store.blobArchival[BlobIndexKey.mk h i]?
  blobs : ∀ i, d'.blobs.decided[BlobIndexKey.mk h i]? =
    if i < md.blobCount then none else d.blobs.decided[BlobIndexKey.mk h i]?

theorem emits_leaves_pruneArchivedHeight (hk : k ≠ h) (metadata : BlobMetadata) :
    Emits (fun _ w => w.leaves h) ((pruneArchivedHeight k metadata).run m) := by
  unfold pruneArchivedHeight markArchived
  split
  · exact Emits.of_log_nil rfl
  · refine Emits.bind (Emits.writeAll fun w hw _ => ?_) fun _ _ => ?_
    · obtain ⟨i, _, rfl⟩ := List.mem_map.1 hw
      exact hk
    · exact Emits.bind (Emits.write hk) fun _ _ => Emits.of_log_nil rfl

/-- A height that is not ready to be pruned is left alone. -/
theorem sameAt_flushPendingPrune (hno : k = h → ∀ metadata, ¬ m.disk.PrunableAt h metadata) :
    Disk.SameAt h m.disk ((flushPendingPrune k).run m).state.disk := by
  refine Disk.SameAt.run ?_
  unfold flushPendingPrune
  rw [run_modifyMem_bind, run_getDisk_bind]
  refine Emits.ofExit_bind fun x hx => ?_
  cases x with
  | none => exact Emits.of_log_nil rfl
  | some metadata =>
    dsimp only
    split
    · exact Emits.of_log_nil rfl
    split
    · rename_i hcount hall
      by_cases hk : k = h
      · subst hk
        have hpruned : metadata.pruned = true := by
          by_contra hpruned
          exact hno rfl metadata ⟨hx, hall, Nat.pos_of_ne_zero hcount, by simpa using hpruned⟩
        unfold pruneArchivedHeight
        rw [if_pos (.inl hpruned)]
        exact Emits.of_log_nil rfl
      · exact emits_leaves_pruneArchivedHeight hk metadata
    · exact Emits.of_log_nil rfl

theorem Disk.PrunableAt.of_sameAt {d' : Disk} (hsame : Disk.SameAt h d d')
    (hp : d'.PrunableAt h metadata) : d.PrunableAt h metadata := by
  unfold Disk.PrunableAt at hp ⊢
  rw [hsame.getBlobMetadata] at hp
  exact hp

theorem sameAt_flushLoop {heights : List Height}
    (hno : h ∈ heights → ∀ metadata, ¬ m.disk.PrunableAt h metadata) :
    Disk.SameAt h m.disk ((Prog.forEach flushPendingPrune heights).run m).state.disk := by
  refine state_forEach_invariant (I := fun m' => Disk.SameAt h m.disk m'.disk) (.refl _) ?_
  intro k hk m' hm'
  refine hm'.trans (sameAt_flushPendingPrune fun hkh metadata hp => ?_)
  subst hkh
  exact hno hk metadata (hp.of_sameAt hm')

/-- **Pruning leaves a height alone** unless the height is queued and ready. -/
theorem sameAt_flushPendingPrunes
    (hno : h ∈ m.mem.pendingPruneHeights → ∀ metadata, ¬ m.disk.PrunableAt h metadata) :
    Disk.SameAt h m.disk (flushPendingPrunes.run m).state.disk := by
  unfold flushPendingPrunes
  rw [run_getMem_bind]
  exact sameAt_flushLoop fun hk =>
    hno (Std.ExtTreeMap.mem_keys.1 (List.mem_filter.1 hk).1)

theorem getElem?_markArchived : ∀ {indices : List Nat} {d : Disk} (i : Nat),
    ((indices.map fun i => Write.blob (.deleteDecided height i)).foldl
      (fun d w => DiskOp.apply w d) d).blobs.decided[BlobIndexKey.mk height i]? =
        if i ∈ indices then none else d.blobs.decided[BlobIndexKey.mk height i]?
  | [], _, _ => by simp
  | j :: indices, d, i => by
    have herase : (d.apply (.blob (.deleteDecided height j))).blobs.decided[BlobIndexKey.mk height
        i]? = if j = i then none else d.blobs.decided[BlobIndexKey.mk height i]? := by
      refine (Table.getElem?_erase_eq _ _ _).trans ?_
      simp only [BlobIndexKey.mk.injEq, true_and]
    rw [List.map_cons, List.foldl_cons, getElem?_markArchived i]
    refine (congrArg _ herase).trans ?_
    by_cases hi : i ∈ indices
    · simp [hi]
    · by_cases hj : j = i
      · simp [hj]
      · simp [hi, hj, Ne.symm hj]

/-- The disk after the blobs of a height are deleted and its metadata is marked. -/
def Disk.prune (h : Height) (metadata : BlobMetadata) (d : Disk) : Disk :=
  (((List.range metadata.blobCount).map fun i => Write.blob (.deleteDecided h i)).foldl
    (fun d w => DiskOp.apply w d) d).apply (.store (.updateBlobMetadata h metadata.markPruned))

theorem Disk.store_prune (k : Height) (metadata : BlobMetadata) (d : Disk) :
    (d.prune k metadata).store = d.store.apply (.updateBlobMetadata k metadata.markPruned) :=
  congrArg (fun s : Store => s.apply (.updateBlobMetadata k metadata.markPruned))
    ((blobOnly_markArchived _ _).foldl_store d)

theorem Disk.prunedAt_prune (h : Height) (metadata : BlobMetadata) (d : Disk) :
    Disk.PrunedAt h metadata d (d.prune h metadata) := by
  have hstore := Disk.store_prune h metadata d
  refine ⟨?_, ?_, ?_, ?_, fun i => ?_, fun i => ?_⟩
  · rw [hstore]
    rfl
  · rw [hstore]
    rfl
  · rw [hstore]
    rfl
  · rw [hstore]
    exact (Table.getElem?_insert_eq _ _ _ _).trans (if_pos rfl)
  · rw [hstore]
    rfl
  · refine (getElem?_markArchived i).trans ?_
    simp only [List.mem_range]

/-- The memory once a height is pruned: it is queued for nothing any more. -/
def Memory.unqueue (h : Height) (mem : Memory) : Memory :=
  { mem with
    pendingArchiveHeights := mem.pendingArchiveHeights.erase h
    pendingPruneHeights := mem.pendingPruneHeights.erase h }

theorem returns_pruneArchivedHeight :
    Returns (pruneArchivedHeight h metadata) m u m' ↔
      m' = if metadata.pruned ∨ metadata.blobCount = 0 then m
        else ⟨m.disk.prune h metadata, m.mem.unqueue h⟩ := by
  unfold pruneArchivedHeight markArchived
  split
  · rw [returns_pure]
    exact ⟨fun h => h.2.symm, fun h => ⟨rfl, h.symm⟩⟩
  · simp only [returns_bind (p := Prog.writeAll _), returns_writeAll, returns_storeWrite_bind,
      returns_modifyMem]
    constructor
    · rintro ⟨_, _, rfl, rfl⟩
      rfl
    · rintro rfl
      exact ⟨(), _, rfl, rfl⟩

/-- One height of the queue, by what is read of it: it is pruned if it is ready, and its disk is
left alone otherwise. -/
theorem returns_flushPendingPrune {x : Option BlobMetadata}
    (hx : m.disk.store.getBlobMetadata k = .ok x) :
    ∃ m', Returns (flushPendingPrune k) m () m' ∧
      ((∃ metadata, m.disk.PrunableAt k metadata ∧ m'.disk = m.disk.prune k metadata) ∨
        ((∀ metadata, ¬ m.disk.PrunableAt k metadata) ∧ m'.disk = m.disk)) := by
  let m₁ : Machine Disk Memory := { m with mem := { m.mem with
    pendingPruneHeights := m.mem.pendingPruneHeights.erase k } }
  have hnot : ∀ {metadata}, x = some metadata →
      ¬ (metadata.allArchived = true ∧ 0 < metadata.blobCount ∧ metadata.pruned = false) →
      ∀ metadata', ¬ m.disk.PrunableAt k metadata' := by
    rintro metadata rfl hmd metadata' ⟨hget, hrest⟩
    cases hget.symm.trans hx
    exact hmd hrest
  unfold flushPendingPrune
  simp only [returns_modifyMem_bind, returns_getDisk_bind, returns_ofExit_bind]
  cases x with
  | none =>
    refine ⟨m₁, ⟨none, hx, returns_pure.2 ⟨rfl, rfl⟩⟩, .inr ⟨fun metadata hp => ?_, rfl⟩⟩
    cases hx.symm.trans hp.1
  | some metadata =>
    by_cases hcount : metadata.blobCount = 0
    · refine ⟨m₁, ⟨some metadata, hx, ?_⟩, .inr ⟨hnot rfl fun h => ?_, rfl⟩⟩
      · dsimp only
        rw [if_pos hcount]
        exact returns_pure.2 ⟨rfl, rfl⟩
      · exact absurd hcount (Nat.ne_of_gt h.2.1)
    by_cases hall : metadata.allArchived = true
    · by_cases hpruned : metadata.pruned = true
      · refine ⟨m₁, ⟨some metadata, hx, ?_⟩, .inr ⟨hnot rfl fun h => ?_, rfl⟩⟩
        · dsimp only
          rw [if_neg hcount, if_pos hall, returns_pruneArchivedHeight, if_pos (.inl hpruned)]
        · rw [hpruned] at h
          cases h.2.2
      · refine ⟨⟨m.disk.prune k metadata, m₁.mem.unqueue k⟩, ⟨some metadata, hx, ?_⟩,
          .inl ⟨metadata, ⟨hx, hall, Nat.pos_of_ne_zero hcount, by simpa using hpruned⟩, rfl⟩⟩
        dsimp only
        rw [if_neg hcount, if_pos hall, returns_pruneArchivedHeight,
          if_neg (by simp [hpruned, hcount])]
    · refine ⟨{ m₁ with mem := { m₁.mem with
        pendingPruneHeights := m₁.mem.pendingPruneHeights.insert k () } },
        ⟨some metadata, hx, ?_⟩, .inr ⟨hnot rfl fun h => hall h.1, rfl⟩⟩
      dsimp only
      rw [if_neg hcount, if_neg hall]
      exact returns_modifyMem.2 rfl

/-- A store stays readable when a row is replaced by one with as many blobs. -/
theorem Store.Readable.update {s : Store} (hread : s.Readable) {k : Height}
    {row metadata : BlobMetadata} (hrow : s.blobMetadataDecided[k]? = some row)
    (hcount : metadata.blobCount = row.blobCount) :
    (s.apply (.updateBlobMetadata k metadata)).Readable := by
  intro h row' hrow' r hr
  have hinsert := (Table.getElem?_insert_eq s.blobMetadataDecided k h metadata).symm.trans hrow'
  split at hinsert
  · rename_i hk
    subst hk
    cases hinsert
    rw [hcount]
    exact hread k row hrow r hr
  · exact hread h row' hinsert r hr

theorem Store.Readable.prune (hread : d.store.Readable)
    (hget : d.store.getBlobMetadata k = .ok (some metadata)) :
    (d.prune k metadata).store.Readable := by
  obtain ⟨row, hrow, hcore⟩ := Store.getBlobMetadata_eq_some hget
  rw [Disk.store_prune]
  refine hread.update hrow ?_
  exact congrArg (fun c : BlobCore => c.blobKzgCommitments.length) hcore

/-- Everything decided in a readable store can be read. -/
theorem Store.Readable.get (hread : s.Readable) (k : Height) :
    ∃ x, s.getBlobMetadata k = .ok x := by
  cases hrow : s.blobMetadataDecided[k]? with
  | none => exact ⟨none, Store.getBlobMetadata_eq_none_iff.2 hrow⟩
  | some row =>
    obtain ⟨metadata, hmetadata⟩ := Option.isSome_iff_exists.1
      (Store.isSome_hydrate.2 (hread k row hrow))
    exact ⟨some metadata, Store.getBlobMetadata_eq_some_iff.2 ⟨row, hrow, hmetadata⟩⟩

theorem Disk.PrunedAt.trans_sameAt (h₁ : Disk.PrunedAt h metadata d₁ d₂)
    (h₂ : Disk.SameAt h d₂ d₃) : Disk.PrunedAt h metadata d₁ d₃ :=
  ⟨h₂.value.trans h₁.value, h₂.blockData.trans h₁.blockData, h₂.consensus.trans h₁.consensus,
    h₂.metadata.trans h₁.metadata, fun i => (h₂.records i).trans (h₁.records i),
    fun i => (h₂.blobs i).trans (h₁.blobs i)⟩

theorem Disk.SameAt.trans_prunedAt (h₁ : Disk.SameAt h d₁ d₂)
    (h₂ : Disk.PrunedAt h metadata d₂ d₃) : Disk.PrunedAt h metadata d₁ d₃ :=
  ⟨h₂.value.trans h₁.value, h₂.blockData.trans h₁.blockData, h₂.consensus.trans h₁.consensus,
    h₂.metadata, fun i => (h₂.records i).trans (h₁.records i), fun i => by
      rw [h₂.blobs i, h₁.blobs i]⟩

theorem returns_flushLoop : ∀ {heights : List Height} {m : Machine Disk Memory},
    m.disk.store.Readable → ∃ m', Returns (Prog.forEach flushPendingPrune heights) m () m'
  | [], m, _ => ⟨m, returns_forEach_nil.2 rfl⟩
  | k :: heights, m, hread => by
    obtain ⟨x, hx⟩ := hread.get k
    obtain ⟨m₁, h₁, hcases⟩ := returns_flushPendingPrune hx
    have hread₁ : m₁.disk.store.Readable := by
      rcases hcases with ⟨metadata, hp, hdisk⟩ | ⟨_, hdisk⟩ <;> rw [hdisk]
      · exact hread.prune hp.1
      · exact hread
    obtain ⟨m₂, h₂⟩ := returns_flushLoop hread₁
    exact ⟨m₂, returns_forEach_cons.2 ⟨m₁, h₁, h₂⟩⟩

/-- A queue that is worked off prunes what was ready. -/
theorem prunedAt_flushLoop : ∀ {heights : List Height} {m m' : Machine Disk Memory},
    heights.Nodup → Returns (Prog.forEach flushPendingPrune heights) m () m' →
      ∀ h ∈ heights, ∀ metadata, m.disk.PrunableAt h metadata →
        Disk.PrunedAt h metadata m.disk m'.disk
  | [], _, _, _, _ => by simp
  | k :: heights, m, m', hnodup, hr => by
    obtain ⟨hk, hnodup⟩ := List.nodup_cons.1 hnodup
    obtain ⟨m₁, h₁, h₂⟩ := returns_forEach_cons.1 hr
    intro h hh metadata hp
    by_cases hhk : h = k
    · -- pruned by this iteration; the rest of the queue does not name it again
      subst hhk
      obtain ⟨m₁', h₁', hcases⟩ := returns_flushPendingPrune hp.1
      obtain ⟨_, rfl⟩ := h₁.unique h₁'
      rcases hcases with ⟨metadata', hp', hdisk⟩ | ⟨hno, _⟩
      · cases hp.1.symm.trans hp'.1
        have hrest := sameAt_flushLoop (m := m₁) fun hmem => absurd hmem hk
        rw [h₂.2, hdisk] at hrest
        exact (Disk.prunedAt_prune h metadata m.disk).trans_sameAt hrest
      · exact absurd hp (hno metadata)
    · have hsame := sameAt_flushPendingPrune (m := m) (h := h) fun hkh => absurd hkh.symm hhk
      rw [h₁.2] at hsame
      have hmem : h ∈ heights := (List.mem_cons.1 hh).resolve_left hhk
      refine hsame.trans_prunedAt (prunedAt_flushLoop hnodup h₂ h hmem metadata ?_)
      unfold Disk.PrunableAt at hp ⊢
      rw [hsame.getBlobMetadata]
      exact hp

/-- The clean-up of a first commit always returns and touches nothing decided. -/
theorem returns_commitCleanup (height : Height) (round : Round) (m : Machine Disk Memory) :
    ∃ m', Returns (commitCleanup height round) m () m' ∧ (∀ n, Disk.SameAt n m.disk m'.disk) ∧
      m'.mem = m.mem.forgetRounds height := by
  obtain ⟨m', hr, hmem⟩ := returns_dropFailedRounds height round
    (afterStore m (.prune (retainHeight m.mem height)))
  refine ⟨m', ?_, fun n => ?_, hmem⟩
  · unfold commitCleanup
    exact returns_getMem_bind.2 (returns_storeWrite_bind.2 hr)
  · have hprune : Disk.SameAt n m.disk (m.disk.apply (.store (.prune (retainHeight m.mem height)))) :=
      Disk.SameAt.apply trivial
    rw [← hr.2]
    exact hprune.trans (Disk.SameAt.run (m := afterStore m _)
      (dropFailedRounds_writes (fun _ _ => trivial) fun _ _ _ => trivial))

/-- The memory when `finishCommit` prunes. -/
def Memory.finalize (height : Height) (mem : Memory) : Memory :=
  { mem with latestFinalizedHeight := max mem.latestFinalizedHeight height }

/-- **The end of a commit leaves a height alone** unless the height is queued and ready. -/
theorem sameAt_finishCommit
    (hno : h ∈ m.mem.pendingPruneHeights → ∀ metadata, ¬ m.disk.PrunableAt h metadata) :
    Disk.SameAt h m.disk ((finishCommit height).run m).state.disk := by
  unfold finishCommit
  rw [run_modifyMem_bind]
  have hflush := sameAt_flushPendingPrunes (h := h) (m := ⟨m.disk, m.mem.finalize height⟩) hno
  exact state_bind_invariant (I := fun m' => Disk.SameAt h m.disk m'.disk) hflush fun _ => hflush

theorem sameAt_finishCommit_of_not_queued (hqueue : h ∉ m.mem.pendingPruneHeights)
    (hr : Returns (finishCommit height) m () m') : Disk.SameAt h m.disk m'.disk := by
  rw [← hr.2]
  exact sameAt_finishCommit fun hmem => absurd hmem hqueue

/-- **The end of a commit**: the queue is worked off up to the height, and the next height starts. -/
theorem returns_finishCommit :
    Returns (finishCommit height) m u m' ↔
      ∃ m₁, Returns (Prog.forEach flushPendingPrune (m.mem.pendingPruneHeights.keys.filter
          fun k => k ≤ (m.mem.finalize height).finalizedHeight))
          ⟨m.disk, m.mem.finalize height⟩ () m₁ ∧
        m' = ⟨m₁.disk, { m₁.mem with
          currentHeight := max m₁.mem.currentHeight (height + 1), currentRound := .some 0 }⟩ := by
  unfold finishCommit flushPendingPrunes
  rw [returns_modifyMem_bind, returns_bind]
  simp only [returns_getMem_bind, returns_modifyMem]
  constructor
  · rintro ⟨⟨⟩, m₁, hloop, rfl⟩
    exact ⟨m₁, hloop, rfl⟩
  · rintro ⟨m₁, hloop, rfl⟩
    exact ⟨(), m₁, hloop, rfl⟩

/-- The end of a commit returns if the store is readable. -/
theorem finishCommit_of_readable (height : Height) (hread : m.disk.store.Readable) :
    ∃ m', Returns (finishCommit height) m () m' := by
  obtain ⟨m₁, hloop⟩ := returns_flushLoop (m := ⟨m.disk, m.mem.finalize height⟩) hread
  exact ⟨_, returns_finishCommit.2 ⟨m₁, hloop, rfl⟩⟩

/-- **The end of a commit, at one height**: pruned if it is queued and ready, else left alone. -/
theorem finishCommit_cases (hle : h ≤ height) (hr : Returns (finishCommit height) m () m') :
    (∃ metadata, h ∈ m.mem.pendingPruneHeights ∧ m.disk.PrunableAt h metadata ∧
        Disk.PrunedAt h metadata m.disk m'.disk) ∨
      ((h ∈ m.mem.pendingPruneHeights → ∀ metadata, ¬ m.disk.PrunableAt h metadata) ∧
        Disk.SameAt h m.disk m'.disk) := by
  by_cases hready : h ∈ m.mem.pendingPruneHeights ∧ ∃ metadata, m.disk.PrunableAt h metadata
  · obtain ⟨hmem, metadata, hp⟩ := hready
    obtain ⟨m₁, hloop, rfl⟩ := returns_finishCommit.1 hr
    have hfinal : h ≤ (m.mem.finalize height).finalizedHeight :=
      le_trans hle (le_trans (le_max_right _ _) (le_max_right _ _))
    refine .inl ⟨metadata, hmem, hp, prunedAt_flushLoop ?_ hloop h ?_ metadata hp⟩
    · exact List.Nodup.filter _ Std.ExtTreeMap.nodup_keys
    · exact List.mem_filter.2 ⟨Std.ExtTreeMap.mem_keys.2 hmem, decide_eq_true hfinal⟩
  · have hno : h ∈ m.mem.pendingPruneHeights → ∀ metadata, ¬ m.disk.PrunableAt h metadata :=
      fun hmem metadata hp => hready ⟨hmem, metadata, hp⟩
    refine .inr ⟨hno, ?_⟩
    rw [← hr.2]
    exact sameAt_finishCommit hno

end Cleanup

/-! ## `commit` -/

section Commit

variable {cfg : Config} {c : CommitCertificate} {m m' : Machine Disk Memory}

/-- **A commit that returns** is a first commit or a replay, followed by the end of the commit. -/
theorem returns_commit :
    Returns (commit cfg c) m u m' ↔
      ∃ m₁, Returns (finishCommit c.height) m₁ () m' ∧
        ((∃ p, m.disk.store.undecidedProposals[Slot.mk c.height c.round]? = some p ∧
            Returns (commitProposal cfg c p) m () m₁) ∨
          (m.disk.store.undecidedProposals[Slot.mk c.height c.round]? = none ∧
            (m.disk.store.decidedValues[c.height]?).isSome ∧
            Returns (commitReplay cfg c) m () m₁)) := by
  unfold commit commitHeight
  rw [returns_bind]
  simp only [returns_getDisk_bind]
  constructor
  · rintro ⟨⟨⟩, m₁, h₁, h₂⟩
    refine ⟨m₁, h₂, ?_⟩
    split at h₁
    · rename_i p hp
      exact .inl ⟨p, hp, h₁⟩
    · rename_i hp hd
      exact .inr ⟨hp, by rw [hd]; rfl, h₁⟩
    · exact absurd h₁ returns_fail
  · rintro ⟨m₁, h₂, ⟨p, hp, h₁⟩ | ⟨hp, hd, h₁⟩⟩
    · refine ⟨(), m₁, ?_, h₂⟩
      rw [hp]
      exact h₁
    · obtain ⟨dv, hdv⟩ := Option.isSome_iff_exists.1 hd
      refine ⟨(), m₁, ?_, h₂⟩
      rw [hp, hdv]
      exact h₁

/-- A first commit: the four transactions, then a clean-up that touches nothing decided. -/
theorem returns_commitProposal (hr : Returns (commitProposal cfg c p) m () m') :
    c.round ≠ .nil ∧ c.round.asI64 ≤ i32Max ∧
      ∃ metadata, m.disk.store.promoted ⟨c.height, c.round⟩ = some metadata ∧
        (∀ n, Disk.SameAt n ⟨m.disk.store.committed cfg c p, m.disk.blobs⟩ m'.disk) ∧
        m'.mem = (m.mem.withBlobRoot cfg c.height metadata).forgetRounds c.height := by
  unfold commitProposal at hr
  obtain ⟨_, m₁, htables, hcleanup⟩ := returns_bind.1 hr
  obtain ⟨hnil, hle, metadata, hmetadata, rfl⟩ := returns_commitTables.1 htables
  obtain ⟨m₂, hcleanup', hsame, hmem⟩ := returns_commitCleanup c.height c.round
    ⟨⟨m.disk.store.committed cfg c p, m.disk.blobs⟩, m.mem.withBlobRoot cfg c.height metadata⟩
  obtain ⟨_, rfl⟩ := hcleanup.unique hcleanup'
  exact ⟨hnil, hle, metadata, hmetadata, hsame, hmem⟩

/-- A first commit of a readable store returns once the round has a wire form and the metadata of
the slot is there. -/
theorem commit_of_proposal {p : ProposedValue} {metadata : BlobMetadata}
    (hp : m.disk.store.undecidedProposals[Slot.mk c.height c.round]? = some p)
    (hnil : c.round ≠ .nil) (hle : c.round.asI64 ≤ i32Max)
    (hmetadata : m.disk.store.promoted ⟨c.height, c.round⟩ = some metadata)
    (hread : m.disk.store.Readable) :
    ∃ m₁ m', Returns (commit cfg c) m () m' ∧ Returns (finishCommit c.height) m₁ () m' ∧
      (∀ n, Disk.SameAt n ⟨m.disk.store.committed cfg c p, m.disk.blobs⟩ m₁.disk) ∧
      m₁.mem = (m.mem.withBlobRoot cfg c.height metadata).forgetRounds c.height ∧
      m₁.disk.store.Readable := by
  obtain ⟨m₁, hcleanup, hsame, hmem⟩ := returns_commitCleanup c.height c.round
    ⟨⟨m.disk.store.committed cfg c p, m.disk.blobs⟩, m.mem.withBlobRoot cfg c.height metadata⟩
  have htables : Returns (commitTables cfg c p) m () ⟨⟨m.disk.store.committed cfg c p,
      m.disk.blobs⟩, m.mem.withBlobRoot cfg c.height metadata⟩ :=
    returns_commitTables.2 ⟨hnil, hle, metadata, hmetadata, rfl⟩
  have hread₁ : m₁.disk.store.Readable := by
    intro n row hrow r hr
    rw [(hsame n).metadata] at hrow
    rw [(hsame n).archiveRecords] at hr
    have hrecords : (m.disk.store.committed cfg c p).archiveRecords n =
        m.disk.store.archiveRecords n := by
      unfold Store.archiveRecords
      rw [(Store.committed_fields m.disk.store cfg c p).2.2.1]
    simp only [hrecords] at hr
    simp only [Store.committed_metadata] at hrow
    split at hrow
    · -- the promoted row: it was read back, so it has a blob for every record
      rename_i hn
      subst hn
      obtain ⟨row', hrow', hhydrate⟩ := Option.bind_eq_some_iff.1 hmetadata
      rw [hrow] at hrow'
      cases hrow'
      exact Store.isSome_hydrate.1 (Option.isSome_iff_exists.2 ⟨metadata, hhydrate⟩) r hr
    · exact hread n row hrow r hr
  obtain ⟨m', hfinish⟩ := finishCommit_of_readable c.height hread₁
  exact ⟨m₁, m', returns_commit.2 ⟨m₁, hfinish, .inl ⟨p, hp, htables.bind hcleanup⟩⟩, hfinish,
    hsame, hmem, hread₁⟩

end Commit

/-! ## `process_decided_certificate` -/

section Decided

variable {cfg : Config} {c : CommitCertificate} {m m' : Machine Disk Memory}

/-- The memories agree on everything but the engine's state and the counters. -/
def Memory.SameChain (a b : Memory) : Prop :=
  ∃ degraded head txs bytes, b = { a with
    elDegraded := degraded, lastFcuHead := head, txsCount := txs, chainBytes := bytes }

theorem Memory.sameChain_markElDegraded (a : Memory) : a.SameChain a.markElDegraded :=
  ⟨true, none, a.txsCount, a.chainBytes, rfl⟩

/-- The checks of an imported block read only the chain. -/
theorem checkImported_congr {b : Memory} (h : a.SameChain b) (height : Height)
    (payload : ExecutionPayloadV3) :
    checkImported b height payload = checkImported a height payload := by
  obtain ⟨_, _, _, _, rfl⟩ := h
  rfl

theorem checkImported_eq_ok {mem : Memory} {payload : ExecutionPayloadV3} :
    checkImported mem height payload = .ok () ↔ payload.prevRandao = loadPrevRandao ∧
      (mem.executedHeight + 1 = height →
        mem.latestBlock.all fun b => b.blockHash = payload.parentHash) := by
  unfold checkImported
  simp only [Exit.bind_eq_ok, Exit.ensure_eq_ok, exists_const]

/-- **What an import that returns has gone through**: the engine was still syncing when the time was
up, or it has answered the final forkchoice update, or it was still syncing there. -/
theorem importBlock_cases {payload : ExecutionPayloadV3} {script : EngineScript} {applied : Bool}
    (hr : Returns (importBlock height payload script) m (status, applied) m') :
    checkImported m.mem height payload = .ok () ∧ ∃ answered, answered ≠ .invalid ∧
      ((newPayloadLoop script.newPayload = .ok (answered, true) ∧ status = answered ∧
          applied = false ∧ m' = mapMem Memory.markElDegraded m) ∨
        (newPayloadLoop script.newPayload = .ok (answered, false) ∧
          forkchoiceLoop script.forkchoice = .ok applied ∧
          ((applied = true ∧ status = answered ∧ m' = m) ∨
            (applied = false ∧ status = .syncing ∧ m' = mapMem Memory.markElDegraded m)))) := by
  unfold importBlock at hr
  obtain ⟨⟨answered, pending⟩, hnew, hr⟩ := returns_ofExit_bind.1 hr
  obtain ⟨_, m₁, hm₁, hr⟩ := returns_bind.1 hr
  rw [returns_onlyIf, returns_modifyMem] at hm₁
  obtain ⟨_, hvalid, hr⟩ := returns_ofExit_bind.1 hr
  rw [returns_getMem_bind] at hr
  obtain ⟨_, hcheck, hr⟩ := returns_ofExit_bind.1 hr
  have hvalid : answered ≠ .invalid := Exit.ensure_eq_ok.1 hvalid
  rcases hm₁ with ⟨rfl, rfl⟩ | ⟨hpending, rfl⟩
  · rw [if_pos rfl, returns_pure] at hr
    obtain ⟨hres, rfl⟩ := hr
    cases hres
    rw [checkImported_congr m.mem.sameChain_markElDegraded] at hcheck
    exact ⟨hcheck, _, hvalid, .inl ⟨hnew, rfl, rfl, rfl⟩⟩
  · rw [if_neg hpending] at hr
    rw [Bool.not_eq_true] at hpending
    rw [hpending] at hnew
    obtain ⟨answer, hfinal, hr⟩ := returns_ofExit_bind.1 hr
    refine ⟨hcheck, answered, hvalid, .inr ⟨hnew, ?_⟩⟩
    cases answer with
    | true =>
      rw [if_pos rfl, returns_pure] at hr
      obtain ⟨hres, rfl⟩ := hr
      cases hres
      exact ⟨hfinal, .inl ⟨rfl, rfl, rfl⟩⟩
    | false =>
      rw [if_neg (by simp), returns_modifyMem_bind, returns_pure] at hr
      obtain ⟨hres, rfl⟩ := hr
      cases hres
      exact ⟨hfinal, .inr ⟨rfl, rfl, rfl⟩⟩

/-- An import that returns has changed nothing but the engine's state. -/
theorem returns_importBlock_cases {payload : ExecutionPayloadV3} {script : EngineScript}
    {r : PayloadStatus × Bool} (hr : Returns (importBlock height payload script) m r m') :
    m' = m ∨ m' = mapMem Memory.markElDegraded m := by
  obtain ⟨_, _, _, ⟨_, _, _, h⟩ | ⟨_, _, ⟨_, _, h⟩ | ⟨_, _, h⟩⟩⟩ := importBlock_cases hr
  · exact .inr h
  · exact .inl h
  · exact .inr h

/-- An engine that imports the block and applies the forkchoice. -/
def EngineScript.Accepts (script : EngineScript) (status : PayloadStatus) : Prop :=
  newPayloadLoop script.newPayload = .ok (status, false) ∧ status ≠ .invalid ∧
    forkchoiceLoop script.forkchoice = .ok true

/-- With an engine that accepts, the import returns once the checks pass. -/
theorem returns_importBlock {payload : ExecutionPayloadV3} {script : EngineScript}
    (hscript : script.Accepts status) (hcheck : checkImported m.mem height payload = .ok ()) :
    Returns (importBlock height payload script) m (status, true) m := by
  obtain ⟨hnew, hstatus, hfcu⟩ := hscript
  unfold importBlock
  refine returns_ofExit_bind.2 ⟨_, hnew, ?_⟩
  refine Returns.bind (a := ()) (returns_onlyIf.2 (.inr ⟨by simp, rfl⟩)) ?_
  refine returns_ofExit_bind.2 ⟨(), Exit.ensure_eq_ok.2 hstatus, ?_⟩
  refine returns_getMem_bind.2 (returns_ofExit_bind.2 ⟨(), hcheck, ?_⟩)
  rw [if_neg (by simp)]
  refine returns_ofExit_bind.2 ⟨true, hfcu, ?_⟩
  rw [if_pos rfl]
  exact returns_pure.2 ⟨rfl, rfl⟩

theorem foldl_promoteWrites (height : Height) :
    ∀ (entries : List (BlobKey × BlobSidecar)) (d : Disk),
      (promoteWrites height entries).foldl (fun d w => DiskOp.apply w d) d =
        { d with blobs := d.blobs.move height entries }
  | [], _ => rfl
  | e :: entries, d => by
    have hcons : promoteWrites height (e :: entries) =
        .blob (.putDecided height e.2) :: .blob (.deleteUndecided e.1) ::
          promoteWrites height entries := rfl
    rw [hcons, List.foldl_cons, List.foldl_cons, foldl_promoteWrites height entries]
    rfl

theorem returns_markDecided :
    Returns (markDecided height round) m u m' ↔
      m' = { m with disk := { m.disk with blobs := m.disk.blobs.promote height round } } := by
  unfold markDecided
  rw [returns_getDisk_bind, returns_writeAll, foldl_promoteWrites]
  exact eq_comm

/-- What a replay leaves of the blobs: promoted once more. -/
theorem returns_commitReplay (hr : Returns (commitReplay cfg c) m () m') :
    m'.disk.blobs = m.disk.blobs.promote c.height c.round.asI64 ∧
      m'.mem.pendingPruneHeights = m.mem.pendingPruneHeights := by
  unfold commitReplay at hr
  obtain ⟨_, m₁, hmark, hr⟩ := returns_bind.1 hr
  rw [returns_markDecided] at hmark
  subst hmark
  rw [returns_getDisk_bind] at hr
  unfold cacheBlobRoot at hr
  split at hr
  · rw [returns_modifyMem] at hr
    subst hr
    exact ⟨rfl, rfl⟩
  · split at hr
    · -- the row is there, so it is promoted
      rename_i row hrow
      obtain ⟨r, m₂, hattempt, hr⟩ := returns_bind.1 hr
      rw [returns_modifyMem] at hr
      subst hr
      have hsome : (m.disk.store.promotedRow ⟨c.height, c.round⟩).isSome := by
        unfold Store.promotedRow
        rw [show m.disk.store.blobMetadataUndecided[Slot.mk c.height c.round]? = some row from hrow]
        rfl
      obtain ⟨_, rfl⟩ := hattempt.unique (returns_attempt.2 (.inl ⟨(), rfl,
        returns_markBlobMetadataDecided.2 ⟨hsome, rfl⟩⟩))
      exact ⟨rfl, rfl⟩
    · obtain ⟨_, rfl⟩ := returns_pure.1 hr
      exact ⟨rfl, rfl⟩
  · obtain ⟨_, rfl⟩ := returns_pure.1 hr
    exact ⟨rfl, rfl⟩

/-- The blobs a decision imports with: promoted, unless they were before. -/
def BlobStore.forImport (b : BlobStore) (slot : Slot) (alreadyDecided : Bool) : BlobStore :=
  if alreadyDecided then b else b.promote slot.height slot.round.asI64

/-- A decision is checked against the blobs of its round, if it has some. -/
theorem BlobStore.forDecision_of_round {slot : Slot}
    (h : b.getUndecidedBlobs slot.height slot.round.asI64 ≠ []) :
    b.forDecision slot = b.getUndecidedBlobs slot.height slot.round.asI64 ∧
      b.alreadyDecided slot = false := by
  refine ⟨?_, decide_eq_false fun hdone => h hdone.1⟩
  unfold BlobStore.forDecision
  split
  · rename_i hnil
    exact absurd hnil h
  · rfl

/-- Else against the decided ones. -/
theorem BlobStore.forDecision_of_empty {slot : Slot}
    (h : b.getUndecidedBlobs slot.height slot.round.asI64 = []) :
    b.forDecision slot = b.getDecidedBlobs slot.height := by
  unfold BlobStore.forDecision
  rw [h]

/-- Which there are, for hashes that were found. -/
theorem BlobStore.alreadyDecided_of_empty {slot : Slot} {o : Oracles} {hashes : List B256}
    (h : b.getUndecidedBlobs slot.height slot.round.asI64 = [])
    (hhashes : versionedHashesFromSidecars o (b.forDecision slot) = hashes) (hne : hashes ≠ []) :
    b.alreadyDecided slot = true := by
  refine decide_eq_true ⟨h, fun hdecided => hne ?_⟩
  rw [← hhashes, forDecision_of_empty h, hdecided]
  rfl

/-- The machine once the blobs of a checked decision are promoted. -/
def importing (slot : Slot) (check : DecidedCheck) (m : Machine Disk Memory) : Machine Disk Memory :=
  ⟨⟨m.disk.store, m.disk.blobs.forImport slot check.alreadyDecided⟩, m.mem⟩

/-- What `process_decided_certificate` does once the blobs are promoted. -/
def importAndCommit (cfg : Config) (c : CommitCertificate) (bytes : Bytes) (script : EngineScript)
    (check : DecidedCheck) : Act DecidedOutcome := do
  let (status, applied) ← importBlock c.height check.payload script
  Prog.modifyMem (Memory.countBlock check.payload bytes)
  commit cfg c
  finishDecided cfg ⟨c.height, c.round⟩ check bytes status applied

/-- The promotion always returns. -/
theorem returns_importing (c : CommitCertificate) (check : DecidedCheck) (m : Machine Disk Memory) :
    Returns (Prog.onlyIf ((!check.alreadyDecided) = true) (markDecided c.height c.round.asI64)) m ()
      (importing ⟨c.height, c.round⟩ check m) := by
  unfold importing BlobStore.forImport
  cases check.alreadyDecided with
  | true => exact returns_onlyIf.2 (.inr ⟨by simp, rfl⟩)
  | false => exact returns_onlyIf.2 (.inl ⟨rfl, returns_markDecided.2 rfl⟩)

/-- **A decision is its checks, the promotion of the blobs, and the rest.** -/
theorem processDecided_of_check (script : EngineScript)
    (hcheck : checkDecided cfg m.disk ⟨c.height, c.round⟩ bytes = .ok check) :
    ((processDecidedCertificate cfg c bytes script).run m).exit =
        ((importAndCommit cfg c bytes script check).run
          (importing ⟨c.height, c.round⟩ check m)).exit ∧
      ((processDecidedCertificate cfg c bytes script).run m).state =
        ((importAndCommit cfg c bytes script check).run
          (importing ⟨c.height, c.round⟩ check m)).state := by
  unfold processDecidedCertificate
  simp only [run_getDisk_bind]
  rw [run_ofExit_bind hcheck]
  exact ⟨(returns_importing c check m).exit_bind, (returns_importing c check m).state_bind⟩

theorem returns_processDecided {script : EngineScript} {out : DecidedOutcome} :
    Returns (processDecidedCertificate cfg c bytes script) m out m' ↔
      ∃ check, checkDecided cfg m.disk ⟨c.height, c.round⟩ bytes = .ok check ∧
        Returns (importAndCommit cfg c bytes script check) (importing ⟨c.height, c.round⟩ check m)
          out m' := by
  unfold processDecidedCertificate
  rw [returns_getDisk_bind, returns_ofExit_bind]
  refine exists_congr fun check => and_congr_right fun _ =>
    ⟨fun hr => ?_, fun hr => (returns_importing c check m).bind hr⟩
  obtain ⟨_, _, hpromote, hr⟩ := returns_bind.1 hr
  obtain ⟨_, rfl⟩ := hpromote.unique (returns_importing c check m)
  exact hr

theorem total_finishDecided (cfg : Config) (slot : Slot) (check : DecidedCheck) (bytes : Bytes)
    (status : PayloadStatus) (applied : Bool) :
    Total (finishDecided cfg slot check bytes status applied) :=
  (Total.modifyMem _).bind fun _ => (Total.onlyIf (Total.modifyMem _)).bind fun _ =>
    total_getDisk.bind fun _ => (Total.onlyIf (Total.modifyMem _)).bind fun _ => Total.pure _

/-- **What follows the commit** writes nothing, and moves the chain and the archive queue only. -/
theorem finishDecided_end {slot : Slot} {applied : Bool} {out : DecidedOutcome}
    (hr : Returns (finishDecided cfg slot check bytes status applied) m out m') :
    out.executionPending = !applied ∧ out.payloadStatus = status ∧
      ∃ queue, m' = ⟨m.disk, { m.mem with
        latestBlock := some (executionBlockOfPayload check.payload)
        executedHeight := if applied then slot.height else m.mem.executedHeight
        elDegraded := !applied && m.mem.elDegraded
        pendingArchiveHeights := queue }⟩ := by
  unfold finishDecided at hr
  simp only [returns_modifyMem_bind, returns_bind (p := Prog.onlyIf _ _), returns_onlyIf,
    returns_modifyMem, returns_getDisk_bind, returns_pure] at hr
  obtain ⟨_, m₁, happlied, _, m₂, hjob, rfl, rfl⟩ := hr
  refine ⟨rfl, rfl, ?_⟩
  rcases happlied with ⟨rfl, rfl⟩ | ⟨hno, rfl⟩
  · rcases hjob with ⟨_, rfl⟩ | ⟨_, rfl⟩ <;> exact ⟨_, rfl⟩
  · rw [Bool.not_eq_true] at hno
    subst hno
    rcases hjob with ⟨_, rfl⟩ | ⟨_, rfl⟩ <;> exact ⟨_, rfl⟩

/-- **What the checks before promotion establish**, and all they need. -/
theorem checkDecided_eq_ok {slot : Slot} :
    checkDecided cfg d slot bytes = .ok check ↔
      ∃ payload txHashes, bytes ≠ [] ∧ cfg.oracles.fromSszBytes bytes = some payload ∧
        cfg.oracles.tryIntoBlock payload = some txHashes ∧
        ((expectedHashes cfg d.store slot txHashes = [] ∧ check = ⟨payload, [], false⟩) ∨
          (expectedHashes cfg d.store slot txHashes ≠ [] ∧
            versionedHashesFromSidecars cfg.oracles (d.blobs.forDecision slot) =
              expectedHashes cfg d.store slot txHashes ∧
            check = ⟨payload, expectedHashes cfg d.store slot txHashes,
              d.blobs.alreadyDecided slot⟩)) := by
  unfold checkDecided
  simp only [Exit.bind_eq_ok, Exit.ensure_eq_ok, Exit.ofOption_eq_ok, exists_const]
  constructor
  · rintro ⟨hne, payload, hpayload, txHashes, htx, hrest⟩
    refine ⟨payload, txHashes, hne, hpayload, htx, ?_⟩
    split at hrest
    · rename_i hnil
      rw [hnil] at hrest
      cases hrest
      exact .inl ⟨hnil, rfl⟩
    · rename_i hnil
      simp only [Exit.bind_eq_ok, Exit.ensure_eq_ok, exists_const, Exit.pure_eq_ok,
        Exit.ok.injEq] at hrest
      exact .inr ⟨hnil, hrest.2.1, hrest.2.2.symm⟩
  · rintro ⟨payload, txHashes, hne, hpayload, htx, hrest⟩
    refine ⟨hne, payload, hpayload, txHashes, htx, ?_⟩
    rcases hrest with ⟨hnil, rfl⟩ | ⟨hnil, hhashes, rfl⟩
    · rw [if_pos hnil, hnil]
      rfl
    · have hlen : (d.blobs.forDecision slot).length =
          (expectedHashes cfg d.store slot txHashes).length := by
        rw [← hhashes, versionedHashesFromSidecars, List.length_map]
      rw [if_neg hnil]
      simp only [Exit.bind_eq_ok, Exit.ensure_eq_ok, exists_const]
      exact ⟨hlen, hhashes, rfl⟩

/-- If the undecided blobs of the height are all of the round, the import leaves none. -/
theorem noUndecided_forImport {slot : Slot} (hcheck : checkDecided cfg d slot bytes = .ok check)
    (hround : ∀ (k : BlobKey) (s : BlobSidecar), d.blobs.undecided[k]? = some s → k.height = slot.height → k.round = slot.round.asI64) :
    (d.blobs.forImport slot check.alreadyDecided).NoUndecided slot.height := by
  unfold BlobStore.forImport
  split
  · rename_i hdone
    refine BlobStore.noUndecided_of_round hround ?_
    obtain ⟨_, _, _, _, _, ⟨_, rfl⟩ | ⟨_, _, rfl⟩⟩ := checkDecided_eq_ok.1 hcheck
    · cases hdone
    · exact (of_decide_eq_true hdone).1
  · exact BlobStore.noUndecided_promote hround

/-- A block whose round has undecided blobs is not decided already. -/
theorem alreadyDecided_of_round {slot : Slot} (hcheck : checkDecided cfg d slot bytes = .ok check)
    (hround : d.blobs.getUndecidedBlobs slot.height slot.round.asI64 ≠ []) :
    check.alreadyDecided = false := by
  obtain ⟨_, _, _, _, _, ⟨_, rfl⟩ | ⟨_, _, rfl⟩⟩ := checkDecided_eq_ok.1 hcheck
  · rfl
  · exact (BlobStore.forDecision_of_round hround).2

/-- The payload of the checks is the decoded one. -/
theorem checkDecided_payload {slot : Slot} (h : checkDecided cfg d slot bytes = .ok check) :
    cfg.oracles.fromSszBytes bytes = some check.payload := by
  obtain ⟨payload, _, _, hdecode, _, ⟨_, rfl⟩ | ⟨_, _, rfl⟩⟩ := checkDecided_eq_ok.1 h
  · exact hdecode
  · exact hdecode

/-- **What a decision that returns has gone through**: its checks, the promotion of its blobs, the
checks of the import, and a commit. -/
theorem processDecided_inversion {script : EngineScript} {out : DecidedOutcome}
    (hr : Returns (processDecidedCertificate cfg c bytes script) m out m') :
    ∃ check m₁ m₂, checkDecided cfg m.disk ⟨c.height, c.round⟩ bytes = .ok check ∧
      checkImported m.mem c.height check.payload = .ok () ∧
      m₁.disk = ⟨m.disk.store,
        m.disk.blobs.forImport ⟨c.height, c.round⟩ check.alreadyDecided⟩ ∧
      m.mem.SameChain m₁.mem ∧ Returns (commit cfg c) m₁ () m₂ ∧ m'.disk = m₂.disk ∧
      m'.mem.currentHeight = m₂.mem.currentHeight ∧
      m'.mem.latestBlock = some (executionBlockOfPayload check.payload) := by
  obtain ⟨check, hcheck, hr⟩ := returns_processDecided.1 hr
  obtain ⟨⟨status, applied⟩, m₁, himport, hr⟩ := returns_bind.1 hr
  obtain ⟨_, m₂, hcommit, hfinish⟩ := returns_bind.1 (returns_modifyMem_bind.1 hr)
  obtain ⟨_, _, _, rfl⟩ := finishDecided_end hfinish
  refine ⟨check, _, m₂, hcheck, (importBlock_cases himport).1, ?_, ?_, hcommit, rfl, rfl, rfl⟩
  · rcases returns_importBlock_cases himport with rfl | rfl <;> rfl
  · rcases returns_importBlock_cases himport with rfl | rfl <;> exact ⟨_, _, _, _, rfl⟩

/-- **A decision returns** once its checks pass, the engine accepts and the commit returns. -/
theorem processDecided_of_commit {script : EngineScript} {m₂ : Machine Disk Memory}
    (hscript : script.Accepts status)
    (hcheck : checkDecided cfg m.disk ⟨c.height, c.round⟩ bytes = .ok check)
    (himported : checkImported m.mem c.height check.payload = .ok ())
    (hcommit : Returns (commit cfg c)
      (mapMem (Memory.countBlock check.payload bytes) (importing ⟨c.height, c.round⟩ check m)) () m₂) :
    ∃ out m', Returns (processDecidedCertificate cfg c bytes script) m out m' ∧
      m'.disk = m₂.disk := by
  obtain ⟨out, m', hfinish⟩ := total_finishDecided cfg ⟨c.height, c.round⟩ check bytes status true m₂
  refine ⟨out, m', returns_processDecided.2 ⟨check, hcheck, ?_⟩, ?_⟩
  · exact (returns_importBlock (m := importing _ check m) hscript himported).bind
      (returns_modifyMem_bind.2 (hcommit.bind hfinish))
  · obtain ⟨_, _, _, rfl⟩ := finishDecided_end hfinish
    rfl

end Decided

end Ultramarine
