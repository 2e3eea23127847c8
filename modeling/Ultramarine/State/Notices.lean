import Ultramarine.State.Commit

/-!
# What archive notices leave behind

The big-step reading of `handle_archive_notice` for notices that fit a decided height which is not
finalized yet: every notice is recorded in the metadata row of the height and in the archive table,
and once the last blob is archived the height is queued for pruning. Nothing else changes.

Results:

* `returns_handleArchiveNotice`: one notice;
* `returns_handleArchiveNotices`: a list of notices for different blobs.
-/

namespace Ultramarine

open Lib Prog

/-! ## A row that has its records -/

namespace BlobMetadata

variable {m m' : BlobMetadata} {r : ArchiveRecord}

/-- Two rows with the same fields are the same row. -/
theorem ext_fields (hcore : m.core = m'.core) (hkeccak : m.blobKeccakHashes = m'.blobKeccakHashes)
    (hrecords : m.archivalRecords = m'.archivalRecords) (hpruned : m.pruned = m'.pruned) :
    m = m' := by
  obtain ⟨h, root, cs, ks, rs, p, header, hint, _, _, _⟩ := m
  obtain ⟨h', root', cs', ks', rs', p', header', hint', _, _, _⟩ := m'
  cases hcore
  cases hkeccak
  cases hrecords
  cases hpruned
  rfl

/-- Setting a record that is there changes nothing. -/
theorem setArchiveRecord?_of_status (h : m.archivalStatus r.body.blobIndex = some r) :
    m.setArchiveRecord? r = some m := by
  have hget : m.archivalRecords[r.body.blobIndex]? = some (some r) := Option.join_eq_some_iff.1 h
  obtain ⟨hlt, hval⟩ := List.getElem?_eq_some_iff.1 hget
  unfold setArchiveRecord?
  rw [if_pos hlt]
  refine congrArg some (ext_fields rfl rfl ?_ rfl)
  show m.archivalRecords.set r.body.blobIndex (some r) = m.archivalRecords
  rw [← hval, List.set_getElem_self]

end BlobMetadata

variable {row : BlobMetadata} {s : Store} {notices : List ArchiveNotice} {h : Height} {i : Nat}
  {n : ArchiveNotice}

/-- A row that has all the records is read back as it is. -/
theorem Store.hydrate_of_status : ∀ {records : List ArchiveRecord},
    (∀ r ∈ records, row.archivalStatus r.body.blobIndex = some r) →
      Store.hydrate row records = some row
  | [], _ => rfl
  | r :: records, h => by
    unfold Store.hydrate
    rw [BlobMetadata.setArchiveRecord?_of_status (h r (List.mem_cons_self ..))]
    exact Store.hydrate_of_status fun r' hr' => h r' (List.mem_cons_of_mem _ hr')

/-- The decided row of a height, which has every archive record of the height. -/
structure Store.HasRow (s : Store) (h : Height) (row : BlobMetadata) : Prop where
  stored : s.blobMetadataDecided[h]? = some row
  records : ∀ r ∈ s.archiveRecords h, row.archivalStatus r.body.blobIndex = some r

theorem Store.HasRow.get (hrow : s.HasRow h row) : s.getBlobMetadata h = .ok (some row) :=
  Store.getBlobMetadata_eq_some_iff.2 ⟨row, hrow.stored, Store.hydrate_of_status hrow.records⟩

theorem Store.HasRow.congr {s' : Store} (hrow : s.HasRow h row)
    (hmetadata : s'.blobMetadataDecided = s.blobMetadataDecided)
    (hrecords : s'.blobArchival = s.blobArchival) : s'.HasRow h row := by
  refine ⟨by rw [hmetadata]; exact hrow.stored, fun r hr => hrow.records r ?_⟩
  unfold Store.archiveRecords at hr ⊢
  rwa [hrecords] at hr

/-! ## One notice -/

/-- A notice that belongs to a row: signed by the proposer of the block, for a blob of it. -/
structure ArchiveNotice.Fits (cfg : Config) (h : Height) (row : BlobMetadata) (n : ArchiveNotice) :
    Prop where
  height : n.body.height = h
  verified : ∃ v, cfg.validators.getByAddress n.body.archivedBy = some v ∧
    n.verify cfg.oracles v.publicKey = true
  proposer : ∃ i v, row.proposerIndexHint = some i ∧ cfg.validators.validators[i]? = some v ∧
    v.address = n.body.archivedBy
  commitment : row.blobKzgCommitments[n.body.blobIndex]? = some n.body.kzgCommitment
  keccak : row.blobKeccakHashes[n.body.blobIndex]? = some 0 ∨
    row.blobKeccakHashes[n.body.blobIndex]? = some n.body.blobKeccak

/-- The record a notice leaves. -/
def ArchiveNotice.record (n : ArchiveNotice) : ArchiveRecord := .fromNotice n.transmit

/-- The row once a notice is recorded in it. -/
def BlobMetadata.archive (row : BlobMetadata) (n : ArchiveNotice) : BlobMetadata :=
  ((row.updateKeccakHash n.body.blobIndex n.body.blobKeccak).setArchiveRecord? n.record).getD row

/-- The memory once the last blob of a height is archived. -/
def Memory.queuePrune (h : Height) (mem : Memory) : Memory :=
  { mem with
    pendingArchiveHeights := mem.pendingArchiveHeights.erase h
    pendingPruneHeights := mem.pendingPruneHeights.insert h () }

/-- The memory after a notice for a height whose row is `row` then. -/
def Memory.afterNotice (h : Height) (row : BlobMetadata) (mem : Memory) : Memory :=
  if row.allArchived ∧ 0 < row.blobCount then mem.queuePrune h else mem

/-- The store after a notice. -/
def Store.afterNotice (h : Height) (row : BlobMetadata) (n : ArchiveNotice) (s : Store) : Store :=
  (s.apply (.insertArchiveRecord h n.body.blobIndex n.record)).apply
    (.updateBlobMetadata h (row.archive n))

/-- The machine once the set of indices of a height is complete: the height is pruned if it is
finalized and was not pruned before, and queued if it is not finalized. -/
def completed (h : Height) (row : BlobMetadata) (m : Machine Disk Memory) : Machine Disk Memory :=
  if m.mem.isHeightFinalized h then
    if row.pruned then ⟨m.disk, { m.mem with
      pendingArchiveHeights := m.mem.pendingArchiveHeights.erase h }⟩
    else ⟨m.disk.prune h row, m.mem.unqueue h⟩
  else ⟨m.disk, m.mem.queuePrune h⟩

section Notice

variable {cfg : Config} {h : Height} {row : BlobMetadata} {n : ArchiveNotice}
  {m m' : Machine Disk Memory}

theorem ArchiveNotice.Fits.index_lt (hfit : n.Fits cfg h row) : n.body.blobIndex < row.blobCount :=
  (List.getElem?_eq_some_iff.1 hfit.commitment).1

/-- A notice for a blob of a row can be recorded in it. -/
theorem BlobMetadata.setArchiveRecord?_archive (hlt : n.body.blobIndex < row.blobCount) :
    (row.updateKeccakHash n.body.blobIndex n.body.blobKeccak).setArchiveRecord? n.record =
      some (row.archive n) := by
  have hlen : n.record.body.blobIndex <
      (row.updateKeccakHash n.body.blobIndex n.body.blobKeccak).archivalRecords.length := by
    rw [BlobMetadata.records_length]
    exact lt_of_lt_of_eq hlt (BlobMetadata.blobCount_of_core (row.core_updateKeccakHash _ _)).symm
  obtain ⟨row', hrow'⟩ : ∃ row', (row.updateKeccakHash n.body.blobIndex
      n.body.blobKeccak).setArchiveRecord? n.record = some row' := ⟨_, if_pos hlen⟩
  unfold BlobMetadata.archive
  rw [hrow']
  rfl

/-- The row of a notice: its record is set, the others stay. -/
theorem BlobMetadata.archivalStatus_archive (hlt : n.body.blobIndex < row.blobCount) (i : Nat) :
    (row.archive n).archivalStatus i =
      if n.body.blobIndex = i then some n.record else row.archivalStatus i := by
  rw [BlobMetadata.archivalStatus_setArchiveRecord? (BlobMetadata.setArchiveRecord?_archive hlt),
    BlobMetadata.archivalStatus_updateKeccakHash]
  rfl

theorem BlobMetadata.core_archive (hlt : n.body.blobIndex < row.blobCount) :
    (row.archive n).core = row.core := by
  rw [BlobMetadata.core_setArchiveRecord? (BlobMetadata.setArchiveRecord?_archive hlt),
    BlobMetadata.core_updateKeccakHash]

/-- Its hash may be set, the others stay. -/
theorem BlobMetadata.keccak_archive_of_ne (hlt : n.body.blobIndex < row.blobCount)
    (hne : n.body.blobIndex ≠ i) :
    (row.archive n).blobKeccakHashes[i]? = row.blobKeccakHashes[i]? := by
  rw [BlobMetadata.keccaks_setArchiveRecord? (BlobMetadata.setArchiveRecord?_archive hlt)]
  unfold BlobMetadata.updateKeccakHash
  split
  · exact List.getElem?_set_ne hne
  · rfl

/-- The checks of a notice that fits a row without a record for its blob. -/
theorem checkArchiveNotice_of_fits (hrow : s.HasRow h row) (hfit : n.Fits cfg h row)
    (hnew : row.archivalStatus n.body.blobIndex = none) :
    checkArchiveNotice cfg s n =
      .ok (some (row.updateKeccakHash n.body.blobIndex n.body.blobKeccak)) := by
  obtain ⟨v, hv, hverify⟩ := hfit.verified
  obtain ⟨i, w, hhint, hw, haddress⟩ := hfit.proposer
  have hproposer : proposerAddressForHeight cfg s h row.proposerIndexHint =
      some n.body.archivedBy := by
    unfold proposerAddressForHeight
    rw [hhint, Option.bind_some, hw]
    exact congrArg some haddress
  have hnew' : (row.updateKeccakHash n.body.blobIndex n.body.blobKeccak).archivalStatus
      n.body.blobIndex = none := by
    rw [BlobMetadata.archivalStatus_updateKeccakHash]
    exact hnew
  unfold checkArchiveNotice
  simp only [hv, hverify, hfit.height, hrow.get, hproposer, hfit.commitment, hfit.keccak, hnew',
    hfit.index_lt, Exit.ofOption, Exit.ensure, Exit.ok_bind, if_true, Option.all_some,
    decide_true]
  rfl

/-- Leaving the queue of the archiver twice is leaving it once. -/
theorem Memory.unqueue_erase (h : Height) (mem : Memory) :
    ({ mem with pendingArchiveHeights := mem.pendingArchiveHeights.erase h } : Memory).unqueue h =
      mem.unqueue h := by
  have herase : (mem.pendingArchiveHeights.erase h).erase h = mem.pendingArchiveHeights.erase h :=
    Table.erase_eq_self.2 ((Table.getElem?_erase_eq _ _ _).trans (if_pos rfl))
  unfold Memory.unqueue
  rw [herase]

theorem returns_finishArchive {u : Unit} :
    Returns (finishArchive h row) m u m' ↔
      m' = if row.allArchived = true ∧ 0 < row.blobCount then completed h row m else m := by
  unfold finishArchive completed
  split
  · rename_i hall
    rw [returns_modifyMem_bind, returns_getMem_bind]
    -- leaving the queue of the archiver does not move finality
    show Returns (if m.mem.isHeightFinalized h then _ else _ : Act Unit) _ u m' ↔ _
    split
    · have hcount : row.blobCount ≠ 0 := Nat.ne_of_gt hall.2
      rw [returns_pruneArchivedHeight, Memory.unqueue_erase]
      simp only [hcount, or_false]
    · rw [returns_modifyMem]
      exact eq_comm
  · rw [returns_pure]
    exact ⟨fun h => h.2.symm, fun h => ⟨rfl, h.symm⟩⟩

/-- **One notice**: it is recorded, and the height is queued if its last blob is archived. -/
theorem returns_handleArchiveNotice (hrow : m.disk.store.HasRow h row) (hfit : n.Fits cfg h row)
    (hnew : row.archivalStatus n.body.blobIndex = none) (hopen : m.mem.finalizedHeight < h) :
    Returns (handleArchiveNotice cfg n) m ()
      ⟨⟨m.disk.store.afterNotice h row n, m.disk.blobs⟩, m.mem.afterNotice h (row.archive n)⟩ := by
  unfold handleArchiveNotice
  refine returns_getDisk_bind.2 (returns_ofExit_bind.2
    ⟨_, checkArchiveNotice_of_fits hrow hfit hnew, ?_⟩)
  dsimp only
  rw [hfit.height]
  refine returns_storeWrite_bind.2 (returns_ofExit_bind.2 ⟨row.archive n, ?_, ?_⟩)
  · exact Exit.orPanic_eq_ok.2 (BlobMetadata.setArchiveRecord?_archive hfit.index_lt)
  · refine returns_storeWrite_bind.2 (returns_finishArchive.2 ?_)
    have hnot : ¬ m.mem.isHeightFinalized h = true := fun hfinal =>
      absurd (of_decide_eq_true hfinal) (not_le.2 hopen)
    have hqueue : completed h (row.archive n) ⟨⟨m.disk.store.afterNotice h row n, m.disk.blobs⟩,
        m.mem⟩ = ⟨⟨m.disk.store.afterNotice h row n, m.disk.blobs⟩, m.mem.queuePrune h⟩ := if_neg hnot
    unfold Memory.afterNotice
    split
    · exact hqueue.symm
    · rfl

/-- The archive table after a notice. -/
theorem Store.afterNotice_records (s : Store) (k : BlobIndexKey) :
    (s.afterNotice h row n).blobArchival[k]? =
      if BlobIndexKey.mk h n.body.blobIndex = k then some n.record else s.blobArchival[k]? :=
  Table.getElem?_insert_eq _ _ _ _

/-- After a notice the row has every record, if it had the others. -/
theorem Store.hasRow_afterNotice
    (hrecords : ∀ r ∈ s.archiveRecords h, row.archivalStatus r.body.blobIndex = some r)
    (hlt : n.body.blobIndex < row.blobCount) (hnew : row.archivalStatus n.body.blobIndex = none) :
    (s.afterNotice h row n).HasRow h (row.archive n) := by
  refine ⟨(Table.getElem?_insert_eq _ _ _ _).trans (if_pos rfl), fun r hr => ?_⟩
  obtain ⟨i, hget⟩ := Store.mem_archiveRecords.1 hr
  rw [Store.afterNotice_records] at hget
  rw [BlobMetadata.archivalStatus_archive hlt]
  split at hget
  · cases hget
    exact if_pos rfl
  · have hold := hrecords r (Store.mem_archiveRecords.2 ⟨i, hget⟩)
    have hne : n.body.blobIndex ≠ r.body.blobIndex := by
      intro heq
      rw [heq, hold] at hnew
      cases hnew
    rw [if_neg hne]
    exact hold

/-- A notice for another blob still fits. -/
theorem ArchiveNotice.Fits.of_archive {n' : ArchiveNotice} (hfit : n.Fits cfg h row)
    (hfit' : n'.Fits cfg h row) (hne : n.body.blobIndex ≠ n'.body.blobIndex) :
    n'.Fits cfg h (row.archive n) := by
  have hcore := BlobMetadata.core_archive hfit.index_lt
  refine ⟨hfit'.height, hfit'.verified, ?_, ?_, ?_⟩
  · obtain ⟨i, v, hhint, hrest⟩ := hfit'.proposer
    exact ⟨i, v, (congrArg BlobCore.proposerIndexHint hcore).trans hhint, hrest⟩
  · have hcommitments : (row.archive n).blobKzgCommitments = row.blobKzgCommitments :=
      congrArg BlobCore.blobKzgCommitments hcore
    rw [hcommitments]
    exact hfit'.commitment
  · rw [BlobMetadata.keccak_archive_of_ne hfit.index_lt hne]
    exact hfit'.keccak

end Notice

/-! ## A list of notices -/

/-- Nothing changed but the metadata row and the archive records of height `h`. -/
structure Disk.ArchivedAt (h : Height) (d d' : Disk) : Prop where
  store : d'.store = { d.store with
    blobMetadataDecided := d'.store.blobMetadataDecided
    blobArchival := d'.store.blobArchival }
  metadata : ∀ n, n ≠ h → d'.store.blobMetadataDecided[n]? = d.store.blobMetadataDecided[n]?
  records : ∀ k : BlobIndexKey, k.height ≠ h → d'.store.blobArchival[k]? = d.store.blobArchival[k]?
  blobs : d'.blobs = d.blobs

namespace Disk.ArchivedAt

variable {h : Height} {d₁ d₂ d₃ : Disk}

theorem refl (d : Disk) : Disk.ArchivedAt h d d := ⟨rfl, fun _ _ => rfl, fun _ _ => rfl, rfl⟩

theorem trans (h₁ : Disk.ArchivedAt h d₁ d₂) (h₂ : Disk.ArchivedAt h d₂ d₃) :
    Disk.ArchivedAt h d₁ d₃ where
  store := by rw [h₂.store, h₁.store]
  metadata n hn := (h₂.metadata n hn).trans (h₁.metadata n hn)
  records k hk := (h₂.records k hk).trans (h₁.records k hk)
  blobs := h₂.blobs.trans h₁.blobs

theorem afterNotice (row : BlobMetadata) (n : ArchiveNotice) (d : Disk) :
    Disk.ArchivedAt h d ⟨d.store.afterNotice h row n, d.blobs⟩ where
  store := rfl
  metadata _ hk := (Table.getElem?_insert_eq _ _ _ _).trans (if_neg hk.symm)
  records _ hk := (Store.afterNotice_records _ _).trans
    (if_neg fun heq => hk (congrArg BlobIndexKey.height heq).symm)
  blobs := rfl

/-- Other heights are left alone. -/
theorem sameAt (hd : Disk.ArchivedAt h d₁ d₂) {n : Height} (hn : n ≠ h) : Disk.SameAt n d₁ d₂ := by
  refine ⟨?_, ?_, ?_, hd.metadata n hn, fun i => hd.records _ hn, fun i => ?_⟩
  · rw [hd.store]
  · rw [hd.store]
  · rw [hd.store]
  · rw [hd.blobs]

end Disk.ArchivedAt

/-- The row once a list of notices is recorded in it. -/
def BlobMetadata.archiveAll (row : BlobMetadata) (notices : List ArchiveNotice) : BlobMetadata :=
  notices.foldl BlobMetadata.archive row

/-- The memories agree on everything but the queues of the archiver. -/
def Memory.SameButQueues (a b : Memory) : Prop :=
  ∃ archive prune, b = { a with pendingArchiveHeights := archive, pendingPruneHeights := prune }

theorem Memory.SameButQueues.refl (a : Memory) : a.SameButQueues a :=
  ⟨a.pendingArchiveHeights, a.pendingPruneHeights, rfl⟩

theorem Memory.SameButQueues.trans {a b c : Memory} (h : a.SameButQueues b)
    (h' : b.SameButQueues c) : a.SameButQueues c := by
  obtain ⟨_, _, rfl⟩ := h
  obtain ⟨x, y, rfl⟩ := h'
  exact ⟨x, y, rfl⟩

theorem Memory.sameButQueues_afterNotice (h : Height) (row : BlobMetadata) (mem : Memory) :
    mem.SameButQueues (mem.afterNotice h row) := by
  unfold Memory.afterNotice
  split
  · exact ⟨_, _, rfl⟩
  · exact .refl mem

section Notices

variable {cfg : Config} {h : Height}

theorem BlobMetadata.archiveAll_cons (row : BlobMetadata) (n : ArchiveNotice)
    (notices : List ArchiveNotice) :
    row.archiveAll (n :: notices) = (row.archive n).archiveAll notices := rfl

/-- Notices for different blobs that all fit a row, which has a record for none of them. -/
structure NoticesFit (cfg : Config) (h : Height) (row : BlobMetadata)
    (notices : List ArchiveNotice) : Prop where
  nodup : (notices.map (·.body.blobIndex)).Nodup
  fits : ∀ n ∈ notices, n.Fits cfg h row
  new : ∀ n ∈ notices, row.archivalStatus n.body.blobIndex = none

theorem NoticesFit.head (hfit : NoticesFit cfg h row (n :: notices)) :
    n.Fits cfg h row ∧ row.archivalStatus n.body.blobIndex = none :=
  ⟨hfit.fits n (List.mem_cons_self ..), hfit.new n (List.mem_cons_self ..)⟩

/-- The other notices fit the row that the first one leaves. -/
theorem NoticesFit.tail {row : BlobMetadata} {n : ArchiveNotice} {notices : List ArchiveNotice}
    (hfit : NoticesFit cfg h row (n :: notices)) : NoticesFit cfg h (row.archive n) notices := by
  obtain ⟨hn, hnodup⟩ := List.nodup_cons.1 hfit.nodup
  have hne : ∀ n' ∈ notices, n.body.blobIndex ≠ n'.body.blobIndex := fun n' hn' heq =>
    hn (List.mem_map.2 ⟨n', hn', heq.symm⟩)
  refine ⟨hnodup, fun n' hn' => ?_, fun n' hn' => ?_⟩
  · exact hfit.head.1.of_archive (hfit.fits n' (List.mem_cons_of_mem _ hn')) (hne n' hn')
  · rw [BlobMetadata.archivalStatus_archive hfit.head.1.index_lt, if_neg (hne n' hn')]
    exact hfit.new n' (List.mem_cons_of_mem _ hn')

/-- No later notice has the index of the first. -/
theorem NoticesFit.find?_tail (hfit : NoticesFit cfg h row (n :: notices))
    (hi : n.body.blobIndex = i) : notices.find? (·.body.blobIndex = i) = none := by
  refine List.find?_eq_none.2 fun n' hn' heq => (List.nodup_cons.1 hfit.nodup).1 ?_
  exact List.mem_map.2 ⟨n', hn', (of_decide_eq_true heq).trans hi.symm⟩

/-- The records of a row once a list of notices is recorded. -/
theorem archivalStatus_archiveAll : ∀ {notices : List ArchiveNotice} {row : BlobMetadata},
    NoticesFit cfg h row notices → ∀ i, (row.archiveAll notices).archivalStatus i =
      ((notices.find? (·.body.blobIndex = i)).map ArchiveNotice.record <|> row.archivalStatus i)
  | [], _, _, _ => rfl
  | n :: notices, row, hfit, i => by
    rw [BlobMetadata.archiveAll_cons, archivalStatus_archiveAll hfit.tail,
      BlobMetadata.archivalStatus_archive hfit.head.1.index_lt]
    by_cases hi : n.body.blobIndex = i
    · simp [hi, hfit.find?_tail hi]
    · simp [hi]

theorem core_archiveAll : ∀ {notices : List ArchiveNotice} {row : BlobMetadata},
    NoticesFit cfg h row notices → (row.archiveAll notices).core = row.core
  | [], _, _ => rfl
  | n :: notices, row, hfit => by
    rw [BlobMetadata.archiveAll_cons, core_archiveAll hfit.tail,
      BlobMetadata.core_archive hfit.head.1.index_lt]

theorem pruned_archive (row : BlobMetadata) (n : ArchiveNotice) :
    (row.archive n).pruned = row.pruned := by
  unfold BlobMetadata.archive BlobMetadata.setArchiveRecord?
  split
  · unfold BlobMetadata.updateKeccakHash
    split <;> rfl
  · rfl

theorem pruned_archiveAll : ∀ (notices : List ArchiveNotice) (row : BlobMetadata),
    (row.archiveAll notices).pruned = row.pruned
  | [], _ => rfl
  | n :: notices, row => by
    rw [BlobMetadata.archiveAll_cons, pruned_archiveAll notices, pruned_archive]

theorem blobCount_of_core {a b : BlobMetadata} (h : a.core = b.core) : a.blobCount = b.blobCount :=
  congrArg (fun c : BlobCore => c.blobKzgCommitments.length) h

theorem allArchived_iff :
    row.allArchived = true ↔ ∀ i < row.blobCount, (row.archivalStatus i).isSome = true := by
  unfold BlobMetadata.allArchived
  simp only [List.all_eq_true, List.mem_range]

/-- A blob stays archived. -/
theorem allArchived_archiveAll (hfit : NoticesFit cfg h row notices)
    (hall : row.allArchived = true) : (row.archiveAll notices).allArchived = true := by
  rw [allArchived_iff] at hall ⊢
  intro i hi
  rw [blobCount_of_core (core_archiveAll hfit)] at hi
  rw [archivalStatus_archiveAll hfit]
  cases notices.find? (·.body.blobIndex = i) with
  | none => exact hall i hi
  | some n => rfl

/-- What a list of notices leaves: the row with all records, the records, and a queued height if
every blob is archived. -/
structure NoticesDone (h : Height) (row : BlobMetadata) (notices : List ArchiveNotice)
    (m m' : Machine Disk Memory) : Prop where
  hasRow : m'.disk.store.HasRow h (row.archiveAll notices)
  archived : Disk.ArchivedAt h m.disk m'.disk
  records : ∀ i, m'.disk.store.blobArchival[BlobIndexKey.mk h i]? =
    ((notices.find? (·.body.blobIndex = i)).map ArchiveNotice.record <|>
      m.disk.store.blobArchival[BlobIndexKey.mk h i]?)
  mem : m.mem.SameButQueues m'.mem
  queued : (row.archiveAll notices).allArchived = true → 0 < row.blobCount → notices ≠ [] →
    h ∈ m'.mem.pendingPruneHeights
  unqueued : (row.archiveAll notices).allArchived = false →
    h ∉ m.mem.pendingPruneHeights → h ∉ m'.mem.pendingPruneHeights

/-- **A list of notices** for different blobs is recorded as a whole. -/
theorem returns_handleArchiveNotices : ∀ {notices : List ArchiveNotice} {row : BlobMetadata}
    {m : Machine Disk Memory}, NoticesFit cfg h row notices → m.disk.store.HasRow h row →
    m.mem.finalizedHeight < h →
    ∃ m', Returns (handleArchiveNotices cfg notices) m () m' ∧ NoticesDone h row notices m m'
  | [], row, m, _, hrow, _ =>
    ⟨m, returns_forEach_nil.2 rfl, hrow, .refl _, fun _ => rfl, .refl _, fun _ _ h => absurd rfl h,
      fun _ h => h⟩
  | n :: notices, row, m, hfit, hrow, hopen => by
    obtain ⟨hn, hnew⟩ := hfit.head
    let m₁ : Machine Disk Memory :=
      ⟨⟨m.disk.store.afterNotice h row n, m.disk.blobs⟩, m.mem.afterNotice h (row.archive n)⟩
    have hone : Returns (handleArchiveNotice cfg n) m () m₁ :=
      returns_handleArchiveNotice hrow hn hnew hopen
    have hmem₁ : m.mem.SameButQueues m₁.mem := Memory.sameButQueues_afterNotice _ _ _
    have hopen₁ : m₁.mem.finalizedHeight < h := by
      obtain ⟨_, _, heq⟩ := hmem₁
      rw [heq]
      exact hopen
    obtain ⟨m', hrest, hdone⟩ := returns_handleArchiveNotices hfit.tail
      (Store.hasRow_afterNotice hrow.records hn.index_lt hnew) hopen₁
    refine ⟨m', returns_forEach_cons.2 ⟨m₁, ?_, hrest⟩, ?_, ?_, fun i => ?_, ?_, ?_, ?_⟩
    · exact Returns.bind (returns_attempt.2 (.inl ⟨(), rfl, hone⟩)) (returns_pure.2 ⟨rfl, rfl⟩)
    · exact hdone.hasRow
    · exact (Disk.ArchivedAt.afterNotice row n m.disk).trans hdone.archived
    · rw [hdone.records, Store.afterNotice_records]
      by_cases hi : n.body.blobIndex = i
      · simp [hi, hfit.find?_tail hi]
      · simp [hi]
    · exact hmem₁.trans hdone.mem
    · intro hall hpos _
      have hcount : 0 < (row.archive n).blobCount := by
        rw [blobCount_of_core (BlobMetadata.core_archive hn.index_lt)]
        exact hpos
      by_cases hlast : notices = []
      · subst hlast
        have hm' : m₁ = m' := returns_forEach_nil.1 hrest
        rw [← hm']
        show h ∈ (m.mem.afterNotice h (row.archive n)).pendingPruneHeights
        unfold Memory.afterNotice
        rw [if_pos ⟨hall, hcount⟩]
        exact Std.ExtTreeMap.mem_insert_self
      · exact hdone.queued hall hcount hlast
    · intro hall hnot
      refine hdone.unqueued hall ?_
      have hpartial : ¬ ((row.archive n).allArchived = true ∧ 0 < (row.archive n).blobCount) := by
        intro hfull
        have := allArchived_archiveAll hfit.tail hfull.1
        rw [← BlobMetadata.archiveAll_cons, hall] at this
        cases this
      show h ∉ (m.mem.afterNotice h (row.archive n)).pendingPruneHeights
      unfold Memory.afterNotice
      rw [if_neg hpartial]
      exact hnot

end Notices

end Ultramarine
