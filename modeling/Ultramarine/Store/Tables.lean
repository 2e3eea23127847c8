import Ultramarine.Types.Proposal

/-!
# The consensus store

The tables of `consensus/src/store.rs` and its transactions. A row is kept as the value it decodes
to; the cases in which encoding fails are guards of the functions that call a transaction. Every
transaction is one atomic durable write.

* `undecided_values`, `undecided_block_data`, `blob_metadata_undecided` and `decided_block_data`
  keep the first row written at a key;
* `decided_values` and `certificates` are written together and overwritten;
* `blob_metadata_decided` is overwritten, and moves the `latest_height` pointer when a height is
  promoted.
-/

namespace Ultramarine

open Lib

/-- The redb tables. `decidedValues` is `decided_values` and `certificates`, which one transaction
writes under the same key. -/
structure Store where
  decidedValues : Table Height DecidedValue
  undecidedProposals : Table Slot ProposedValue
  decidedBlockData : Table Height BlockPayloadRecord
  undecidedBlockData : Table Slot BlockPayloadRecord
  consensusBlockMetadata : Table Height ConsensusBlockMetadata
  blobMetadataDecided : Table Height BlobMetadata
  blobMetadataUndecided : Table Slot BlobMetadata
  /-- `latest_height` of `blob_metadata_meta`. -/
  latestHeight : Option Height
  blobArchival : Table BlobIndexKey ArchiveRecord
deriving DecidableEq

/-- `create_tables`: everything empty. -/
def Store.empty : Store := ⟨∅, ∅, ∅, ∅, ∅, ∅, ∅, none, ∅⟩

/-- The write transactions of the store. -/
inductive StoreWrite where
  | insertDecidedValue (d : DecidedValue)
  | insertUndecidedProposal (p : ProposedValue)
  | deleteUndecidedProposal (slot : Slot)
  | prune (retainHeight : Height)
  | insertUndecidedBlockData (slot : Slot) (record : BlockPayloadRecord)
  | deleteUndecidedBlockData (slot : Slot)
  | insertDecidedBlockData (height : Height) (record : BlockPayloadRecord)
  | insertConsensusBlockMetadata (height : Height) (metadata : ConsensusBlockMetadata)
  | insertBlobMetadataUndecided (slot : Slot) (metadata : BlobMetadata)
  | insertArchiveRecord (height : Height) (index : Nat) (record : ArchiveRecord)
  | updateBlobMetadata (height : Height) (metadata : BlobMetadata)
  | markBlobMetadataDecided (slot : Slot)
  | insertGenesisBlobMetadata
  | deleteBlobMetadataUndecided (slot : Slot)
deriving DecidableEq

namespace Store

/-- The keys `prune` removes: everything below `(retain_height, Nil)`. -/
def belowRetain (retainHeight : Height) (slot : Slot) : Bool :=
  compare slot ⟨retainHeight, .nil⟩ == .lt

/-- The effect of a transaction. -/
def apply (s : Store) : StoreWrite → Store
  | .insertDecidedValue d =>
    { s with decidedValues := s.decidedValues.insert d.certificate.height d }
  | .insertUndecidedProposal p =>
    { s with undecidedProposals := s.undecidedProposals.insertIfNew ⟨p.height, p.round⟩ p }
  | .deleteUndecidedProposal slot =>
    { s with undecidedProposals := s.undecidedProposals.erase slot }
  | .prune retainHeight =>
    { s with
      undecidedProposals := Table.eraseWhere (belowRetain retainHeight) s.undecidedProposals
      undecidedBlockData := Table.eraseWhere (belowRetain retainHeight) s.undecidedBlockData }
  | .insertUndecidedBlockData slot record =>
    { s with undecidedBlockData := s.undecidedBlockData.insertIfNew slot record }
  | .deleteUndecidedBlockData slot =>
    { s with undecidedBlockData := s.undecidedBlockData.erase slot }
  | .insertDecidedBlockData height record =>
    { s with decidedBlockData := s.decidedBlockData.insertIfNew height record }
  | .insertConsensusBlockMetadata height metadata =>
    { s with consensusBlockMetadata := s.consensusBlockMetadata.insert height metadata }
  | .insertBlobMetadataUndecided slot metadata =>
    { s with blobMetadataUndecided := s.blobMetadataUndecided.insertIfNew slot metadata }
  | .insertArchiveRecord height index record =>
    { s with blobArchival := s.blobArchival.insert ⟨height, index⟩ record }
  | .updateBlobMetadata height metadata =>
    { s with blobMetadataDecided := s.blobMetadataDecided.insert height metadata }
  | .markBlobMetadataDecided slot =>
    match s.blobMetadataUndecided[slot]? with
    | none => s
    | some metadata =>
      { s with
        blobMetadataDecided := s.blobMetadataDecided.insert slot.height metadata
        latestHeight := some slot.height
        blobMetadataUndecided := s.blobMetadataUndecided.erase slot }
  | .insertGenesisBlobMetadata =>
    match s.blobMetadataDecided[0]? with
    | some _ => s
    | none =>
      { s with
        blobMetadataDecided := s.blobMetadataDecided.insert 0 BlobMetadata.genesis
        latestHeight := some 0 }
  | .deleteBlobMetadataUndecided slot =>
    { s with blobMetadataUndecided := s.blobMetadataUndecided.erase slot }

end Store

/-- The transaction of a decided value. -/
def StoreWrite.isDecidedValue : StoreWrite → Bool
  | .insertDecidedValue _ => true
  | _ => false

namespace Store

/-- Only the transaction of a decided value writes that table. -/
theorem decidedValues_apply {s : Store} {w : StoreWrite} (h : w.isDecidedValue = false) :
    (s.apply w).decidedValues = s.decidedValues := by
  cases w with
  | insertDecidedValue _ => cases h
  | markBlobMetadataDecided slot =>
    simp only [apply]
    split <;> rfl
  | insertGenesisBlobMetadata =>
    simp only [apply]
    split <;> rfl
  | _ => rfl

/-- `load_block_payload_record`: the undecided row of the round, else the decided row. -/
def loadBlockPayloadRecord (s : Store) (slot : Slot) : Option BlockPayloadRecord :=
  s.undecidedBlockData[slot]? <|> s.decidedBlockData[slot.height]?

/-- `max_decided_value_height` -/
def maxDecidedValueHeight (s : Store) : Option Height := Table.lastKey? s.decidedValues

theorem maxDecidedValueHeight_eq_none {s : Store} :
    s.maxDecidedValueHeight = none ↔ ∀ h : Height, s.decidedValues[h]? = none :=
  Table.lastKey?_eq_none

theorem maxDecidedValueHeight_eq_some {s : Store} {height : Height} :
    s.maxDecidedValueHeight = some height ↔ (s.decidedValues[height]?).isSome ∧
      ∀ h : Height, (s.decidedValues[h]?).isSome → h ≤ height := by
  refine Table.lastKey?_eq_some.trans (and_congr_right fun _ => forall_congr' fun h => ?_)
  refine imp_congr_right fun _ => ?_
  rw [Nat.compare_eq_lt, or_comm]
  exact Nat.le_iff_lt_or_eq.symm

/-- `archive_records`: the records of a height, by blob index. -/
def archiveRecords (s : Store) (height : Height) : List ArchiveRecord :=
  (Table.scan (fun k => k.height == height) s.blobArchival).map (·.2)

/-- `archived_blob_indexes`: the indices under which the records of a height are stored. -/
def archivedBlobIndexes (s : Store) (height : Height) : List Nat :=
  (Table.scan (fun k => k.height == height) s.blobArchival).map (·.1.index)

theorem mem_archiveRecords {s : Store} {h : Height} {r : ArchiveRecord} :
    r ∈ s.archiveRecords h ↔ ∃ i, s.blobArchival[BlobIndexKey.mk h i]? = some r := by
  unfold archiveRecords
  rw [List.mem_map]
  constructor
  · rintro ⟨⟨⟨k, i⟩, r⟩, hmem, rfl⟩
    obtain ⟨hget, hk⟩ := Table.mem_scan.1 hmem
    simp only [beq_iff_eq] at hk
    subst hk
    exact ⟨i, hget⟩
  · rintro ⟨i, hget⟩
    exact ⟨(⟨h, i⟩, r), Table.mem_scan.2 ⟨hget, by simp⟩, rfl⟩

/-- `hydrate_archival_records`: set every record of the height; `none` where the index assertion of
`set_archive_record` panics. -/
def hydrate (metadata : BlobMetadata) : List ArchiveRecord → Option BlobMetadata
  | [] => some metadata
  | record :: records => do
    let metadata ← metadata.setArchiveRecord? record
    hydrate metadata records

/-- What setting one record keeps, setting them all keeps. -/
theorem hydrate_keeps {α : Type} {f : BlobMetadata → α}
    (hset : ∀ {m m' : BlobMetadata} {r : ArchiveRecord}, m.setArchiveRecord? r = some m' →
      f m' = f m) : ∀ {records : List ArchiveRecord} {m m' : BlobMetadata},
    hydrate m records = some m' → f m' = f m
  | [], _, _, h => by
    cases h
    rfl
  | r :: records, m, m', h => by
    unfold hydrate at h
    obtain ⟨m₁, h₁, h₂⟩ := Option.bind_eq_some_iff.1 h
    rw [hydrate_keeps hset h₂, hset h₁]

section Keeps

variable {records : List ArchiveRecord} {m m' : BlobMetadata} (h : hydrate m records = some m')

include h

theorem core_hydrate : m'.core = m.core := hydrate_keeps BlobMetadata.core_setArchiveRecord? h

theorem keccaks_hydrate : m'.blobKeccakHashes = m.blobKeccakHashes :=
  hydrate_keeps BlobMetadata.keccaks_setArchiveRecord? h

theorem pruned_hydrate : m'.pruned = m.pruned := hydrate_keeps BlobMetadata.pruned_setArchiveRecord? h

end Keeps

/-- Setting records panics exactly on a record without a blob. -/
theorem isSome_hydrate : ∀ {records : List ArchiveRecord} {m : BlobMetadata},
    (hydrate m records).isSome ↔ ∀ r ∈ records, r.body.blobIndex < m.blobCount
  | [], _ => by simp [hydrate]
  | r :: records, m => by
    unfold hydrate
    by_cases hr : r.body.blobIndex < m.archivalRecords.length
    · obtain ⟨m₁, h₁⟩ : ∃ m₁, m.setArchiveRecord? r = some m₁ := ⟨_, if_pos hr⟩
      have hcount := BlobMetadata.blobCount_of_core (BlobMetadata.core_setArchiveRecord? h₁)
      rw [m.records_length] at hr
      simp only [h₁, Option.bind_eq_bind, Option.bind_some, List.mem_cons, forall_eq_or_imp,
        isSome_hydrate, hcount]
      exact ⟨fun h => ⟨hr, h⟩, fun h => h.2⟩
    · have hnone : m.setArchiveRecord? r = none := if_neg hr
      rw [m.records_length] at hr
      simp only [hnone, Option.bind_eq_bind, Option.bind_none, Option.isSome_none,
        Bool.false_eq_true, List.mem_cons, forall_eq_or_imp, false_iff, not_and]
      exact fun h => absurd h hr

/-- A row that is read back has the last record of every blob that has one. -/
theorem archivalStatus_hydrate (i : Nat) : ∀ {records : List ArchiveRecord} {m m' : BlobMetadata},
    hydrate m records = some m' → m'.archivalStatus i =
      (records.reverse.find? (·.body.blobIndex = i) <|> m.archivalStatus i)
  | [], m, m', h => by
    cases h
    rfl
  | r :: records, m, m', h => by
    unfold hydrate at h
    obtain ⟨m₁, h₁, h₂⟩ := Option.bind_eq_some_iff.1 h
    rw [archivalStatus_hydrate i h₂, BlobMetadata.archivalStatus_setArchiveRecord? h₁,
      List.reverse_cons, List.find?_append]
    by_cases hi : r.body.blobIndex = i
    · simp [hi]
    · simp [hi]

/-- Records that all have a blob can be set, and what was archived stays so. -/
theorem exists_hydrate {records : List ArchiveRecord} {m : BlobMetadata}
    (h : ∀ r ∈ records, r.body.blobIndex < m.blobCount) :
    ∃ m', hydrate m records = some m' ∧ m'.core = m.core ∧
      ∀ i, (m.archivalStatus i).isSome → (m'.archivalStatus i).isSome := by
  obtain ⟨m', hm'⟩ := Option.isSome_iff_exists.1 (isSome_hydrate.2 h)
  refine ⟨m', hm', core_hydrate hm', fun i hi => ?_⟩
  rw [archivalStatus_hydrate i hm']
  cases records.reverse.find? (·.body.blobIndex = i) with
  | none => exact hi
  | some r => rfl

/-- Every decided row can be read back with its archive records. -/
def Readable (s : Store) : Prop :=
  ∀ (h : Height) (row : BlobMetadata), s.blobMetadataDecided[h]? = some row →
    ∀ r ∈ s.archiveRecords h, r.body.blobIndex < row.blobCount

theorem readable_iff {s : Store} :
    s.Readable ↔ ∀ e ∈ s.blobMetadataDecided.toList, ∀ r ∈ s.archiveRecords e.1,
      r.body.blobIndex < e.2.blobCount := by
  simp only [Readable, Prod.forall, Std.ExtTreeMap.mem_toList_iff_getElem?_eq_some]

instance (s : Store) : Decidable s.Readable := decidable_of_iff _ readable_iff.symm

/-- `decided_heights`: the heights with decided blob metadata. -/
def decidedHeights (s : Store) : List Height := s.blobMetadataDecided.keys

/-- `get_all_undecided_blob_metadata_before` -/
def undecidedBlobMetadataBefore (s : Store) (before : Height) : List Slot :=
  s.blobMetadataUndecided.keys.takeWhile fun slot => slot.height < before

end Store

end Ultramarine
