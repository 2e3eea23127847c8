import Ultramarine.App.Walk
import Ultramarine.Lib.Confluence
import Ultramarine.State.Notices

/-!
# Archive notices in any order

A notice reaches a node by gossip or from its own archiver, possibly more than once. Recording it
reads the decided row of its height with all the records that are stored, checks the notice against
the row, and writes the record and the whole row back; the notice that completes the set of indices
of a finalized height also deletes the blobs.

Recorded notices for different blobs commute: each touches its own index of the row and its own key
of the archive table, and the first of the two cannot complete the set. A notice that is refused is
still refused after the others, and one that is recorded is refused when it comes again. So
`Lib.Settles` applies. `Store.ArchiveSound` is what this takes of a store: a record is stored under
the index it names, and a row that is marked pruned has all its records.

Results:

* `deliverNotice_settles`: deliveries commute, and repeated ones do nothing;
* `prunes_iff_completes`: one delivery prunes a finalized height exactly if it completes the set;
* `notices_confluent`: both for whole runs of deliveries.
-/

namespace Ultramarine

open Lib Prog

/-! ## Sound archives -/

/-- A row that is marked pruned has a record for every blob. -/
def BlobMetadata.PruneSound (row : BlobMetadata) : Prop :=
  row.pruned = true → row.allArchived = true

/-- Records are stored under their own index, and rows that are marked pruned have them all. -/
structure Store.ArchiveSound (s : Store) : Prop where
  keyed : Table.All (fun key r => r.body.blobIndex = key.index) s.blobArchival
  undecided : Table.All (fun _ row => row.PruneSound) s.blobMetadataUndecided
  decided : Table.All (fun _ row => row.PruneSound) s.blobMetadataDecided

variable {s : Store} {w : Write} {m m₀ : Machine Disk Memory} {ev : Event}

section Sound

variable {cfg : Config} {s : Store} {h : Height} {row row' : BlobMetadata} {n : ArchiveNotice}

theorem BlobMetadata.PruneSound.congr (hrow : row.PruneSound) (hcore : row'.core = row.core)
    (hpruned : row'.pruned = row.pruned)
    (hstatus : ∀ i, (row.archivalStatus i).isSome → (row'.archivalStatus i).isSome) :
    row'.PruneSound := by
  intro h
  rw [hpruned] at h
  exact allArchived_of_status hcore hstatus (hrow h)

/-- A new row is not pruned. -/
theorem pruneSound_blockMetadata? {root : B256} {commitments : List KzgCommitment}
    {keccaks : List B256} {header : ExecutionPayloadHeader} {hint : Option Nat}
    (hrow : blockMetadata? h root commitments keccaks header hint = some row) : row.PruneSound := by
  have hpruned : row.pruned = false := by
    unfold blockMetadata? BlobMetadata.new? at hrow
    split at hrow
    · cases hrow
      rfl
    · split at hrow
      · cases hrow
        rfl
      · cases hrow
  intro h
  rw [hpruned] at h
  cases h

/-- The row a height is read with. -/
theorem pruneSound_of_loaded (hrows : Table.All (fun _ row => row.PruneSound) s.blobMetadataDecided)
    (hget : s.getBlobMetadata h = .ok (some row)) : row.PruneSound := by
  obtain ⟨stored, hstored, hhydrate⟩ := Store.getBlobMetadata_eq_some_iff.1 hget
  refine (hrows _ _ hstored).congr (Store.core_hydrate hhydrate)
    (Store.pruned_hydrate hhydrate) fun i hi => ?_
  rw [Store.archivalStatus_hydrate i hhydrate]
  cases (s.archiveRecords h).reverse.find? (·.body.blobIndex = i) with
  | none => exact hi
  | some r => rfl

/-- The rows a message brings. -/
theorem OffersMetadata.pruneSound {slot : Slot} (hoffer : OffersMetadata cfg m₀ ev slot row)
    (hs : m₀.disk.store.ArchiveSound) : row.PruneSound := by
  cases hoffer with
  | built _ hrow | synced _ hrow => exact pruneSound_blockMetadata? hrow
  | received hcompletes =>
    obtain ⟨payload, metadata, root, hfrom⟩ := assemble_eq_ok.1 hcompletes.assembled
    exact pruneSound_blockMetadata? hfrom.blobMetadata_eq
  | restreamed hload =>
    have hload := loadRestream_metadata hload
    unfold Store.loadBlobMetadataForRound at hload
    split at hload
    · rename_i row hrow
      cases hload
      exact hs.undecided _ _ hrow
    · exact pruneSound_of_loaded hs.decided hload

/-- What a write may store: sound rows, and records under their own index. -/
def Write.ArchiveSound : Write → Prop
  | .store (.insertBlobMetadataUndecided _ row) | .store (.updateBlobMetadata _ row) =>
    row.PruneSound
  | .store (.insertArchiveRecord _ i r) => r.body.blobIndex = i
  | _ => True

/-- **One write keeps the archive sound** if the row or the record it stores is. -/
theorem Store.ArchiveSound.apply {d : Disk} (hs : d.store.ArchiveSound) (hw : w.ArchiveSound) :
    (d.apply w).store.ArchiveSound := by
  cases w with
  | blob w => exact hs
  | store w =>
    show (d.store.apply w).ArchiveSound
    cases w with
    | insertBlobMetadataUndecided slot row =>
      exact ⟨hs.keyed, hs.undecided.insertIfNew fun _ => hw, hs.decided⟩
    | deleteBlobMetadataUndecided slot => exact ⟨hs.keyed, hs.undecided.erase slot, hs.decided⟩
    | updateBlobMetadata height row => exact ⟨hs.keyed, hs.undecided, hs.decided.insert hw⟩
    | insertArchiveRecord height i r => exact ⟨hs.keyed.insert hw, hs.undecided, hs.decided⟩
    | markBlobMetadataDecided slot =>
      simp only [Store.apply]
      split
      · exact hs
      · rename_i row hrow
        exact ⟨hs.keyed, hs.undecided.erase slot, hs.decided.insert (hs.undecided _ _ hrow)⟩
    | insertGenesisBlobMetadata =>
      simp only [Store.apply]
      split
      · exact hs
      · exact ⟨hs.keyed, hs.undecided, hs.decided.insert fun h => by cases h⟩
    | _ => exact ⟨hs.keyed, hs.undecided, hs.decided⟩

/-- A notice that is recorded leaves a sound row. -/
theorem BlobMetadata.PruneSound.record (hs : row.PruneSound)
    (hrow : (row.updateKeccakHash n.body.blobIndex n.body.blobKeccak).setArchiveRecord?
      (.fromNotice n.transmit) = some row') : row'.PruneSound := by
  refine hs.congr ?_ ?_ fun i hi => ?_
  · rw [BlobMetadata.core_setArchiveRecord? hrow, BlobMetadata.core_updateKeccakHash]
  · rw [BlobMetadata.pruned_setArchiveRecord? hrow]
    unfold BlobMetadata.updateKeccakHash
    split <;> rfl
  · rw [BlobMetadata.archivalStatus_setArchiveRecord? hrow,
      BlobMetadata.archivalStatus_updateKeccakHash]
    split
    · rfl
    · exact hi

theorem PruneEffect.archiveSound (hw : PruneEffect m w) : w.ArchiveSound := by
  cases hw with
  | delete _ _ => trivial
  | pruned hprunable => exact fun _ => hprunable.archived

theorem ArchiveEffect.archiveSound (hw : ArchiveEffect cfg m w) (hs : m.disk.store.ArchiveSound) :
    w.ArchiveSound := by
  cases hw with
  | record hn => exact rfl
  | @update n metadata row s hn hstore hrow =>
    -- the row was read before the record was written, from the same table of rows
    have hrows : s.blobMetadataDecided = m.disk.store.blobMetadataDecided := by
      rw [hstore]
      rfl
    exact (pruneSound_of_loaded (hrows ▸ hs.decided) hn.metadata_eq).record hrow
  | prune hw => exact hw.archiveSound

/-- What a message writes to a sound archive. -/
theorem Effect.archiveSound (hw : Effect cfg m₀ ev m w) (h₀ : m₀.disk.store.ArchiveSound)
    (hs : m.disk.store.ArchiveSound) : w.ArchiveSound := by
  cases hw with
  | @store w heffect hplain =>
    cases w with
    | insertBlobMetadataUndecided slot row =>
      exact (Effect.offersMetadata (.store heffect hplain)).pruneSound h₀
    | updateBlobMetadata _ _ | insertArchiveRecord _ _ _ => cases hplain
    | _ => trivial
  | archive hw => exact hw.archiveSound hs
  | remove _ hw => cases hw <;> trivial
  | _ => trivial

/-- **The archive is sound in every run.** -/
theorem archiveSound_of_reachable {ok : Node → Label → Prop} {node : Node}
    (hreach : Node.Reachable cfg ok node) : node.disk.store.ArchiveSound := by
  refine Node.disk_invariant_of_reach (I := fun d => d.store.ArchiveSound) ?_ ?_ ?_ hreach
  · exact ⟨.empty, .empty, .empty⟩
  · intro m ev l hm _ _
    refine ⟨_, hm, fun _ hd => hd, (handle_writes cfg m ev).mono fun _ _ hw hs => ?_⟩
    exact hs.apply (hw.archiveSound hm hs)
  · intro d hd
    refine (start_writes cfg (bootMachine cfg d)).mono fun m w hw hs => hs.apply ?_
    cases hw with
    | genesis | stale _ => trivial
    | prune hw => exact hw.archiveSound

end Sound

/-! ## One delivery -/

/-- The machine after a notice is handled. -/
def deliverNotice (cfg : Config) (m : Machine Disk Memory) (n : ArchiveNotice) :
    Machine Disk Memory :=
  ((handleArchiveNotice cfg n).run m).state

/-- The machine once a notice is recorded in a row, before anything is pruned. -/
def recorded (row : BlobMetadata) (m : Machine Disk Memory) (n : ArchiveNotice) :
    Machine Disk Memory :=
  ⟨⟨m.disk.store.afterNotice n.body.height row n, m.disk.blobs⟩, m.mem⟩

section Deliver

variable {cfg : Config} {m : Machine Disk Memory} {n n' : ArchiveNotice} {row row' : BlobMetadata}
  {h : Height}

/-- A notice that is not recorded changes nothing. -/
theorem deliverNotice_of_not_checked (hn : ∀ row, ¬ n.Checked cfg m.disk.store row) :
    deliverNotice cfg m n = m := by
  unfold deliverNotice handleArchiveNotice
  rw [run_getDisk_bind]
  cases hcheck : checkArchiveNotice cfg m.disk.store n with
  | error e => rfl
  | panic => rfl
  | ok result =>
    cases result with
    | none => rfl
    | some checked =>
      obtain ⟨row, hchecked, _⟩ := checkArchiveNotice_eq_some.1 hcheck
      exact absurd hchecked (hn row)

/-- **A notice that is recorded** may complete the set of indices. -/
theorem deliverNotice_of_checked (hn : n.Checked cfg m.disk.store row) :
    deliverNotice cfg m n =
      if (row.archive n).allArchived = true then
        completed n.body.height (row.archive n) (recorded row m n)
      else recorded row m n := by
  have hcheck : checkArchiveNotice cfg m.disk.store n = .ok (some _) :=
    checkArchiveNotice_eq_some.2 ⟨row, hn, rfl⟩
  have hpos : 0 < (row.archive n).blobCount := by
    rw [blobCount_of_core (BlobMetadata.core_archive hn.index_lt)]
    exact Nat.zero_lt_of_lt hn.index_lt
  have hreturns : Returns (handleArchiveNotice cfg n) m ()
      (if (row.archive n).allArchived = true then
        completed n.body.height (row.archive n) (recorded row m n)
      else recorded row m n) := by
    unfold handleArchiveNotice
    refine returns_getDisk_bind.2 (returns_ofExit_bind.2 ⟨_, hcheck, ?_⟩)
    refine returns_storeWrite_bind.2 (returns_ofExit_bind.2 ⟨row.archive n, ?_, ?_⟩)
    · exact Exit.orPanic_eq_ok.2 (BlobMetadata.setArchiveRecord?_archive hn.index_lt)
    · refine returns_storeWrite_bind.2 (returns_finishArchive.2 ?_)
      simp only [hpos, and_true]
      rfl
  exact hreturns.2

/-! ## What the next notice finds -/

/-- The records of a row that is read back: those of the table, else its own. -/
theorem Store.ArchiveSound.status_of_hydrate (hs : s.ArchiveSound)
    (hrow : Store.hydrate row (s.archiveRecords h) = some row') (i : Nat) :
    row'.archivalStatus i = (s.blobArchival[BlobIndexKey.mk h i]? <|> row.archivalStatus i) := by
  rw [Store.archivalStatus_hydrate i hrow]
  cases hfind : (s.archiveRecords h).reverse.find? (·.body.blobIndex = i) with
  | some r =>
    -- a record is under its own index
    obtain ⟨j, hj⟩ := Store.mem_archiveRecords.1
      (List.mem_reverse.1 (List.mem_of_find?_eq_some hfind))
    have hindex : r.body.blobIndex = i := by simpa using List.find?_some hfind
    have hij : j = i := (hs.keyed _ _ hj).symm.trans hindex
    rw [← hij, hj]
  | none =>
    have hnone : s.blobArchival[BlobIndexKey.mk h i]? = none := by
      rw [Option.eq_none_iff_forall_ne_some]
      intro r hr
      have hmem := List.mem_reverse.2 (Store.mem_archiveRecords.2 ⟨i, hr⟩)
      exact List.find?_eq_none.1 hfind r hmem (decide_eq_true (hs.keyed _ _ hr))
    rw [hnone]

/-- A row that is read back has all the records of the table. -/
theorem Store.ArchiveSound.records_of_loaded (hs : s.ArchiveSound)
    (hget : s.getBlobMetadata h = .ok (some row)) :
    ∀ r ∈ s.archiveRecords h, row.archivalStatus r.body.blobIndex = some r := by
  intro r hr
  obtain ⟨stored, _, hhydrate⟩ := Store.getBlobMetadata_eq_some_iff.1 hget
  obtain ⟨i, hi⟩ := Store.mem_archiveRecords.1 hr
  have hindex : r.body.blobIndex = i := hs.keyed _ _ hi
  rw [hs.status_of_hydrate hhydrate, hindex, hi]
  rfl

/-- The archive is sound once a notice is recorded. -/
theorem archiveSound_recorded (hs : m.disk.store.ArchiveSound)
    (hn : n.Checked cfg m.disk.store row) : (recorded row m n).disk.store.ArchiveSound := by
  have hrecord : (m.disk.apply (.store (.insertArchiveRecord n.body.height n.body.blobIndex
      n.record))).store.ArchiveSound := hs.apply rfl
  have hrow : (row.archive n).PruneSound := (pruneSound_of_loaded hs.decided hn.metadata_eq).record
    (BlobMetadata.setArchiveRecord?_archive hn.index_lt)
  exact hrecord.apply (w := .store (.updateBlobMetadata n.body.height (row.archive n))) hrow

theorem hasRow_recorded (hs : m.disk.store.ArchiveSound) (hn : n.Checked cfg m.disk.store row) :
    (recorded row m n).disk.store.HasRow n.body.height (row.archive n) :=
  Store.hasRow_afterNotice (hs.records_of_loaded hn.metadata_eq) hn.index_lt hn.unarchived

/-- A notice for another blob is checked against the new row as against the old one. -/
theorem checked_recorded_iff (hs : m.disk.store.ArchiveSound) (hn : n.Checked cfg m.disk.store row)
    (hheight : n'.body.height = n.body.height) (hne : n.body.blobIndex ≠ n'.body.blobIndex) :
    n'.Checked cfg (recorded row m n).disk.store (row.archive n) ↔
      n'.Checked cfg m.disk.store row := by
  have hcore := BlobMetadata.core_archive hn.index_lt
  have hcount := blobCount_of_core hcore
  have hhint : (row.archive n).proposerIndexHint = row.proposerIndexHint :=
    congrArg BlobCore.proposerIndexHint hcore
  have hcommitments : (row.archive n).blobKzgCommitments = row.blobKzgCommitments :=
    congrArg BlobCore.blobKzgCommitments hcore
  have hkeccak := BlobMetadata.keccak_archive_of_ne hn.index_lt hne
  have hstatus : (row.archive n).archivalStatus n'.body.blobIndex =
      row.archivalStatus n'.body.blobIndex :=
    (BlobMetadata.archivalStatus_archive hn.index_lt _).trans (if_neg hne)
  constructor
  · rintro ⟨hsigned, _, hlt, hproposer, hcommitment, hhash, hnew⟩
    rw [hcount] at hlt
    rw [hhint] at hproposer
    rw [hcommitments] at hcommitment
    rw [hkeccak] at hhash
    rw [hstatus] at hnew
    exact ⟨hsigned, hheight ▸ hn.metadata_eq, hlt, hproposer, hcommitment, hhash, hnew⟩
  · rintro ⟨hsigned, _, hlt, hproposer, hcommitment, hhash, hnew⟩
    rw [← hcount] at hlt
    rw [← hhint] at hproposer
    rw [← hcommitments] at hcommitment
    rw [← hkeccak] at hhash
    rw [← hstatus] at hnew
    exact ⟨hsigned, hheight ▸ (hasRow_recorded hs hn).get, hlt, hproposer, hcommitment, hhash, hnew⟩

/-- A row that is all archived takes no notice. -/
theorem not_checked_of_allArchived (hget : s.getBlobMetadata h = .ok (some row))
    (hall : row.allArchived = true) (hheight : n.body.height = h) :
    ∀ row', ¬ n.Checked cfg s row' := by
  intro row' hn
  have hload := hn.metadata_eq
  rw [hheight, hget] at hload
  cases hload
  have hsome := allArchived_iff.1 hall _ hn.index_lt
  rw [hn.unarchived] at hsome
  cases hsome

/-- The row of a height that is complete, pruned or not. -/
theorem hasRow_completed (hrow : m.disk.store.HasRow h row) :
    ∃ row', (completed h row m).disk.store.HasRow h row' ∧
      (row' = row ∨ row' = row.markPruned) := by
  unfold completed
  split
  · split
    · exact ⟨row, hrow, .inl rfl⟩
    · have hmark := (Disk.prunedAt_prune h row m.disk).metadata
      have hrecords : (m.disk.prune h row).store.archiveRecords h =
          m.disk.store.archiveRecords h := by
        rw [Disk.store_prune]
        rfl
      exact ⟨row.markPruned, ⟨hmark, fun r hr => hrow.records r (hrecords ▸ hr)⟩, .inr rfl⟩
  · exact ⟨row, hrow, .inl rfl⟩

/-- A complete height takes no notice. -/
theorem not_checked_completed (hrow : m.disk.store.HasRow h row) (hall : row.allArchived = true)
    (hheight : n.body.height = h) :
    ∀ row', ¬ n.Checked cfg (completed h row m).disk.store row' := by
  obtain ⟨row', hrow', rfl | rfl⟩ := hasRow_completed hrow
  · exact not_checked_of_allArchived hrow'.get hall hheight
  · exact not_checked_of_allArchived hrow'.get hall hheight

/-! ## Deliveries commute -/

/-- The hashes of a row once a notice is recorded: a placeholder at its index is replaced. -/
theorem BlobMetadata.keccak_archive (hlt : n.body.blobIndex < row.blobCount) (i : Nat) :
    (row.archive n).blobKeccakHashes[i]? =
      if n.body.blobIndex = i ∧ row.blobKeccakHashes[i]? = some 0 then some n.body.blobKeccak
      else row.blobKeccakHashes[i]? := by
  by_cases hi : n.body.blobIndex = i
  · subst hi
    rw [BlobMetadata.keccaks_setArchiveRecord? (BlobMetadata.setArchiveRecord?_archive hlt)]
    unfold BlobMetadata.updateKeccakHash
    split
    · rename_i hzero
      rw [if_pos ⟨rfl, hzero⟩]
      exact List.getElem?_set_self (List.getElem?_eq_some_iff.1 hzero).1
    · rename_i hset
      rw [if_neg fun h => hset h.2]
  · rw [BlobMetadata.keccak_archive_of_ne hlt hi, if_neg fun h => hi h.1]

/-- The records of a row are known by index. -/
theorem BlobMetadata.records_ext (hcount : row.blobCount = row'.blobCount)
    (hstatus : ∀ i, row.archivalStatus i = row'.archivalStatus i) :
    row.archivalRecords = row'.archivalRecords := by
  have hlen : row.archivalRecords.length = row'.archivalRecords.length := by
    rw [row.records_length, row'.records_length]
    exact hcount
  refine List.ext_getElem hlen fun i hi hi' => ?_
  have h := hstatus i
  unfold BlobMetadata.archivalStatus at h
  rw [List.getElem?_eq_getElem hi, List.getElem?_eq_getElem hi'] at h
  exact h

/-- Notices for different blobs are recorded in a row in any order. -/
theorem BlobMetadata.archive_comm (hlt : n.body.blobIndex < row.blobCount)
    (hlt' : n'.body.blobIndex < row.blobCount) (hne : n.body.blobIndex ≠ n'.body.blobIndex) :
    (row.archive n).archive n' = (row.archive n').archive n := by
  have hcore := BlobMetadata.core_archive hlt
  have hcore' := BlobMetadata.core_archive hlt'
  have hlt₁ : n'.body.blobIndex < (row.archive n).blobCount :=
    lt_of_lt_of_eq hlt' (blobCount_of_core hcore).symm
  have hlt₂ : n.body.blobIndex < (row.archive n').blobCount :=
    lt_of_lt_of_eq hlt (blobCount_of_core hcore').symm
  have hsame : ((row.archive n).archive n').core = ((row.archive n').archive n).core := by
    rw [BlobMetadata.core_archive hlt₁, BlobMetadata.core_archive hlt₂, hcore, hcore']
  refine BlobMetadata.ext_fields hsame (List.ext_getElem? fun i => ?_)
    (BlobMetadata.records_ext (blobCount_of_core hsame) fun i => ?_) ?_
  · rw [BlobMetadata.keccak_archive hlt₁, BlobMetadata.keccak_archive hlt₂,
      BlobMetadata.keccak_archive hlt, BlobMetadata.keccak_archive hlt']
    by_cases hi : n.body.blobIndex = i
    · have hi' : n'.body.blobIndex ≠ i := fun h => hne (hi.trans h.symm)
      simp [hi, hi']
    · simp [hi]
  · rw [BlobMetadata.archivalStatus_archive hlt₁, BlobMetadata.archivalStatus_archive hlt₂,
      BlobMetadata.archivalStatus_archive hlt, BlobMetadata.archivalStatus_archive hlt']
    by_cases hi : n.body.blobIndex = i
    · have hi' : n'.body.blobIndex ≠ i := fun h => hne (hi.trans h.symm)
      rw [if_neg hi', if_pos hi, if_pos hi]
    · rw [if_neg hi, if_neg hi]
  · simp only [pruned_archive]

/-- Notices for different blobs of one height are recorded in any order. -/
theorem recorded_comm (hlt : n.body.blobIndex < row.blobCount)
    (hlt' : n'.body.blobIndex < row.blobCount) (hheight : n'.body.height = n.body.height)
    (hne : n.body.blobIndex ≠ n'.body.blobIndex) :
    recorded (row.archive n) (recorded row m n) n' =
      recorded (row.archive n') (recorded row m n') n := by
  have hkey : BlobIndexKey.mk n.body.height n.body.blobIndex ≠
      BlobIndexKey.mk n.body.height n'.body.blobIndex := fun h => hne (BlobIndexKey.mk.inj h).2
  unfold recorded Store.afterNotice
  simp only [Store.apply, hheight]
  -- the last row that is written is the same, and the records are under different keys
  rw [Table.insert_insert, Table.insert_insert, Table.insert_comm _ hkey,
    BlobMetadata.archive_comm hlt hlt' hne]

section Settle

variable (hs : m.disk.store.ArchiveSound) (hheight : n'.body.height = n.body.height)

include hs hheight

/-- A notice that is not recorded is not recorded after another one. -/
theorem deliverNotice_twice_of_not_checked (hone : n.body.blobIndex = n'.body.blobIndex → n = n')
    (hn' : ∀ row, ¬ n'.Checked cfg m.disk.store row) :
    deliverNotice cfg (deliverNotice cfg m n) n' = deliverNotice cfg m n := by
  by_cases hn : ∃ row, n.Checked cfg m.disk.store row
  · obtain ⟨row, hn⟩ := hn
    have hne : n.body.blobIndex ≠ n'.body.blobIndex := fun h => hn' row (hone h ▸ hn)
    have hrow := hasRow_recorded hs hn
    refine deliverNotice_of_not_checked ?_
    rw [deliverNotice_of_checked hn]
    split
    · rename_i hall
      exact not_checked_completed hrow hall hheight
    · intro row' hchecked
      have hload := hchecked.metadata_eq
      rw [hheight, hrow.get] at hload
      cases hload
      exact hn' row ((checked_recorded_iff hs hn hheight hne).1 hchecked)
  · rw [deliverNotice_of_not_checked (not_exists.1 hn), deliverNotice_of_not_checked hn']

/-- The first of two notices that are recorded does not complete the set. -/
theorem deliverNotice_of_two (hn : n.Checked cfg m.disk.store row)
    (hn' : n'.Checked cfg m.disk.store row) (hne : n.body.blobIndex ≠ n'.body.blobIndex) :
    deliverNotice cfg (deliverNotice cfg m n) n' =
      if ((row.archive n).archive n').allArchived = true then
        completed n.body.height ((row.archive n).archive n')
          (recorded (row.archive n) (recorded row m n) n')
      else recorded (row.archive n) (recorded row m n) n' := by
  have hchecked := (checked_recorded_iff hs hn hheight hne).2 hn'
  have hpartial : ¬ (row.archive n).allArchived = true := fun hall =>
    not_checked_of_allArchived (hasRow_recorded hs hn).get hall hheight _ hchecked
  rw [deliverNotice_of_checked hn, if_neg hpartial, deliverNotice_of_checked hchecked, hheight]

theorem deliverNotice_comm (hone : n.body.blobIndex = n'.body.blobIndex → n = n') :
    deliverNotice cfg (deliverNotice cfg m n) n' =
      deliverNotice cfg (deliverNotice cfg m n') n := by
  by_cases hn : ∃ row, n.Checked cfg m.disk.store row
  · by_cases hn' : ∃ row, n'.Checked cfg m.disk.store row
    · obtain ⟨row, hn⟩ := hn
      obtain ⟨row', hn'⟩ := hn'
      have hload := hn'.metadata_eq
      rw [hheight, hn.metadata_eq] at hload
      cases hload
      by_cases hne : n.body.blobIndex = n'.body.blobIndex
      · rw [hone hne]
      · rw [deliverNotice_of_two hs hheight hn hn' hne,
          deliverNotice_of_two hs hheight.symm hn' hn (Ne.symm hne), hheight,
          BlobMetadata.archive_comm hn.index_lt hn'.index_lt hne,
          recorded_comm hn.index_lt hn'.index_lt hheight hne]
    · have hn' := not_exists.1 hn'
      rw [deliverNotice_twice_of_not_checked hs hheight hone hn', deliverNotice_of_not_checked hn']
  · have hn := not_exists.1 hn
    rw [deliverNotice_of_not_checked hn]
    exact (deliverNotice_twice_of_not_checked hs hheight.symm (fun h => (hone h.symm).symm) hn).symm

end Settle

/-- A notice that comes again changes nothing. -/
theorem deliverNotice_again (hs : m.disk.store.ArchiveSound) :
    deliverNotice cfg (deliverNotice cfg m n) n = deliverNotice cfg m n := by
  by_cases hn : ∃ row, n.Checked cfg m.disk.store row
  · obtain ⟨row, hn⟩ := hn
    have hrow := hasRow_recorded hs hn
    refine deliverNotice_of_not_checked ?_
    rw [deliverNotice_of_checked hn]
    split
    · rename_i hall
      exact not_checked_completed hrow hall rfl
    · intro row' hchecked
      have hload := hchecked.metadata_eq
      rw [hrow.get] at hload
      cases hload
      have hnew := hchecked.unarchived
      rw [BlobMetadata.archivalStatus_archive hn.index_lt, if_pos rfl] at hnew
      cases hnew
  · have hn := not_exists.1 hn
    rw [deliverNotice_of_not_checked hn, deliverNotice_of_not_checked hn]

theorem archiveSound_deliverNotice (hs : m.disk.store.ArchiveSound) (n : ArchiveNotice) :
    (deliverNotice cfg m n).disk.store.ArchiveSound :=
  (Prog.disk_invariant (I := fun d => d.store.ArchiveSound) _ hs
    ((handleArchiveNotice_archives cfg n m).1.mono fun _ _ hw hs => hs.apply (hw.archiveSound hs))).2

/-- **Deliveries commute, and repeated ones do nothing**, among notices for one height with at most
one for each index. -/
theorem deliverNotice_settles {P : ArchiveNotice → Prop} (hheight : ∀ n, P n → n.body.height = h)
    (hone : ∀ n n', P n → P n' → n.body.blobIndex = n'.body.blobIndex → n = n') :
    Settles (fun m : Machine Disk Memory => m.disk.store.ArchiveSound) P (deliverNotice cfg) where
  keeps hs _ := archiveSound_deliverNotice hs _
  comm hs ha hb := deliverNotice_comm hs ((hheight _ hb).trans (hheight _ ha).symm) (hone _ _ ha hb)
  idem hs _ := deliverNotice_again hs

end Deliver

/-! ## The delivery that completes the set -/

/-- Every blob of the height has a record, and there is one. -/
def Store.isComplete (s : Store) (h : Height) : Bool :=
  match s.getBlobMetadata h with
  | .ok (some row) => row.allArchived && decide (0 < row.blobCount)
  | _ => false

/-- The set of indices of the height is complete in the second disk and not in the first. -/
def Disk.Completes (h : Height) (d d' : Disk) : Prop :=
  d.store.isComplete h = false ∧ d'.store.isComplete h = true

/-- The height was not pruned in the first disk; in the second its row is marked and its blobs are
gone. -/
structure Disk.Prunes (h : Height) (d d' : Disk) : Prop where
  before : ∃ row, d.store.blobMetadataDecided[h]? = some row ∧ row.pruned = false
  after : ∃ row, d'.store.blobMetadataDecided[h]? = some row ∧ row.pruned = true ∧
    ∀ i, d'.blobs.decided[BlobIndexKey.mk h i]? =
      if i < row.blobCount then none else d.blobs.decided[BlobIndexKey.mk h i]?

/-- The blobs are the same in both disks, and so is the mark of the height. -/
structure Disk.PrunesNothing (h : Height) (d d' : Disk) : Prop where
  blobs : d'.blobs = d.blobs
  mark : (d'.store.blobMetadataDecided[h]?).map (·.pruned) =
    (d.store.blobMetadataDecided[h]?).map (·.pruned)

section Complete

variable {cfg : Config} {m : Machine Disk Memory} {n : ArchiveNotice} {row : BlobMetadata}
  {h : Height}

theorem Store.isComplete_of_loaded (hget : s.getBlobMetadata h = .ok (some row)) :
    s.isComplete h = (row.allArchived && decide (0 < row.blobCount)) := by
  unfold Store.isComplete
  rw [hget]

/-- A height that still takes a notice is not complete. -/
theorem ArchiveNotice.Checked.not_allArchived (hn : n.Checked cfg s row) :
    row.allArchived = false := by
  rw [Bool.eq_false_iff]
  exact fun hall => not_checked_of_allArchived hn.metadata_eq hall rfl row hn

/-- A row that still takes a notice is not pruned. -/
theorem ArchiveNotice.Checked.not_pruned (hs : m.disk.store.ArchiveSound)
    (hn : n.Checked cfg m.disk.store row) : row.pruned = false := by
  rw [Bool.eq_false_iff]
  intro hpruned
  have hall := pruneSound_of_loaded hs.decided hn.metadata_eq hpruned
  rw [hn.not_allArchived] at hall
  cases hall

/-- A notice that is recorded finds no record in the table. -/
theorem ArchiveNotice.Checked.unrecorded (hs : m.disk.store.ArchiveSound)
    (hn : n.Checked cfg m.disk.store row) (hheight : n.body.height = h) :
    m.disk.store.blobArchival[BlobIndexKey.mk h n.body.blobIndex]? = none := by
  subst hheight
  obtain ⟨stored, _, hhydrate⟩ := Store.getBlobMetadata_eq_some_iff.1 hn.metadata_eq
  have hstatus := hs.status_of_hydrate hhydrate n.body.blobIndex
  rw [hn.unarchived] at hstatus
  cases hread : m.disk.store.blobArchival[BlobIndexKey.mk n.body.height n.body.blobIndex]? with
  | none => rfl
  | some r =>
    rw [hread] at hstatus
    cases hstatus

/-- The notice that completes the set of a final height prunes it. -/
theorem deliverNotice_of_final (hs : m.disk.store.ArchiveSound)
    (hn : n.Checked cfg m.disk.store row)
    (hfinal : m.mem.isHeightFinalized n.body.height = true)
    (hall : (row.archive n).allArchived = true) :
    (deliverNotice cfg m n).disk = (recorded row m n).disk.prune n.body.height (row.archive n) := by
  have hmark : ¬ (row.archive n).pruned = true := by
    rw [pruned_archive, hn.not_pruned hs]
    exact Bool.false_ne_true
  rw [deliverNotice_of_checked hn, if_pos hall, completed,
    if_pos (show (recorded row m n).mem.isHeightFinalized n.body.height = true from hfinal),
    if_neg hmark]

/-- The mark of a row is stored with it. -/
theorem pruned_stored (hget : s.getBlobMetadata h = .ok (some row)) :
    ∃ stored, s.blobMetadataDecided[h]? = some stored ∧ stored.pruned = row.pruned := by
  obtain ⟨stored, hstored, hhydrate⟩ := Store.getBlobMetadata_eq_some_iff.1 hget
  exact ⟨stored, hstored, (Store.pruned_hydrate hhydrate).symm⟩

/-- The notice that completes the set of a finalized height. -/
theorem prunes_of_completing (hs : m.disk.store.ArchiveSound) (hn : n.Checked cfg m.disk.store row)
    (hfinal : m.mem.isHeightFinalized n.body.height = true)
    (hall : (row.archive n).allArchived = true) :
    Disk.Prunes n.body.height m.disk (deliverNotice cfg m n).disk := by
  have hprune := Disk.prunedAt_prune n.body.height (row.archive n) (recorded row m n).disk
  obtain ⟨stored, hstored, hsame⟩ := pruned_stored hn.metadata_eq
  refine ⟨⟨stored, hstored, hsame.trans (hn.not_pruned hs)⟩, ⟨(row.archive n).markPruned, ?_⟩⟩
  rw [deliverNotice_of_final hs hn hfinal hall]
  exact ⟨hprune.metadata, rfl, hprune.blobs⟩

/-- A notice that leaves a blob without a record. -/
theorem prunesNothing_recorded (hn : n.Checked cfg m.disk.store row) :
    Disk.PrunesNothing n.body.height m.disk (recorded row m n).disk := by
  obtain ⟨stored, hstored, hsame⟩ := pruned_stored hn.metadata_eq
  have hrow : (recorded row m n).disk.store.blobMetadataDecided[n.body.height]? =
      some (row.archive n) := (Table.getElem?_insert_eq _ _ _ _).trans (if_pos rfl)
  refine ⟨rfl, ?_⟩
  rw [hrow, hstored, Option.map_some, Option.map_some, pruned_archive, hsame]

/-- **A delivery prunes a finalized height exactly if it completes its set of indices.** -/
theorem prunes_iff_completes (hs : m.disk.store.ArchiveSound) (hheight : n.body.height = h)
    (hfinal : m.mem.isHeightFinalized h = true) :
    (Disk.Completes h m.disk (deliverNotice cfg m n).disk →
        Disk.Prunes h m.disk (deliverNotice cfg m n).disk) ∧
      (¬ Disk.Completes h m.disk (deliverNotice cfg m n).disk →
        Disk.PrunesNothing h m.disk (deliverNotice cfg m n).disk) := by
  subst hheight
  by_cases hn : ∃ row, n.Checked cfg m.disk.store row
  · obtain ⟨row, hn⟩ := hn
    have hrow := hasRow_recorded hs hn
    have hpos : 0 < (row.archive n).blobCount := by
      rw [blobCount_of_core (BlobMetadata.core_archive hn.index_lt)]
      exact Nat.zero_lt_of_lt hn.index_lt
    by_cases hall : (row.archive n).allArchived = true
    · refine ⟨fun _ => prunes_of_completing hs hn hfinal hall, fun hno => absurd ?_ hno⟩
      refine ⟨?_, ?_⟩
      · rw [Store.isComplete_of_loaded hn.metadata_eq, hn.not_allArchived]
        rfl
      · obtain ⟨row', hrow', hor⟩ := hasRow_completed hrow
        have hcomplete : row'.allArchived = true ∧ 0 < row'.blobCount := by
          rcases hor with rfl | rfl
          · exact ⟨hall, hpos⟩
          · exact ⟨hall, hpos⟩
        rw [deliverNotice_of_checked hn, if_pos hall, Store.isComplete_of_loaded hrow'.get,
          hcomplete.1]
        exact decide_eq_true hcomplete.2
    · rw [deliverNotice_of_checked hn, if_neg hall]
      refine ⟨fun hcompletes => ?_, fun _ => prunesNothing_recorded hn⟩
      have hcomplete := hcompletes.2
      rw [Store.isComplete_of_loaded hrow.get, Bool.and_eq_true] at hcomplete
      exact absurd hcomplete.1 hall
  · rw [deliverNotice_of_not_checked (not_exists.1 hn)]
    refine ⟨fun hcompletes => ?_, fun _ => ⟨rfl, rfl⟩⟩
    rw [Disk.Completes, Bool.eq_false_iff] at hcompletes
    exact absurd hcompletes.2 hcompletes.1

/-- Finality does not move with a notice. -/
theorem finalizedHeight_deliverNotice (cfg : Config) (m : Machine Disk Memory) (n : ArchiveNotice) :
    (deliverNotice cfg m n).mem.finalizedHeight = m.mem.finalizedHeight :=
  (sameHead_of_aside (handleArchiveNotice_archives cfg n m).2).finalizedHeight

end Complete

/-! ## Runs of deliveries -/

/-- The notice a message brings: gossip, or the node's own archiver. -/
def Event.notice? : Event → Option ArchiveNotice
  | .archiveNotice notice => some notice
  | .receivedProposalPart _ _ part _ => part.content.asData.bind ProposalPart.asArchiveNotice
  | _ => none

section Runs

variable {cfg : Config} {m : Machine Disk Memory} {ev : Event} {n : ArchiveNotice}

theorem returns_attempt_deliverNotice (cfg : Config) (m : Machine Disk Memory) (n : ArchiveNotice) :
    ∃ result, Returns (handleArchiveNotice cfg n).attempt m result (deliverNotice cfg m n) := by
  obtain ⟨result, m', hreturns⟩ := (handleArchiveNotice_calm cfg n).total_attempt m
  have hstate : deliverNotice cfg m n = m' := (attempt_state _ m).symm.trans hreturns.2
  rw [hstate]
  exact ⟨result, hreturns⟩

/-- A message that brings a notice delivers it, and does nothing else. -/
theorem next_of_notice (hev : ev.notice? = some n) :
    Node.next cfg (.handle ev) (.up m) = some (.up (deliverNotice cfg m n)) := by
  obtain ⟨result, hreturns⟩ := returns_attempt_deliverNotice cfg m n
  refine Node.next_handle ?_
  cases ev with
  | archiveNotice notice =>
    cases hev
    exact hreturns.bind (returns_pure.2 ⟨rfl, rfl⟩)
  | receivedProposalPart now peer part gate =>
    have hpart : part.content.asData.bind ProposalPart.asArchiveNotice = some n := hev
    refine returns_logged (a := none) ?_
    unfold onReceivedProposalPart
    rw [hpart]
    exact hreturns.bind (returns_pure.2 ⟨rfl, rfl⟩)
  | _ => cases hev

/-- A run of deliveries. -/
theorem follow_deliveries : ∀ {es : List Event} {m : Machine Disk Memory},
    (∀ ev ∈ es, (ev.notice?).isSome) →
      follow (Node.next cfg) (es.map .handle) (.up m) =
        .up ((es.filterMap Event.notice?).foldl (deliverNotice cfg) m)
  | [], m, _ => rfl
  | ev :: es, m, hes => by
    obtain ⟨n, hn⟩ := Option.isSome_iff_exists.1 (hes ev (List.mem_cons_self ..))
    have hnext : advance (Node.next cfg) (.up m) (.handle ev) = .up (deliverNotice cfg m n) := by
      unfold advance
      rw [next_of_notice hn]
      rfl
    rw [List.filterMap_cons_some hn, List.foldl_cons, List.map_cons, follow, List.foldl_cons, hnext]
    exact follow_deliveries fun ev hev => hes ev (List.mem_cons_of_mem _ hev)

theorem isHeightFinalized_deliveries {h : Height} (ns : List ArchiveNotice) :
    (ns.foldl (deliverNotice cfg) m).mem.isHeightFinalized h = m.mem.isHeightFinalized h := by
  induction ns generalizing m with
  | nil => rfl
  | cons n ns ih =>
    rw [List.foldl_cons, ih]
    unfold Memory.isHeightFinalized
    rw [finalizedHeight_deliverNotice]

/-- **The order and the number of deliveries do not matter.** In every run, two lists of messages
that bring the same notices for a height, at most one for each index, leave the same node. If the
height is finalized, every delivery of such a list that completes the set of indices prunes the
height, and no other deletes a blob or marks the row. -/
theorem notices_confluent {s : Node} (hreach : Node.Reachable cfg (fun _ _ => True) s)
    (hup : s.isUp = true) {h : Height} {es es' : List Event}
    (hes : ∀ ev ∈ es, ∃ n, ev.notice? = some n ∧ n.body.height = h)
    (hes' : ∀ ev ∈ es', ∃ n, ev.notice? = some n ∧ n.body.height = h)
    (hsame : ∀ n, n ∈ es.filterMap Event.notice? ↔ n ∈ es'.filterMap Event.notice?)
    (hone : ∀ n ∈ es.filterMap Event.notice?, ∀ n' ∈ es.filterMap Event.notice?,
      n.body.blobIndex = n'.body.blobIndex → n = n') :
    follow (Node.next cfg) (es.map .handle) s = follow (Node.next cfg) (es'.map .handle) s ∧
      (s.machine.mem.isHeightFinalized h = true → ∀ es₁ ev es₂, es = es₁ ++ ev :: es₂ →
        let d := (follow (Node.next cfg) (es₁.map .handle) s).disk
        let d' := (follow (Node.next cfg) ((es₁ ++ [ev]).map .handle) s).disk
        (Disk.Completes h d d' → Disk.Prunes h d d') ∧
          (¬ Disk.Completes h d d' → Disk.PrunesNothing h d d')) := by
  have hbrings : ∀ ev : Event, (∃ n, ev.notice? = some n ∧ n.body.height = h) →
      (ev.notice?).isSome := by
    rintro ev ⟨n, hn, _⟩
    rw [hn]
    rfl
  have hheight : ∀ n ∈ es.filterMap Event.notice?, n.body.height = h := by
    intro n hn
    obtain ⟨ev, hev, hnotice⟩ := List.mem_filterMap.1 hn
    obtain ⟨n', hn', hheight⟩ := hes ev hev
    cases hnotice.symm.trans hn'
    exact hheight
  have hsettles : Settles (fun m : Machine Disk Memory => m.disk.store.ArchiveSound)
      (· ∈ es.filterMap Event.notice?) (deliverNotice cfg) :=
    deliverNotice_settles hheight fun n n' hn hn' => hone n hn n' hn'
  have hsound := archiveSound_of_reachable hreach
  rw [Node.eq_up hup] at hsound ⊢
  refine ⟨?_, fun hfinal es₁ ev es₂ heq => ?_⟩
  · rw [follow_deliveries fun ev hev => hbrings ev (hes ev hev),
      follow_deliveries fun ev hev => hbrings ev (hes' ev hev)]
    exact congrArg Node.up (hsettles.foldl_eq hsound (fun _ hn => hn) hsame)
  · subst heq
    have hes₁ : ∀ ev ∈ es₁, (ev.notice?).isSome := fun ev hev =>
      hbrings ev (hes ev (List.mem_append_left _ hev))
    obtain ⟨n, hn, hnh⟩ := hes ev (List.mem_append_right _ (List.mem_cons_self ..))
    have hes₂ : ∀ ev' ∈ es₁ ++ [ev], (ev'.notice?).isSome := by
      intro ev' hev'
      rcases List.mem_append.1 hev' with hev' | hev'
      · exact hes₁ ev' hev'
      · rw [List.mem_singleton.1 hev', hn]
        rfl
    dsimp only
    rw [follow_deliveries hes₁, follow_deliveries hes₂, List.filterMap_append,
      List.filterMap_cons_some hn, List.filterMap_nil, List.foldl_append]
    refine prunes_iff_completes (hsettles.keeps_foldl hsound fun n hn => ?_) hnh ?_
    · rw [List.filterMap_append]
      exact List.mem_append_left _ hn
    · rw [isHeightFinalized_deliveries]
      exact hfinal

end Runs

namespace Sample

/-- Validator 2 proposes the block with two blobs and commits it. -/
def commitTwins : List Label := proposeTwins ++ [.handle (.decided twinCertificate script)]

/-- Validator 2 has archived one of the two blobs. -/
def twinNotice (index : Nat) (commitment : KzgCommitment) : ArchiveNotice :=
  .sign oracles ⟨1, .some 0, index, commitment, 7, "s3", "blob", ⟨2⟩, 0⟩ ⟨2⟩

def firstTwin : Event := .archiveNotice (twinNotice 0 ⟨1⟩)

def secondTwin : Event :=
  .receivedProposalPart 1 0 ⟨[9], 0, .data (.archiveNotice (twinNotice 1 ⟨3⟩))⟩ gate

end Sample

open Sample in
/-- The blobs of a committed block are archived in either order, one of them twice; the height is
pruned with the second notice. -/
theorem notices_confluent_twins :
    follow (Node.next (config 2)) [.handle firstTwin, .handle secondTwin] (node 2 commitTwins) =
        follow (Node.next (config 2)) [.handle secondTwin, .handle secondTwin, .handle firstTwin]
          (node 2 commitTwins) ∧
      Disk.Prunes 1 (follow (Node.next (config 2)) [.handle firstTwin] (node 2 commitTwins)).disk
        (follow (Node.next (config 2)) [.handle firstTwin, .handle secondTwin]
          (node 2 commitTwins)).disk := by
  have hrun : Node.Reachable (config 2) (fun _ _ => True) (node 2 commitTwins) ∧
      (node 2 commitTwins).isUp = true ∧
      (node 2 commitTwins).machine.mem.isHeightFinalized 1 = true ∧
      (follow (Node.next (config 2)) [.handle firstTwin]
        (node 2 commitTwins)).disk.store.isComplete 1 = false ∧
      (follow (Node.next (config 2)) [.handle firstTwin, .handle secondTwin]
        (node 2 commitTwins)).disk.store.isComplete 1 = true := reached (by decide +kernel)
  obtain ⟨hreach, hup, hfinal, hbefore, hafter⟩ := hrun
  have hfirst : firstTwin.notice? = some (twinNotice 0 ⟨1⟩) := rfl
  have hsecond : secondTwin.notice? = some (twinNotice 1 ⟨3⟩) := rfl
  have hbrings : ∀ ev ∈ [secondTwin, secondTwin, firstTwin],
      ∃ n, ev.notice? = some n ∧ n.body.height = 1 := by
    simp [hfirst, hsecond, twinNotice, ArchiveNotice.sign]
  have hmembers : ∀ n, n ∈ [firstTwin, secondTwin].filterMap Event.notice? ↔
      n ∈ [secondTwin, secondTwin, firstTwin].filterMap Event.notice? := by
    intro n
    simp only [List.filterMap_cons, hfirst, hsecond, List.filterMap_nil, List.mem_cons]
    grind
  have hone : ∀ n ∈ [firstTwin, secondTwin].filterMap Event.notice?,
      ∀ n' ∈ [firstTwin, secondTwin].filterMap Event.notice?,
        n.body.blobIndex = n'.body.blobIndex → n = n' := by
    intro n hn n' hn' hindex
    simp only [List.filterMap_cons, hfirst, hsecond, List.filterMap_nil, List.mem_cons,
      List.not_mem_nil, or_false] at hn hn'
    rcases hn with rfl | rfl <;> rcases hn' with rfl | rfl <;> first | rfl | cases hindex
  obtain ⟨hsame, hprune⟩ := notices_confluent hreach hup
    (fun ev hev => hbrings ev (by rcases List.mem_pair.1 hev with rfl | rfl <;> simp)) hbrings
    hmembers hone
  exact ⟨hsame, (hprune hfinal [firstTwin] secondTwin [] rfl).1 ⟨hbefore, hafter⟩⟩

end Ultramarine
