import Ultramarine.App.Decision
import Ultramarine.App.Walk

/-!
# Deciding a height again

Consensus may hand over a decision more than once, after a restart or a failure. The handler then
writes the rows of the height a second time, or promotes its blobs a second time, depending on whether
the undecided proposal is still there. Neither changes what is decided. But the checks of the decision
are made again, against blobs that may have been pruned since and against a `latest_block` that is
another one.

`Disk.Committed` says what the commit of a height leaves; every message that offers nothing for the
height keeps it, and `ReplayFits` is what a replay needs besides.

Results:

* `Disk.Committed.reach`: a committed height stays committed, through restarts, archiving and pruning;
* `committed_of_decided`: a first decision commits its height;
* `replay_same_iff`: a replay goes on and changes nothing that is decided exactly if it fits.
-/

namespace Ultramarine

open Lib Ssz Prog

variable {cfg : Config} {c : CommitCertificate} {m m' : Machine Disk Memory}

/-- The rows of a height as its commit has left them: the decided value with the certificate, the
consensus metadata `cm`, the payload `record`, and a metadata row that can be read back. What is left
of the undecided rows of the round is what was committed. -/
structure Store.CommittedAs (cfg : Config) (c : CommitCertificate) (v : Value)
    (cm : ConsensusBlockMetadata) (record : BlockPayloadRecord) (s : Store) : Prop where
  value : s.decidedValues[c.height]? = some ⟨v, c⟩
  consensus : s.consensusBlockMetadata[c.height]? = some cm
  blockData : s.decidedBlockData[c.height]? = some record
  payload : ∀ r, s.undecidedBlockData[Slot.mk c.height c.round]? = some r → r = record
  proposal : ∀ p, s.undecidedProposals[Slot.mk c.height c.round]? = some p →
    p.value = v ∧ consensusMetadata cfg c p = cm
  undecidedRow : s.blobMetadataUndecided[Slot.mk c.height c.round]? = none
  row : ∃ row, s.blobMetadataDecided[c.height]? = some row ∧
    ∀ r ∈ s.archiveRecords c.height, r.body.blobIndex < row.blobCount

/-- The transaction leaves such rows as they are. Only the first payload of a height is stored, so
one more does no harm. -/
def StoreWrite.Spares (c : CommitCertificate) (v : Value) (cm : ConsensusBlockMetadata) (s : Store) :
    StoreWrite → Prop
  | .insertDecidedValue d => d.certificate.height = c.height → d = ⟨v, c⟩
  | .insertConsensusBlockMetadata n x => n = c.height → x = cm
  | .insertUndecidedProposal p => p.height ≠ c.height
  | .insertUndecidedBlockData slot _ => slot.height ≠ c.height
  | .insertBlobMetadataUndecided slot _ => slot.height ≠ c.height
  | .markBlobMetadataDecided slot => slot.height = c.height → slot.round = c.round
  | .insertArchiveRecord n _ r => n = c.height →
    ∀ row, s.blobMetadataDecided[n]? = some row → r.body.blobIndex < row.blobCount
  | .updateBlobMetadata n metadata => n = c.height →
    ∀ row, s.blobMetadataDecided[n]? = some row → metadata.blobCount = row.blobCount
  | _ => True

/-- The same for a write just after the machine `m`. -/
abbrev Spared (c : CommitCertificate) (v : Value) (cm : ConsensusBlockMetadata)
    (m : Machine Disk Memory) : Write → Prop :=
  OnStore (fun m w => w.Spares c v cm m.disk.store) m

variable {w : Write} {d d' : Disk} {height n : Height} {metadata : BlobMetadata} {s s' : Node}
  {slot : Slot} {α : Type}

section Spares

variable {v : Value} {cm : ConsensusBlockMetadata} {record : BlockPayloadRecord} {s : Store}

/-- **One transaction.** -/
theorem Store.CommittedAs.apply (hs : s.CommittedAs cfg c v cm record) :
    ∀ {w : StoreWrite}, w.Spares c v cm s → (s.apply w).CommittedAs cfg c v cm record := by
  have hslot : ∀ {slot : Slot}, slot.height ≠ c.height → slot ≠ Slot.mk c.height c.round :=
    fun hne heq => hne (congrArg Slot.height heq)
  intro w hw
  cases w with
  | insertDecidedValue d =>
    refine { hs with value := ?_ }
    refine (Table.getElem?_insert_eq _ _ _ _).trans ?_
    split
    · rename_i hd
      rw [hw hd]
    · exact hs.value
  | insertConsensusBlockMetadata n x =>
    refine { hs with consensus := ?_ }
    refine (Table.getElem?_insert_eq _ _ _ _).trans ?_
    split
    · rename_i hn
      rw [hw hn]
    · exact hs.consensus
  | insertUndecidedProposal p =>
    refine { hs with proposal := fun q hq => hs.proposal q ?_ }
    exact ((Table.getElem?_insertIfNew_eq _ _ _ _).trans
      (if_neg fun heq => hw (congrArg Slot.height heq))).symm.trans hq
  | insertUndecidedBlockData slot r =>
    refine { hs with payload := fun q hq => hs.payload q ?_ }
    exact ((Table.getElem?_insertIfNew_eq _ _ _ _).trans (if_neg (hslot hw))).symm.trans hq
  | insertBlobMetadataUndecided slot metadata =>
    refine { hs with undecidedRow := ?_ }
    exact ((Table.getElem?_insertIfNew_eq _ _ _ _).trans (if_neg (hslot hw))).trans hs.undecidedRow
  | insertDecidedBlockData n r =>
    exact { hs with blockData := Table.getElem?_insertIfNew_of_some hs.blockData n r }
  | markBlobMetadataDecided slot =>
    obtain ⟨hvalues, hconsensus, hrecords, hproposals, hdata, hdecided⟩ := s.apply_mark_fields slot
    have hrows : (s.apply (.markBlobMetadataDecided slot)).archiveRecords c.height =
        s.archiveRecords c.height := by
      unfold Store.archiveRecords
      rw [hrecords]
    refine ⟨hvalues ▸ hs.value, hconsensus ▸ hs.consensus, hdecided ▸ hs.blockData,
      hdata ▸ hs.payload, hproposals ▸ hs.proposal, ?_, ?_⟩
    · rw [Store.undecidedRow_apply_mark]
      split
      · rfl
      · exact hs.undecidedRow
    · rw [Store.apply_mark_decided, hrows]
      split
      · -- the row of the round is promoted already
        rename_i hheight
        obtain ⟨height, round⟩ := slot
        obtain rfl : height = c.height := hheight
        obtain rfl : round = c.round := hw rfl
        unfold Store.promotedRow
        rw [hs.undecidedRow]
        exact hs.row
      · exact hs.row
  | insertArchiveRecord n i r =>
    refine { hs with row := ?_ }
    obtain ⟨row, hrow, hread⟩ := hs.row
    refine ⟨row, hrow, fun q hq => ?_⟩
    obtain ⟨j, hj⟩ := Store.mem_archiveRecords.1 hq
    have hj' := (Table.getElem?_insert_eq s.blobArchival (BlobIndexKey.mk n i)
      (BlobIndexKey.mk c.height j) r).symm.trans hj
    split at hj'
    · rename_i hkey
      cases hj'
      have hn : n = c.height := congrArg BlobIndexKey.height hkey
      exact hw hn row (hn ▸ hrow)
    · exact hread q (Store.mem_archiveRecords.2 ⟨j, hj'⟩)
  | updateBlobMetadata n metadata =>
    refine { hs with row := ?_ }
    obtain ⟨row, hrow, hread⟩ := hs.row
    have hget := Table.getElem?_insert_eq s.blobMetadataDecided n c.height metadata
    by_cases hn : n = c.height
    · refine ⟨metadata, hget.trans (if_pos hn), fun q hq => ?_⟩
      rw [hw hn row (hn ▸ hrow)]
      exact hread q hq
    · exact ⟨row, (hget.trans (if_neg hn)).trans hrow, hread⟩
  | insertGenesisBlobMetadata =>
    simp only [Store.apply]
    split
    · exact hs
    · rename_i hzero
      refine { hs with row := ?_ }
      obtain ⟨row, hrow, hread⟩ := hs.row
      refine ⟨row, (Table.getElem?_insert_eq _ _ _ _).trans ((if_neg fun hne => ?_).trans hrow),
        hread⟩
      rw [hne, hrow] at hzero
      cases hzero
  | deleteUndecidedProposal slot =>
    exact { hs with proposal := fun q hq => hs.proposal q (Table.eq_some_of_erase hq) }
  | deleteUndecidedBlockData slot =>
    exact { hs with payload := fun q hq => hs.payload q (Table.eq_some_of_erase hq) }
  | deleteBlobMetadataUndecided slot =>
    refine { hs with undecidedRow := ?_ }
    refine (Table.getElem?_erase_eq _ _ _).trans ?_
    split
    · rfl
    · exact hs.undecidedRow
  | prune retain =>
    exact { hs with
      proposal := fun q hq => hs.proposal q (Table.eq_some_of_eraseWhere hq)
      payload := fun q hq => hs.payload q (Table.eq_some_of_eraseWhere hq) }

/-- The writes of a call that all spare the rows keep them. -/
theorem keeps_of_spares {p : Act α} (hp : Emits (Spared c v cm) (p.run m)) :
    Keeps (fun d => d.store.CommittedAs cfg c v cm record) p m :=
  hp.mono fun _ w hw hs => by
    cases w with
    | store w => exact hs.apply hw
    | blob w => exact hs

theorem Store.CommittedAs.run {p : Act α} (hs : m.disk.store.CommittedAs cfg c v cm record)
    (hp : Emits (Spared c v cm) (p.run m)) :
    (p.run m).state.disk.store.CommittedAs cfg c v cm record :=
  (p.disk_invariant (I := fun d => d.store.CommittedAs cfg c v cm record) hs (keeps_of_spares hp)).2

/-- A rewritten row has as many blobs. -/
theorem RewritesMetadata.spares (h : RewritesMetadata m n metadata) :
    Spared c v cm m (.store (.updateBlobMetadata n metadata)) := by
  intro _ row hrow
  obtain ⟨row', hrow', hcore⟩ := h
  cases hrow.symm.trans hrow'
  exact BlobMetadata.blobCount_of_core hcore

/-- Pruning spares the rows. -/
theorem PruneEffect.spares (h : PruneEffect m w) : Spared c v cm m w := by
  cases h with
  | delete h hi => trivial
  | pruned h => exact (PruneEffect.rewrites (.pruned h)).spares

/-- Archiving spares the rows: a notice that is recorded is for a blob of the row. -/
theorem ArchiveEffect.spares (h : ArchiveEffect cfg m w) : Spared c v cm m w := by
  cases h with
  | record h =>
    intro _ row hrow
    obtain ⟨row', hrow', hcore⟩ := Store.getBlobMetadata_eq_some h.metadata_eq
    cases hrow.symm.trans hrow'
    exact lt_of_lt_of_eq h.index_lt (BlobMetadata.blobCount_of_core hcore)
  | update h hstore hset => exact (ArchiveEffect.rewrites (.update h hstore hset)).spares
  | prune h => exact h.spares

/-- So does the removal of undecided rows. -/
theorem Removes.spares (h : Removes slot w) : Spared c v cm m w := by
  cases h <;> trivial

end Spares

/-! ## Messages that leave the height alone -/

/-- The message offers nothing for the height of the certificate, and brings no other certificate for
it. `m` is the machine it arrives at. -/
structure Event.Quiet (cfg : Config) (m : Machine Disk Memory) (c : CommitCertificate) (ev : Event) :
    Prop where
  proposal : ∀ p, OffersProposal cfg m ev p → p.height ≠ c.height
  blockData : ∀ slot record, OffersBlockData cfg m ev slot record → slot.height ≠ c.height
  metadata : ∀ slot row, OffersMetadata cfg m ev slot row → slot.height ≠ c.height
  blobs : ∀ slot sidecars, OffersBlobs cfg m ev slot sidecars → slot.height ≠ c.height
  certificate : ∀ c' script, ev = .decided c' script → c'.height = c.height → c' = c

section Quiet

variable {v : Value} {cm : ConsensusBlockMetadata} {record : BlockPayloadRecord} {ev : Event}
  {m₀ : Machine Disk Memory}

/-- The clean-up of a commit spares the rows. -/
theorem CleanupEffect.spares (h : CleanupEffect height w) : Spared c v cm m w := by
  cases h with
  | prune hle => trivial
  | drop h => exact h.spares

/-- A transaction of a quiet message that is not a decision of the height. -/
theorem StoreEffect.spares {w : StoreWrite} (hquiet : ev.Quiet cfg m₀ c)
    (hother : ∀ script, ev ≠ .decided c script) (h : StoreEffect cfg m₀ ev m w)
    (hplain : w.isPlain = true) : w.Spares c v cm m.disk.store := by
  cases h with
  | proposal h => exact hquiet.proposal _ h
  | blockData h => exact hquiet.blockData _ _ h
  | metadata h => exact hquiet.metadata _ _ h
  | @promote slot h =>
    cases ev with
    | decided c' script =>
      cases h
      intro hheight
      rw [hquiet.certificate c' script rfl hheight]
    | processSyncedValue height round proposer package =>
      cases h
      exact fun hheight => absurd hheight (hquiet.proposal _ .synced)
    | _ => cases h
  | decidedValue hev h =>
    intro hheight
    exact absurd (hquiet.certificate _ _ hev hheight ▸ hev) (hother _)
  | consensusMetadata hev =>
    intro hheight
    exact absurd (hquiet.certificate _ _ hev hheight ▸ hev) (hother _)
  | decidedBlockData hev h => trivial
  | archiveRecord => cases hplain
  | rewrite h => cases hplain
  | removal h =>
    unfold StoreWrite.isPlain at hplain
    split at hplain
    · cases hplain
    · cases hplain
    · rw [h] at hplain
      cases hplain

theorem Effect.spares (hquiet : ev.Quiet cfg m₀ c) (hother : ∀ script, ev ≠ .decided c script)
    (h : Effect cfg m₀ ev m w) : Spared c v cm m w := by
  cases h with
  | store h hplain => exact h.spares hquiet hother hplain
  | archive h => exact h.spares
  | remove h hw => exact hw.spares
  | _ => trivial

/-- **A replay spares the rows**: what it writes is what is there. -/
theorem commit_spares (hs : m.disk.store.CommittedAs cfg c v cm record) :
    Emits (Spared c v cm) ((commit cfg c).run m) := by
  have hmark : ∀ m : Machine Disk Memory, Spared c v cm m
      (.store (.markBlobMetadataDecided ⟨c.height, c.round⟩)) := fun _ _ => rfl
  refine commit_writes (fun p hp => ?_) (fun _ _ h => h.spares) (fun _ _ h => h.spares)
    (fun _ _ => trivial) (fun _ _ _ => trivial) hmark
  obtain ⟨hvalue, hconsensus⟩ := hs.proposal p hp
  exact commitTables_writes (fun _ _ => by rw [hvalue]) (fun _ _ _ _ => hconsensus) hmark
    fun _ _ => trivial

/-- **A quiet message keeps the rows of a committed height.** -/
theorem handle_keeps_committed (hquiet : ev.Quiet cfg m c)
    (hs : m.disk.store.CommittedAs cfg c v cm record) :
    Keeps (fun d => d.store.CommittedAs cfg c v cm record) (handle cfg ev) m := by
  by_cases hother : ∀ script, ev ≠ .decided c script
  · exact keeps_of_spares ((handle_writes cfg m ev).mono fun _ _ h => h.spares hquiet hother)
  · simp only [not_forall, not_not] at hother
    obtain ⟨script, rfl⟩ := hother
    refine keeps_of_spares (Act.logged_emits (decided_emits_of_store (fun _ _ => trivial)
      (fun _ _ _ => trivial) fun m' hstore => ?_))
    have hs' : m'.disk.store.CommittedAs cfg c v cm record := by
      rw [hstore]
      exact hs
    exact commit_spares hs'

/-- A start keeps them. -/
theorem start_keeps_committed (d : Disk) :
    Keeps (fun d => d.store.CommittedAs cfg c v cm record) (start cfg) (bootMachine cfg d) :=
  keeps_of_spares ((start_writes cfg _).mono fun _ _ h => by
    cases h with
    | genesis => trivial
    | stale h => trivial
    | prune h => exact h.spares)

end Quiet

/-! ## Undecided blobs -/

/-- The write stores an undecided blob at the height. -/
def Write.feeds (h : Height) : Write → Prop
  | .blob (.putUndecided n _ _) => n = h
  | _ => False

/-- Only such a write leaves one. -/
theorem BlobStore.NoUndecided.apply {h : Height} (hd : d.blobs.NoUndecided h) (hw : ¬ w.feeds h) :
    (d.apply w).blobs.NoUndecided h := by
  cases w with
  | store w => exact hd
  | blob w =>
    cases w with
    | putUndecided n r s =>
      intro k s' hk
      have hget := (Table.getElem?_insert_eq d.blobs.undecided (BlobKey.mk n r s.index) k s).symm.trans
        hk
      split at hget
      · rename_i hkey
        subst hkey
        exact hw
      · exact hd k s' hget
    | deleteUndecided key => exact fun k s hk => hd k s (Table.eq_some_of_erase hk)
    | putDecided n s => exact hd
    | deleteDecided n i => exact hd

/-- A message that offers no blobs for the height stores none there. -/
theorem Effect.not_feeds {ev : Event} {m₀ : Machine Disk Memory}
    (hoffers : ∀ slot sidecars, OffersBlobs cfg m₀ ev slot sidecars → slot.height ≠ c.height)
    (h : Effect cfg m₀ ev m w) : ¬ w.feeds c.height := by
  cases h with
  | store h hplain => exact id
  | archive h =>
    cases h with
    | record h => exact id
    | update h hstore hset => exact id
    | prune h => cases h <;> exact id
  | remove h hw => cases hw <;> exact id
  | prune hev hle hcommitted => exact id
  | put h hs => exact hoffers _ _ h
  | promote h hheight => exact id
  | promoted h hheight => exact id

theorem BootEffect.not_feeds (h : BootEffect cfg m w) : ¬ w.feeds c.height := by
  cases h with
  | genesis => exact id
  | stale h => exact id
  | prune h => cases h <;> exact id

/-! ## Runs -/

/-- A height is committed: its rows are those of its commit, the payload among them can be imported,
and no undecided blob is left. -/
structure Disk.Committed (cfg : Config) (c : CommitCertificate) (payload : ExecutionPayloadV3)
    (txHashes : List B256) (d : Disk) : Prop where
  rows : ∃ v cm record, d.store.CommittedAs cfg c v cm record ∧ record.executionPayloadSsz ≠ [] ∧
    cfg.oracles.fromSszBytes record.executionPayloadSsz = some payload
  block : cfg.oracles.tryIntoBlock payload = some txHashes
  prevRandao : payload.prevRandao = loadPrevRandao
  round_ne : c.round ≠ .nil
  round_le : c.round.asI64 ≤ i32Max
  blobs : d.blobs.NoUndecided c.height

/-- The label handles a quiet message, or none. -/
def Label.Quiet (cfg : Config) (c : CommitCertificate) (s : Node) (l : Label) : Prop :=
  ∀ m ev, s = .up m → l.event? = some ev → ev.Quiet cfg m c

section Runs

variable {payload : ExecutionPayloadV3} {txHashes : List B256}

/-- One step. -/
theorem Disk.Committed.next {l : Label} (hs : s.disk.Committed cfg c payload txHashes)
    (hquiet : l.Quiet cfg c s) (h : s.next cfg l = some s') :
    s'.disk.Committed cfg c payload txHashes := by
  obtain ⟨v, cm, record, hrows, hne, hdecode⟩ := hs.rows
  have hrows' := Node.disk_invariant_of_next
    (I := fun d => d.store.CommittedAs cfg c v cm record) hrows (fun m ev hm hev => by
      subst hm
      exact ⟨_, hrows, fun _ => id, handle_keeps_committed (hquiet m ev rfl hev) hrows⟩)
    (fun d _ => start_keeps_committed d) h
  have hblobs' := Node.disk_invariant_of_next (I := fun d => d.blobs.NoUndecided c.height) hs.blobs
    (fun m ev hm hev => by
      subst hm
      exact ⟨_, hs.blobs, fun _ => id, (handle_writes cfg m ev).mono fun _ _ hw hd =>
        hd.apply (hw.not_feeds (hquiet m ev rfl hev).blobs)⟩)
    (fun d _ => (start_writes cfg _).mono fun _ _ hw hd => hd.apply hw.not_feeds) h
  exact { hs with rows := ⟨v, cm, record, hrows', hne, hdecode⟩, blobs := hblobs' }

/-- **A committed height stays committed** along every run of quiet messages, through restarts,
archiving and pruning. -/
theorem Disk.Committed.reach (hs : s.disk.Committed cfg c payload txHashes)
    (h : Reach (Node.next cfg) (Label.Quiet cfg c) s s') :
    s'.disk.Committed cfg c payload txHashes :=
  h.invariant (I := fun s => s.disk.Committed cfg c payload txHashes) hs
    fun _ _ _ hs hquiet hnext => hs.next hquiet hnext

end Runs

/-! ## The first decision -/

section First

variable {p : ProposedValue} {record : BlockPayloadRecord} {s : Store}

/-- The first four transactions of a commit make its rows. -/
theorem committedAs_committed (hp : s.undecidedProposals[Slot.mk c.height c.round]? = some p)
    (hload : s.loadBlockPayloadRecord ⟨c.height, c.round⟩ = some record)
    (hdata : s.decidedBlockData[c.height]? = none)
    (hread : (s.promoted ⟨c.height, c.round⟩).isSome) :
    (s.committed cfg c p).CommittedAs cfg c p.value (consensusMetadata cfg c p) record := by
  obtain ⟨_, _, hrecords, hproposals, hpayloads⟩ := s.committed_fields cfg c p
  have hstored : s.undecidedBlockData[Slot.mk c.height c.round]? = some record := by
    unfold Store.loadBlockPayloadRecord at hload
    rw [hdata] at hload
    cases hrow : s.undecidedBlockData[Slot.mk c.height c.round]? with
    | none =>
      rw [hrow] at hload
      cases hload
    | some r =>
      rw [hrow] at hload
      exact hload
  refine ⟨s.committed_decidedValue cfg c p, s.committed_consensus cfg c p, ?_, fun r hr => ?_,
    fun q hq => ?_, ?_, ?_⟩
  · rw [Store.committed_blockData, hdata, hstored]
    rfl
  · rw [hpayloads, hstored] at hr
    cases hr
    rfl
  · rw [hproposals, hp] at hq
    cases hq
    exact ⟨rfl, rfl⟩
  · rw [Store.committed_undecidedRow, if_pos rfl]
  · obtain ⟨metadata, hmetadata⟩ := Option.isSome_iff_exists.1 hread
    obtain ⟨row, hrow, hhydrate⟩ := Option.bind_eq_some_iff.1 hmetadata
    refine ⟨row, ?_, ?_⟩
    · rw [Store.committed_metadata, if_pos rfl]
      exact hrow
    · unfold Store.archiveRecords
      rw [hrecords]
      exact Store.isSome_hydrate.1 (Option.isSome_iff_exists.2 ⟨metadata, hhydrate⟩)

/-- The rest of the commit keeps them. -/
theorem committedAs_of_commit (hp : m.disk.store.undecidedProposals[Slot.mk c.height c.round]? = some p)
    (hload : m.disk.store.loadBlockPayloadRecord ⟨c.height, c.round⟩ = some record)
    (hdata : m.disk.store.decidedBlockData[c.height]? = none)
    (h : Returns (commit cfg c) m () m') :
    m'.disk.store.CommittedAs cfg c p.value (consensusMetadata cfg c p) record ∧ c.round ≠ .nil ∧
      c.round.asI64 ≤ i32Max := by
  obtain ⟨m₂, hfinish, ⟨p', hp', hproposal⟩ | ⟨hp', _⟩⟩ := returns_commit.1 h
  · cases hp.symm.trans hp'
    obtain ⟨_, m₁, htables, hcleanup⟩ := returns_bind.1 hproposal
    obtain ⟨hnil, hle, metadata, hmetadata, rfl⟩ := returns_commitTables.1 htables
    refine ⟨?_, hnil, hle⟩
    have hrows : (m.disk.store.committed cfg c p).CommittedAs cfg c p.value
        (consensusMetadata cfg c p) record :=
      committedAs_committed hp hload hdata (Option.isSome_iff_exists.2 ⟨metadata, hmetadata⟩)
    have hcleaned := hrows.run (m := ⟨⟨m.disk.store.committed cfg c p, m.disk.blobs⟩,
      m.mem.withBlobRoot cfg c.height metadata⟩)
      ((commitCleanup_writes c.height c.round _).mono fun _ _ hw => hw.spares)
    rw [hcleanup.2] at hcleaned
    have hfinished := hcleaned.run
      ((finishCommit_prunes c.height _).mono fun _ _ hw => hw.spares)
    rw [hfinish.2] at hfinished
    exact hfinished
  · cases hp.symm.trans hp'

/-- **A first decision commits its height**, if the undecided blobs stored there are of its round. -/
theorem committed_of_decided {script : EngineScript} {next : Height}
    (hvalue : m.disk.store.decidedValues[c.height]? = none)
    (hdata : m.disk.store.decidedBlockData[c.height]? = none)
    (hblobs : ∀ (k : BlobKey) (s : BlobSidecar), m.disk.blobs.undecided[k]? = some s →
      k.height = c.height → k.round = c.round.asI64)
    (h : Returns (decided cfg c script) m (.start next) m') :
    ∃ payload txHashes, m'.disk.Committed cfg c payload txHashes := by
  obtain ⟨record, out, _, hload, rfl, hprocess⟩ := decided_inversion h
  obtain ⟨check, m₁, m₂, hcheck, himported, hdisk, hchain, hcommit, hend, _⟩ :=
    processDecided_inversion hprocess
  obtain ⟨payload, txHashes, hne, hdecode, hblock, hrest⟩ := checkDecided_eq_ok.1 hcheck
  have hstore : m₁.disk.store = m.disk.store := by rw [hdisk]
  obtain ⟨p, hp⟩ : ∃ p, m₁.disk.store.undecidedProposals[Slot.mk c.height c.round]? = some p := by
    obtain ⟨_, _, ⟨p, hp, _⟩ | ⟨_, hdecided, _⟩⟩ := returns_commit.1 hcommit
    · exact ⟨p, hp⟩
    · rw [hstore, hvalue] at hdecided
      cases hdecided
  obtain ⟨hrows, hnil, hle⟩ := committedAs_of_commit hp (hstore ▸ hload) (hstore ▸ hdata) hcommit
  have hnone : m₁.disk.blobs.NoUndecided c.height := by
    rw [hdisk]
    exact noUndecided_forImport hcheck hblobs
  have hwrites : Emits (Effect cfg m₁ (.decided c script)) ((commit cfg c).run m₁) :=
    walk_commit (effect_walk cfg m₁ (.decided c script))
  have hkeeps := ((commit cfg c).disk_invariant (I := fun d => d.blobs.NoUndecided c.height) hnone
    (hwrites.mono fun _ _ hw hd => hd.apply (hw.not_feeds fun _ _ hoffer => by cases hoffer))).2
  rw [hcommit.2] at hkeeps
  have hpayload : check.payload = payload := by
    rcases hrest with ⟨_, rfl⟩ | ⟨_, _, rfl⟩ <;> rfl
  rw [checkImported_eq_ok, hpayload] at himported
  rw [← hend] at hrows hkeeps
  exact ⟨payload, txHashes, ⟨_, _, record, hrows, hne, hdecode⟩, hblock, himported.1, hnil, hle,
    hkeeps⟩

end First

/-! ## A replay -/

/-- Flushing the queue does nothing at the height: it can be read, and is not ready to be pruned. -/
def Disk.IdleAt (k : Height) (d : Disk) : Prop :=
  (∃ x, d.store.getBlobMetadata k = .ok x) ∧ ∀ metadata, ¬ d.PrunableAt k metadata

section Flush

variable {k : Height} {heights : List Height}

theorem Disk.IdleAt.of_sameAt (hsame : Disk.SameAt k d d') (h : d.IdleAt k) : d'.IdleAt k := by
  refine ⟨?_, fun metadata hp => h.2 metadata (hp.of_sameAt hsame)⟩
  rw [hsame.getBlobMetadata]
  exact h.1

/-- Pruning a height is seen there. -/
theorem not_sameAt_of_pruned (hp : d.PrunableAt k metadata)
    (hpruned : Disk.PrunedAt k metadata d d') : ¬ Disk.SameAt k d d' := by
  intro hsame
  obtain ⟨row, hrow, hhydrate⟩ := Store.getBlobMetadata_eq_some_iff.1 hp.1
  have hflag : metadata.markPruned.pruned = metadata.pruned := by
    rw [Store.pruned_hydrate hhydrate]
    exact congrArg BlobMetadata.pruned (Option.some.inj
      (hpruned.metadata.symm.trans (hsame.metadata.trans hrow)))
  rw [hp.2.2.2] at hflag
  cases hflag

theorem returns_flushPendingPrune_read (h : Returns (flushPendingPrune k) m () m') :
    ∃ x, m.disk.store.getBlobMetadata k = .ok x := by
  unfold flushPendingPrune at h
  rw [returns_modifyMem_bind, returns_getDisk_bind, returns_ofExit_bind] at h
  obtain ⟨x, hx, _⟩ := h
  exact ⟨x, hx⟩

/-- **A flush that changes nothing**: every height it visits is idle. -/
theorem flushLoop_same_iff : ∀ {heights : List Height} {m : Machine Disk Memory}, heights.Nodup →
    ((∃ m', Returns (Prog.forEach flushPendingPrune heights) m () m' ∧
        ∀ n, Disk.SameAt n m.disk m'.disk) ↔
      ∀ k ∈ heights, m.disk.IdleAt k)
  | [], m, _ => by
    constructor
    · intro _ k hk
      cases hk
    · exact fun _ => ⟨m, returns_forEach_nil.2 rfl, fun _ => .refl _⟩
  | k :: heights, m, hnodup => by
    obtain ⟨hk, hnodup⟩ := List.nodup_cons.1 hnodup
    constructor
    · rintro ⟨m', hr, hsame⟩
      obtain ⟨m₁, hfirst, hrest⟩ := returns_forEach_cons.1 hr
      obtain ⟨x, hx⟩ := returns_flushPendingPrune_read hfirst
      obtain ⟨m₁', hfirst', ⟨metadata, hp, hdisk⟩ | ⟨hnot, hdisk⟩⟩ := returns_flushPendingPrune hx
      · -- a height that was pruned stays so, because it is visited once
        obtain ⟨_, rfl⟩ := hfirst.unique hfirst'
        have hlater := sameAt_flushLoop (h := k) (m := m₁) fun hmem => absurd hmem hk
        rw [hrest.2] at hlater
        have hpruned := Disk.prunedAt_prune k metadata m.disk
        rw [← hdisk] at hpruned
        exact absurd (hsame k) (not_sameAt_of_pruned hp (hpruned.trans_sameAt hlater))
      · obtain ⟨_, rfl⟩ := hfirst.unique hfirst'
        rw [← hdisk] at hsame
        have hidle := (flushLoop_same_iff hnodup).1 ⟨m', hrest, hsame⟩
        rw [hdisk] at hidle
        exact List.forall_mem_cons.2 ⟨⟨⟨x, hx⟩, hnot⟩, hidle⟩
    · intro hidle
      obtain ⟨hfirst, hidle⟩ := List.forall_mem_cons.1 hidle
      obtain ⟨⟨x, hx⟩, hnot⟩ := hfirst
      obtain ⟨m₁, hr, ⟨metadata, hp, _⟩ | ⟨_, hdisk⟩⟩ := returns_flushPendingPrune hx
      · exact absurd hp (hnot metadata)
      · rw [← hdisk] at hidle
        obtain ⟨m', hrest, hsame⟩ := (flushLoop_same_iff hnodup).2 hidle
        rw [hdisk] at hsame
        exact ⟨m', returns_forEach_cons.2 ⟨m₁, hr, hrest⟩, hsame⟩

/-- No queued height is ready to be pruned when the certificate's height is final. -/
def QueueIdle (height : Height) (m : Machine Disk Memory) : Prop :=
  ∀ k ∈ m.mem.pendingPruneHeights, k ≤ (m.mem.finalize height).finalizedHeight → m.disk.IdleAt k

theorem finishCommit_same_iff :
    (∃ m', Returns (finishCommit height) m () m' ∧ ∀ n, Disk.SameAt n m.disk m'.disk) ↔
      QueueIdle height m := by
  have hnodup : (m.mem.pendingPruneHeights.keys.filter
      fun k => k ≤ (m.mem.finalize height).finalizedHeight).Nodup :=
    List.Nodup.filter _ Std.ExtTreeMap.nodup_keys
  have hloop := flushLoop_same_iff (m := ⟨m.disk, m.mem.finalize height⟩) hnodup
  unfold finishCommit flushPendingPrunes
  simp only [returns_modifyMem_bind]
  constructor
  · rintro ⟨m', hr, hsame⟩ k hk hle
    obtain ⟨_, m₁, hflush, hend⟩ := returns_bind.1 hr
    rw [returns_getMem_bind] at hflush
    rw [returns_modifyMem] at hend
    subst hend
    exact hloop.1 ⟨m₁, hflush, hsame⟩ k
      (List.mem_filter.2 ⟨Std.ExtTreeMap.mem_keys.2 hk, decide_eq_true hle⟩)
  · intro hidle
    obtain ⟨m₁, hflush, hsame⟩ := hloop.2 fun k hk => by
      obtain ⟨hmem, hle⟩ := List.mem_filter.1 hk
      exact hidle k (Std.ExtTreeMap.mem_keys.1 hmem) (of_decide_eq_true hle)
    exact ⟨_, Returns.bind (returns_getMem_bind.2 hflush) (returns_modifyMem.2 rfl), hsame⟩

end Flush

section Replay

variable {v : Value} {cm : ConsensusBlockMetadata} {record : BlockPayloadRecord} {s : Store}

theorem Disk.SameAt.symm (h : Disk.SameAt n d d') : Disk.SameAt n d' d :=
  ⟨h.value.symm, h.blockData.symm, h.consensus.symm, h.metadata.symm, fun i => (h.records i).symm,
    fun i => (h.blobs i).symm⟩

/-- The metadata of a committed height can be read. -/
theorem Store.CommittedAs.readable (hs : s.CommittedAs cfg c v cm record) :
    ∃ metadata, s.getBlobMetadata c.height = .ok (some metadata) ∧
      s.promoted ⟨c.height, c.round⟩ = some metadata := by
  obtain ⟨row, hrow, hread⟩ := hs.row
  obtain ⟨metadata, hmetadata⟩ := Option.isSome_iff_exists.1 (Store.isSome_hydrate.2 hread)
  refine ⟨metadata, Store.getBlobMetadata_eq_some_iff.2 ⟨row, hrow, hmetadata⟩, ?_⟩
  unfold Store.promoted Store.promotedRow
  rw [hs.undecidedRow, hrow]
  exact hmetadata

/-- Its payload is the one that was committed. -/
theorem Store.CommittedAs.load (hs : s.CommittedAs cfg c v cm record) :
    s.loadBlockPayloadRecord ⟨c.height, c.round⟩ = some record := by
  unfold Store.loadBlockPayloadRecord
  cases hrow : s.undecidedBlockData[Slot.mk c.height c.round]? with
  | none => exact hs.blockData
  | some r =>
    rw [hs.payload r hrow]
    rfl

/-- **The four transactions write what is there.** -/
theorem Store.CommittedAs.committed_eq (hs : s.CommittedAs cfg c v cm record) {p : ProposedValue}
    (hp : s.undecidedProposals[Slot.mk c.height c.round]? = some p) : s.committed cfg c p = s := by
  obtain ⟨hvalue, hconsensus⟩ := hs.proposal p hp
  have hvalues : s.decidedValues.insert c.height ⟨p.value, c⟩ = s.decidedValues := by
    rw [Table.insert_eq_self, hvalue]
    exact hs.value
  have hmetadata : s.consensusBlockMetadata.insert c.height (consensusMetadata cfg c p) =
      s.consensusBlockMetadata := by
    rw [Table.insert_eq_self, hconsensus]
    exact hs.consensus
  have hrecorded : s.recorded cfg c p = s := by
    unfold Store.recorded
    simp only [Store.apply, hs.undecidedRow, hvalues, hmetadata]
  have hdata : s.decidedBlockData.insertIfNew c.height record = s.decidedBlockData := by
    rw [Table.insertIfNew_eq_self, hs.blockData]
    rfl
  unfold Store.committed Store.withBlockData
  rw [hrecorded, hs.load]
  simp only [Store.apply, hdata]

/-- The memories agree on what the end of a commit reads. -/
def Memory.SameQueue (a b : Memory) : Prop :=
  b.pendingPruneHeights = a.pendingPruneHeights ∧ b.currentHeight = a.currentHeight ∧
    b.latestFinalizedHeight = a.latestFinalizedHeight

theorem QueueIdle.congr (hsame : ∀ n, Disk.SameAt n m.disk m'.disk)
    (hmem : m.mem.SameQueue m'.mem) : QueueIdle height m' ↔ QueueIdle height m := by
  have hfinal : (m'.mem.finalize height).finalizedHeight = (m.mem.finalize height).finalizedHeight := by
    unfold Memory.finalizedHeight Memory.finalize
    rw [hmem.2.1, hmem.2.2]
  unfold QueueIdle
  rw [hmem.1, hfinal]
  exact ⟨fun h k hk hle => (h k hk hle).of_sameAt (hsame k).symm,
    fun h k hk hle => (h k hk hle).of_sameAt (hsame k)⟩

/-- Up to its end, a replayed commit changes nothing that is decided. -/
theorem returns_commitHeight (hs : m.disk.store.CommittedAs cfg c v cm record) (hnil : c.round ≠ .nil)
    (hle : c.round.asI64 ≤ i32Max) (hnone : m.disk.blobs.NoUndecided c.height) :
    ∃ m₁, Returns (commitHeight cfg c) m () m₁ ∧ (∀ n, Disk.SameAt n m.disk m₁.disk) ∧
      m.mem.SameQueue m₁.mem := by
  obtain ⟨metadata, hget, hpromoted⟩ := hs.readable
  unfold commitHeight
  simp only [returns_getDisk_bind]
  cases hp : m.disk.store.undecidedProposals[Slot.mk c.height c.round]? with
  | some p =>
    obtain ⟨m₁, hcleanup, hsame, hmem⟩ := returns_commitCleanup c.height c.round
      ⟨⟨m.disk.store.committed cfg c p, m.disk.blobs⟩, m.mem.withBlobRoot cfg c.height metadata⟩
    refine ⟨m₁, Returns.bind (a := ())
      (returns_commitTables.2 ⟨hnil, hle, metadata, hpromoted, rfl⟩) hcleanup, ?_, ?_⟩
    · rw [hs.committed_eq hp] at hsame
      exact hsame
    · rw [hmem]
      exact ⟨rfl, rfl, rfl⟩
  | none =>
    simp only [hs.value]
    refine ⟨⟨m.disk, m.mem.withBlobRoot cfg c.height metadata⟩, ?_, fun _ => .refl _, rfl, rfl, rfl⟩
    unfold commitReplay
    have hmark : Returns (markDecided c.height c.round.asI64) m () m := by
      rw [returns_markDecided, BlobStore.promote_of_none hnone]
    refine hmark.bind (returns_getDisk_bind.2 ?_)
    rw [hget]
    exact returns_modifyMem.2 rfl

/-- **A replayed commit** changes nothing that is decided exactly if no queued height is ready. -/
theorem commit_same_iff (hs : m.disk.store.CommittedAs cfg c v cm record) (hnil : c.round ≠ .nil)
    (hle : c.round.asI64 ≤ i32Max) (hnone : m.disk.blobs.NoUndecided c.height) :
    (∃ m', Returns (commit cfg c) m () m' ∧ ∀ n, Disk.SameAt n m.disk m'.disk) ↔
      QueueIdle c.height m := by
  obtain ⟨m₁, hheight, hsame, hqueue⟩ := returns_commitHeight hs hnil hle hnone
  rw [← QueueIdle.congr hsame hqueue, ← finishCommit_same_iff]
  constructor
  · rintro ⟨m', hr, hend⟩
    obtain ⟨_, m₁', hheight', hfinish⟩ := returns_bind.1 hr
    obtain ⟨_, rfl⟩ := hheight.unique hheight'
    exact ⟨m', hfinish, fun n => (hsame n).symm.trans (hend n)⟩
  · rintro ⟨m', hfinish, hend⟩
    exact ⟨m', hheight.bind hfinish, fun n => (hsame n).trans (hend n)⟩

end Replay

/-- What a replay of a committed height needs: the blobs its block stands for are still stored; if the
height follows the executed one, the block is the child of the latest one; and no queued height is
ready to be pruned. -/
structure ReplayFits (cfg : Config) (c : CommitCertificate) (payload : ExecutionPayloadV3)
    (txHashes : List B256) (m : Machine Disk Memory) : Prop where
  blobs : expectedHashes cfg m.disk.store ⟨c.height, c.round⟩ txHashes = [] ∨
    versionedHashesFromSidecars cfg.oracles (m.disk.blobs.getDecidedBlobs c.height) =
      expectedHashes cfg m.disk.store ⟨c.height, c.round⟩ txHashes
  parent : m.mem.executedHeight + 1 = c.height →
    (realignedBlock m.disk.store c.height m.mem.latestBlock).all fun b =>
      b.blockHash = payload.parentHash
  queue : QueueIdle c.height m

section Decided

variable {payload : ExecutionPayloadV3} {txHashes : List B256} {script : EngineScript}
  {status : PayloadStatus}

/-- The import of a committed height promotes nothing. -/
theorem forImport_of_none {b : BlobStore} (h : b.NoUndecided slot.height) (done : Bool) :
    b.forImport slot done = b := by
  unfold BlobStore.forImport
  rw [BlobStore.promote_of_none h]
  exact ite_id b

/-- **A replay of a committed height**, with an engine that accepts the block, goes on and changes
nothing that is decided exactly if it fits. -/
theorem Disk.Committed.decided_same_iff (hd : m.disk.Committed cfg c payload txHashes)
    (hscript : script.Accepts status) :
    (∃ next m', Returns (decided cfg c script) m (.start next) m' ∧
        ∀ n, Disk.SameAt n m.disk m'.disk) ↔
      ReplayFits cfg c payload txHashes m := by
  obtain ⟨v, cm, record, hs, hne, hdecode⟩ := hd.rows
  have hempty := hd.blobs.getUndecidedBlobs c.round.asI64
  have hfor : m.disk.blobs.forDecision ⟨c.height, c.round⟩ = m.disk.blobs.getDecidedBlobs c.height :=
    BlobStore.forDecision_of_empty hempty
  constructor
  · rintro ⟨next, m', hr, hsame⟩
    obtain ⟨record', out, _, hload, rfl, hprocess⟩ := decided_inversion hr
    cases hs.load.symm.trans hload
    obtain ⟨check, m₁, m₂, hcheck, himported, hdisk, hchain, hcommit, hend, _⟩ :=
      processDecided_inversion hprocess
    obtain ⟨payload', txHashes', _, hdecode', hblock', hrest⟩ := checkDecided_eq_ok.1 hcheck
    cases hdecode.symm.trans hdecode'
    cases hd.block.symm.trans hblock'
    have hpayload : check.payload = payload := by
      rcases hrest with ⟨_, rfl⟩ | ⟨_, _, rfl⟩ <;> rfl
    rw [hpayload, checkImported_eq_ok] at himported
    refine ⟨?_, himported.2, ?_⟩
    · rcases hrest with ⟨hnil, _⟩ | ⟨_, hhashes, _⟩
      · exact .inl hnil
      · rw [hfor] at hhashes
        exact .inr hhashes
    · have hdisk₁ : m₁.disk = m.disk := by
        rw [hdisk, forImport_of_none hd.blobs]
      rw [hend, ← hdisk₁] at hsame
      have hidle := (commit_same_iff (hdisk₁ ▸ hs) hd.round_ne hd.round_le (hdisk₁ ▸ hd.blobs)).1
        ⟨m₂, hcommit, hsame⟩
      obtain ⟨_, _, _, _, hmem⟩ := hchain
      refine (QueueIdle.congr (m := m) (fun n => ?_) ?_).1 hidle
      · rw [hdisk₁]
        exact .refl _
      · rw [hmem]
        exact ⟨rfl, rfl, rfl⟩
  · rintro ⟨hblobs, hparent, hqueue⟩
    obtain ⟨check, hcheck, hpayload⟩ : ∃ check, checkDecided cfg m.disk ⟨c.height, c.round⟩
        record.executionPayloadSsz = .ok check ∧ check.payload = payload := by
      by_cases hnil : expectedHashes cfg m.disk.store ⟨c.height, c.round⟩ txHashes = []
      · exact ⟨_, checkDecided_eq_ok.2 ⟨payload, txHashes, hne, hdecode, hd.block,
          .inl ⟨hnil, rfl⟩⟩, rfl⟩
      · have hhashes := hblobs.resolve_left hnil
        rw [← hfor] at hhashes
        exact ⟨_, checkDecided_eq_ok.2 ⟨payload, txHashes, hne, hdecode, hd.block,
          .inr ⟨hnil, hhashes, rfl⟩⟩, rfl⟩
    have himported : checkImported (m.mem.realign m.disk.store c.height) c.height check.payload =
        .ok () := by
      rw [hpayload, checkImported_eq_ok]
      exact ⟨hd.prevRandao, hparent⟩
    let mem : Memory := (m.mem.realign m.disk.store c.height).countBlock check.payload
      record.executionPayloadSsz
    have hidle : QueueIdle c.height ⟨m.disk, mem⟩ :=
      (QueueIdle.congr (m := m) (fun _ => .refl _) ⟨rfl, rfl, rfl⟩).2 hqueue
    obtain ⟨m₂, hcommit, hsame⟩ := (commit_same_iff (m := ⟨m.disk, mem⟩) hs hd.round_ne hd.round_le
      hd.blobs).2 hidle
    have hdisk : (⟨m.disk.store, m.disk.blobs.forImport ⟨c.height, c.round⟩ check.alreadyDecided⟩ :
        Disk) = m.disk := by
      rw [forImport_of_none hd.blobs]
    obtain ⟨out, m', hprocess, hend⟩ := processDecided_of_commit
      (m := ⟨m.disk, m.mem.realign m.disk.store c.height⟩) hscript hcheck himported
      (hdisk.symm ▸ hcommit)
    refine ⟨_, m', decided_returns hs.load hne hprocess, fun n => ?_⟩
    rw [hend]
    exact hsame n

end Decided

/-- **Replays.** A decision that goes on commits its height, if nothing of the height was decided and
the undecided blobs stored there are of its round. Take any later state of any run, with restarts,
archiving and pruning, whose messages offer nothing more for the height. Deciding the same certificate
there again, with an engine that accepts the block, goes on and leaves what is decided at every height
as it is, exactly if the replay fits. -/
theorem replay_same_iff {cfg : Config} {c : CommitCertificate} :
    (∀ (m m' : Machine Disk Memory) (script : EngineScript) (next : Height),
      m.disk.store.decidedValues[c.height]? = none →
      m.disk.store.decidedBlockData[c.height]? = none →
      (∀ (k : BlobKey) (s : BlobSidecar), m.disk.blobs.undecided[k]? = some s →
        k.height = c.height → k.round = c.round.asI64) →
      Returns (decided cfg c script) m (.start next) m' →
      ∃ payload txHashes, m'.disk.Committed cfg c payload txHashes) ∧
    ∀ (s : Node) (m : Machine Disk Memory) (payload : ExecutionPayloadV3) (txHashes : List B256)
      (script : EngineScript) (status : PayloadStatus), s.disk.Committed cfg c payload txHashes →
      Reach (Node.next cfg) (Label.Quiet cfg c) s (.up m) → script.Accepts status →
      ((∃ next m', Returns (decided cfg c script) m (.start next) m' ∧
          ∀ n, Disk.SameAt n m.disk m'.disk) ↔
        ReplayFits cfg c payload txHashes m) := by
  refine ⟨fun m m' script next hvalue hdata hblobs h => committed_of_decided hvalue hdata hblobs h, ?_⟩
  intro s m payload txHashes script status hs hrun hscript
  exact (hs.reach hrun : m.disk.Committed cfg c payload txHashes).decided_same_iff hscript

namespace Sample

/-- Block 1 is proposed and decided. -/
def decideOne : List Label := proposeRun ++ [.handle (.decided certificateOne script)]

/-- The block with a blob is decided; its blob is archived, and pruned. -/
def prunedBlob : List Label := commitBlob ++ [.handle (.archiveNotice blobNotice)]

/-- A chain whose genesis block has a hash. -/
def rootedConfig : Config := { config 1 with genesisBlock := ⟨7, 0, 0, 0, 1⟩ }

/-- The certificate of its first block. -/
def rootedCertificate : CommitCertificate := certificate 1 (.some 0) (value (payload 8 0 1 0))

/-- The block is decided and the node restarts. -/
def rootedRestart : List Label :=
  [.start, .handle (.getValue 1 (.some 0) gate (some ⟨payload 8 0 1 0, [], none⟩)),
    .handle (.decided rootedCertificate script), .crash (.startedRound 2 (.some 0)) 0, .start]

/-- The node then. -/
def rooted : Node := follow (Node.next rootedConfig) rootedRestart (.down Disk.empty)

end Sample

open Sample in
/-- Block 1 is decided again right after its decision. -/
theorem replay_same_iff_at_once :
    ∃ next m', Returns (decided (config 1) certificateOne script) (node 1 decideOne).machine
        (.start next) m' ∧
      ∀ n, Disk.SameAt n (node 1 decideOne).machine.disk m'.disk := by
  have hrun : ((decided (config 1) certificateOne script).run (node 1 proposeRun).machine).exit =
        .ok (.start 2) ∧
      (node 1 proposeRun).machine.disk.store.decidedValues[(1 : Height)]? = none ∧
      (node 1 proposeRun).machine.disk.store.decidedBlockData[(1 : Height)]? = none ∧
      (node 1 proposeRun).machine.disk.blobs.undecided.keys = [] ∧
      (node 1 decideOne).machine.disk.store.loadBlockPayloadRecord ⟨1, .some 0⟩ =
        some ⟨[1, 0, 1, 0], []⟩ ∧
      expectedHashes (config 1) (node 1 decideOne).machine.disk.store ⟨1, .some 0⟩ [] = [] ∧
      (node 1 decideOne).machine.mem.executedHeight = 1 ∧
      (node 1 decideOne).machine.mem.pendingPruneHeights.keys = [] := by
    decide +kernel
  obtain ⟨hexit, hvalue, hdata, hblobs, hload, hhashes, hexecuted, hqueue⟩ := hrun
  have hfirst : Returns (decided (config 1) certificateOne script) (node 1 proposeRun).machine
      (.start 2) (node 1 decideOne).machine := ⟨hexit, by rfl⟩
  obtain ⟨payload, txHashes, hcommitted⟩ := replay_same_iff.1 _ _ script 2 hvalue hdata
    (fun k s hk => by
      have hmem := Table.mem_keys.2 (Option.isSome_iff_exists.2 ⟨s, hk⟩)
      rw [hblobs] at hmem
      cases hmem) hfirst
  refine (replay_same_iff.2 (.up (node 1 decideOne).machine) _ payload txHashes script .valid
    hcommitted .refl ⟨rfl, by decide, rfl⟩).2 ⟨?_, fun h => ?_, fun k hk => ?_⟩
  · -- the payload is that of block 1, which has no blobs
    obtain ⟨v, cm, record, hs, _, hdecode⟩ := hcommitted.rows
    cases hs.load.symm.trans hload
    obtain rfl := Option.some.inj hdecode
    obtain rfl := Option.some.inj hcommitted.block
    exact .inl hhashes
  · rw [hexecuted] at h
    cases h
  · rw [← Std.ExtTreeMap.mem_keys, hqueue] at hk
    cases hk

open Sample in
/-- A decision is refused when it is repeated after its blob was pruned, and after a restart. -/
theorem replay_refused :
    (Node.Reachable (config 2) (fun _ _ => True) (node 2 prunedBlob) ∧
      ((node 2 prunedBlob).machine.disk.store.decidedValues[(1 : Height)]?).isSome ∧
      ((decided (config 2) blobCertificate script).run (node 2 prunedBlob).machine).exit =
        .ok (.restart 1)) ∧
    (Node.Reachable rootedConfig (fun _ _ => True) rooted ∧
      (rooted.machine.disk.store.decidedValues[(1 : Height)]?).isSome ∧
      ((decided rootedConfig rootedCertificate script).run rooted.machine).exit =
        .ok (.restart 1)) := by
  refine ⟨reached (by decide +kernel), ?_⟩
  have hrun : Follows (Node.next rootedConfig) (fun _ _ => True) rootedRestart (.down Disk.empty) ∧
      (rooted.machine.disk.store.decidedValues[(1 : Height)]?).isSome ∧
      ((decided rootedConfig rootedCertificate script).run rooted.machine).exit =
        .ok (.restart 1) := by
    decide +kernel
  exact ⟨Reach.refl.follow hrun.1, hrun.2⟩

end Ultramarine
