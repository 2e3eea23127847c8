import Ultramarine.App.Handlers
import Ultramarine.State.Synced

/-!
# The `Decided` message

When the handler of a decision goes on to the next height, and what it leaves then.

Results:

* `decided_inversion`: a decision that goes on has been processed and committed;
* `decided_returns`: with an engine that accepts, a decision goes on once its checks pass and its
  commit returns.
-/

namespace Ultramarine

open Lib Ssz Prog

variable {cfg : Config} {c : CommitCertificate} {script : EngineScript}
  {m m' : Machine Disk Memory}

theorem returns_realignLatestBlock {height : Height} {u : Unit} :
    Returns (realignLatestBlock height) m u m' ↔
      m' = ⟨m.disk, m.mem.realign m.disk.store height⟩ := by
  unfold realignLatestBlock
  rw [returns_getDisk_bind, returns_modifyMem]
  exact eq_comm

/-- **A decision that goes on** has processed the payload of its slot. -/
theorem decided_inversion {next : Height}
    (hr : Returns (decided cfg c script) m (.start next) m') :
    ∃ record out m₁, m.disk.store.loadBlockPayloadRecord ⟨c.height, c.round⟩ = some record ∧
      m₁ = ⟨m.disk, m.mem.realign m.disk.store c.height⟩ ∧
      Returns (processDecidedCertificate cfg c record.executionPayloadSsz script) m₁ out m' := by
  unfold decided at hr
  obtain ⟨_, m₁, hrealign, hr⟩ := returns_bind.1 hr
  rw [returns_realignLatestBlock] at hrealign
  rw [returns_getDisk_bind] at hr
  have hstore : m₁.disk.store = m.disk.store := by rw [hrealign]
  rw [hstore] at hr
  cases hload : m.disk.store.loadBlockPayloadRecord ⟨c.height, c.round⟩ with
  | none =>
    rw [hload] at hr
    cases (returns_pure.1 hr).1
  | some record =>
    rw [hload] at hr
    dsimp only at hr
    split at hr
    · cases (returns_pure.1 hr).1
    · obtain ⟨r, m₂, hattempt, hr⟩ := returns_bind.1 hr
      rcases returns_attempt.1 hattempt with ⟨out, rfl, hout⟩ | ⟨e, rfl, _⟩
      · rw [returns_getMem_bind, returns_pure] at hr
        rw [hr.2] at hout
        exact ⟨record, out, m₁, rfl, hrealign, hout⟩
      · cases (returns_pure.1 hr).1

/-- A decision whose payload is processed goes on. -/
theorem decided_returns {record : BlockPayloadRecord} {out : DecidedOutcome}
    (hload : m.disk.store.loadBlockPayloadRecord ⟨c.height, c.round⟩ = some record)
    (hne : record.executionPayloadSsz ≠ [])
    (hr : Returns (processDecidedCertificate cfg c record.executionPayloadSsz script)
      ⟨m.disk, m.mem.realign m.disk.store c.height⟩ out m') :
    Returns (decided cfg c script) m (.start m'.mem.currentHeight) m' := by
  unfold decided
  refine Returns.bind (a := ()) (returns_realignLatestBlock.2 rfl) ?_
  rw [returns_getDisk_bind, hload]
  dsimp only
  rw [if_neg hne]
  refine Returns.bind (returns_attempt.2 (.inl ⟨out, rfl, hr⟩)) ?_
  exact returns_getMem_bind.2 (returns_pure.2 ⟨rfl, rfl⟩)

/-! ## Deciding a synced slot -/

/-- What the decision of a synced slot leaves at its height: the value, the payload and the
consensus metadata; and the row, the records and the blobs as they were, or pruned. `b` are the
blobs the block was imported with. -/
structure DecidedAs (cfg : Config) (c : CommitCertificate) (p : ProposedValue)
    (record : BlockPayloadRecord) (row : BlobMetadata) (b : BlobStore)
    (m m' : Machine Disk Memory) : Prop where
  value : m'.disk.store.decidedValues[c.height]? = some ⟨p.value, c⟩
  blockData : m'.disk.store.decidedBlockData[c.height]? = some record
  consensus : m'.disk.store.consensusBlockMetadata[c.height]? = some (consensusMetadata cfg c p)
  kept : c.height ∉ m.mem.pendingPruneHeights →
    m'.disk.store.blobMetadataDecided[c.height]? = some row ∧
      (∀ i, m'.disk.store.blobArchival[BlobIndexKey.mk c.height i]? =
        m.disk.store.blobArchival[BlobIndexKey.mk c.height i]?) ∧
      ∀ i, m'.disk.blobs.decided[BlobIndexKey.mk c.height i]? =
        b.decided[BlobIndexKey.mk c.height i]?
  pruned : c.height ∈ m.mem.pendingPruneHeights → row.allArchived = true → 0 < row.blobCount →
    row.pruned = false →
      m'.disk.store.blobMetadataDecided[c.height]? = some row.markPruned ∧
        (∀ i, m'.disk.store.blobArchival[BlobIndexKey.mk c.height i]? =
          m.disk.store.blobArchival[BlobIndexKey.mk c.height i]?)

section SyncedDecision

variable {slot : Slot} {p : ProposedValue} {record : BlockPayloadRecord} {row : BlobMetadata}
  {notices : List ArchiveNotice} {m₀ : Machine Disk Memory} {b : BlobStore} {mem : Memory}

/-- The commit of a synced slot. -/
theorem commit_synced (hs : Synced slot p record row notices m₀ m)
    (hread : m.disk.store.Readable) (hslot : Slot.mk c.height c.round = slot)
    (hnil : c.round ≠ .nil) (hle : c.round.asI64 ≤ i32Max)
    (hqueue : mem.pendingPruneHeights = m.mem.pendingPruneHeights) :
    ∃ m', Returns (commit cfg c) ⟨⟨m.disk.store, b⟩, mem⟩ () m' ∧
      DecidedAs cfg c p record (row.archiveAll notices) b m m' := by
  subst hslot
  have hrow : m.disk.store.promoted ⟨c.height, c.round⟩ = some (row.archiveAll notices) := by
    unfold Store.promoted Store.promotedRow
    rw [hs.undecidedRow, hs.hasRow.stored]
    exact Store.hydrate_of_status hs.hasRow.records
  obtain ⟨m₁, m', hcommit, hfinish, hsame, hmem, hread₁⟩ := @commit_of_proposal cfg c
    ⟨⟨m.disk.store, b⟩, mem⟩ p _ hs.proposal hnil hle hrow hread
  have hat := hsame c.height
  have hvalue := hat.value.trans (Store.committed_decidedValue m.disk.store cfg c p)
  have hconsensus := hat.consensus.trans (Store.committed_consensus m.disk.store cfg c p)
  have hdata : m₁.disk.store.decidedBlockData[c.height]? = some record := by
    refine hat.blockData.trans ((Store.committed_blockData m.disk.store cfg c p).trans ?_)
    rw [hs.blockData, hs.undecidedData]
    rfl
  have hstored : m₁.disk.store.blobMetadataDecided[c.height]? = some (row.archiveAll notices) := by
    refine hat.metadata.trans ((Store.committed_metadata m.disk.store cfg c p _).trans ?_)
    rw [if_pos rfl]
    unfold Store.promotedRow
    rw [hs.undecidedRow, hs.hasRow.stored]
    rfl
  have hrecords : ∀ i, m₁.disk.store.blobArchival[BlobIndexKey.mk c.height i]? =
      m.disk.store.blobArchival[BlobIndexKey.mk c.height i]? := by
    intro i
    refine (hat.records i).trans ?_
    rw [(Store.committed_fields m.disk.store cfg c p).2.2.1]
  have hget : m₁.disk.store.getBlobMetadata c.height = .ok (some (row.archiveAll notices)) :=
    hat.getBlobMetadata.trans (Store.committed_getBlobMetadata.2 hrow)
  have hqueue₁ : m₁.mem.pendingPruneHeights = m.mem.pendingPruneHeights := by
    rw [hmem]
    exact hqueue
  refine ⟨m', hcommit, ?_⟩
  rcases finishCommit_cases (le_refl c.height) hfinish with
    ⟨md, hmemq, hp, hpruned⟩ | ⟨hno, hend⟩
  · cases hget.symm.trans hp.1
    refine ⟨hpruned.value.trans hvalue, hpruned.blockData.trans hdata,
      hpruned.consensus.trans hconsensus, fun hnot => ?_, fun _ _ _ _ => ⟨hpruned.metadata, ?_⟩⟩
    · rw [hqueue₁] at hmemq
      exact absurd hmemq hnot
    · exact fun i => (hpruned.records i).trans (hrecords i)
  · refine ⟨hend.value.trans hvalue, hend.blockData.trans hdata, hend.consensus.trans hconsensus,
      fun _ => ⟨hend.metadata.trans hstored, ?_, ?_⟩, fun hmemq hall hpos hfresh => ?_⟩
    · exact fun i => (hend.records i).trans (hrecords i)
    · exact fun i => (hend.blobs i).trans (hat.blobs i)
    · rw [← hqueue₁] at hmemq
      exact absurd ⟨hget, hall, hpos, hfresh⟩ (hno hmemq _)

/-- **The decision of a synced slot** goes on to the next height once its checks pass. -/
theorem decided_synced {check : DecidedCheck} {status : PayloadStatus}
    (hs : Synced slot p record row notices m₀ m) (hread : m.disk.store.Readable)
    (hslot : Slot.mk c.height c.round = slot) (hnil : c.round ≠ .nil)
    (hle : c.round.asI64 ≤ i32Max) (hne : record.executionPayloadSsz ≠ [])
    (hcheck : checkDecided cfg m.disk slot record.executionPayloadSsz = .ok check)
    (himported : checkImported (m.mem.realign m.disk.store c.height) c.height check.payload =
      .ok ())
    (hscript : script.Accepts status) :
    ∃ next m', Returns (decided cfg c script) m (.start next) m' ∧
      DecidedAs cfg c p record (row.archiveAll notices)
        (m.disk.blobs.forImport slot check.alreadyDecided) m m' := by
  let mem : Memory := (m.mem.realign m.disk.store c.height).countBlock check.payload
    record.executionPayloadSsz
  have hqueue : mem.pendingPruneHeights = m.mem.pendingPruneHeights := rfl
  obtain ⟨m₂, hcommit, hdone⟩ := @commit_synced cfg c m slot p record row notices m₀
    (m.disk.blobs.forImport slot check.alreadyDecided) mem hs hread hslot hnil hle hqueue
  subst hslot
  have hload : m.disk.store.loadBlockPayloadRecord ⟨c.height, c.round⟩ = some record := by
    unfold Store.loadBlockPayloadRecord
    rw [hs.undecidedData]
    rfl
  obtain ⟨out, m', hprocess, hdisk⟩ := processDecided_of_commit
    (m := ⟨m.disk, m.mem.realign m.disk.store c.height⟩) hscript hcheck himported hcommit
  refine ⟨_, m', decided_returns hload hne hprocess, ?_⟩
  refine ⟨?_, ?_, ?_, ?_, ?_⟩ <;> rw [hdisk]
  · exact hdone.value
  · exact hdone.blockData
  · exact hdone.consensus
  · exact hdone.kept
  · exact hdone.pruned

end SyncedDecision

end Ultramarine
