import Ultramarine.App.Run
import Ultramarine.State.Synced

/-!
# The latest blob metadata

The store keeps a pointer to the latest decided blob metadata, and the node caches the root and the
height of that row as the parent of the next one. A promotion moves the pointer to its own height
whatever is decided already; a synced value caches the row it computed, though the table keeps the row
that was there first; and a commit that is replayed caches the row of its height.

`MetadataOp` are the operations that touch either. `LatestNamed` is what they should keep up:
the pointer names the greatest decided height, and the cache is the row it names.
`step_latestNamed_iff` says when one operation keeps it, and `latest_metadata_iff` that along a run.
-/

namespace Ultramarine

open Lib Prog

/-! ## The operations -/

/-- The part of `commit` that promotes the metadata of a height and caches its root. -/
def promoteMetadata (cfg : Config) (slot : Slot) : Act Unit := do
  markBlobMetadataDecided slot
  let d ← getDisk
  let metadata ← Prog.ofExit (d.store.getBlobMetadata slot.height)
  let metadata ← Prog.ofExit (Exit.ofOption (.missingBlobMetadata slot) metadata)
  cacheBlobRoot cfg slot.height metadata

theorem commitTables_eq (cfg : Config) (c : CommitCertificate) (p : ProposedValue) :
    commitTables cfg c p = (do
      storeDecidedValue c p.value
      let d ← getDisk
      Prog.ofExit (.ensure (d.store.decidedValues[c.height]? ≠ none) .decidedValueNotStored)
      putConsensusBlockMetadata c.height (consensusMetadata cfg c p)
      promoteMetadata cfg ⟨c.height, c.round⟩
      copyBlockData ⟨c.height, c.round⟩) := by
  unfold commitTables promoteMetadata
  simp only [bind_assoc]

/-- The part of a replayed `commit` that looks for the metadata of the height and caches its root. -/
def replayMetadata (cfg : Config) (slot : Slot) : Act Unit := do
  let d ← getDisk
  match d.store.getBlobMetadata slot.height with
  | .ok (some metadata) => cacheBlobRoot cfg slot.height metadata
  | .ok none =>
    match d.store.blobMetadataUndecided[slot]? with
    | some metadata =>
      let _ ← (markBlobMetadataDecided slot).attempt
      cacheBlobRoot cfg slot.height metadata
    | none => pure ()
  | _ => pure ()

theorem commitReplay_eq (cfg : Config) (c : CommitCertificate) :
    commitReplay cfg c = (do
      markDecided c.height c.round.asI64
      replayMetadata cfg ⟨c.height, c.round⟩) := rfl

/-- The operations on blob metadata: a row for a round that is not decided, a commit, a commit that is
replayed, a synced value, and the hydration of a node, also of one that was restarted. -/
inductive MetadataOp where
  | put (slot : Slot) (metadata : BlobMetadata)
  | promote (slot : Slot)
  | replay (slot : Slot)
  | sync (slot : Slot) (metadata : BlobMetadata)
  | hydrate
  | restart

/-- The program of an operation. -/
def MetadataOp.program (cfg : Config) : MetadataOp → Act Unit
  | .put slot metadata => putBlobMetadataUndecided slot metadata
  | .promote slot => promoteMetadata cfg slot
  | .replay slot => replayMetadata cfg slot
  | .sync slot metadata => promoteSyncedMetadata cfg slot metadata
  | .hydrate => hydrateBlobParentRoot cfg
  | .restart => do
    Prog.modifyMem fun _ => Memory.new cfg.startHeight
    hydrateBlobParentRoot cfg

/-- The machine after an operation, whether or not it succeeded. -/
def metadataStep (cfg : Config) (m : Machine Disk Memory) (op : MetadataOp) : Machine Disk Memory :=
  ((op.program cfg).run m).state

/-- The machine after a sequence of operations on an empty store, the first of which seeds it. -/
def metadataRun (cfg : Config) (ops : List MetadataOp) : Machine Disk Memory :=
  ops.foldl (metadataStep cfg)
    (metadataStep cfg ⟨.empty, Memory.new cfg.startHeight⟩ .hydrate)

/-- **The pointer names the greatest decided height, and the cache is the row it names.** -/
def LatestNamed (cfg : Config) (m : Machine Disk Memory) : Prop :=
  ∃ height row, m.disk.store.latestHeight = some height ∧
    m.disk.store.blobMetadataDecided[height]? = some row ∧
    (∀ h : Height, (m.disk.store.blobMetadataDecided[h]?).isSome → h ≤ height) ∧
    m.mem.lastBlobSidecarRoot = row.computeBlobRoot cfg.oracles ∧
    m.mem.lastBlobSidecarHeight = height

/-- No decided height is above the given one. -/
def Store.NoneAbove (s : Store) (height : Height) : Prop :=
  ∀ h : Height, (s.blobMetadataDecided[h]?).isSome → h ≤ height

/-- The operation comes in order: what it promotes or caches is of no lower height than the decided
rows, and a synced value's row is not preceded by another one of its round. -/
def MetadataOp.InOrder (cfg : Config) (m : Machine Disk Memory) : MetadataOp → Prop
  | .promote slot | .replay slot =>
    (m.disk.store.promotedRow slot).isSome → m.disk.store.NoneAbove slot.height
  | .sync slot metadata =>
    m.disk.store.NoneAbove slot.height ∧
      ∀ row, m.disk.store.blobMetadataUndecided[slot]? = some row →
        row.computeBlobRoot cfg.oracles = metadata.computeBlobRoot cfg.oracles
  | _ => True

/-! ## One operation -/

section Rows

variable {cfg : Config} {s : Store} {slot : Slot} {height : Height} {row md : BlobMetadata}
  {m m' : Machine Disk Memory}

theorem getBlobMetadata_of_row (hrecords : s.blobArchival = ∅)
    (hrow : s.blobMetadataDecided[height]? = some row) :
    s.getBlobMetadata height = .ok (some row) := by
  refine Store.getBlobMetadata_eq_some_iff.2 ⟨row, hrow, ?_⟩
  have hnone : s.archiveRecords height = [] := by
    refine List.eq_nil_iff_forall_not_mem.2 fun r hr => ?_
    obtain ⟨i, hi⟩ := Store.mem_archiveRecords.1 hr
    simp [hrecords] at hi
  rw [hnone]
  rfl

theorem promotedRow_eq_none : s.promotedRow slot = none ↔
    s.blobMetadataUndecided[slot]? = none ∧ s.blobMetadataDecided[slot.height]? = none := by
  unfold Store.promotedRow
  cases s.blobMetadataUndecided[slot]? <;> simp

theorem latestHeight_apply_mark (s : Store) (slot : Slot) :
    (s.apply (.markBlobMetadataDecided slot)).latestHeight =
      if (s.blobMetadataUndecided[slot]?).isSome then some slot.height else s.latestHeight := by
  simp only [Store.apply]
  cases s.blobMetadataUndecided[slot]? <;> rfl

theorem noneAbove_apply_mark :
    (s.apply (.markBlobMetadataDecided slot)).NoneAbove slot.height ↔ s.NoneAbove slot.height := by
  refine forall_congr' fun h => ?_
  rw [Store.apply_mark_decided]
  split
  · rename_i heq
    exact iff_of_true (fun _ => heq.ge) fun _ => heq.ge
  · rfl

/-- A machine that has just cached a row of a height. -/
theorem latestNamed_cached_iff {b : BlobStore} {mem : Memory}
    (hrow : s.blobMetadataDecided[height]? = some row) :
    LatestNamed cfg ⟨⟨s, b⟩, mem.withBlobRoot cfg height md⟩ ↔
      s.latestHeight = some height ∧ s.NoneAbove height ∧
        row.computeBlobRoot cfg.oracles = md.computeBlobRoot cfg.oracles := by
  constructor
  · rintro ⟨h, row', hlatest, hrow', habove, hroot, hheight⟩
    have heq : height = h := hheight
    subst heq
    obtain rfl : row = row' := Option.some.inj (hrow.symm.trans hrow')
    exact ⟨hlatest, habove, hroot.symm⟩
  · rintro ⟨hlatest, habove, hroot⟩
    exact ⟨height, row, hlatest, hrow, habove, hroot.symm, rfl⟩

/-- A decided height that none is above is the one the pointer names. -/
theorem LatestNamed.latest_of_noneAbove (h : LatestNamed cfg m)
    (hrow : m.disk.store.blobMetadataDecided[height]? = some row)
    (habove : m.disk.store.NoneAbove height) : m.disk.store.latestHeight = some height := by
  obtain ⟨h₀, row₀, hlatest, hrow₀, habove₀, -, -⟩ := h
  have hle : h₀ ≤ height := habove h₀ (by rw [hrow₀]; rfl)
  have hge : height ≤ h₀ := habove₀ height (by rw [hrow]; rfl)
  rw [hlatest, Nat.le_antisymm hle hge]

theorem step_promote_of_row (hrecords : m.disk.store.blobArchival = ∅)
    (hrow : m.disk.store.promotedRow slot = some row) :
    metadataStep cfg m (.promote slot) =
      ⟨⟨m.disk.store.apply (.markBlobMetadataDecided slot), m.disk.blobs⟩,
        m.mem.withBlobRoot cfg slot.height row⟩ := by
  have hdecided : (m.disk.store.apply (.markBlobMetadataDecided slot)).blobMetadataDecided[
      slot.height]? = some row := by
    rw [Store.apply_mark_decided, if_pos rfl, hrow]
  have hload := getBlobMetadata_of_row
    ((Store.apply_mark_fields m.disk.store slot).2.2.1.trans hrecords) hdecided
  have hreturns : Returns (promoteMetadata cfg slot) m ()
      ⟨⟨m.disk.store.apply (.markBlobMetadataDecided slot), m.disk.blobs⟩,
        m.mem.withBlobRoot cfg slot.height row⟩ := by
    unfold promoteMetadata
    refine Returns.bind (a := ()) (returns_markBlobMetadataDecided.2 ⟨by rw [hrow]; rfl, rfl⟩) ?_
    refine returns_getDisk_bind.2 (returns_ofExit_bind.2 ⟨some row, hload, ?_⟩)
    exact returns_ofExit_bind.2 ⟨row, rfl, returns_modifyMem.2 rfl⟩
  exact hreturns.2

theorem step_promote_of_none (hrow : m.disk.store.promotedRow slot = none) :
    metadataStep cfg m (.promote slot) = m := by
  obtain ⟨hundecided, hdecided⟩ := promotedRow_eq_none.1 hrow
  have hfail : (markBlobMetadataDecided slot).run m =
      (Prog.fail (.missingBlobMetadata slot) : Act Unit).run m := by
    unfold markBlobMetadataDecided
    rw [run_getDisk_bind, hundecided, hdecided]
  unfold metadataStep MetadataOp.program promoteMetadata
  rw [run_bind, bindRun, hfail]
  rfl

theorem step_sync (slot : Slot) (md : BlobMetadata) :
    metadataStep cfg m (.sync slot md) =
      ⟨⟨m.disk.store.withRow slot md, m.disk.blobs⟩, m.mem.withBlobRoot cfg slot.height md⟩ :=
  returns_promoteSyncedMetadata.2

theorem step_replay_of_decided (hrecords : m.disk.store.blobArchival = ∅)
    (hrow : m.disk.store.blobMetadataDecided[slot.height]? = some row) :
    metadataStep cfg m (.replay slot) = ⟨m.disk, m.mem.withBlobRoot cfg slot.height row⟩ := by
  have hload := getBlobMetadata_of_row hrecords hrow
  unfold metadataStep MetadataOp.program replayMetadata
  rw [run_getDisk_bind, hload]
  rfl

theorem step_replay_of_undecided (hdecided : m.disk.store.blobMetadataDecided[slot.height]? = none)
    (hrow : m.disk.store.blobMetadataUndecided[slot]? = some row) :
    metadataStep cfg m (.replay slot) =
      ⟨⟨m.disk.store.apply (.markBlobMetadataDecided slot), m.disk.blobs⟩,
        m.mem.withBlobRoot cfg slot.height row⟩ := by
  have hsome : (m.disk.store.promotedRow slot).isSome := by
    unfold Store.promotedRow
    rw [hrow]
    rfl
  have hreturns : Returns (replayMetadata cfg slot) m ()
      ⟨⟨m.disk.store.apply (.markBlobMetadataDecided slot), m.disk.blobs⟩,
        m.mem.withBlobRoot cfg slot.height row⟩ := by
    unfold replayMetadata
    rw [returns_getDisk_bind, Store.getBlobMetadata_eq_none_iff.2 hdecided, hrow]
    have hmark : Returns (markBlobMetadataDecided slot) m ()
        (afterStore m (.markBlobMetadataDecided slot)) :=
      returns_markBlobMetadataDecided.2 ⟨hsome, rfl⟩
    exact returns_bind.2 ⟨.ok (), _, returns_attempt.2 (.inl ⟨(), rfl, hmark⟩),
      returns_modifyMem.2 rfl⟩
  exact hreturns.2

theorem step_replay_of_none (hrow : m.disk.store.promotedRow slot = none) :
    metadataStep cfg m (.replay slot) = m := by
  obtain ⟨hundecided, hdecided⟩ := promotedRow_eq_none.1 hrow
  unfold metadataStep MetadataOp.program replayMetadata
  rw [run_getDisk_bind, Store.getBlobMetadata_eq_none_iff.2 hdecided, hundecided]
  rfl

/-- Hydration caches the row that the pointer names. -/
theorem run_hydrate (hrecords : m.disk.store.blobArchival = ∅)
    (hlatest : m.disk.store.latestHeight = some height)
    (hrow : m.disk.store.blobMetadataDecided[height]? = some row) :
    ((hydrateBlobParentRoot cfg).run m).state = ⟨m.disk, m.mem.withBlobRoot cfg height row⟩ := by
  have hload : m.disk.store.getLatestBlobMetadata = .ok (some (height, row)) := by
    unfold Store.getLatestBlobMetadata
    simp only [hlatest, getBlobMetadata_of_row hrecords hrow]
    rfl
  unfold hydrateBlobParentRoot
  rw [run_getDisk_bind, run_ofExit_bind hload]
  rfl

end Rows

section Step

variable {cfg : Config} {m : Machine Disk Memory} {slot : Slot}

/-- A promotion with a row to promote keeps the pointer and the cache exactly if no decided height is
above it. -/
theorem latestNamed_marked_iff (h : LatestNamed cfg m) {row : BlobMetadata}
    (hrow : m.disk.store.promotedRow slot = some row) :
    LatestNamed cfg ⟨⟨m.disk.store.apply (.markBlobMetadataDecided slot), m.disk.blobs⟩,
        m.mem.withBlobRoot cfg slot.height row⟩ ↔ m.disk.store.NoneAbove slot.height := by
  have hdecided : (m.disk.store.apply (.markBlobMetadataDecided slot)).blobMetadataDecided[
      slot.height]? = some row := by
    rw [Store.apply_mark_decided, if_pos rfl, hrow]
  rw [latestNamed_cached_iff hdecided, noneAbove_apply_mark, latestHeight_apply_mark]
  constructor
  · exact fun hnamed => hnamed.2.1
  · intro habove
    refine ⟨?_, habove, rfl⟩
    split
    · rfl
    · -- the height is decided already, so it is the one the pointer names
      rename_i hundecided
      unfold Store.promotedRow at hrow
      rw [Option.not_isSome_iff_eq_none.1 hundecided] at hrow
      exact h.latest_of_noneAbove hrow habove

theorem step_promote_iff (hrecords : m.disk.store.blobArchival = ∅) (h : LatestNamed cfg m) :
    LatestNamed cfg (metadataStep cfg m (.promote slot)) ↔
      ((m.disk.store.promotedRow slot).isSome → m.disk.store.NoneAbove slot.height) := by
  cases hrow : m.disk.store.promotedRow slot with
  | none =>
    rw [step_promote_of_none hrow]
    exact iff_of_true h nofun
  | some row =>
    rw [step_promote_of_row hrecords hrow, latestNamed_marked_iff h hrow]
    simp

theorem step_replay_iff (hrecords : m.disk.store.blobArchival = ∅) (h : LatestNamed cfg m) :
    LatestNamed cfg (metadataStep cfg m (.replay slot)) ↔
      ((m.disk.store.promotedRow slot).isSome → m.disk.store.NoneAbove slot.height) := by
  cases hdecided : m.disk.store.blobMetadataDecided[slot.height]? with
  | some row =>
    have hsome : (m.disk.store.promotedRow slot).isSome := by
      unfold Store.promotedRow
      rw [hdecided]
      cases m.disk.store.blobMetadataUndecided[slot]? <;> rfl
    rw [step_replay_of_decided hrecords hdecided, latestNamed_cached_iff hdecided]
    constructor
    · exact fun hnamed _ => hnamed.2.1
    · exact fun habove => ⟨h.latest_of_noneAbove hdecided (habove hsome), habove hsome, rfl⟩
  | none =>
    cases hundecided : m.disk.store.blobMetadataUndecided[slot]? with
    | none =>
      have hrow := promotedRow_eq_none.2 ⟨hundecided, hdecided⟩
      rw [step_replay_of_none hrow, hrow]
      exact iff_of_true h nofun
    | some row =>
      have hrow : m.disk.store.promotedRow slot = some row := by
        unfold Store.promotedRow
        rw [hundecided]
        rfl
      rw [step_replay_of_undecided hdecided hundecided, latestNamed_marked_iff h hrow, hrow]
      simp

theorem step_sync_iff {md : BlobMetadata} :
    LatestNamed cfg (metadataStep cfg m (.sync slot md)) ↔
      (MetadataOp.sync slot md).InOrder cfg m := by
  unfold MetadataOp.InOrder
  -- the table keeps the first row of the slot
  have hkept : (m.disk.store.apply (.insertBlobMetadataUndecided slot md)).blobMetadataUndecided[
      slot]? = some ((m.disk.store.blobMetadataUndecided[slot]?).getD md) :=
    (Table.getElem?_insertIfNew_eq _ _ _ _).trans (if_pos rfl)
  have hdecided : (m.disk.store.withRow slot md).blobMetadataDecided[slot.height]? =
      some ((m.disk.store.blobMetadataUndecided[slot]?).getD md) := by
    unfold Store.withRow
    rw [Store.apply_mark_decided, if_pos rfl]
    unfold Store.promotedRow
    rw [hkept]
    rfl
  have hlatest : (m.disk.store.withRow slot md).latestHeight = some slot.height := by
    unfold Store.withRow
    rw [latestHeight_apply_mark, hkept]
    rfl
  have habove : (m.disk.store.withRow slot md).NoneAbove slot.height ↔
      m.disk.store.NoneAbove slot.height := noneAbove_apply_mark
  rw [step_sync, latestNamed_cached_iff hdecided, habove, and_iff_right hlatest]
  refine and_congr_right fun _ => ?_
  cases m.disk.store.blobMetadataUndecided[slot]? with
  | none => simp
  | some row => simp

/-- Hydration finds the row that the pointer names, whatever was cached. -/
theorem latestNamed_hydrate (hrecords : m.disk.store.blobArchival = ∅) (h : LatestNamed cfg m)
    (mem : Memory) : LatestNamed cfg ((hydrateBlobParentRoot cfg).run ⟨m.disk, mem⟩).state := by
  obtain ⟨height, row, hlatest, hrow, habove, -, -⟩ := h
  have hrun : ((hydrateBlobParentRoot cfg).run ⟨m.disk, mem⟩).state =
      ⟨m.disk, mem.withBlobRoot cfg height row⟩ := run_hydrate hrecords hlatest hrow
  rw [hrun]
  exact (latestNamed_cached_iff hrow).2 ⟨hlatest, habove, rfl⟩

/-- **One operation keeps the pointer and the cache exactly if it comes in order.** -/
theorem step_latestNamed_iff (hrecords : m.disk.store.blobArchival = ∅) (h : LatestNamed cfg m)
    (op : MetadataOp) : LatestNamed cfg (metadataStep cfg m op) ↔ op.InOrder cfg m := by
  cases op with
  | put slot md => exact iff_of_true h trivial
  | promote slot => exact step_promote_iff hrecords h
  | replay slot => exact step_replay_iff hrecords h
  | sync slot md => exact step_sync_iff
  | hydrate => exact iff_of_true (latestNamed_hydrate hrecords h m.mem) trivial
  | restart =>
    exact iff_of_true (latestNamed_hydrate hrecords h (Memory.new cfg.startHeight)) trivial

theorem blobArchival_hydrate (cfg : Config) (m : Machine Disk Memory) :
    ((hydrateBlobParentRoot cfg).run m).state.disk.store.blobArchival = m.disk.store.blobArchival := by
  have hseed : (m.disk.store.apply .insertGenesisBlobMetadata).blobArchival =
      m.disk.store.blobArchival := by
    simp only [Store.apply]
    split <;> rfl
  unfold hydrateBlobParentRoot
  rw [run_getDisk_bind]
  cases hload : m.disk.store.getLatestBlobMetadata with
  | ok latest =>
    rw [run_ofExit_bind rfl]
    cases latest with
    | none => exact hseed
    | some e => rfl
  | error e => rfl
  | panic => rfl

/-- No operation writes an archive record. -/
theorem blobArchival_step (hrecords : m.disk.store.blobArchival = ∅) (op : MetadataOp) :
    (metadataStep cfg m op).disk.store.blobArchival = ∅ := by
  have hmark : ∀ (s : Store) (slot : Slot), s.blobArchival = ∅ →
      (s.apply (.markBlobMetadataDecided slot)).blobArchival = ∅ := fun s slot hs =>
    (Store.apply_mark_fields s slot).2.2.1.trans hs
  cases op with
  | put slot md => exact hrecords
  | promote slot =>
    cases hrow : m.disk.store.promotedRow slot with
    | none => rw [step_promote_of_none hrow, hrecords]
    | some row =>
      rw [step_promote_of_row hrecords hrow]
      exact hmark _ slot hrecords
  | replay slot =>
    cases hdecided : m.disk.store.blobMetadataDecided[slot.height]? with
    | some row =>
      rw [step_replay_of_decided hrecords hdecided]
      exact hrecords
    | none =>
      cases hundecided : m.disk.store.blobMetadataUndecided[slot]? with
      | none =>
        rw [step_replay_of_none (promotedRow_eq_none.2 ⟨hundecided, hdecided⟩), hrecords]
      | some row =>
        rw [step_replay_of_undecided hdecided hundecided]
        exact hmark _ slot hrecords
  | sync slot md =>
    rw [step_sync]
    exact hmark _ slot hrecords
  | hydrate => exact (blobArchival_hydrate cfg m).trans hrecords
  | restart => exact (blobArchival_hydrate cfg ⟨m.disk, Memory.new cfg.startHeight⟩).trans hrecords

end Step

/-! ## A run -/

theorem latestNamed_seeded (cfg : Config) : LatestNamed cfg (metadataRun cfg []) := by
  refine ⟨0, BlobMetadata.genesis, rfl, ?_, ?_, rfl, rfl⟩
  · exact (Table.getElem?_insert_eq _ _ _ _).trans (if_pos rfl)
  · intro h hsome
    have hget : (metadataRun cfg []).disk.store.blobMetadataDecided[h]? =
        if 0 = h then some BlobMetadata.genesis else (∅ : Table Height BlobMetadata)[h]? :=
      Table.getElem?_insert_eq _ _ _ _
    rw [hget] at hsome
    split at hsome
    · rename_i hzero
      exact hzero.ge
    · simp at hsome

theorem metadataRun_concat (cfg : Config) (ops : List MetadataOp) (op : MetadataOp) :
    metadataRun cfg (ops ++ [op]) = metadataStep cfg (metadataRun cfg ops) op := by
  unfold metadataRun
  rw [List.foldl_append]
  rfl

theorem blobArchival_metadataRun (cfg : Config) (ops : List MetadataOp) :
    (metadataRun cfg ops).disk.store.blobArchival = ∅ := by
  induction ops using List.reverseRecOn with
  | nil => rfl
  | append_singleton ops op ih =>
    rw [metadataRun_concat]
    exact blobArchival_step ih op

/-- **The pointer and the cache along a run.** From a seeded store, after every operation the pointer
names the greatest decided height and the cache the row it names, exactly if every operation comes in
order where it is made. -/
theorem latest_metadata_iff (cfg : Config) (ops : List MetadataOp) :
    (∀ pre, pre <+: ops → LatestNamed cfg (metadataRun cfg pre)) ↔
      ∀ pre op, pre ++ [op] <+: ops → op.InOrder cfg (metadataRun cfg pre) := by
  constructor
  · intro hnamed pre op hpre
    have h := hnamed pre ((List.prefix_append pre [op]).trans hpre)
    have h' := hnamed (pre ++ [op]) hpre
    rw [metadataRun_concat] at h'
    exact (step_latestNamed_iff (blobArchival_metadataRun cfg pre) h op).1 h'
  · intro horder pre hpre
    induction pre using List.reverseRecOn with
    | nil => exact latestNamed_seeded cfg
    | append_singleton pre op ih =>
      have h := ih ((List.prefix_append pre [op]).trans hpre)
      rw [metadataRun_concat]
      exact (step_latestNamed_iff (blobArchival_metadataRun cfg pre) h op).2 (horder pre op hpre)

namespace Sample

/-- A row without blobs at a height. -/
def rowAt (height : Height) : BlobMetadata :=
  .blobless height 0 BlobMetadata.genesisHeader none

/-- Height 5 is promoted, then height 3. -/
def outOfOrder : List MetadataOp :=
  [.put ⟨5, .some 0⟩ (rowAt 5), .promote ⟨5, .some 0⟩, .put ⟨3, .some 0⟩ (rowAt 3),
    .promote ⟨3, .some 0⟩]

/-- A row of height 1 with another parent. -/
def otherRow : BlobMetadata := .blobless 1 1 BlobMetadata.genesisHeader none

/-- That row is there when height 1 is synced. -/
def precededSync : List MetadataOp :=
  [.put ⟨1, .some 0⟩ otherRow, .sync ⟨1, .some 0⟩ (rowAt 1)]

end Sample

/-- The pointer goes back to height 3 while height 5 is decided; and a synced value caches a root that is
not that of the row the table kept. -/
theorem latest_metadata_wrong :
    ((metadataRun (Sample.config 1) Sample.outOfOrder).disk.store.latestHeight = some 3 ∧
      ((metadataRun (Sample.config 1) Sample.outOfOrder).disk.store.blobMetadataDecided[
        (5 : Height)]?).isSome) ∧
    (metadataRun (Sample.config 1) Sample.precededSync).disk.store.latestHeight = some 1 ∧
      (metadataRun (Sample.config 1) Sample.precededSync).disk.store.blobMetadataDecided[
        (1 : Height)]? = some Sample.otherRow ∧
      (metadataRun (Sample.config 1) Sample.precededSync).mem.lastBlobSidecarRoot ≠
        Sample.otherRow.computeBlobRoot (Sample.config 1).oracles := by
  decide +kernel

end Ultramarine
