import Ultramarine.App.Decision
import Ultramarine.Safety.NoticeOrder

/-!
# A notice that comes before its height is committed

The archiver of the proposer may be faster than a validator: a notice for a height reaches the node
just before it commits the height. `handle_archive_notice` looks for the decided metadata of the
height and refuses the notice if there is none; nothing is kept, and the notice does not come again.
There is a decided row before the commit only if a synced package has installed one. Then the record
is stored, but the commit installs the row of its own round over the other one, and the height is
pruned by it only if the early notice has completed the row that was there, or the height is queued.

Results:

* `decided_at`: what a decision leaves at its height;
* `early_notice_iff`: when a notice leaves the same just before a commit as just after it;
* `early_notice_lost`: a follower that has received the block and then hears of its archiving.
-/

namespace Ultramarine

open Lib Ssz Prog

/-! ## The archive of a height -/

/-- What a node has of the archive of a height: the records of its blobs, the mark of its row, and
the blobs it still holds. -/
@[ext]
structure ArchiveState where
  records : Nat → Option ArchiveRecord
  pruned : Option Bool
  blobs : Nat → Option BlobSidecar

def Disk.archiveState (h : Height) (d : Disk) : ArchiveState where
  records i := d.store.blobArchival[BlobIndexKey.mk h i]?
  pruned := (d.store.blobMetadataDecided[h]?).map (·.pruned)
  blobs i := d.blobs.decided[BlobIndexKey.mk h i]?

namespace ArchiveState

/-- A notice is recorded. -/
def record (n : ArchiveNotice) (a : ArchiveState) : ArchiveState :=
  { a with records := fun i => if n.body.blobIndex = i then some n.record else a.records i }

/-- The height is pruned. -/
def prune (count : Nat) (a : ArchiveState) : ArchiveState :=
  { a with pruned := some true, blobs := fun i => if i < count then none else a.blobs i }

theorem prune_ne {count : Nat} {a : ArchiveState} (h : a.pruned = some false) :
    a ≠ a.prune count := by
  intro heq
  have hread := congrArg ArchiveState.pruned heq
  rw [h] at hread
  cases hread

end ArchiveState

section States

variable {h : Height} {d d' : Disk}

theorem Disk.SameAt.archiveState (hsame : Disk.SameAt h d d') :
    d'.archiveState h = d.archiveState h := by
  unfold Disk.archiveState
  rw [hsame.metadata]
  simp only [hsame.records, hsame.blobs]

theorem Disk.PrunedAt.archiveState {md : BlobMetadata} (hpruned : Disk.PrunedAt h md d d') :
    d'.archiveState h = (d.archiveState h).prune md.blobCount := by
  unfold Disk.archiveState ArchiveState.prune
  rw [hpruned.metadata]
  simp only [hpruned.records, hpruned.blobs]
  rfl

end States

/-! ## One decision -/

section Decide

variable {cfg : Config} {c : CommitCertificate} {script : EngineScript} {m m' : Machine Disk Memory}

/-- A height is pruned by its commit: it is queued, and its row has every record and no mark. -/
def PrunedByCommit (m : Machine Disk Memory) (h : Height) (md : BlobMetadata) : Prop :=
  h ∈ m.mem.pendingPruneHeights ∧ md.allArchived = true ∧ 0 < md.blobCount ∧ md.pruned = false

/-- **What a first decision leaves at its height.** `p` is the proposal it commits and `md` the row
it reads back. -/
theorem decided_at {next : Height} (hnew : m.disk.store.decidedValues[c.height]? = none)
    (hr : Returns (decided cfg c script) m (.start next) m') :
    ∃ record check p md,
      m.disk.store.loadBlockPayloadRecord ⟨c.height, c.round⟩ = some record ∧
      checkDecided cfg m.disk ⟨c.height, c.round⟩ record.executionPayloadSsz = .ok check ∧
      m.disk.store.promoted ⟨c.height, c.round⟩ = some md ∧
      m'.mem.isHeightFinalized c.height = true ∧
      ((PrunedByCommit m c.height md ∧ Disk.PrunedAt c.height md
          ⟨m.disk.store.committed cfg c p,
            m.disk.blobs.forImport ⟨c.height, c.round⟩ check.alreadyDecided⟩ m'.disk) ∨
        (¬ PrunedByCommit m c.height md ∧ Disk.SameAt c.height
          ⟨m.disk.store.committed cfg c p,
            m.disk.blobs.forImport ⟨c.height, c.round⟩ check.alreadyDecided⟩ m'.disk)) := by
  obtain ⟨record, out, m₀, hload, hm₀, hprocess⟩ := decided_inversion hr
  obtain ⟨check, m₁, m₂, hcheck, _, hdisk₁, hmem₁, hcommit, hdisk, hcurrent, _⟩ :=
    processDecided_inversion hprocess
  subst hm₀
  obtain ⟨m₃, hfinish, hcases⟩ := returns_commit.1 hcommit
  rw [hdisk₁] at hcases
  rcases hcases with ⟨p, hp, hproposal⟩ | ⟨_, hdecided, _⟩
  · obtain ⟨_, _, md, hmd, hsame, hmem₃⟩ := returns_commitProposal hproposal
    rw [hdisk₁] at hmd hsame
    have hqueue : m₃.mem.pendingPruneHeights = m.mem.pendingPruneHeights := by
      obtain ⟨_, _, _, _, hchain⟩ := hmem₁
      rw [hmem₃, hchain]
      rfl
    have hget : m₃.disk.store.getBlobMetadata c.height = .ok (some md) :=
      (hsame c.height).getBlobMetadata.trans (Store.committed_getBlobMetadata.2 hmd)
    -- the commit ends with the next height, and what follows it does not go back
    have hnext : c.height < m'.mem.currentHeight := by
      obtain ⟨_, _, rfl⟩ := returns_finishCommit.1 hfinish
      rw [hcurrent]
      exact lt_of_lt_of_le (Nat.lt_succ_self _) (le_max_right _ _)
    have hfinal : m'.mem.isHeightFinalized c.height = true :=
      decide_eq_true (le_trans (Nat.le_sub_one_of_lt hnext) (le_max_left _ _))
    refine ⟨record, check, p, md, hload, hcheck, hmd, hfinal, ?_⟩
    rw [hdisk]
    rcases finishCommit_cases (le_refl c.height) hfinish with
      ⟨md', hq, hready, hpruned⟩ | ⟨hno, hend⟩
    · cases hget.symm.trans hready.1
      rw [hqueue] at hq
      exact .inl ⟨⟨hq, hready.2⟩, (hsame c.height).trans_prunedAt hpruned⟩
    · refine .inr ⟨fun hready => ?_, (hsame c.height).trans hend⟩
      rw [hqueue] at hno
      exact hno hready.1 md ⟨hget, hready.2⟩
  · rw [hnew] at hdecided
    cases hdecided

end Decide

/-- The archive of a height once its commit has installed a row: the records that were there, and
the blobs the decision has promoted. -/
def committedState (m : Machine Disk Memory) (slot : Slot) (check : DecidedCheck)
    (md : BlobMetadata) : ArchiveState where
  records i := m.disk.store.blobArchival[BlobIndexKey.mk slot.height i]?
  pruned := some md.pruned
  blobs i :=
    (m.disk.blobs.forImport slot check.alreadyDecided).decided[BlobIndexKey.mk slot.height i]?

theorem archiveState_committed {cfg : Config} {c : CommitCertificate} {m : Machine Disk Memory}
    {p : ProposedValue} {check : DecidedCheck} {md : BlobMetadata}
    (hmd : m.disk.store.promoted ⟨c.height, c.round⟩ = some md) :
    (⟨m.disk.store.committed cfg c p, m.disk.blobs.forImport ⟨c.height, c.round⟩
        check.alreadyDecided⟩ : Disk).archiveState c.height =
      committedState m ⟨c.height, c.round⟩ check md := by
  obtain ⟨row, hrow, hhydrate⟩ := Option.bind_eq_some_iff.1 hmd
  unfold Disk.archiveState committedState
  rw [Store.committed_metadata, if_pos rfl, hrow,
    (Store.committed_fields m.disk.store cfg c p).2.2.1, Store.pruned_hydrate hhydrate]
  rfl

/-! ## The early notice -/

section Early

variable {cfg : Config} {m : Machine Disk Memory} {n : ArchiveNotice} {row md md' : BlobMetadata}
  {slot : Slot}

/-- Before its height is final, a notice that is recorded deletes nothing. -/
theorem deliverNotice_of_open (hn : n.Checked cfg m.disk.store row)
    (hopen : m.mem.isHeightFinalized n.body.height = false) :
    deliverNotice cfg m n = ⟨(recorded row m n).disk,
      if (row.archive n).allArchived = true then m.mem.queuePrune n.body.height else m.mem⟩ := by
  rw [deliverNotice_of_checked hn]
  split
  · have hnot : ¬ (recorded row m n).mem.isHeightFinalized n.body.height = true := by
      rw [show (recorded row m n).mem = m.mem from rfl, hopen]
      exact Bool.false_ne_true
    exact if_neg hnot
  · rfl

/-- The row a commit installs after an early notice: that of its round, else the one the notice has
been recorded in. -/
theorem promotedRow_recorded (hheight : n.body.height = slot.height) :
    (recorded row m n).disk.store.promotedRow slot =
      (m.disk.store.blobMetadataUndecided[slot]? <|> some (row.archive n)) := by
  have hrow : (recorded row m n).disk.store.blobMetadataDecided[slot.height]? =
      some (row.archive n) := (Table.getElem?_insert_eq _ _ _ _).trans (if_pos hheight)
  unfold Store.promotedRow
  rw [hrow]
  rfl

/-- The row a commit reads back after an early notice is the one it reads without it, with the
record of the notice. -/
theorem promoted_recorded (hs : m.disk.store.ArchiveSound) (hn : n.Checked cfg m.disk.store row)
    (hheight : n.body.height = slot.height) (hlt : n.body.blobIndex < md.blobCount)
    (hmd : m.disk.store.promoted slot = some md)
    (hmd' : (recorded row m n).disk.store.promoted slot = some md') :
    md'.blobCount = md.blobCount ∧ md'.allArchived = (md.archive n).allArchived ∧
      md'.pruned = md.pruned := by
  have hs' := archiveSound_recorded hs hn
  obtain ⟨stored, hstored, hhydrate⟩ := Option.bind_eq_some_iff.1 hmd
  obtain ⟨stored', hstored', hhydrate'⟩ := Option.bind_eq_some_iff.1 hmd'
  obtain ⟨decided, hdecided, hload⟩ := Store.getBlobMetadata_eq_some_iff.1 hn.metadata_eq
  rw [hheight] at hdecided hload
  rw [promotedRow_recorded hheight] at hstored'
  have hrecords : ∀ i, (recorded row m n).disk.store.blobArchival[BlobIndexKey.mk slot.height i]? =
      if n.body.blobIndex = i then some n.record
      else m.disk.store.blobArchival[BlobIndexKey.mk slot.height i]? := by
    intro i
    refine (Store.afterNotice_records _ _).trans ?_
    simp only [hheight, BlobIndexKey.mk.injEq, true_and]
  -- the row of the round is the same in both; the decided row has the record already
  have hrows : stored'.core = stored.core ∧ stored'.pruned = stored.pruned ∧
      ∀ i, n.body.blobIndex ≠ i → (m.disk.store.blobArchival[BlobIndexKey.mk slot.height i]? <|>
        stored'.archivalStatus i) = (m.disk.store.blobArchival[BlobIndexKey.mk slot.height i]? <|>
          stored.archivalStatus i) := by
    unfold Store.promotedRow at hstored
    cases hround : m.disk.store.blobMetadataUndecided[slot]? with
    | some u =>
      rw [hround] at hstored hstored'
      cases hstored
      cases hstored'
      exact ⟨rfl, rfl, fun _ _ => rfl⟩
    | none =>
      rw [hround, hdecided] at hstored
      rw [hround] at hstored'
      cases hstored
      cases hstored'
      refine ⟨?_, ?_, fun i hi => ?_⟩
      · rw [BlobMetadata.core_archive hn.index_lt, Store.core_hydrate hload]
      · rw [pruned_archive, Store.pruned_hydrate hload]
      · rw [BlobMetadata.archivalStatus_archive hn.index_lt, if_neg hi, hs.status_of_hydrate hload]
        cases m.disk.store.blobArchival[BlobIndexKey.mk slot.height i]? <;> rfl
  obtain ⟨hcore, hpruned, hown⟩ := hrows
  have hcount : md'.blobCount = md.blobCount := blobCount_of_core (by
    rw [Store.core_hydrate hhydrate', hcore, Store.core_hydrate hhydrate])
  have hstatus : ∀ i, md'.archivalStatus i = (md.archive n).archivalStatus i := by
    intro i
    rw [BlobMetadata.archivalStatus_archive hlt, hs'.status_of_hydrate hhydrate',
      hs.status_of_hydrate hhydrate, hrecords]
    by_cases hi : n.body.blobIndex = i
    · rw [if_pos hi, if_pos hi]
      rfl
    · rw [if_neg hi, if_neg hi, hown i hi]
  refine ⟨hcount, ?_, ?_⟩
  · rw [Bool.eq_iff_iff, allArchived_iff, allArchived_iff, hcount,
      blobCount_of_core (BlobMetadata.core_archive hlt)]
    simp only [hstatus]
  · rw [Store.pruned_hydrate hhydrate', hpruned, Store.pruned_hydrate hhydrate]

end Early

/-! ## The two orders -/

section Race

variable {cfg : Config} {c : CommitCertificate} {script script' : EngineScript}
  {m m₁ m₂ : Machine Disk Memory} {n : ArchiveNotice} {row md : BlobMetadata} {next next' : Height}
  {check : DecidedCheck} {record : BlockPayloadRecord}

/-- What the notice leaves when it comes after the commit. `md` is the row of the commit. -/
structure Late (cfg : Config) (c : CommitCertificate) (m m₁ : Machine Disk Memory)
    (n : ArchiveNotice) (record : BlockPayloadRecord) (check : DecidedCheck) (md : BlobMetadata) :
    Prop where
  payload : m.disk.store.loadBlockPayloadRecord ⟨c.height, c.round⟩ = some record
  checked : checkDecided cfg m.disk ⟨c.height, c.round⟩ record.executionPayloadSsz = .ok check
  promoted : m.disk.store.promoted ⟨c.height, c.round⟩ = some md
  unpruned : md.pruned = false
  index_lt : n.body.blobIndex < md.blobCount
  unrecorded : m.disk.store.blobArchival[BlobIndexKey.mk c.height n.body.blobIndex]? = none
  before : m₁.disk.archiveState c.height = committedState m ⟨c.height, c.round⟩ check md
  after : (deliverNotice cfg m₁ n).disk.archiveState c.height =
    if (md.archive n).allArchived = true then
      ((committedState m ⟨c.height, c.round⟩ check md).record n).prune md.blobCount
    else (committedState m ⟨c.height, c.round⟩ check md).record n

/-- A notice that is recorded, as a change of the archive. -/
theorem archiveState_recorded (hn : n.Checked cfg m.disk.store row) :
    (recorded row m n).disk.archiveState n.body.height =
      (m.disk.archiveState n.body.height).record n := by
  have hmark := (prunesNothing_recorded hn).mark
  refine ArchiveState.ext (funext fun i => ?_) hmark rfl
  refine (Store.afterNotice_records _ _).trans ?_
  simp only [BlobIndexKey.mk.injEq, true_and]
  rfl

/-- A late notice: the commit has not pruned the height, and the notice is recorded in its row. -/
theorem late_of_checked (hreach : Node.Reachable cfg (fun _ _ => True) (.up m))
    (hnew : m.disk.store.decidedValues[c.height]? = none) (hheight : n.body.height = c.height)
    (hlate : Returns (decided cfg c script) m (.start next) m₁)
    (hvalid : n.Checked cfg m₁.disk.store row) :
    ∃ record check, Late cfg c m m₁ n record check row := by
  have hs₁ : m₁.disk.store.ArchiveSound := archiveSound_of_reachable
    (.step (.handle (.decided c script)) hreach trivial (Node.next_handle (returns_logged hlate)))
  obtain ⟨record, check, p, md, hload, hcheck, hmd, hfinal, hcases⟩ := decided_at hnew hlate
  have hload₁ := hvalid.metadata_eq
  rw [hheight] at hload₁
  rcases hcases with ⟨hready, hpruned⟩ | ⟨_, hsame⟩
  · -- a row that is marked takes no notice
    obtain ⟨stored, hstored, hmark⟩ := pruned_stored hload₁
    cases hpruned.metadata.symm.trans hstored
    rw [hvalid.not_pruned hs₁] at hmark
    cases hmark
  · have hget : m₁.disk.store.getBlobMetadata c.height = .ok (some md) :=
      hsame.getBlobMetadata.trans (Store.committed_getBlobMetadata.2 hmd)
    cases hget.symm.trans hload₁
    have hbefore := hsame.archiveState.trans (archiveState_committed hmd)
    have hunpruned := hvalid.not_pruned hs₁
    refine ⟨record, check, hload, hcheck, hmd, hunpruned, hvalid.index_lt, ?_, hbefore, ?_⟩
    · have hrecord := congrFun (congrArg ArchiveState.records hbefore) n.body.blobIndex
      exact hrecord.symm.trans (hvalid.unrecorded hs₁ hheight)
    · rw [← hbefore, ← hheight]
      split
      · rename_i hall
        rw [hheight.symm] at hfinal
        rw [deliverNotice_of_final hs₁ hvalid hfinal hall,
          (Disk.prunedAt_prune _ _ _).archiveState, archiveState_recorded hvalid,
          blobCount_of_core (BlobMetadata.core_archive hvalid.index_lt)]
      · rename_i hall
        rw [deliverNotice_of_checked hvalid, if_neg hall]
        exact archiveState_recorded hvalid

/-- The checks of a decision do not read the archive. -/
theorem checkDecided_recorded (slot : Slot) (bytes : Bytes) :
    checkDecided cfg (recorded row m n).disk slot bytes = checkDecided cfg m.disk slot bytes := by
  have hproposals : (recorded row m n).disk.store.undecidedProposals =
      m.disk.store.undecidedProposals := rfl
  have hblobs : (recorded row m n).disk.blobs = m.disk.blobs := rfl
  unfold checkDecided expectedHashes
  rw [hproposals, hblobs]

/-- An early notice is one change of the archive that the commit finds. -/
theorem committedState_recorded {slot : Slot} {md' : BlobMetadata}
    (hheight : n.body.height = slot.height) (hpruned : md'.pruned = md.pruned) (mem : Memory) :
    committedState ⟨(recorded row m n).disk, mem⟩ slot check md' =
      (committedState m slot check md).record n := by
  refine ArchiveState.ext (funext fun i => ?_) (congrArg some hpruned) rfl
  refine (Store.afterNotice_records _ _).trans ?_
  simp only [hheight, BlobIndexKey.mk.injEq, true_and]
  rfl

/-- What the commit finds queued after an early notice. -/
theorem mem_queue_early {h : Height} :
    h ∈ (if (row.archive n).allArchived = true then m.mem.queuePrune h
      else m.mem).pendingPruneHeights ↔
      (row.archive n).allArchived = true ∨ h ∈ m.mem.pendingPruneHeights := by
  split
  · rename_i hall
    exact iff_of_true Std.ExtTreeMap.mem_insert_self (.inl hall)
  · rename_i hall
    exact ⟨.inr, fun h => h.resolve_left hall⟩

/-- What the commit leaves after an early notice that is recorded: the height is pruned if the
notice completes the row of the commit and the height is queued. -/
theorem early_of_checked {row₀ : BlobMetadata} (hs : m.disk.store.ArchiveSound)
    (hl : Late cfg c m m₁ n record check md)
    (hnew : m.disk.store.decidedValues[c.height]? = none)
    (hopen : m.mem.isHeightFinalized c.height = false) (hheight : n.body.height = c.height)
    (hn : n.Checked cfg m.disk.store row₀)
    (hearly : Returns (decided cfg c script) (deliverNotice cfg m n) (.start next) m₂) :
    m₂.disk.archiveState c.height =
      if (md.archive n).allArchived = true ∧
          ((row₀.archive n).allArchived = true ∨ c.height ∈ m.mem.pendingPruneHeights) then
        ((committedState m ⟨c.height, c.round⟩ check md).record n).prune md.blobCount
      else (committedState m ⟨c.height, c.round⟩ check md).record n := by
  rw [deliverNotice_of_open hn (by rw [hheight]; exact hopen), hheight] at hearly
  have hqueue := @mem_queue_early m n row₀ c.height
  generalize (if (row₀.archive n).allArchived = true then m.mem.queuePrune c.height
    else m.mem) = mem at hearly hqueue
  have hnew' : (recorded row₀ m n).disk.store.decidedValues[c.height]? = none := hnew
  obtain ⟨record', check', p, md', hload, hcheck, hmd', _, hcases⟩ :=
    decided_at (m := ⟨(recorded row₀ m n).disk, mem⟩) hnew' hearly
  -- the payload and the checks are those of the other order
  have hload : m.disk.store.loadBlockPayloadRecord ⟨c.height, c.round⟩ = some record' := hload
  cases hl.payload.symm.trans hload
  rw [checkDecided_recorded, hl.checked] at hcheck
  cases hcheck
  obtain ⟨hcount, hall, hpruned⟩ := promoted_recorded hs hn hheight hl.index_lt hl.promoted hmd'
  have hready : PrunedByCommit ⟨(recorded row₀ m n).disk, mem⟩ c.height md' ↔
      (md.archive n).allArchived = true ∧
        ((row₀.archive n).allArchived = true ∨ c.height ∈ m.mem.pendingPruneHeights) := by
    unfold PrunedByCommit
    rw [hqueue, hall, hcount, hpruned, hl.unpruned]
    have hpos : 0 < md.blobCount := Nat.zero_lt_of_lt hl.index_lt
    exact ⟨fun h => ⟨h.2.1, h.1⟩, fun h => ⟨h.2, h.1, hpos, rfl⟩⟩
  rcases hcases with ⟨hyes, hend⟩ | ⟨hno, hend⟩
  · rw [if_pos (hready.1 hyes), hend.archiveState, archiveState_committed hmd',
      committedState_recorded hheight hpruned, hcount]
  · rw [if_neg (mt hready.2 hno), hend.archiveState, archiveState_committed hmd',
      committedState_recorded hheight hpruned]

/-- What the commit leaves after a notice that is refused. -/
theorem early_of_not_checked (hl : Late cfg c m m₁ n record check md)
    (hnew : m.disk.store.decidedValues[c.height]? = none) (hall : md.allArchived = false)
    (hearly : Returns (decided cfg c script) m (.start next) m₂) :
    m₂.disk.archiveState c.height = committedState m ⟨c.height, c.round⟩ check md := by
  obtain ⟨record', check', p, md', hload, hcheck, hmd', _, hcases⟩ := decided_at hnew hearly
  cases hl.payload.symm.trans hload
  cases hl.checked.symm.trans hcheck
  cases hl.promoted.symm.trans hmd'
  rcases hcases with ⟨hready, _⟩ | ⟨_, hend⟩
  · have hcomplete := hready.2.1
    rw [hall] at hcomplete
    cases hcomplete
  · rw [hend.archiveState, archiveState_committed hmd']

/-- **When an early notice leaves what a late one does.** The node has not committed the height and
commits it in both orders; the notice is recorded if it comes just after the commit. Then it leaves
the same records, mark and blobs just before the commit exactly if the height has a decided row then
against which the notice passes, and, if the notice completes the row of the commit, it completes
that row as well or the height is queued. -/
theorem early_notice_iff (hreach : Node.Reachable cfg (fun _ _ => True) (.up m))
    (hnew : m.disk.store.decidedValues[c.height]? = none)
    (hopen : m.mem.isHeightFinalized c.height = false) (hheight : n.body.height = c.height)
    (hlate : Returns (decided cfg c script) m (.start next) m₁)
    (hvalid : n.Checked cfg m₁.disk.store row)
    (hearly : Returns (decided cfg c script') (deliverNotice cfg m n) (.start next') m₂) :
    m₂.disk.archiveState c.height = (deliverNotice cfg m₁ n).disk.archiveState c.height ↔
      ∃ row, n.Checked cfg m.disk.store row ∧
        ∀ md, m.disk.store.promoted ⟨c.height, c.round⟩ = some md →
          (md.archive n).allArchived = true →
          (row.archive n).allArchived = true ∨ c.height ∈ m.mem.pendingPruneHeights := by
  obtain ⟨record, check, hl⟩ := late_of_checked hreach hnew hheight hlate hvalid
  by_cases hn : ∃ row₀, n.Checked cfg m.disk.store row₀
  · obtain ⟨row₀, hn⟩ := hn
    have hcondition : (∃ row', n.Checked cfg m.disk.store row' ∧
        ∀ md, m.disk.store.promoted ⟨c.height, c.round⟩ = some md →
          (md.archive n).allArchived = true →
          (row'.archive n).allArchived = true ∨ c.height ∈ m.mem.pendingPruneHeights) ↔
        ((row.archive n).allArchived = true →
          (row₀.archive n).allArchived = true ∨ c.height ∈ m.mem.pendingPruneHeights) := by
      constructor
      · rintro ⟨row', hn', hqueue⟩
        cases hn'.metadata_eq.symm.trans hn.metadata_eq
        exact hqueue row hl.promoted
      · refine fun hqueue => ⟨row₀, hn, fun md hmd => ?_⟩
        cases hl.promoted.symm.trans hmd
        exact hqueue
    rw [hcondition, hl.after, early_of_checked (archiveSound_of_reachable hreach) hl hnew hopen
      hheight hn hearly]
    have hunmarked : ((committedState m ⟨c.height, c.round⟩ check row).record n).pruned =
        some false := congrArg some hl.unpruned
    by_cases hall : (row.archive n).allArchived = true
    · rw [if_pos hall]
      split
      · rename_i hready
        exact iff_of_true rfl fun _ => hready.2
      · rename_i hready
        exact iff_of_false (ArchiveState.prune_ne hunmarked) fun h => hready ⟨hall, h hall⟩
    · rw [if_neg hall, if_neg fun h => hall h.1]
      exact iff_of_true rfl fun h => absurd h hall
  · -- the notice is refused, and its record is missing in the end
    rw [deliverNotice_of_not_checked (not_exists.1 hn)] at hearly
    refine iff_of_false (fun heq => ?_) fun ⟨row₀, hn₀, _⟩ => hn ⟨row₀, hn₀⟩
    rw [early_of_not_checked hl hnew hvalid.not_allArchived hearly] at heq
    have hread := congrFun (congrArg ArchiveState.records heq) n.body.blobIndex
    have hrecord : ((deliverNotice cfg m₁ n).disk.archiveState c.height).records n.body.blobIndex =
        some n.record := by
      rw [hl.after]
      split <;> exact if_pos rfl
    rw [hrecord] at hread
    cases hl.unrecorded.symm.trans hread

end Race

namespace Sample

/-- The node of validator 1 has been sent height 1, and does not know yet that it is decided. -/
def syncedOne : Machine Disk Memory := (node 1 syncBlob).machine

/-- The node of validator 2 has received the block of validator 1 with its blob. -/
def follower : Machine Disk Memory := (node 2 (.start :: receive blobStream)).machine

/-- Validator 1 has archived the blob. -/
def noticeOfOne : ArchiveNotice := .sign oracles ⟨1, .some 0, 0, ⟨1⟩, 7, "s3", "blob", ⟨1⟩, 0⟩ ⟨1⟩

/-- Height 1 is decided. -/
def decideBlob (i : Nat) (m : Machine Disk Memory) : Outcome Disk Memory Write Err Next :=
  (decided (config i) blobCertificate script).run m

/-- The notice is recorded, and completes its row. -/
def completesRow (i : Nat) (m : Machine Disk Memory) (n : ArchiveNotice) : Bool :=
  match checkArchiveNotice (config i) m.disk.store n, m.disk.store.getBlobMetadata 1 with
  | .ok (some _), .ok (some row) => (row.archive n).allArchived
  | _, _ => false

theorem checked_of_completesRow {i : Nat} {m : Machine Disk Memory} {n : ArchiveNotice}
    (h : completesRow i m n = true) (hheight : n.body.height = 1) :
    ∃ row, n.Checked (config i) m.disk.store row ∧ (row.archive n).allArchived = true := by
  unfold completesRow at h
  split at h
  · rename_i checked row hcheck hload
    obtain ⟨row', hn, _⟩ := checkArchiveNotice_eq_some.1 hcheck
    have hload' := hn.metadata_eq
    rw [hheight, hload] at hload'
    cases hload'
    exact ⟨row, hn, h⟩
  · cases h

end Sample

open Sample in
/-- A synced height that is archived just before it is decided ends as if it were archived just
after. -/
theorem early_notice_iff_synced :
    (decideBlob 1 syncedOne).exit = .ok (.start 2) ∧
      (decideBlob 1 (deliverNotice (config 1) syncedOne blobNotice)).exit = .ok (.start 2) ∧
      (decideBlob 1 (deliverNotice (config 1) syncedOne blobNotice)).state.disk.archiveState 1 =
        (deliverNotice (config 1) (decideBlob 1 syncedOne).state blobNotice).disk.archiveState 1 := by
  have hrun : Node.Reachable (config 1) (fun _ _ => True) (node 1 syncBlob) ∧
      (node 1 syncBlob).isUp = true ∧ syncedOne.disk.store.decidedValues[1]? = none ∧
      syncedOne.mem.isHeightFinalized 1 = false ∧
      (decideBlob 1 syncedOne).exit = .ok (.start 2) ∧
      (decideBlob 1 (deliverNotice (config 1) syncedOne blobNotice)).exit = .ok (.start 2) ∧
      completesRow 1 syncedOne blobNotice = true ∧
      completesRow 1 (decideBlob 1 syncedOne).state blobNotice = true := reached (by decide +kernel)
  obtain ⟨hreach, hup, hnew, hopen, hlate, hearly, hbefore, hafter⟩ := hrun
  have hreach' : Node.Reachable (config 1) (fun _ _ => True) (.up syncedOne) := by
    rw [Node.eq_up hup] at hreach
    exact hreach
  have hnew' : syncedOne.disk.store.decidedValues[blobCertificate.height]? = none := hnew
  have hopen' : syncedOne.mem.isHeightFinalized blobCertificate.height = false := hopen
  obtain ⟨row₀, hn₀, hall⟩ := checked_of_completesRow hbefore rfl
  obtain ⟨row, hvalid, _⟩ := checked_of_completesRow hafter rfl
  have hlate' : Returns (decided (config 1) blobCertificate script) syncedOne (.start 2)
      (decideBlob 1 syncedOne).state := ⟨hlate, rfl⟩
  have hearly' : Returns (decided (config 1) blobCertificate script)
      (deliverNotice (config 1) syncedOne blobNotice) (.start 2)
      (decideBlob 1 (deliverNotice (config 1) syncedOne blobNotice)).state := ⟨hearly, rfl⟩
  have hheight : blobNotice.body.height = blobCertificate.height := rfl
  refine ⟨hlate, hearly, ?_⟩
  exact (early_notice_iff hreach' hnew' hopen' hheight hlate' hvalid hearly').2
    ⟨row₀, hn₀, fun _ _ _ => .inl hall⟩

open Sample in
/-- A follower hears that the blob of a block is archived and then commits the block: it has no
record of it and keeps the blob. Had it heard it after the commit, it would have recorded the notice
and pruned the blob. -/
theorem early_notice_lost :
    Node.Reachable (config 2) (fun _ _ => True) (node 2 (.start :: receive blobStream)) ∧
      follower.disk.store.decidedValues[1]? = none ∧ follower.mem.isHeightFinalized 1 = false ∧
      (decideBlob 2 follower).exit = .ok (.start 2) ∧
      completesRow 2 (decideBlob 2 follower).state noticeOfOne = true ∧
      (decideBlob 2 (deliverNotice (config 2) follower noticeOfOne)).exit = .ok (.start 2) ∧
      (let late := (deliverNotice (config 2) (decideBlob 2 follower).state noticeOfOne).disk
      let early := (decideBlob 2 (deliverNotice (config 2) follower noticeOfOne)).state.disk
      late.store.blobArchival[BlobIndexKey.mk 1 0]? = some noticeOfOne.record ∧
        (late.archiveState 1).pruned = some true ∧ late.blobs.getDecidedBlobs 1 = [] ∧
        early.store.blobArchival[BlobIndexKey.mk 1 0]? = none ∧
        (early.archiveState 1).pruned = some false ∧ early.blobs.getDecidedBlobs 1 ≠ []) := by
  refine reached ?_
  decide +kernel

end Ultramarine
