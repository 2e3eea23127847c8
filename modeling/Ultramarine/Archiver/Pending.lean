import Ultramarine.Archiver.Recovery
import Ultramarine.Safety.Retention

/-!
# The uploads a restarted node waits for

A start looks twice for the heights whose blobs this node still has to upload.
`recover_pending_archive_jobs` makes the jobs of the worker, `rehydrate_pending_prunes` the set
`pending_archive_heights`, which holds back the prune floor of `commit`. The second scan asks for the
proposer of the height, by the hint of its row or else by the consensus metadata. The first one goes by
the hint alone, and needs the round of the height and a blob that is left to upload as well.

Results:

* `pending_of_rehydrate`: what `pending_archive_heights` holds after a start;
* `mem_recoverPendingArchiveJobs`: the heights that have a job;
* `pendingUploads_iff`: when the two agree.
-/

namespace Ultramarine

open Lib Prog

variable {cfg : Config} {d : Disk} {height : Height} {m m' : Machine Disk Memory}

/-! ## What each scan looks for -/

/-- The row says that blobs of the height are still to be archived. -/
def BlobMetadata.unarchived (row : BlobMetadata) : Prop :=
  row.blobCount ≠ 0 ∧ row.pruned = false ∧ row.allArchived = false

/-- This node has to archive the height, as `rehydrate_pending_prunes` sees it. -/
def Store.AwaitsUpload (cfg : Config) (s : Store) (height : Height) : Prop :=
  ∃ row, s.getBlobMetadata height = .ok (some row) ∧ row.unarchived ∧
    proposerAddressForHeight cfg s height row.proposerIndexHint = some cfg.address

/-- There is something to make a job of: the hint of the row names this node, the round of the height
is known, and a decided blob has no record. -/
def Disk.HasUpload (cfg : Config) (d : Disk) (height : Height) : Prop :=
  (∃ row, d.store.getBlobMetadata height = .ok (some row) ∧
    (row.proposerIndexHint.bind fun i => cfg.validators.validators[i]?).map (·.address) =
      some cfg.address) ∧
  ((d.store.consensusBlockMetadata[height]?).isSome ∨ (d.store.decidedValues[height]?).isSome) ∧
  ∃ s ∈ d.blobs.getDecidedBlobs height, s.index ∉ d.store.archivedBlobIndexes height

/-! ## The jobs -/

/-- A height has a job exactly if it has blobs left to upload. -/
theorem buildArchiveJob_eq_some {round : Round} {row : BlobMetadata}
    (hrow : d.store.getBlobMetadata height = .ok (some row)) (hcount : row.blobCount ≠ 0) :
    (∃ job, buildArchiveJob cfg d height round = .ok (some job)) ↔
      ∃ s ∈ d.blobs.getDecidedBlobs height, s.index ∉ d.store.archivedBlobIndexes height := by
  unfold buildArchiveJob
  rw [hrow, Exit.ok_bind]
  simp only [if_neg hcount]
  by_cases hnil : (d.blobs.getDecidedBlobs height).filter
      (fun s => s.index ∉ d.store.archivedBlobIndexes height) = []
  · rw [if_pos hnil]
    simpa using hnil
  · rw [if_neg hnil]
    simpa using hnil

theorem height_of_buildArchiveJob {round : Round} {job : ArchiveJob}
    (h : buildArchiveJob cfg d height round = .ok (some job)) : job.height = height := by
  unfold buildArchiveJob at h
  rw [Exit.bind_eq_ok] at h
  obtain ⟨row, _, h⟩ := h
  cases row with
  | none => cases h
  | some row =>
    dsimp only at h
    split at h
    · cases h
    · split at h
      · cases h
      · cases h
        rfl

theorem height_of_recoverArchiveJob {job : ArchiveJob}
    (h : recoverArchiveJob cfg d height = .ok (some job)) : job.height = height := by
  unfold recoverArchiveJob at h
  rw [Exit.bind_eq_ok] at h
  obtain ⟨row, _, h⟩ := h
  cases row with
  | none => cases h
  | some row =>
    dsimp only at h
    split at h
    · cases h
    · split at h
      · cases h
      · split at h
        · exact height_of_buildArchiveJob h
        · cases h

/-- A hint that names this node settles who the proposer is. -/
theorem proposerAddressForHeight_of_hint {s : Store} {hint : Option Nat}
    (h : (hint.bind fun i => cfg.validators.validators[i]?).map (·.address) = some cfg.address) :
    proposerAddressForHeight cfg s height hint = some cfg.address := by
  unfold proposerAddressForHeight
  cases hv : hint.bind fun i => cfg.validators.validators[i]? with
  | none =>
    rw [hv] at h
    cases h
  | some v =>
    rw [hv] at h
    exact h

/-- **Which heights have a job.** -/
theorem recoverArchiveJob_eq_some :
    (∃ job, recoverArchiveJob cfg d height = .ok (some job)) ↔
      d.store.AwaitsUpload cfg height ∧ d.HasUpload cfg height := by
  constructor
  · rintro ⟨job, h⟩
    unfold recoverArchiveJob at h
    rw [Exit.bind_eq_ok] at h
    obtain ⟨row, hrow, h⟩ := h
    cases row with
    | none => cases h
    | some row =>
      dsimp only at h
      split at h
      · cases h
      rename_i hrest
      simp only [not_or, Bool.not_eq_true] at hrest
      split at h
      · cases h
      rename_i round hround
      split at h
      · rename_i hhint
        refine ⟨⟨row, hrow, hrest, proposerAddressForHeight_of_hint hhint⟩, ⟨row, hrow, hhint⟩, ?_,
          (buildArchiveJob_eq_some hrow hrest.1).1 ⟨job, h⟩⟩
        cases hc : d.store.consensusBlockMetadata[height]? with
        | some _ => exact .inl rfl
        | none =>
          cases hv : d.store.decidedValues[height]? with
          | some _ => exact .inr rfl
          | none =>
            rw [hc, hv] at hround
            cases hround
      · cases h
  · rintro ⟨⟨row, hrow, hrest, _⟩, ⟨row', hrow', hhint⟩, hround, hblob⟩
    cases hrow.symm.trans hrow'
    obtain ⟨round, hround⟩ : ∃ round, ((d.store.consensusBlockMetadata[height]?).map (·.round) <|>
        (d.store.decidedValues[height]?).map (·.certificate.round)) = some round := by
      cases hc : d.store.consensusBlockMetadata[height]? with
      | some c => exact ⟨_, rfl⟩
      | none =>
        rw [hc] at hround
        obtain ⟨v, hv⟩ := Option.isSome_iff_exists.1 (hround.resolve_left (by simp))
        rw [hv]
        exact ⟨_, rfl⟩
    obtain ⟨job, hjob⟩ := (@buildArchiveJob_eq_some cfg d height round row hrow hrest.1).2 hblob
    refine ⟨job, ?_⟩
    unfold recoverArchiveJob
    rw [hrow, Exit.ok_bind]
    dsimp only
    rw [if_neg (by simp [hrest.1, hrest.2.1, hrest.2.2]), hround]
    dsimp only
    rw [if_pos hhint]
    exact hjob

/-- The jobs of a start. -/
theorem mem_recoverPendingArchiveJobs {jobs : List ArchiveJob}
    (h : recoverPendingArchiveJobs cfg d = .ok jobs) :
    (∃ job ∈ jobs, job.height = height) ↔
      d.store.AwaitsUpload cfg height ∧ d.HasUpload cfg height := by
  unfold recoverPendingArchiveJobs at h
  obtain ⟨results, hresults, h⟩ := Exit.bind_eq_ok.1 h
  rw [Exit.mapM_eq_ok] at hresults
  cases h
  have hmem : ∀ job, some job ∈ results ↔
      ∃ k ∈ d.store.decidedHeights, recoverArchiveJob cfg d k = .ok (some job) := by
    intro job
    rw [← List.mem_map, hresults]
    simp
  rw [← recoverArchiveJob_eq_some]
  constructor
  · rintro ⟨job, hjob, rfl⟩
    obtain ⟨k, _, hk⟩ := (hmem job).1 (List.reduceOption_mem_iff.1 hjob)
    rw [height_of_recoverArchiveJob hk]
    exact ⟨job, hk⟩
  · rintro ⟨job, hjob⟩
    obtain ⟨⟨row, hrow, _⟩, _⟩ := recoverArchiveJob_eq_some.1 ⟨job, hjob⟩
    obtain ⟨stored, hstored, _⟩ := Store.getBlobMetadata_eq_some_iff.1 hrow
    have hk : height ∈ d.store.decidedHeights := by
      rw [Store.decidedHeights, Table.mem_keys, hstored]
      rfl
    exact ⟨job, List.reduceOption_mem_iff.2 ((hmem job).2 ⟨height, hk, hjob⟩),
      height_of_recoverArchiveJob hjob⟩

/-- The jobs can be made if the rows can be read. -/
theorem exists_recoverPendingArchiveJobs
    (h : ∀ k ∈ d.store.decidedHeights, ∃ row, d.store.getBlobMetadata k = .ok row) :
    ∃ jobs, recoverPendingArchiveJobs cfg d = .ok jobs := by
  have hjob : ∀ k ∈ d.store.decidedHeights, ∃ result, recoverArchiveJob cfg d k = .ok result := by
    intro k hk
    obtain ⟨row, hrow⟩ := h k hk
    unfold recoverArchiveJob buildArchiveJob
    rw [hrow]
    simp only [Exit.ok_bind]
    repeat' split
    all_goals exact ⟨_, rfl⟩
  obtain ⟨results, hresults⟩ : ∃ results : List (Option ArchiveJob),
      d.store.decidedHeights.map (recoverArchiveJob cfg d) = results.map .ok := by
    generalize d.store.decidedHeights = heights at hjob
    induction heights with
    | nil => exact ⟨[], rfl⟩
    | cons k heights ih =>
      obtain ⟨result, hresult⟩ := hjob k (List.mem_cons_self ..)
      obtain ⟨results, hresults⟩ := ih fun k' hk' => hjob k' (List.mem_cons_of_mem _ hk')
      exact ⟨result :: results, by rw [List.map_cons, List.map_cons, hresult, hresults]⟩
  exact ⟨results.reduceOption, Exit.bind_eq_ok.2 ⟨results, Exit.mapM_eq_ok.2 hresults, rfl⟩⟩

/-! ## The heights that are waited for -/

theorem Store.AwaitsUpload.of_sameAt {d' : Disk} (hsame : Disk.SameAt height d d') :
    d'.store.AwaitsUpload cfg height ↔ d.store.AwaitsUpload cfg height := by
  unfold AwaitsUpload proposerAddressForHeight
  rw [hsame.getBlobMetadata, hsame.consensus]

/-- What one height of `rehydrate_pending_prunes` does: it leaves the other heights alone, and it is
waited for if there is an upload to wait for. -/
structure LooksAt (cfg : Config) (height : Height) (m m' : Machine Disk Memory) : Prop where
  others : ∀ k ≠ height, Disk.SameAt k m.disk m'.disk ∧
    m'.mem.pendingArchiveHeights[k]? = m.mem.pendingArchiveHeights[k]?
  own : m.mem.pendingArchiveHeights[height]? = none →
    (m'.mem.pendingArchiveHeights[height]? = some () ↔ m.disk.store.AwaitsUpload cfg height)

theorem LooksAt.of_same (hnot : ¬ m.disk.store.AwaitsUpload cfg height) (hdisk : m'.disk = m.disk)
    (hpending : m'.mem.pendingArchiveHeights = m.mem.pendingArchiveHeights) :
    LooksAt cfg height m m' := by
  refine ⟨fun k _ => ⟨?_, by rw [hpending]⟩, fun hnone => ?_⟩
  · rw [hdisk]
    exact .refl _
  · rw [hpending, hnone]
    exact ⟨nofun, fun h => absurd h hnot⟩

theorem returns_rehydrateHeight (harchiver : cfg.archiverEnabled = true) {u : Unit}
    (hr : Returns (rehydrateHeight cfg height) m u m') :
    (∃ row, m.disk.store.getBlobMetadata height = .ok row) ∧ LooksAt cfg height m m' := by
  unfold rehydrateHeight at hr
  rw [returns_get_bind] at hr
  obtain ⟨row, hrow, hr⟩ := returns_ofExit_bind.1 hr
  refine ⟨⟨row, hrow⟩, ?_⟩
  have hread : ∀ {row' : BlobMetadata}, m.disk.store.getBlobMetadata height = .ok (some row') →
      row = some row' := by
    intro row' hrow'
    cases hrow.symm.trans hrow'
    rfl
  cases row with
  | none =>
    obtain ⟨_, rfl⟩ := returns_pure.1 hr
    refine .of_same ?_ rfl rfl
    rintro ⟨row, hrow', _⟩
    cases hread hrow'
  | some row =>
    dsimp only at hr
    split at hr
    · -- no blobs, or pruned
      rename_i hskip
      obtain ⟨_, rfl⟩ := returns_pure.1 hr
      refine .of_same ?_ rfl rfl
      rintro ⟨row', hrow', ⟨hcount, hpruned, _⟩, _⟩
      cases hread hrow'
      rw [hpruned] at hskip
      exact hskip.elim hcount Bool.false_ne_true
    rename_i hskip
    simp only [not_or, Bool.not_eq_true] at hskip
    split at hr
    · rename_i hall
      rw [Bool.not_eq_true'] at hall
      split at hr
      · -- an upload of this node
        rename_i hown
        obtain rfl := returns_modifyMem.1 hr
        refine ⟨fun k hk => ⟨.refl _, ?_⟩, fun _ => ?_⟩
        · exact (Table.getElem?_insert_eq _ _ _ _).trans (if_neg hk.symm)
        · refine iff_of_true ?_ ⟨row, hrow, ⟨hskip.1, hskip.2, hall⟩, hown.2⟩
          exact (Table.getElem?_insert_eq _ _ _ _).trans (if_pos rfl)
      · -- an upload of another node
        rename_i hother
        obtain ⟨_, rfl⟩ := returns_pure.1 hr
        refine .of_same ?_ rfl rfl
        rintro ⟨row', hrow', _, hown⟩
        cases hread hrow'
        exact hother ⟨harchiver, hown⟩
    · -- everything is archived
      rename_i hall
      have hnot : ¬ m.disk.store.AwaitsUpload cfg height := by
        rintro ⟨row', hrow', ⟨_, _, hall'⟩, _⟩
        cases hread hrow'
        exact hall (by rw [hall']; rfl)
      split at hr
      · have hleaves : ∀ k ≠ height, Disk.SameAt k m.disk m'.disk := by
          intro k hk
          rw [← hr.2]
          exact .run (emits_leaves_pruneArchivedHeight hk.symm row)
        rw [returns_pruneArchivedHeight, if_neg (by simp [hskip])] at hr
        subst hr
        refine ⟨fun k hk => ⟨hleaves k hk, ?_⟩, fun _ => iff_of_false ?_ hnot⟩
        · exact (Table.getElem?_erase_eq _ _ _).trans (if_neg hk.symm)
        · show (m.mem.pendingArchiveHeights.erase height)[height]? ≠ some ()
          rw [Table.getElem?_erase_eq, if_pos rfl]
          exact nofun
      · obtain rfl := returns_modifyMem.1 hr
        exact .of_same hnot rfl rfl

/-- The loop over the heights. -/
theorem returns_rehydrateLoop (harchiver : cfg.archiverEnabled = true) :
    ∀ {heights : List Height} {m : Machine Disk Memory}, heights.Nodup →
      Returns (Prog.forEach (rehydrateHeight cfg) heights) m () m' →
      (∀ k ∈ heights, m.mem.pendingArchiveHeights[k]? = none) →
      (∀ k ∈ heights, ∃ row, m.disk.store.getBlobMetadata k = .ok row) ∧
      ∀ k, m'.mem.pendingArchiveHeights[k]? = some () ↔
        m.mem.pendingArchiveHeights[k]? = some () ∨ k ∈ heights ∧ m.disk.store.AwaitsUpload cfg k
  | [], m, _, hr, _ => by
    obtain rfl := returns_forEach_nil.1 hr
    simp
  | height :: heights, m, hnodup, hr, hfresh => by
    obtain ⟨m₁, hfirst, hrest⟩ := returns_forEach_cons.1 hr
    obtain ⟨hhead, hnodup⟩ := List.nodup_cons.1 hnodup
    obtain ⟨hread, hlook⟩ := returns_rehydrateHeight harchiver hfirst
    have hne : ∀ k ∈ heights, k ≠ height := by
      rintro k hk rfl
      exact hhead hk
    have hfresh₁ : ∀ k ∈ heights, m₁.mem.pendingArchiveHeights[k]? = none := by
      intro k hk
      rw [(hlook.others k (hne k hk)).2]
      exact hfresh k (List.mem_cons_of_mem _ hk)
    obtain ⟨hreads, hpending⟩ := returns_rehydrateLoop harchiver hnodup hrest hfresh₁
    refine ⟨fun k hk => ?_, fun k => ?_⟩
    · rcases List.mem_cons.1 hk with rfl | hk
      · exact hread
      · rw [← (hlook.others k (hne k hk)).1.getBlobMetadata]
        exact hreads k hk
    · rw [hpending k]
      by_cases hk : k = height
      · subst hk
        have hown := hlook.own (hfresh k (List.mem_cons_self ..))
        simp [hown, hhead, hfresh k (List.mem_cons_self ..)]
      · obtain ⟨hsame, hkeep⟩ := hlook.others k hk
        rw [hkeep, Store.AwaitsUpload.of_sameAt hsame]
        simp [hk]

/-- **The heights that are waited for** after `rehydrate_pending_prunes`. The rows could all be read. -/
theorem pending_of_rehydrate (harchiver : cfg.archiverEnabled = true)
    (hr : Returns (rehydratePendingPrunes cfg) m () m') :
    (∀ k ∈ m.disk.store.decidedHeights, ∃ row, m.disk.store.getBlobMetadata k = .ok row) ∧
      ∀ k, m'.mem.pendingArchiveHeights[k]? = some () ↔ m.disk.store.AwaitsUpload cfg k := by
  unfold rehydratePendingPrunes at hr
  rw [returns_getDisk_bind, returns_modifyMem_bind] at hr
  have hnodup : m.disk.store.decidedHeights.Nodup := Std.ExtTreeMap.nodup_keys
  obtain ⟨hreads, hpending⟩ := returns_rehydrateLoop harchiver hnodup hr fun _ _ => by simp
  refine ⟨hreads, fun k => (hpending k).trans ?_⟩
  constructor
  · rintro (hnone | ⟨_, hawaits⟩)
    · simp at hnone
    · exact hawaits
  · rintro ⟨row, hrow, h⟩
    obtain ⟨stored, hstored, _⟩ := Store.getBlobMetadata_eq_some_iff.1 hrow
    refine .inr ⟨?_, row, hrow, h⟩
    rw [Store.decidedHeights, Table.mem_keys, hstored]
    rfl

/-! ## A start -/

theorem pending_of_consensusReady {resume : Height} (hr : Returns consensusReady m resume m') :
    m'.mem.pendingArchiveHeights = m.mem.pendingArchiveHeights := by
  unfold consensusReady at hr
  rw [returns_getDisk_bind] at hr
  obtain ⟨block, _, hr⟩ := returns_ofExit_bind.1 hr
  rw [returns_modifyMem_bind, returns_getMem_bind] at hr
  obtain ⟨_, _, hr⟩ := returns_ofExit_bind.1 hr
  obtain ⟨_, rfl⟩ := returns_pure.1 hr
  rfl

/-- The heights that are waited for are those of the jobs, and no other height holds back the prune
floor of a commit. -/
structure UploadsAgree (mem : Memory) (jobs : List ArchiveJob) : Prop where
  pending : ∀ height, mem.pendingArchiveHeights[height]? = some () ↔ ∃ job ∈ jobs, job.height = height
  floor : ∀ height n, n < retainHeight mem height ↔
    n < height + 1 - max mem.blobRetentionWindow 1 ∧ ∀ job ∈ jobs, n < job.height

theorem uploadsAgree_iff {mem : Memory} {jobs : List ArchiveJob} :
    UploadsAgree mem jobs ↔ ∀ height,
      mem.pendingArchiveHeights[height]? = some () ↔ ∃ job ∈ jobs, job.height = height := by
  refine ⟨fun h => h.pending, fun h => ⟨h, fun height n => ?_⟩⟩
  simp only [lt_retainHeight, h, forall_exists_index, and_imp]
  constructor
  · rintro ⟨hwindow, hjobs⟩
    exact ⟨hwindow, fun job hjob => hjobs job.height job hjob rfl⟩
  · rintro ⟨hwindow, hjobs⟩
    refine ⟨hwindow, ?_⟩
    rintro _ job hjob rfl
    exact hjobs job hjob

/-- **The two scans of a start.** A start with the archiver enabled makes jobs from the disk it finds
once its clean-up is done, whatever is stored there. The heights it waits for afterwards are those of
the jobs exactly if every height this node has to archive has something to make a job of. -/
theorem pendingUploads_iff (harchiver : cfg.archiverEnabled = true) {resume : Height}
    (hstart : Returns (start cfg) (bootMachine cfg d) resume m') :
    ∃ m jobs, Returns (startCleanup cfg) (bootMachine cfg d) () m ∧
      recoverPendingArchiveJobs cfg m.disk = .ok jobs ∧
      (UploadsAgree m'.mem jobs ↔
        ∀ height, m.disk.store.AwaitsUpload cfg height → m.disk.HasUpload cfg height) := by
  rw [start_eq] at hstart
  obtain ⟨_, m, hprepare, hstart⟩ := returns_bind.1 hstart
  obtain ⟨_, m₁, hrehydrate, hready⟩ := returns_bind.1 hstart
  obtain ⟨hreads, hpending⟩ := pending_of_rehydrate harchiver hrehydrate
  obtain ⟨jobs, hjobs⟩ := @exists_recoverPendingArchiveJobs cfg m.disk hreads
  refine ⟨m, jobs, hprepare, hjobs, ?_⟩
  simp only [uploadsAgree_iff, pending_of_consensusReady hready, hpending,
    mem_recoverPendingArchiveJobs hjobs, iff_self_and]

namespace Sample

/-- The archiving node of validator 2 stops after a run. -/
def stopped (ls : List Label) : Node :=
  follow (Node.next archiving) (ls ++ [.crash (.startedRound 1 (.some 0)) 9]) (.down Disk.empty)

/-- It starts again. -/
def resumed (ls : List Label) : Outcome Disk Memory Write Err Height :=
  (start archiving).run (bootMachine archiving (stopped ls).disk)

/-- The machine its jobs are made on. -/
def prepared (ls : List Label) : Machine Disk Memory :=
  ((startCleanup archiving).run (bootMachine archiving (stopped ls).disk)).state

/-- What is read of a height. -/
def row? (s : Store) (height : Height) : Option BlobMetadata :=
  match s.getBlobMetadata height with
  | .ok row => row
  | _ => none

/-- The node has lost its disk, and a peer sends it a block of its own without blob and notices. -/
def lostBlob : List Label :=
  [.start, .handle (.processSyncedValue 1 (.some 0) ⟨2⟩
    (.metadataOnly blobValue [] (some [1, 0, 1, 1]) []))]

end Sample

open Sample in
/-- A node that stops after committing a block of its own waits for the job it makes. -/
theorem pendingUploads_iff_committed :
    ∃ m' jobs, Returns (start archiving) (bootMachine archiving (stopped commitBlob).disk) 2 m' ∧
      recoverPendingArchiveJobs archiving (prepared commitBlob).disk = .ok jobs ∧
      UploadsAgree m'.mem jobs := by
  have hrun : (resumed commitBlob).exit = .ok 2 ∧
      (prepared commitBlob).disk.store.decidedHeights = [0, 1] ∧
      (row? (prepared commitBlob).disk.store 0).map (·.blobCount) = some 0 ∧
      (row? (prepared commitBlob).disk.store 1).bind (·.proposerIndexHint) = some 1 ∧
      ((prepared commitBlob).disk.store.consensusBlockMetadata[1]?).isSome ∧
      ((prepared commitBlob).disk.blobs.getDecidedBlobs 1).map (·.index) = [0] ∧
      (prepared commitBlob).disk.store.archivedBlobIndexes 1 = [] := by
    decide +kernel
  obtain ⟨hexit, hheights, hgenesis, hhint, hround, hblobs, hrecords⟩ := hrun
  have hstart : Returns (start archiving) (bootMachine archiving (stopped commitBlob).disk) 2
      (resumed commitBlob).state := ⟨hexit, rfl⟩
  obtain ⟨m, jobs, hprepare, hjobs, hiff⟩ := pendingUploads_iff rfl hstart
  have hm : (prepared commitBlob) = m := hprepare.2
  subst hm
  refine ⟨_, jobs, hstart, hjobs, hiff.2 ?_⟩
  rintro height ⟨row, hrow, ⟨hcount, _⟩, _⟩
  obtain ⟨stored, hstored, _⟩ := Store.getBlobMetadata_eq_some_iff.1 hrow
  have hmem : height ∈ (prepared commitBlob).disk.store.decidedHeights := by
    rw [Store.decidedHeights, Table.mem_keys, hstored]
    rfl
  rw [hheights] at hmem
  simp only [List.mem_cons, List.not_mem_nil, or_false] at hmem
  have hread : row? (prepared commitBlob).disk.store height = some row := by
    unfold row?
    rw [hrow]
  rcases hmem with rfl | rfl
  · rw [hread] at hgenesis
    exact absurd (Option.some.inj hgenesis) hcount
  · rw [hread] at hhint
    refine ⟨⟨row, hrow, ?_⟩, .inl hround, ?_⟩
    · rw [show row.proposerIndexHint = some 1 from hhint]
      rfl
    · obtain ⟨s, hs, _⟩ := List.mem_map.1 (hblobs.symm ▸ List.mem_singleton_self 0)
      exact ⟨s, hs, by simp [hrecords]⟩

open Sample in
/-- **A height without a job pins the floor.** After a start the node waits for an upload that nobody
makes, and a commit at height 100000 prunes nothing from height 1 on. -/
theorem pendingUploads_lost :
    Node.Reachable archiving (fun _ _ => True) (stopped lostBlob) ∧
      Returns (start archiving) (bootMachine archiving (stopped lostBlob).disk) 1
        (resumed lostBlob).state ∧
      recoverPendingArchiveJobs archiving (prepared lostBlob).disk = .ok [] ∧
      (resumed lostBlob).state.mem.pendingArchiveHeights[1]? = some () ∧
      retainHeight (resumed lostBlob).state.mem 100000 = 1 ∧
      ¬ UploadsAgree (resumed lostBlob).state.mem [] := by
  have hreach : Follows (Node.next archiving) (fun _ _ => True)
      (lostBlob ++ [.crash (.startedRound 1 (.some 0)) 9]) (.down Disk.empty) := by
    decide +kernel
  have hrun : (resumed lostBlob).exit = .ok 1 ∧
      recoverPendingArchiveJobs archiving (prepared lostBlob).disk = .ok [] ∧
      (resumed lostBlob).state.mem.pendingArchiveHeights[1]? = some () ∧
      retainHeight (resumed lostBlob).state.mem 100000 = 1 := by
    decide +kernel
  obtain ⟨hexit, hjobs, hpending, hfloor⟩ := hrun
  refine ⟨Reach.refl.follow hreach, ⟨hexit, rfl⟩, hjobs, hpending, hfloor, fun h => ?_⟩
  obtain ⟨_, hjob, _⟩ := (h.pending 1).1 hpending
  cases hjob

end Ultramarine
