import Ultramarine.Archiver.Loop

/-!
# Archive jobs of a pruned height

A height is pruned when all its blobs have a record. A second job for it, from a recovery at start-up
or from a decision that is told again, finds no blobs in the engine then; the worker takes that for a
failure like any other.

Results:

* `clears_pruned_iff`: which jobs of a pruned height ever leave the archiver;
* `retried_forever`: the others stay in the retry queue.
-/

namespace Ultramarine

open Lib

variable {height : Height} {queue : List RetryEntry} {job : ArchiveJob} {s₀ : Loop} {a : Attempt}
  {blobs : BlobStore}

namespace Loop

variable {w : ArchiverWorker} {s s' : Loop} {l : Label}

/-! ## An attempt at a job -/

/-- The provider stores what it is sent, and the notices are taken. -/
def Cooperates (_ : Loop) : Label → Prop
  | .answer (some _) | .deliver true => True
  | _ => False

/-- With a provider that cooperates, the job in hand can be brought to an end that leaves it out of the
retry queue, which is `queue` without it. -/
def Clears (w : ArchiverWorker) (s : Loop) (queue : List RetryEntry) : Prop :=
  ∃ s', Reach (next w) Cooperates s s' ∧ s'.archiver.worker = .idle ∧ s'.archiver.retries = queue

/-- The blobs of the attempt that come after the one in hand, if it is in hand. -/
def later (s : Loop) : Option (Attempt × List ArchiveTask) :=
  match s.archiver.worker with
  | .idle => none
  | .uploading a _ rest => some (a, rest)
  | .delivering a rest _ => some (a, rest)

/-- An attempt that finds all its blobs ends well. -/
theorem clears_goOn (tasks : List ArchiveTask) :
    ∀ {s : Loop} {r : Archiver}, s.archiver = w.goOn r a tasks → (∀ task ∈ tasks, a.Has task) →
      Clears w s r.retries := by
  induction tasks with
  | nil =>
    intro s r hs _
    refine ⟨s, .refl, ?_, ?_⟩ <;> rw [hs] <;> rfl
  | cons task rest ih =>
    intro s r hs hall
    rw [ArchiverWorker.goOn_of_has (hall task (List.mem_cons_self ..))] at hs
    -- the blob is stored, its notice is taken, and the loop goes on with the rest
    have hanswer : next w (.answer (some "")) s = some (s.goOn a.job s.sent s.archiver.retries
        (w.answered s.archiver a task rest (some ""))) := by
      simp only [next, hs]
    obtain ⟨s₁, hs₁, hworker⟩ : ∃ s₁, next w (.answer (some "")) s = some s₁ ∧
        s₁.archiver = { r with worker := .delivering a rest (w.notice a task "") } := by
      refine ⟨_, hanswer, ?_⟩
      simp only [Loop.goOn, ArchiverWorker.answered, hs]
    obtain ⟨s₂, hs₂, hgoOn⟩ : ∃ s₂, next w (.deliver true) s₁ = some s₂ ∧
        s₂.archiver = w.goOn s₁.archiver a rest := by
      simp only [next, hworker]
      exact ⟨_, rfl, rfl⟩
    obtain ⟨s', hreach, hidle, hretries⟩ := ih hgoOn fun t ht => hall t (List.mem_cons_of_mem _ ht)
    refine ⟨s', ?_, hidle, ?_⟩
    · exact (Reach.step (.deliver true) (.step (.answer (some "")) .refl trivial hs₁) trivial hs₂).trans
        hreach
    · rw [hretries, hworker]

/-- The job in hand goes back to the retry queue: it is there already, or one of its blobs is
missing. -/
def Returning (queue : List RetryEntry) (s : Loop) : Prop :=
  (s.archiver.worker = .idle ∧ queue.length < s.archiver.retries.length) ∨
    queue.length ≤ s.archiver.retries.length ∧
      ∃ a rest, s.later = some (a, rest) ∧ ∃ task ∈ rest, ¬ a.Has task

theorem returning_goOn {r : Archiver} {tasks : List ArchiveTask}
    (hs : s.archiver = w.goOn r a tasks) (hle : queue.length ≤ r.retries.length)
    (hmissing : ∃ task ∈ tasks, ¬ a.Has task) : Returning queue s := by
  cases tasks with
  | nil =>
    obtain ⟨_, hmem, _⟩ := hmissing
    cases hmem
  | cons task rest =>
    by_cases hhas : a.Has task
    · rw [ArchiverWorker.goOn_of_has hhas] at hs
      obtain ⟨t, ht, hnot⟩ := hmissing
      have ht : t ∈ rest := (List.mem_cons.1 ht).resolve_left fun h => hnot (h ▸ hhas)
      refine .inr ⟨by rw [hs]; exact hle, a, rest, ?_, t, ht, hnot⟩
      simp only [later, hs]
    · rw [ArchiverWorker.goOn_of_missing hhas] at hs
      refine .inl ⟨by rw [hs]; rfl, ?_⟩
      rw [hs]
      simp only [ArchiverWorker.fail, List.length_append, List.length_singleton]
      omega

theorem Returning.step (h : Returning queue s) (hok : Cooperates s l)
    (hnext : next w l s = some s') : Returning queue s' := by
  rcases h with ⟨hidle, _⟩ | ⟨hle, a, rest, hlater, hmissing⟩
  · -- nothing is in hand
    cases l <;> simp only [Cooperates] at hok
    all_goals simp only [next, hidle] at hnext; cases hnext
  · cases step_of_next hnext with
    | @answer _ _ _ locator hworker =>
      simp only [later, hworker] at hlater
      cases hlater
      cases locator with
      | none => cases hok
      | some locator => exact .inr ⟨hle, a, rest, rfl, hmissing⟩
    | taken hworker =>
      simp only [later, hworker] at hlater
      cases hlater
      exact returning_goOn (r := s.archiver) rfl hle hmissing
    | _ => cases hok

theorem Returning.not_clears (h : Returning queue s) : ¬ Clears w s queue := by
  rintro ⟨s', hreach, hidle, hretries⟩
  rcases hreach.invariant h fun _ _ _ hs hok hnext => hs.step hok hnext with
    ⟨_, hlt⟩ | ⟨_, _, _, hlater, _⟩
  · rw [hretries] at hlt
    exact Nat.lt_irrefl _ hlt
  · simp only [later, hidle] at hlater
    cases hlater

/-- **Which jobs are ever done**: those with aligned lists whose blobs are all stored; and there has to
be a blob at all. -/
theorem clears_begin_iff {attempts archivedAt : Nat} :
    Clears w (s.begin w queue job attempts blobs archivedAt) queue ↔
      job.Aligned ∧ blobs.getDecidedBlobs job.height ≠ [] ∧
        ∀ i ∈ job.blobIndices, (blobs.decided[BlobIndexKey.mk job.height i]?).isSome := by
  cases hfetch : job.fetch blobs with
  | error e =>
    refine iff_of_false (Returning.not_clears (.inl ?_)) ?_
    · unfold Loop.begin ArchiverWorker.begin
      dsimp only
      rw [hfetch]
      refine ⟨rfl, ?_⟩
      simp [Loop.goOn, ArchiverWorker.fail]
    · rintro ⟨haligned, hblobs, _⟩
      cases hfetch.symm.trans (ArchiveJob.fetch_eq_ok.2 ⟨haligned, hblobs, rfl⟩)
  | ok sidecars =>
    obtain ⟨haligned, hblobs, rfl⟩ := ArchiveJob.fetch_eq_ok.1 hfetch
    let a : Attempt := ⟨job, attempts, archivedAt, blobs.getDecidedBlobs job.height⟩
    have hs : (s.begin w queue job attempts blobs archivedAt).archiver =
        w.goOn { s.archiver with retries := queue } a job.tasks := by
      unfold Loop.begin ArchiverWorker.begin
      dsimp only
      rw [hfetch]
      rfl
    have hhas : ∀ task, a.Has task ↔ (blobs.decided[BlobIndexKey.mk job.height task.1]?).isSome := by
      intro task
      unfold Attempt.Has
      rw [List.any_eq_true, Option.isSome_iff_exists]
      constructor
      · rintro ⟨sidecar, hmem, hindex⟩
        rw [← beq_iff_eq.1 hindex]
        exact ⟨sidecar, blobs.mem_getDecidedBlobs.1 hmem⟩
      · rintro ⟨sidecar, hget⟩
        have hindex := blobs.decided_index hget
        refine ⟨sidecar, blobs.mem_getDecidedBlobs.2 ?_, beq_iff_eq.2 hindex⟩
        rw [hindex]
        exact hget
    have hall : (∀ task ∈ job.tasks, a.Has task) ↔
        ∀ i ∈ job.blobIndices, (blobs.decided[BlobIndexKey.mk job.height i]?).isSome := by
      rw [← haligned.map_tasks, List.forall_mem_map]
      exact forall₂_congr fun task _ => hhas task
    constructor
    · intro hclears
      refine ⟨haligned, hblobs, hall.1 ?_⟩
      by_contra hnot
      push Not at hnot
      exact Returning.not_clears (returning_goOn hs (le_refl _) hnot) hclears
    · rintro ⟨_, _, hindices⟩
      exact clears_goOn job.tasks hs (hall.2 hindices)

theorem begin_of_takes (htakes : s.takes? l = some (job, queue)) (hblobs : l.blobs? = some blobs)
    (hnext : next w l s = some s') :
    ∃ r attempts archivedAt, s' = Loop.begin w r queue job attempts blobs archivedAt := by
  cases step_of_next hnext with
  | retry _ _ hretries =>
    cases hblobs
    simp only [takes?, hretries] at htakes
    cases htakes
    exact ⟨_, _, _, rfl⟩
  | receive _ hchannel =>
    cases hblobs
    simp only [takes?, hchannel] at htakes
    cases htakes
    exact ⟨_, _, _, rfl⟩
  | _ => cases hblobs

/-- **A job of a pruned height** is done exactly if it is not about the blobs that were pruned. The
height has been pruned, the worker takes a job for it, from the channel or from the retry queue, and
the provider cooperates. Then the job leaves the archiver exactly if its lists are aligned, a blob
beyond those of the row is left at the height, and all the blobs of the job are such. -/
theorem clears_pruned_iff {m m' : Machine Disk Memory} {row : BlobMetadata} {job : ArchiveJob}
    {queue : List RetryEntry} (hfresh : row.pruned = false) (hcount : 0 < row.blobCount)
    (hprune : Prog.Returns (pruneArchivedHeight job.height row) m () m')
    (htakes : s.takes? l = some (job, queue)) (hblobs : l.blobs? = some m'.disk.blobs)
    (hnext : next w l s = some s') :
    Clears w s' queue ↔ job.Aligned ∧
      (∃ i, row.blobCount ≤ i ∧ (m.disk.blobs.decided[BlobIndexKey.mk job.height i]?).isSome) ∧
      ∀ i ∈ job.blobIndices, row.blobCount ≤ i ∧
        (m.disk.blobs.decided[BlobIndexKey.mk job.height i]?).isSome := by
  obtain ⟨r, attempts, archivedAt, rfl⟩ := begin_of_takes htakes hblobs hnext
  rw [returns_pruneArchivedHeight, if_neg (by simp [hfresh]; omega)] at hprune
  subst hprune
  have hleft : ∀ i, ((m.disk.prune job.height row).blobs.decided[BlobIndexKey.mk job.height i]?).isSome ↔
      row.blobCount ≤ i ∧ (m.disk.blobs.decided[BlobIndexKey.mk job.height i]?).isSome := by
    intro i
    rw [(Disk.prunedAt_prune job.height row m.disk).blobs i]
    split
    · simp
      omega
    · simp
      omega
  rw [clears_begin_iff, BlobStore.getDecidedBlobs_ne_nil]
  simp only [hleft]

/-! ## Retries without end -/

/-- Whenever the worker takes a job of the height, the engine has no blobs of it. -/
def Barren (height : Height) (s : Loop) (l : Label) : Prop :=
  ∀ job queue blobs, s.takes? l = some (job, queue) → l.blobs? = some blobs → job.height = height →
    blobs.getDecidedBlobs height = []

/-- The jobs of the height that are done. -/
def doneAt (s : Loop) (height : Height) : List (ArchiveJob × List ArchiveNotice) :=
  s.completed.filter fun c => c.1.height = height

/-- Since the state `s` no job of the height has been in hand, and none is done. -/
structure Idles (height : Height) (s s' : Loop) : Prop where
  inHand : ∀ job ∈ s'.inHand, job.height ≠ height
  doneAt : s'.doneAt height = s.doneAt height
  received : s.received <+: s'.received

theorem doneAt_goOn (hne : job.height ≠ height) (sent : List ArchiveNotice)
    (queue : List RetryEntry) (r : Archiver) :
    (s.goOn job sent queue r).doneAt height = s.doneAt height := by
  unfold doneAt Loop.goOn
  dsimp only
  split
  · split
    · simp [hne]
    · rfl
  · rfl

/-- A step of the job in hand. -/
theorem Idles.goOn {r' : Archiver} (h : Idles height s₀ s) (hne : a.job.height ≠ height)
    (hattempt : ∀ a', r'.worker.attempt? = some a' → a' = a) (sent : List ArchiveNotice)
    (queue : List RetryEntry) : Idles height s₀ (s.goOn a.job sent queue r') := by
  refine ⟨fun job hjob => ?_, (doneAt_goOn hne sent queue r').trans h.doneAt, h.received⟩
  obtain ⟨a', ha', rfl⟩ := List.mem_map.1 hjob
  rw [hattempt a' (Option.mem_toList.1 ha')]
  exact hne

/-- A job is begun: it fails, if it is of the height. -/
theorem Idles.begin (h : Idles height s₀ s)
    (hbarren : job.height = height → blobs.getDecidedBlobs height = [])
    (attempts archivedAt : Nat) :
    Idles height s₀ (s.begin w queue job attempts blobs archivedAt) := by
  obtain ⟨a, rfl, rfl, hcomes, hfetch⟩ := @ArchiverWorker.begin_comes w
    { s.archiver with retries := queue } job blobs attempts archivedAt
  by_cases hheight : a.job.height = height
  · have hfailed := hfetch.resolve_left fun hok => by
      obtain ⟨_, hne, hblobs⟩ := ArchiveJob.fetch_eq_ok.1 hok
      rw [hheight, hbarren hheight] at hblobs
      exact hne hblobs
    unfold Loop.begin
    rw [hfailed]
    refine ⟨nofun, Eq.trans ?_ h.doneAt, h.received⟩
    simp [Loop.doneAt, Loop.goOn]
  · exact h.goOn hheight (fun a' => Comes.attempt hcomes) _ _

theorem Idles.congr (h : Idles height s₀ s) (hworker : s'.archiver.worker = s.archiver.worker)
    (hcompleted : s'.completed = s.completed) (hreceived : s.received <+: s'.received) :
    Idles height s₀ s' := by
  refine ⟨?_, ?_, h.received.trans hreceived⟩
  · unfold Loop.inHand
    rw [hworker]
    exact h.inHand
  · unfold Loop.doneAt
    rw [hcompleted]
    exact h.doneAt

theorem Idles.step (h : Idles height s₀ s) (hbarren : Barren height s l)
    (hnext : next w l s = some s') : Idles height s₀ s' := by
  rcases next_cases hnext with ⟨_, hsame⟩ |
    ⟨job, queue, attempts, blobs, archivedAt, r, htakes, _, hblobs, _, harchiver, hcompleted,
      hreceived, rfl⟩ |
    ⟨a, sent, r, hbusy, _, hattempt, _, rfl⟩
  · exact h.congr hsame.worker hsame.completed (hsame.received ▸ List.prefix_rfl)
  · have hr : Idles height s₀ r := h.congr (by rw [harchiver]) hcompleted hreceived
    exact hr.begin (hbarren job queue blobs htakes hblobs) attempts archivedAt
  · refine h.goOn (h.inHand a.job ?_) hattempt sent _
    unfold Loop.inHand
    rw [hbusy]
    exact List.mem_singleton_self _

end Loop

namespace Sample

/-- The row of the block that validator 2 has committed. -/
def uploadedRow : BlobMetadata :=
  ((node 2 commitBlob).disk.store.blobMetadataDecided[1]?).getD .genesis

/-- A second block, with a blob. -/
def secondBlock : ExecutionPayloadV3 := payload 2 0 1 1

def secondCertificate : CommitCertificate :=
  certificate 2 (.some 0)
    (.new oracles ⟨Ssz.fromPayload oracles secondBlock (some 3), [⟨1⟩], 1, 131072⟩)

/-- The archiving node of validator 2 commits two blocks, stops when the second is on disk, and starts
again. -/
def replayed : List Label :=
  proposeRun ++ [.handle (.decided certificateOne script),
    .handle (.getValue 2 (.some 0) gate (some ⟨secondBlock, [], some bundle⟩)),
    .crash (.decided secondCertificate script) 100, .start]

def replayedNode : Node := follow (Node.next archiving) replayed (.down Disk.empty)

/-- The second decision again, as the node is told it after its start. -/
def redecided : Outcome Disk Memory Write Err DecidedOutcome :=
  (do
    realignLatestBlock 2
    processDecidedCertificate archiving secondCertificate [2, 0, 1, 1] script : Act _).run
      replayedNode.machine

/-- The job it leaves. -/
def replayedJob : Option ArchiveJob :=
  match redecided.exit with
  | .ok out => out.archiveJob
  | _ => none

/-- The worker has the recovered job and this one, and does the first of them. -/
def firstDone : List Loop.Label :=
  [.submit (blobJob 2), .submit (blobJob 2), .enter, .endPass, .receive replayedNode.disk.blobs 0,
    .answer (some "blob"), .deliver true, .again, .enter, .endPass]

/-- The node is told the decision and handed the notice. -/
def prunedNode : Node :=
  follow (Node.next archiving) ([.handle (.decided secondCertificate script)] ++
    ((follow (Loop.next uploader) firstDone .initial).completed.flatMap (·.2)).map
      fun n => .handle (.archiveNotice n)) replayedNode

/-- The worker takes the second job, and tries it again and again. -/
def secondTries : List Loop.Label :=
  [.receive prunedNode.disk.blobs 0, .again, .enter, .endPass, .tick 1000, .wake, .enter,
    .retry prunedNode.disk.blobs 0, .endPass, .tick 2000, .wake, .enter,
    .retry prunedNode.disk.blobs 0]

end Sample

open Sample in
/-- The second job of a height that was pruned does not leave the archiver. -/
theorem clears_pruned_iff_second :
    ∃ m' s', Prog.Returns (pruneArchivedHeight 1 uploadedRow) (node 2 commitBlob).machine () m' ∧
      Loop.next uploader (.receive m'.disk.blobs 0)
        (follow (Loop.next uploader) [.submit (blobJob 1), .enter, .endPass] .initial) = some s' ∧
      ¬ Loop.Clears uploader s' [] := by
  have hrow : uploadedRow.pruned = false ∧ uploadedRow.blobCount = 1 := by
    decide +kernel
  obtain ⟨_, m', hprune⟩ := total_pruneArchivedHeight 1 uploadedRow (node 2 commitBlob).machine
  refine ⟨m', _, hprune, rfl, fun hclears => ?_⟩
  have hpos : 0 < uploadedRow.blobCount := by omega
  have hiff := @Loop.clears_pruned_iff uploader
    (follow (Loop.next uploader) [.submit (blobJob 1), .enter, .endPass] .initial) _
    (.receive m'.disk.blobs 0) (node 2 commitBlob).machine m' uploadedRow (blobJob 1) [] hrow.1 hpos
    hprune rfl rfl rfl
  have hbeyond := ((hiff.1 hclears).2.2 0 (List.mem_singleton_self 0)).1
  omega

open Sample in
/-- **A job that is retried forever.** After a restart the node recovers the job of height 2, and the
decision it is told again leaves the same job. The worker does one of them, its notice prunes the
height, and the other job finds no blobs: it is in the retry queue after its first, its second and its
third attempt. -/
theorem pruned_job_retried :
    (Node.Reachable archiving (fun _ _ => True) replayedNode ∧
      recoverPendingArchiveJobs archiving replayedNode.machine.disk = .ok [blobJob 2] ∧
      replayedJob = some (blobJob 2)) ∧
    ((prunedNode.disk.store.blobMetadataDecided[2]?).map (·.pruned) = some true ∧
      prunedNode.disk.blobs.getDecidedBlobs 2 = []) ∧
    Loop.Reachable uploader (fun _ _ => True)
      (follow (Loop.next uploader) (firstDone ++ secondTries) .initial) ∧
    ∀ n ∈ [1, 8, 13], (follow (Loop.next uploader) (firstDone ++ secondTries.take n)
      .initial).archiver.retries.map (·.job) = [blobJob 2] := by
  refine ⟨⟨Reach.refl.follow (by decide +kernel), by decide +kernel, by decide +kernel⟩,
    by decide +kernel, Reach.refl.follow (by decide +kernel), by decide +kernel⟩

namespace Sample

/-- The engine has lost the blob of a job, which is tried twice. -/
def lost : Loop :=
  follow (Loop.next uploader) [.submit (blobJob 1), .enter, .endPass, .receive .empty 0, .again] .initial

def lostAgain : Loop :=
  follow (Loop.next uploader) [.enter, .endPass, .tick 1000, .wake, .enter, .retry .empty 0, .endPass,
    .tick 2000, .wake] lost

end Sample

end Ultramarine
