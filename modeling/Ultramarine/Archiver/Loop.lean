import Ultramarine.Archiver.Recovery

/-!
# The loop of the archiver worker

`ArchiverWorker::run` of `node/src/archiver.rs`. At its head the loop reads the clock and works off the
due entries at the front of the retry queue; then it waits for a job, and for a timer if the queue is
not empty. The channel is closed when all its senders are gone. What a blob engine, a provider and the
receiver of the notices do comes in with the labels, and the clock moves at any time.

`received`, `sent` and `completed` are a record of the run and steer nothing: the jobs taken from the
channel, the notices that the attempt in hand has delivered, and the jobs that are done, with the
notices of the attempt that did them. `attempts` counts in `Nat`; it is a `u32`.

Results:

* `Loop.next_cases`: what a step does to the jobs;
* `archiver_accounts`: no job is lost or doubled, and when the worker stops.
-/

namespace Ultramarine

open Lib

/-- Where the loop is. -/
inductive Phase where
  /-- At its head. -/
  | head
  /-- Working off the retries that are due at `now`. -/
  | pass (now : Nat)
  /-- Waiting for a job or the timer, after the pass of `now`. -/
  | wait (now : Nat) (timer : Option Nat)
  /-- Processing a job of the channel. -/
  | job
  | stopped
deriving DecidableEq

/-- The worker cannot have a job in its hands. -/
def Phase.rests : Phase → Bool
  | head | wait _ _ | stopped => true
  | pass _ | job => false

/-- What the clock showed when the pass began. -/
def Phase.started? : Phase → Option Nat
  | pass now => some now
  | head | wait _ _ | job | stopped => none

/-- The loop, its channel and the record of the run. -/
structure Loop where
  phase : Phase
  channel : List ArchiveJob
  closed : Bool
  archiver : Archiver
  received : List ArchiveJob
  sent : List ArchiveNotice
  completed : List (ArchiveJob × List ArchiveNotice)

namespace Loop

/-- The worker has just been spawned. -/
def initial : Loop := ⟨.head, [], false, ⟨0, [], .idle⟩, [], [], []⟩

/-- What can happen. The labels that take a job carry the blobs that the engine has then. -/
inductive Label where
  | submit (job : ArchiveJob)
  | close
  | tick (ms : Nat)
  /-- The loop head reads the clock. -/
  | enter
  | retry (blobs : BlobStore) (archivedAt : Nat)
  /-- No entry at the front of the queue is due. -/
  | endPass
  | receive (blobs : BlobStore) (archivedAt : Nat)
  | wake
  /-- `recv` reports that the channel is closed. -/
  | disconnect
  | answer (locator : Option String)
  | deliver (taken : Bool)
  /-- The job of the channel has been processed. -/
  | again

/-- The loop goes on with `a`. The job in hand is done if the worker is idle and the job is not in the
retry queue again, which was `queue` without it. -/
def goOn (s : Loop) (job : ArchiveJob) (sent : List ArchiveNotice) (queue : List RetryEntry)
    (a : Archiver) : Loop :=
  { s with
    archiver := a
    sent
    completed :=
      match a.worker with
      | .idle =>
        if a.retries.length = queue.length then s.completed ++ [(job, sent)] else s.completed
      | _ => s.completed }

/-- A job is begun, with the blobs the engine has now. -/
def begin (w : ArchiverWorker) (s : Loop) (queue : List RetryEntry) (job : ArchiveJob)
    (attempts : Nat) (blobs : BlobStore) (archivedAt : Nat) : Loop :=
  s.goOn job [] queue
    (ArchiverWorker.begin { w with blobEngine := blobs } { s.archiver with retries := queue } job
      attempts archivedAt)

/-- When the timer of a wait goes off. The delay is counted from `now`, the timer from the clock. -/
def timer (s : Loop) (now : Nat) : Option Nat :=
  match s.archiver.retries with
  | [] => none
  | entry :: _ =>
    if entry.retryAt - now = 0 then none else some (s.archiver.now + (entry.retryAt - now))

/-- One step. -/
def next (w : ArchiverWorker) : Label → Loop → Option Loop
  | .submit job, s =>
    if s.closed = false ∧ s.channel.length < w.config.maxQueueSize then
      some { s with channel := s.channel ++ [job] }
    else none
  | .close, s => some { s with closed := true }
  | .tick ms, s => some { s with archiver := { s.archiver with now := s.archiver.now + ms } }
  | .enter, s =>
    match s.phase with
    | .head => some { s with phase := .pass s.archiver.now }
    | _ => none
  | .retry blobs archivedAt, s =>
    match s.phase, s.archiver.worker, s.archiver.retries with
    | .pass now, .idle, entry :: rest =>
      if entry.retryAt ≤ now then
        some (s.begin w rest entry.job entry.attempts blobs archivedAt)
      else none
    | _, _, _ => none
  | .endPass, s =>
    match s.phase, s.archiver.worker with
    | .pass now, .idle =>
      if s.archiver.retries.head?.all (fun entry => now < entry.retryAt) then
        some { s with phase := .wait now (s.timer now) }
      else none
    | _, _ => none
  | .receive blobs archivedAt, s =>
    match s.phase, s.channel with
    | .wait _ _, job :: rest =>
      some ({ s with phase := .job, channel := rest, received := s.received ++ [job] }.begin w
        s.archiver.retries job 0 blobs archivedAt)
    | _, _ => none
  | .wake, s =>
    match s.phase with
    | .wait _ (some t) => if t ≤ s.archiver.now then some { s with phase := .head } else none
    | _ => none
  | .disconnect, s =>
    match s.phase, s.channel with
    | .wait _ _, [] =>
      if s.closed then
        some { s with phase := if s.archiver.retries.isEmpty then .stopped else .head }
      else none
    | _, _ => none
  | .answer locator, s =>
    match s.archiver.worker with
    | .uploading a task rest =>
      some (s.goOn a.job s.sent s.archiver.retries (w.answered s.archiver a task rest locator))
    | _ => none
  | .deliver taken, s =>
    match s.archiver.worker with
    | .delivering a rest notice =>
      if taken then
        some (s.goOn a.job (s.sent ++ [notice]) s.archiver.retries (w.goOn s.archiver a rest))
      else some (s.goOn a.job s.sent s.archiver.retries (w.fail s.archiver a.job a.attempts))
    | _ => none
  | .again, s =>
    match s.phase, s.archiver.worker with
    | .job, .idle => some { s with phase := .head }
    | _, _ => none

/-- The steps that can be made, with what each of them finds. -/
inductive Step (w : ArchiverWorker) (s : Loop) : Label → Loop → Prop
  | submit (hopen : s.closed = false ∧ s.channel.length < w.config.maxQueueSize) :
      Step w s (.submit job) { s with channel := s.channel ++ [job] }
  | close : Step w s .close { s with closed := true }
  | tick : Step w s (.tick ms) { s with archiver := { s.archiver with now := s.archiver.now + ms } }
  | enter : Step w s .enter { s with phase := .pass s.archiver.now }
  | retry (hphase : s.phase = .pass now) (hidle : s.archiver.worker = .idle)
      (hretries : s.archiver.retries = entry :: rest) :
      Step w s (.retry blobs archivedAt) (s.begin w rest entry.job entry.attempts blobs archivedAt)
  | endPass (hphase : s.phase = .pass now) (hidle : s.archiver.worker = .idle)
      (hfront : s.archiver.retries.head?.all (fun entry => now < entry.retryAt) = true) :
      Step w s .endPass { s with phase := .wait now (s.timer now) }
  | receive (hphase : s.phase = .wait now t) (hchannel : s.channel = job :: rest) :
      Step w s (.receive blobs archivedAt)
        ({ s with phase := .job, channel := rest, received := s.received ++ [job] }.begin w
          s.archiver.retries job 0 blobs archivedAt)
  | wake (hphase : s.phase = .wait now t) : Step w s .wake { s with phase := .head }
  | stop (hphase : s.phase = .wait now t) (hchannel : s.channel = []) (hclosed : s.closed = true)
      (hempty : s.archiver.retries.isEmpty = true) : Step w s .disconnect { s with phase := .stopped }
  | disconnect (hphase : s.phase = .wait now t) : Step w s .disconnect { s with phase := .head }
  | answer (hworker : s.archiver.worker = .uploading a task rest) : Step w s (.answer locator)
      (s.goOn a.job s.sent s.archiver.retries (w.answered s.archiver a task rest locator))
  | taken (hworker : s.archiver.worker = .delivering a rest notice) : Step w s (.deliver true)
      (s.goOn a.job (s.sent ++ [notice]) s.archiver.retries (w.goOn s.archiver a rest))
  | refused (hworker : s.archiver.worker = .delivering a rest notice) : Step w s (.deliver false)
      (s.goOn a.job s.sent s.archiver.retries (w.fail s.archiver a.job a.attempts))
  | again (hidle : s.archiver.worker = .idle) : Step w s .again { s with phase := .head }

theorem step_of_next {w : ArchiverWorker} {l : Label} {s s' : Loop} (h : next w l s = some s') :
    Step w s l s' := by
  cases l with
  | deliver taken =>
    cases taken <;> simp only [next] at h <;> split at h <;> cases h
    · exact .refused ‹_›
    · exact .taken ‹_›
  | _ =>
    simp only [next] at h
    repeat' split at h
    all_goals
      cases h
      try constructor <;> assumption

/-- A state of the loop that is reached by steps that meet `ok`. -/
abbrev Reachable (w : ArchiverWorker) (ok : Loop → Label → Prop) : Loop → Prop :=
  Reach (next w) ok initial

end Loop

/-! ## What an attempt comes to -/

/-- The entry of a job that has failed once more. -/
def ArchiverWorker.entry (w : ArchiverWorker) (now : Nat) (job : ArchiveJob) (attempts : Nat) :
    RetryEntry :=
  ⟨job, attempts + 1, now + w.backoff attempts⟩

/-- The engine has returned the blob. -/
def Attempt.Has (a : Attempt) (task : ArchiveTask) : Prop :=
  a.sidecars.any (·.index == task.1) = true

/-- What becomes of an attempt with these blobs to go: the next blob is uploaded, there is none and
the job is done, or the job goes back to the queue. -/
inductive Comes (w : ArchiverWorker) (a : Attempt) (s : Archiver) : List ArchiveTask → Archiver → Prop
  | upload {task : ArchiveTask} {rest : List ArchiveTask}
      (h : a.Has task) : Comes w a s (task :: rest) { s with worker := .uploading a task rest }
  | done : Comes w a s [] { s with worker := .idle }
  | failed {tasks : List ArchiveTask} : Comes w a s tasks
      { s with worker := .idle, retries := s.retries ++ [w.entry s.now a.job a.attempts] }

variable {a : Attempt} {tasks rest : List ArchiveTask} {r s' : Archiver} {task : ArchiveTask}

section Attempts

variable {w : ArchiverWorker} {s : Archiver} {a : Attempt} {job : ArchiveJob}

theorem ArchiverWorker.goOn_of_has (h : a.Has task) :
    w.goOn s a (task :: rest) = { s with worker := .uploading a task rest } :=
  if_pos h

theorem ArchiverWorker.goOn_of_missing (h : ¬ a.Has task) :
    w.goOn s a (task :: rest) = w.fail s a.job a.attempts :=
  if_neg h

theorem ArchiverWorker.goOn_comes (tasks : List ArchiveTask) : Comes w a s tasks (w.goOn s a tasks) := by
  cases tasks with
  | nil => exact .done
  | cons task rest =>
    by_cases h : a.Has task
    · rw [goOn_of_has h]
      exact .upload h
    · rw [goOn_of_missing h]
      exact .failed

/-- The lists of the job are of one length. -/
def ArchiveJob.Aligned (job : ArchiveJob) : Prop :=
  job.commitments.length = job.blobIndices.length ∧ job.blobKeccaks.length = job.blobIndices.length ∧
    job.versionedHashes.length = job.blobIndices.length

theorem ArchiveJob.fetch_eq_ok {blobs : BlobStore} {sidecars : List BlobSidecar} :
    job.fetch blobs = .ok sidecars ↔
      job.Aligned ∧ sidecars ≠ [] ∧ sidecars = blobs.getDecidedBlobs job.height := by
  unfold fetch Aligned
  split
  · simp [*]
  split
  · simp [*]
  split
  · simp [*]
  rename_i hc hk hv
  simp only [ne_eq, Decidable.not_not] at hc hk hv
  simp only [hc, hk, hv, true_and]
  split
  · rename_i hempty
    rw [List.isEmpty_iff] at hempty
    rw [hempty]
    simp
  · rename_i hempty
    rw [List.isEmpty_iff] at hempty
    simp only [Except.ok.injEq]
    constructor
    · rintro rfl
      exact ⟨hempty, rfl⟩
    · rintro ⟨_, rfl⟩
      rfl

/-- The blobs of a job are named by their indices. -/
theorem ArchiveJob.Aligned.map_tasks (h : job.Aligned) : job.tasks.map (·.1) = job.blobIndices := by
  unfold tasks
  rw [← List.unzip_fst, List.unzip_zip_left]
  simp [h.1, h.2.1]

/-- **What becomes of a job that is begun.** -/
theorem ArchiverWorker.begin_comes (blobs : BlobStore) (attempts archivedAt : Nat) :
    ∃ a : Attempt, a.job = job ∧ a.attempts = attempts ∧
      Comes w a s job.tasks
        (ArchiverWorker.begin { w with blobEngine := blobs } s job attempts archivedAt) ∧
      (job.fetch blobs = .ok a.sidecars ∨
        ArchiverWorker.begin { w with blobEngine := blobs } s job attempts archivedAt =
          { s with worker := .idle, retries := s.retries ++ [w.entry s.now job attempts] }) := by
  unfold begin
  cases hfetch : job.fetch blobs with
  | error e => exact ⟨⟨job, attempts, archivedAt, []⟩, rfl, rfl, .failed, .inr rfl⟩
  | ok sidecars =>
    exact ⟨⟨job, attempts, archivedAt, sidecars⟩, rfl, rfl,
      goOn_comes (w := w) job.tasks, .inl rfl⟩

theorem Comes.retries (h : Comes w a s tasks s') :
    s'.retries = s.retries ∨ s'.retries = s.retries ++ [w.entry s.now a.job a.attempts] := by
  cases h with
  | upload _ => exact .inl rfl
  | done => exact .inl rfl
  | failed => exact .inr rfl

/-- A job in hand stays the same. -/
theorem Comes.attempt {a' : Attempt} (h : Comes w a s tasks s')
    (h' : s'.worker.attempt? = some a') : a' = a := by
  cases h with
  | upload _ => exact (Option.some.inj h').symm
  | done => cases h'
  | failed => cases h'

end Attempts

/-! ## The books of the loop -/

/-- What a notice is about: a blob of a height and a round. -/
def ArchiveNotice.subject (n : ArchiveNotice) : Height × Round × ArchiveTask :=
  (n.body.height, n.body.round, n.body.blobIndex, n.body.kzgCommitment, n.body.blobKeccak)

/-- What the notices of a job for these blobs are about. -/
def ArchiveJob.subjects (job : ArchiveJob) (tasks : List ArchiveTask) :
    List (Height × Round × ArchiveTask) :=
  tasks.map fun task => (job.height, job.round, task)

/-- The notices are all the notices of the job: one for each of its blobs, in their order. -/
def ArchiveJob.Completed (job : ArchiveJob) (notices : List ArchiveNotice) : Prop :=
  job.tasks.map (·.1) = job.blobIndices ∧ notices.map (·.subject) = job.subjects job.tasks

/-- What the notices to come of the job in hand are about. -/
def Worker.pending : Worker → List (Height × Round × ArchiveTask)
  | .idle => []
  | .uploading a task rest => a.job.subjects (task :: rest)
  | .delivering a rest notice => notice.subject :: a.job.subjects rest

namespace Loop

variable {w : ArchiverWorker} {s s' : Loop} {l : Label}

/-- The job the worker has in its hands. -/
def inHand (s : Loop) : List ArchiveJob := s.archiver.worker.attempt?.toList.map (·.job)

/-- Every job that was received is done, in hand or in the retry queue; the notices of the job in hand
and of those that are done are theirs. -/
structure Books (s : Loop) : Prop where
  jobs : s.received.Perm (s.completed.map (·.1) ++ (s.inHand ++ s.archiver.retries.map (·.job)))
  attempt : ∀ a, s.archiver.worker.attempt? = some a → a.job.Aligned ∧
    s.sent.map (·.subject) ++ s.archiver.worker.pending = a.job.subjects a.job.tasks
  done : ∀ c ∈ s.completed, c.1.Completed c.2

/-- The books after a job has failed. -/
theorem Books.failed
    (hjobs : s.received.Perm (s.completed.map (·.1) ++ (a.job :: r.retries.map (·.job))))
    (hdone : ∀ c ∈ s.completed, c.1.Completed c.2) (sent : List ArchiveNotice) :
    (s.goOn a.job sent r.retries { r with
      worker := .idle, retries := r.retries ++ [w.entry r.now a.job a.attempts] }).Books := by
  have hcompleted : (s.goOn a.job sent r.retries { r with
      worker := .idle, retries := r.retries ++ [w.entry r.now a.job a.attempts] }).completed =
      s.completed := by
    simp [Loop.goOn]
  refine ⟨?_, by rintro _ ⟨⟩, ?_⟩
  · rw [hcompleted]
    refine hjobs.trans (List.Perm.append_left _ ?_)
    simp only [inHand, Loop.goOn, Worker.attempt?, Option.toList_none, List.map_nil,
      List.nil_append, List.map_append, List.map_cons, ArchiverWorker.entry]
    exact (List.perm_append_singleton _ _).symm
  · rw [hcompleted]
    exact hdone

/-- The books after a step of the job in hand. -/
theorem Books.goOn {sent : List ArchiveNotice} {r' : Archiver}
    (hjobs : s.received.Perm (s.completed.map (·.1) ++ (a.job :: r.retries.map (·.job))))
    (hdone : ∀ c ∈ s.completed, c.1.Completed c.2)
    (haligned : a.job.Aligned ∨ r' = { r with worker := .idle, retries := r.retries ++ [w.entry r.now a.job a.attempts] })
    (hsent : sent.map (·.subject) ++ a.job.subjects tasks = a.job.subjects a.job.tasks)
    (hcomes : Comes w a r tasks r') : (s.goOn a.job sent r.retries r').Books := by
  cases hcomes with
  | upload h =>
    refine ⟨hjobs, ?_, hdone⟩
    rintro _ ⟨⟩
    refine ⟨haligned.resolve_right fun heq => ?_, hsent⟩
    cases congrArg Archiver.worker heq
  | done =>
    have haligned : a.job.Aligned := haligned.resolve_right fun heq => by
      have hlength := congrArg (fun r : Archiver => r.retries.length) heq
      simp at hlength
    have hcompleted : (s.goOn a.job sent r.retries { r with worker := .idle }).completed =
        s.completed ++ [(a.job, sent)] := by
      simp [Loop.goOn]
    refine ⟨?_, by rintro _ ⟨⟩, ?_⟩
    · rw [hcompleted, List.map_append]
      refine hjobs.trans ?_
      simp [inHand, Loop.goOn, Worker.attempt?]
    · rw [hcompleted]
      intro c hc
      rcases List.mem_append.1 hc with hc | hc
      · exact hdone c hc
      · rw [List.mem_singleton.1 hc]
        refine ⟨haligned.map_tasks, ?_⟩
        rw [← hsent]
        simp [ArchiveJob.subjects]
  | failed => exact Books.failed hjobs hdone sent

/-- The books after a job is begun. -/
theorem Books.begin {job : ArchiveJob} {queue : List RetryEntry}
    (hjobs : s.received.Perm (s.completed.map (·.1) ++ (job :: queue.map (·.job))))
    (hdone : ∀ c ∈ s.completed, c.1.Completed c.2) (attempts : Nat) (blobs : BlobStore)
    (archivedAt : Nat) : (s.begin w queue job attempts blobs archivedAt).Books := by
  obtain ⟨a, rfl, rfl, hcomes, hfetch⟩ := @ArchiverWorker.begin_comes w
    { s.archiver with retries := queue } job blobs attempts archivedAt
  refine Books.goOn (w := w) (r := { s.archiver with retries := queue }) hjobs hdone ?_ ?_ hcomes
  · exact hfetch.imp (fun h => (ArchiveJob.fetch_eq_ok.1 h).1) id
  · rfl

/-- What holds in every state of the loop. -/
structure Sound (s : Loop) : Prop where
  books : s.Books
  rests : s.phase.rests = true → s.archiver.worker = .idle
  stopped : s.phase = .stopped → s.closed = true ∧ s.channel = [] ∧ s.archiver.retries = []

/-- With an idle worker, every job is done or queued. -/
theorem Books.of_idle (h : s.Books) (hidle : s.archiver.worker = .idle) :
    s.received.Perm (s.completed.map (·.1) ++ s.archiver.retries.map (·.job)) := by
  have hjobs := h.jobs
  unfold inHand at hjobs
  rw [hidle] at hjobs
  exact hjobs

/-- With a job in hand, every other job is done or queued. -/
theorem Books.of_busy (h : s.Books) (hbusy : s.archiver.worker.attempt? = some a) :
    s.received.Perm (s.completed.map (·.1) ++ (a.job :: s.archiver.retries.map (·.job))) := by
  have hjobs := h.jobs
  unfold inHand at hjobs
  rw [hbusy] at hjobs
  exact hjobs

/-- A step of the job in hand does not end the loop. -/
theorem Sound.of_busy (h : s.Sound) (hbusy : s.archiver.worker.attempt? = some a)
    (hphase : s'.phase = s.phase) (hbooks : s'.Books) : s'.Sound := by
  have hrests : s.phase.rests = false := by
    by_contra hrests
    rw [h.rests (by simpa using hrests)] at hbusy
    cases hbusy
  refine ⟨hbooks, fun hr => ?_, fun hstopped => ?_⟩
  · rw [hphase, hrests] at hr
    cases hr
  · rw [← hphase, hstopped] at hrests
    cases hrests

theorem Sound.step (h : s.Sound) (hnext : next w l s = some s') : s'.Sound := by
  have hsame : ∀ phase channel closed now, Books { s with
      phase, channel, closed, archiver := { s.archiver with now } } :=
    fun _ _ _ _ => ⟨h.books.jobs, h.books.attempt, h.books.done⟩
  cases step_of_next hnext with
  | submit hopen =>
    refine ⟨hsame _ _ _ _, h.rests, fun hstopped => ?_⟩
    cases hopen.1.symm.trans (h.stopped hstopped).1
  | close => exact ⟨hsame _ _ _ _, h.rests, fun hs => ⟨rfl, (h.stopped hs).2⟩⟩
  | tick => exact ⟨hsame _ _ _ _, h.rests, h.stopped⟩
  | enter => exact ⟨hsame _ _ _ _, nofun, nofun⟩
  | retry hphase hidle hretries =>
    have hjobs := h.books.of_idle hidle
    rw [hretries] at hjobs
    refine ⟨Books.begin hjobs h.books.done _ _ _, fun hrests => ?_, fun hstopped => ?_⟩
    · rw [show (s.begin _ _ _ _ _ _).phase = _ from hphase] at hrests
      cases hrests
    · cases hphase.symm.trans hstopped
  | endPass hphase hidle => exact ⟨hsame _ _ _ _, fun _ => hidle, nofun⟩
  | @receive _ _ job rest _ _ hphase hchannel =>
    have hidle := h.rests (by rw [hphase]; rfl)
    -- the new job joins the ones that are done or queued
    have hjobs : (s.received ++ [job]).Perm
        (s.completed.map (·.1) ++ (job :: s.archiver.retries.map (·.job))) := by
      refine ((h.books.of_idle hidle).append_right [job]).trans ?_
      rw [List.append_assoc]
      exact List.Perm.append_left _ (List.perm_append_singleton _ _)
    let r : Loop := { s with phase := .job, channel := rest, received := s.received ++ [job] }
    exact ⟨Books.begin (s := r) hjobs h.books.done _ _ _, nofun, nofun⟩
  | wake hphase => exact ⟨hsame _ _ _ _, fun _ => h.rests (by rw [hphase]; rfl), nofun⟩
  | stop hphase hchannel hclosed hempty =>
    exact ⟨hsame _ _ _ _, fun _ => h.rests (by rw [hphase]; rfl),
      fun _ => ⟨hclosed, hchannel, List.isEmpty_iff.1 hempty⟩⟩
  | disconnect hphase => exact ⟨hsame _ _ _ _, fun _ => h.rests (by rw [hphase]; rfl), nofun⟩
  | @answer a _ _ locator hworker =>
    have hbusy : s.archiver.worker.attempt? = some a := by rw [hworker]; rfl
    obtain ⟨haligned, hsent⟩ := h.books.attempt a hbusy
    rw [hworker] at hsent
    refine h.of_busy hbusy rfl ?_
    cases locator with
    | none => exact Books.failed (w := w) (h.books.of_busy hbusy) h.books.done s.sent
    | some locator =>
      refine ⟨h.books.of_busy hbusy, ?_, h.books.done⟩
      rintro _ ⟨⟩
      exact ⟨haligned, hsent⟩
  | @taken a rest notice hworker =>
    have hbusy : s.archiver.worker.attempt? = some a := by rw [hworker]; rfl
    obtain ⟨haligned, hsent⟩ := h.books.attempt a hbusy
    rw [hworker] at hsent
    refine h.of_busy hbusy rfl (Books.goOn (r := s.archiver) (h.books.of_busy hbusy) h.books.done
      (.inl haligned) ?_ (ArchiverWorker.goOn_comes rest))
    rw [← hsent, List.map_append, List.append_assoc]
    rfl
  | @refused a _ _ hworker =>
    have hbusy : s.archiver.worker.attempt? = some a := by rw [hworker]; rfl
    exact h.of_busy hbusy rfl (Books.failed (w := w) (h.books.of_busy hbusy) h.books.done s.sent)
  | again hidle => exact ⟨hsame _ _ _ _, fun _ => hidle, nofun⟩

theorem sound_initial : initial.Sound := ⟨⟨.refl _, nofun, nofun⟩, fun _ => rfl, nofun⟩

theorem sound_of_reach {ok : Loop → Label → Prop} (h : Reachable w ok s) : s.Sound :=
  h.invariant sound_initial fun _ _ _ hs _ hnext => hs.step hnext

end Loop

/-! ## When a job is tried again -/

namespace ArchiverWorker

variable (w : ArchiverWorker)

/-- The delay lies between a millisecond and a minute. -/
theorem backoff_bounds (attempts : Nat) : 1 ≤ w.backoff attempts ∧ w.backoff attempts ≤ 60000 := by
  have hpos : 1 ≤ max w.config.retryBackoffMs 1 * 2 ^ min attempts 16 :=
    Nat.mul_pos (lt_of_lt_of_le Nat.one_pos (le_max_right _ _)) (Nat.two_pow_pos _)
  unfold backoff maxRetryBackoffMs
  omega

/-- The delay grows with the attempts. -/
theorem backoff_mono {n n' : Nat} (h : n ≤ n') : w.backoff n ≤ w.backoff n' := by
  have hpow : 2 ^ min n 16 ≤ 2 ^ min n' 16 := Nat.pow_le_pow_right Nat.two_pos (by omega)
  have hmul := Nat.mul_le_mul_left (max w.config.retryBackoffMs 1) hpow
  unfold backoff
  omega

end ArchiverWorker

namespace Loop

variable {w : ArchiverWorker} {s s' : Loop} {l : Label}

/-- The attempts of the job that a label is about, and the retry queue without that job. -/
def handed? (s : Loop) : Label → Option (Nat × List RetryEntry)
  | .retry _ _ =>
    match s.archiver.retries with
    | entry :: rest => some (entry.attempts, rest)
    | [] => none
  | .receive _ _ => some (0, s.archiver.retries)
  | .answer _ | .deliver _ =>
    s.archiver.worker.attempt?.map fun a => (a.attempts, s.archiver.retries)
  | _ => none

/-- The job that a label takes, and the retry queue without it. -/
def takes? (s : Loop) : Label → Option (ArchiveJob × List RetryEntry)
  | .retry _ _ =>
    match s.archiver.retries with
    | entry :: rest => some (entry.job, rest)
    | [] => none
  | .receive _ _ => s.channel.head?.map fun job => (job, s.archiver.retries)
  | _ => none

/-- The blobs that the engine has when the label takes a job. -/
def Label.blobs? : Label → Option BlobStore
  | .retry blobs _ | .receive blobs _ => some blobs
  | _ => none

/-- The states have the same jobs, in the same places. -/
structure SameJobs (s s' : Loop) : Prop where
  worker : s'.archiver.worker = s.archiver.worker
  retries : s'.archiver.retries = s.archiver.retries
  completed : s'.completed = s.completed
  received : s'.received = s.received

/-- A step that takes a job: it is begun in a state that has it among those received. -/
structure Takes (w : ArchiverWorker) (s : Loop) (l : Label) (s' : Loop) : Prop where
  begun : ∃ job queue attempts blobs archivedAt, ∃ r : Loop, s.takes? l = some (job, queue) ∧
    s.handed? l = some (attempts, queue) ∧ l.blobs? = some blobs ∧ queue <:+ s.archiver.retries ∧
    r.archiver = s.archiver ∧ r.completed = s.completed ∧ s.received <+: r.received ∧
    s' = r.begin w queue job attempts blobs archivedAt

/-- A step of the job in hand. -/
structure Handles (w : ArchiverWorker) (s : Loop) (l : Label) (s' : Loop) : Prop where
  handled : ∃ a sent r, s.archiver.worker.attempt? = some a ∧
    s.handed? l = some (a.attempts, s.archiver.retries) ∧
    (∀ a', r.worker.attempt? = some a' → a' = a) ∧
    (r.retries = s.archiver.retries ∨
      r.retries = s.archiver.retries ++ [w.entry s.archiver.now a.job a.attempts]) ∧
    s' = s.goOn a.job sent s.archiver.retries r

/-- **What a step does to the jobs**: nothing, or it takes one, or it goes on with the one in hand. -/
theorem next_cases (hnext : next w l s = some s') :
    (s.handed? l = none ∧ SameJobs s s') ∨ Takes w s l s' ∨ Handles w s l s' := by
  cases step_of_next hnext with
  | @retry now entry rest blobs archivedAt _ _ hretries =>
    refine .inr (.inl ⟨entry.job, rest, entry.attempts, blobs, archivedAt, s, ?_, ?_, rfl, ?_, rfl,
      rfl, List.prefix_rfl, rfl⟩)
    · simp only [takes?]
      rw [hretries]
    · simp only [handed?]
      rw [hretries]
    · rw [hretries]
      exact List.suffix_cons _ _
  | @receive _ _ job rest blobs archivedAt _ hchannel =>
    let r : Loop := { s with phase := .job, channel := rest, received := s.received ++ [job] }
    refine .inr (.inl ⟨job, s.archiver.retries, 0, blobs, archivedAt, r, ?_, rfl, rfl,
      List.suffix_rfl, rfl, rfl, List.prefix_append _ _, rfl⟩)
    simp only [takes?, hchannel]
    rfl
  | @answer a _ _ locator hworker =>
    have hbusy : s.archiver.worker.attempt? = some a := by rw [hworker]; rfl
    refine .inr (.inr ⟨a, _, _, hbusy, congrArg (Option.map _) hbusy, ?_, ?_, rfl⟩)
    · cases locator with
      | none => rintro _ ⟨⟩
      | some locator => exact fun a' h => (Option.some.inj h).symm
    · cases locator with
      | none => exact .inr rfl
      | some locator => exact .inl rfl
  | @taken a rest _ hworker =>
    have hbusy : s.archiver.worker.attempt? = some a := by rw [hworker]; rfl
    have hcomes := @ArchiverWorker.goOn_comes w s.archiver a rest
    exact .inr (.inr ⟨a, _, _, hbusy, congrArg (Option.map _) hbusy, fun a' => hcomes.attempt,
      hcomes.retries, rfl⟩)
  | @refused a _ _ hworker =>
    have hbusy : s.archiver.worker.attempt? = some a := by rw [hworker]; rfl
    exact .inr (.inr ⟨a, _, _, hbusy, congrArg (Option.map _) hbusy, by rintro _ ⟨⟩, .inr rfl, rfl⟩)
  | _ => exact .inl ⟨rfl, rfl, rfl, rfl, rfl⟩

/-- **What a step does to the retry queue**: nothing, if it is not about a job; otherwise the job is
out of it, or at its end with a new due time. -/
theorem retries_of_next (hnext : next w l s = some s') :
    (s.handed? l = none ∧ s'.archiver.retries = s.archiver.retries) ∨
    ∃ attempts queue, s.handed? l = some (attempts, queue) ∧ queue <:+ s.archiver.retries ∧
      (s'.archiver.retries = queue ∨
        ∃ job, s'.archiver.retries = queue ++ [w.entry s.archiver.now job attempts]) := by
  rcases next_cases hnext with ⟨hhanded, hsame⟩ |
    ⟨job, queue, attempts, blobs, archivedAt, r, _, hhanded, _, hsuffix, harchiver, _, _, rfl⟩ |
    ⟨a, sent, r, _, hhanded, _, hretries, rfl⟩
  · exact .inl ⟨hhanded, hsame.retries⟩
  · refine .inr ⟨attempts, queue, hhanded, hsuffix, ?_⟩
    rw [← harchiver]
    obtain ⟨a, _, rfl, hcomes, _⟩ := @ArchiverWorker.begin_comes w
      { r.archiver with retries := queue } job blobs attempts archivedAt
    exact hcomes.retries.imp id fun h => ⟨a.job, h⟩
  · exact .inr ⟨_, _, hhanded, List.suffix_rfl, hretries.imp id fun h => ⟨a.job, h⟩⟩

/-- At the head of the loop every job that was received is done, with all its notices, or stands once
in the retry queue. -/
structure Accounted (s : Loop) : Prop where
  jobs : s.received.Perm (s.completed.map (·.1) ++ s.archiver.retries.map (·.job))
  notices : ∀ c ∈ s.completed, c.1.Completed c.2

/-- **No job is lost.** In every run of the worker, whatever is submitted and whatever engine, provider
and clock do: at the head of the loop the jobs are accounted for; the worker has stopped only if the
channel is closed and empty and nothing is left to retry; an entry that a step adds to the retry queue
is due after the delay for its attempts; and that delay lies between a millisecond and a minute and
does not shrink with the attempts. -/
theorem archiver_accounts (h : Reachable w (fun _ _ => True) s) :
    (s.phase = .head → s.Accounted) ∧
    (s.phase = .stopped → s.closed = true ∧ s.channel = [] ∧ s.archiver.retries = []) ∧
    (∀ l s', next w l s = some s' → ∀ e ∈ s'.archiver.retries, e ∈ s.archiver.retries ∨
      ∃ n, e.attempts = n + 1 ∧ e.retryAt = s.archiver.now + w.backoff n) ∧
    ∀ n, 1 ≤ w.backoff n ∧ w.backoff n ≤ 60000 ∧ ∀ n', n ≤ n' → w.backoff n ≤ w.backoff n' := by
  have hsound := sound_of_reach h
  refine ⟨fun hhead => ?_, hsound.stopped, fun l s' hnext e he => ?_, fun n => ?_⟩
  · exact ⟨hsound.books.of_idle (hsound.rests (by rw [hhead]; rfl)), hsound.books.done⟩
  · rcases retries_of_next hnext with ⟨_, hsame⟩ | ⟨n, queue, _, hsuffix, hqueue | ⟨job, hqueue⟩⟩
    · rw [hsame] at he
      exact .inl he
    · rw [hqueue] at he
      exact .inl (hsuffix.subset he)
    · rw [hqueue] at he
      rcases List.mem_append.1 he with he | he
      · exact .inl (hsuffix.subset he)
      · rw [List.mem_singleton.1 he]
        exact .inr ⟨n, rfl, rfl⟩
  · exact ⟨(w.backoff_bounds n).1, (w.backoff_bounds n).2, fun n' hle => w.backoff_mono hle⟩

end Loop

namespace Sample

/-- The worker of validator 2, and two of its jobs. -/
def uploader : ArchiverWorker := ⟨oracles, ⟨"s3", 1000, 8⟩, ⟨2⟩, ⟨2⟩, .empty⟩

def blobJob (height : Height) : ArchiveJob :=
  ⟨height, .some 0, [0], [⟨1⟩], [7], [1#8 ++ 9#248]⟩

/-- The blobs of validator 2 after its commit. -/
def committedBlobs : BlobStore := (node 2 commitBlob).disk.blobs

/-- One job is done, the other one fails. -/
def twoJobs : List Loop.Label :=
  [.submit (blobJob 1), .submit (blobJob 2), .enter, .endPass, .receive committedBlobs 0,
    .answer (some "blob"), .deliver true, .again, .enter, .endPass, .receive committedBlobs 0, .again]

end Sample

open Sample in
/-- The jobs of such a run are accounted for. -/
theorem archiver_accounts_two :
    (follow (Loop.next uploader) twoJobs .initial).received = [blobJob 1, blobJob 2] ∧
      (follow (Loop.next uploader) twoJobs .initial).completed.map (·.1) = [blobJob 1] ∧
      (follow (Loop.next uploader) twoJobs .initial).Accounted := by
  have hrun : Follows (Loop.next uploader) (fun _ _ => True) twoJobs .initial ∧
      (follow (Loop.next uploader) twoJobs .initial).received = [blobJob 1, blobJob 2] ∧
      (follow (Loop.next uploader) twoJobs .initial).completed.map (·.1) = [blobJob 1] ∧
      (follow (Loop.next uploader) twoJobs .initial).phase = .head := by
    decide +kernel
  obtain ⟨hfollows, hreceived, hcompleted, hhead⟩ := hrun
  exact ⟨hreceived, hcompleted, (Loop.archiver_accounts (Reach.refl.follow hfollows)).1 hhead⟩

end Ultramarine
