import Ultramarine.State.Archive

/-!
# The archiver worker

`node/src/archiver.rs`. The worker of a proposer takes archive jobs from a queue, uploads their blobs
one by one, and sends a signed notice for each blob it has uploaded. A job that fails is tried again
later, from its first blob on: the notices it has already sent are sent once more, under whatever
locator the provider then reports.

Between two of its awaits the worker is a function; the awaits are the constructors of `Worker`. What
the outside decides at an await comes in as an argument: the answer of the provider (the locator that
`do_upload` reads out of it, or nothing for a failure of any kind), and the wall clock.
-/

namespace Ultramarine

open Lib

/-- `ArchiverConfig`: what the worker reads of it. -/
structure ArchiverConfig where
  providerId : String
  retryBackoffMs : Nat
  maxQueueSize : Nat

/-- `ArchiverWorker`: what stays the same while it runs. The decided blobs are those the engine has
for the heights of the jobs. -/
structure ArchiverWorker where
  oracles : Oracles
  config : ArchiverConfig
  signer : PrivateKey
  validatorAddress : Address
  blobEngine : BlobStore

/-- `RetryEntry` -/
structure RetryEntry where
  job : ArchiveJob
  attempts : Nat
  retryAt : Nat

/-- What is left to upload of one blob of a job: its index, its commitment and its hash. -/
abbrev ArchiveTask := Nat × KzgCommitment × B256

/-- A job in the hands of `process_job`. -/
structure Attempt where
  job : ArchiveJob
  attempts : Nat
  archivedAt : Nat
  sidecars : List BlobSidecar

/-- Where the worker waits: for a job or the next retry, for the provider, or for room in the notice
channel. -/
inductive Worker where
  | idle
  | uploading (a : Attempt) (task : ArchiveTask) (rest : List ArchiveTask)
  | delivering (a : Attempt) (rest : List ArchiveTask) (notice : ArchiveNotice)

/-- The worker and its retry queue; `now` is the monotonic clock in milliseconds. -/
structure Archiver where
  now : Nat
  retries : List RetryEntry
  worker : Worker

/-- Why `process_job` gives up. -/
inductive ArchiveErr where
  | mismatchedCommitments
  | mismatchedBlobKeccaks
  | mismatchedVersionedHashes
  | noBlobs
deriving DecidableEq

/-- What `process_job` checks before its loop, and the sidecars it uploads from. -/
def ArchiveJob.fetch (job : ArchiveJob) (b : BlobStore) : Except ArchiveErr (List BlobSidecar) :=
  if job.commitments.length ≠ job.blobIndices.length then .error .mismatchedCommitments
  else if job.blobKeccaks.length ≠ job.blobIndices.length then .error .mismatchedBlobKeccaks
  else if job.versionedHashes.length ≠ job.blobIndices.length then .error .mismatchedVersionedHashes
  else
    let sidecars := b.getDecidedBlobs job.height
    if sidecars.isEmpty then .error .noBlobs else .ok sidecars

/-- The blobs of a job, in the order of its loop. -/
def ArchiveJob.tasks (job : ArchiveJob) : List ArchiveTask :=
  job.blobIndices.zip (job.commitments.zip job.blobKeccaks)

/-- `MAX_RETRY_BACKOFF_MS` -/
def maxRetryBackoffMs : Nat := 60000

namespace ArchiverWorker

variable (w : ArchiverWorker)

/-- The delay before a job is tried again; the products saturate at `u64::MAX`. -/
def backoff (attempts : Nat) : Nat :=
  min (min (max w.config.retryBackoffMs 1 * 2 ^ min attempts 16) (2 ^ 64 - 1)) maxRetryBackoffMs

/-- `process_with_retry` on an error: the job goes to the end of the retry queue. -/
def fail (s : Archiver) (job : ArchiveJob) (attempts : Nat) : Archiver :=
  { s with
    worker := .idle
    retries := s.retries ++ [⟨job, attempts + 1, s.now + w.backoff attempts⟩] }

/-- The head of the loop of `process_job`. -/
def goOn (s : Archiver) (a : Attempt) : List ArchiveTask → Archiver
  | [] => { s with worker := .idle }
  | task :: rest =>
    if a.sidecars.any (·.index == task.1) then { s with worker := .uploading a task rest }
    else w.fail s a.job a.attempts

/-- `process_with_retry` up to its first await. -/
def begin (s : Archiver) (job : ArchiveJob) (attempts archivedAt : Nat) : Archiver :=
  match job.fetch w.blobEngine with
  | .ok sidecars => w.goOn s ⟨job, attempts, archivedAt, sidecars⟩ job.tasks
  | .error _ => w.fail s job attempts

/-- The notice of an uploaded blob. -/
def notice (a : Attempt) (task : ArchiveTask) (locator : String) : ArchiveNotice :=
  .sign w.oracles
    { height := a.job.height
      round := a.job.round
      blobIndex := task.1
      kzgCommitment := task.2.1
      blobKeccak := task.2.2
      providerId := w.config.providerId
      locator
      archivedBy := w.validatorAddress
      archivedAt := a.archivedAt } w.signer

/-- The provider has answered. -/
def answered (s : Archiver) (a : Attempt) (task : ArchiveTask) (rest : List ArchiveTask) :
    Option String → Archiver
  | some locator => { s with worker := .delivering a rest (w.notice a task locator) }
  | none => w.fail s a.job a.attempts

end ArchiverWorker

/-! ## The jobs of a restarted node -/

/-- One height of `recover_pending_archive_jobs`. -/
def recoverArchiveJob (cfg : Config) (d : Disk) (height : Height) : Exit Err (Option ArchiveJob) := do
  match ← d.store.getBlobMetadata height with
  | none => pure none
  | some metadata =>
    if metadata.blobCount = 0 ∨ metadata.pruned ∨ metadata.allArchived then pure none
    else
      match (d.store.consensusBlockMetadata[height]?).map (·.round) <|>
          (d.store.decidedValues[height]?).map (·.certificate.round) with
      | none => pure none
      | some round =>
        if (metadata.proposerIndexHint.bind fun i => cfg.validators.validators[i]?).map (·.address) =
            some cfg.address then
          buildArchiveJob cfg d height round
        else pure none

/-- `State::recover_pending_archive_jobs` -/
def recoverPendingArchiveJobs (cfg : Config) (d : Disk) : Exit Err (List ArchiveJob) := do
  let jobs ← d.store.decidedHeights.mapM (recoverArchiveJob cfg d)
  pure jobs.reduceOption

end Ultramarine
