import Ultramarine.Archiver.Worker
import Ultramarine.App.Run

/-!
# Recovering archive jobs at start-up

`node/src/node.rs`, after the worker is spawned. The start-up task sends the recovered jobs into the
job queue and waits for room when the queue is full; the worker sends its notices into a channel of
100 and waits for room when that is full. Nobody reads the notices before start-up is over. So the two
can wait for each other.

`recovery_waits_iff`: they cannot exactly if the jobs `Fit`. The queue and the hands of the start-up
task hold `max_queue_size + 1` jobs; the jobs before those must not make more than 100 notices. A job
with two blobs makes any number of them: its first notice is sent again with every retry.
-/

namespace Ultramarine

open Lib

/-- The capacity of the notice channel. -/
def noticeCapacity : Nat := 100

/-- The start-up task with the jobs it has not sent, the two channels, and the worker. -/
structure Recovery where
  recovered : List ArchiveJob
  queue : List ArchiveJob
  notices : List ArchiveNotice
  archiver : Archiver

namespace Recovery

/-- The worker has just been spawned. -/
def initial (jobs : List ArchiveJob) : Recovery := ⟨jobs, [], [], ⟨0, [], .idle⟩⟩

/-- What can happen. `drain` is the application loop, which runs when start-up is over. -/
inductive Label where
  | send
  | tick (ms : Nat)
  | take (archivedAt : Nat)
  | retry (archivedAt : Nat)
  | answer (locator : Option String)
  | deliver
  | drain

/-- One step. -/
def next (w : ArchiverWorker) : Label → Recovery → Option Recovery
  | .send, s =>
    match s.recovered with
    | [] => none
    | job :: rest =>
      if s.queue.length < w.config.maxQueueSize then
        some { s with recovered := rest, queue := s.queue ++ [job] }
      else none
  | .tick ms, s => some { s with archiver := { s.archiver with now := s.archiver.now + ms } }
  | .take archivedAt, s =>
    match s.archiver.worker, s.queue with
    | .idle, job :: rest =>
      some { s with queue := rest, archiver := w.begin s.archiver job 0 archivedAt }
    | _, _ => none
  | .retry archivedAt, s =>
    match s.archiver.worker, s.archiver.retries with
    | .idle, entry :: rest =>
      if entry.retryAt ≤ s.archiver.now then
        some { s with
          archiver := w.begin { s.archiver with retries := rest } entry.job entry.attempts archivedAt }
      else none
    | _, _ => none
  | .answer locator, s =>
    match s.archiver.worker with
    | .uploading a task rest => some { s with archiver := w.answered s.archiver a task rest locator }
    | _ => none
  | .deliver, s =>
    match s.archiver.worker with
    | .delivering a rest notice =>
      if s.notices.length < noticeCapacity then
        some { s with notices := s.notices ++ [notice], archiver := w.goOn s.archiver a rest }
      else none
    | _ => none
  | .drain, s =>
    match s.recovered, s.notices with
    | [], _ :: rest => some { s with notices := rest }
    | _, _ => none

/-- A state of a start-up that recovers these jobs. -/
abbrev Reachable (w : ArchiverWorker) (jobs : List ArchiveJob) : Recovery → Prop :=
  Reach (next w) (fun _ _ => True) (initial jobs)

/-- The start-up task waits for room in the job queue. -/
def StartupWaits (w : ArchiverWorker) (s : Recovery) : Prop :=
  s.recovered ≠ [] ∧ w.config.maxQueueSize ≤ s.queue.length

/-- The worker waits for room in the notice channel. -/
def WorkerWaits (s : Recovery) : Prop :=
  (∃ a rest notice, s.archiver.worker = .delivering a rest notice) ∧
    noticeCapacity ≤ s.notices.length

/-- Both wait, and nobody drains. -/
def Deadlocked (w : ArchiverWorker) (s : Recovery) : Prop := s.StartupWaits w ∧ s.WorkerWaits

end Recovery

variable {job : ArchiveJob} {l : Label} {notices : Nat} {r : Archiver}

/-! ## How many notices a job makes -/

namespace ArchiveJob

variable (w : ArchiverWorker)

/-- The job gets as far as its first upload. -/
def sends (job : ArchiveJob) : Bool :=
  match job.fetch w.blobEngine, job.tasks with
  | .ok sidecars, task :: _ => sidecars.any (·.index == task.1)
  | _, _ => false

/-- The job can fail after its first notice, and then starts over. -/
def repeats (job : ArchiveJob) : Bool := job.sends w && decide (1 < job.tasks.length)

variable {w}

theorem sends_of_repeats (h : job.repeats w = true) : job.sends w = true := by
  unfold repeats at h
  simp only [Bool.and_eq_true] at h
  exact h.1

/-- A job that makes one notice has one blob. -/
theorem tasks_of_not_repeats {task : ArchiveTask} {rest : List ArchiveTask}
    (htasks : job.tasks = task :: rest) (hsends : job.sends w = true) (h : job.repeats w = false) :
    rest = [] := by
  unfold repeats at h
  rw [hsends, htasks] at h
  cases rest with
  | nil => rfl
  | cons t ts => simp at h

end ArchiveJob

namespace ArchiverWorker

variable {w : ArchiverWorker}

/-- **What becomes of a job that is begun**: it is uploaded, or it comes to nothing and may be tried
again. -/
theorem begin_cases (s : Archiver) (job : ArchiveJob) (attempts archivedAt : Nat) :
    (job.sends w = true ∧ ∃ a task rest, a.job = job ∧ job.tasks = task :: rest ∧
      w.begin s job attempts archivedAt = { s with worker := .uploading a task rest }) ∨
    (job.sends w = false ∧ ∃ tail : List RetryEntry, (∀ e ∈ tail, e.job = job) ∧
      w.begin s job attempts archivedAt =
        { s with worker := .idle, retries := s.retries ++ tail }) := by
  unfold begin ArchiveJob.sends
  cases job.fetch w.blobEngine with
  | error e =>
    refine .inr ⟨rfl, [⟨job, attempts + 1, s.now + w.backoff attempts⟩], ?_, rfl⟩
    simp
  | ok sidecars =>
    cases htasks : job.tasks with
    | nil => exact .inr ⟨rfl, [], by simp, by simp [goOn]⟩
    | cons task rest =>
      by_cases hfound : sidecars.any (·.index == task.1) = true
      · refine .inl ⟨hfound, ⟨job, attempts, archivedAt, sidecars⟩, task, rest, rfl, rfl, ?_⟩
        simp only [goOn]
        rw [if_pos hfound]
      · refine .inr ⟨by simpa using hfound, [⟨job, attempts + 1, s.now + w.backoff attempts⟩],
          by simp, ?_⟩
        simp only [goOn]
        rw [if_neg hfound]
        rfl

end ArchiverWorker

/-! ## Why jobs that fit do not block

Every notice is paid for by a job the worker has taken from the queue. A job that makes one notice pays
once: before, it is in the worker's hands or among the retries; afterwards it is gone. -/

/-- What the worker holds of a job. -/
def Worker.attempt? : Worker → Option Attempt
  | .idle => none
  | .uploading a _ _ => some a
  | .delivering a _ _ => some a

/-- The blobs of the job that come later. -/
def Worker.rest : Worker → List ArchiveTask
  | .idle => []
  | .uploading _ _ rest => rest
  | .delivering _ rest _ => rest

/-- The notices still to come, if every job makes one. -/
def Archiver.due (w : ArchiverWorker) (s : Archiver) : Nat :=
  s.worker.attempt?.elim 0 (fun _ => 1) + s.retries.countP (·.job.sends w)

namespace Recovery

variable {w : ArchiverWorker} {jobs taken : List ArchiveJob} {s s' : Recovery}

/-- The jobs that neither the queue nor the start-up task can hold. -/
def overflow (w : ArchiverWorker) (jobs : List ArchiveJob) : List ArchiveJob :=
  jobs.take (jobs.length - (w.config.maxQueueSize + 1))

/-- Those jobs make at most as many notices as the channel holds. -/
def Fit (w : ArchiverWorker) (jobs : List ArchiveJob) : Prop :=
  (∀ job ∈ overflow w jobs, job.repeats w = false) ∧
    (overflow w jobs).countP (·.sends w) ≤ noticeCapacity

instance : Decidable (Fit w jobs) := inferInstanceAs (Decidable (_ ∧ _))

/-- The books of the worker: `taken` are the jobs it has had from the queue. -/
structure Books (w : ArchiverWorker) (taken : List ArchiveJob) (s : Archiver) (notices : Nat) :
    Prop where
  attempt_mem : ∀ a, s.worker.attempt? = some a → a.job ∈ taken
  retry_mem : ∀ e ∈ s.retries, e.job ∈ taken
  rest_eq : s.worker.rest = []
  balance : notices + s.due w ≤ taken.countP (·.sends w)

/-- A job that is begun. -/
theorem Books.begin {attempts archivedAt : Nat} (hmem : ∀ e ∈ r.retries, e.job ∈ taken)
    (hjob : job ∈ taken) (honce : job.repeats w = false)
    (hbalance : notices + r.retries.countP (·.job.sends w) + [job].countP (·.sends w) ≤ taken.countP (·.sends w)) :
    Books w taken (w.begin r job attempts archivedAt) notices := by
  rcases ArchiverWorker.begin_cases r job attempts archivedAt with
    ⟨hsends, a, task, rest, ha, htasks, heq⟩ | ⟨hsends, tail, htail, heq⟩
  · rw [heq]
    refine ⟨?_, hmem, ArchiveJob.tasks_of_not_repeats htasks hsends honce, ?_⟩
    · rintro _ ⟨⟩
      rwa [ha]
    · simp only [Archiver.due, Worker.attempt?, Option.elim_some]
      simp only [List.countP_singleton, hsends, if_true] at hbalance
      omega
  · have hzero : tail.countP (·.job.sends w) = 0 := by
      rw [List.countP_eq_zero]
      intro e he
      rw [htail e he, hsends]
      simp
    rw [heq]
    refine ⟨by rintro _ ⟨⟩, ?_, rfl, ?_⟩
    · intro e he
      rcases List.mem_append.1 he with he | he
      · exact hmem e he
      · rwa [htail e he]
    · simp only [Archiver.due, Worker.attempt?, Option.elim_none, List.countP_append, hzero]
      omega

/-- A job that fails before its notice. -/
theorem Books.fail {a : Attempt} (h : Books w taken r notices) (ha : r.worker.attempt? = some a) :
    Books w taken (w.fail r a.job a.attempts) notices := by
  refine ⟨by rintro _ ⟨⟩, ?_, rfl, ?_⟩
  · intro e he
    rcases List.mem_append.1 he with he | he
    · exact h.retry_mem e he
    · rw [List.mem_singleton.1 he]
      exact h.attempt_mem a ha
  · have hbalance := h.balance
    have hle : [(⟨a.job, a.attempts + 1, r.now + w.backoff a.attempts⟩ : RetryEntry)].countP
        (·.job.sends w) ≤ 1 := List.countP_le_length
    simp only [Archiver.due, ha, Option.elim_some] at hbalance
    simp only [Archiver.due, ArchiverWorker.fail, Worker.attempt?, Option.elim_none,
      List.countP_append]
    omega

/-- The state of a start-up, as long as there are jobs to send. -/
structure Ledger (w : ArchiverWorker) (jobs taken : List ArchiveJob) (s : Recovery) : Prop where
  split : taken ++ (s.queue ++ s.recovered) = jobs
  books : s.recovered ≠ [] → (∀ job ∈ taken, job.repeats w = false) →
    Books w taken s.archiver s.notices.length

theorem Ledger.step (h : Ledger w jobs taken s) (hnext : next w l s = some s') :
    ∃ taken', Ledger w jobs taken' s' := by
  cases l with
  | send =>
    simp only [next] at hnext
    split at hnext
    · cases hnext
    · rename_i job rest hrecovered
      split at hnext
      · cases hnext
        refine ⟨taken, ?_, fun _ honce => h.books (by simp [hrecovered]) honce⟩
        have hsplit := h.split
        rw [hrecovered] at hsplit
        simpa using hsplit
      · cases hnext
  | tick ms =>
    cases hnext
    exact ⟨taken, h.split, fun hne honce =>
      have hb := h.books hne honce
      ⟨hb.attempt_mem, hb.retry_mem, hb.rest_eq, hb.balance⟩⟩
  | take archivedAt =>
    simp only [next] at hnext
    split at hnext
    · rename_i job rest hidle hqueue
      cases hnext
      refine ⟨taken ++ [job], ?_, fun hne honce => ?_⟩
      · have hsplit := h.split
        rw [hqueue] at hsplit
        simpa using hsplit
      · have hb := h.books hne fun j hj => honce j (by simp [hj])
        have hbalance := hb.balance
        simp only [Archiver.due, hidle, Worker.attempt?, Option.elim_none] at hbalance
        refine Books.begin (fun e he => by simp [hb.retry_mem e he]) (by simp)
          (honce job (by simp)) ?_
        simp only [List.countP_append]
        omega
    · cases hnext
  | retry archivedAt =>
    simp only [next] at hnext
    split at hnext
    · rename_i entry rest hidle hretries
      split at hnext
      · cases hnext
        refine ⟨taken, h.split, fun hne honce => ?_⟩
        have hb := h.books hne honce
        have hjob : entry.job ∈ taken := hb.retry_mem entry (by simp [hretries])
        have hbalance := hb.balance
        simp only [Archiver.due, hidle, hretries, Worker.attempt?, Option.elim_none,
          List.countP_cons] at hbalance
        refine Books.begin (fun e he => hb.retry_mem e (by simp [hretries, he])) hjob
          (honce _ hjob) ?_
        simp only [List.countP_singleton]
        omega
      · cases hnext
    · cases hnext
  | answer locator =>
    simp only [next] at hnext
    split at hnext
    · rename_i a task rest hworker
      cases hnext
      refine ⟨taken, h.split, fun hne honce => ?_⟩
      have hb := h.books hne honce
      cases locator with
      | none => exact hb.fail (by rw [hworker]; rfl)
      | some locator =>
        have hattempt := hb.attempt_mem
        have hrest := hb.rest_eq
        have hbalance := hb.balance
        rw [Archiver.due, hworker] at hbalance
        rw [hworker] at hattempt hrest
        exact ⟨hattempt, hb.retry_mem, hrest, hbalance⟩
    · cases hnext
  | deliver =>
    simp only [next] at hnext
    split at hnext
    · rename_i a rest notice hworker
      split at hnext
      · cases hnext
        refine ⟨taken, h.split, fun hne honce => ?_⟩
        have hb := h.books hne honce
        -- the job had one blob: with its notice it is done
        have hrest : rest = [] := by
          have hrest := hb.rest_eq
          rwa [hworker] at hrest
        have hbalance := hb.balance
        simp only [Archiver.due, hworker, Worker.attempt?, Option.elim_some] at hbalance
        rw [hrest]
        refine ⟨by rintro _ ⟨⟩, hb.retry_mem, rfl, ?_⟩
        simp only [Archiver.due, ArchiverWorker.goOn, Worker.attempt?, Option.elim_none,
          List.length_append, List.length_singleton]
        omega
      · cases hnext
    · cases hnext
  | drain =>
    simp only [next] at hnext
    split at hnext
    · rename_i hrecovered _
      cases hnext
      exact ⟨taken, h.split, fun hne _ => absurd hrecovered hne⟩
    · cases hnext

theorem ledger_of_reachable (h : Reachable w jobs s) : ∃ taken, Ledger w jobs taken s := by
  refine h.invariant (I := fun s => ∃ taken, Ledger w jobs taken s) ?_ ?_
  · exact ⟨[], rfl, fun _ _ => ⟨by rintro _ ⟨⟩, by rintro _ ⟨⟩, rfl, Nat.le_refl _⟩⟩
  · rintro s l s' ⟨taken, hledger⟩ _ hnext
    exact hledger.step hnext

/-- Where start-up waits, the worker has taken jobs of the overflow only. -/
theorem Ledger.taken_prefix (h : Ledger w jobs taken s) (hwaits : s.StartupWaits w) :
    taken <+: overflow w jobs := by
  have hlength := congrArg List.length h.split
  have hpos : 0 < s.recovered.length := List.length_pos_of_ne_nil hwaits.1
  have hqueue := hwaits.2
  simp only [List.length_append] at hlength
  have htaken : taken <+: jobs := ⟨_, h.split⟩
  rw [List.prefix_iff_eq_take.1 htaken, overflow]
  exact List.take_prefix_take_left (by omega)

/-- Jobs that fit never block. -/
theorem not_deadlocked_of_fit (hfit : Fit w jobs) (h : Reachable w jobs s) : ¬ s.Deadlocked w := by
  rintro ⟨hstartup, ⟨a, rest, notice, hworker⟩, hfull⟩
  obtain ⟨taken, hledger⟩ := ledger_of_reachable h
  have htaken := hledger.taken_prefix hstartup
  have hbalance := (hledger.books hstartup.1 fun job hjob =>
    hfit.1 job (htaken.subset hjob)).balance
  have hcount : taken.countP (·.sends w) ≤ (overflow w jobs).countP (·.sends w) :=
    htaken.sublist.countP_le
  have hbound := hfit.2
  simp only [Archiver.due, hworker, Worker.attempt?, Option.elim_some] at hbalance
  omega

/-! ## Why other jobs can block

A provider that answers as the two waits need it: the first blob of a job is stored, the second is
not. -/

/-- A run from one state to another. -/
abbrev Runs (w : ArchiverWorker) (s s' : Recovery) : Prop := Reach (next w) (fun _ _ => True) s s'

theorem Runs.of_next (h : next w l s = some s') : Runs w s s' := .step l .refl trivial h

/-- The worker has finished a job: what it leaves of it for later is `tail`. -/
structure Finished (w : ArchiverWorker) (s : Recovery) (retries : List RetryEntry) (job : ArchiveJob)
    (tail : List RetryEntry) (s' : Recovery) : Prop where
  idle : s'.archiver.worker = .idle
  retries_eq : s'.archiver.retries = retries ++ tail
  notices_length : s'.notices.length = s.notices.length + [job].countP (·.sends w)
  room : s'.notices.length ≤ noticeCapacity
  kept : job.repeats w = true → ∃ e ∈ tail, e.job = job

/-- The start-up task and the job queue are as before. -/
def SameQueue (s s' : Recovery) : Prop := s'.recovered = s.recovered ∧ s'.queue = s.queue

/-- A job whose first blob has been delivered ends there, or fails at its second blob. -/
theorem runs_goOn {a : Attempt} {rest : List ArchiveTask} {r : Archiver}
    (hs : s.archiver = w.goOn r a rest) :
    ∃ s' tail, Runs w s s' ∧ SameQueue s s' ∧ s'.notices = s.notices ∧
      s'.archiver.worker = .idle ∧ s'.archiver.retries = r.retries ++ tail ∧
      (rest ≠ [] → ∃ e ∈ tail, e.job = a.job) := by
  cases rest with
  | nil =>
    exact ⟨s, [], .refl, ⟨rfl, rfl⟩, rfl, by rw [hs]; rfl, by rw [hs]; simp [ArchiverWorker.goOn],
      fun h => absurd rfl h⟩
  | cons task rest =>
    simp only [ArchiverWorker.goOn] at hs
    split at hs
    · have hnext : next w (.answer none) s = some { s with
          archiver := w.fail s.archiver a.job a.attempts } := by
        simp only [next, hs]
        rfl
      refine ⟨_, [⟨a.job, a.attempts + 1, r.now + w.backoff a.attempts⟩], .of_next hnext,
        ⟨rfl, rfl⟩, rfl, rfl, ?_, fun _ => ⟨_, List.mem_singleton_self _, rfl⟩⟩
      rw [hs]
      rfl
    · exact ⟨s, [⟨a.job, a.attempts + 1, r.now + w.backoff a.attempts⟩], .refl, ⟨rfl, rfl⟩, rfl,
        by rw [hs]; rfl, by rw [hs]; rfl, fun _ => ⟨_, List.mem_singleton_self _, rfl⟩⟩

/-- **One attempt.** A job that is begun blocks the worker or is finished. -/
theorem runs_begin {r : Archiver} {job : ArchiveJob} {attempts archivedAt : Nat}
    (hs : s.archiver = w.begin r job attempts archivedAt)
    (hroom : s.notices.length ≤ noticeCapacity) :
    ∃ s', Runs w s s' ∧ SameQueue s s' ∧
      (s'.WorkerWaits ∨ ∃ tail, Finished w s r.retries job tail s') := by
  rcases ArchiverWorker.begin_cases r job attempts archivedAt with
    ⟨hsends, a, task, rest, ha, htasks, heq⟩ | ⟨hsends, tail, htail, heq⟩
  · rw [heq] at hs
    -- the first blob is stored
    have hnext : next w (.answer (some "")) s = some { s with
        archiver := { s.archiver with worker := .delivering a rest (w.notice a task "") } } := by
      simp only [next, hs]
      rfl
    by_cases hfull : s.notices.length < noticeCapacity
    · have hdeliver : next w .deliver { s with
          archiver := { s.archiver with worker := .delivering a rest (w.notice a task "") } } =
          some { s with
            notices := s.notices ++ [w.notice a task ""]
            archiver := w.goOn { s.archiver with
              worker := .delivering a rest (w.notice a task "") } a rest } := by
        simp only [next]
        rw [if_pos hfull]
      obtain ⟨s', tail, hruns, hsame, hnotices, hidle, hretries, hkept⟩ := @runs_goOn w
        { s with
          notices := s.notices ++ [w.notice a task ""]
          archiver := w.goOn { s.archiver with
            worker := .delivering a rest (w.notice a task "") } a rest } a rest _ rfl
      refine ⟨s', (Runs.of_next hnext).trans ((Runs.of_next hdeliver).trans hruns), hsame,
        .inr ⟨tail, hidle, ?_, ?_, ?_, ?_⟩⟩
      · rw [hretries, hs]
      · rw [hnotices]
        simp [hsends]
      · rw [hnotices]
        simp only [List.length_append, List.length_singleton]
        omega
      · intro hrepeats
        rw [← ha]
        refine hkept ?_
        rintro rfl
        simp [ArchiveJob.repeats, htasks] at hrepeats
    · refine ⟨_, .of_next hnext, ⟨rfl, rfl⟩, .inl ⟨⟨a, rest, _, rfl⟩, ?_⟩⟩
      exact Nat.le_of_not_lt hfull
  · refine ⟨s, .refl, ⟨rfl, rfl⟩, .inr ⟨tail, ?_, ?_, ?_, hroom, fun hrepeats => ?_⟩⟩
    · rw [hs, heq]
    · rw [hs, heq]
    · simp [hsends]
    · rw [ArchiveJob.sends_of_repeats hrepeats] at hsends
      cases hsends

/-- The start-up task sends a job, the worker takes it and works on it. -/
theorem runs_fetch {rest : List ArchiveJob} (hcap : 0 < w.config.maxQueueSize)
    (hidle : s.archiver.worker = .idle) (hqueue : s.queue = [])
    (hjobs : s.recovered = job :: rest) (hroom : s.notices.length ≤ noticeCapacity) :
    ∃ s', Runs w s s' ∧ s'.recovered = rest ∧ s'.queue = [] ∧
      (s'.WorkerWaits ∨ ∃ tail, Finished w s s.archiver.retries job tail s') := by
  have hsend : next w .send s = some { s with recovered := rest, queue := [job] } := by
    simp only [next, hjobs, hqueue, List.length_nil]
    rw [if_pos hcap]
    rfl
  have htake : next w (.take 0) { s with recovered := rest, queue := [job] } =
      some { s with recovered := rest, queue := [], archiver := w.begin s.archiver job 0 0 } := by
    simp only [next, hidle]
  obtain ⟨s', hruns, hsame, hend⟩ := @runs_begin w
    { s with recovered := rest, queue := [], archiver := w.begin s.archiver job 0 0 } _ job 0 0 rfl hroom
  exact ⟨s', (Runs.of_next hsend).trans ((Runs.of_next htake).trans hruns), hsame.1, hsame.2,
    hend.imp id (Exists.imp fun _ h => { h with })⟩

/-- The worker turns to the first of its retries when it is due. -/
theorem runs_retry {entry : RetryEntry} {rest : List RetryEntry}
    (hidle : s.archiver.worker = .idle) (hretries : s.archiver.retries = entry :: rest)
    (hroom : s.notices.length ≤ noticeCapacity) :
    ∃ s', Runs w s s' ∧ SameQueue s s' ∧
      (s'.WorkerWaits ∨ ∃ tail, Finished w s rest entry.job tail s') := by
  have htick : next w (.tick entry.retryAt) s =
      some { s with archiver := { s.archiver with now := s.archiver.now + entry.retryAt } } := rfl
  have hretry : next w (.retry 0)
      { s with archiver := { s.archiver with now := s.archiver.now + entry.retryAt } } =
      some { s with
        archiver := w.begin { s.archiver with now := s.archiver.now + entry.retryAt, retries := rest }
          entry.job entry.attempts 0 } := by
    simp only [next, hidle, hretries]
    rw [if_pos (Nat.le_add_left _ _)]
  obtain ⟨s', hruns, hsame, hend⟩ := @runs_begin w
    { s with
      archiver := w.begin { s.archiver with now := s.archiver.now + entry.retryAt, retries := rest }
        entry.job entry.attempts 0 } _ entry.job entry.attempts 0 rfl hroom
  exact ⟨s', (Runs.of_next htick).trans ((Runs.of_next hretry).trans hruns), hsame,
    hend.imp id (Exists.imp fun _ h => { h with })⟩

/-- A job among the retries that starts over makes one more notice: the retries before it come first. -/
theorem runs_rotate {e : RetryEntry} (hrepeats : e.job.repeats w = true) (pre : List RetryEntry) :
    ∀ {s : Recovery} {post : List RetryEntry}, s.archiver.worker = .idle →
      s.archiver.retries = pre ++ e :: post → s.notices.length ≤ noticeCapacity →
      ∃ s', Runs w s s' ∧ SameQueue s s' ∧ (s'.WorkerWaits ∨
        (s'.archiver.worker = .idle ∧ s.notices.length < s'.notices.length ∧
          s'.notices.length ≤ noticeCapacity ∧ ∃ e' ∈ s'.archiver.retries, e'.job = e.job)) := by
  induction pre with
  | nil =>
    intro s post hidle hretries hroom
    obtain ⟨s', hruns, hsame, hend⟩ := runs_retry hidle hretries hroom
    refine ⟨s', hruns, hsame, hend.imp id ?_⟩
    rintro ⟨tail, hfinished⟩
    obtain ⟨e', he', hjob⟩ := hfinished.kept hrepeats
    refine ⟨hfinished.idle, ?_, hfinished.room, e', ?_, hjob⟩
    · rw [hfinished.notices_length]
      simp [ArchiveJob.sends_of_repeats hrepeats]
    · rw [hfinished.retries_eq]
      exact List.mem_append_right _ he'
  | cons p pre ih =>
    intro s post hidle hretries hroom
    obtain ⟨s₁, hruns₁, hsame₁, hend₁⟩ := runs_retry hidle hretries hroom
    rcases hend₁ with hwaits | ⟨tail, hfinished⟩
    · exact ⟨s₁, hruns₁, hsame₁, .inl hwaits⟩
    · have hretries₁ : s₁.archiver.retries = pre ++ e :: (post ++ tail) := by
        rw [hfinished.retries_eq]
        simp
      obtain ⟨s', hruns, hsame, hend⟩ := ih hfinished.idle hretries₁ hfinished.room
      have hle : s.notices.length ≤ s₁.notices.length := by
        rw [hfinished.notices_length]
        exact Nat.le_add_right _ _
      refine ⟨s', hruns₁.trans hruns, ⟨hsame.1.trans hsame₁.1, hsame.2.trans hsame₁.2⟩,
        hend.imp id ?_⟩
      rintro ⟨hidle', hlt, hroom', hmem⟩
      exact ⟨hidle', by omega, hroom', hmem⟩

/-- With such a job among the retries the worker blocks in the end. -/
theorem runs_block (hrepeats : job.repeats w = true) (room : Nat) :
    ∀ {s : Recovery}, s.archiver.worker = .idle → s.notices.length + room = noticeCapacity →
      (∃ e ∈ s.archiver.retries, e.job = job) →
      ∃ s', Runs w s s' ∧ SameQueue s s' ∧ s'.WorkerWaits := by
  induction room using Nat.strong_induction_on with
  | _ room ih =>
    rintro s hidle hroom ⟨e, he, rfl⟩
    obtain ⟨pre, post, hretries⟩ := List.append_of_mem he
    obtain ⟨s₁, hruns₁, hsame₁, hend⟩ := runs_rotate hrepeats pre hidle hretries (by omega)
    rcases hend with hwaits | ⟨hidle₁, hlt, hle, hmem⟩
    · exact ⟨s₁, hruns₁, hsame₁, hwaits⟩
    · obtain ⟨s', hruns, hsame, hwaits⟩ := ih (noticeCapacity - s₁.notices.length) (by omega) hidle₁
        (by omega) hmem
      exact ⟨s', hruns₁.trans hruns, ⟨hsame.1.trans hsame₁.1, hsame.2.trans hsame₁.2⟩, hwaits⟩

/-- The worker works through a list of jobs as the start-up task sends them. -/
theorem runs_jobs (hcap : 0 < w.config.maxQueueSize) (rest : List ArchiveJob) (head : List ArchiveJob) :
    ∀ {s : Recovery}, s.archiver.worker = .idle → s.queue = [] → s.recovered = head ++ rest →
      s.notices.length ≤ noticeCapacity →
      ∃ s', Runs w s s' ∧ s'.queue = [] ∧ rest <:+ s'.recovered ∧ (s'.WorkerWaits ∨
        (s'.archiver.worker = .idle ∧
          s'.notices.length = s.notices.length + head.countP (·.sends w) ∧
          s'.notices.length ≤ noticeCapacity ∧
          (∀ e ∈ s.archiver.retries, e ∈ s'.archiver.retries) ∧
          ∀ job ∈ head, job.repeats w = true → ∃ e ∈ s'.archiver.retries, e.job = job)) := by
  induction head with
  | nil =>
    intro s hidle hqueue hjobs hroom
    refine ⟨s, .refl, hqueue, ⟨[], hjobs.symm⟩, .inr ⟨hidle, rfl, hroom, fun _ h => h, ?_⟩⟩
    rintro _ ⟨⟩
  | cons job head ih =>
    intro s hidle hqueue hjobs hroom
    obtain ⟨s₁, hruns₁, hrecovered₁, hqueue₁, hend₁⟩ := runs_fetch hcap hidle hqueue hjobs hroom
    rcases hend₁ with hwaits | ⟨tail, hfinished⟩
    · exact ⟨s₁, hruns₁, hqueue₁, ⟨head, hrecovered₁.symm⟩, .inl hwaits⟩
    · obtain ⟨s', hruns, hqueue', hsuffix, hend⟩ := ih hfinished.idle hqueue₁ hrecovered₁ hfinished.room
      refine ⟨s', hruns₁.trans hruns, hqueue', hsuffix, hend.imp id ?_⟩
      rintro ⟨hidle', hlength, hroom', hkeeps, hkept⟩
      have hretries₁ := hfinished.retries_eq
      refine ⟨hidle', ?_, hroom', fun e he => hkeeps e (by simp [hretries₁, he]), ?_⟩
      · rw [hlength, hfinished.notices_length]
        simp only [List.countP_cons, List.countP_nil]
        omega
      · intro j hj hrepeats
        rcases List.mem_cons.1 hj with rfl | hj
        · obtain ⟨e, he, hjob⟩ := hfinished.kept hrepeats
          exact ⟨e, hkeeps e (by simp [hretries₁, he]), hjob⟩
        · exact hkept j hj hrepeats

/-- The start-up task fills the queue. -/
theorem runs_fill (rest : List ArchiveJob) :
    ∀ {s : Recovery}, s.recovered = rest → s.queue.length ≤ w.config.maxQueueSize →
      w.config.maxQueueSize < s.queue.length + rest.length →
      ∃ s', Runs w s s' ∧ s'.StartupWaits w ∧ s'.archiver = s.archiver ∧ s'.notices = s.notices := by
  induction rest with
  | nil =>
    intro s _ hle hlt
    simp only [List.length_nil, Nat.add_zero] at hlt
    omega
  | cons job rest ih =>
    intro s hjobs hle hlt
    by_cases hfull : s.queue.length < w.config.maxQueueSize
    · have hsend : next w .send s =
          some { s with recovered := rest, queue := s.queue ++ [job] } := by
        simp only [next, hjobs]
        rw [if_pos hfull]
      simp only [List.length_cons] at hlt
      obtain ⟨s', hruns, hwaits, harchiver, hnotices⟩ := @ih
        { s with recovered := rest, queue := s.queue ++ [job] } rfl
        (by simp only [List.length_append, List.length_singleton]; omega)
        (by simp only [List.length_append, List.length_singleton]; omega)
      exact ⟨s', (Runs.of_next hsend).trans hruns, hwaits, harchiver, hnotices⟩
    · exact ⟨s, .refl, ⟨by simp [hjobs], Nat.le_of_not_lt hfull⟩, rfl, rfl⟩

/-- A worker that waits while the start-up task still has enough jobs. -/
theorem deadlock_of_workerWaits (h : Reachable w jobs s) (hwaits : s.WorkerWaits)
    (hqueue : s.queue = []) (hmore : w.config.maxQueueSize < s.recovered.length) :
    ∃ s', Reachable w jobs s' ∧ s'.Deadlocked w := by
  obtain ⟨s', hruns, hstartup, harchiver, hnotices⟩ := @runs_fill w s.recovered s rfl
    (by simp [hqueue]) (by simp [hqueue, hmore])
  refine ⟨s', h.trans hruns, hstartup, ?_⟩
  unfold WorkerWaits
  rw [harchiver, hnotices]
  exact hwaits

/-- Jobs that do not fit can block. -/
theorem deadlock_of_not_fit (hcap : 0 < w.config.maxQueueSize) (hfit : ¬ Fit w jobs) :
    ∃ s, Reachable w jobs s ∧ s.Deadlocked w := by
  -- the jobs that queue and start-up task can hold are `rest`
  let rest := jobs.drop (jobs.length - (w.config.maxQueueSize + 1))
  have hjobs : jobs = overflow w jobs ++ rest := (List.take_append_drop _ _).symm
  have hrest : w.config.maxQueueSize < rest.length := by
    by_contra hle
    refine hfit ?_
    have hnil : overflow w jobs = [] := by
      have hlength : rest.length = jobs.length - (jobs.length - (w.config.maxQueueSize + 1)) :=
        List.length_drop
      unfold overflow
      rw [List.take_eq_nil_iff]
      exact .inl (by omega)
    unfold Fit
    rw [hnil]
    exact ⟨by rintro _ ⟨⟩, Nat.zero_le _⟩
  obtain ⟨s, hruns, hqueue, hsuffix, hend⟩ := @runs_jobs w hcap rest (overflow w jobs) (initial jobs)
    rfl rfl hjobs (Nat.zero_le _)
  have hmore : w.config.maxQueueSize < s.recovered.length := lt_of_lt_of_le hrest hsuffix.length_le
  rcases hend with hwaits | ⟨hidle, hlength, hroom, _, hkept⟩
  · exact deadlock_of_workerWaits hruns hwaits hqueue hmore
  · have hcount : (overflow w jobs).countP (·.sends w) ≤ noticeCapacity := by
      rw [hlength] at hroom
      exact le_trans (Nat.le_add_left _ _) hroom
    obtain ⟨job, hjob, hrepeats⟩ : ∃ job ∈ overflow w jobs, job.repeats w = true := by
      by_contra hnone
      push Not at hnone
      exact hfit ⟨fun job hjob => by simpa using hnone job hjob, hcount⟩
    obtain ⟨s', hruns', hsame, hwaits⟩ := runs_block hrepeats (noticeCapacity - s.notices.length) hidle
      (by omega) (hkept job hjob hrepeats)
    refine deadlock_of_workerWaits (hruns.trans hruns') hwaits (hsame.2.trans hqueue) ?_
    rw [hsame.1]
    exact hmore

/-- **When start-up cannot block.** For every list of recovered jobs and every positive queue: no state
of the recovery has the start-up task waiting for room in the job queue and the worker waiting for room
in the notice channel, exactly if the jobs fit. -/
theorem recovery_waits_iff (hcap : 0 < w.config.maxQueueSize) :
    (∀ s, Reachable w jobs s → ¬ s.Deadlocked w) ↔ Fit w jobs := by
  constructor
  · intro h
    by_contra hfit
    obtain ⟨s, hs, hdead⟩ := deadlock_of_not_fit hcap hfit
    exact h s hs hdead
  · intro hfit s hs
    exact not_deadlocked_of_fit hfit hs

end Recovery

namespace Sample

/-- Validator 2 with an archiver. -/
def archiving : Config := { config 2 with archiverEnabled := true }

/-- A block with two blobs. -/
def pairBlock (height : UInt8) : ExecutionPayloadV3 := payload height 0 1 2

/-- The value of that block. -/
def pairValue (height : UInt8) : Value :=
  .new oracles ⟨Ssz.fromPayload oracles (pairBlock height) (some 3), [⟨1⟩, ⟨3⟩], 2, 262144⟩

/-- The node is asked for the block. -/
def askPair (height : UInt8) : Event :=
  .getValue height.toNat (.some 0) gate
    (some ⟨pairBlock height, [], some ⟨[⟨1⟩, ⟨3⟩], [⟨2⟩, ⟨2⟩], [blob, blob]⟩⟩)

/-- The block is decided. -/
def decidePair (height : UInt8) : Event :=
  .decided (certificate height.toNat (.some 0) (pairValue height)) script

/-- The node commits three such blocks, stops when the third is on disk, and starts again. -/
def restarted : Node :=
  follow (Node.next archiving)
    [.start, .handle (askPair 1), .handle (decidePair 1), .handle (askPair 2), .handle (decidePair 2),
      .handle (askPair 3), .crash (decidePair 3) 100, .start] (.down Disk.empty)

/-- The jobs it recovers. -/
def recoveredJobs : List ArchiveJob :=
  match recoverPendingArchiveJobs archiving restarted.machine.disk with
  | .ok jobs => jobs
  | _ => []

/-- Its worker, with a job queue of this size. -/
def archiver (maxQueueSize : Nat) : ArchiverWorker :=
  ⟨oracles, ⟨"s3", 1000, maxQueueSize⟩, ⟨2⟩, ⟨2⟩, restarted.machine.disk.blobs⟩

end Sample

open Sample in
/-- Three jobs and a queue of two: the start-up task always finds room. -/
theorem recovery_waits_iff_three :
    recoveredJobs.length = 3 ∧
    ∀ s, Recovery.Reachable (archiver 2) recoveredJobs s → ¬ s.Deadlocked (archiver 2) :=
  ⟨by decide +kernel, (Recovery.recovery_waits_iff (by decide)).2 (by decide +kernel)⟩

open Sample in
/-- **Start-up blocks.** With a queue of one, the second blob of the first job need only be refused
often enough. -/
theorem recovery_blocks :
    Node.Reachable archiving (fun _ _ => True) restarted ∧ recoveredJobs.length = 3 ∧
    ∃ s, Recovery.Reachable (archiver 1) recoveredJobs s ∧ s.Deadlocked (archiver 1) :=
  ⟨Reach.refl.follow (by decide +kernel), by decide +kernel,
    Recovery.deadlock_of_not_fit (by decide) (by decide +kernel)⟩

end Ultramarine
