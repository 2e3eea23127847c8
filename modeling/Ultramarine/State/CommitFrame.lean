import Ultramarine.State.Commit

/-!
# The errors of a commit, and what it does not read

A commit can only fail on its own rows, and it reads nothing of the execution engine's state: neither
`el_degraded` nor the last forkchoice head nor the executed height.

Results:

* `throws_commit`: every error of a commit is one of the store;
* `blind_commit`, `unaware_commit`: a commit does the same whatever is recorded of the engine;
* `engine_of_commit`: and it leaves that record alone.
-/

namespace Ultramarine

open Lib Ssz Prog

variable {cfg : Config}

/-- The errors of reading and writing the rows of a height. -/
def Err.isStoreError : Err → Bool
  | .encode | .taskJoin | .missingBlobMetadata _ | .decidedValueNotStored | .missingProposal => true
  | _ => false

/-- The error is one of the store. -/
def Err.OfStore (e : Err) : Prop := e.isStoreError = true

theorem ofStore_getBlobMetadata {s : Store} {h : Height} {e : Err}
    (he : s.getBlobMetadata h = .error e) : e.OfStore := by
  unfold Store.getBlobMetadata at he
  cases hrow : s.blobMetadataDecided[h]? with
  | none =>
    rw [hrow] at he
    cases he
  | some row =>
    rw [hrow] at he
    cases hhydrate : Store.hydrate row (s.archiveRecords h) with
    | none =>
      simp only [hhydrate] at he
      cases he
      rfl
    | some metadata =>
      simp only [hhydrate] at he
      cases he

/-- The program does the same with an engine marked as degraded. -/
abbrev Unaware {α : Type} (p : Act α) : Prop := Ignores Memory.markElDegraded p

/-- The memory with its record of the engine changed: how far it has executed, whether it is degraded,
and the head it was last told. -/
def Memory.mapEngine (executed : Height → Height) (degraded : Bool → Bool)
    (head : Option B256 → Option B256) (mem : Memory) : Memory :=
  { mem with
    executedHeight := executed mem.executedHeight
    elDegraded := degraded mem.elDegraded
    lastFcuHead := head mem.lastFcuHead }

/-! ## The calls of a commit -/

/-- A property that passes to a sequence and holds of the calls a commit is made of: pure computations
with errors of the store, writes, and reads and changes of the memory beside the record of the engine. -/
structure CommitCalls (Q : ∀ {α : Type}, Act α → Prop) : Prop where
  bind : ∀ {α β : Type} {p : Act α} {k : α → Act β}, Q p → (∀ a, Q (k a)) → Q (p >>= k)
  ofExit : ∀ {α : Type} {x : Exit Err α}, (∀ e, x = .error e → e.OfStore) → Q (Prog.ofExit x)
  write : ∀ w : Write, Q (Prog.write w)
  modifyMem : ∀ {g : Memory → Memory}, (∀ x y z mem, g (mem.mapEngine x y z) = (g mem).mapEngine x y z) →
    Q (Prog.modifyMem g)
  getDisk : Q getDisk
  getMem_bind : ∀ {β : Type} {k : Memory → Act β}, (∀ mem, Q (k mem)) →
    (∀ x y z mem, k (mem.mapEngine x y z) = k mem) → Q (getMem >>= k)
  attempt : ∀ {α : Type} {p : Act α}, Q p → Q p.attempt

namespace CommitCalls

variable {Q : ∀ {α : Type}, Act α → Prop} (h : CommitCalls Q)

include h

theorem pure {α : Type} (a : α) : Q (Pure.pure a : Act α) := h.ofExit (x := .ok a) nofun

theorem ensure {c : Prop} [Decidable c] (e : Err) (he : e.OfStore) :
    Q (Prog.ofExit (Exit.ensure c e) : Act Unit) :=
  h.ofExit fun _ he' => (Exit.ensure_eq_error.1 he').2 ▸ he

theorem writeAll : ∀ ws : List Write, Q (Prog.writeAll ws : Act Unit)
  | [] => h.pure ()
  | w :: ws => h.bind (h.write w) fun _ => writeAll ws

theorem forEach {α : Type} {k : α → Act Unit} (hk : ∀ a, Q (k a)) : ∀ as : List α, Q (Prog.forEach k as)
  | [] => h.pure ()
  | a :: as => h.bind (hk a) fun _ => forEach hk as

theorem markBlobMetadataDecided (slot : Slot) : Q (markBlobMetadataDecided slot) := by
  refine h.bind h.getDisk fun d => ?_
  split
  · exact h.write _
  · exact h.pure _
  · refine h.ofExit (x := .error _) fun _ he => ?_
    cases he
    rfl

theorem cacheBlobRoot (height : Height) (metadata : BlobMetadata) :
    Q (cacheBlobRoot cfg height metadata) := h.modifyMem fun _ _ _ _ => rfl

theorem commitTables (c : CommitCertificate) (p : ProposedValue) : Q (commitTables cfg c p) := by
  have hcopy : Q (copyBlockData ⟨c.height, c.round⟩) := by
    refine h.bind h.getDisk fun d => ?_
    split
    · exact h.write _
    · exact h.pure _
  refine h.bind (h.bind (h.ensure .encode rfl) fun _ => h.write _) fun _ => h.bind h.getDisk fun _ =>
    h.bind (h.ensure .decidedValueNotStored rfl) fun _ =>
      h.bind (h.bind (h.ensure .encode rfl) fun _ => h.write _) fun _ =>
        h.bind (h.markBlobMetadataDecided _) fun _ => h.bind h.getDisk fun _ =>
          h.bind (h.ofExit fun _ => ofStore_getBlobMetadata) fun _ => h.bind (h.ofExit fun _ he => ?_)
            fun _ => h.bind (h.cacheBlobRoot _ _) fun _ => hcopy
  rw [← (Exit.ofOption_eq_error.1 he).2]
  rfl

theorem commitCleanup (height : Height) (round : Round) : Q (commitCleanup height round) := by
  have hround : ∀ r, Q (dropFailedRound height r) := fun r =>
    h.bind (h.write _) fun _ => h.bind h.getDisk fun _ => h.writeAll _
  have hrounds : Q (dropFailedRounds height round) :=
    h.getMem_bind (fun _ => h.bind (h.forEach hround _) fun _ => h.modifyMem fun _ _ _ _ => rfl)
      fun _ _ _ _ => rfl
  exact h.getMem_bind (fun _ => h.bind (h.write _) fun _ => hrounds) fun _ _ _ _ => rfl

theorem commitReplay (c : CommitCertificate) : Q (commitReplay cfg c) := by
  refine h.bind (h.bind h.getDisk fun _ => h.writeAll _) fun _ => h.bind h.getDisk fun d => ?_
  split
  · exact h.cacheBlobRoot _ _
  · split
    · exact h.bind (h.attempt (h.markBlobMetadataDecided _)) fun _ => h.cacheBlobRoot _ _
    · exact h.pure _
  · exact h.pure _

theorem flushPendingPrune (height : Height) : Q (flushPendingPrune height) := by
  refine h.bind (h.modifyMem fun _ _ _ _ => rfl) fun _ => h.bind h.getDisk fun d =>
    h.bind (h.ofExit fun _ => ofStore_getBlobMetadata) fun x => ?_
  split
  · exact h.pure _
  · split
    · exact h.pure _
    · split
      · unfold pruneArchivedHeight
        split
        · exact h.pure _
        · exact h.bind (h.writeAll _) fun _ => h.bind (h.write _) fun _ =>
            h.modifyMem fun _ _ _ _ => rfl
      · exact h.modifyMem fun _ _ _ _ => rfl

theorem finishCommit (height : Height) : Q (finishCommit height) :=
  h.bind (h.modifyMem fun _ _ _ _ => rfl) fun _ =>
    h.bind (h.getMem_bind (fun _ => h.forEach h.flushPendingPrune _) fun _ _ _ _ => rfl) fun _ =>
      h.modifyMem fun _ _ _ _ => rfl

/-- **What holds of its calls holds of a commit.** -/
theorem commit (c : CommitCertificate) : Q (commit cfg c) := by
  refine h.bind (h.bind h.getDisk fun d => ?_) fun _ => h.finishCommit c.height
  split
  · exact h.bind (h.commitTables c _) fun _ => h.commitCleanup _ _
  · exact h.commitReplay c
  · refine h.ofExit (x := .error _) fun _ he => ?_
    cases he
    rfl

end CommitCalls

/-! ## Its errors -/

theorem throws_getDisk : Throws Err.OfStore getDisk := Throws.get.bind fun _ => .pure _

/-- **The errors of a commit** are those of the store. -/
theorem throws_commit (c : CommitCertificate) : Throws Err.OfStore (commit cfg c) :=
  CommitCalls.commit
    { bind := .bind
      ofExit := .ofExit
      write := .write
      modifyMem := fun _ => .modifyMem _
      getDisk := throws_getDisk
      getMem_bind := fun hk _ => (Throws.get.bind fun _ => .pure _).bind hk
      attempt := fun _ => .attempt _ } c

variable {c : CommitCertificate} {bytes : Bytes} {e : Err}

/-- So are those of all that follows an import. -/
theorem throws_afterImport (check : DecidedCheck) (status : PayloadStatus) (applied : Bool) :
    Throws Err.OfStore (do
      Prog.modifyMem (Memory.countBlock check.payload bytes)
      commit cfg c
      finishDecided cfg ⟨c.height, c.round⟩ check bytes status applied) :=
  (Throws.modifyMem _).bind fun _ => (throws_commit c).bind fun _ =>
    (total_finishDecided _ _ _ _ _ _).throws

/-- The errors of an import. -/
def Err.ofImport : Err → Bool
  | .engine | .invalidPayload | .prevRandaoMismatch | .parentHashMismatch => true
  | _ => false

theorem Err.OfStore.not_import (h : e.OfStore) : e.ofImport = false := by
  cases e <;> first | rfl | cases h

/-- No check before the import has one of these. -/
theorem checkDecided_not_import {d : Disk} {slot : Slot}
    (h : checkDecided cfg d slot bytes = .error e) : e.ofImport = false := by
  unfold checkDecided at h
  simp only [Exit.bind_eq_error, Exit.ensure_eq_error, Exit.ofOption_eq_error] at h
  rcases h with ⟨_, rfl⟩ | ⟨_, _, ⟨_, rfl⟩ | ⟨_, _, ⟨_, rfl⟩ | ⟨_, _, h⟩⟩⟩
  · rfl
  · rfl
  · rfl
  · split at h
    · cases h
    · simp only [Exit.bind_eq_error, Exit.ensure_eq_error] at h
      rcases h with ⟨_, rfl⟩ | ⟨_, _, ⟨_, rfl⟩ | ⟨_, _, h⟩⟩
      · rfl
      · rfl
      · cases h

/-- **A decision that fails with an error of the import** has passed the checks of the blobs, and fails
in the import. -/
theorem fails_import {script : EngineScript} {m m' : Machine Disk Memory}
    (h : Fails (processDecidedCertificate cfg c bytes script) m e m') (he : e.ofImport = true) :
    ∃ check, checkDecided cfg m.disk ⟨c.height, c.round⟩ bytes = .ok check ∧
      Fails (importBlock c.height check.payload script) (importing ⟨c.height, c.round⟩ check m) e m' := by
  unfold processDecidedCertificate at h
  rw [fails_getDisk_bind, fails_ofExit_bind] at h
  rcases h with ⟨herror, _⟩ | ⟨check, hcheck, h⟩
  · rw [checkDecided_not_import herror] at he
    cases he
  rcases fails_bind.1 h with hno | ⟨_, _, hpromote, h⟩
  · cases (returns_importing c check m).1.symm.trans hno.1
  obtain ⟨_, rfl⟩ := hpromote.unique (returns_importing c check m)
  refine ⟨check, hcheck, ?_⟩
  rcases fails_bind.1 h with himport | ⟨⟨status, applied⟩, m₁, _, hfails⟩
  · exact himport
  · rw [(throws_afterImport check status applied m₁ e hfails.1).not_import] at he
    cases he

/-! ## What it does not read -/

/-- **A commit does not depend on the engine.** -/
theorem blind_commit {x : Height → Height} {y : Bool → Bool} {z : Option B256 → Option B256}
    (c : CommitCertificate) : Ignores (Memory.mapEngine x y z) (commit cfg c) :=
  CommitCalls.commit (Q := Ignores (Memory.mapEngine x y z))
    { bind := .bind
      ofExit := fun _ => .ofExit _
      write := .write
      modifyMem := fun hg => .modifyMem (hg x y z)
      getDisk := .get_bind (fun _ => .pure _) fun _ => rfl
      getMem_bind := fun {_ k} hk hsame m => by
        have hmem : k (mapMem (Memory.mapEngine x y z) m).mem = k m.mem := hsame x y z m.mem
        rw [run_getMem_bind, run_getMem_bind, hmem]
        exact hk m.mem m
      attempt := .attempt } c

theorem unaware_commit (c : CommitCertificate) : Unaware (commit cfg c) :=
  blind_commit (x := id) (y := fun _ => true) (z := fun _ => none) c

/-- **A commit leaves the record of the engine alone.** -/
theorem engine_of_commit {c : CommitCertificate} {m m' : Machine Disk Memory} {u : Unit}
    (h : Returns (commit cfg c) m u m') :
    m'.mem.executedHeight = m.mem.executedHeight ∧ m'.mem.elDegraded = m.mem.elDegraded := by
  -- writing its own values into the record changes nothing
  obtain ⟨m₁, _, rfl⟩ := (blind_commit (x := fun _ => m.mem.executedHeight)
    (y := fun _ => m.mem.elDegraded) (z := fun _ => m.mem.lastFcuHead) c).returns (m := m) h
  exact ⟨rfl, rfl⟩

end Ultramarine
