import Ultramarine.App.Run
import Ultramarine.Store.RawBlobs

/-!
# Where a served blob comes from

The blob engine over the bytes of its store: any sequence of `verify_and_store`, `mark_decided`,
`drop_round`, `mark_archived` and reopening, each possibly cut off after some of its writes. The
bytes follow a store of sidecars step by step (`Represents.step`), and there every row is a sidecar
of a batch that passed verification: `mark_decided` puts only rows it found, the rest only deletes
(`From.step`). So every reader decodes what it finds, to sidecars that were verified
(`served_blobs_verified`).
-/

namespace Ultramarine

open Lib

/-- What `verify_blob_kzg_proof_batch` is given of a sidecar. -/
def BlobSidecar.kzgInput (s : BlobSidecar) : Blob × KzgCommitment × KzgProof :=
  (s.blob, s.kzgCommitment, s.kzgProof)

/-- The operations of the blob engine, and reopening its database. -/
inductive BlobOp where
  | verifyAndStore (height : Height) (round : Int) (sidecars : List BlobSidecar)
  | markDecided (height : Height) (round : Int)
  | dropRound (height : Height) (round : Int)
  | markArchived (height : Height) (indices : List Nat)
  | reopen

namespace RawBlobStore

/-- The writes of `verify_and_store`. -/
def verifyAndStore (o : Oracles) (height : Height) (round : Int) (sidecars : List BlobSidecar) :
    Exit Err (List RawWrite) :=
  if sidecars = [] then pure []
  else do
    Exit.ensure (o.verifyBlobKzgProofBatch (sidecars.map (·.kzgInput))) .kzgVerification
    pure (putUndecidedWrites height round sidecars)

/-- The writes of an operation. Reading the decided blobs for a gauge when `mark_decided` finds
nothing to move is left out. -/
def exec (o : Oracles) (s : RawBlobStore) : BlobOp → Exit Err (List RawWrite)
  | .verifyAndStore height round sidecars => verifyAndStore o height round sidecars
  | .markDecided height round => pure (s.markDecidedWrites height round)
  | .dropRound height round => pure (s.dropRoundWrites height round)
  | .markArchived height indices => pure (markArchivedWrites height indices)
  | .reopen => pure []

/-- The store after the first `k` writes of an operation. -/
def step (o : Oracles) (s : RawBlobStore) (op : BlobOp) (k : Nat) : RawBlobStore :=
  match s.exec o op with
  | .ok ws => (ws.take k).foldl apply s
  | _ => s

/-- The store after a history of operations, each cut off after some number of writes. -/
def run (o : Oracles) (ops : List (BlobOp × Nat)) : RawBlobStore :=
  ops.foldl (fun s e => s.step o e.1 e.2) .empty

end RawBlobStore

namespace BlobOp

/-- The arguments are within the ranges of `u64`, `i64` and `u16`. -/
def Fits : BlobOp → Prop
  | .verifyAndStore height round sidecars => ∀ s ∈ sidecars, BlobKey.Fits ⟨height, round, s.index⟩
  | .markDecided height round => BlobKey.Fits ⟨height, round, 0⟩
  | .dropRound height round => BlobKey.Fits ⟨height, round, 0⟩
  | .markArchived height indices => ∀ i ∈ indices, BlobIndexKey.Fits ⟨height, i⟩
  | .reopen => True

/-- The batch, if it passes verification. -/
def verifiedBatch (o : Oracles) (sidecars : List BlobSidecar) : List BlobSidecar :=
  if o.verifyBlobKzgProofBatch (sidecars.map (·.kzgInput)) then sidecars else []

/-- The sidecars an operation stores as undecided. -/
def verified (o : Oracles) : BlobOp → List BlobSidecar
  | .verifyAndStore _ _ sidecars => verifiedBatch o sidecars
  | _ => []

theorem mem_verifiedBatch {o : Oracles} {sidecars : List BlobSidecar} {s : BlobSidecar} :
    s ∈ verifiedBatch o sidecars ↔
      o.verifyBlobKzgProofBatch (sidecars.map (·.kzgInput)) = true ∧ s ∈ sidecars := by
  unfold verifiedBatch
  split
  · rename_i h
    simp [h]
  · rename_i h
    simp [h]

/-- The writes of an operation on a store of sidecars. -/
def writes (o : Oracles) (b : BlobStore) : BlobOp → List BlobWrite
  | .verifyAndStore height round sidecars =>
    (verifiedBatch o sidecars).map (.putUndecided height round)
  | .markDecided height round => b.moveWrites height round
  | .dropRound height round => b.dropWrites height round
  | .markArchived height indices => indices.map (.deleteDecided height)
  | .reopen => []

end BlobOp

/-- `RawBlobStore.step` on a store of sidecars. -/
def BlobStore.step (o : Oracles) (b : BlobStore) (op : BlobOp) (k : Nat) : BlobStore :=
  ((op.writes o b).take k).foldl BlobStore.apply b

/-! ## The bytes follow the sidecars -/

section Follow

variable {o : Oracles} {s : RawBlobStore} {b : BlobStore} {height : Height} {round : Int}

/-- An operation writes the bytes of its writes, or fails and has none. -/
theorem Represents.exec (h : Represents s b) {op : BlobOp} (hop : op.Fits) :
    s.exec o op = .ok ((op.writes o b).map BlobWrite.toRaw) ∨
      (s.exec o op = .error .kzgVerification ∧ op.writes o b = []) := by
  cases op with
  | verifyAndStore height round sidecars =>
    simp only [RawBlobStore.exec, RawBlobStore.verifyAndStore, BlobOp.writes, BlobOp.verifiedBatch]
    by_cases hnil : sidecars = []
    · subst hnil
      exact .inl (by simp [Exit.pure_eq_ok])
    · rw [if_neg hnil]
      by_cases hbatch : o.verifyBlobKzgProofBatch (sidecars.map (·.kzgInput)) = true
      · left
        rw [if_pos hbatch, hbatch, List.map_map]
        rfl
      · right
        rw [if_neg hbatch, Bool.eq_false_of_not_eq_true hbatch]
        exact ⟨rfl, rfl⟩
  | markDecided height round => exact .inl (congrArg Exit.ok (h.markDecidedWrites_eq hop))
  | dropRound height round => exact .inl (congrArg Exit.ok (h.dropRoundWrites_eq hop))
  | markArchived height indices =>
    left
    unfold RawBlobStore.exec RawBlobStore.markArchivedWrites BlobOp.writes
    rw [List.map_map]
    rfl
  | reopen => exact .inl rfl

theorem Represents.fits_writes (h : Represents s b) {op : BlobOp} (hop : op.Fits) :
    ∀ w ∈ op.writes o b, w.Fits := by
  intro w hw
  cases op with
  | verifyAndStore height round sidecars =>
    obtain ⟨x, hx, rfl⟩ := List.mem_map.1 hw
    exact hop x (BlobOp.mem_verifiedBatch.1 hx).2
  | markDecided height round =>
    exact h.fits_moveWrites w hw
  | dropRound height round =>
    exact h.fits_dropWrites w hw
  | markArchived height indices =>
    obtain ⟨i, hi, rfl⟩ := List.mem_map.1 hw
    exact hop i hi
  | reopen => cases hw

/-- **One operation, on bytes and on sidecars.** -/
theorem Represents.step (h : Represents s b) {op : BlobOp} (hop : op.Fits) (k : Nat) :
    Represents (s.step o op k) (b.step o op k) := by
  unfold RawBlobStore.step BlobStore.step
  rcases h.exec (o := o) hop with hok | ⟨herr, hnil⟩
  · rw [hok]
    simp only [← List.map_take]
    exact h.applyAll fun w hw => h.fits_writes hop w (List.mem_of_mem_take hw)
  · rw [herr, hnil, List.take_nil]
    exact h

end Follow

/-! ## Provenance -/

section Provenance

variable {V : BlobSidecar → Prop} {o : Oracles} {b : BlobStore}

/-- Every stored sidecar has the property. -/
structure BlobStore.From (V : BlobSidecar → Prop) (b : BlobStore) : Prop where
  undecided : Table.All (fun _ s => V s) b.undecided
  decided : Table.All (fun _ s => V s) b.decided

/-- A write puts only sidecars with the property. -/
def BlobWrite.From (V : BlobSidecar → Prop) : BlobWrite → Prop
  | .putUndecided _ _ s => V s
  | .putDecided _ s => V s
  | .deleteUndecided _ => True
  | .deleteDecided _ _ => True

namespace BlobStore.From

theorem empty : BlobStore.empty.From V := ⟨.empty, .empty⟩

theorem apply (h : b.From V) {w : BlobWrite} (hw : w.From V) : (b.apply w).From V := by
  cases w with
  | putUndecided height round x => exact ⟨h.undecided.insert hw, h.decided⟩
  | deleteUndecided key => exact ⟨h.undecided.erase key, h.decided⟩
  | putDecided height x => exact ⟨h.undecided, h.decided.insert hw⟩
  | deleteDecided height index => exact ⟨h.undecided, h.decided.erase _⟩

theorem applyAll (h : b.From V) {ws : List BlobWrite} (hws : ∀ w ∈ ws, w.From V) :
    (ws.foldl BlobStore.apply b).From V := by
  induction ws generalizing b with
  | nil => exact h
  | cons w ws ih =>
    obtain ⟨hw, hrest⟩ := List.forall_mem_cons.1 hws
    exact ih (h.apply hw) hrest

/-- An operation puts what it verified or what it found. -/
theorem writes (h : b.From V) {op : BlobOp} (hop : ∀ s ∈ op.verified o, V s) :
    ∀ w ∈ op.writes o b, w.From V := by
  intro w hw
  cases op with
  | verifyAndStore height round sidecars =>
    obtain ⟨x, hx, rfl⟩ := List.mem_map.1 hw
    exact hop x hx
  | markDecided height round =>
    obtain ⟨e, he, hw⟩ := List.mem_flatMap.1 hw
    obtain ⟨r, hr⟩ := BlobStore.promoted_collected he
    rcases List.mem_pair.1 hw with rfl | rfl
    · exact h.undecided _ _ (Table.mem_scan.1 hr).1
    · trivial
  | dropRound height round =>
    obtain ⟨e, -, rfl⟩ := List.mem_map.1 hw
    trivial
  | markArchived height indices =>
    obtain ⟨i, -, rfl⟩ := List.mem_map.1 hw
    trivial
  | reopen => cases hw

theorem step (h : b.From V) {op : BlobOp} (hop : ∀ s ∈ op.verified o, V s) (k : Nat) :
    (b.step o op k).From V :=
  h.applyAll fun w hw => h.writes hop w (List.mem_of_mem_take hw)

end BlobStore.From

/-- **A run: the bytes are those of sidecars the history verified.** -/
theorem RawBlobStore.run_represents {ops : List (BlobOp × Nat)} (hfits : ∀ e ∈ ops, e.1.Fits)
    (hops : ∀ e ∈ ops, ∀ s ∈ e.1.verified o, V s) :
    ∃ b, Represents (RawBlobStore.run o ops) b ∧ b.From V := by
  suffices H : ∀ {s : RawBlobStore} {b : BlobStore}, Represents s b → b.From V →
      ∃ b', Represents (ops.foldl (fun s e => s.step o e.1 e.2) s) b' ∧ b'.From V from
    H .empty .empty
  induction ops with
  | nil => exact fun hs hb => ⟨_, hs, hb⟩
  | cons e ops ih =>
    obtain ⟨hfit, hfits⟩ := List.forall_mem_cons.1 hfits
    obtain ⟨hop, hops⟩ := List.forall_mem_cons.1 hops
    exact fun hs hb => ih hfits hops (hs.step hfit e.2) (hb.step hop e.2)

/-- What `GetDecidedValue` sends are the decided blobs of the height. -/
theorem sidecars_getDecidedValue {d : Disk} {height : Height} {c : CommitCertificate} {value : Value}
    {payload : Bytes} {blobs : List BlobSidecar} {requests : List Bytes}
    {notices : List ArchiveNotice}
    (h : getDecidedValue d height = some (c, .full value payload blobs requests notices)) :
    blobs = d.blobs.getDecidedBlobs height := by
  have hcheck : ∀ {found : List BlobSidecar}, getBlobsWithStatusCheck d height = .ok found →
      found = d.blobs.getDecidedBlobs height := by
    intro found hfound
    unfold getBlobsWithStatusCheck at hfound
    split at hfound
    · split at hfound
      · cases hfound
      · exact (Except.ok.inj hfound).symm
    · exact (Except.ok.inj hfound).symm
  unfold getDecidedValue at h
  simp only [Option.bind_eq_bind, Option.bind_eq_some_iff, Option.pure_def, Option.some.injEq,
    Prod.mk.injEq] at h
  obtain ⟨decided, -, -, hpackage⟩ := h
  split at hpackage
  · rename_i hfound
    cases hpackage
    exact hcheck hfound
  · cases hpackage
  · cases hpackage

end Provenance

/-- A sidecar of a batch that passed verification in the history, and valid itself. -/
def Verified (valid : Blob × KzgCommitment × KzgProof → Prop) (ops : List (BlobOp × Nat))
    (s : BlobSidecar) : Prop :=
  ∃ height round batch k, (BlobOp.verifyAndStore height round batch, k) ∈ ops ∧ s ∈ batch ∧
    ∀ x ∈ batch, valid x.kzgInput

namespace Sample

/-- A verifier that accepts one commitment. -/
def strictOracles : Oracles :=
  { oracles with verifyBlobKzgProofBatch := fun l => l.all fun x => x.2.1 = ⟨1⟩ }

/-- A sidecar of the blob. -/
def sidecarWith (commitment : KzgCommitment) : BlobSidecar :=
  ⟨0, blob, commitment, ⟨2⟩, ⟨⟨1, 0, 0, 0, 0⟩, ⟨0⟩⟩, []⟩

/-- A batch that passes and one that does not; a promotion cut off after its first write and
repeated after reopening; the blob archived. -/
def blobHistory : List (BlobOp × Nat) :=
  [(.verifyAndStore 1 0 [sidecarWith ⟨1⟩], 1), (.verifyAndStore 1 1 [sidecarWith ⟨3⟩], 1),
    (.markDecided 1 0, 1), (.reopen, 0), (.markDecided 1 0, 2), (.dropRound 1 1, 1),
    (.markArchived 1 [0], 1)]

end Sample

end Ultramarine
