import Ultramarine.App.Run

/-!
# The blobs of a received proposal

`assemble_and_store_blobs` makes the commitments of a value from the sidecars of the proposal, in the
order in which they stand there. `verify_blob_sidecars` then compares the commitment of every sidecar
with the one at its index, and `put_undecided_blobs` writes the blobs under their indices. No step
looks at the indices themselves: a sender that repeats a commitment can repeat the index with it, and
the store keeps one blob of the two. A round that already has blobs keeps those that are not written
over.

Result: `accepted_blobs_iff`: an accepted list of sidecars has the indices of its commitments, and the
round holds exactly the blobs of the value, if and only if no index is repeated and the round had no
blob beyond the list.
-/

namespace Ultramarine

open Lib Ssz

section Accepted

variable {cfg : Config} {d : Disk} {latestBlock : Option ExecutionBlock} {now : Nat}
  {parts : ProposalParts} {payload : ExecutionPayloadV3} {metadata : ValueMetadata}
  {parentRoot : B256} {a : Assembled}

/-- All that an assembled proposal can miss is that its indices differ. -/
theorem AssembledFrom.fits
    (h : AssembledFrom cfg d latestBlock now parts payload metadata parentRoot a)
    (hnodup : (parts.sidecars.map (·.index)).Nodup) :
    Fits parts.sidecars metadata.blobKzgCommitments := by
  obtain ⟨hcommitments, hindex⟩ := h.commitment_eq
  exact ⟨by rw [hcommitments, List.length_map], hnodup, hindex⟩

theorem AssembledFrom.length_commitments
    (h : AssembledFrom cfg d latestBlock now parts payload metadata parentRoot a) :
    metadata.blobKzgCommitments.length = parts.sidecars.length := by
  rw [h.commitment_eq.1, List.length_map]

end Accepted

/-- **The blobs of an accepted proposal.** The indices of the sidecars are those of the commitments and
the round then holds exactly the blobs of the value, if and only if no index is repeated and the round
had no blob at an index beyond the list. -/
theorem accepted_blobs_iff {cfg : Config} {now : Nat} {parts : ProposalParts} {a : Assembled}
    {m m' : Machine Disk Memory}
    (h : Prog.Returns (assembleAndStoreBlobs cfg now parts) m a m') :
    ((parts.sidecars.map (·.index)).Perm (List.range parts.sidecars.length) ∧
      (m'.disk.blobs.getUndecidedBlobs parts.height parts.round.asI64).length =
        parts.sidecars.length ∧
      (m'.disk.blobs.getUndecidedBlobs parts.height parts.round.asI64).map (·.kzgCommitment) =
        a.value.value.metadata.blobKzgCommitments) ↔
    (parts.sidecars.map (·.index)).Nodup ∧
      m.disk.blobs.Below parts.height parts.round.asI64 parts.sidecars.length := by
  obtain ⟨ha, _, rfl⟩ := returns_assembleAndStoreBlobs.1 h
  obtain ⟨payload, metadata, parentRoot, hfrom⟩ := assemble_eq_ok.1 ha
  have hlength := hfrom.length_commitments
  have hvalue : a.value.value.metadata = metadata := by
    rw [hfrom.value_eq]
    rfl
  rw [hvalue, hfrom.sidecars_eq]
  dsimp only
  constructor
  · rintro ⟨hperm, hcount, _⟩
    have hnodup := hperm.nodup_iff.2 List.nodup_range
    refine ⟨hnodup, ?_⟩
    rw [← hlength] at hcount ⊢
    exact BlobStore.below_of_length (hfrom.fits hnodup) hcount
  · rintro ⟨hnodup, hbelow⟩
    have hfits := hfrom.fits hnodup
    rw [← hlength] at hbelow
    have hcommitments := (BlobStore.holds_putAll_of_below hfits hbelow).map_getUndecidedBlobs
    refine ⟨hlength ▸ hfits.perm_range, ?_, hcommitments⟩
    rw [← hlength, ← hcommitments, List.length_map]

namespace Sample

/-- The header of a block with two blobs that have the same commitment, signed by validator 2. -/
def twinsHeader : SignedBeaconBlockHeader :=
  signHeader (config 2) ⟨1, 1, BlobMetadata.genesis.computeBlobRoot oracles, 0,
    computeBodyRoot oracles (fromUltramarineData oracles [⟨1⟩, ⟨1⟩]
      (fromPayload oracles (payload 1 0 1 2) (some 3)))⟩

/-- Sidecars of the block, with these indices. -/
def twins (indices : List Nat) : List BlobSidecar :=
  indices.map fun i => sidecarOf oracles [⟨1⟩, ⟨1⟩] (fromPayload oracles (payload 1 0 1 2) (some 3))
    twinsHeader i (blob, ⟨1⟩, ⟨2⟩)

/-- The proposal of validator 2 with these sidecars. -/
def twinsParts (indices : List Nat) : ProposalParts :=
  ⟨1, .some 0, ⟨2⟩, makeProposalParts (config 2) ⟨1, .some 0, blobValue⟩ [1, 0, 1, 2] (twins indices)
    [] ⟨2⟩⟩

/-- It arrives at the node of validator 1. -/
def assembled (indices : List Nat) : Outcome Disk Memory Write Err Assembled :=
  (assembleAndStoreBlobs (config 1) 1 (twinsParts indices)).run (node 1 [.start]).machine

/-- The commitments of the value, if the proposal is accepted. -/
def acceptedCommitments (outcome : Outcome Disk Memory Write Err Assembled) :
    Option (List KzgCommitment) :=
  match outcome.exit with
  | .ok a => some a.value.value.metadata.blobKzgCommitments
  | _ => none

theorem returns_assembled {indices : List Nat} {commitments : List KzgCommitment}
    (h : acceptedCommitments (assembled indices) = some commitments) :
    ∃ a, Prog.Returns (assembleAndStoreBlobs (config 1) 1 (twinsParts indices))
      (node 1 [.start]).machine a (assembled indices).state ∧
      a.value.value.metadata.blobKzgCommitments = commitments := by
  unfold acceptedCommitments at h
  split at h
  · rename_i a ha
    exact ⟨a, ⟨ha, rfl⟩, Option.some.inj h⟩
  · cases h

/-- Both lists of sidecars are accepted; one evaluation for the two. -/
theorem accepted_twins :
    acceptedCommitments (assembled [1, 0]) = some [⟨1⟩, ⟨1⟩] ∧
      acceptedCommitments (assembled [0, 0]) = some [⟨1⟩, ⟨1⟩] ∧
      ((assembled [0, 0]).state.disk.blobs.getUndecidedBlobs 1 0).map (·.index) = [0] ∧
      (node 1 [.start]).machine.disk = ⟨started, .empty⟩ := by
  decide +kernel

end Sample

open Sample in
/-- The two sidecars in the order 1, 0. -/
theorem accepted_blobs_iff_reversed :
    acceptedCommitments (assembled [1, 0]) = some [⟨1⟩, ⟨1⟩] ∧
      ((assembled [1, 0]).state.disk.blobs.getUndecidedBlobs (twinsParts [1, 0]).height
        (twinsParts [1, 0]).round.asI64).map (·.kzgCommitment) = [⟨1⟩, ⟨1⟩] := by
  obtain ⟨haccepted, _, _, hdisk⟩ := accepted_twins
  obtain ⟨a, hreturns, hcommitments⟩ := returns_assembled haccepted
  have hindices : (twinsParts [1, 0]).sidecars.map (·.index) = [1, 0] := rfl
  have hblobs := (accepted_blobs_iff hreturns).2
    ⟨by rw [hindices]; decide, fun i _ => by rw [hdisk]; rfl⟩
  rw [hcommitments] at hblobs
  exact ⟨haccepted, hblobs.2.2⟩

open Sample in
/-- **An accepted proposal with a blob too few.** The sidecar of index 0 sent twice: two commitments,
one blob. -/
theorem accepted_blobs_merged :
    acceptedCommitments (assembled [0, 0]) = some [⟨1⟩, ⟨1⟩] ∧
      (twinsParts [0, 0]).sidecars.map (·.index) = [0, 0] ∧
      ((assembled [0, 0]).state.disk.blobs.getUndecidedBlobs 1 0).map (·.index) = [0] :=
  ⟨accepted_twins.2.1, rfl, accepted_twins.2.2.1⟩

end Ultramarine
