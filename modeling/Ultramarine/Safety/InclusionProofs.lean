import Ultramarine.Safety.RootBinding

/-!
# Inclusion proofs of commitments

`generate_kzg_commitment_inclusion_proof` and `verify_kzg_commitment_inclusion_proof` of
`ethereum_compat/merkle.rs` against `compute_body_root`. The prover builds padded trees of its own, the
body root comes from incremental merkleizers with a case of its own for the empty list; both are the
same two-level tree.

Results:

* `inclusion_proof_complete`: every commitment of a list within the limit has a proof of 17 siblings that
  verifies against the body root of the list;
* `proof_evaluators_agree`: the verifier and `reconstruct_roots_from_proof` of the consensus state, each
  with a loop and guards of its own, accept the same proofs;
* `inclusion_proof_sound`: whatever verifies against the body root of a list is in the list at that index,
  as far as no two of the pairs hashed collide and none of those the verifier hashes is the zero chunk.
-/

namespace Ultramarine

open Lib Ssz

/-- **Completeness.** -/
theorem inclusion_proof_complete (o : Oracles) (commitments : List KzgCommitment)
    (header : ExecutionPayloadHeader) (hlen : commitments.length ≤ maxBlobCommitmentsPerBlock)
    (index : Nat) (hindex : index < commitments.length) :
    ∃ proof, generateProof o commitments index (fromUltramarineData o commitments header) = .ok proof ∧
      proof.length = 17 ∧
      verifyProof o commitments[index] proof index
        (computeBodyRoot o (fromUltramarineData o commitments header)) = true := by
  refine ⟨_, generateProof_ok hlen hindex _, length_inclusionBranch _ _ _, ?_⟩
  exact verifyProof_inclusionBranch hlen (List.getElem?_eq_getElem hindex) header

/-- **Soundness.** -/
theorem inclusion_proof_sound (o : Oracles) (commitments : List KzgCommitment)
    (header : ExecutionPayloadHeader) (commitment : KzgCommitment) (proof : List B256) (index : Nat)
    (hfree : Merkle.CollisionFree o.hash32Concat
      (bodyPairs o (fromUltramarineData o commitments header) ++ proofPairs o commitment proof index))
    (havoid : Merkle.Avoids o.hash32Concat 0
      (bodyPairs o (fromUltramarineData o commitments header) ++ proofPairs o commitment proof index))
    (h : verifyProof o commitment proof index
      (computeBodyRoot o (fromUltramarineData o commitments header)) = true) :
    ∃ hindex : index < commitments.length, commitments[index] = commitment :=
  List.getElem?_eq_some_iff.1
    (verifyProof_sound hfree (havoid.mono fun _ => List.mem_append_right _) h)

/-! ## The two evaluators -/

/-- `merkle_root_from_branch` of `ethereum_compat/merkle.rs`; the loop keeps the value and the index. -/
def EthereumCompat.merkleRootFromBranch (o : Oracles) (value : B256) (branch : List B256)
    (index : Nat) : B256 :=
  (branch.foldl (fun (value, index) sibling =>
    if index &&& 1 = 1 then (o.hash32Concat sibling value, index >>> 1)
    else (o.hash32Concat value sibling, index >>> 1)) (value, index)).1

/-- `verify_kzg_commitment_inclusion_proof`, with all of its guards. -/
def EthereumCompat.verifyKzgCommitmentInclusionProof (o : Oracles) (commitment : KzgCommitment)
    (proof : List B256) (index : Nat) (bodyRoot : B256) : Bool :=
  let branchLength := commitmentsDepth + 1
  if proof.length ≠ kzgCommitmentInclusionProofDepth ∨
      kzgCommitmentInclusionProofDepth < branchLength ∨ maxBlobCommitmentsPerBlock ≤ index then false
  else
    let (commitmentBranch, bodyBranch) := proof.splitAt branchLength
    if commitmentBranch.length ≠ branchLength ∨
        commitmentBranch.length + bodyBranch.length ≠ kzgCommitmentInclusionProofDepth then false
    else
      let commitmentsRoot := EthereumCompat.merkleRootFromBranch o (commitmentRoot o commitment)
        commitmentBranch index
      EthereumCompat.merkleRootFromBranch o commitmentsRoot bodyBranch blobKzgCommitmentsIndex ==
        bodyRoot

/-- The errors of `reconstruct_roots_from_proof`, with the numbers they print. -/
inductive RootsError where
  | metadata (length branchLength index : Nat)
  | branchSizing (commitmentBranch bodyBranch total : Nat)
deriving DecidableEq, Repr

/-- `merkle_root_from_branch` of `consensus/src/state.rs`. -/
def Consensus.merkleRootFromBranch (o : Oracles) (value : B256) (branch : List B256) (index : Nat) :
    B256 :=
  (branch.foldl (fun (value, index) sibling =>
    if index &&& 1 = 1 then (o.hash32Concat sibling value, index >>> 1)
    else (o.hash32Concat value sibling, index >>> 1)) (value, index)).1

/-- `reconstruct_roots_from_proof`, with all of its guards. -/
def Consensus.reconstructRootsFromProof (o : Oracles) (commitment : KzgCommitment)
    (proof : List B256) (index : Nat) : Except RootsError (B256 × B256) :=
  let branchLength := commitmentsDepth + 1
  if proof.length ≠ kzgCommitmentInclusionProofDepth ∨
      kzgCommitmentInclusionProofDepth < branchLength ∨ maxBlobCommitmentsPerBlock ≤ index then
    .error (.metadata proof.length branchLength index)
  else
    let (commitmentBranch, bodyBranch) := proof.splitAt branchLength
    if commitmentBranch.length ≠ branchLength ∨
        commitmentBranch.length + bodyBranch.length ≠ kzgCommitmentInclusionProofDepth then
      .error (.branchSizing commitmentBranch.length bodyBranch.length proof.length)
    else
      let commitmentsRoot := Consensus.merkleRootFromBranch o (commitmentRoot o commitment)
        commitmentBranch index
      .ok (commitmentsRoot,
        Consensus.merkleRootFromBranch o commitmentsRoot bodyBranch blobKzgCommitmentsIndex)

section Evaluators

variable {o : Oracles} {proof : List B256} {index : Nat}

/-- The loop of either copy evaluates the branch. -/
theorem EthereumCompat.merkleRootFromBranch_eq (branch : List B256) (value : B256) (index : Nat) :
    EthereumCompat.merkleRootFromBranch o value branch index =
      Merkle.foldBranch o.hash32Concat value branch index := by
  induction branch generalizing value index with
  | nil => rfl
  | cons sibling branch ih =>
    unfold EthereumCompat.merkleRootFromBranch at ih ⊢
    have hbit : (index &&& 1 = 1) = (index % 2 = 1) := by rw [Nat.and_one_is_mod]
    have hhalf : index >>> 1 = index / 2 := Nat.shiftRight_eq_div_pow index 1
    simp only [List.foldl_cons, Merkle.foldBranch, hbit, hhalf]
    split <;> exact ih _ _

theorem Consensus.merkleRootFromBranch_eq (branch : List B256) (value : B256) (index : Nat) :
    Consensus.merkleRootFromBranch o value branch index =
      Merkle.foldBranch o.hash32Concat value branch index :=
  EthereumCompat.merkleRootFromBranch_eq branch value index

/-- The second guard has nothing left to refuse. -/
theorem splitAt_lengths (h : proof.length = kzgCommitmentInclusionProofDepth) :
    (proof.take (commitmentsDepth + 1)).length = commitmentsDepth + 1 ∧
      (proof.take (commitmentsDepth + 1)).length + (proof.drop (commitmentsDepth + 1)).length =
        kzgCommitmentInclusionProofDepth := by
  rw [List.length_take, List.length_drop, h]
  decide

theorem EthereumCompat.verify_eq (commitment : KzgCommitment) (bodyRoot : B256) :
    EthereumCompat.verifyKzgCommitmentInclusionProof o commitment proof index bodyRoot =
      verifyProof o commitment proof index bodyRoot := by
  have hdepth : ¬ kzgCommitmentInclusionProofDepth < commitmentsDepth + 1 := by decide
  unfold EthereumCompat.verifyKzgCommitmentInclusionProof verifyProof
  simp only [hdepth, false_or, List.splitAt_eq, EthereumCompat.merkleRootFromBranch_eq]
  split
  · rfl
  · rename_i hguard
    obtain ⟨hlength, htotal⟩ := splitAt_lengths (not_not.1 (not_or.1 hguard).1)
    rw [if_neg (not_or.2 ⟨not_not.2 hlength, not_not.2 htotal⟩)]

theorem Consensus.reconstruct_eq_ok (commitment : KzgCommitment) (roots : B256 × B256) :
    Consensus.reconstructRootsFromProof o commitment proof index = .ok roots ↔
      reconstructRoots o commitment proof index = .ok roots := by
  have hdepth : ¬ kzgCommitmentInclusionProofDepth < commitmentsDepth + 1 := by decide
  unfold Consensus.reconstructRootsFromProof reconstructRoots
  simp only [hdepth, false_or, List.splitAt_eq, Consensus.merkleRootFromBranch_eq]
  split
  · simp
  · rename_i hguard
    obtain ⟨hlength, htotal⟩ := splitAt_lengths (not_not.1 (not_or.1 hguard).1)
    rw [if_neg (not_or.2 ⟨not_not.2 hlength, not_not.2 htotal⟩)]
    simp

end Evaluators

/-- **The two evaluators agree** on every commitment, proof, index and body root, and both refuse what is
not 17 siblings long or beyond the last index. -/
theorem proof_evaluators_agree (o : Oracles) (commitment : KzgCommitment) (proof : List B256)
    (index : Nat) (bodyRoot : B256) :
    (EthereumCompat.verifyKzgCommitmentInclusionProof o commitment proof index bodyRoot = true ↔
        ∃ listRoot, Consensus.reconstructRootsFromProof o commitment proof index =
          .ok (listRoot, bodyRoot)) ∧
      (proof.length ≠ 17 ∨ 4096 ≤ index →
        EthereumCompat.verifyKzgCommitmentInclusionProof o commitment proof index bodyRoot = false ∧
          Consensus.reconstructRootsFromProof o commitment proof index =
            .error (.metadata proof.length 13 index)) := by
  refine ⟨?_, fun hrefused => ⟨?_, ?_⟩⟩
  · rw [EthereumCompat.verify_eq, verifyProof_eq]
    exact exists_congr fun listRoot => (Consensus.reconstruct_eq_ok commitment _).symm
  · exact if_pos (hrefused.imp_right .inr)
  · exact if_pos (hrefused.imp_right .inr)

namespace Sample

/-- The commitment of a block with one blob. -/
def loneCommitment : KzgCommitment := ⟨7⟩

/-- The body of that block. -/
def loneBody : BeaconBlockBodyMinimal := fromUltramarineData mixing [loneCommitment] (headerWith 5 0)

/-- The root of its commitments before the length is mixed in, after `k` levels. -/
def loneSide (k : Nat) : B256 :=
  Merkle.loneRoot mixing.hash32Concat 0 (commitmentRoot mixing loneCommitment) k

/-- The pairs hashed for its root, one of each kind on every level of the commitments tree. -/
def lonePairs : List (B256 × B256) :=
  Merkle.pairs mixing.hash32Concat 0 bodyDepth
      (bodyMerkleLeaves mixing loneBody (mixInLength mixing (loneSide 12) 1)) ++
    ((loneSide 12, u64ToBytes32 1) ::
      (commitmentPairs mixing loneCommitment ++ (List.range 12).flatMap fun k =>
        [(loneSide k, Merkle.zeroRoot mixing.hash32Concat 0 k),
          (Merkle.zeroRoot mixing.hash32Concat 0 k, Merkle.zeroRoot mixing.hash32Concat 0 k)]))

theorem loneSide_eq : Merkle.root mixing.hash32Concat 0 commitmentsDepth
    [commitmentRoot mixing loneCommitment] = loneSide 12 := Merkle.root_singleton 12

theorem mem_lonePairs {p : B256 × B256} (h : p ∈ bodyPairs mixing loneBody) : p ∈ lonePairs := by
  have hroot : treeHashKzgCommitments mixing [loneCommitment] =
      mixInLength mixing (loneSide 12) 1 := by
    rw [← loneSide_eq]
    rfl
  unfold lonePairs
  rw [← hroot]
  rcases List.mem_append.1 h with h | h
  · exact List.mem_append_left _ h
  refine List.mem_append_right _ ?_
  rcases List.mem_append.1 h with h | h
  · rcases List.mem_cons.1 h with rfl | h
    · rw [← loneSide_eq]
      exact List.mem_cons_self
    · obtain ⟨k, hk, hp⟩ := Merkle.mem_pairs_singleton h
      refine List.mem_cons_of_mem _ (List.mem_append_right _ (List.mem_flatMap.2
        ⟨k, List.mem_range.2 hk, ?_⟩))
      rcases hp with rfl | rfl
      · exact List.mem_cons_self
      · exact List.mem_cons_of_mem _ (List.mem_singleton.2 rfl)
  · obtain ⟨c, hc, hp⟩ := List.mem_flatMap.1 h
    rw [List.mem_singleton.1 hc] at hp
    exact List.mem_cons_of_mem _ (List.mem_append_left _ hp)

theorem ideal_lonePairs : Merkle.CollisionFree mixing.hash32Concat lonePairs ∧
    Merkle.Avoids mixing.hash32Concat 0 lonePairs :=
  ⟨.of_pairwise (by decide +kernel), by decide +kernel⟩

end Sample

open Sample in
/-- The only commitment of a list. -/
theorem inclusion_proof_complete_lone : ∃ proof,
    generateProof mixing [loneCommitment] 0 loneBody = .ok proof ∧ proof.length = 17 ∧
      verifyProof mixing loneCommitment proof 0 (computeBodyRoot mixing loneBody) = true :=
  inclusion_proof_complete mixing [loneCommitment] (headerWith 5 0) (by decide) 0 (by decide)

open Sample in
/-- The proof of the only commitment of a list. -/
theorem inclusion_proof_sound_lone : ∃ h : 0 < [loneCommitment].length,
    [loneCommitment][0] = loneCommitment := by
  have hget : [loneCommitment][0]? = some loneCommitment := rfl
  have hsub : ∀ p ∈ bodyPairs mixing loneBody ++ proofPairs mixing loneCommitment
      (inclusionBranch mixing [loneCommitment] 0 loneBody) 0, p ∈ lonePairs := by
    intro p hp
    rcases List.mem_append.1 hp with hp | hp
    · exact mem_lonePairs hp
    · exact mem_lonePairs (mem_bodyPairs_of_proof (by decide) hget hp)
  exact inclusion_proof_sound mixing [loneCommitment] (headerWith 5 0) loneCommitment
    (inclusionBranch mixing [loneCommitment] 0 loneBody) 0 (ideal_lonePairs.1.mono hsub)
    (ideal_lonePairs.2.mono hsub) (verifyProof_inclusionBranch (by decide) hget _)

end Ultramarine
