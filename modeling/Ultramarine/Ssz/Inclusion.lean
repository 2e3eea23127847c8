import Ultramarine.Ssz.Binding

/-!
# KZG commitment inclusion proofs

`generate_kzg_commitment_inclusion_proof` and its two evaluators, the verifier of
`ethereum_compat/merkle.rs` and `reconstruct_roots_from_proof` of the consensus state. A proof is
the branch of a commitment in the list tree, the list length, and the branch of the list root in
the body tree: 12 + 1 + 4 siblings.

Results:

* `generateProof_ok`: every index of a list within the limit has a proof, and what it is;
* `verifyProof_eq`: the two evaluators agree;
* `verifyProof_inclusionBranch`: a generated proof verifies against the body root of the same list;
* `verifyProof_sound`: and what verifies against the body root of a list is in that list.
-/

namespace Ultramarine.Ssz

open Lib

variable (o : Oracles)

/-- `BLOB_KZG_COMMITMENTS_INDEX` -/
def blobKzgCommitmentsIndex : Nat := 11

/-- `KZG_COMMITMENT_INCLUSION_PROOF_DEPTH` -/
def kzgCommitmentInclusionProofDepth : Nat := 17

/-- The depth of the body tree. -/
def bodyDepth : Nat := 4

/-- What proof generation can fail with. -/
inductive ProofError where
  | emptyCommitments
  | indexOutOfBounds
  | tooManyCommitments
  /-- `reconstruct_roots_from_proof`: wrong proof length or index. -/
  | invalidMetadata
deriving DecidableEq, Repr

/-- `commitments_subtree_proof`: the list branch with the length, and the mixed-in list root. -/
def commitmentsSubtreeProof (commitments : List KzgCommitment) (index : Nat) :
    Except ProofError (List B256 × B256) :=
  if maxBlobCommitmentsPerBlock < commitments.length then .error .tooManyCommitments
  else
    let leaves := commitments.map (commitmentRoot o)
    .ok (Merkle.branch o.hash32Concat 0 commitmentsDepth leaves index ++
          [u64ToBytes32 commitments.length],
      mixInLength o (Merkle.root o.hash32Concat 0 commitmentsDepth leaves) commitments.length)

/-- `body_subtree_proof_with_body` -/
def bodySubtreeProofWithBody (listRoot : B256) (body : BeaconBlockBodyMinimal) : List B256 :=
  Merkle.branch o.hash32Concat 0 bodyDepth (bodyMerkleLeaves o body listRoot)
    blobKzgCommitmentsIndex

/-- `generate_kzg_commitment_inclusion_proof` -/
def generateProof (commitments : List KzgCommitment) (index : Nat)
    (body : BeaconBlockBodyMinimal) : Except ProofError (List B256) :=
  if commitments = [] then .error .emptyCommitments
  else if commitments.length ≤ index then .error .indexOutOfBounds
  else do
    let (listProof, listRoot) ← commitmentsSubtreeProof o commitments index
    return listProof ++ bodySubtreeProofWithBody o listRoot body

/-- `reconstruct_roots_from_proof`: the list root and the body root a proof leads to. -/
def reconstructRoots (commitment : KzgCommitment) (proof : List B256) (index : Nat) :
    Except ProofError (B256 × B256) :=
  if proof.length ≠ kzgCommitmentInclusionProofDepth ∨ maxBlobCommitmentsPerBlock ≤ index then
    .error .invalidMetadata
  else
    let listRoot := Merkle.foldBranch o.hash32Concat (commitmentRoot o commitment)
      (proof.take (commitmentsDepth + 1)) index
    .ok (listRoot, Merkle.foldBranch o.hash32Concat listRoot (proof.drop (commitmentsDepth + 1))
      blobKzgCommitmentsIndex)

/-- `verify_kzg_commitment_inclusion_proof` -/
def verifyProof (commitment : KzgCommitment) (proof : List B256) (index : Nat) (bodyRoot : B256) :
    Bool :=
  if proof.length ≠ kzgCommitmentInclusionProofDepth ∨ maxBlobCommitmentsPerBlock ≤ index then
    false
  else
    let listRoot := Merkle.foldBranch o.hash32Concat (commitmentRoot o commitment)
      (proof.take (commitmentsDepth + 1)) index
    Merkle.foldBranch o.hash32Concat listRoot (proof.drop (commitmentsDepth + 1))
      blobKzgCommitmentsIndex == bodyRoot

/-! ## Completeness -/

/-- The proof of a commitment, where there is one. -/
def inclusionBranch (commitments : List KzgCommitment) (index : Nat)
    (body : BeaconBlockBodyMinimal) : List B256 :=
  (Merkle.branch o.hash32Concat 0 commitmentsDepth (commitments.map (commitmentRoot o)) index ++
      [u64ToBytes32 commitments.length]) ++
    bodySubtreeProofWithBody o (treeHashKzgCommitments o commitments) body

variable {o}

variable {commitments : List KzgCommitment} {index : Nat} {commitment : KzgCommitment}
  {header : ExecutionPayloadHeader}

/-- A list of at most `MAX_BLOB_COMMITMENTS_PER_BLOCK` commitments has a proof for each of its
indices. -/
theorem generateProof_ok (hlen : commitments.length ≤ maxBlobCommitmentsPerBlock)
    (hidx : index < commitments.length) (body : BeaconBlockBodyMinimal) :
    generateProof o commitments index body = .ok (inclusionBranch o commitments index body) := by
  have hne : commitments ≠ [] := by
    rintro rfl
    simp at hidx
  unfold generateProof commitmentsSubtreeProof
  rw [if_neg hne, if_neg (by omega), if_neg (by omega)]
  unfold inclusionBranch treeHashKzgCommitments
  rw [if_neg hne]
  rfl

theorem length_inclusionBranch (commitments : List KzgCommitment) (index : Nat)
    (body : BeaconBlockBodyMinimal) :
    (inclusionBranch o commitments index body).length = kzgCommitmentInclusionProofDepth := by
  simp [inclusionBranch, bodySubtreeProofWithBody, commitmentsDepth, bodyDepth,
    kzgCommitmentInclusionProofDepth]

/-- The list part of a proof leads from the commitment to the list root. -/
theorem foldBranch_commitments (hlen : commitments.length ≤ maxBlobCommitmentsPerBlock)
    (hget : commitments[index]? = some commitment) :
    Merkle.foldBranch o.hash32Concat (commitmentRoot o commitment)
        (Merkle.branch o.hash32Concat 0 commitmentsDepth (commitments.map (commitmentRoot o)) index
          ++ [u64ToBytes32 commitments.length]) index =
      treeHashKzgCommitments o commitments := by
  have hidx : index < commitments.length := (List.getElem?_eq_some_iff.1 hget).1
  have hne : commitments ≠ [] := by
    rintro rfl
    simp at hidx
  have hbound : index < 2 ^ commitmentsDepth := by
    have : (2 : Nat) ^ commitmentsDepth = maxBlobCommitmentsPerBlock := rfl
    omega
  have hleaf : commitmentRoot o commitment =
      Merkle.leafAt 0 (commitments.map (commitmentRoot o)) index := by
    simp [Merkle.leafAt, List.getD, hget]
  rw [Merkle.foldBranch_concat, Merkle.length_branch, Nat.div_eq_of_lt hbound, if_neg (by decide),
    hleaf, Merkle.foldBranch_branch _ _ _ _ _ hbound, treeHashKzgCommitments, if_neg hne]
  rfl

/-- The body part of a proof leads from the list root to the body root. -/
theorem foldBranch_body (listRoot : B256) (body : BeaconBlockBodyMinimal) :
    Merkle.foldBranch o.hash32Concat listRoot (bodySubtreeProofWithBody o listRoot body)
        blobKzgCommitmentsIndex =
      merkleHasher o 16 (bodyMerkleLeaves o body listRoot) := by
  have hleaf : listRoot =
      Merkle.leafAt 0 (bodyMerkleLeaves o body listRoot) blobKzgCommitmentsIndex := rfl
  have hroot := Merkle.foldBranch_branch o.hash32Concat 0 bodyDepth
    (bodyMerkleLeaves o body listRoot) blobKzgCommitmentsIndex (by decide)
  rw [← hleaf] at hroot
  exact hroot

/-- **A generated proof evaluates to the list root and the body root.** -/
theorem reconstructRoots_inclusionBranch (hlen : commitments.length ≤ maxBlobCommitmentsPerBlock)
    (hget : commitments[index]? = some commitment) (body : BeaconBlockBodyMinimal) :
    reconstructRoots o commitment (inclusionBranch o commitments index body) index =
      .ok (treeHashKzgCommitments o commitments,
        merkleHasher o 16
          (bodyMerkleLeaves o body (treeHashKzgCommitments o commitments))) := by
  have hidx : index < commitments.length := (List.getElem?_eq_some_iff.1 hget).1
  have hlist : (Merkle.branch o.hash32Concat 0 commitmentsDepth
      (commitments.map (commitmentRoot o)) index ++ [u64ToBytes32 commitments.length]).length =
        commitmentsDepth + 1 := by simp
  unfold reconstructRoots
  rw [if_neg (by rw [length_inclusionBranch]; omega)]
  unfold inclusionBranch
  rw [← hlist, List.take_left, List.drop_left, foldBranch_commitments hlen hget]
  dsimp only
  rw [foldBranch_body]

/-- The verifier accepts exactly what evaluates to the given body root. -/
theorem verifyProof_eq (commitment : KzgCommitment) (proof : List B256) (index : Nat)
    (bodyRoot : B256) :
    verifyProof o commitment proof index bodyRoot = true ↔
      ∃ listRoot, reconstructRoots o commitment proof index = .ok (listRoot, bodyRoot) := by
  unfold verifyProof reconstructRoots
  split <;> simp

/-- **Inclusion-proof completeness.** -/
theorem verifyProof_inclusionBranch (hlen : commitments.length ≤ maxBlobCommitmentsPerBlock)
    (hget : commitments[index]? = some commitment) (header : ExecutionPayloadHeader) :
    verifyProof o commitment
      (inclusionBranch o commitments index (fromUltramarineData o commitments header)) index
      (computeBodyRoot o (fromUltramarineData o commitments header)) = true := by
  rw [verifyProof_eq]
  exact ⟨_, reconstructRoots_inclusionBranch hlen hget _⟩

/-! ## Soundness -/

section Soundness

variable (o) in
/-- The pair hashed for the root of a commitment. -/
def commitmentPairs (c : KzgCommitment) : List (B256 × B256) :=
  fixedVectorPairs o (bitVecBytes c.bytes)

variable (o) in
/-- The pairs hashed for the root of a list of commitments. -/
def commitmentsPairs (commitments : List KzgCommitment) : List (B256 × B256) :=
  (if commitments = [] then [(0, u64ToBytes32 0)]
    else
      let leaves := commitments.map (commitmentRoot o)
      (Merkle.root o.hash32Concat 0 commitmentsDepth leaves, u64ToBytes32 commitments.length) ::
        Merkle.pairs o.hash32Concat 0 commitmentsDepth leaves) ++
    commitments.flatMap (commitmentPairs o)

variable (o) in
/-- The pairs hashed for a body root: those of the body tree, and those of the commitments in it. -/
def bodyPairs (body : BeaconBlockBodyMinimal) : List (B256 × B256) :=
  Merkle.pairs o.hash32Concat 0 bodyDepth
      (bodyMerkleLeaves o body (treeHashKzgCommitments o body.blobKzgCommitments)) ++
    commitmentsPairs o body.blobKzgCommitments

variable (o) in
/-- The pairs hashed to verify a proof. -/
def proofPairs (commitment : KzgCommitment) (proof : List B256) (index : Nat) : List (B256 × B256) :=
  commitmentPairs o commitment ++
    (Merkle.branchPairs o.hash32Concat (commitmentRoot o commitment)
        (proof.take (commitmentsDepth + 1)) index ++
      Merkle.branchPairs o.hash32Concat
        (Merkle.foldBranch o.hash32Concat (commitmentRoot o commitment)
          (proof.take (commitmentsDepth + 1)) index)
        (proof.drop (commitmentsDepth + 1)) blobKzgCommitmentsIndex)

variable {commitments : List KzgCommitment} {commitment : KzgCommitment} {index : Nat}

/-- The root of a commitment is the hash of its two chunks. -/
theorem commitmentRoot_mem (c : KzgCommitment) :
    ∃ p ∈ commitmentPairs o c, commitmentRoot o c = o.hash32Concat p.1 p.2 := by
  have hleaves : (byteLeaves (bitVecBytes c.bytes)).length = 2 := by
    rw [length_byteLeaves, length_bitVecBytes]
  have hdepth : Merkle.depthFor 2 = 0 + 1 := by decide
  unfold commitmentPairs fixedVectorPairs hasherPairs
  rw [commitmentRoot, treeHashFixedVector_eq, merkleHasher, hleaves, hdepth, Merkle.root, Merkle.pairs]
  exact ⟨_, List.mem_cons_self, rfl⟩

/-- A commitment is bound by its root. -/
theorem commitmentRoot_inj {c c' : KzgCommitment}
    (hfree : Merkle.CollisionFree o.hash32Concat (commitmentPairs o c ++ commitmentPairs o c'))
    (h : commitmentRoot o c = commitmentRoot o c') : c = c' := by
  have hbytes := bitVecBytes_inj (by decide) (fixedVector_inj (by simp) hfree h)
  cases c
  cases c'
  exact congrArg _ hbytes

/-- The list part of a proof ends with what is mixed in: the evaluation of its first twelve siblings is
hashed with the last one, whatever the index. -/
theorem foldBranch_mixIn {b : List B256} {top value : B256} (hb : b.length = commitmentsDepth)
    (hindex : index < maxBlobCommitmentsPerBlock) :
    Merkle.foldBranch o.hash32Concat value (b ++ [top]) index =
        o.hash32Concat (Merkle.foldBranch o.hash32Concat value b index) top ∧
      (Merkle.foldBranch o.hash32Concat value b index, top) ∈
        Merkle.branchPairs o.hash32Concat value (b ++ [top]) index := by
  have hzero : index / 2 ^ b.length = 0 := by
    rw [hb]
    exact Nat.div_eq_of_lt hindex
  have hmem := @Merkle.mem_branchPairs_concat _ o.hash32Concat b top value index
  rw [hzero, if_neg (by decide)] at hmem
  rw [Merkle.foldBranch_concat, hzero, if_neg (by decide)]
  exact ⟨rfl, hmem⟩

/-- **The list part of a proof.** A branch from a commitment to the root of a list starts from a
commitment of the list, at its index. -/
theorem getElem?_of_listBranch {b : List B256} {top : B256} (hb : b.length = commitmentsDepth)
    (hindex : index < maxBlobCommitmentsPerBlock)
    (hfree : Merkle.CollisionFree o.hash32Concat (commitmentsPairs o commitments ++
      (commitmentPairs o commitment ++
        Merkle.branchPairs o.hash32Concat (commitmentRoot o commitment) (b ++ [top]) index)))
    (havoid : Merkle.Avoids o.hash32Concat 0 (commitmentPairs o commitment ++
      Merkle.branchPairs o.hash32Concat (commitmentRoot o commitment) (b ++ [top]) index))
    (h : Merkle.foldBranch o.hash32Concat (commitmentRoot o commitment) (b ++ [top]) index =
      treeHashKzgCommitments o commitments) : commitments[index]? = some commitment := by
  obtain ⟨hfold, hpair⟩ := @foldBranch_mixIn o index b top (commitmentRoot o commitment) hb hindex
  have hpair' := List.mem_append_right (commitmentPairs o commitment) hpair
  rw [hfold] at h
  unfold treeHashKzgCommitments at h
  unfold commitmentsPairs at hfree
  by_cases hnil : commitments = []
  · -- nothing evaluates to the zero chunk that stands for the empty list
    rw [if_pos hnil] at h hfree
    obtain ⟨hzero, _⟩ := hfree.halves (List.mem_append_right _ hpair')
      (List.mem_append_left _ (List.mem_append_left _ (List.mem_singleton.2 rfl))) h
    obtain ⟨b, top', rfl⟩ : ∃ b' top', b = b' ++ [top'] := by
      refine (List.eq_nil_or_concat' b).resolve_left ?_
      rintro rfl
      cases hb
    refine absurd hzero (Merkle.foldBranch_ne b top' _ (havoid.mono fun p hp => ?_))
    rw [Merkle.branchPairs_append (b ++ [top'])]
    exact List.mem_append_right _ (List.mem_append_left _ hp)
  · rw [if_neg hnil] at h hfree
    obtain ⟨hroot, _⟩ := hfree.halves (List.mem_append_right _ hpair')
      (List.mem_append_left _ (List.mem_append_left _ List.mem_cons_self)) h
    have hleaf := Merkle.eq_leafAt_of_foldBranch hb (hfree.mono fun p hp => ?_) hroot
    · rw [Nat.mod_eq_of_lt (show index < 2 ^ commitmentsDepth from hindex)] at hleaf
      cases hget : commitments[index]? with
      | none =>
        -- beyond the list stands the zero chunk, which no commitment hashes to
        obtain ⟨p, hp, hhash⟩ := @commitmentRoot_mem o commitment
        rw [hhash] at hleaf
        refine absurd hleaf ?_
        simp only [Merkle.leafAt, List.getD, List.getElem?_map, hget, Option.map_none,
          Option.getD_none]
        exact havoid p (List.mem_append_left _ hp)
      | some c =>
        simp only [Merkle.leafAt, List.getD, List.getElem?_map, hget, Option.map_some,
          Option.getD_some] at hleaf
        have hmem := List.mem_of_getElem? hget
        rw [commitmentRoot_inj (hfree.mono fun p hp => ?_) hleaf]
        rcases List.mem_append.1 hp with hp | hp
        · exact List.mem_append_right _ (List.mem_append_left _ hp)
        · exact List.mem_append_left _ (List.mem_append_right _ (List.mem_flatMap.2 ⟨c, hmem, hp⟩))
    · rcases List.mem_append.1 hp with hp | hp
      · refine List.mem_append_right _ (List.mem_append_right _ ?_)
        rw [Merkle.branchPairs_append]
        exact List.mem_append_left _ hp
      · exact List.mem_append_left _ (List.mem_append_left _ (List.mem_cons_of_mem _ hp))

/-- **Inclusion-proof soundness.** -/
theorem verifyProof_sound {proof : List B256}
    (hfree : Merkle.CollisionFree o.hash32Concat (bodyPairs o (fromUltramarineData o commitments header) ++ proofPairs o commitment proof index))
    (havoid : Merkle.Avoids o.hash32Concat 0 (proofPairs o commitment proof index))
    (h : verifyProof o commitment proof index (computeBodyRoot o (fromUltramarineData o commitments header)) = true) :
    commitments[index]? = some commitment := by
  unfold verifyProof at h
  split_ifs at h with hshape
  push Not at hshape
  obtain ⟨hlen, hindex⟩ := hshape
  have hroot := beq_iff_eq.1 h
  obtain ⟨b, top, hcut⟩ : ∃ b top, proof.take (commitmentsDepth + 1) = b ++ [top] := by
    refine (List.eq_nil_or_concat' _).resolve_left fun hnil => ?_
    have hzero := congrArg List.length hnil
    rw [List.length_take, hlen] at hzero
    cases hzero
  have hb : b.length = commitmentsDepth := by
    have htake := congrArg List.length hcut
    rw [List.length_take, hlen, List.length_append] at htake
    exact (Nat.succ.inj htake).symm
  have hdrop : (proof.drop (commitmentsDepth + 1)).length = bodyDepth := by
    rw [List.length_drop, hlen]
    rfl
  -- the body part leads from the list root, which stands at its place among the leaves
  have hlist : Merkle.foldBranch o.hash32Concat (commitmentRoot o commitment)
      (proof.take (commitmentsDepth + 1)) index = treeHashKzgCommitments o commitments := by
    refine Merkle.eq_leafAt_of_foldBranch hdrop (hfree.mono fun p hp => ?_) hroot
    rcases List.mem_append.1 hp with hp | hp
    · exact List.mem_append_right _ (List.mem_append_right _ (List.mem_append_right _ hp))
    · exact List.mem_append_left _ (List.mem_append_left _ hp)
  rw [hcut] at hlist
  unfold proofPairs at hfree havoid
  rw [hcut] at hfree havoid
  refine getElem?_of_listBranch hb hindex (hfree.mono fun p hp => ?_) (havoid.mono fun p hp => ?_)
    hlist
  · rcases List.mem_append.1 hp with hp | hp
    · exact List.mem_append_left _ (List.mem_append_right _ hp)
    · refine List.mem_append_right _ ?_
      rw [← List.append_assoc]
      exact List.mem_append_left _ hp
  · rw [← List.append_assoc]
    exact List.mem_append_left _ hp

/-- A generated proof hashes nothing but what the body root hashes. -/
theorem mem_bodyPairs_of_proof (hlen : commitments.length ≤ maxBlobCommitmentsPerBlock)
    (hget : commitments[index]? = some commitment) {p : B256 × B256}
    (hp : p ∈ proofPairs o commitment (inclusionBranch o commitments index (fromUltramarineData o commitments header)) index) :
    p ∈ bodyPairs o (fromUltramarineData o commitments header) := by
  have hidx : index < commitments.length := (List.getElem?_eq_some_iff.1 hget).1
  have hbound : index < 2 ^ commitmentsDepth := hidx.trans_le hlen
  have hne : commitments ≠ [] := by
    rintro rfl
    simp at hidx
  have hleaf : commitmentRoot o commitment =
      Merkle.leafAt 0 (commitments.map (commitmentRoot o)) index := by
    simp [Merkle.leafAt, List.getD, hget]
  have hlist : (Merkle.branch o.hash32Concat 0 commitmentsDepth
      (commitments.map (commitmentRoot o)) index ++ [u64ToBytes32 commitments.length]).length =
        commitmentsDepth + 1 := by simp
  unfold proofPairs inclusionBranch at hp
  rw [← hlist, List.take_left, List.drop_left, foldBranch_commitments hlen hget] at hp
  have hpairs : commitmentsPairs o (fromUltramarineData o commitments header).blobKzgCommitments =
      _ ++ commitments.flatMap (commitmentPairs o) := congrArg (· ++ _) (if_neg hne)
  unfold bodyPairs
  rw [hpairs]
  simp only [List.mem_append, List.mem_cons]
  rcases List.mem_append.1 hp with hp | hp
  · exact .inr (.inr (List.mem_flatMap.2 ⟨commitment, List.mem_of_getElem? hget, hp⟩))
  rcases List.mem_append.1 hp with hp | hp
  · rw [Merkle.branchPairs_append, List.mem_append] at hp
    rcases hp with hp | hp
    · rw [hleaf] at hp
      exact .inr (.inl (.inr (Merkle.mem_pairs_of_branch hbound p hp)))
    · rw [Merkle.length_branch, Nat.div_eq_of_lt hbound, hleaf,
        Merkle.foldBranch_branch _ _ _ _ _ hbound] at hp
      exact .inr (.inl (.inl (List.mem_singleton.1 hp)))
  · have hplace : blobKzgCommitmentsIndex < 2 ^ bodyDepth := by decide
    exact .inl (Merkle.mem_pairs_of_branch hplace p hp)

end Soundness

end Ultramarine.Ssz
