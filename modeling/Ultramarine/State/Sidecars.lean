import Ultramarine.State.Node

/-!
# Blob sidecars: building and checking

The proposer wraps every blob of its bundle in a sidecar that carries a signed header and a Merkle
proof that the commitment is in the block body (`prepare_blob_sidecar_parts`, and
`rebuild_blob_sidecars_for_restream` from stored blobs). A follower checks all of it against the
proposal (`verify_blob_sidecars`).

Results:

* `verifyBlobSidecars_eq_ok`: what an accepted list of sidecars satisfies, field by field;
* `buildSidecars_eq`: the list the proposer builds;
* `sidecarsOk_sidecarsFrom`: a list built for a header that its proposer signed is accepted.
-/

namespace Ultramarine

open Lib Ssz

/-- Sign a header with the node's own key. -/
def signHeader (cfg : Config) (message : BeaconBlockHeader) : SignedBeaconBlockHeader :=
  ⟨message, cfg.oracles.sign cfg.privateKey (bitVecBytes (message.hashTreeRoot cfg.oracles))⟩

/-- The loop shared by `prepare_blob_sidecar_parts` and `rebuild_blob_sidecars_for_restream`: one
sidecar per blob, from index `i` on. -/
def buildSidecars (cfg : Config) (commitments : List KzgCommitment)
    (header : ExecutionPayloadHeader) (signedHeader : SignedBeaconBlockHeader) :
    Nat → List (Blob × KzgCommitment × KzgProof) → Exit Err (List BlobSidecar)
  | _, [] => .ok []
  | i, (blob, commitment, proof) :: rest => do
    Exit.ensure (commitments[i]? = some commitment) (.commitmentMismatch i)
    let inclusionProof ← Exit.ofExcept .inclusionProof (generateProof cfg.oracles commitments i
      (fromUltramarineData cfg.oracles commitments header))
    Exit.ensure (i ≤ u16Max) (.indexOutOfRange i)
    let sidecars ← buildSidecars cfg commitments header signedHeader (i + 1) rest
    pure (⟨i, blob, commitment, proof, signedHeader, inclusionProof⟩ :: sidecars)

/-- `LocallyProposedValue` -/
structure LocallyProposedValue where
  height : Height
  round : Round
  value : Value
deriving DecidableEq

/-- The blobs of a bundle with their commitments and proofs, in order. -/
def BlobsBundle.entries (b : BlobsBundle) : List (Blob × KzgCommitment × KzgProof) :=
  b.blobs.zip (b.commitments.zip b.proofs)

/-- `State::build_sidecar_header_message` for the node's own proposal. -/
def buildSidecarHeaderMessage (cfg : Config) (height : Height) (metadata : ValueMetadata)
    (parentRoot : B256) : Exit Err BeaconBlockHeader := do
  let proposerIndex ← Exit.ofOption .proposerNotInSet (cfg.validatorIndex cfg.address)
  pure
    { slot := height
      proposerIndex
      parentRoot
      stateRoot := metadata.executionPayloadHeader.stateRoot
      bodyRoot := computeBodyRoot cfg.oracles
        (fromUltramarineData cfg.oracles metadata.blobKzgCommitments metadata.executionPayloadHeader) }

/-- The bundle of `prepare_blob_sidecar_parts` has as many blobs as the value has commitments. -/
def checkBundle (expected : Nat) : Option BlobsBundle → Exit Err Unit
  | some b =>
    Exit.ensure (expected = b.commitments.length ∧ expected = b.blobs.length ∧
      expected = b.proofs.length) .bundleLengthMismatch
  | none => Exit.ensure (expected = 0) .missingBundle

/-- A bundle that passes has an entry for every commitment. -/
theorem length_entries_of_checkBundle {expected : Nat} {bundle : Option BlobsBundle} {u : Unit}
    (h : checkBundle expected bundle = .ok u) :
    ((bundle.map BlobsBundle.entries).getD []).length = expected := by
  cases bundle with
  | none => exact (Exit.ensure_eq_ok.1 h).symm
  | some b =>
    obtain ⟨hcommitments, hblobs, hproofs⟩ := Exit.ensure_eq_ok.1 h
    show (b.blobs.zip (b.commitments.zip b.proofs)).length = expected
    rw [List.length_zip, List.length_zip, ← hcommitments, ← hblobs, ← hproofs]
    omega

/-- `State::prepare_blob_sidecar_parts` -/
def prepareBlobSidecarParts (cfg : Config) (d : Disk) (value : LocallyProposedValue)
    (bundle : Option BlobsBundle) : Exit Err (List BlobSidecar) := do
  let metadata := value.value.metadata
  checkBundle metadata.blobKzgCommitments.length bundle
  let parentRoot ← resolveParentRootForHeight cfg d value.height
  let message ← buildSidecarHeaderMessage cfg value.height metadata parentRoot
  buildSidecars cfg metadata.blobKzgCommitments metadata.executionPayloadHeader
    (signHeader cfg message) 0 ((bundle.map BlobsBundle.entries).getD [])

/-- `State::build_beacon_header_from_blob_metadata`: the hint of the metadata comes before the
proposer it is asked for. -/
def buildBeaconHeaderFromBlobMetadata (cfg : Config) (metadata : BlobMetadata)
    (proposer : Address) : Exit Err BeaconBlockHeader := do
  let proposerIndex ← Exit.ofOption .proposerNotInSet
    (metadata.proposerIndexHint <|> cfg.validatorIndex proposer)
  pure
    { slot := metadata.height
      proposerIndex
      parentRoot := metadata.parentBlobRoot
      stateRoot := metadata.executionPayloadHeader.stateRoot
      bodyRoot := metadata.computeBodyRoot cfg.oracles }

/-- `State::rebuild_blob_sidecars_for_restream` -/
def rebuildBlobSidecarsForRestream (cfg : Config) (metadata : BlobMetadata) (proposer : Address)
    (blobs : List BlobSidecar) : Exit Err (List BlobSidecar) := do
  Exit.ensure (metadata.blobCount = blobs.length)
    (.blobCountMismatch metadata.blobCount blobs.length)
  let message ← buildBeaconHeaderFromBlobMetadata cfg metadata proposer
  buildSidecars cfg metadata.blobKzgCommitments metadata.executionPayloadHeader
    (signHeader cfg message) 0 (blobs.map fun s => (s.blob, s.kzgCommitment, s.kzgProof))

/-- The checks of `verify_blob_sidecars` on one sidecar. A proof that differs from the one
generated here is only logged. -/
def verifySidecar (cfg : Config) (commitments : List KzgCommitment)
    (body : BeaconBlockBodyMinimal) (bodyRoot : B256) (s : BlobSidecar) : Exit Err Unit := do
  Exit.ensure (s.index < commitments.length) (.indexOutOfRange s.index)
  Exit.ensure (commitments[s.index]? = some s.kzgCommitment) (.commitmentMismatch s.index)
  let _ ← Exit.ofExcept .inclusionProof
    (reconstructRoots cfg.oracles s.kzgCommitment s.kzgCommitmentInclusionProof s.index)
  let _ ← Exit.ofExcept .inclusionProof (generateProof cfg.oracles commitments s.index body)
  Exit.ensure (verifyProof cfg.oracles s.kzgCommitment s.kzgCommitmentInclusionProof s.index
    bodyRoot) (.invalidInclusionProof s.index)

/-- `State::verify_blob_sidecars` -/
def verifyBlobSidecars (cfg : Config) (d : Disk) (height : Height) (proposer : Address)
    (metadata : ValueMetadata) (sidecars : List BlobSidecar) :
    Exit Err SignedBeaconBlockHeader := do
  let first ← Exit.ofOption .noSidecars sidecars.head?
  let signedHeader := first.signedBlockHeader
  Exit.ensure (∀ s ∈ sidecars, s.signedBlockHeader = signedHeader) .headerNotConsistent
  Exit.ensure (signedHeader.message.slot = height) .slotMismatch
  let proposerIndex ← Exit.ofOption .proposerNotInSet (cfg.validatorIndex proposer)
  Exit.ensure (signedHeader.message.proposerIndex = proposerIndex) .proposerIndexMismatch
  let validator ← Exit.ofOption .proposerNotInSet (cfg.validators.getByAddress proposer)
  Exit.ensure (signedHeader.verifySignature cfg.oracles validator.publicKey) .headerSignature
  let commitments := metadata.blobKzgCommitments
  Exit.ensure (commitments.length = sidecars.length)
    (.blobCountMismatch commitments.length sidecars.length)
  let body := fromUltramarineData cfg.oracles commitments metadata.executionPayloadHeader
  Exit.ensure (signedHeader.message.bodyRoot = computeBodyRoot cfg.oracles body) .bodyRootMismatch
  let expectedParentRoot ← resolveParentRootForHeight cfg d height
  Exit.ensure (signedHeader.message.parentRoot = expectedParentRoot) .parentRootMismatch
  Exit.forEach (verifySidecar cfg commitments body signedHeader.message.bodyRoot) sidecars
  pure signedHeader

/-! ## What the checks establish -/

/-- What `verify_blob_sidecars` accepts: one header, signed by the proposer, for this height, this
value and this parent, and sidecars whose commitments the value lists and the header covers. -/
structure SidecarsOk (cfg : Config) (d : Disk) (height : Height) (proposer : Address)
    (metadata : ValueMetadata) (sidecars : List BlobSidecar)
    (signedHeader : SignedBeaconBlockHeader) : Prop where
  ne_nil : sidecars ≠ []
  header_eq : ∀ s ∈ sidecars, s.signedBlockHeader = signedHeader
  slot_eq : signedHeader.message.slot = height
  index_eq : cfg.validatorIndex proposer = some signedHeader.message.proposerIndex
  signature : ∃ v, cfg.validators.getByAddress proposer = some v ∧
    signedHeader.verifySignature cfg.oracles v.publicKey = true
  count_eq : metadata.blobKzgCommitments.length = sidecars.length
  count_le : metadata.blobKzgCommitments.length ≤ maxBlobCommitmentsPerBlock
  bodyRoot_eq : signedHeader.message.bodyRoot = computeBodyRoot cfg.oracles
    (fromUltramarineData cfg.oracles metadata.blobKzgCommitments metadata.executionPayloadHeader)
  parentRoot_eq : resolveParentRootForHeight cfg d height = .ok signedHeader.message.parentRoot
  commitment_eq : ∀ s ∈ sidecars, metadata.blobKzgCommitments[s.index]? = some s.kzgCommitment
  proof_ok : ∀ s ∈ sidecars, verifyProof cfg.oracles s.kzgCommitment
    s.kzgCommitmentInclusionProof s.index signedHeader.message.bodyRoot = true

variable {cfg : Config} {sidecars : List BlobSidecar} {d : Disk} {height : Height}
  {metadata : ValueMetadata} {proposer : Address} {s : BlobSidecar}
  {signedHeader : SignedBeaconBlockHeader}

/-- The checks read the tables only for the parent. -/
theorem SidecarsOk.congr {d' : Disk}
    (h : SidecarsOk cfg d height proposer metadata sidecars signedHeader)
    (hparent : d'.store.getBlobMetadata (height - 1) = d.store.getBlobMetadata (height - 1)) :
    SidecarsOk cfg d' height proposer metadata sidecars signedHeader :=
  { h with parentRoot_eq := (resolveParentRootForHeight_congr rfl hparent).trans h.parentRoot_eq }

/-- A generated proof exists exactly for the indices of a list that fits the tree. -/
theorem generateProof_isOk {o : Oracles} {commitments : List KzgCommitment} {index : Nat}
    {body : BeaconBlockBodyMinimal} (hidx : index < commitments.length) :
    (∃ p, generateProof o commitments index body = .ok p) ↔
      commitments.length ≤ maxBlobCommitmentsPerBlock := by
  constructor
  · rintro ⟨p, hp⟩
    by_contra hlen
    have hne : commitments ≠ [] := by
      rintro rfl
      simp at hidx
    simp only [generateProof, commitmentsSubtreeProof, if_neg hne, if_neg (not_le.2 hidx),
      if_pos (not_le.1 hlen)] at hp
    cases hp
  · intro hlen
    exact ⟨_, generateProof_ok hlen hidx body⟩

theorem verifySidecar_eq_ok {commitments : List KzgCommitment} {body : BeaconBlockBodyMinimal}
    {bodyRoot : B256} :
    verifySidecar cfg commitments body bodyRoot s = .ok () ↔
      commitments[s.index]? = some s.kzgCommitment ∧
        commitments.length ≤ maxBlobCommitmentsPerBlock ∧
        verifyProof cfg.oracles s.kzgCommitment s.kzgCommitmentInclusionProof s.index bodyRoot =
          true := by
  unfold verifySidecar
  simp only [Exit.bind_eq_ok, Exit.ensure_eq_ok, Exit.ofExcept_eq_ok, exists_const]
  constructor
  · rintro ⟨hidx, hget, _, _, p, hp, hverify⟩
    exact ⟨hget, (generateProof_isOk hidx).1 ⟨p, hp⟩, hverify⟩
  · rintro ⟨hget, hlen, hverify⟩
    have hidx : s.index < commitments.length := (List.getElem?_eq_some_iff.1 hget).1
    obtain ⟨listRoot, hroots⟩ := (verifyProof_eq _ _ _ _).1 hverify
    obtain ⟨p, hp⟩ := (@generateProof_isOk cfg.oracles commitments s.index body hidx).2 hlen
    exact ⟨hidx, hget, _, hroots, p, hp, hverify⟩

/-- **What an accepted list of sidecars satisfies**, and nothing else is asked of it. -/
theorem verifyBlobSidecars_eq_ok :
    verifyBlobSidecars cfg d height proposer metadata sidecars = .ok signedHeader ↔
      SidecarsOk cfg d height proposer metadata sidecars signedHeader := by
  unfold verifyBlobSidecars
  simp only [Exit.bind_eq_ok, Exit.ofOption_eq_ok, Exit.ensure_eq_ok, Exit.pure_eq_ok,
    Exit.ok.injEq, Exit.forEach_eq_ok, exists_const]
  constructor
  · rintro ⟨first, hfirst, hheader, hslot, i, hi, hpi, v, hv, hsig, hcount, hbody, root, hroot,
      hparent, hall, rfl⟩
    have hmem : first ∈ sidecars := List.mem_of_head? hfirst
    refine ⟨?_, hheader, hslot, ?_, ⟨v, hv, hsig⟩, hcount, ?_, hbody, ?_, ?_, ?_⟩
    · rintro rfl
      cases hmem
    · rw [hi, hpi]
    · exact (verifySidecar_eq_ok.1 (hall first hmem)).2.1
    · rw [hroot, hparent]
    · exact fun s hs => (verifySidecar_eq_ok.1 (hall s hs)).1
    · exact fun s hs => (verifySidecar_eq_ok.1 (hall s hs)).2.2
  · intro h
    obtain ⟨v, hv, hsig⟩ := h.signature
    obtain ⟨first, rest, hcons⟩ := List.exists_cons_of_ne_nil h.ne_nil
    have hfirst : first.signedBlockHeader = signedHeader := h.header_eq first (by simp [hcons])
    refine ⟨first, by simp [hcons], ?_, ?_, _, h.index_eq, ?_, v, hv, ?_, h.count_eq, ?_, _,
      h.parentRoot_eq, ?_, ?_, ?_⟩
    · rw [hfirst]
      exact h.header_eq
    · rw [hfirst]
      exact h.slot_eq
    · rw [hfirst]
    · rw [hfirst]
      exact hsig
    · rw [hfirst]
      exact h.bodyRoot_eq
    · rw [hfirst]
    · rw [hfirst]
      exact fun s hs => verifySidecar_eq_ok.2
        ⟨h.commitment_eq s hs, h.count_le, h.proof_ok s hs⟩
    · exact hfirst

/-! ## What the proposer builds -/

section Build

variable (o : Oracles) (commitments : List KzgCommitment) (header : ExecutionPayloadHeader)
  (signedHeader : SignedBeaconBlockHeader)

/-- The sidecar of one blob of a bundle. -/
def sidecarOf (i : Nat) (e : Blob × KzgCommitment × KzgProof) : BlobSidecar where
  index := i
  blob := e.1
  kzgCommitment := e.2.1
  kzgProof := e.2.2
  signedBlockHeader := signedHeader
  kzgCommitmentInclusionProof :=
    inclusionBranch o commitments i (fromUltramarineData o commitments header)

/-- The sidecars of the blobs of a bundle, from index `i` on. -/
def sidecarsFrom : Nat → List (Blob × KzgCommitment × KzgProof) → List BlobSidecar
  | _, [] => []
  | i, e :: rest => sidecarOf o commitments header signedHeader i e :: sidecarsFrom (i + 1) rest

variable {o commitments header signedHeader}

theorem mem_sidecarsFrom :
    ∀ {entries : List (Blob × KzgCommitment × KzgProof)} {i : Nat},
      s ∈ sidecarsFrom o commitments header signedHeader i entries ↔
        ∃ j e, entries[j]? = some e ∧ s = sidecarOf o commitments header signedHeader (i + j) e
  | [], i => by simp [sidecarsFrom]
  | e :: rest, i => by
    simp only [sidecarsFrom, List.mem_cons, mem_sidecarsFrom]
    constructor
    · rintro (rfl | ⟨j, e', he', rfl⟩)
      · exact ⟨0, e, rfl, rfl⟩
      · exact ⟨j + 1, e', he', by rw [Nat.add_assoc, Nat.add_comm 1 j]⟩
    · rintro ⟨j, e', he', rfl⟩
      cases j with
      | zero =>
        simp only [List.getElem?_cons_zero, Option.some.injEq] at he'
        subst he'
        exact .inl rfl
      | succ j => exact .inr ⟨j, e', he', by rw [Nat.add_assoc, Nat.add_comm 1 j]⟩

theorem map_sidecarsFrom {α : Type} {f : BlobSidecar → α}
    {g : Blob × KzgCommitment × KzgProof → α}
    (h : ∀ i e, f (sidecarOf o commitments header signedHeader i e) = g e) :
    ∀ (entries : List (Blob × KzgCommitment × KzgProof)) (i : Nat),
      (sidecarsFrom o commitments header signedHeader i entries).map f = entries.map g
  | [], _ => rfl
  | e :: rest, i => by
    simp only [sidecarsFrom, List.map_cons, h]
    rw [map_sidecarsFrom h rest (i + 1)]

@[simp] theorem length_sidecarsFrom :
    ∀ (entries : List (Blob × KzgCommitment × KzgProof)) (i : Nat),
      (sidecarsFrom o commitments header signedHeader i entries).length = entries.length
  | [], _ => rfl
  | _ :: rest, i => by simp [sidecarsFrom, length_sidecarsFrom rest (i + 1)]

theorem indexSorted_sidecarsFrom :
    ∀ (entries : List (Blob × KzgCommitment × KzgProof)) (i : Nat),
      BlobStore.IndexSorted (sidecarsFrom o commitments header signedHeader i entries)
  | [], _ => List.Pairwise.nil
  | e :: rest, i => by
    refine List.Pairwise.cons (fun s hs => ?_) (indexSorted_sidecarsFrom rest (i + 1))
    obtain ⟨j, e', _, rfl⟩ := mem_sidecarsFrom.1 hs
    show i < i + 1 + j
    omega

/-- Building succeeds exactly on the commitments the value lists. -/
theorem buildSidecars_eq (hlen : commitments.length ≤ maxBlobCommitmentsPerBlock) :
    ∀ (entries : List (Blob × KzgCommitment × KzgProof)) (i : Nat),
      (∀ j e, entries[j]? = some e → commitments[i + j]? = some e.2.1) →
      buildSidecars cfg commitments header signedHeader i entries =
        .ok (sidecarsFrom cfg.oracles commitments header signedHeader i entries)
  | [], _, _ => rfl
  | e :: rest, i, h => by
    have hget : commitments[i]? = some e.2.1 := h 0 e rfl
    have hidx : i < commitments.length := (List.getElem?_eq_some_iff.1 hget).1
    have hu16 : i ≤ u16Max := by
      unfold u16Max
      unfold maxBlobCommitmentsPerBlock at hlen
      omega
    have hrest : buildSidecars cfg commitments header signedHeader (i + 1) rest =
        .ok (sidecarsFrom cfg.oracles commitments header signedHeader (i + 1) rest) :=
      buildSidecars_eq hlen rest (i + 1) fun j e' he' => by
        rw [Nat.add_assoc, Nat.add_comm 1 j]
        exact h (j + 1) e' he'
    unfold buildSidecars
    simp only [Exit.ensure, hget, if_true, Exit.ok_bind, generateProof_ok hlen hidx, Exit.ofExcept,
      if_pos hu16, hrest]
    rfl

/-- Building fails unless every blob has the commitment the value lists at its index and the list
fits the tree. -/
theorem buildSidecars_eq_ok :
    ∀ {entries : List (Blob × KzgCommitment × KzgProof)} {i : Nat} {sidecars : List BlobSidecar},
      buildSidecars cfg commitments header signedHeader i entries = .ok sidecars →
        (∀ j e, entries[j]? = some e → commitments[i + j]? = some e.2.1) ∧
          (entries ≠ [] → commitments.length ≤ maxBlobCommitmentsPerBlock)
  | [], _, _, _ => ⟨fun _ _ h => by simp at h, fun h => absurd rfl h⟩
  | (blob, commitment, proof) :: rest, i, sidecars, h => by
    unfold buildSidecars at h
    simp only [Exit.bind_eq_ok, Exit.ensure_eq_ok, Exit.ofExcept_eq_ok, exists_const] at h
    obtain ⟨hget, p, hp, _, sidecars', hrest, _⟩ := h
    obtain ⟨hentries, _⟩ := buildSidecars_eq_ok hrest
    have hidx : i < commitments.length := (List.getElem?_eq_some_iff.1 hget).1
    refine ⟨fun j e he => ?_, fun _ => (generateProof_isOk hidx).1 ⟨p, hp⟩⟩
    cases j with
    | zero =>
      cases he
      exact hget
    | succ j =>
      have := hentries j e he
      rwa [Nat.add_assoc, Nat.add_comm 1 j] at this

/-- Building gives one sidecar per blob, in order. -/
theorem eq_sidecarsFrom {i : Nat} {entries : List (Blob × KzgCommitment × KzgProof)}
    (h : buildSidecars cfg commitments header signedHeader i entries = .ok sidecars) :
    sidecars = sidecarsFrom cfg.oracles commitments header signedHeader i entries := by
  obtain ⟨hget, hlen⟩ := buildSidecars_eq_ok h
  by_cases hnil : entries = []
  · subst hnil
    exact (Exit.ok.inj h).symm
  · exact Exit.ok.inj (h.symm.trans (buildSidecars_eq (hlen hnil) entries i hget))

/-- Building from as many blobs as there are commitments gives one sidecar for each. -/
theorem fits_of_build {entries : List (Blob × KzgCommitment × KzgProof)}
    (h : buildSidecars cfg commitments header signedHeader 0 entries = .ok sidecars)
    (hlen : entries.length = commitments.length) : Fits sidecars commitments := by
  obtain ⟨hget, _⟩ := buildSidecars_eq_ok h
  obtain rfl := eq_sidecarsFrom h
  refine ⟨?_, ?_, fun s hs => ?_⟩
  · rw [length_sidecarsFrom, hlen]
  · exact List.pairwise_map.2 ((indexSorted_sidecarsFrom entries 0).imp fun hlt => Nat.ne_of_lt hlt)
  · obtain ⟨j, e, he, rfl⟩ := mem_sidecarsFrom.1 hs
    exact hget j e he

/-- **A follower accepts the sidecars its proposer built**: same oracles, same parent, and a header
whose proposer index and signature are the proposer's own. -/
theorem sidecarsOk_sidecarsFrom {cfg : Config} {d : Disk} {proposer : Address}
    {metadata : ValueMetadata} {entries : List (Blob × KzgCommitment × KzgProof)}
    (ho : cfg.oracles = o)
    (hne : entries ≠ []) (hcommitments : entries.map (·.2.1) = metadata.blobKzgCommitments)
    (hlen : metadata.blobKzgCommitments.length ≤ maxBlobCommitmentsPerBlock)
    (hindex : cfg.validatorIndex proposer = some signedHeader.message.proposerIndex)
    (hsig : ∃ v, cfg.validators.getByAddress proposer = some v ∧
      signedHeader.verifySignature o v.publicKey = true)
    (hbody : signedHeader.message.bodyRoot = computeBodyRoot o
      (fromUltramarineData o metadata.blobKzgCommitments metadata.executionPayloadHeader))
    (hparent : resolveParentRootForHeight cfg d signedHeader.message.slot =
      .ok signedHeader.message.parentRoot) :
    SidecarsOk cfg d signedHeader.message.slot proposer metadata
      (sidecarsFrom o metadata.blobKzgCommitments metadata.executionPayloadHeader signedHeader 0
        entries) signedHeader := by
  subst ho
  have hget : ∀ (j : Nat) (e : Blob × KzgCommitment × KzgProof), entries[j]? = some e →
      metadata.blobKzgCommitments[j]? = some e.2.1 := by
    intro j e he
    rw [← hcommitments, List.getElem?_map, he]
    rfl
  refine ⟨?_, ?_, rfl, hindex, hsig, ?_, hlen, hbody, hparent, ?_, ?_⟩
  · obtain ⟨e, rest, rfl⟩ := List.exists_cons_of_ne_nil hne
    simp [sidecarsFrom]
  · intro s hs
    obtain ⟨j, e, _, rfl⟩ := mem_sidecarsFrom.1 hs
    rfl
  · rw [← hcommitments, List.length_map, length_sidecarsFrom]
  · intro s hs
    obtain ⟨j, e, he, rfl⟩ := mem_sidecarsFrom.1 hs
    rw [Nat.zero_add]
    exact hget j e he
  · intro s hs
    obtain ⟨j, e, he, rfl⟩ := mem_sidecarsFrom.1 hs
    rw [Nat.zero_add, hbody]
    exact verifyProof_inclusionBranch hlen (hget j e he) metadata.executionPayloadHeader

end Build

end Ultramarine
