import Ultramarine.Agreement.Stream
import Ultramarine.App.Effects

/-!
# Proposer and follower

The proposer derives a value, a metadata row and sidecars from what its engine built, stores them
and streams the payload and the sidecars; a follower derives the same things again from the stream.
Both end in `Disk.received`, so it is enough to show that they are given the same `Assembled`.

Results:

* `proposeBuilt_inversion`: what a proposal that is streamed consists of (`BuiltProposal`);
* `BuiltProposal.assembled`: a follower with the same parent assembles it from the stream;
* `proposer_follower_agree`: after the messages have arrived in any order, both hold the same
  proposal, payload, metadata and blobs for the slot.
-/

namespace Ultramarine

open Lib Ssz Prog

/-! ## What the proposer builds -/

/-- What a proposal consists of that the node streams for a slot: `metadata` is that of the value,
`root` the root of the row one height below, `message` the header of the sidecars. -/
structure BuiltProposal (cfg : Config) (d : Disk) (slot : Slot) (built : BuiltPayload)
    (metadata : ValueMetadata) (root : B256) (message : BeaconBlockHeader) (a : Assembled) : Prop where
  round_ne : slot.round ≠ .nil
  requests_ok : validateExecutionRequests built.requests = .ok ()
  metadata_eq : ValueMetadata.new? (builtHeader cfg built) (bundleCommitments built.bundle) =
    some metadata
  root_eq : resolveParentRootForHeight cfg d slot.height = .ok root
  row_eq : blockMetadata? slot.height root (bundleCommitments built.bundle)
    (bundleKeccaks cfg.oracles built.bundle) (builtHeader cfg built)
    (cfg.validatorIndex cfg.address) = some a.blobMetadata
  message_eq : buildSidecarHeaderMessage cfg slot.height metadata root = .ok message
  bundle_ok : checkBundle (bundleCommitments built.bundle).length built.bundle = .ok ()
  sidecars_ok : buildSidecars cfg metadata.blobKzgCommitments metadata.executionPayloadHeader
    (signHeader cfg message) 0 ((built.bundle.map BlobsBundle.entries).getD []) = .ok a.sidecars
  kzg_ok : kzgOk cfg a.sidecars
  value_eq : a.value =
    ⟨slot.height, slot.round, .nil, cfg.address, Value.new cfg.oracles metadata, .valid⟩
  data_eq : a.data = cfg.oracles.asSszBytes built.payload
  requests_eq : a.executionRequests = built.requests

section Propose

variable {cfg : Config} {height : Height} {round : Round} {built : BuiltPayload}
  {lp : LocallyProposedValue} {messages : List StreamMessage} {m m' : Machine Disk Memory}

theorem proposeValueWithBlobs_inversion {payload : ExecutionPayloadV3} {requests : List Bytes}
    {bundle : Option BlobsBundle}
    (hr : Returns (proposeValueWithBlobs cfg height round payload requests bundle) m lp m') :
    ∃ metadata root row, round ≠ .nil ∧ validateExecutionRequests requests = .ok () ∧
      ValueMetadata.new? (fromPayload cfg.oracles payload
        (some (cfg.oracles.computeRequestsHash requests))) (bundleCommitments bundle) =
          some metadata ∧
      resolveParentRootForHeight cfg m.disk height = .ok root ∧
      blockMetadata? height root (bundleCommitments bundle) (bundleKeccaks cfg.oracles bundle)
        (fromPayload cfg.oracles payload (some (cfg.oracles.computeRequestsHash requests)))
        (cfg.validatorIndex cfg.address) = some row ∧
      lp = ⟨height, round, Value.new cfg.oracles metadata⟩ ∧
      m'.disk = ⟨(m.disk.store.apply (.insertUndecidedProposal ⟨height, round, .nil, cfg.address,
        Value.new cfg.oracles metadata, .valid⟩)).apply
          (.insertBlobMetadataUndecided ⟨height, round⟩ row), m.disk.blobs⟩ := by
  unfold proposeValueWithBlobs storeUndecidedProposal putBlobMetadataUndecided at hr
  rw [returns_getMem_bind] at hr
  split at hr
  · simp only [bind_assoc, returns_ofExit_bind, Exit.orPanic_eq_ok, Exit.ensure_eq_ok,
      returns_storeWrite_bind, returns_getDisk_bind, exists_const] at hr
    obtain ⟨_, hrequests, metadata, hmetadata, hround, root, hroot, row, hrow, hr⟩ := hr
    obtain ⟨_, m₁, htrack, hr⟩ := returns_bind.1 hr
    obtain ⟨rfl, rfl⟩ := returns_pure.1 hr
    refine ⟨metadata, root, row, hround, hrequests, hmetadata, hroot, hrow, rfl, ?_⟩
    have hsilent : Silent (Prog.onlyIf (bundleCommitments bundle ≠ [])
        (trackBlobRound ⟨height, round⟩)) := Silent.onlyIf (Silent.modifyMem _)
    have hdisk := hsilent.disk_eq (afterStore (afterStore m (.insertUndecidedProposal ⟨height, round,
      .nil, cfg.address, Value.new cfg.oracles metadata, .valid⟩))
        (.insertBlobMetadataUndecided ⟨height, round⟩ row))
    rw [htrack.2] at hdisk
    exact hdisk
  · exact absurd hr returns_panicked

theorem streamProposal_inversion {data : Bytes} {sidecars : List BlobSidecar}
    {requests : List Bytes} {proposer : Address}
    (hr : Returns (streamProposal cfg lp data sidecars requests proposer) m messages m') :
    m'.disk = m.disk ∧ ∃ id, messages =
      streamMessages id (makeProposalParts cfg lp data sidecars requests proposer) := by
  refine ⟨?_, ?_⟩
  · have := (streamProposal_silent cfg lp data sidecars requests proposer).disk_eq m
    rwa [hr.2] at this
  · unfold streamProposal at hr
    obtain ⟨id, _, _, hr⟩ := returns_bind.1 hr
    exact ⟨id, (returns_pure.1 hr).1.symm⟩

/-- **What a proposal that is streamed consists of.** -/
theorem proposeBuilt_inversion
    (hr : Returns (proposeBuilt cfg height round built) m (lp, messages) m') :
    ∃ metadata root message a id, BuiltProposal cfg m.disk ⟨height, round⟩ built metadata root message a ∧
      lp = ⟨height, round, Value.new cfg.oracles metadata⟩ ∧
      m'.disk = m.disk.received ⟨height, round⟩ a ∧
      messages = streamMessages id (makeProposalParts cfg lp a.data a.sidecars a.executionRequests
        cfg.address) := by
  unfold proposeBuilt storeUndecidedBlockData at hr
  obtain ⟨lp', m₁, hpropose, hr⟩ := returns_bind.1 hr
  obtain ⟨metadata, root, row, hround, hrequests, hmetadata, hroot, hrow, rfl, hdisk₁⟩ :=
    proposeValueWithBlobs_inversion hpropose
  obtain ⟨disk₁, mem₁⟩ := m₁
  dsimp only at hdisk₁
  subst hdisk₁
  simp only [returns_storeWrite_bind, returns_getDisk_bind, returns_ofExit_bind] at hr
  obtain ⟨sidecars, hprepare, hr⟩ := hr
  obtain ⟨_, m₂, hverify, hr⟩ := returns_bind.1 hr
  obtain ⟨hkzg, rfl⟩ := returns_verifyAndStore.1 hverify
  obtain ⟨messages', m₃, hstream, hr⟩ := returns_bind.1 hr
  obtain ⟨hpair, rfl⟩ := returns_pure.1 hr
  obtain ⟨rfl, rfl⟩ := Prod.mk.inj hpair
  obtain ⟨hdisk₃, id, hmessages⟩ := streamProposal_inversion hstream
  unfold prepareBlobSidecarParts at hprepare
  simp only [Exit.bind_eq_ok] at hprepare
  obtain ⟨_, hbundle, root', hroot', message, hmessage, hsidecars⟩ := hprepare
  -- the parent root is read again from tables that the proposal has not touched
  cases hroot.symm.trans hroot'
  obtain ⟨-, hcommitments, -⟩ := ValueMetadata.new?_eq_some hmetadata
  have hcount : checkBundle (bundleCommitments built.bundle).length built.bundle = .ok () := by
    rw [← hcommitments]
    exact hbundle
  let a : Assembled :=
    { value := ⟨height, round, .nil, cfg.address, Value.new cfg.oracles metadata, .valid⟩
      data := cfg.oracles.asSszBytes built.payload
      executionRequests := built.requests
      sidecars
      blobMetadata := row }
  refine ⟨metadata, root, message, a, id, ⟨hround, hrequests, hmetadata, hroot, hrow, hmessage,
    hcount, hsidecars, hkzg, rfl, rfl, rfl⟩, rfl, ?_, hmessages⟩
  rw [hdisk₃]
  rfl

end Propose

/-! ## What the follower makes of it -/

section Follow

variable {cfg cfg' : Config} {d d' : Disk} {slot : Slot} {built : BuiltPayload}
  {metadata : ValueMetadata} {root : B256} {message : BeaconBlockHeader} {a : Assembled}
  {v : Validator} {latest : Option ExecutionBlock} {now : Nat}

theorem buildSidecarHeaderMessage_eq_ok {height : Height} :
    buildSidecarHeaderMessage cfg height metadata root = .ok message ↔
      ∃ index, cfg.validatorIndex cfg.address = some index ∧ message = sidecarHeader cfg.oracles
        height index root metadata.blobKzgCommitments metadata.executionPayloadHeader := by
  unfold buildSidecarHeaderMessage
  simp only [Exit.bind_eq_ok, Exit.ofOption_eq_ok, Exit.pure_eq_ok, Exit.ok.injEq]
  exact exists_congr fun _ => and_congr_right fun _ => eq_comm

/-- The sidecars of a proposal are those of the bundle, in order. -/
theorem BuiltProposal.sidecars_eq (h : BuiltProposal cfg d slot built metadata root message a) :
    a.sidecars = sidecarsFrom cfg.oracles metadata.blobKzgCommitments
      metadata.executionPayloadHeader (signHeader cfg message) 0
        ((built.bundle.map BlobsBundle.entries).getD []) :=
  eq_sidecarsFrom h.sidecars_ok

/-- **A follower assembles what was proposed**: its chain accepts the block, its parent row is the
proposer's, and the payload decodes. -/
theorem BuiltProposal.assembled (h : BuiltProposal cfg d slot built metadata root message a)
    (hkey : SignsAs cfg v) (hnet : SameNetwork cfg cfg')
    (hroot : resolveParentRootForHeight cfg' d' slot.height = .ok root)
    (hbytes : cfg.oracles.asSszBytes built.payload ≠ [])
    (hdecode : cfg.oracles.fromSszBytes (cfg.oracles.asSszBytes built.payload) =
      some built.payload)
    (hblock : validateProposedTimestamp now latest (builtHeader cfg built) = .ok ()) :
    assemble cfg' d' latest now (streamed cfg ⟨slot.height, slot.round,
      Value.new cfg.oracles metadata⟩ a.data a.sidecars a.executionRequests) = .ok a := by
  obtain ⟨index, hindex, hmessage⟩ := buildSidecarHeaderMessage_eq_ok.1 h.message_eq
  obtain ⟨hcommitments, hkeccaks⟩ := entries_of_checkBundle h.bundle_ok cfg.oracles
  obtain ⟨-, hlisted, -⟩ := ValueMetadata.new?_eq_some h.metadata_eq
  have hsidecarCommitments : a.sidecars.map (·.kzgCommitment) = bundleCommitments built.bundle := by
    rw [h.sidecars_eq, ← hcommitments]
    exact map_sidecarsFrom (fun _ _ => rfl) _ 0
  have hsidecarKeccaks : a.sidecars.map (·.blobKeccak cfg.oracles) =
      bundleKeccaks cfg.oracles built.bundle := by
    rw [h.sidecars_eq, ← hkeccaks]
    exact map_sidecarsFrom (fun _ _ => rfl) _ 0
  have hparent := @proposalParentRoot_streamed cfg ⟨slot.height, slot.round,
    Value.new cfg.oracles metadata⟩ a.data a.sidecars a.executionRequests cfg' d' v index root
    metadata _ hkey hnet hroot hindex (hcommitments.trans hlisted.symm)
    (buildSidecars_eq_ok h.sidecars_ok).2 (hmessage ▸ h.sidecars_eq)
  have hassemble := @assemble_streamed cfg ⟨slot.height, slot.round, Value.new cfg.oracles metadata⟩
    a.data a.sidecars a.executionRequests cfg' d' latest now built.payload (builtHeader cfg built)
    metadata root a.blobMetadata (by rw [h.requests_eq]; exact h.requests_ok)
    (by rw [h.data_eq]; exact hbytes) (by rw [hnet.oracles, h.data_eq]; exact hdecode)
    (by rw [hnet.oracles, h.requests_eq]; rfl) (by rw [hsidecarCommitments]; exact h.metadata_eq)
    hblock hparent ?_
  · rw [hassemble, hnet.oracles, ← h.value_eq]
  · rw [hsidecarCommitments, hnet.oracles, hsidecarKeccaks, hnet.validatorIndex]
    exact h.row_eq

end Follow

/-! ## Agreement -/

/-- What was proposed, as the contents of its slot. -/
def Assembled.contents (a : Assembled) : SlotContents :=
  ⟨some a.value, some ⟨a.data, a.executionRequests⟩, some a.blobMetadata, a.sidecars⟩

/-- A free slot that is given a proposal with one sidecar per index holds just that. -/
theorem contents_received_of_sorted {slot : Slot} {d : Disk} {a : Assembled}
    (hfree : d.FreeSlot slot) (hslot : Slot.mk a.value.height a.value.round = slot)
    (hsorted : BlobStore.IndexSorted a.sidecars) :
    (d.received slot a).contents slot = a.contents := by
  rw [hfree.rows_received hslot, BlobStore.getUndecidedBlobs_putAll_of_sorted hsorted hfree.blobs]
  rfl

/-- **Proposer and follower agree.** A proposer streams what its engine built for a slot. A follower
of the same network, with the same row one height below, that has nothing stored for the slot and
whose `latest_block` and clock admit the block, receives the messages in any order. It answers with
the proposed value and holds exactly what was proposed; and so does the proposer, if its slot was
free. -/
theorem proposer_follower_agree {cfg cfg' : Config} {height : Height} {round : Round}
    {built : BuiltPayload} {lp : LocallyProposedValue} {messages received : List StreamMessage}
    {m₁ m₁' m₂ : Machine Disk Memory} {v : Validator} {now : Nat} {peer : PeerId}
    (hpropose : Returns (proposeBuilt cfg height round built) m₁ (lp, messages) m₁')
    (hnet : SameNetwork cfg cfg') (hkey : SignsAs cfg v)
    (hbytes : cfg.oracles.asSszBytes built.payload ≠ [])
    (hdecode : cfg.oracles.fromSszBytes (cfg.oracles.asSszBytes built.payload) =
      some built.payload)
    (hparent : m₂.disk.store.getBlobMetadata (height - 1) =
      m₁.disk.store.getBlobMetadata (height - 1))
    (hfree : m₂.disk.FreeSlot ⟨height, round⟩) (hcurrent : m₂.mem.currentHeight ≤ height)
    (hblock : validateProposedTimestamp now m₂.mem.latestBlock (builtHeader cfg built) = .ok ())
    (horder : received.Perm messages)
    (hfresh : ∀ msg ∈ messages, m₂.mem.streamsMap[StreamKey.mk peer msg.streamId]? = none) :
    ∃ (m₂' : Machine Disk Memory) (a : Assembled), Returns (deliver cfg' now peer received) m₂ [a.value] m₂' ∧
      a.value.value = lp.value ∧ m₂'.disk.contents ⟨height, round⟩ = a.contents ∧
      (m₁.disk.FreeSlot ⟨height, round⟩ → m₁'.disk.contents ⟨height, round⟩ = a.contents) := by
  obtain ⟨metadata, root, message, a, id, hproposed, rfl, hdisk, rfl⟩ :=
    proposeBuilt_inversion hpropose
  have hroot : resolveParentRootForHeight cfg' m₂.disk height = .ok root :=
    (resolveParentRootForHeight_congr hnet.oracles hparent).trans hproposed.root_eq
  have hassemble := hproposed.assembled hkey hnet hroot hbytes hdecode hblock
  have hslot : Slot.mk a.value.height a.value.round = ⟨height, round⟩ := by rw [hproposed.value_eq]
  have hsorted : BlobStore.IndexSorted a.sidecars := by
    rw [hproposed.sidecars_eq]
    exact indexSorted_sidecarsFrom _ 0
  have hkzg : kzgOk cfg' a.sidecars := by
    have := hproposed.kzg_ok
    unfold kzgOk at this ⊢
    rwa [hnet.oracles]
  obtain ⟨streams, hdeliver⟩ := @returns_deliver_streamed cfg now peer id m₂ cfg' _ _ _ _ _ horder
    (hfresh _ (mem_streamMessages.2 (.inr rfl)))
  refine ⟨_, a, (hdeliver a.value _).2 (returns_receivedProposal.2 ⟨hcurrent,
    verifyProposalSignature_streamed hkey hnet, a, hassemble, hkzg, hproposed.round_ne, rfl, rfl⟩),
    ?_, ?_, fun hfree₁ => ?_⟩
  · rw [hproposed.value_eq]
  · exact contents_received_of_sorted hfree hslot hsorted
  · rw [hdisk]
    exact contents_received_of_sorted hfree₁ hslot hsorted

namespace Sample

theorem signsAs_one : SignsAs (config 1) ⟨⟨1⟩, ⟨1⟩, 1⟩ := ⟨by decide, fun _ => rfl⟩

theorem sameNetwork (i j : Nat) : SameNetwork (config i) (config j) := ⟨rfl, rfl⟩

end Sample

open Sample in
/-- The node of validator 2 receives the messages of validator 1 last first. -/
theorem proposer_follower_agree_reversed :
    ∃ lp messages m₁' m₂', ∃ a : Assembled,
      Returns (proposeBuilt (config 1) 1 (.some 0) builtBlob) (node 1 [.start]).machine
        (lp, messages) m₁' ∧
      Returns (deliver (config 2) 1 0 messages.reverse) (node 2 [.start]).machine [a.value] m₂' ∧
      a.value.value = lp.value ∧ m₂'.disk.contents ⟨1, .some 0⟩ = a.contents ∧
      m₁'.disk.contents ⟨1, .some 0⟩ = a.contents := by
  have hok : ((proposeBuilt (config 1) 1 (.some 0) builtBlob).run
      (node 1 [.start]).machine).exit.okAnd (fun _ => true) = true := by decide +kernel
  obtain ⟨⟨lp, messages⟩, hexit, -⟩ := Exit.okAnd_iff.1 hok
  have hpropose : Returns (proposeBuilt (config 1) 1 (.some 0) builtBlob)
      (node 1 [.start]).machine (lp, messages) _ := ⟨hexit, rfl⟩
  have hstarted : (node 1 [.start]).machine.disk = ⟨started, .empty⟩ ∧
      (node 2 [.start]).machine.disk = ⟨started, .empty⟩ ∧
      (node 2 [.start]).machine.mem.currentHeight ≤ 1 ∧
      (node 2 [.start]).machine.mem.streamsMap = ∅ ∧
      validateProposedTimestamp 1 (node 2 [.start]).machine.mem.latestBlock
        (builtHeader (config 1) builtBlob) = .ok () := by decide +kernel
  obtain ⟨hdisk₁, hdisk₂, hcurrent, hstreams, hblock⟩ := hstarted
  have hfree : (⟨started, .empty⟩ : Disk).FreeSlot ⟨1, .some 0⟩ := (nothingAt_one rfl rfl).slot _
  obtain ⟨m₂', a, hdeliver, hvalue, hcontents, hown⟩ := @proposer_follower_agree (config 1)
    (config 2) 1 (.some 0) builtBlob lp messages messages.reverse _ _ (node 2 [.start]).machine
    _ 1 0 hpropose (sameNetwork 1 2) signsAs_one (by decide +kernel) (by decide +kernel)
    (by rw [hdisk₁, hdisk₂]) (hdisk₂ ▸ hfree) hcurrent hblock messages.reverse_perm
    (fun msg _ => by rw [hstreams]; rfl)
  exact ⟨lp, messages, _, m₂', a, hpropose, hdeliver, hvalue, hcontents, hown (hdisk₁ ▸ hfree)⟩

end Ultramarine
