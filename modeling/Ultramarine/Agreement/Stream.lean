import Ultramarine.State.Receive

/-!
# A streamed proposal and its receiver

What `stream_proposal` sends and what `received_proposal_part` makes of it, whatever the order of
arrival. The proposer signs a hash of the parts; the receiver recomputes it from the same parts
(`ProposalPart.hashInput`), so the `Fin` part does not enter it.

Results:

* `flatMap_dataParts`, `mergeRequests_dataParts`: the chunks carry the payload and the requests;
* `verifyProposalSignature_streamed`: the receiver accepts the signature of a validator;
* `returns_deliver`: messages that arrive in any order are handled as one complete proposal.
-/

namespace Ultramarine

open Lib Ssz Prog

/-! ## The data parts -/

/-- The definition, without its arguments: with them, checking it would count the chunks. -/
theorem dataParts_def : dataParts = fun data requests =>
    match chunks chunkSize data with
    | [] => if requests = [] then [] else [⟨[], requests⟩]
    | chunk :: rest => ⟨chunk, requests⟩ :: rest.map fun c => ⟨c, []⟩ := rfl

/-- The chunks, joined, are the payload. -/
theorem flatMap_dataParts (data : Bytes) (requests : List Bytes) :
    (dataParts data requests).flatMap (·.bytes) = data := by
  have hflat := @flatten_chunks _ chunkSize (by decide) data
  rw [dataParts_def]
  dsimp only
  generalize chunks chunkSize data = cs at hflat ⊢
  subst hflat
  cases cs with
  | nil =>
    dsimp only
    split <;> rfl
  | cons chunk rest =>
    simp only [List.flatMap_cons, List.flatMap_map]
    rw [List.flatten_cons, List.flatMap_def, List.map_id']

theorem mergeRequests_of_empty {acc : List Bytes} :
    ∀ {rest : List ProposalData}, (∀ d ∈ rest, d.executionRequests = []) →
      mergeRequests acc rest = .ok acc
  | [], _ => rfl
  | d :: rest, h => by
    unfold mergeRequests
    rw [if_pos (h d (List.mem_cons_self ..))]
    exact mergeRequests_of_empty fun d' hd' => h d' (List.mem_cons_of_mem _ hd')

theorem mergeRequests_cons {requests : List Bytes} {chunk : Bytes} {rest : List ProposalData}
    (h : ∀ d ∈ rest, d.executionRequests = []) :
    mergeRequests [] (⟨chunk, requests⟩ :: rest) = .ok requests := by
  unfold mergeRequests
  dsimp only
  split
  · rename_i hnil
    rw [hnil]
    exact mergeRequests_of_empty h
  · rw [if_pos rfl]
    exact mergeRequests_of_empty h

/-- The requests are found on the first chunk. -/
theorem mergeRequests_dataParts (data : Bytes) (requests : List Bytes) :
    mergeRequests [] (dataParts data requests) = .ok requests := by
  rw [dataParts_def]
  dsimp only
  generalize chunks chunkSize data = cs
  cases cs with
  | nil =>
    dsimp only
    split
    · rename_i hnil
      rw [hnil]
      rfl
    · exact mergeRequests_cons (by simp)
  | cons chunk rest =>
    refine mergeRequests_cons fun d hd => ?_
    obtain ⟨c, _, rfl⟩ := List.mem_map.1 hd
    rfl

variable {msg : StreamMessage} {answer : Option ProposedValue} {answers : List ProposedValue}
  {cfg' : Config} {streams : PartStreamsMap} {v : Validator}

/-! ## The parts of a proposal -/

section Streamed

variable (cfg : Config) (value : LocallyProposedValue) (data : Bytes)
  (sidecars : List BlobSidecar) (requests : List Bytes)

/-- The proposal a node streams in its own name, as a receiver assembles it. -/
def streamed : ProposalParts :=
  ⟨value.height, value.round, cfg.address,
    makeProposalParts cfg value data sidecars requests cfg.address⟩

/-- The signature of a proposal. -/
def streamSignature : Signature :=
  cfg.oracles.sign cfg.privateKey
    (proposalHash cfg.oracles (unsignedParts value data sidecars requests cfg.address))

/-- A proposal starts with its init part and ends with its signature. -/
theorem makeProposalParts_eq : makeProposalParts cfg value data sidecars requests cfg.address =
    .init ⟨value.height, value.round, cfg.address⟩ ::
      ((dataParts data requests).map .data ++ sidecars.map .blobSidecar ++
        [.fin (streamSignature cfg value data sidecars requests)]) := by
  unfold makeProposalParts unsignedParts streamSignature
  rw [List.cons_append]
  rfl

theorem streamed_parts : (streamed cfg value data sidecars requests).parts =
    [.init ⟨value.height, value.round, cfg.address⟩] ++ (dataParts data requests).map .data ++
      sidecars.map .blobSidecar ++ [.fin (streamSignature cfg value data sidecars requests)] := by
  unfold streamed
  rw [makeProposalParts_eq, List.append_assoc, List.append_assoc, List.append_assoc,
    List.singleton_append]

theorem streamed_data : (streamed cfg value data sidecars requests).data =
    dataParts data requests := by
  unfold ProposalParts.data
  rw [streamed_parts, List.filterMap_append, List.filterMap_append, List.filterMap_append,
    List.filterMap_map, List.filterMap_map]
  have hinit : [ProposalPart.init ⟨value.height, value.round, cfg.address⟩].filterMap
      ProposalPart.asData = [] := rfl
  have hdata : ProposalPart.asData ∘ ProposalPart.data = some := rfl
  have hsidecars : sidecars.filterMap (ProposalPart.asData ∘ ProposalPart.blobSidecar) = [] :=
    List.filterMap_eq_nil_iff.2 fun _ _ => rfl
  have hfin : ∀ signature, [ProposalPart.fin signature].filterMap ProposalPart.asData = [] :=
    fun _ => rfl
  rw [hinit, hdata, List.filterMap_some, hsidecars, hfin, List.nil_append, List.append_nil,
    List.append_nil]

theorem streamed_sidecars : (streamed cfg value data sidecars requests).sidecars = sidecars := by
  unfold ProposalParts.sidecars
  rw [streamed_parts, List.filterMap_append, List.filterMap_append, List.filterMap_append,
    List.filterMap_map, List.filterMap_map]
  simp [Function.comp_def, ProposalPart.asBlobSidecar, List.filterMap_cons]

theorem mem_makeProposalParts {part : ProposalPart}
    (h : part ∈ makeProposalParts cfg value data sidecars requests cfg.address) :
    part.asArchiveNotice = none := by
  unfold makeProposalParts unsignedParts at h
  simp only [List.mem_append, List.mem_cons, List.mem_map, List.not_mem_nil, or_false] at h
  rcases h with (rfl | ⟨d, _, rfl⟩ | ⟨s, _, rfl⟩) | rfl <;> rfl

/-- The receiver reads the signature of the last part. -/
theorem getLast?_asFin :
    ((makeProposalParts cfg value data sidecars requests cfg.address).filterMap
      ProposalPart.asFin).getLast? = some (streamSignature cfg value data sidecars requests) := by
  unfold makeProposalParts streamSignature
  rw [List.filterMap_append]
  exact List.getLast?_concat ..

/-- The signature is over all parts but itself. -/
theorem proposalHash_makeProposalParts (o : Oracles) :
    proposalHash o (makeProposalParts cfg value data sidecars requests cfg.address) =
      proposalHash o (unsignedParts value data sidecars requests cfg.address) := by
  unfold makeProposalParts proposalHash
  rw [List.flatMap_append]
  simp [ProposalPart.hashInput]

variable {cfg value data sidecars requests}

/-- The node signs with the key that the validator set has for it. -/
structure SignsAs (cfg : Config) (v : Validator) : Prop where
  member : cfg.validators.getByAddress cfg.address = some v
  verifies : ∀ msg, cfg.oracles.verify v.publicKey msg (cfg.oracles.sign cfg.privateKey msg) = true

/-- Two nodes of one network: the same primitives and the same validators. -/
structure SameNetwork (cfg cfg' : Config) : Prop where
  oracles : cfg'.oracles = cfg.oracles
  validators : cfg'.validators = cfg.validators

theorem SameNetwork.validatorIndex {cfg : Config} (h : SameNetwork cfg cfg') (a : Address) :
    cfg'.validatorIndex a = cfg.validatorIndex a := by
  unfold Config.validatorIndex
  rw [h.validators]

/-- A receiver of the same network accepts the signature. -/
theorem verifyProposalSignature_streamed (hkey : SignsAs cfg v) (hnet : SameNetwork cfg cfg') :
    verifyProposalSignature cfg' (streamed cfg value data sidecars requests) = .ok () := by
  have hlast := getLast?_asFin cfg value data sidecars requests
  unfold verifyProposalSignature streamed
  simp only [Exit.bind_eq_ok, Exit.ensure_eq_ok, Exit.ofOption_eq_ok, exists_const]
  refine ⟨fun p hp => mem_makeProposalParts cfg value data sidecars requests hp, _, hlast, v, ?_, ?_⟩
  · rw [hnet.validators]
    exact hkey.member
  · rw [hnet.oracles, proposalHash_makeProposalParts]
    exact hkey.verifies _

/-- **What a receiver assembles from a stream**: payload and requests as they were sent, and the row
its own tables chain the block to. -/
theorem assemble_streamed {cfg' : Config} {d : Disk} {latest : Option ExecutionBlock} {now : Nat}
    {payload : ExecutionPayloadV3} {header : ExecutionPayloadHeader} {metadata : ValueMetadata}
    {root : B256} {row : BlobMetadata}
    (hrequests : validateExecutionRequests requests = .ok ()) (hbytes : data ≠ [])
    (hdecode : cfg'.oracles.fromSszBytes data = some payload)
    (hheader : header = fromPayload cfg'.oracles payload
      (some (cfg'.oracles.computeRequestsHash requests)))
    (hmetadata : ValueMetadata.new? header (sidecars.map (·.kzgCommitment)) = some metadata)
    (hblock : validateProposedTimestamp now latest header = .ok ())
    (hroot : proposalParentRoot cfg' d (streamed cfg value data sidecars requests) metadata =
      .ok root)
    (hrow : blockMetadata? value.height root (sidecars.map (·.kzgCommitment))
      (sidecars.map (·.blobKeccak cfg'.oracles)) header (cfg'.validatorIndex cfg.address) =
        some row) :
    assemble cfg' d latest now (streamed cfg value data sidecars requests) =
      .ok ⟨⟨value.height, value.round, .nil, cfg.address, Value.new cfg'.oracles metadata, .valid⟩,
        data, requests, sidecars, row⟩ := by
  subst hheader
  obtain ⟨hheader, hlisted, -⟩ := ValueMetadata.new?_eq_some hmetadata
  refine assemble_eq_ok.2 ⟨payload, metadata, root, ?_, hrequests, ?_, hbytes, hdecode, ?_, ?_,
    hroot, ?_, rfl, ?_⟩
  · rw [streamed_data]
    exact mergeRequests_dataParts _ _
  · rw [streamed_data, flatMap_dataParts]
  · rw [streamed_sidecars]
    exact hmetadata
  · rw [hheader]
    exact hblock
  · rw [streamed_sidecars, hlisted, hheader]
    exact hrow
  · rw [streamed_sidecars]

/-- A header that a node signs verifies under its key. -/
theorem verifySignature_signHeader (hkey : SignsAs cfg v) (message : BeaconBlockHeader) :
    (signHeader cfg message).verifySignature cfg.oracles v.publicKey = true :=
  hkey.verifies _

/-- The header that the sidecars of a block carry, for a proposer index and a parent root. -/
def sidecarHeader (o : Oracles) (height : Height) (index : Nat) (root : B256)
    (commitments : List KzgCommitment) (header : ExecutionPayloadHeader) : BeaconBlockHeader where
  slot := height
  proposerIndex := index
  parentRoot := root
  stateRoot := header.stateRoot
  bodyRoot := computeBodyRoot o (fromUltramarineData o commitments header)

/-- A receiver with the same parent row chains a block to it, if the sidecars carry the proposer
index of the node that streams them. -/
theorem proposalParentRoot_streamed {cfg' : Config} {d : Disk} {v : Validator} {index : Nat}
    {root : B256} {metadata : ValueMetadata} {entries : List (Blob × KzgCommitment × KzgProof)}
    (hkey : SignsAs cfg v) (hnet : SameNetwork cfg cfg')
    (hroot : resolveParentRootForHeight cfg' d value.height = .ok root)
    (hindex : cfg.validatorIndex cfg.address = some index)
    (hcommitments : entries.map (·.2.1) = metadata.blobKzgCommitments)
    (hlen : entries ≠ [] → metadata.blobKzgCommitments.length ≤ maxBlobCommitmentsPerBlock)
    (hsidecars : sidecars = sidecarsFrom cfg.oracles metadata.blobKzgCommitments
      metadata.executionPayloadHeader (signHeader cfg (sidecarHeader cfg.oracles value.height index
        root metadata.blobKzgCommitments metadata.executionPayloadHeader)) 0 entries) :
    proposalParentRoot cfg' d (streamed cfg value data sidecars requests) metadata = .ok root := by
  have hheight : (streamed cfg value data sidecars requests).height = value.height := rfl
  have hproposer : (streamed cfg value data sidecars requests).proposer = cfg.address := rfl
  unfold proposalParentRoot
  rw [streamed_sidecars, hheight, hproposer]
  split
  · exact hroot
  · rename_i hne
    have hentries : entries ≠ [] := by
      rintro rfl
      exact hne hsidecars
    have hok := @sidecarsOk_sidecarsFrom cfg.oracles (signHeader cfg (sidecarHeader cfg.oracles
      value.height index root metadata.blobKzgCommitments metadata.executionPayloadHeader)) cfg' d
      cfg.address metadata entries hnet.oracles hentries hcommitments (hlen hentries)
      ((hnet.validatorIndex _).trans hindex)
      ⟨v, by rw [hnet.validators]; exact hkey.member, verifySignature_signHeader hkey _⟩ rfl hroot
    rw [← hsidecars] at hok
    simp only [Exit.bind_eq_ok, Exit.pure_eq_ok, Exit.ok.injEq]
    exact ⟨_, verifyBlobSidecars_eq_ok.2 hok, rfl⟩

end Streamed

/-! ## Delivery -/

/-- The messages of a peer arrive one after the other; the values that the receiver answers with. -/
def deliver (cfg : Config) (now : Nat) (peer : PeerId) : List StreamMessage → Act (List ProposedValue)
  | [] => pure []
  | msg :: rest => do
    let answer ← receivedProposalPart cfg now peer msg
    let answers ← deliver cfg now peer rest
    pure (answer.toList ++ answers)

section Deliver

variable {cfg : Config} {now : Nat} {peer : PeerId} {id : Bytes} {i : ProposalInit}
  {rest : List ProposalPart} {m m' : Machine Disk Memory}

theorem collected_nil : StreamState.collected id i rest [] = .new := by
  unfold StreamState.collected StreamState.new
  simp

/-- A message that does not complete its stream is only buffered. -/
theorem returns_receivedProposalPart_none
    (h : PartStreamsMap.insert m.mem.streamsMap peer msg = (streams, none)) :
    Returns (receivedProposalPart cfg now peer msg) m answer m' ↔
      none = answer ∧ ⟨m.disk, m.mem.withStreams streams⟩ = m' := by
  unfold receivedProposalPart
  rw [returns_getMem_bind, h]
  exact returns_modifyMem_bind.trans returns_pure

theorem returns_receivedProposalPart_some {parts : ProposalParts}
    (h : PartStreamsMap.insert m.mem.streamsMap peer msg = (streams, some parts)) :
    Returns (receivedProposalPart cfg now peer msg) m answer m' ↔
      Returns (receivedProposal cfg now parts) ⟨m.disk, m.mem.withStreams streams⟩ answer m' := by
  unfold receivedProposalPart
  rw [returns_getMem_bind, h]
  exact returns_modifyMem_bind

theorem returns_deliver_nil :
    Returns (deliver cfg now peer []) m answers m' ↔ [] = answers ∧ m = m' := returns_pure

theorem returns_deliver_cons {l : List StreamMessage} :
    Returns (deliver cfg now peer (msg :: l)) m answers m' ↔
      ∃ answer m₁ answers', Returns (receivedProposalPart cfg now peer msg) m answer m₁ ∧
        Returns (deliver cfg now peer l) m₁ answers' m' ∧ answer.toList ++ answers' = answers := by
  have heq : deliver cfg now peer (msg :: l) = (do
      let answer ← receivedProposalPart cfg now peer msg
      let answers ← deliver cfg now peer l
      pure (answer.toList ++ answers)) := rfl
  rw [heq, returns_bind]
  refine exists_congr fun answer => exists_congr fun m₁ => ?_
  rw [returns_bind]
  constructor
  · rintro ⟨hr, answers', m₂, hrest, hpure⟩
    obtain ⟨rfl, rfl⟩ := returns_pure.1 hpure
    exact ⟨answers', hr, hrest, rfl⟩
  · rintro ⟨answers', hr, hrest, rfl⟩
    exact ⟨hr, answers', m', hrest, returns_pure.2 ⟨rfl, rfl⟩⟩

/-- The rest of a stream of which the messages `l` have arrived. -/
theorem returns_deliver_from :
    ∀ (l' l : List StreamMessage) (m : Machine Disk Memory), l' ≠ [] →
      (l ++ l').Perm (streamMessages id (.init i :: rest)) →
      (m.mem.streamsMap[StreamKey.mk peer id]?).getD .new = .collected id i rest l →
      ∃ streams, ∀ answers m', Returns (deliver cfg now peer l') m answers m' ↔
        ∃ answer, answers = answer.toList ∧
          Returns (receivedProposal cfg now ⟨i.height, i.round, i.proposer, .init i :: rest⟩)
            ⟨m.disk, m.mem.withStreams streams⟩ answer m'
  | [], _, _, hne, _, _ => absurd rfl hne
  | msg :: l', l, m, _, hperm, hstate => by
    have happend : l ++ msg :: l' = (l ++ [msg]) ++ l' := by simp
    have hsub : (l ++ [msg]).Subperm (streamMessages id (.init i :: rest)) := by
      rw [happend] at hperm
      exact (List.sublist_append_left _ _).subperm.trans hperm.subperm
    have hinsert := PartStreamsMap.insert_collected hstate hsub
    have hlen := hperm.length_eq
    simp only [List.length_append, List.length_cons, length_streamMessages] at hlen
    cases l' with
    | nil =>
      -- the last message completes the stream
      rw [if_pos (by simpa using hlen)] at hinsert
      refine ⟨Std.ExtTreeMap.insert m.mem.streamsMap ⟨peer, id⟩
        (StreamState.emitted id i rest (l ++ [msg])), fun answers m' => ?_⟩
      rw [returns_deliver_cons]
      constructor
      · rintro ⟨answer, m₁, answers', hr, hnil, rfl⟩
        obtain ⟨rfl, rfl⟩ := returns_deliver_nil.1 hnil
        exact ⟨answer, by simp, (returns_receivedProposalPart_some hinsert).1 hr⟩
      · rintro ⟨answer, rfl, hr⟩
        exact ⟨answer, m', [], (returns_receivedProposalPart_some hinsert).2 hr,
          returns_deliver_nil.2 ⟨rfl, rfl⟩, by simp⟩
    | cons msg' l'' =>
      simp only [List.length_cons] at hlen
      rw [if_neg (by omega)] at hinsert
      have hget : ((Std.ExtTreeMap.insert m.mem.streamsMap ⟨peer, id⟩
          (StreamState.collected id i rest (l ++ [msg])))[StreamKey.mk peer id]?).getD .new =
            .collected id i rest (l ++ [msg]) := by
        rw [Table.getElem?_insert_eq, if_pos rfl]
        rfl
      obtain ⟨streams, hrest⟩ := returns_deliver_from (msg' :: l'') (l ++ [msg])
        ⟨m.disk, m.mem.withStreams _⟩ (by simp) (by rw [← happend]; exact hperm) hget
      refine ⟨streams, fun answers m' => Iff.trans ?_ (hrest answers m')⟩
      rw [returns_deliver_cons]
      constructor
      · rintro ⟨answer, m₁, answers', hr, hmore, rfl⟩
        obtain ⟨rfl, rfl⟩ := (returns_receivedProposalPart_none hinsert).1 hr
        exact hmore
      · intro hmore
        exact ⟨none, _, answers, (returns_receivedProposalPart_none hinsert).2 ⟨rfl, rfl⟩, hmore, rfl⟩

/-- **Messages that arrive in any order** are handled as the proposal they were cut from. -/
theorem returns_deliver {l : List StreamMessage}
    (hperm : l.Perm (streamMessages id (.init i :: rest)))
    (hfresh : m.mem.streamsMap[StreamKey.mk peer id]? = none) :
    ∃ streams, ∀ answers m', Returns (deliver cfg now peer l) m answers m' ↔
      ∃ answer, answers = answer.toList ∧
        Returns (receivedProposal cfg now ⟨i.height, i.round, i.proposer, .init i :: rest⟩)
          ⟨m.disk, m.mem.withStreams streams⟩ answer m' := by
  have hne : l ≠ [] := by
    rintro rfl
    simpa using hperm.length_eq
  refine returns_deliver_from l [] m hne (by simpa using hperm) ?_
  rw [hfresh, collected_nil]
  rfl

/-- **A proposal that a node streams** is accepted or not as it was streamed. -/
theorem returns_deliver_streamed {cfg' : Config} {value : LocallyProposedValue} {data : Bytes}
    {sidecars : List BlobSidecar} {requests : List Bytes} {l : List StreamMessage}
    (hperm : l.Perm (streamMessages id
      (makeProposalParts cfg value data sidecars requests cfg.address)))
    (hfresh : m.mem.streamsMap[StreamKey.mk peer id]? = none) :
    ∃ streams, ∀ v m', Returns (deliver cfg' now peer l) m [v] m' ↔
      Returns (receivedProposal cfg' now (streamed cfg value data sidecars requests))
        ⟨m.disk, m.mem.withStreams streams⟩ (some v) m' := by
  unfold streamed
  rw [makeProposalParts_eq] at hperm ⊢
  obtain ⟨streams, hdeliver⟩ := @returns_deliver cfg' now peer id _ _ m l hperm hfresh
  refine ⟨streams, fun v m' => (hdeliver [v] m').trans ⟨?_, fun hr => ⟨some v, rfl, hr⟩⟩⟩
  rintro ⟨answer, hanswer, hr⟩
  cases answer with
  | none => cases hanswer
  | some v' =>
    cases hanswer
    exact hr

end Deliver

end Ultramarine
