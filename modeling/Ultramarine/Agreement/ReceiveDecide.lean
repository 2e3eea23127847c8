import Ultramarine.App.Run
import Ultramarine.State.CommitFrame

/-!
# From an accepted proposal to its decision

A proposal is checked when it is received (`assemble`) and again when it is decided
(`checkDecided`, `checkImported`). The second list has checks the first one lacks: the blob hashes
of the transactions, one blob for each commitment, and `prev_randao`. A proposal can therefore be
accepted, voted for and decided, and then be refused.

`ImportReady` says what is missing at the first check.

Results:

* `accepted_then_decided`: of an accepted proposal, the checks of its decision pass exactly if the
  proposal is `ImportReady`.
-/

namespace Ultramarine

open Lib Ssz Prog

/-- The errors of the checks that `process_decided_certificate` makes itself. -/
def Err.isDecideCheck : Err → Bool
  | .blobCountMismatch _ _ | .versionedHashMismatch | .prevRandaoMismatch | .parentHashMismatch =>
    true
  | _ => false

theorem Err.OfStore.not_decideCheck {e : Err} (h : e.OfStore) : e.isDecideCheck = false := by
  cases e <;> first | rfl | cases h

/-- The commitments of a proposal, in order, that have a sidecar with their index. -/
def ProposalParts.carried (parts : ProposalParts) : List KzgCommitment :=
  (List.range parts.sidecars.length).filterMap fun i =>
    if parts.sidecars.any (·.index = i) then (parts.sidecars.map (·.kzgCommitment))[i]? else none

/-- The blob hashes a proposal stands for when it is decided. -/
def ProposalParts.decidedHashes (o : Oracles) (parts : ProposalParts) (txHashes : List B256) :
    List B256 :=
  if txHashes = [] then versionedHashesFromCommitments o (parts.sidecars.map (·.kzgCommitment))
  else txHashes

/-- What a decision asks of a proposal and its receivers do not check: the fixed `prev_randao`, and
blobs for exactly the hashes the block stands for. -/
structure ImportReady (o : Oracles) (parts : ProposalParts) (payload : ExecutionPayloadV3)
    (txHashes : List B256) : Prop where
  prevRandao : payload.prevRandao = loadPrevRandao
  hashes : versionedHashesFromCommitments o parts.carried = parts.decidedHashes o txHashes

/-! ## What is stored of an accepted proposal -/

section Stored

variable {cfg : Config} {d : Disk} {latestBlock : Option ExecutionBlock} {now : Nat}
  {parts : ProposalParts} {payload : ExecutionPayloadV3} {metadata : ValueMetadata}
  {parentRoot : B256} {a : Assembled} {txHashes : List B256}

/-- Nothing decided is in the way of a free height. -/
theorem Disk.NothingAt.getDecidedBlobs {h : Height} (hnothing : d.NothingAt h) :
    d.blobs.getDecidedBlobs h = [] := by
  refine BlobStore.getDecidedBlobs_eq _ List.Pairwise.nil fun s => ?_
  rw [hnothing.blobs]
  simp

/-- The stored blobs have the commitments that the proposal carries. -/
theorem map_kept_carried
    (h : ∀ s ∈ parts.sidecars,
      (parts.sidecars.map (·.kzgCommitment))[s.index]? = some s.kzgCommitment) :
    (BlobStore.kept parts.sidecars.length parts.sidecars).map (·.kzgCommitment) =
      parts.carried := by
  unfold BlobStore.kept ProposalParts.carried
  rw [List.map_filterMap]
  refine List.filterMap_congr fun i _ => ?_
  cases hfind : parts.sidecars.reverse.find? (·.index = i) with
  | none =>
    have hno : ¬ parts.sidecars.any (·.index = i) = true := by
      rw [List.any_eq_true]
      rintro ⟨s, hs, hi⟩
      exact List.find?_eq_none.1 hfind s (List.mem_reverse.2 hs) hi
    rw [if_neg hno]
    rfl
  | some s =>
    have hs : s ∈ parts.sidecars := List.mem_reverse.1 (List.mem_of_find?_eq_some hfind)
    have hi : s.index = i := BlobStore.index_of_find? hfind
    have hyes : parts.sidecars.any (·.index = i) = true :=
      List.any_eq_true.2 ⟨s, hs, by simpa using hi⟩
    rw [if_pos hyes, ← hi, h s hs]
    rfl

/-- A proposal that stands for no blobs carries none. -/
theorem carried_of_decidedHashes {o : Oracles} (h : parts.decidedHashes o txHashes = []) :
    parts.carried = [] := by
  have hnil : parts.sidecars = [] := by
    unfold ProposalParts.decidedHashes at h
    split at h
    · simpa [versionedHashesFromCommitments] using h
    · rename_i hne
      exact absurd h hne
  unfold ProposalParts.carried
  rw [hnil]
  rfl

/-- The parent of an accepted block is the latest block of its receiver. -/
theorem AssembledFrom.parentHash_eq
    (hfrom : AssembledFrom cfg d latestBlock now parts payload metadata parentRoot a) :
    ∃ parent, latestBlock = some parent ∧ parent.blockHash = payload.parentHash := by
  have hts := hfrom.timestamp_ok
  rw [(ValueMetadata.new?_eq_some hfrom.metadata_eq).1] at hts
  obtain ⟨_, parent, hparent, hhash, _⟩ := validateProposedTimestamp_eq_ok.1 hts
  exact ⟨parent, hparent, hhash.symm⟩

variable (hfrom : AssembledFrom cfg d latestBlock now parts payload metadata parentRoot a)
  (hnothing : d.NothingAt parts.height)

include hfrom hnothing

theorem contents_accepted :
    (d.received ⟨parts.height, parts.round⟩ a).contents ⟨parts.height, parts.round⟩ =
      ⟨some a.value, some ⟨a.data, a.executionRequests⟩, some a.blobMetadata,
        BlobStore.kept parts.sidecars.length parts.sidecars⟩ := by
  obtain ⟨hcommitments, hcarried⟩ := hfrom.commitment_eq
  have hslot : Slot.mk a.value.height a.value.round = ⟨parts.height, parts.round⟩ := by
    rw [hfrom.value_eq]
  have hindex : ∀ s ∈ a.sidecars, s.index < parts.sidecars.length := by
    intro s hs
    rw [hfrom.sidecars_eq] at hs
    have hlt := (List.getElem?_eq_some_iff.1 (hcarried s hs)).1
    rwa [hcommitments, List.length_map] at hlt
  rw [(hnothing.slot parts.round).contents_received hslot hindex, hfrom.sidecars_eq]

/-- The record a decision reads is the payload that was assembled. -/
theorem loadBlockPayloadRecord_accepted :
    (d.received ⟨parts.height, parts.round⟩ a).store.loadBlockPayloadRecord
      ⟨parts.height, parts.round⟩ = some ⟨a.data, a.executionRequests⟩ := by
  have hdata := congrArg SlotContents.blockData (contents_accepted hfrom hnothing)
  unfold Store.loadBlockPayloadRecord
  exact congrArg (fun x => x <|> _) hdata

theorem expectedHashes_accepted :
    expectedHashes cfg (d.received ⟨parts.height, parts.round⟩ a).store
      ⟨parts.height, parts.round⟩ txHashes = parts.decidedHashes cfg.oracles txHashes := by
  have hproposal : (d.received ⟨parts.height, parts.round⟩ a).store.undecidedProposals[Slot.mk
      parts.height parts.round]? = some a.value :=
    congrArg SlotContents.proposal (contents_accepted hfrom hnothing)
  unfold expectedHashes ProposalParts.decidedHashes
  rw [hproposal, hfrom.value_eq, ← hfrom.commitment_eq.1]
  rfl

theorem forDecision_accepted :
    (d.received ⟨parts.height, parts.round⟩ a).blobs.forDecision ⟨parts.height, parts.round⟩ =
      BlobStore.kept parts.sidecars.length parts.sidecars := by
  have hkept : (d.received ⟨parts.height, parts.round⟩ a).blobs.getUndecidedBlobs parts.height
      parts.round.asI64 = BlobStore.kept parts.sidecars.length parts.sidecars :=
    congrArg SlotContents.blobs (contents_accepted hfrom hnothing)
  have hdecided : (d.received ⟨parts.height, parts.round⟩ a).blobs.getDecidedBlobs parts.height =
      [] := by
    unfold BlobStore.getDecidedBlobs
    rw [show (d.received ⟨parts.height, parts.round⟩ a).blobs.decided = d.blobs.decided from
      BlobStore.decided_putAll _ _ _ _]
    exact hnothing.getDecidedBlobs
  unfold BlobStore.forDecision
  rw [hkept, hdecided]
  split
  · rename_i hnil
    exact hnil.symm
  · rfl

/-- The hashes of the blobs a decision finds are those of the commitments the proposal carries. -/
theorem hashes_accepted :
    versionedHashesFromSidecars cfg.oracles
        ((d.received ⟨parts.height, parts.round⟩ a).blobs.forDecision
          ⟨parts.height, parts.round⟩) =
      versionedHashesFromCommitments cfg.oracles parts.carried := by
  obtain ⟨hcommitments, hcarried⟩ := hfrom.commitment_eq
  rw [hcommitments] at hcarried
  rw [forDecision_accepted hfrom hnothing, ← map_kept_carried hcarried,
    versionedHashesFromCommitments, List.map_map]
  rfl

end Stored

/-! ## The checks of a decision, one after the other -/

section Checks

variable {cfg : Config} {d : Disk} {slot : Slot} {bytes : Bytes} {payload : ExecutionPayloadV3}
  {txHashes : List B256}

/-- The checks before promotion, of a payload that decodes: they pass exactly if the blobs have the
hashes the block stands for. -/
theorem checkDecided_cases (hne : bytes ≠ [])
    (hpayload : cfg.oracles.fromSszBytes bytes = some payload)
    (htx : cfg.oracles.tryIntoBlock payload = some txHashes)
    (hblobs : expectedHashes cfg d.store slot txHashes = [] →
      versionedHashesFromSidecars cfg.oracles (d.blobs.forDecision slot) = []) :
    if versionedHashesFromSidecars cfg.oracles (d.blobs.forDecision slot) =
        expectedHashes cfg d.store slot txHashes then
      ∃ check, checkDecided cfg d slot bytes = .ok check ∧ check.payload = payload
    else ∃ e, checkDecided cfg d slot bytes = .error e ∧ e.isDecideCheck = true := by
  unfold checkDecided
  simp only [Exit.ensure, if_pos hne, hpayload, htx, Exit.ofOption, Exit.ok_bind]
  by_cases hnil : expectedHashes cfg d.store slot txHashes = []
  · rw [if_pos ((hblobs hnil).trans hnil.symm), if_pos hnil]
    exact ⟨_, rfl, rfl⟩
  rw [if_neg hnil]
  by_cases hlen : (d.blobs.forDecision slot).length =
      (expectedHashes cfg d.store slot txHashes).length
  · rw [if_pos hlen]
    by_cases heq : versionedHashesFromSidecars cfg.oracles (d.blobs.forDecision slot) =
        expectedHashes cfg d.store slot txHashes
    · rw [if_pos heq]
      simp only [heq, if_true]
      exact ⟨_, rfl, rfl⟩
    · rw [if_neg heq]
      simp only [heq, if_false]
      exact ⟨_, rfl, rfl⟩
  · have hne : versionedHashesFromSidecars cfg.oracles (d.blobs.forDecision slot) ≠
        expectedHashes cfg d.store slot txHashes := by
      intro heq
      exact hlen (by rw [← heq, versionedHashesFromSidecars, List.length_map])
    rw [if_neg hne, if_neg hlen]
    exact ⟨_, rfl, rfl⟩

theorem checkImported_cases (mem : Memory) (height : Height) (payload : ExecutionPayloadV3) :
    checkImported mem height payload = .ok () ∨
      ∃ e, checkImported mem height payload = .error e ∧ e.isDecideCheck = true := by
  unfold checkImported Exit.ensure
  split
  · rw [Exit.ok_bind]
    split
    · exact .inl rfl
    · exact .inr ⟨_, rfl, rfl⟩
  · exact .inr ⟨_, rfl, rfl⟩

/-- An engine that accepts the block does not hide a failed check. -/
theorem importBlock_error {script : EngineScript} {status : PayloadStatus}
    {m : Machine Disk Memory} {height : Height} {e : Err} (hscript : script.Accepts status)
    (hcheck : checkImported m.mem height payload = .error e) :
    ((importBlock height payload script).run m).exit = .error e := by
  obtain ⟨hnew, hstatus, _⟩ := hscript
  unfold importBlock
  rw [(returns_ofExit.2 ⟨hnew, rfl⟩).exit_bind]
  dsimp only
  rw [(returns_onlyIf.2 (.inr ⟨by simp, rfl⟩)).exit_bind (a := ()),
    (returns_ofExit.2 ⟨Exit.ensure_eq_ok.2 hstatus, rfl⟩).exit_bind (a := ())]
  simp only [run_getMem_bind, hcheck]
  rw [run_bind_error (e := e) rfl]

/-- With an engine that accepts, a decision whose first checks pass fails on a check exactly if the
imported block does. -/
theorem processDecided_checks {c : CommitCertificate} {script : EngineScript}
    {status : PayloadStatus} {m : Machine Disk Memory} {check : DecidedCheck}
    (hscript : script.Accepts status)
    (hcheck : checkDecided cfg m.disk ⟨c.height, c.round⟩ bytes = .ok check) :
    (∀ e, ((processDecidedCertificate cfg c bytes script).run m).exit = .error e →
        e.isDecideCheck = false) ↔
      checkImported m.mem c.height check.payload = .ok () := by
  rw [(processDecided_of_check script hcheck).1]
  unfold importAndCommit
  rcases checkImported_cases m.mem c.height check.payload with hok | ⟨e, he, hown⟩
  · rw [hok, (returns_importBlock (m := importing _ check m) hscript hok).exit_bind]
    exact ⟨fun _ => rfl, fun _ e he => (throws_afterImport check status true _ e he).not_decideCheck⟩
  · rw [he, run_bind_error (importBlock_error (m := importing _ check m) hscript he)]
    exact ⟨fun h => absurd (h e rfl) (by rw [hown]; decide), fun h => by cases h⟩

end Checks

/-- **From an accepted proposal to its decision.** A proposal is received at a height with nothing
stored, accepted and decided, and the engine accepts its payload. No check of the decision fails
exactly if the proposal is `ImportReady`. -/
theorem accepted_then_decided {cfg : Config} {m m' : Machine Disk Memory} {now : Nat}
    {peer : PeerId} {part : StreamMessage} {parts : ProposalParts} {v : ProposedValue}
    {c : CommitCertificate} {record : BlockPayloadRecord} {payload : ExecutionPayloadV3}
    {txHashes : List B256} {script : EngineScript} {status : PayloadStatus}
    (hparts : (PartStreamsMap.insert m.mem.streamsMap peer part).2 = some parts)
    (hnothing : m.disk.NothingAt v.height)
    (hreceived : Returns (receivedProposalPart cfg now peer part) m (some v) m')
    (hheight : c.height = v.height) (hround : c.round = v.round)
    (hrecord : m'.disk.store.loadBlockPayloadRecord ⟨c.height, c.round⟩ = some record)
    (hpayload : cfg.oracles.fromSszBytes record.executionPayloadSsz = some payload)
    (htx : cfg.oracles.tryIntoBlock payload = some txHashes)
    (hscript : script.Accepts status) :
    (∀ e, ((processDecidedCertificate cfg c record.executionPayloadSsz script).run m').exit =
        .error e → e.isDecideCheck = false) ↔
      ImportReady cfg.oracles parts payload txHashes := by
  obtain ⟨payload', metadata, parentRoot, a, hfrom, rfl, hdisk, hlatest, hexecuted⟩ :=
    receivedProposalPart_inversion hparts hreceived
  rw [hfrom.value_eq] at hheight hround hnothing
  have hslot : Slot.mk c.height c.round = ⟨parts.height, parts.round⟩ := by
    rw [hheight, hround]
  rw [hdisk, hslot] at hrecord
  cases hrecord.symm.trans (loadBlockPayloadRecord_accepted hfrom hnothing)
  cases hpayload.symm.trans hfrom.decode
  have hcases := @checkDecided_cases cfg m'.disk ⟨c.height, c.round⟩ _ _ _ hfrom.data_ne_nil
    hpayload htx
  rw [hdisk, hslot, expectedHashes_accepted hfrom hnothing, hashes_accepted hfrom hnothing,
    ← hdisk, ← hslot] at hcases
  have hcases := hcases fun h => by rw [carried_of_decidedHashes h]; rfl
  -- the parent of the block is the one it was received on
  obtain ⟨parent, hparent, hhash⟩ := hfrom.parentHash_eq
  have himported : checkImported m'.mem c.height payload = .ok () ↔
      payload.prevRandao = loadPrevRandao := by
    rw [checkImported_eq_ok, hlatest, hparent]
    exact and_iff_left fun _ => by simpa using hhash
  split at hcases
  · rename_i hhashes
    obtain ⟨check, hcheck, hcheckPayload⟩ := hcases
    rw [processDecided_checks hscript hcheck, hcheckPayload, himported]
    exact ⟨fun h => ⟨h, hhashes⟩, fun h => h.prevRandao⟩
  · rename_i hhashes
    obtain ⟨e, he, hown⟩ := hcases
    refine ⟨fun h => ?_, fun h => absurd h.hashes hhashes⟩
    have hexit : ((processDecidedCertificate cfg c a.data script).run m').exit = .error e := by
      unfold processDecidedCertificate
      simp only [run_getDisk_bind]
      rw [run_bind_error (e := e) (by rw [run_ofExit]; exact he)]
    rw [h e hexit] at hown
    cases hown

namespace Sample

/-- The parts of a stream of validator 2. -/
def partsOfTwo (p : ExecutionPayloadV3) : ProposalParts :=
  ⟨1, .some 0, ⟨2⟩, makeProposalParts (config 2) ⟨1, .some 0, value p⟩ (oracles.asSszBytes p) [] []
    ⟨2⟩⟩

/-- The certificate of a block of validator 2. -/
def certificateOf (p : ExecutionPayloadV3) : CommitCertificate := certificate 1 (.some 0) (value p)

end Sample

open Sample in
/-- A block of validator 2 that is accepted and whose decision passes its checks. -/
theorem accepted_then_decided_sample :
    Returns (receivedProposalPart (config 1) 1 0 lastMessage) (beforeLast (payload 1 0 1 0))
        (some (proposalOfTwo (payload 1 0 1 0))) (afterLast (payload 1 0 1 0)).state ∧
      ∀ e, ((processDecidedCertificate (config 1) (certificateOf (payload 1 0 1 0)) [1, 0, 1, 0]
        script).run (afterLast (payload 1 0 1 0)).state).exit = .error e →
          e.isDecideCheck = false := by
  have hreturns : Returns (receivedProposalPart (config 1) 1 0 lastMessage)
      (beforeLast (payload 1 0 1 0)) (some (proposalOfTwo (payload 1 0 1 0)))
      (afterLast (payload 1 0 1 0)).state := ⟨by decide +kernel, rfl⟩
  refine ⟨hreturns, (@accepted_then_decided (config 1) (beforeLast (payload 1 0 1 0))
    (afterLast (payload 1 0 1 0)).state 1 0 lastMessage (partsOfTwo (payload 1 0 1 0))
    (proposalOfTwo (payload 1 0 1 0)) (certificateOf (payload 1 0 1 0)) ⟨[1, 0, 1, 0], []⟩
    (payload 1 0 1 0) [] script .valid (by decide +kernel)
    (nothingAt_one (by decide +kernel) (by decide +kernel)) hreturns rfl rfl (by decide +kernel)
    (by decide +kernel) (by decide +kernel) ⟨by decide +kernel, by decide, by decide +kernel⟩).2 ?_⟩
  exact ⟨by decide +kernel, by decide +kernel⟩

open Sample in
/-- Two blocks of validator 2 that are accepted and that the engine accepts, and whose decisions
fail: one has another `prev_randao`, the other a blob transaction without a sidecar. -/
theorem accepted_then_refused :
    ((afterLast (payload 1 0 0 0)).exit = .ok (some (proposalOfTwo (payload 1 0 0 0))) ∧
      script.Accepts .valid ∧ (beforeLast (payload 1 0 0 0)).disk.NothingAt 1 ∧
      (afterLast (payload 1 0 0 0)).state.disk.store.loadBlockPayloadRecord ⟨1, .some 0⟩ =
        some ⟨[1, 0, 0, 0], []⟩ ∧
      ((processDecidedCertificate (config 1) (certificateOf (payload 1 0 0 0)) [1, 0, 0, 0]
        script).run (afterLast (payload 1 0 0 0)).state).exit = .error .prevRandaoMismatch) ∧
    ((afterLast (payload 1 0 1 1)).exit = .ok (some (proposalOfTwo (payload 1 0 1 1))) ∧
      (beforeLast (payload 1 0 1 1)).disk.NothingAt 1 ∧
      (afterLast (payload 1 0 1 1)).state.disk.store.loadBlockPayloadRecord ⟨1, .some 0⟩ =
        some ⟨[1, 0, 1, 1], []⟩ ∧
      ((processDecidedCertificate (config 1) (certificateOf (payload 1 0 1 1)) [1, 0, 1, 1]
        script).run (afterLast (payload 1 0 1 1)).state).exit = .error (.blobCountMismatch 1 0)) :=
  ⟨⟨by decide +kernel, ⟨by decide +kernel, by decide, by decide +kernel⟩,
      nothingAt_one (by decide +kernel) (by decide +kernel), by decide +kernel,
      by decide +kernel⟩,
    by decide +kernel, nothingAt_one (by decide +kernel) (by decide +kernel), by decide +kernel,
    by decide +kernel⟩

end Ultramarine
