import Ultramarine.App.Run

/-!
# Asking the engine for a block

`ExecutionClient::generate_block_with_blobs` of `execution/src/client.rs`. A forkchoice update with
payload attributes starts the build; it is repeated while the engine is syncing or names no payload,
up to a configured number of attempts. The payload is then fetched, its blob bundle validated, and
checked against the block it was to be built on.

The engine is a parameter, an answer to every call. Sums of `u64` wrap, as in a release build.

Results:

* `calls_retry_le`: how often the engine is asked;
* `generate_eq_ok`: what a block that is returned satisfies;
* `generated_block_iff`: the block is the child of its parent, at the expected time, and a validator
  with the same parent accepts its timestamp, exactly when none of the sums wraps.
-/

namespace Ultramarine

open Lib Ssz

/-- `PayloadAttributes` -/
structure PayloadAttributes where
  timestamp : Nat
  prevRandao : B256
  suggestedFeeRecipient : Address
  withdrawals : List Withdrawal
  parentBeaconBlockRoot : B256
deriving DecidableEq

/-- `ForkchoiceUpdated` -/
structure ForkchoiceUpdated where
  status : PayloadStatus
  latestValidHash : Option B256
  payloadId : Option (BitVec 64)
deriving DecidableEq

/-- `ExecutionPayloadEnvelopeV4`; a bundle without blobs is the empty one. -/
structure PayloadEnvelope where
  payload : ExecutionPayloadV3
  executionRequests : List Bytes
  blobsBundle : BlobsBundle
deriving DecidableEq

/-- The engine: its answer to each forkchoice call, by the number of the call, and the payload behind
each id. `none` is a call that fails. -/
structure BuildEngine where
  forkchoiceUpdated : B256 → PayloadAttributes → Nat → Option ForkchoiceUpdated
  getPayload : BitVec 64 → Option PayloadEnvelope

/-- Why no block is returned. -/
inductive BuildErr where
  | engine
  | latestValidHash
  | noPayloadId
  | syncingWithPayloadId
  | stillSyncing
  | accepted
  | status
  | bundle
  | blobsMissing
  | blobsUnexpected
  | builtPayloadMismatch
deriving DecidableEq, Repr

/-! ## The forkchoice call -/

/-- What the loop does with an answer: return it, fail, or call again unless the attempts are used
up. -/
inductive RetryStep where
  | done (res : ForkchoiceUpdated)
  | fail (e : BuildErr)
  | again (e : BuildErr)
deriving DecidableEq

/-- One pass of the loop of `forkchoice_updated_with_attributes_retry`. -/
def retryStep (head : B256) : Option ForkchoiceUpdated → RetryStep
  | none => .fail .engine
  | some res =>
    match res.status with
    | .valid =>
      if res.latestValidHash ≠ some head then .fail .latestValidHash
      else if res.payloadId = none then .again .noPayloadId
      else .done res
    | .syncing => if res.payloadId ≠ none then .fail .syncingWithPayloadId else .again .stillSyncing
    | .accepted => .fail .accepted
    | .invalid => .fail .status

/-- `forkchoice_updated_with_attributes_retry`, after `attempts` calls and with `left` more to make
after the next one: the number of calls made, and what they came to. -/
def forkchoiceUpdatedWithAttributesRetry (head : B256) (answers : Nat → Option ForkchoiceUpdated) :
    (left attempts : Nat) → Nat × Exit BuildErr ForkchoiceUpdated
  | 0, attempts =>
    match retryStep head (answers attempts) with
    | .done res => (attempts + 1, .ok res)
    | .fail e => (attempts + 1, .error e)
    | .again e => (attempts + 1, .error e)
  | left + 1, attempts =>
    match retryStep head (answers attempts) with
    | .done res => (attempts + 1, .ok res)
    | .fail e => (attempts + 1, .error e)
    | .again _ => forkchoiceUpdatedWithAttributesRetry head answers left (attempts + 1)

variable {built : BuiltPayload} {res : ForkchoiceUpdated} {timestamp : Nat}

section Retry

variable {head : B256} {answers : Nat → Option ForkchoiceUpdated}

/-- The loop makes at most `left` calls after its first one. -/
theorem calls_retry_le (left attempts : Nat) :
    (forkchoiceUpdatedWithAttributesRetry head answers left attempts).1 ≤ attempts + left + 1 := by
  induction left generalizing attempts with
  | zero =>
    unfold forkchoiceUpdatedWithAttributesRetry
    split <;> simp
  | succ left ih =>
    unfold forkchoiceUpdatedWithAttributesRetry
    split
    · simp only
      omega
    · simp only
      omega
    · have hle := ih (attempts + 1)
      omega

end Retry

/-! ## The payload -/

/-- `BlobsBundle::validate` -/
def BlobsBundle.validate (b : BlobsBundle) : Exit BuildErr Unit := do
  Exit.ensure (b.blobs.length = b.commitments.length ∧ b.blobs.length = b.proofs.length) .bundle
  Exit.ensure (b.blobs.length ≤ maxBlobsPerBlock) .bundle

/-- `EngineApiClient::get_payload_with_blobs`: a bundle without blobs is none. -/
def getPayloadWithBlobs (answer : Option PayloadEnvelope) : Exit BuildErr BuiltPayload := do
  let envelope ← Exit.ofOption .engine answer
  if envelope.blobsBundle.blobs = [] then
    pure ⟨envelope.payload, envelope.executionRequests, none⟩
  else
    envelope.blobsBundle.validate
    pure ⟨envelope.payload, envelope.executionRequests, some envelope.blobsBundle⟩

/-- The number of blobs of a built payload. -/
def BuiltPayload.blobCount (b : BuiltPayload) : Nat := (b.bundle.map (·.blobs.length)).getD 0

/-- A fetched bundle has a blob and a proof for every commitment, at least one, and no more than the
protocol allows. -/
theorem getPayloadWithBlobs_eq_ok {answer : Option PayloadEnvelope}
    (h : getPayloadWithBlobs answer = .ok built) {bundle : BlobsBundle}
    (hbundle : built.bundle = some bundle) :
    bundle.blobs ≠ [] ∧ bundle.blobs.length = bundle.commitments.length ∧
      bundle.blobs.length = bundle.proofs.length ∧ bundle.blobs.length ≤ maxBlobsPerBlock := by
  unfold getPayloadWithBlobs BlobsBundle.validate at h
  obtain ⟨envelope, _, h⟩ := Exit.bind_eq_ok.1 h
  split at h
  · cases h
    cases hbundle
  · rename_i hne
    simp only [Exit.bind_eq_ok, Exit.ensure_eq_ok, Exit.pure_eq_ok, Exit.ok.injEq] at h
    obtain ⟨_, ⟨_, ⟨hcommitments, hproofs⟩, hmax⟩, rfl⟩ := h
    cases hbundle
    exact ⟨hne, hcommitments, hproofs, hmax⟩

/-- `next_block_timestamp` -/
def nextBlockTimestamp (now parentTimestamp : Nat) : Nat :=
  max now (addU64 parentTimestamp loadMinBlockTimeSecs)

/-- The payload attributes of `generate_block_with_blobs`. -/
def buildAttributes (latest : ExecutionBlock) (timestamp : Nat) : PayloadAttributes where
  timestamp := timestamp
  prevRandao := loadPrevRandao
  suggestedFeeRecipient := ⟨0x2a2a2a2a2a2a2a2a2a2a2a2a2a2a2a2a2a2a2a2a⟩
  withdrawals := []
  parentBeaconBlockRoot := latest.blockHash

/-- What `generate_block_with_blobs` checks of the payload it fetched. -/
def checkBuilt (latest : ExecutionBlock) (timestamp : Nat) (built : BuiltPayload) :
    Exit BuildErr Unit := do
  Exit.ensure (¬ (0 < built.payload.blobGasUsed ∧ built.blobCount = 0)) .blobsMissing
  Exit.ensure (¬ (built.payload.blobGasUsed = 0 ∧ 0 < built.blobCount)) .blobsUnexpected
  Exit.ensure (built.payload.parentHash = latest.blockHash ∧
    built.payload.blockNumber = addU64 latest.blockNumber 1 ∧
    built.payload.timestamp = timestamp) .builtPayloadMismatch

/-- The part of `generate_block_with_blobs` after the forkchoice call. -/
def fetchBuilt (engine : BuildEngine) (latest : ExecutionBlock) (timestamp : Nat)
    (res : ForkchoiceUpdated) : Exit BuildErr BuiltPayload :=
  match res.status with
  | .valid => do
    let id ← Exit.ofOption .noPayloadId res.payloadId
    let built ← getPayloadWithBlobs (engine.getPayload id)
    checkBuilt latest timestamp built
    pure built
  | .accepted => .error .accepted
  | .syncing => .error .status
  | .invalid => .error .status

/-- `forkchoice_with_attrs_max_attempts`: at least one attempt, ten unless configured. -/
def maxAttempts (configured : Option Nat) : Nat := max (configured.getD 10) 1

/-- `ExecutionClient::generate_block_with_blobs`: the number of forkchoice calls, and the block. -/
def generateBlockWithBlobs (configured : Option Nat) (now : Nat) (engine : BuildEngine)
    (latest : ExecutionBlock) : Nat × Exit BuildErr BuiltPayload :=
  let timestamp := nextBlockTimestamp now latest.timestamp
  let answers := engine.forkchoiceUpdated latest.blockHash (buildAttributes latest timestamp)
  let called := forkchoiceUpdatedWithAttributesRetry latest.blockHash answers
    (maxAttempts configured - 1) 0
  (called.1, called.2 >>= fetchBuilt engine latest timestamp)

section Generate

variable {configured : Option Nat} {now : Nat} {engine : BuildEngine} {latest : ExecutionBlock}

/-- **At most the configured number of calls.** -/
theorem calls_generate_le :
    (generateBlockWithBlobs configured now engine latest).1 ≤ max 1 (configured.getD 10) := by
  have hle : (generateBlockWithBlobs configured now engine latest).1 ≤
      0 + (maxAttempts configured - 1) + 1 := calls_retry_le _ 0
  have hpos : 1 ≤ maxAttempts configured := le_max_right _ _
  calc (generateBlockWithBlobs configured now engine latest).1
      ≤ 0 + (maxAttempts configured - 1) + 1 := hle
    _ = maxAttempts configured := by omega
    _ = max 1 (configured.getD 10) := max_comm _ _

/-- What a block that is returned satisfies. -/
structure BuiltOn (now : Nat) (latest : ExecutionBlock) (built : BuiltPayload) : Prop where
  parentHash : built.payload.parentHash = latest.blockHash
  blockNumber : built.payload.blockNumber = addU64 latest.blockNumber 1
  timestamp : built.payload.timestamp = nextBlockTimestamp now latest.timestamp
  blobs : built.blobCount ≠ 0 ↔ built.payload.blobGasUsed ≠ 0

theorem checkBuilt_eq_ok :
    checkBuilt latest timestamp built = .ok () ↔
      (built.blobCount ≠ 0 ↔ built.payload.blobGasUsed ≠ 0) ∧
        built.payload.parentHash = latest.blockHash ∧
        built.payload.blockNumber = addU64 latest.blockNumber 1 ∧
        built.payload.timestamp = timestamp := by
  simp only [checkBuilt, Exit.bind_eq_ok, Exit.ensure_eq_ok, exists_const]
  constructor
  · rintro ⟨hmissing, hunexpected, hchecked⟩
    exact ⟨by omega, hchecked⟩
  · rintro ⟨hblobs, hchecked⟩
    exact ⟨by omega, by omega, hchecked⟩

theorem fetchBuilt_eq_ok (h : fetchBuilt engine latest timestamp res = .ok built) :
    (∃ id, getPayloadWithBlobs (engine.getPayload id) = .ok built) ∧
      checkBuilt latest timestamp built = .ok () := by
  unfold fetchBuilt at h
  cases hstatus : res.status with
  | valid =>
    simp only [hstatus, Exit.bind_eq_ok, Exit.pure_eq_ok, Exit.ok.injEq] at h
    obtain ⟨id, _, _, hbuilt, ⟨⟩, hcheck, rfl⟩ := h
    exact ⟨⟨id, hbuilt⟩, hcheck⟩
  | accepted =>
    simp only [hstatus] at h
    cases h
  | syncing =>
    simp only [hstatus] at h
    cases h
  | invalid =>
    simp only [hstatus] at h
    cases h

/-- **What the returned block is built on.** -/
theorem generate_eq_ok (h : (generateBlockWithBlobs configured now engine latest).2 = .ok built) :
    (∃ id, getPayloadWithBlobs (engine.getPayload id) = .ok built) ∧ BuiltOn now latest built := by
  obtain ⟨res, _, hfetch⟩ := Exit.bind_eq_ok.1 h
  obtain ⟨hpayload, hcheck⟩ := fetchBuilt_eq_ok hfetch
  obtain ⟨hblobs, hparent, hnumber, htimestamp⟩ := checkBuilt_eq_ok.1 hcheck
  exact ⟨hpayload, hparent, hnumber, htimestamp, hblobs⟩

end Generate

/-! ## Proposer and validator -/

/-- The block is the child of `latest`, at the expected time, with blobs exactly if it used blob gas.
The sums are exact. -/
structure ChildOf (now : Nat) (latest : ExecutionBlock) (built : BuiltPayload) : Prop where
  parentHash : built.payload.parentHash = latest.blockHash
  blockNumber : built.payload.blockNumber = latest.blockNumber + 1
  timestamp : built.payload.timestamp = max now (latest.timestamp + loadMinBlockTimeSecs)
  blobs : built.blobCount ≠ 0 ↔ built.payload.blobGasUsed ≠ 0

/-- A validator with the parent `latest`, whose clock is not more than the drift behind, accepts the
timestamp of the block. -/
def TimestampAccepted (clock : Nat) (latest : ExecutionBlock) (built : BuiltPayload) : Prop :=
  built.payload.timestamp ≤ clock + loadMaxFutureDriftSecs → ∀ (o : Oracles) (hash : Option B256),
    validateProposedTimestamp clock (some latest) (fromPayload o built.payload hash) = .ok ()

/-- The empty block an engine may build on `latest`. -/
def obligingPayload (latest : ExecutionBlock) (timestamp : Nat) : ExecutionPayloadV3 where
  parentHash := latest.blockHash
  feeRecipient := ⟨0⟩
  stateRoot := 0
  receiptsRoot := 0
  logsBloom := 0
  prevRandao := loadPrevRandao
  blockNumber := addU64 latest.blockNumber 1
  gasLimit := 0
  gasUsed := 0
  timestamp := timestamp
  extraData := []
  baseFeePerGas := 0
  blockHash := 0
  transactions := []
  withdrawals := []
  blobGasUsed := 0
  excessBlobGas := 0

/-- An engine that builds an empty block at once. -/
def obliging (latest : ExecutionBlock) (timestamp : Nat) : BuildEngine where
  forkchoiceUpdated head _ _ := some ⟨.valid, some head, some 0⟩
  getPayload _ := some ⟨obligingPayload latest timestamp, [], ⟨[], [], []⟩⟩

theorem generate_obliging (configured : Option Nat) (now : Nat) (latest : ExecutionBlock) :
    (generateBlockWithBlobs configured now
      (obliging latest (nextBlockTimestamp now latest.timestamp)) latest).2 =
        .ok ⟨obligingPayload latest (nextBlockTimestamp now latest.timestamp), [], none⟩ := by
  have hretry : ∀ left, (forkchoiceUpdatedWithAttributesRetry latest.blockHash
      (fun _ => some ⟨.valid, some latest.blockHash, some 0⟩) left 0).2 =
        .ok ⟨.valid, some latest.blockHash, some 0⟩ := by
    intro left
    cases left <;> simp [forkchoiceUpdatedWithAttributesRetry, retryStep]
  have hcheck : checkBuilt latest (nextBlockTimestamp now latest.timestamp)
      ⟨obligingPayload latest (nextBlockTimestamp now latest.timestamp), [], none⟩ = .ok () :=
    checkBuilt_eq_ok.2 ⟨Iff.rfl, rfl, rfl, rfl⟩
  refine (congrArg (· >>= _) (hretry (maxAttempts configured - 1))).trans ?_
  show (checkBuilt latest (nextBlockTimestamp now latest.timestamp) _ >>= fun _ => _) = _
  rw [hcheck]
  rfl

section Agreement

variable {now clock : Nat} {latest : ExecutionBlock} {built : BuiltPayload}

theorem BuiltOn.childOf (h : BuiltOn now latest built)
    (hts : latest.timestamp + loadMinBlockTimeSecs < 2 ^ 64) (hnumber : latest.blockNumber + 1 < 2 ^ 64) :
    ChildOf now latest built where
  parentHash := h.parentHash
  blockNumber := h.blockNumber.trans (addU64_eq hnumber)
  timestamp := by
    rw [h.timestamp, nextBlockTimestamp, addU64_eq hts]
  blobs := h.blobs

/-- A validator accepts a child of its latest block unless its own sum wraps below the timestamp. -/
theorem ChildOf.timestampAccepted_iff (h : ChildOf now latest built)
    (hts : latest.timestamp + loadMinBlockTimeSecs < 2 ^ 64) :
    TimestampAccepted clock latest built ↔
      (built.payload.timestamp ≤ clock + loadMaxFutureDriftSecs →
        built.payload.timestamp ≤ addU64 clock loadMaxFutureDriftSecs) := by
  have hparent : latest.timestamp + loadMinBlockTimeSecs ≤ built.payload.timestamp := by
    rw [h.timestamp]
    exact le_max_right _ _
  have hmin : loadMinBlockTimeSecs = 1 := rfl
  unfold TimestampAccepted
  refine ⟨fun haccepted hdrift => ?_, fun hwrap hdrift o hash => ?_⟩
  · have hchecked := haccepted hdrift Sample.oracles none
    exact (validateProposedTimestamp_eq_ok.1 hchecked).1
  · refine validateProposedTimestamp_eq_ok.2 ⟨hwrap hdrift, latest, rfl, h.parentHash, ?_, ?_⟩
    · show latest.timestamp < built.payload.timestamp
      omega
    · rw [addU64_eq hts]
      exact hparent

end Agreement

/-- **The proposer's block and the validator's rule.** For a parent and two clocks, the engine is asked
at most as often as configured, and whatever it answers, a block that is returned is the child of the
parent at the expected time, and the validator accepts its timestamp: exactly when the proposer's sums
do not wrap and the validator's does not wrap below the timestamp. -/
theorem generated_block_iff (configured : Option Nat) {now clock : Nat} {latest : ExecutionBlock}
    (hnow : now < 2 ^ 64) (hclock : clock < 2 ^ 64) :
    (∀ engine, (generateBlockWithBlobs configured now engine latest).1 ≤
        max 1 (configured.getD 10) ∧
      ∀ built, (generateBlockWithBlobs configured now engine latest).2 = .ok built →
        ChildOf now latest built ∧ TimestampAccepted clock latest built) ↔
    latest.timestamp + loadMinBlockTimeSecs < 2 ^ 64 ∧ latest.blockNumber + 1 < 2 ^ 64 ∧
      (clock + loadMaxFutureDriftSecs < 2 ^ 64 ∨
        max now (latest.timestamp + loadMinBlockTimeSecs) ≤
          clock + loadMaxFutureDriftSecs - 2 ^ 64) := by
  have hdrift : loadMaxFutureDriftSecs = 15 := rfl
  have hmin : loadMinBlockTimeSecs = 1 := rfl
  have hwrap : addU64 clock loadMaxFutureDriftSecs =
      if clock + loadMaxFutureDriftSecs < 2 ^ 64 then clock + loadMaxFutureDriftSecs
      else clock + loadMaxFutureDriftSecs - 2 ^ 64 := by
    unfold addU64
    split <;> omega
  constructor
  · intro h
    obtain ⟨hchild, haccepted⟩ := (h _).2 _ (generate_obliging configured now latest)
    have hnumber : addU64 latest.blockNumber 1 = latest.blockNumber + 1 := hchild.blockNumber
    have htime : max now (addU64 latest.timestamp loadMinBlockTimeSecs) =
        max now (latest.timestamp + loadMinBlockTimeSecs) := hchild.timestamp
    have hts : latest.timestamp + loadMinBlockTimeSecs < 2 ^ 64 := by
      have hlt : addU64 latest.timestamp loadMinBlockTimeSecs < 2 ^ 64 :=
        Nat.mod_lt _ (by decide)
      omega
    refine ⟨hts, ?_, ?_⟩
    · have hlt : addU64 latest.blockNumber 1 < 2 ^ 64 := Nat.mod_lt _ (by decide)
      omega
    · have hbound := (hchild.timestampAccepted_iff hts).1 haccepted
      rw [hchild.timestamp, hwrap] at hbound
      split at hbound
      · exact .inl ‹_›
      · exact .inr (hbound (by omega))
  · rintro ⟨hts, hnumber, hclock'⟩ engine
    refine ⟨calls_generate_le, fun built hbuilt => ?_⟩
    have hchild := (generate_eq_ok hbuilt).2.childOf hts hnumber
    refine ⟨hchild, (hchild.timestampAccepted_iff hts).2 fun hle => ?_⟩
    rw [hchild.timestamp] at hle ⊢
    rw [hwrap]
    split
    · exact hle
    · exact hclock'.resolve_left ‹_›

/-- A genesis block as a parent. -/
def firstParent : ExecutionBlock := ⟨0, 0, 0, 0, 1⟩

/-- The first block, built at second 30 and received at second 20. -/
theorem generated_block_first :
    (generateBlockWithBlobs none 30 (obliging firstParent 30) firstParent).1 ≤ 10 ∧
      ∀ built, (generateBlockWithBlobs none 30 (obliging firstParent 30) firstParent).2 = .ok built →
        ChildOf 30 firstParent built ∧ TimestampAccepted 20 firstParent built :=
  (generated_block_iff none (by decide) (by decide)).2 ⟨by decide, by decide, .inl (by decide)⟩
    (obliging firstParent 30)

/-- A parent at the last second there is. -/
def lastParent : ExecutionBlock := ⟨0, 0, 0, 2 ^ 64 - 1, 1⟩

/-- The sum wraps: the block is returned with the proposer's clock as its timestamp, before its parent,
and a validator with the same clock refuses it. -/
theorem last_second_wraps :
    (generateBlockWithBlobs none 5 (obliging lastParent 5) lastParent).2 =
        .ok ⟨obligingPayload lastParent 5, [], none⟩ ∧
      (obligingPayload lastParent 5).timestamp ≠
        max 5 (lastParent.timestamp + loadMinBlockTimeSecs) ∧
      validateProposedTimestamp 5 (some lastParent)
        (fromPayload Sample.oracles (obligingPayload lastParent 5) none) =
          .error .timestampNotMonotonic := by
  refine ⟨generate_obliging none 5 lastParent, by decide, by decide +kernel⟩

end Ultramarine
