import Ultramarine.Lib.Closed
import Ultramarine.Lib.Returns
import Ultramarine.Store.Tables
import Ultramarine.Store.Blobs
import Ultramarine.Ssz.Inclusion
import Ultramarine.Streaming

/-!
# The node: disk, memory and the actions on them

`State` of `consensus/src/state.rs` split into what survives a crash (`Disk`: the redb store and
the blob store) and what does not (`Memory`). A handler is an `Act`: it reads the machine, performs
durable writes and changes memory. The store and the blob engine cannot fail on their own here;
their failures are the guards of the functions below, and a failing device is a call cut at one of
its writes.

Left out of `Memory`: metrics, the peer set, `rng`, the error text and clock of a degraded engine,
and `current_proposer`, which is written and never read.
-/

namespace Ultramarine

open Lib

/-- What a node is started with. -/
structure Config where
  oracles : Oracles
  validators : ValidatorSet
  address : Address
  privateKey : PrivateKey
  /-- The execution genesis block. -/
  genesisBlock : ExecutionBlock
  startHeight : Height
  archiverEnabled : Bool

/-- `State::validator_index` -/
def Config.validatorIndex (cfg : Config) (a : Address) : Option Nat :=
  cfg.validators.validatorIndex a

/-- The durable half of the node. -/
@[ext]
structure Disk where
  store : Store
  blobs : BlobStore
deriving DecidableEq

/-- A durable write, to one of the two databases. -/
inductive Write where
  | store (w : StoreWrite)
  | blob (w : BlobWrite)
deriving DecidableEq

/-- The effect of a write. -/
def Disk.apply (d : Disk) : Write → Disk
  | .store w => { d with store := d.store.apply w }
  | .blob w => { d with blobs := d.blobs.apply w }

instance : DiskOp Write Disk := ⟨fun w d => d.apply w⟩

@[simp] theorem apply_store (w : StoreWrite) (d : Disk) :
    (DiskOp.apply (Write.store w) d : Disk) = { d with store := d.store.apply w } := rfl

@[simp] theorem apply_blob (w : BlobWrite) (d : Disk) :
    (DiskOp.apply (Write.blob w) d : Disk) = { d with blobs := d.blobs.apply w } := rfl

/-- The databases of a node that never ran. -/
def Disk.empty : Disk := ⟨.empty, .empty⟩

/-- The volatile half of the node. `blobRounds` holds the (height, round) pairs of `blob_rounds`. -/
structure Memory where
  currentHeight : Height
  currentRound : Round
  streamNonce : Nat
  streamsMap : PartStreamsMap
  latestBlock : Option ExecutionBlock
  executedHeight : Height
  elDegraded : Bool
  lastFcuHead : Option B256
  blobRounds : Table Slot Unit
  lastBlobSidecarRoot : B256
  lastBlobSidecarHeight : Height
  pendingArchiveHeights : Table Height Unit
  pendingPruneHeights : Table Height Unit
  latestFinalizedHeight : Height
  txsCount : Nat
  chainBytes : Nat
  blobRetentionWindow : Nat

/-- `BLOB_RETENTION_WINDOW` -/
def blobRetentionWindow : Nat := 4096

/-- `State::new` -/
def Memory.new (height : Height) : Memory where
  currentHeight := height
  currentRound := .some 0
  streamNonce := 0
  streamsMap := ∅
  latestBlock := none
  executedHeight := 0
  elDegraded := false
  lastFcuHead := none
  blobRounds := ∅
  lastBlobSidecarRoot := 0
  lastBlobSidecarHeight := 0
  pendingArchiveHeights := ∅
  pendingPruneHeights := ∅
  latestFinalizedHeight := 0
  txsCount := 0
  chainBytes := 0
  blobRetentionWindow := Ultramarine.blobRetentionWindow

/-- The errors of the node, one per check. -/
inductive Err where
  /-- A row or key that cannot be encoded: a nil round, or a round beyond `i32`. -/
  | encode
  /-- `StoreError::MissingBlobMetadata` -/
  | missingBlobMetadata (slot : Slot)
  /-- `StoreError::TaskJoin`: a panic inside a store task. -/
  | taskJoin
  /-- KZG batch verification failed. -/
  | kzgVerification
  /-- `BlobEngineError::BlobsPruned` -/
  | blobsPruned (locators : List String)
  /-- No decided blob metadata one height below. -/
  | missingParentMetadata (parent : Height)
  | bundleLengthMismatch
  | missingBundle
  | proposerNotInSet
  | commitmentMismatch (index : Nat)
  | inclusionProof (e : Ssz.ProofError)
  | invalidInclusionProof (index : Nat)
  | blobCountMismatch (expected actual : Nat)
  | executionRequestsMismatch
  | invalidExecutionRequests
  | emptyPayload
  | payloadDecode
  | futureTimestamp
  | missingLatestBlock
  | parentHashMismatch
  | timestampNotMonotonic
  | timestampTooClose
  | noSidecars
  | headerNotConsistent
  | slotMismatch
  | proposerIndexMismatch
  | headerSignature
  | bodyRootMismatch
  | parentRootMismatch
  | indexOutOfRange (index : Nat)
  | missingFinPart
  | invalidSignature
  | unknownArchiver
  | noticeSignature
  | missingNoticeMetadata (height : Height)
  | notProposer
  | noticeHashMismatch
  | conflictingNotice
  | blockConversion
  | versionedHashMismatch
  | engine
  | invalidPayload
  | prevRandaoMismatch
  | missingProposal
  | decidedValueNotStored
deriving DecidableEq, Repr

/-- A handler of the node. -/
abbrev Act := Prog Disk Memory Write Err

/-! ## Decided rows are never removed -/

/-- Every decided row of `d` is there in `d'`; block data is even the same. -/
structure Disk.Grows (d d' : Disk) : Prop where
  values : ∀ h : Height, (d.store.decidedValues[h]?).isSome → (d'.store.decidedValues[h]?).isSome
  consensus : ∀ h : Height, (d.store.consensusBlockMetadata[h]?).isSome →
    (d'.store.consensusBlockMetadata[h]?).isSome
  metadata : ∀ h : Height, (d.store.blobMetadataDecided[h]?).isSome →
    (d'.store.blobMetadataDecided[h]?).isSome
  blockData : ∀ (h : Height) (r : BlockPayloadRecord), d.store.decidedBlockData[h]? = some r →
    d'.store.decidedBlockData[h]? = some r

namespace Disk.Grows

theorem refl (d : Disk) : Disk.Grows d d := ⟨fun _ => id, fun _ => id, fun _ => id, fun _ _ => id⟩

theorem trans {d₁ d₂ d₃ : Disk} (h : Disk.Grows d₁ d₂) (h' : Disk.Grows d₂ d₃) :
    Disk.Grows d₁ d₃ where
  values n hn := h'.values n (h.values n hn)
  consensus n hn := h'.consensus n (h.consensus n hn)
  metadata n hn := h'.metadata n (h.metadata n hn)
  blockData n r hn := h'.blockData n r (h.blockData n r hn)

theorem apply (d : Disk) : ∀ w : Write, Disk.Grows d (d.apply w)
  | .blob _ => ⟨fun _ => id, fun _ => id, fun _ => id, fun _ _ => id⟩
  | .store w => by
    cases w with
    | insertDecidedValue dv =>
      exact ⟨fun _ hn => Table.isSome_insert hn _ _, fun _ => id, fun _ => id, fun _ _ => id⟩
    | insertConsensusBlockMetadata height metadata =>
      exact ⟨fun _ => id, fun _ hn => Table.isSome_insert hn _ _, fun _ => id, fun _ _ => id⟩
    | insertDecidedBlockData height record =>
      exact ⟨fun _ => id, fun _ => id, fun _ => id,
        fun _ _ hn => Table.getElem?_insertIfNew_of_some hn _ _⟩
    | updateBlobMetadata height metadata =>
      exact ⟨fun _ => id, fun _ => id, fun _ hn => Table.isSome_insert hn _ _, fun _ _ => id⟩
    | markBlobMetadataDecided slot =>
      refine ⟨?_, ?_, ?_, ?_⟩ <;> simp only [Disk.apply, Store.apply] <;> split
      all_goals first | exact fun _ => id | exact fun _ _ => id | skip
      exact fun _ hn => Table.isSome_insert hn _ _
    | insertGenesisBlobMetadata =>
      refine ⟨?_, ?_, ?_, ?_⟩ <;> simp only [Disk.apply, Store.apply] <;> split
      all_goals first | exact fun _ => id | exact fun _ _ => id | skip
      exact fun _ hn => Table.isSome_insert hn _ _
    | _ => exact ⟨fun _ => id, fun _ => id, fun _ => id, fun _ _ => id⟩

/-- Whatever a call does, the decided rows stay. -/
theorem run {α : Type} (p : Act α) (m : Machine Disk Memory) :
    Disk.Grows m.disk (p.run m).state.disk :=
  (p.disk_invariant (refl m.disk) fun e _ he => he.trans (apply e.1.disk e.2)).2

end Disk.Grows

/-- Read the durable half. -/
def getDisk : Act Disk := do
  let m ← Prog.get
  pure m.disk

/-- Read the volatile half. -/
def getMem : Act Memory := do
  let m ← Prog.get
  pure m.mem

variable {m m' : Machine Disk Memory} {β : Type} {height : Height} {w : StoreWrite} {cfg : Config}
  {s : Store} {d : Disk} {e : Err} {metadata : BlobMetadata} {u : Unit}

@[simp] theorem run_getDisk_bind (f : Disk → Act β) (m : Machine Disk Memory) :
    (getDisk >>= f).run m = (f m.disk).run m := Prog.run_bind_of_eq rfl

@[simp] theorem run_getMem_bind (f : Memory → Act β) (m : Machine Disk Memory) :
    (getMem >>= f).run m = (f m.mem).run m := Prog.run_bind_of_eq rfl

theorem returns_getDisk_bind {f : Disk → Act β} {b : β} :
    Prog.Returns (getDisk >>= f) m b m' ↔ Prog.Returns (f m.disk) m b m' := by
  simp [Prog.Returns]

theorem returns_getMem_bind {f : Memory → Act β} {b : β} :
    Prog.Returns (getMem >>= f) m b m' ↔ Prog.Returns (f m.mem) m b m' := by
  simp [Prog.Returns]

theorem panics_getDisk_bind {f : Disk → Act β} :
    Prog.Panics (getDisk >>= f) m ↔ Prog.Panics (f m.disk) m := by
  simp [Prog.Panics]

theorem fails_getDisk_bind {f : Disk → Act β} :
    Prog.Fails (getDisk >>= f) m e m' ↔ Prog.Fails (f m.disk) m e m' := by
  simp [Prog.Fails]

theorem getDisk_silent : Prog.Silent getDisk := Prog.Silent.get.bind fun _ => Prog.Silent.pure _

theorem getMem_silent : Prog.Silent getMem := Prog.Silent.get.bind fun _ => Prog.Silent.pure _

theorem total_getDisk : Prog.Total getDisk := Prog.Total.get.bind fun _ => Prog.Total.pure _

theorem total_getMem : Prog.Total getMem := Prog.Total.get.bind fun _ => Prog.Total.pure _

/-! ## The store -/

/-- One store transaction. -/
def storeWrite (w : StoreWrite) : Act Unit := Prog.write (.store w)

/-- The machine after a store transaction. -/
abbrev afterStore (m : Machine Disk Memory) (w : StoreWrite) : Machine Disk Memory :=
  { m with disk := { m.disk with store := m.disk.store.apply w } }

theorem returns_storeWrite : Prog.Returns (storeWrite w) m u m' ↔ afterStore m w = m' :=
  Prog.returns_write

theorem returns_storeWrite_bind {f : Unit → Act β} {b : β} :
    Prog.Returns (storeWrite w >>= f) m b m' ↔ Prog.Returns (f ()) (afterStore m w) b m' := by
  rw [Prog.returns_bind]
  constructor
  · rintro ⟨_, m₁, h₁, h₂⟩
    rw [returns_storeWrite] at h₁
    subst h₁
    exact h₂
  · exact fun h => ⟨(), _, returns_storeWrite.2 rfl, h⟩

theorem total_storeWrite (w : StoreWrite) : Prog.Total (storeWrite w) := Prog.Total.write _

theorem panics_storeWrite_bind {f : Unit → Act β} :
    Prog.Panics (storeWrite w >>= f) m ↔ Prog.Panics (f ()) (afterStore m w) := by
  rw [(Prog.Calm.of_total (total_storeWrite w)).panics_bind]
  simp only [returns_storeWrite, exists_eq_left']
  exact ⟨fun ⟨_, h⟩ => h, fun h => ⟨(), h⟩⟩

theorem fails_storeWrite_bind {f : Unit → Act β} :
    Prog.Fails (storeWrite w >>= f) m e m' ↔ Prog.Fails (f ()) (afterStore m w) e m' := by
  rw [(total_storeWrite w).fails_bind]
  simp only [returns_storeWrite, exists_eq_left']
  exact ⟨fun ⟨_, h⟩ => h, fun h => ⟨(), h⟩⟩

/-- `Store::store_decided_value`; a nil round has no wire form. -/
def storeDecidedValue (certificate : CommitCertificate) (value : Value) : Act Unit := do
  Prog.ofExit (.ensure (certificate.round ≠ .nil) .encode)
  storeWrite (.insertDecidedValue ⟨value, certificate⟩)

/-- `Store::store_undecided_proposal`, also `State::store_synced_proposal`. -/
def storeUndecidedProposal (p : ProposedValue) : Act Unit := do
  Prog.ofExit (.ensure (p.round ≠ .nil) .encode)
  storeWrite (.insertUndecidedProposal p)

/-- `Store::store_undecided_block_data`, also `State::store_undecided_proposal_data`. -/
def storeUndecidedBlockData (slot : Slot) (record : BlockPayloadRecord) : Act Unit :=
  storeWrite (.insertUndecidedBlockData slot record)

/-- `Store::put_consensus_block_metadata`; the round is an `i32` on the wire. -/
def putConsensusBlockMetadata (height : Height) (metadata : ConsensusBlockMetadata) : Act Unit := do
  Prog.ofExit (.ensure (metadata.round.asI64 ≤ i32Max) .encode)
  storeWrite (.insertConsensusBlockMetadata height metadata)

/-- `Store::put_blob_metadata_undecided` -/
def putBlobMetadataUndecided (slot : Slot) (metadata : BlobMetadata) : Act Unit :=
  storeWrite (.insertBlobMetadataUndecided slot metadata)

/-- `Store::mark_blob_metadata_decided`: promote the row of the round; a height that is already
decided is left as it is. -/
def markBlobMetadataDecided (slot : Slot) : Act Unit := do
  let d ← getDisk
  match d.store.blobMetadataUndecided[slot]?, d.store.blobMetadataDecided[slot.height]? with
  | some _, _ => storeWrite (.markBlobMetadataDecided slot)
  | none, some _ => pure ()
  | none, none => Prog.fail (.missingBlobMetadata slot)

/-- `Store::get_blob_metadata`: the decided row with the archive records of the height. -/
def Store.getBlobMetadata (s : Store) (height : Height) : Exit Err (Option BlobMetadata) :=
  match s.blobMetadataDecided[height]? with
  | none => .ok none
  | some metadata => do
    let metadata ← Exit.ofOption .taskJoin (Store.hydrate metadata (s.archiveRecords height))
    pure (some metadata)

@[simp] theorem Store.getBlobMetadata_ne_panic (s : Store) (height : Height) :
    s.getBlobMetadata height ≠ .panic := by
  unfold Store.getBlobMetadata
  split
  · simp
  · simp [Exit.bind_eq_panic]

theorem Store.getBlobMetadata_eq_some_iff :
    s.getBlobMetadata height = .ok (some metadata) ↔
      ∃ row, s.blobMetadataDecided[height]? = some row ∧
        Store.hydrate row (s.archiveRecords height) = some metadata := by
  unfold Store.getBlobMetadata
  cases s.blobMetadataDecided[height]? with
  | none => simp
  | some row => simp [Exit.bind_eq_ok]

/-- A metadata row that is read back is the stored one, up to its archive records. -/
theorem Store.getBlobMetadata_eq_some (h : s.getBlobMetadata height = .ok (some metadata)) :
    ∃ row, s.blobMetadataDecided[height]? = some row ∧ metadata.core = row.core := by
  obtain ⟨row, hrow, hhydrate⟩ := Store.getBlobMetadata_eq_some_iff.1 h
  exact ⟨row, hrow, Store.core_hydrate hhydrate⟩

theorem Store.getBlobMetadata_eq_none_iff :
    s.getBlobMetadata height = .ok none ↔ s.blobMetadataDecided[height]? = none := by
  unfold Store.getBlobMetadata
  cases s.blobMetadataDecided[height]? with
  | none => simp
  | some row => simp [Exit.bind_eq_ok]

/-- `Store::get_latest_blob_metadata` -/
def Store.getLatestBlobMetadata (s : Store) : Exit Err (Option (Height × BlobMetadata)) :=
  match s.latestHeight with
  | none => .ok none
  | some height => do
    let metadata ← s.getBlobMetadata height
    pure (metadata.map (height, ·))

/-- `State::load_blob_metadata_for_round`: the undecided row of the round, else the decided one. -/
def Store.loadBlobMetadataForRound (s : Store) (slot : Slot) : Exit Err (Option BlobMetadata) :=
  match s.blobMetadataUndecided[slot]? with
  | some metadata => .ok (some metadata)
  | none => s.getBlobMetadata slot.height

/-- `State::resolve_parent_root_for_height` -/
def resolveParentRootForHeight (cfg : Config) (d : Disk) (height : Height) : Exit Err B256 :=
  if height = 0 then .ok 0
  else do
    let metadata ← d.store.getBlobMetadata (height - 1)
    let metadata ← Exit.ofOption (.missingParentMetadata (height - 1)) metadata
    pure (metadata.computeBlobRoot cfg.oracles)

theorem resolveParentRootForHeight_ne_panic (cfg : Config) (d : Disk) (height : Height) :
    resolveParentRootForHeight cfg d height ≠ .panic := by
  unfold resolveParentRootForHeight
  split
  · simp
  · simp [Exit.bind_eq_panic]

/-- The root is read from the row one height below, and from nothing else. -/
theorem resolveParentRootForHeight_congr {cfg' : Config} {d' : Disk}
    (ho : cfg'.oracles = cfg.oracles)
    (h : d'.store.getBlobMetadata (height - 1) = d.store.getBlobMetadata (height - 1)) :
    resolveParentRootForHeight cfg' d' height = resolveParentRootForHeight cfg d height := by
  unfold resolveParentRootForHeight
  rw [h, ho]

/-- The parent root of a height is the root of the row one height below. -/
theorem resolveParentRootForHeight_eq_ok {root : B256}
    (h : resolveParentRootForHeight cfg d height = .ok root) :
    (height = 0 ∧ root = 0) ∨ ∃ row, d.store.blobMetadataDecided[height - 1]? = some row ∧
      root = row.core.root cfg.oracles := by
  unfold resolveParentRootForHeight at h
  split at h
  · rename_i h0
    cases h
    exact .inl ⟨h0, rfl⟩
  · simp only [Exit.bind_eq_ok, Exit.ofOption_eq_ok, Exit.pure_eq_ok, Exit.ok.injEq] at h
    obtain ⟨x, hx, m, rfl, rfl⟩ := h
    obtain ⟨row, hrow, hcore⟩ := Store.getBlobMetadata_eq_some hx
    exact .inr ⟨row, hrow, by rw [BlobMetadata.computeBlobRoot_eq, hcore]⟩

/-! ## The blob engine -/

/-- The writes of `put_undecided_blobs`. -/
def putUndecidedWrites (height : Height) (round : Int) (sidecars : List BlobSidecar) : List Write :=
  sidecars.map fun s => .blob (.putUndecided height round s)

/-- `BlobEngine::verify_and_store` -/
def verifyAndStore (cfg : Config) (height : Height) (round : Int) (sidecars : List BlobSidecar) :
    Act Unit := do
  if sidecars = [] then pure ()
  else
    Prog.ofExit (.ensure (cfg.oracles.verifyBlobKzgProofBatch
      (sidecars.map fun s => (s.blob, s.kzgCommitment, s.kzgProof))) .kzgVerification)
    Prog.writeAll (putUndecidedWrites height round sidecars)

theorem foldl_putUndecidedWrites (height : Height) (round : Int) :
    ∀ (sidecars : List BlobSidecar) (d : Disk),
      (putUndecidedWrites height round sidecars).foldl (fun d w => DiskOp.apply w d) d =
        { d with blobs := d.blobs.putAll height round sidecars }
  | [], _ => rfl
  | s :: sidecars, d => by
    have hcons : putUndecidedWrites height round (s :: sidecars) =
        .blob (.putUndecided height round s) :: putUndecidedWrites height round sidecars := rfl
    rw [hcons, List.foldl_cons, foldl_putUndecidedWrites height round sidecars]
    rfl

/-- KZG verification passes; there is nothing to verify without blobs. -/
def kzgOk (cfg : Config) (sidecars : List BlobSidecar) : Prop :=
  sidecars = [] ∨ cfg.oracles.verifyBlobKzgProofBatch
    (sidecars.map fun s => (s.blob, s.kzgCommitment, s.kzgProof)) = true

theorem returns_verifyAndStore {round : Int} {sidecars : List BlobSidecar} :
    Prog.Returns (verifyAndStore cfg height round sidecars) m u m' ↔
      kzgOk cfg sidecars ∧
        m' = { m with disk := { m.disk with blobs := m.disk.blobs.putAll height round sidecars } } := by
  unfold verifyAndStore kzgOk
  split
  · rename_i hnil
    subst hnil
    rw [Prog.returns_pure]
    exact ⟨fun h => ⟨.inl rfl, h.2.symm⟩, fun h => ⟨rfl, h.2.symm⟩⟩
  · rename_i hne
    simp only [Prog.returns_ofExit_bind, Exit.ensure_eq_ok, Prog.returns_writeAll,
      foldl_putUndecidedWrites, exists_const, hne, false_or]
    exact and_congr_right fun _ => eq_comm

/-- The writes that move the entries to the decided column family, one blob after the other. -/
def promoteWrites (height : Height) (entries : List (BlobKey × BlobSidecar)) : List Write :=
  entries.flatMap fun e => [.blob (.putDecided height e.2), .blob (.deleteUndecided e.1)]

/-- `BlobEngine::mark_decided` -/
def markDecided (height : Height) (round : Int) : Act Unit := do
  let d ← getDisk
  Prog.writeAll (promoteWrites height (d.blobs.promoted height round))

/-- The writes of `drop_round`. -/
def dropRoundWrites (b : BlobStore) (height : Height) (round : Int) : List Write :=
  (b.collectUndecidedEntries height (some round)).map fun e => .blob (.deleteUndecided e.1)

/-- `BlobEngine::drop_round` -/
def dropRound (height : Height) (round : Int) : Act Unit := do
  let d ← getDisk
  Prog.writeAll (dropRoundWrites d.blobs height round)

/-- `BlobEngine::mark_archived`: delete the decided blobs with the given indices. -/
def markArchived (height : Height) (indices : List Nat) : Act Unit :=
  Prog.writeAll (indices.map fun i => .blob (.deleteDecided height i))

/-! ### What its calls write -/

section BlobEngine

open Prog

variable {A : Machine Disk Memory → Write → Prop} {sidecars : List BlobSidecar}

/-- Only blob writes. -/
def BlobOnly (ws : List Write) : Prop := ∀ w ∈ ws, ∃ b, w = .blob b

theorem BlobOnly.foldl_store : ∀ {ws : List Write}, BlobOnly ws → ∀ (d : Disk),
    (ws.foldl (fun d w => DiskOp.apply w d) d).store = d.store
  | [], _, _ => rfl
  | w :: ws, h, d => by
    obtain ⟨b, rfl⟩ := h w (by simp)
    rw [List.foldl_cons, BlobOnly.foldl_store (fun w hw => h w (List.mem_cons_of_mem _ hw))]
    rfl

/-- A call that leaves the store and the memory as they are, whatever it does to the blobs. -/
def StoreFrame {α : Type} (p : Act α) : Prop :=
  ∀ m, (p.run m).state.disk.store = m.disk.store ∧ (p.run m).state.mem = m.mem

theorem StoreFrame.onlyIf {p : Act Unit} (h : StoreFrame p) {c : Prop} [Decidable c]
    (m : Machine Disk Memory) :
    ((Prog.onlyIf c p).run m).state.disk.store = m.disk.store ∧
      ((Prog.onlyIf c p).run m).state.mem = m.mem := by
  unfold Prog.onlyIf
  split
  · exact h m
  · exact ⟨rfl, rfl⟩

theorem BlobOnly.frame {ws : List Write} (h : BlobOnly ws) (m : Machine Disk Memory) :
    ((Prog.writeAll ws : Act Unit).run m).state.disk.store = m.disk.store ∧
      ((Prog.writeAll ws : Act Unit).run m).state.mem = m.mem := by
  rw [(Prog.run_writeAll ws m).2]
  exact ⟨h.foldl_store m.disk, rfl⟩

theorem markDecided_writes {round : Int} (hput : ∀ m s, A m (.blob (.putDecided height s)))
    (hdelete : ∀ m key, key.height = height → A m (.blob (.deleteUndecided key))) :
    Emits A ((markDecided height round).run m) := by
  have hkey : ∀ e ∈ m.disk.blobs.promoted height round, e.1.height = height := by
    intro e he
    unfold BlobStore.promoted at he
    split at he <;> exact BlobStore.height_of_collected he
  unfold markDecided
  rw [run_getDisk_bind]
  refine Emits.writeAll fun w hw d => ?_
  obtain ⟨e, he, hw⟩ := List.mem_flatMap.1 hw
  rcases List.mem_pair.1 hw with rfl | rfl
  · exact hput _ _
  · exact hdelete _ _ (hkey e he)

theorem markDecided_frame (height : Height) (round : Int) :
    StoreFrame (markDecided height round) := by
  intro m
  unfold markDecided
  rw [run_getDisk_bind]
  refine BlobOnly.frame (fun w hw => ?_) m
  obtain ⟨e, _, hw⟩ := List.mem_flatMap.1 hw
  rcases List.mem_pair.1 hw with rfl | rfl <;> exact ⟨_, rfl⟩

theorem dropRound_writes {round : Int}
    (h : ∀ a i, a.disk.store = m.disk.store → A a (.blob (.deleteUndecided ⟨height, round, i⟩))) :
    Emits A ((dropRound height round).run m) := by
  unfold dropRound
  rw [run_getDisk_bind]
  refine Emits.writeAll_of (I := fun d => d.store = m.disk.store) rfl fun w hw d hd => ?_
  obtain ⟨⟨⟨height', round', i⟩, s⟩, he, rfl⟩ := List.mem_map.1 hw
  obtain ⟨rfl, rfl⟩ := (BlobStore.mem_keys_collected.1 (List.mem_map_of_mem he)).1
  exact ⟨h _ i hd, hd⟩

theorem verifyAndStore_writes {cfg : Config} {round : Int}
    (h : ∀ m, ∀ s ∈ sidecars, A m (.blob (.putUndecided height round s))) :
    Emits A ((verifyAndStore cfg height round sidecars).run m) := by
  unfold verifyAndStore
  split
  · exact Emits.of_log_nil rfl
  · refine Emits.ofExit_bind fun _ _ => Emits.writeAll fun w hw d => ?_
    obtain ⟨s, hs, rfl⟩ := List.mem_map.1 hw
    exact h _ s hs

end BlobEngine

end Ultramarine

namespace Lib.Prog.Closed

open Ultramarine

variable {P : ∀ {α : Type}, Act α → Machine Disk Memory → Prop} (h : Closed P) {β : Type}
  {m : Machine Disk Memory}

include h

theorem getDisk_bind {f : Disk → Act β} (hf : P (f m.disk) m) : P (getDisk >>= f) m := by
  refine h.bind (h.still rfl rfl) fun d hd => ?_
  cases hd
  exact hf

theorem getMem_bind {f : Memory → Act β} (hf : P (f m.mem) m) : P (getMem >>= f) m := by
  refine h.bind (h.still rfl rfl) fun mem hmem => ?_
  cases hmem
  exact hf

end Lib.Prog.Closed
