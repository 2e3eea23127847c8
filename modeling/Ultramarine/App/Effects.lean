import Mathlib.Data.List.TakeWhile
import Ultramarine.App.Run

/-!
# What a message can write

Every write of a handler of `App/Handlers.lean` is one of a fixed list (`Effect`), and what it writes
comes from where the list says. Invariants of the disk are then checked against the list, never against
the handlers; `StoreEffect` is the part of it that the tables see. `App/Walk.lean` walks through the
handlers; here are the calls they are made of.

* A message *offers* a proposal, a payload, a metadata row or blobs for a slot (`OffersProposal`,
  `OffersBlockData`, `OffersMetadata`, `OffersBlobs`); a row can be offered and not written.
* Archiving rewrites decided metadata and keeps its core (`ArchiveEffect`).
* Only the decision of a height writes the tables of decided values, consensus metadata and decided
  block data, and nothing removes from them.
* What is stored for a slot is removed for one of the reasons of `Drops`, or pruned by a commit.

Results:

* `decidedValue_of_commit`: the decided value of a commit;
* `start_writes`, `start_effects`: the writes of a start, and those to the tables.
-/

namespace Ultramarine

open Lib Ssz Prog

variable (cfg : Config) (m₀ : Machine Disk Memory)

/-- The header of a payload the node's own engine built. -/
def builtHeader (b : BuiltPayload) : ExecutionPayloadHeader :=
  fromPayload cfg.oracles b.payload (some (cfg.oracles.computeRequestsHash b.requests))

/-- The value of a synced package. -/
def SyncedValuePackage.value : SyncedValuePackage → Value
  | .full v _ _ _ _ => v
  | .metadataOnly v _ _ _ => v

/-- The payload of a synced package, if it has one. -/
def SyncedValuePackage.record? : SyncedValuePackage → Option BlockPayloadRecord
  | .full _ payload _ requests _ => some ⟨payload, requests⟩
  | .metadataOnly _ _ payload requests => payload.map (⟨·, requests⟩)

/-- A message completes a stream whose signature and contents check out. -/
structure Completes (now : Nat) (peer : PeerId) (part : StreamMessage) (parts : ProposalParts)
    (a : Assembled) : Prop where
  complete : (PartStreamsMap.insert m₀.mem.streamsMap peer part).2 = some parts
  current : m₀.mem.currentHeight ≤ parts.height
  signature_ok : verifyProposalSignature cfg parts = .ok ()
  assembled : assemble cfg m₀.disk m₀.mem.latestBlock now parts = .ok a

/-- The proposals a message may store. -/
inductive OffersProposal : Event → ProposedValue → Prop
  | built {height : Height} {round : Round} {gate : GateAnswer} {b : BuiltPayload}
      {metadata : ValueMetadata}
      (h : ValueMetadata.new? (builtHeader cfg b) (bundleCommitments b.bundle) = some metadata) :
      OffersProposal (.getValue height round gate (some b))
        ⟨height, round, .nil, cfg.address, Value.new cfg.oracles metadata, .valid⟩
  | received {now : Nat} {peer : PeerId} {part : StreamMessage} {gate : GateAnswer}
      {parts : ProposalParts} {a : Assembled} (h : Completes cfg m₀ now peer part parts a) :
      OffersProposal (.receivedProposalPart now peer part gate) a.value
  | synced {height : Height} {round : Round} {proposer : Address} {package : SyncedValuePackage} :
      OffersProposal (.processSyncedValue height round proposer package)
        (syncedProposal height round proposer package.value)
  | restreamed {height : Height} {round validRound : Round} {r : Restream}
      (h : loadRestream cfg m₀.disk ⟨height, restreamSource round validRound⟩ = some r) :
      OffersProposal (.restreamProposal height round validRound cfg.address)
        { r.proposal with round := round, proposer := cfg.address }

/-- The payloads a message may store, and the slot they are for. -/
inductive OffersBlockData : Event → Slot → BlockPayloadRecord → Prop
  | built {height : Height} {round : Round} {gate : GateAnswer} {b : BuiltPayload} :
      OffersBlockData (.getValue height round gate (some b)) ⟨height, round⟩
        ⟨cfg.oracles.asSszBytes b.payload, b.requests⟩
  | received {now : Nat} {peer : PeerId} {part : StreamMessage} {gate : GateAnswer}
      {parts : ProposalParts} {a : Assembled} (h : Completes cfg m₀ now peer part parts a) :
      OffersBlockData (.receivedProposalPart now peer part gate) ⟨parts.height, parts.round⟩
        ⟨a.data, a.executionRequests⟩
  | synced {height : Height} {round : Round} {proposer : Address} {package : SyncedValuePackage}
      {record : BlockPayloadRecord} (h : package.record? = some record) :
      OffersBlockData (.processSyncedValue height round proposer package) ⟨height, round⟩ record
  | restreamed {height : Height} {round validRound : Round} {r : Restream}
      (h : loadRestream cfg m₀.disk ⟨height, restreamSource round validRound⟩ = some r) :
      OffersBlockData (.restreamProposal height round validRound cfg.address) ⟨height, round⟩
        r.record

/-- The metadata rows a message may store, and the slot they are for. A new row chains to the row
one height below as the machine holds it when the message arrives. -/
inductive OffersMetadata : Event → Slot → BlobMetadata → Prop
  | built {height : Height} {round : Round} {gate : GateAnswer} {b : BuiltPayload}
      {parentRoot : B256} {metadata : BlobMetadata}
      (hparent : resolveParentRootForHeight cfg m₀.disk height = .ok parentRoot)
      (h : blockMetadata? height parentRoot (bundleCommitments b.bundle)
        (bundleKeccaks cfg.oracles b.bundle) (builtHeader cfg b)
        (cfg.validatorIndex cfg.address) = some metadata) :
      OffersMetadata (.getValue height round gate (some b)) ⟨height, round⟩ metadata
  | received {now : Nat} {peer : PeerId} {part : StreamMessage} {gate : GateAnswer}
      {parts : ProposalParts} {a : Assembled} (h : Completes cfg m₀ now peer part parts a) :
      OffersMetadata (.receivedProposalPart now peer part gate) ⟨parts.height, parts.round⟩
        a.blobMetadata
  | synced {height : Height} {round : Round} {proposer : Address} {package : SyncedValuePackage}
      {parentRoot : B256} {keccaks : List B256} {metadata : BlobMetadata}
      (hparent : resolveParentRootForHeight cfg m₀.disk height = .ok parentRoot)
      (h : blockMetadata? height parentRoot package.value.metadata.blobKzgCommitments keccaks
        package.value.metadata.executionPayloadHeader (cfg.validatorIndex proposer) =
          some metadata) :
      OffersMetadata (.processSyncedValue height round proposer package) ⟨height, round⟩ metadata
  | restreamed {height : Height} {round validRound : Round} {r : Restream}
      (h : loadRestream cfg m₀.disk ⟨height, restreamSource round validRound⟩ = some r) :
      OffersMetadata (.restreamProposal height round validRound cfg.address) ⟨height, round⟩
        r.metadata

/-- The slot whose metadata a message promotes. -/
def Event.promotes : Event → Option Slot
  | .decided c _ => some ⟨c.height, c.round⟩
  | .processSyncedValue height round _ _ => some ⟨height, round⟩
  | _ => none

/-- Transactions that only remove undecided rows. -/
def StoreWrite.isRemoval : StoreWrite → Bool
  | .deleteUndecidedProposal _ | .deleteUndecidedBlockData _ | .deleteBlobMetadataUndecided _
  | .prune _ => true
  | _ => false

/-- A row of decided metadata that archiving rewrites. -/
def RewritesMetadata (m : Machine Disk Memory) (height : Height) (metadata : BlobMetadata) : Prop :=
  ∃ row, m.disk.store.blobMetadataDecided[height]? = some row ∧ metadata.core = row.core

/-- **What a message may write to the store.** `m₀` is the machine when the message arrives, `m`
the machine just before the write. -/
inductive StoreEffect (ev : Event) (m : Machine Disk Memory) : StoreWrite → Prop
  | proposal {p : ProposedValue} (h : OffersProposal cfg m₀ ev p) :
      StoreEffect ev m (.insertUndecidedProposal p)
  | blockData {slot : Slot} {record : BlockPayloadRecord}
      (h : OffersBlockData cfg m₀ ev slot record) :
      StoreEffect ev m (.insertUndecidedBlockData slot record)
  | metadata {slot : Slot} {metadata : BlobMetadata} (h : OffersMetadata cfg m₀ ev slot metadata) :
      StoreEffect ev m (.insertBlobMetadataUndecided slot metadata)
  | promote {slot : Slot} (h : ev.promotes = some slot) :
      StoreEffect ev m (.markBlobMetadataDecided slot)
  | decidedValue {c : CommitCertificate} {script : EngineScript} {p : ProposedValue}
      (hev : ev = .decided c script)
      (h : m.disk.store.undecidedProposals[Slot.mk c.height c.round]? = some p) :
      StoreEffect ev m (.insertDecidedValue ⟨p.value, c⟩)
  | consensusMetadata {c : CommitCertificate} {script : EngineScript} {p : ProposedValue}
      (hev : ev = .decided c script) :
      StoreEffect ev m (.insertConsensusBlockMetadata c.height (consensusMetadata cfg c p))
  | decidedBlockData {c : CommitCertificate} {script : EngineScript} {record : BlockPayloadRecord}
      (hev : ev = .decided c script)
      (h : m.disk.store.loadBlockPayloadRecord ⟨c.height, c.round⟩ = some record) :
      StoreEffect ev m (.insertDecidedBlockData c.height record)
  | archiveRecord {height : Height} {index : Nat} {record : ArchiveRecord} :
      StoreEffect ev m (.insertArchiveRecord height index record)
  | rewrite {height : Height} {metadata : BlobMetadata} (h : RewritesMetadata m height metadata) :
      StoreEffect ev m (.updateBlobMetadata height metadata)
  | removal {w : StoreWrite} (h : w.isRemoval = true) : StoreEffect ev m w

/-- A condition on store transactions, as a condition on writes. -/
def OnStore (P : Machine Disk Memory → StoreWrite → Prop) (m : Machine Disk Memory) : Write → Prop
  | .store w => P m w
  | .blob _ => True

/-- The blobs a message may store, and the slot they are for. Those of a synced package are promoted or
dropped by the message that brings them. -/
inductive OffersBlobs : Event → Slot → List BlobSidecar → Prop
  | built {height : Height} {round : Round} {gate : GateAnswer} {b : BuiltPayload} {d : Disk}
      {metadata : ValueMetadata} {sidecars : List BlobSidecar}
      (hmetadata : ValueMetadata.new? (builtHeader cfg b) (bundleCommitments b.bundle) =
        some metadata)
      (h : prepareBlobSidecarParts cfg d ⟨height, round, Value.new cfg.oracles metadata⟩ b.bundle =
        .ok sidecars) :
      OffersBlobs (.getValue height round gate (some b)) ⟨height, round⟩ sidecars
  | received {now : Nat} {peer : PeerId} {part : StreamMessage} {gate : GateAnswer}
      {parts : ProposalParts} {a : Assembled} (h : Completes cfg m₀ now peer part parts a) :
      OffersBlobs (.receivedProposalPart now peer part gate) ⟨parts.height, parts.round⟩ a.sidecars
  | synced {height : Height} {round : Round} {proposer : Address} {value : Value} {payload : Bytes}
      {sidecars : List BlobSidecar} {requests : List Bytes} {notices : List ArchiveNotice} :
      OffersBlobs (.processSyncedValue height round proposer
        (.full value payload sidecars requests notices)) ⟨height, round⟩ sidecars
  | restreamed {height : Height} {round validRound : Round} {r : Restream}
      (h : loadRestream cfg m₀.disk ⟨height, restreamSource round validRound⟩ = some r) :
      OffersBlobs (.restreamProposal height round validRound cfg.address) ⟨height, round⟩ r.sidecars

/-- Why a message removes what is stored for a slot: the round is stale, its height is committed, or
a synced package for it is refused. `m` is the machine just before the write. -/
inductive Drops (m : Machine Disk Memory) : Event → Slot → Prop
  | stale {height : Height} {round r : Round} (htracked : r ∈ m₀.mem.trackedRounds height)
      (hlt : r.asI64 + staleRoundBlobRetention < round.asI64) :
      Drops m (.startedRound height round) ⟨height, r⟩
  | failed {c : CommitCertificate} {script : EngineScript} {r : Round}
      (hcommitted : (m.disk.store.decidedValues[c.height]?).isSome) :
      Drops m (.decided c script) ⟨c.height, r⟩
  | refused {height : Height} {round : Round} {proposer : Address} {package : SyncedValuePackage} :
      Drops m (.processSyncedValue height round proposer package) ⟨height, round⟩

/-- The writes that remove something stored for a slot. -/
inductive Removes (slot : Slot) : Write → Prop
  | row : Removes slot (.store (.deleteBlobMetadataUndecided slot))
  | proposal : Removes slot (.store (.deleteUndecidedProposal slot))
  | blockData : Removes slot (.store (.deleteUndecidedBlockData slot))
  | blob {i : Nat} : Removes slot (.blob (.deleteUndecided ⟨slot.height, slot.round.asI64, i⟩))

/-- Neither a removal nor a write of archiving. -/
def StoreWrite.isPlain : StoreWrite → Bool
  | .insertArchiveRecord _ _ _ | .updateBlobMetadata _ _ => false
  | w => !w.isRemoval

/-- **What a message may write.** `m₀` is the machine when the message arrives, `m` the machine just
before the write. -/
inductive Effect (ev : Event) (m : Machine Disk Memory) : Write → Prop
  | store {w : StoreWrite} (h : StoreEffect cfg m₀ ev m w) (hplain : w.isPlain = true) :
      Effect ev m (.store w)
  | archive {w : Write} (h : ArchiveEffect cfg m w) : Effect ev m w
  | remove {slot : Slot} {w : Write} (h : Drops m₀ m ev slot) (hw : Removes slot w) : Effect ev m w
  | prune {c : CommitCertificate} {script : EngineScript} {retain : Height}
      (hev : ev = .decided c script) (hle : retain ≤ c.height)
      (hcommitted : (m.disk.store.decidedValues[c.height]?).isSome) :
      Effect ev m (.store (.prune retain))
  | put {slot : Slot} {sidecars : List BlobSidecar} {s : BlobSidecar}
      (h : OffersBlobs cfg m₀ ev slot sidecars) (hs : s ∈ sidecars) :
      Effect ev m (.blob (.putUndecided slot.height slot.round.asI64 s))
  | promote {slot : Slot} {height : Height} {s : BlobSidecar} (h : ev.promotes = some slot)
      (hheight : height = slot.height) : Effect ev m (.blob (.putDecided height s))
  | promoted {slot : Slot} {key : BlobKey} (h : ev.promotes = some slot)
      (hheight : key.height = slot.height) : Effect ev m (.blob (.deleteUndecided key))

variable {height : Height} {A : Machine Disk Memory → Write → Prop} {c : CommitCertificate}
  {round : Round} {α : Type} {metadata row : BlobMetadata} {proposer : Address}
  {sidecars : List BlobSidecar} {w : Write} {b : BuiltPayload} {m m' : Machine Disk Memory}
  {p : ProposedValue} {slot : Slot} {u : Unit}

section Effects

variable {cfg m₀} {ev : Event} {m : Machine Disk Memory}

/-- Pruning rewrites a decided row and keeps its core. -/
theorem PruneEffect.rewrites (h : PruneEffect m (.store (.updateBlobMetadata height metadata))) :
    RewritesMetadata m height metadata := by
  cases h with
  | pruned h =>
    obtain ⟨md, hmd, hcore, _⟩ := h.loaded
    obtain ⟨stored, hstored, hcore'⟩ := Store.getBlobMetadata_eq_some hmd
    exact ⟨stored, hstored, hcore.symm.trans hcore'⟩

/-- Archiving rewrites a decided row and keeps its core. -/
theorem ArchiveEffect.rewrites
    (h : ArchiveEffect cfg m (.store (.updateBlobMetadata height metadata))) :
    RewritesMetadata m height metadata := by
  cases h with
  | @update n row₀ _ s h hstore hrow =>
    obtain ⟨stored, hstored, hcore⟩ := Store.getBlobMetadata_eq_some h.metadata_eq
    refine ⟨stored, ?_, ?_⟩
    · rw [hstore]
      exact hstored
    · rw [BlobMetadata.core_setArchiveRecord? hrow, BlobMetadata.core_updateKeccakHash, hcore]
  | prune h => exact h.rewrites

/-- Archiving writes a record, or rewrites a decided row. -/
theorem ArchiveEffect.onStore (h : ArchiveEffect cfg m w) :
    OnStore (StoreEffect cfg m₀ ev) m w := by
  cases h with
  | record h => exact .archiveRecord
  | update h hstore hrow => exact .rewrite (ArchiveEffect.rewrites (.update h hstore hrow))
  | prune h =>
    cases h with
    | delete h hi => trivial
    | pruned h => exact .rewrite (PruneEffect.rewrites (.pruned h))

/-- Archiving keeps the core of every decided row. -/
theorem core_of_archives {p : Act α} (hp : Emits (ArchiveEffect cfg) (p.run m))
    (hrow : m.disk.store.blobMetadataDecided[height]? = some row) :
    ∃ row', (p.run m).state.disk.store.blobMetadataDecided[height]? = some row' ∧
      row'.core = row.core := by
  refine (p.disk_invariant (I := fun d => ∃ row', d.store.blobMetadataDecided[height]? = some row' ∧
    row'.core = row.core) ⟨row, hrow, rfl⟩ (hp.mono fun a w hw => ?_)).2
  rintro ⟨row', hrow', hcore⟩
  have hrewrites : ∀ {n : Height} {metadata : BlobMetadata}, RewritesMetadata a n metadata →
      ∃ row'', (a.disk.store.apply (.updateBlobMetadata n metadata)).blobMetadataDecided[height]? =
        some row'' ∧ row''.core = row.core := by
    rintro n metadata ⟨stored, hstored, hsame⟩
    have hread := Table.getElem?_insert_eq a.disk.store.blobMetadataDecided n height metadata
    by_cases hn : n = height
    · subst hn
      cases hstored.symm.trans hrow'
      exact ⟨metadata, hread.trans (if_pos rfl), hsame.trans hcore⟩
    · exact ⟨row', (hread.trans (if_neg hn)).trans hrow', hcore⟩
  cases hw with
  | record h => exact ⟨row', hrow', hcore⟩
  | update h hstore hset => exact hrewrites (ArchiveEffect.rewrites (.update h hstore hset))
  | prune h =>
    cases h with
    | delete h hi => exact ⟨row', hrow', hcore⟩
    | pruned h => exact hrewrites (PruneEffect.rewrites (.pruned h))

/-- Only a decision writes decided values. -/
theorem StoreEffect.isDecidedValue_eq_false {w : StoreWrite} (h : StoreEffect cfg m₀ ev m w)
    (hev : ∀ c script, ev ≠ .decided c script) : w.isDecidedValue = false := by
  cases h with
  | decidedValue h _ => exact absurd h (hev _ _)
  | removal h => cases w <;> first | rfl | cases h
  | _ => rfl

/-- A call without the transaction of a decided value leaves that table alone. -/
theorem decidedValues_of_emits {p : Act α}
    (h : Emits (OnStore fun _ w => w.isDecidedValue = false) (p.run m)) :
    (p.run m).state.disk.store.decidedValues = m.disk.store.decidedValues := by
  refine (p.disk_invariant (I := fun d => d.store.decidedValues = m.disk.store.decidedValues) rfl
    (h.mono fun m' w hw hm' => Eq.trans ?_ hm')).2
  cases w with
  | blob b => rfl
  | store w => exact m'.disk.store.decidedValues_apply hw

theorem Effect.onStore (h : Effect cfg m₀ ev m w) : OnStore (StoreEffect cfg m₀ ev) m w := by
  cases h with
  | store h hplain => exact h
  | archive h => exact h.onStore
  | remove h hw =>
    cases hw with
    | blob => trivial
    | _ => exact .removal rfl
  | prune hev hle hcommitted => exact .removal rfl
  | _ => trivial

/-- A message offers the rows it writes. -/
theorem Effect.offersMetadata
    (h : Effect cfg m₀ ev m (.store (.insertBlobMetadataUndecided slot row))) :
    OffersMetadata cfg m₀ ev slot row := by
  cases h with
  | store h _ =>
    cases h with
    | metadata h => exact h
    | removal h => cases h
  | archive h =>
    cases h with
    | prune h => cases h
  | remove _ h => cases h

/-- Decided rows are rewritten by archiving. -/
theorem Effect.archives (h : Effect cfg m₀ ev m (.store (.updateBlobMetadata height row))) :
    ArchiveEffect cfg m (.store (.updateBlobMetadata height row)) := by
  cases h with
  | store _ hplain => cases hplain
  | archive h => exact h
  | remove _ h => cases h

end Effects

/-! ## Calls that write nothing -/

section Silent

theorem resolveClHead_silent : Silent resolveClHead := by
  refine Silent.get.bind fun m => (Silent.ofExit _).bind fun block => ?_
  cases block with
  | none => exact Silent.ofExit _
  | some b => exact (Silent.modifyMem _).bind fun _ => Silent.pure _

theorem ensureElMatchesClHead_silent (gate : GateAnswer) : Silent (ensureElMatchesClHead gate) := by
  refine resolveClHead_silent.bind fun block => getMem_silent.bind fun mem => ?_
  split
  · exact Silent.fail _
  split
  · exact Silent.pure _
  split
  · exact (Silent.modifyMem _).bind fun _ => Silent.pure _
  · exact (Silent.modifyMem _).bind fun _ => Silent.fail _

theorem nextStreamId_silent (height : Height) (round : Round) :
    Silent (nextStreamId height round) := by
  unfold nextStreamId
  cases round with
  | nil => exact Silent.panicked
  | some r => exact getMem_silent.bind fun _ => (Silent.modifyMem _).bind fun _ => Silent.pure _

theorem streamProposal_silent (cfg : Config) (value : LocallyProposedValue) (data : Bytes)
    (sidecars : List BlobSidecar) (requests : List Bytes) (proposer : Address) :
    Silent (streamProposal cfg value data sidecars requests proposer) :=
  (nextStreamId_silent _ _).bind fun _ => Silent.pure _

theorem restreamArchiveNotices_silent :
    ∀ notices : List ArchiveNotice, Silent (restreamArchiveNotices notices)
  | [] => Silent.pure _
  | _ :: rest =>
    ((nextStreamId_silent _ _).bind fun _ => Silent.pure _).bind fun _ =>
      (restreamArchiveNotices_silent rest).bind fun _ => Silent.pure _

theorem realignLatestBlock_silent (height : Height) : Silent (realignLatestBlock height) :=
  getDisk_silent.bind fun _ => Silent.modifyMem _

theorem importBlock_silent (height : Height) (payload : ExecutionPayloadV3)
    (script : EngineScript) : Silent (importBlock height payload script) := by
  unfold importBlock
  refine (Silent.ofExit _).bind fun status => (Silent.onlyIf (Silent.modifyMem _)).bind fun _ =>
    (Silent.ofExit _).bind fun _ => getMem_silent.bind fun _ => (Silent.ofExit _).bind fun _ => ?_
  split
  · exact Silent.pure _
  · refine (Silent.ofExit _).bind fun applied => ?_
    split
    · exact Silent.pure _
    · exact (Silent.modifyMem _).bind fun _ => Silent.pure _

end Silent

/-! ## Transactions that leave the decided metadata alone -/

section MetadataFrame

/-- The transaction does not touch decided metadata or archive records. -/
def StoreWrite.keepsMetadata : StoreWrite → Bool
  | .insertArchiveRecord _ _ _ | .updateBlobMetadata _ _ | .markBlobMetadataDecided _
  | .insertGenesisBlobMetadata => false
  | _ => true

theorem Store.apply_of_keepsMetadata {s : Store} {w : StoreWrite} (h : w.keepsMetadata = true) :
    (s.apply w).blobMetadataDecided = s.blobMetadataDecided ∧
      (s.apply w).blobArchival = s.blobArchival := by
  cases w <;> first | exact ⟨rfl, rfl⟩ | cases h

/-- Calls made of such transactions find the same parent root afterwards. -/
theorem resolveParentRoot_frame {p : Act α}
    (h : Emits (OnStore fun _ w => w.keepsMetadata = true) (p.run m)) (cfg : Config)
    (height : Height) :
    resolveParentRootForHeight cfg (p.run m).state.disk height =
      resolveParentRootForHeight cfg m.disk height := by
  have hframe := (p.disk_invariant
    (I := fun d => d.store.blobMetadataDecided = m.disk.store.blobMetadataDecided ∧
      d.store.blobArchival = m.disk.store.blobArchival) ⟨rfl, rfl⟩ ?_).2
  · unfold resolveParentRootForHeight Store.getBlobMetadata Store.archiveRecords
    rw [hframe.1, hframe.2]
  · refine h.mono fun m' w hw hm' => ?_
    cases w with
    | blob b => exact hm'
    | store w =>
      obtain ⟨hd, ha⟩ := Store.apply_of_keepsMetadata (s := m'.disk.store) hw
      exact ⟨hd.trans hm'.1, ha.trans hm'.2⟩

end MetadataFrame

/-! ## Proposing and receiving -/

section Proposing

variable {A : Machine Disk Memory → Write → Prop} {m : Machine Disk Memory}

theorem storeUndecidedProposal_writes (h : A m (.store (.insertUndecidedProposal p))) :
    Emits A ((storeUndecidedProposal p).run m) :=
  Emits.ofExit_bind fun _ _ => Emits.write h

variable {cfg m₀}

/-- The value that is proposed for a built payload. -/
theorem proposeValueWithBlobs_exit {proposal : LocallyProposedValue}
    (h : ((proposeValueWithBlobs cfg height round b.payload b.requests b.bundle).run m).exit = .ok proposal) :
    ∃ metadata, ValueMetadata.new? (builtHeader cfg b) (bundleCommitments b.bundle) =
      some metadata ∧ proposal = ⟨height, round, Value.new cfg.oracles metadata⟩ := by
  unfold proposeValueWithBlobs at h
  rw [run_getMem_bind] at h
  split at h
  · obtain ⟨_, _, h⟩ := Prog.exit_bind_ok.1 h
    obtain ⟨metadata, hmetadata, h⟩ := Prog.exit_bind_ok.1 h
    obtain ⟨_, _, h⟩ := Prog.exit_bind_ok.1 h
    rw [run_getDisk_bind] at h
    obtain ⟨_, _, h⟩ := Prog.exit_bind_ok.1 h
    obtain ⟨_, _, h⟩ := Prog.exit_bind_ok.1 h
    obtain ⟨_, _, h⟩ := Prog.exit_bind_ok.1 h
    obtain ⟨_, _, h⟩ := Prog.exit_bind_ok.1 h
    cases h
    exact ⟨metadata, Exit.orPanic_eq_ok.1 hmetadata, rfl⟩
  · cases h

theorem assembleAndStoreBlobs_exit {now : Nat} {parts : ProposalParts} {a : Assembled}
    (h : ((assembleAndStoreBlobs cfg now parts).run m).exit = .ok a) :
    assemble cfg m.disk m.mem.latestBlock now parts = .ok a := by
  unfold assembleAndStoreBlobs at h
  rw [Prog.run_get_bind] at h
  obtain ⟨a', ha', h⟩ := Prog.exit_bind_ok.1 h
  obtain ⟨_, _, h⟩ := Prog.exit_bind_ok.1 h
  obtain ⟨_, _, h⟩ := Prog.exit_bind_ok.1 h
  cases h
  exact ha'

end Proposing

/-! ## Synced packages and restreams -/

section Syncing

variable {m : Machine Disk Memory} {cfg m₀}

theorem storeSyncedBlockData_writes (slot : Slot) (record : BlockPayloadRecord)
    (h : A m (.store (.insertUndecidedBlockData slot record))) :
    Emits A ((storeSyncedBlockData slot record).run m) :=
  Emits.ofExit_bind fun _ _ => Emits.write h

theorem markBlobMetadataDecided_writes (h : A m (.store (.markBlobMetadataDecided slot))) :
    Emits A ((markBlobMetadataDecided slot).run m) := by
  unfold markBlobMetadataDecided
  rw [run_getDisk_bind]
  split
  · exact Emits.write h
  · exact Emits.of_log_nil rfl
  · exact Emits.of_log_nil rfl

/-- The sidecars of a package, and its undecided row if they are refused. -/
theorem syncSidecars_writes {metadata : ValueMetadata}
    (hput : ∀ m, ∀ s ∈ sidecars, A m (.blob (.putUndecided height round.asI64 s)))
    (hdrop : ∀ m w, Removes ⟨height, round⟩ w → A m w)
    (hpromote : ∀ m s, A m (.blob (.putDecided height s)))
    (hpromoted : ∀ m key, key.height = height → A m (.blob (.deleteUndecided key))) :
    Emits A ((syncSidecars cfg height round proposer metadata sidecars).run m) := by
  have hdropped : ∀ m, Emits A ((dropRound height round.asI64).run m) := fun m =>
    dropRound_writes fun m i _ => hdrop m _ .blob
  have hrefused : ∀ m, Emits A ((do
      dropRound height round.asI64
      pure none : Act (Option SignedBeaconBlockHeader)).run m) := fun m =>
    (hdropped m).bind fun _ _ => Emits.of_log_nil rfl
  unfold syncSidecars
  refine (Emits.closed _).attempt_bind (verifyAndStore_writes hput) (fun _ _ => ?_)
    (fun _ _ => Emits.of_log_nil rfl)
  dsimp only
  split
  · exact hrefused _
  split
  · exact hrefused _
  split
  · exact (hdropped _).bind fun _ _ => Emits.bind (Emits.write (hdrop _ _ .row))
      fun _ _ => Emits.of_log_nil rfl
  · rw [run_getDisk_bind]
    split
    · exact (markDecided_writes hpromote hpromoted).bind fun _ _ => Emits.of_log_nil rfl
    · exact hrefused _

end Syncing

/-! ## Decisions -/

section Deciding

variable {m : Machine Disk Memory} {cfg m₀}

theorem retainHeight_le (mem : Memory) (height : Height) :
    retainHeight mem height ≤ height := by
  unfold retainHeight
  split
  · exact (min_le_right _ _).trans (Nat.sub_le _ _)
  · exact Nat.sub_le _ _

/-- The clean-up of a commit: undecided rows out of the retention window, then the rounds of the
height that were not decided. -/
inductive CleanupEffect (height : Height) : Write → Prop
  | prune {retain : Height} (hle : retain ≤ height) :
      CleanupEffect height (.store (.prune retain))
  | drop {r : Round} {w : Write} (h : Removes ⟨height, r⟩ w) : CleanupEffect height w

theorem commitCleanup_writes (height : Height) (round : Round) (m : Machine Disk Memory) :
    Emits (fun _ => CleanupEffect height) ((commitCleanup height round).run m) := by
  unfold commitCleanup
  rw [run_getMem_bind]
  exact Emits.bind (Emits.write (.prune (retainHeight_le _ _))) fun _ _ =>
    dropFailedRounds_writes (fun _ _ => .drop .row) fun _ _ _ => .drop .blob

/-- The writes of the first four transactions of a commit. -/
theorem commitTables_writes
    (hvalue : c.round ≠ .nil → A m (.store (.insertDecidedValue ⟨p.value, c⟩)))
    (hconsensus : c.round ≠ .nil → c.round.asI64 ≤ i32Max →
      ∀ m, A m (.store (.insertConsensusBlockMetadata c.height (consensusMetadata cfg c p))))
    (hmark : ∀ m, A m (.store (.markBlobMetadataDecided ⟨c.height, c.round⟩)))
    (hcopy : ∀ m record, A m (.store (.insertDecidedBlockData c.height record))) :
    Emits A ((commitTables cfg c p).run m) := by
  unfold commitTables storeDecidedValue putConsensusBlockMetadata
  by_cases hnil : c.round = .nil
  · rw [hnil]
    exact Emits.of_log_nil rfl
  refine Emits.bind (Emits.ofExit_bind fun _ _ => Emits.write (hvalue hnil)) fun _ _ => ?_
  rw [run_getDisk_bind]
  refine Emits.ofExit_bind fun _ _ => ?_
  refine Emits.bind (Emits.ofExit_bind fun _ hle => ?_) fun _ _ => ?_
  · exact Emits.write (hconsensus hnil (Exit.ensure_eq_ok.1 hle) _)
  refine (markBlobMetadataDecided_writes (hmark _)).bind fun _ _ => ?_
  rw [run_getDisk_bind]
  refine Emits.ofExit_bind fun _ _ => Emits.ofExit_bind fun metadata _ => ?_
  unfold cacheBlobRoot copyBlockData
  rw [run_modifyMem_bind, run_getDisk_bind]
  split
  · exact Emits.write (hcopy _ _)
  · exact Emits.of_log_nil rfl

theorem commitReplay_writes (hput : ∀ m s, A m (.blob (.putDecided c.height s)))
    (hdelete : ∀ m key, key.height = c.height → A m (.blob (.deleteUndecided key)))
    (h : ∀ m, A m (.store (.markBlobMetadataDecided ⟨c.height, c.round⟩))) :
    Emits A ((commitReplay cfg c).run m) := by
  unfold commitReplay
  refine (markDecided_writes hput hdelete).bind fun _ _ => ?_
  rw [run_getDisk_bind]
  split
  · exact Emits.of_log_nil rfl
  · split
    · refine (Emits.closed _).attempt_bind (markBlobMetadataDecided_writes (h _)) ?_ ?_
      · exact fun _ _ => Emits.of_log_nil rfl
      · exact fun _ _ => Emits.of_log_nil rfl
    · exact Emits.of_log_nil rfl
  · exact Emits.of_log_nil rfl

theorem finishCommit_prunes (height : Height) (m : Machine Disk Memory) :
    Emits PruneEffect ((finishCommit height).run m) := by
  unfold finishCommit
  rw [Prog.run_modifyMem_bind]
  exact (flushPendingPrunes_prunes _).1.bind fun _ _ => Emits.of_log_nil rfl

/-- The writes of a commit, those of the first four transactions apart. -/
theorem commit_writes (htables : ∀ p,
      m.disk.store.undecidedProposals[Slot.mk c.height c.round]? = some p →
        Emits A ((commitTables cfg c p).run m))
    (hcleanup : ∀ m w, CleanupEffect c.height w → A m w) (hprune : ∀ m w, PruneEffect m w → A m w)
    (hput : ∀ m s, A m (.blob (.putDecided c.height s)))
    (hdelete : ∀ m key, key.height = c.height → A m (.blob (.deleteUndecided key)))
    (hmark : ∀ m, A m (.store (.markBlobMetadataDecided ⟨c.height, c.round⟩))) :
    Emits A ((commit cfg c).run m) := by
  unfold commit commitHeight
  refine Emits.bind ?_ fun _ _ => (finishCommit_prunes _ _).mono hprune
  rw [run_getDisk_bind]
  split
  · rename_i p hp
    exact (htables p hp).bind fun _ _ => (commitCleanup_writes _ _ _).mono hcleanup
  · exact commitReplay_writes hput hdelete hmark
  · exact Emits.of_log_nil rfl

theorem decidedValues_of_finishCommit (hr : Returns (finishCommit height) m u m') :
    m'.disk.store.decidedValues = m.disk.store.decidedValues := by
  rw [← hr.2]
  refine decidedValues_of_emits ((finishCommit_prunes height m).mono fun _ w hw => ?_)
  cases hw <;> trivial

/-- **The decided value of a commit**: the value of the proposal it commits, or the one that was there
if it is a replay. -/
theorem decidedValue_of_commit (hr : Returns (commit cfg c) m u m') :
    (∃ p, m.disk.store.undecidedProposals[Slot.mk c.height c.round]? = some p ∧
        m'.disk.store.decidedValues = m.disk.store.decidedValues.insert c.height ⟨p.value, c⟩) ∨
      (m.disk.store.undecidedProposals[Slot.mk c.height c.round]? = none ∧
        (m.disk.store.decidedValues[c.height]?).isSome ∧
        m'.disk.store.decidedValues = m.disk.store.decidedValues) := by
  obtain ⟨m₁, hfinish, ⟨p, hp, hcommit⟩ | ⟨hp, hd, hreplay⟩⟩ := returns_commit.1 hr
  · obtain ⟨_, _, _, _, hsame, _⟩ := returns_commitProposal hcommit
    refine .inl ⟨p, hp, ?_⟩
    rw [decidedValues_of_finishCommit hfinish, ← (Store.committed_fields m.disk.store cfg c p).1]
    exact Table.ext_getElem? fun n => (hsame n).value
  · refine .inr ⟨hp, hd, ?_⟩
    rw [decidedValues_of_finishCommit hfinish, ← hreplay.2]
    exact decidedValues_of_emits (commitReplay_writes (fun _ _ => trivial) (fun _ _ _ => trivial)
      fun _ => rfl)

/-- The writes of a decision: its blobs are promoted, and then its height is committed, with the store
as it was. -/
theorem decided_emits_of_store {script : EngineScript}
    (hput : ∀ m s, A m (.blob (.putDecided c.height s)))
    (hdelete : ∀ m key, key.height = c.height → A m (.blob (.deleteUndecided key)))
    (hcommit : ∀ m, m.disk.store = m₀.disk.store → Emits A ((commit cfg c).run m)) :
    Emits A ((decided cfg c script).run m₀) := by
  unfold decided
  refine ((realignLatestBlock_silent _).emits _).bind fun _ _ => ?_
  rw [run_getDisk_bind]
  split
  · exact Emits.of_log_nil rfl
  split
  · exact Emits.of_log_nil rfl
  refine (Emits.closed _).attempt_bind ?_ (fun _ _ => Emits.of_log_nil rfl)
    (fun _ _ => Emits.of_log_nil rfl)
  unfold processDecidedCertificate
  rw [run_getDisk_bind]
  refine Emits.ofExit_bind fun check _ => ?_
  refine Emits.bind ((Emits.closed _).onlyIf fun _ => markDecided_writes hput hdelete)
    fun _ _ => ?_
  refine ((importBlock_silent _ _ _).emits _).bind fun result _ => ?_
  dsimp only
  rw [Prog.run_modifyMem_bind]
  refine (hcommit _ ?_).bind fun _ _ => (finishDecided_silent _ _ _ _ _ _).emits _
  rw [(importBlock_silent _ _ _).disk_eq, ((markDecided_frame _ _).onlyIf _).1,
    (realignLatestBlock_silent _).disk_eq]

/-- The same, whatever the store. -/
theorem decided_emits {script : EngineScript} (hput : ∀ m s, A m (.blob (.putDecided c.height s)))
    (hdelete : ∀ m key, key.height = c.height → A m (.blob (.deleteUndecided key)))
    (hcommit : ∀ m, Emits A ((commit cfg c).run m)) :
    Emits A ((decided cfg c script).run m₀) :=
  decided_emits_of_store hput hdelete fun m _ => hcommit m

end Deciding

/-! ## The writes of a message -/

section Handle

variable {m : Machine Disk Memory}

theorem Act.logged_emits {p : Act α} (h : Emits A (p.run m)) :
    Emits A ((Act.logged p).run m) :=
  (Emits.attempt h).bind fun _ _ => Emits.of_log_nil rfl

/-- What a start may write. -/
inductive StartEffect (m : Machine Disk Memory) : StoreWrite → Prop
  | genesis : StartEffect m .insertGenesisBlobMetadata
  | rewrite {height : Height} {metadata : BlobMetadata} (h : RewritesMetadata m height metadata) :
      StartEffect m (.updateBlobMetadata height metadata)
  | removal {w : StoreWrite} (h : w.isRemoval = true) : StartEffect m w

/-- What a start may write, and which rows it removes. -/
inductive BootEffect (cfg : Config) (m : Machine Disk Memory) : Write → Prop
  | genesis : BootEffect cfg m (.store .insertGenesisBlobMetadata)
  | stale {slot : Slot} (h : slot.height < cfg.startHeight) :
      BootEffect cfg m (.store (.deleteBlobMetadataUndecided slot))
  | prune {w : Write} (h : PruneEffect m w) : BootEffect cfg m w

theorem hydrateBlobParentRoot_writes (cfg : Config) (m : Machine Disk Memory) :
    Archives (BootEffect cfg) (hydrateBlobParentRoot cfg) m := by
  refine Archives.closed.getDisk_bind (Archives.closed.ofExit_bind fun latest _ => ?_)
  cases latest with
  | none => exact Archives.closed.bind (.write .genesis) fun _ _ => .aside rfl
  | some e => exact .aside rfl

theorem cleanupStaleBlobMetadata_writes {cfg : Config} (h : m.mem.currentHeight = cfg.startHeight) :
    Emits (BootEffect cfg) (cleanupStaleBlobMetadata.run m) := by
  unfold cleanupStaleBlobMetadata
  rw [Prog.run_get_bind]
  refine Emits.writeAll fun w hw d => ?_
  obtain ⟨slot, hslot, rfl⟩ := List.mem_map.1 hw
  have hlt := List.mem_takeWhile_imp hslot
  rw [h, decide_eq_true_iff] at hlt
  exact .stale hlt

theorem rehydrateHeights_writes (cfg : Config) (heights : List Height) (m : Machine Disk Memory) :
    Archives (BootEffect cfg) (Prog.forEach (rehydrateHeight cfg) heights) m := by
  refine Archives.closed.forEach fun height _ m => ?_
  refine Archives.closed.get_bind (Archives.closed.ofExit_bind fun result hresult => ?_)
  cases result with
  | none => exact Archives.closed.pure _
  | some metadata =>
    dsimp only
    split
    · exact Archives.closed.pure _
    split
    · split
      · exact .aside rfl
      · exact Archives.closed.pure _
    rename_i hall
    split
    · rename_i hfinal
      have hall : metadata.allArchived = true := by simpa using hall
      exact (pruneArchivedHeight_prunes (prunable_of_loaded hresult hall hfinal)).mono
        fun _ _ h => .prune h
    · exact .aside rfl

theorem rehydratePendingPrunes_writes (cfg : Config) (m : Machine Disk Memory) :
    Emits (BootEffect cfg) ((rehydratePendingPrunes cfg).run m) := by
  unfold rehydratePendingPrunes
  rw [run_getDisk_bind, Prog.run_modifyMem_bind]
  exact (rehydrateHeights_writes cfg _ _).1

theorem consensusReady_silent : Silent consensusReady :=
  getDisk_silent.bind fun _ => (Silent.ofExit _).bind fun _ =>
    (Silent.modifyMem _).bind fun _ => getMem_silent.bind fun _ =>
      (Silent.ofExit _).bind fun _ => Silent.pure _

/-- **The writes of a start.** -/
theorem start_writes (cfg : Config) (m : Machine Disk Memory) :
    Emits (BootEffect cfg) ((start cfg).run m) := by
  unfold start
  rw [Prog.run_modifyMem_bind]
  have hhydrate := hydrateBlobParentRoot_writes cfg
    ⟨m.disk, { Memory.new cfg.startHeight with latestBlock := some cfg.genesisBlock }⟩
  refine hhydrate.1.bind fun _ _ => ?_
  refine (cleanupStaleBlobMetadata_writes ?_).bind fun _ _ => ?_
  · exact (sameHead_of_aside hhydrate.2).currentHeight
  exact (rehydratePendingPrunes_writes cfg _).bind fun _ _ => consensusReady_silent.emits _

/-- The writes of a start to the tables. -/
theorem start_effects (cfg : Config) (m : Machine Disk Memory) :
    Emits (OnStore StartEffect) ((start cfg).run m) := by
  refine (start_writes cfg m).mono fun m w h => ?_
  cases h with
  | genesis => exact .genesis
  | stale h => exact .removal rfl
  | prune h =>
    cases h with
    | delete h hi => trivial
    | pruned h => exact .rewrite (PruneEffect.rewrites (.pruned h))

end Handle

end Ultramarine
