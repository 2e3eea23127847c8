import Ultramarine.Lib.Batch
import Ultramarine.Safety.CertifiedCommit

/-!
# One proposal per slot

The undecided proposal, payload, metadata and blobs of a slot are written one after the other. The
three tables keep the first row they are given; the blob store keeps the last blob put under an index.
Whether the four belong together is therefore up to the messages, and to where the node stops:

* a payload that is built again after a crash meets the proposal and the row of the first one;
* the payload of a synced package is stored before anything about the package is checked;
* a second proposal for a slot replaces the blobs and nothing else;
* a stop between two puts leaves a part of the blobs.

`OneProposal` says that a message does none of the first three: everything it offers for a slot is of
the value planned for it. `insideBatch` excludes the last.

Results:

* `undecided_coherent`: in every run of such messages, stopped anywhere but between two blob writes,
  what a slot holds belongs together.
-/

namespace Ultramarine

open Lib Ssz Prog

/-! ## What belongs together -/

/-- The row has the header and the commitments of the value. -/
def BlobMetadata.Describes (row : BlobMetadata) (v : Value) : Prop :=
  row.executionPayloadHeader = v.metadata.executionPayloadHeader ∧
    row.blobKzgCommitments = v.metadata.blobKzgCommitments

/-- **The parts of a slot belong together**, once all four are there: the row is that of the proposal,
its header is that of the stored payload, and the blobs carry its commitments in order of index. -/
def Disk.Coherent (o : Oracles) (d : Disk) (slot : Slot) : Prop :=
  ∀ p record row, d.store.undecidedProposals[slot]? = some p →
    d.store.undecidedBlockData[slot]? = some record →
    d.store.blobMetadataUndecided[slot]? = some row →
    d.blobs.getUndecidedBlobs slot.height slot.round.asI64 ≠ [] →
    row.Describes p.value ∧ record.Builds o p.value ∧
      (d.blobs.getUndecidedBlobs slot.height slot.round.asI64).map (·.kzgCommitment) =
        row.blobKzgCommitments

/-- What a message must bring for its own parts to belong together; everything else is checked. A
restream copies rows that are still undecided. -/
def Event.Consistent (cfg : Config) (m : Machine Disk Memory) : Event → Prop
  | .getValue _ _ _ (some b) =>
    cfg.oracles.fromSszBytes (cfg.oracles.asSszBytes b.payload) = some b.payload ∧
      (bundleCommitments b.bundle).length ≤ u16Max
  | .receivedProposalPart now peer part _ => ∀ parts a, Completes cfg m now peer part parts a →
    (parts.sidecars.map (·.index)).Nodup
  | .processSyncedValue _ _ _ package =>
    (∀ record, package.record? = some record → record.Builds cfg.oracles package.value) ∧
      ∀ value payload sidecars requests notices,
        package = .full value payload sidecars requests notices →
          sidecars = [] ∨ Fits sidecars value.metadata.blobKzgCommitments
  | .restreamProposal height round validRound _ =>
    (m.disk.store.undecidedBlockData[Slot.mk height (restreamSource round validRound)]?).isSome ∧
      (m.disk.store.blobMetadataUndecided[Slot.mk height (restreamSource round validRound)]?).isSome
  | _ => True

/-- A message keeps to one value per slot. -/
structure OneProposal (plan : Slot → Value) (cfg : Config) (m : Machine Disk Memory) (ev : Event) :
    Prop where
  value : ∀ p, OffersProposal cfg m ev p → p.value = plan ⟨p.height, p.round⟩
  consistent : ev.Consistent cfg m

/-! ## The tables -/

/-- Every undecided row is of the value planned for its slot. -/
structure TablesInv (plan : Slot → Value) (o : Oracles) (s : Store) : Prop where
  proposal : Table.All (fun slot p => Slot.mk p.height p.round = slot ∧ p.value = plan slot)
    s.undecidedProposals
  blockData : Table.All (fun slot r => r.Builds o (plan slot)) s.undecidedBlockData
  metadata : Table.All (fun slot row => row.Describes (plan slot)) s.blobMetadataUndecided

variable {height : Height} {m : Machine Disk Memory} {round : Round} {sidecars : List BlobSidecar}
  {slot : Slot} {α : Type} {ev : Event} {now : Nat} {part : StreamMessage} {peer : PeerId}
  {proposer : Address} {w : StoreWrite}

section Offers

variable {plan : Slot → Value} {cfg : Config} {m : Machine Disk Memory} {ev : Event}

theorem describes_of_blockMetadata? {root : B256} {commitments : List KzgCommitment}
    {keccaks : List B256} {header : ExecutionPayloadHeader} {hint : Option Nat}
    {row : BlobMetadata} {v : Value}
    (h : blockMetadata? height root commitments keccaks header hint = some row)
    (hheader : v.metadata.executionPayloadHeader = header)
    (hcommitments : v.metadata.blobKzgCommitments = commitments) : row.Describes v := by
  have hcore := core_blockMetadata? h
  exact ⟨(congrArg BlobCore.executionPayloadHeader hcore).trans hheader.symm,
    (congrArg BlobCore.blobKzgCommitments hcore).trans hcommitments.symm⟩

/-- What a restream loads is of the value planned for the slot it comes from. -/
theorem TablesInv.loadRestream (h : TablesInv plan cfg.oracles m.disk.store) {r : Restream}
    (hload : loadRestream cfg m.disk slot = some r)
    (hdata : (m.disk.store.undecidedBlockData[slot]?).isSome)
    (hrow : (m.disk.store.blobMetadataUndecided[slot]?).isSome) :
    r.proposal.height = slot.height ∧ r.proposal.value = plan slot ∧
      r.record.Builds cfg.oracles (plan slot) ∧ r.metadata.Describes (plan slot) ∧
        (r.sidecars = [] ∨ Fits r.sidecars r.metadata.blobKzgCommitments) := by
  obtain ⟨record, hrecord⟩ := Option.isSome_iff_exists.1 hdata
  obtain ⟨row, hrow⟩ := Option.isSome_iff_exists.1 hrow
  have hloaded : m.disk.store.loadBlobMetadataForRound slot = .ok (some row) := by
    unfold Store.loadBlobMetadataForRound
    rw [hrow]
  have hrecord' : m.disk.store.loadBlockPayloadRecord slot = some record := by
    unfold Store.loadBlockPayloadRecord
    rw [hrecord]
    rfl
  unfold Ultramarine.loadRestream at hload
  simp only [Option.bind_eq_bind, Option.bind_eq_some_iff] at hload
  obtain ⟨p, hp, record', hr, hload⟩ := hload
  cases hrecord'.symm.trans hr
  obtain ⟨hslot, hvalue⟩ := h.proposal _ _ hp
  have hheight : p.height = slot.height := congrArg Slot.height hslot
  have hbuilds := h.blockData _ _ hrecord
  have hdescribes := h.metadata _ _ hrow
  rw [hloaded] at hload
  dsimp only at hload
  split at hload
  · cases hload
    exact ⟨hheight, hvalue, hbuilds, hdescribes, .inl rfl⟩
  split at hload
  · cases hload
    exact ⟨hheight, hvalue, hbuilds, hdescribes, .inl rfl⟩
  split at hload
  · cases hload
  split at hload
  · rename_i sidecars hrebuild
    cases hload
    refine ⟨hheight, hvalue, hbuilds, hdescribes, .inr ?_⟩
    unfold rebuildBlobSidecarsForRestream at hrebuild
    simp only [Exit.bind_eq_ok, Exit.ensure_eq_ok, exists_const] at hrebuild
    obtain ⟨hcount, message, _, hbuild⟩ := hrebuild
    refine fits_of_build hbuild ?_
    rw [List.length_map]
    exact hcount.symm
  · cases hload

/-- The value a restream offers is planned for both rounds. -/
theorem OneProposal.restreamed {height : Height} {round validRound : Round} {r : Restream}
    (hev : OneProposal plan cfg m (.restreamProposal height round validRound cfg.address))
    (h : TablesInv plan cfg.oracles m.disk.store)
    (hload : Ultramarine.loadRestream cfg m.disk ⟨height, restreamSource round validRound⟩ = some r) :
    r.record.Builds cfg.oracles (plan ⟨height, round⟩) ∧ r.metadata.Describes (plan ⟨height, round⟩) ∧
      (r.sidecars = [] ∨ Fits r.sidecars r.metadata.blobKzgCommitments) := by
  obtain ⟨hdata, hrow⟩ := hev.consistent
  obtain ⟨hheight, hvalue, hrecord, hmetadata, hsidecars⟩ := h.loadRestream hload hdata hrow
  have hplan := hev.value _ (.restreamed hload)
  dsimp only at hplan hheight
  rw [hvalue, hheight] at hplan
  rw [← hplan]
  exact ⟨hrecord, hmetadata, hsidecars⟩

/-- What a stream that checks out offers is of one value. -/
theorem Completes.coherent {parts : ProposalParts} {a : Assembled}
    (h : Completes cfg m now peer part parts a) :
    a.value.height = parts.height ∧ a.value.round = parts.round ∧
      (⟨a.data, a.executionRequests⟩ : BlockPayloadRecord).Builds cfg.oracles a.value.value ∧
      a.blobMetadata.Describes a.value.value ∧ a.sidecars = parts.sidecars ∧
      a.value.value.metadata.blobKzgCommitments = parts.sidecars.map (·.kzgCommitment) ∧
      ∀ s ∈ parts.sidecars,
        a.value.value.metadata.blobKzgCommitments[s.index]? = some s.kzgCommitment := by
  obtain ⟨payload, metadata, root, hfrom⟩ := assemble_eq_ok.1 h.assembled
  obtain ⟨hcommitments, hindex⟩ := hfrom.commitment_eq
  rw [hfrom.value_eq, hfrom.sidecars_eq]
  refine ⟨rfl, rfl, ⟨payload, hfrom.decode, ?_⟩, ?_, rfl, hcommitments, hindex⟩
  · exact (ValueMetadata.new?_eq_some hfrom.metadata_eq).1
  · exact describes_of_blockMetadata? hfrom.blobMetadata_eq rfl rfl

/-- The value of a built payload is the planned one. -/
theorem OneProposal.built {height : Height} {round : Round} {gate : GateAnswer} {b : BuiltPayload}
    (hev : OneProposal plan cfg m (.getValue height round gate (some b))) :
    ∃ metadata, ValueMetadata.new? (builtHeader cfg b) (bundleCommitments b.bundle) =
      some metadata ∧ Value.new cfg.oracles metadata = plan ⟨height, round⟩ := by
  obtain ⟨metadata, hmetadata⟩ : ∃ metadata,
      ValueMetadata.new? (builtHeader cfg b) (bundleCommitments b.bundle) = some metadata := by
    unfold ValueMetadata.new?
    rw [if_pos hev.consistent.2]
    exact ⟨_, rfl⟩
  exact ⟨metadata, hmetadata, hev.value _ (.built hmetadata)⟩

/-- The payload a message offers for a slot is that of the planned value. -/
theorem OneProposal.blockData (hev : OneProposal plan cfg m ev)
    (h : TablesInv plan cfg.oracles m.disk.store) {slot : Slot} {record : BlockPayloadRecord}
    (hoffer : OffersBlockData cfg m ev slot record) : record.Builds cfg.oracles (plan slot) := by
  cases hoffer with
  | @built height round gate b =>
    obtain ⟨metadata, hmetadata, hplan⟩ := hev.built
    rw [← hplan]
    exact ⟨b.payload, hev.consistent.1, (ValueMetadata.new?_eq_some hmetadata).1⟩
  | @received now peer part gate parts a hc =>
    obtain ⟨hheight, hround, hbuilds, _⟩ := hc.coherent
    rw [← hheight, ← hround, ← hev.value _ (.received hc)]
    exact hbuilds
  | @synced height round proposer package record hrecord =>
    have hplan : package.value = plan ⟨height, round⟩ := hev.value _ .synced
    rw [← hplan]
    exact hev.consistent.1 record hrecord
  | restreamed hload => exact (hev.restreamed h hload).1

/-- So is the row. -/
theorem OneProposal.metadata (hev : OneProposal plan cfg m ev)
    (h : TablesInv plan cfg.oracles m.disk.store) {slot : Slot} {row : BlobMetadata}
    (hoffer : OffersMetadata cfg m ev slot row) : row.Describes (plan slot) := by
  cases hoffer with
  | @built height round gate b root row hparent hrow =>
    obtain ⟨metadata, hmetadata, hplan⟩ := hev.built
    obtain ⟨hheader, hcommitments, _⟩ := ValueMetadata.new?_eq_some hmetadata
    rw [← hplan]
    exact describes_of_blockMetadata? hrow hheader hcommitments
  | @received now peer part gate parts a hc =>
    obtain ⟨hheight, hround, _, hdescribes, _⟩ := hc.coherent
    rw [← hheight, ← hround, ← hev.value _ (.received hc)]
    exact hdescribes
  | @synced height round proposer package root keccaks row hparent hrow =>
    have hplan : package.value = plan ⟨height, round⟩ := hev.value _ .synced
    rw [← hplan]
    exact describes_of_blockMetadata? hrow rfl rfl
  | restreamed hload => exact (hev.restreamed h hload).2.1

/-- So are the blobs, if there are any. -/
theorem OneProposal.blobs (hev : OneProposal plan cfg m ev)
    (h : TablesInv plan cfg.oracles m.disk.store) (hoffer : OffersBlobs cfg m ev slot sidecars) :
    sidecars = [] ∨ Fits sidecars (plan slot).metadata.blobKzgCommitments := by
  cases hoffer with
  | @built height round gate b d metadata sidecars hmetadata hprepare =>
    have hplan : Value.new cfg.oracles metadata = plan ⟨height, round⟩ :=
      hev.value _ (.built hmetadata)
    refine .inr ?_
    rw [← hplan]
    unfold prepareBlobSidecarParts at hprepare
    simp only [Exit.bind_eq_ok] at hprepare
    obtain ⟨_, hbundle, root, _, message, _, hbuild⟩ := hprepare
    exact fits_of_build hbuild (length_entries_of_checkBundle hbundle)
  | @received now peer part gate parts a hc =>
    obtain ⟨hheight, hround, _, _, hsidecars, hcommitments, hindex⟩ := hc.coherent
    refine .inr ?_
    rw [hsidecars, ← hheight, ← hround, ← hev.value _ (.received hc)]
    refine ⟨?_, hev.consistent parts a hc, hindex⟩
    rw [hcommitments, List.length_map]
  | @synced height round proposer value payload sidecars requests notices =>
    have hplan : value = plan ⟨height, round⟩ := hev.value _ .synced
    rw [← hplan]
    exact hev.consistent.2 _ _ _ _ _ rfl
  | restreamed hload =>
    obtain ⟨_, hdescribes, hsidecars⟩ := hev.restreamed h hload
    rw [← hdescribes.2]
    exact hsidecars

end Offers

section Rows

variable {plan : Slot → Value} {cfg : Config} {o : Oracles} {s s' : Store}

theorem tablesInv_empty : TablesInv plan o Store.empty :=
  ⟨Table.All.empty, Table.All.empty, Table.All.empty⟩

/-- Transactions on other tables. -/
theorem TablesInv.of_tables (h : TablesInv plan o s)
    (hp : s'.undecidedProposals = s.undecidedProposals)
    (hb : s'.undecidedBlockData = s.undecidedBlockData)
    (hm : s'.blobMetadataUndecided = s.blobMetadataUndecided) : TablesInv plan o s' :=
  ⟨hp ▸ h.proposal, hb ▸ h.blockData, hm ▸ h.metadata⟩

theorem TablesInv.removal {w : StoreWrite} (h : TablesInv plan o s) (hw : w.isRemoval = true) :
    TablesInv plan o (s.apply w) := by
  cases w with
  | deleteUndecidedProposal slot => exact ⟨h.proposal.erase slot, h.blockData, h.metadata⟩
  | deleteUndecidedBlockData slot => exact ⟨h.proposal, h.blockData.erase slot, h.metadata⟩
  | deleteBlobMetadataUndecided slot => exact ⟨h.proposal, h.blockData, h.metadata.erase slot⟩
  | prune retain => exact ⟨h.proposal.eraseWhere _, h.blockData.eraseWhere _, h.metadata⟩
  | _ => cases hw

theorem TablesInv.promote (h : TablesInv plan o s) (slot : Slot) :
    TablesInv plan o (s.apply (.markBlobMetadataDecided slot)) := by
  simp only [Store.apply]
  split
  · exact h
  · exact ⟨h.proposal, h.blockData, h.metadata.erase slot⟩

/-- **One write of a message keeps the rows of every slot together.** -/
theorem tablesInv_apply {m₀ : Machine Disk Memory} (hev : OneProposal plan cfg m₀ ev)
    (h₀ : TablesInv plan cfg.oracles m₀.disk.store) (hw : StoreEffect cfg m₀ ev m w)
    (h : TablesInv plan cfg.oracles m.disk.store) :
    TablesInv plan cfg.oracles (m.disk.store.apply w) := by
  cases hw with
  | @proposal p hoffer =>
    exact ⟨h.proposal.insertIfNew fun _ => ⟨rfl, hev.value p hoffer⟩, h.blockData, h.metadata⟩
  | blockData hoffer =>
    exact ⟨h.proposal, h.blockData.insertIfNew fun _ => hev.blockData h₀ hoffer, h.metadata⟩
  | metadata hoffer =>
    exact ⟨h.proposal, h.blockData, h.metadata.insertIfNew fun _ => hev.metadata h₀ hoffer⟩
  | promote _ => exact h.promote _
  | removal hremoval => exact h.removal hremoval
  | _ => exact h.of_tables rfl rfl rfl

/-- **One write of a start** does so too. -/
theorem tablesInv_apply_start (hw : StartEffect m w) (h : TablesInv plan o m.disk.store) :
    TablesInv plan o (m.disk.store.apply w) := by
  cases hw with
  | genesis =>
    simp only [Store.apply]
    split <;> exact h.of_tables rfl rfl rfl
  | rewrite _ => exact h.of_tables rfl rfl rfl
  | removal hremoval => exact h.removal hremoval

end Rows

/-! ## The blobs -/

/-- Every round holds the blobs of the value planned for it, all of them or none. -/
def BlobStore.Matches (plan : Slot → Value) (b : BlobStore) : Prop :=
  ∀ slot : Slot, b.RoundFree slot.height slot.round.asI64 ∨
    b.Holds slot.height slot.round.asI64 (plan slot).metadata.blobKzgCommitments

/-- Writes to the blob store. -/
def Write.isBlob : Write → Bool
  | .blob _ => true
  | .store _ => false

/-- The call leaves whole rounds wherever it is not between two blob writes. -/
abbrev WholeRounds {α : Type} (plan : Slot → Value) (p : Act α) (m : Machine Disk Memory) : Prop :=
  Batched (fun d : Disk => d.blobs.Matches plan) Write.isBlob p m

section Blobs

variable {plan : Slot → Value} {cfg : Config} {b b' : BlobStore} {m : Machine Disk Memory}

theorem matches_empty : BlobStore.empty.Matches plan := fun _ => .inl fun _ => rfl

theorem BlobStore.Matches.of_clears (h : b.Matches plan) (hclears : b.Clears b') :
    b'.Matches plan := by
  intro slot
  rcases hclears slot.height slot.round.asI64 with hfree | hsame
  · exact .inl hfree
  · refine (h slot).imp (fun hfree i => (hsame i).trans (hfree i)) fun hholds i => ?_
    rw [hsame i]
    exact hholds i

theorem BlobStore.Matches.putAll (h : b.Matches plan)
    (hfits : Fits sidecars (plan slot).metadata.blobKzgCommitments) :
    (b.putAll slot.height slot.round.asI64 sidecars).Matches plan := by
  intro slot'
  by_cases hslot : slot' = slot
  · subst hslot
    exact .inr (BlobStore.holds_putAll hfits (h slot'))
  · -- another slot has other keys
    have hkey : ¬ (slot'.height = slot.height ∧ slot'.round.asI64 = slot.round.asI64) := by
      rintro ⟨hheight, hround⟩
      exact hslot (Slot.ext hheight (Round.asI64_injective hround))
    have hsame : ∀ i, (b.putAll slot.height slot.round.asI64 sidecars).undecided[BlobKey.mk
        slot'.height slot'.round.asI64 i]? = b.undecided[BlobKey.mk slot'.height
          slot'.round.asI64 i]? := by
      intro i
      rw [BlobStore.undecided_putAll, if_neg hkey]
      rfl
    refine (h slot').imp (fun hfree i => (hsame i).trans (hfree i)) fun hholds i => ?_
    rw [hsame i]
    exact hholds i

/-- Archiving deletes decided blobs only. -/
theorem wholeRounds_of_archives (cfg : Config) {p : Act α}
    (h : Emits (ArchiveEffect cfg) (p.run m)) : WholeRounds plan p m := by
  refine .of_keeps (h.mono fun m w hw => ?_)
  cases hw with
  | prune hw => cases hw <;> exact id
  | _ => exact id

/-- A put of the blobs of a value, or of none. -/
theorem wholeRounds_verifyAndStore
    (h : sidecars = [] ∨ Fits sidecars (plan slot).metadata.blobKzgCommitments) :
    WholeRounds plan (verifyAndStore cfg slot.height slot.round.asI64 sidecars) m := by
  unfold verifyAndStore
  split
  · exact .silent (Silent.pure _)
  · rename_i hne
    refine (Batched.closed _ _).ofExit_bind fun _ _ =>
      .of_batch (Emits.writeAll fun w hw _ => ?_) fun hm => ?_
    · obtain ⟨s, _, rfl⟩ := List.mem_map.1 hw
      rfl
    · rw [(run_writeAll _ m).2, foldl_putUndecidedWrites]
      exact hm.putAll (h.resolve_left hne)

theorem wholeRounds_dropRound (height : Height) (round : Int) :
    WholeRounds plan (dropRound height round) m := by
  refine .of_batch (dropRound_writes fun _ _ _ => rfl) fun hm => ?_
  obtain ⟨_, m', hr⟩ := total_dropRound height round m
  rw [hr.2, returns_dropRound.1 hr]
  exact hm.of_clears (BlobStore.clears_withoutRound _ _ _)

theorem wholeRounds_markDecided (height : Height) (round : Int) :
    WholeRounds plan (markDecided height round) m := by
  refine .of_batch (markDecided_writes (fun _ _ => rfl) fun _ _ _ => rfl) fun hm => ?_
  have hr : Returns (markDecided height round) m () _ := returns_markDecided.2 rfl
  rw [hr.2]
  exact hm.of_clears (BlobStore.clears_promote _ _ _)

/-- **Every message leaves whole rounds** wherever it is not stopped between two blob writes. -/
theorem wholeRounds_handle {ev : Event} (hev : OneProposal plan cfg m ev)
    (h : TablesInv plan cfg.oracles m.disk.store) : WholeRounds plan (handle cfg ev) m := by
  have hwalk : Walk cfg m ev fun p a => WholeRounds plan p a :=
    { toClosed := Batched.closed _ _
      store := fun _ => .of_keeps (Emits.write id)
      aside := fun _ => .silent (Silent.modifyMem _)
      move := fun _ _ _ _ => .silent (Silent.modifyMem _)
      bump := .silent (Silent.modifyMem _)
      put := fun hoffer => wholeRounds_verifyAndStore (hev.blobs h hoffer)
      drop := fun _ => wholeRounds_dropRound _ _
      promote := fun _ => wholeRounds_markDecided _ _
      archive := fun hwrites _ => wholeRounds_of_archives cfg hwrites }
  exact walk_handle hwalk (fun gate _ => .silent (ensureElMatchesClHead_silent gate))
    fun _ _ _ _ => .silent (importBlock_silent _ _ _)

end Blobs

/-! ## Runs -/

/-- A step keeps to one value per slot and does not stop between two blob writes. -/
def OneProposal.Allows (plan : Slot → Value) (cfg : Config) (s : Node) (l : Label) : Prop :=
  ∀ m ev, s = .up m → l.event? = some ev → OneProposal plan cfg m ev ∧
    ∀ k, l.cut? = some k → insideBatch Write.isBlob ((handle cfg ev).run m).log k = false

section Runs

variable {plan : Slot → Value} {cfg : Config}

theorem keeps_tablesInv (hev : OneProposal plan cfg m ev)
    (h : TablesInv plan cfg.oracles m.disk.store) :
    Keeps (fun d => TablesInv plan cfg.oracles d.store) (handle cfg ev) m := by
  refine (handle_effects cfg m ev).mono fun m' w hw hm' => ?_
  cases w with
  | blob b => exact hm'
  | store w => exact tablesInv_apply hev h hw hm'

theorem keeps_tablesInv_start (d : Disk) :
    Keeps (fun d => TablesInv plan cfg.oracles d.store) (start cfg) (bootMachine cfg d) := by
  refine (start_effects cfg _).mono fun m' w hw hm' => ?_
  cases w with
  | blob b => exact hm'
  | store w => exact tablesInv_apply_start hw hm'

/-- A start writes no undecided blob. -/
theorem keeps_matches_start (d : Disk) :
    Keeps (fun d => d.blobs.Matches plan) (start cfg) (bootMachine cfg d) := by
  refine (start_writes cfg _).mono fun m' w hw => ?_
  cases hw with
  | prune hw => cases hw <;> exact id
  | _ => exact id

/-- The disk of a call that leaves whole rounds. -/
theorem WholeRounds.diskAt {p : Act α} (hp : WholeRounds plan p m)
    (hm : m.disk.blobs.Matches plan) {cut : Option Nat}
    (hcut : ∀ k, cut = some k → insideBatch Write.isBlob (p.run m).log k = false) :
    (diskAt (p.run m) cut).blobs.Matches plan := by
  cases cut with
  | none => exact (hp hm).2
  | some k => exact hp.cutAt hm (hcut k rfl)

/-- **The invariant of every run of one proposal per slot.** -/
theorem planned_of_reachable {s : Node} (h : Node.Reachable cfg (OneProposal.Allows plan cfg) s) :
    TablesInv plan cfg.oracles s.disk.store ∧ s.disk.blobs.Matches plan := by
  refine h.invariant (I := fun s => TablesInv plan cfg.oracles s.disk.store ∧
    s.disk.blobs.Matches plan) ⟨tablesInv_empty, matches_empty⟩ ?_
  rintro s l s' ⟨htables, hblobs⟩ hok hnext
  rcases Node.next_cases hnext with ⟨m, ev, rfl, hev, hdisk⟩ | ⟨d, rfl, _, hdisk⟩ <;> rw [hdisk]
  · obtain ⟨hone, hcut⟩ := hok m ev rfl hev
    refine ⟨?_, WholeRounds.diskAt (wholeRounds_handle hone htables) hblobs hcut⟩
    exact diskAt_invariant (I := fun d => TablesInv plan cfg.oracles d.store) _ htables
      (keeps_tablesInv hone htables) _
  · constructor
    · exact diskAt_invariant (I := fun d => TablesInv plan cfg.oracles d.store) _ htables
        (keeps_tablesInv_start d) _
    · exact diskAt_invariant (I := fun d => d.blobs.Matches plan) _ hblobs (keeps_matches_start d) _

/-- **The parts of a slot belong together** in every state of a run that keeps to one value per slot
and does not stop between two blob writes. -/
theorem undecided_coherent {s : Node} (h : Node.Reachable cfg (OneProposal.Allows plan cfg) s)
    (slot : Slot) : s.disk.Coherent cfg.oracles slot := by
  obtain ⟨htables, hblobs⟩ := planned_of_reachable h
  intro p record row hp hrecord hrow hne
  have hvalue : p.value = plan slot := (htables.proposal _ _ hp).2
  have hdescribes := htables.metadata _ _ hrow
  rw [hvalue]
  refine ⟨hdescribes, htables.blockData _ _ hrecord, ?_⟩
  rcases hblobs slot with hfree | hholds
  · obtain ⟨s', hs'⟩ := List.exists_mem_of_ne_nil _ hne
    have hget := (BlobStore.mem_getUndecidedBlobs _).1 hs'
    rw [hfree s'.index] at hget
    cases hget
  · rw [hholds.map_getUndecidedBlobs, hdescribes.2]

end Runs

namespace Sample

/-- The first round of height 1. -/
def slotOne : Slot := ⟨1, .some 0⟩

/-- The blob block is proposed for every slot. -/
def blobPlan : Slot → Value := fun _ => blobValue

theorem reachable_proposeBlob : Node.Reachable (config 2) (OneProposal.Allows blobPlan (config 2))
    (node 2 proposeBlob) := by
  refine Reach.refl.follow ⟨?_, by decide +kernel, ?_, by decide +kernel, trivial⟩
  · rintro m ev _ ⟨⟩
  · rintro m ev _ ⟨⟩
    refine ⟨⟨?_, rfl, by decide⟩, ?_⟩
    · rintro p (@⟨_, _, _, _, metadata, hmetadata⟩)
      cases hmetadata
      rfl
    · rintro k ⟨⟩

end Sample

open Sample in
/-- What a proposer holds of its own block: all four parts, and they belong together. -/
theorem undecided_coherent_built :
    ((node 2 proposeBlob).disk.store.undecidedProposals[slotOne]?).isSome ∧
      ((node 2 proposeBlob).disk.store.undecidedBlockData[slotOne]?).isSome ∧
      ((node 2 proposeBlob).disk.store.blobMetadataUndecided[slotOne]?).isSome ∧
      (node 2 proposeBlob).disk.blobs.getUndecidedBlobs 1 0 ≠ [] ∧
      (node 2 proposeBlob).disk.Coherent oracles slotOne := by
  have hparts : ((node 2 proposeBlob).disk.store.undecidedProposals[slotOne]?).isSome ∧
      ((node 2 proposeBlob).disk.store.undecidedBlockData[slotOne]?).isSome ∧
      ((node 2 proposeBlob).disk.store.blobMetadataUndecided[slotOne]?).isSome ∧
      ((node 2 proposeBlob).disk.blobs.getUndecidedBlobs 1 0).length = 1 := by
    decide +kernel
  obtain ⟨hp, hdata, hrow, hblobs⟩ := hparts
  exact ⟨hp, hdata, hrow, List.ne_nil_of_length_eq_add_one hblobs,
    undecided_coherent reachable_proposeBlob slotOne⟩

namespace Sample

/-- The node of validator 2 stops after its proposal and row are stored and before the payload is.
After a restart its engine builds another payload for the same round. -/
def rebuildRun : List Label :=
  [.start, .crash (.getValue 1 (.some 0) gate (some ⟨blobBlock, [], some bundle⟩)) 2,
    .start, .handle (.getValue 1 (.some 0) gate (some ⟨payload 1 5 1 1, [], some bundle⟩))]

end Sample

open Sample in
/-- The proposal and the row of the first payload stay, the second payload is stored beside them. -/
theorem undecided_incoherent :
    Node.Reachable (config 2) (fun _ _ => True) (node 2 rebuildRun) ∧
      ¬ (node 2 rebuildRun).disk.Coherent oracles slotOne := by
  have hrun := @reached 2 rebuildRun
    (((node 2 rebuildRun).disk.store.undecidedProposals[slotOne]?).map
        (fun p => p.value.metadata.executionPayloadHeader.gasUsed) = some 0 ∧
      ((node 2 rebuildRun).disk.store.undecidedBlockData[slotOne]?) = some ⟨[1, 5, 1, 1], []⟩ ∧
      ((node 2 rebuildRun).disk.store.blobMetadataUndecided[slotOne]?).isSome ∧
      ((node 2 rebuildRun).disk.blobs.getUndecidedBlobs 1 0).length = 1) (by decide +kernel)
  obtain ⟨hreach, hgas, hrecord, hrow, hblobs⟩ := hrun
  refine ⟨hreach, fun hcoherent => ?_⟩
  obtain ⟨p, hp, hgas⟩ := Option.map_eq_some_iff.1 hgas
  obtain ⟨row, hrow⟩ := Option.isSome_iff_exists.1 hrow
  obtain ⟨_, ⟨stored, hdecode, hheader⟩, _⟩ := hcoherent p _ row hp hrecord hrow
    (List.ne_nil_of_length_eq_add_one hblobs)
  cases hdecode
  rw [hheader] at hgas
  exact absurd hgas (by decide)

end Ultramarine
