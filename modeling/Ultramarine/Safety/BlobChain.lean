import Ultramarine.App.Walk

/-!
# The chain of blob roots

Every decided metadata row names the root of the row one height below, so the rows of a node form a
chain. A `Plan` says which value and proposer each (height, round) carries and which round is
decided at each height; the plan alone determines the chain (`Plan.canonical`). A run that follows
the plan keeps every decided row on it, whichever of the four ways the row came in by, and keeps
every undecided row one promotion away from it.

* A round may be re-proposed only by the validator whose value it is, and with that value.
* Archiving, pruning and restarts rewrite rows but keep their core, and the chain is made of cores.

Results:

* `chainInv_of_reachable`: the invariant of every run that follows the plan;
* `blob_root_chain_agreement`: two nodes that follow one plan agree on every root.
-/

namespace Ultramarine

open Lib Ssz

/-- What is proposed in one round. -/
structure Proposed where
  value : Value
  proposer : Address

/-- One proposal per (height, round), and the round decided at each height. -/
structure Plan where
  proposal : Slot → Proposed
  round : Height → Round

namespace Plan

variable (plan : Plan) (cfg : Config)

/-- The core of a slot's metadata above the given parent root. -/
def core (parentRoot : B256) (slot : Slot) : BlobCore where
  height := slot.height
  parentBlobRoot := parentRoot
  blobKzgCommitments := (plan.proposal slot).value.metadata.blobKzgCommitments
  executionPayloadHeader := (plan.proposal slot).value.metadata.executionPayloadHeader
  proposerIndexHint := cfg.validatorIndex (plan.proposal slot).proposer

/-- The chain of a plan: the genesis entry, then the decided slot of each height. -/
def canonical : Height → BlobCore
  | 0 => BlobMetadata.genesis.core
  | h + 1 => plan.core cfg ((canonical h).root cfg.oracles) ⟨h + 1, plan.round (h + 1)⟩

/-- The core an undecided slot has if it chains to the canonical row below it. -/
def slotCore (slot : Slot) : BlobCore :=
  plan.core cfg ((plan.canonical cfg (slot.height - 1)).root cfg.oracles) slot

theorem slotCore_round {h : Height} (h0 : h ≠ 0) :
    plan.slotCore cfg ⟨h, plan.round h⟩ = plan.canonical cfg h := by
  obtain ⟨n, rfl⟩ := Nat.exists_eq_succ_of_ne_zero h0
  rfl

/-- A message follows the plan. A synced value and a certificate belong to the decided round; a
validator re-proposes only what it proposed. -/
def AllowsEvent (m : Machine Disk Memory) : Event → Prop
  | .getValue height round _ (some b) =>
    ∀ metadata, ValueMetadata.new? (builtHeader cfg b) (bundleCommitments b.bundle) = some metadata →
      plan.proposal ⟨height, round⟩ = ⟨Value.new cfg.oracles metadata, cfg.address⟩
  | .receivedProposalPart now peer part _ =>
    ∀ parts a, Completes cfg m now peer part parts a →
      plan.proposal ⟨parts.height, parts.round⟩ = ⟨a.value.value, parts.proposer⟩
  | .processSyncedValue height round proposer package =>
    height ≠ 0 ∧ round = plan.round height ∧
      plan.proposal ⟨height, round⟩ = ⟨package.value, proposer⟩
  | .restreamProposal height round validRound address => address = cfg.address →
    (plan.proposal ⟨height, restreamSource round validRound⟩).proposer = cfg.address ∧
      plan.proposal ⟨height, round⟩ = plan.proposal ⟨height, restreamSource round validRound⟩
  | .decided certificate _ =>
    certificate.height ≠ 0 ∧ certificate.round = plan.round certificate.height
  | _ => True

/-- A step follows the plan. -/
def Allows (s : Node) (l : Label) : Prop :=
  ∀ m ev, s = .up m → l.event? = some ev → plan.AllowsEvent cfg m ev

end Plan

/-- The rows of a disk are on the chain of the plan. -/
structure ChainInv (plan : Plan) (cfg : Config) (d : Disk) : Prop where
  decided : Table.All (fun h row => row.core = plan.canonical cfg h) d.store.blobMetadataDecided
  undecided : Table.All (fun slot row => slot.height ≠ 0 →
    row.core = plan.slotCore cfg slot ∨ row.core = plan.canonical cfg slot.height)
    d.store.blobMetadataUndecided
  parent : ∀ h, (d.store.blobMetadataDecided[h + 1]?).isSome →
    (d.store.blobMetadataDecided[h]?).isSome
  undecided_parent : Table.All (fun slot _ => slot.height ≠ 0 →
    (d.store.blobMetadataDecided[slot.height - 1]?).isSome) d.store.blobMetadataUndecided

variable {m m₀ : Machine Disk Memory} {ev : Event} {metadata : BlobMetadata} {s : Node}
  {w : StoreWrite}

section Rows

variable {plan : Plan} {cfg : Config} {d : Disk}

theorem chainInv_empty : ChainInv plan cfg Disk.empty where
  decided := Table.All.empty
  undecided := Table.All.empty
  parent := by simp [Disk.empty, Store.empty]
  undecided_parent := Table.All.empty

/-- A row built above the row below it is the plan's. -/
theorem core_of_parentRoot (h : ChainInv plan cfg d) (slot : Slot) (h0 : slot.height ≠ 0)
    {parentRoot : B256} (hparent : resolveParentRootForHeight cfg d slot.height = .ok parentRoot) :
    plan.core cfg parentRoot slot = plan.slotCore cfg slot ∧
      (d.store.blobMetadataDecided[slot.height - 1]?).isSome := by
  rcases resolveParentRootForHeight_eq_ok hparent with ⟨hz, _⟩ | ⟨row, hrow, rfl⟩
  · exact absurd hz h0
  · refine ⟨?_, by rw [hrow]; rfl⟩
    rw [h.decided _ _ hrow]
    rfl

/-- Every row a message offers is on the chain, or becomes so when its round is decided. -/
theorem OffersMetadata.chained {slot : Slot} (h : OffersMetadata cfg m₀ ev slot metadata)
    (hev : plan.AllowsEvent cfg m₀ ev) (hinv : ChainInv plan cfg m₀.disk) (h0 : slot.height ≠ 0) :
    (metadata.core = plan.slotCore cfg slot ∨
        metadata.core = plan.canonical cfg slot.height) ∧
      (m₀.disk.store.blobMetadataDecided[slot.height - 1]?).isSome := by
  cases h with
  | @built height round gate b parentRoot metadata hparent h =>
    obtain ⟨v, hv⟩ := valueMetadata_of_blockMetadata? h
    obtain ⟨hheader, hcommitments, _⟩ := ValueMetadata.new?_eq_some hv
    obtain ⟨hcore, hsome⟩ := core_of_parentRoot hinv ⟨height, round⟩ h0 hparent
    refine ⟨.inl ?_, hsome⟩
    rw [core_blockMetadata? h, ← hcore, Plan.core, hev v hv]
    simp only [Value.new, hheader, hcommitments]
  | @received now peer part gate parts a h =>
    obtain ⟨payload, v, root, ha⟩ := assemble_eq_ok.1 h.assembled
    obtain ⟨hcore, hsome⟩ := core_of_parentRoot hinv ⟨parts.height, parts.round⟩ h0
      (proposalParentRoot_eq_ok ha.parent_eq)
    refine ⟨.inl ?_, hsome⟩
    rw [core_blockMetadata? ha.blobMetadata_eq, ← hcore, Plan.core, hev parts a h, ha.value_eq]
    rfl
  | @synced height round proposer package parentRoot keccaks metadata hparent h =>
    obtain ⟨hcore, hsome⟩ := core_of_parentRoot hinv ⟨height, round⟩ h0 hparent
    refine ⟨.inl ?_, hsome⟩
    rw [core_blockMetadata? h, ← hcore, Plan.core, hev.2.2]
  | @restreamed height round validRound r h =>
    -- the copied row is the one of the source round, or the decided one
    have hsame := (hev rfl).2
    have hload := loadRestream_metadata h
    unfold Store.loadBlobMetadataForRound at hload
    split at hload
    · rename_i row hrow
      cases hload
      have hslot := hinv.undecided _ _ hrow h0
      have hbelow := hinv.undecided_parent _ _ hrow h0
      refine ⟨?_, hbelow⟩
      simp only [Plan.slotCore, Plan.core] at hslot ⊢
      rwa [hsame]
    · obtain ⟨row, hrow, hcore⟩ := Store.getBlobMetadata_eq_some hload
      refine ⟨.inr (hcore.trans (hinv.decided _ _ hrow)), ?_⟩
      obtain ⟨n, hn⟩ := Nat.exists_eq_succ_of_ne_zero h0
      change height = n + 1 at hn
      subst hn
      exact hinv.parent n (by rw [hrow]; rfl)

/-- Inserting a row above an existing one leaves no gap. -/
theorem parent_insert {t : Table Height BlobMetadata} {k : Height} {v : BlobMetadata}
    (h : ∀ n, (t[n + 1]?).isSome → (t[n]?).isSome) (hk : ∀ n, k = n + 1 → (t[n]?).isSome) (n : Nat)
    (hn : ((Std.ExtTreeMap.insert t k v)[n + 1]?).isSome) :
    ((Std.ExtTreeMap.insert t k v)[n]?).isSome := by
  refine Table.isSome_insert ?_ _ _
  rw [Table.getElem?_insert_eq] at hn
  by_cases hkn : k = n + 1
  · exact hk n hkn
  · rw [if_neg hkn] at hn
    exact h n hn

/-- A decided row that keeps its core stays on the chain. -/
theorem ChainInv.rewrite {height : Height} (h : ChainInv plan cfg m.disk)
    (hrewrite : RewritesMetadata m height metadata) :
    ChainInv plan cfg
      { m.disk with store := m.disk.store.apply (.updateBlobMetadata height metadata) } := by
  obtain ⟨row, hrow, hcore⟩ := hrewrite
  refine ⟨h.decided.insert (hcore.trans (h.decided _ _ hrow)), h.undecided,
    parent_insert h.parent fun n hn => ?_,
    h.undecided_parent.mono fun slot _ hp h0 => Table.isSome_insert (hp h0) _ _⟩
  subst hn
  exact h.parent n (by rw [hrow]; rfl)

/-- Removing undecided rows keeps the chain. -/
theorem ChainInv.removal {w : StoreWrite} (h : ChainInv plan cfg d) (hw : w.isRemoval = true) :
    ChainInv plan cfg { d with store := d.store.apply w } := by
  cases w with
  | deleteBlobMetadataUndecided slot =>
    exact ⟨h.decided, h.undecided.erase slot, h.parent, h.undecided_parent.erase slot⟩
  | deleteUndecidedProposal _ | deleteUndecidedBlockData _ | prune _ =>
    exact ⟨h.decided, h.undecided, h.parent, h.undecided_parent⟩
  | _ => cases hw

/-- Promoting the decided round of a height puts it on the chain. -/
theorem ChainInv.promote {slot : Slot} (h : ChainInv plan cfg d) (h0 : slot.height ≠ 0)
    (hround : slot.round = plan.round slot.height) :
    ChainInv plan cfg { d with store := d.store.apply (.markBlobMetadataDecided slot) } := by
  simp only [Store.apply]
  split
  · exact ⟨h.decided, h.undecided, h.parent, h.undecided_parent⟩
  · rename_i row hrow
    have hcore : row.core = plan.canonical cfg slot.height := by
      rcases h.undecided _ _ hrow h0 with hc | hc
      · rw [hc, ← plan.slotCore_round cfg h0, ← hround]
      · exact hc
    have hbelow := h.undecided_parent _ _ hrow h0
    refine ⟨h.decided.insert hcore, h.undecided.erase slot, parent_insert h.parent fun n hn => ?_,
      (h.undecided_parent.mono fun _ _ hp h0 => Table.isSome_insert (hp h0) _ _).erase slot⟩
    rw [hn] at hbelow
    exact hbelow

/-- **One write of a message keeps the chain.** -/
theorem chainInv_apply (hev : plan.AllowsEvent cfg m₀ ev) (h₀ : ChainInv plan cfg m₀.disk)
    (hw : StoreEffect cfg m₀ ev m w) (h : ChainInv plan cfg m.disk)
    (hrows : Disk.Grows m₀.disk m.disk) :
    ChainInv plan cfg { m.disk with store := m.disk.store.apply w } := by
  cases hw with
  | proposal _ | blockData _ | decidedValue _ _ | consensusMetadata _ | decidedBlockData _ _
  | archiveRecord => exact ⟨h.decided, h.undecided, h.parent, h.undecided_parent⟩
  | @metadata slot metadata hoffer =>
    refine ⟨h.decided, ?_, h.parent, ?_⟩
    · exact h.undecided.insertIfNew fun _ h0 => (hoffer.chained hev h₀ h0).1
    · exact h.undecided_parent.insertIfNew fun _ h0 => hrows.metadata _ (hoffer.chained hev h₀ h0).2
  | @promote slot hpromotes =>
    cases ev <;> simp only [Event.promotes, Option.some.injEq, reduceCtorEq] at hpromotes
    · subst hpromotes
      exact h.promote hev.1 hev.2
    · subst hpromotes
      exact h.promote hev.1 hev.2.1
  | rewrite hrewrite => exact h.rewrite hrewrite
  | removal hremoval => exact h.removal hremoval

/-- **One write of a start keeps the chain.** -/
theorem chainInv_apply_start (hw : StartEffect m w) (h : ChainInv plan cfg m.disk) :
    ChainInv plan cfg { m.disk with store := m.disk.store.apply w } := by
  cases hw with
  | genesis =>
    simp only [Store.apply]
    split
    · exact ⟨h.decided, h.undecided, h.parent, h.undecided_parent⟩
    · exact ⟨h.decided.insert rfl, h.undecided,
        parent_insert h.parent fun n hn => absurd hn (Nat.succ_ne_zero n).symm,
        h.undecided_parent.mono fun slot _ hp h0 => Table.isSome_insert (hp h0) _ _⟩
  | rewrite hrewrite => exact h.rewrite hrewrite
  | removal hremoval => exact h.removal hremoval

end Rows

/-! ## Runs -/

section Runs

variable {plan : Plan} {cfg : Config}

theorem keeps_chainInv (hev : plan.AllowsEvent cfg m ev) (h : ChainInv plan cfg m.disk) :
    Keeps (fun d => ChainInv plan cfg d ∧ Disk.Grows m.disk d) (handle cfg ev) m := by
  refine (handle_effects cfg m ev).mono fun m' w hw hm' => ?_
  cases w with
  | blob b => exact ⟨⟨hm'.1.decided, hm'.1.undecided, hm'.1.parent, hm'.1.undecided_parent⟩,
      hm'.2.trans (.apply m'.disk (.blob b))⟩
  | store w =>
    exact ⟨chainInv_apply hev h hw hm'.1 hm'.2, hm'.2.trans (.apply m'.disk (.store w))⟩

theorem keeps_chainInv_start (d : Disk) :
    Keeps (ChainInv plan cfg) (start cfg) (bootMachine cfg d) := by
  refine (start_effects cfg _).mono fun m' w hw hm' => ?_
  cases w with
  | blob b => exact ⟨hm'.decided, hm'.undecided, hm'.parent, hm'.undecided_parent⟩
  | store w => exact chainInv_apply_start hw hm'

/-- **The invariant of every run that follows the plan.** -/
theorem chainInv_of_reachable (h : Node.Reachable cfg (plan.Allows cfg) s) :
    ChainInv plan cfg s.disk :=
  Node.disk_invariant_of_reach chainInv_empty
    (fun m ev _ hm hok hev =>
      ⟨fun d => ChainInv plan cfg d ∧ Disk.Grows m.disk d, ⟨hm, .refl _⟩,
        fun _ => And.left, keeps_chainInv (hok m ev rfl hev) hm⟩)
    (fun d _ => keeps_chainInv_start d) h

/-- The metadata a node reads, archive records included, has the plan's core. -/
theorem core_getBlobMetadata (h : Node.Reachable cfg (plan.Allows cfg) s) {n : Height}
    (hget : s.disk.store.getBlobMetadata n = .ok (some metadata)) :
    metadata.core = plan.canonical cfg n := by
  obtain ⟨row, hrow, hcore⟩ := Store.getBlobMetadata_eq_some hget
  rw [hcore]
  exact (chainInv_of_reachable h).decided _ _ hrow

theorem canonical_congr {cfg' : Config} (ho : cfg'.oracles = cfg.oracles)
    (hv : cfg'.validators = cfg.validators) (n : Height) :
    plan.canonical cfg' n = plan.canonical cfg n := by
  induction n with
  | zero => rfl
  | succ n ih =>
    simp only [Plan.canonical, Plan.core, Config.validatorIndex, ih, ho, hv]

end Runs

/-- **Blob-root chain agreement.** Two nodes of one network that follow one plan read metadata with
the same beacon header at every height, whatever their archive records; each row names the root of
the row below it, down to the genesis entry; and no step, archiving, pruning, crash or restart
included, changes a root. -/
theorem blob_root_chain_agreement (plan : Plan) {cfg₁ cfg₂ : Config}
    (ho : cfg₁.oracles = cfg₂.oracles) (hv : cfg₁.validators = cfg₂.validators) {s₁ s₂ : Node}
    (h₁ : Node.Reachable cfg₁ (plan.Allows cfg₁) s₁)
    (h₂ : Node.Reachable cfg₂ (plan.Allows cfg₂) s₂) :
    (∀ n md₁ md₂, s₁.disk.store.getBlobMetadata n = .ok (some md₁) →
        s₂.disk.store.getBlobMetadata n = .ok (some md₂) →
        md₁.toBeaconHeader cfg₁.oracles = md₂.toBeaconHeader cfg₂.oracles ∧
          md₁.computeBlobRoot cfg₁.oracles = md₂.computeBlobRoot cfg₂.oracles) ∧
      (∀ n md, s₁.disk.store.getBlobMetadata (n + 1) = .ok (some md) →
        ∃ row, s₁.disk.store.blobMetadataDecided[n]? = some row ∧
          md.parentBlobRoot = row.computeBlobRoot cfg₁.oracles) ∧
      (∀ md, s₁.disk.store.getBlobMetadata 0 = .ok (some md) →
        md.toBeaconHeader cfg₁.oracles = BlobMetadata.genesis.toBeaconHeader cfg₁.oracles) ∧
      (∀ l s', plan.Allows cfg₁ s₁ l → s₁.next cfg₁ l = some s' →
        ∀ (n : Height) (row : BlobMetadata), s₁.disk.store.blobMetadataDecided[n]? = some row →
          ∃ row', s'.disk.store.blobMetadataDecided[n]? = some row' ∧
            row'.computeBlobRoot cfg₁.oracles = row.computeBlobRoot cfg₁.oracles) := by
  refine ⟨fun n md₁ md₂ hget₁ hget₂ => ?_, fun n md hget => ?_, fun md hget => ?_,
    fun l s' hok hnext n row hrow => ?_⟩
  · have hcore : md₁.core = md₂.core := by
      rw [core_getBlobMetadata h₁ hget₁, core_getBlobMetadata h₂ hget₂, canonical_congr ho hv]
    simp only [BlobMetadata.toBeaconHeader_eq, BlobMetadata.computeBlobRoot_eq, hcore, ho, and_self]
  · have hcore := core_getBlobMetadata h₁ hget
    obtain ⟨above, habove, _⟩ := Store.getBlobMetadata_eq_some hget
    have hinv := chainInv_of_reachable h₁
    obtain ⟨row, hrow⟩ := Option.isSome_iff_exists.1 (hinv.parent n (by rw [habove]; rfl))
    refine ⟨row, hrow, ?_⟩
    rw [BlobMetadata.computeBlobRoot_eq, hinv.decided _ _ hrow]
    exact congrArg BlobCore.parentBlobRoot hcore
  · rw [BlobMetadata.toBeaconHeader_eq, core_getBlobMetadata h₁ hget]
    rfl
  · have hrows := Node.grows_of_next hnext
    obtain ⟨row', hrow'⟩ := Option.isSome_iff_exists.1 (hrows.metadata n (by rw [hrow]; rfl))
    refine ⟨row', hrow', ?_⟩
    rw [BlobMetadata.computeBlobRoot_eq, BlobMetadata.computeBlobRoot_eq,
      (chainInv_of_reachable h₁).decided _ _ hrow,
      (chainInv_of_reachable (h₁.step l hok hnext)).decided _ _ hrow']

namespace Sample

/-- Validator 1 proposes block 1 at height 1. -/
def plan : Plan := ⟨fun _ => ⟨value (payload 1 0 1 0), ⟨1⟩⟩, fun _ => .some 0⟩

/-- The proposer's run to the decision of height 1. -/
def proposerRun : List Label := proposeRun ++ [.handle (.decided certificateOne script)]

/-- The run of a node that learns the decided value from a peer. -/
def syncRun : List Label :=
  [.start, .handle (.processSyncedValue 1 (.some 0) ⟨1⟩
      (.full (value (payload 1 0 1 0)) [1, 0, 1, 0] [] [] [])),
    .handle (.decided certificateOne script)]

theorem reachable_proposerRun :
    Node.Reachable (config 1) (plan.Allows (config 1)) (node 1 proposerRun) := by
  refine Reach.refl.follow ⟨?_, by decide +kernel, ?_, by decide +kernel, ?_, by decide +kernel,
    trivial⟩
  · rintro m ev _ ⟨⟩
  · rintro m ev _ ⟨⟩ metadata hmetadata
    cases hmetadata
    rfl
  · rintro m ev _ ⟨⟩
    exact ⟨Nat.one_ne_zero, rfl⟩

theorem reachable_syncRun :
    Node.Reachable (config 2) (plan.Allows (config 2)) (node 2 syncRun) := by
  refine Reach.refl.follow ⟨?_, by decide +kernel, ?_, by decide +kernel, ?_, by decide +kernel,
    trivial⟩
  · rintro m ev _ ⟨⟩
  · rintro m ev _ ⟨⟩
    exact ⟨Nat.one_ne_zero, rfl, rfl⟩
  · rintro m ev _ ⟨⟩
    exact ⟨Nat.one_ne_zero, rfl⟩

end Sample

open Sample in
/-- Both nodes of the sample network hold metadata at height 1, and its roots agree. -/
theorem blob_root_chain_agreement_sample :
    ((node 1 proposerRun).disk.store.blobMetadataDecided[1]?).isSome = true ∧
      ((node 2 syncRun).disk.store.blobMetadataDecided[1]?).isSome = true ∧
      ∀ n md₁ md₂, (node 1 proposerRun).disk.store.getBlobMetadata n = .ok (some md₁) →
        (node 2 syncRun).disk.store.getBlobMetadata n = .ok (some md₂) →
        md₁.toBeaconHeader (config 1).oracles = md₂.toBeaconHeader (config 2).oracles ∧
          md₁.computeBlobRoot (config 1).oracles = md₂.computeBlobRoot (config 2).oracles :=
  ⟨by decide +kernel, by decide +kernel,
    (@blob_root_chain_agreement plan (config 1) (config 2) rfl rfl (node 1 proposerRun)
      (node 2 syncRun) reachable_proposerRun reachable_syncRun).1⟩

end Ultramarine
