import Ultramarine.App.Walk
import Ultramarine.Types.Codec

/-!
# What is kept forever, and what a commit prunes

No transaction removes a decided row (`Node.grows_of_next`), and every decided row was encoded by the
transaction that wrote it: a certificate has a round, consensus metadata a round within `i32`, a row
of blob metadata only records of its own blobs. So whatever was stored decodes in every later state,
whatever the retention window is set to in between.

`prune` scans keys up to `(retain_height, Nil)`, the bound excluded. The nil round sorts before every
round, so exactly the rows of lower heights go, those of the nil round included (`belowRetain_iff`);
nothing else in a commit touches the two tables.
-/

namespace Ultramarine

open Lib Prog

/-! ## Decoding -/

/-- Every decided row decodes. A blob count is a `u16`. -/
structure Store.Decodes (s : Store) : Prop where
  value : ∀ (h : Height) (e : DecidedValue), s.decidedValues[h]? = some e →
    e.value.metadata.blobCount ≤ u16Max → Value.fromProto e.value.toProto = .ok e.value
  certificate : ∀ (h : Height) (e : DecidedValue), s.decidedValues[h]? = some e →
    ∃ p, e.certificate.toProto = .ok p ∧ CommitCertificate.fromProto p = .ok e.certificate
  blockData : ∀ (h : Height) (r : BlockPayloadRecord), s.decidedBlockData[h]? = some r →
    ∀ bytes, BlockPayloadRecord.fromProto (some r.toProto) bytes = r
  consensus : ∀ (h : Height) (c : ConsensusBlockMetadata), s.consensusBlockMetadata[h]? = some c →
    ∃ p, c.toProto = .ok p ∧ ConsensusBlockMetadata.fromProto p = .ok c
  metadata : ∀ (h : Height) (row : BlobMetadata), s.blobMetadataDecided[h]? = some row →
    ∃ row', BlobMetadata.fromProto row.toProto = .ok row' ∧ row'.core = row.core

/-- The rounds of decided rows have a wire form. -/
structure Store.Encoded (s : Store) : Prop where
  certificate : Table.All (fun (_ : Height) (e : DecidedValue) => e.certificate.round ≠ .nil)
    s.decidedValues
  consensus : Table.All (fun (_ : Height) (c : ConsensusBlockMetadata) => c.round ≠ .nil ∧
    c.round.asI64 ≤ i32Max) s.consensusBlockMetadata

variable {w : StoreWrite} {height : Height} {p : ProposedValue} {s : Store} {α : Type}

theorem Store.Encoded.decodes (h : s.Encoded) : s.Decodes where
  value _ _ _ := Value.fromProto_toProto
  certificate _ _ he := CommitCertificate.fromProto_toProto (h.certificate _ _ he)
  blockData _ _ _ _ := rfl
  consensus _ _ hc :=
    ConsensusBlockMetadata.fromProto_toProto (h.consensus _ _ hc).1 (h.consensus _ _ hc).2
  metadata _ row _ := by
    obtain ⟨row', hrow', hcore, _⟩ := row.fromProto_toProto
    exact ⟨row', hrow', hcore⟩

/-- The round of a row that is written has a wire form. -/
def StoreWrite.RoundChecked : StoreWrite → Prop
  | .insertDecidedValue e => e.certificate.round ≠ .nil
  | .insertConsensusBlockMetadata _ c => c.round ≠ .nil ∧ c.round.asI64 ≤ i32Max
  | _ => True

theorem Store.Encoded.apply (h : s.Encoded) (hw : w.RoundChecked) : (s.apply w).Encoded := by
  cases w with
  | insertDecidedValue e => exact ⟨h.certificate.insert hw, h.consensus⟩
  | insertConsensusBlockMetadata height c => exact ⟨h.certificate, h.consensus.insert hw⟩
  | markBlobMetadataDecided slot =>
    simp only [Store.apply]
    split <;> exact ⟨h.certificate, h.consensus⟩
  | insertGenesisBlobMetadata =>
    simp only [Store.apply]
    split <;> exact ⟨h.certificate, h.consensus⟩
  | _ => exact ⟨h.certificate, h.consensus⟩

section Writes

variable {cfg : Config} {m m₀ : Machine Disk Memory} {ev : Event}

theorem PruneEffect.roundChecked {w : Write} (h : PruneEffect m w) :
    OnStore (fun _ w => w.RoundChecked) m w := by
  cases h <;> trivial

theorem CleanupEffect.roundChecked {w : Write} (h : CleanupEffect height w) :
    OnStore (fun _ w => w.RoundChecked) m w := by
  cases h with
  | prune hle => trivial
  | drop h => cases h <;> trivial

/-- The first four transactions of a commit are refused for a round without a wire form. -/
theorem commit_roundChecked (c : CommitCertificate) :
    Emits (OnStore fun _ w => w.RoundChecked) ((commit cfg c).run m) :=
  commit_writes (fun _ _ => commitTables_writes (fun hnil => hnil) (fun hnil hle _ => ⟨hnil, hle⟩)
      (fun _ => trivial) fun _ _ => trivial)
    (fun _ _ h => h.roundChecked) (fun _ _ h => h.roundChecked) (fun _ _ => trivial)
    (fun _ _ _ => trivial) fun _ => trivial

/-- Only a decision writes rows with a round to check. -/
theorem StoreEffect.roundChecked (h : StoreEffect cfg m₀ ev m w)
    (hev : ∀ c script, ev ≠ .decided c script) : w.RoundChecked := by
  cases h with
  | decidedValue h _ => exact absurd h (hev _ _)
  | consensusMetadata h => exact absurd h (hev _ _)
  | removal h => cases w <;> trivial
  | _ => trivial

theorem handle_roundChecked (cfg : Config) (m : Machine Disk Memory) (ev : Event) :
    Emits (OnStore fun _ w => w.RoundChecked) ((handle cfg ev).run m) := by
  by_cases hev : ∃ c script, ev = .decided c script
  · obtain ⟨c, script, rfl⟩ := hev
    exact Act.logged_emits (decided_emits (fun _ _ => trivial) (fun _ _ _ => trivial)
      fun _ => commit_roundChecked c)
  · refine (handle_effects cfg m ev).mono fun m' w hw => ?_
    cases w with
    | blob b => trivial
    | store w => exact StoreEffect.roundChecked hw fun c script h => hev ⟨c, script, h⟩

theorem StartEffect.roundChecked (h : StartEffect m w) : w.RoundChecked := by
  cases h with
  | removal h => cases w <;> trivial
  | _ => trivial

theorem keeps_encoded {p : Act α} (h : Emits (OnStore fun _ w => w.RoundChecked) (p.run m)) :
    Keeps (fun d => d.store.Encoded) p m := by
  refine h.mono fun m' w hw hm' => ?_
  cases w with
  | blob b => exact hm'
  | store w => exact Store.Encoded.apply hm' hw

end Writes

/-! ## Runs with any retention window -/

/-- A step of a node, or a new retention window. -/
inductive WindowLabel where
  | step (l : Label)
  | window (w : Nat)

/-- `set_blob_retention_window_for_testing` -/
def Node.setBlobRetentionWindow (w : Nat) : Node → Node
  | up m => up { m with mem := { m.mem with blobRetentionWindow := max w 1 } }
  | down d => down d

/-- One step of a node whose retention window may be set. -/
def Node.nextWindow (cfg : Config) : WindowLabel → Node → Option Node
  | .step l, s => s.next cfg l
  | .window w, s => some (s.setBlobRetentionWindow w)

theorem Node.disk_setBlobRetentionWindow (w : Nat) (s : Node) :
    (s.setBlobRetentionWindow w).disk = s.disk := by
  cases s <;> rfl

section Runs

variable {cfg : Config} {s s' : Node}

/-- **One step keeps decided rows, and keeps them decodable.** -/
theorem Node.nextWindow_keeps {l : WindowLabel} (hs : s.disk.store.Encoded)
    (h : s.nextWindow cfg l = some s') : Disk.Grows s.disk s'.disk ∧ s'.disk.store.Encoded := by
  cases l with
  | step l =>
    refine ⟨Node.grows_of_next h, ?_⟩
    refine Node.disk_invariant_of_next (I := fun d => d.store.Encoded) hs (fun m ev hm _ => ?_)
      (fun d _ => ?_) h
    · subst hm
      exact ⟨_, hs, fun _ => id, keeps_encoded (handle_roundChecked cfg m ev)⟩
    · refine keeps_encoded ((start_effects cfg _).mono fun m w hw => ?_)
      cases w with
      | blob b => trivial
      | store w => exact StartEffect.roundChecked hw
  | window w =>
    cases h
    rw [Node.disk_setBlobRetentionWindow]
    exact ⟨.refl _, hs⟩

theorem Node.reach_keeps {ok : Node → WindowLabel → Prop} (hs : s.disk.store.Encoded)
    (h : Reach (Node.nextWindow cfg) ok s s') :
    Disk.Grows s.disk s'.disk ∧ s'.disk.store.Encoded :=
  h.invariant (I := fun s' => Disk.Grows s.disk s'.disk ∧ s'.disk.store.Encoded) ⟨.refl _, hs⟩
    fun _ _ _ ⟨hgrows, hencoded⟩ _ hnext =>
      ⟨hgrows.trans (Node.nextWindow_keeps hencoded hnext).1,
        (Node.nextWindow_keeps hencoded hnext).2⟩

theorem Store.encoded_empty : Disk.empty.store.Encoded := ⟨.empty, .empty⟩

end Runs

/-! ## Pruning -/

/-- **The scan ends at the nil round of the retained height**, and no round sorts below nil. -/
theorem Store.belowRetain_iff {retain : Height} {slot : Slot} :
    Store.belowRetain retain slot = true ↔ slot.height < retain := by
  have hround : compare slot.round Round.nil ≠ .lt := by
    show compare slot.round.asI64 (-1) ≠ .lt
    rw [Ne, Int.compare_eq_lt]
    cases slot.round <;> simp only [Round.asI64] <;> omega
  have hcompare : compare slot ⟨retain, .nil⟩ =
      (compare slot.height retain).then (compare slot.round Round.nil) := rfl
  unfold Store.belowRetain
  rw [beq_iff_eq, hcompare, Ordering.then_eq_lt, Nat.compare_eq_lt]
  simp [hround]

/-- The height up to which a commit prunes: out of the retention window, and below every height
still to be archived. -/
theorem lt_retainHeight {mem : Memory} {n : Height} :
    n < retainHeight mem height ↔ n < height + 1 - max mem.blobRetentionWindow 1 ∧
      ∀ k, mem.pendingArchiveHeights[k]? = some () → n < k := by
  have hfloor : height - (max mem.blobRetentionWindow 1 - 1) =
      height + 1 - max mem.blobRetentionWindow 1 := Nat.sub_sub_right _ (le_max_right _ _)
  have hmem : ∀ {k : Height}, mem.pendingArchiveHeights[k]? = some () ↔
      k ∈ mem.pendingArchiveHeights.keys := by
    intro k
    rw [Table.mem_keys, Option.isSome_iff_exists]
    exact ⟨fun h => ⟨(), h⟩, fun ⟨_, h⟩ => h⟩
  have hsorted := Std.ExtTreeMap.ordered_keys (t := mem.pendingArchiveHeights)
  unfold retainHeight
  simp only [hfloor, hmem]
  cases hkeys : mem.pendingArchiveHeights.keys with
  | nil => simp
  | cons pending rest =>
    rw [hkeys, List.pairwise_cons] at hsorted
    simp only [List.head?_cons, lt_min_iff, List.mem_cons, forall_eq_or_imp]
    constructor
    · rintro ⟨hpending, hlt⟩
      refine ⟨hlt, hpending, fun k hk => hpending.trans ?_⟩
      exact Nat.compare_eq_lt.1 (hsorted.1 k hk)
    · rintro ⟨hlt, hpending, -⟩
      exact ⟨hpending, hlt⟩

/-- The undecided proposals and payloads that meet `below` are gone, the others are as they were. -/
structure Store.Prunes (below : Slot → Prop) (s s' : Store) : Prop where
  proposals_removed : ∀ slot, below slot → s'.undecidedProposals[slot]? = none
  proposals_kept : ∀ slot, ¬ below slot →
    s'.undecidedProposals[slot]? = s.undecidedProposals[slot]?
  blockData_removed : ∀ slot, below slot → s'.undecidedBlockData[slot]? = none
  blockData_kept : ∀ slot, ¬ below slot →
    s'.undecidedBlockData[slot]? = s.undecidedBlockData[slot]?

theorem Store.prunes_prune (s : Store) (retain : Height) :
    s.Prunes (fun slot => slot.height < retain) (s.apply (.prune retain)) := by
  have hproposals := Table.getElem?_eraseWhere (Store.belowRetain retain) s.undecidedProposals
  have hblockData := Table.getElem?_eraseWhere (Store.belowRetain retain) s.undecidedBlockData
  simp only [Store.belowRetain_iff] at hproposals hblockData
  refine ⟨fun slot h => ?_, fun slot h => ?_, fun slot h => ?_, fun slot h => ?_⟩
  · exact (hproposals slot).trans (if_pos h)
  · exact (hproposals slot).trans (if_neg h)
  · exact (hblockData slot).trans (if_pos h)
  · exact (hblockData slot).trans (if_neg h)

/-- Transactions on other tables. -/
def StoreWrite.keepsUndecided : StoreWrite → Bool
  | .insertUndecidedProposal _ | .deleteUndecidedProposal _ | .insertUndecidedBlockData _ _
  | .deleteUndecidedBlockData _ | .prune _ => false
  | _ => true

/-- The undecided proposals and payloads are as they were. -/
structure Store.SameUndecided (s s' : Store) : Prop where
  proposals : s'.undecidedProposals = s.undecidedProposals
  blockData : s'.undecidedBlockData = s.undecidedBlockData

theorem Store.SameUndecided.apply (s : Store) (h : w.keepsUndecided = true) :
    s.SameUndecided (s.apply w) := by
  cases w with
  | markBlobMetadataDecided slot =>
    simp only [Store.apply]
    split <;> exact ⟨rfl, rfl⟩
  | insertGenesisBlobMetadata =>
    simp only [Store.apply]
    split <;> exact ⟨rfl, rfl⟩
  | insertUndecidedProposal _ | deleteUndecidedProposal _ | insertUndecidedBlockData _ _
  | deleteUndecidedBlockData _ | prune _ => cases h
  | _ => exact ⟨rfl, rfl⟩

section Commit

variable {cfg : Config} {c : CommitCertificate} {m m' : Machine Disk Memory}

theorem sameUndecided_of_emits {p : Act α}
    (h : Emits (OnStore fun _ w => w.keepsUndecided = true) (p.run m)) :
    m.disk.store.SameUndecided (p.run m).state.disk.store := by
  refine (p.disk_invariant (I := fun d => m.disk.store.SameUndecided d.store) ⟨rfl, rfl⟩
    (h.mono fun m' w hw hm' => ?_)).2
  cases w with
  | blob b => exact hm'
  | store w =>
    have happly := Store.SameUndecided.apply m'.disk.store hw
    exact ⟨happly.proposals.trans hm'.proposals, happly.blockData.trans hm'.blockData⟩

theorem finishCommit_keepsUndecided (height : Height) (m : Machine Disk Memory) :
    Emits (OnStore fun _ w => w.keepsUndecided = true) ((finishCommit height).run m) := by
  refine (finishCommit_prunes height m).mono fun _ _ h => ?_
  cases h with
  | delete h hi => trivial
  | pruned h => exact rfl

theorem commitReplay_keepsUndecided (cfg : Config) (c : CommitCertificate)
    (m : Machine Disk Memory) :
    Emits (OnStore fun _ w => w.keepsUndecided = true) ((commitReplay cfg c).run m) :=
  commitReplay_writes (fun _ _ => trivial) (fun _ _ _ => trivial) fun _ => rfl

/-- A first commit prunes the two tables, once. -/
theorem prunes_commitProposal (h : Returns (commitProposal cfg c p) m () m') :
    m.disk.store.Prunes (fun slot => slot.height < retainHeight m.mem c.height) m'.disk.store := by
  unfold commitProposal commitCleanup at h
  obtain ⟨_, m₁, htables, hcleanup⟩ := returns_bind.1 h
  obtain ⟨-, -, metadata, -, rfl⟩ := returns_commitTables.1 htables
  rw [returns_getMem_bind, returns_storeWrite_bind] at hcleanup
  have hretain : retainHeight (m.mem.withBlobRoot cfg c.height metadata) c.height =
      retainHeight m.mem c.height := rfl
  have hdrop := sameUndecided_of_emits (p := dropFailedRounds c.height c.round)
    (m := afterStore ⟨⟨m.disk.store.committed cfg c p, m.disk.blobs⟩,
      m.mem.withBlobRoot cfg c.height metadata⟩
      (.prune (retainHeight (m.mem.withBlobRoot cfg c.height metadata) c.height)))
    (dropFailedRounds_writes (fun _ _ => rfl) fun _ _ _ => trivial)
  rw [hcleanup.2, hretain] at hdrop
  have hprune := Store.prunes_prune (m.disk.store.committed cfg c p) (retainHeight m.mem c.height)
  obtain ⟨-, -, -, hproposals, hblockData⟩ := Store.committed_fields m.disk.store cfg c p
  refine ⟨fun slot hslot => ?_, fun slot hslot => ?_, fun slot hslot => ?_, fun slot hslot => ?_⟩
  · rw [hdrop.proposals]
    exact hprune.proposals_removed slot hslot
  · rw [hdrop.proposals, ← hproposals]
    exact hprune.proposals_kept slot hslot
  · rw [hdrop.blockData]
    exact hprune.blockData_removed slot hslot
  · rw [hdrop.blockData, ← hblockData]
    exact hprune.blockData_kept slot hslot

end Commit

/-- **Decided rows are kept and decode; a commit prunes exactly what is out of its window.** Whatever
the retention window is set to during a run, every decided value, certificate, payload and metadata row
of a state is there in every later state, and every row of a later state decodes. A commit removes from
the undecided proposals and payloads exactly the rows, of every round, that are out of the window and
below every height still to be archived; repeating a commit removes none. -/
theorem decided_rows_retained {cfg : Config} {ok : Node → WindowLabel → Prop} {s s' : Node}
    (hs : Reach (Node.nextWindow cfg) ok (Node.down Disk.empty) s)
    (hs' : Reach (Node.nextWindow cfg) ok s s') :
    Disk.Grows s.disk s'.disk ∧ s'.disk.store.Decodes ∧
      ∀ (c : CommitCertificate) (m m' : Machine Disk Memory), Returns (commit cfg c) m () m' →
        ((m.disk.store.undecidedProposals[Slot.mk c.height c.round]?).isSome →
          m.disk.store.Prunes (fun slot =>
            slot.height < c.height + 1 - max m.mem.blobRetentionWindow 1 ∧
              ∀ k, m.mem.pendingArchiveHeights[k]? = some () → slot.height < k) m'.disk.store) ∧
        (m.disk.store.undecidedProposals[Slot.mk c.height c.round]? = none →
          m.disk.store.SameUndecided m'.disk.store) := by
  have hencoded := (Node.reach_keeps (s := Node.down Disk.empty) Store.encoded_empty hs).2
  obtain ⟨hgrows, hencoded'⟩ := Node.reach_keeps hencoded hs'
  refine ⟨hgrows, hencoded'.decodes, fun c m m' hcommit => ?_⟩
  obtain ⟨m₁, hfinish, hheight⟩ := returns_commit.1 hcommit
  have hsame := sameUndecided_of_emits (finishCommit_keepsUndecided c.height m₁)
  rw [hfinish.2] at hsame
  rcases hheight with ⟨p, hp, hproposal⟩ | ⟨hp, -, hreplay⟩
  · refine ⟨fun _ => ?_, fun hnone => absurd hnone (by simp [hp])⟩
    have hprunes := prunes_commitProposal hproposal
    simp only [lt_retainHeight] at hprunes
    refine ⟨fun slot hslot => ?_, fun slot hslot => ?_, fun slot hslot => ?_, fun slot hslot => ?_⟩
    · rw [hsame.proposals]
      exact hprunes.proposals_removed slot hslot
    · rw [hsame.proposals]
      exact hprunes.proposals_kept slot hslot
    · rw [hsame.blockData]
      exact hprunes.blockData_removed slot hslot
    · rw [hsame.blockData]
      exact hprunes.blockData_kept slot hslot
  · refine ⟨fun hsome => absurd hsome (by simp [hp]), fun _ => ?_⟩
    have hreplay' := sameUndecided_of_emits (commitReplay_keepsUndecided cfg c m)
    rw [hreplay.2] at hreplay'
    exact ⟨hsame.proposals.trans hreplay'.proposals, hsame.blockData.trans hreplay'.blockData⟩

namespace Sample

/-- Height 1 is proposed and committed with a window of one height. -/
def commitOneWindow : List WindowLabel :=
  [.step .start, .window 0,
    .step (.handle (.getValue 1 (.some 0) gate (some ⟨payload 1 0 1 0, [], none⟩))),
    .step (.handle (.decided certificateOne script))]

/-- Height 2 is proposed. -/
def windowPropose : WindowLabel :=
  .step (.handle (.getValue 2 (.some 0) gate (some ⟨payload 2 0 1 0, [], none⟩)))

/-- The node of validator 1 after a list of labels. -/
def windowNode (ls : List WindowLabel) : Node :=
  follow (Node.nextWindow (config 1)) ls (.down Disk.empty)

/-- The certificate of height 2. -/
def windowCertificate : CommitCertificate := certificate 2 (.some 0) (value (payload 2 0 1 0))

/-- The node when height 2 is proposed. -/
def windowProposed : Machine Disk Memory := (windowNode (commitOneWindow ++ [windowPropose])).machine

/-- What the commit of height 2 leaves. -/
def windowCommit : Machine Disk Memory :=
  ((commit (config 1) windowCertificate).run windowProposed).state

end Sample

theorem decided_rows_retained_two :
    ((Sample.windowNode Sample.commitOneWindow).disk.store.decidedValues[1]?).isSome ∧
      Disk.Grows (Sample.windowNode Sample.commitOneWindow).disk
        (Sample.windowNode (Sample.commitOneWindow ++ [Sample.windowPropose])).disk ∧
      Sample.windowCommit.disk.store.undecidedProposals[Slot.mk 1 (.some 0)]? = none := by
  have hone : Follows (Node.nextWindow (Sample.config 1)) (fun _ _ => True) Sample.commitOneWindow
      (.down Disk.empty) ∧
      ((Sample.windowNode Sample.commitOneWindow).disk.store.decidedValues[1]?).isSome := by
    decide +kernel
  have htwo : Follows (Node.nextWindow (Sample.config 1)) (fun _ _ => True) [Sample.windowPropose]
      (Sample.windowNode Sample.commitOneWindow) := by
    decide +kernel
  have hcommit : Returns (commit (Sample.config 1) Sample.windowCertificate)
      Sample.windowProposed () Sample.windowCommit := ⟨by decide +kernel, rfl⟩
  have hproposal :
      (Sample.windowProposed.disk.store.undecidedProposals[Slot.mk 2 (.some 0)]?).isSome ∧
        Sample.windowProposed.mem.blobRetentionWindow = 1 ∧
        Sample.windowProposed.mem.pendingArchiveHeights.keys = [] := by
    decide +kernel
  have h := decided_rows_retained (Reach.refl.follow hone.1) (Reach.refl.follow htwo)
  refine ⟨hone.2, h.1, ?_⟩
  refine ((h.2.2 _ _ _ hcommit).1 hproposal.1).proposals_removed _ ⟨?_, fun k hk => ?_⟩
  · rw [hproposal.2.1]
    decide
  · have hmem := Table.mem_keys.2 (Option.isSome_iff_exists.2 ⟨(), hk⟩)
    rw [hproposal.2.2] at hmem
    cases hmem

end Ultramarine
