import Ultramarine.App.Decision
import Ultramarine.App.Walk

/-!
# What a commit stores, and what its certificate names

`commit` never looks at the value id of its certificate. It takes the proposal and the payload it
finds in the slot of the certificate, and the slot belongs to whoever came first: the node's own
proposal, a received one, a synced package (its payload even if the package is rejected) or a
restream. So the decided value of a height is the certified one only if the slots that certificates
name are filled with nothing else.

`Agreed` says which value is certified at each height and which slots certificates name; a step
keeps to it if all it offers for a named slot is the certified value and its payload.

Results:

* `agreedInv_of_reachable`: the invariant of every run that keeps to the agreement;
* `commit_stores_certified`: what a commit that succeeds has stored, then and ever after.
-/

namespace Ultramarine

open Lib Ssz

/-- The record holds a payload, and the header of the value was built from it. -/
def BlockPayloadRecord.Builds (o : Oracles) (record : BlockPayloadRecord) (value : Value) : Prop :=
  ∃ payload, o.fromSszBytes record.executionPayloadSsz = some payload ∧
    value.metadata.executionPayloadHeader =
      fromPayload o payload (some (o.computeRequestsHash record.executionRequests))

/-- The certified value of each height, and the slots that certificates name. -/
structure Agreed where
  value : Height → Value
  named : Slot → Prop

namespace Agreed

variable (A : Agreed) (cfg : Config)

/-- A message keeps to the agreement. Everything it offers for a named slot is the certified value
and a payload of it. A certificate names a named slot and the certified value; one for a height
whose proposal is gone finds the block data of the height. -/
structure AllowsEvent (m : Machine Disk Memory) (ev : Event) : Prop where
  proposal : ∀ p, OffersProposal cfg m ev p → A.named ⟨p.height, p.round⟩ →
    p.value = A.value p.height
  blockData : ∀ slot record, OffersBlockData cfg m ev slot record → A.named slot →
    record.Builds cfg.oracles (A.value slot.height)
  certificate : ∀ c script, ev = .decided c script →
    A.named ⟨c.height, c.round⟩ ∧ c.valueId = (A.value c.height).id ∧
      (m.disk.store.undecidedProposals[Slot.mk c.height c.round]? = none →
        (m.disk.store.decidedValues[c.height]?).isSome →
        (m.disk.store.decidedBlockData[c.height]?).isSome)

/-- A step keeps to the agreement. -/
def Allows (s : Node) (l : Label) : Prop :=
  ∀ m ev, s = .up m → l.event? = some ev → A.AllowsEvent cfg m ev

end Agreed

/-- Named slots and decided heights hold the certified value and its payload. -/
structure AgreedInv (A : Agreed) (cfg : Config) (d : Disk) : Prop where
  proposals : Table.All (fun slot p => A.named slot → p.value = A.value slot.height)
    d.store.undecidedProposals
  blockData : Table.All
    (fun slot r => A.named slot → r.Builds cfg.oracles (A.value slot.height))
    d.store.undecidedBlockData
  decided : Table.All (fun h dv => dv.value = A.value h ∧ dv.certificate.valueId = dv.value.id)
    d.store.decidedValues
  decidedBlockData : Table.All (fun h r => r.Builds cfg.oracles (A.value h))
    d.store.decidedBlockData

section Rows

variable {A : Agreed} {cfg : Config} {d : Disk}

theorem agreedInv_empty : AgreedInv A cfg Disk.empty :=
  ⟨Table.All.empty, Table.All.empty, Table.All.empty, Table.All.empty⟩

/-- Transactions on other tables. -/
theorem AgreedInv.of_tables {d' : Disk} (h : AgreedInv A cfg d)
    (hp : d'.store.undecidedProposals = d.store.undecidedProposals)
    (hb : d'.store.undecidedBlockData = d.store.undecidedBlockData)
    (hv : d'.store.decidedValues = d.store.decidedValues)
    (hd : d'.store.decidedBlockData = d.store.decidedBlockData) : AgreedInv A cfg d' :=
  ⟨hp ▸ h.proposals, hb ▸ h.blockData, hv ▸ h.decided, hd ▸ h.decidedBlockData⟩

theorem AgreedInv.removal {w : StoreWrite} (h : AgreedInv A cfg d) (hw : w.isRemoval = true) :
    AgreedInv A cfg { d with store := d.store.apply w } := by
  cases w with
  | deleteUndecidedProposal slot =>
    exact ⟨h.proposals.erase slot, h.blockData, h.decided, h.decidedBlockData⟩
  | deleteUndecidedBlockData slot =>
    exact ⟨h.proposals, h.blockData.erase slot, h.decided, h.decidedBlockData⟩
  | prune retain =>
    exact ⟨h.proposals.eraseWhere _, h.blockData.eraseWhere _, h.decided, h.decidedBlockData⟩
  | deleteBlobMetadataUndecided _ => exact h.of_tables rfl rfl rfl rfl
  | _ => cases hw

/-- A promotion touches neither table. -/
theorem AgreedInv.promote (h : AgreedInv A cfg d) (slot : Slot) :
    AgreedInv A cfg { d with store := d.store.apply (.markBlobMetadataDecided slot) } := by
  obtain ⟨hv, _, _, hp, hb, hd⟩ := Store.apply_mark_fields d.store slot
  exact h.of_tables hp hb hv hd

/-- The payload of a named slot, wherever it is read from, builds the certified value. -/
theorem AgreedInv.load (h : AgreedInv A cfg d) {slot : Slot} {record : BlockPayloadRecord}
    (hnamed : A.named slot) (hload : d.store.loadBlockPayloadRecord slot = some record) :
    record.Builds cfg.oracles (A.value slot.height) := by
  unfold Store.loadBlockPayloadRecord at hload
  cases hu : d.store.undecidedBlockData[slot]? with
  | some r =>
    rw [hu] at hload
    cases hload
    exact h.blockData _ _ hu hnamed
  | none =>
    rw [hu] at hload
    exact h.decidedBlockData _ _ hload

/-- **One write of a message keeps the agreement.** -/
theorem agreedInv_apply {m₀ m : Machine Disk Memory} {ev : Event} {w : StoreWrite}
    (hev : A.AllowsEvent cfg m₀ ev) (hw : StoreEffect cfg m₀ ev m w)
    (h : AgreedInv A cfg m.disk) :
    AgreedInv A cfg { m.disk with store := m.disk.store.apply w } := by
  cases hw with
  | @proposal p hoffer =>
    exact ⟨h.proposals.insertIfNew fun _ hnamed => hev.proposal p hoffer hnamed, h.blockData,
      h.decided, h.decidedBlockData⟩
  | @blockData slot record hoffer =>
    exact ⟨h.proposals, h.blockData.insertIfNew fun _ hnamed => hev.blockData _ _ hoffer hnamed,
      h.decided, h.decidedBlockData⟩
  | promote _ => exact h.promote _
  | @decidedValue c script p hev' hp =>
    obtain ⟨hnamed, hid, _⟩ := hev.certificate c script hev'
    have hvalue : p.value = A.value c.height := h.proposals _ _ hp hnamed
    exact ⟨h.proposals, h.blockData, h.decided.insert ⟨hvalue, by rw [hid, ← hvalue]⟩,
      h.decidedBlockData⟩
  | @decidedBlockData c script record hev' hload =>
    obtain ⟨hnamed, _, _⟩ := hev.certificate c script hev'
    exact ⟨h.proposals, h.blockData, h.decided,
      h.decidedBlockData.insertIfNew fun _ => h.load hnamed hload⟩
  | metadata _ | consensusMetadata _ | archiveRecord | rewrite _ => exact h.of_tables rfl rfl rfl rfl
  | removal hremoval => exact h.removal hremoval

/-- **One write of a start keeps the agreement.** -/
theorem agreedInv_apply_start {m : Machine Disk Memory} {w : StoreWrite} (hw : StartEffect m w)
    (h : AgreedInv A cfg m.disk) :
    AgreedInv A cfg { m.disk with store := m.disk.store.apply w } := by
  cases hw with
  | genesis =>
    simp only [Store.apply]
    split <;> exact h.of_tables rfl rfl rfl rfl
  | rewrite _ => exact h.of_tables rfl rfl rfl rfl
  | removal hremoval => exact h.removal hremoval

end Rows

section Runs

variable {A : Agreed} {cfg : Config}

theorem keeps_agreedInv {m : Machine Disk Memory} {ev : Event} (hev : A.AllowsEvent cfg m ev) :
    Keeps (AgreedInv A cfg) (handle cfg ev) m := by
  refine (handle_effects cfg m ev).mono fun m' w hw hm' => ?_
  cases w with
  | blob b => exact hm'.of_tables rfl rfl rfl rfl
  | store w => exact agreedInv_apply hev hw hm'

theorem keeps_agreedInv_start (d : Disk) :
    Keeps (AgreedInv A cfg) (start cfg) (bootMachine cfg d) := by
  refine (start_effects cfg _).mono fun m' w hw hm' => ?_
  cases w with
  | blob b => exact hm'.of_tables rfl rfl rfl rfl
  | store w => exact agreedInv_apply_start hw hm'

/-- **The invariant of every run that keeps to the agreement.** -/
theorem agreedInv_of_reachable {s : Node} (h : Node.Reachable cfg (A.Allows cfg) s) :
    AgreedInv A cfg s.disk :=
  Node.disk_invariant_of_reach agreedInv_empty
    (fun m ev _ hm hok hev =>
      ⟨AgreedInv A cfg, hm, fun _ => id, keeps_agreedInv (hok m ev rfl hev)⟩)
    (fun d _ => keeps_agreedInv_start d) h

/-- A decision that goes on leaves a value and block data at its height. -/
theorem decided_rows {m m' : Machine Disk Memory} {c : CommitCertificate} {script : EngineScript}
    {next : Height} (hr : Prog.Returns (decided cfg c script) m (.start next) m')
    (hreplay : m.disk.store.undecidedProposals[Slot.mk c.height c.round]? = none →
      (m.disk.store.decidedValues[c.height]?).isSome →
      (m.disk.store.decidedBlockData[c.height]?).isSome) :
    (m'.disk.store.decidedValues[c.height]?).isSome ∧
      (m'.disk.store.decidedBlockData[c.height]?).isSome := by
  obtain ⟨record, out, m₀, hload, rfl, hout⟩ := decided_inversion hr
  obtain ⟨check, m₁, m₂, _, _, hdisk₁, _, hcommit, hdisk, _⟩ := processDecided_inversion hout
  have hstore : m₁.disk.store = m.disk.store := by rw [hdisk₁]
  obtain ⟨m₃, hfinish, hcases⟩ := returns_commit.1 hcommit
  have hgrows : Disk.Grows m₃.disk m'.disk := by
    rw [hdisk, ← hfinish.2]
    exact .run _ _
  have hkeep : (m₃.disk.store.decidedValues[c.height]?).isSome ∧
      (m₃.disk.store.decidedBlockData[c.height]?).isSome := by
    rcases hcases with ⟨p, _, hfirst⟩ | ⟨hp, hdv, hrep⟩
    · obtain ⟨_, _, metadata, _, hsame, _⟩ := returns_commitProposal hfirst
      rw [(hsame c.height).value, (hsame c.height).blockData]
      refine ⟨by rw [Store.committed_decidedValue]; rfl, ?_⟩
      rw [Store.committed_blockData, hstore]
      unfold Store.loadBlockPayloadRecord at hload
      cases hd : m.disk.store.decidedBlockData[c.height]? with
      | some r => rfl
      | none =>
        rw [hd] at hload
        cases hu : m.disk.store.undecidedBlockData[Slot.mk c.height c.round]? with
        | some r => rfl
        | none =>
          rw [hu] at hload
          cases hload
    · have hrows : Disk.Grows m₁.disk m₃.disk := by
        rw [← hrep.2]
        exact .run _ _
      rw [hstore] at hp hdv
      obtain ⟨r, hr⟩ := Option.isSome_iff_exists.1 (hreplay hp hdv)
      refine ⟨hrows.values _ (by rw [hstore]; exact hdv), ?_⟩
      rw [hrows.blockData _ r (by rw [hstore]; exact hr)]
      rfl
  obtain ⟨r, hr⟩ := Option.isSome_iff_exists.1 hkeep.2
  exact ⟨hgrows.values _ hkeep.1, by rw [hgrows.blockData _ r hr]; rfl⟩

end Runs

/-- **What a commit stores.** In a run that keeps to the agreement, every decided value has the id
its certificate names, and decided block data is the payload the value was built from. Once a
certificate is committed, both are there in every state reached from then on, crashes and restarts
included. -/
theorem commit_stores_certified {A : Agreed} {cfg : Config} {s : Node}
    (hreach : Node.Reachable cfg (A.Allows cfg) s) :
    (∀ (h : Height) dv, s.disk.store.decidedValues[h]? = some dv →
        dv.value.id = dv.certificate.valueId ∧
          ∀ record, s.disk.store.decidedBlockData[h]? = some record →
            record.Builds cfg.oracles dv.value) ∧
      ∀ m c script next m' s', s = .up m → A.AllowsEvent cfg m (.decided c script) →
        Prog.Returns (decided cfg c script) m (.start next) m' →
        Reach (Node.next cfg) (A.Allows cfg) (.up m') s' →
        ∃ dv record, s'.disk.store.decidedValues[c.height]? = some dv ∧
          s'.disk.store.decidedBlockData[c.height]? = some record ∧
          dv.value.id = c.valueId ∧ record.Builds cfg.oracles dv.value := by
  refine ⟨fun h dv hdv => ?_, ?_⟩
  · have hinv := agreedInv_of_reachable hreach
    obtain ⟨hvalue, hid⟩ := hinv.decided _ _ hdv
    refine ⟨hid.symm, fun record hrecord => ?_⟩
    rw [hvalue]
    exact hinv.decidedBlockData _ _ hrecord
  · rintro m c script next m' s' rfl hev hr hlater
    obtain ⟨_, hid, hreplay⟩ := hev.certificate c script rfl
    have hrows := decided_rows hr hreplay
    have hgrows := Node.grows_of_reach hlater
    obtain ⟨dv, hdv⟩ := Option.isSome_iff_exists.1 (hgrows.values _ hrows.1)
    obtain ⟨record, hrecord⟩ := Option.isSome_iff_exists.1 hrows.2
    have hrecord' := hgrows.blockData _ _ hrecord
    -- the message is a step of the run, so the run goes on to `s'`
    have hstep : Node.Reachable cfg (A.Allows cfg) (.up m') := by
      refine .step (.handle (.decided c script)) hreach ?_ (Node.next_handle (returns_logged hr))
      rintro m₁ ev ⟨⟩ ⟨⟩
      exact hev
    have hinv := agreedInv_of_reachable (hstep.trans hlater)
    obtain ⟨hvalue, _⟩ := hinv.decided _ _ hdv
    refine ⟨dv, record, hdv, hrecord', ?_, ?_⟩
    · rw [hvalue, hid]
    · rw [hvalue]
      exact hinv.decidedBlockData _ _ hrecord'

namespace Sample

/-- Block 1 is certified at every height, whatever the slot. -/
def agreed : Agreed := ⟨fun _ => value (payload 1 0 1 0), fun _ => True⟩

theorem reachable_proposeRun :
    Node.Reachable (config 1) (agreed.Allows (config 1)) (node 1 proposeRun) := by
  refine Reach.refl.follow ⟨?_, by decide +kernel, ?_, by decide +kernel, trivial⟩
  · rintro m ev _ ⟨⟩
  · rintro m ev _ ⟨⟩
    refine ⟨?_, ?_, ?_⟩
    · rintro p (@⟨_, _, _, _, metadata, hmetadata⟩) _
      cases hmetadata
      rfl
    · rintro slot record ⟨⟩ _
      exact ⟨payload 1 0 1 0, rfl, rfl⟩
    · rintro c script ⟨⟩

theorem agreed_allows_certificateOne :
    agreed.AllowsEvent (config 1) (node 1 proposeRun).machine (.decided certificateOne script) := by
  refine ⟨?_, ?_, ?_⟩
  · rintro p ⟨⟩
  · rintro slot record ⟨⟩
  · rintro c script ⟨⟩
    refine ⟨trivial, by simp only [certificateOne, certificate, agreed], fun hnone => ?_⟩
    have hsome : ((node 1 proposeRun).machine.disk.store.undecidedProposals[Slot.mk 1
        (.some 0)]?).isSome = true := by decide +kernel
    rw [show (node 1 proposeRun).machine.disk.store.undecidedProposals[Slot.mk 1 (.some 0)]? =
      none from hnone] at hsome
    cases hsome

end Sample

open Sample in
/-- A proposer that decides its own block 1 stores the certified value and its payload. -/
theorem commit_stores_certified_sample :
    ∃ dv record,
      ((decided (config 1) certificateOne script).run
        (node 1 proposeRun).machine).state.disk.store.decidedValues[1]? = some dv ∧
      ((decided (config 1) certificateOne script).run
        (node 1 proposeRun).machine).state.disk.store.decidedBlockData[1]? = some record ∧
      dv.value.id = certificateOne.valueId ∧ record.Builds (config 1).oracles dv.value :=
  (commit_stores_certified reachable_proposeRun).2 (node 1 proposeRun).machine certificateOne script
    2 _ (.up _) (Node.eq_up (by decide +kernel)) agreed_allows_certificateOne
    ⟨by decide +kernel, rfl⟩ .refl

namespace Sample

/-- Validator 2 proposes two blocks in one round. -/
def equivocationRun : List Label :=
  [.start] ++ receive (stream 2 [0] 1 (.some 0) (payload 1 0 1 0)) ++
    receive (stream 2 [1] 1 (.some 0) (payload 1 5 1 0))

/-- The certificate of the second block. -/
def certificateTwo : CommitCertificate := certificate 1 (.some 0) (value (payload 1 5 1 0))

/-- A peer sends the certified value with the payload of another block. -/
def poisonedRun : List Label :=
  [.start, .handle (.processSyncedValue 1 (.some 0) ⟨1⟩
    (.full (value (payload 1 0 1 0)) [1, 5, 1, 0] [] [] []))]

end Sample

open Sample in
/-- Of two proposals in one round the first is committed under the certificate of the second; and a
synced payload that the value was not built from is committed with it. Both commits succeed. -/
theorem commit_stores_uncertified :
    (Node.Reachable (config 1) (fun _ _ => True) (node 1 equivocationRun) ∧
      ((decided (config 1) certificateTwo script).run (node 1 equivocationRun).machine).exit =
        .ok (.start 2) ∧
      (((decided (config 1) certificateTwo script).run
        (node 1 equivocationRun).machine).state.disk.store.decidedValues[1]?).map
          (fun dv => (dv.value.id, dv.certificate.valueId)) = some (252, 257)) ∧
    (Node.Reachable (config 1) (fun _ _ => True) (node 1 poisonedRun) ∧
      ((decided (config 1) certificateOne script).run (node 1 poisonedRun).machine).exit =
        .ok (.start 2) ∧
      ∃ dv record,
        ((decided (config 1) certificateOne script).run
          (node 1 poisonedRun).machine).state.disk.store.decidedValues[1]? = some dv ∧
        ((decided (config 1) certificateOne script).run
          (node 1 poisonedRun).machine).state.disk.store.decidedBlockData[1]? = some record ∧
        ¬ record.Builds oracles dv.value) := by
  refine ⟨⟨Reach.refl.follow (by decide +kernel), by decide +kernel,
    by decide +kernel⟩, Reach.refl.follow (by decide +kernel), by decide +kernel, ?_⟩
  have hgas : (((decided (config 1) certificateOne script).run
      (node 1 poisonedRun).machine).state.disk.store.decidedValues[1]?).map
        (fun dv => dv.value.metadata.executionPayloadHeader.gasUsed) = some 0 := by
    decide +kernel
  have hrecord : ((decided (config 1) certificateOne script).run
      (node 1 poisonedRun).machine).state.disk.store.decidedBlockData[1]? =
        some ⟨[1, 5, 1, 0], []⟩ := by
    decide +kernel
  obtain ⟨dv, hdv, hgas⟩ := Option.map_eq_some_iff.1 hgas
  refine ⟨dv, _, hdv, hrecord, ?_⟩
  rintro ⟨p, hp, hheader⟩
  cases hp
  rw [hheader] at hgas
  cases hgas

end Ultramarine
