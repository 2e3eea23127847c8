import Ultramarine.Archiver.Loop
import Ultramarine.Archiver.Pending
import Ultramarine.Safety.ProposerIdentity

/-!
# Who archives a block, and whose notices are accepted

A node uploads the blobs of a block if it is the block's proposer, and a notice is accepted if it comes
from the block's proposer. The code has three answers to who that is:

* at the decision, the validator that the stored proposal of the round names;
* after a restart, the validator at the index that the decided metadata row hints at;
* for a notice, that validator, and the proposer of the consensus metadata if there is no hint.

A validator that proposes a block of an earlier round again stores a copy of the proposal under the
new round and in its own name, but the row it copies keeps the hint of the first proposer. It then
uploads the blobs when the block is decided and refuses its own notices, and after a restart it does
not know of the upload any more. Everyone else takes the hint from the stream, which names the new
proposer.

`Event.Made` is the discipline under which the three answers agree: every slot has one proposer, only
that validator fills the slot, a block is proposed again by its own proposer only, and what is decided
at a height already comes from the proposer of the round that is decided.

Results:

* `Store.Made`: in such runs everything stored for a slot names its proposer, and so do the rows of
  committed heights;
* `archive_duty_matches`: then whoever builds an archive job is that proposer, its notices pass the
  proposer check on every node that has committed the slot, and nobody else builds one;
* `reproposer_refuses_own`: what happens to a block that another validator proposes again.
-/

namespace Ultramarine

open Lib Prog

/-! ## One proposer per slot -/

section Made

variable (maker : Slot → Address) (cfg : Config)

/-- What is decided at the height of a slot was decided in a round of the same proposer. -/
def Store.AgreesAt (s : Store) (slot : Slot) : Prop :=
  ∀ dv ∈ s.decidedValues[slot.height]?,
    maker ⟨slot.height, dv.certificate.round⟩ = maker slot

/-- The decided row at the height of a slot, if it has blobs, names the proposer of the slot. -/
def Store.RowBy (s : Store) (slot : Slot) : Prop :=
  ∀ row ∈ s.blobMetadataDecided[slot.height]?, 0 < row.blobCount →
    row.proposerIndexHint = cfg.validatorIndex (maker slot)

/-- Everything that is stored for a slot names its proposer, and so do the rows of the heights that
are committed. -/
structure Store.Made (s : Store) : Prop where
  proposals : Table.All (fun slot p => p.height = slot.height ∧ p.proposer = maker slot)
    s.undecidedProposals
  rows : Table.All (fun slot row => row.proposerIndexHint = cfg.validatorIndex (maker slot))
    s.blobMetadataUndecided
  decided : ∀ h : Height, ∀ dv ∈ s.decidedValues[h]?, s.RowBy maker cfg ⟨h, dv.certificate.round⟩

/-- What a message that promotes a row finds at its height: a synced package comes before the decision
or agrees with it, and a decision also finds no row of another proposer. -/
def Event.Settled (s : Store) : Event → Prop
  | .decided c _ => s.AgreesAt maker ⟨c.height, c.round⟩ ∧ s.RowBy maker cfg ⟨c.height, c.round⟩
  | .processSyncedValue height round _ _ => s.AgreesAt maker ⟨height, round⟩
  | _ => True

/-- The messages fill every slot in the name of its proposer, and a block is proposed again, in another
round, by its own proposer only. -/
def Event.Made (m : Machine Disk Memory) (ev : Event) : Prop :=
  ev.Settled maker cfg m.disk.store ∧
    match ev with
    | .getValue height round _ _ => maker ⟨height, round⟩ = cfg.address
    | .receivedProposalPart _ peer part _ =>
      ∀ parts ∈ (PartStreamsMap.insert m.mem.streamsMap peer part).2,
        parts.proposer = maker ⟨parts.height, parts.round⟩
    | .processSyncedValue height round proposer _ => proposer = maker ⟨height, round⟩
    | .restreamProposal height round validRound address =>
      address = cfg.address → round ≠ restreamSource round validRound →
        maker ⟨height, round⟩ = cfg.address ∧
        ∀ r ∈ loadRestream cfg m.disk ⟨height, restreamSource round validRound⟩,
          r.metadata.proposerIndexHint = cfg.validatorIndex cfg.address
    | _ => True

/-- The message of a label is such. -/
def Label.Made (s : Node) (l : Label) : Prop := ∀ ev ∈ l.event?, ev.Made maker cfg s.machine

instance (s : Store) : ∀ ev : Event, Decidable (ev.Settled maker cfg s)
  | .decided c _ => inferInstanceAs (Decidable ((∀ dv ∈ s.decidedValues[c.height]?, _ = _) ∧
      ∀ row ∈ s.blobMetadataDecided[c.height]?, 0 < row.blobCount → _ = _))
  | .processSyncedValue height _ _ _ =>
    inferInstanceAs (Decidable (∀ dv ∈ s.decidedValues[height]?, _ = _))
  | .startedRound .. | .getValue .. | .restreamProposal .. | .receivedProposalPart ..
  | .archiveNotice _ => .isTrue trivial

instance (m : Machine Disk Memory) (ev : Event) : Decidable (ev.Made maker cfg m) := by
  cases ev <;> unfold Event.Made <;> infer_instance

instance (s : Node) (l : Label) : Decidable (l.Made maker cfg s) :=
  inferInstanceAs (Decidable (∀ ev ∈ l.event?, ev.Made maker cfg s.machine))

end Made

/-! ## What the messages store -/

section Offers

variable {maker : Slot → Address} {cfg : Config} {m₀ : Machine Disk Memory} {ev : Event}

/-- The message streams a block again in the round it was stored for. -/
def Event.InPlace : Event → Prop
  | .restreamProposal _ round validRound _ => round = restreamSource round validRound
  | _ => False

/-- Such a message writes nothing. -/
theorem Event.InPlace.silent (h : ev.InPlace) (A : Machine Disk Memory → Write → Prop) :
    Prog.Emits A ((handle cfg ev).run m₀) := by
  cases ev with
  | restreamProposal height round validRound address =>
    refine Act.logged_emits ?_
    have hround : round = restreamSource round validRound := h
    unfold Ultramarine.restreamProposal
    split
    · exact Prog.Emits.of_log_nil rfl
    · rw [run_getDisk_bind]
      dsimp only
      split
      · exact Prog.Emits.of_log_nil rfl
      · refine ((restreamArchiveNotices_silent _).emits _).bind fun _ _ => ?_
        refine Prog.Emits.bind ((Prog.Emits.closed _).onlyIf fun hne => absurd hround hne) fun _ _ => ?_
        exact ((streamProposal_silent _ _ _ _ _ _).bind fun _ =>
          (restreamArchiveNotices_silent _).bind fun _ => Prog.Silent.pure _).emits _
  | _ => exact h.elim

/-- A proposal that is stored names the proposer of its slot. -/
theorem Event.Made.proposal (hmade : ev.Made maker cfg m₀) (hcopy : ¬ ev.InPlace)
    (hs : m₀.disk.store.Made maker cfg) {p : ProposedValue} (hoffer : OffersProposal cfg m₀ ev p) :
    p.proposer = maker ⟨p.height, p.round⟩ := by
  cases hoffer with
  | built _ => exact hmade.2.symm
  | received hc =>
    obtain ⟨hheight, hround, hproposer⟩ := hc.slot_eq
    rw [hheight, hround, hproposer]
    exact hmade.2 _ hc.complete
  | synced => exact hmade.2
  | restreamed hload =>
    have hheight := (hs.proposals _ _ (loadRestream_proposal hload)).1
    have hmaker := (hmade.2 rfl hcopy).1
    dsimp only at hheight ⊢
    rw [hheight]
    exact hmaker.symm

/-- So does a row. -/
theorem Event.Made.row (hmade : ev.Made maker cfg m₀) (hcopy : ¬ ev.InPlace) {slot : Slot}
    {row : BlobMetadata} (hoffer : OffersMetadata cfg m₀ ev slot row) :
    row.proposerIndexHint = cfg.validatorIndex (maker slot) := by
  cases hoffer with
  | built _ hrow =>
    have hmaker := hmade.2
    dsimp only at hmaker
    rw [hmaker]
    exact congrArg BlobCore.proposerIndexHint (core_blockMetadata? hrow)
  | received hc =>
    rw [hc.hint_eq, hmade.2 _ hc.complete]
  | synced _ hrow =>
    have hmaker := hmade.2
    dsimp only at hmaker
    rw [← hmaker]
    exact congrArg BlobCore.proposerIndexHint (core_blockMetadata? hrow)
  | restreamed hload =>
    obtain ⟨hmaker, hhint⟩ := hmade.2 rfl hcopy
    rw [hmaker]
    exact hhint _ hload

end Offers

variable {m m' : Machine Disk Memory} {bytes : Bytes} {out : DecidedOutcome}

/-! ## What the tables keep -/

section Tables

variable {maker : Slot → Address} {cfg : Config} {s s' : Store} {slot : Slot}

theorem Store.AgreesAt.congr (h : s.AgreesAt maker slot) (hv : s'.decidedValues = s.decidedValues) :
    s'.AgreesAt maker slot := by
  unfold Store.AgreesAt
  rw [hv]
  exact h

theorem Store.RowBy.congr (h : s.RowBy maker cfg slot)
    (hd : s'.blobMetadataDecided = s.blobMetadataDecided) : s'.RowBy maker cfg slot := by
  unfold Store.RowBy
  rw [hd]
  exact h

/-- Archiving rewrites a row with the same hint. -/
theorem Store.RowBy.rewrite {height : Height} {row : BlobMetadata}
    (h : m.disk.store.RowBy maker cfg slot) (hrow : RewritesMetadata m height row) :
    (m.disk.store.apply (.updateBlobMetadata height row)).RowBy maker cfg slot := by
  obtain ⟨stored, hstored, hcore⟩ := hrow
  intro row' hrow' hpos
  have hread := Table.getElem?_insert_eq m.disk.store.blobMetadataDecided height slot.height row
  by_cases hheight : height = slot.height
  · cases (hread.trans (if_pos hheight)).symm.trans hrow'
    rw [hheight] at hstored
    rw [BlobMetadata.blobCount_of_core hcore] at hpos
    exact (congrArg BlobCore.proposerIndexHint hcore).trans (h stored hstored hpos)
  · exact h row' ((hread.trans (if_neg hheight)).symm.trans hrow') hpos

/-- The row of a slot is promoted to its height. -/
theorem Store.RowBy.promote {promoted : Slot} (h : s.RowBy maker cfg slot)
    (hrows : Table.All (fun slot row => row.proposerIndexHint = cfg.validatorIndex (maker slot))
      s.blobMetadataUndecided)
    (hsame : promoted.height = slot.height → maker promoted = maker slot) :
    (s.apply (.markBlobMetadataDecided promoted)).RowBy maker cfg slot := by
  intro row hrow hpos
  rw [Option.mem_def, Store.apply_mark_decided] at hrow
  split at hrow
  · rename_i hheight
    unfold Store.promotedRow at hrow
    cases hu : s.blobMetadataUndecided[promoted]? with
    | none =>
      rw [hu] at hrow
      rw [hheight] at hrow
      exact h row hrow hpos
    | some u =>
      rw [hu] at hrow
      cases hrow
      rw [hrows _ _ hu, hsame hheight]
  · exact h row hrow hpos

/-- The genesis row has no blobs. -/
theorem Store.RowBy.genesis (h : s.RowBy maker cfg slot) :
    (s.apply .insertGenesisBlobMetadata).RowBy maker cfg slot := by
  intro row hrow hpos
  simp only [Store.apply] at hrow
  split at hrow
  · exact h row hrow hpos
  · rw [Option.mem_def, Table.getElem?_insert_eq] at hrow
    split at hrow
    · cases hrow
      exact absurd hpos (by decide)
    · exact h row hrow hpos

/-- Transactions on other tables. -/
theorem Store.Made.congr (h : s.Made maker cfg)
    (hp : s'.undecidedProposals = s.undecidedProposals)
    (hu : s'.blobMetadataUndecided = s.blobMetadataUndecided)
    (hd : s'.blobMetadataDecided = s.blobMetadataDecided)
    (hv : s'.decidedValues = s.decidedValues) : s'.Made maker cfg := by
  refine ⟨hp ▸ h.proposals, hu ▸ h.rows, fun height dv hdv => ?_⟩
  rw [hv] at hdv
  exact (h.decided height dv hdv).congr hd

theorem Store.Made.removal {w : StoreWrite} (h : s.Made maker cfg) (hw : w.isRemoval = true) :
    (s.apply w).Made maker cfg := by
  cases w with
  | deleteUndecidedProposal slot => exact ⟨h.proposals.erase slot, h.rows, h.decided⟩
  | deleteUndecidedBlockData slot => exact ⟨h.proposals, h.rows, h.decided⟩
  | deleteBlobMetadataUndecided slot => exact ⟨h.proposals, h.rows.erase slot, h.decided⟩
  | prune retain => exact ⟨h.proposals.eraseWhere _, h.rows, h.decided⟩
  | _ => cases hw

theorem Event.Settled.removal {ev : Event} {w : StoreWrite} (h : ev.Settled maker cfg s)
    (hw : w.isRemoval = true) : ev.Settled maker cfg (s.apply w) := by
  cases w with
  | deleteUndecidedProposal _ | deleteUndecidedBlockData _ | deleteBlobMetadataUndecided _
  | prune _ => cases ev <;> exact h
  | _ => cases hw

/-- The decision that a message promotes a row for agrees with what is decided. -/
theorem Event.Settled.agrees {ev : Event} (h : ev.Settled maker cfg s)
    (hslot : ev.promotes = some slot) : s.AgreesAt maker slot := by
  cases ev with
  | decided c script =>
    cases hslot
    exact h.1
  | processSyncedValue height round proposer package =>
    cases hslot
    exact h
  | _ => cases hslot

end Tables

section Runs

variable {maker : Slot → Address} {cfg : Config} {m₀ m : Machine Disk Memory} {ev : Event}
  {w : StoreWrite}

/-- **One transaction keeps what the tables say about proposers.** -/
theorem StoreEffect.made (hw : StoreEffect cfg m₀ ev m w) (hmade : ev.Made maker cfg m₀)
    (hcopy : ¬ ev.InPlace) (h₀ : m₀.disk.store.Made maker cfg) (hs : m.disk.store.Made maker cfg)
    (hsettled : ev.Settled maker cfg m.disk.store) : (m.disk.store.apply w).Made maker cfg := by
  cases hw with
  | proposal hoffer =>
    exact ⟨hs.proposals.insertIfNew fun _ => ⟨rfl, hmade.proposal hcopy h₀ hoffer⟩, hs.rows,
      hs.decided⟩
  | metadata hoffer =>
    exact ⟨hs.proposals, hs.rows.insertIfNew fun _ => hmade.row hcopy hoffer, hs.decided⟩
  | @promote slot hslot =>
    obtain ⟨hv, _, _, hp, _, _⟩ := m.disk.store.apply_mark_fields slot
    refine ⟨hp ▸ hs.proposals, fun k row hrow => ?_, fun h dv hdv => ?_⟩
    · rw [Store.undecidedRow_apply_mark] at hrow
      split at hrow
      · cases hrow
      · exact hs.rows _ _ hrow
    · rw [hv] at hdv
      -- what is decided at the height of the slot is of the same proposer
      refine (hs.decided h dv hdv).promote hs.rows ?_
      rintro rfl
      exact (hsettled.agrees hslot dv hdv).symm
  | @decidedValue c script p hev _ =>
    subst hev
    refine ⟨hs.proposals, hs.rows, fun h dv hdv => ?_⟩
    have hread := Table.getElem?_insert_eq m.disk.store.decidedValues c.height h ⟨p.value, c⟩
    by_cases hh : c.height = h
    · subst hh
      cases (hread.trans (if_pos rfl)).symm.trans hdv
      exact hsettled.2
    · exact hs.decided h dv ((hread.trans (if_neg hh)).symm.trans hdv)
  | rewrite hrow => exact ⟨hs.proposals, hs.rows, fun h dv hdv => (hs.decided h dv hdv).rewrite hrow⟩
  | removal hw => exact hs.removal hw
  | blockData _ | consensusMetadata _ | decidedBlockData _ _ | archiveRecord =>
    exact hs.congr rfl rfl rfl rfl

/-- It also keeps what its message has found. -/
theorem StoreEffect.settled (hw : StoreEffect cfg m₀ ev m w) (hs : m.disk.store.Made maker cfg)
    (hsettled : ev.Settled maker cfg m.disk.store) :
    ev.Settled maker cfg (m.disk.store.apply w) := by
  cases ev with
  | decided c script =>
    cases hw with
    | @promote slot hslot =>
      cases hslot
      exact ⟨hsettled.1.congr (m.disk.store.apply_mark_fields _).1,
        hsettled.2.promote hs.rows fun _ => rfl⟩
    | decidedValue hev _ =>
      cases hev
      refine ⟨fun dv hdv => ?_, hsettled.2⟩
      rw [Option.mem_def] at hdv
      cases (Table.getElem?_insert_eq _ c.height c.height _ |>.trans (if_pos rfl)).symm.trans hdv
      rfl
    | rewrite hrow => exact ⟨hsettled.1, hsettled.2.rewrite hrow⟩
    | removal hw => exact hsettled.removal hw
    | _ => exact hsettled
  | processSyncedValue height round proposer package =>
    refine Store.AgreesAt.congr hsettled (m.disk.store.decidedValues_apply ?_)
    exact hw.isDecidedValue_eq_false fun c script => nofun
  | _ => trivial

/-- A start writes nothing that names a proposer. -/
theorem StartEffect.made (hw : StartEffect m w) (hs : m.disk.store.Made maker cfg) :
    (m.disk.store.apply w).Made maker cfg := by
  cases hw with
  | genesis =>
    have hfields : (m.disk.store.apply .insertGenesisBlobMetadata).undecidedProposals =
          m.disk.store.undecidedProposals ∧
        (m.disk.store.apply .insertGenesisBlobMetadata).blobMetadataUndecided =
          m.disk.store.blobMetadataUndecided ∧
        (m.disk.store.apply .insertGenesisBlobMetadata).decidedValues =
          m.disk.store.decidedValues := by
      simp only [Store.apply]
      split <;> exact ⟨rfl, rfl, rfl⟩
    obtain ⟨hp, hu, hv⟩ := hfields
    refine ⟨hp ▸ hs.proposals, hu ▸ hs.rows, fun h dv hdv => ?_⟩
    rw [hv] at hdv
    exact (hs.decided h dv hdv).genesis
  | rewrite hrow => exact ⟨hs.proposals, hs.rows, fun h dv hdv => (hs.decided h dv hdv).rewrite hrow⟩
  | removal hw => exact hs.removal hw

/-- **What the tables say about proposers in a run** whose messages all fill their slots in the name
of the proposer. -/
theorem made_of_reachable {node : Node}
    (hreach : Node.Reachable cfg (Label.Made maker cfg) node) :
    node.disk.store.Made maker cfg := by
  refine Node.disk_invariant_of_reach (I := fun d => d.store.Made maker cfg) ?_ ?_ ?_ hreach
  · refine ⟨.empty, .empty, fun h dv hdv => ?_⟩
    rw [Option.mem_def] at hdv
    simp [Disk.empty, Store.empty] at hdv
  · intro m ev l hm hok hev
    have hmade : ev.Made maker cfg m := hok ev hev
    by_cases hcopy : ev.InPlace
    · exact ⟨_, hm, fun _ hd => hd, hcopy.silent _⟩
    · refine ⟨fun d => d.store.Made maker cfg ∧ ev.Settled maker cfg d.store, ⟨hm, hmade.1⟩,
        fun _ hd => hd.1, (handle_effects cfg m ev).mono fun m' w hw hd => ?_⟩
      cases w with
      | blob b => exact hd
      | store w => exact ⟨StoreEffect.made hw hmade hcopy hm hd.1 hd.2, hw.settled hd.1 hd.2⟩
  · intro d hd
    refine (start_effects cfg (bootMachine cfg d)).mono fun m w hw hs => ?_
    cases w with
    | blob b => exact hs
    | store w => exact StartEffect.made hw hs

end Runs

/-! ## Duty and acceptance -/

/-- The height is committed in the round of the slot. -/
def Store.CommittedIn (s : Store) (slot : Slot) : Prop :=
  ∃ dv, s.decidedValues[slot.height]? = some dv ∧ dv.certificate.round = slot.round

/-- The node builds an archive job for a slot, at its decision or in `recover_pending_archive_jobs`. -/
def Disk.BuildsJob (cfg : Config) (d : Disk) (slot : Slot) (job : ArchiveJob) : Prop :=
  ownArchiveJob cfg d slot = some job ∨ recoverArchiveJob cfg d slot.height = .ok (some job)

/-- The notice passes the proposer check of `handle_archive_notice` if it gets there. -/
def ArchiveNotice.ByProposer (cfg : Config) (s : Store) (n : ArchiveNotice) : Prop :=
  (cfg.validators.getByAddress n.body.archivedBy).isSome →
    ∀ row, s.getBlobMetadata n.body.height = .ok (some row) → n.body.blobIndex < row.blobCount →
      (proposerAddressForHeight cfg s n.body.height row.proposerIndexHint).all
        (n.body.archivedBy = ·) = true

section Duty

variable {maker : Slot → Address} {cfg : Config} {d : Disk} {s : Store} {slot : Slot}
  {job : ArchiveJob} {n : ArchiveNotice} {row : BlobMetadata}

/-- A notice that is refused for its sender fails that check. -/
theorem not_byProposer_of_refused (h : checkArchiveNotice cfg s n = .error .notProposer) :
    ¬ n.ByProposer cfg s := by
  intro hby
  unfold checkArchiveNotice at h
  simp only [Exit.bind_eq_error, Exit.ensure_eq_error, Exit.ofOption_eq_error, Exit.ofOption_eq_ok,
    Exit.ensure_eq_ok, exists_const, reduceCtorEq, and_false, false_or, and_true] at h
  obtain ⟨v, hv, _, hrow | ⟨_, hrow, row, rfl, hlt, hno | ⟨_, _, _, h⟩⟩⟩ := h
  · unfold Store.getBlobMetadata at hrow
    split at hrow
    · cases hrow
    · simp [Exit.bind_eq_error] at hrow
  · exact hno (hby (Option.isSome_iff_exists.2 ⟨v, hv⟩) row hrow hlt)
  · split at h
    · cases h
    · simp [Exit.bind_eq_error] at h

theorem height_of_buildsJob (h : d.BuildsJob cfg slot job) : job.height = slot.height := by
  rcases h with h | h
  · unfold ownArchiveJob at h
    split at h
    · split at h
      · split at h
        · rename_i hbuild
          subst h
          exact height_of_buildArchiveJob hbuild
        · cases h
      · cases h
    · cases h
  · exact height_of_recoverArchiveJob h

/-- The row of a committed slot names its proposer. -/
theorem Store.Made.hint (hs : s.Made maker cfg) (hcommitted : s.CommittedIn slot)
    (hrow : s.getBlobMetadata slot.height = .ok (some row)) (hpos : 0 < row.blobCount) :
    row.proposerIndexHint = cfg.validatorIndex (maker slot) := by
  obtain ⟨dv, hdv, hround⟩ := hcommitted
  obtain ⟨stored, hstored, hcore⟩ := Store.getBlobMetadata_eq_some hrow
  rw [BlobMetadata.blobCount_of_core hcore] at hpos
  have hhint := hs.decided slot.height dv hdv stored hstored hpos
  rw [hround] at hhint
  exact (congrArg BlobCore.proposerIndexHint hcore).trans hhint

/-- **Whoever builds a job is the proposer of the slot.** -/
theorem Store.Made.duty (hs : d.store.Made maker cfg) (hcommitted : d.store.CommittedIn slot)
    (hjob : d.BuildsJob cfg slot job) : cfg.address = maker slot := by
  rcases hjob with hjob | hjob
  · unfold ownArchiveJob at hjob
    split at hjob
    · rename_i p hp
      split at hjob
      · rename_i haddress
        exact haddress.symm.trans (hs.proposals _ _ hp).2
      · cases hjob
    · cases hjob
  · obtain ⟨⟨row, hrow, hopen, _⟩, ⟨row', hrow', haddress⟩, _⟩ :=
      recoverArchiveJob_eq_some.1 ⟨job, hjob⟩
    cases hrow.symm.trans hrow'
    rw [hs.hint hcommitted hrow (Nat.pos_of_ne_zero hopen.1)] at haddress
    cases hi : cfg.validatorIndex (maker slot) with
    | none =>
      rw [hi] at haddress
      cases haddress
    | some i =>
      obtain ⟨v, hv, hmaker⟩ := ValidatorSet.validatorIndex_eq_some hi
      rw [hi, Option.bind_some, hv] at haddress
      exact (Option.some.inj haddress).symm.trans hmaker

/-- **The proposer's notices pass.** -/
theorem Store.Made.accepts (hs : s.Made maker cfg) (hcommitted : s.CommittedIn slot)
    (hheight : n.body.height = slot.height) (hby : n.body.archivedBy = maker slot) :
    n.ByProposer cfg s := by
  intro hmember row hrow hlt
  rw [hheight] at hrow ⊢
  rw [hby] at hmember
  rw [hs.hint hcommitted hrow (Nat.zero_lt_of_lt hlt)]
  obtain ⟨i, hi⟩ : ∃ i, cfg.validatorIndex (maker slot) = some i :=
    Option.isSome_iff_exists.1 ((ValidatorSet.isSome_validatorIndex _ _).trans hmember)
  obtain ⟨v, hv, hmaker⟩ := ValidatorSet.validatorIndex_eq_some hi
  unfold proposerAddressForHeight
  rw [hi, Option.bind_some, hv]
  exact decide_eq_true (hby.trans hmaker.symm)

end Duty

/-- **Archive duty matches notice acceptance** in runs whose messages all fill their slots in the name
of the proposer. A node that has committed a slot and builds an archive job for it signs notices that
pass the proposer check on every node that has committed the slot, itself included, and no node of
another address builds a job for the slot. -/
theorem archive_duty_matches {maker : Slot → Address} {cfg cfg' : Config} {node node' : Node}
    {slot : Slot} {job : ArchiveJob} (hreach : Node.Reachable cfg (Label.Made maker cfg) node)
    (hreach' : Node.Reachable cfg' (Label.Made maker cfg') node')
    (hcommitted : node.disk.store.CommittedIn slot)
    (hcommitted' : node'.disk.store.CommittedIn slot) (hjob : node.disk.BuildsJob cfg slot job) :
    (∀ (w : ArchiverWorker) (a : Attempt) (task : ArchiveTask) (locator : String),
      w.validatorAddress = cfg.address → a.job = job →
        (w.notice a task locator).ByProposer cfg' node'.disk.store) ∧
    ∀ job', node'.disk.BuildsJob cfg' slot job' → cfg'.address = cfg.address := by
  have hmade := made_of_reachable hreach
  have hmade' := made_of_reachable hreach'
  have haddress := hmade.duty hcommitted hjob
  refine ⟨fun w a task locator hw ha => ?_, fun job' hjob' => ?_⟩
  · refine hmade'.accepts hcommitted' ?_ (hw.trans haddress)
    rw [← height_of_buildsJob hjob, ← ha]
    rfl
  · exact (hmade'.duty hcommitted' hjob').trans haddress.symm

namespace Sample

/-- Validator 2 receives the block of validator 1, proposes it again in round 1, and round 1 decides
it. -/
def repropose : List Label :=
  .start :: receive blobStream ++ [.handle (.restreamProposal 1 (.some 1) (.some 0) ⟨2⟩),
    .handle (.decided (certificate 1 (.some 1) blobValue) script)]

/-- The job that this leaves. -/
def reproposedJob : ArchiveJob :=
  (ownArchiveJob (config 2) (node 2 repropose).disk ⟨1, .some 1⟩).getD (blobJob 1)

/-- What its archiver signs for the blob. -/
def reproposedNotice : ArchiveNotice := uploader.notice ⟨reproposedJob, 0, 0, []⟩ (0, ⟨1⟩, 7) "blob"

end Sample

open Sample in
/-- The theorem for the block of validator 2, which validator 1 has synced. -/
theorem archive_duty_matches_synced :
    ownArchiveJob (config 2) (node 2 commitBlob).disk ⟨1, .some 0⟩ = some (blobJob 1) ∧
      (uploader.notice ⟨blobJob 1, 0, 0, []⟩ (0, ⟨1⟩, 7) "blob").ByProposer (config 1)
        (node 1 (syncBlob ++ [.handle (.decided blobCertificate script)])).disk.store := by
  have hjob : ownArchiveJob (config 2) (node 2 commitBlob).disk ⟨1, .some 0⟩ = some (blobJob 1) := by
    decide +kernel
  have hreach : Node.Reachable (config 2) (Label.Made (fun _ => ⟨2⟩) (config 2))
      (node 2 commitBlob) := Reach.refl.follow (by decide +kernel)
  have hreach' : Node.Reachable (config 1) (Label.Made (fun _ => ⟨2⟩) (config 1))
      (node 1 (syncBlob ++ [.handle (.decided blobCertificate script)])) :=
    Reach.refl.follow (by decide +kernel)
  have hcommitted : (node 2 commitBlob).disk.store.CommittedIn ⟨1, .some 0⟩ :=
    Option.map_eq_some_iff.1 (by decide +kernel)
  have hcommitted' : (node 1 (syncBlob ++ [.handle (.decided blobCertificate
      script)])).disk.store.CommittedIn ⟨1, .some 0⟩ :=
    Option.map_eq_some_iff.1 (by decide +kernel)
  exact ⟨hjob, (archive_duty_matches hreach hreach' hcommitted hcommitted' (.inl hjob)).1 uploader
    ⟨blobJob 1, 0, 0, []⟩ (0, ⟨1⟩, 7) "blob" rfl rfl⟩

open Sample in
/-- **A validator that refuses its own notices.** Validator 2 has proposed the block of validator 1 again
and round 1 has decided it. Validator 2 builds the archive job at the decision; its own node refuses
the notice of the blob, as the row still names validator 1, and a restart finds no job. -/
theorem reproposer_refuses_own :
    Node.Reachable (config 2) (fun _ _ => True) (node 2 repropose) ∧
      ((node 2 repropose).disk.store.decidedValues[1]?).map (·.certificate.round) =
        some (.some 1) ∧
      (node 2 repropose).disk.BuildsJob (config 2) ⟨1, .some 1⟩ reproposedJob ∧
      checkArchiveNotice (config 2) (node 2 repropose).disk.store reproposedNotice =
        .error .notProposer ∧
      ¬ reproposedNotice.ByProposer (config 2) (node 2 repropose).disk.store ∧
      recoverArchiveJob (config 2) (node 2 repropose).disk 1 = .ok none := by
  have hrefused : checkArchiveNotice (config 2) (node 2 repropose).disk.store reproposedNotice =
      .error .notProposer := by
    decide +kernel
  exact ⟨Reach.refl.follow (by decide +kernel), by decide +kernel, .inl (by decide +kernel), hrefused,
    not_byProposer_of_refused hrefused, by decide +kernel⟩

end Ultramarine
