import Ultramarine.Safety.SyncAcceptance
import Ultramarine.App.Effects

/-!
# What a rejected synced package leaves behind

`process_synced_package` stores the payload of a package before it looks at anything else, and the
sidecars of a `Full` package before it compares them with the value. A rejection takes the sidecars
back by dropping the round, which drops what was there before as well; the payload stays, and since
the table keeps the first row of a slot, a correct payload that comes later is not stored.

Results:

* `rejected_package_keeps`: a rejected package leaves both databases as they were exactly if it is
  `Spared`: a payload was stored at the slot already, and the clean-up finds nothing but what the
  package has put there.
-/

namespace Ultramarine

open Lib Ssz Prog

/-- The call rejects its package: it ends with `None` or with an error. -/
def Rejects {α : Type} (p : Act (Option α)) (m m' : Machine Disk Memory) : Prop :=
  Returns p m none m' ∨ ∃ e, Fails p m e m'

section Rules

variable {α β : Type} {m m' : Machine Disk Memory}

theorem rejects_ofExit_bind {x : Exit Err α} {f : α → Act (Option β)} :
    Rejects (ofExit x >>= f) m m' ↔
      (∃ e, x = .error e ∧ m = m') ∨ ∃ a, x = .ok a ∧ Rejects (f a) m m' := by
  unfold Rejects
  simp only [returns_ofExit_bind, fails_ofExit_bind]
  constructor
  · rintro (⟨a, hx, hr⟩ | ⟨e, ⟨hx, rfl⟩ | ⟨a, hx, hf⟩⟩)
    · exact .inr ⟨a, hx, .inl hr⟩
    · exact .inl ⟨e, hx, rfl⟩
    · exact .inr ⟨a, hx, .inr ⟨e, hf⟩⟩
  · rintro (⟨e, hx, rfl⟩ | ⟨a, hx, hr | ⟨e, hf⟩⟩)
    · exact .inr ⟨e, .inl ⟨hx, rfl⟩⟩
    · exact .inl ⟨a, hx, hr⟩
    · exact .inr ⟨e, .inr ⟨a, hx, hf⟩⟩

theorem rejects_bind_of_total {p : Act α} {f : α → Act (Option β)} (hp : Total p) :
    Rejects (p >>= f) m m' ↔ ∃ a m₁, Returns p m a m₁ ∧ Rejects (f a) m₁ m' := by
  unfold Rejects
  simp only [returns_bind, hp.fails_bind]
  constructor
  · rintro (⟨a, m₁, h, hr⟩ | ⟨e, a, m₁, h, hf⟩)
    · exact ⟨a, m₁, h, .inl hr⟩
    · exact ⟨a, m₁, h, .inr ⟨e, hf⟩⟩
  · rintro ⟨a, m₁, h, hr | ⟨e, hf⟩⟩
    · exact .inl ⟨a, m₁, h, hr⟩
    · exact .inr ⟨e, a, m₁, h, hf⟩

theorem rejects_getDisk_bind {f : Disk → Act (Option β)} :
    Rejects (getDisk >>= f) m m' ↔ Rejects (f m.disk) m m' := by
  unfold Rejects
  simp only [returns_getDisk_bind, fails_getDisk_bind]

theorem rejects_storeWrite_bind {w : StoreWrite} {f : Unit → Act (Option β)} :
    Rejects (storeWrite w >>= f) m m' ↔ Rejects (f ()) (afterStore m w) m' := by
  unfold Rejects
  simp only [returns_storeWrite_bind, fails_storeWrite_bind]

theorem rejects_none : Rejects (pure none : Act (Option α)) m m' ↔ m = m' := by
  unfold Rejects
  simp only [returns_pure, true_and, not_fails_pure, exists_false, or_false]

theorem not_rejects_some {a : α} : ¬ Rejects (pure (some a) : Act (Option α)) m m' := by
  unfold Rejects
  simp [returns_pure, not_fails_pure]

end Rules

/-! ## What is spared -/

/-- The package comes with a payload. -/
def SyncedValuePackage.hasPayload : SyncedValuePackage → Bool
  | .full _ _ _ _ _ => true
  | .metadataOnly _ _ payload _ => payload.isSome

/-- The row of the slot is decided, and it is the last one promoted. -/
structure Store.Promoted (s : Store) (slot : Slot) (row : BlobMetadata) : Prop where
  undecided : s.blobMetadataUndecided[slot]? = none
  decided : s.blobMetadataDecided[slot.height]? = some row
  latest : s.latestHeight = some slot.height

/-- The sidecars are as many as the commitments, under different indices, and one of them has another
commitment than its index. -/
def CommitmentMismatch (metadata : ValueMetadata) (sidecars : List BlobSidecar) : Prop :=
  metadata.blobKzgCommitments.length = sidecars.length ∧ (sidecars.map (·.index)).Nodup ∧
    ¬ ∀ s ∈ sidecars, metadata.blobKzgCommitments[s.index]? = some s.kzgCommitment

/-- A rejected package finds its payload stored, no blobs under the round if its own are stored, no
undecided row if it deletes that, and, if only its nil round is refused, everything promoted. -/
def SyncedValuePackage.Spared (cfg : Config) (d : Disk) (slot : Slot) (proposer : Address) :
    SyncedValuePackage → Prop
  | .full value _ sidecars requests _ => validateExecutionRequests requests = .ok () →
    (d.store.undecidedBlockData[slot]?).isSome ∧
    (sidecars ≠ [] → kzgOk cfg sidecars → d.blobs.RoundFree slot.height slot.round.asI64) ∧
    (kzgOk cfg sidecars → CommitmentMismatch value.metadata sidecars →
      d.store.blobMetadataUndecided[slot]? = none) ∧
    (slot.round = .nil → SidecarsAcceptable cfg d slot.height proposer value.metadata sidecars →
      ∀ root row, FullRow cfg d slot proposer value sidecars root row →
        d.store.Promoted slot row ∧
          ∀ s ∈ sidecars, d.blobs.decided[BlobIndexKey.mk slot.height s.index]? = some s)
  | .metadataOnly value notices _ requests => validateExecutionRequests requests = .ok () →
    (d.store.undecidedBlockData[slot]?).isSome ∧
    (slot.round = .nil → ∀ root row, resolveParentRootForHeight cfg d slot.height = .ok root →
      blockMetadata? slot.height root value.metadata.blobKzgCommitments
        (noticeKeccaks value.metadata.blobKzgCommitments.length notices)
        value.metadata.executionPayloadHeader (cfg.validatorIndex proposer) = some row →
      d.store.Promoted slot row ∧
        ∀ n ∈ notices, ∀ row', checkArchiveNotice cfg d.store n ≠ .ok (some row'))

/-! ## Tables that stay as they are -/

section Tables

variable {s : Store} {slot : Slot} {row : BlobMetadata} {record : BlockPayloadRecord}

theorem Store.insertUndecidedBlockData_eq_self :
    s.apply (.insertUndecidedBlockData slot record) = s ↔ (s.undecidedBlockData[slot]?).isSome := by
  rw [← @Table.insertIfNew_eq_self _ _ _ _ _ _ s.undecidedBlockData slot record]
  constructor
  · intro h
    exact congrArg Store.undecidedBlockData h
  · intro h
    show { s with undecidedBlockData := s.undecidedBlockData.insertIfNew slot record } = s
    rw [h]

/-- Storing a payload and deleting the row change nothing exactly if there was a payload and no
row. -/
theorem Store.deleteRow_eq_self :
    (s.apply (.insertUndecidedBlockData slot record)).apply (.deleteBlobMetadataUndecided slot) = s ↔
      (s.undecidedBlockData[slot]?).isSome ∧ s.blobMetadataUndecided[slot]? = none := by
  constructor
  · intro h
    exact ⟨Table.insertIfNew_eq_self.1 (congrArg Store.undecidedBlockData h),
      Table.erase_eq_self.1 (congrArg Store.blobMetadataUndecided h)⟩
  · rintro ⟨hdata, hrow⟩
    rw [Store.insertUndecidedBlockData_eq_self.2 hdata]
    show { s with blobMetadataUndecided := s.blobMetadataUndecided.erase slot } = s
    rw [Table.erase_eq_self.2 hrow]

theorem Store.withRow_undecided : (s.withRow slot row).blobMetadataUndecided[slot]? = none := by
  unfold Store.withRow
  generalize s.apply (.insertBlobMetadataUndecided slot row) = s'
  simp only [Store.apply]
  split
  · assumption
  · exact (Table.getElem?_erase_eq _ _ _).trans (if_pos rfl)

/-- Promoting a row changes nothing exactly if it is promoted already. -/
theorem Store.withRow_eq_self : s.withRow slot row = s ↔ s.Promoted slot row := by
  constructor
  · intro h
    have hfree : s.blobMetadataUndecided[slot]? = none := by
      rw [← h]
      exact Store.withRow_undecided
    have hrow := @Store.withRow_metadata slot row s hfree slot.height
    rw [h, if_pos rfl] at hrow
    rw [Store.withRow_eq hfree] at h
    exact ⟨hfree, hrow, (congrArg Store.latestHeight h).symm⟩
  · intro h
    have hundecided : (s.blobMetadataUndecided.insertIfNew slot row).erase slot =
        s.blobMetadataUndecided := by
      refine Table.ext_getElem? fun k => ?_
      rw [Table.getElem?_erase_eq, Table.getElem?_insertIfNew_eq]
      split
      · rename_i hk
        rw [← hk, h.undecided]
      · rfl
    rw [Store.withRow_eq h.undecided, hundecided, Table.insert_eq_self.2 h.decided, ← h.latest]

theorem Store.syncedTables_blobArchival :
    (s.syncedTables slot record row).blobArchival = s.blobArchival := by
  unfold Store.syncedTables Store.withRow
  simp only [Store.apply]
  split <;> rfl

/-- Storing the payload and promoting the row change nothing exactly if both are there. -/
theorem Store.syncedTables_eq_self :
    s.syncedTables slot record row = s ↔
      (s.undecidedBlockData[slot]?).isSome ∧ s.Promoted slot row := by
  have hdata : (s.syncedTables slot record row).undecidedBlockData =
      s.undecidedBlockData.insertIfNew slot record := by
    unfold Store.syncedTables Store.withRow
    simp only [Store.apply]
    split <;> rfl
  constructor
  · intro h
    have hsome : (s.undecidedBlockData[slot]?).isSome :=
      Table.insertIfNew_eq_self.1 (hdata.symm.trans (congrArg Store.undecidedBlockData h))
    unfold Store.syncedTables at h
    rw [Store.insertUndecidedBlockData_eq_self.2 hsome] at h
    exact ⟨hsome, Store.withRow_eq_self.1 h⟩
  · rintro ⟨hsome, hpromoted⟩
    unfold Store.syncedTables
    rw [Store.insertUndecidedBlockData_eq_self.2 hsome]
    exact Store.withRow_eq_self.2 hpromoted

end Tables

/-- Storing and promoting sidecars changes nothing exactly if they are decided already and the round
was empty. -/
theorem BlobStore.synced_eq_self {b : BlobStore} {slot : Slot} {sidecars : List BlobSidecar}
    (hne : sidecars ≠ []) (hnodup : (sidecars.map (·.index)).Nodup) :
    b.synced slot sidecars = b ↔ b.RoundFree slot.height slot.round.asI64 ∧
      ∀ s ∈ sidecars, b.decided[BlobIndexKey.mk slot.height s.index]? = some s := by
  have hput := fun k => BlobStore.undecided_putAll slot.height slot.round.asI64 k sidecars b
  have hmem : ∀ s ∈ sidecars, (b.putAll slot.height slot.round.asI64 sidecars).undecided[BlobKey.mk
      slot.height slot.round.asI64 s.index]? = some s := by
    intro s hs
    rw [hput, if_pos ⟨rfl, rfl⟩, (BlobStore.find?_of_nodup hnodup).2 hs]
    rfl
  have hround : (b.putAll slot.height slot.round.asI64 sidecars).getUndecidedBlobs slot.height
      slot.round.asI64 ≠ [] := by
    obtain ⟨s, hs⟩ := List.exists_mem_of_ne_nil sidecars hne
    exact List.ne_nil_of_mem ((BlobStore.mem_getUndecidedBlobs _).2 (hmem s hs))
  constructor
  · intro h
    refine ⟨fun i => ?_, fun s hs => ?_⟩
    · rw [← h]
      exact (BlobStore.undecided_promote_of_round hround _).trans (if_pos ⟨rfl, rfl⟩)
    · rw [← h]
      refine (BlobStore.decided_promote_of_round hround _).trans ?_
      rw [hmem s hs]
      rfl
  · rintro ⟨hfree, hdecided⟩
    refine BlobStore.ext_getElem? (fun k => ?_) fun k => ?_
    · refine (BlobStore.undecided_promote_of_round hround k).trans ?_
      obtain ⟨height, round, i⟩ := k
      rw [hput]
      split
      · rename_i hk
        obtain ⟨rfl, rfl⟩ := hk
        exact (hfree i).symm
      · rfl
    · obtain ⟨height, i⟩ := k
      by_cases hk : height = slot.height
      · subst hk
        refine (BlobStore.decided_promote_of_round hround i).trans ?_
        rw [hput, if_pos ⟨rfl, rfl⟩, hfree, BlobStore.decided_putAll]
        -- the blob that is moved to the index is there already
        cases hfind : sidecars.reverse.find? (·.index = i) with
        | none => rfl
        | some s =>
          have hindex : s.index = i := BlobStore.index_of_find? hfind
          have hs : s ∈ sidecars := List.mem_reverse.1 (List.mem_of_find?_eq_some hfind)
          rw [← hindex, hdecided s hs]
          rfl
      · refine (BlobStore.decided_promote_of_ne _ hk).trans ?_
        rw [BlobStore.decided_putAll]

/-! ## A `Full` package -/

section Full

variable {cfg : Config} {slot : Slot} {proposer : Address} {value : Value} {metadata : ValueMetadata}
  {bytes : Bytes} {sidecars : List BlobSidecar} {requests : List Bytes}
  {notices : List ArchiveNotice} {m m' : Machine Disk Memory}

/-- Blobs that do not verify are not stored. -/
theorem fails_verifyAndStore {height : Height} {round : Int} {e : Err}
    (h : Fails (verifyAndStore cfg height round sidecars) m e m') :
    ¬ kzgOk cfg sidecars ∧ m' = m := by
  unfold verifyAndStore at h
  split at h
  · exact absurd h not_fails_pure
  · rename_i hne
    rcases fails_ofExit_bind.1 h with ⟨herr, rfl⟩ | ⟨_, _, h⟩
    · refine ⟨?_, rfl⟩
      rintro (hnil | hverified)
      · exact hne hnil
      · exact (Exit.ensure_eq_error.1 herr).1 hverified
    · exact absurd h (Total.writeAll _).not_fails

/-- The disk without the blobs of a round. -/
def Disk.withoutRound (d : Disk) (slot : Slot) : Disk :=
  { d with blobs := d.blobs.withoutRound slot.height slot.round.asI64 }

/-- **Refused sidecars.** Either they were not stored, or the round is dropped; the undecided row goes
with it if a commitment was wrong. -/
theorem returns_syncSidecars_none
    (h : Returns (syncSidecars cfg slot.height slot.round proposer metadata sidecars) m none m') :
    (¬ kzgOk cfg sidecars ∧ m' = m) ∨
      (kzgOk cfg sidecars ∧ ¬ CommitmentMismatch metadata sidecars ∧
        m'.disk = m.disk.withoutRound slot) ∨
      (kzgOk cfg sidecars ∧ CommitmentMismatch metadata sidecars ∧
        m'.disk = { m.disk.withoutRound slot with
          store := m.disk.store.apply (.deleteBlobMetadataUndecided slot) }) := by
  have hdrop := BlobStore.withoutRound_putAll m.disk.blobs slot.height slot.round.asI64 sidecars
  unfold syncSidecars at h
  obtain ⟨stored, m₁, hattempt, h⟩ := returns_bind.1 h
  rcases returns_attempt.1 hattempt with ⟨_, rfl, hverify⟩ | ⟨e, rfl, hfails⟩
  swap
  · obtain ⟨hkzg, hm₁⟩ := fails_verifyAndStore hfails
    exact .inl ⟨hkzg, (returns_pure.1 h).2.symm.trans hm₁⟩
  obtain ⟨hkzg, rfl⟩ := returns_verifyAndStore.1 hverify
  -- every refusal drops the round, with the sidecars of the package
  have hdropped : ∀ {m₂ : Machine Disk Memory}, Returns (dropRound slot.height slot.round.asI64)
      { m with disk := { m.disk with
        blobs := m.disk.blobs.putAll slot.height slot.round.asI64 sidecars } } () m₂ →
      m₂ = { m with disk := m.disk.withoutRound slot } := by
    intro m₂ h₂
    rw [returns_dropRound.1 h₂, hdrop]
    rfl
  have hrest : ¬ CommitmentMismatch metadata sidecars →
      Returns (do dropRound slot.height slot.round.asI64; pure none :
          Act (Option SignedBeaconBlockHeader))
        { m with disk := { m.disk with
          blobs := m.disk.blobs.putAll slot.height slot.round.asI64 sidecars } } none m' →
      kzgOk cfg sidecars ∧ ¬ CommitmentMismatch metadata sidecars ∧
        m'.disk = m.disk.withoutRound slot := by
    intro hmatch h
    obtain ⟨_, m₂, h₂, h⟩ := returns_bind.1 h
    rw [← (returns_pure.1 h).2, hdropped h₂]
    exact ⟨hkzg, hmatch, rfl⟩
  refine .inr ?_
  dsimp only at h
  split at h
  · rename_i hcount
    exact .inl (hrest (fun hc => hcount hc.1) h)
  split at h
  · rename_i _ hdup
    exact .inl (hrest (fun hc => hdup hc.2.1) h)
  split at h
  · rename_i hcount hdup hmismatch
    obtain ⟨_, m₂, h₂, h⟩ := returns_bind.1 h
    have h := returns_storeWrite_bind.1 h
    rw [← (returns_pure.1 h).2, hdropped h₂]
    exact .inr ⟨hkzg, ⟨not_not.1 hcount, not_not.1 hdup, hmismatch⟩, rfl⟩
  · rename_i hmatch
    rw [returns_getDisk_bind] at h
    split at h
    · obtain ⟨_, _, _, h⟩ := returns_bind.1 h
      cases (returns_pure.1 h).1
    · exact .inl (hrest (fun hc => hc.2.2 (not_not.1 hmatch)) h)

/-- Sidecars that are refused are not acceptable. -/
theorem not_acceptable_of_refused {d : Disk} (hne : sidecars ≠ [])
    (h : Returns (syncSidecars cfg slot.height slot.round proposer metadata sidecars) m none m')
    (hparent : m.disk.store.getBlobMetadata (slot.height - 1) =
      d.store.getBlobMetadata (slot.height - 1)) :
    ¬ SidecarsAcceptable cfg d slot.height proposer metadata sidecars := by
  unfold SidecarsAcceptable
  rw [if_neg hne]
  rintro ⟨hkzg, hnodup, signedHeader, hok⟩
  cases (h.unique (returns_syncSidecars.2 ⟨hkzg, hnodup, hok.congr hparent, rfl⟩)).1

/-- Once the sidecars are promoted, a package without a parent or with a nil round is refused; in the
second case its row is promoted first. -/
theorem rejects_acceptFull {signedHeader : Option SignedBeaconBlockHeader}
    (hsigned : ∀ h ∈ signedHeader,
      resolveParentRootForHeight cfg m.disk slot.height = .ok h.message.parentRoot)
    (hr : Rejects (acceptFull cfg slot.height slot.round proposer value sidecars notices
      signedHeader) m m') :
    (signedHeader = none ∧ (∀ root, resolveParentRootForHeight cfg m.disk slot.height ≠ .ok root) ∧
        m' = m) ∨
      (slot.round = .nil ∧ ∃ root row, FullRow cfg m.disk slot proposer value sidecars root row ∧
        m'.disk = { m.disk with store := m.disk.store.withRow slot row }) := by
  unfold acceptFull at hr
  rw [rejects_getDisk_bind] at hr
  split at hr
  · rename_i root hroot
    have hmatch : ¬ signedHeader.any (fun h => h.message.parentRoot ≠ root) = true := by
      intro hany
      obtain ⟨h, hh, hne⟩ := (Option.any_eq_true _ _).1 hany
      have hsame := Exit.ok.inj ((hsigned h hh).symm.trans hroot)
      simp [hsame] at hne
    rw [if_neg hmatch] at hr
    rcases rejects_ofExit_bind.1 hr with ⟨e, herr, _⟩ | ⟨row, hrow, hr⟩
    · exact absurd herr Exit.orPanic_ne_error
    · obtain ⟨_, m₁, hpromote, hr⟩ := (rejects_bind_of_total (total_promoteSyncedMetadata row)).1 hr
      obtain ⟨_, rfl⟩ := returns_promoteSyncedMetadata.unique hpromote
      unfold storeUndecidedProposal at hr
      rw [bind_assoc] at hr
      rcases rejects_ofExit_bind.1 hr with ⟨e, herr, rfl⟩ | ⟨_, hround, hr⟩
      · refine .inr ⟨?_, root, row, ⟨hroot, Exit.orPanic_eq_ok.1 hrow⟩, rfl⟩
        exact not_not.1 (Exit.ensure_eq_error.1 herr).1
      · rw [rejects_storeWrite_bind] at hr
        obtain ⟨_, _, _, hr⟩ := (rejects_bind_of_total (total_handleArchiveNotices cfg notices)).1 hr
        exact absurd hr not_rejects_some
  · rename_i hroot
    rw [rejects_none] at hr
    refine .inl ⟨?_, hroot, hr.symm⟩
    cases signedHeader with
    | none => rfl
    | some h => exact absurd (hsigned h rfl) (hroot _)

/-- The disk of a package of which only the payload was stored. -/
theorem payload_keeps {d : Disk} {record : BlockPayloadRecord} :
    { d with store := d.store.apply (.insertUndecidedBlockData slot record) } = d ↔
      (d.store.undecidedBlockData[slot]?).isSome := by
  rw [Disk.ext_iff, Store.insertUndecidedBlockData_eq_self]
  exact and_iff_left rfl

/-- A package without sidecars. -/
theorem rejected_bare_keeps
    (hr : Rejects (acceptFull cfg slot.height slot.round proposer value [] notices none)
      (afterStore m (.insertUndecidedBlockData slot ⟨bytes, requests⟩)) m')
    (hrequests : validateExecutionRequests requests = .ok ()) :
    m'.disk = m.disk ↔
      (SyncedValuePackage.full value bytes [] requests notices).Spared cfg m.disk slot proposer := by
  have hfree : ¬ CommitmentMismatch value.metadata [] := fun h => h.2.2 (by simp)
  unfold SyncedValuePackage.Spared
  rcases rejects_acceptFull (by simp) hr with ⟨-, hroot, rfl⟩ | ⟨hround, root, row, hrow, hdisk⟩
  · rw [payload_keeps]
    constructor
    · exact fun h _ => ⟨h, by simp, fun _ hc => absurd hc hfree,
        fun _ _ root _ hrow => absurd hrow.parent_eq (hroot root)⟩
    · exact fun h => (h hrequests).1
  · have htables : m'.disk = { m.disk with
      store := m.disk.store.syncedTables slot ⟨bytes, requests⟩ row } := hdisk
    have hcommitments : value.metadata.blobKzgCommitments = [] := by
      by_contra hne
      cases hrow.row_eq.symm.trans (blockMetadata?_nil_eq_none.2 hne)
    rw [htables, Disk.ext_iff, Store.syncedTables_eq_self]
    constructor
    · rintro ⟨⟨hdata, hpromoted⟩, -⟩ -
      refine ⟨hdata, by simp, fun _ hc => absurd hc hfree, fun _ _ root' row' hrow' => ?_⟩
      cases hrow'.parent_eq.symm.trans hrow.parent_eq
      cases hrow'.row_eq.symm.trans hrow.row_eq
      exact ⟨hpromoted, by simp⟩
    · intro h
      obtain ⟨hdata, -, -, hnil⟩ := h hrequests
      have hacceptable : SidecarsAcceptable cfg m.disk slot.height proposer value.metadata [] := by
        unfold SidecarsAcceptable
        rwa [if_pos rfl]
      exact ⟨⟨hdata, (hnil hround hacceptable root row ⟨hrow.1, hrow.2⟩).1⟩, rfl⟩

/-- A package whose sidecars are refused. -/
theorem rejected_sidecars_keep (hne : sidecars ≠ [])
    (h : Returns (syncSidecars cfg slot.height slot.round proposer value.metadata sidecars)
      (afterStore m (.insertUndecidedBlockData slot ⟨bytes, requests⟩)) none m')
    (hrequests : validateExecutionRequests requests = .ok ()) :
    m'.disk = m.disk ↔
      (SyncedValuePackage.full value bytes sidecars requests notices).Spared cfg m.disk slot
        proposer := by
  have hrefused : ¬ SidecarsAcceptable cfg m.disk slot.height proposer value.metadata sidecars :=
    not_acceptable_of_refused hne h rfl
  unfold SyncedValuePackage.Spared
  rcases returns_syncSidecars_none h with ⟨hkzg, rfl⟩ | ⟨hkzg, hmatch, hdisk⟩ |
    ⟨hkzg, hmismatch, hdisk⟩
  · rw [payload_keeps]
    constructor
    · exact fun h _ => ⟨h, fun _ hk => absurd hk hkzg, fun hk => absurd hk hkzg,
        fun _ ha => absurd ha hrefused⟩
    · exact fun h => (h hrequests).1
  · rw [hdisk, Disk.ext_iff]
    refine (and_congr Store.insertUndecidedBlockData_eq_self BlobStore.withoutRound_eq_self).trans ?_
    constructor
    · rintro ⟨hdata, hround⟩ -
      exact ⟨hdata, fun _ _ => hround, fun _ hc => absurd hc hmatch, fun _ ha => absurd ha hrefused⟩
    · intro h
      obtain ⟨hdata, hround, -⟩ := h hrequests
      exact ⟨hdata, hround hne hkzg⟩
  · rw [hdisk, Disk.ext_iff]
    refine (and_congr Store.deleteRow_eq_self BlobStore.withoutRound_eq_self).trans ?_
    constructor
    · rintro ⟨⟨hdata, hrow⟩, hround⟩ -
      exact ⟨hdata, fun _ _ => hround, fun _ _ => hrow, fun _ ha => absurd ha hrefused⟩
    · intro h
      obtain ⟨hdata, hround, hrow, -⟩ := h hrequests
      exact ⟨⟨hdata, hrow hkzg hmismatch⟩, hround hne hkzg⟩

/-- A package whose sidecars are promoted and whose round is nil. -/
theorem rejected_nil_keeps {signedHeader : SignedBeaconBlockHeader} {m₁ : Machine Disk Memory}
    (hne : sidecars ≠ [])
    (h : Returns (syncSidecars cfg slot.height slot.round proposer value.metadata sidecars)
      (afterStore m (.insertUndecidedBlockData slot ⟨bytes, requests⟩)) (some signedHeader) m₁)
    (hr : Rejects (acceptFull cfg slot.height slot.round proposer value sidecars notices
      (some signedHeader)) m₁ m')
    (hrequests : validateExecutionRequests requests = .ok ()) :
    m'.disk = m.disk ↔
      (SyncedValuePackage.full value bytes sidecars requests notices).Spared cfg m.disk slot
        proposer := by
  obtain ⟨hkzg, hnodup, hok, hm₁⟩ := returns_syncSidecars.1 h
  have hmatch : ¬ CommitmentMismatch value.metadata sidecars := fun hc => hc.2.2 hok.commitment_eq
  have hacceptable : SidecarsAcceptable cfg m.disk slot.height proposer value.metadata sidecars := by
    unfold SidecarsAcceptable
    rw [if_neg hne]
    exact ⟨hkzg, hnodup, signedHeader, hok.congr rfl⟩
  have hsigned : ∀ h ∈ some signedHeader, resolveParentRootForHeight cfg m₁.disk slot.height =
      .ok h.message.parentRoot := by
    rintro h ⟨⟩
    rw [hm₁]
    exact hok.parentRoot_eq
  rcases rejects_acceptFull hsigned hr with ⟨hnone, -⟩ | ⟨hround, root, row, hrow, hdisk⟩
  · cases hnone
  subst hm₁
  have htables : m'.disk = ⟨m.disk.store.syncedTables slot ⟨bytes, requests⟩ row,
    m.disk.blobs.synced slot sidecars⟩ := hdisk
  unfold SyncedValuePackage.Spared
  rw [htables, Disk.ext_iff]
  refine (and_congr Store.syncedTables_eq_self (BlobStore.synced_eq_self hne hnodup)).trans ?_
  constructor
  · rintro ⟨⟨hdata, hpromoted⟩, hfree, hdecided⟩ -
    refine ⟨hdata, fun _ _ => hfree, fun _ hc => absurd hc hmatch, fun _ _ root' row' hrow' => ?_⟩
    cases hrow'.parent_eq.symm.trans hrow.parent_eq
    cases hrow'.row_eq.symm.trans hrow.row_eq
    exact ⟨hpromoted, hdecided⟩
  · intro h
    obtain ⟨hdata, hfree, -, hnil⟩ := h hrequests
    obtain ⟨hpromoted, hdecided⟩ := hnil hround hacceptable root row ⟨hrow.1, hrow.2⟩
    exact ⟨⟨hdata, hpromoted⟩, hfree hne hkzg, hdecided⟩

/-- When a rejected `Full` package leaves everything as it was. -/
theorem rejected_full_keeps
    (hr : Rejects (processSyncedFull cfg slot.height slot.round proposer value bytes sidecars
      requests notices) m m') :
    m'.disk = m.disk ↔
      (SyncedValuePackage.full value bytes sidecars requests notices).Spared cfg m.disk slot
        proposer := by
  unfold processSyncedFull storeSyncedBlockData storeUndecidedBlockData at hr
  simp only [bind_assoc] at hr
  rcases rejects_ofExit_bind.1 hr with ⟨e, herr, rfl⟩ | ⟨_, hrequests, hr⟩
  · exact iff_of_true rfl fun hok => absurd (hok.symm.trans herr) (by simp)
  rw [rejects_storeWrite_bind] at hr
  split at hr
  · rename_i hnil
    subst hnil
    exact rejected_bare_keeps hr hrequests
  · rename_i hne
    obtain ⟨answer, m₁, hsidecars, hr⟩ :=
      (rejects_bind_of_total (total_syncSidecars value.metadata)).1 hr
    cases answer with
    | none =>
      cases rejects_none.1 hr
      exact rejected_sidecars_keep hne hsidecars hrequests
    | some signedHeader => exact rejected_nil_keeps hne hsidecars hr hrequests

end Full

/-! ## Notices -/

section Notices

variable {cfg : Config} {notice : ArchiveNotice} {notices : List ArchiveNotice} {row : BlobMetadata}
  {m m' : Machine Disk Memory}

/-- The archive table has a record for the blob, under its own index. -/
def Store.Archived (s : Store) (k : BlobIndexKey) : Prop :=
  ∃ r, s.blobArchival[k]? = some r ∧ r.body.blobIndex = k.index

/-- A notice is recorded only for a blob that has no record. -/
theorem not_archived_of_check {s : Store} (h : checkArchiveNotice cfg s notice = .ok (some row)) :
    ¬ s.Archived ⟨notice.body.height, notice.body.blobIndex⟩ := by
  rintro ⟨r, hget, hindex⟩
  obtain ⟨metadata, hchecked, _⟩ := checkArchiveNotice_eq_some.1 h
  obtain ⟨stored, _, hhydrate⟩ := Store.getBlobMetadata_eq_some_iff.1 hchecked.metadata_eq
  have hstatus := Store.archivalStatus_hydrate notice.body.blobIndex hhydrate
  rw [hchecked.unarchived, eq_comm, Option.orElse_eq_none] at hstatus
  have hmem : r ∈ s.archiveRecords notice.body.height := Store.mem_archiveRecords.2 ⟨_, hget⟩
  exact absurd (by simpa using hindex) (List.find?_eq_none.1 hstatus.1 r (List.mem_reverse.2 hmem))

/-- What is archived stays archived. -/
theorem archived_handleArchiveNotice {k : BlobIndexKey} (cfg : Config) (notice : ArchiveNotice)
    (h : m.disk.store.Archived k) :
    ((handleArchiveNotice cfg notice).run m).state.disk.store.Archived k := by
  refine (disk_invariant (I := fun d : Disk => d.store.Archived k) _ h ?_).2
  refine (handleArchiveNotice_archives cfg notice m).1.mono fun m w hw => ?_
  cases hw with
  | @record n metadata hchecked =>
    rintro ⟨r, hget, hindex⟩
    have hinsert := Table.getElem?_insert_eq m.disk.store.blobArchival
      ⟨n.body.height, n.body.blobIndex⟩ k (.fromNotice n.transmit)
    by_cases hk : BlobIndexKey.mk n.body.height n.body.blobIndex = k
    · rw [if_pos hk] at hinsert
      exact ⟨_, hinsert, congrArg BlobIndexKey.index hk⟩
    · rw [if_neg hk] at hinsert
      exact ⟨r, hinsert.trans hget, hindex⟩
  | update => exact id
  | prune hw => cases hw <;> exact id

/-- A notice that passes its checks leaves a record. -/
theorem archived_of_check (h : checkArchiveNotice cfg m.disk.store notice = .ok (some row)) :
    ((handleArchiveNotice cfg notice).run m).state.disk.store.Archived
      ⟨notice.body.height, notice.body.blobIndex⟩ := by
  obtain ⟨row', hrow'⟩ := Option.ne_none_iff_exists'.1 (checkArchiveNotice_recordable h)
  obtain ⟨metadata, hchecked, rfl⟩ := checkArchiveNotice_eq_some.1 h
  have hrun : (handleArchiveNotice cfg notice).run m = (do
      storeWrite (.insertArchiveRecord notice.body.height notice.body.blobIndex
        (.fromNotice notice.transmit))
      storeWrite (.updateBlobMetadata notice.body.height row')
      finishArchive notice.body.height row' : Act Unit).run m := by
    unfold handleArchiveNotice
    rw [run_getDisk_bind, run_ofExit_bind h]
    dsimp only
    rw [hrow']
    rfl
  have hrecord := Table.getElem?_insert_eq m.disk.store.blobArchival
    ⟨notice.body.height, notice.body.blobIndex⟩ ⟨notice.body.height, notice.body.blobIndex⟩
    (.fromNotice notice.transmit)
  rw [if_pos rfl] at hrecord
  rw [hrun]
  -- the writes that follow do not touch the archive table
  refine (disk_invariant (I := fun d : Disk => d.store.Archived
    ⟨notice.body.height, notice.body.blobIndex⟩) (finishArchive notice.body.height row')
    ⟨_, hrecord, rfl⟩ ?_).2
  refine (finishArchive_prunes hchecked hrow' rfl).1.mono fun m w hw => ?_
  cases hw <;> exact id

/-- A notice that does not pass its checks, or is known, changes nothing. -/
theorem run_handleArchiveNotice_of_check
    (h : ∀ row, checkArchiveNotice cfg m.disk.store notice ≠ .ok (some row)) :
    ((handleArchiveNotice cfg notice).run m).state = m := by
  unfold handleArchiveNotice
  rw [run_getDisk_bind]
  cases hcheck : checkArchiveNotice cfg m.disk.store notice with
  | ok checked =>
    cases checked with
    | none => rfl
    | some row => exact absurd hcheck (h row)
  | error e => rfl
  | panic => rfl

/-- **A list of notices** changes nothing if none of them can be recorded; else the first one that can
leaves a record that was not there. -/
theorem handleArchiveNotices_keep : ∀ {notices : List ArchiveNotice} {m m' : Machine Disk Memory},
    Returns (handleArchiveNotices cfg notices) m () m' →
      ((∀ n ∈ notices, ∀ row, checkArchiveNotice cfg m.disk.store n ≠ .ok (some row)) ∧ m' = m) ∨
        ∃ n ∈ notices, (∃ row, checkArchiveNotice cfg m.disk.store n = .ok (some row)) ∧
          m'.disk.store.Archived ⟨n.body.height, n.body.blobIndex⟩
  | [], m, m', h => by
    cases returns_forEach_nil.1 h
    exact .inl ⟨by simp, rfl⟩
  | n :: notices, m, m', h => by
    obtain ⟨m₁, h₁, hrest⟩ := returns_forEach_cons.1 h
    have hm₁ : m₁ = ((handleArchiveNotice cfg n).run m).state := by
      obtain ⟨_, m₂, hattempt, hpure⟩ := returns_bind.1 h₁
      rw [← (returns_pure.1 hpure).2, ← hattempt.2, attempt_state]
    by_cases hn : ∃ row, checkArchiveNotice cfg m.disk.store n = .ok (some row)
    · -- the record is new, and the other notices leave it
      obtain ⟨row, hcheck⟩ := hn
      refine .inr ⟨n, List.mem_cons_self .., ⟨row, hcheck⟩, ?_⟩
      have harchived := archived_of_check hcheck
      rw [← hm₁] at harchived
      have hkept := @state_forEach_invariant _ _ _ _ _ _ (fun m : Machine Disk Memory =>
        m.disk.store.Archived ⟨n.body.height, n.body.blobIndex⟩)
        (fun n => do let _ ← (handleArchiveNotice cfg n).attempt) notices m₁ harchived ?_
      · rw [← hrest.2]
        exact hkept
      · intro n' _ m hm
        refine state_bind_invariant (I := fun m : Machine Disk Memory =>
          m.disk.store.Archived ⟨n.body.height, n.body.blobIndex⟩) ?_ ?_
        · rw [attempt_state]
          exact archived_handleArchiveNotice cfg n' hm
        · intro _
          rw [attempt_state]
          exact archived_handleArchiveNotice cfg n' hm
    · have hnone : ∀ row, checkArchiveNotice cfg m.disk.store n ≠ .ok (some row) :=
        fun row hcheck => hn ⟨row, hcheck⟩
      rw [run_handleArchiveNotice_of_check hnone] at hm₁
      subst hm₁
      rcases handleArchiveNotices_keep hrest with ⟨hall, rfl⟩ | hnew
      · exact .inl ⟨List.forall_mem_cons.2 ⟨hnone, hall⟩, rfl⟩
      · obtain ⟨n', hn', hcheck, harchived⟩ := hnew
        exact .inr ⟨n', List.mem_cons_of_mem _ hn', hcheck, harchived⟩

end Notices

/-! ## A `MetadataOnly` package -/

section MetadataOnly

variable {cfg : Config} {slot : Slot} {proposer : Address} {value : Value} {bytes : Bytes}
  {requests : List Bytes} {notices : List ArchiveNotice} {m m' : Machine Disk Memory}

/-- When a rejected `MetadataOnly` package with a payload leaves everything as it was. -/
theorem rejected_metadataOnly_keeps
    (hr : Rejects (processSyncedMetadataOnly cfg slot.height slot.round proposer value notices
      (some bytes) requests) m m') :
    m'.disk = m.disk ↔
      (SyncedValuePackage.metadataOnly value notices (some bytes) requests).Spared cfg m.disk slot
        proposer := by
  have hparent : resolveParentRootForHeight cfg (afterStore m (.insertUndecidedBlockData slot
    ⟨bytes, requests⟩)).disk slot.height = resolveParentRootForHeight cfg m.disk slot.height := rfl
  unfold processSyncedMetadataOnly storeSyncedBlockData storeUndecidedBlockData
    storeUndecidedProposal at hr
  simp only [bind_assoc] at hr
  unfold SyncedValuePackage.Spared
  rcases rejects_ofExit_bind.1 hr with ⟨e, herr, rfl⟩ | ⟨_, hrequests, hr⟩
  · exact iff_of_true rfl fun hok => absurd (hok.symm.trans herr) (by simp)
  rw [rejects_storeWrite_bind, rejects_getDisk_bind, hparent] at hr
  split at hr
  swap
  · rename_i hroot
    cases rejects_none.1 hr
    rw [payload_keeps]
    constructor
    · exact fun h _ => ⟨h, fun _ root _ hok => absurd hok (hroot root)⟩
    · exact fun h => (h hrequests).1
  rename_i root hroot
  rcases rejects_ofExit_bind.1 hr with ⟨e, herr, _⟩ | ⟨row, hrow, hr⟩
  · exact absurd herr Exit.orPanic_ne_error
  obtain ⟨_, m₁, hpromote, hr⟩ := (rejects_bind_of_total (total_promoteSyncedMetadata row)).1 hr
  obtain ⟨_, rfl⟩ := returns_promoteSyncedMetadata.unique hpromote
  obtain ⟨_, m₂, hlatest, hr⟩ := (rejects_bind_of_total (Total.modifyMem _)).1 hr
  have hlatest := returns_modifyMem.1 hlatest
  obtain ⟨_, m₃, hnotices, hr⟩ :=
    (rejects_bind_of_total (total_handleArchiveNotices cfg notices)).1 hr
  have hdisk₂ : m₂.disk = { m.disk with
      store := m.disk.store.syncedTables slot ⟨bytes, requests⟩ row } := by
    rw [← hlatest]
    rfl
  rcases rejects_ofExit_bind.1 hr with ⟨e, herr, rfl⟩ | ⟨_, _, hr⟩
  swap
  · rw [rejects_storeWrite_bind] at hr
    exact absurd hr not_rejects_some
  have hround : slot.round = .nil := not_not.1 (Exit.ensure_eq_error.1 herr).1
  have hrow := Exit.orPanic_eq_ok.1 hrow
  constructor
  · intro hsame _
    rcases handleArchiveNotices_keep hnotices with ⟨hall, rfl⟩ | ⟨n, _, ⟨row', hcheck⟩, r, hr, hi⟩
    · rw [hdisk₂, Disk.ext_iff, Store.syncedTables_eq_self] at hsame
      obtain ⟨⟨hdata, hpromoted⟩, -⟩ := hsame
      refine ⟨hdata, fun _ root' row' hroot' hrow' => ?_⟩
      cases hroot'.symm.trans hroot
      cases hrow'.symm.trans hrow
      refine ⟨hpromoted, ?_⟩
      rw [hdisk₂, Store.syncedTables_eq_self.2 ⟨hdata, hpromoted⟩] at hall
      exact hall
    · -- the record of a notice is new, so the table has changed
      refine absurd ⟨r, ?_, hi⟩ (not_archived_of_check hcheck)
      rw [hdisk₂]
      rw [hsame] at hr
      exact (congrArg (·[_]?) Store.syncedTables_blobArchival).trans hr
  · intro h
    obtain ⟨hdata, hnil⟩ := h hrequests
    obtain ⟨hpromoted, hall⟩ := hnil hround root row hroot hrow
    have htables : m₂.disk = m.disk := by
      rw [hdisk₂, Store.syncedTables_eq_self.2 ⟨hdata, hpromoted⟩]
    rcases handleArchiveNotices_keep hnotices with ⟨-, rfl⟩ | ⟨n, hn, ⟨row', hcheck⟩, -⟩
    · exact htables
    · rw [htables] at hcheck
      exact absurd hcheck (hall n hn row')

end MetadataOnly

/-- **What a rejected package leaves.** If `process_synced_package` rejects a package that comes with
a payload, both databases are as they were exactly if the package is `Spared`. -/
theorem rejected_package_keeps {cfg : Config} {slot : Slot} {proposer : Address}
    {package : SyncedValuePackage} {m m' : Machine Disk Memory}
    (hpayload : package.hasPayload = true)
    (hr : Rejects (processSyncedPackage cfg slot.height slot.round proposer package) m m') :
    m'.disk = m.disk ↔ package.Spared cfg m.disk slot proposer := by
  cases package with
  | full value bytes sidecars requests notices => exact rejected_full_keeps hr
  | metadataOnly value notices payload requests =>
    cases payload with
    | none => cases hpayload
    | some bytes => exact rejected_metadataOnly_keeps hr

namespace Sample

/-- The sidecars of the blob block, as its proposer has stored them. -/
def storedSidecars : List BlobSidecar :=
  (node 2 proposeBlob).machine.disk.blobs.getUndecidedBlobs 1 0

/-- A package with another payload and one sidecar too many. -/
def refusedPackage : SyncedValuePackage :=
  .full blobValue [1, 5, 1, 1] (storedSidecars ++ storedSidecars) [] []

/-- The package arrives at a node for the first round of height 1. -/
def refuse (i : Nat) (ls : List Label) : Outcome Disk Memory Write Err (Option ProposedValue) :=
  (processSyncedPackage (config i) 1 (.some 0) ⟨2⟩ refusedPackage).run (node i ls).machine

/-- Validator 1 has received a block without blobs. -/
def receiveBlock : List Label := .start :: receive (fromTwo (payload 1 0 1 0))

end Sample

open Sample in
/-- A node that has a payload for the slot and no blobs there is spared. -/
theorem rejected_package_keeps_stored :
    Rejects (processSyncedPackage (config 1) 1 (.some 0) ⟨2⟩ refusedPackage)
        (node 1 receiveBlock).machine (refuse 1 receiveBlock).state ∧
      refusedPackage.Spared (config 1) (node 1 receiveBlock).machine.disk ⟨1, .some 0⟩ ⟨2⟩ := by
  have hrun : (refuse 1 receiveBlock).exit = .ok none ∧
    (refuse 1 receiveBlock).state.disk = (node 1 receiveBlock).machine.disk := by decide +kernel
  have hr : Rejects (processSyncedPackage (config 1) 1 (.some 0) ⟨2⟩ refusedPackage)
    (node 1 receiveBlock).machine (refuse 1 receiveBlock).state := .inl ⟨hrun.1, rfl⟩
  exact ⟨hr, (@rejected_package_keeps (config 1) ⟨1, .some 0⟩ _ _ _ _ rfl hr).1 hrun.2⟩

open Sample in
/-- **A rejected package does harm.** The proposer of the block loses its blobs, and a node that has
just started keeps the payload of the package. -/
theorem rejected_package_harms :
    ((refuse 2 proposeBlob).exit = .ok none ∧
      ((node 2 proposeBlob).machine.disk.blobs.getUndecidedBlobs 1 0).length = 1 ∧
      ((refuse 2 proposeBlob).state.disk.blobs.getUndecidedBlobs 1 0).length = 0) ∧
    (refuse 1 [.start]).exit = .ok none ∧
      (node 1 [.start]).machine.disk.store.undecidedBlockData[Slot.mk 1 (.some 0)]? = none ∧
      (refuse 1 [.start]).state.disk.store.undecidedBlockData[Slot.mk 1 (.some 0)]? =
        some ⟨[1, 5, 1, 1], []⟩ := by
  decide +kernel

end Ultramarine
