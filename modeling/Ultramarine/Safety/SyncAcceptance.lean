import Ultramarine.State.Synced
import Ultramarine.App.Run

/-!
# What a synced package has to pass

`process_synced_package` is given whatever a peer has sent. A `Full` package with sidecars is checked
against a header that the proposer has signed, and the header covers the commitments and the
execution header of the value. Everything else is taken as it comes: the id of the value, its blob
count and its byte count, the payload; and without sidecars also the commitments and the header.

Results:

* `synced_package_accepted`: when a package is accepted, and as what;
* `synced_package_calm`: when it panics: the metadata row has a keccak hash for each commitment, and a
  package without sidecars has none.
-/

namespace Ultramarine

open Lib Ssz Prog

/-- The value of a package. -/
def SyncedValuePackage.carried : SyncedValuePackage → Value
  | .full value _ _ _ _ => value
  | .metadataOnly value _ _ _ => value

/-- What a node asks of the sidecars of a `Full` package: none and no commitments, or all that the
checks ask for. -/
def SidecarsAcceptable (cfg : Config) (d : Disk) (height : Height) (proposer : Address)
    (metadata : ValueMetadata) (sidecars : List BlobSidecar) : Prop :=
  if sidecars = [] then metadata.blobKzgCommitments = []
  else kzgOk cfg sidecars ∧ (sidecars.map (·.index)).Nodup ∧
    ∃ signedHeader, SidecarsOk cfg d height proposer metadata sidecars signedHeader

/-- What `process_synced_package` asks of a package. -/
def SyncedValuePackage.Acceptable (cfg : Config) (d : Disk) (slot : Slot) (proposer : Address) :
    SyncedValuePackage → Prop
  | .full value _ sidecars requests _ =>
    validateExecutionRequests requests = .ok () ∧ slot.round ≠ .nil ∧
      (∃ root, resolveParentRootForHeight cfg d slot.height = .ok root) ∧
      SidecarsAcceptable cfg d slot.height proposer value.metadata sidecars
  | .metadataOnly value _ payload requests =>
    payload.isSome ∧ validateExecutionRequests requests = .ok () ∧ slot.round ≠ .nil ∧
      (∃ root, resolveParentRootForHeight cfg d slot.height = .ok root) ∧
      value.metadata.blobKzgCommitments.length ≤ u16Max

/-- The metadata row of a package can be built, if it comes to that. -/
def SyncedValuePackage.Buildable (cfg : Config) (d : Disk) (height : Height) :
    SyncedValuePackage → Prop
  | .full value _ sidecars requests _ => validateExecutionRequests requests = .ok () →
    (∃ root, resolveParentRootForHeight cfg d height = .ok root) → sidecars = [] →
      value.metadata.blobKzgCommitments = []
  | .metadataOnly value _ payload requests => payload.isSome →
    validateExecutionRequests requests = .ok () →
    (∃ root, resolveParentRootForHeight cfg d height = .ok root) →
      value.metadata.blobKzgCommitments.length ≤ u16Max

/-! ## The metadata row -/

section Row

variable {height : Height} {root : B256} {commitments : List KzgCommitment} {keccaks : List B256}
  {header : ExecutionPayloadHeader} {hint : Option Nat}

theorem blockMetadata?_eq_none :
    blockMetadata? height root commitments keccaks header hint = none ↔
      commitments ≠ [] ∧ (commitments.length ≤ u16Max → keccaks.length ≠ commitments.length) := by
  unfold blockMetadata? BlobMetadata.new?
  split
  · simp [*]
  · split
    · simp [*]
    · rename_i h h'
      simp only [true_iff]
      exact ⟨h, fun hle heq => h' ⟨hle, heq⟩⟩

/-- The row of a `MetadataOnly` package has a hash for each commitment. -/
theorem blockMetadata?_noticeKeccaks_eq_none {notices : List ArchiveNotice} :
    blockMetadata? height root commitments (noticeKeccaks commitments.length notices) header hint =
      none ↔ ¬ commitments.length ≤ u16Max := by
  rw [blockMetadata?_eq_none]
  constructor
  · rintro ⟨_, hlen⟩ hle
    exact hlen hle (length_noticeKeccaks _ _)
  · intro hlarge
    refine ⟨?_, fun hle => absurd hle hlarge⟩
    rintro rfl
    exact hlarge (Nat.zero_le _)

/-- Without keccak hashes a row has no commitments. -/
theorem blockMetadata?_nil_eq_none :
    blockMetadata? height root commitments [] header hint = none ↔ commitments ≠ [] := by
  rw [blockMetadata?_eq_none]
  refine and_iff_left_of_imp fun hne _ hlen => hne ?_
  exact List.eq_nil_of_length_eq_zero hlen.symm

theorem maxBlobCommitments_le_u16Max : maxBlobCommitmentsPerBlock ≤ u16Max := by decide

/-- Sidecars that verify have a row. -/
theorem blockMetadata?_ne_none_of_sidecars {cfg : Config} {d : Disk} {proposer : Address}
    {metadata : ValueMetadata} {sidecars : List BlobSidecar} {signedHeader : SignedBeaconBlockHeader}
    (h : SidecarsOk cfg d height proposer metadata sidecars signedHeader) :
    blockMetadata? height root metadata.blobKzgCommitments
      (sidecars.map (·.blobKeccak cfg.oracles)) header hint ≠ none := by
  rw [Ne, blockMetadata?_eq_none]
  rintro ⟨_, hlen⟩
  refine hlen (h.count_le.trans maxBlobCommitments_le_u16Max) ?_
  rw [List.length_map, h.count_eq]

end Row

section Accept

variable {cfg : Config} {slot : Slot} {proposer : Address} {value : Value}
  {bytes : Bytes} {sidecars : List BlobSidecar} {requests : List Bytes}
  {notices : List ArchiveNotice} {v : ProposedValue} {m : Machine Disk Memory}

/-- The end of an accepted `Full` package always returns: its notices are recorded or skipped. -/
theorem exists_returns_acceptFull {signedHeader : Option SignedBeaconBlockHeader} {root : B256}
    {row : BlobMetadata} (hrow : FullRow cfg m.disk slot proposer value sidecars root row)
    (hsigned : ∀ h ∈ signedHeader, h.message.parentRoot = root) (hround : slot.round ≠ .nil) :
    ∃ m', Returns (acceptFull cfg slot.height slot.round proposer value sidecars notices
      signedHeader) m (some (syncedProposal slot.height slot.round proposer value)) m' := by
  obtain ⟨_, m', hnotices⟩ := total_handleArchiveNotices cfg notices (afterStore
    ⟨⟨m.disk.store.withRow slot row, m.disk.blobs⟩, m.mem.withBlobRoot cfg slot.height row⟩
    (.insertUndecidedProposal (syncedProposal slot.height slot.round proposer value)))
  exact ⟨m', returns_acceptFull hrow hsigned hround hnotices⟩

/-- When a `Full` package is accepted. -/
theorem processSyncedFull_accepted :
    (∃ m', Returns (processSyncedFull cfg slot.height slot.round proposer value bytes sidecars
        requests notices) m (some v) m') ↔
      v = syncedProposal slot.height slot.round proposer value ∧
        (SyncedValuePackage.full value bytes sidecars requests notices).Acceptable cfg m.disk slot
          proposer := by
  unfold SyncedValuePackage.Acceptable SidecarsAcceptable
  constructor
  · rintro ⟨m', hr⟩
    obtain ⟨hrequests, hround, hv, ⟨root, row, hrow⟩, hsidecars⟩ := processSyncedFull_inversion hr
    refine ⟨hv, hrequests, hround, ⟨root, hrow.parent_eq⟩, ?_⟩
    split
    · rename_i hnil
      subst hnil
      by_contra hne
      exact absurd (hrow.row_eq.symm.trans (blockMetadata?_nil_eq_none.2 hne)) (by simp)
    · rename_i hne
      exact hsidecars hne
  · rintro ⟨rfl, hrequests, hround, ⟨root, hroot⟩, hsidecars⟩
    -- the machine that the sidecars leave, with them or without
    have hstored : ∀ p : Act (Option ProposedValue), (∃ m', Returns p
        (afterStore m (.insertUndecidedBlockData slot ⟨bytes, requests⟩))
        (some (syncedProposal slot.height slot.round proposer value)) m') →
        ∃ m', Returns (storeSyncedBlockData slot ⟨bytes, requests⟩ >>= fun _ => p) m
          (some (syncedProposal slot.height slot.round proposer value)) m' := by
      rintro p ⟨m', hr⟩
      refine ⟨m', ?_⟩
      unfold storeSyncedBlockData storeUndecidedBlockData
      simp only [bind_assoc]
      exact returns_ofExit_bind.2 ⟨(), hrequests, returns_storeWrite_bind.2 hr⟩
    refine hstored _ ?_
    split
    · rename_i hnil
      subst hnil
      rw [if_pos rfl] at hsidecars
      obtain ⟨row, hrow⟩ := Option.ne_none_iff_exists'.1
        (mt (@blockMetadata?_nil_eq_none slot.height root value.metadata.blobKzgCommitments
          value.metadata.executionPayloadHeader (cfg.validatorIndex proposer)).1
          (not_not.2 hsidecars))
      exact exists_returns_acceptFull ⟨hroot, hrow⟩ (by simp) hround
    · rename_i hne
      rw [if_neg hne] at hsidecars
      obtain ⟨hkzg, hnodup, signedHeader, hok⟩ := hsidecars
      obtain ⟨row, hrow⟩ := Option.ne_none_iff_exists'.1
        (@blockMetadata?_ne_none_of_sidecars slot.height root
          value.metadata.executionPayloadHeader (cfg.validatorIndex proposer) cfg m.disk proposer
          value.metadata sidecars signedHeader hok)
      have hsigned : ∀ h ∈ some signedHeader, h.message.parentRoot = root := by
        rintro h ⟨⟩
        exact Exit.ok.inj (hok.parentRoot_eq.symm.trans hroot)
      obtain ⟨m', hr⟩ := @exists_returns_acceptFull cfg slot proposer value sidecars notices
        ⟨⟨m.disk.store.apply (.insertUndecidedBlockData slot ⟨bytes, requests⟩),
          m.disk.blobs.synced slot sidecars⟩, m.mem⟩ (some signedHeader) root row ⟨hroot, hrow⟩
        hsigned hround
      exact ⟨m', Returns.bind (returns_syncSidecars.2 ⟨hkzg, hnodup, hok.congr rfl, rfl⟩) hr⟩

/-- When a `MetadataOnly` package is accepted. -/
theorem processSyncedMetadataOnly_accepted {payload : Option Bytes} :
    (∃ m', Returns (processSyncedMetadataOnly cfg slot.height slot.round proposer value notices
        payload requests) m (some v) m') ↔
      v = syncedProposal slot.height slot.round proposer value ∧
        (SyncedValuePackage.metadataOnly value notices payload requests).Acceptable cfg m.disk slot
          proposer := by
  unfold SyncedValuePackage.Acceptable
  cases payload with
  | none =>
    constructor
    · rintro ⟨m', hr⟩
      exact absurd hr not_returns_rejected
    · rintro ⟨-, hsome, -⟩
      cases hsome
  | some bytes =>
    have hparent : resolveParentRootForHeight cfg (afterStore m (.insertUndecidedBlockData slot
      ⟨bytes, requests⟩)).disk slot.height = resolveParentRootForHeight cfg m.disk slot.height := rfl
    unfold processSyncedMetadataOnly storeSyncedBlockData storeUndecidedBlockData
      storeUndecidedProposal
    simp only [bind_assoc]
    constructor
    · rintro ⟨m', hr⟩
      obtain ⟨_, hrequests, hr⟩ := returns_ofExit_bind.1 hr
      have hr := returns_storeWrite_bind.1 hr
      rw [returns_getDisk_bind, hparent] at hr
      split at hr
      · rename_i root hroot
        obtain ⟨row, hrow, hr⟩ := returns_ofExit_bind.1 hr
        obtain ⟨_, _, _, hr⟩ := returns_bind.1 hr
        obtain ⟨_, _, _, hr⟩ := returns_bind.1 (returns_modifyMem_bind.1 hr)
        obtain ⟨_, hround, hr⟩ := returns_ofExit_bind.1 hr
        have hr := returns_storeWrite_bind.1 hr
        obtain ⟨heq, _⟩ := returns_pure.1 hr
        refine ⟨(Option.some.inj heq).symm, rfl, hrequests, Exit.ensure_eq_ok.1 hround,
          ⟨root, hroot⟩, ?_⟩
        by_contra hlarge
        rw [blockMetadata?_noticeKeccaks_eq_none.2 hlarge] at hrow
        cases hrow
      · cases (returns_pure.1 hr).1
    · rintro ⟨rfl, -, hrequests, hround, ⟨root, hroot⟩, hle⟩
      obtain ⟨row, hrow⟩ := Option.ne_none_iff_exists'.1
        (mt (@blockMetadata?_noticeKeccaks_eq_none slot.height root
          value.metadata.blobKzgCommitments value.metadata.executionPayloadHeader
          (cfg.validatorIndex proposer) notices).1 (not_not.2 hle))
      obtain ⟨_, m', hnotices⟩ := total_handleArchiveNotices cfg notices
        ⟨⟨m.disk.store.syncedTables slot ⟨bytes, requests⟩ row, m.disk.blobs⟩,
          { m.mem.withBlobRoot cfg slot.height row with
            latestBlock := advanceLatestBlock
              (executionBlockOfHeader value.metadata.executionPayloadHeader) m.mem.latestBlock }⟩
      refine ⟨afterStore m' (.insertUndecidedProposal (syncedProposal slot.height slot.round proposer
        value)), returns_ofExit_bind.2 ⟨(), hrequests, returns_storeWrite_bind.2 ?_⟩⟩
      rw [returns_getDisk_bind, hparent, hroot]
      refine returns_ofExit_bind.2 ⟨row, Exit.orPanic_eq_ok.2 hrow, ?_⟩
      refine Returns.bind (a := ()) returns_promoteSyncedMetadata (returns_modifyMem_bind.2 ?_)
      refine hnotices.bind (returns_ofExit_bind.2 ⟨(), Exit.ensure_eq_ok.2 hround, ?_⟩)
      exact returns_storeWrite_bind.2 (returns_pure.2 ⟨rfl, rfl⟩)

end Accept

/-! ## Panics -/

section Panic

variable {cfg : Config} {slot : Slot} {proposer : Address} {value : Value}
  {bytes : Bytes} {sidecars : List BlobSidecar} {requests : List Bytes}
  {notices : List ArchiveNotice} {m : Machine Disk Memory}

theorem calm_verifyAndStore (cfg : Config) (height : Height) (round : Int)
    (sidecars : List BlobSidecar) : Calm (verifyAndStore cfg height round sidecars) := by
  unfold verifyAndStore
  split
  · exact .of_total (.pure _)
  · exact (Calm.ofExit Exit.ensure_ne_panic).bind fun _ => .of_total (.writeAll _)

theorem calm_storeUndecidedProposal (p : ProposedValue) : Calm (storeUndecidedProposal p) :=
  (Calm.ofExit Exit.ensure_ne_panic).bind fun _ => .of_total (total_storeWrite _)

theorem total_markDecided (height : Height) (round : Int) : Total (markDecided height round) :=
  total_getDisk.bind fun _ => .writeAll _

/-- The sidecars of a package are promoted or refused. -/
theorem total_syncSidecars (metadata : ValueMetadata) :
    Total (syncSidecars cfg slot.height slot.round proposer metadata sidecars) := by
  have hrejected : Total (do dropRound slot.height slot.round.asI64; pure none :
      Act (Option SignedBeaconBlockHeader)) := (total_dropRound _ _).bind fun _ => .pure _
  refine (calm_verifyAndStore _ _ _ _).total_attempt.bind fun verified => ?_
  cases verified with
  | error e => exact .pure _
  | ok u =>
    dsimp only
    split
    · exact hrejected
    split
    · exact hrejected
    split
    · exact (total_dropRound _ _).bind fun _ => (total_storeWrite _).bind fun _ => .pure _
    · refine total_getDisk.bind fun d => ?_
      split
      · exact (total_markDecided _ _).bind fun _ => .pure _
      · exact hrejected

theorem total_promoteSyncedMetadata (row : BlobMetadata) :
    Total (promoteSyncedMetadata cfg slot row) := fun _ => ⟨_, _, returns_promoteSyncedMetadata⟩

/-- The end of a `Full` package panics exactly if its row cannot be built. -/
theorem panics_acceptFull {signedHeader : Option SignedBeaconBlockHeader} :
    Panics (acceptFull cfg slot.height slot.round proposer value sidecars notices signedHeader) m ↔
      ∃ root, resolveParentRootForHeight cfg m.disk slot.height = .ok root ∧
        (∀ h ∈ signedHeader, h.message.parentRoot = root) ∧
        blockMetadata? slot.height root value.metadata.blobKzgCommitments
          (sidecars.map (·.blobKeccak cfg.oracles)) value.metadata.executionPayloadHeader
          (cfg.validatorIndex proposer) = none := by
  unfold acceptFull
  rw [panics_getDisk_bind]
  cases hroot : resolveParentRootForHeight cfg m.disk slot.height with
  | error e => simp [Panics]
  | panic => exact absurd hroot (resolveParentRootForHeight_ne_panic _ _ _)
  | ok root =>
    simp only [Exit.ok.injEq, exists_eq_left']
    split
    · rename_i hmismatch
      have hcalm : ¬ Panics (do
          dropRound slot.height slot.round.asI64
          storeWrite (.deleteBlobMetadataUndecided ⟨slot.height, slot.round⟩)
          pure none : Act (Option ProposedValue)) m :=
        Calm.of_total ((total_dropRound _ _).bind fun _ => (total_storeWrite _).bind fun _ => .pure _) m
      refine iff_of_false hcalm ?_
      rintro ⟨hsigned, -⟩
      obtain ⟨h, hh, hne⟩ := (Option.any_eq_true _ _).1 hmismatch
      exact absurd (hsigned h hh) (by simpa using hne)
    · rename_i hmatch
      have hsigned : ∀ h ∈ signedHeader, h.message.parentRoot = root := by
        intro h hh
        by_contra hne
        exact hmatch ((Option.any_eq_true _ _).2 ⟨h, hh, by simpa using hne⟩)
      rw [panics_ofExit_bind, Exit.orPanic_eq_panic]
      refine (or_iff_left ?_).trans (and_iff_right hsigned).symm
      rintro ⟨row, _, hpanic⟩
      refine (Calm.of_total (total_promoteSyncedMetadata row)).bind (fun _ =>
        (calm_storeUndecidedProposal _).bind fun _ =>
          (Calm.of_total (total_handleArchiveNotices cfg notices)).bind fun _ =>
            .of_total (.pure _)) m hpanic

/-- When a `Full` package panics. -/
theorem panics_processSyncedFull :
    Panics (processSyncedFull cfg slot.height slot.round proposer value bytes sidecars requests
        notices) m ↔
      ¬ (SyncedValuePackage.full value bytes sidecars requests notices).Buildable cfg m.disk
        slot.height := by
  have hvalidate : validateExecutionRequests requests ≠ .panic := Exit.ensure_ne_panic
  unfold SyncedValuePackage.Buildable processSyncedFull storeSyncedBlockData storeUndecidedBlockData
  simp only [bind_assoc, panics_ofExit_bind, panics_storeWrite_bind, hvalidate, false_or,
    Classical.not_imp]
  constructor
  · rintro ⟨_, hrequests, hpanic⟩
    split at hpanic
    · rename_i hnil
      subst hnil
      obtain ⟨root, hroot, -, hrow⟩ := panics_acceptFull.1 hpanic
      exact ⟨hrequests, ⟨root, hroot⟩, rfl, blockMetadata?_nil_eq_none.1 hrow⟩
    · obtain ⟨answer, m₁, hsidecars, hpanic⟩ := (Calm.of_total (total_syncSidecars _)).panics_bind.1 hpanic
      cases answer with
      | none => cases hpanic
      | some signedHeader =>
        -- sidecars that verify have a row
        obtain ⟨-, -, hok, -⟩ := returns_syncSidecars.1 hsidecars
        obtain ⟨root, -, -, hrow⟩ := panics_acceptFull.1 hpanic
        exact absurd hrow (blockMetadata?_ne_none_of_sidecars hok)
  · rintro ⟨hrequests, ⟨root, hroot⟩, rfl, hne⟩
    refine ⟨(), hrequests, ?_⟩
    rw [if_pos rfl]
    exact panics_acceptFull.2 ⟨root, hroot, by simp, blockMetadata?_nil_eq_none.2 hne⟩

/-- When a `MetadataOnly` package panics. -/
theorem panics_processSyncedMetadataOnly {payload : Option Bytes} :
    Panics (processSyncedMetadataOnly cfg slot.height slot.round proposer value notices payload
        requests) m ↔
      ¬ (SyncedValuePackage.metadataOnly value notices payload requests).Buildable cfg m.disk
        slot.height := by
  have hvalidate : validateExecutionRequests requests ≠ .panic := Exit.ensure_ne_panic
  unfold SyncedValuePackage.Buildable
  cases payload with
  | none =>
    refine iff_of_false ?_ (not_not.2 nofun)
    exact Calm.of_total ((total_handleArchiveNotices cfg notices).bind fun _ => .pure _) m
  | some bytes =>
    have hparent : resolveParentRootForHeight cfg (afterStore m (.insertUndecidedBlockData slot
      ⟨bytes, requests⟩)).disk slot.height = resolveParentRootForHeight cfg m.disk slot.height := rfl
    unfold processSyncedMetadataOnly storeSyncedBlockData storeUndecidedBlockData
    simp only [bind_assoc, panics_ofExit_bind, panics_storeWrite_bind, panics_getDisk_bind,
      hvalidate, hparent, false_or, Classical.not_imp]
    constructor
    · rintro ⟨_, hrequests, hpanic⟩
      split at hpanic
      · rename_i root hroot
        rw [panics_ofExit_bind, Exit.orPanic_eq_panic] at hpanic
        rcases hpanic with hrow | ⟨row, _, hpanic⟩
        · exact ⟨rfl, hrequests, ⟨root, hroot⟩, blockMetadata?_noticeKeccaks_eq_none.1 hrow⟩
        · refine absurd hpanic ((Calm.of_total (total_promoteSyncedMetadata row)).bind (fun _ =>
            (Calm.of_total (.modifyMem _)).bind fun _ =>
              (Calm.of_total (total_handleArchiveNotices cfg notices)).bind fun _ =>
                (calm_storeUndecidedProposal _).bind fun _ => .of_total (.pure _)) _)
      · cases hpanic
    · rintro ⟨-, hrequests, ⟨root, hroot⟩, hlarge⟩
      refine ⟨(), hrequests, ?_⟩
      rw [hroot]
      exact panics_ofExit_bind.2 (.inl (Exit.orPanic_eq_panic.2
        (blockMetadata?_noticeKeccaks_eq_none.2 hlarge)))

/-- **When a synced package does not panic**: if it comes to building its row, the row can be built.
That is, a `Full` package without sidecars lists no commitments, and a `MetadataOnly` package with a
payload no more than a row can count. -/
theorem synced_package_calm {package : SyncedValuePackage} :
    ¬ Panics (processSyncedPackage cfg slot.height slot.round proposer package) m ↔
      package.Buildable cfg m.disk slot.height := by
  rw [not_iff_comm]
  cases package with
  | full value bytes sidecars requests notices => exact panics_processSyncedFull.symm
  | metadataOnly value notices payload requests => exact panics_processSyncedMetadataOnly.symm

end Panic

namespace Sample

/-- A value that is none: its id is not the hash of its metadata, its counts are not those of its
commitments, and its header is of another block than the payload it is sent with. -/
def freeValue : Value := ⟨999, ⟨fromPayload oracles (payload 1 0 1 0) none, [], 5, 77⟩, []⟩

/-- A package with that value. -/
def freePackage : SyncedValuePackage := .full freeValue [1, 5, 1, 0] [] [] []

/-- A package that lists a commitment and carries no sidecar. -/
def bareSidecars : SyncedValuePackage := .full blobValue [1, 0, 1, 1] [] [] []

end Sample

open Sample in
/-- **A package that panics** on a node that has just started. -/
theorem synced_package_panics :
    bareSidecars.transmit = bareSidecars ∧
    ((processSyncedPackage (config 1) 1 (.some 0) ⟨2⟩ bareSidecars).run
      (node 1 [.start]).machine).exit = .panic := by
  decide +kernel

end Ultramarine
