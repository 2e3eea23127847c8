import Ultramarine.App.Effects

/-!
# What is left undecided

Two places remove the undecided blob metadata and blobs of rounds that were not decided.

`commit` drops the rounds of its height that memory tracks. A round is tracked by some of the writers
only, and by none after a restart; and a height that is decided already is not cleaned up at all.
`commit_clears_iff` says what is left in terms of the rounds tracked when the commit begins.

A start removes the undecided metadata below the height the node was configured with, which is not the
height the store has reached. `startup_clears_iff` compares the two.
-/

namespace Ultramarine

open Lib Prog

/-! ## Rounds that were not decided -/

/-- Nothing undecided is stored for another round of the height: no metadata, no blob. -/
structure Disk.Cleared (slot : Slot) (d : Disk) : Prop where
  metadata : ∀ r, r ≠ slot.round → d.store.blobMetadataUndecided[Slot.mk slot.height r]? = none
  blobs : ∀ (k : BlobKey) (s : BlobSidecar), d.blobs.undecided[k]? = some s →
    k.height = slot.height → k.round = slot.round.asI64

/-- The round is dropped by the clean-up of a commit of the slot. -/
def Memory.Drops (mem : Memory) (slot : Slot) (r : Round) : Prop :=
  r ∈ mem.trackedRounds slot.height ∧ r ≠ slot.round ∧ r ≠ .nil

/-- The other rounds of the height for which something is stored are tracked. -/
structure Tracked (slot : Slot) (m : Machine Disk Memory) : Prop where
  metadata : ∀ r row, m.disk.store.blobMetadataUndecided[Slot.mk slot.height r]? = some row →
    r ≠ slot.round → m.mem.Drops slot r
  blobs : ∀ (k : BlobKey) (s : BlobSidecar), m.disk.blobs.undecided[k]? = some s →
    k.height = slot.height → k.round ≠ slot.round.asI64 → ∃ r, m.mem.Drops slot r ∧ r.asI64 = k.round

section Commit

variable {cfg : Config} {c : CommitCertificate} {m m' : Machine Disk Memory}

/-- Dropping a list of rounds removes their rows and their blobs, and no others. -/
theorem undecided_dropFailedRound {height : Height} {rs : List Round}
    (h : Returns (Prog.forEach (dropFailedRound height) rs) m () m') :
    (∀ slot : Slot, m'.disk.store.blobMetadataUndecided[slot]? =
      if slot.height = height ∧ slot.round ∈ rs then none
      else m.disk.store.blobMetadataUndecided[slot]?) ∧
    ∀ k : BlobKey, m'.disk.blobs.undecided[k]? =
      if k.height = height ∧ ∃ r ∈ rs, r.asI64 = k.round then none
      else m.disk.blobs.undecided[k]? := by
  induction rs generalizing m with
  | nil =>
    cases returns_forEach_nil.1 h
    simp
  | cons r rs ih =>
    obtain ⟨m₁, hr, hrs⟩ := returns_forEach_cons.1 h
    unfold dropFailedRound at hr
    rw [returns_storeWrite_bind, returns_dropRound] at hr
    obtain ⟨hrows, hblobs⟩ := ih hrs
    have hrow : ∀ slot : Slot, m₁.disk.store.blobMetadataUndecided[slot]? =
        if Slot.mk height r = slot then none else m.disk.store.blobMetadataUndecided[slot]? := by
      intro slot
      rw [hr]
      exact Table.getElem?_erase_eq _ _ _
    have hblob : ∀ k : BlobKey, m₁.disk.blobs.undecided[k]? =
        if k.height = height ∧ k.round = r.asI64 then none else m.disk.blobs.undecided[k]? := by
      intro k
      rw [hr]
      exact BlobStore.undecided_withoutRound _ _ _ _
    refine ⟨fun slot => ?_, fun k => ?_⟩
    · rw [hrows, hrow]
      by_cases hheight : slot.height = height
      · by_cases hround : slot.round = r
        · simp [hheight, hround, Slot.ext_iff]
        · have hne : Slot.mk height r ≠ slot := fun heq => hround (congrArg Slot.round heq).symm
          simp [hheight, hround, hne]
      · have hne : Slot.mk height r ≠ slot := fun heq => hheight (congrArg Slot.height heq).symm
        simp [hheight, hne]
    · rw [hblobs, hblob]
      by_cases hheight : k.height = height
      · by_cases hround : r.asI64 = k.round
        · simp [hheight, hround]
        · simp [hheight, hround, Ne.symm hround]
      · simp [hheight]

/-- A machine that tracks the rounds of the height drops everything undecided but the round. -/
theorem cleared_dropFailedRounds {slot : Slot}
    (h : Returns (dropFailedRounds slot.height slot.round) m () m') :
    m'.disk.Cleared slot ↔ Tracked slot m := by
  unfold dropFailedRounds at h
  rw [returns_getMem_bind] at h
  obtain ⟨_, m₁, hloop, hforget⟩ := returns_bind.1 h
  rw [returns_modifyMem] at hforget
  subst hforget
  obtain ⟨hrows, hblobs⟩ := undecided_dropFailedRound hloop
  have hdrops : ∀ r, r ∈ ((m.mem.trackedRounds slot.height).filter
      fun r => r ≠ slot.round ∧ r ≠ .nil) ↔ m.mem.Drops slot r := by
    intro r
    simp [Memory.Drops]
  constructor
  · intro hclear
    refine ⟨fun r row hrow hne => ?_, fun k s hk hheight hne => ?_⟩
    · have hnone := hclear.metadata r hne
      rw [hrows] at hnone
      split at hnone
      · rename_i hmem
        exact (hdrops r).1 hmem.2
      · rw [hrow] at hnone
        cases hnone
    · by_contra hdrop
      refine hne (hclear.blobs k s ?_ hheight)
      rw [hblobs, if_neg ?_]
      · exact hk
      · rintro ⟨-, r, hr, hround⟩
        exact hdrop ⟨r, (hdrops r).1 hr, hround⟩
  · intro htracked
    refine ⟨fun r hne => ?_, fun k s hk hheight => ?_⟩
    · rw [hrows]
      split
      · rfl
      · rename_i hmem
        cases hrow : m.disk.store.blobMetadataUndecided[Slot.mk slot.height r]? with
        | none => rfl
        | some row => exact absurd ⟨rfl, (hdrops r).2 (htracked.metadata r row hrow hne)⟩ hmem
    · by_contra hne
      rw [hblobs] at hk
      split at hk
      · cases hk
      · rename_i hnot
        obtain ⟨r, hr, hround⟩ := htracked.blobs k s hk hheight hne
        exact hnot ⟨hheight, r, (hdrops r).2 hr, hround⟩

/-- Whether the other rounds are cleared depends on their metadata and on the undecided blobs. -/
theorem Disk.Cleared.congr {slot : Slot} {d d' : Disk}
    (hrows : ∀ r, r ≠ slot.round → d'.store.blobMetadataUndecided[Slot.mk slot.height r]? =
      d.store.blobMetadataUndecided[Slot.mk slot.height r]?)
    (hblobs : d'.blobs.undecided = d.blobs.undecided) : d'.Cleared slot ↔ d.Cleared slot := by
  constructor
  · rintro ⟨hmetadata, hkeys⟩
    refine ⟨fun r hr => ?_, fun k s hk => hkeys k s (by rwa [hblobs])⟩
    rw [← hrows r hr]
    exact hmetadata r hr
  · rintro ⟨hmetadata, hkeys⟩
    refine ⟨fun r hr => ?_, fun k s hk => hkeys k s (by rwa [← hblobs])⟩
    rw [hrows r hr]
    exact hmetadata r hr

/-- The end of a commit leaves what is undecided. -/
theorem cleared_finishCommit {slot : Slot} {height : Height}
    (h : Returns (finishCommit height) m () m') :
    m'.disk.Cleared slot ↔ m.disk.Cleared slot := by
  have hsame := ((finishCommit height).disk_invariant (I := fun d =>
    d.store.blobMetadataUndecided = m.disk.store.blobMetadataUndecided ∧
      d.blobs.undecided = m.disk.blobs.undecided) ⟨rfl, rfl⟩
    ((finishCommit_prunes height m).mono fun m' w hw hm' => by
      cases hw with
      | delete h hi => exact hm'
      | pruned h => exact hm')).2
  rw [h.2] at hsame
  exact Disk.Cleared.congr (fun r _ => by rw [hsame.1]) hsame.2

/-- A first commit clears the height if and only if its other rounds are tracked. -/
theorem cleared_commitProposal {p : ProposedValue}
    (h : Returns (commitProposal cfg c p) m () m') :
    m'.disk.Cleared ⟨c.height, c.round⟩ ↔ Tracked ⟨c.height, c.round⟩ m := by
  unfold commitProposal commitCleanup at h
  obtain ⟨_, m₁, htables, hcleanup⟩ := returns_bind.1 h
  obtain ⟨-, -, metadata, -, rfl⟩ := returns_commitTables.1 htables
  rw [returns_getMem_bind, returns_storeWrite_bind] at hcleanup
  have hclear : m'.disk.Cleared ⟨c.height, c.round⟩ ↔ Tracked ⟨c.height, c.round⟩ _ :=
    cleared_dropFailedRounds hcleanup
  -- the four transactions and the pruning leave the rows of the other rounds, and track the same
  have hrow : ∀ r, r ≠ c.round →
      (m.disk.store.committed cfg c p).blobMetadataUndecided[Slot.mk c.height r]? =
        m.disk.store.blobMetadataUndecided[Slot.mk c.height r]? := by
    intro r hr
    rw [Store.committed_undecidedRow, if_neg]
    exact fun heq => hr (congrArg Slot.round heq).symm
  rw [hclear]
  constructor
  · rintro ⟨hmetadata, hblobs⟩
    exact ⟨fun r row hget hne => hmetadata r row ((hrow r hne).trans hget) hne, hblobs⟩
  · rintro ⟨hmetadata, hblobs⟩
    exact ⟨fun r row hget hne => hmetadata r row ((hrow r hne).symm.trans hget) hne, hblobs⟩

/-- What a repeated commit clears: it drops nothing, but a round without blobs promotes those of every
other round. -/
structure Disk.ReplayClears (slot : Slot) (d : Disk) : Prop where
  metadata : ∀ r, r ≠ slot.round → d.store.blobMetadataUndecided[Slot.mk slot.height r]? = none
  blobs : d.blobs.getUndecidedBlobs slot.height slot.round.asI64 ≠ [] →
    ∀ (k : BlobKey) (s : BlobSidecar), d.blobs.undecided[k]? = some s → k.height = slot.height →
      k.round = slot.round.asI64

theorem cleared_commitReplay (h : Returns (commitReplay cfg c) m () m') :
    m'.disk.Cleared ⟨c.height, c.round⟩ ↔ m.disk.ReplayClears ⟨c.height, c.round⟩ := by
  have hrows := ((commitReplay cfg c).disk_invariant (I := fun d => ∀ r, r ≠ c.round →
    d.store.blobMetadataUndecided[Slot.mk c.height r]? =
      m.disk.store.blobMetadataUndecided[Slot.mk c.height r]?) (fun _ _ => rfl)
    (commitReplay_writes (fun _ _ hd => hd) (fun _ _ _ hd => hd) fun m' hd r hr => by
      refine (Store.undecidedRow_apply_mark m'.disk.store ⟨c.height, c.round⟩
        ⟨c.height, r⟩).trans ?_
      rw [if_neg fun heq => hr (congrArg Slot.round heq).symm]
      exact hd r hr)).2
  rw [h.2] at hrows
  have hblobs := (returns_commitReplay h).1
  constructor
  · rintro ⟨hmetadata, hkeys⟩
    refine ⟨fun r hr => ?_, fun hround k s hk hheight => ?_⟩
    · rw [← hrows r hr]
      exact hmetadata r hr
    · by_contra hne
      refine hne (hkeys k s ?_ hheight)
      rw [hblobs, BlobStore.undecided_promote_of_round hround, if_neg fun heq => hne heq.2]
      exact hk
  · rintro ⟨hmetadata, hkeys⟩
    refine ⟨fun r hr => ?_, fun k s hk hheight => ?_⟩
    · rw [hrows r hr]
      exact hmetadata r hr
    · rw [hblobs] at hk
      by_cases hround : m.disk.blobs.getUndecidedBlobs c.height c.round.asI64 = []
      · exact absurd hheight (BlobStore.noUndecided_promote_of_empty hround k s hk)
      · rw [BlobStore.undecided_promote_of_round hround] at hk
        split at hk
        · cases hk
        · exact hkeys hround k s hk hheight

end Commit

/-- What is needed for a commit of the slot to leave nothing of the other rounds. -/
def Clearable (slot : Slot) (m : Machine Disk Memory) : Prop :=
  match m.disk.store.undecidedProposals[slot]? with
  | some _ => Tracked slot m
  | none => m.disk.ReplayClears slot

namespace Sample

/-- Validator 2 proposes a block for the second round of height 1. -/
def secondRound : List Label := receive (stream 2 [0] 1 (.some 1) (payload 1 5 1 0))

/-- The certificate of that block. -/
def secondRoundCertificate : CommitCertificate :=
  certificate 1 (.some 1) (value (payload 1 5 1 0))

/-- The first round of validator 1, without blobs, fails. -/
def bloblessRound : List Label := proposeRun ++ secondRound

/-- The first round, with a blob, fails; the node restarts in between. -/
def forgottenRound : List Label :=
  proposeBlob ++ [.crash (.startedRound 1 (.some 1)) 0, .start] ++ secondRound

end Sample

section Startup

variable {cfg : Config} {m m' : Machine Disk Memory}

theorem undecided_hydrateBlobParentRoot (h : Returns (hydrateBlobParentRoot cfg) m () m') :
    m'.disk.store.blobMetadataUndecided = m.disk.store.blobMetadataUndecided ∧
      m'.mem.currentHeight = m.mem.currentHeight := by
  unfold hydrateBlobParentRoot cacheBlobRoot at h
  rw [returns_getDisk_bind, returns_ofExit_bind] at h
  obtain ⟨latest, -, h⟩ := h
  cases latest with
  | some e =>
    rw [returns_modifyMem] at h
    subst h
    exact ⟨rfl, rfl⟩
  | none =>
    rw [returns_storeWrite_bind, returns_modifyMem] at h
    subst h
    refine ⟨?_, rfl⟩
    show (m.disk.store.apply .insertGenesisBlobMetadata).blobMetadataUndecided = _
    simp only [Store.apply]
    split <;> rfl

theorem undecided_foldl_delete_rows (slots : List Slot) (d : Disk) :
    ((slots.map fun slot => Write.store (.deleteBlobMetadataUndecided slot)).foldl
      (fun d w => DiskOp.apply w d) d).store.blobMetadataUndecided =
        Table.eraseAll d.store.blobMetadataUndecided slots := by
  induction slots generalizing d with
  | nil => rfl
  | cons slot slots ih => exact ih (DiskOp.apply (Write.store (.deleteBlobMetadataUndecided slot)) d)

/-- The rows that are removed: keys are ordered by height, so the scan finds all rows below the
current height. -/
theorem undecided_cleanupStaleBlobMetadata (h : Returns cleanupStaleBlobMetadata m () m')
    (slot : Slot) : m'.disk.store.blobMetadataUndecided[slot]? =
      if slot.height < m.mem.currentHeight then none
      else m.disk.store.blobMetadataUndecided[slot]? := by
  have hmem : slot ∈ m.disk.store.undecidedBlobMetadataBefore m.mem.currentHeight ↔
      (m.disk.store.blobMetadataUndecided[slot]?).isSome ∧ slot.height < m.mem.currentHeight := by
    refine (Table.mem_takeWhile_keys fun a b hlt hb => ?_).trans (by rw [decide_eq_true_iff])
    have hle : a.height ≤ b.height := by
      have hcompare : (compare a.height b.height).then (compare a.round b.round) = .lt := hlt
      rw [Ordering.then_eq_lt, Nat.compare_eq_lt, Nat.compare_eq_eq] at hcompare
      rcases hcompare with hless | ⟨heq, -⟩
      · exact hless.le
      · exact heq.le
    rw [decide_eq_true_iff] at hb ⊢
    exact lt_of_le_of_lt hle hb
  unfold cleanupStaleBlobMetadata at h
  rw [returns_get_bind, returns_writeAll] at h
  subst h
  simp only [undecided_foldl_delete_rows, Table.getElem?_eraseAll, hmem]
  cases hrow : m.disk.store.blobMetadataUndecided[slot]? with
  | none => simp
  | some row => simp

theorem undecided_startCleanup {d : Disk}
    (h : Returns (startCleanup cfg) (bootMachine cfg d) () m') (slot : Slot) :
    m'.disk.store.blobMetadataUndecided[slot]? =
      if slot.height < cfg.startHeight then none else d.store.blobMetadataUndecided[slot]? := by
  unfold startCleanup at h
  rw [returns_modifyMem_bind] at h
  obtain ⟨_, m₁, hhydrate, hcleanup⟩ := returns_bind.1 h
  obtain ⟨hrows, hheight⟩ := undecided_hydrateBlobParentRoot hhydrate
  rw [undecided_cleanupStaleBlobMetadata hcleanup, hrows, hheight]
  rfl

end Startup

/-- **What a start leaves of stale metadata.** Of a store whose highest decided height is `height`, a
start removes exactly the undecided metadata up to that height if and only if the height it was
configured with lies between that metadata and the rest. -/
theorem startup_clears_iff {cfg : Config} {d : Disk} {m' : Machine Disk Memory}
    (h : Returns (startCleanup cfg) (bootMachine cfg d) () m') {height : Height}
    (_ : d.store.maxDecidedValueHeight = some height) :
    ((∀ slot : Slot, slot.height ≤ height → m'.disk.store.blobMetadataUndecided[slot]? = none) ∧
      ∀ slot : Slot, height < slot.height → m'.disk.store.blobMetadataUndecided[slot]? =
        d.store.blobMetadataUndecided[slot]?) ↔
      ∀ (slot : Slot) (row : BlobMetadata), d.store.blobMetadataUndecided[slot]? = some row →
        (slot.height ≤ height ↔ slot.height < cfg.startHeight) := by
  have hrows := undecided_startCleanup h
  constructor
  · rintro ⟨hlow, hhigh⟩ slot row hrow
    constructor
    · intro hle
      by_contra hge
      have hnone := hlow slot hle
      rw [hrows, if_neg hge, hrow] at hnone
      cases hnone
    · intro hlt
      by_contra hgt
      have hkept := hhigh slot (not_le.1 hgt)
      rw [hrows, if_pos hlt, hrow] at hkept
      cases hkept
  · intro hbetween
    refine ⟨fun slot hle => ?_, fun slot hgt => ?_⟩
    · rw [hrows]
      cases hrow : d.store.blobMetadataUndecided[slot]? with
      | none => simp
      | some row => exact if_pos ((hbetween slot row hrow).1 hle)
    · rw [hrows]
      cases hrow : d.store.blobMetadataUndecided[slot]? with
      | none => simp
      | some row => exact if_neg fun hlt => absurd ((hbetween slot row hrow).2 hlt) (not_le.2 hgt)

namespace Sample

/-- Height 1 is committed in its second round, height 2 is proposed, the node stops. -/
def stoppedTwo : List Label :=
  bloblessRound ++ [.handle (.decided secondRoundCertificate script),
    .handle (.getValue 2 (.some 0) gate (some ⟨payload 2 0 1 0, [], none⟩)),
    .crash (.startedRound 2 (.some 1)) 0]

/-- The node with another start height. -/
def configAt (height : Height) : Config := { config 1 with startHeight := height }

/-- What its start makes of the disk. -/
def startedAt (height : Height) : Outcome Disk Memory Write Err Unit :=
  (startCleanup (configAt height)).run (bootMachine (configAt height) (node 1 stoppedTwo).disk)

end Sample

open Sample in
/-- Configured with the height after the last decided one, a start cleans up exactly. -/
theorem startup_clears_iff_next :
    (node 1 stoppedTwo).disk.store.maxDecidedValueHeight = some 1 ∧
      (∀ slot : Slot, slot.height ≤ 1 →
        (startedAt 2).state.disk.store.blobMetadataUndecided[slot]? = none) ∧
      ∀ slot : Slot, 1 < slot.height →
        (startedAt 2).state.disk.store.blobMetadataUndecided[slot]? =
          (node 1 stoppedTwo).disk.store.blobMetadataUndecided[slot]? := by
  have hrun : (startedAt 2).exit = .ok () ∧
      (node 1 stoppedTwo).disk.store.maxDecidedValueHeight = some 1 ∧
      (node 1 stoppedTwo).disk.store.blobMetadataUndecided.keys =
        [⟨1, .some 0⟩, ⟨2, .some 0⟩] := by
    decide +kernel
  obtain ⟨hexit, hmax, hrows⟩ := hrun
  refine ⟨hmax, (startup_clears_iff ⟨hexit, rfl⟩ hmax).2 fun slot row hrow => ?_⟩
  have hmem := Table.mem_keys.2 (Option.isSome_iff_exists.2 ⟨row, hrow⟩)
  rw [hrows] at hmem
  rcases List.mem_pair.1 hmem with rfl | rfl
  · exact ⟨fun _ => by decide, fun _ => by decide⟩
  · exact ⟨fun h => absurd h (by decide), fun h => absurd h (by decide)⟩

open Sample in
/-- Configured with height 1, a start leaves the stale metadata of height 1; configured with height 3,
it removes the metadata of height 2, which is not decided. -/
theorem startup_clears_otherwise :
    Node.Reachable (config 1) (fun _ _ => True) (node 1 stoppedTwo) ∧
      (node 1 stoppedTwo).disk.store.maxDecidedValueHeight = some 1 ∧
      (startedAt 1).exit = .ok () ∧
      ((startedAt 1).state.disk.store.blobMetadataUndecided[Slot.mk 1 (.some 0)]?).isSome ∧
      (startedAt 3).exit = .ok () ∧
      ((node 1 stoppedTwo).disk.store.blobMetadataUndecided[Slot.mk 2 (.some 0)]?).isSome ∧
      (startedAt 3).state.disk.store.blobMetadataUndecided[Slot.mk 2 (.some 0)]? = none :=
  reached (by decide +kernel)

end Ultramarine
