import Ultramarine.App.Run

/-!
# The blobs of a decided height

A decision imports a block for a list of blob hashes and leaves the blobs of the height in the
decided column family. It promotes the blobs of its round; if the round has none, it promotes those
of every round of the height, also when the block has no blobs at all. A replay promotes once more.

`Disk.BlobsFit` says when that gives the blobs of the block and no others.

Results:

* `decided_blobs_exact`: if the blobs fit and the height is not queued for pruning, the decided
  blobs are those the decision was checked against, one for each hash and in order.
-/

namespace Ultramarine

open Lib Ssz Prog

variable {cfg : Config} {c : CommitCertificate} {m m' : Machine Disk Memory}

/-- The blobs stored at a height are the ones a decision of the slot needs: none at all for a block
without blobs; nothing decided before that the round does not replace; and for a replay, which
promotes without looking at the block, nothing undecided but the blobs of the round. -/
structure Disk.BlobsFit (slot : Slot) (hashes : List B256) (d : Disk) : Prop where
  blobless : hashes = [] →
    d.blobs.NoUndecided slot.height ∧ d.blobs.getDecidedBlobs slot.height = []
  stale : d.blobs.getUndecidedBlobs slot.height slot.round.asI64 ≠ [] →
    ∀ i, (d.blobs.decided[BlobIndexKey.mk slot.height i]?).isSome →
      ∃ s ∈ d.blobs.getUndecidedBlobs slot.height slot.round.asI64, s.index = i
  replay : d.store.undecidedProposals[slot]? = none →
    ∀ (k : BlobKey) (s : BlobSidecar), d.blobs.undecided[k]? = some s → k.height = slot.height →
      k.round = slot.round.asI64

/-! ## The effect of a commit on the decided blobs -/

/-- The decided blobs of a height after its commit: as they were, or promoted once more by a
replay. -/
theorem getDecidedBlobs_commit (hr : Returns (commit cfg c) m () m')
    (hqueue : c.height ∉ m.mem.pendingPruneHeights) :
    m'.disk.blobs.getDecidedBlobs c.height =
      if m.disk.store.undecidedProposals[Slot.mk c.height c.round]? = none then
        (m.disk.blobs.promote c.height c.round.asI64).getDecidedBlobs c.height
      else m.disk.blobs.getDecidedBlobs c.height := by
  obtain ⟨m₁, hfinish, ⟨p, hp, hfirst⟩ | ⟨hp, _, hreplay⟩⟩ := returns_commit.1 hr
  · obtain ⟨_, _, metadata, _, hsame, hmem⟩ := returns_commitProposal hfirst
    have hqueue₁ : c.height ∉ m₁.mem.pendingPruneHeights := by
      rw [hmem]
      exact hqueue
    have hend := sameAt_finishCommit_of_not_queued hqueue₁ hfinish
    rw [hend.getDecidedBlobs, (hsame c.height).getDecidedBlobs, if_neg (by rw [hp]; simp)]
  · obtain ⟨hblobs, hmem⟩ := returns_commitReplay hreplay
    have hqueue₁ : c.height ∉ m₁.mem.pendingPruneHeights := by
      rw [hmem]
      exact hqueue
    have hend := sameAt_finishCommit_of_not_queued hqueue₁ hfinish
    rw [hend.getDecidedBlobs, hblobs, if_pos hp]

/-! ## Promotion of blobs that fit -/

/-- The blobs of a decision that fit are the decided ones of the height once it is imported. -/
theorem getDecidedBlobs_forImport {d : Disk} {slot : Slot} {bytes : Bytes} {check : DecidedCheck}
    (hcheck : checkDecided cfg d slot bytes = .ok check)
    (hfit : d.BlobsFit slot check.versionedHashes) :
    (d.blobs.forImport slot check.alreadyDecided).getDecidedBlobs slot.height =
        d.blobs.forDecision slot ∧
      versionedHashesFromSidecars cfg.oracles (d.blobs.forDecision slot) =
        check.versionedHashes := by
  obtain ⟨payload, txHashes, _, _, _, ⟨hnil, rfl⟩ | ⟨hne, hhashes, rfl⟩⟩ :=
    checkDecided_eq_ok.1 hcheck
  · obtain ⟨hnone, hdecided⟩ := hfit.blobless rfl
    have hfor : d.blobs.forDecision slot = [] := by
      unfold BlobStore.forDecision
      rw [hnone.getUndecidedBlobs, hdecided]
    rw [hfor]
    refine ⟨?_, rfl⟩
    unfold BlobStore.forImport
    rw [if_neg (by simp), BlobStore.promote_of_none hnone, hdecided]
  · refine ⟨?_, hhashes⟩
    by_cases hround : d.blobs.getUndecidedBlobs slot.height slot.round.asI64 = []
    · -- promoted before: the decided blobs are the ones that were checked
      unfold BlobStore.forImport
      rw [if_pos (BlobStore.alreadyDecided_of_empty hround hhashes hne),
        BlobStore.forDecision_of_empty hround]
    · obtain ⟨hfor, hdone⟩ := BlobStore.forDecision_of_round hround
      unfold BlobStore.forImport
      rw [if_neg (by simp [hdone]), hfor]
      exact BlobStore.getDecidedBlobs_promote hround (hfit.stale hround)

/-- **The blobs of a decided height.** After a decision, or a replay of it, whose blobs fit and
whose height is not queued for pruning, the blobs of the height are those the decision was checked
against: the blobs of its round, or the ones decided before. There is one for each hash of the
block, in order, and none of another round. -/
theorem decided_blobs_exact {bytes : Bytes} {script : EngineScript} {out : DecidedOutcome}
    {check : DecidedCheck} (hr : Returns (processDecidedCertificate cfg c bytes script) m out m')
    (hcheck : checkDecided cfg m.disk ⟨c.height, c.round⟩ bytes = .ok check)
    (hqueue : c.height ∉ m.mem.pendingPruneHeights)
    (hfit : m.disk.BlobsFit ⟨c.height, c.round⟩ check.versionedHashes) :
    versionedHashesFromSidecars cfg.oracles (m'.disk.blobs.getDecidedBlobs c.height) =
        check.versionedHashes ∧
      m'.disk.blobs.getDecidedBlobs c.height =
        m.disk.blobs.forDecision ⟨c.height, c.round⟩ := by
  obtain ⟨check', m₁, m₂, hcheck', _, hdisk₁, hmem₁, hcommit, hdisk, _⟩ := processDecided_inversion hr
  cases hcheck.symm.trans hcheck'
  obtain ⟨himport, hhashes⟩ := getDecidedBlobs_forImport hcheck hfit
  have hqueue₁ : c.height ∉ m₁.mem.pendingPruneHeights := by
    obtain ⟨_, _, _, _, hmem⟩ := hmem₁
    rw [hmem]
    exact hqueue
  have hafter : m'.disk.blobs.getDecidedBlobs c.height =
      m.disk.blobs.forDecision ⟨c.height, c.round⟩ := by
    rw [hdisk, getDecidedBlobs_commit hcommit hqueue₁, hdisk₁]
    split
    · rename_i hreplay
      rw [BlobStore.promote_of_none (noUndecided_forImport hcheck (hfit.replay hreplay))]
      exact himport
    · exact himport
  rw [hafter]
  exact ⟨hhashes, rfl⟩

open Sample in
/-- A synced block with a blob: the blob is there after the decision. -/
theorem decided_blobs_exact_synced :
    ∃ out m', Returns (processDecidedCertificate (config 1) blobCertificate [1, 0, 1, 1] script)
        (node 1 syncBlob).machine out m' ∧
      versionedHashesFromSidecars (config 1).oracles (m'.disk.blobs.getDecidedBlobs 1) =
        [1#8 ++ 9#248] := by
  have hrun : ((processDecidedCertificate (config 1) blobCertificate [1, 0, 1, 1] script).run
        (node 1 syncBlob).machine).exit =
          .ok ⟨executionBlockOfPayload blobBlock, .valid, false, 1, 4, 1, none⟩ ∧
      checkDecided (config 1) (node 1 syncBlob).machine.disk ⟨1, .some 0⟩ [1, 0, 1, 1] =
        .ok ⟨blobBlock, [1#8 ++ 9#248], true⟩ ∧
      1 ∉ (node 1 syncBlob).machine.mem.pendingPruneHeights ∧
      (node 1 syncBlob).machine.disk.blobs.getUndecidedBlobs 1 0 = [] ∧
      (node 1 syncBlob).machine.disk.store.undecidedProposals[Slot.mk 1 (.some 0)]? ≠ none := by
    decide +kernel
  obtain ⟨hexit, hcheck, hqueue, hround, hproposal⟩ := hrun
  exact ⟨_, _, ⟨hexit, rfl⟩, (@decided_blobs_exact (config 1) blobCertificate
    (node 1 syncBlob).machine _ [1, 0, 1, 1] script _ _ ⟨hexit, rfl⟩ hcheck hqueue
    ⟨fun h => absurd h (by decide), fun h => absurd hround h, fun h => absurd h hproposal⟩).1⟩

namespace Sample

/-- Validator 1 proposes a block with a blob, the round fails, and validator 2 proposes a block
without blobs in the next one. -/
def failedRound : List Label :=
  proposeBlob ++ [.handle (.startedRound 1 (.some 1))] ++
    receive (stream 2 [0] 1 (.some 1) (payload 1 5 1 0))

/-- The certificate of the second block. -/
def roundOneCertificate : CommitCertificate := certificate 1 (.some 1) (value (payload 1 5 1 0))

/-- A synced block whose blob is archived before the decision. -/
def archivedRun : List Label := syncBlob ++ [gossip blobNotice]

end Sample

open Sample in
/-- The decision of a block without blobs publishes the blob of the round that failed. And the
decision of a block whose blob is archived already prunes that blob. Both decisions succeed. -/
theorem decided_blobs_inexact :
    (Node.Reachable (config 1) (fun _ _ => True) (node 1 failedRound) ∧
      checkDecided (config 1) (node 1 failedRound).machine.disk ⟨1, .some 1⟩ [1, 5, 1, 0] =
        .ok ⟨payload 1 5 1 0, [], false⟩ ∧
      ((decided (config 1) roundOneCertificate script).run (node 1 failedRound).machine).exit =
        .ok (.start 2) ∧
      (((decided (config 1) roundOneCertificate script).run
        (node 1 failedRound).machine).state.disk.blobs.getDecidedBlobs 1).map (·.kzgCommitment) =
          [⟨1⟩]) ∧
    (Node.Reachable (config 1) (fun _ _ => True) (node 1 archivedRun) ∧
      checkDecided (config 1) (node 1 archivedRun).machine.disk ⟨1, .some 0⟩ [1, 0, 1, 1] =
        .ok ⟨blobBlock, [1#8 ++ 9#248], true⟩ ∧
      ((decided (config 1) blobCertificate script).run (node 1 archivedRun).machine).exit =
        .ok (.start 2) ∧
      ((decided (config 1) blobCertificate script).run
        (node 1 archivedRun).machine).state.disk.blobs.getDecidedBlobs 1 = []) :=
  ⟨reached (by decide +kernel), reached (by decide +kernel)⟩

end Ultramarine
