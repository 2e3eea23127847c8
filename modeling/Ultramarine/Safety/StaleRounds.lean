import Ultramarine.App.Run

/-!
# Stale rounds when deletions fail

`cleanup_stale_round_blobs` deletes what is stored for the stale rounds of a height, and stops
tracking them. Each of its four deletions per round may fail on its own, and `drop_round` may fail
between two rows; a failure is logged and the loop goes on. Here the outcome of every deletion is a
parameter, and `cleanupStaleRoundBlobs` is the case in which none fails (`returns_cleanup_succeeds`).

`stale_cleanup_iff`: whatever fails, only stale rounds of the height are touched; but the rounds that
are no longer tracked have lost their blobs only if nothing failed where there was a blob to delete.
-/

namespace Ultramarine

open Lib Prog

/-! ## The clean-up with its failures -/

/-- How the deletions of one stale round turn out: whether each of the three transactions commits,
and, if `drop_round` fails, how many of its rows it has deleted by then. -/
structure StaleOutcome where
  metadata : Bool
  proposal : Bool
  blockData : Bool
  dropFails : Option Nat

namespace StaleOutcome

/-- No deletion fails. -/
def success : StaleOutcome := ⟨true, true, true, none⟩

/-- The part of a list of rows that `drop_round` gets through. -/
def limit {α : Type} (out : StaleOutcome) (rows : List α) : List α :=
  match out.dropFails with
  | none => rows
  | some n => rows.take n

end StaleOutcome

/-- Delete what is stored for one stale round; whether its blobs were dropped. -/
def dropStaleRoundWith (out : StaleOutcome) (height : Height) (round : Round) : Act Bool := do
  Prog.onlyIf (out.metadata = true) (storeWrite (.deleteBlobMetadataUndecided ⟨height, round⟩))
  Prog.onlyIf (out.proposal = true) (storeWrite (.deleteUndecidedProposal ⟨height, round⟩))
  Prog.onlyIf (out.blockData = true) (storeWrite (.deleteUndecidedBlockData ⟨height, round⟩))
  let d ← getDisk
  Prog.writeAll (out.limit (dropRoundWrites d.blobs height round.asI64))
  pure out.dropFails.isNone

/-- The loop over the stale rounds, with the number of rounds cleaned. A nil round is not a `u32` and
is skipped. -/
def cleanRounds (outs : Round → StaleOutcome) (height : Height) : List Round → Act Nat
  | [] => pure 0
  | r :: rs => do
    if r = .nil then cleanRounds outs height rs
    else
      let dropped ← dropStaleRoundWith (outs r) height r
      let cleaned ← cleanRounds outs height rs
      pure (if dropped then cleaned + 1 else cleaned)

/-- The first round that is not stale. -/
def staleCutoff (currentRound : Round) : Int := currentRound.asI64 - staleRoundBlobRetention

/-- `State::cleanup_stale_round_blobs`, given how the deletions of every round turn out. -/
def cleanupStaleRoundBlobsWith (outs : Round → StaleOutcome) (height : Height)
    (currentRound : Round) : Act Nat := do
  if staleCutoff currentRound ≤ 0 then pure 0
  else
    let mem ← getMem
    let cleaned ← cleanRounds outs height
      ((mem.trackedRounds height).filter fun r => r.asI64 < staleCutoff currentRound)
    Prog.modifyMem fun mem =>
      { mem with
        blobRounds := Table.eraseWhere
          (fun slot => slot.height = height ∧ slot.round.asI64 < staleCutoff currentRound)
          mem.blobRounds }
    pure cleaned

/-! ## What is deleted -/

namespace StaleOutcome

variable (out : StaleOutcome) (slot : Slot)

/-- The store after the deletions of a round. -/
def store (s : Store) : Store :=
  { s with
    blobMetadataUndecided :=
      if out.metadata then s.blobMetadataUndecided.erase slot else s.blobMetadataUndecided
    undecidedProposals :=
      if out.proposal then s.undecidedProposals.erase slot else s.undecidedProposals
    undecidedBlockData :=
      if out.blockData then s.undecidedBlockData.erase slot else s.undecidedBlockData }

/-- The blobs after the deletions of a round. -/
def blobs (b : BlobStore) : BlobStore :=
  (out.limit (b.collectUndecidedEntries slot.height (some slot.round.asI64))).foldl
    (fun b e => b.deleteUndecided e.1) b

/-- The disk after the deletions of a round. -/
def disk (d : Disk) : Disk := ⟨out.store slot d.store, out.blobs slot d.blobs⟩

end StaleOutcome

/-- The disk after the loop. -/
def cleanedDisk (outs : Round → StaleOutcome) (height : Height) (rs : List Round) (d : Disk) : Disk :=
  rs.foldl (fun d r => if r = .nil then d else (outs r).disk ⟨height, r⟩ d) d

variable {height : Height} {r round : Round} {rs : List Round} {m m' : Machine Disk Memory}
  {c : Bool} {k : BlobKey} {mem : Memory} {u : Unit} {α : Type}

section Returns

variable {out : StaleOutcome} {outs : Round → StaleOutcome} {height : Height} {round : Round}
  {m m' : Machine Disk Memory}

theorem foldl_limit (d : Disk) (b : BlobStore) (r : Int) :
    (out.limit (dropRoundWrites b height r)).foldl (fun d w => DiskOp.apply w d) d =
      ⟨d.store, (out.limit (b.collectUndecidedEntries height (some r))).foldl
        (fun b e => b.deleteUndecided e.1) d.blobs⟩ := by
  unfold dropRoundWrites StaleOutcome.limit
  cases out.dropFails with
  | none => exact foldl_dropRoundWrites _ d
  | some n =>
    simp only [← List.map_take]
    exact foldl_dropRoundWrites _ d

theorem returns_deletion_bind {β : Type} {w : StoreWrite} {f : Unit → Act β} {x : β} :
    Returns (Prog.onlyIf (c = true) (storeWrite w) >>= f) m x m' ↔
      Returns (f ()) ⟨⟨if c then m.disk.store.apply w else m.disk.store, m.disk.blobs⟩, m.mem⟩
        x m' := by
  cases c with
  | true =>
    rw [onlyIf_true rfl, returns_storeWrite_bind]
    rfl
  | false =>
    rw [onlyIf_false (by simp), pure_bind]
    rfl

theorem store_of_deletions (out : StaleOutcome) (slot : Slot) (s : Store) :
    (if out.blockData then
      (if out.proposal then
        (if out.metadata then s.apply (.deleteBlobMetadataUndecided slot) else s).apply
          (.deleteUndecidedProposal slot)
      else if out.metadata then s.apply (.deleteBlobMetadataUndecided slot) else s).apply
        (.deleteUndecidedBlockData slot)
    else if out.proposal then
      (if out.metadata then s.apply (.deleteBlobMetadataUndecided slot) else s).apply
        (.deleteUndecidedProposal slot)
    else if out.metadata then s.apply (.deleteBlobMetadataUndecided slot) else s) =
      out.store slot s := by
  obtain ⟨_ | _, _ | _, _ | _, _⟩ := out <;> rfl

theorem returns_dropStaleRoundWith {dropped : Bool} :
    Returns (dropStaleRoundWith out height round) m dropped m' ↔
      out.dropFails.isNone = dropped ∧ ⟨out.disk ⟨height, round⟩ m.disk, m.mem⟩ = m' := by
  unfold dropStaleRoundWith
  rw [returns_deletion_bind, returns_deletion_bind, returns_deletion_bind, returns_getDisk_bind,
    returns_bind]
  simp only [returns_writeAll, returns_pure, foldl_limit, store_of_deletions]
  constructor
  · rintro ⟨_, m₁, rfl, hdropped, rfl⟩
    exact ⟨hdropped, rfl⟩
  · rintro ⟨hdropped, rfl⟩
    exact ⟨(), _, rfl, hdropped, rfl⟩

/-- The loop always returns, and changes the disk only. -/
theorem returns_cleanRounds (outs : Round → StaleOutcome) (height : Height) (rs : List Round)
    (m : Machine Disk Memory) :
    ∃ n, Returns (cleanRounds outs height rs) m n ⟨cleanedDisk outs height rs m.disk, m.mem⟩ := by
  induction rs generalizing m with
  | nil => exact ⟨0, returns_pure.2 ⟨rfl, rfl⟩⟩
  | cons r rs ih =>
    unfold cleanRounds cleanedDisk
    rw [List.foldl_cons]
    by_cases hnil : r = .nil
    · rw [if_pos hnil, if_pos hnil]
      exact ih m
    · rw [if_neg hnil, if_neg hnil]
      obtain ⟨n, hrest⟩ := ih ⟨(outs r).disk ⟨height, r⟩ m.disk, m.mem⟩
      refine ⟨if (outs r).dropFails.isNone then n + 1 else n, ?_⟩
      refine returns_bind.2 ⟨_, _, returns_dropStaleRoundWith.2 ⟨rfl, rfl⟩, ?_⟩
      exact returns_bind.2 ⟨n, _, hrest, returns_pure.2 ⟨rfl, rfl⟩⟩

/-- The tracking after a clean-up. -/
def Memory.forgetStale (height : Height) (cutoff : Int) (mem : Memory) : Memory :=
  { mem with
    blobRounds := Table.eraseWhere
      (fun slot => slot.height = height ∧ slot.round.asI64 < cutoff) mem.blobRounds }

/-- The clean-up always returns. -/
theorem returns_cleanupWith (outs : Round → StaleOutcome) (height : Height) (round : Round)
    (m : Machine Disk Memory) :
    ∃ n, Returns (cleanupStaleRoundBlobsWith outs height round) m n
      (if staleCutoff round ≤ 0 then m
      else ⟨cleanedDisk outs height ((m.mem.trackedRounds height).filter
          fun r => r.asI64 < staleCutoff round) m.disk,
        m.mem.forgetStale height (staleCutoff round)⟩) := by
  unfold cleanupStaleRoundBlobsWith
  split
  · exact ⟨0, returns_pure.2 ⟨rfl, rfl⟩⟩
  · obtain ⟨n, hloop⟩ := returns_cleanRounds outs height
      ((m.mem.trackedRounds height).filter fun r => r.asI64 < staleCutoff round) m
    refine ⟨n, returns_getMem_bind.2 (returns_bind.2 ⟨n, _, hloop, ?_⟩)⟩
    exact returns_modifyMem_bind.2 (returns_pure.2 ⟨rfl, rfl⟩)

end Returns

/-! ## The clean-up without failures -/

theorem returns_dropStaleRound :
    Returns (dropStaleRound height round) m u m' ↔
      ⟨StaleOutcome.success.disk ⟨height, round⟩ m.disk, m.mem⟩ = m' := by
  unfold dropStaleRound
  rw [returns_storeWrite_bind, returns_storeWrite_bind, returns_storeWrite_bind, returns_dropRound]
  exact eq_comm

theorem returns_dropStaleRounds :
    Returns (Prog.forEach (dropStaleRound height) (rs.filter fun r => r ≠ .nil)) m u m' ↔
      ⟨cleanedDisk (fun _ => .success) height rs m.disk, m.mem⟩ = m' := by
  induction rs generalizing m with
  | nil => exact returns_forEach_nil
  | cons r rs ih =>
    unfold cleanedDisk
    rw [List.foldl_cons]
    by_cases hnil : r = .nil
    · rw [List.filter_cons_of_neg (by simp [hnil]), if_pos hnil]
      exact ih
    · rw [List.filter_cons_of_pos (by simp [hnil]), if_neg hnil, returns_forEach_cons]
      simp only [returns_dropStaleRound, ih]
      constructor
      · rintro ⟨m₁, rfl, rfl⟩
        rfl
      · rintro rfl
        exact ⟨_, rfl, rfl⟩

/-- **Where no deletion fails, this is `cleanup_stale_round_blobs`.** -/
theorem returns_cleanup_succeeds :
    Returns (cleanupStaleRoundBlobs height round) m () m' ↔
      ∃ n, Returns (cleanupStaleRoundBlobsWith (fun _ => .success) height round) m n m' := by
  obtain ⟨n, hwith⟩ := returns_cleanupWith (fun _ => .success) height round m
  have hunique : (∃ n, Returns (cleanupStaleRoundBlobsWith (fun _ => .success) height round) m n m') ↔
      (if staleCutoff round ≤ 0 then m
      else ⟨cleanedDisk (fun _ => .success) height ((m.mem.trackedRounds height).filter
          fun r => r.asI64 < staleCutoff round) m.disk,
        m.mem.forgetStale height (staleCutoff round)⟩) = m' := by
    constructor
    · rintro ⟨_, -, rfl⟩
      exact hwith.2.symm
    · rintro rfl
      exact ⟨n, hwith⟩
  have hfilter : (m.mem.trackedRounds height).filter
      (fun r => r.asI64 < staleCutoff round ∧ r ≠ .nil) =
      ((m.mem.trackedRounds height).filter fun r => r.asI64 < staleCutoff round).filter
        fun r => r ≠ .nil := by
    rw [List.filter_filter]
    refine List.filter_congr fun r _ => ?_
    rw [Bool.decide_and, Bool.and_comm]
  rw [hunique]
  unfold cleanupStaleRoundBlobs
  change Returns (if staleCutoff round ≤ 0 then _ else _) m () m' ↔ _
  split
  · rw [returns_pure]
    exact and_iff_right rfl
  · rw [returns_getMem_bind, returns_bind]
    change (∃ a m₁, Returns (Prog.forEach _ ((m.mem.trackedRounds height).filter
      fun r => r.asI64 < staleCutoff round ∧ r ≠ .nil)) m a m₁ ∧ _) ↔ _
    simp only [hfilter, returns_dropStaleRounds, returns_modifyMem]
    constructor
    · rintro ⟨_, m₁, rfl, rfl⟩
      rfl
    · rintro rfl
      exact ⟨(), _, rfl, rfl⟩

/-! ## What is touched -/

/-- Only what is stored for stale rounds of the height may differ: nothing that is decided, no other
height, no round from the cutoff on. -/
structure Disk.OnlyStale (height : Height) (cutoff : Int) (d d' : Disk) : Prop where
  decidedValues : d'.store.decidedValues = d.store.decidedValues
  decidedBlockData : d'.store.decidedBlockData = d.store.decidedBlockData
  consensusBlockMetadata : d'.store.consensusBlockMetadata = d.store.consensusBlockMetadata
  blobMetadataDecided : d'.store.blobMetadataDecided = d.store.blobMetadataDecided
  latestHeight : d'.store.latestHeight = d.store.latestHeight
  blobArchival : d'.store.blobArchival = d.store.blobArchival
  decidedBlobs : d'.blobs.decided = d.blobs.decided
  proposals : ∀ slot : Slot, ¬ (slot.height = height ∧ slot.round.asI64 < cutoff) →
    d'.store.undecidedProposals[slot]? = d.store.undecidedProposals[slot]?
  blockData : ∀ slot : Slot, ¬ (slot.height = height ∧ slot.round.asI64 < cutoff) →
    d'.store.undecidedBlockData[slot]? = d.store.undecidedBlockData[slot]?
  metadata : ∀ slot : Slot, ¬ (slot.height = height ∧ slot.round.asI64 < cutoff) →
    d'.store.blobMetadataUndecided[slot]? = d.store.blobMetadataUndecided[slot]?
  blobs : ∀ k : BlobKey, ¬ (k.height = height ∧ k.round < cutoff) →
    d'.blobs.undecided[k]? = d.blobs.undecided[k]?

namespace StaleOutcome

variable {out : StaleOutcome} {slot : Slot} {b : BlobStore}

theorem mem_of_mem_limit {rows : List α} {a : α} (h : a ∈ out.limit rows) : a ∈ rows := by
  unfold limit at h
  split at h
  · exact h
  · exact List.mem_of_mem_take h

theorem undecided_blobs (out : StaleOutcome) (slot : Slot) (b : BlobStore) (k : BlobKey) :
    (out.blobs slot b).undecided[k]? =
      if k ∈ (out.limit (b.collectUndecidedEntries slot.height (some slot.round.asI64))).map (·.1) then
        none
      else b.undecided[k]? := BlobStore.undecided_foldl_delete k _ b

theorem undecided_blobs_of_ne (h : ¬ (k.height = slot.height ∧ k.round = slot.round.asI64)) :
    (out.blobs slot b).undecided[k]? = b.undecided[k]? := by
  rw [undecided_blobs, if_neg]
  intro hmem
  obtain ⟨e, he, rfl⟩ := List.mem_map.1 hmem
  exact h (BlobStore.mem_keys_collected.1 (List.mem_map_of_mem (mem_of_mem_limit he))).1

/-- `drop_round` gets through a round with so many rows: it succeeds, or fails after the last one. -/
def Empties (out : StaleOutcome) (rows : Nat) : Prop := ∀ n, out.dropFails = some n → rows ≤ n

/-- **A round is empty after the deletions exactly if `drop_round` got through it.** -/
theorem roundFree_blobs_iff :
    (out.blobs slot b).RoundFree slot.height slot.round.asI64 ↔
      out.Empties (b.getUndecidedBlobs slot.height slot.round.asI64).length := by
  rw [← BlobStore.map_collectUndecidedEntries, List.length_map]
  constructor
  · intro hfree n hn
    by_contra hlt
    have hlt : n < (b.collectUndecidedEntries slot.height (some slot.round.asI64)).length := by omega
    -- the row after the last one that was deleted is still there
    generalize hrows : b.collectUndecidedEntries slot.height (some slot.round.asI64) = rows at hlt
    have hmem : rows[n] ∈ b.collectUndecidedEntries slot.height (some slot.round.asI64) := by
      rw [hrows]
      exact List.getElem_mem hlt
    obtain ⟨hget, hk⟩ := Table.mem_scan.1 hmem
    simp only [Option.all_some, Bool.and_eq_true, beq_iff_eq] at hk
    have hnone := hfree rows[n].1.index
    have hkey : BlobKey.mk slot.height slot.round.asI64 rows[n].1.index = rows[n].1 :=
      BlobKey.ext hk.1.symm hk.2.symm rfl
    rw [hkey, undecided_blobs, hrows, if_neg] at hnone
    · rw [hget] at hnone
      cases hnone
    · intro hdeleted
      have hsorted : rows.Pairwise fun a c => compare a.1 c.1 = .lt := by
        rw [← hrows]
        exact Table.scan_sorted _ _
      obtain ⟨e, he, heq⟩ := List.mem_map.1 hdeleted
      rw [limit, hn] at he
      obtain ⟨i, hi, rfl⟩ := List.mem_take_iff_getElem.1 he
      have hlt' := List.pairwise_iff_getElem.1 hsorted i n (by omega) hlt (by omega)
      rw [heq] at hlt'
      simp at hlt'
  · intro hempties
    have hall : out.limit (b.collectUndecidedEntries slot.height (some slot.round.asI64)) =
        b.collectUndecidedEntries slot.height (some slot.round.asI64) := by
      unfold limit
      cases hfails : out.dropFails with
      | none => rfl
      | some n => exact List.take_of_length_le (hempties n hfails)
    intro i
    have hdropped : out.blobs slot b = b.withoutRound slot.height slot.round.asI64 := by
      unfold blobs
      rw [hall]
      rfl
    rw [hdropped, BlobStore.undecided_withoutRound, if_pos ⟨rfl, rfl⟩]

end StaleOutcome

namespace Disk.OnlyStale

variable {height : Height} {cutoff : Int} {d d' d'' : Disk}

theorem refl (d : Disk) : d.OnlyStale height cutoff d :=
  ⟨rfl, rfl, rfl, rfl, rfl, rfl, rfl, fun _ _ => rfl, fun _ _ => rfl, fun _ _ => rfl,
    fun _ _ => rfl⟩

theorem trans (h : d.OnlyStale height cutoff d') (h' : d'.OnlyStale height cutoff d'') :
    d.OnlyStale height cutoff d'' where
  decidedValues := h'.decidedValues.trans h.decidedValues
  decidedBlockData := h'.decidedBlockData.trans h.decidedBlockData
  consensusBlockMetadata := h'.consensusBlockMetadata.trans h.consensusBlockMetadata
  blobMetadataDecided := h'.blobMetadataDecided.trans h.blobMetadataDecided
  latestHeight := h'.latestHeight.trans h.latestHeight
  blobArchival := h'.blobArchival.trans h.blobArchival
  decidedBlobs := h'.decidedBlobs.trans h.decidedBlobs
  proposals := fun slot hslot => (h'.proposals slot hslot).trans (h.proposals slot hslot)
  blockData := fun slot hslot => (h'.blockData slot hslot).trans (h.blockData slot hslot)
  metadata := fun slot hslot => (h'.metadata slot hslot).trans (h.metadata slot hslot)
  blobs := fun k hk => (h'.blobs k hk).trans (h.blobs k hk)

/-- A row of another slot survives a deletion. -/
theorem getElem?_deleted {t : Table Slot α} {slot slot' : Slot} (hne : slot ≠ slot') :
    (if c then t.erase slot else t)[slot']? = t[slot']? := by
  cases c with
  | true => exact (Table.getElem?_erase_eq t slot slot').trans (if_neg hne)
  | false => rfl

theorem deletions (out : StaleOutcome) (hr : r.asI64 < cutoff) (d : Disk) :
    d.OnlyStale height cutoff (out.disk ⟨height, r⟩ d) := by
  have hne : ∀ slot : Slot, ¬ (slot.height = height ∧ slot.round.asI64 < cutoff) →
      Slot.mk height r ≠ slot := by
    rintro slot hslot rfl
    exact hslot ⟨rfl, hr⟩
  refine ⟨rfl, rfl, rfl, rfl, rfl, rfl, ?_, ?_, ?_, ?_, ?_⟩
  · exact BlobStore.decided_foldl_delete _ d.blobs
  · exact fun slot hslot => getElem?_deleted (hne slot hslot)
  · exact fun slot hslot => getElem?_deleted (hne slot hslot)
  · exact fun slot hslot => getElem?_deleted (hne slot hslot)
  · intro k hk
    refine StaleOutcome.undecided_blobs_of_ne fun hslot => hk ⟨hslot.1, ?_⟩
    rw [hslot.2]
    exact hr

theorem cleaned (outs : Round → StaleOutcome) (hrs : ∀ r ∈ rs, r.asI64 < cutoff) (d : Disk) :
    d.OnlyStale height cutoff (cleanedDisk outs height rs d) := by
  induction rs generalizing d with
  | nil => exact refl d
  | cons r rs ih =>
    obtain ⟨hr, hrs⟩ := List.forall_mem_cons.1 hrs
    unfold cleanedDisk
    rw [List.foldl_cons]
    split
    · exact ih hrs d
    · exact (deletions (outs r) hr d).trans (ih hrs _)

end Disk.OnlyStale

section Cleaned

variable {outs : Round → StaleOutcome} {height : Height}

/-- The loop leaves the blobs of rounds it does not visit. -/
theorem undecided_cleanedDisk (h : ∀ r ∈ rs, r ≠ .nil → ¬ (k.height = height ∧ k.round = r.asI64))
    (d : Disk) : (cleanedDisk outs height rs d).blobs.undecided[k]? = d.blobs.undecided[k]? := by
  induction rs generalizing d with
  | nil => rfl
  | cons r rs ih =>
    obtain ⟨hr, hrs⟩ := List.forall_mem_cons.1 h
    unfold cleanedDisk
    rw [List.foldl_cons]
    split
    · exact ih hrs d
    · rename_i hnil
      exact (ih hrs _).trans (StaleOutcome.undecided_blobs_of_ne (hr hnil))

/-- A round that the loop visits is empty afterwards exactly if `drop_round` got through it. -/
theorem roundFree_cleanedDisk (hnodup : rs.Nodup) (hr : r ∈ rs) (hnil : r ≠ .nil) (d : Disk) :
    (cleanedDisk outs height rs d).blobs.RoundFree height r.asI64 ↔
      (outs r).Empties (d.blobs.getUndecidedBlobs height r.asI64).length := by
  induction rs generalizing d with
  | nil => cases hr
  | cons a rs ih =>
    obtain ⟨ha, hrs⟩ := List.nodup_cons.1 hnodup
    unfold cleanedDisk
    rw [List.foldl_cons]
    by_cases har : r = a
    · -- the later rounds leave this one as its own deletions left it
      subst har
      have hown : ((outs r).blobs ⟨height, r⟩ d.blobs).RoundFree height r.asI64 ↔
          (outs r).Empties (d.blobs.getUndecidedBlobs height r.asI64).length :=
        StaleOutcome.roundFree_blobs_iff
      rw [if_neg hnil, ← hown]
      refine forall_congr' fun i => ?_
      have hother : ∀ c ∈ rs, c ≠ .nil → ¬ (height = height ∧ r.asI64 = c.asI64) :=
        fun c hc _ hk => ha (Round.asI64_injective hk.2 ▸ hc)
      exact Eq.congr_left (undecided_cleanedDisk hother ((outs r).disk ⟨height, r⟩ d))
    · have hmem : r ∈ rs := (List.mem_cons.1 hr).resolve_left har
      refine (ih hrs hmem _).trans ?_
      have hblobs : ∀ d' : Disk, (∀ i, d'.blobs.undecided[BlobKey.mk height r.asI64 i]? =
          d.blobs.undecided[BlobKey.mk height r.asI64 i]?) →
          d'.blobs.getUndecidedBlobs height r.asI64 = d.blobs.getUndecidedBlobs height r.asI64 := by
        intro d' hd'
        refine BlobStore.getUndecidedBlobs_eq _ (BlobStore.indexSorted_getUndecidedBlobs _ _ _)
          fun x => ?_
        rw [BlobStore.mem_getUndecidedBlobs, hd']
      rw [hblobs]
      intro i
      split
      · rfl
      · exact StaleOutcome.undecided_blobs_of_ne fun hk => har (Round.asI64_injective hk.2)

end Cleaned

/-! ## The clean-up -/

theorem mem_trackedRounds :
    r ∈ mem.trackedRounds height ↔ (mem.blobRounds[Slot.mk height r]?).isSome := by
  unfold Memory.trackedRounds
  rw [List.mem_map]
  constructor
  · rintro ⟨slot, hslot, rfl⟩
    rw [List.mem_filter, decide_eq_true_eq] at hslot
    obtain ⟨hkey, rfl⟩ := hslot
    exact Table.mem_keys.1 hkey
  · intro hsome
    exact ⟨⟨height, r⟩, List.mem_filter.2 ⟨Table.mem_keys.2 hsome, by simp⟩, rfl⟩

theorem nodup_trackedRounds (mem : Memory) (height : Height) : (mem.trackedRounds height).Nodup := by
  have hkeys : mem.blobRounds.keys.Nodup :=
    (Std.ExtTreeMap.ordered_keys (t := mem.blobRounds)).imp fun {a c} hac heq => by
      rw [heq] at hac
      simp at hac
  refine (hkeys.filter _).map_on fun a ha c hc hround => ?_
  rw [List.mem_filter, decide_eq_true_eq] at ha hc
  exact Slot.ext (ha.2.trans hc.2.symm) hround

theorem blobRounds_forgetStale (mem : Memory) (height : Height) (cutoff : Int) (slot : Slot) :
    (mem.forgetStale height cutoff).blobRounds[slot]? =
      if slot.height = height ∧ slot.round.asI64 < cutoff then none else mem.blobRounds[slot]? := by
  refine (Table.getElem?_eraseWhere _ _ _).trans ?_
  simp only [decide_eq_true_eq]

theorem mem_trackedRounds_forgetStale {cutoff : Int} :
    r ∈ (mem.forgetStale height cutoff).trackedRounds height ↔
      r ∈ mem.trackedRounds height ∧ ¬ r.asI64 < cutoff := by
  rw [mem_trackedRounds, mem_trackedRounds, blobRounds_forgetStale]
  by_cases hlt : r.asI64 < cutoff
  · simp [hlt]
  · simp [hlt]

/-- The blobs of a stale round are gone after the clean-up: the nil round, which is skipped, had none,
and of any other `drop_round` deletes every row. -/
def GoneAfter (outs : Round → StaleOutcome) (height : Height) (d : Disk) (r : Round) : Prop :=
  if r = .nil then d.blobs.RoundFree height r.asI64
  else (outs r).Empties (d.blobs.getUndecidedBlobs height r.asI64).length

/-- **The clean-up of stale rounds under every pattern of failures.** It touches only stale rounds of
its height, on disk and in the tracking. The rounds it stops tracking have lost their blobs exactly if
those of every stale round that is tracked are deleted in full. -/
theorem stale_cleanup_iff (outs : Round → StaleOutcome) (height : Height) (round : Round)
    (m : Machine Disk Memory) :
    ∃ n m', Returns (cleanupStaleRoundBlobsWith outs height round) m n m' ∧
      m.disk.OnlyStale height (staleCutoff round) m'.disk ∧
      (∀ slot : Slot, ¬ (slot.height = height ∧ slot.round.asI64 < staleCutoff round) →
        m'.mem.blobRounds[slot]? = m.mem.blobRounds[slot]?) ∧
      ((∀ r ∈ m.mem.trackedRounds height, r ∉ m'.mem.trackedRounds height →
          m'.disk.blobs.RoundFree height r.asI64) ↔
        (0 < staleCutoff round → ∀ r ∈ m.mem.trackedRounds height,
          r.asI64 < staleCutoff round → GoneAfter outs height m.disk r)) := by
  obtain ⟨n, hreturns⟩ := returns_cleanupWith outs height round m
  refine ⟨n, _, hreturns, ?_⟩
  by_cases hcutoff : staleCutoff round ≤ 0
  · rw [if_pos hcutoff]
    refine ⟨.refl m.disk, fun _ _ => rfl, iff_of_true (fun r hr hr' => absurd hr hr') fun hpos => ?_⟩
    omega
  · rw [if_neg hcutoff]
    have hstale : ∀ r ∈ (m.mem.trackedRounds height).filter
        (fun r => r.asI64 < staleCutoff round), r.asI64 < staleCutoff round := by
      intro r hr
      simpa using (List.mem_filter.1 hr).2
    refine ⟨.cleaned outs hstale m.disk, fun slot hslot => ?_, ?_⟩
    · rw [blobRounds_forgetStale, if_neg hslot]
    · have hgone : ∀ r ∈ m.mem.trackedRounds height, r.asI64 < staleCutoff round →
          ((cleanedDisk outs height ((m.mem.trackedRounds height).filter
            fun r => r.asI64 < staleCutoff round) m.disk).blobs.RoundFree height r.asI64 ↔
              GoneAfter outs height m.disk r) := by
        intro r hr hlt
        unfold GoneAfter
        split
        · rename_i hnil
          refine forall_congr' fun i => Eq.congr_left (undecided_cleanedDisk ?_ m.disk)
          rintro c - hc ⟨-, hround⟩
          exact hc (Round.asI64_injective hround ▸ hnil)
        · rename_i hnil
          refine roundFree_cleanedDisk ((nodup_trackedRounds m.mem height).filter _) ?_ hnil m.disk
          exact List.mem_filter.2 ⟨hr, by simpa using hlt⟩
      constructor
      · intro h _ r hr hlt
        refine (hgone r hr hlt).1 (h r hr ?_)
        rw [mem_trackedRounds_forgetStale]
        exact fun hboth => hboth.2 hlt
      · intro h r hr hgoneaway
        rw [mem_trackedRounds_forgetStale, not_and, not_not] at hgoneaway
        exact (hgone r hr (hgoneaway hr)).2 (h (by omega) r hr (hgoneaway hr))

/-- A node that proposed a blob in round 0 enters round 4, and the blob engine fails: the blob stays and
its round is no longer tracked. -/
theorem failed_drop_untracked :
    ∃ n m', Returns (cleanupStaleRoundBlobsWith (fun _ => ⟨true, true, true, some 0⟩) 1 (.some 4))
        (Sample.node 1 Sample.proposeBlob).machine n m' ∧
      .some 0 ∈ (Sample.node 1 Sample.proposeBlob).machine.mem.trackedRounds 1 ∧
      .some 0 ∉ m'.mem.trackedRounds 1 ∧ ¬ m'.disk.blobs.RoundFree 1 0 := by
  obtain ⟨n, hreturns⟩ := returns_cleanupWith (fun _ => ⟨true, true, true, some 0⟩) 1 (.some 4)
    (Sample.node 1 Sample.proposeBlob).machine
  refine ⟨n, _, hreturns, by decide +kernel, by decide +kernel, fun hfree => ?_⟩
  have hnone := hfree 0
  revert hnone
  decide +kernel

end Ultramarine
