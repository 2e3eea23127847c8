import Ultramarine.App.Decision
import Ultramarine.App.Effects
import Ultramarine.Lib.Alike
import Ultramarine.Safety.DecidedBlobs
import Ultramarine.Safety.Retries

/-!
# A node that stops inside a promotion

`mark_decided` moves the blobs of a round one after the other: a put into the decided column family, then
a delete from the undecided one, each durable on its own. A node that stops between two of these writes
finds part of the blobs in either family when it is told the decision again, and
`process_decided_certificate` compares the block with the undecided blobs if there are any, and with the
decided ones otherwise. So the rest of a round that was moved in part is compared with the whole block.

Results:

* `getUndecidedBlobs_promoting`: what is left of the round after some of the writes;
* `start_alike`: a start does not look at the blobs;
* `promotion_recovers_iff`: the decision goes through after a restart exactly if no blob had left the
  undecided family.
-/

namespace Ultramarine

open Lib Ssz Prog

/-! ## Part of a promotion -/

/-- The disk after the first `k` writes that move the entries. -/
def Disk.promoting (d : Disk) (height : Height) (entries : List (BlobKey × BlobSidecar)) (k : Nat) :
    Disk :=
  ((promoteWrites height entries).take k).foldl (fun d w => DiskOp.apply w d) d

section Promoting

variable {height : Height} {e : BlobKey × BlobSidecar} {entries : List (BlobKey × BlobSidecar)}

theorem Disk.promoting_cons (d : Disk) (k : Nat) :
    d.promoting height (e :: entries) (k + 2) =
      Disk.promoting ⟨d.store, (d.blobs.putDecided height e.2).deleteUndecided e.1⟩ height entries k :=
  rfl

theorem Disk.promoting_zero (d : Disk) : d.promoting height entries 0 = d := rfl

theorem Disk.promoting_one (d : Disk) :
    d.promoting height (e :: entries) 1 = ⟨d.store, d.blobs.putDecided height e.2⟩ := rfl

theorem Disk.promoting_store : ∀ (entries : List (BlobKey × BlobSidecar)) (k : Nat) (d : Disk),
    (d.promoting height entries k).store = d.store
  | [], k, d => by simp [promoting, promoteWrites]
  | _ :: _, 0, _ => rfl
  | _ :: _, 1, _ => rfl
  | e :: entries, k + 2, d => by
    rw [promoting_cons, promoting_store entries k]

/-- A blob has left the undecided family once the second of its writes is done. -/
theorem Disk.promoting_undecided (key : BlobKey) :
    ∀ (entries : List (BlobKey × BlobSidecar)) (k : Nat) (d : Disk),
      (d.promoting height entries k).blobs.undecided[key]? =
        if key ∈ (entries.take (k / 2)).map (·.1) then none else d.blobs.undecided[key]?
  | [], k, d => by simp [promoting, promoteWrites]
  | _ :: _, 0, _ => by simp [promoting]
  | _ :: _, 1, _ => by simp [promoting_one, BlobStore.putDecided]
  | e :: entries, k + 2, d => by
    have herase : ((d.blobs.putDecided height e.2).deleteUndecided e.1).undecided[key]? =
        if e.1 = key then none else d.blobs.undecided[key]? := Table.getElem?_erase_eq _ _ _
    have hhalf : (k + 2) / 2 = k / 2 + 1 := by omega
    rw [promoting_cons, promoting_undecided key entries k, herase, hhalf, List.take_succ_cons,
      List.map_cons]
    by_cases hk : key ∈ (entries.take (k / 2)).map (·.1)
    · rw [if_pos hk, if_pos (List.mem_cons_of_mem _ hk)]
    · rw [if_neg hk]
      by_cases he : e.1 = key
      · rw [if_pos he, if_pos (List.mem_cons.2 (.inl he.symm))]
      · rw [if_neg he, if_neg fun hmem => (List.mem_cons.1 hmem).elim (fun h => he h.symm) hk]

end Promoting

/-- **What is left of a round** that is moved in part: the blobs that have not left it. -/
theorem getUndecidedBlobs_promoting (d : Disk) (height : Height) (round : Int) (k : Nat) :
    (d.promoting height (d.blobs.collectUndecidedEntries height (some round))
        k).blobs.getUndecidedBlobs height round =
      (d.blobs.getUndecidedBlobs height round).drop (k / 2) := by
  have hsorted := d.blobs.indexSorted_getUndecidedBlobs height round
  refine BlobStore.getUndecidedBlobs_eq _ (hsorted.sublist (List.drop_sublist _ _)) fun s => ?_
  rw [Disk.promoting_undecided]
  -- the keys of the moved entries are those of the first blobs
  have hkeys : BlobKey.mk height round s.index ∈
      ((d.blobs.collectUndecidedEntries height (some round)).take (k / 2)).map (·.1) ↔
      ∃ s' ∈ (d.blobs.getUndecidedBlobs height round).take (k / 2), s'.index = s.index := by
    rw [← BlobStore.map_collectUndecidedEntries, ← List.map_take, List.mem_map]
    constructor
    · rintro ⟨e, he, hkey⟩
      refine ⟨e.2, List.mem_map.2 ⟨e, he, rfl⟩, ?_⟩
      have hget := (Table.mem_scan.1 (List.mem_of_mem_take he)).1
      rw [d.blobs.undecided_index hget, hkey]
    · rintro ⟨s', hs', hindex⟩
      obtain ⟨e, he, rfl⟩ := List.mem_map.1 hs'
      obtain ⟨hget, hk⟩ := Table.mem_scan.1 (List.mem_of_mem_take he)
      simp only [Option.all_some, Bool.and_eq_true, beq_iff_eq] at hk
      refine ⟨e, he, BlobKey.ext hk.1 hk.2 ?_⟩
      exact (d.blobs.undecided_index hget).symm.trans hindex
  have hsplit := List.take_append_drop (k / 2) (d.blobs.getUndecidedBlobs height round)
  have hpairs : (d.blobs.getUndecidedBlobs height round).Pairwise fun a b => a.index < b.index :=
    hsorted
  rw [← hsplit, List.pairwise_append] at hpairs
  constructor
  · intro hs
    have hnot : ¬ ∃ s' ∈ (d.blobs.getUndecidedBlobs height round).take (k / 2),
        s'.index = s.index := by
      rintro ⟨s', hs', hindex⟩
      exact absurd (hpairs.2.2 s' hs' s hs) (by omega)
    rw [if_neg (hkeys.not.2 hnot)]
    exact d.blobs.mem_getUndecidedBlobs.1 (List.mem_of_mem_drop hs)
  · intro hs
    split at hs
    · cases hs
    · rename_i hnot
      have hmem := d.blobs.mem_getUndecidedBlobs.2 hs
      rw [← hsplit, List.mem_append] at hmem
      exact hmem.resolve_left fun htake => hnot (hkeys.2 ⟨s, htake, rfl⟩)

variable {cfg : Config} {m m' : Machine Disk Memory} {d d' : Disk} {check : DecidedCheck}
  {bytes : Bytes} {c : CommitCertificate} {slot : Slot} {k : Nat} {next : Height}

/-- A decision that is stopped inside the promotion of its blobs. -/
theorem cutAt_decided {script : EngineScript} {record : BlockPayloadRecord}
    (hload : m.disk.store.loadBlockPayloadRecord ⟨c.height, c.round⟩ = some record)
    (hne : record.executionPayloadSsz ≠ [])
    (hcheck : checkDecided cfg m.disk ⟨c.height, c.round⟩ record.executionPayloadSsz = .ok check)
    (hround : m.disk.blobs.getUndecidedBlobs c.height c.round.asI64 ≠ [])
    (hk : k < 2 * (m.disk.blobs.getUndecidedBlobs c.height c.round.asI64).length) :
    (cutAt ((handle cfg (.decided c script)).run m) k).disk =
      m.disk.promoting c.height
        (m.disk.blobs.collectUndecidedEntries c.height (some c.round.asI64)) k := by
  have hdone := alreadyDecided_of_round hcheck hround
  have hwrites : (promoteWrites c.height
      (m.disk.blobs.collectUndecidedEntries c.height (some c.round.asI64))).length =
      2 * (m.disk.blobs.getUndecidedBlobs c.height c.round.asI64).length := by
    rw [← BlobStore.map_collectUndecidedEntries, List.length_map]
    simp [promoteWrites, Nat.mul_comm]
  -- the machine the promotion runs on
  let m₁ : Machine Disk Memory := ⟨m.disk, m.mem.realign m.disk.store c.height⟩
  have hmark : (markDecided c.height c.round.asI64).run m₁ =
      (writeAll (promoteWrites c.height
        (m.disk.blobs.collectUndecidedEntries c.height (some c.round.asI64))) : Act Unit).run m₁ := by
    unfold markDecided
    rw [run_getDisk_bind, ← BlobStore.promoted_of_round hround]
  have hprocess : ((markDecided c.height c.round.asI64).run m₁).log <+:
      ((processDecidedCertificate cfg c record.executionPayloadSsz script).run m₁).log := by
    unfold processDecidedCertificate
    rw [run_getDisk_bind, run_ofExit_bind hcheck, hdone]
    exact log_prefix_bind
  have hdecided : ((processDecidedCertificate cfg c record.executionPayloadSsz script).run m₁).log <+:
      ((decided cfg c script).run m).log := by
    unfold decided realignLatestBlock
    rw [bind_assoc, run_getDisk_bind, run_modifyMem_bind, run_getDisk_bind]
    simp only [hload, if_neg hne]
    rw [← attempt_log]
    exact log_prefix_bind
  have hhandle : ((decided cfg c script).run m).log <+: ((handle cfg (.decided c script)).run m).log := by
    show _ <+: ((Act.logged (decided cfg c script)).run m).log
    unfold Act.logged
    rw [← attempt_log]
    exact log_prefix_bind
  have hlt : k < ((markDecided c.height c.round.asI64).run m₁).log.length := by
    rw [hmark, length_log_writeAll, hwrites]
    exact hk
  rw [cutAt_within (hprocess.trans (hdecided.trans hhandle)) hlt, hmark, cutAt_writeAll]
  rfl

/-! ## A start does not look at the blobs -/

/-- The machines have the same tables and the same memory, and blob stores that `U` relates. -/
structure SameTables (U : BlobStore → BlobStore → Prop) (m m' : Machine Disk Memory) : Prop where
  store : m'.disk.store = m.disk.store
  mem : m'.mem = m.mem
  blobs : U m.disk.blobs m'.disk.blobs

section Alike

variable {U : BlobStore → BlobStore → Prop} {β : Type}

theorem alike_getDisk_bind {k : Disk → Act β} (hk : ∀ d d' : Disk, d'.store = d.store → k d' = k d)
    (h : ∀ d, Alike (SameTables U) (k d)) : Alike (SameTables U) (getDisk >>= k) := by
  intro m m' hm
  rw [run_getDisk_bind, run_getDisk_bind, hk _ _ hm.store]
  exact h m.disk m m' hm

theorem alike_getMem_bind {k : Memory → Act β} (h : ∀ mem, Alike (SameTables U) (k mem)) :
    Alike (SameTables U) (getMem >>= k) := by
  intro m m' hm
  rw [run_getMem_bind, run_getMem_bind, hm.mem]
  exact h m.mem m m' hm

theorem alike_storeWrite (w : StoreWrite) : Alike (SameTables U) (storeWrite w) :=
  .write fun _ _ hm => ⟨congrArg (Store.apply · w) hm.store, hm.mem, hm.blobs⟩

theorem alike_modifyMem (g : Memory → Memory) : Alike (SameTables U) (Prog.modifyMem g : Act Unit) :=
  .modifyMem fun _ _ hm => ⟨hm.store, congrArg g hm.mem, hm.blobs⟩

section Delete

variable (hU : ∀ b b' height i, U b b' → U (b.deleteDecided height i) (b'.deleteDecided height i))

include hU

theorem alike_pruneArchivedHeight (height : Height) (metadata : BlobMetadata) :
    Alike (SameTables U) (pruneArchivedHeight height metadata) := by
  unfold pruneArchivedHeight
  split
  · exact .pure _
  · refine Alike.bind ?_ fun _ => (alike_storeWrite _).bind fun _ => alike_modifyMem _
    refine .writeAll fun w hw => ?_
    obtain ⟨i, _, rfl⟩ := List.mem_map.1 hw
    exact .write fun _ _ hm => ⟨hm.store, hm.mem, hU _ _ _ _ hm.blobs⟩

theorem alike_rehydrateHeight (cfg : Config) (height : Height) :
    Alike (SameTables U) (rehydrateHeight cfg height) := by
  refine .get_bind (fun _ _ hm => ?_) fun m => (Alike.ofExit _).bind fun result => ?_
  · rw [hm.store, hm.mem]
  · cases result with
    | none => exact .pure _
    | some metadata =>
      dsimp only
      split
      · exact .pure _
      split
      · split
        · exact alike_modifyMem _
        · exact .pure _
      split
      · exact alike_pruneArchivedHeight hU _ _
      · exact alike_modifyMem _

/-- **A start does not look at the blobs**: on the same tables it does the same. -/
theorem start_alike (cfg : Config) : Alike (SameTables U) (start cfg) := by
  unfold start
  refine (alike_modifyMem _).bind fun _ => Alike.bind ?_ fun _ => Alike.bind ?_ fun _ =>
    Alike.bind ?_ fun _ => ?_
  · refine alike_getDisk_bind (fun d d' hd => by rw [hd]) fun d => (Alike.ofExit _).bind fun latest => ?_
    cases latest with
    | none => exact (alike_storeWrite _).bind fun _ => alike_modifyMem _
    | some entry => exact alike_modifyMem _
  · refine .get_bind (fun m m' hm => by rw [hm.store, hm.mem]) fun m => .writeAll fun w hw => ?_
    obtain ⟨slot, _, rfl⟩ := List.mem_map.1 hw
    exact alike_storeWrite _
  · refine alike_getDisk_bind (fun d d' hd => by rw [hd]) fun d => (alike_modifyMem _).bind fun _ => ?_
    exact .forEach (alike_rehydrateHeight hU cfg) _
  · refine alike_getDisk_bind (fun d d' hd => by rw [hd]) fun d => (Alike.ofExit _).bind fun block => ?_
    exact (alike_modifyMem _).bind fun _ => alike_getMem_bind fun mem =>
      (Alike.ofExit _).bind fun _ => .pure _

end Delete

/-- A start on the same tables comes up with the same tables. -/
theorem Node.next_start_alike
    (hU : ∀ b b' height i, U b b' → U (b.deleteDecided height i) (b'.deleteDecided height i))
    (hstore : d'.store = d.store) (hblobs : U d.blobs d'.blobs)
    (h : (Node.down d).next cfg .start = some (.up m)) :
    ∃ m', (Node.down d').next cfg .start = some (.up m') ∧ SameTables U m m' := by
  obtain ⟨hexit, hstate⟩ := start_alike hU cfg (bootMachine cfg d) (bootMachine cfg d')
    ⟨hstore, rfl, hblobs⟩
  refine ⟨((start cfg).run (bootMachine cfg d')).state, ?_, ?_⟩
  · simp only [Node.next] at h ⊢
    rw [hexit]
    split at h
    · rfl
    · cases h
  · simp only [Node.next] at h
    split at h
    · cases h
      exact hstate
    · cases h

end Alike

/-! ## What a start keeps -/

/-- What a decision starts from is the same on both disks. -/
structure Disk.SamePending (d d' : Disk) : Prop where
  undecided : d'.blobs.undecided = d.blobs.undecided
  proposals : d'.store.undecidedProposals = d.store.undecidedProposals
  undecidedData : d'.store.undecidedBlockData = d.store.undecidedBlockData
  decidedData : d'.store.decidedBlockData = d.store.decidedBlockData

namespace Disk.SamePending

variable {d d' : Disk} {slot : Slot} {check check' : DecidedCheck} {bytes : Bytes} {cfg : Config}

theorem getUndecidedBlobs (h : d.SamePending d') (height : Height) (round : Int) :
    d'.blobs.getUndecidedBlobs height round = d.blobs.getUndecidedBlobs height round := by
  unfold BlobStore.getUndecidedBlobs BlobStore.collectUndecidedEntries
  rw [h.undecided]

theorem loadBlockPayloadRecord (h : d.SamePending d') (slot : Slot) :
    d'.store.loadBlockPayloadRecord slot = d.store.loadBlockPayloadRecord slot := by
  unfold Store.loadBlockPayloadRecord
  rw [h.undecidedData, h.decidedData]

theorem apply {w : Write} (hw : BootEffect cfg m w) (h : d.SamePending d') :
    d.SamePending (d'.apply w) := by
  obtain ⟨hundecided, hproposals, hdata, hdecided⟩ := h
  cases hw with
  | genesis =>
    unfold Disk.apply Store.apply
    dsimp only
    split <;> exact ⟨hundecided, hproposals, hdata, hdecided⟩
  | stale _ => exact ⟨hundecided, hproposals, hdata, hdecided⟩
  | prune hw => cases hw <;> exact ⟨hundecided, hproposals, hdata, hdecided⟩

/-- A start keeps them. -/
theorem start (h : (Node.down d).next cfg .start = some (.up m)) : d.SamePending m.disk := by
  have hkeeps : d.SamePending ((Ultramarine.start cfg).run (bootMachine cfg d)).state.disk :=
    (Prog.disk_invariant (I := d.SamePending) _ ⟨rfl, rfl, rfl, rfl⟩
      ((start_writes cfg _).mono fun _ _ hw hd => hd.apply hw)).2
  simp only [Node.next] at h
  split at h
  · cases h
    exact hkeeps
  · cases h

end Disk.SamePending

/-- The hashes a block is checked for depend on the stored proposal and nothing else. -/
theorem versionedHashes_of_check {check' : DecidedCheck}
    (h : checkDecided cfg d slot bytes = .ok check)
    (h' : checkDecided cfg d' slot bytes = .ok check')
    (hproposals : d'.store.undecidedProposals = d.store.undecidedProposals) :
    check'.versionedHashes = check.versionedHashes := by
  obtain ⟨payload, hashes, _, hpayload, htx, hcase⟩ := checkDecided_eq_ok.1 h
  obtain ⟨payload', hashes', _, hpayload', htx', hcase'⟩ := checkDecided_eq_ok.1 h'
  cases hpayload.symm.trans hpayload'
  cases htx.symm.trans htx'
  have hsame : expectedHashes cfg d'.store slot hashes = expectedHashes cfg d.store slot hashes := by
    unfold expectedHashes
    rw [hproposals]
  rw [hsame] at hcase'
  rcases hcase with ⟨hnil, rfl⟩ | ⟨hne, _, rfl⟩ <;> rcases hcase' with ⟨hnil', rfl⟩ | ⟨hne', _, rfl⟩
  · rfl
  · exact absurd hnil hne'
  · exact absurd hnil' hne
  · rfl

/-- A block with blobs is checked against as many blobs as the round has. -/
theorem length_of_check (h : checkDecided cfg d slot bytes = .ok check)
    (hblobs : check.versionedHashes ≠ [])
    (hround : d.blobs.getUndecidedBlobs slot.height slot.round.asI64 ≠ []) :
    (d.blobs.getUndecidedBlobs slot.height slot.round.asI64).length = check.versionedHashes.length := by
  obtain ⟨_, _, _, _, _, ⟨_, rfl⟩ | ⟨_, hhashes, rfl⟩⟩ := checkDecided_eq_ok.1 h
  · exact absurd rfl hblobs
  · rw [← hhashes, (BlobStore.forDecision_of_round hround).1, versionedHashesFromSidecars,
      List.length_map]

/-! ## The decision after the restart -/

/-- The node stops before the `k`-th write of a decision, starts again and is told the decision again:
it starts, the decision goes through, and the blobs of the round are decided. -/
def RecoversPromotion (cfg : Config) (c : CommitCertificate) (script script' : EngineScript)
    (m : Machine Disk Memory) (k : Nat) : Prop :=
  ∃ d m₁ next m₂, (Node.up m).next cfg (.crash (.decided c script) k) = some (.down d) ∧
    (Node.down d).next cfg .start = some (.up m₁) ∧
    Returns (decided cfg c script') m₁ (.start next) m₂ ∧
    (∀ s ∈ m.disk.blobs.getUndecidedBlobs c.height c.round.asI64,
      m₂.disk.blobs.decided[BlobIndexKey.mk c.height s.index]? = some s) ∧
    m₂.disk.blobs.getUndecidedBlobs c.height c.round.asI64 = []

/-- The blob stores hold the same, but for what is decided at one index of the height. -/
structure BlobStore.SameBut (height : Height) (index : Nat) (b b' : BlobStore) : Prop where
  undecided : b'.undecided = b.undecided
  decided : ∀ k : BlobIndexKey, k ≠ ⟨height, index⟩ → b'.decided[k]? = b.decided[k]?

namespace BlobStore.SameBut

variable {height : Height} {index : Nat} {b b' : BlobStore}

theorem putDecided (b : BlobStore) (height : Height) (s : BlobSidecar) :
    b.SameBut height s.index (b.putDecided height s) :=
  ⟨rfl, fun _ hk => (Table.getElem?_insert_eq _ _ _ _).trans (if_neg hk.symm)⟩

theorem deleteDecided (h : b.SameBut height index b') (height' : Height) (i : Nat) :
    (b.deleteDecided height' i).SameBut height index (b'.deleteDecided height' i) := by
  refine ⟨h.undecided, fun k hk => ?_⟩
  have herase : ∀ b : BlobStore, (b.deleteDecided height' i).decided[k]? =
      if BlobIndexKey.mk height' i = k then none else b.decided[k]? :=
    fun b => Table.getElem?_erase_eq _ _ _
  rw [herase, herase, h.decided k hk]

/-- What was decided at an index of the round is overwritten when the round is promoted. -/
theorem promote {round : Int} (h : b.SameBut height index b')
    (hindex : (b.undecided[BlobKey.mk height round index]?).isSome) :
    b'.promote height round = b.promote height round := by
  obtain ⟨s, hs⟩ := Option.isSome_iff_exists.1 hindex
  have hround : b.getUndecidedBlobs height round ≠ [] := by
    refine List.ne_nil_of_mem (a := s) (b.mem_getUndecidedBlobs.2 ?_)
    rw [b.undecided_index hs]
    exact hs
  have hround' : b'.getUndecidedBlobs height round ≠ [] := by
    unfold getUndecidedBlobs collectUndecidedEntries
    rw [h.undecided]
    exact hround
  refine BlobStore.ext_getElem? (fun k => ?_) fun k => ?_
  · rw [undecided_promote_of_round hround, undecided_promote_of_round hround', h.undecided]
  · by_cases hk : k.height = height
    · obtain ⟨_, i⟩ := k
      subst hk
      rw [decided_promote_of_round hround, decided_promote_of_round hround', h.undecided]
      by_cases hi : i = index
      · subst hi
        rw [hs]
        rfl
      · rw [h.decided _ fun hkey => hi (congrArg BlobIndexKey.index hkey)]
    · rw [decided_promote_of_ne _ hk, decided_promote_of_ne _ hk]
      exact h.decided k fun hkey => hk (congrArg BlobIndexKey.height hkey)

end BlobStore.SameBut

/-- One more decided blob makes no difference to a start. -/
theorem Node.start_of_put (height : Height) (s : BlobSidecar)
    (h : (Node.down d).next cfg .start = some (.up m)) :
    ∃ m', (Node.down ⟨d.store, d.blobs.putDecided height s⟩).next cfg .start = some (.up m') ∧
      SameTables (BlobStore.SameBut height s.index) m m' := by
  have hdelete : ∀ b b' h i, BlobStore.SameBut height s.index b b' →
      BlobStore.SameBut height s.index (b.deleteDecided h i) (b'.deleteDecided h i) :=
    fun _ _ h i hb => hb.deleteDecided h i
  exact Node.next_start_alike (d := d) hdelete rfl (BlobStore.SameBut.putDecided _ _ _) h

/-- A decision overwrites what was decided at an index of its round. -/
theorem decided_of_sameBut {script : EngineScript} {m₂ : Machine Disk Memory} {index : Nat}
    (h : SameTables (BlobStore.SameBut c.height index) m m')
    (hindex : (m.disk.blobs.undecided[BlobKey.mk c.height c.round.asI64 index]?).isSome)
    (hr : Returns (decided cfg c script) m (.start next) m₂) :
    ∃ next', Returns (decided cfg c script) m' (.start next') m₂ := by
  obtain ⟨s, hs⟩ := Option.isSome_iff_exists.1 hindex
  have hround : m.disk.blobs.getUndecidedBlobs c.height c.round.asI64 ≠ [] := by
    refine List.ne_nil_of_mem (a := s) (m.disk.blobs.mem_getUndecidedBlobs.2 ?_)
    rw [m.disk.blobs.undecided_index hs]
    exact hs
  have hsame : m.disk.SamePending m'.disk :=
    ⟨h.blobs.undecided, by rw [h.store], by rw [h.store], by rw [h.store]⟩
  have hround' : m'.disk.blobs.getUndecidedBlobs c.height c.round.asI64 ≠ [] := by
    rw [hsame.getUndecidedBlobs]
    exact hround
  obtain ⟨record, out, m₁, hload, rfl, hprocess⟩ := decided_inversion hr
  obtain ⟨check, _, _, hcheck, _⟩ := processDecided_inversion hprocess
  dsimp only at hcheck
  -- the check reads the blobs of the round, which are the same
  have hcheck' : checkDecided cfg m'.disk ⟨c.height, c.round⟩ record.executionPayloadSsz =
      .ok check := by
    rw [← hcheck]
    unfold checkDecided
    have hfor : m'.disk.blobs.forDecision ⟨c.height, c.round⟩ =
        m.disk.blobs.forDecision ⟨c.height, c.round⟩ := by
      rw [(BlobStore.forDecision_of_round hround').1, (BlobStore.forDecision_of_round hround).1,
        hsame.getUndecidedBlobs]
    have hdone : m'.disk.blobs.alreadyDecided ⟨c.height, c.round⟩ =
        m.disk.blobs.alreadyDecided ⟨c.height, c.round⟩ := by
      rw [(BlobStore.forDecision_of_round hround').2, (BlobStore.forDecision_of_round hround).2]
    rw [h.store, hfor, hdone]
  have hfresh : check.alreadyDecided = false := alreadyDecided_of_round hcheck hround
  have hne : record.executionPayloadSsz ≠ [] := by
    obtain ⟨_, _, hne, _⟩ := checkDecided_eq_ok.1 hcheck
    exact hne
  -- so both go on from the same machine
  have himporting : importing ⟨c.height, c.round⟩ check
      ⟨m'.disk, m'.mem.realign m'.disk.store c.height⟩ =
      importing ⟨c.height, c.round⟩ check ⟨m.disk, m.mem.realign m.disk.store c.height⟩ := by
    unfold importing BlobStore.forImport
    rw [hfresh, h.store, h.mem]
    dsimp only
    rw [if_neg Bool.false_ne_true, if_neg Bool.false_ne_true, h.blobs.promote hindex]
  obtain ⟨hexit, hstate⟩ := processDecided_of_check
    (m := ⟨m.disk, m.mem.realign m.disk.store c.height⟩) script hcheck
  obtain ⟨hexit', hstate'⟩ := processDecided_of_check
    (m := ⟨m'.disk, m'.mem.realign m'.disk.store c.height⟩) script hcheck'
  rw [himporting, ← hexit] at hexit'
  rw [himporting, ← hstate] at hstate'
  have hload' : m'.disk.store.loadBlockPayloadRecord ⟨c.height, c.round⟩ = some record := by
    rw [h.store]
    exact hload
  exact ⟨_, decided_returns hload' hne ⟨hexit'.trans hprocess.1, hstate'.trans hprocess.2⟩⟩

/-- A decision leaves the blobs of its round decided, if the height is not queued for pruning. -/
theorem decided_of_round {script : EngineScript}
    (hr : Returns (decided cfg c script) m (.start next) m')
    (hproposal : (m.disk.store.undecidedProposals[Slot.mk c.height c.round]?).isSome)
    (hqueue : c.height ∉ m.mem.pendingPruneHeights) (s : BlobSidecar)
    (hs : s ∈ m.disk.blobs.getUndecidedBlobs c.height c.round.asI64) :
    m'.disk.blobs.decided[BlobIndexKey.mk c.height s.index]? = some s := by
  have hround := List.ne_nil_of_mem hs
  obtain ⟨record, out, m₁, _, rfl, hprocess⟩ := decided_inversion hr
  obtain ⟨check, m₂, m₃, hcheck, _, hdisk₂, hmem₂, hcommit, hdisk, _⟩ :=
    processDecided_inversion hprocess
  have hqueue₂ : c.height ∉ m₂.mem.pendingPruneHeights := by
    obtain ⟨_, _, _, _, hmem⟩ := hmem₂
    rw [hmem]
    exact hqueue
  have hfresh : check.alreadyDecided = false := alreadyDecided_of_round hcheck hround
  have hfirst : m₂.disk.store.undecidedProposals[Slot.mk c.height c.round]? ≠ none := by
    rw [hdisk₂]
    exact Option.isSome_iff_ne_none.1 hproposal
  have hdecided : m'.disk.blobs.getDecidedBlobs c.height =
      (m.disk.blobs.promote c.height c.round.asI64).getDecidedBlobs c.height := by
    rw [hdisk, getDecidedBlobs_commit hcommit hqueue₂, if_neg hfirst, hdisk₂, hfresh]
    rfl
  rw [BlobStore.decided_of_getDecidedBlobs hdecided, BlobStore.decided_promote_of_round hround,
    m.disk.blobs.mem_getUndecidedBlobs.1 hs]
  rfl

section Recovery

variable {cfg : Config} {c : CommitCertificate} {script script' : EngineScript}
  {m : Machine Disk Memory} {record : BlockPayloadRecord} {check : DecidedCheck} {k : Nat}

/-- Once a blob has left the undecided family, the rest of the round is too short for the block. -/
theorem promotion_stuck
    (hload : m.disk.store.loadBlockPayloadRecord ⟨c.height, c.round⟩ = some record)
    (hne : record.executionPayloadSsz ≠ [])
    (hcheck : checkDecided cfg m.disk ⟨c.height, c.round⟩ record.executionPayloadSsz = .ok check)
    (hblobs : check.versionedHashes ≠ [])
    (hk : k < 2 * (m.disk.blobs.getUndecidedBlobs c.height c.round.asI64).length) (htwo : 2 ≤ k) :
    ¬ RecoversPromotion cfg c script script' m k := by
  rintro ⟨d, m₁, next, m₂, hcrash, hstart, hdecided, _⟩
  have hround : m.disk.blobs.getUndecidedBlobs c.height c.round.asI64 ≠ [] := by
    intro hnil
    rw [hnil] at hk
    cases hk
  simp only [Node.next, Option.some.injEq, Node.down.injEq] at hcrash
  rw [cutAt_decided hload hne hcheck hround hk] at hcrash
  have hpending := Disk.SamePending.start hstart
  have hstore : d.store = m.disk.store := by rw [← hcrash, Disk.promoting_store]
  -- the node finds the same payload, and asks for the same hashes
  obtain ⟨record', _, _, hload', rfl, hprocess⟩ := decided_inversion hdecided
  obtain ⟨check', _, _, hcheck', _⟩ := processDecided_inversion hprocess
  rw [hpending.loadBlockPayloadRecord, hstore, hload, Option.some.injEq] at hload'
  subst hload'
  have hhashes := versionedHashes_of_check hcheck hcheck' (by rw [hpending.proposals, hstore])
  -- but finds fewer blobs
  have hleft : m₁.disk.blobs.getUndecidedBlobs c.height c.round.asI64 =
      (m.disk.blobs.getUndecidedBlobs c.height c.round.asI64).drop (k / 2) := by
    rw [hpending.getUndecidedBlobs, ← hcrash, getUndecidedBlobs_promoting]
  have hlen : (m.disk.blobs.getUndecidedBlobs c.height c.round.asI64).length =
      check.versionedHashes.length := length_of_check hcheck hblobs hround
  have hlen' : m₁.disk.blobs.getUndecidedBlobs c.height c.round.asI64 ≠ [] →
      (m₁.disk.blobs.getUndecidedBlobs c.height c.round.asI64).length = check'.versionedHashes.length :=
    length_of_check hcheck' (by rwa [hhashes])
  rw [hleft, hhashes, ← hlen, ← List.length_pos_iff, List.length_drop] at hlen'
  have := hlen' (by omega)
  omega

/-- A stop between the two writes of the first blob does no harm. -/
theorem promotion_recovers_one
    (hload : m.disk.store.loadBlockPayloadRecord ⟨c.height, c.round⟩ = some record)
    (hne : record.executionPayloadSsz ≠ [])
    (hcheck : checkDecided cfg m.disk ⟨c.height, c.round⟩ record.executionPayloadSsz = .ok check)
    (hround : m.disk.blobs.getUndecidedBlobs c.height c.round.asI64 ≠ [])
    (h : RecoversPromotion cfg c script script' m 0) : RecoversPromotion cfg c script script' m 1 := by
  obtain ⟨d, m₁, next, m₂, hcrash, hstart, hdecided, hall, hnone⟩ := h
  have hpos := List.length_pos_iff.2 hround
  simp only [Node.next, Option.some.injEq, Node.down.injEq] at hcrash
  rw [cutAt_decided hload hne hcheck hround (by omega)] at hcrash
  -- the first of the entries, and its blob
  obtain ⟨e, entries, hentries⟩ : ∃ e entries,
      m.disk.blobs.collectUndecidedEntries c.height (some c.round.asI64) = e :: entries := by
    rw [← BlobStore.map_collectUndecidedEntries] at hround
    exact List.exists_cons_of_ne_nil fun hnil => hround (by rw [hnil]; rfl)
  have he : e ∈ m.disk.blobs.collectUndecidedEntries c.height (some c.round.asI64) := by
    rw [hentries]
    exact List.mem_cons_self ..
  have hblob : e.2 ∈ m.disk.blobs.getUndecidedBlobs c.height c.round.asI64 := by
    rw [← BlobStore.map_collectUndecidedEntries]
    exact List.mem_map.2 ⟨e, he, rfl⟩
  rw [Disk.promoting_zero] at hcrash
  subst hcrash
  obtain ⟨m₁', hstart', htables⟩ := Node.start_of_put c.height e.2 hstart
  have hindex : (m₁.disk.blobs.undecided[BlobKey.mk c.height c.round.asI64 e.2.index]?).isSome := by
    rw [(Disk.SamePending.start hstart).undecided, m.disk.blobs.mem_getUndecidedBlobs.1 hblob]
    rfl
  obtain ⟨next', hdecided'⟩ := decided_of_sameBut htables hindex hdecided
  refine ⟨_, m₁', next', m₂, ?_, hstart', hdecided', hall, hnone⟩
  simp only [Node.next, Option.some.injEq, Node.down.injEq]
  rw [cutAt_decided hload hne hcheck hround (by omega), hentries, Disk.promoting_one]

/-- **A stop inside the promotion.** A node decides a block with blobs that are stored for its round,
and stops at one of the writes that move them. Suppose that it would have come back and decided the
block, had it stopped before the first of them. Then it does so after this stop exactly if no blob had
left the undecided family: if the stop is before the first write or right after it. -/
theorem promotion_recovers_iff
    (hload : m.disk.store.loadBlockPayloadRecord ⟨c.height, c.round⟩ = some record)
    (hne : record.executionPayloadSsz ≠ [])
    (hcheck : checkDecided cfg m.disk ⟨c.height, c.round⟩ record.executionPayloadSsz = .ok check)
    (hblobs : check.versionedHashes ≠ [])
    (hk : k < 2 * (m.disk.blobs.getUndecidedBlobs c.height c.round.asI64).length)
    (hfirst : RecoversPromotion cfg c script script' m 0) :
    RecoversPromotion cfg c script script' m k ↔ k ≤ 1 := by
  constructor
  · intro h
    by_contra hgt
    exact promotion_stuck hload hne hcheck hblobs hk (by omega) h
  · intro hle
    have hround : m.disk.blobs.getUndecidedBlobs c.height c.round.asI64 ≠ [] := by
      intro hnil
      rw [hnil] at hk
      cases hk
    rcases Nat.le_one_iff_eq_zero_or_eq_one.1 hle with rfl | rfl
    · exact hfirst
    · exact promotion_recovers_one hload hne hcheck hround hfirst

end Recovery

namespace Sample

def awaitingTwins : Machine Disk Memory := (node 2 proposeTwins).machine

/-- The node stops at a write of the decision. -/
def stoppedTwins (k : Nat) : Disk :=
  (cutAt ((handle (config 2) (.decided twinCertificate script)).run awaitingTwins) k).disk

/-- It starts again. -/
def restartedTwins (k : Nat) : Outcome Disk Memory Write Err Height :=
  (start (config 2)).run (bootMachine (config 2) (stoppedTwins k))

/-- It is told the decision again. -/
def redecidedTwins (k : Nat) : Outcome Disk Memory Write Err Next :=
  (decided (config 2) twinCertificate script).run (restartedTwins k).state

/-- The payload that is stored for the block, and what a decision finds out about it. -/
theorem checkedTwins :
    awaitingTwins.disk.store.loadBlockPayloadRecord ⟨1, .some 0⟩ = some ⟨[1, 0, 1, 2], []⟩ ∧
      checkDecided (config 2) awaitingTwins.disk ⟨1, .some 0⟩ [1, 0, 1, 2] =
        .ok ⟨twinBlock, [1#8 ++ 9#248, 1#8 ++ 9#248], false⟩ ∧
      (awaitingTwins.disk.blobs.getUndecidedBlobs 1 0).length = 2 := by
  decide +kernel

theorem stoppedTwins_zero : stoppedTwins 0 = awaitingTwins.disk := by
  obtain ⟨hload, hcheck, hlen⟩ := checkedTwins
  refine (cutAt_decided (c := twinCertificate) hload (by simp) hcheck ?_ ?_).trans
    (Disk.promoting_zero _)
  · exact List.ne_nil_of_length_pos (Nat.lt_of_lt_of_eq Nat.two_pos hlen.symm)
  · exact Nat.mul_pos Nat.two_pos (Nat.lt_of_lt_of_eq Nat.two_pos hlen.symm)

theorem next_restartTwins (h : (restartedTwins k).exit = .ok 1) :
    (Node.down (stoppedTwins k)).next (config 2) .start = some (.up (restartedTwins k).state) := by
  simp only [Node.next]
  rw [show ((start (config 2)).run (bootMachine (config 2) (stoppedTwins k))).exit = .ok 1 from h]
  rfl

/-- The node comes back from a stop before the first write. -/
theorem recoversTwins : RecoversPromotion (config 2) twinCertificate script script awaitingTwins 0 := by
  have hrun : (restartedTwins 0).exit = .ok 1 ∧ (redecidedTwins 0).exit = .ok (.start 2) ∧
      1 ∉ (restartedTwins 0).state.mem.pendingPruneHeights ∧
      (redecidedTwins 0).state.disk.blobs.getUndecidedBlobs 1 0 = [] ∧
      ((restartedTwins 0).state.disk.store.undecidedProposals[Slot.mk 1 (.some 0)]?).isSome := by
    decide +kernel
  obtain ⟨hstart, hdecided, hqueue, hnone, hproposal⟩ := hrun
  have hpending := Disk.SamePending.start (next_restartTwins hstart)
  rw [stoppedTwins_zero] at hpending
  refine ⟨stoppedTwins 0, (restartedTwins 0).state, 2, (redecidedTwins 0).state, rfl,
    next_restartTwins hstart, ⟨hdecided, rfl⟩, fun s hs => ?_, hnone⟩
  refine decided_of_round (c := twinCertificate) ⟨hdecided, rfl⟩ hproposal hqueue s ?_
  rw [hpending.getUndecidedBlobs]
  exact hs

end Sample

open Sample in
/-- A node that stops between the two writes of the first of two blobs comes back. -/
theorem promotion_recovers_twins :
    RecoversPromotion (config 2) twinCertificate script script awaitingTwins 1 := by
  obtain ⟨hload, hcheck, hlen⟩ := checkedTwins
  have hone : 1 < 2 * (awaitingTwins.disk.blobs.getUndecidedBlobs 1 0).length := by omega
  exact (promotion_recovers_iff (c := twinCertificate) hload (by simp) hcheck (by simp) hone
    recoversTwins).2 (le_refl 1)

open Sample in
/-- A node proposes a block with two blobs and stops when the first of them has been moved. It starts
again, finds one blob where the block has two, and refuses the decision. -/
theorem promotion_lost_twins :
    Node.Reachable (config 2) (fun _ _ => True) (node 2 proposeTwins) ∧
      RecoversPromotion (config 2) twinCertificate script script awaitingTwins 0 ∧
      ¬ RecoversPromotion (config 2) twinCertificate script script awaitingTwins 2 := by
  have hrun : (Follows (Node.next (config 2)) (fun _ _ => True) proposeTwins (.down Disk.empty) ∧
      (restartedTwins 2).exit = .ok 1 ∧ (redecidedTwins 2).exit = .ok (.restart 1)) := by
    decide +kernel
  obtain ⟨hreach, hstart, hdecided⟩ := reached hrun
  refine ⟨hreach, recoversTwins, ?_⟩
  rintro ⟨d, m₁, next, m₂, hcrash, hstart', hdecided', _⟩
  cases hcrash
  cases (next_restartTwins hstart).symm.trans hstart'
  cases hdecided.symm.trans hdecided'.1

end Ultramarine
