import Ultramarine.Safety.NoticeOrder

/-!
# Blobs are deleted when their height is archived and committed

Archiving deletes decided blobs: with the notice that completes a height, with the commit that makes
an archived height final, or at a start. Two numbers in memory say what is final, the height of the
running round and the height finalized last. They stay at the highest committed height, the first at
most one above it, if rounds are only started where a round can be (`Event.Follows`) and the node is not
configured to start above height 1.

Results:

* `deletes_archived_committed`, for every write of every message and every start of a run;
* `pruned_blobs_located`: what a node says about blobs that it has pruned.
-/

namespace Ultramarine

open Lib Prog

variable {cfg : Config} {height h : Height} {s : Store} {m m₀ a : Machine Disk Memory} {w : Write}
  {ev : Event} {mem : Memory}

/-! ## Committed heights -/

/-- A height from this one on is committed. -/
def Store.Reaches (s : Store) (height : Height) : Prop :=
  height = 0 ∨ ∃ h, height ≤ h ∧ s.Committed h

theorem Store.Reaches.mono (hs : s.Reaches height) (hle : h ≤ height) : s.Reaches h := by
  rcases hs with rfl | ⟨top, hle', htop⟩
  · exact .inl (Nat.le_zero.1 hle)
  · exact .inr ⟨top, hle.trans hle', htop⟩

theorem Store.Reaches.grows {d d' : Disk} (hs : d.store.Reaches height) (hd : d.Grows d') :
    d'.store.Reaches height :=
  hs.imp_right fun ⟨top, hle, htop⟩ => ⟨top, hle, hd.values top htop⟩

theorem Store.Reaches.max (hs : s.Reaches height) (hs' : s.Reaches h) : s.Reaches (max height h) := by
  rcases max_choice height h with heq | heq <;> rwa [heq]

theorem Store.Reaches.top (hs : s.Reaches height) :
    s.Reaches (s.maxDecidedValueHeight.getD height) := by
  cases hmax : s.maxDecidedValueHeight with
  | none => exact hs
  | some top => exact .inr ⟨top, le_rfl, (Store.maxDecidedValueHeight_eq_some.1 hmax).1⟩

/-- The machine takes nothing for final that is not committed. -/
structure Final (a : Machine Disk Memory) : Prop where
  current : a.disk.store.Reaches (a.mem.currentHeight - 1)
  finalized : a.disk.store.Reaches a.mem.latestFinalizedHeight

theorem Final.reaches (ha : Final a) (hfinal : a.mem.isHeightFinalized height = true) :
    a.disk.store.Reaches height :=
  (ha.current.max ha.finalized).mono (of_decide_eq_true hfinal)

theorem Final.sameHead (ha : Final a) (hmem : a.mem.SameHead mem) : Final ⟨a.disk, mem⟩ := by
  constructor
  · exact hmem.currentHeight ▸ ha.current
  · exact hmem.latestFinalizedHeight ▸ ha.finalized

/-- A round is started at a height whose predecessor is committed. -/
def Event.Follows (s : Store) : Event → Prop
  | .startedRound height _ => s.Reaches (height - 1)
  | _ => True

/-- **One change of the memory.** -/
theorem Final.move (ha : Final a) (hgrows : m₀.disk.Grows a.disk) (hev : ev.Follows m₀.disk.store)
    (hmove : MemEffect cfg m₀ ev a mem) : Final ⟨a.disk, mem⟩ := by
  cases hmove with
  | aside hmem => exact ha.sameHead hmem
  | round hround =>
    subst hround
    exact ⟨Store.Reaches.grows hev hgrows, ha.finalized⟩
  | @finalized c _ _ hcommitted =>
    exact ⟨ha.current, ha.finalized.max (.inr ⟨c.height, le_rfl, hcommitted⟩)⟩
  | @next c _ _ hcommitted =>
    refine ⟨?_, ha.finalized⟩
    show a.disk.store.Reaches (Max.max a.mem.currentHeight (c.height + 1) - 1)
    rw [← Nat.sub_max_sub_right]
    exact ha.current.max (.inr ⟨c.height, le_rfl, hcommitted⟩)
  | _ => exact ⟨ha.current, ha.finalized⟩

/-- A change of the memory, in a call that has started on the disk `d`, keeps the machine final. -/
abbrev KeepsFinal (d : Disk) (a : Machine Disk Memory) (mem : Memory) : Prop :=
  d.Grows a.disk → Final a → Final ⟨a.disk, mem⟩

/-- The machine is final at each write of the call, and wherever it is cut off. -/
abbrev RunsFinal {α : Type} (p : Act α) (m : Machine Disk Memory) : Prop :=
  (∀ e ∈ (p.run m).log, Final e.1) ∧ ∀ cut, Final (machineAt (p.run m) cut)

/-- **A call.** Its writes only add committed heights. -/
theorem final_of_moves {α : Type} {p : Act α} (hm : Final m) (hp : Moves (KeepsFinal m.disk) p m) :
    RunsFinal p m := by
  let I : Machine Disk Memory → Prop := fun a => m.disk.Grows a.disk ∧ Final a
  have hmove : ∀ a mem, I a → KeepsFinal m.disk a mem → I ⟨a.disk, mem⟩ :=
    fun _ _ ha h => ⟨ha.1, h ha.1 ha.2⟩
  have hwrite : Emits (fun a w => I a → I ⟨DiskOp.apply w a.disk, a.mem⟩) (p.run m) := fun e _ ha =>
    have hgrows := Disk.Grows.apply e.1.disk e.2
    ⟨ha.1.trans hgrows, ha.2.current.grows hgrows, ha.2.finalized.grows hgrows⟩
  have hrun := hp.invariant ⟨.refl _, hm⟩ hmove hwrite
  refine ⟨fun e he => (hrun.1 e he).2, fun cut => ?_⟩
  cases cut with
  | none => exact hrun.2.2
  | some k => exact (hp.cutAt ⟨.refl _, hm⟩ hmove hwrite k).2

theorem final_of_handle (cfg : Config) (hm : Final m) (hev : ev.Follows m.disk.store) :
    RunsFinal (handle cfg ev) m :=
  final_of_moves hm ((handle_moves cfg m ev).mono fun _ _ hmove hgrows ha => ha.move hgrows hev hmove)

theorem final_of_start (hfirst : cfg.startHeight ≤ 1) (d : Disk) :
    RunsFinal (start cfg) (bootMachine cfg d) := by
  have hzero : d.store.Reaches (cfg.startHeight - 1) := .inl (Nat.sub_eq_zero_of_le hfirst)
  refine final_of_moves ⟨hzero, .inl rfl⟩ ?_
  have hc := Moves.closed (ω := Write) (ε := Err) (KeepsFinal d)
  have haside : ∀ {p : Act Unit} {m}, MovesAside p m → Moves (KeepsFinal d) p m :=
    fun h => h.mono fun _ _ hmem _ ha => ha.sameHead hmem.sameHead
  refine hc.bind (.modifyMem fun _ _ => ⟨hzero, .inl rfl⟩) fun _ _ => ?_
  -- the memory is a fresh one until the highest committed height is read
  refine hc.bind (haside (hydrateBlobParentRoot_writes cfg _).2) fun _ _ => ?_
  refine hc.bind (hc.get_bind (.writeAll _ _)) fun _ _ => hc.bind ?_ fun _ _ => ?_
  · exact hc.get_bind (hc.bind (.modifyMem fun _ ha => ⟨ha.current, ha.finalized.top⟩) fun _ _ =>
      haside (rehydrateHeights_writes cfg _ _).2)
  · exact hc.get_bind (hc.ofExit_bind fun _ _ => hc.bind (.modifyMem fun _ ha => ⟨ha.1, ha.2⟩)
      fun _ _ => hc.get_bind (hc.ofExit_bind fun _ _ => hc.pure _))

/-! ## Deletions -/

/-- What holds when a decided blob is deleted: the row of the height has it and a record for each blob,
and a height from this one on is committed. -/
def Deletes (a : Machine Disk Memory) (w : Write) : Prop :=
  ∀ height i, w = .blob (.deleteDecided height i) →
    (∃ row, a.disk.store.getBlobMetadata height = .ok (some row) ∧ i < row.blobCount ∧
      row.allArchived = true) ∧ a.disk.store.Reaches height

theorem PruneEffect.deletes (hw : PruneEffect a w) (ha : Final a) : Deletes a w := by
  rintro height i rfl
  cases hw with
  | delete hprunable hi =>
    obtain ⟨row, hrow, hcore, hall⟩ := hprunable.loaded
    exact ⟨⟨row, hrow, BlobMetadata.blobCount_of_core hcore ▸ hi, hall⟩,
      ha.reaches hprunable.final⟩

theorem Effect.deletes (hw : Effect cfg m₀ ev a w) (ha : Final a) : Deletes a w := by
  cases hw with
  | archive hw =>
    cases hw with
    | prune hw => exact hw.deletes ha
    | _ => nofun
  | remove _ hw => cases hw <;> nofun
  | _ => nofun

theorem BootEffect.deletes (hw : BootEffect cfg a w) (ha : Final a) : Deletes a w := by
  cases hw with
  | prune hw => exact hw.deletes ha
  | _ => nofun

/-- The messages of a run start no round too early. -/
def FollowsCommits (s : Node) (l : Label) : Prop := ∀ ev, l.event? = some ev → ev.Follows s.disk.store

/-- **Blobs are deleted when their height is archived and committed.** Wherever a run has taken the
node, the next message or start deletes decided blobs of such heights only, up to any of its writes. -/
theorem deletes_archived_committed (hfirst : cfg.startHeight ≤ 1) {node : Node}
    (hreach : Node.Reachable cfg FollowsCommits node) :
    node.Holds (fun d => Emits Deletes ((start cfg).run (bootMachine cfg d)))
      fun m => ∀ ev, ev.Follows m.disk.store → Emits Deletes ((handle cfg ev).run m) := by
  have hfinal : node.Holds (fun _ => True) Final := by
    refine Node.invariant_of_reach trivial ?_ ?_ (fun _ _ _ _ _ => trivial) ?_
      (fun _ _ _ => trivial) hreach
    · exact fun m ev hm hok => (final_of_handle cfg hm (hok ev rfl)).2 none
    · exact fun m ev k hm hok => (final_of_handle cfg hm (hok ev rfl)).2 (some k)
    · exact fun d height m _ hreturns => hreturns.2 ▸ (final_of_start hfirst d).2 none
  cases node with
  | down d =>
    exact fun e he =>
      (start_writes cfg (bootMachine cfg d) e he).deletes ((final_of_start hfirst d).1 e he)
  | up m =>
    exact fun ev hev e he =>
      (handle_writes cfg m ev e he).deletes ((final_of_handle cfg hfinal hev).1 e he)

open Sample in
/-- The notice that archives the blob of a committed block deletes it. -/
theorem deletes_archived_committed_blob :
    let o := (handle (config 2) (.archiveNotice blobNotice)).run (node 2 commitBlob).machine
    Write.blob (.deleteDecided 1 0) ∈ o.log.map (·.2) ∧ Emits Deletes o := by
  have hup : node 2 commitBlob = .up (node 2 commitBlob).machine := Node.eq_up (by decide +kernel)
  have hreach : Node.Reachable (config 2) FollowsCommits (node 2 commitBlob) := by
    refine Reach.refl.follow
      ⟨?_, by decide +kernel, ?_, by decide +kernel, ?_, by decide +kernel, trivial⟩ <;>
      rintro ev ⟨⟩ <;> exact True.intro
  have hdeletes := deletes_archived_committed (by decide) hreach
  rw [hup] at hdeletes
  exact ⟨by decide +kernel, hdeletes _ trivial⟩

/-- **Pruned blobs can be found.** In every run, a height whose blobs are reported as pruned has an
archive record for each of them, and the report has the locators of all. -/
theorem pruned_blobs_located {ok : Node → Label → Prop} {node : Node} {locators : List String}
    (hreach : Node.Reachable cfg ok node)
    (hpruned : getBlobsWithStatusCheck node.disk height = .error locators) :
    ∃ row, node.disk.store.getBlobMetadata height = .ok (some row) ∧ row.allArchived = true ∧
      locators.length = row.blobCount := by
  unfold getBlobsWithStatusCheck at hpruned
  split at hpruned
  · rename_i row hrow
    split at hpruned
    · rename_i hmarked
      cases hpruned
      have hall := pruneSound_of_loaded (archiveSound_of_reachable hreach).decided hrow hmarked
      refine ⟨row, hrow, hall, ?_⟩
      unfold BlobMetadata.locators
      rw [List.filterMap_length_eq_length.2, List.length_range]
      simpa [BlobMetadata.allArchived] using hall
    · cases hpruned
  · cases hpruned

namespace Sample

/-- The blob of the block is archived, and pruned. -/
def archived : List Label := commitBlob ++ [.handle (.archiveNotice blobNotice)]

end Sample

open Sample in
/-- Its locator is what the node has left. -/
theorem pruned_blobs_located_one :
    ∃ row, (node 2 archived).disk.store.getBlobMetadata 1 = .ok (some row) ∧ row.allArchived = true ∧
      ["blob"].length = row.blobCount := by
  have hpruned : Node.Reachable (config 2) (fun _ _ => True) (node 2 archived) ∧
      getBlobsWithStatusCheck (node 2 archived).disk 1 = .error ["blob"] := reached (by decide +kernel)
  exact pruned_blobs_located hpruned.1 hpruned.2

end Ultramarine
