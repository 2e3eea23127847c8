import Ultramarine.App.Decision
import Ultramarine.App.Walk

/-!
# Decided heights and crashes

A height is complete if its decided value comes with blob metadata, consensus metadata and block
data. `commit` writes the value first and the other three in transactions of their own, with error
returns in between, so a node that stops inside that window, or a commit that fails there, leaves an
incomplete height; and a start resumes above the greatest decided value, so nothing repairs it.

`commitsWhole` is what it takes: no stop inside the window, and a commit that has all it needs when
its message arrives.

Results:

* `decided_height_complete`: a run whose decisions are all whole has only complete heights.
-/

namespace Ultramarine

open Lib Ssz Prog

/-- The height has no decided value, or has everything that goes with it. -/
def Disk.Complete (d : Disk) (h : Height) : Prop :=
  (d.store.decidedValues[h]?).isSome →
    (d.store.blobMetadataDecided[h]?).isSome ∧ (d.store.consensusBlockMetadata[h]?).isSome ∧
      (d.store.decidedBlockData[h]?).isSome

/-- Every height is complete. -/
def Disk.AllComplete (d : Disk) : Prop := ∀ h, d.Complete h

/-- The transactions of `commit` between the decided value and the end of the window. -/
def Write.finishesCommit : Write → Bool
  | .store (.insertConsensusBlockMetadata _ _) | .store (.markBlobMetadataDecided _)
  | .store (.insertDecidedBlockData _ _) => true
  | _ => false

/-- A commit of the certificate finds what it needs: if the proposal is there, the round has a wire
form and the metadata can be promoted and read. -/
def commitReady (d : Disk) (c : CommitCertificate) : Bool :=
  (d.store.undecidedProposals[Slot.mk c.height c.round]?).isNone ||
    (decide (c.round.asI64 ≤ i32Max) && (d.store.promoted ⟨c.height, c.round⟩).isSome)

/-- A call is stopped, if at all, outside the window of a commit. -/
def stopsOutside {α : Type} (o : Outcome Disk Memory Write Err α) (cut : Option Nat) : Bool :=
  (cut.bind fun k => o.log[k]?).all fun e => !e.2.finishesCommit

/-- A step stops no commit inside its window and starts none that would fail there. -/
def commitsWhole (cfg : Config) (s : Node) (l : Label) : Bool :=
  match s, l.event? with
  | .up m, some (.decided c script) =>
    commitReady m.disk c && stopsOutside ((handle cfg (.decided c script)).run m) l.cut?
  | _, _ => true

variable {α β : Type} {c : CommitCertificate} {cfg : Config} {p : ProposedValue}
  {record : BlockPayloadRecord} {m : Machine Disk Memory}

section Writes

variable {cfg : Config} {m : Machine Disk Memory}

/-- Every transaction but that of a decided value keeps complete heights complete. -/
theorem allComplete_apply {d : Disk} {w : StoreWrite} (hw : w.isDecidedValue = false)
    (h : d.AllComplete) : ({ d with store := d.store.apply w } : Disk).AllComplete := by
  intro n hn
  have hgrows : Disk.Grows d { d with store := d.store.apply w } := .apply d (.store w)
  have hvalues := d.store.decidedValues_apply hw
  have hn' : (d.store.decidedValues[n]?).isSome := by
    rw [← hvalues]
    exact hn
  obtain ⟨hmetadata, hconsensus, hdata⟩ := h n hn'
  obtain ⟨r, hr⟩ := Option.isSome_iff_exists.1 hdata
  refine ⟨hgrows.metadata n hmetadata, hgrows.consensus n hconsensus, ?_⟩
  rw [hgrows.blockData n r hr]
  rfl

/-- A call that writes no decided value keeps complete heights complete. -/
theorem keeps_allComplete {p : Act α}
    (hp : Emits (OnStore fun _ w => w.isDecidedValue = false) (p.run m)) :
    Keeps Disk.AllComplete p m := by
  refine hp.mono fun m' w hw hm' => ?_
  cases w with
  | blob b => exact hm'
  | store w => exact allComplete_apply hw hm'

/-- From complete heights, the call stops at incomplete ones only inside the window of a commit. -/
def StopsWhole {α : Type} (p : Act α) (m : Machine Disk Memory) : Prop :=
  m.disk.AllComplete →
    Emits (fun m w => w.finishesCommit = true ∨ m.disk.AllComplete) (p.run m) ∧
      (p.run m).state.disk.AllComplete

theorem StopsWhole.of_keeps {p : Act α} (h : Keeps Disk.AllComplete p m) :
    StopsWhole p m := fun hm =>
  ⟨fun e he => .inr ((p.disk_invariant hm h).1 e he), (p.disk_invariant hm h).2⟩

theorem StopsWhole.bind {p : Act α} {f : α → Act β} (hp : StopsWhole p m)
    (hf : ∀ a, (p.run m).exit = .ok a → StopsWhole (f a) (p.run m).state) :
    StopsWhole (p >>= f) m := by
  intro hm
  obtain ⟨hemits, hstate⟩ := hp hm
  refine ⟨hemits.bind fun a ha => (hf a ha hstate).1, ?_⟩
  cases h : (p.run m).exit with
  | ok a =>
    rw [run_bind_ok h]
    exact (hf a h hstate).2
  | error e =>
    rw [run_bind_error h]
    exact hstate
  | panic =>
    rw [run_bind_panic h]
    exact hstate

theorem StopsWhole.silent {p : Act α} (hp : Silent p) : StopsWhole p m :=
  .of_keeps ((hp m).mono fun _ _ h => h.elim)

theorem StopsWhole.closed : Closed fun (p : Act _) m => StopsWhole p m where
  still hlog _ := .of_keeps (.of_log_nil hlog)
  bind := .bind
  attempt hp hm := ⟨(hp hm).1.attempt, by rw [attempt_state]; exact (hp hm).2⟩

/-- The transactions of the window are all there is after the decided value. -/
theorem emits_finishesCommit (hm : m.disk.AllComplete) :
    Emits (fun m w => w.finishesCommit = true ∨ m.disk.AllComplete)
      ((commitTables cfg c p).run m) :=
  commitTables_writes (fun _ => .inr hm) (fun _ _ _ => .inl rfl) (fun _ => .inl rfl) fun _ _ => .inl rfl

/-- The four transactions together leave complete heights. -/
theorem allComplete_committed (hrow : (m.disk.store.promotedRow ⟨c.height, c.round⟩).isSome)
    (hload : m.disk.store.loadBlockPayloadRecord ⟨c.height, c.round⟩ = some record)
    (hm : m.disk.AllComplete) :
    (Disk.mk (m.disk.store.committed cfg c p) m.disk.blobs).AllComplete := by
  intro n hn
  by_cases hc : c.height = n
  · subst hc
    refine ⟨?_, ?_, ?_⟩
    · rw [Store.committed_metadata, if_pos rfl]
      exact hrow
    · rw [Store.committed_consensus]
      rfl
    · rw [Store.committed_blockData]
      unfold Store.loadBlockPayloadRecord at hload
      revert hload
      cases m.disk.store.decidedBlockData[c.height]? <;>
        cases m.disk.store.undecidedBlockData[Slot.mk c.height c.round]? <;> simp
  · -- the other heights only grow
    have hgrows := Disk.grows_committed cfg c p m.disk
    have hn' : (m.disk.store.decidedValues[n]?).isSome := by
      rw [(Store.committed_fields m.disk.store cfg c p).1, Table.getElem?_insert_eq,
        if_neg hc] at hn
      exact hn
    obtain ⟨hmetadata, hconsensus, hdata⟩ := hm n hn'
    obtain ⟨r, hr⟩ := Option.isSome_iff_exists.1 hdata
    refine ⟨hgrows.metadata n hmetadata, hgrows.consensus n hconsensus, ?_⟩
    rw [hgrows.blockData n r hr]
    rfl

end Writes

/-! ## Decisions -/

section Decisions

variable {cfg : Config} {m : Machine Disk Memory} {c : CommitCertificate}

/-- The window of a commit that has all it needs ends in complete heights. -/
theorem commitTables_stopsWhole (hle : c.round.asI64 ≤ i32Max)
    (hready : (m.disk.store.promoted ⟨c.height, c.round⟩).isSome)
    (hload : m.disk.store.loadBlockPayloadRecord ⟨c.height, c.round⟩ = some record) :
    StopsWhole (commitTables cfg c p) m := by
  intro hm
  refine ⟨emits_finishesCommit hm, ?_⟩
  by_cases hnil : c.round = .nil
  · -- the decided value has no wire form, nothing is written
    have hrun : (storeDecidedValue c p.value).run m = ⟨.error .encode, m, []⟩ := by
      unfold storeDecidedValue Exit.ensure
      rw [if_neg (not_not.2 hnil)]
      rfl
    unfold commitTables
    rw [run_bind_error (e := .encode) (by rw [hrun]), hrun]
    exact hm
  · obtain ⟨metadata, hmetadata⟩ := Option.isSome_iff_exists.1 hready
    have hreturns : Returns (commitTables cfg c p) m () _ :=
      returns_commitTables.2 ⟨hnil, hle, metadata, hmetadata, rfl⟩
    obtain ⟨row, hrow, _⟩ := Option.bind_eq_some_iff.1 hmetadata
    rw [hreturns.2]
    exact allComplete_committed (Option.isSome_iff_exists.2 ⟨row, hrow⟩) hload hm

theorem commit_stopsWhole {record : BlockPayloadRecord} (hready : commitReady m.disk c = true)
    (hload : m.disk.store.loadBlockPayloadRecord ⟨c.height, c.round⟩ = some record) :
    StopsWhole (commit cfg c) m := by
  unfold commit commitHeight
  refine StopsWhole.bind (fun hm => ?_) fun _ _ => .of_keeps (keeps_allComplete
    ((finishCommit_prunes _ _).mono fun _ w hw => by cases hw <;> trivial))
  rw [run_getDisk_bind]
  split
  · rename_i p hp
    obtain ⟨hle, hpromoted⟩ : c.round.asI64 ≤ i32Max ∧
        (m.disk.store.promoted ⟨c.height, c.round⟩).isSome = true := by
      simpa [commitReady, hp] using hready
    refine StopsWhole.bind (commitTables_stopsWhole hle hpromoted hload) (fun _ _ => ?_) hm
    refine .of_keeps (keeps_allComplete ((commitCleanup_writes _ _ _).mono fun _ w hw => ?_))
    cases hw with
    | prune hle => rfl
    | drop h => cases h <;> trivial
  · exact StopsWhole.of_keeps (keeps_allComplete (commitReplay_writes (fun _ _ => trivial)
      (fun _ _ _ => trivial) fun _ => rfl)) hm
  · exact StopsWhole.silent (Silent.fail _) hm

theorem processDecided_stopsWhole {bytes : Bytes} {script : EngineScript}
    (hready : commitReady m.disk c = true)
    (hload : m.disk.store.loadBlockPayloadRecord ⟨c.height, c.round⟩ = some record) :
    StopsWhole (processDecidedCertificate cfg c bytes script) m := by
  unfold processDecidedCertificate
  refine StopsWhole.closed.getDisk_bind (StopsWhole.closed.ofExit_bind fun check _ => ?_)
  have hpromote : ∀ {m : Machine Disk Memory}, Emits (OnStore fun _ w => w.isDecidedValue = false)
      ((Prog.onlyIf ((!check.alreadyDecided) = true)
        (markDecided c.height c.round.asI64)).run m) :=
    (Emits.closed _).onlyIf fun _ => markDecided_writes (fun _ _ => trivial) fun _ _ _ => trivial
  refine .bind (.of_keeps (keeps_allComplete hpromote)) fun _ _ => ?_
  have hstore : ((Prog.onlyIf ((!check.alreadyDecided) = true)
      (markDecided c.height c.round.asI64)).run m).state.disk.store = m.disk.store :=
    ((markDecided_frame _ _).onlyIf m).1
  -- the import writes nothing, so the commit starts from the store of the message
  refine .bind (.silent (importBlock_silent _ _ _)) fun r _ => ?_
  refine .bind (.silent (Silent.modifyMem _)) fun _ _ => ?_
  refine .bind (@commit_stopsWhole _ _ _ record ?_ ?_) fun _ _ => ?_
  · unfold commitReady
    rw [Silent.disk_eq (Silent.modifyMem _), Silent.disk_eq (importBlock_silent _ _ _), hstore]
    exact hready
  · rw [Silent.disk_eq (Silent.modifyMem _), Silent.disk_eq (importBlock_silent _ _ _), hstore]
    exact hload
  · exact .silent (finishDecided_silent _ _ _ _ _ _)

theorem decided_stopsWhole (script : EngineScript) (hready : commitReady m.disk c = true) :
    StopsWhole (decided cfg c script) m := by
  unfold decided
  refine .bind (.silent (realignLatestBlock_silent _)) fun _ _ => StopsWhole.closed.getDisk_bind ?_
  have hdisk := (realignLatestBlock_silent c.height).disk_eq m
  split
  · exact .silent (Silent.pure _)
  · rename_i record hload
    split
    · exact .silent (Silent.pure _)
    · refine .bind (StopsWhole.closed.attempt (processDecided_stopsWhole ?_ hload)) fun r _ => ?_
      · rw [hdisk]
        exact hready
      · cases r with
        | error e => exact .silent (Silent.pure _)
        | ok out => exact .silent (getMem_silent.bind fun _ => Silent.pure _)

end Decisions

/-! ## Runs -/

theorem allComplete_empty : Disk.empty.AllComplete := by
  intro h hh
  simp [Disk.empty, Store.empty] at hh

/-- Every message but a decision keeps complete heights complete. -/
theorem keeps_allComplete_handle {ev : Event} (hev : ∀ c script, ev ≠ .decided c script) :
    Keeps Disk.AllComplete (handle cfg ev) m := by
  refine keeps_allComplete ((handle_effects cfg m ev).mono fun m' w hw => ?_)
  cases w with
  | blob b => trivial
  | store w =>
    cases hw with
    | decidedValue hdecided _ => exact absurd hdecided (hev _ _)
    | @removal w hremoval => cases w <;> first | rfl | cases hremoval
    | _ => rfl

theorem keeps_allComplete_start (d : Disk) :
    Keeps Disk.AllComplete (start cfg) (bootMachine cfg d) := by
  refine keeps_allComplete ((start_effects cfg _).mono fun m' w hw => ?_)
  cases w with
  | blob b => trivial
  | store w =>
    cases hw with
    | @removal w hremoval => cases w <;> first | rfl | cases hremoval
    | _ => rfl

/-- A decision that is not stopped inside its window leaves complete heights. -/
theorem allComplete_diskAt {script : EngineScript} (hm : m.disk.AllComplete)
    (hready : commitReady m.disk c = true) {cut : Option Nat}
    (hcut : stopsOutside ((handle cfg (.decided c script)).run m) cut = true) :
    (diskAt ((handle cfg (.decided c script)).run m) cut).AllComplete := by
  obtain ⟨hemits, hstate⟩ : Emits (fun m w => w.finishesCommit = true ∨ m.disk.AllComplete)
      ((handle cfg (.decided c script)).run m) ∧
        ((handle cfg (.decided c script)).run m).state.disk.AllComplete :=
    StopsWhole.bind (StopsWhole.closed.attempt (decided_stopsWhole script hready))
      (fun _ _ => .silent (Silent.pure _)) hm
  cases cut with
  | none => exact hstate
  | some k =>
    show (Prog.cutAt ((handle cfg (.decided c script)).run m) k).disk.AllComplete
    unfold Prog.cutAt
    cases hlog : ((handle cfg (.decided c script)).run m).log[k]? with
    | none => exact hstate
    | some e =>
      have hout : e.2.finishesCommit = false := by simpa [stopsOutside, hlog] using hcut
      exact (hemits e (List.mem_of_getElem? hlog)).resolve_left (by rw [hout]; simp)

/-- **Decided heights are complete** in every state of a run that stops no commit inside its window
and starts none that would fail there. -/
theorem decided_height_complete {cfg : Config} {s : Node}
    (h : Node.Reachable cfg (fun s l => commitsWhole cfg s l = true) s) (n : Height)
    (hn : (s.disk.store.decidedValues[n]?).isSome) :
    (s.disk.store.blobMetadataDecided[n]?).isSome ∧
      (s.disk.store.consensusBlockMetadata[n]?).isSome ∧
      (s.disk.store.decidedBlockData[n]?).isSome := by
  refine h.invariant (I := fun s => s.disk.AllComplete) allComplete_empty ?_ n hn
  intro s l s' hs hok hnext
  rcases Node.next_cases hnext with ⟨m, ev, rfl, hev, hdisk⟩ | ⟨d, rfl, _, hdisk⟩
  · rw [hdisk]
    by_cases hdecided : ∃ c script, ev = .decided c script
    · obtain ⟨c, script, rfl⟩ := hdecided
      simp only [commitsWhole, hev, Bool.and_eq_true] at hok
      exact allComplete_diskAt hs hok.1 hok.2
    · exact diskAt_invariant _ hs
        (keeps_allComplete_handle fun c script heq => hdecided ⟨c, script, heq⟩) _
  · rw [hdisk]
    exact diskAt_invariant _ hs (keeps_allComplete_start d) _

namespace Sample

/-- The proposer stops before it commits block 1, starts again, and commits it. -/
def resumedRun : List Label :=
  proposeRun ++ [.crash (.decided certificateOne script) 0, .start,
    .handle (.decided certificateOne script)]

/-- The proposer stops after the first transaction of the commit, and starts again. -/
def tornRun : List Label := proposeRun ++ [.crash (.decided certificateOne script) 1, .start]

end Sample

open Sample in
/-- A stop before the commit does no harm. -/
theorem decided_height_complete_resumed :
    ((node 1 resumedRun).disk.store.decidedValues[1]?).isSome = true ∧
      ((node 1 resumedRun).disk.store.blobMetadataDecided[1]?).isSome ∧
      ((node 1 resumedRun).disk.store.consensusBlockMetadata[1]?).isSome ∧
      ((node 1 resumedRun).disk.store.decidedBlockData[1]?).isSome :=
  ⟨by decide +kernel, decided_height_complete (Reach.refl.follow (by decide +kernel)) 1
    (by decide +kernel)⟩

open Sample in
/-- A stop inside the window leaves a decided value and nothing else, and the node that starts again
resumes above it. -/
theorem torn_commit_incomplete :
    Node.Reachable (config 1) (fun _ _ => True) (node 1 tornRun) ∧
      ((node 1 tornRun).disk.store.decidedValues[1]?).isSome = true ∧
      ((node 1 tornRun).disk.store.blobMetadataDecided[1]?).isSome = false ∧
      ((node 1 tornRun).disk.store.consensusBlockMetadata[1]?).isSome = false ∧
      ((node 1 tornRun).disk.store.decidedBlockData[1]?).isSome = false ∧
      resumeHeight (node 1 tornRun).disk.store = 2 :=
  ⟨Reach.refl.follow (by decide +kernel), by decide +kernel, by decide +kernel, by decide +kernel,
    by decide +kernel, by decide +kernel⟩

end Ultramarine
