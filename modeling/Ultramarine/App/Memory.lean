import Ultramarine.App.Effects

/-!
# What a message does to the memory

The counterpart of `App/Effects.lean` for the volatile half of the state: every change of the memory
that a handler makes is one of a fixed list (`MemEffect`). The list is about the *head*, the fields
that say how far the node is: the current height and round, `latest_block`, the executed and the
finalized height. Everything else (stream buffers, tracked rounds, the blob-root cache, the queues,
counters, the state of the engine) is set aside.

* `latest_block` is written by five handlers, from three sources: decided values or rows of blob
  metadata (`head`, `realigned`), a decided payload (`decided`), the header of a synced package
  (`advanced`).

Results:

* `handle_moves`, `start_moves`: the changes of every handler, and of a start;
* `Node.invariant_of_reach`: an invariant of disk and memory that changes and writes keep.
-/

namespace Ultramarine

open Lib Ssz Prog

/-- The height is committed. -/
def Store.Committed (s : Store) (height : Height) : Prop := (s.decidedValues[height]?).isSome

/-- **How a message may change the memory.** `m₀` is the machine when the message arrives, `m` the
machine just before the change. -/
inductive MemEffect (cfg : Config) (m₀ : Machine Disk Memory) (ev : Event)
    (m : Machine Disk Memory) : Memory → Prop
  | aside {mem : Memory} (h : m.mem.SameHead mem) : MemEffect cfg m₀ ev m mem
  | round {height : Height} {round : Round} (hev : ev = .startedRound height round) :
      MemEffect cfg m₀ ev m { m.mem with currentHeight := height, currentRound := round }
  | head {block : ExecutionBlock} (h : loadDecidedBlock m.disk.store = .ok (some block)) :
      MemEffect cfg m₀ ev m { m.mem with latestBlock := some block }
  | realigned {c : CommitCertificate} {script : EngineScript} (hev : ev = .decided c script) :
      MemEffect cfg m₀ ev m (m.mem.realign m.disk.store c.height)
  | finalized {c : CommitCertificate} {script : EngineScript} (hev : ev = .decided c script)
      (hcommitted : m.disk.store.Committed c.height) :
      MemEffect cfg m₀ ev m
        { m.mem with latestFinalizedHeight := max m.mem.latestFinalizedHeight c.height }
  | next {c : CommitCertificate} {script : EngineScript} (hev : ev = .decided c script)
      (hcommitted : m.disk.store.Committed c.height) :
      MemEffect cfg m₀ ev m { m.mem with
        currentHeight := max m.mem.currentHeight (c.height + 1)
        currentRound := .some 0 }
  | decided {c : CommitCertificate} {script : EngineScript} {record : BlockPayloadRecord}
      {payload : ExecutionPayloadV3} {m₁ : Machine Disk Memory} (hev : ev = .decided c script)
      (hload : m₀.disk.store.loadBlockPayloadRecord ⟨c.height, c.round⟩ = some record)
      (hdecode : cfg.oracles.fromSszBytes record.executionPayloadSsz = some payload)
      (hstore : m₁.disk.store = m₀.disk.store) (hcommit : Returns (commit cfg c) m₁ () m) :
      MemEffect cfg m₀ ev m { m.mem with latestBlock := some (executionBlockOfPayload payload) }
  | executed {c : CommitCertificate} {script : EngineScript} (hev : ev = .decided c script) :
      MemEffect cfg m₀ ev m (m.mem.executed c.height)
  | advanced {height : Height} {round : Round} {proposer : Address} {value : Value}
      {notices : List ArchiveNotice} {payload : Bytes} {requests : List Bytes}
      (hev : ev = .processSyncedValue height round proposer
        (.metadataOnly value notices (some payload) requests)) :
      MemEffect cfg m₀ ev m { m.mem with
        latestBlock := advanceLatestBlock
          (executionBlockOfHeader value.metadata.executionPayloadHeader) m.mem.latestBlock }

variable {m m' : Machine Disk Memory} {α : Type} {cfg : Config}

/-- A height whose commit returns is committed. -/
theorem committed_of_commitHeight {c : CommitCertificate} {u : Unit}
    (h : Returns (commitHeight cfg c) m u m') : m'.disk.store.Committed c.height := by
  unfold commitHeight at h
  rw [returns_getDisk_bind] at h
  split at h
  · rename_i p hp
    obtain ⟨_, _, metadata, _, hsame, _⟩ := returns_commitProposal h
    have hvalue := (hsame c.height).value.trans (Store.committed_decidedValue _ cfg c p)
    exact Option.isSome_iff_exists.2 ⟨_, hvalue⟩
  · rename_i dv hp hdv
    have hgrows := Disk.Grows.run (commitReplay cfg c) m
    rw [h.2] at hgrows
    exact hgrows.values c.height (Option.isSome_iff_exists.2 ⟨dv, hdv⟩)
  · exact absurd h returns_fail

/-- The import of a block changes what is known about the engine. -/
theorem moves_importBlock {M : Machine Disk Memory → Memory → Prop}
    (hdegraded : ∀ m, M m m.mem.markElDegraded) (height : Height) (payload : ExecutionPayloadV3)
    (script : EngineScript) : Moves M (importBlock height payload script) m := by
  have hc := Moves.closed (ω := Write) (ε := Err) M
  refine hc.ofExit_bind fun r _ => ?_
  obtain ⟨status, pending⟩ := r
  refine hc.bind (hc.onlyIf fun _ => .modifyMem (hdegraded _)) fun _ _ => hc.ofExit_bind fun _ _ => ?_
  refine hc.getMem_bind (hc.ofExit_bind fun _ _ => ?_)
  split
  · exact .pure _
  · refine hc.ofExit_bind fun applied _ => ?_
    split
    · exact .pure _
    · exact .bind (.modifyMem (hdegraded _)) fun _ _ => .pure _

/-- The gate follows the head, and keeps what it learns about the engine. -/
theorem moves_ensureElMatchesClHead {M : Machine Disk Memory → Memory → Prop}
    (hhead : ∀ a block, loadDecidedBlock a.disk.store = .ok (some block) →
      M a { a.mem with latestBlock := some block })
    (happlied : ∀ a hash, M a { a.mem with elDegraded := false, lastFcuHead := hash })
    (hdegraded : ∀ a, M a a.mem.markElDegraded) (gate : GateAnswer) :
    Moves M (ensureElMatchesClHead gate) m := by
  have hc := Moves.closed (ω := Write) (ε := Err) M
  refine hc.bind (hc.get_bind (hc.ofExit_bind fun block hblock => ?_)) fun block _ => ?_
  · cases block with
    | none => exact hc.ofExit _
    | some block => exact .bind (.modifyMem (hhead _ _ hblock)) fun _ _ => .pure _
  · refine hc.getMem_bind ?_
    split
    · exact hc.fail _
    split
    · exact .pure _
    split
    · exact .bind (.modifyMem (happlied _ _)) fun _ _ => .pure _
    · exact .bind (.modifyMem (hdegraded _)) fun _ _ => hc.fail _

/-- An invariant of the memory that the changes keep holds wherever the call is stopped. -/
theorem moves_machineAt {M : Machine Disk Memory → Memory → Prop} {I : Memory → Prop} {p : Act α}
    (h : Moves M p m) (hm : I m.mem) (hM : ∀ a mem, I a.mem → M a mem → I mem) (cut : Option Nat) :
    I (machineAt (p.run m) cut).mem := by
  cases cut with
  | none => exact (h.invariant (I := fun a => I a.mem) hm (fun a mem => hM a mem) fun _ _ ha => ha).2
  | some k => exact h.cutAt (I := fun a => I a.mem) hm (fun a mem => hM a mem) (fun _ _ ha => ha) k

/-! ## Starts -/

/-- The memory a start leaves: nothing executed, the heights of the configuration and of the disk, and
the block of the highest committed height, or the execution genesis block. -/
structure Started (cfg : Config) (m : Machine Disk Memory) : Prop where
  currentHeight : m.mem.currentHeight = cfg.startHeight
  executedHeight : m.mem.executedHeight = 0
  latestFinalizedHeight : m.mem.latestFinalizedHeight = m.disk.store.maxDecidedValueHeight.getD 0
  latestBlock : ∃ block, loadDecidedBlock m.disk.store = .ok block ∧
    m.mem.latestBlock = (block <|> some cfg.genesisBlock)

section Start

variable {cfg : Config}

/-- A start writes no decided value. -/
theorem decidedValues_of_boot {p : Act α} (h : Emits (BootEffect cfg) (p.run m)) :
    (p.run m).state.disk.store.decidedValues = m.disk.store.decidedValues := by
  refine decidedValues_of_emits (h.mono fun _ w hw => ?_)
  cases hw with
  | genesis => rfl
  | stale _ => rfl
  | prune hw => cases hw <;> trivial

/-- **The memory a start leaves.** -/
theorem started_of_start {height : Height} (h : Returns (start cfg) m height m') :
    Started cfg m' ∧ m'.disk.store.decidedValues = m.disk.store.decidedValues := by
  unfold start at h
  rw [returns_modifyMem_bind] at h
  obtain ⟨_, m₁, h₁, h⟩ := returns_bind.1 h
  obtain ⟨_, m₂, h₂, h⟩ := returns_bind.1 h
  obtain ⟨_, m₃, h₃, h⟩ := returns_bind.1 h
  have hhydrate := hydrateBlobParentRoot_writes cfg
    ⟨m.disk, { Memory.new cfg.startHeight with latestBlock := some cfg.genesisBlock }⟩
  have hhead₁ := sameHead_of_aside hhydrate.2
  have hvalues₁ := decidedValues_of_boot hhydrate.1
  rw [h₁.2] at hhead₁ hvalues₁
  have hhead₂ : m₁.mem.SameHead (cleanupStaleBlobMetadata.run m₁).state.mem :=
    sameHead_of_moves ((Moves.closed _).get_bind (.writeAll _ _))
  have hvalues₂ := decidedValues_of_boot (cleanupStaleBlobMetadata_writes hhead₁.currentHeight)
  rw [h₂.2] at hhead₂ hvalues₂
  have hvalues₃ := decidedValues_of_boot (rehydratePendingPrunes_writes cfg m₂)
  rw [h₃.2] at hvalues₃
  unfold rehydratePendingPrunes at h₃
  rw [returns_getDisk_bind, returns_modifyMem_bind] at h₃
  have hhead₃ := sameHead_of_aside (rehydrateHeights_writes cfg m₂.disk.store.decidedHeights
    ⟨m₂.disk, { m₂.mem with
      latestFinalizedHeight := m₂.disk.store.maxDecidedValueHeight.getD m₂.mem.latestFinalizedHeight
      pendingPruneHeights := ∅
      pendingArchiveHeights := ∅ }⟩).2
  rw [h₃.2] at hhead₃
  unfold consensusReady at h
  simp only [returns_getDisk_bind, returns_ofExit_bind, returns_modifyMem_bind, returns_getMem_bind,
    Exit.ensure_eq_ok, returns_pure, exists_const] at h
  obtain ⟨block, hblock, _, _, rfl⟩ := h
  have hmax : m₃.disk.store.maxDecidedValueHeight = m₂.disk.store.maxDecidedValueHeight := by
    unfold Store.maxDecidedValueHeight
    rw [hvalues₃]
  refine ⟨⟨?_, ?_, ?_, block, hblock, ?_⟩, hvalues₃.trans (hvalues₂.trans hvalues₁)⟩
  · exact hhead₃.currentHeight.trans (hhead₂.currentHeight.trans hhead₁.currentHeight)
  · exact hhead₃.executedHeight.trans (hhead₂.executedHeight.trans hhead₁.executedHeight)
  · refine hhead₃.latestFinalizedHeight.trans ?_
    show m₂.disk.store.maxDecidedValueHeight.getD m₂.mem.latestFinalizedHeight =
      m₃.disk.store.maxDecidedValueHeight.getD 0
    rw [hmax, hhead₂.latestFinalizedHeight, hhead₁.latestFinalizedHeight]
    rfl
  · show (block <|> m₃.mem.latestBlock) = _
    rw [hhead₃.latestBlock]
    show (block <|> m₂.mem.latestBlock) = _
    rw [hhead₂.latestBlock, hhead₁.latestBlock]

end Start

/-! ## Runs -/

/-- What holds of a node: `D` of its disk while it is down, `I` of its machine while it is up. -/
def Node.Holds (D : Disk → Prop) (I : Machine Disk Memory → Prop) : Node → Prop
  | .down d => D d
  | .up m => I m

/-- **Invariants of disk and memory.** A message that is handled, or aborted by a failing write, keeps
`I`; one that is cut off by a crash leaves `D`, from which a start makes `I` again. -/
theorem Node.invariant_of_reach {ok : Node → Label → Prop} {D : Disk → Prop}
    {I : Machine Disk Memory → Prop} (hinit : D Disk.empty)
    (hhandle : ∀ m ev, I m → ok (.up m) (.handle ev) → I ((Ultramarine.handle cfg ev).run m).state)
    (habort : ∀ m ev k, I m → ok (.up m) (.abort ev k) → I (cutAt ((Ultramarine.handle cfg ev).run m) k))
    (hcrash : ∀ m ev k, I m → ok (.up m) (.crash ev k) → D (cutAt ((Ultramarine.handle cfg ev).run m) k).disk)
    (hstart : ∀ d height m, D d → Returns (Ultramarine.start cfg) (bootMachine cfg d) height m → I m)
    (hcrashStart : ∀ d k, D d → D (cutAt ((Ultramarine.start cfg).run (bootMachine cfg d)) k).disk)
    {s : Node} (h : Node.Reachable cfg ok s) : s.Holds D I := by
  refine h.invariant (I := Node.Holds D I) hinit ?_
  intro s l s' hs hok hnext
  cases s with
  | up m =>
    cases l with
    | handle ev =>
      simp only [Node.next, Option.ite_none_left_eq_some, Option.some.injEq] at hnext
      obtain ⟨_, rfl⟩ := hnext
      exact hhandle m ev hs hok
    | abort ev k =>
      cases hnext
      exact habort m ev k hs hok
    | crash ev k =>
      cases hnext
      exact hcrash m ev k hs hok
    | start => cases hnext
    | crashStart k => cases hnext
  | down d =>
    cases l with
    | start =>
      simp only [Node.next] at hnext
      split at hnext
      · rename_i height hexit
        cases hnext
        exact hstart d height _ hs ⟨hexit, rfl⟩
      · cases hnext
    | crashStart k =>
      cases hnext
      exact hcrashStart d k hs
    | handle ev => cases hnext
    | abort ev k => cases hnext
    | crash ev k => cases hnext

end Ultramarine
