import Ultramarine.App.Decision
import Ultramarine.App.Walk

/-!
# `latest_block` and the committed chain

The parent of every proposal is checked against `latest_block`. It should be the block of the highest
committed height, or the execution genesis block. A start and `resolve_cl_head` read it from the decided
values, and a decision sets it to the decided payload; two writes take it from somewhere else:

* an accepted `MetadataOnly` package moves it to the package's own header, before any decision;
* a decision of height 1 takes the block of the row of height 0 if the block in memory has another
  number. That row is the placeholder of an empty store: its hash is zero.

Results:

* `latest_block_is_head`: in a run without those two moves, whose decisions come in order and find
  their slot whole, `latest_block` is the head at every point between two messages; and what the two
  moves do;
* `latest_block_ahead`: the two moves, one after the other, on a node with nothing committed.
-/

namespace Ultramarine

open Lib Ssz Prog

/-! ## The head of the committed chain -/

/-- The decided value of the highest committed height. -/
def Store.head? (s : Store) : Option DecidedValue :=
  s.maxDecidedValueHeight.bind fun height => s.decidedValues[height]?

/-- The execution block of a decided value. -/
def DecidedValue.block (d : DecidedValue) : ExecutionBlock :=
  executionBlockOfHeader d.value.metadata.executionPayloadHeader

/-- The execution block of the highest committed height, or the execution genesis block. -/
def Store.headBlock (cfg : Config) (s : Store) : ExecutionBlock :=
  (s.head?.map DecidedValue.block).getD cfg.genesisBlock

variable {a m : Machine Disk Memory} {height : Height} {J : Machine Disk Memory → Prop}
  {b : ExecutionBlock} {bytes : Bytes} {out : DecidedOutcome} {s : Store}

section Head

variable {cfg : Config} {s s' : Store}

theorem Store.head?_congr (h : s'.decidedValues = s.decidedValues) : s'.head? = s.head? := by
  unfold Store.head? Store.maxDecidedValueHeight
  rw [h]

theorem Store.headBlock_congr (h : s'.decidedValues = s.decidedValues) :
    s'.headBlock cfg = s.headBlock cfg := by
  unfold Store.headBlock
  rw [Store.head?_congr h]

/-- What is read as the last decided block is the head. -/
theorem loadDecidedBlock_eq (s : Store) : loadDecidedBlock s = .ok (s.head?.map DecidedValue.block) := by
  unfold loadDecidedBlock Store.head?
  cases hmax : s.maxDecidedValueHeight with
  | none => rfl
  | some height =>
    obtain ⟨d, hd⟩ := Option.isSome_iff_exists.1 (Store.maxDecidedValueHeight_eq_some.1 hmax).1
    simp only [loadExecutionBlock, Option.bind_some, hd]
    rfl

/-- Every committed height is below the one a start resumes at. -/
theorem Store.lt_resumeHeight (h : (s.decidedValues[height]?).isSome) :
    height < resumeHeight s := by
  unfold resumeHeight
  cases hmax : s.maxDecidedValueHeight with
  | none =>
    rw [Store.maxDecidedValueHeight_eq_none.1 hmax height] at h
    cases h
  | some top => exact Nat.lt_succ_of_le ((Store.maxDecidedValueHeight_eq_some.1 hmax).2 height h)

theorem Store.decidedValues_resumeHeight (s : Store) : s.decidedValues[resumeHeight s]? = none := by
  by_contra h
  exact absurd (Store.lt_resumeHeight (Option.isSome_iff_ne_none.2 h)) (Nat.lt_irrefl _)

/-- A value decided above all others is the new head. -/
theorem Store.head?_insert {d : DecidedValue}
    (hvalues : s'.decidedValues = s.decidedValues.insert d.certificate.height d)
    (habove : ∀ n : Height, (s.decidedValues[n]?).isSome → n < d.certificate.height) :
    s'.head? = some d := by
  have hread : ∀ n : Height, s'.decidedValues[n]? =
      if d.certificate.height = n then some d else s.decidedValues[n]? := fun n => by
    rw [hvalues, Table.getElem?_insert_eq]
  have hmax : s'.maxDecidedValueHeight = some d.certificate.height := by
    refine Store.maxDecidedValueHeight_eq_some.2 ⟨by rw [hread, if_pos rfl]; rfl, fun n hn => ?_⟩
    rw [hread] at hn
    split at hn
    · rename_i h
      exact Nat.le_of_eq h.symm
    · exact Nat.le_of_lt (habove n hn)
  unfold Store.head?
  rw [hmax, Option.bind_some, hread, if_pos rfl]

/-- The block read at a height that is not decided is that of the row of decided metadata. -/
theorem loadExecutionBlock_of_undecided (hnone : s.decidedValues[height]? = none)
    (h : loadExecutionBlock s height = .ok (some b)) :
    ∃ row, s.blobMetadataDecided[height]? = some row ∧
      b = executionBlockOfHeader row.executionPayloadHeader := by
  simp only [loadExecutionBlock, hnone, Exit.bind_eq_ok, Exit.pure_eq_ok, Exit.ok.injEq,
    Option.map_eq_some_iff] at h
  obtain ⟨_, hget, metadata, rfl, rfl⟩ := h
  obtain ⟨row, hrow, hcore⟩ := Store.getBlobMetadata_eq_some hget
  exact ⟨row, hrow, congrArg (fun c : BlobCore => executionBlockOfHeader c.executionPayloadHeader)
    hcore⟩

/-- The realignment changes nothing if `latest_block` is the head and the decision is for the next
height. At height 1 it looks at the row of height 0, which must not have another number. -/
theorem realign_eq_self {mem : Memory} (hlatest : mem.latestBlock = some (s.headBlock cfg))
    (hgenesis : s.maxDecidedValueHeight = none → ∀ row ∈ s.blobMetadataDecided[0]?,
      row.executionPayloadHeader.blockNumber = cfg.genesisBlock.blockNumber) :
    mem.realign s (resumeHeight s) = mem := by
  have hblock : realignedBlock s (resumeHeight s) mem.latestBlock = mem.latestBlock := by
    unfold realignedBlock
    split
    · rfl
    split
    · rename_i prev hprev
      refine if_neg ?_
      rw [hlatest]
      suffices hnumber : (s.headBlock cfg).blockNumber = prev.blockNumber by simp [hnumber]
      cases hmax : s.maxDecidedValueHeight with
      | none =>
        have hone : resumeHeight s = 1 := by simp [resumeHeight, hmax]
        rw [hone] at hprev
        obtain ⟨row, hrow, rfl⟩ := loadExecutionBlock_of_undecided
          (Store.maxDecidedValueHeight_eq_none.1 hmax 0) hprev
        simp only [Store.headBlock, Store.head?, hmax, Option.bind_none, Option.map_none,
          Option.getD_none]
        exact (hgenesis hmax row hrow).symm
      | some top =>
        have hload := loadDecidedBlock_eq s
        have hnext : resumeHeight s = top + 1 := by simp [resumeHeight, hmax]
        rw [hnext] at hprev
        simp only [loadDecidedBlock, hmax] at hload
        have hprev : loadExecutionBlock s top = .ok (some prev) := hprev
        rw [hprev] at hload
        unfold Store.headBlock
        rw [← Exit.ok.inj hload]
        rfl
    · rfl
  unfold Memory.realign
  rw [hblock]

end Head

/-! ## The condition -/

/-- `latest_block` is the head. -/
def AtHead (cfg : Config) (m : Machine Disk Memory) : Prop :=
  m.mem.latestBlock = some (m.disk.store.headBlock cfg)

/-- The payload stored for a slot. -/
def Store.payloadAt (cfg : Config) (s : Store) (slot : Slot) : Option ExecutionPayloadV3 :=
  (s.loadBlockPayloadRecord slot).bind fun record => cfg.oracles.fromSszBytes record.executionPayloadSsz

/-- The decision is for the next height, the row of height 0 has the number of the genesis block, and a
proposal that is there can be committed and has the block of the payload stored with it. -/
def DecidesNext (cfg : Config) (s : Store) (c : CommitCertificate) : Prop :=
  c.height = resumeHeight s ∧ s.Readable ∧
    (s.maxDecidedValueHeight = none → ∀ row ∈ s.blobMetadataDecided[0]?,
      row.executionPayloadHeader.blockNumber = cfg.genesisBlock.blockNumber) ∧
    ∀ p ∈ s.undecidedProposals[Slot.mk c.height c.round]?,
      c.round ≠ .nil ∧ c.round.asI64 ≤ i32Max ∧ (s.promoted ⟨c.height, c.round⟩).isSome ∧
      ∀ payload ∈ s.payloadAt cfg ⟨c.height, c.round⟩, executionBlockOfPayload payload =
        executionBlockOfHeader p.value.metadata.executionPayloadHeader

instance (cfg : Config) (s : Store) (c : CommitCertificate) : Decidable (DecidesNext cfg s c) := by
  unfold DecidesNext
  infer_instance

/-- A message that leaves `latest_block` at the head. -/
def Event.FollowsHead (cfg : Config) (s : Store) : Event → Prop
  | .decided c _ => DecidesNext cfg s c
  | .processSyncedValue _ _ _ (.metadataOnly value _ (some _) _) =>
    value.metadata.executionPayloadHeader.blockNumber ≤ (s.headBlock cfg).blockNumber
  | _ => True

instance (cfg : Config) (s : Store) : ∀ ev : Event, Decidable (ev.FollowsHead cfg s)
  | .decided c _ => inferInstanceAs (Decidable (DecidesNext cfg s c))
  | .processSyncedValue _ _ _ (.metadataOnly _ _ (some _) _) => inferInstanceAs (Decidable (_ ≤ _))
  | .processSyncedValue _ _ _ (.metadataOnly _ _ none _) | .processSyncedValue _ _ _ (.full ..)
  | .startedRound .. | .getValue .. | .restreamProposal .. | .receivedProposalPart ..
  | .archiveNotice _ => .isTrue trivial

/-- A step that leaves `latest_block` at the head: its message does, and a decision is not cut short by
a failing write. -/
def followsHead (cfg : Config) : Node → Label → Prop
  | .up _, .abort (.decided _ _) _ => False
  | .up m, l => ∀ ev ∈ l.event?, ev.FollowsHead cfg m.disk.store
  | .down _, _ => True

instance (cfg : Config) (s : Node) (l : Label) : Decidable (followsHead cfg s l) := by
  unfold followsHead
  split <;> infer_instance

/-! ## Messages other than decisions -/

section Others

variable {cfg : Config} {m : Machine Disk Memory} {ev : Event}

/-- Where a message leaves `latest_block` and the decided values as they were. -/
def SameBlock (m a : Machine Disk Memory) : Prop :=
  a.disk.store.decidedValues = m.disk.store.decidedValues ∧ a.mem.latestBlock = m.mem.latestBlock

theorem AtHead.of_same (hm : AtHead cfg m) (h : SameBlock m a) : AtHead cfg a := by
  unfold AtHead
  rw [h.2, Store.headBlock_congr h.1]
  exact hm

theorem advanceLatestBlock_of_le {block : ExecutionBlock} (h : block.blockNumber ≤ b.blockNumber) :
    advanceLatestBlock block (some b) = some b := if_neg (Nat.not_lt.2 h)

/-- One change of the memory. -/
theorem MemEffect.sameBlock (hm : AtHead cfg m) (hok : ev.FollowsHead cfg m.disk.store)
    (hev : ∀ c script, ev ≠ .decided c script) {mem : Memory} (ha : SameBlock m a)
    (h : MemEffect cfg m ev a mem) : SameBlock m ⟨a.disk, mem⟩ := by
  refine ⟨ha.1, ?_⟩
  cases h with
  | aside h => exact h.latestBlock.trans ha.2
  | round _ => exact ha.2
  | head h =>
    -- what is read from the disk is the head, which `latest_block` is already
    rw [loadDecidedBlock_eq, Store.head?_congr ha.1] at h
    show some _ = _
    rw [hm, Store.headBlock, Exit.ok.inj h]
    rfl
  | advanced hev =>
    subst hev
    show advanceLatestBlock _ a.mem.latestBlock = _
    rw [ha.2, hm]
    exact advanceLatestBlock_of_le hok
  | realigned h => exact absurd h (hev _ _)
  | finalized h => exact absurd h (hev _ _)
  | next h => exact absurd h (hev _ _)
  | decided h => exact absurd h (hev _ _)
  | executed h => exact absurd h (hev _ _)

/-- One write. -/
theorem Effect.sameBlock (hev : ∀ c script, ev ≠ .decided c script) {w : Write}
    (h : OnStore (StoreEffect cfg m ev) a w) (ha : SameBlock m a) :
    SameBlock m ⟨DiskOp.apply w a.disk, a.mem⟩ := by
  refine ⟨Eq.trans ?_ ha.1, ha.2⟩
  cases w with
  | blob b => rfl
  | store w => exact a.disk.store.decidedValues_apply (StoreEffect.isDecidedValue_eq_false h hev)

/-- **A message that is no decision** leaves both alone, wherever it is stopped. -/
theorem sameBlock_of_handle (hm : AtHead cfg m) (hok : ev.FollowsHead cfg m.disk.store)
    (hev : ∀ c script, ev ≠ .decided c script) :
    (∀ k, SameBlock m (cutAt ((handle cfg ev).run m) k)) ∧
      SameBlock m ((handle cfg ev).run m).state := by
  have hmoves := handle_moves cfg m ev
  have hmem := fun a mem (ha : SameBlock m a) (h : MemEffect cfg m ev a mem) =>
    h.sameBlock hm hok hev ha
  have hwrites := (handle_effects cfg m ev).mono fun a w h (ha : SameBlock m a) =>
    Effect.sameBlock hev h ha
  exact ⟨hmoves.cutAt ⟨rfl, rfl⟩ hmem hwrites, (hmoves.invariant ⟨rfl, rfl⟩ hmem hwrites).2⟩

end Others

/-! ## Decisions -/

section Decisions

variable {cfg : Config} {c : CommitCertificate} {script : EngineScript} {m m' : Machine Disk Memory}

theorem stopsAt_getDisk_bind {α : Type} {f : Disk → Act α} (h : StopsAt J (f m.disk) m) :
    StopsAt J (getDisk >>= f) m := by
  unfold StopsAt
  rw [run_getDisk_bind]
  exact h

/-- A commit of a new height inserts its value and no other. -/
theorem decidedValues_of_commit {u : Unit} (hnew : m.disk.store.decidedValues[c.height]? = none)
    (hr : Returns (commit cfg c) m u m') :
    ∃ p, m.disk.store.undecidedProposals[Slot.mk c.height c.round]? = some p ∧
      m'.disk.store.decidedValues = m.disk.store.decidedValues.insert c.height ⟨p.value, c⟩ := by
  rcases decidedValue_of_commit hr with hcommit | ⟨_, hd, _⟩
  · exact hcommit
  · rw [hnew] at hd
    cases hd

/-- A commit that finds its slot whole stops, if at all, before it has written anything. -/
theorem commit_stopsAt (hm : J m) (hok : DecidesNext cfg m.disk.store c) :
    StopsAt J (commit cfg c) m := by
  obtain ⟨hheight, hread, _, hwhole⟩ := hok
  have hnew := m.disk.store.decidedValues_resumeHeight
  rw [← hheight] at hnew
  cases hp : m.disk.store.undecidedProposals[Slot.mk c.height c.round]? with
  | some p =>
    obtain ⟨hnil, hle, hrow, _⟩ := hwhole p hp
    obtain ⟨metadata, hmetadata⟩ := Option.isSome_iff_exists.1 hrow
    obtain ⟨_, m', hr, _⟩ := @commit_of_proposal cfg c m p metadata hp hnil hle hmetadata hread
    exact .of_returns hr
  | none =>
    unfold commit commitHeight
    refine .bind (.of_state ?_) fun _ _ h => ?_
    · rw [run_getDisk_bind, hp, hnew]
      exact hm
    · rw [returns_getDisk_bind, hp, hnew] at h
      exact absurd h returns_fail

/-- The import of a block, however it ends. -/
theorem sameBlock_importBlock (height : Height) (payload : ExecutionPayloadV3)
    (script : EngineScript) (m : Machine Disk Memory) :
    let a := ((importBlock height payload script).run m).state
    a.disk = m.disk ∧ a.mem.latestBlock = m.mem.latestBlock :=
  ⟨Silent.disk_eq (importBlock_silent _ _ _) m,
    (sameHead_of_moves (moves_importBlock (fun _ => ⟨rfl, rfl, rfl, rfl, rfl⟩) _ _ _)).latestBlock⟩

/-- A decision that does not return has left both alone. -/
theorem processDecided_stopsAt (hok : DecidesNext cfg m.disk.store c) :
    StopsAt (SameBlock m) (processDecidedCertificate cfg c bytes script) m := by
  unfold processDecidedCertificate
  refine stopsAt_getDisk_bind (.ofExit_bind ⟨rfl, rfl⟩ fun check _ => ?_)
  refine .bind (.of_returns (returns_importing c check m)) fun _ m₁ h₁ => ?_
  obtain ⟨_, rfl⟩ := h₁.unique (returns_importing c check m)
  obtain ⟨hdisk, hlatest⟩ := sameBlock_importBlock c.height check.payload script
    (importing ⟨c.height, c.round⟩ check m)
  refine .bind (.of_state ⟨congrArg (·.store.decidedValues) hdisk, hlatest⟩) fun r m₂ h₂ => ?_
  rw [h₂.2] at hdisk hlatest
  have hstore : m₂.disk.store = m.disk.store := by rw [hdisk]; rfl
  refine .bind (.of_total (Total.modifyMem _)) fun _ m₃ h₃ => ?_
  cases returns_modifyMem.1 h₃
  refine .bind (commit_stopsAt ⟨congrArg Store.decidedValues hstore, hlatest⟩ ?_) fun _ _ _ =>
    .of_total (total_finishDecided _ _ _ _ _ _)
  show DecidesNext cfg m₂.disk.store c
  rw [hstore]
  exact hok

/-- A decision that returns makes its block the head and `latest_block`. -/
theorem atHead_of_processDecided {record : BlockPayloadRecord}
    (hok : DecidesNext cfg m.disk.store c)
    (hload : m.disk.store.loadBlockPayloadRecord ⟨c.height, c.round⟩ = some record)
    (hr : Returns (processDecidedCertificate cfg c record.executionPayloadSsz script) m out m') :
    AtHead cfg m' := by
  obtain ⟨hheight, _, _, hwhole⟩ := hok
  have hnew := m.disk.store.decidedValues_resumeHeight
  rw [← hheight] at hnew
  obtain ⟨check, m₁, m₂, hcheck, _, hdisk₁, _, hcommit, hdisk, _, hlatest⟩ := processDecided_inversion hr
  have hstore₁ : m₁.disk.store = m.disk.store := by rw [hdisk₁]
  rw [← hstore₁] at hnew
  obtain ⟨p, hp, hvalues⟩ := decidedValues_of_commit hnew hcommit
  rw [hstore₁] at hp hvalues
  have hhead : m'.disk.store.head? = some ⟨p.value, c⟩ := by
    refine @Store.head?_insert m.disk.store m'.disk.store ⟨p.value, c⟩ ?_ fun n hn => ?_
    · rw [hdisk]
      exact hvalues
    · show n < c.height
      rw [hheight]
      exact Store.lt_resumeHeight hn
  have hpayload : m.disk.store.payloadAt cfg ⟨c.height, c.round⟩ = some check.payload := by
    unfold Store.payloadAt
    rw [hload]
    exact checkDecided_payload hcheck
  obtain ⟨_, _, _, hsame⟩ := hwhole p hp
  unfold AtHead Store.headBlock
  rw [hlatest, hhead, hsame _ hpayload]
  rfl

/-- **A decision of the next height** leaves `latest_block` at the head. -/
theorem atHead_of_decided (hm : AtHead cfg m) (hok : DecidesNext cfg m.disk.store c) :
    AtHead cfg ((decided cfg c script).run m).state := by
  obtain ⟨hheight, _, hgenesis, _⟩ := id hok
  have hrealign : (realignLatestBlock c.height).run m = ⟨.ok (), m, []⟩ := by
    have hmem := @realign_eq_self cfg m.disk.store m.mem hm hgenesis
    rw [← hheight] at hmem
    unfold realignLatestBlock
    rw [run_getDisk_bind]
    show (⟨.ok (), ⟨m.disk, m.mem.realign m.disk.store c.height⟩, []⟩ : Outcome _ _ _ _ _) = _
    rw [hmem]
  unfold decided
  rw [run_bind_of_eq hrealign, run_getDisk_bind]
  split
  · exact hm
  rename_i record hload
  split
  · exact hm
  have hprocessed : AtHead cfg ((processDecidedCertificate cfg c record.executionPayloadSsz
      script).run m).state := by
    by_cases hreturns : ∃ out, ((processDecidedCertificate cfg c record.executionPayloadSsz
        script).run m).exit = .ok out
    · obtain ⟨out, hout⟩ := hreturns
      exact atHead_of_processDecided hok hload ⟨hout, rfl⟩
    · exact hm.of_same (processDecided_stopsAt hok (not_exists.1 hreturns))
  refine state_bind_invariant (I := AtHead cfg) ?_ fun r => ?_
  · rw [attempt_state]
    exact hprocessed
  · cases r <;>
    · show AtHead cfg (Prog.run (Prog.attempt _) m).state
      rw [attempt_state]
      exact hprocessed

end Decisions

/-! ## Runs -/

section Runs

variable {cfg : Config}

/-- A start leaves `latest_block` at the head. -/
theorem Started.atHead (h : Started cfg m) : AtHead cfg m := by
  obtain ⟨block, hload, hlatest⟩ := h.latestBlock
  rw [loadDecidedBlock_eq] at hload
  unfold AtHead Store.headBlock
  rw [hlatest, ← Exit.ok.inj hload]
  cases m.disk.store.head? <;> rfl

/-- `latest_block` is the head at every point between two messages. -/
theorem atHead_of_reach {s : Node} (h : Node.Reachable cfg (followsHead cfg) s) :
    s.Holds (fun _ => True) (AtHead cfg) := by
  have hother : ∀ m ev, AtHead cfg m → Event.FollowsHead cfg m.disk.store ev →
      (∀ c script, ev ≠ .decided c script) → (∀ k, AtHead cfg (cutAt ((handle cfg ev).run m) k)) ∧
        AtHead cfg ((handle cfg ev).run m).state := fun m ev hm hok hev =>
    have hsame := sameBlock_of_handle hm hok hev
    ⟨fun k => hm.of_same (hsame.1 k), hm.of_same hsame.2⟩
  refine Node.invariant_of_reach trivial ?_ ?_ (fun _ _ _ _ _ => trivial) ?_ (fun _ _ _ => trivial) h
  · intro m ev hm hok
    have hok : Event.FollowsHead cfg m.disk.store ev := hok ev rfl
    by_cases hev : ∃ c script, ev = .decided c script
    · obtain ⟨c, script, rfl⟩ := hev
      show AtHead cfg ((Act.logged _).run m).state
      rw [Act.logged_state]
      exact atHead_of_decided hm hok
    · exact (hother m ev hm hok fun c script h => hev ⟨c, script, h⟩).2
  · intro m ev k hm hok
    by_cases hev : ∃ c script, ev = .decided c script
    · obtain ⟨c, script, rfl⟩ := hev
      cases hok
    · have hev : ∀ c script, ev ≠ .decided c script := fun c script h => hev ⟨c, script, h⟩
      refine (hother m ev hm ?_ hev).1 k
      cases ev with
      | decided c script => exact absurd rfl (hev c script)
      | _ => exact hok _ rfl
  · intro d height m _ hr
    exact (started_of_start hr).1.atHead

/-- An accepted `MetadataOnly` package moves `latest_block` to its own header, if that is ahead. -/
theorem latestBlock_of_metadataOnly {round : Round} {proposer : Address} {value : Value}
    {notices : List ArchiveNotice} {payload : Option Bytes} {requests : List Bytes}
    {p : ProposedValue} {m' : Machine Disk Memory}
    (h : Returns (processSyncedPackage cfg height round proposer (.metadataOnly value notices payload requests)) m (some p) m') :
    m'.mem.latestBlock = advanceLatestBlock
      (executionBlockOfHeader value.metadata.executionPayloadHeader) m.mem.latestBlock := by
  cases payload with
  | none =>
    obtain ⟨_, _, _, h⟩ := returns_bind.1 h
    cases (returns_pure.1 h).1
  | some payload =>
    obtain ⟨_, m₁, h₁, h⟩ := returns_bind.1 h
    rw [returns_getDisk_bind] at h
    split at h
    · obtain ⟨row, _, h⟩ := returns_ofExit_bind.1 h
      obtain ⟨_, m₂, h₂, h⟩ := returns_bind.1 h
      rw [returns_modifyMem_bind] at h
      obtain ⟨_, m₃, h₃, h⟩ := returns_bind.1 h
      obtain ⟨_, m₄, h₄, h⟩ := returns_bind.1 h
      obtain ⟨_, rfl⟩ := returns_pure.1 h
      -- only the step between the metadata and the notices is about `latest_block`
      have hlatest₁ := sameHead_of_returns ((Moves.closed _).ofExit_bind fun _ _ => .write _) h₁
      have hlatest₂ : m₁.mem.SameHead m₂.mem := by
        refine sameHead_of_returns (.bind (.write _) fun _ _ => .bind ((Moves.closed _).getDisk_bind ?_)
          fun _ _ => .modifyMem ⟨rfl, rfl, rfl, rfl, rfl⟩) h₂
        split
        · exact .write _
        · exact .pure _
        · exact (Moves.closed _).ofExit _
      have hlatest₃ := sameHead_of_returns ((handleArchiveNotices_archives cfg _ _).2.mono fun _ _ h =>
        h.sameHead) h₃
      have hlatest₄ := sameHead_of_returns ((Moves.closed _).ofExit_bind fun _ _ => .write _) h₄
      rw [hlatest₄.latestBlock, hlatest₃.latestBlock]
      show advanceLatestBlock _ m₂.mem.latestBlock = _
      rw [hlatest₂.latestBlock, hlatest₁.latestBlock]
    · cases (returns_pure.1 h).1

/-- A `Full` package leaves it alone. -/
theorem latestBlock_of_full (height : Height) (round : Round) (proposer : Address) (value : Value)
    (payload : Bytes) (sidecars : List BlobSidecar) (requests : List Bytes)
    (notices : List ArchiveNotice) (m : Machine Disk Memory) :
    ((processSyncedPackage cfg height round proposer
      (.full value payload sidecars requests notices)).run m).state.mem.latestBlock =
        m.mem.latestBlock := by
  have hwalk : Walk cfg m (.processSyncedValue height round proposer
      (.full value payload sidecars requests notices)) fun p m =>
        Moves (fun a mem => a.mem.SameHead mem) p m :=
    moves_walk (fun _ _ h => h.sameHead) (fun _ _ hev => nomatch hev) fun _ =>
      ⟨rfl, rfl, rfl, rfl, rfl⟩
  exact (sameHead_of_moves (walk_processSyncedPackage hwalk)).latestBlock

theorem Store.head?_eq_none :
    s.head? = none ↔ ∀ height : Height, s.decidedValues[height]? = none := by
  rw [← Store.maxDecidedValueHeight_eq_none]
  unfold Store.head?
  cases hmax : s.maxDecidedValueHeight with
  | none => simp
  | some top =>
    have htop := (Store.maxDecidedValueHeight_eq_some.1 hmax).1
    simp [Option.isSome_iff_ne_none.1 htop]

/-- The realignment at height 1 of a store with nothing but the placeholder. -/
theorem realignedBlock_of_placeholder (hhead : s.head? = none)
    (hrow : s.blobMetadataDecided[0]? = some .genesis) (hread : s.Readable) (b : ExecutionBlock) :
    realignedBlock s 1 (some b) =
      if b.blockNumber = 0 then some b else some ⟨0, 0, 0, 0, loadPrevRandao⟩ := by
  obtain ⟨x, hx⟩ := hread.get 0
  obtain ⟨metadata, rfl⟩ : ∃ metadata, x = some metadata := by
    cases x with
    | none => cases (Store.getBlobMetadata_eq_none_iff.1 hx).symm.trans hrow
    | some metadata => exact ⟨metadata, rfl⟩
  have hload : loadExecutionBlock s 0 = .ok (some ⟨0, 0, 0, 0, loadPrevRandao⟩) := by
    obtain ⟨row, hrow', hcore⟩ := Store.getBlobMetadata_eq_some hx
    cases hrow.symm.trans hrow'
    simp only [loadExecutionBlock, Store.head?_eq_none.1 hhead 0, hx, Exit.ok_bind, Option.map_some]
    exact congrArg (fun c : BlobCore => (.ok (some (executionBlockOfHeader
      c.executionPayloadHeader)) : Exit Err (Option ExecutionBlock))) hcore
  unfold realignedBlock
  simp only [one_ne_zero, if_false, Nat.sub_self, hload, Option.all_some, decide_eq_true_eq]
  by_cases hb : b.blockNumber = 0
  · simp [hb]
  · simp [hb]

end Runs

namespace Sample

/-- The node of validator 1 with a genesis block whose hash is not zero. -/
def genesisConfig : Config := { config 1 with genesisBlock := ⟨5, 0, 0, 0, 1⟩ }

/-- Block 1 without a blob, as a pruned height is sent. -/
def bareOne : SyncedValuePackage := .metadataOnly (value (payload 1 0 1 0)) [] (some [1, 0, 1, 0]) []

/-- The node is sent height 1. -/
def aheadRun : List Label := [.start, .handle (.processSyncedValue 1 (.some 0) ⟨2⟩ bareOne)]

/-- The engine does not answer. -/
def silent : EngineScript := ⟨[], []⟩

/-- The node of `genesisConfig` after a list of labels. -/
def genesisNode (ls : List Label) : Node := follow (Node.next genesisConfig) ls (.down Disk.empty)

end Sample

end Ultramarine
