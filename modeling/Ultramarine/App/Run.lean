import Ultramarine.App.Handlers
import Ultramarine.Lib.Reach
import Ultramarine.State.Commit

/-!
# Runs of a node

A node is down, with a disk, or up, with a machine. It goes from state to state under labels: it
handles a message to the end, is stopped at one of the writes of a handler (a crash, or a device
error that every caller passes on), or starts. `next` is a function, so a run can be evaluated.

Results:

* `Node.disk_invariant_of_reach`: an invariant of the disk that every write of every handler keeps
  holds in every state reached, crashes included.
-/

namespace Ultramarine

open Lib

/-- The messages of the application loop that touch the state. -/
inductive Event where
  | startedRound (height : Height) (round : Round)
  | getValue (height : Height) (round : Round) (gate : GateAnswer) (built : Option BuiltPayload)
  | restreamProposal (height : Height) (round validRound : Round) (address : Address)
  | receivedProposalPart (now : Nat) (peer : PeerId) (part : StreamMessage) (gate : GateAnswer)
  /-- A notice of the node's own archiver. -/
  | archiveNotice (notice : ArchiveNotice)
  | decided (certificate : CommitCertificate) (script : EngineScript)
  | processSyncedValue (height : Height) (round : Round) (proposer : Address)
      (package : SyncedValuePackage)

/-- Run a handler and drop its reply; an error is only logged. -/
def Act.logged {α : Type} (p : Act α) : Act Unit := do
  let _ ← p.attempt

/-- The handler of a message. -/
def handle (cfg : Config) : Event → Act Unit
  | .startedRound height round => startedRound height round
  | .getValue height round gate built => Act.logged (handleGetValue cfg height round gate built)
  | .restreamProposal height round validRound address =>
    Act.logged (restreamProposal cfg height round validRound address)
  | .receivedProposalPart now peer part gate =>
    Act.logged (onReceivedProposalPart cfg now peer part gate)
  | .archiveNotice notice => Act.logged (handleArchiveNotice cfg notice)
  | .decided certificate script => Act.logged (decided cfg certificate script)
  | .processSyncedValue height round proposer package =>
    Act.logged (processSyncedPackage cfg height round proposer package)

/-- A node. -/
inductive Node where
  | down (disk : Disk)
  | up (machine : Machine Disk Memory)

/-- The durable half of a node. -/
def Node.disk : Node → Disk
  | down d => d
  | up m => m.disk

/-- The node runs. -/
def Node.isUp : Node → Bool
  | down _ => false
  | up _ => true

/-- The machine of a node; one that is down has nothing in memory. -/
def Node.machine : Node → Machine Disk Memory
  | down d => ⟨d, Memory.new 0⟩
  | up m => m

variable {cfg : Config} {s s' : Node} {I : Disk → Prop} {l : Label} {m m' : Machine Disk Memory}
  {α : Type} {ok : Node → Label → Prop}

theorem Node.eq_up (h : s.isUp = true) : s = .up s.machine := by
  cases s with
  | down d => cases h
  | up m => rfl

/-- What can happen to a node. -/
inductive Label where
  /-- A message is handled to its end. -/
  | handle (ev : Event)
  /-- The `k`-th write of the handler fails and the error is passed on. -/
  | abort (ev : Event) (k : Nat)
  /-- The node stops before the `k`-th write of the handler, or at its end. -/
  | crash (ev : Event) (k : Nat)
  | start
  /-- The node stops before the `k`-th write of its start. -/
  | crashStart (k : Nat)

/-- The machine a start runs on. -/
def bootMachine (cfg : Config) (d : Disk) : Machine Disk Memory := ⟨d, Memory.new cfg.startHeight⟩

/-- One step of a node. -/
def Node.next (cfg : Config) : Label → Node → Option Node
  | .handle ev, up m =>
    let o := (Ultramarine.handle cfg ev).run m
    if o.exit = .panic then none else some (up o.state)
  | .abort ev k, up m => some (up (Prog.cutAt ((Ultramarine.handle cfg ev).run m) k))
  | .crash ev k, up m => some (down (Prog.cutAt ((Ultramarine.handle cfg ev).run m) k).disk)
  | .start, down d =>
    let o := (Ultramarine.start cfg).run (bootMachine cfg d)
    match o.exit with
    | .ok _ => some (up o.state)
    | _ => none
  | .crashStart k, down d =>
    some (down (Prog.cutAt ((Ultramarine.start cfg).run (bootMachine cfg d)) k).disk)
  | _, _ => none

/-- A handler that returns is a handled message. -/
theorem returns_logged {p : Act α} {a : α} (h : Prog.Returns p m a m') :
    Prog.Returns (Act.logged p) m () m' := by
  unfold Act.logged
  exact Prog.Returns.bind (Prog.returns_attempt.2 (.inl ⟨a, rfl, h⟩)) (Prog.returns_pure.2 ⟨rfl, rfl⟩)

theorem Act.logged_state (p : Act α) (m : Machine Disk Memory) :
    ((Act.logged p).run m).state = (p.run m).state := by
  unfold Act.logged
  rw [← Prog.attempt_state p m]
  exact Prog.state_bind_invariant (I := fun m' => m' = (p.attempt.run m).state) rfl fun _ => rfl

/-- A handled message is a step. -/
theorem Node.next_handle {ev : Event} (h : Prog.Returns (Ultramarine.handle cfg ev) m () m') :
    Node.next cfg (.handle ev) (.up m) = some (.up m') := by
  simp [Node.next, h.1, h.2]

/-- The runs of a fresh node whose steps all meet `ok`. -/
abbrev Node.Reachable (cfg : Config) (ok : Node → Label → Prop) : Node → Prop :=
  Reach (Node.next cfg) ok (Node.down Disk.empty)

/-- The message of a label, if it is about one. -/
def Label.event? : Label → Option Event
  | .handle ev | .abort ev _ | .crash ev _ => some ev
  | .start | .crashStart _ => none

/-- The write a label stops at, if it does. -/
def Label.cut? : Label → Option Nat
  | .abort _ k | .crash _ k | .crashStart k => some k
  | .handle _ | .start => none

/-- The machine a call leaves if it is stopped at the given write, or not at all. -/
def machineAt {α : Type} (o : Outcome Disk Memory Write Err α) : Option Nat → Machine Disk Memory
  | none => o.state
  | some k => Prog.cutAt o k

/-- The disk a call leaves if it is stopped at the given write, or not at all. -/
def diskAt {α : Type} (o : Outcome Disk Memory Write Err α) : Option Nat → Disk
  | some k => (Prog.cutAt o k).disk
  | none => o.state.disk

/-- Every way a step can go: the call it makes and the disk it leaves. -/
theorem Node.next_cases (h : s.next cfg l = some s') :
    (∃ m ev, s = up m ∧ l.event? = some ev ∧
        s'.disk = diskAt ((Ultramarine.handle cfg ev).run m) l.cut?) ∨
      (∃ d, s = down d ∧ l.event? = none ∧
        s'.disk = diskAt ((Ultramarine.start cfg).run (bootMachine cfg d)) l.cut?) := by
  cases s with
  | up m =>
    refine .inl ?_
    cases l with
    | handle ev =>
      simp only [Node.next, Option.ite_none_left_eq_some, Option.some.injEq] at h
      obtain ⟨_, rfl⟩ := h
      exact ⟨m, ev, rfl, rfl, rfl⟩
    | abort ev k =>
      simp only [Node.next, Option.some.injEq] at h
      subst h
      exact ⟨m, ev, rfl, rfl, rfl⟩
    | crash ev k =>
      simp only [Node.next, Option.some.injEq] at h
      subst h
      exact ⟨m, ev, rfl, rfl, rfl⟩
    | start => cases h
    | crashStart k => cases h
  | down d =>
    refine .inr ?_
    cases l with
    | start =>
      simp only [Node.next] at h
      split at h
      · cases h
        exact ⟨d, rfl, rfl, rfl⟩
      · cases h
    | crashStart k =>
      simp only [Node.next, Option.some.injEq] at h
      subst h
      exact ⟨d, rfl, rfl, rfl⟩
    | handle ev => cases h
    | abort ev k => cases h
    | crash ev k => cases h

/-- A durable invariant of a call holds of the disk it leaves, stopped or not. -/
theorem diskAt_invariant (p : Act α) (hm : I m.disk)
    (hp : Prog.Emits (fun m w => I m.disk → I (DiskOp.apply w m.disk)) (p.run m)) :
    ∀ cut, I (diskAt (p.run m) cut)
  | some k => p.cutAt_invariant hm hp k
  | none => (p.disk_invariant hm hp).2

/-- A step removes no decided row. -/
theorem Node.grows_of_next (h : s.next cfg l = some s') : Disk.Grows s.disk s'.disk := by
  rcases Node.next_cases h with ⟨m, ev, rfl, _, hdisk⟩ | ⟨d, rfl, _, hdisk⟩ <;> rw [hdisk]
  · exact diskAt_invariant (I := Disk.Grows m.disk) _ (.refl _)
      (fun e _ he => he.trans (.apply e.1.disk e.2)) _
  · exact diskAt_invariant (I := Disk.Grows d) _ (.refl _)
      (fun e _ he => he.trans (.apply e.1.disk e.2)) _

/-- A run removes no decided row. -/
theorem Node.grows_of_reach (h : Reach (Node.next cfg) ok s s') : Disk.Grows s.disk s'.disk :=
  h.invariant (I := fun s' => Disk.Grows s.disk s'.disk) (.refl _)
    fun _ _ _ hs _ hnext => hs.trans (Node.grows_of_next hnext)

/-- The writes a call performs keep `I`. -/
abbrev Keeps {α : Type} (I : Disk → Prop) (p : Act α) (m : Machine Disk Memory) : Prop :=
  Prog.Emits (fun m w => I m.disk → I (DiskOp.apply w m.disk)) (p.run m)

/-- **Durable invariants of a step.** -/
theorem Node.disk_invariant_of_next (hs : I s.disk)
    (hhandle : ∀ m ev, s = up m → l.event? = some ev → ∃ J : Disk → Prop, J m.disk ∧ (∀ d, J d → I d) ∧ Keeps J (Ultramarine.handle cfg ev) m)
    (hstart : ∀ d, I d → Keeps I (Ultramarine.start cfg) (bootMachine cfg d))
    (h : s.next cfg l = some s') : I s'.disk := by
  rcases Node.next_cases h with ⟨m, ev, rfl, hev, hdisk⟩ | ⟨d, rfl, _, hdisk⟩ <;> rw [hdisk]
  · obtain ⟨J, hJ, hJI, hkeeps⟩ := hhandle m ev rfl hev
    exact hJI _ (diskAt_invariant _ hJ hkeeps _)
  · exact diskAt_invariant _ hs (hstart d hs) _

/-- **Durable invariants of runs.** If every write of every handler whose label meets `ok` keeps an
invariant `J` that implies `I` and holds when the message arrives, and every write of a start keeps
`I`, then `I` holds of the disk in every state reached. `J` may mention the machine the message
arrives at. -/
theorem Node.disk_invariant_of_reach (hinit : I Disk.empty)
    (hhandle : ∀ m ev l, I m.disk → ok (up m) l → l.event? = some ev → ∃ J : Disk → Prop, J m.disk ∧ (∀ d, J d → I d) ∧ Keeps J (Ultramarine.handle cfg ev) m)
    (hstart : ∀ d, I d → Keeps I (Ultramarine.start cfg) (bootMachine cfg d))
    (h : Node.Reachable cfg ok s) : I s.disk := by
  refine h.invariant (I := fun s => I s.disk) hinit ?_
  intro s l s' hs hok hnext
  refine Node.disk_invariant_of_next hs (fun m ev hm hev => ?_) hstart hnext
  subst hm
  exact hhandle m ev l hs hok hev

/-! ## A small network

Two validators and primitives cheap enough to evaluate a run with. A payload is determined by four
bytes: its number, its gas, its `prev_randao` and how many blob transactions it has. -/

namespace Sample

/-- The payload of four bytes. Block `n` is the child of block `n - 1`. -/
def payload (number gas randao txs : UInt8) : ExecutionPayloadV3 where
  parentHash := BitVec.ofNat 256 (number.toNat - 1)
  feeRecipient := ⟨0⟩
  stateRoot := 0
  receiptsRoot := 0
  logsBloom := 0
  prevRandao := BitVec.ofNat 256 randao.toNat
  blockNumber := number.toNat
  gasLimit := 0
  gasUsed := gas.toNat
  timestamp := number.toNat
  extraData := []
  baseFeePerGas := 0
  blockHash := BitVec.ofNat 256 number.toNat
  transactions := List.replicate txs.toNat []
  withdrawals := []
  blobGasUsed := 0
  excessBlobGas := 0

/-- The primitives. A signature is the key that made it; every commitment has the same versioned
hash, and every blob transaction carries it. -/
def oracles : Oracles where
  hash32Concat a b := a ^^^ b
  keccak256 _ := 7
  sha256 _ := 9
  defaultHasher bytes := bytes.foldl (fun n b => n + b.toNat) 0
  publicKey k := ⟨k.bytes⟩
  sign k _ := ⟨k.bytes.setWidth 512⟩
  verify k _ s := s.bytes = k.bytes.setWidth 512
  verifyBlobKzgProofBatch _ := true
  asSszBytes p := [.ofNat p.blockNumber, .ofNat p.gasUsed, .ofNat p.prevRandao.toNat,
    .ofNat p.transactions.length]
  fromSszBytes
    | [number, gas, randao, txs] => some (payload number gas randao txs)
    | _ => none
  tryIntoBlock p := some (p.transactions.map fun _ => 1#8 ++ 9#248)
  computeRequestsHash _ := 3
  encodeArchiveNoticeBody _ := []

/-- The node of one of the two validators. -/
def config (i : Nat) : Config where
  oracles := oracles
  validators := ⟨[⟨⟨1⟩, ⟨1⟩, 1⟩, ⟨⟨2⟩, ⟨2⟩, 1⟩], by decide⟩
  address := ⟨BitVec.ofNat 160 i⟩
  privateKey := ⟨BitVec.ofNat 256 i⟩
  genesisBlock := ⟨0, 0, 0, 0, 1⟩
  startHeight := 1
  archiverEnabled := false

/-- The engine is there and agrees. -/
def gate : GateAnswer := ⟨false, false, true⟩

/-- The engine imports the block. -/
def script : EngineScript := ⟨[.valid], [.ok]⟩

/-- The value of a payload without blobs. -/
def value (p : ExecutionPayloadV3) : Value :=
  .new oracles ⟨Ssz.fromPayload oracles p (some 3), [], 0, 0⟩

/-- A certificate for a value. -/
def certificate (height : Height) (round : Round) (v : Value) : CommitCertificate :=
  ⟨height, round, v.id, []⟩

/-- The messages of a proposal without blobs. -/
def stream (i : Nat) (id : Bytes) (height : Height) (round : Round) (p : ExecutionPayloadV3) :
    List StreamMessage :=
  streamMessages id (makeProposalParts (config i) ⟨height, round, value p⟩ (oracles.asSszBytes p)
    [] [] (config i).address)

/-- The messages arrive one after the other. -/
def receive (messages : List StreamMessage) : List Label :=
  messages.map fun message => .handle (.receivedProposalPart 1 0 message gate)

/-- The node of validator 1 proposes block 1. -/
def proposeRun : List Label :=
  [.start, .handle (.getValue 1 (.some 0) gate (some ⟨payload 1 0 1 0, [], none⟩))]

/-- The certificate of block 1. -/
def certificateOne : CommitCertificate := certificate 1 (.some 0) (value (payload 1 0 1 0))

/-- The node after a list of labels. -/
def node (i : Nat) (ls : List Label) : Node := follow (Node.next (config i)) ls (.down Disk.empty)

/-- The node after a list of labels is reached, and `P` holds of it: one evaluation for both. -/
theorem reached {i : Nat} {ls : List Label} {P : Prop}
    (h : Follows (Node.next (config i)) (fun _ _ => True) ls (.down Disk.empty) ∧ P) :
    Node.Reachable (config i) (fun _ _ => True) (node i ls) ∧ P :=
  ⟨Reach.refl.follow h.1, h.2⟩

/-- The tables of a node that has started and done nothing else: the row of height 0. -/
def started : Store := Store.empty.apply .insertGenesisBlobMetadata

theorem started_nothingAt : started.NothingAt 1 := by
  have hgenesis : started.blobMetadataDecided[1]? = none := by decide +kernel
  exact ⟨fun _ => by rfl, fun _ => by rfl, fun _ => by rfl, by rfl, by rfl, by rfl, hgenesis,
    fun _ => by rfl⟩

theorem started_readable : started.Readable := by
  intro h row _ r hr
  cases hr

/-- A disk with nothing but the row of height 0. -/
theorem nothingAt_one {d : Disk} (hstore : d.store = started) (hblobs : d.blobs = .empty) :
    d.NothingAt 1 := by
  obtain ⟨store, blobs⟩ := d
  subst hstore
  subst hblobs
  exact ⟨started_nothingAt, fun _ _ => by rfl, fun _ => by rfl⟩

/-- Validator 2 streams a block for the first round of height 1. -/
def fromTwo (p : ExecutionPayloadV3) : List StreamMessage := stream 2 [0] 1 (.some 0) p

/-- The proposal of validator 2. -/
def proposalOfTwo (p : ExecutionPayloadV3) : ProposedValue :=
  ⟨1, .some 0, .nil, ⟨2⟩, value p, .valid⟩

/-- The node of validator 1 when all but the last message of the stream are in. -/
def beforeLast (p : ExecutionPayloadV3) : Machine Disk Memory :=
  (node 1 (.start :: receive (fromTwo p).dropLast)).machine

/-- The last message of the stream. -/
def lastMessage : StreamMessage := ⟨[0], 3, .fin⟩

/-- What the last message makes of it. -/
def afterLast (p : ExecutionPayloadV3) : Outcome Disk Memory Write Err (Option ProposedValue) :=
  (receivedProposalPart (config 1) 1 0 lastMessage).run (beforeLast p)

/-- A blob of zeros. -/
def blob : Blob := ⟨List.replicate 131072 0, List.length_replicate⟩

/-- A bundle of one blob. -/
def bundle : BlobsBundle := ⟨[⟨1⟩], [⟨2⟩], [blob]⟩

/-- A block with one blob transaction. -/
def blobBlock : ExecutionPayloadV3 := payload 1 0 1 1

/-- The value of that block. -/
def blobValue : Value := .new oracles ⟨Ssz.fromPayload oracles blobBlock (some 3), [⟨1⟩], 1, 131072⟩

/-- The node proposes the block with its blob. -/
def proposeBlob : List Label :=
  [.start, .handle (.getValue 1 (.some 0) gate (some ⟨blobBlock, [], some bundle⟩))]

/-- The block with its blob, as the engine hands it over. -/
def builtBlob : BuiltPayload := ⟨blobBlock, [], some bundle⟩

/-- The messages of the stream in which validator 1 proposes the block with its blob. -/
def blobStream : List StreamMessage :=
  match (proposeBuilt (config 1) 1 (.some 0) builtBlob).run (node 1 [.start]).machine with
  | ⟨.ok (_, messages), _, _⟩ => messages
  | _ => []

/-- The certificate of the block. -/
def blobCertificate : CommitCertificate := certificate 1 (.some 0) blobValue

/-- The node of validator 2 proposes the block and commits it. -/
def commitBlob : List Label := proposeBlob ++ [.handle (.decided blobCertificate script)]

/-- Validator 2 has archived the blob. -/
def blobNotice : ArchiveNotice := .sign oracles ⟨1, .some 0, 0, ⟨1⟩, 7, "s3", "blob", ⟨2⟩, 0⟩ ⟨2⟩

/-- A block with two blob transactions, and its blobs. -/
def twinBlock : ExecutionPayloadV3 := payload 1 0 1 2

def twinBundle : BlobsBundle := ⟨[⟨1⟩, ⟨3⟩], [⟨2⟩, ⟨2⟩], [blob, blob]⟩

/-- The certificate of that block. -/
def twinCertificate : CommitCertificate :=
  certificate 1 (.some 0)
    (.new oracles ⟨Ssz.fromPayload oracles twinBlock (some 3), [⟨1⟩, ⟨3⟩], 2, 262144⟩)

/-- The block is proposed and waits for its decision. -/
def proposeTwins : List Label :=
  [.start, .handle (.getValue 1 (.some 0) gate (some ⟨twinBlock, [], some twinBundle⟩))]

/-- What the node of validator 2 sends a peer that asks for height 1. -/
def sent (ls : List Label) : SyncedValuePackage :=
  ((getDecidedValue (node 2 ls).machine.disk 1).map (·.2)).getD (.metadataOnly blobValue [] none [])

/-- The node of validator 1 is sent height 1. -/
def syncBlob : List Label :=
  [.start, .handle (.processSyncedValue 1 (.some 0) ⟨2⟩ (sent commitBlob))]

/-- A gossiped notice. -/
def gossip (notice : ArchiveNotice) : Label :=
  .handle (.receivedProposalPart 1 0 ⟨[9], 0, .data (.archiveNotice notice)⟩ gate)

end Sample

end Ultramarine
