import Ultramarine.App.Run
import Ultramarine.State.CommitFrame

/-!
# Repeated decisions after an engine failure

`process_decided_certificate` promotes the blobs of the decided round before it asks the execution
engine to import the block. When the engine fails, the attempt is given up with the blobs promoted
already, and the next attempt takes the branch of a synced block: it reads the blobs from the decided
column family and promotes nothing.

If the blobs of the certificate are the only ones of its height, both branches end alike.

Results:

* `fails_engine`: an attempt that the engine fails has promoted the blobs and done nothing else;
* `EngineFailures.settle`: so have any number of them;
* `retries_converge`: after any number of such attempts, an attempt ends as it would have ended at
  once; and two attempts that succeed, whatever the engine has answered, differ in whether the block
  counts as executed and in nothing else.
-/

namespace Ultramarine

open Lib Ssz Prog

variable {cfg : Config} {c : CommitCertificate} {bytes : Bytes} {m m' : Machine Disk Memory}

/-! ## Attempts -/

/-- The errors of the execution engine: a failed call, or an invalid payload. -/
def Err.isEngineError : Err → Bool
  | .engine | .invalidPayload => true
  | _ => false

/-- Attempts at one certificate that the execution engine fails, one after the other. -/
inductive EngineFailures (cfg : Config) (c : CommitCertificate) (bytes : Bytes)
    (m : Machine Disk Memory) : Machine Disk Memory → Prop
  | none : EngineFailures cfg c bytes m m
  | next {m₁ m₂ : Machine Disk Memory} {script : EngineScript} {e : Err}
      (h : EngineFailures cfg c bytes m m₁) (he : e.isEngineError = true)
      (hfails : Fails (processDecidedCertificate cfg c bytes script) m₁ e m₂) :
      EngineFailures cfg c bytes m m₂

/-- The blobs stored at the height are those of one certificate: they are all of its round, and they
have at most `n` indices, where `n` is the number of its blobs. -/
def BlobStore.OnlyBlobs (b : BlobStore) (slot : Slot) (n : Nat) : Prop :=
  ∃ indices : List Nat, indices.length = n ∧
    (∀ (k : BlobKey) (s : BlobSidecar), b.undecided[k]? = some s → k.height = slot.height →
      k.round = slot.round.asI64 ∧ k.index ∈ indices) ∧
    ∀ i, (b.decided[BlobIndexKey.mk slot.height i]?).isSome → i ∈ indices

variable {height : Height} {out : DecidedOutcome} {check : DecidedCheck} {n : Nat} {slot : Slot}
  {status : PayloadStatus}

/-! ## One attempt -/

section Attempt

variable {script : EngineScript} {check check' : DecidedCheck} {e : Err}

theorem checkImported_not_engine {mem : Memory} {payload : ExecutionPayloadV3}
    (h : checkImported mem height payload = .error e) : e.isEngineError = false := by
  unfold checkImported at h
  simp only [Exit.bind_eq_error, Exit.ensure_eq_error] at h
  rcases h with ⟨_, rfl⟩ | ⟨_, _, ⟨_, rfl⟩⟩
  · rfl
  · rfl

/-- A `newPayload` that gives up reports "syncing". -/
theorem newPayloadLoop_pending :
    ∀ (answers : List PayloadAnswer), newPayloadLoop answers = .ok (status, true) → status = .syncing
  | .syncing true :: _, h => by
    cases h
    rfl
  | .syncing false :: rest, h => newPayloadLoop_pending rest h

/-- An import that fails has failed in `newPayload`, on its status, in the checks or in the forkchoice;
a payload that was syncing has marked the engine. -/
theorem importBlock_fails {payload : ExecutionPayloadV3}
    (h : Fails (importBlock height payload script) m e m') :
    (newPayloadLoop script.newPayload = .error e ∧ m' = m) ∨
      ∃ answered pending, newPayloadLoop script.newPayload = .ok (answered, pending) ∧
        m' = (if pending then mapMem Memory.markElDegraded m else m) ∧
        ((answered = .invalid ∧ e = .invalidPayload) ∨
          (answered ≠ .invalid ∧ checkImported m.mem height payload = .error e) ∨
          (pending = false ∧ forkchoiceLoop script.forkchoice = .error e)) := by
  unfold importBlock at h
  rcases fails_ofExit_bind.1 h with ⟨herror, rfl⟩ | ⟨⟨answered, pending⟩, hnew, h⟩
  · exact .inl ⟨herror, rfl⟩
  refine .inr ⟨answered, pending, hnew, ?_⟩
  obtain ⟨_, m₁, hm₁, h⟩ := (Total.onlyIf (.modifyMem _)).fails_bind.1 h
  rw [returns_onlyIf, returns_modifyMem] at hm₁
  have hmarked : m₁ = (if pending then mapMem Memory.markElDegraded m else m) := by
    rcases hm₁ with ⟨hpending, rfl⟩ | ⟨hpending, rfl⟩
    · exact (if_pos hpending).symm
    · exact (if_neg hpending).symm
  rcases fails_ofExit_bind.1 h with ⟨hinvalid, rfl⟩ | ⟨_, hvalid, h⟩
  · obtain ⟨hstatus, rfl⟩ := Exit.ensure_eq_error.1 hinvalid
    exact ⟨hmarked, .inl ⟨not_not.1 hstatus, rfl⟩⟩
  obtain ⟨mem, _, ⟨hmem, rfl⟩, h⟩ := total_getMem.fails_bind.1 h
  cases hmem
  rcases fails_ofExit_bind.1 h with ⟨hcheck, rfl⟩ | ⟨_, _, h⟩
  · refine ⟨hmarked, .inr (.inl ⟨Exit.ensure_eq_ok.1 hvalid, ?_⟩)⟩
    rcases hm₁ with ⟨_, rfl⟩ | ⟨_, rfl⟩ <;> exact hcheck
  · split at h
    · exact absurd h not_fails_pure
    · rename_i hpending
      rcases fails_ofExit_bind.1 h with ⟨herror, rfl⟩ | ⟨applied, _, h⟩
      · exact ⟨hmarked, .inr (.inr ⟨eq_false_of_ne_true hpending, herror⟩)⟩
      · split at h
        · exact absurd h not_fails_pure
        · exact absurd (fails_modifyMem_bind.1 h) not_fails_pure

/-- An import that the engine fails leaves the machine as it was. -/
theorem fails_importBlock {payload : ExecutionPayloadV3}
    (h : Fails (importBlock height payload script) m e m') (he : e.isEngineError = true) :
    m' = m := by
  obtain ⟨_, hm⟩ | ⟨answered, pending, hnew, hm, hcases⟩ := importBlock_fails h
  · exact hm
  · cases pending with
    | false => exact hm
    | true =>
      -- a payload that is still syncing is not invalid
      rcases hcases with ⟨rfl, _⟩ | ⟨_, hcheck⟩ | ⟨hpending, _⟩
      · cases newPayloadLoop_pending _ hnew
      · rw [checkImported_not_engine hcheck] at he
        cases he
      · cases hpending

/-- **An attempt that the engine fails** has promoted the blobs of its round and done nothing else. -/
theorem fails_engine (h : Fails (processDecidedCertificate cfg c bytes script) m e m')
    (he : e.isEngineError = true) :
    ∃ check, checkDecided cfg m.disk ⟨c.height, c.round⟩ bytes = .ok check ∧
      m' = importing ⟨c.height, c.round⟩ check m := by
  have himport : e.ofImport = true := by
    cases e <;> first | rfl | cases he
  obtain ⟨check, hcheck, hfails⟩ := fails_import h himport
  exact ⟨check, hcheck, fails_importBlock hfails he⟩

/-- What follows the promotion does not ask where the blobs were. -/
theorem importAndCommit_congr (hpayload : check'.payload = check.payload)
    (hhashes : check'.versionedHashes = check.versionedHashes) :
    importAndCommit cfg c bytes script check' = importAndCommit cfg c bytes script check := by
  obtain ⟨payload, hashes, done⟩ := check
  obtain ⟨payload', hashes', done'⟩ := check'
  subst hpayload
  subst hhashes
  rfl

end Attempt

/-! ## The next attempt -/

section Next

variable {slot : Slot} {b : BlobStore} {check : DecidedCheck}

/-- A round with as many blobs as the certificate has every index that is stored at the height. -/
theorem BlobStore.OnlyBlobs.stale (h : b.OnlyBlobs slot n)
    (hlen : (b.getUndecidedBlobs slot.height slot.round.asI64).length = n) (i : Nat)
    (hi : (b.decided[BlobIndexKey.mk slot.height i]?).isSome) :
    ∃ s ∈ b.getUndecidedBlobs slot.height slot.round.asI64, s.index = i := by
  obtain ⟨indices, hn, hundecided, hdecided⟩ := h
  have hnodup : ((b.getUndecidedBlobs slot.height slot.round.asI64).map (·.index)).Nodup :=
    List.Pairwise.map _ (fun _ _ => Nat.ne_of_lt) (b.indexSorted_getUndecidedBlobs _ _)
  have hsubset : (b.getUndecidedBlobs slot.height slot.round.asI64).map (·.index) ⊆ indices := by
    intro j hj
    obtain ⟨s, hs, rfl⟩ := List.mem_map.1 hj
    exact (hundecided _ s (b.mem_getUndecidedBlobs.1 hs) rfl).2
  have hperm := (List.subperm_of_subset hnodup hsubset).perm_of_length_le
    (by rw [List.length_map, hlen, hn])
  exact List.mem_map.1 (hperm.mem_iff.2 (hdecided i hi))

/-- All the undecided blobs are of the round. -/
theorem BlobStore.OnlyBlobs.round (h : b.OnlyBlobs slot n) (k : BlobKey) (s : BlobSidecar)
    (hk : b.undecided[k]? = some s) (hheight : k.height = slot.height) :
    k.round = slot.round.asI64 := by
  obtain ⟨_, _, hundecided, _⟩ := h
  exact (hundecided k s hk hheight).1

/-- Blobs of no certificate at all. -/
theorem BlobStore.OnlyBlobs.noUndecided (h : b.OnlyBlobs slot 0) : b.NoUndecided slot.height := by
  obtain ⟨indices, hn, hundecided, _⟩ := h
  obtain rfl := List.eq_nil_of_length_eq_zero hn
  intro k s hk hheight
  cases (hundecided k s hk hheight).2

/-- **A second check sees what the first one saw**, and there is nothing left to promote. -/
theorem checkDecided_importing
    (hcheck : checkDecided cfg m.disk slot bytes = .ok check)
    (honly : m.disk.blobs.OnlyBlobs slot check.versionedHashes.length) :
    ∃ check', checkDecided cfg (importing slot check m).disk slot bytes = .ok check' ∧
      check'.payload = check.payload ∧ check'.versionedHashes = check.versionedHashes ∧
      importing slot check' (importing slot check m) = importing slot check m := by
  have hcopy := hcheck
  obtain ⟨payload, txHashes, hne, hpayload, htx, ⟨hnil, rfl⟩ | ⟨hsome, hhashes, rfl⟩⟩ :=
    checkDecided_eq_ok.1 hcheck
  · -- without blobs nothing is stored at the height
    have hnone := honly.noUndecided
    have hsame : importing slot ⟨payload, [], false⟩ m = m := by
      unfold importing BlobStore.forImport
      rw [if_neg (by simp), BlobStore.promote_of_none hnone]
    rw [hsame]
    exact ⟨_, hcopy, rfl, rfl, hsame⟩
  · by_cases hround : m.disk.blobs.getUndecidedBlobs slot.height slot.round.asI64 = []
    · -- promoted before: the first attempt took the same branch
      have hsame : importing slot ⟨payload, expectedHashes cfg m.disk.store slot txHashes,
          m.disk.blobs.alreadyDecided slot⟩ m = m := by
        unfold importing BlobStore.forImport
        rw [if_pos (BlobStore.alreadyDecided_of_empty hround hhashes hsome)]
      rw [hsame]
      exact ⟨_, hcopy, rfl, rfl, hsame⟩
    · -- now the blobs of the round are the decided ones of the height
      obtain ⟨hfor, hdone⟩ := BlobStore.forDecision_of_round hround
      have himport : (importing slot ⟨payload, expectedHashes cfg m.disk.store slot txHashes,
          m.disk.blobs.alreadyDecided slot⟩ m).disk.blobs =
          m.disk.blobs.promote slot.height slot.round.asI64 := by
        unfold importing BlobStore.forImport
        rw [if_neg (by simp [hdone])]
      have hlen : (m.disk.blobs.getUndecidedBlobs slot.height slot.round.asI64).length =
          (expectedHashes cfg m.disk.store slot txHashes).length := by
        rw [← hhashes, hfor, versionedHashesFromSidecars, List.length_map]
      have hempty : (m.disk.blobs.promote slot.height slot.round.asI64).getUndecidedBlobs
          slot.height slot.round.asI64 = [] :=
        (BlobStore.noUndecided_promote fun k s hk hheight =>
          (honly.round k s hk hheight)).getUndecidedBlobs _
      have hfor' : (m.disk.blobs.promote slot.height slot.round.asI64).forDecision slot =
          m.disk.blobs.forDecision slot := by
        rw [BlobStore.forDecision_of_empty hempty, hfor,
          BlobStore.getDecidedBlobs_promote hround (honly.stale hlen)]
      have hhashes' : versionedHashesFromSidecars cfg.oracles
          ((m.disk.blobs.promote slot.height slot.round.asI64).forDecision slot) =
          expectedHashes cfg m.disk.store slot txHashes := by
        rw [hfor', hhashes]
      refine ⟨⟨payload, expectedHashes cfg m.disk.store slot txHashes, true⟩,
        checkDecided_eq_ok.2 ⟨payload, txHashes, hne, hpayload, htx, .inr ⟨hsome, ?_, ?_⟩⟩, rfl, rfl,
        rfl⟩
      · rw [himport]
        exact hhashes'
      · rw [himport, BlobStore.alreadyDecided_of_empty hempty hhashes' hsome]
        rfl

end Next

/-! ## Any number of attempts -/

/-- **Failed attempts settle**: the machine is as it was, or its blobs are promoted. -/
theorem EngineFailures.settle (h : EngineFailures cfg c bytes m m')
    (honly : ∀ check, checkDecided cfg m.disk ⟨c.height, c.round⟩ bytes = .ok check →
      m.disk.blobs.OnlyBlobs ⟨c.height, c.round⟩ check.versionedHashes.length) :
    m' = m ∨ ∃ check, checkDecided cfg m.disk ⟨c.height, c.round⟩ bytes = .ok check ∧
      m' = importing ⟨c.height, c.round⟩ check m := by
  induction h with
  | none => exact .inl rfl
  | next _ he hfails ih =>
    right
    obtain ⟨check', hcheck', rfl⟩ := fails_engine hfails he
    rcases ih with rfl | ⟨check, hcheck, rfl⟩
    · exact ⟨check', hcheck', rfl⟩
    · obtain ⟨check₂, hcheck₂, _, _, hsame⟩ := checkDecided_importing hcheck (honly check hcheck)
      cases hcheck'.symm.trans hcheck₂
      exact ⟨check, hcheck, hsame⟩

/-- After failed attempts, an attempt ends as the first one would have. -/
theorem EngineFailures.retry (h : EngineFailures cfg c bytes m m')
    (honly : ∀ check, checkDecided cfg m.disk ⟨c.height, c.round⟩ bytes = .ok check →
      m.disk.blobs.OnlyBlobs ⟨c.height, c.round⟩ check.versionedHashes.length)
    (script : EngineScript) :
    ((processDecidedCertificate cfg c bytes script).run m').exit =
        ((processDecidedCertificate cfg c bytes script).run m).exit ∧
      ((processDecidedCertificate cfg c bytes script).run m').state =
        ((processDecidedCertificate cfg c bytes script).run m).state := by
  rcases h.settle honly with rfl | ⟨check, hcheck, rfl⟩
  · exact ⟨rfl, rfl⟩
  · obtain ⟨check', hcheck', hpayload, hhashes, hsame⟩ :=
      checkDecided_importing hcheck (honly check hcheck)
    obtain ⟨hexit, hstate⟩ := processDecided_of_check script hcheck
    obtain ⟨hexit', hstate'⟩ := processDecided_of_check script hcheck'
    rw [hexit, hstate, hexit', hstate', hsame, importAndCommit_congr hpayload hhashes]
    exact ⟨rfl, rfl⟩

/-! ## Two attempts with different answers -/

section Answers

variable {script : EngineScript}

/-- An import and commit that returns has made the commit that does not look at the engine. -/
theorem returns_importAndCommit (hr : Returns (importAndCommit cfg c bytes script check) m out m') :
    ∃ m₁, Returns (commit cfg c) (mapMem (Memory.countBlock check.payload bytes) m) () m₁ ∧
      m'.disk = m₁.disk ∧ m'.mem.latestBlock = some (executionBlockOfPayload check.payload) ∧
      m'.mem.executedHeight = (if out.executionPending then m₁.mem.executedHeight else c.height) ∧
      m'.mem.txsCount = m₁.mem.txsCount ∧ m'.mem.chainBytes = m₁.mem.chainBytes := by
  obtain ⟨⟨status, applied⟩, m₂, himport, hr⟩ := returns_bind.1 hr
  obtain ⟨_, m₃, hcommit, hfinish⟩ := returns_bind.1 (returns_modifyMem_bind.1 hr)
  obtain ⟨hpending, _, _, rfl⟩ := finishDecided_end hfinish
  rw [hpending]
  rcases returns_importBlock_cases himport with rfl | rfl
  · exact ⟨m₃, hcommit, rfl, rfl, by cases applied <;> rfl, rfl, rfl⟩
  · -- the counters do not care about the engine either
    obtain ⟨m₁, hcommit₁, rfl⟩ := (unaware_commit c).returns
      (m := mapMem (Memory.countBlock check.payload bytes) m) hcommit
    exact ⟨m₁, hcommit₁, rfl, rfl, by cases applied <;> rfl, rfl, rfl⟩

/-- The machines agree on the disk, the head of the chain and the counters. -/
structure SameDecision (m m' : Machine Disk Memory) : Prop where
  disk : m'.disk = m.disk
  latestBlock : m'.mem.latestBlock = m.mem.latestBlock
  txsCount : m'.mem.txsCount = m.mem.txsCount
  chainBytes : m'.mem.chainBytes = m.mem.chainBytes

/-- Two decisions of one machine that succeed, whatever the engine has answered. -/
theorem sameDecision {script' : EngineScript} {out' : DecidedOutcome}
    {m₁ m₂ : Machine Disk Memory}
    (hr : Returns (processDecidedCertificate cfg c bytes script) m out m₁)
    (hr' : Returns (processDecidedCertificate cfg c bytes script') m out' m₂) :
    SameDecision m₁ m₂ ∧ (out'.executionPending = out.executionPending →
      m₂.mem.executedHeight = m₁.mem.executedHeight) := by
  obtain ⟨check, hcheck, hrest⟩ := returns_processDecided.1 hr
  obtain ⟨check', hcheck', hrest'⟩ := returns_processDecided.1 hr'
  cases hcheck.symm.trans hcheck'
  obtain ⟨n, hcommit, hdisk, hlatest, hexecuted, htxs, hbytes⟩ := returns_importAndCommit hrest
  obtain ⟨n', hcommit', hdisk', hlatest', hexecuted', htxs', hbytes'⟩ :=
    returns_importAndCommit hrest'
  obtain ⟨_, rfl⟩ := hcommit.unique hcommit'
  refine ⟨⟨hdisk'.trans hdisk.symm, hlatest'.trans hlatest.symm, htxs'.trans htxs.symm,
    hbytes'.trans hbytes.symm⟩, fun hpending => ?_⟩
  rw [hexecuted', hexecuted, hpending]

end Answers

/-- **Retries converge.** The blobs stored at the height are those of the certificate, and any number
of attempts at it have failed because of the engine. Then an attempt ends as it would have ended at
once, with the same answers of the engine: with the same result and in the same machine. And with any
other answers, if both succeed, they leave the same disk, the same latest block and the same counters,
and the same executed height if the engine has applied the block in both or in none. -/
theorem retries_converge (h : EngineFailures cfg c bytes m m')
    (honly : ∀ check, checkDecided cfg m.disk ⟨c.height, c.round⟩ bytes = .ok check →
      m.disk.blobs.OnlyBlobs ⟨c.height, c.round⟩ check.versionedHashes.length) :
    (∀ script out m₁, Returns (processDecidedCertificate cfg c bytes script) m' out m₁ ↔
      Returns (processDecidedCertificate cfg c bytes script) m out m₁) ∧
    ∀ script script' out out' m₁ m₂,
      Returns (processDecidedCertificate cfg c bytes script) m out m₁ →
      Returns (processDecidedCertificate cfg c bytes script') m' out' m₂ →
      SameDecision m₁ m₂ ∧ (out'.executionPending = out.executionPending →
        m₂.mem.executedHeight = m₁.mem.executedHeight) := by
  have hiff : ∀ script out m₁, Returns (processDecidedCertificate cfg c bytes script) m' out m₁ ↔
      Returns (processDecidedCertificate cfg c bytes script) m out m₁ := by
    intro script out m₁
    obtain ⟨hexit, hstate⟩ := h.retry honly script
    unfold Returns
    rw [hexit, hstate]
  refine ⟨hiff, ?_⟩
  intro script script' out out' m₁ m₂ hr hr'
  exact sameDecision hr ((hiff script' out' m₂).1 hr')

namespace Sample

/-- The blob block is proposed and waits for its decision. -/
def awaiting : Machine Disk Memory := (node 2 proposeBlob).machine

/-- One attempt to decide it. -/
def attemptBlob (s : EngineScript) (m : Machine Disk Memory) :
    Outcome Disk Memory Write Err DecidedOutcome :=
  (processDecidedCertificate (config 2) blobCertificate (oracles.asSszBytes blobBlock) s).run m

/-- The engine cannot be reached; then it calls the payload invalid; then its forkchoice fails. -/
def refused : Machine Disk Memory :=
  (attemptBlob ⟨[.valid], [.error]⟩ (attemptBlob ⟨[.invalid], []⟩
    (attemptBlob ⟨[.error], []⟩ awaiting).state).state).state

/-- The attempt has succeeded and the engine has applied the block. -/
def blobApplied (o : Outcome Disk Memory Write Err DecidedOutcome) : Bool :=
  match o.exit with
  | .ok out => !out.executionPending
  | _ => false

end Sample

open Sample in
/-- Three attempts at a block with a blob fail in three ways; the fourth succeeds, and a first attempt
would have ended in the same machine. -/
theorem retries_converge_three :
    ∃ out, (attemptBlob script refused).exit = .ok out ∧
      (attemptBlob script awaiting).exit = .ok out ∧
      (attemptBlob script awaiting).state = (attemptBlob script refused).state := by
  have hrun : (attemptBlob ⟨[.error], []⟩ awaiting).exit = .error .engine ∧
      (attemptBlob ⟨[.invalid], []⟩ (attemptBlob ⟨[.error], []⟩ awaiting).state).exit =
        .error .invalidPayload ∧
      (attemptBlob ⟨[.valid], [.error]⟩ (attemptBlob ⟨[.invalid], []⟩
        (attemptBlob ⟨[.error], []⟩ awaiting).state).state).exit = .error .engine ∧
      blobApplied (attemptBlob script refused) = true ∧
      checkDecided (config 2) awaiting.disk ⟨1, .some 0⟩ (oracles.asSszBytes blobBlock) =
        .ok ⟨blobBlock, [1#8 ++ 9#248], false⟩ ∧
      awaiting.disk.blobs.undecided.keys = [⟨1, 0, 0⟩] ∧
      awaiting.disk.blobs.decided.keys = [] := by
    decide +kernel
  obtain ⟨hfirst, hsecond, hthird, hlast, hcheck, hundecided, hdecided⟩ := hrun
  have hfailures : EngineFailures (config 2) blobCertificate (oracles.asSszBytes blobBlock) awaiting
      refused :=
    ((EngineFailures.none.next rfl ⟨hfirst, rfl⟩).next rfl ⟨hsecond, rfl⟩).next rfl ⟨hthird, rfl⟩
  have honly : awaiting.disk.blobs.OnlyBlobs ⟨1, .some 0⟩ 1 := by
    refine ⟨[0], rfl, fun k s hk _ => ?_, fun i hi => ?_⟩
    · have hmem := Table.mem_keys.2 (Option.isSome_iff_exists.2 ⟨s, hk⟩)
      rw [hundecided, List.mem_singleton] at hmem
      subst hmem
      exact ⟨rfl, List.mem_singleton.2 rfl⟩
    · have hmem := Table.mem_keys.2 hi
      rw [hdecided] at hmem
      cases hmem
  obtain ⟨out, hout⟩ : ∃ out, (attemptBlob script refused).exit = .ok out := by
    unfold blobApplied at hlast
    split at hlast
    · rename_i out hout
      exact ⟨out, hout⟩
    · cases hlast
  have honce := ((retries_converge hfailures fun check hcheck' => by
    cases hcheck'.symm.trans hcheck
    exact honly).1 script out (attemptBlob script refused).state).1 ⟨hout, rfl⟩
  exact ⟨out, hout, honce.1, honce.2⟩

end Ultramarine
