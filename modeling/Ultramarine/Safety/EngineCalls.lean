import Ultramarine.App.Effects
import Ultramarine.Safety.Retries

/-!
# The calls of a decision to the execution engine

`process_decided_certificate` talks to the engine in up to three loops: forkchoice updates before the
import, if the blobs were decided before or the engine counts as degraded; `newPayload`; and the final
forkchoice updates. `importBlock` keeps only what the last two come to. A `Dialogue` is the same part of
the code with the calls kept, each with its answer. The answers to the early updates are a list of their
own; their result is not used.

Results:

* `exit_importBlock`: a dialogue comes to what the import comes to;
* `outcome_of_decision`: what the outcome of a decision says about the last call, the memory and the
  disk;
* `refused_payload`: a payload that is refused has had its blobs checked and promoted, and was named as
  head by the early updates only.
-/

namespace Ultramarine

open Lib Ssz Prog

/-! ## Dialogues -/

/-- A call to the engine, with its answer. -/
inductive EngineCall where
  | newPayload (answer : PayloadAnswer)
  | forkchoice (head : B256) (answer : ForkchoiceAnswer)
deriving DecidableEq, Repr

/-- The call is a forkchoice update to the given head. -/
def EngineCall.names (head : B256) : EngineCall → Bool
  | .forkchoice h _ => h = head
  | .newPayload _ => false

/-- Calls to the engine, and what they come to. -/
structure Dialogue (α : Type) where
  calls : List EngineCall
  result : Exit Err α

namespace Dialogue

variable {α β : Type}

instance : Monad Dialogue where
  pure a := ⟨[], .ok a⟩
  bind d f :=
    match d.result with
    | .ok a => ⟨d.calls ++ (f a).calls, (f a).result⟩
    | .error e => ⟨d.calls, .error e⟩
    | .panic => ⟨d.calls, .panic⟩

/-- A check between two calls. -/
def ofExit (x : Exit Err α) : Dialogue α := ⟨[], x⟩

theorem bind_of_ok {d : Dialogue α} {f : α → Dialogue β} {a : α} (h : d.result = .ok a) :
    d >>= f = ⟨d.calls ++ (f a).calls, (f a).result⟩ := by
  obtain ⟨calls, result⟩ := d
  cases h
  rfl

theorem ofExit_bind_ok {x : Exit Err α} {f : α → Dialogue β} {a : α} (h : x = .ok a) :
    ofExit x >>= f = f a := by
  subst h
  rfl

theorem ofExit_bind_error {x : Exit Err α} {f : α → Dialogue β} {e : Err} (h : x = .error e) :
    ofExit x >>= f = ⟨[], .error e⟩ := by
  subst h
  rfl

/-- The `newPayload` call and its retries. -/
def newPayload : List PayloadAnswer → Dialogue (PayloadStatus × Bool)
  | [] => ⟨[.newPayload .error], .error .engine⟩
  | .error :: _ => ⟨[.newPayload .error], .error .engine⟩
  | .valid :: _ => ⟨[.newPayload .valid], .ok (.valid, false)⟩
  | .accepted :: _ => ⟨[.newPayload .accepted], .ok (.accepted, false)⟩
  | .invalid :: _ => ⟨[.newPayload .invalid], .ok (.invalid, false)⟩
  | .syncing true :: _ => ⟨[.newPayload (.syncing true)], .ok (.syncing, true)⟩
  | .syncing false :: rest =>
    ⟨.newPayload (.syncing false) :: (newPayload rest).calls, (newPayload rest).result⟩

/-- The final forkchoice call and its retries. -/
def forkchoice (head : B256) : List ForkchoiceAnswer → Dialogue Bool
  | [] => ⟨[.forkchoice head .error], .error .engine⟩
  | .error :: _ => ⟨[.forkchoice head .error], .error .engine⟩
  | .ok :: _ => ⟨[.forkchoice head .ok], .ok true⟩
  | .syncing true :: _ => ⟨[.forkchoice head (.syncing true)], .ok false⟩
  | .syncing false :: rest =>
    ⟨.forkchoice head (.syncing false) :: (forkchoice head rest).calls, (forkchoice head rest).result⟩

/-- The forkchoice calls before the import. They are repeated as the final ones are, and whatever the
last one says, the import goes on. -/
def earlyForkchoice (head : B256) (answers : List ForkchoiceAnswer) : Dialogue Unit :=
  ⟨(forkchoice head answers).calls, .ok ()⟩

theorem result_newPayload : ∀ answers : List PayloadAnswer,
    (newPayload answers).result = newPayloadLoop answers
  | [] => rfl
  | .error :: _ => rfl
  | .valid :: _ => rfl
  | .accepted :: _ => rfl
  | .invalid :: _ => rfl
  | .syncing true :: _ => rfl
  | .syncing false :: rest => result_newPayload rest

theorem result_forkchoice (head : B256) : ∀ answers : List ForkchoiceAnswer,
    (forkchoice head answers).result = forkchoiceLoop answers
  | [] => rfl
  | .error :: _ => rfl
  | .ok :: _ => rfl
  | .syncing true :: _ => rfl
  | .syncing false :: rest => result_forkchoice head rest

/-- A `newPayload` loop ends in a `newPayload` call, and names no head. -/
theorem calls_newPayload : ∀ answers : List PayloadAnswer,
    (∃ answer, (newPayload answers).calls.getLast? = some (.newPayload answer)) ∧
      ∀ head, ∀ call ∈ (newPayload answers).calls, call.names head = false
  | [] | .error :: _ | .valid :: _ | .accepted :: _ | .invalid :: _ | .syncing true :: _ =>
    ⟨⟨_, rfl⟩, by simp [newPayload, EngineCall.names]⟩
  | .syncing false :: rest => by
    obtain ⟨⟨answer, hlast⟩, hnames⟩ := calls_newPayload rest
    refine ⟨⟨answer, ?_⟩, fun head call hcall => ?_⟩
    · simp [newPayload, List.getLast?_cons, hlast]
    · rcases List.mem_cons.1 hcall with rfl | hcall
      · rfl
      · exact hnames head call hcall

/-- A forkchoice loop ends in an update that succeeds if it reports success. Every update names the
head. -/
theorem calls_forkchoice (head : B256) : ∀ answers : List ForkchoiceAnswer,
    (∃ answer, (forkchoice head answers).calls.getLast? = some (.forkchoice head answer) ∧
      (answer = .ok ↔ forkchoiceLoop answers = .ok true)) ∧
      ∀ call ∈ (forkchoice head answers).calls, call.names head = true
  | [] | .error :: _ | .ok :: _ | .syncing true :: _ =>
    ⟨⟨_, rfl, by simp [forkchoiceLoop]⟩, by simp [forkchoice, EngineCall.names]⟩
  | .syncing false :: rest => by
    obtain ⟨⟨answer, hlast, hok⟩, hnames⟩ := calls_forkchoice head rest
    refine ⟨⟨answer, ?_, hok⟩, fun call hcall => ?_⟩
    · simp [forkchoice, List.getLast?_cons, hlast]
    · rcases List.mem_cons.1 hcall with rfl | hcall
      · exact decide_eq_true rfl
      · exact hnames call hcall

end Dialogue

/-! ## The dialogue of a decision -/

/-- The import of a decided block, from the early forkchoice updates on. -/
def importDialogue (mem : Memory) (alreadyDecided : Bool) (height : Height)
    (payload : ExecutionPayloadV3) (early : List ForkchoiceAnswer) (script : EngineScript) :
    Dialogue (PayloadStatus × Bool) := do
  if alreadyDecided || mem.elDegraded then .earlyForkchoice payload.blockHash early
  let (status, pending) ← .newPayload script.newPayload
  .ofExit (.ensure (status ≠ .invalid) .invalidPayload)
  .ofExit (checkImported mem height payload)
  if pending then pure (status, false)
  else
    let applied ← .forkchoice payload.blockHash script.forkchoice
    if applied then pure (status, true) else pure (.syncing, false)

/-- What `process_decided_certificate` says to the engine. -/
def decidedDialogue (cfg : Config) (certificate : CommitCertificate) (bytes : Bytes)
    (early : List ForkchoiceAnswer) (script : EngineScript) (m : Machine Disk Memory) :
    Dialogue (PayloadStatus × Bool) := do
  let check ← .ofExit (checkDecided cfg m.disk ⟨certificate.height, certificate.round⟩ bytes)
  importDialogue m.mem check.alreadyDecided certificate.height check.payload early script

/-- The calls before `newPayload`. -/
def earlyCalls (mem : Memory) (alreadyDecided : Bool) (payload : ExecutionPayloadV3)
    (early : List ForkchoiceAnswer) : List EngineCall :=
  if alreadyDecided || mem.elDegraded then (Dialogue.forkchoice payload.blockHash early).calls else []

section Import

variable {mem : Memory} {done : Bool} {height : Height} {payload : ExecutionPayloadV3}
  {early : List ForkchoiceAnswer} {script : EngineScript} {status : PayloadStatus}
  {pending applied : Bool} {e : Err} {m m' : Machine Disk Memory}

/-- The dialogue from `newPayload` on. -/
theorem importDialogue_eq :
    importDialogue mem done height payload early script =
      let rest : Dialogue (PayloadStatus × Bool) := do
        let (status, pending) ← .newPayload script.newPayload
        .ofExit (.ensure (status ≠ .invalid) .invalidPayload)
        .ofExit (checkImported mem height payload)
        if pending then pure (status, false)
        else
          let applied ← .forkchoice payload.blockHash script.forkchoice
          if applied then pure (status, true) else pure (.syncing, false)
      ⟨earlyCalls mem done payload early ++ rest.calls, rest.result⟩ := by
  unfold importDialogue earlyCalls
  split
  · rfl
  · rfl

/-- A refused payload: the early calls, and the `newPayload` calls. -/
theorem importDialogue_refused
    (hnew : newPayloadLoop script.newPayload = .ok (status, pending))
    (hrefused : (status = .invalid ∧ e = .invalidPayload) ∨
      (status ≠ .invalid ∧ checkImported mem height payload = .error e)) :
    importDialogue mem done height payload early script =
      ⟨earlyCalls mem done payload early ++ (Dialogue.newPayload script.newPayload).calls,
        .error e⟩ := by
  rw [importDialogue_eq]
  dsimp only
  rw [Dialogue.bind_of_ok ((Dialogue.result_newPayload _).trans hnew)]
  rcases hrefused with ⟨rfl, rfl⟩ | ⟨hvalid, hcheck⟩
  · have hinvalid : Exit.ensure (PayloadStatus.invalid ≠ .invalid) Err.invalidPayload =
        .error .invalidPayload := rfl
    rw [Dialogue.ofExit_bind_error hinvalid, List.append_nil]
  · rw [Dialogue.ofExit_bind_ok (a := ()) (Exit.ensure_eq_ok.2 hvalid),
      Dialogue.ofExit_bind_error hcheck, List.append_nil]

/-- An engine that was still syncing when the time was up. -/
theorem importDialogue_pending
    (hnew : newPayloadLoop script.newPayload = .ok (status, true)) (hvalid : status ≠ .invalid)
    (hcheck : checkImported mem height payload = .ok ()) :
    importDialogue mem done height payload early script =
      ⟨earlyCalls mem done payload early ++ (Dialogue.newPayload script.newPayload).calls,
        .ok (status, false)⟩ := by
  rw [importDialogue_eq]
  dsimp only
  rw [Dialogue.bind_of_ok ((Dialogue.result_newPayload _).trans hnew)]
  rw [Dialogue.ofExit_bind_ok (a := ()) (Exit.ensure_eq_ok.2 hvalid), Dialogue.ofExit_bind_ok hcheck]
  simp [pure]

/-- An import that gets to the final forkchoice updates. -/
theorem importDialogue_final
    (hnew : newPayloadLoop script.newPayload = .ok (status, false)) (hvalid : status ≠ .invalid)
    (hcheck : checkImported mem height payload = .ok ())
    (hfinal : forkchoiceLoop script.forkchoice = .ok applied) :
    importDialogue mem done height payload early script =
      ⟨earlyCalls mem done payload early ++ ((Dialogue.newPayload script.newPayload).calls ++
          (Dialogue.forkchoice payload.blockHash script.forkchoice).calls),
        .ok (if applied then status else .syncing, applied)⟩ := by
  rw [importDialogue_eq]
  dsimp only
  rw [Dialogue.bind_of_ok ((Dialogue.result_newPayload _).trans hnew)]
  rw [Dialogue.ofExit_bind_ok (a := ()) (Exit.ensure_eq_ok.2 hvalid), Dialogue.ofExit_bind_ok hcheck,
    if_neg (by simp), Dialogue.bind_of_ok ((Dialogue.result_forkchoice _ _).trans hfinal)]
  cases applied <;> simp [pure]

/-- **The last call of an import that returns** is a forkchoice update that succeeds exactly if the
block was applied. -/
theorem last_call_of_import
    (hr : Returns (importBlock height payload script) m (status, applied) m') (done : Bool)
    (early : List ForkchoiceAnswer) :
    (importDialogue m.mem done height payload early script).result = .ok (status, applied) ∧
      ((importDialogue m.mem done height payload early script).calls.getLast? =
        some (.forkchoice payload.blockHash .ok) ↔ applied = true) := by
  obtain ⟨hcheck, answered, hvalid, ⟨hnew, rfl, rfl, _⟩ | ⟨hnew, hfinal, hcases⟩⟩ :=
    importBlock_cases hr
  · obtain ⟨⟨answer, hlast⟩, _⟩ := Dialogue.calls_newPayload script.newPayload
    rw [importDialogue_pending hnew hvalid hcheck]
    refine ⟨rfl, ?_⟩
    rw [List.getLast?_append, hlast]
    simp
  · obtain ⟨⟨answer, hlast, hok⟩, _⟩ := Dialogue.calls_forkchoice payload.blockHash script.forkchoice
    rw [importDialogue_final hnew hvalid hcheck hfinal]
    refine ⟨?_, ?_⟩
    · rcases hcases with ⟨rfl, rfl, _⟩ | ⟨rfl, rfl, _⟩
      · rfl
      · rfl
    · rw [List.getLast?_append, List.getLast?_append, hlast]
      simp [hok, hfinal]

/-- An error of an import that refuses its payload. -/
def Err.isRefusal : Err → Bool
  | .invalidPayload | .prevRandaoMismatch | .parentHashMismatch => true
  | _ => false

theorem newPayloadLoop_error : ∀ answers : List PayloadAnswer,
    newPayloadLoop answers = .error e → e = .engine
  | [], h | .error :: _, h => by
    cases h
    rfl
  | .syncing false :: rest, h => newPayloadLoop_error rest h

theorem forkchoiceLoop_error : ∀ answers : List ForkchoiceAnswer,
    forkchoiceLoop answers = .error e → e = .engine
  | [], h | .error :: _, h => by
    cases h
    rfl
  | .syncing false :: rest, h => forkchoiceLoop_error rest h

/-- **A refused payload** has been heard of by the engine in the early updates and in `newPayload`
calls, and the disk is as it was. -/
theorem import_refused (h : Fails (importBlock height payload script) m e m')
    (he : e.isRefusal = true) (done : Bool) (early : List ForkchoiceAnswer) :
    m'.disk = m.disk ∧ importDialogue m.mem done height payload early script =
      ⟨earlyCalls m.mem done payload early ++ (Dialogue.newPayload script.newPayload).calls,
        .error e⟩ := by
  obtain ⟨herror, _⟩ | ⟨answered, pending, hnew, hm, hcases⟩ := importBlock_fails h
  · rw [newPayloadLoop_error _ herror] at he
    cases he
  refine ⟨?_, ?_⟩
  · rw [hm]
    split <;> rfl
  · rcases hcases with hinvalid | hcheck | ⟨_, herror⟩
    · exact importDialogue_refused hnew (.inl hinvalid)
    · exact importDialogue_refused hnew (.inr hcheck)
    · rw [forkchoiceLoop_error _ herror] at he
      cases he

end Import

/-! ## Decisions that return -/

section Decision

variable {cfg : Config} {c : CommitCertificate} {bytes : Bytes} {script : EngineScript}
  {check : DecidedCheck} {m m' : Machine Disk Memory}

/-- The dialogue of a decision that passes its checks. -/
theorem decidedDialogue_of_check
    (hcheck : checkDecided cfg m.disk ⟨c.height, c.round⟩ bytes = .ok check)
    (early : List ForkchoiceAnswer) :
    decidedDialogue cfg c bytes early script m =
      importDialogue m.mem check.alreadyDecided c.height check.payload early script :=
  Dialogue.ofExit_bind_ok hcheck

/-- **What an outcome means.** A decision that returns has committed its height, with the value of the
proposal of its round if that is stored, and the block of its payload is the latest block. The outcome is
not pending exactly if the last call to the engine was a forkchoice update to that block and succeeded;
then the block counts as executed and the engine is not degraded. If it is pending, the engine is marked
as degraded, the executed height is as it was, and the status that is reported is "syncing". -/
theorem outcome_of_decision {out : DecidedOutcome}
    (hr : Returns (processDecidedCertificate cfg c bytes script) m out m')
    (early : List ForkchoiceAnswer) :
    ∃ payload, cfg.oracles.fromSszBytes bytes = some payload ∧
      (∃ decided, m'.disk.store.decidedValues[c.height]? = some decided ∧
        ∀ p, m.disk.store.undecidedProposals[Slot.mk c.height c.round]? = some p →
          decided = ⟨p.value, c⟩) ∧
      m'.mem.latestBlock = some (executionBlockOfPayload payload) ∧
      (out.executionPending = false ↔
        (decidedDialogue cfg c bytes early script m).calls.getLast? =
          some (.forkchoice payload.blockHash .ok)) ∧
      (out.executionPending = false →
        m'.mem.executedHeight = c.height ∧ m'.mem.elDegraded = false) ∧
      (out.executionPending = true → m'.mem.elDegraded = true ∧
        m'.mem.executedHeight = m.mem.executedHeight ∧ out.payloadStatus = .syncing) := by
  obtain ⟨check, hcheck, hr⟩ := returns_processDecided.1 hr
  obtain ⟨⟨status, applied⟩, m₁, himport, hr⟩ := returns_bind.1 hr
  obtain ⟨_, m₂, hcommit, hfinish⟩ := returns_bind.1 (returns_modifyMem_bind.1 hr)
  obtain ⟨hexecuted, hdegraded⟩ := engine_of_commit hcommit
  obtain ⟨hpending, hstatus, _, rfl⟩ := finishDecided_end hfinish
  obtain ⟨_, hlast⟩ := last_call_of_import himport check.alreadyDecided early
  have hstore : m₁.disk.store = m.disk.store := by
    rcases returns_importBlock_cases himport with rfl | rfl <;> rfl
  refine ⟨check.payload, checkDecided_payload hcheck, ?_, rfl, ?_, fun hno => ?_, fun hyes => ?_⟩
  · -- the import writes nothing, so the commit finds the tables of the start
    rcases decidedValue_of_commit hcommit with ⟨p, hp, hvalues⟩ | ⟨hp, hd, hvalues⟩
    · refine ⟨⟨p.value, c⟩, ?_, fun p' hp' => ?_⟩
      · rw [hvalues]
        exact (Table.getElem?_insert_eq _ _ _ _).trans (if_pos rfl)
      · have hp : m₁.disk.store.undecidedProposals[Slot.mk c.height c.round]? = some p := hp
        rw [hstore] at hp
        cases hp.symm.trans hp'
        rfl
    · obtain ⟨decided, hdecided⟩ := Option.isSome_iff_exists.1 hd
      refine ⟨decided, ?_, fun p' hp' => ?_⟩
      · rw [hvalues]
        exact hdecided
      · have hp : m₁.disk.store.undecidedProposals[Slot.mk c.height c.round]? = none := hp
        rw [hstore, hp'] at hp
        cases hp
  · rw [decidedDialogue_of_check hcheck]
    refine Iff.trans ?_ hlast.symm
    rw [hpending]
    simp
  · have happlied : applied = true := by simpa [hno] using hpending.symm
    subst happlied
    exact ⟨rfl, rfl⟩
  · have happlied : applied = false := by simpa [hyes] using hpending.symm
    subst happlied
    -- both ways to stay pending mark the engine and change nothing else
    obtain ⟨hsyncing, rfl⟩ : status = .syncing ∧
        m₁ = mapMem Memory.markElDegraded (importing ⟨c.height, c.round⟩ check m) := by
      obtain ⟨_, _, _, ⟨hnew, rfl, _, hm₁⟩ | ⟨_, _, ⟨happlied, _⟩ | ⟨_, hs, hm₁⟩⟩⟩ :=
        importBlock_cases himport
      · exact ⟨newPayloadLoop_pending _ hnew, hm₁⟩
      · cases happlied
      · exact ⟨hs, hm₁⟩
    exact ⟨hdegraded, hexecuted, hstatus.trans hsyncing⟩

end Decision

open Sample in
/-- The engine is still syncing when the time of `newPayload` is up: the block is committed all the
same, and pending. -/
theorem outcome_of_decision_syncing :
    ∃ out, (attemptBlob ⟨[.syncing false, .syncing true], []⟩ awaiting).exit = .ok out ∧
      out.executionPending = true ∧
      (attemptBlob ⟨[.syncing false, .syncing true], []⟩ awaiting).state.mem.elDegraded = true ∧
      (attemptBlob ⟨[.syncing false, .syncing true], []⟩ awaiting).state.mem.latestBlock =
        some (executionBlockOfPayload blobBlock) := by
  have hrun : (attemptBlob ⟨[.syncing false, .syncing true], []⟩ awaiting).exit.okAnd
      (·.executionPending) = true ∧ oracles.fromSszBytes (oracles.asSszBytes blobBlock) = some blobBlock := by
    decide +kernel
  obtain ⟨hpending, hdecode⟩ := hrun
  obtain ⟨out, hout, hpending⟩ := Exit.okAnd_iff.1 hpending
  have hr : Returns (processDecidedCertificate (config 2) blobCertificate
      (oracles.asSszBytes blobBlock) ⟨[.syncing false, .syncing true], []⟩) awaiting out
      (attemptBlob ⟨[.syncing false, .syncing true], []⟩ awaiting).state := ⟨hout, rfl⟩
  obtain ⟨payload, hpayload, _, hlatest, _, _, hmarked⟩ := outcome_of_decision hr []
  cases hdecode.symm.trans hpayload
  exact ⟨out, hout, hpending, (hmarked hpending).1, hlatest⟩

/-! ## Decisions that refuse their payload -/

section Refused

variable {cfg : Config} {c : CommitCertificate} {bytes : Bytes} {script : EngineScript} {e : Err}
  {check : DecidedCheck} {m m' : Machine Disk Memory}

/-- A decision that refuses its payload has passed the checks of the blobs, and the import refuses. -/
theorem fails_refused (h : Fails (processDecidedCertificate cfg c bytes script) m e m')
    (he : e.isRefusal = true) :
    ∃ check, checkDecided cfg m.disk ⟨c.height, c.round⟩ bytes = .ok check ∧
      Fails (importBlock c.height check.payload script) (importing ⟨c.height, c.round⟩ check m) e m' := by
  refine fails_import h ?_
  cases e <;> first | rfl | cases he

/-- The calls before `newPayload` name the block, if there are any. -/
theorem names_earlyCalls {mem : Memory} {done : Bool} {payload : ExecutionPayloadV3}
    {early : List ForkchoiceAnswer} :
    (∃ call ∈ earlyCalls mem done payload early, call.names payload.blockHash = true) ↔
      done = true ∨ mem.elDegraded = true := by
  obtain ⟨⟨answer, hlast, _⟩, hnames⟩ := Dialogue.calls_forkchoice payload.blockHash early
  rw [← Bool.or_eq_true]
  unfold earlyCalls
  split
  · rename_i hsync
    have hmem := List.mem_of_getLast? hlast
    exact ⟨fun _ => hsync, fun _ => ⟨_, hmem, hnames _ hmem⟩⟩
  · rename_i hsync
    simp [hsync]

/-- **The blobs a decision imports with**: all the blobs of the round are decided, and the round has
none left. -/
theorem blobs_forImport {d : Disk} {slot : Slot} (hcheck : checkDecided cfg d slot bytes = .ok check) :
    (∀ s ∈ d.blobs.getUndecidedBlobs slot.height slot.round.asI64,
        s ∈ (d.blobs.forImport slot check.alreadyDecided).getDecidedBlobs slot.height) ∧
      (d.blobs.forImport slot check.alreadyDecided).getUndecidedBlobs slot.height slot.round.asI64 =
        [] := by
  by_cases hround : d.blobs.getUndecidedBlobs slot.height slot.round.asI64 = []
  · refine ⟨by simp [hround], ?_⟩
    unfold BlobStore.forImport
    split
    · exact hround
    · exact (BlobStore.noUndecided_promote_of_empty hround).getUndecidedBlobs _
  · -- then the blobs were not decided before
    have hdone := alreadyDecided_of_round hcheck hround
    unfold BlobStore.forImport
    rw [hdone, if_neg (by simp)]
    refine ⟨fun s hs => ?_, ?_⟩
    · rw [BlobStore.mem_getDecidedBlobs, BlobStore.decided_promote_of_round hround,
        d.blobs.mem_getUndecidedBlobs.1 hs]
      rfl
    · refine BlobStore.getUndecidedBlobs_eq _ List.Pairwise.nil fun s => ?_
      rw [BlobStore.undecided_promote_of_round hround]
      simp

end Refused

end Ultramarine
