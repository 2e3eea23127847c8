import Ultramarine.App.Memory

/-!
# What a message does

The handlers of `App/Handlers.lean` are walked through once, for every property of calls that
`Lib/Closed.lean` allows. `Walk` lists what the property has to hold of: one write or change of the
memory that the lists of `App/Effects.lean` and `App/Memory.lean` allow, the calls of the blob engine,
and archiving. The gate of the execution engine and the import of a block are left to the property.

Results:

* `walk_handle`: such a property holds of every handler;
* `handle_writes`, `handle_effects`: the writes of a message, and those to the tables;
* `handle_moves`: its changes of the memory.
-/

namespace Ultramarine

open Lib Ssz Prog

/-- A message that may say how far the node is. -/
def Event.movesHead : Event → Bool
  | .startedRound _ _ | .decided _ _ => true
  | .processSyncedValue _ _ _ (.metadataOnly _ _ (some _) _) => true
  | _ => false

/-- **A property that holds of whatever a message may do.** `m₀` is the machine when it arrives. -/
structure Walk (cfg : Config) (m₀ : Machine Disk Memory) (ev : Event)
    (P : ∀ {α : Type}, Act α → Machine Disk Memory → Prop) : Prop extends Closed P where
  store : ∀ {w : StoreWrite} {m : Machine Disk Memory}, Effect cfg m₀ ev m (.store w) →
    P (storeWrite w) m
  aside : ∀ {g : Memory → Memory} {m : Machine Disk Memory}, m.mem.Aside (g m.mem) →
    P (Prog.modifyMem g) m
  move : ∀ {g : Memory → Memory} {m : Machine Disk Memory}, ev.movesHead = true →
    MemEffect cfg m₀ ev m (g m.mem) → (g m.mem).lastFcuHead = m.mem.lastFcuHead →
      (g m.mem).streamNonce = m.mem.streamNonce → P (Prog.modifyMem g) m
  bump : ∀ {m : Machine Disk Memory},
    P (Prog.modifyMem fun mem => { mem with streamNonce := mem.streamNonce + 1 }) m
  put : ∀ {slot : Slot} {sidecars : List BlobSidecar} {m : Machine Disk Memory},
    OffersBlobs cfg m₀ ev slot sidecars →
      P (verifyAndStore cfg slot.height slot.round.asI64 sidecars) m
  drop : ∀ {slot : Slot} {m : Machine Disk Memory},
    (∀ a, a.disk.store = m.disk.store → Drops m₀ a ev slot) →
      P (dropRound slot.height slot.round.asI64) m
  promote : ∀ {slot : Slot} {m : Machine Disk Memory}, ev.promotes = some slot →
    P (markDecided slot.height slot.round.asI64) m
  archive : ∀ {α : Type} {p : Act α} {m : Machine Disk Memory},
    Emits (ArchiveEffect cfg) (p.run m) → MovesAside p m → P p m

variable {cfg : Config} {m₀ m : Machine Disk Memory} {ev : Event} {α : Type} {height : Height}
  {round : Round} {proposer : Address} {c : CommitCertificate} {script : EngineScript}
  {P : ∀ {α : Type}, Act α → Machine Disk Memory → Prop}

/-! ## Calls that several handlers make -/

theorem walk_storeUndecidedProposal (h : Walk cfg m₀ ev P) {p : ProposedValue}
    (hp : OffersProposal cfg m₀ ev p) : P (storeUndecidedProposal p) m :=
  h.ofExit_bind fun _ _ => h.store (.store (.proposal hp) rfl)

theorem walk_markBlobMetadataDecided (h : Walk cfg m₀ ev P) {slot : Slot}
    (hslot : ev.promotes = some slot) : P (markBlobMetadataDecided slot) m := by
  refine h.getDisk_bind ?_
  split
  · exact h.store (.store (.promote hslot) rfl)
  · exact h.pure _
  · exact h.ofExit _

theorem walk_nextStreamId (h : Walk cfg m₀ ev P) (height : Height) (round : Round) :
    P (nextStreamId height round) m := by
  unfold nextStreamId
  split
  · exact h.panicked
  · exact h.getMem_bind (h.bind h.bump fun _ _ => h.pure _)

theorem walk_restreamArchiveNotices (h : Walk cfg m₀ ev P) (notices : List ArchiveNotice) :
    P (restreamArchiveNotices notices) m := by
  induction notices generalizing m with
  | nil => exact h.pure _
  | cons notice rest ih =>
    refine h.bind (h.bind (walk_nextStreamId h _ _) fun _ _ => h.pure _) fun _ _ => ?_
    exact h.bind ih fun _ _ => h.pure _

theorem walk_handleArchiveNotices (h : Walk cfg m₀ ev P) (notices : List ArchiveNotice) :
    P (handleArchiveNotices cfg notices) m :=
  h.archive (handleArchiveNotices_archives cfg notices m).1 (handleArchiveNotices_archives cfg notices m).2

/-! ## Rounds and proposals -/

theorem walk_startedRound (h : Walk cfg m₀ (.startedRound height round) P) :
    P (startedRound height round) m₀ := by
  refine h.bind (h.onlyIf fun _ => ?_) fun _ _ => h.move rfl (.round rfl) rfl rfl
  unfold cleanupStaleRoundBlobs
  dsimp only
  split
  · exact h.pure _
  refine h.getMem_bind (h.bind (h.forEach fun r hr m => ?_) fun _ _ => h.aside rfl)
  obtain ⟨htracked, hstale⟩ := List.mem_filter.1 hr
  have hdrops : ∀ m, Drops m₀ m (.startedRound height round) ⟨height, r⟩ := fun m => by
    refine .stale htracked ?_
    have hlt : r.asI64 < round.asI64 - staleRoundBlobRetention ∧ r ≠ .nil := by simpa using hstale
    exact lt_sub_iff_add_lt.1 hlt.1
  refine h.bind (h.store (.remove (hdrops _) .row)) fun _ _ => ?_
  refine h.bind (h.store (.remove (hdrops _) .proposal)) fun _ _ => ?_
  refine h.bind (h.store (.remove (hdrops _) .blockData)) fun _ _ => ?_
  exact @Walk.drop _ _ _ _ h ⟨height, r⟩ _ fun a _ => hdrops a

theorem walk_proposeBuilt {gate : GateAnswer} {b : BuiltPayload}
    (h : Walk cfg m₀ (.getValue height round gate (some b)) P) (hdisk : m.disk = m₀.disk) :
    P (proposeBuilt cfg height round b) m := by
  refine h.bind ?_ fun proposal hproposal => ?_
  · refine h.getMem_bind ?_
    split
    · refine h.ofExit_bind fun _ _ => h.ofExit_bind fun metadata hmetadata => ?_
      have hmetadata := Exit.orPanic_eq_ok.1 hmetadata
      refine h.bind (walk_storeUndecidedProposal h (.built hmetadata)) fun _ _ => h.getDisk_bind ?_
      refine h.ofExit_bind fun root hroot => h.ofExit_bind fun row hrow => ?_
      rw [resolveParentRoot_frame (storeUndecidedProposal_writes rfl), hdisk] at hroot
      refine h.bind (h.store (.store (.metadata (.built hroot (Exit.orPanic_eq_ok.1 hrow))) rfl))
        fun _ _ => ?_
      exact h.bind (h.onlyIf fun _ => h.aside rfl) fun _ _ => h.pure _
    · exact h.panicked
  · obtain ⟨metadata, hmetadata, rfl⟩ := proposeValueWithBlobs_exit hproposal
    refine h.bind (h.store (.store (.blockData .built) rfl)) fun _ _ => h.getDisk_bind ?_
    refine h.ofExit_bind fun sidecars hsidecars => ?_
    refine h.bind (h.put (.built hmetadata hsidecars)) fun _ _ => ?_
    exact h.bind (h.bind (walk_nextStreamId h _ _) fun _ _ => h.pure _) fun _ _ => h.pure _

theorem walk_receivedProposalPart {now : Nat} {peer : PeerId} {part : StreamMessage}
    {gate : GateAnswer} (h : Walk cfg m₀ (.receivedProposalPart now peer part gate) P) :
    P (receivedProposalPart cfg now peer part) m₀ := by
  refine h.getMem_bind ?_
  rcases hinsert : PartStreamsMap.insert m₀.mem.streamsMap peer part with ⟨streams, complete⟩
  refine h.bind (h.aside rfl) fun _ _ => ?_
  cases complete with
  | none => exact h.pure _
  | some parts =>
    refine h.getMem_bind ?_
    split
    · exact h.pure _
    · rename_i hcurrent
      split
      · rename_i hsig
        have hcompletes : ∀ a, assemble cfg m₀.disk m₀.mem.latestBlock now parts = .ok a →
            Completes cfg m₀ now peer part parts a := fun a ha =>
          ⟨by rw [hinsert], not_lt.1 hcurrent, hsig, ha⟩
        refine h.attempt_bind (h.get_bind (h.ofExit_bind fun a ha => ?_)) (fun a ha => ?_)
          fun _ _ => h.pure _
        · have hc := hcompletes a ha
          refine h.bind (h.put (.received hc)) fun _ _ => ?_
          exact h.bind (h.store (.store (.metadata (.received hc)) rfl)) fun _ _ => h.pure _
        · have hc := hcompletes a
            (assembleAndStoreBlobs_exit (m := ⟨m₀.disk, m₀.mem.withStreams streams⟩) ha)
          refine h.bind (h.onlyIf fun _ => h.aside rfl) fun _ _ => ?_
          refine h.bind (walk_storeUndecidedProposal h (.received hc)) fun _ _ => ?_
          exact h.bind (h.store (.store (.blockData (.received hc)) rfl)) fun _ _ => h.pure _
      · exact h.pure _

theorem walk_restreamProposal {validRound : Round} {address : Address}
    (h : Walk cfg m₀ (.restreamProposal height round validRound address) P) :
    P (restreamProposal cfg height round validRound address) m₀ := by
  unfold restreamProposal
  split
  · exact h.pure _
  · rename_i haddress
    obtain rfl := not_not.1 haddress
    refine h.getDisk_bind ?_
    dsimp only
    split
    · exact h.pure _
    · rename_i r hr
      refine h.bind (walk_restreamArchiveNotices h _) fun _ _ => ?_
      refine h.bind (h.onlyIf fun _ => ?_) fun _ _ => ?_
      · refine h.bind (walk_storeUndecidedProposal h (.restreamed hr)) fun _ _ => ?_
        refine h.bind (h.store (.store (.blockData (.restreamed hr)) rfl)) fun _ _ => ?_
        refine h.bind (h.store (.store (.metadata (.restreamed hr)) rfl)) fun _ _ => ?_
        exact h.put (.restreamed hr)
      · refine h.bind (h.bind (walk_nextStreamId h _ _) fun _ _ => h.pure _) fun _ _ => ?_
        exact h.bind (walk_restreamArchiveNotices h _) fun _ _ => h.pure _

/-! ## Synced packages -/

section Syncing

variable {package : SyncedValuePackage} {metadata : BlobMetadata}

theorem walk_promoteSyncedMetadata
    (h : Walk cfg m₀ (.processSyncedValue height round proposer package) P)
    (hrow : OffersMetadata cfg m₀ (.processSyncedValue height round proposer package)
      ⟨height, round⟩ metadata) : P (promoteSyncedMetadata cfg ⟨height, round⟩ metadata) m :=
  h.bind (h.store (.store (.metadata hrow) rfl)) fun _ _ =>
    h.bind (walk_markBlobMetadataDecided h rfl) fun _ _ => h.aside rfl

theorem walk_storeSyncedBlockData
    (h : Walk cfg m₀ (.processSyncedValue height round proposer package) P)
    {record : BlockPayloadRecord} (hrecord : package.record? = some record) :
    P (storeSyncedBlockData ⟨height, round⟩ record) m :=
  h.ofExit_bind fun _ _ => h.store (.store (.blockData (.synced hrecord)) rfl)

theorem walk_refuse (h : Walk cfg m₀ (.processSyncedValue height round proposer package) P) :
    P (dropRound height round.asI64) m :=
  @Walk.drop _ _ _ _ h ⟨height, round⟩ _ fun _ _ => .refused

variable {value : Value} {payload : Bytes} {sidecars : List BlobSidecar} {requests : List Bytes}
  {notices : List ArchiveNotice}

theorem walk_acceptFull {signedHeader : Option SignedBeaconBlockHeader}
    (h : Walk cfg m₀ (.processSyncedValue height round proposer
      (.full value payload sidecars requests notices)) P)
    (hparent : resolveParentRootForHeight cfg m.disk height =
      resolveParentRootForHeight cfg m₀.disk height) :
    P (acceptFull cfg height round proposer value sidecars notices signedHeader) m := by
  refine h.getDisk_bind ?_
  split
  · rename_i root hroot
    split
    · refine h.bind (walk_refuse h) fun _ _ => ?_
      exact h.bind (h.store (.remove .refused .row)) fun _ _ => h.pure _
    · refine h.ofExit_bind fun row hrow => ?_
      refine h.bind (walk_promoteSyncedMetadata h
        (.synced (hparent ▸ hroot) (Exit.orPanic_eq_ok.1 hrow))) fun _ _ => ?_
      refine h.bind (walk_storeUndecidedProposal h .synced) fun _ _ => ?_
      exact h.bind (walk_handleArchiveNotices h _) fun _ _ => h.pure _
  · exact h.pure _

theorem walk_syncSidecars {metadata : ValueMetadata}
    (h : Walk cfg m₀ (.processSyncedValue height round proposer
      (.full value payload sidecars requests notices)) P) :
    P (syncSidecars cfg height round proposer metadata sidecars) m := by
  have hrefused : ∀ m, P (do
      dropRound height round.asI64
      pure none : Act (Option SignedBeaconBlockHeader)) m := fun m =>
    h.bind (walk_refuse h) fun _ _ => h.pure _
  refine h.attempt_bind (h.put .synced) (fun _ _ => ?_) fun _ _ => h.pure _
  dsimp only
  split
  · exact hrefused _
  split
  · exact hrefused _
  split
  · refine h.bind (walk_refuse h) fun _ _ => ?_
    exact h.bind (h.store (.remove .refused .row)) fun _ _ => h.pure _
  · refine h.getDisk_bind ?_
    split
    · exact h.bind (@Walk.promote _ _ _ _ h ⟨height, round⟩ _ rfl) fun _ _ => h.pure _
    · exact hrefused _

theorem walk_processSyncedPackage
    (h : Walk cfg m₀ (.processSyncedValue height round proposer package) P) :
    P (processSyncedPackage cfg height round proposer package) m₀ := by
  cases package with
  | full value payload sidecars requests notices =>
    refine h.bind (walk_storeSyncedBlockData h rfl) fun _ _ => ?_
    have hparent := resolveParentRoot_frame
      (@storeSyncedBlockData_writes _ m₀ ⟨height, round⟩ ⟨payload, requests⟩ rfl) cfg height
    split
    · exact walk_acceptFull h hparent
    · refine h.bind (walk_syncSidecars h) fun result _ => ?_
      cases result with
      | none => exact h.pure _
      | some signedHeader =>
        refine walk_acceptFull h ?_
        rw [resolveParentRoot_frame, hparent]
        refine syncSidecars_writes (fun _ _ _ => trivial) (fun _ w hw => ?_) (fun _ _ => trivial)
          fun _ _ _ => trivial
        cases hw <;> first | rfl | trivial
  | metadataOnly value notices payload requests =>
    cases payload with
    | none => exact h.bind (walk_handleArchiveNotices h _) fun _ _ => h.pure _
    | some payload =>
      refine h.bind (walk_storeSyncedBlockData h rfl) fun _ _ => ?_
      have hparent := resolveParentRoot_frame
        (@storeSyncedBlockData_writes _ m₀ ⟨height, round⟩ ⟨payload, requests⟩ rfl) cfg height
      refine h.getDisk_bind ?_
      split
      · rename_i root hroot
        refine h.ofExit_bind fun row hrow => ?_
        refine h.bind (walk_promoteSyncedMetadata h
          (.synced (hparent ▸ hroot) (Exit.orPanic_eq_ok.1 hrow))) fun _ _ => ?_
        refine h.bind (h.move rfl (.advanced rfl) rfl rfl) fun _ _ => ?_
        refine h.bind (walk_handleArchiveNotices h _) fun _ _ => ?_
        exact h.bind (walk_storeUndecidedProposal h .synced) fun _ _ => h.pure _
      · exact h.pure _

end Syncing

/-! ## Decisions -/

section Deciding

theorem walk_commitTables (h : Walk cfg m₀ (.decided c script) P) {p : ProposedValue}
    (hp : m.disk.store.undecidedProposals[Slot.mk c.height c.round]? = some p) :
    P (commitTables cfg c p) m := by
  refine h.bind (h.ofExit_bind fun _ _ => h.store (.store (.decidedValue rfl hp) rfl))
    fun _ _ => h.getDisk_bind (h.ofExit_bind fun _ _ => ?_)
  refine h.bind (h.ofExit_bind fun _ _ => h.store (.store (.consensusMetadata rfl) rfl))
    fun _ _ => ?_
  refine h.bind (walk_markBlobMetadataDecided h rfl) fun _ _ => h.getDisk_bind ?_
  refine h.ofExit_bind fun _ _ => h.ofExit_bind fun metadata _ => ?_
  refine h.bind (h.aside rfl) fun _ _ => h.getDisk_bind ?_
  split
  · rename_i record hrecord
    exact h.store (.store (.decidedBlockData rfl hrecord) rfl)
  · exact h.pure _

/-- The clean-up removes nothing decided, so the height is committed before each of its writes. -/
theorem walk_commitCleanup (h : Walk cfg m₀ (.decided c script) P)
    (hm : m.disk.store.Committed c.height) : P (commitCleanup c.height c.round) m := by
  refine h.getMem_bind (h.bind (h.store (.prune rfl (retainHeight_le _ _) hm)) fun _ _ => ?_)
  refine h.getMem_bind (h.bind (h.forEach_of (I := fun m => m.disk.store.Committed c.height)
    (fun r _ m hm => ⟨?_, ?_⟩) hm) fun _ _ => h.aside rfl)
  · refine h.bind (h.store (.remove (.failed hm) .row)) fun _ _ => ?_
    refine @Walk.drop _ _ _ _ h ⟨c.height, r⟩ _ fun a ha => .failed ?_
    rw [ha]
    exact hm
  · exact (Disk.Grows.run _ m).values c.height hm

theorem walk_commitReplay (h : Walk cfg m₀ (.decided c script) P) : P (commitReplay cfg c) m := by
  refine h.bind (@Walk.promote _ _ _ _ h ⟨c.height, c.round⟩ _ rfl) fun _ _ => h.getDisk_bind ?_
  split
  · exact h.aside rfl
  · split
    · exact h.attempt_bind (walk_markBlobMetadataDecided h rfl) (fun _ _ => h.aside rfl)
        fun _ _ => h.aside rfl
    · exact h.pure _
  · exact h.pure _

theorem walk_commit (h : Walk cfg m₀ (.decided c script) P) : P (commit cfg c) m := by
  refine h.bind (h.getDisk_bind ?_) fun _ hcommit => ?_
  · split
    · rename_i p hp
      refine h.bind (walk_commitTables h hp) fun _ htables => walk_commitCleanup h ?_
      obtain ⟨_, _, metadata, _, hstate⟩ := returns_commitTables.1 ⟨htables, rfl⟩
      rw [hstate]
      exact Option.isSome_iff_exists.2 ⟨_, Store.committed_decidedValue _ cfg c p⟩
    · exact walk_commitReplay h
    · exact h.fail _
  · have hcommitted := committed_of_commitHeight ⟨hcommit, rfl⟩
    refine h.bind (h.move rfl (.finalized rfl hcommitted) rfl rfl) fun _ _ => ?_
    refine h.bind (h.archive ((flushPendingPrunes_prunes _).1.mono fun _ _ hw => .prune hw)
      (flushPendingPrunes_prunes _).2) fun _ _ => h.move rfl (.next rfl ?_) rfl rfl
    exact (Disk.Grows.run flushPendingPrunes _).values c.height hcommitted

theorem walk_decided (h : Walk cfg m₀ (.decided c script) P)
    (himport : ∀ height payload script m, P (importBlock height payload script) m) :
    P (decided cfg c script) m₀ := by
  refine h.bind (h.getDisk_bind (h.move rfl (.realigned rfl) rfl rfl)) fun _ _ => h.getDisk_bind ?_
  split
  · exact h.pure _
  rename_i record hload
  split
  · exact h.pure _
  refine h.attempt_bind (h.getDisk_bind (h.ofExit_bind fun check hcheck => ?_))
    (fun _ _ => h.getMem_bind (h.pure _)) fun _ _ => h.pure _
  refine h.bind (h.onlyIf fun _ => @Walk.promote _ _ _ _ h ⟨c.height, c.round⟩ _ rfl) fun _ _ => ?_
  refine h.bind (himport _ _ _ _) fun result _ => h.bind (h.aside rfl) fun _ _ => ?_
  refine h.bind (walk_commit h) fun _ hcommit => ?_
  refine h.bind (h.move rfl (.decided rfl hload (checkDecided_payload hcheck) ?_ ⟨hcommit, rfl⟩)
    rfl rfl) fun _ _ => ?_
  · rw [Silent.disk_eq (Silent.modifyMem _), Silent.disk_eq (importBlock_silent _ _ _),
      ((markDecided_frame _ _).onlyIf _).1]
    rfl
  refine h.bind (h.onlyIf fun _ => h.move rfl (.executed rfl) rfl rfl) fun _ _ => h.getDisk_bind ?_
  exact h.bind (h.onlyIf fun _ => h.aside rfl) fun _ _ => h.pure _

end Deciding

/-! ## Messages -/

/-- **What holds of whatever a message may do holds of its handler**, if it holds of the calls of the
execution engine. -/
theorem walk_handle (h : Walk cfg m₀ ev P) (hgate : ∀ gate m, P (ensureElMatchesClHead gate) m)
    (himport : ∀ height payload script m, P (importBlock height payload script) m) :
    P (handle cfg ev) m₀ := by
  have hlogged : ∀ {α : Type} {p : Act α}, P p m₀ → P (Act.logged p) m₀ := fun hp =>
    h.bind (h.attempt hp) fun _ _ => h.pure _
  have hnotice : ∀ notice, P (handleArchiveNotice cfg notice) m₀ := fun notice =>
    h.archive (handleArchiveNotice_archives cfg notice m₀).1 (handleArchiveNotice_archives cfg notice m₀).2
  cases ev with
  | startedRound height round => exact walk_startedRound h
  | getValue height round gate built =>
    refine hlogged (h.getDisk_bind ?_)
    split
    · exact h.pure _
    · refine h.bind (hgate gate _) fun _ _ => h.ofExit_bind fun b hb => ?_
      obtain rfl := Exit.ofOption_eq_ok.1 hb
      refine h.bind (walk_proposeBuilt h ?_) fun _ _ => h.pure _
      exact (ensureElMatchesClHead_silent gate).disk_eq m₀
  | restreamProposal height round validRound address => exact hlogged (walk_restreamProposal h)
  | receivedProposalPart now peer part gate =>
    refine hlogged ?_
    unfold onReceivedProposalPart
    split
    · exact h.attempt_bind (hnotice _) (fun _ _ => h.pure _) fun _ _ => h.pure _
    · refine h.bind (walk_receivedProposalPart h) fun value _ => ?_
      cases value with
      | none => exact h.pure _
      | some v => exact h.bind (hgate gate _) fun _ _ => h.pure _
  | archiveNotice notice => exact hlogged (hnotice notice)
  | decided certificate script => exact hlogged (walk_decided h himport)
  | processSyncedValue height round proposer package =>
    exact hlogged (walk_processSyncedPackage h)

/-! ## The writes of a message -/

/-- The list of writes is walked through. -/
theorem effect_walk (cfg : Config) (m₀ : Machine Disk Memory) (ev : Event) :
    Walk cfg m₀ ev fun p m => Emits (Effect cfg m₀ ev) (p.run m) where
  toClosed := Emits.closed _
  store := .write
  aside _ := .of_log_nil rfl
  move _ _ _ _ := .of_log_nil rfl
  bump := .of_log_nil rfl
  put h := verifyAndStore_writes fun _ _ hs => .put h hs
  drop h := dropRound_writes fun a _ ha => .remove (h a ha) .blob
  promote h := markDecided_writes (fun _ _ => .promote h rfl) fun _ _ hkey => .promoted h hkey
  archive h _ := h.mono fun _ _ hw => .archive hw

/-- **The writes of a message.** -/
theorem handle_writes (cfg : Config) (m₀ : Machine Disk Memory) (ev : Event) :
    Emits (Effect cfg m₀ ev) ((handle cfg ev).run m₀) :=
  walk_handle (effect_walk cfg m₀ ev) (fun gate => (ensureElMatchesClHead_silent gate).emits)
    fun height payload script => (importBlock_silent height payload script).emits

/-- The writes of a message to the tables. -/
theorem handle_effects (cfg : Config) (m₀ : Machine Disk Memory) (ev : Event) :
    Emits (OnStore (StoreEffect cfg m₀ ev)) ((handle cfg ev).run m₀) :=
  (handle_writes cfg m₀ ev).mono fun _ _ h => h.onStore

/-! ## Its changes of the memory -/

/-- A list of changes is walked through if it has those that `Walk` asks for. -/
theorem moves_walk {M : Machine Disk Memory → Memory → Prop}
    (haside : ∀ m mem, m.mem.Aside mem → M m mem)
    (hmove : ∀ m mem, ev.movesHead = true → MemEffect cfg m₀ ev m mem →
      mem.lastFcuHead = m.mem.lastFcuHead → mem.streamNonce = m.mem.streamNonce → M m mem)
    (hbump : ∀ m, M m { m.mem with streamNonce := m.mem.streamNonce + 1 }) :
    Walk cfg m₀ ev fun p m => Moves M p m where
  toClosed := Moves.closed _
  store _ := .write _
  aside h := .modifyMem (haside _ _ h)
  move hev h hfcu hnonce := .modifyMem (hmove _ _ hev h hfcu hnonce)
  bump := .modifyMem (hbump _)
  put _ := by
    unfold verifyAndStore
    split
    · exact .pure _
    · exact (Moves.closed _).ofExit_bind fun _ _ => .writeAll _ _
  drop _ := (Moves.closed _).getDisk_bind (.writeAll _ _)
  promote _ := (Moves.closed _).getDisk_bind (.writeAll _ _)
  archive _ h := h.mono haside

/-- **How a message changes the memory.** -/
theorem handle_moves (cfg : Config) (m₀ : Machine Disk Memory) (ev : Event) :
    Moves (MemEffect cfg m₀ ev) (handle cfg ev) m₀ :=
  walk_handle (moves_walk (fun _ _ h => .aside h.sameHead) (fun _ _ _ h _ _ => h)
    fun _ => .aside ⟨rfl, rfl, rfl, rfl, rfl⟩)
    (fun gate _ => moves_ensureElMatchesClHead (fun _ _ h => .head h)
      (fun _ _ => .aside ⟨rfl, rfl, rfl, rfl, rfl⟩) (fun _ => .aside ⟨rfl, rfl, rfl, rfl, rfl⟩) gate)
    fun height payload script _ => moves_importBlock (fun _ => .aside ⟨rfl, rfl, rfl, rfl, rfl⟩)
      height payload script

end Ultramarine
