import Ultramarine.Agreement.ProposerFollower
import Ultramarine.Safety.Retention

/-!
# How long a proposal is kept

What a node stores for a height and a round is kept, through crashes and starts, until a round more
than `STALE_ROUND_BLOB_RETENTION` later starts at the height, a height from this one on is decided, or
a synced package for the height arrives (`Event.Spares`). `handle_get_value` builds nothing for a round
whose payload is stored, so until then a node that has proposed does not propose again.

Results: `slot_kept`, `proposes_once`.
-/

namespace Ultramarine

open Lib Prog

/-- The message leaves alone what is stored for the slot. -/
def Event.Spares (slot : Slot) : Event → Prop
  | .startedRound height round =>
    height = slot.height → round.asI64 ≤ slot.round.asI64 + staleRoundBlobRetention
  | .decided c _ => c.height < slot.height
  | .processSyncedValue height _ _ _ => height ≠ slot.height
  | _ => True

/-- All messages of a run do. -/
def Spares (slot : Slot) (_ : Node) (l : Label) : Prop := ∀ ev, l.event? = some ev → ev.Spares slot

/-- What the first disk has for the slot is on the second. The blobs may be others. -/
structure Disk.Kept (slot : Slot) (d d' : Disk) : Prop where
  proposal : ∀ p, d.store.undecidedProposals[slot]? = some p →
    d'.store.undecidedProposals[slot]? = some p
  blockData : ∀ r, d.store.undecidedBlockData[slot]? = some r →
    d'.store.undecidedBlockData[slot]? = some r
  row : ∀ row, d.store.blobMetadataUndecided[slot]? = some row →
    d'.store.blobMetadataUndecided[slot]? = some row
  blobs : ∀ i, (d.blobs.undecided[BlobKey.mk slot.height slot.round.asI64 i]?).isSome →
    (d'.blobs.undecided[BlobKey.mk slot.height slot.round.asI64 i]?).isSome

variable {cfg : Config} {slot slot' : Slot} {d d' : Disk} {m m₀ a : Machine Disk Memory}
  {w : Write} {ev : Event}

theorem Disk.Kept.refl (slot : Slot) (d : Disk) : Disk.Kept slot d d :=
  ⟨fun _ => id, fun _ => id, fun _ => id, fun _ => id⟩

theorem Disk.Kept.trans {d'' : Disk} (h : Disk.Kept slot d d') (h' : Disk.Kept slot d' d'') :
    Disk.Kept slot d d'' :=
  ⟨fun p => h'.proposal p ∘ h.proposal p, fun r => h'.blockData r ∘ h.blockData r,
    fun row => h'.row row ∘ h.row row, fun i => h'.blobs i ∘ h.blobs i⟩

/-- The write removes nothing of the slot. -/
def Write.Spares (slot : Slot) : Write → Prop
  | .store (.deleteUndecidedProposal s) | .store (.deleteUndecidedBlockData s)
  | .store (.deleteBlobMetadataUndecided s) | .store (.markBlobMetadataDecided s) => s ≠ slot
  | .store (.prune retain) => retain < slot.height
  | .blob (.deleteUndecided key) => key.height = slot.height → key.round ≠ slot.round.asI64
  | _ => True

/-- **One write.** -/
theorem Write.Spares.kept (hw : w.Spares slot) : Disk.Kept slot d (d.apply w) := by
  have hkept := Disk.Kept.refl slot d
  have herase : ∀ {α : Type} {t : Table Slot α} {s : Slot} {v : α}, s ≠ slot → t[slot]? = some v →
      (t.erase s)[slot]? = some v :=
    fun hs hv => (Table.getElem?_erase_eq _ _ _).trans ((if_neg hs).trans hv)
  cases w with
  | blob w =>
    cases w with
    | putUndecided height round s =>
      exact { hkept with blobs := fun _ hi => Table.isSome_insert hi _ _ }
    | deleteUndecided key =>
      refine { hkept with blobs := fun i hi => ?_ }
      refine (congrArg Option.isSome (Table.getElem?_erase_eq _ _ _)).trans ?_
      rw [if_neg]
      · exact hi
      · rintro rfl
        exact hw rfl rfl
    | _ => exact { hkept with }
  | store w =>
    cases w with
    | insertUndecidedProposal p =>
      exact { hkept with proposal := fun _ hp => Table.getElem?_insertIfNew_of_some hp _ _ }
    | insertUndecidedBlockData s r =>
      exact { hkept with blockData := fun _ hr => Table.getElem?_insertIfNew_of_some hr _ _ }
    | insertBlobMetadataUndecided s row =>
      exact { hkept with row := fun _ hrow => Table.getElem?_insertIfNew_of_some hrow _ _ }
    | deleteUndecidedProposal s => exact { hkept with proposal := fun _ => herase hw }
    | deleteUndecidedBlockData s => exact { hkept with blockData := fun _ => herase hw }
    | deleteBlobMetadataUndecided s => exact { hkept with row := fun _ => herase hw }
    | prune retain =>
      have hstays : ∀ {α : Type} {t : Table Slot α} {v : α}, t[slot]? = some v →
          (Table.eraseWhere (Store.belowRetain retain) t)[slot]? = some v := by
        intro α t v hv
        rw [Table.getElem?_eraseWhere, if_neg]
        · exact hv
        · rw [Store.belowRetain_iff]
          exact Nat.lt_asymm hw
      exact { hkept with proposal := fun _ => hstays, blockData := fun _ => hstays }
    | markBlobMetadataDecided s =>
      simp only [Disk.apply, Store.apply]
      split
      · exact hkept
      · exact { hkept with row := fun _ => herase hw }
    | insertGenesisBlobMetadata =>
      simp only [Disk.apply, Store.apply]
      split <;> exact { hkept with }
    | _ => exact { hkept with }

/-! ## Messages -/

theorem Event.Spares.promotes (hev : ev.Spares slot) (hp : ev.promotes = some slot') :
    slot'.height ≠ slot.height := by
  cases ev with
  | decided c script =>
    cases hp
    exact Nat.ne_of_lt hev
  | processSyncedValue height round proposer package =>
    cases hp
    exact hev
  | _ => cases hp

/-- What a message removes is of another height or round. -/
theorem Drops.spares (hdrops : Drops m₀ a ev slot') (hev : ev.Spares slot) :
    slot'.height = slot.height → slot'.round.asI64 ≠ slot.round.asI64 := by
  intro hheight hround
  cases hdrops with
  | stale _ hlt =>
    rw [hround] at hlt
    exact absurd hlt (not_lt.2 (hev hheight))
  | failed _ => exact absurd hheight (Nat.ne_of_lt hev)
  | refused => exact hev hheight

/-- **What a message writes.** -/
theorem Effect.keeps (hw : Effect cfg m₀ ev a w) (hev : ev.Spares slot) : w.Spares slot := by
  have hne : ∀ {s : Slot}, (s.height = slot.height → s.round.asI64 ≠ slot.round.asI64) → s ≠ slot := by
    rintro s h rfl
    exact h rfl rfl
  -- promotions, removals and the prune of a commit delete undecided rows, and nothing else does
  cases hw with
  | @store w hw hplain =>
    cases hw with
    | promote hp => exact hne fun hheight => absurd hheight (hev.promotes hp)
    | removal _ => cases w <;> trivial
    | _ => trivial
  | archive hw =>
    cases hw with
    | prune hw => cases hw <;> trivial
    | _ => trivial
  | remove hdrops hw =>
    cases hw with
    | blob => exact hdrops.spares hev
    | _ => exact hne (hdrops.spares hev)
  | prune hdecided hle _ =>
    subst hdecided
    exact lt_of_le_of_lt hle hev
  | promoted hp hheight => exact fun h => absurd (hheight.symm.trans h) (hev.promotes hp)
  | _ => trivial

theorem BootEffect.keeps (hw : BootEffect cfg a w) (hfirst : cfg.startHeight ≤ slot.height) :
    w.Spares slot := by
  cases hw with
  | genesis => trivial
  | stale hlt =>
    rintro rfl
    exact absurd hlt (not_lt.2 hfirst)
  | prune hw => cases hw <;> trivial

variable {height : Height} {round : Round} {answer answer' : GateAnswer}
  {built built' : Option BuiltPayload} {reply : LocallyProposedValue × List StreamMessage}
  {m' m'' : Machine Disk Memory} {s s' : Node} {l : Label}

/-- **One step.** -/
theorem kept_of_next (hfirst : cfg.startHeight ≤ slot.height) (hok : Spares slot s l)
    (hnext : s.next cfg l = some s') : Disk.Kept slot s.disk s'.disk := by
  rcases Node.next_cases hnext with ⟨m, ev, rfl, hev, hdisk⟩ | ⟨d, rfl, _, hdisk⟩ <;> rw [hdisk]
  · refine diskAt_invariant (I := Disk.Kept slot m.disk) _ (.refl _ _) ?_ _
    exact (handle_writes cfg m ev).mono fun _ _ hw hd => hd.trans (hw.keeps (hok ev hev)).kept
  · refine diskAt_invariant (I := Disk.Kept slot d) _ (.refl _ _) ?_ _
    exact (start_writes cfg (bootMachine cfg d)).mono fun _ _ hw hd => hd.trans (hw.keeps hfirst).kept

/-- A node that has proposed for a slot has its payload. -/
theorem blockData_of_reply
    (hreply : Returns (handleGetValue cfg height round answer built) m (some reply) m') :
    ∃ r, m'.disk.store.undecidedBlockData[Slot.mk height round]? = some r := by
  unfold handleGetValue at hreply
  rw [returns_getDisk_bind] at hreply
  split at hreply
  · cases (returns_pure.1 hreply).1
  · obtain ⟨_, m₁, _, hreply⟩ := returns_bind.1 hreply
    obtain ⟨built, _, hreply⟩ := returns_ofExit_bind.1 hreply
    obtain ⟨⟨lp, messages⟩, m₂, hpropose, hreply⟩ := returns_bind.1 hreply
    obtain ⟨_, rfl⟩ := returns_pure.1 hreply
    obtain ⟨_, _, _, a, _, _, _, hdisk, _⟩ := proposeBuilt_inversion hpropose
    rw [hdisk]
    exact ⟨_, (Table.getElem?_insertIfNew_eq _ _ _ _).trans (if_pos rfl)⟩

/-- **A proposal is kept** until its round is stale, its height is decided or synced, through any number
of crashes. -/
theorem slot_kept (hfirst : cfg.startHeight ≤ slot.height)
    (hrun : Reach (Node.next cfg) (Spares slot) s s') : Disk.Kept slot s.disk s'.disk :=
  hrun.invariant (I := fun s' => Disk.Kept slot s.disk s'.disk) (.refl _ _)
    fun _ _ _ hs hok hnext => hs.trans (kept_of_next hfirst hok hnext)

/-- **No second proposal.** Until then a node that has answered `GetValue` answers it no more, and writes
nothing for it. -/
theorem proposes_once (hfirst : cfg.startHeight ≤ height)
    (hreply : Returns (handleGetValue cfg height round answer built) m (some reply) m')
    (hrun : Reach (Node.next cfg) (Spares ⟨height, round⟩) (.up m') (.up m'')) :
    Returns (handleGetValue cfg height round answer' built') m'' none m'' := by
  obtain ⟨r, hr⟩ := blockData_of_reply hreply
  have hkept : m''.disk.store.undecidedBlockData[Slot.mk height round]? = some r :=
    hrun.invariant (I := fun s => s.disk.store.undecidedBlockData[Slot.mk height round]? = some r) hr
      fun _ _ _ hs hok hnext => (kept_of_next hfirst hok hnext).blockData r hs
  unfold handleGetValue
  rw [returns_getDisk_bind, Store.loadBlockPayloadRecord, hkept]
  exact returns_pure.2 ⟨rfl, rfl⟩

namespace Sample

/-- The node has proposed, is stopped when the fourth round starts, and starts again. -/
def cameBack : Node :=
  follow (Node.next (config 1)) [.crash (.startedRound 1 (.some 3)) 0, .start] (node 1 proposeRun)

/-- The call in which validator 1 proposes block 1. -/
def proposed : Outcome Disk Memory Write Err (Option (LocallyProposedValue × List StreamMessage)) :=
  (handleGetValue (config 1) 1 (.some 0) gate (some ⟨payload 1 0 1 0, [], none⟩)).run
    (node 1 [.start]).machine

end Sample

open Sample in
/-- The proposal is there after the crash. -/
theorem slot_kept_resumed :
    ((node 1 proposeRun).disk.store.undecidedProposals[Slot.mk 1 (.some 0)]?).isSome ∧
      Disk.Kept ⟨1, .some 0⟩ (node 1 proposeRun).disk cameBack.disk := by
  have hrun : Reach (Node.next (config 1)) (Spares ⟨1, .some 0⟩) (node 1 proposeRun) cameBack := by
    refine Reach.refl.follow
      ⟨fun ev hev => ?_, by decide +kernel, fun ev hev => ?_, by decide +kernel, trivial⟩ <;> cases hev
    exact fun _ => by decide
  exact ⟨by decide +kernel, slot_kept (by decide) hrun⟩

open Sample in
/-- The node is asked again. -/
theorem proposes_once_asked :
    Returns (handleGetValue (config 1) 1 (.some 0) gate none) proposed.state none proposed.state := by
  have hok : proposed.exit.okAnd Option.isSome = true := by decide +kernel
  obtain ⟨_, hexit, hsome⟩ := Exit.okAnd_iff.1 hok
  obtain ⟨_, rfl⟩ := Option.isSome_iff_exists.1 hsome
  exact proposes_once (by decide) ⟨hexit, rfl⟩ .refl

end Ultramarine
