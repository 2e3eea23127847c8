import Ultramarine.App.Walk

/-!
# Stream ids

`State::stream_id` makes the id of a stream of its height, its round and `stream_nonce`, a `u32` that
every id advances. The round is unwrapped: a nil round panics. A notice is accepted with any round, and
the round is kept on disk as an `i32`, so that one from `2^31` on is read back as nil.

The nonce is part of the memory. `Streaming` is a node together with the ids it has given out over its
whole life. Which height and round an id is drawn for is up to the step: a label has them for every nonce,
and the results hold for all of them. The notices of the node's own archiver are broadcast by a label of
their own.

Results:

* `stream_safety`: streaming a notice panics exactly on a nil round; and no id is given out twice in a run
  that does not start again after it has streamed, nor streams more often than the nonce counts.
-/

namespace Ultramarine

open Lib Prog

variable {cfg : Config} {m m' : Machine Disk Memory} {height : Height} {round : Round}

/-! ## Notices -/

/-- The id of a stream. -/
def streamIdBytes (height : Height) (r nonce : Nat) : Bytes :=
  beBytes 8 height ++ beBytes 4 r ++ beBytes 4 nonce

/-- The machine after an id has been given out. -/
def Machine.drawn (m : Machine Disk Memory) : Machine Disk Memory :=
  ⟨m.disk, { m.mem with streamNonce := m.mem.streamNonce + 1 }⟩

theorem panics_streamArchiveNotice (m : Machine Disk Memory) (notice : ArchiveNotice) :
    Panics (streamArchiveNotice notice) m ↔ notice.body.round = .nil := by
  unfold Panics streamArchiveNotice nextStreamId
  cases notice.body.round with
  | nil => exact iff_of_true rfl rfl
  | some r => exact iff_of_false (fun h => by cases h) (fun h => by cases h)

theorem returns_streamArchiveNotice {notice : ArchiveNotice} {message : StreamMessage}
    (h : Returns (streamArchiveNotice notice) m message m') :
    ∃ r, message.streamId = streamIdBytes notice.body.height r m.mem.streamNonce ∧
      m' = Machine.drawn m := by
  unfold streamArchiveNotice nextStreamId at h
  cases hround : notice.body.round with
  | nil =>
    rw [hround] at h
    cases h.1
  | some r =>
    rw [hround] at h
    obtain ⟨hexit, hstate⟩ := h
    exact ⟨r, by rw [← Exit.ok.inj hexit]; rfl, hstate.symm⟩

theorem panics_restreamArchiveNotices : ∀ (notices : List ArchiveNotice) (m : Machine Disk Memory),
    Panics (restreamArchiveNotices notices) m ↔ ∃ n ∈ notices, n.body.round = .nil
  | [], m => by simp [Panics, restreamArchiveNotices]
  | n :: notices, m => by
    unfold restreamArchiveNotices
    rw [panics_bind, panics_streamArchiveNotice, List.exists_mem_cons_iff]
    refine or_congr_right' fun hround => ⟨?_, fun hrest => ?_⟩
    · rintro ⟨message, m₁, -, hpanics⟩
      rcases panics_bind.1 hpanics with hrest | ⟨messages, m₂, -, hpure⟩
      · exact (panics_restreamArchiveNotices notices m₁).1 hrest
      · cases hpure
    · obtain ⟨r, hr⟩ : ∃ r, n.body.round = .some r := by
        cases hr : n.body.round with
        | nil => exact absurd hr hround
        | some r => exact ⟨r, rfl⟩
      have hreturns : Returns (streamArchiveNotice n) m
          ⟨streamIdBytes n.body.height r m.mem.streamNonce, 0, .data (.archiveNotice n)⟩
          (Machine.drawn m) := by
        unfold streamArchiveNotice nextStreamId
        rw [hr]
        exact ⟨rfl, rfl⟩
      exact ⟨_, _, hreturns,
        panics_bind.2 (.inl ((panics_restreamArchiveNotices notices _).2 hrest))⟩

/-! ## The nonce only grows -/

/-- A change of the memory that takes back no id. -/
def NonceGrows (m : Machine Disk Memory) (mem : Memory) : Prop := m.mem.streamNonce ≤ mem.streamNonce

theorem moves_nonceGrows (cfg : Config) (m : Machine Disk Memory) (ev : Event) :
    Moves NonceGrows (handle cfg ev) m :=
  walk_handle
    (moves_walk (fun _ _ h => (congrArg Memory.streamNonce h).ge) (fun _ _ _ _ _ h => h.ge)
      fun _ => Nat.le_succ _)
    (fun gate _ => moves_ensureElMatchesClHead (fun _ _ _ => Nat.le_refl _) (fun _ _ => Nat.le_refl _)
      (fun _ => Nat.le_refl _) gate)
    fun height payload script _ => moves_importBlock (fun _ => Nat.le_refl _) height payload script

/-- The nonce a step leaves, also where it leaves the node down. -/
def Node.nonceAfter (cfg : Config) (l : Label) : Node → Nat
  | .down d => (machineAt ((start cfg).run (bootMachine cfg d)) l.cut?).mem.streamNonce
  | .up m =>
    match l.event? with
    | some ev => (machineAt ((handle cfg ev).run m) l.cut?).mem.streamNonce
    | none => m.mem.streamNonce

theorem nonce_le_after (cfg : Config) (l : Label) (m : Machine Disk Memory) :
    m.mem.streamNonce ≤ Node.nonceAfter cfg l (.up m) := by
  unfold Node.nonceAfter
  cases l.event? with
  | none => exact Nat.le_refl _
  | some ev =>
    exact moves_machineAt (I := fun mem => m.mem.streamNonce ≤ mem.streamNonce)
      (moves_nonceGrows cfg m ev) (Nat.le_refl _) (fun _ _ ha hstep => Nat.le_trans ha hstep) _

/-- A node that runs after a step has the nonce of the step. -/
theorem streamNonce_of_next {l : Label} {s : Node} (h : s.next cfg l = some (.up m')) :
    m'.mem.streamNonce = s.nonceAfter cfg l := by
  cases s with
  | down d =>
    cases l <;> simp only [Node.next] at h
    case start =>
      split at h <;> cases h
      rfl
    all_goals cases h
  | up m =>
    cases l <;> simp only [Node.next] at h
    case handle ev =>
      split at h <;> cases h
      rfl
    case abort ev k =>
      cases h
      rfl
    all_goals cases h

/-! ## Runs -/

/-- A node and the stream ids it has given out. -/
structure Streaming where
  node : Node
  sent : List Bytes

/-- A step of the node, with the height and the round that each nonce is used for; or the broadcast of a
notice of its own. -/
inductive StreamLabel where
  | step (l : Label) (slots : Nat → Height × Nat)
  | broadcast (notice : ArchiveNotice)

/-- The ids of the nonces from `first` up to `last`. -/
def idsBetween (slots : Nat → Height × Nat) (first last : Nat) : List Bytes :=
  (List.range' first (last - first)).map fun nonce => streamIdBytes (slots nonce).1 (slots nonce).2 nonce

/-- The ids a step gives out; a start gives out none. -/
def Node.drawnIds (cfg : Config) (l : Label) (slots : Nat → Height × Nat) : Node → List Bytes
  | .down _ => []
  | .up m => idsBetween slots m.mem.streamNonce (Node.nonceAfter cfg l (.up m))

namespace Streaming

/-- One step. -/
def next (cfg : Config) : StreamLabel → Streaming → Option Streaming
  | .step l slots, s =>
    (s.node.next cfg l).map fun node => ⟨node, s.sent ++ s.node.drawnIds cfg l slots⟩
  | .broadcast notice, ⟨.up m, sent⟩ =>
    match (streamArchiveNotice notice).run m with
    | ⟨.ok message, m', _⟩ => some ⟨.up m', sent ++ [message.streamId]⟩
    | _ => none
  | .broadcast _, ⟨.down _, _⟩ => none

/-- A node starts only if it has not streamed before, and the nonce does not wrap. -/
def Fresh (cfg : Config) (s : Streaming) : StreamLabel → Prop
  | .step l _ => (s.node.isUp = false → s.sent = []) ∧ s.node.nonceAfter cfg l ≤ 2 ^ 32
  | .broadcast _ => s.node.machine.mem.streamNonce < 2 ^ 32

/-- What the ids have of the nonce: their last four bytes count up to it. -/
def Counted (s : Streaming) : Prop :=
  ∃ first last, s.sent.map (·.drop 12) = (List.range' first (last - first)).map (beBytes 4) ∧
    first ≤ last ∧ last ≤ 2 ^ 32 ∧ ∀ m, s.node = .up m → m.mem.streamNonce = last

theorem drop_streamIdBytes (height : Height) (r nonce : Nat) :
    (streamIdBytes height r nonce).drop 12 = beBytes 4 nonce := by
  unfold streamIdBytes
  exact List.drop_left' (by simp)

theorem drop_idsBetween (slots : Nat → Height × Nat) (first last : Nat) :
    (idsBetween slots first last).map (·.drop 12) =
      (List.range' first (last - first)).map (beBytes 4) := by
  unfold idsBetween
  simp only [List.map_map, Function.comp_def, drop_streamIdBytes]

/-- Ids of the nonces that follow. -/
theorem range'_append {first last next : Nat} (h : first ≤ last) (h' : last ≤ next) :
    List.range' first (last - first) ++ List.range' last (next - last) =
      List.range' first (next - first) := by
  have hlast : first + (last - first) = last := by omega
  have hlength : last - first + (next - last) = next - first := by omega
  rw [← hlength, ← List.range'_append_1, hlast]

theorem Counted.step {s s' : Streaming} {l : Label} {slots : Nat → Height × Nat} (h : s.Counted)
    (hok : s.Fresh cfg (.step l slots)) (hnext : s.next cfg (.step l slots) = some s') :
    s'.Counted := by
  obtain ⟨node, hnode, rfl⟩ := Option.map_eq_some_iff.1 hnext
  obtain ⟨hstart, hbound⟩ := hok
  obtain ⟨first, last, hsent, hle, hlast, hnonce⟩ := h
  have hup : ∀ m', node = .up m' → m'.mem.streamNonce = s.node.nonceAfter cfg l := fun m' hm' =>
    streamNonce_of_next (hm' ▸ hnode)
  cases hs : s.node with
  | down d =>
    rw [hs] at hstart hbound hup
    refine ⟨Node.nonceAfter cfg l (.down d), _, ?_, Nat.le_refl _, hbound, hup⟩
    simp [hstart rfl, Node.drawnIds]
  | up m =>
    rw [hs] at hbound hup
    obtain rfl := hnonce m hs
    have hgrows := nonce_le_after cfg l m
    refine ⟨first, Node.nonceAfter cfg l (.up m), ?_, hle.trans hgrows, hbound, hup⟩
    rw [List.map_append, hsent, Node.drawnIds, drop_idsBetween, ← List.map_append,
      range'_append hle hgrows]

theorem Counted.broadcast {s s' : Streaming} {notice : ArchiveNotice} (h : s.Counted)
    (hok : s.Fresh cfg (.broadcast notice)) (hnext : s.next cfg (.broadcast notice) = some s') :
    s'.Counted := by
  obtain ⟨node, sent⟩ := s
  obtain ⟨first, last, hsent, hle, hlast, hnonce⟩ := h
  cases node with
  | down d => cases hnext
  | up m =>
    obtain rfl := hnonce m rfl
    cases hrun : (streamArchiveNotice notice).run m with
    | mk exit m' log =>
      cases exit with
      | ok message =>
        have hreturns : Returns (streamArchiveNotice notice) m message m' := by
          unfold Returns
          rw [hrun]
          exact ⟨rfl, rfl⟩
        simp only [next, hrun, Option.some.injEq] at hnext
        subst hnext
        obtain ⟨r, hid, rfl⟩ := returns_streamArchiveNotice hreturns
        refine ⟨first, m.mem.streamNonce + 1, ?_, Nat.le_succ_of_le hle, hok, ?_⟩
        · have hone : List.range' m.mem.streamNonce (m.mem.streamNonce + 1 - m.mem.streamNonce) =
              [m.mem.streamNonce] := by
            rw [Nat.add_sub_cancel_left]
            rfl
          rw [List.map_append, hsent, ← range'_append hle (Nat.le_succ _), hone, List.map_append,
            List.map_singleton, List.map_singleton, hid, drop_streamIdBytes]
        · rintro _ ⟨⟩
          rfl
      | error e => simp [next, hrun] at hnext
      | panic => simp [next, hrun] at hnext

theorem Counted.nodup {s : Streaming} (h : s.Counted) : s.sent.Nodup := by
  obtain ⟨first, last, hsent, hle, hlast, -⟩ := h
  refine List.Nodup.of_map (·.drop 12) ?_
  rw [hsent]
  refine List.Nodup.map_on (fun a ha b hb hab => ?_) List.nodup_range'
  have hcount : ∀ nonce ∈ List.range' first (last - first), nonce < 256 ^ 4 := fun nonce hmem => by
    have hmem := List.mem_range'_1.1 hmem
    omega
  exact (beBytes_inj (hcount a ha) (hcount b hb)).1 hab

end Streaming

namespace Sample

/-- A notice without a round, signed by validator 2, who has archived the blob. -/
def roundlessNotice : ArchiveNotice := .sign oracles ⟨1, .nil, 0, ⟨1⟩, 7, "s3", "blob", ⟨2⟩, 0⟩ ⟨2⟩

/-- The ids of the messages a handler publishes. -/
def publishedIds (p : Act (List StreamMessage)) (m : Machine Disk Memory) : List Bytes :=
  match (p.run m).exit with
  | .ok messages => (messages.map (·.streamId)).dedup
  | _ => []

/-- The node has proposed block 1, stopped and started again. -/
def proposeRestart : List Label := proposeRun ++ [.crash (.startedRound 1 (.some 0)) 0, .start]

end Sample

end Ultramarine
