import Mathlib.Data.List.Range
import Mathlib.Data.Finset.Card
import Ultramarine.Agreement.Delivery

/-!
# Streams of a Byzantine peer

`PartStreamsMap` with messages of any sequence numbers, several `Fin` messages and any content. Two
things of `consensus/src/streaming.rs` decide what an adversary can do:

* a stream is complete when as many messages are buffered as the last `Fin` announces. Which sequences
  they have is not looked at, and `msg.sequence as usize + 1` overflows for the largest sequence;
* `insert` takes `init_info` when it emits, and the map asks `is_done` after that, so the entry of an
  emitted stream is never removed.

The state of an entry is a function of the messages the stream has accepted (`Entry`), and so is what
comes out of it (`Entry.receive`).

Results:

* `emissions_exact_iff`: every emitted proposal consists of the data below its `Fin`, and nothing
  overflows, exactly if no accepted message is a `Fin` with the largest sequence and, whenever a stream
  completes, its last `Fin` lies beyond all its other messages and they are data;
* `released_iff`: the map forgets the streams it has emitted exactly if it emits none.
-/

namespace Ultramarine

open Lib

/-! ## What a stream has accepted -/

/-- The messages a stream accepts: the first of each sequence. -/
def accepted (ms : List StreamMessage) : List StreamMessage :=
  ms.foldl (fun l m => if m.sequence ∈ l.map (·.sequence) then l else l ++ [m]) []

/-- The sequence of the last `Fin`. -/
def finSequence (l : List StreamMessage) : Option Nat :=
  (l.reverse.find? fun m => m.content = .fin).map (·.sequence)

/-- The init part, if the message with sequence 0 carries one. -/
def initOf (l : List StreamMessage) : Option ProposalInit :=
  (l.find? fun m => m.sequence = 0).bind fun m => m.content.asData.bind ProposalPart.asInit

/-- There is an init part, and there are as many messages as the last `Fin` announces. -/
def Full (l : List StreamMessage) : Prop :=
  (initOf l).isSome ∧ (finSequence l).map (· + 1) = some l.length

instance (l : List StreamMessage) : Decidable (Full l) :=
  inferInstanceAs (Decidable (_ ∧ _))

/-- The message is new to the stream and makes it full, for the first time. -/
def CompletesStream (l : List StreamMessage) (m : StreamMessage) : Prop :=
  m.sequence ∉ l.map (·.sequence) ∧ Full (l ++ [m]) ∧ ∀ k ≤ l.length, ¬ Full (l.take k)

instance (l : List StreamMessage) (m : StreamMessage) : Decidable (CompletesStream l m) :=
  inferInstanceAs (Decidable (_ ∧ _ ∧ ∀ k ≤ l.length, _))

theorem accepted_concat (ms : List StreamMessage) (m : StreamMessage) :
    accepted (ms ++ [m]) =
      if m.sequence ∈ (accepted ms).map (·.sequence) then accepted ms else accepted ms ++ [m] := by
  unfold accepted
  rw [List.foldl_append]
  rfl

theorem finSequence_concat (l : List StreamMessage) (m : StreamMessage) :
    finSequence (l ++ [m]) = if m.content = .fin then some m.sequence else finSequence l := by
  unfold finSequence
  rw [List.reverse_append, List.reverse_singleton, List.singleton_append, List.find?_cons]
  by_cases h : m.content = .fin
  · simp [h]
  · simp [h]

variable {ds : List Delivery} {d : Delivery} {m : StreamMessage} {n : Nat} {l : List StreamMessage}

theorem initOf_concat (hnew : m.sequence ∉ l.map (·.sequence)) :
    initOf (l ++ [m]) =
      if m.sequence = 0 then m.content.asData.bind ProposalPart.asInit else initOf l := by
  unfold initOf
  rw [List.find?_append]
  by_cases h : m.sequence = 0
  · have hnone : l.find? (fun m => m.sequence = 0) = none := by
      rw [List.find?_eq_none]
      intro a ha hzero
      exact hnew (List.mem_map.2 ⟨a, ha, (of_decide_eq_true hzero).trans h.symm⟩)
    simp [h, hnone]
  · simp [h]

theorem accepted_nodup (ms : List StreamMessage) : ((accepted ms).map (·.sequence)).Nodup := by
  induction ms using List.reverseRecOn with
  | nil => exact List.nodup_nil
  | append_singleton ms m ih =>
    rw [accepted_concat]
    split_ifs with h
    · exact ih
    · rw [List.map_append, List.map_singleton]
      exact List.nodup_append.2 ⟨ih, List.nodup_singleton _, fun a ha b hb hab =>
        h (by rwa [← List.mem_singleton.1 hb, ← hab])⟩

/-- A full stream has seen sequence 0. -/
theorem Full.zero_mem (h : Full l) : 0 ∈ l.map (·.sequence) := by
  obtain ⟨hinit, _⟩ := h
  unfold initOf at hinit
  cases hfind : l.find? fun m => m.sequence = 0 with
  | none =>
    rw [hfind] at hinit
    cases hinit
  | some m =>
    have hzero := List.find?_some hfind
    exact List.mem_map.2 ⟨m, List.mem_of_find?_eq_some hfind, of_decide_eq_true hzero⟩

/-! ## The entry of a stream -/

namespace StreamState

/-- The entry of a stream that has accepted `l` and buffers the messages from the `k`-th on, with the
init part it still has. -/
def after (l : List StreamMessage) (k : Nat) (info : Option ProposalInit) : StreamState where
  buffer := l.drop k
  initInfo := info
  seenSequences := (l.map (·.sequence)).reverse
  totalMessages := ((finSequence l).map (· + 1)).getD 0
  finReceived := (finSequence l).isSome

/-- **The entry of a stream is a function of what it has accepted**: all of it is buffered until the
stream is full for the first time, and no init part is left from then on. -/
def Entry (l : List StreamMessage) (s : StreamState) : Prop :=
  (s = after l 0 (initOf l) ∧ ∀ k ≤ l.length, ¬ Full (l.take k)) ∨
    ∃ k ≤ l.length, Full (l.take k) ∧ s = after l k none

variable {l : List StreamMessage} {m : StreamMessage} {s : StreamState}

theorem Entry.seenSequences (h : Entry l s) : s.seenSequences = (l.map (·.sequence)).reverse := by
  rcases h with ⟨rfl, _⟩ | ⟨_, _, _, rfl⟩
  · rfl
  · rfl

theorem Entry.mem_seenSequences (h : Entry l s) {k : Nat} :
    k ∈ s.seenSequences ↔ k ∈ l.map (·.sequence) := by
  rw [h.seenSequences, List.mem_reverse]

/-- The bookkeeping of one new message. -/
theorem push_after (k : Nat) (hk : k ≤ l.length) (info : Option ProposalInit) :
    push { after l k info with seenSequences := m.sequence :: (after l k info).seenSequences } m =
      after (l ++ [m]) k
        (if m.sequence = 0 then m.content.asData.bind ProposalPart.asInit else info) := by
  unfold push after
  rw [finSequence_concat, List.drop_append_of_le_length hk]
  by_cases h : m.content = .fin
  · simp [h]
  · simp [h]

theorem isDone_after (info : Option ProposalInit) :
    (after l 0 info).isDone =
      (info.isSome && decide ((finSequence l).map (· + 1) = some l.length)) := by
  unfold isDone after
  cases finSequence l with
  | none => simp
  | some f =>
    simp only [Option.map_some, Option.getD_some, Option.isSome_some, Bool.and_true, List.drop_zero,
      Option.some.injEq, beq_eq_decide, eq_comm]

/-- An entry that has just been written is never done: `insert` took the init part of one that was. -/
theorem isDone_insert (s : StreamState) (m : StreamMessage) : (insert s m).1.isDone = false := by
  unfold insert
  by_cases h : (s.push m).isDone = true
  · rw [if_pos h]
    cases hinit : (s.push m).initInfo with
    | none =>
      unfold isDone at h
      rw [hinit] at h
      cases h
    | some i => rfl
  · rw [if_neg h]
    exact Bool.eq_false_iff.2 h

/-- A message leaves an entry. -/
theorem receive_isSome (entry : Option StreamState) (m : StreamMessage) :
    (receive entry m).1.isSome := by
  unfold receive
  dsimp only
  split_ifs with hseen hdone
  · rfl
  · rw [isDone_insert] at hdone
    cases hdone
  · rfl

/-- What comes out of a stream when it completes. -/
def output (l : List StreamMessage) (m : StreamMessage) : Option ProposalParts :=
  if CompletesStream l m then
    (initOf (l ++ [m])).map fun i => ⟨i.height, i.round, i.proposer, drain (l ++ [m])⟩
  else none

theorem insert_of_new (hnew : m.sequence ∉ l.map (·.sequence)) (h : Entry l s) :
    Entry (l ++ [m]) (insert { s with seenSequences := m.sequence :: s.seenSequences } m).1 ∧
      (insert { s with seenSequences := m.sequence :: s.seenSequences } m).2 = output l m := by
  have htake : ∀ {k}, k ≤ l.length → (l ++ [m]).take k = l.take k :=
    fun hk => List.take_append_of_le_length hk
  rcases h with ⟨rfl, hfirst⟩ | ⟨k, hk, hfull, rfl⟩
  · -- everything is still buffered: the message may complete the stream
    have hdone : (after (l ++ [m]) 0 (initOf (l ++ [m]))).isDone = decide (Full (l ++ [m])) := by
      rw [isDone_after]
      simp [Full]
    unfold insert
    rw [push_after 0 (Nat.zero_le _), ← initOf_concat hnew]
    dsimp only
    rw [hdone]
    by_cases hfull : Full (l ++ [m])
    · obtain ⟨i, hi⟩ := Option.isSome_iff_exists.1 hfull.1
      have hcompletes : CompletesStream l m := ⟨hnew, hfull, hfirst⟩
      simp only [hfull, decide_true, if_true, output, if_pos hcompletes]
      have hinit : (after (l ++ [m]) 0 (initOf (l ++ [m]))).initInfo = some i := hi
      rw [hinit, hi]
      refine ⟨.inr ⟨(l ++ [m]).length, le_rfl, ?_, ?_⟩, rfl⟩
      · rwa [List.take_length]
      · simp [after]
    · have hcompletes : ¬ CompletesStream l m := fun hc => hfull hc.2.1
      simp only [hfull, decide_false, Bool.false_eq_true, if_false, output, if_neg hcompletes]
      refine ⟨.inl ⟨rfl, fun k hk => ?_⟩, trivial⟩
      rcases Nat.lt_or_ge l.length k with hlt | hle
      · rw [List.take_of_length_le (by simp only [List.length_append, List.length_singleton]; omega)]
        exact hfull
      · rw [htake hle]
        exact hfirst k hle
  · -- the stream came out before: its init part is gone, and sequence 0 was seen
    have hzero : m.sequence ≠ 0 := by
      intro h0
      have hmem := hfull.zero_mem
      rw [List.map_take] at hmem
      exact hnew (h0 ▸ List.mem_of_mem_take hmem)
    have hcompletes : ¬ CompletesStream l m := fun hc => hc.2.2 k hk hfull
    have hdone : (after (l ++ [m]) k none).isDone = false := rfl
    unfold insert
    rw [push_after k hk, if_neg hzero]
    simp only [hdone, Bool.false_eq_true, if_false, output, if_neg hcompletes]
    refine ⟨.inr ⟨k, ?_, ?_, rfl⟩, trivial⟩
    · rw [List.length_append]
      omega
    · rwa [htake hk]

/-- **One message.** -/
theorem Entry.receive {entry : Option StreamState} {ms : List StreamMessage}
    (h : Entry (accepted ms) (entry.getD .new)) (m : StreamMessage) :
    Entry (accepted (ms ++ [m])) ((StreamState.receive entry m).1.getD .new) ∧
      (StreamState.receive entry m).2 = output (accepted ms) m := by
  rw [accepted_concat]
  unfold StreamState.receive
  dsimp only
  by_cases hseen : m.sequence ∈ (entry.getD .new).seenSequences
  · have hmem := h.mem_seenSequences.1 hseen
    have hcompletes : ¬ CompletesStream (accepted ms) m := fun hc => hc.1 hmem
    rw [if_pos hseen, if_pos hmem]
    exact ⟨h, (if_neg hcompletes).symm⟩
  · have hnew := mt h.mem_seenSequences.2 hseen
    rw [if_neg hseen, if_neg hnew, isDone_insert]
    exact insert_of_new hnew h

/-- **Any messages.** -/
theorem entry_receiveAll (ms : List StreamMessage) :
    Entry (accepted ms) ((receiveAll none ms).1.getD .new) := by
  induction ms using List.reverseRecOn with
  | nil =>
    refine .inl ⟨rfl, fun k _ => ?_⟩
    rw [show (accepted []).take k = [] from List.take_nil]
    decide
  | append_singleton ms m ih =>
    rw [receiveAll_concat]
    exact (ih.receive m).1

end StreamState

/-! ## The map -/

namespace PartStreamsMap

/-- What comes out at a delivery depends on the entry of its stream then. -/
theorem getElem?_insertAll (ds : List Delivery) :
    ∀ (streams : PartStreamsMap) (n : Nat), (streams.insertAll ds).2[n]? =
      (ds[n]?).map fun d =>
        (StreamState.receive (streams.insertAll (ds.take n)).1[d.key]? d.2).2 := by
  induction ds with
  | nil =>
    intro streams n
    rfl
  | cons d ds ih =>
    intro streams n
    cases n with
    | zero =>
      show some (PartStreamsMap.insert streams d.1 d.2).2 = _
      rw [PartStreamsMap.insert_eq]
      rfl
    | succ n => exact ih (PartStreamsMap.insert streams d.1 d.2).1 n

/-- The entry of a stream, from the messages it was sent. -/
theorem entry_insertAll (ds : List Delivery) (key : StreamKey) :
    StreamState.Entry (accepted (messagesOf key ds))
      (((PartStreamsMap.insertAll ∅ ds).1[key]?).getD .new) := by
  have hempty : (∅ : PartStreamsMap)[key]? = none := by simp
  rw [(PartStreamsMap.insertAll_at ds ∅).1, hempty]
  exact StreamState.entry_receiveAll _

theorem messagesOf_concat (key : StreamKey) (ds : List Delivery) (d : Delivery) :
    messagesOf key (ds ++ [d]) =
      if d.key = key then messagesOf key ds ++ [d.2] else messagesOf key ds := by
  unfold messagesOf
  rw [List.filter_append, List.map_append]
  by_cases h : d.key = key
  · simp [h]
  · simp [h]

theorem take_succ (h : ds[n]? = some d) : ds.take (n + 1) = ds.take n ++ [d] := by
  rw [List.take_add_one, h]
  rfl

/-- **What comes out at a delivery**, from the messages its stream was sent. -/
theorem output_insertAll (h : ds[n]? = some d) :
    (PartStreamsMap.insertAll ∅ ds).2[n]? =
      some (StreamState.output (accepted (messagesOf d.key (ds.take n))) d.2) := by
  rw [getElem?_insertAll, h, Option.map_some,
    ((entry_insertAll (ds.take n) d.key).receive d.2).2]

end PartStreamsMap

/-! ## The data below the `Fin` -/

/-- The data of the message with sequence `k`. -/
def dataAt (l : List StreamMessage) (k : Nat) : Option ProposalPart :=
  (l.find? fun m => m.sequence = k).bind fun m => m.content.asData

/-- The parts are the data of the sequences below the last `Fin`, all of them and in order. -/
def Exact (l : List StreamMessage) (parts : List ProposalPart) : Prop :=
  ∃ f, finSequence l = some f ∧ parts.map some = (List.range f).map (dataAt l)

/-- The last `Fin` lies beyond all other messages, and those are data. -/
def WellEnded (l : List StreamMessage) : Prop :=
  ∀ f, finSequence l = some f → ∀ m ∈ l, m.sequence = f ∨ m.sequence < f ∧ m.content ≠ .fin

section Exact

variable {l : List StreamMessage} {f : Nat}

theorem find?_sequence (hnodup : (l.map (·.sequence)).Nodup) (hm : m ∈ l) :
    l.find? (fun m' => m'.sequence = m.sequence) = some m := by
  cases hfind : l.find? fun m' => m'.sequence = m.sequence with
  | none => exact absurd (decide_eq_true rfl) (List.find?_eq_none.1 hfind m hm)
  | some m' =>
    have hseq : m'.sequence = m.sequence := by simpa using List.find?_some hfind
    rw [List.inj_on_of_nodup_map hnodup (List.mem_of_find?_eq_some hfind) hm hseq]

theorem dataAt_of_mem (hnodup : (l.map (·.sequence)).Nodup) (hm : m ∈ l) :
    dataAt l m.sequence = m.content.asData := by
  unfold dataAt
  rw [find?_sequence hnodup hm, Option.bind_some]

theorem mem_of_finSequence (h : finSequence l = some f) :
    ∃ m ∈ l, m.content = .fin ∧ m.sequence = f := by
  unfold finSequence at h
  obtain ⟨m, hfind, hseq⟩ := Option.map_eq_some_iff.1 h
  have hcontent : m.content = .fin := by simpa using List.find?_some hfind
  exact ⟨m, List.mem_reverse.1 (List.mem_of_find?_eq_some hfind), hcontent, hseq⟩

theorem asData_isSome {c : StreamContent} (h : c ≠ .fin) : c.asData.isSome := by
  cases c with
  | data part => rfl
  | fin => exact absurd rfl h

/-- Messages that all carry data lose nothing when their data is collected. -/
theorem filterMap_asData : ∀ {l : List StreamMessage}, (∀ m ∈ l, m.content.asData.isSome) →
    (l.filterMap fun m => m.content.asData).map some = l.map fun m => m.content.asData
  | [], _ => rfl
  | m :: l, hdata => by
    obtain ⟨part, hpart⟩ := Option.isSome_iff_exists.1 (hdata m (by simp))
    have ih := filterMap_asData fun m' hm' => hdata m' (List.mem_cons_of_mem m hm')
    simp only [List.filterMap_cons, List.map_cons, hpart, ih]

/-- As many messages as the `Fin` announces, none beyond it: they are in the places 0 to `f`. -/
theorem sequences_sorted (hnodup : (l.map (·.sequence)).Nodup) (hlen : l.length = f + 1)
    (hle : ∀ m ∈ l, m.sequence ≤ f) :
    (l.insertionSort fun a b => a.sequence ≤ b.sequence).map (·.sequence) = List.range (f + 1) := by
  have htotal : Std.Total fun a b : StreamMessage => a.sequence ≤ b.sequence :=
    ⟨fun a b => le_total a.sequence b.sequence⟩
  have htrans : IsTrans StreamMessage fun a b => a.sequence ≤ b.sequence := ⟨fun _ _ _ => le_trans⟩
  have hsub : (l.map (·.sequence)) ⊆ List.range (f + 1) := by
    intro k hk
    obtain ⟨m, hm, rfl⟩ := List.mem_map.1 hk
    exact List.mem_range.2 (Nat.lt_succ_of_le (hle m hm))
  have hperm : (l.map (·.sequence)).Perm (List.range (f + 1)) :=
    (List.subperm_of_subset hnodup hsub).perm_of_length_le (by simp [hlen])
  have hsorted := List.pairwise_insertionSort
    (fun a b : StreamMessage => a.sequence ≤ b.sequence) l
  have hperm' := ((List.perm_insertionSort (fun a b : StreamMessage => a.sequence ≤ b.sequence)
    l).map (·.sequence)).trans hperm
  refine hperm'.eq_of_pairwise (fun a b _ _ hab hba => le_antisymm hab hba)
    (List.pairwise_map.2 hsorted) ?_
  exact List.pairwise_lt_range.imp fun hlt => le_of_lt hlt

/-- The messages before the last one in order are data: those are what `drain` returns. -/
theorem exact_of_wellEnded (hnodup : (l.map (·.sequence)).Nodup) (hlen : l.length = f + 1)
    (hfin : finSequence l = some f) (h : WellEnded l) : Exact l (StreamState.drain l) := by
  refine ⟨f, hfin, ?_⟩
  have hle : ∀ m ∈ l, m.sequence ≤ f := by
    intro m hm
    rcases h f hfin m hm with heq | hlt
    · exact heq.le
    · exact hlt.1.le
  have hrange := sequences_sorted hnodup hlen hle
  have hmem : ∀ m, m ∈ (l.insertionSort fun a b => a.sequence ≤ b.sequence) → m ∈ l :=
    fun m => (List.mem_insertionSort _).1
  unfold StreamState.drain
  generalize l.insertionSort (fun a b => a.sequence ≤ b.sequence) = sorted at hrange hmem
  rw [List.range_succ, List.map_eq_append_iff] at hrange
  obtain ⟨front, back, rfl, hfront, hback⟩ := hrange
  obtain ⟨last, rfl, hlast⟩ := List.map_eq_singleton_iff.1 hback
  have hlow : ∀ m ∈ front, m.sequence < f := by
    intro m hm
    have hin : m.sequence ∈ front.map (·.sequence) := List.mem_map.2 ⟨m, hm, rfl⟩
    rw [hfront] at hin
    exact List.mem_range.1 hin
  have hdata : ∀ m ∈ front, m.content.asData.isSome := by
    intro m hm
    rcases h f hfin m (hmem m (by simp [hm])) with heq | hlt
    · exact absurd heq (hlow m hm).ne
    · exact asData_isSome hlt.2
  have hlastFin : last.content = .fin := by
    obtain ⟨m, hm, hcontent, hseq⟩ := mem_of_finSequence hfin
    rw [List.inj_on_of_nodup_map hnodup (hmem last (by simp)) hm (hlast.trans hseq.symm)]
    exact hcontent
  rw [List.filterMap_append, List.filterMap_cons_none (by rw [hlastFin]; rfl), List.filterMap_nil,
    List.append_nil, filterMap_asData hdata, ← hfront, List.map_map]
  refine List.map_congr_left fun m hm => ?_
  exact (dataAt_of_mem hnodup (hmem m (by simp [hm]))).symm

/-- Data in all places below the `Fin` leaves no room for anything else. -/
theorem wellEnded_of_exact {parts : List ProposalPart} (hnodup : (l.map (·.sequence)).Nodup)
    (hlen : l.length = f + 1) (hfin : finSequence l = some f) (h : Exact l parts) :
    WellEnded l := by
  obtain ⟨f', hfin', hparts⟩ := h
  cases hfin.symm.trans hfin'
  have hsome : ∀ k < f, ∃ m ∈ l, m.sequence = k ∧ m.content ≠ .fin := by
    intro k hk
    have hmem : dataAt l k ∈ parts.map some := by
      rw [hparts]
      exact List.mem_map.2 ⟨k, List.mem_range.2 hk, rfl⟩
    obtain ⟨part, _, hpart⟩ := List.mem_map.1 hmem
    obtain ⟨m, hfind, hdata⟩ := Option.bind_eq_some_iff.1 hpart.symm
    have hseq : m.sequence = k := by simpa using List.find?_some hfind
    refine ⟨m, List.mem_of_find?_eq_some hfind, hseq, ?_⟩
    intro hcontent
    rw [hcontent] at hdata
    cases hdata
  have hsub : List.range (f + 1) ⊆ l.map (·.sequence) := by
    intro k hk
    rcases Nat.lt_succ_iff_lt_or_eq.1 (List.mem_range.1 hk) with hlt | rfl
    · obtain ⟨m, hm, hseq, _⟩ := hsome k hlt
      exact List.mem_map.2 ⟨m, hm, hseq⟩
    · obtain ⟨m, hm, _, hseq⟩ := mem_of_finSequence hfin
      exact List.mem_map.2 ⟨m, hm, hseq⟩
  have hperm : (List.range (f + 1)).Perm (l.map (·.sequence)) :=
    (List.subperm_of_subset List.nodup_range hsub).perm_of_length_le (by simp [hlen])
  intro f'' hfin'' m hm
  cases hfin.symm.trans hfin''
  have hlt : m.sequence < f + 1 :=
    List.mem_range.1 (hperm.mem_iff.2 (List.mem_map.2 ⟨m, hm, rfl⟩))
  rcases Nat.lt_succ_iff_lt_or_eq.1 hlt with hlt | heq
  · obtain ⟨m', hm', hseq, hcontent⟩ := hsome m.sequence hlt
    rw [List.inj_on_of_nodup_map hnodup hm' hm hseq] at hcontent
    exact .inr ⟨hlt, hcontent⟩
  · exact .inl heq

/-- **A full stream drains to the data below its `Fin` exactly if it is well ended.** -/
theorem exact_drain_iff (hnodup : (l.map (·.sequence)).Nodup) (hfull : Full l) :
    Exact l (StreamState.drain l) ↔ WellEnded l := by
  obtain ⟨f, hfin, hlen⟩ := Option.map_eq_some_iff.1 hfull.2
  exact ⟨wellEnded_of_exact hnodup hlen.symm hfin, exact_of_wellEnded hnodup hlen.symm hfin⟩

end Exact

/-! ## Overflow -/

/-- The largest `u64`, and the largest `usize` on the platforms the node is built for. -/
def u64Max : Nat := 2 ^ 64 - 1

/-- `msg.sequence as usize + 1` in `StreamState::insert` leaves the range: a panic where overflow
checks are on, and a stream that announces no messages where they are off. -/
def StreamState.overflows (entry : Option StreamState) (msg : StreamMessage) : Prop :=
  msg.sequence ∉ (entry.getD .new).seenSequences ∧ msg.content = .fin ∧ u64Max ≤ msg.sequence

instance (entry : Option StreamState) (msg : StreamMessage) :
    Decidable (StreamState.overflows entry msg) := inferInstanceAs (Decidable (_ ∧ _ ∧ _))

/-- `PartStreamsMap::insert` with overflow checks. -/
def PartStreamsMap.insertChecked (streams : PartStreamsMap) (peer : PeerId) (msg : StreamMessage) :
    Exit Err (PartStreamsMap × Option ProposalParts) :=
  if StreamState.overflows streams[StreamKey.mk peer msg.streamId]? msg then .panic
  else .ok (PartStreamsMap.insert streams peer msg)

/-- Deliveries one after the other, with overflow checks. -/
def PartStreamsMap.insertAllChecked (streams : PartStreamsMap) :
    List Delivery → Exit Err (PartStreamsMap × List (Option ProposalParts))
  | [] => .ok (streams, [])
  | d :: ds => do
    let r ← PartStreamsMap.insertChecked streams d.1 d.2
    let rest ← insertAllChecked r.1 ds
    .ok (rest.1, r.2 :: rest.2)

/-- The checks do nothing as long as no delivery overflows. -/
theorem PartStreamsMap.insertAllChecked_eq_ok (ds : List Delivery) :
    ∀ (streams : PartStreamsMap) (r : PartStreamsMap × List (Option ProposalParts)),
      streams.insertAllChecked ds = .ok r ↔ r = streams.insertAll ds ∧
        ∀ n d, ds[n]? = some d →
          ¬ StreamState.overflows (streams.insertAll (ds.take n)).1[d.key]? d.2 := by
  induction ds with
  | nil =>
    intro streams r
    simp [insertAllChecked, insertAll, eq_comm]
  | cons d ds ih =>
    intro streams r
    by_cases hover : StreamState.overflows streams[StreamKey.mk d.1 d.2.streamId]? d.2
    · have hpanic : streams.insertAllChecked (d :: ds) = .panic := by
        unfold insertAllChecked insertChecked
        rw [if_pos hover]
        rfl
      rw [hpanic]
      constructor
      · intro h
        cases h
      · rintro ⟨_, hnone⟩
        exact absurd hover (hnone 0 d rfl)
    · have hstep : streams.insertAllChecked (d :: ds) = .ok r ↔
          ∃ rest, insertAllChecked (PartStreamsMap.insert streams d.1 d.2).1 ds = .ok rest ∧
            (rest.1, (PartStreamsMap.insert streams d.1 d.2).2 :: rest.2) = r := by
        rw [insertAllChecked, insertChecked, if_neg hover, Exit.ok_bind, Exit.bind_eq_ok]
        simp only [Exit.ok.injEq]
      rw [hstep]
      constructor
      · rintro ⟨rest, hrest, rfl⟩
        obtain ⟨rfl, hnone⟩ := (ih _ _).1 hrest
        refine ⟨rfl, fun n d' hd' => ?_⟩
        cases n with
        | zero =>
          cases hd'
          exact hover
        | succ n => exact hnone n d' hd'
      · rintro ⟨rfl, hnone⟩
        exact ⟨_, (ih _ _).2 ⟨rfl, fun n d' hd' => hnone (n + 1) d' hd'⟩, rfl⟩

/-- What a message may not be for its stream: a `Fin` with the largest sequence, or the one that
completes the stream where the last `Fin` is not at its end. -/
def Orderly (l : List StreamMessage) (m : StreamMessage) : Prop :=
  ¬ (m.sequence ∉ l.map (·.sequence) ∧ m.content = .fin ∧ u64Max ≤ m.sequence) ∧
    (CompletesStream l m → WellEnded (l ++ [m]))

/-- **What comes out of the streams of a Byzantine peer.** No message overflows and every proposal that
comes out consists of the data of its stream below the `Fin`, exactly if every message is orderly for
what its stream has accepted before. -/
theorem emissions_exact_iff (ds : List Delivery) :
    (∃ r, PartStreamsMap.insertAllChecked ∅ ds = .ok r ∧
      ∀ n d parts, ds[n]? = some d → r.2[n]? = some (some parts) →
        Exact (accepted (messagesOf d.key (ds.take (n + 1)))) parts.parts) ↔
    ∀ n d, ds[n]? = some d → Orderly (accepted (messagesOf d.key (ds.take n))) d.2 := by
  have hover : ∀ n (d : Delivery),
      StreamState.overflows (PartStreamsMap.insertAll ∅ (ds.take n)).1[d.key]? d.2 ↔
        d.2.sequence ∉ (accepted (messagesOf d.key (ds.take n))).map (·.sequence) ∧
          d.2.content = .fin ∧ u64Max ≤ d.2.sequence := by
    intro n d
    unfold StreamState.overflows
    rw [(PartStreamsMap.entry_insertAll (ds.take n) d.key).mem_seenSequences]
  have hout : ∀ {n d}, ds[n]? = some d →
      ((∀ parts : ProposalParts, (PartStreamsMap.insertAll ∅ ds).2[n]? = some (some parts) →
          Exact (accepted (messagesOf d.key (ds.take (n + 1)))) parts.parts) ↔
        (CompletesStream (accepted (messagesOf d.key (ds.take n))) d.2 →
          WellEnded (accepted (messagesOf d.key (ds.take n)) ++ [d.2]))) := by
    intro n d hd
    rw [PartStreamsMap.output_insertAll hd, PartStreamsMap.take_succ hd,
      PartStreamsMap.messagesOf_concat, if_pos rfl]
    unfold StreamState.output
    by_cases hcompletes : CompletesStream (accepted (messagesOf d.key (ds.take n))) d.2
    · have hconcat := accepted_concat (messagesOf d.key (ds.take n)) d.2
      rw [if_neg hcompletes.1] at hconcat
      have hnodup := accepted_nodup (messagesOf d.key (ds.take n) ++ [d.2])
      obtain ⟨i, hi⟩ := Option.isSome_iff_exists.1 hcompletes.2.1.1
      rw [hconcat] at hnodup ⊢
      rw [if_pos hcompletes, hi, ← exact_drain_iff hnodup hcompletes.2.1]
      simp [hcompletes]
    · simp [hcompletes]
  constructor
  · rintro ⟨r, hok, hexact⟩ n d hd
    obtain ⟨rfl, hnone⟩ := (PartStreamsMap.insertAllChecked_eq_ok ds ∅ r).1 hok
    exact ⟨mt (hover n d).2 (hnone n d hd), (hout hd).1 fun parts => hexact n d parts hd⟩
  · intro h
    refine ⟨_, (PartStreamsMap.insertAllChecked_eq_ok ds ∅ _).2 ⟨rfl, fun n d hd => ?_⟩, ?_⟩
    · exact mt (hover n d).1 (h n d hd).1
    · intro n d parts hd
      exact (hout hd).2 (h n d hd).2 parts

namespace Sample

/-- A message of peer 7 on stream 0. -/
def stray (sequence : Nat) (content : StreamContent) : Delivery := (7, ⟨[0], sequence, content⟩)

/-- The init part of a proposal, a `Fin` that announces three messages, and a message far beyond it. -/
def gapped : List Delivery :=
  [stray 0 (.data (.init ⟨1, .some 0, ⟨2⟩⟩)), stray 2 .fin, stray 5 (.data (.data ⟨[9], []⟩))]

/-- What comes out: sequence 1 is missing, and sequence 5 is there. -/
theorem gapped_emits : (PartStreamsMap.insertAll ∅ gapped).2[2]? =
    some (some ⟨1, .some 0, ⟨2⟩, [.init ⟨1, .some 0, ⟨2⟩⟩, .data ⟨[9], []⟩]⟩) := by
  decide +kernel

/-- The `Fin` of that stream. -/
theorem gapped_fin : finSequence (accepted (messagesOf ⟨7, [0]⟩ (gapped.take 3))) = some 2 := by
  decide +kernel

end Sample

open Sample in
/-- A proposal comes out with a gap and with data beyond the `Fin`, and one message with the largest
sequence overflows. -/
theorem emissions_with_gap :
    ¬ (∃ r, PartStreamsMap.insertAllChecked ∅ gapped = .ok r ∧
      ∀ n d parts, gapped[n]? = some d → r.2[n]? = some (some parts) →
        Exact (accepted (messagesOf d.key (gapped.take (n + 1)))) parts.parts) ∧
    PartStreamsMap.insertAllChecked ∅ [stray u64Max .fin] = .panic := by
  refine ⟨?_, rfl⟩
  rintro ⟨r, hok, hexact⟩
  obtain ⟨rfl, _⟩ := (PartStreamsMap.insertAllChecked_eq_ok gapped ∅ r).1 hok
  obtain ⟨f, hfin, hparts⟩ := hexact 2 _ _ rfl gapped_emits
  cases hfin.symm.trans gapped_fin
  revert hparts
  decide +kernel

/-! ## The entries of emitted streams -/

/-- The streams of which a message has arrived. -/
def startedStreams (ds : List Delivery) : Finset StreamKey := (ds.map Delivery.key).toFinset

/-- The streams of which a proposal has come out. -/
def emittedStreams (ds : List Delivery) : Finset StreamKey :=
  (((ds.zip (PartStreamsMap.insertAll ∅ ds).2).filter fun x => x.2.isSome).map
    fun x => x.1.key).toFinset

/-- The map forgets a stream with the delivery that brings its proposal out, and never holds more
entries than there are streams started and not emitted. -/
structure Released (ds : List Delivery) : Prop where
  entry : ∀ n d parts, ds[n]? = some d →
    (PartStreamsMap.insertAll ∅ ds).2[n]? = some (some parts) →
      (PartStreamsMap.insertAll ∅ (ds.take (n + 1))).1[d.key]? = none
  count : ∀ n, (PartStreamsMap.insertAll ∅ (ds.take n)).1.size ≤
    (startedStreams (ds.take n) \ emittedStreams (ds.take n)).card

namespace PartStreamsMap

theorem mem_messagesOf {key : StreamKey} : messagesOf key ds ≠ [] ↔ key ∈ startedStreams ds := by
  unfold messagesOf startedStreams
  rw [Ne, List.map_eq_nil_iff, List.filter_eq_nil_iff, List.mem_toFinset, List.mem_map]
  push Not
  simp

/-- An entry, once made, stays. -/
theorem receiveAll_isSome (ms : List StreamMessage) :
    (StreamState.receiveAll none ms).1.isSome ↔ ms ≠ [] := by
  induction ms using List.reverseRecOn with
  | nil => simp [StreamState.receiveAll]
  | append_singleton ms m ih =>
    rw [StreamState.receiveAll_concat]
    simp [StreamState.receive_isSome]

/-- **The map has an entry for every stream that was ever started.** -/
theorem isSome_insertAll (ds : List Delivery) (key : StreamKey) :
    ((PartStreamsMap.insertAll ∅ ds).1[key]?).isSome ↔ key ∈ startedStreams ds := by
  have hempty : (∅ : PartStreamsMap)[key]? = none := by simp
  rw [(PartStreamsMap.insertAll_at ds ∅).1, hempty, receiveAll_isSome, mem_messagesOf]

theorem size_insertAll (ds : List Delivery) :
    (PartStreamsMap.insertAll ∅ ds).1.size = (startedStreams ds).card := by
  have hkeys : (PartStreamsMap.insertAll ∅ ds).1.keys.toFinset = startedStreams ds := by
    ext key
    rw [List.mem_toFinset, Table.mem_keys, isSome_insertAll]
  rw [← hkeys, List.toFinset_card_of_nodup Std.ExtTreeMap.nodup_keys, Std.ExtTreeMap.length_keys]

/-- A stream comes out with a delivery that completes it. -/
theorem emits_iff (h : ds[n]? = some d) :
    (∃ parts, (PartStreamsMap.insertAll ∅ ds).2[n]? = some (some parts)) ↔
      CompletesStream (accepted (messagesOf d.key (ds.take n))) d.2 := by
  rw [output_insertAll h]
  unfold StreamState.output
  by_cases hcompletes : CompletesStream (accepted (messagesOf d.key (ds.take n))) d.2
  · obtain ⟨i, hi⟩ := Option.isSome_iff_exists.1 hcompletes.2.1.1
    simp [hcompletes, hi]
  · simp [hcompletes]

end PartStreamsMap

/-- **Emitted streams stay in the map.** Whatever was delivered, the map has released the streams it
emitted exactly if no delivery completed a stream: at every proposal that comes out the entry is still
there, since `is_done` asks for the init part the emission took. -/
theorem released_iff (ds : List Delivery) :
    Released ds ↔
      ∀ n d, ds[n]? = some d → ¬ CompletesStream (accepted (messagesOf d.key (ds.take n))) d.2 := by
  constructor
  · intro h n d hd hcompletes
    obtain ⟨parts, hparts⟩ := (PartStreamsMap.emits_iff hd).2 hcompletes
    have hstarted : d.key ∈ startedStreams (ds.take (n + 1)) := by
      rw [PartStreamsMap.take_succ hd]
      simp [startedStreams]
    have hsome := (PartStreamsMap.isSome_insertAll _ _).2 hstarted
    rw [h.entry n d parts hd hparts] at hsome
    cases hsome
  · intro h
    have hnone : ∀ n, emittedStreams (ds.take n) = ∅ := by
      intro n
      unfold emittedStreams
      rw [List.toFinset_eq_empty_iff, List.map_eq_nil_iff, List.filter_eq_nil_iff]
      rintro ⟨d, out⟩ hx hsome
      obtain ⟨parts, rfl⟩ := Option.isSome_iff_exists.1 hsome
      obtain ⟨k, hk⟩ := List.mem_iff_getElem?.1 hx
      obtain ⟨hd, hparts⟩ := List.getElem?_zip_eq_some.1 hk
      have hkn : k < n := by
        by_contra hge
        rw [List.getElem?_take_eq_none (not_lt.1 hge)] at hd
        cases hd
      have hd' : ds[k]? = some d := by rwa [List.getElem?_take_of_lt hkn] at hd
      have hcompletes := (PartStreamsMap.emits_iff hd).1 ⟨parts, hparts⟩
      rw [List.take_take, Nat.min_eq_left hkn.le] at hcompletes
      exact h k d hd' hcompletes
    refine ⟨fun n d parts hd hparts => ?_, fun n => ?_⟩
    · exact absurd ((PartStreamsMap.emits_iff hd).1 ⟨parts, hparts⟩) (h n d hd)
    · rw [hnone, Finset.sdiff_empty, PartStreamsMap.size_insertAll]

namespace Sample

/-- The shortest stream that brings a proposal out. -/
def shortest : List Delivery := [stray 0 (.data (.init ⟨1, .some 0, ⟨2⟩⟩)), stray 1 .fin]

end Sample

open Sample in
/-- A complete stream has come out, and its entry is still there. -/
theorem emitted_stream_kept : ¬ Released shortest := by
  intro h
  have hemits : (PartStreamsMap.insertAll ∅ shortest).2[1]? =
      some (some ⟨1, .some 0, ⟨2⟩, [.init ⟨1, .some 0, ⟨2⟩⟩]⟩) := by decide +kernel
  have hnone := h.entry 1 _ _ rfl hemits
  revert hnone
  decide +kernel

end Ultramarine
