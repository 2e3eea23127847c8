import Ultramarine.Lib.Closed

/-!
# Writes that come in batches

A program may break an invariant of the disk between two writes that belong together and restore it
with the last of them. `Batched I b p m` says that it does so only there: started from `m`, the
invariant `I` holds wherever `p` may be stopped, except strictly inside a run of writes that `b`
marks.

Results:

* `Batched.bind`: the rule of a sequence;
* `Batched.of_batch`: a program that is one batch;
* `Batched.cutAt`: the invariant holds wherever a stop is not inside a batch.
-/

namespace Lib

variable {δ μ ω : Type}

/-- The `k`-th write and the one before it are both marked: a stop between them is inside a batch. -/
def insideBatch (b : ω → Bool) (log : List (Machine δ μ × ω)) : Nat → Bool
  | 0 => false
  | k + 1 => (log[k]?).any (fun e => b e.2) && (log[k + 1]?).any fun e => b e.2

section Append

variable {b : ω → Bool} {l₁ l₂ : List (Machine δ μ × ω)} {k : Nat}

theorem insideBatch_append_left (h : k < l₁.length) :
    insideBatch b (l₁ ++ l₂) k = insideBatch b l₁ k := by
  cases k with
  | zero => rfl
  | succ k =>
    simp only [insideBatch]
    rw [List.getElem?_append_left h, List.getElem?_append_left (Nat.lt_of_succ_lt h)]

/-- Past the first write of the second log, only that log matters. -/
theorem insideBatch_append_right (k : Nat) :
    insideBatch b (l₁ ++ l₂) (l₁.length + (k + 1)) = insideBatch b l₂ (k + 1) := by
  have hget : ∀ i, (l₁ ++ l₂)[l₁.length + i]? = l₂[i]? := fun i => by
    rw [List.getElem?_append_right (Nat.le_add_right _ _), Nat.add_sub_cancel_left]
  rw [← Nat.add_assoc]
  simp only [insideBatch]
  rw [Nat.add_assoc, hget, hget]

/-- In a log of marked writes every position but the first is inside the batch. -/
theorem insideBatch_of_all (h : ∀ e ∈ l₁, b e.2 = true) {e : Machine δ μ × ω}
    (hk : l₁[k + 1]? = some e) : insideBatch b l₁ (k + 1) = true := by
  have hlt : k < l₁.length := Nat.lt_of_succ_lt (List.getElem?_eq_some_iff.1 hk).1
  simp only [insideBatch]
  rw [hk, List.getElem?_eq_getElem hlt]
  simp [h _ (List.getElem_mem hlt), h _ (List.mem_of_getElem? hk)]

end Append

namespace Prog

variable {ε α β : Type} [DiskOp ω δ] {I : δ → Prop} {b : ω → Bool} {m : Machine δ μ}

/-- From `m`, the program keeps the invariant wherever it is not inside a batch. -/
def Batched (I : δ → Prop) (b : ω → Bool) (p : Prog δ μ ω ε α) (m : Machine δ μ) : Prop :=
  I m.disk →
    (∀ k e, (p.run m).log[k]? = some e → insideBatch b (p.run m).log k = false → I e.1.disk) ∧
      I (p.run m).state.disk

namespace Batched

variable {p : Prog δ μ ω ε α} {f : α → Prog δ μ ω ε β}

/-- The two parts of a sequence meet where the invariant holds. -/
theorem bind (hp : Batched I b p m)
    (hf : ∀ a, (p.run m).exit = .ok a → Batched I b (f a) (p.run m).state) :
    Batched I b (p >>= f) m := by
  intro hm
  obtain ⟨hlog, hstate⟩ := hp hm
  cases hexit : (p.run m).exit with
  | error e =>
    rw [run_bind_error hexit]
    exact ⟨hlog, hstate⟩
  | panic =>
    rw [run_bind_panic hexit]
    exact ⟨hlog, hstate⟩
  | ok a =>
    obtain ⟨hlog', hstate'⟩ := hf a hexit hstate
    rw [run_bind_ok hexit]
    refine ⟨fun k e he hout => ?_, hstate'⟩
    dsimp only at he hout
    rcases Nat.lt_or_ge k (p.run m).log.length with hk | hk
    · rw [List.getElem?_append_left hk] at he
      rw [insideBatch_append_left hk] at hout
      exact hlog k e he hout
    · obtain ⟨j, rfl⟩ := Nat.exists_eq_add_of_le hk
      rw [List.getElem?_append_right hk, Nat.add_sub_cancel_left] at he
      cases j with
      | zero => exact hlog' 0 e he rfl
      | succ j =>
        rw [insideBatch_append_right] at hout
        exact hlog' (j + 1) e he hout

/-- A program each of whose writes keeps the invariant. -/
theorem of_keeps (h : Emits (fun m w => I m.disk → I (DiskOp.apply w m.disk)) (p.run m)) :
    Batched I b p m := by
  intro hm
  obtain ⟨hlog, hstate⟩ := p.disk_invariant hm h
  exact ⟨fun k e he _ => hlog e (List.mem_of_getElem? he), hstate⟩

theorem silent (hp : Silent p) : Batched I b p m :=
  .of_keeps ((hp m).mono fun _ _ h => h.elim)

/-- A program that is one batch only has to restore the invariant. -/
theorem of_batch (hbatch : Emits (fun _ w => b w = true) (p.run m))
    (hend : I m.disk → I (p.run m).state.disk) : Batched I b p m := by
  intro hm
  refine ⟨fun k e he hout => ?_, hend hm⟩
  cases k with
  | zero =>
    -- the first write starts where the program does
    have hchain := p.chain m
    obtain ⟨rest, hrest⟩ : ∃ rest, (p.run m).log = e :: rest := by
      cases hl : (p.run m).log with
      | nil => simp [hl] at he
      | cons e' rest =>
        rw [hl] at he
        cases he
        exact ⟨rest, rfl⟩
    rw [hrest] at hchain
    rw [hchain.1]
    exact hm
  | succ k =>
    rw [insideBatch_of_all hbatch he] at hout
    cases hout

theorem attempt (hp : Batched I b p m) : Batched I b p.attempt m := by
  intro hm
  rw [attempt_log, attempt_state]
  exact hp hm

theorem closed (I : δ → Prop) (b : ω → Bool) :
    Closed fun (p : Prog δ μ ω ε _) m => Batched I b p m where
  still hlog _ := .of_keeps (.of_log_nil hlog)
  bind := .bind
  attempt := .attempt

/-- **Stops.** The invariant holds wherever the program is stopped outside a batch. -/
theorem cutAt (hp : Batched I b p m) (hm : I m.disk) {k : Nat}
    (hout : insideBatch b (p.run m).log k = false) : I (cutAt (p.run m) k).disk := by
  obtain ⟨hlog, hstate⟩ := hp hm
  unfold Prog.cutAt
  cases hk : (p.run m).log[k]? with
  | none => exact hstate
  | some e => exact hlog k e hk hout

end Batched

end Prog

end Lib
