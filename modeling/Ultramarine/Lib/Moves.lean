import Mathlib.Logic.Relation
import Ultramarine.Lib.Closed

/-!
# What a program does to its memory

`Emits` says what the writes of a program are. `Moves M p m` says how the memory changes between
them: every change is one that `M` allows from the machine it happens on. Together they determine
which machines a program passes through, so an invariant of disk and memory is checked against the
two lists.

Results:

* `Moves.bind`, `Moves.modifyMem`, `Moves.closed`: the rules of the constructs;
* `Moves.invariant`, `Moves.cutAt`: an invariant that the changes and the writes keep holds wherever
  the program is stopped, and at its end.
-/

namespace Lib

variable {δ μ ω : Type}

/-- Changes of the memory, one after the other. -/
def MemSteps (M : Machine δ μ → μ → Prop) : Machine δ μ → Machine δ μ → Prop :=
  Relation.ReflTransGen fun a b => M a b.mem ∧ b.disk = a.disk

/-- An invariant of the changes. -/
theorem MemSteps.invariant {M : Machine δ μ → μ → Prop} {I : Machine δ μ → Prop}
    (hM : ∀ a mem, I a → M a mem → I ⟨a.disk, mem⟩) {a b : Machine δ μ} (h : MemSteps M a b)
    (ha : I a) : I b := by
  induction h with
  | refl => exact ha
  | @tail b c _ hstep ih =>
    obtain ⟨disk, mem⟩ := c
    obtain ⟨hchange, hdisk⟩ := hstep
    dsimp only at hdisk
    subst hdisk
    exact hM b mem ih hchange

theorem MemSteps.mono {M N : Machine δ μ → μ → Prop} (hMN : ∀ a mem, M a mem → N a mem)
    {a b : Machine δ μ} (h : MemSteps M a b) : MemSteps N a b :=
  Relation.ReflTransGen.mono (fun _ _ hstep => ⟨hMN _ _ hstep.1, hstep.2⟩) _ _ h

variable [DiskOp ω δ]

/-- `log` leads from machine `m` to machine `m'`: up to each write and after the last one, the memory
changes by `M`. -/
def Trail (M : Machine δ μ → μ → Prop) :
    Machine δ μ → List (Machine δ μ × ω) → Machine δ μ → Prop
  | m, [], m' => MemSteps M m m'
  | m, (m₁, w) :: rest, m' => MemSteps M m m₁ ∧ Trail M ⟨DiskOp.apply w m₁.disk, m₁.mem⟩ rest m'

section Trail

variable {M : Machine δ μ → μ → Prop} {m m₁ m₂ : Machine δ μ} {l l' : List (Machine δ μ × ω)}

theorem Trail.head (h : MemSteps M m m₁) (ht : Trail M m₁ l m₂) : Trail M m l m₂ := by
  cases l with
  | nil => exact Relation.ReflTransGen.trans h ht
  | cons e rest => exact ⟨Relation.ReflTransGen.trans h ht.1, ht.2⟩

theorem Trail.append (h : Trail M m l m₁) (h' : Trail M m₁ l' m₂) : Trail M m (l ++ l') m₂ := by
  induction l generalizing m with
  | nil => exact h'.head h
  | cons e rest ih => exact ⟨h.1, ih h.2⟩

theorem Trail.mono {N : Machine δ μ → μ → Prop} (hMN : ∀ a mem, M a mem → N a mem)
    (h : Trail M m l m₁) : Trail N m l m₁ := by
  induction l generalizing m with
  | nil => exact MemSteps.mono hMN h
  | cons e rest ih => exact ⟨MemSteps.mono hMN h.1, ih h.2⟩

theorem Trail.invariant {I : Machine δ μ → Prop} (h : Trail M m l m₁) (hm : I m)
    (hM : ∀ a mem, I a → M a mem → I ⟨a.disk, mem⟩)
    (hw : ∀ e ∈ l, I e.1 → I ⟨DiskOp.apply e.2 e.1.disk, e.1.mem⟩) : (∀ e ∈ l, I e.1) ∧ I m₁ := by
  induction l generalizing m with
  | nil => exact ⟨by simp, MemSteps.invariant hM h hm⟩
  | cons e rest ih =>
    have he : I e.1 := MemSteps.invariant hM h.1 hm
    obtain ⟨hrest, hend⟩ := ih h.2 (hw e (by simp) he) fun e' he' => hw e' (by simp [he'])
    refine ⟨fun e' he' => ?_, hend⟩
    rcases List.mem_cons.1 he' with rfl | he'
    · exact he
    · exact hrest e' he'

end Trail

namespace Prog

variable {ε α β : Type} {M : Machine δ μ → μ → Prop} {m : Machine δ μ}

/-- From `m`, the memory of the program changes by `M` only. -/
def Moves (M : Machine δ μ → μ → Prop) (p : Prog δ μ ω ε α) (m : Machine δ μ) : Prop :=
  Trail M m (p.run m).log (p.run m).state

namespace Moves

variable {p : Prog δ μ ω ε α} {f : α → Prog δ μ ω ε β}

theorem bind (hp : Moves M p m)
    (hf : ∀ a, (p.run m).exit = .ok a → Moves M (f a) (p.run m).state) : Moves M (p >>= f) m := by
  unfold Moves
  cases hexit : (p.run m).exit with
  | error e =>
    rw [run_bind_error hexit]
    exact hp
  | panic =>
    rw [run_bind_panic hexit]
    exact hp
  | ok a =>
    rw [run_bind_ok hexit]
    exact Trail.append hp (hf a hexit)

/-- A program that neither writes nor changes anything. -/
theorem of_eq (hlog : (p.run m).log = []) (hstate : (p.run m).state = m) : Moves M p m := by
  unfold Moves
  rw [hlog, hstate]
  exact Relation.ReflTransGen.refl

theorem mono {N : Machine δ μ → μ → Prop} (hp : Moves M p m) (hMN : ∀ a mem, M a mem → N a mem) :
    Moves N p m :=
  Trail.mono hMN hp

theorem pure (a : α) : Moves M (Pure.pure a : Prog δ μ ω ε α) m := of_eq rfl rfl

theorem write (w : ω) : Moves M (Prog.write w : Prog δ μ ω ε Unit) m :=
  ⟨Relation.ReflTransGen.refl, Relation.ReflTransGen.refl⟩

theorem modifyMem {g : μ → μ} (h : M m (g m.mem)) :
    Moves M (Prog.modifyMem g : Prog δ μ ω ε Unit) m := by
  show MemSteps M m ⟨m.disk, g m.mem⟩
  exact Relation.ReflTransGen.single ⟨h, rfl⟩

theorem writeAll (ws : List ω) : ∀ m : Machine δ μ,
    Moves M (Prog.writeAll ws : Prog δ μ ω ε Unit) m := by
  induction ws with
  | nil => exact fun _ => pure ()
  | cons w ws ih => exact fun m => bind (write w) fun _ _ => ih _

theorem attempt (hp : Moves M p m) : Moves M p.attempt m := by
  unfold Moves
  rw [attempt_log, attempt_state]
  exact hp

theorem closed (M : Machine δ μ → μ → Prop) :
    Closed fun (p : Prog δ μ ω ε _) m => Moves M p m where
  still := .of_eq
  bind := .bind
  attempt := .attempt

/-- **Invariants of disk and memory.** -/
theorem invariant {I : Machine δ μ → Prop} (hp : Moves M p m) (hm : I m)
    (hM : ∀ a mem, I a → M a mem → I ⟨a.disk, mem⟩)
    (hw : Emits (fun a w => I a → I ⟨DiskOp.apply w a.disk, a.mem⟩) (p.run m)) :
    (∀ e ∈ (p.run m).log, I e.1) ∧ I (p.run m).state :=
  Trail.invariant hp hm hM hw

/-- **Stops.** Such an invariant holds wherever the program is stopped. -/
theorem cutAt {I : Machine δ μ → Prop} (hp : Moves M p m) (hm : I m)
    (hM : ∀ a mem, I a → M a mem → I ⟨a.disk, mem⟩)
    (hw : Emits (fun a w => I a → I ⟨DiskOp.apply w a.disk, a.mem⟩) (p.run m)) (k : Nat) :
    I (cutAt (p.run m) k) := by
  obtain ⟨hlog, hend⟩ := hp.invariant hm hM hw
  unfold Prog.cutAt
  cases hk : (p.run m).log[k]? with
  | none => exact hend
  | some e => exact hlog e (List.mem_of_getElem? hk)

end Moves

end Prog

end Lib
