/-!
# Operations that may come in any order, any number of times

Operations are applied to a state one after the other: `l.foldl f s`. On the states of `I` any two of
them commute, and one that is applied again changes nothing. What a list of them leaves then depends
on its members only.

Results:

* `Settles.foldl_absorb`: an operation of the list, applied once more at the end, changes nothing;
* `Settles.foldl_eq`: two lists with the same members leave the same state.
-/

namespace Lib

variable {σ α : Type}

/-- The operations of `P` keep `I`; on its states they commute, and a second time does nothing. -/
structure Settles (I : σ → Prop) (P : α → Prop) (f : σ → α → σ) : Prop where
  keeps : ∀ {s a}, I s → P a → I (f s a)
  comm : ∀ {s a b}, I s → P a → P b → f (f s a) b = f (f s b) a
  idem : ∀ {s a}, I s → P a → f (f s a) a = f s a

namespace Settles

variable {I : σ → Prop} {P : α → Prop} {f : σ → α → σ} (h : Settles I P f) {s : σ}

include h

theorem keeps_foldl {l : List α} (hs : I s) (hl : ∀ a ∈ l, P a) : I (l.foldl f s) := by
  induction l generalizing s with
  | nil => exact hs
  | cons b l ih =>
    exact ih (h.keeps hs (hl b (List.mem_cons_self ..))) fun a ha => hl a (List.mem_cons_of_mem _ ha)

/-- An operation at the end may come first. -/
theorem foldl_comm {l : List α} {a : α} (hs : I s) (hl : ∀ a ∈ l, P a) (ha : P a) :
    f (l.foldl f s) a = l.foldl f (f s a) := by
  induction l generalizing s with
  | nil => rfl
  | cons b l ih =>
    have hb := hl b (List.mem_cons_self ..)
    rw [List.foldl_cons, List.foldl_cons, h.comm hs ha hb]
    exact ih (h.keeps hs hb) fun a ha => hl a (List.mem_cons_of_mem _ ha)

theorem foldl_absorb {l : List α} {a : α} (hs : I s) (hl : ∀ a ∈ l, P a) (ha : a ∈ l) :
    f (l.foldl f s) a = l.foldl f s := by
  induction l generalizing s with
  | nil => cases ha
  | cons b l ih =>
    have hb := hl b (List.mem_cons_self ..)
    have hl' : ∀ a ∈ l, P a := fun a ha => hl a (List.mem_cons_of_mem _ ha)
    rcases List.mem_cons.1 ha with rfl | ha
    · -- it goes back to where it was applied first
      rw [List.foldl_cons, h.foldl_comm (h.keeps hs hb) hl' hb, h.idem hs hb]
    · exact ih (h.keeps hs hb) hl' ha

/-- A list of operations that have all been applied changes nothing. -/
theorem foldl_absorb_list {l l' : List α} (hs : I s) (hl : ∀ a ∈ l, P a) (hl' : ∀ a ∈ l', a ∈ l) :
    l'.foldl f (l.foldl f s) = l.foldl f s := by
  induction l' with
  | nil => rfl
  | cons a l' ih =>
    rw [List.foldl_cons, h.foldl_absorb hs hl (hl' a (List.mem_cons_self ..))]
    exact ih fun b hb => hl' b (List.mem_cons_of_mem _ hb)

/-- Two lists may trade places. -/
theorem foldl_foldl_comm {l l' : List α} (hs : I s) (hl : ∀ a ∈ l, P a) (hl' : ∀ a ∈ l', P a) :
    l'.foldl f (l.foldl f s) = l.foldl f (l'.foldl f s) := by
  induction l' generalizing s with
  | nil => rfl
  | cons a l' ih =>
    have ha := hl' a (List.mem_cons_self ..)
    rw [List.foldl_cons, List.foldl_cons, h.foldl_comm hs hl ha]
    exact ih (h.keeps hs ha) fun b hb => hl' b (List.mem_cons_of_mem _ hb)

/-- **Only the members of a list matter.** -/
theorem foldl_eq {l l' : List α} (hs : I s) (hl : ∀ a ∈ l, P a) (hsame : ∀ a, a ∈ l ↔ a ∈ l') :
    l.foldl f s = l'.foldl f s := by
  have hl' : ∀ a ∈ l', P a := fun a ha => hl a ((hsame a).2 ha)
  calc l.foldl f s
      = l'.foldl f (l.foldl f s) := (h.foldl_absorb_list hs hl fun a ha => (hsame a).2 ha).symm
    _ = l.foldl f (l'.foldl f s) := h.foldl_foldl_comm hs hl hl'
    _ = l'.foldl f s := h.foldl_absorb_list hs hl' fun a ha => (hsame a).1 ha

end Settles

end Lib
