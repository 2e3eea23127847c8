import Mathlib.Data.List.Basic
import Mathlib.Data.List.Pairwise
import Mathlib.Tactic.Linarith

/-!
# Perfect Merkle trees

Roots, branches and branch evaluation over an arbitrary two-to-one hash and an arbitrary padding
leaf. A tree of depth `d` has `2 ^ d` leaves; a shorter list is padded on the right, and what a
longer list has beyond the last leaf is not part of the tree.

Results:

* `length_branch`: a branch has one sibling per level;
* `foldBranch_append`: evaluating a branch in two pieces;
* `foldBranch_branch`: evaluating the branch of leaf `i` from that leaf rebuilds the root;
* `leafAt_eq_of_root_eq`: a root binds the leaves, as far as no two of the hashed pairs collide;
* `eq_leafAt_of_foldBranch`: and a branch that evaluates to the root starts from the leaf it names;
* `LeftSpine.length_eq`: where no chunk is hashed back to itself, equal roots are equally far from the
  chunk on their left.

A hash of two chunks to one is never injective. What is assumed of it is said of the pairs that are
hashed: `pairs` for a root, `branchPairs` for a branch.
-/

namespace Lib.Merkle

variable {α : Type} (hash : α → α → α) (zero : α)

/-- The root of the tree of depth `d` over `leaves`. -/
def root : Nat → List α → α
  | 0, leaves => leaves.headD zero
  | d + 1, leaves => hash (root d (leaves.take (2 ^ d))) (root d (leaves.drop (2 ^ d)))

/-- The siblings of leaf `i`, from the leaf upward. -/
def branch : Nat → List α → Nat → List α
  | 0, _, _ => []
  | d + 1, leaves, i =>
    if i / 2 ^ d % 2 = 1 then
      branch d (leaves.drop (2 ^ d)) i ++ [root hash zero d (leaves.take (2 ^ d))]
    else
      branch d (leaves.take (2 ^ d)) i ++ [root hash zero d (leaves.drop (2 ^ d))]

/-- Evaluate a branch from `value`: at each level the low bit of the index says on which side the
sibling stands. -/
def foldBranch : α → List α → Nat → α
  | value, [], _ => value
  | value, sibling :: rest, i =>
    foldBranch (if i % 2 = 1 then hash sibling value else hash value sibling) rest (i / 2)

/-- The depth of the smallest tree with at least `n` leaves. -/
def depthFor (n : Nat) : Nat :=
  if n ≤ 1 then 0 else Nat.log2 (n - 1) + 1

@[simp] theorem length_branch :
    ∀ (d : Nat) (leaves : List α) (i : Nat), (branch hash zero d leaves i).length = d
  | 0, _, _ => rfl
  | d + 1, leaves, i => by
    unfold branch
    split <;> simp [length_branch]

theorem foldBranch_append :
    ∀ (b₁ b₂ : List α) (value : α) (i : Nat),
      foldBranch hash value (b₁ ++ b₂) i =
        foldBranch hash (foldBranch hash value b₁ i) b₂ (i / 2 ^ b₁.length)
  | [], _, _, _ => by simp [foldBranch]
  | sibling :: rest, b₂, value, i => by
    rw [List.cons_append, foldBranch, foldBranch_append rest, foldBranch, List.length_cons,
      Nat.pow_succ', Nat.div_div_eq_div_mul]

/-- One sibling at the top of a branch. -/
theorem foldBranch_concat (b : List α) (top value : α) (i : Nat) :
    foldBranch hash value (b ++ [top]) i =
      if i / 2 ^ b.length % 2 = 1 then hash top (foldBranch hash value b i)
      else hash (foldBranch hash value b i) top := by
  rw [foldBranch_append]
  simp only [foldBranch]

/-- A branch reads only the low bits of the index, one per level. -/
theorem foldBranch_mod :
    ∀ (b : List α) (value : α) (i : Nat),
      foldBranch hash value b (i % 2 ^ b.length) = foldBranch hash value b i
  | [], _, _ => rfl
  | sibling :: rest, value, i => by
    have hlow : i % 2 ^ (rest.length + 1) % 2 = i % 2 :=
      Nat.mod_mod_of_dvd i (Dvd.intro_left (2 ^ rest.length) rfl)
    have hhigh : i % 2 ^ (rest.length + 1) / 2 = i / 2 % 2 ^ rest.length := by
      rw [Nat.pow_succ', Nat.mod_mul_right_div_self]
    simp only [foldBranch, List.length_cons, hlow, hhigh, foldBranch_mod rest]

/-- The leaf at position `i`, `zero` beyond the list. -/
def leafAt (leaves : List α) (i : Nat) : α := leaves.getD i zero

theorem leafAt_take {leaves : List α} {n i : Nat} (h : i < n) :
    leafAt zero (leaves.take n) i = leafAt zero leaves i := by
  simp [leafAt, List.getD, h]

theorem leafAt_drop (leaves : List α) (n i : Nat) :
    leafAt zero (leaves.drop n) i = leafAt zero leaves (n + i) := by
  simp [leafAt, List.getD]

/-- The branch of a leaf depends on the low bits of its index only. -/
theorem branch_mod :
    ∀ (d : Nat) (leaves : List α) (i : Nat),
      branch hash zero d leaves (i % 2 ^ d) = branch hash zero d leaves i
  | 0, _, _ => rfl
  | d + 1, leaves, i => by
    have hbit : i % 2 ^ (d + 1) / 2 ^ d % 2 = i / 2 ^ d % 2 := by
      rw [Nat.pow_succ, Nat.mod_mul_right_div_self, Nat.mod_mod]
    have hlow : ∀ ls : List α,
        branch hash zero d ls (i % 2 ^ (d + 1)) = branch hash zero d ls i := by
      intro ls
      rw [← branch_mod d ls (i % 2 ^ (d + 1)), ← branch_mod d ls i,
        Nat.mod_mod_of_dvd i (Nat.pow_dvd_pow 2 (Nat.le_succ d))]
    simp only [branch, hbit, hlow]

/-- **Branch completeness.** The branch of leaf `i`, evaluated from that leaf, gives the root. -/
theorem foldBranch_branch :
    ∀ (d : Nat) (leaves : List α) (i : Nat), i < 2 ^ d →
      foldBranch hash (leafAt zero leaves i) (branch hash zero d leaves i) i =
        root hash zero d leaves
  | 0, leaves, i, hi => by
    have : i = 0 := by simpa using hi
    subst this
    cases leaves <;> rfl
  | d + 1, leaves, i, hi => by
    have hlt : i % 2 ^ d < 2 ^ d := Nat.mod_lt _ (Nat.two_pow_pos d)
    have hdiv : i / 2 ^ d < 2 := Nat.div_lt_of_lt_mul (by rwa [← Nat.pow_succ])
    have hsplit : 2 ^ d * (i / 2 ^ d) + i % 2 ^ d = i := Nat.div_add_mod i (2 ^ d)
    rw [branch, root]
    rcases Nat.lt_succ_iff_lt_or_eq.1 hdiv with hzero | hone
    · -- left half: the index is its own low part
      have hq : i / 2 ^ d = 0 := Nat.lt_one_iff.1 hzero
      rw [hq, Nat.mul_zero, Nat.zero_add] at hsplit
      have hi' : i < 2 ^ d := hsplit ▸ hlt
      rw [hq, if_neg (by decide), foldBranch_concat, length_branch, hq, if_neg (by decide),
        ← leafAt_take zero hi', foldBranch_branch d _ _ hi']
    · -- right half: the leaf stands at the low part of its index there
      rw [hone, Nat.mul_one] at hsplit
      rw [hone, if_pos rfl, foldBranch_concat, length_branch, hone, if_pos rfl, ← branch_mod,
        ← foldBranch_mod, length_branch]
      nth_rewrite 1 [← hsplit]
      rw [← leafAt_drop, foldBranch_branch d _ _ hlt]

/-- What a list has beyond the last leaf does not enter the root. -/
theorem root_take : ∀ (d : Nat) (leaves : List α),
    root hash zero d (leaves.take (2 ^ d)) = root hash zero d leaves
  | 0, leaves => by cases leaves <;> rfl
  | d + 1, leaves => by
    have hpow : 2 ^ (d + 1) = 2 ^ d + 2 ^ d := by rw [Nat.pow_succ, Nat.mul_two]
    rw [root, root, List.take_take, List.drop_take, hpow, Nat.add_sub_cancel,
      Nat.min_eq_left (Nat.le_add_right _ _), root_take d (leaves.drop (2 ^ d))]

/-- The pairs that are hashed for the root. -/
def pairs : Nat → List α → List (α × α)
  | 0, _ => []
  | d + 1, leaves =>
    (root hash zero d (leaves.take (2 ^ d)), root hash zero d (leaves.drop (2 ^ d))) ::
      (pairs d (leaves.take (2 ^ d)) ++ pairs d (leaves.drop (2 ^ d)))

@[simp] theorem length_pairs :
    ∀ (d : Nat) (leaves : List α), (pairs hash zero d leaves).length = 2 ^ d - 1
  | 0, _ => rfl
  | d + 1, leaves => by
    have hpos := Nat.two_pow_pos d
    rw [pairs, List.length_cons, List.length_append, length_pairs d, length_pairs d, Nat.pow_succ]
    omega

/-- No two pairs at one place of the lists collide. A two-to-one hash is never injective on all pairs;
on those that are hashed it can be. -/
def Separates (ps qs : List (α × α)) : Prop :=
  ∀ e ∈ ps.zip qs, hash e.1.1 e.1.2 = hash e.2.1 e.2.2 → e.1 = e.2

instance [DecidableEq α] (ps qs : List (α × α)) : Decidable (Separates hash ps qs) := by
  unfold Separates
  infer_instance

variable {hash}

theorem Separates.append {ps qs ps' qs' : List (α × α)} (hlen : ps.length = qs.length)
    (h : Separates hash (ps ++ ps') (qs ++ qs')) : Separates hash ps qs ∧ Separates hash ps' qs' := by
  unfold Separates at h
  rw [List.zip_append hlen] at h
  exact ⟨fun e he => h e (List.mem_append_left _ he), fun e he => h e (List.mem_append_right _ he)⟩

variable {zero}

/-- **Binding.** Trees of one depth with the same root have the same leaves, if no two pairs hashed at
one place collide. -/
theorem leafAt_eq_of_root_eq : ∀ {d : Nat} {l l' : List α},
    Separates hash (pairs hash zero d l) (pairs hash zero d l') →
      root hash zero d l = root hash zero d l' → ∀ i < 2 ^ d, leafAt zero l i = leafAt zero l' i
  | 0, l, l', _, h, i, hi => by
    have hzero : i = 0 := by simpa using hi
    subst hzero
    cases l <;> cases l' <;> exact h
  | d + 1, l, l', hsep, h, i, hi => by
    obtain ⟨hroots, hroots'⟩ := Prod.ext_iff.1 (hsep _ List.mem_cons_self h)
    have hrest : Separates hash (pairs hash zero d (l.take (2 ^ d)) ++
          pairs hash zero d (l.drop (2 ^ d)))
        (pairs hash zero d (l'.take (2 ^ d)) ++ pairs hash zero d (l'.drop (2 ^ d))) :=
      fun e he => hsep e (List.mem_cons_of_mem _ he)
    obtain ⟨hleft, hright⟩ := hrest.append (by simp)
    by_cases hlt : i < 2 ^ d
    · have hleaf := leafAt_eq_of_root_eq hleft hroots i hlt
      rwa [leafAt_take zero hlt, leafAt_take zero hlt] at hleaf
    · obtain ⟨j, rfl⟩ := Nat.exists_eq_add_of_le (not_lt.1 hlt)
      have hj : j < 2 ^ d := by
        rw [Nat.pow_succ] at hi
        omega
      have hleaf := leafAt_eq_of_root_eq hright hroots' j hj
      rwa [leafAt_drop, leafAt_drop] at hleaf

/-! ## Collisions -/

section Collisions

variable (hash)

/-- No two of the pairs collide. -/
def CollisionFree (ps : List (α × α)) : Prop :=
  ∀ p ∈ ps, ∀ q ∈ ps, hash p.1 p.2 = hash q.1 q.2 → p = q

/-- None of the pairs hashes to `a`. -/
def Avoids (a : α) (ps : List (α × α)) : Prop := ∀ p ∈ ps, hash p.1 p.2 ≠ a

instance [DecidableEq α] (ps : List (α × α)) : Decidable (CollisionFree hash ps) :=
  inferInstanceAs (Decidable (∀ p ∈ ps, ∀ q ∈ ps, _ → _))

instance [DecidableEq α] (a : α) (ps : List (α × α)) : Decidable (Avoids hash a ps) :=
  inferInstanceAs (Decidable (∀ p ∈ ps, _))

variable {hash} {ps qs : List (α × α)}

theorem CollisionFree.mono (h : CollisionFree hash qs) (hsub : ∀ p ∈ ps, p ∈ qs) :
    CollisionFree hash ps :=
  fun p hp q hq => h p (hsub p hp) q (hsub q hq)

theorem Avoids.mono {a : α} (h : Avoids hash a qs) (hsub : ∀ p ∈ ps, p ∈ qs) : Avoids hash a ps :=
  fun p hp => h p (hsub p hp)

/-- It is enough to compare each pair with those after it. -/
theorem CollisionFree.of_pairwise
    (h : ps.Pairwise fun p q => hash p.1 p.2 = hash q.1 q.2 → p = q) : CollisionFree hash ps := by
  have hsymm : Std.Symm fun p q : α × α => hash p.1 p.2 = hash q.1 q.2 → p = q :=
    ⟨fun _ _ hpq heq => (hpq heq.symm).symm⟩
  intro p hp q hq
  exact List.Pairwise.forall_of_forall (fun _ _ _ => rfl) h hp hq

/-- Two pairs of the list with one hash have the same halves. -/
theorem CollisionFree.halves (h : CollisionFree hash ps) {a b a' b' : α} (hp : (a, b) ∈ ps)
    (hq : (a', b') ∈ ps) (heq : hash a b = hash a' b') : a = a' ∧ b = b' :=
  Prod.mk.inj (h _ hp _ hq heq)

theorem CollisionFree.separates (h : CollisionFree hash (ps ++ qs)) : Separates hash ps qs := by
  intro e he
  obtain ⟨hp, hq⟩ := List.of_mem_zip he
  exact h _ (List.mem_append_left _ hp) _ (List.mem_append_right _ hq)

/-- `depthFor n` is the least depth with room for `n` leaves. -/
theorem depthFor_le_iff {n d : Nat} : depthFor n ≤ d ↔ n ≤ 2 ^ d := by
  unfold depthFor
  have hpos := Nat.two_pow_pos d
  split_ifs with h
  · exact ⟨fun _ => h.trans hpos, fun _ => Nat.zero_le _⟩
  · have hlog : Nat.log2 (n - 1) < d ↔ n - 1 < 2 ^ d := Nat.log2_lt (by omega)
    omega

theorem le_two_pow_depthFor (n : Nat) : n ≤ 2 ^ depthFor n := depthFor_le_iff.1 le_rfl

theorem depthFor_eq_iff {n d : Nat} : depthFor n = d + 1 ↔ 2 ^ d < n ∧ n ≤ 2 ^ (d + 1) := by
  have hlow := @depthFor_le_iff n d
  have hhigh := @depthFor_le_iff n (d + 1)
  omega

/-- **Lists of one length with one root are the same.** -/
theorem eq_of_root_eq {d : Nat} {l l' : List α} (hlen : l.length = l'.length)
    (hle : l.length ≤ 2 ^ d)
    (hfree : CollisionFree hash (pairs hash zero d l ++ pairs hash zero d l'))
    (h : root hash zero d l = root hash zero d l') : l = l' := by
  refine List.ext_getElem hlen fun i hi hi' => ?_
  have hleaf := leafAt_eq_of_root_eq hfree.separates h i (hi.trans_le hle)
  simpa [leafAt, List.getD, hi, hi'] using hleaf

end Collisions

/-! ## Soundness of branches -/

section Branch

variable (hash) (zero)

/-- The pairs that are hashed to evaluate a branch. -/
def branchPairs : α → List α → Nat → List (α × α)
  | _, [], _ => []
  | value, sibling :: rest, i =>
    if i % 2 = 1 then (sibling, value) :: branchPairs (hash sibling value) rest (i / 2)
    else (value, sibling) :: branchPairs (hash value sibling) rest (i / 2)

variable {hash} {zero}

theorem branchPairs_append : ∀ (b₁ b₂ : List α) (value : α) (i : Nat),
    branchPairs hash value (b₁ ++ b₂) i = branchPairs hash value b₁ i ++
      branchPairs hash (foldBranch hash value b₁ i) b₂ (i / 2 ^ b₁.length)
  | [], _, _, _ => by simp [branchPairs, foldBranch]
  | sibling :: rest, b₂, value, i => by
    rw [List.cons_append, List.length_cons, Nat.pow_succ', ← Nat.div_div_eq_div_mul]
    by_cases h : i % 2 = 1
    · simp only [branchPairs, foldBranch, if_pos h, branchPairs_append rest, List.cons_append]
    · simp only [branchPairs, foldBranch, if_neg h, branchPairs_append rest, List.cons_append]

/-- A branch of positive length ends in a hash. -/
theorem mem_branchPairs_concat (b : List α) (top value : α) (i : Nat) :
    (if i / 2 ^ b.length % 2 = 1 then (top, foldBranch hash value b i)
      else (foldBranch hash value b i, top)) ∈ branchPairs hash value (b ++ [top]) i := by
  rw [branchPairs_append]
  refine List.mem_append_right _ ?_
  by_cases h : i / 2 ^ b.length % 2 = 1
  · simp [branchPairs, h]
  · simp [branchPairs, h]

/-- **Branch soundness.** A branch that evaluates to the root of a tree starts from the leaf at its
index. -/
theorem eq_leafAt_of_foldBranch : ∀ {d : Nat} {b leaves : List α} {value : α} {i : Nat},
    b.length = d →
    CollisionFree hash (branchPairs hash value b i ++ pairs hash zero d leaves) →
    foldBranch hash value b i = root hash zero d leaves → value = leafAt zero leaves (i % 2 ^ d)
  | 0, b, leaves, value, i, hlen, _, h => by
    obtain rfl := List.eq_nil_of_length_eq_zero hlen
    rw [Nat.pow_zero, Nat.mod_one]
    cases leaves <;> exact h
  | d + 1, b, leaves, value, i, hlen, hfree, h => by
    obtain ⟨b, top, rfl⟩ : ∃ b' top, b = b' ++ [top] := by
      refine (List.eq_nil_or_concat' b).resolve_left ?_
      rintro rfl
      simp at hlen
    have hb : b.length = d := by simpa using hlen
    have hlt : i % 2 ^ d < 2 ^ d := Nat.mod_lt _ (Nat.two_pow_pos d)
    have hmod : i % 2 ^ (d + 1) = 2 ^ d * (i / 2 ^ d % 2) + i % 2 ^ d := by
      rw [Nat.pow_succ, Nat.mod_mul, Nat.add_comm]
    have hmem : (if i / 2 ^ b.length % 2 = 1 then (top, foldBranch hash value b i)
        else (foldBranch hash value b i, top)) ∈ branchPairs hash value (b ++ [top]) i :=
      mem_branchPairs_concat b top value i
    rw [foldBranch_concat, root] at h
    rw [hb] at h hmem
    have hroot : (root hash zero d (leaves.take (2 ^ d)), root hash zero d (leaves.drop (2 ^ d))) ∈
        pairs hash zero (d + 1) leaves := List.mem_cons_self
    -- the pairs below, on either side
    have hsub : ∀ {half : List α}, (∀ p ∈ pairs hash zero d half, p ∈ pairs hash zero (d + 1) leaves) →
        CollisionFree hash (branchPairs hash value b i ++ pairs hash zero d half) := by
      intro half hhalf
      refine hfree.mono fun p hp => ?_
      rcases List.mem_append.1 hp with hp | hp
      · refine List.mem_append_left _ ?_
        rw [branchPairs_append]
        exact List.mem_append_left _ hp
      · exact List.mem_append_right _ (hhalf p hp)
    by_cases hbit : i / 2 ^ d % 2 = 1
    · rw [if_pos hbit] at h hmem
      obtain ⟨_, hfold⟩ := hfree.halves (List.mem_append_left _ hmem)
        (List.mem_append_right _ hroot) h
      have hleaf := eq_leafAt_of_foldBranch hb (hsub fun p hp => List.mem_cons_of_mem _
        (List.mem_append_right _ hp)) hfold
      rw [hleaf, leafAt_drop, hmod, hbit, Nat.mul_one]
    · rw [if_neg hbit] at h hmem
      obtain ⟨hfold, _⟩ := hfree.halves (List.mem_append_left _ hmem)
        (List.mem_append_right _ hroot) h
      have hleaf := eq_leafAt_of_foldBranch hb (hsub fun p hp => List.mem_cons_of_mem _
        (List.mem_append_left _ hp)) hfold
      have hzero : i / 2 ^ d % 2 = 0 := by omega
      rw [hleaf, leafAt_take zero hlt, hmod, hzero, Nat.mul_zero, Nat.zero_add]

/-- A branch with a sibling ends in a hash. -/
theorem foldBranch_ne (b : List α) (top value : α) {i : Nat}
    (havoid : Avoids hash zero (branchPairs hash value (b ++ [top]) i)) :
    foldBranch hash value (b ++ [top]) i ≠ zero := by
  have hpair := havoid _ (mem_branchPairs_concat b top value i)
  rw [foldBranch_concat]
  by_cases hbit : i / 2 ^ b.length % 2 = 1
  · rwa [if_pos hbit] at hpair ⊢
  · rwa [if_neg hbit] at hpair ⊢

theorem branchPairs_mod : ∀ (b : List α) (value : α) (i : Nat),
    branchPairs hash value b (i % 2 ^ b.length) = branchPairs hash value b i
  | [], _, _ => rfl
  | sibling :: rest, value, i => by
    have hlow : i % 2 ^ (rest.length + 1) % 2 = i % 2 :=
      Nat.mod_mod_of_dvd i (Dvd.intro_left (2 ^ rest.length) rfl)
    have hhigh : i % 2 ^ (rest.length + 1) / 2 = i / 2 % 2 ^ rest.length := by
      rw [Nat.pow_succ', Nat.mod_mul_right_div_self]
    simp only [branchPairs, List.length_cons, hlow, hhigh, branchPairs_mod rest]

/-- The branch of a leaf hashes pairs of the tree. -/
theorem mem_pairs_of_branch : ∀ {d : Nat} {leaves : List α} {i : Nat}, i < 2 ^ d →
    ∀ p ∈ branchPairs hash (leafAt zero leaves i) (branch hash zero d leaves i) i,
      p ∈ pairs hash zero d leaves
  | 0, leaves, i, hi, p, hp => by simp [branch, branchPairs] at hp
  | d + 1, leaves, i, hi, p, hp => by
    have hlt : i % 2 ^ d < 2 ^ d := Nat.mod_lt _ (Nat.two_pow_pos d)
    have hdiv : i / 2 ^ d < 2 := Nat.div_lt_of_lt_mul (by rwa [← Nat.pow_succ])
    have hsplit : 2 ^ d * (i / 2 ^ d) + i % 2 ^ d = i := Nat.div_add_mod i (2 ^ d)
    rw [branch] at hp
    rw [pairs]
    rcases Nat.lt_succ_iff_lt_or_eq.1 hdiv with hzero | hone
    · have hq : i / 2 ^ d = 0 := Nat.lt_one_iff.1 hzero
      rw [hq, Nat.mul_zero, Nat.zero_add] at hsplit
      have hi' : i < 2 ^ d := hsplit ▸ hlt
      rw [hq, if_neg (by decide), branchPairs_append, length_branch, hq, ← leafAt_take zero hi',
        foldBranch_branch _ _ _ _ _ hi', List.mem_append] at hp
      rcases hp with hp | hp
      · exact List.mem_cons_of_mem _ (List.mem_append_left _ (mem_pairs_of_branch hi' p hp))
      · rw [branchPairs, if_neg (by decide), branchPairs, List.mem_singleton] at hp
        rw [hp]
        exact List.mem_cons_self
    · rw [hone, Nat.mul_one] at hsplit
      have hleaf : leafAt zero leaves i = leafAt zero (leaves.drop (2 ^ d)) (i % 2 ^ d) := by
        rw [leafAt_drop, hsplit]
      rw [hone, if_pos rfl, branchPairs_append, length_branch, hone, ← branch_mod, ← branchPairs_mod,
        ← foldBranch_mod, length_branch, hleaf, foldBranch_branch _ _ _ _ _ hlt, List.mem_append] at hp
      rcases hp with hp | hp
      · exact List.mem_cons_of_mem _ (List.mem_append_right _ (mem_pairs_of_branch hlt p hp))
      · rw [branchPairs, if_pos rfl, branchPairs, List.mem_singleton] at hp
        rw [hp]
        exact List.mem_cons_self

end Branch

/-! ## Depth -/

section Depth

variable (hash)

/-- No chunk is hashed back to itself: the left half of each pair ranks below the hash. -/
def Acyclic (ps : List (α × α)) : Prop :=
  ∃ rank : α → Nat, ∀ p ∈ ps, rank p.1 < rank (hash p.1 p.2)

/-- `x` stands `k` steps to the left below `y`. -/
def LeftSpine (ps : List (α × α)) : Nat → α → α → Prop
  | 0, x, y => x = y
  | k + 1, x, y => ∃ a b, (a, b) ∈ ps ∧ hash a b = y ∧ LeftSpine ps k x a

variable {hash} {ps qs : List (α × α)} {x y z : α}

theorem Acyclic.of_all (rank : α → Nat)
    (h : ps.all fun p => rank p.1 < rank (hash p.1 p.2)) : Acyclic hash ps :=
  ⟨rank, fun p hp => of_decide_eq_true (List.all_eq_true.1 h p hp)⟩

theorem Acyclic.mono (h : Acyclic hash qs) (hsub : ∀ p ∈ ps, p ∈ qs) : Acyclic hash ps := by
  obtain ⟨rank, hrank⟩ := h
  exact ⟨rank, fun p hp => hrank p (hsub p hp)⟩

namespace LeftSpine

theorem trans {k : Nat} : ∀ {k' : Nat} {z : α}, LeftSpine hash ps k x y →
    LeftSpine hash ps k' y z → LeftSpine hash ps (k + k') x z
  | 0, _, h, h' => by
    cases h'
    exact h
  | _ + 1, _, h, ⟨a, b, hp, hz, h'⟩ => ⟨a, b, hp, hz, trans h h'⟩

theorem rank_le {rank : α → Nat} (hrank : ∀ p ∈ ps, rank p.1 < rank (hash p.1 p.2)) :
    ∀ {k : Nat} {y : α}, LeftSpine hash ps k x y → rank x + k ≤ rank y
  | 0, _, h => by
    cases h
    exact le_rfl
  | k + 1, _, ⟨a, b, hp, hy, h⟩ => by
    have hlt : rank a < rank (hash a b) := hrank _ hp
    have hle := rank_le hrank h
    rw [← hy]
    omega

/-- **One chunk is one number of steps below a root.** -/
theorem length_eq (hfree : CollisionFree hash ps) (hacyclic : Acyclic hash ps) :
    ∀ {k k' : Nat} {y : α}, LeftSpine hash ps k x y → LeftSpine hash ps k' x y → k = k'
  | 0, k', _, h, h' => by
    obtain ⟨rank, hrank⟩ := hacyclic
    cases h
    have hle := rank_le hrank h'
    omega
  | k + 1, 0, _, h, h' => by
    obtain ⟨rank, hrank⟩ := hacyclic
    cases h'
    have hle := rank_le hrank h
    omega
  | k + 1, k' + 1, _, ⟨a, b, hp, hy, h⟩, ⟨a', b', hp', hy', h'⟩ => by
    obtain ⟨rfl, _⟩ := hfree.halves hp hp' (hy.trans hy'.symm)
    rw [length_eq hfree hacyclic h h']

/-- The first leaf is as far below a root as the tree is deep. -/
theorem of_root : ∀ {d : Nat} {leaves : List α}, (∀ p ∈ pairs hash zero d leaves, p ∈ ps) →
    LeftSpine hash ps d (leaves.headD zero) (root hash zero d leaves)
  | 0, _, _ => rfl
  | d + 1, leaves, hsub => by
    refine ⟨_, _, hsub _ List.mem_cons_self, rfl, ?_⟩
    have hhead : (leaves.take (2 ^ d)).headD zero = leaves.headD zero := by
      have hpos := Nat.two_pow_pos d
      obtain ⟨n, hn⟩ := Nat.exists_eq_succ_of_ne_zero hpos.ne'
      rw [hn]
      cases leaves <;> rfl
    rw [← hhead]
    exact of_root fun p hp => hsub p (List.mem_cons_of_mem _ (List.mem_append_left _ hp))

end LeftSpine

/-- The root of a tree of zeros. -/
def zeroRoot (hash : α → α → α) (zero : α) (d : Nat) : α := (fun a => hash a a)^[d] zero

theorem root_nil (d : Nat) : root hash zero d [] = zeroRoot hash zero d := by
  induction d with
  | zero => rfl
  | succ d ih =>
    rw [root, List.take_nil, List.drop_nil, ih, zeroRoot, zeroRoot, Function.iterate_succ_apply']

/-- A tree of zeros hashes one pair on each level. -/
theorem mem_pairs_nil {d : Nat} {p : α × α} (h : p ∈ pairs hash zero d []) :
    ∃ k < d, p = (zeroRoot hash zero k, zeroRoot hash zero k) := by
  induction d with
  | zero => cases h
  | succ d ih =>
    rw [pairs, List.take_nil, List.drop_nil, root_nil, List.mem_cons, List.mem_append, or_self] at h
    rcases h with rfl | h
    · exact ⟨d, d.lt_succ_self, rfl⟩
    · obtain ⟨k, hk, hp⟩ := ih h
      exact ⟨k, hk.trans d.lt_succ_self, hp⟩

/-- The root of a tree with one leaf, level by level. -/
def loneRoot (hash : α → α → α) (zero x : α) : Nat → α
  | 0 => x
  | d + 1 => hash (loneRoot hash zero x d) (zeroRoot hash zero d)

theorem take_singleton (d : Nat) : [x].take (2 ^ d) = [x] ∧ [x].drop (2 ^ d) = [] :=
  ⟨List.take_of_length_le Nat.one_le_two_pow, List.drop_of_length_le Nat.one_le_two_pow⟩

theorem root_singleton (d : Nat) : root hash zero d [x] = loneRoot hash zero x d := by
  induction d with
  | zero => rfl
  | succ d ih => rw [root, (take_singleton d).1, (take_singleton d).2, root_nil, ih, loneRoot]

/-- A tree with one leaf hashes that leaf's side and a tree of zeros on each level. -/
theorem mem_pairs_singleton {d : Nat} {p : α × α} (h : p ∈ pairs hash zero d [x]) :
    ∃ k < d, p = (loneRoot hash zero x k, zeroRoot hash zero k) ∨
      p = (zeroRoot hash zero k, zeroRoot hash zero k) := by
  induction d with
  | zero => cases h
  | succ d ih =>
    rw [pairs, (take_singleton d).1, (take_singleton d).2, root_nil, root_singleton, List.mem_cons,
      List.mem_append] at h
    rcases h with rfl | h | h
    · exact ⟨d, d.lt_succ_self, .inl rfl⟩
    · obtain ⟨k, hk, hp⟩ := ih h
      exact ⟨k, hk.trans d.lt_succ_self, hp⟩
    · obtain ⟨k, hk, hp⟩ := mem_pairs_nil h
      exact ⟨k, hk.trans d.lt_succ_self, .inr hp⟩

end Depth

end Lib.Merkle
