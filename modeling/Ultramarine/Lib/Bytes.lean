import Mathlib.Data.List.Basic
import Mathlib.Data.List.Induction
import Mathlib.Tactic.Linarith

/-!
# Byte strings and chunks

Fixed-width big- and little-endian encodings, and the division of a list into chunks of a fixed
size, the last one possibly shorter.

Results:

* `mod_eq_of_beBytes_eq`: a big-endian encoding determines the number, up to its width;
* `ofBeBytes_beBytes`, `ofLeBytes_leBytes`: and the number can be read back;
* `compare_beBytes`: byte strings of one width compare like the numbers they encode;
* `not_lt_of_starts`, `starts_of_between`: the byte strings with one start are an interval of the
  order, which begins at it;
* `ofBeBytes_inj`: byte strings of one length that read as one number are the same;
* `flatten_inj`: pieces of one length can be told apart;
* `flatten_chunks`: the chunks of a list, joined, are the list.
-/

namespace Lib

/-- A byte string. -/
abbrev Bytes : Type := List UInt8

/-- The low `width` bytes of `n`, most significant first. -/
def beBytes (width n : Nat) : Bytes :=
  (List.range width).map fun i => UInt8.ofNat (n / 256 ^ (width - 1 - i))

/-- The low `width` bytes of `n`, least significant first. -/
def leBytes (width n : Nat) : Bytes :=
  (List.range width).map fun i => UInt8.ofNat (n / 256 ^ i)

/-- Read a byte string as a big-endian number. -/
def ofBeBytes (bytes : Bytes) : Nat :=
  bytes.foldl (fun acc b => 256 * acc + b.toNat) 0

/-- Read a byte string as a little-endian number. -/
def ofLeBytes (bytes : Bytes) : Nat :=
  bytes.foldr (fun b acc => 256 * acc + b.toNat) 0

/-- `bytes` followed by zeros up to `width`. -/
def padRight (width : Nat) (bytes : Bytes) : Bytes :=
  bytes ++ List.replicate (width - bytes.length) 0

@[simp] theorem length_beBytes (width n : Nat) : (beBytes width n).length = width := by
  simp [beBytes]

@[simp] theorem length_leBytes (width n : Nat) : (leBytes width n).length = width := by
  simp [leBytes]

theorem beBytes_succ (width n : Nat) :
    beBytes (width + 1) n = UInt8.ofNat (n / 256 ^ width) :: beBytes width n := by
  unfold beBytes
  rw [List.range_succ_eq_map, List.map_cons, List.map_map]
  refine congrArg₂ List.cons (by simp) (List.map_congr_left fun i _ => ?_)
  show UInt8.ofNat (n / 256 ^ (width + 1 - 1 - (i + 1))) = _
  rw [Nat.add_sub_cancel, Nat.sub_sub, Nat.add_comm 1 i]

/-- A big-endian encoding determines the number, up to its width. -/
theorem mod_eq_of_beBytes_eq {width a b : Nat} (h : beBytes width a = beBytes width b) :
    a % 256 ^ width = b % 256 ^ width := by
  induction width with
  | zero => simp [Nat.mod_one]
  | succ width ih =>
    rw [beBytes_succ, beBytes_succ] at h
    obtain ⟨hhead, htail⟩ := List.cons.inj h
    have hbyte : a / 256 ^ width % 256 = b / 256 ^ width % 256 := by
      have := congrArg UInt8.toNat hhead
      simpa using this
    rw [Nat.pow_succ, Nat.mod_mul, Nat.mod_mul, ih htail, hbyte]

theorem beBytes_inj {width a b : Nat} (ha : a < 256 ^ width) (hb : b < 256 ^ width) :
    beBytes width a = beBytes width b ↔ a = b := by
  constructor
  · intro h
    have hmod := mod_eq_of_beBytes_eq h
    rwa [Nat.mod_eq_of_lt ha, Nat.mod_eq_of_lt hb] at hmod
  · rintro rfl
    rfl

/-- A prefix as long as the first piece is that piece. -/
theorem prefix_append_iff {α : Type} {a b c : List α} (h : a.length = b.length) :
    a <+: b ++ c ↔ a = b := by
  constructor
  · intro hpre
    exact (List.prefix_of_prefix_length_le hpre (List.prefix_append _ _) h.le).eq_of_length h
  · rintro rfl
    exact List.prefix_append _ _

theorem foldl_beBytes (width n : Nat) :
    ∀ acc : Nat, (beBytes width n).foldl (fun acc b => 256 * acc + b.toNat) acc =
      256 ^ width * acc + n % 256 ^ width := by
  induction width with
  | zero =>
    intro acc
    simp [beBytes, Nat.mod_one]
  | succ width ih =>
    intro acc
    rw [beBytes_succ, List.foldl_cons, ih, Nat.pow_succ, Nat.mod_mul, UInt8.toNat_ofNat',
      Nat.mul_add, Nat.mul_assoc, Nat.add_assoc, Nat.add_comm (n % 256 ^ width)]

/-- A number that fits its width can be read back. -/
theorem ofBeBytes_beBytes (width n : Nat) : ofBeBytes (beBytes width n) = n % 256 ^ width := by
  unfold ofBeBytes
  rw [foldl_beBytes]
  simp

theorem ofBeBytes_concat (bytes : Bytes) (b : UInt8) :
    ofBeBytes (bytes ++ [b]) = 256 * ofBeBytes bytes + b.toNat := by
  simp [ofBeBytes]

theorem ofBeBytes_lt (bytes : Bytes) : ofBeBytes bytes < 256 ^ bytes.length := by
  induction bytes using List.reverseRecOn with
  | nil => simp [ofBeBytes]
  | append_singleton bytes b ih =>
    have hb := b.toNat_lt
    rw [ofBeBytes_concat, List.length_append, List.length_singleton, Nat.pow_succ]
    omega

/-- Byte strings of one length that read as one number are the same. -/
theorem ofBeBytes_inj {a b : Bytes} (hlen : a.length = b.length) (h : ofBeBytes a = ofBeBytes b) :
    a = b := by
  induction a using List.reverseRecOn generalizing b with
  | nil => exact (List.eq_nil_of_length_eq_zero hlen.symm).symm
  | append_singleton a x ih =>
    obtain ⟨b, y, rfl⟩ : ∃ b' y, b = b' ++ [y] := by
      refine (List.eq_nil_or_concat' b).resolve_left ?_
      rintro rfl
      simp at hlen
    have hx := x.toNat_lt
    have hy := y.toNat_lt
    rw [ofBeBytes_concat, ofBeBytes_concat] at h
    have hxy : x = y := UInt8.toNat_inj.1 (by omega)
    rw [ih (by simpa using hlen) (by omega), hxy]

theorem length_padRight {width : Nat} {bytes : Bytes} (h : bytes.length ≤ width) :
    (padRight width bytes).length = width := by
  unfold padRight
  rw [List.length_append, List.length_replicate]
  omega

theorem leBytes_succ (width n : Nat) :
    leBytes (width + 1) n = UInt8.ofNat n :: leBytes width (n / 256) := by
  unfold leBytes
  rw [List.range_succ_eq_map, List.map_cons, List.map_map]
  refine congrArg₂ List.cons (by simp) (List.map_congr_left fun i _ => ?_)
  show UInt8.ofNat (n / 256 ^ (i + 1)) = _
  rw [Nat.pow_succ', Nat.div_div_eq_div_mul]

/-- A number that fits its width can be read back. -/
theorem ofLeBytes_leBytes (width : Nat) :
    ∀ n : Nat, ofLeBytes (leBytes width n) = n % 256 ^ width := by
  induction width with
  | zero =>
    intro n
    simp [leBytes, ofLeBytes, Nat.mod_one]
  | succ width ih =>
    intro n
    have hcons : ofLeBytes (leBytes (width + 1) n) =
        256 * ofLeBytes (leBytes width (n / 256)) + (UInt8.ofNat n).toNat := by
      rw [leBytes_succ]
      rfl
    rw [hcons, ih, Nat.pow_succ', Nat.mod_mul, UInt8.toNat_ofNat']
    omega

theorem leBytes_inj {width a b : Nat} (ha : a < 256 ^ width) (hb : b < 256 ^ width)
    (h : leBytes width a = leBytes width b) : a = b := by
  have hread := congrArg ofLeBytes h
  rwa [ofLeBytes_leBytes, ofLeBytes_leBytes, Nat.mod_eq_of_lt ha, Nat.mod_eq_of_lt hb] at hread

/-- Byte strings are compared piece by piece. -/
theorem compare_append {a a' : Bytes} (h : a.length = a'.length) (b b' : Bytes) :
    compare (a ++ b) (a' ++ b') = (compare a a').then (compare b b') := by
  rw [List.compare_eq_compareLex]
  induction a generalizing a' with
  | nil =>
    cases a' with
    | nil => rw [List.nil_append, List.nil_append, List.compareLex_nil_nil, Ordering.eq_then]
    | cons x a' => simp at h
  | cons x a ih =>
    cases a' with
    | nil => simp at h
    | cons y a' =>
      rw [List.cons_append, List.cons_append, List.compareLex_cons_cons, List.compareLex_cons_cons,
        ih (by simpa using h)]
      cases compare x y <;> rfl

theorem compare_cons (x y : UInt8) (a b : Bytes) :
    compare (x :: a) (y :: b) = (compare x y).then (compare a b) := by
  rw [List.compare_eq_compareLex, List.compareLex_cons_cons]

/-- What starts with a byte string does not come before it. -/
theorem not_lt_of_starts {start k : Bytes} (h : start <+: k) : compare k start ≠ .lt := by
  obtain ⟨rest, rfl⟩ := h
  induction start with
  | nil => cases rest <;> exact nofun
  | cons x start ih =>
    have hx : compare x x = .eq := Std.ReflCmp.compare_self
    rw [List.cons_append, compare_cons, hx, Ordering.eq_then]
    exact ih

/-- Between a byte string and what starts with it, everything starts with it. -/
theorem starts_of_between {start a b : Bytes} (ha : compare a start ≠ .lt)
    (hab : compare a b = .lt) (hb : start <+: b) : start <+: a := by
  obtain ⟨rest, rfl⟩ := hb
  induction start generalizing a with
  | nil => exact List.nil_prefix
  | cons x start ih =>
    cases a with
    | nil => exact absurd rfl ha
    | cons y a =>
      rw [compare_cons] at ha
      rw [List.cons_append, compare_cons] at hab
      cases hxy : compare y x with
      | lt => rw [hxy] at ha; exact absurd rfl ha
      | gt => rw [hxy] at hab; cases hab
      | eq =>
        rw [hxy, Ordering.eq_then] at ha hab
        obtain rfl : y = x := Std.LawfulEqCmp.compare_eq_iff_eq.1 hxy
        exact List.prefix_cons_inj y |>.2 (ih ha hab)

/-- Numbers are compared digit by digit. -/
theorem compare_digits {base q q' r r' : Nat} (hr : r < base) (hr' : r' < base) :
    compare (base * q + r) (base * q' + r') = (compare q q').then (compare r r') := by
  rcases lt_trichotomy q q' with hq | rfl | hq
  · have hlt : base * q + r < base * q' + r' := by nlinarith
    rw [Nat.compare_eq_lt.2 hlt, Nat.compare_eq_lt.2 hq]
    rfl
  · rw [Nat.compare_eq_eq.2 rfl, Ordering.eq_then]
    rcases lt_trichotomy r r' with h | rfl | h
    · rw [Nat.compare_eq_lt.2 h, Nat.compare_eq_lt.2 (by omega)]
    · rw [Nat.compare_eq_eq.2 rfl, Nat.compare_eq_eq.2 rfl]
    · rw [Nat.compare_eq_gt.2 h, Nat.compare_eq_gt.2 (by omega)]
  · have hlt : base * q' + r' < base * q + r := by nlinarith
    rw [Nat.compare_eq_gt.2 hlt, Nat.compare_eq_gt.2 hq]
    rfl

/-- **Encodings of one width compare like the numbers.** -/
theorem compare_beBytes (width a b : Nat) :
    compare (beBytes width a) (beBytes width b) =
      compare (a % 256 ^ width) (b % 256 ^ width) := by
  induction width with
  | zero => simp [beBytes, Nat.mod_one]
  | succ width ih =>
    have hbyte : compare (UInt8.ofNat (a / 256 ^ width)) (UInt8.ofNat (b / 256 ^ width)) =
        compare (a / 256 ^ width % 256) (b / 256 ^ width % 256) := by
      rw [UInt8.compare_eq_toNat_compare_toNat, UInt8.toNat_ofNat', UInt8.toNat_ofNat']
    have hpos : 0 < 256 ^ width := Nat.pow_pos (by decide)
    rw [beBytes_succ, beBytes_succ, List.compare_eq_compareLex, List.compareLex_cons_cons,
      ← List.compare_eq_compareLex, ih, hbyte, Nat.pow_succ, Nat.mod_mul, Nat.mod_mul,
      Nat.add_comm, Nat.add_comm (b % 256 ^ width),
      compare_digits (Nat.mod_lt _ hpos) (Nat.mod_lt _ hpos)]

/-- Pieces of one positive length, joined, determine the list of pieces. -/
theorem flatten_inj {α : Type} {n : Nat} (hn : 0 < n) :
    ∀ {l l' : List (List α)}, (∀ x ∈ l, x.length = n) → (∀ x ∈ l', x.length = n) →
      l.flatten = l'.flatten → l = l'
  | [], [], _, _, _ => rfl
  | [], y :: l', _, hl', h => by
    have hlen := congrArg List.length h
    rw [List.flatten_nil, List.flatten_cons, List.length_append, hl' y (by simp)] at hlen
    simp at hlen
    omega
  | x :: l, [], hl, _, h => by
    have hlen := congrArg List.length h
    rw [List.flatten_nil, List.flatten_cons, List.length_append, hl x (by simp)] at hlen
    simp at hlen
    omega
  | x :: l, y :: l', hl, hl', h => by
    have hxy : x.length = y.length := by rw [hl x (by simp), hl' y (by simp)]
    obtain ⟨rfl, hrest⟩ := List.append_inj h hxy
    rw [flatten_inj hn (fun z hz => hl z (by simp [hz])) (fun z hz => hl' z (by simp [hz])) hrest]

section Chunks

variable {α : Type}

/-- The consecutive pieces of `size` elements of a list; the last may be shorter. -/
def chunks (size : Nat) (l : List α) : List (List α) :=
  (List.range ((l.length + size - 1) / size)).map fun i => (l.drop (size * i)).take size

theorem flatten_take_chunks (size : Nat) (l : List α) :
    ∀ n, ((List.range n).map fun i => (l.drop (size * i)).take size).flatten = l.take (size * n)
  | 0 => by simp
  | n + 1 => by
    rw [List.range_succ, List.map_append, List.flatten_append, flatten_take_chunks size l n,
      Nat.mul_succ, List.take_add]
    simp

/-- The chunks of a list, joined, are the list. -/
@[simp] theorem flatten_chunks {size : Nat} (hsize : 0 < size) (l : List α) :
    (chunks size l).flatten = l := by
  unfold chunks
  rw [flatten_take_chunks]
  refine List.take_of_length_le ?_
  have := Nat.div_add_mod (l.length + size - 1) size
  have := Nat.mod_lt (l.length + size - 1) hsize
  omega

@[simp] theorem length_chunks (size : Nat) (l : List α) :
    (chunks size l).length = (l.length + size - 1) / size := by
  simp [chunks]

/-- Lists of one length are determined by their chunks under a function that tells chunks of one length
apart. -/
theorem map_chunks_inj {β : Type} {size : Nat} (hsize : 0 < size) {f : List α → β}
    (hf : ∀ x y : List α, x.length = y.length → x.length ≤ size → f x = f y → x = y)
    {a b : List α} (hlen : a.length = b.length) (h : (chunks size a).map f = (chunks size b).map f) :
    a = b := by
  have hchunks : chunks size a = chunks size b := by
    unfold chunks at h ⊢
    rw [List.map_map, List.map_map, ← hlen, List.map_inj_left] at h
    rw [← hlen, List.map_inj_left]
    intro i hi
    refine hf _ _ ?_ ?_ (h i hi)
    · rw [List.length_take, List.length_take, List.length_drop, List.length_drop, hlen]
    · rw [List.length_take]
      exact Nat.min_le_left _ _
  rw [← flatten_chunks hsize a, hchunks, flatten_chunks hsize]

end Chunks

end Lib
