import Mathlib.Data.Countable.Basic
import Mathlib.Logic.Equiv.List
import Mathlib.Tactic.DeriveCountable
import Ultramarine.Lib.Bytes
import Ultramarine.Lib.Prog

/-!
# Wire formats

A wire format writes a message as bytes and reads it back. A codec stands on top of it: it turns a
value into a message, which it may refuse, and a message into a value, which it may refuse or panic
on.

Results:

* `Wire.survives_bytes`: a value survives the bytes exactly when it survives the message;
* `Wire.fromBytes_eq_panic`: reading bytes panics exactly when reading their message does;
* `Wire.ofCountable`: every countable type of messages has a wire format.
-/

namespace Lib

variable {ε α μ : Type}

/-- A wire format of messages: what is written reads back. -/
structure Wire (μ : Type) where
  encode : μ → Bytes
  decode : Bytes → Option μ
  decode_encode : ∀ m, decode (encode m) = some m

/-- `a` can be encoded, and what is encoded decodes to `a`. -/
def Survives (enc : α → Exit ε μ) (dec : μ → Exit ε α) (a : α) : Prop :=
  ∃ m, enc a = .ok m ∧ dec m = .ok a

namespace Wire

/-- Encode a value, through its message. -/
def toBytes (w : Wire μ) (enc : α → Exit ε μ) (a : α) : Exit ε Bytes :=
  enc a >>= fun m => .ok (w.encode m)

/-- Decode a value, through its message; `e` is the error on bytes that are no message. -/
def fromBytes (w : Wire μ) (e : ε) (dec : μ → Exit ε α) (bytes : Bytes) : Exit ε α :=
  Exit.ofOption e (w.decode bytes) >>= dec

variable {w : Wire μ} {e : ε} {enc : α → Exit ε μ} {dec : μ → Exit ε α}

@[simp] theorem fromBytes_encode (m : μ) : w.fromBytes e dec (w.encode m) = dec m := by
  unfold fromBytes
  rw [w.decode_encode]
  rfl

/-- **A value survives the bytes exactly when it survives the message.** -/
theorem survives_bytes {a : α} :
    Survives (w.toBytes enc) (w.fromBytes e dec) a ↔ Survives enc dec a := by
  constructor
  · rintro ⟨bytes, henc, hdec⟩
    obtain ⟨m, hm, hbytes⟩ := Exit.bind_eq_ok.1 henc
    cases hbytes
    rw [fromBytes_encode] at hdec
    exact ⟨m, hm, hdec⟩
  · rintro ⟨m, henc, hdec⟩
    refine ⟨w.encode m, ?_, ?_⟩
    · unfold toBytes
      rw [henc]
      rfl
    · rw [fromBytes_encode]
      exact hdec

/-- Reading bytes panics exactly when they are a message and reading the message panics. -/
theorem fromBytes_eq_panic {bytes : Bytes} :
    w.fromBytes e dec bytes = .panic ↔ ∃ m, w.decode bytes = some m ∧ dec m = .panic := by
  unfold fromBytes
  simp only [Exit.bind_eq_panic, Exit.ofOption_ne_panic, Exit.ofOption_eq_ok, false_or]

instance : Countable UInt8 :=
  Function.Injective.countable (f := UInt8.toNat) fun _ _ => UInt8.toNat_inj.1

instance : Countable Char :=
  Function.Injective.countable (f := Char.toNat) fun _ _ => Char.toNat_inj.1

instance : Countable String :=
  Function.Injective.countable (f := String.toList) fun _ _ => String.toList_inj.1

/-- A wire format by counting: the message of number `n` is `n` zero bytes. -/
noncomputable def ofCountable (μ : Type) [Countable μ] : Wire μ where
  encode m := List.replicate ((Countable.exists_injective_nat μ).choose m) 0
  decode := Function.partialInv fun m =>
    List.replicate ((Countable.exists_injective_nat μ).choose m) 0
  decode_encode m := by
    refine Function.partialInv_left (fun a b hab => ?_) m
    have hlength := congrArg List.length hab
    rw [List.length_replicate, List.length_replicate] at hlength
    exact (Countable.exists_injective_nat μ).choose_spec hlength

end Wire

end Lib
