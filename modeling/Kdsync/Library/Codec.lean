import Mathlib.Data.Finset.Sort
import Mathlib.Data.UInt

/-!
# Codecs that consume their own bytes

A `Codec α` writes values as bytes and reads one value back from the front of a byte string,
leaving the rest. The round trip is a field of the structure, so codecs compose: pairs
(`Codec.prod`), a type rebuilt from its fields (`Codec.ofFields`), lists (`Codec.list`) and finite
sets (`Codec.finset`), over integers in a fixed number of little-endian bytes
(`Codec.littleEndian`).
-/

/-- A byte format for `α` with its round trip. -/
structure Codec (α : Type) where
  encode : α → List UInt8
  decode : List UInt8 → Option (α × List UInt8)
  decode_encode : ∀ a rest, decode (encode a ++ rest) = some (a, rest)

namespace Codec

variable {α β : Type}

/-- Two values, one after the other. -/
def prod (c : Codec α) (d : Codec β) : Codec (α × β) where
  encode x := c.encode x.1 ++ d.encode x.2
  decode bytes := (c.decode bytes).bind fun x => (d.decode x.2).map fun y => ((x.1, y.1), y.2)
  decode_encode x rest := by simp [List.append_assoc, c.decode_encode, d.decode_encode]

/-- A type that is rebuilt from its fields. -/
def ofFields (c : Codec α) (fields : β → α) (build : α → β)
    (h : ∀ b, build (fields b) = b) : Codec β where
  encode b := c.encode (fields b)
  decode bytes := (c.decode bytes).map fun x => (build x.1, x.2)
  decode_encode b rest := by simp [c.decode_encode, h]

/-! ### Integers -/

/-- The `width` low bytes of a number, the lowest first. -/
def digits : ℕ → ℕ → List UInt8
  | 0, _ => []
  | width + 1, n => UInt8.ofNat n :: digits width (n / 256)

/-- Reads `width` bytes as a number. -/
def ofDigits : ℕ → List UInt8 → Option (ℕ × List UInt8)
  | 0, bytes => some (0, bytes)
  | _ + 1, [] => none
  | width + 1, b :: bytes => (ofDigits width bytes).map fun x => (b.toNat + 256 * x.1, x.2)

theorem ofDigits_digits (width n : ℕ) (rest : List UInt8) :
    ofDigits width (digits width n ++ rest) = some (n % 256 ^ width, rest) := by
  induction width generalizing n with
  | zero => simp [digits, ofDigits, Nat.mod_one]
  | succ width ih =>
    have hmod : n % 256 ^ (width + 1) = n % 256 + 256 * (n / 256 % 256 ^ width) := by
      rw [pow_succ', Nat.mod_mul]
    simp [digits, ofDigits, ih, hmod]

/-- A type of numbers below `256 ^ width` in `width` bytes. -/
def littleEndian (width : ℕ) (toNat : α → ℕ) (ofNat : ℕ → α)
    (h : ∀ a, ofNat (toNat a % 256 ^ width) = a) : Codec α where
  encode a := digits width (toNat a)
  decode bytes := (ofDigits width bytes).map fun x => (ofNat x.1, x.2)
  decode_encode a rest := by simp [ofDigits_digits, h]

/-- An unsigned byte is itself. -/
def byte : Codec UInt8 :=
  littleEndian 1 UInt8.toNat UInt8.ofNat fun a => by
    rw [Nat.mod_eq_of_lt (by simpa using a.toNat_lt)]
    exact UInt8.ofNat_toNat

/-! ### Lists and finite sets -/

/-- Each entry behind a one, and a zero at the end. -/
def encodeList (c : Codec α) : List α → List UInt8
  | [] => [0]
  | a :: l => 1 :: (c.encode a ++ encodeList c l)

/-- Reads entries up to the closing zero; the first argument bounds their number. -/
def decodeList (c : Codec α) : ℕ → List UInt8 → Option (List α × List UInt8)
  | 0, _ => none
  | _ + 1, [] => none
  | bound + 1, b :: bytes =>
    if b = 0 then some ([], bytes)
    else (c.decode bytes).bind fun x => (decodeList c bound x.2).map fun y => (x.1 :: y.1, y.2)

theorem length_lt_length_encodeList (c : Codec α) (l : List α) :
    l.length < (encodeList c l).length := by
  induction l with
  | nil => simp [encodeList]
  | cons a l ih =>
    simp only [encodeList, List.length_cons, List.length_append]
    omega

theorem decodeList_encodeList (c : Codec α) (l : List α) (rest : List UInt8) {bound : ℕ}
    (h : l.length < bound) : decodeList c bound (encodeList c l ++ rest) = some (l, rest) := by
  induction l generalizing bound with
  | nil =>
    obtain ⟨bound, rfl⟩ := Nat.exists_eq_add_one_of_ne_zero (by simp at h; omega : bound ≠ 0)
    simp [encodeList, decodeList]
  | cons a l ih =>
    obtain ⟨bound, rfl⟩ := Nat.exists_eq_add_one_of_ne_zero (by simp at h; omega : bound ≠ 0)
    simp [encodeList, decodeList, List.append_assoc, c.decode_encode, ih (by simpa using h)]

/-- A list of any length. -/
def list (c : Codec α) : Codec (List α) where
  encode := encodeList c
  decode bytes := decodeList c bytes.length bytes
  decode_encode l rest := by
    refine decodeList_encodeList c l rest ?_
    have := length_lt_length_encodeList c l
    simp only [List.length_append]
    omega

/-- A finite set of numbers, in increasing order. -/
def finset [DecidableEq α] (c : Codec α) (toNat : α → ℕ) (h : Function.Injective toNat) :
    Codec (Finset α) :=
  haveI : IsTrans α (toNat · ≤ toNat ·) := ⟨fun _ _ _ => Nat.le_trans⟩
  haveI : Std.Antisymm (α := α) (toNat · ≤ toNat ·) := ⟨fun _ _ h₁ h₂ => h (Nat.le_antisymm h₁ h₂)⟩
  haveI : Std.Total (α := α) (toNat · ≤ toNat ·) := ⟨fun a b => Nat.le_total (toNat a) (toNat b)⟩
  c.list.ofFields (fun s => s.sort (toNat · ≤ toNat ·)) List.toFinset fun s => s.sort_toFinset _

end Codec
