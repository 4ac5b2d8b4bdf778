/-
**Big-endian bytes of fixed-width numbers.**

A fixed-size byte array is a bit vector of `8 * n` bits, the first byte the most significant one.

* **`ofBytesBE_bytesBE`**, **`bytesBE_ofBytesBE`** — the two are inverse on lists of `n` bytes.
-/

import Mathlib.Data.Nat.Digits.Lemmas
import Mathlib.Tactic.Ring

namespace Subduction

open List

/-- The bytes of a big-endian number of `n` bytes. -/
def bytesBE (n : Nat) (number : BitVec (8 * n)) : List UInt8 :=
  (List.range n).map fun i => UInt8.ofBitVec (number.extractLsb' (8 * (n - 1 - i)) 8)

/-- The number with the given bytes, the first one the most significant. -/
def natOfBytes (bytes : List UInt8) : Nat :=
  bytes.foldl (fun number byte => number * 256 + byte.toNat) 0

/-- The number of `n` bytes with the given bytes. -/
def ofBytesBE (n : Nat) (bytes : List UInt8) : BitVec (8 * n) := BitVec.ofNat (8 * n) (natOfBytes bytes)

@[simp] theorem length_bytesBE (n : Nat) (number : BitVec (8 * n)) : (bytesBE n number).length = n := by
  simp [bytesBE]

theorem natOfBytes_append (front back : List UInt8) :
    natOfBytes (front ++ back) = natOfBytes front * 256 ^ back.length + natOfBytes back := by
  unfold natOfBytes
  rw [foldl_append]
  generalize front.foldl (fun number byte => number * 256 + byte.toNat) 0 = start
  induction back generalizing start with
  | nil => simp
  | cons byte back ih =>
    rw [foldl_cons, foldl_cons, ih, ih (0 * 256 + byte.toNat), length_cons, pow_succ]
    ring

theorem natOfBytes_lt (bytes : List UInt8) : natOfBytes bytes < 256 ^ bytes.length := by
  induction bytes using List.reverseRecOn with
  | nil => simp [natOfBytes]
  | append_singleton front byte ih =>
    rw [natOfBytes_append]
    have small := byte.toNat_lt
    simp only [natOfBytes, foldl_cons, foldl_nil, length_append, length_cons,
      length_nil, pow_succ] at ih ⊢
    omega

theorem two_pow_eight_mul (n : Nat) : (2 : Nat) ^ (8 * n) = 256 ^ n :=
  pow_mul 2 8 n

theorem toNat_byte {n : Nat} (number : BitVec (8 * n)) (i : Nat) :
    (UInt8.ofBitVec (number.extractLsb' (8 * (n - 1 - i)) 8)).toNat =
      number.toNat / 256 ^ (n - 1 - i) % 256 := by
  simp [BitVec.extractLsb'_toNat, Nat.shiftRight_eq_div_pow, two_pow_eight_mul]

theorem natOfBytes_digits (n : Nat) (value : Nat) :
    natOfBytes ((List.range n).map fun i => UInt8.ofNat (value / 256 ^ (n - 1 - i))) =
      value % 256 ^ n := by
  induction n generalizing value with
  | zero => simp [natOfBytes, Nat.mod_one]
  | succ n ih =>
    have front : (List.range n).map (fun i => UInt8.ofNat (value / 256 ^ (n + 1 - 1 - i))) =
        (List.range n).map fun i => UInt8.ofNat (value / 256 / 256 ^ (n - 1 - i)) := by
      refine map_congr_left fun i member => ?_
      have small := mem_range.mp member
      have exponent : n + 1 - 1 - i = n - 1 - i + 1 := by omega
      rw [exponent, pow_succ', Nat.div_div_eq_div_mul]
    rw [range_succ, map_append, natOfBytes_append, front, ih]
    simp only [natOfBytes, map_cons, map_nil, foldl_cons, foldl_nil,
      length_cons, length_nil, zero_mul, zero_add, pow_one, Nat.add_sub_cancel,
      Nat.sub_self, pow_zero, Nat.div_one, UInt8.toNat_ofNat']
    rw [pow_succ' 256 n, Nat.mod_mul (a := 256) (b := 256 ^ n), mul_comm, add_comm]

@[simp] theorem ofBytesBE_bytesBE (n : Nat) (number : BitVec (8 * n)) :
    ofBytesBE n (bytesBE n number) = number := by
  have bytes : bytesBE n number =
      (List.range n).map fun i => UInt8.ofNat (number.toNat / 256 ^ (n - 1 - i)) := by
    refine map_congr_left fun i _ => UInt8.toNat_inj.mp ?_
    rw [toNat_byte, UInt8.toNat_ofNat']
  apply BitVec.eq_of_toNat_eq
  unfold ofBytesBE
  rw [BitVec.toNat_ofNat, bytes, natOfBytes_digits, two_pow_eight_mul, Nat.mod_mod, ← two_pow_eight_mul,
    Nat.mod_eq_of_lt number.isLt]

theorem bytesBE_injective (n : Nat) : Function.Injective (bytesBE n) :=
  Function.LeftInverse.injective (ofBytesBE_bytesBE n)

theorem natOfBytes_inj {first second : List UInt8} (length : first.length = second.length)
    (same : natOfBytes first = natOfBytes second) : first = second := by
  induction first using List.reverseRecOn generalizing second with
  | nil => exact (length_eq_zero_iff.mp length.symm).symm
  | append_singleton front byte ih =>
    obtain ⟨front', byte', rfl⟩ : ∃ front' byte', second = front' ++ [byte'] := by
      refine ⟨second.dropLast, second.getLast ?_, (dropLast_append_getLast _).symm⟩
      rintro rfl
      simp at length
    rw [natOfBytes_append, natOfBytes_append] at same
    have small := byte.toNat_lt
    have small' := byte'.toNat_lt
    simp only [natOfBytes, foldl_cons, foldl_nil, length_cons, length_nil,
      zero_mul, zero_add, pow_one] at same ih
    have lastSame : byte = byte' := UInt8.toNat_inj.mp (by omega)
    rw [ih (by simpa using length) (by omega), lastSame]

theorem bytesBE_ofBytesBE {n : Nat} {bytes : List UInt8} (length : bytes.length = n) :
    bytesBE n (ofBytesBE n bytes) = bytes := by
  have value : ∀ list : List UInt8, list.length = n → (ofBytesBE n list).toNat = natOfBytes list := by
    intro list size
    unfold ofBytesBE
    rw [BitVec.toNat_ofNat, two_pow_eight_mul, Nat.mod_eq_of_lt (size ▸ natOfBytes_lt list)]
  apply natOfBytes_inj (by rw [length_bytesBE, length])
  rw [← value _ (length_bytesBE n _), ofBytesBE_bytesBE, value _ length]

end Subduction
