import Mathlib.Algebra.Order.Ring.Nat
import Mathlib.Data.Nat.Basic
import Mathlib.Data.List.Induction

/-!
# Big-endian numbers

A multi-byte integer on the wire is the list of its bytes, most significant
first.  `ofBigEndian` reads such a list, `toBigEndian w` writes a number into
`w` bytes and drops what does not fit.  `readWord w` takes a number of `w`
bytes off the front of some bytes.
-/

namespace NanoExchange
namespace Lib

/-- The number with the given bytes, most significant first. -/
def ofBigEndian (l : List UInt8) : Nat :=
  l.foldl (fun n b => 256 * n + b.toNat) 0

/-- The lowest `w` bytes of a number, most significant first. -/
def toBigEndian : Nat → Nat → List UInt8
  | 0, _ => []
  | w + 1, n => toBigEndian w (n / 256) ++ [UInt8.ofNat (n % 256)]

@[simp] theorem length_toBigEndian (w n : Nat) :
    (toBigEndian w n).length = w := by
  induction w generalizing n with
  | zero => rfl
  | succ w ih => simp [toBigEndian, ih]

theorem ofBigEndian_concat (l : List UInt8) (b : UInt8) :
    ofBigEndian (l ++ [b]) = 256 * ofBigEndian l + b.toNat := by
  simp [ofBigEndian]

/-- Reading back what was written. -/
theorem ofBigEndian_toBigEndian (w n : Nat) :
    ofBigEndian (toBigEndian w n) = n % 256 ^ w := by
  induction w generalizing n with
  | zero => rw [Nat.pow_zero, Nat.mod_one]; rfl
  | succ w ih =>
      have hbyte : (UInt8.ofNat (n % 256)).toNat = n % 256 :=
        UInt8.toNat_ofNat_of_lt' (Nat.mod_lt _ (by decide))
      rw [toBigEndian, ofBigEndian_concat, ih, hbyte, Nat.pow_succ',
        Nat.mod_mul]
      omega

/-- The value of some bytes fits into as many bytes. -/
theorem ofBigEndian_lt (l : List UInt8) : ofBigEndian l < 256 ^ l.length := by
  induction l using List.reverseRecOn with
  | nil => exact Nat.one_pos
  | append_singleton l b ih =>
      have hb : b.toNat < 256 := b.toNat_lt
      rw [ofBigEndian_concat, List.length_append, List.length_singleton,
        Nat.pow_succ']
      omega

/-- Writing back what was read. -/
theorem toBigEndian_ofBigEndian (l : List UInt8) :
    toBigEndian l.length (ofBigEndian l) = l := by
  induction l using List.reverseRecOn with
  | nil => rfl
  | append_singleton l b ih =>
      have hb : b.toNat < 256 := b.toNat_lt
      have hhigh : (256 * ofBigEndian l + b.toNat) / 256 = ofBigEndian l := by
        omega
      have hlow : (256 * ofBigEndian l + b.toNat) % 256 = b.toNat := by
        omega
      rw [ofBigEndian_concat, List.length_append, List.length_singleton,
        toBigEndian, hhigh, hlow, ih, UInt8.ofNat_toNat]

/-- The number in the first `w` bytes, and the bytes behind it. -/
def readWord (w : Nat) (data : List UInt8) : Option (Nat × List UInt8) :=
  if w ≤ data.length then some (ofBigEndian (data.take w), data.drop w)
  else none

theorem readWord_toBigEndian
    (w : Nat) {n : Nat} (h : n < 2 ^ (8 * w)) (rest : List UInt8) :
    readWord w (toBigEndian w n ++ rest) = some (n, rest) := by
  have hlen := length_toBigEndian w n
  have hmod : n % 256 ^ w = n := by
    rw [Nat.pow_mul] at h
    exact Nat.mod_eq_of_lt h
  rw [readWord, if_pos (by rw [List.length_append, hlen]; omega),
    List.take_left' hlen, List.drop_left' hlen, ofBigEndian_toBigEndian,
    hmod]

theorem readWord_last (w : Nat) {n : Nat} (h : n < 2 ^ (8 * w)) :
    readWord w (toBigEndian w n) = some (n, []) := by
  have hread := readWord_toBigEndian w h []
  rwa [List.append_nil] at hread

theorem readWord_one (b : UInt8) (rest : List UInt8) :
    readWord 1 (b :: rest) = some (b.toNat, rest) := by
  simp [readWord, ofBigEndian]

/-- The bytes of a field of a message. -/
def field (message : List UInt8) (offset width : Nat) : List UInt8 :=
  (message.drop offset).take width

theorem length_field
    {message : List UInt8} {offset width : Nat}
    (h : offset + width ≤ message.length) :
    (field message offset width).length = width := by
  rw [field, List.length_take, List.length_drop]
  omega

/-- A field of a message that holds `width` bytes of a number is written back
as it was. -/
theorem toBigEndian_field
    {message : List UInt8} {offset width : Nat}
    (h : offset + width ≤ message.length) :
    toBigEndian width (ofBigEndian (field message offset width)) =
      field message offset width := by
  have hback := toBigEndian_ofBigEndian (field message offset width)
  rwa [length_field h] at hback

end Lib
end NanoExchange
