import Mathlib.Algebra.Order.Ring.Nat
import Mathlib.Data.Nat.Bitwise
import Mathlib.Order.Bounds.Defs

/-!
# Sets of numbers kept as a bitmap

A bitmap is an array of words of `w` bits; place `p` is bit `p % w` of word
`p / w`.  A program searches it for the nearest set place from a start `a` word
by word.  Only the first word has to be masked.

`Upward m a k bits` says that `bits` is what such a search still has to look at
in word `k`.  Each step of a search has its rule: the masked first word, the
next word, a word with a bit in it (where the lowest one is the answer), and a
word without.  `Downward` is the search in the other direction, with the
highest bit of a word.
-/

namespace NanoExchange
namespace Lib

/-- A bitmap in words of `w` bits. -/
abbrev Bitmap (w : Nat) := Nat → BitVec w

namespace Bitmap

variable {w : Nat}

/-- Place `p` is set. -/
def Has (m : Bitmap w) (p : Nat) : Prop :=
  (m (p / w)).getLsbD (p % w) = true

/-- Set the bit of place `p`. -/
def set (m : Bitmap w) (p : Nat) : Bitmap w :=
  Function.update m (p / w) (m (p / w) ||| 1#w <<< (p % w))

/-- Clear the bit of place `p`. -/
def clear (m : Bitmap w) (p : Nat) : Bitmap w :=
  Function.update m (p / w) (m (p / w) &&& ~~~(1#w <<< (p % w)))

theorem not_has_zero (p : Nat) : ¬ Has (fun _ => 0#w) p := by
  simp [Has]

/-- The bits of a word are the places of its block. -/
theorem has_word
    (m : Bitmap w) (k : Nat) {j : Nat} (hj : j < w) :
    m.Has (k * w + j) ↔ (m k).getLsbD j = true := by
  have hw : 0 < w := Nat.zero_lt_of_lt hj
  have hdiv : (k * w + j) / w = k := by
    rw [Nat.mul_comm, Nat.mul_add_div hw, Nat.div_eq_of_lt hj, Nat.add_zero]
  have hmod : (k * w + j) % w = j := by
    rw [Nat.mul_comm, Nat.mul_add_mod, Nat.mod_eq_of_lt hj]
  rw [Has, hdiv, hmod]

/-- Two places with the same word and the same bit are one place. -/
theorem eq_of_div_mod {p q : Nat} (hdiv : q / w = p / w)
    (hmod : q % w = p % w) :
    q = p := by
  rw [← Nat.div_add_mod q w, ← Nat.div_add_mod p w, hdiv, hmod]

theorem getLsbD_bit (hw : 0 < w) (p j : Nat) :
    (1#w <<< (p % w)).getLsbD j = decide (j = p % w) := by
  have hp : p % w < w := Nat.mod_lt p hw
  rw [BitVec.getLsbD_shiftLeft, BitVec.getLsbD_one]
  by_cases heq : j = p % w
  · simp [heq, hp, hw]
  · by_cases hlt : j < p % w
    · simp [heq, hlt]
    · have hne : j - p % w ≠ 0 := by omega
      simp [heq, hne]

theorem has_set (hw : 0 < w) (m : Bitmap w) (p q : Nat) :
    (m.set p).Has q ↔ q = p ∨ m.Has q := by
  unfold Has set
  by_cases hdiv : q / w = p / w
  · rw [hdiv, Function.update_self, BitVec.getLsbD_or,
      getLsbD_bit hw p, Bool.or_eq_true, decide_eq_true_eq,
      or_comm]
    constructor
    · rintro (hmod | hq)
      · exact Or.inl (eq_of_div_mod hdiv hmod)
      · exact Or.inr hq
    · rintro (rfl | hq)
      · exact Or.inl rfl
      · exact Or.inr hq
  · have hne : q ≠ p := fun e => hdiv (e ▸ rfl)
    rw [Function.update_of_ne hdiv]
    simp [hne]

theorem has_clear (hw : 0 < w) (m : Bitmap w) (p q : Nat) :
    (m.clear p).Has q ↔ q ≠ p ∧ m.Has q := by
  unfold Has clear
  by_cases hdiv : q / w = p / w
  · have hbit : (~~~(1#w <<< (p % w))).getLsbD (q % w) = true ↔
        q % w ≠ p % w := by
      rw [BitVec.getLsbD_not, getLsbD_bit hw p]
      simp [Nat.mod_lt q hw]
    rw [hdiv, Function.update_self, BitVec.getLsbD_and, Bool.and_eq_true, hbit,
      and_comm]
    constructor
    · rintro ⟨hmod, hq⟩
      exact ⟨fun e => hmod (e ▸ rfl), hq⟩
    · rintro ⟨hne, hq⟩
      exact ⟨fun hmod => hne (eq_of_div_mod hdiv hmod), hq⟩
  · have hne : q ≠ p := fun e => hdiv (e ▸ rfl)
    rw [Function.update_of_ne hdiv]
    simp [hne]

/-- A place of word `k` is at a bit of that word. -/
theorem exists_bit {k p : Nat} (hlo : k * w ≤ p) (hhi : p < (k + 1) * w) :
    ∃ j < w, p = k * w + j := by
  refine ⟨p - k * w, ?_, ?_⟩
  · rw [Nat.succ_mul] at hhi
    omega
  · omega

section Upward

variable {m : Bitmap w} {a k : Nat} {bits : BitVec w}

/-- What an upward search from `a` has to look at in word `k`. -/
def Upward (m : Bitmap w) (a k : Nat) (bits : BitVec w) : Prop :=
  ∀ j < w, bits.getLsbD j = true ↔ a ≤ k * w + j ∧ m.Has (k * w + j)

/-- The first word, without the bits below the start. -/
theorem Upward.first (m : Bitmap w) (a : Nat) :
    Upward m a (a / w) (m (a / w) &&& BitVec.allOnes w <<< (a % w)) := by
  intro j hj
  have hmask :
      (BitVec.allOnes w <<< (a % w)).getLsbD j = true ↔ a % w ≤ j := by
    have hin : j - a % w < w := by omega
    rw [BitVec.getLsbD_shiftLeft, BitVec.getLsbD_allOnes]
    simp [hj, hin]
  have hstart : a ≤ a / w * w + j ↔ a % w ≤ j := by
    have hsplit := Nat.div_add_mod' a w
    omega
  rw [BitVec.getLsbD_and, Bool.and_eq_true, hmask, has_word m _ hj, hstart,
    and_comm]

/-- Every later word is looked at whole. -/
theorem Upward.next (m : Bitmap w) (h : a / w < k) : Upward m a k (m k) := by
  intro j hj
  have hw : 0 < w := Nat.zero_lt_of_lt hj
  have hstart : a ≤ k * w + j := by
    have hlt : a < k * w := (Nat.div_lt_iff_lt_mul hw).mp h
    omega
  rw [has_word m k hj]
  simp [hstart]

/-- The lowest bit of the first word that has one. -/
theorem Upward.found
    (h : Upward m a k bits) (hbits : bits ≠ 0#w)
    (hbefore : ∀ p, a ≤ p → p < k * w → ¬ m.Has p) :
    IsLeast {p | a ≤ p ∧ m.Has p} (k * w + bits.ctz.toNat) := by
  have hset := BitVec.getLsbD_true_ctz_of_ne_zero hbits
  have hlt : bits.ctz.toNat < w := BitVec.lt_of_getLsbD hset
  refine ⟨(h _ hlt).mp hset, ?_⟩
  rintro p ⟨hap, hp⟩
  by_contra hbelow
  rw [not_le] at hbelow
  have hlo : k * w ≤ p := by
    by_contra hpk
    exact hbefore p hap (not_le.mp hpk) hp
  have hhi : p < (k + 1) * w := by
    rw [Nat.succ_mul]
    omega
  obtain ⟨j, hj, rfl⟩ := exists_bit hlo hhi
  have hclear := BitVec.getLsbD_false_of_lt_ctz
    (Nat.lt_of_add_lt_add_left hbelow)
  have hbit := (h j hj).mpr ⟨hap, hp⟩
  rw [hclear] at hbit
  exact Bool.false_ne_true hbit

/-- Past a word without a bit. -/
theorem Upward.empty
    (h : Upward m a k 0#w)
    (hbefore : ∀ p, a ≤ p → p < k * w → ¬ m.Has p) :
    ∀ p, a ≤ p → p < (k + 1) * w → ¬ m.Has p := by
  intro p hap hlt hp
  by_cases hpk : p < k * w
  · exact hbefore p hap hpk hp
  · obtain ⟨j, hj, rfl⟩ := exists_bit (not_lt.mp hpk) hlt
    have hbit := (h j hj).mpr ⟨hap, hp⟩
    simp at hbit

end Upward

section Downward

variable {m : Bitmap w} {a k : Nat} {bits : BitVec w}

/-- What a downward search from `a` has to look at in word `k`. -/
def Downward (m : Bitmap w) (a k : Nat) (bits : BitVec w) : Prop :=
  ∀ j < w, bits.getLsbD j = true ↔ k * w + j ≤ a ∧ m.Has (k * w + j)

/-- The mask of the bits up to and including bit `i`. -/
def lowMask (w i : Nat) : BitVec w :=
  if i = w - 1 then BitVec.allOnes w else (1#w <<< (i + 1)) - 1#w

theorem getLsbD_lowMask {i j : Nat} (hi : i < w) (hj : j < w) :
    (lowMask w i).getLsbD j = true ↔ j ≤ i := by
  unfold lowMask
  by_cases hlast : i = w - 1
  · rw [if_pos hlast, BitVec.getLsbD_allOnes]
    simp only [hj, decide_true, true_iff]
    omega
  · have hlt : i + 1 < w := by omega
    have hpow : 1#w <<< (i + 1) = BitVec.ofNat w (2 ^ (i + 1)) := by
      rw [← BitVec.twoPow_eq]
      exact BitVec.eq_of_toNat_eq (by
        rw [BitVec.toNat_twoPow, BitVec.toNat_ofNat])
    have hmask :
        (1#w <<< (i + 1)) - 1#w = BitVec.ofNat w (2 ^ (i + 1) - 1) := by
      rw [hpow]
      exact BitVec.ofNat_sub_ofNat_of_le _ _
        (Nat.one_lt_two_pow (by omega)) Nat.one_le_two_pow
    rw [if_neg hlast, hmask, BitVec.getLsbD_ofNat, Nat.testBit_two_pow_sub_one]
    simp only [hj, decide_true, Bool.true_and, decide_eq_true_eq]
    omega

/-- The first word, without the bits above the start. -/
theorem Downward.first (hw : 0 < w) (m : Bitmap w) (a : Nat) :
    Downward m a (a / w) (m (a / w) &&& lowMask w (a % w)) := by
  intro j hj
  have hstart : a / w * w + j ≤ a ↔ j ≤ a % w := by
    have hsplit := Nat.div_add_mod' a w
    omega
  rw [BitVec.getLsbD_and, Bool.and_eq_true,
    getLsbD_lowMask (Nat.mod_lt a hw) hj, has_word m _ hj, hstart, and_comm]

/-- Every earlier word is looked at whole. -/
theorem Downward.next (m : Bitmap w) (h : k < a / w) : Downward m a k (m k) := by
  intro j hj
  have hstart : k * w + j ≤ a := by
    have hle : (k + 1) * w ≤ a / w * w := Nat.mul_le_mul_right w h
    have hdiv := Nat.div_mul_le_self a w
    rw [Nat.succ_mul] at hle
    omega
  rw [has_word m k hj]
  simp [hstart]

/-- The highest bit of the first word that has one. -/
theorem Downward.found
    (hw : 0 < w) (h : Downward m a k bits) (hbits : bits ≠ 0#w)
    (hafter : ∀ p, p ≤ a → (k + 1) * w ≤ p → ¬ m.Has p) :
    IsGreatest {p | p ≤ a ∧ m.Has p} (k * w + (w - 1 - bits.clz.toNat)) := by
  have hset := BitVec.getLsbD_true_clz_of_ne_zero hw hbits
  have hlt : w - 1 - bits.clz.toNat < w := BitVec.lt_of_getLsbD hset
  refine ⟨(h _ hlt).mp hset, ?_⟩
  rintro p ⟨hpa, hp⟩
  by_contra habove
  rw [not_le] at habove
  have hhi : p < (k + 1) * w := by
    by_contra hpk
    exact hafter p hpa (not_lt.mp hpk) hp
  obtain ⟨j, hj, rfl⟩ := exists_bit (by omega) hhi
  have hclear : bits.getLsbD j = false := by
    have hle : 2 ^ (w - bits.clz.toNat) ≤ 2 ^ j :=
      Nat.pow_le_pow_right Nat.two_pos (by omega)
    exact Nat.testBit_lt_two_pow
      (lt_of_lt_of_le BitVec.toNat_lt_two_pow_sub_clz hle)
  have hbit := (h j hj).mpr ⟨hpa, hp⟩
  rw [hclear] at hbit
  exact Bool.false_ne_true hbit

/-- Past a word without a bit. -/
theorem Downward.empty
    (h : Downward m a k 0#w)
    (hafter : ∀ p, p ≤ a → (k + 1) * w ≤ p → ¬ m.Has p) :
    ∀ p, p ≤ a → k * w ≤ p → ¬ m.Has p := by
  intro p hpa hlo hp
  by_cases hpk : (k + 1) * w ≤ p
  · exact hafter p hpa hpk hp
  · obtain ⟨j, hj, rfl⟩ := exists_bit hlo (not_le.mp hpk)
    have hbit := (h j hj).mpr ⟨hpa, hp⟩
    simp at hbit

end Downward

end Bitmap
end Lib
end NanoExchange
