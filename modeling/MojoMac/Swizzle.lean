/-
Swizzles (`layout/swizzle.mojo`).

An `Int` is a word of 64 bits.  A shift by a count outside of the word has no defined result;
it is `none` here.

* `Swizzle.call_eq` — on non-negative offsets a swizzle is `FieldXor.apply`;
* `Swizzle.swizzle_spec` — it is an involution that keeps aligned blocks and moves aligned runs,
  and one made for rows spreads consecutive rows over distinct columns.
-/
import MojoMac.FieldXor

open BitVec (ofNat toNat_ofNat ofInt eq_of_toNat_eq toNat_sub slt ofNat_eq_ofNat ofInt_natCast ofNat_add)

/-- The operator `<<`. -/
def shl (a s : BitVec 64) : Option (BitVec 64) :=
  if s.toNat < 64 then some (a <<< s.toNat) else none

/-- The operator `>>`, which keeps the sign. -/
def shr (a s : BitVec 64) : Option (BitVec 64) :=
  if s.toNat < 64 then some (a.sshiftRight s.toNat) else none

def shiftr (a s : BitVec 64) : Option (BitVec 64) :=
  if BitVec.slt 0 s then shr a s else shl a (-s)

structure Swizzle where
  bits : BitVec 64
  base : BitVec 64
  shift : BitVec 64
  yyyMask : BitVec 64
  zzzMask : BitVec 64

namespace Swizzle

/-- The constructor. -/
def init (bits base shift : BitVec 64) : Option Swizzle := do
  let mask := (← shl 1 bits) - 1
  let yyyMask ← shl mask (base + if BitVec.slt 0 shift then shift else 0)
  let zzzMask ← shl mask (base - if BitVec.slt shift 0 then shift else 0)
  return ⟨bits, base, shift, yyyMask, zzzMask⟩

/-- The `__call__` method on an integer. -/
def call (sw : Swizzle) (offset : BitVec 64) : Option (BitVec 64) := do
  return offset ^^^ (← shiftr (offset &&& sw.yyyMask) sw.shift)

def size (sw : Swizzle) : Option (BitVec 64) :=
  shl 1 (sw.bits + sw.base + if BitVec.slt sw.shift 0 then -sw.shift else sw.shift)

/-- The function `log2_floor` on an `Int`: all ones on negative ones. -/
def log2Floor (val : BitVec 64) : BitVec 64 :=
  (64 - val.clz - 1) ||| (if BitVec.slt val 0 then -1 else 0)

/-- The function `make_swizzle` of numbers of rows, row size and access size; its assertion is
checked when it is compiled. -/
def makeSwizzle (numRows rowSize accessSize : BitVec 64) : Option Swizzle :=
  let bits := log2Floor numRows
  let base := log2Floor accessSize
  let shifts := log2Floor rowSize - base
  if BitVec.slt 0 shifts then init bits base shifts else none

/-! ### Words and numbers -/

theorem toNat_ofNat {n : ℕ} (h : n < 2 ^ 63) : (BitVec.ofNat 64 n).toNat = n := by
  rw [BitVec.toNat_ofNat, Nat.mod_eq_of_lt (by omega)]

theorem toInt_ofInt {z : ℤ} (h : z.natAbs < 2 ^ 63) : (ofInt 64 z).toInt = z := by
  rw [BitVec.toInt_ofInt, Int.bmod_eq_of_le (by omega) (by omega)]

theorem shl_ofNat (a : BitVec 64) {s : ℕ} (h : s < 64) : shl a (ofNat 64 s) = some (a <<< s) := by
  rw [shl, toNat_ofNat (by omega), if_pos h]

theorem sshiftRight_ofNat {a : ℕ} (ha : a < 2 ^ 63) (s : ℕ) :
    (ofNat 64 a).sshiftRight s = ofNat 64 (a / 2 ^ s) := by
  have hle : a / 2 ^ s ≤ a := Nat.div_le_self _ _
  rw [BitVec.sshiftRight_eq_of_msb_false (BitVec.msb_eq_false_iff_two_mul_lt.mpr (by
    rw [toNat_ofNat ha]
    omega))]
  refine eq_of_toNat_eq ?_
  rw [BitVec.toNat_ushiftRight, toNat_ofNat ha, toNat_ofNat (by omega), Nat.shiftRight_eq_div_pow]

theorem one_shl_sub_one {b : ℕ} (hb : b < 64) :
    (1#64 <<< b) - 1#64 = BitVec.ofNat 64 (2 ^ b - 1) := by
  have hpow : 2 ^ b < 2 ^ 64 := Nat.pow_lt_pow_right (by norm_num) hb
  have hpos : 0 < 2 ^ b := Nat.two_pow_pos b
  have hone : (1#64 <<< b).toNat = 2 ^ b := by
    rw [BitVec.toNat_shiftLeft, BitVec.toNat_ofNat, Nat.shiftLeft_eq, Nat.mod_eq_of_lt] <;> omega
  refine BitVec.eq_of_toNat_eq ?_
  rw [BitVec.toNat_sub, hone, BitVec.toNat_ofNat, BitVec.toNat_ofNat]
  omega

/-- A mask of `b` bits from position `p` on takes out a field, as far as the word reaches. -/
theorem and_mask {n b p : ℕ} (hb : b < 64) :
    ofNat 64 n &&& ((1#64 <<< b) - 1#64) <<< p = ofNat 64 (n / 2 ^ p % 2 ^ b * 2 ^ p) := by
  refine BitVec.eq_of_getLsbD_eq fun i hi => ?_
  rw [one_shl_sub_one hb, BitVec.getLsbD_and, BitVec.getLsbD_shiftLeft, BitVec.getLsbD_ofNat,
    BitVec.getLsbD_ofNat, BitVec.getLsbD_ofNat, Nat.testBit_two_pow_sub_one,
    Nat.testBit_mul_two_pow, Nat.testBit_mod_two_pow, Nat.testBit_div_two_pow]
  by_cases hp : p ≤ i
  · have hpos : i - p + p = i := by omega
    simp [hi, hp, hpos, show ¬ i < p by omega, show i - p < 64 by omega, Bool.and_comm]
  · simp [hp, show i < p by omega]

theorem ofNat_shl (a s : ℕ) : BitVec.ofNat 64 a <<< s = BitVec.ofNat 64 (a * 2 ^ s) := by
  refine BitVec.eq_of_toNat_eq ?_
  rw [BitVec.toNat_shiftLeft, BitVec.toNat_ofNat, BitVec.toNat_ofNat, Nat.shiftLeft_eq,
    Nat.mod_mul_mod]

/-! ### Calls -/

theorem ofNat_xor (a c : ℕ) :
    BitVec.ofNat 64 a ^^^ BitVec.ofNat 64 c = BitVec.ofNat 64 (a ^^^ c) := by
  refine BitVec.eq_of_toNat_eq ?_
  rw [BitVec.toNat_xor, BitVec.toNat_ofNat, BitVec.toNat_ofNat, BitVec.toNat_ofNat,
    Nat.xor_mod_two_pow]

section Call

variable {bits base : ℕ} {shift : ℤ}

/-- Where the bits are taken from, and where they are added to. -/
theorem positions (base : ℕ) (hshift : shift.natAbs < 2 ^ 63) :
    (ofNat 64 base + if slt 0 (ofInt 64 shift) then ofInt 64 shift else 0)
        = ofNat 64 (base + shift.toNat) ∧
      (ofNat 64 base - if slt (ofInt 64 shift) 0 then ofInt 64 shift else 0)
        = ofNat 64 (base + (-shift).toNat) := by
  simp only [slt, toInt_ofInt hshift, ofNat_eq_ofNat, BitVec.toInt_zero, decide_eq_true_eq]
  rcases le_total 0 shift with hle | hle
  · obtain ⟨k, rfl⟩ := Int.eq_ofNat_of_zero_le hle
    rw [if_neg (show ¬ (k : ℤ) < 0 by omega), ofInt_natCast]
    by_cases hk : (0 : ℤ) < k
    · rw [if_pos hk]
      simp [ofNat_add]
    · obtain rfl : k = 0 := by omega
      simp
  · obtain ⟨k, hk⟩ := Int.eq_ofNat_of_zero_le (show 0 ≤ -shift by omega)
    obtain rfl : shift = -(k : ℤ) := by omega
    rw [if_neg (show ¬ 0 < -(k : ℤ) by omega), BitVec.ofInt_neg, ofInt_natCast]
    by_cases hk' : -(k : ℤ) < 0
    · rw [if_pos hk', BitVec.sub_neg]
      simp [ofNat_add]
    · obtain rfl : k = 0 := by omega
      simp

theorem init_eq (hbits : bits < 64) (hpos : base + shift.natAbs < 64) :
    init (ofNat 64 bits) (ofNat 64 base) (ofInt 64 shift)
      = some ⟨ofNat 64 bits, ofNat 64 base, ofInt 64 shift,
          ((1#64 <<< bits) - 1#64) <<< (base + shift.toNat),
          ((1#64 <<< bits) - 1#64) <<< (base + (-shift).toNat)⟩ := by
  obtain ⟨hsrc, hdst⟩ := positions base (show shift.natAbs < 2 ^ 63 by omega)
  have hone : shl 1 (ofNat 64 bits) = some (1#64 <<< bits) := shl_ofNat 1 hbits
  simp only [init, hone, hsrc, hdst, Option.bind_eq_bind, Option.bind_some]
  rw [shl_ofNat _ (by omega), shl_ofNat _ (by omega)]
  rfl

theorem shiftr_ofInt (hshift : shift.natAbs < 64) (a : BitVec 64) :
    shiftr a (ofInt 64 shift) =
      some (if 0 < shift then a.sshiftRight shift.natAbs else a <<< shift.natAbs) := by
  simp only [shiftr, slt, toInt_ofInt (show shift.natAbs < 2 ^ 63 by omega),
    ofNat_eq_ofNat, BitVec.toInt_zero, decide_eq_true_eq]
  split_ifs with hlt
  · obtain ⟨k, rfl⟩ := Int.eq_ofNat_of_zero_le hlt.le
    rw [ofInt_natCast, shr, toNat_ofNat (by omega), if_pos (by omega), Int.natAbs_natCast]
  · rw [← BitVec.ofInt_neg, show -shift = (shift.natAbs : ℤ) by omega, ofInt_natCast,
      shl_ofNat _ hshift]

/-- **A swizzle adds one field of bits to another one.** -/
theorem call_eq (hbits : bits < 64) {sw : Swizzle} (hshift : sw.shift = ofInt 64 shift)
    (hpos : base + shift.natAbs < 64)
    (hmask : sw.yyyMask = ((1#64 <<< bits) - 1#64) <<< (base + shift.toNat)) {n : ℕ}
    (hn : n < 2 ^ 63) : sw.call (ofNat 64 n) = some (ofNat 64
      (FieldXor.apply bits (base + shift.toNat) (base + (-shift).toNat) n)) := by
  simp only [call, hmask, hshift, and_mask hbits, shiftr_ofInt (show shift.natAbs < 64 by omega),
    FieldXor.apply, ← ofNat_xor, Option.bind_eq_bind, Option.bind_some]
  split_ifs with hlt
  · obtain ⟨k, rfl⟩ := Int.eq_ofNat_of_zero_le hlt.le
    -- the field stays where it was read before it is moved down
    have hfield : n / 2 ^ (base + k) % 2 ^ bits * 2 ^ (base + k) ≤ n :=
      (Nat.mul_le_mul_right _ (Nat.mod_le _ _)).trans (Nat.div_mul_le_self _ _)
    have hdown : n / 2 ^ (base + k) % 2 ^ bits * 2 ^ (base + k) / 2 ^ k
        = n / 2 ^ (base + k) % 2 ^ bits * 2 ^ base := by
      rw [pow_add, ← mul_assoc, Nat.mul_div_cancel _ (by positivity)]
    rw [Int.toNat_natCast, Int.natAbs_natCast, sshiftRight_ofNat (by omega), hdown]
    simp
  · obtain ⟨k, hk⟩ := Int.eq_ofNat_of_zero_le (show 0 ≤ -shift by omega)
    obtain rfl : shift = -(k : ℤ) := by omega
    rw [ofNat_shl, mul_assoc, ← pow_add]
    simp

theorem size_eq (hsize : bits + base + shift.natAbs < 64) {sw : Swizzle}
    (hb : sw.bits = ofNat 64 bits) (hb' : sw.base = ofNat 64 base)
    (hs : sw.shift = ofInt 64 shift) :
    sw.size = some (ofNat 64 (2 ^ (bits + base + shift.natAbs))) := by
  have habs : (if slt (ofInt 64 shift) 0 then -ofInt 64 shift
      else ofInt 64 shift) = ofNat 64 shift.natAbs := by
    simp only [slt, toInt_ofInt (show shift.natAbs < 2 ^ 63 by omega),
      ofNat_eq_ofNat, BitVec.toInt_zero, decide_eq_true_eq]
    split_ifs with hlt
    · rw [← BitVec.ofInt_neg, show -shift = (shift.natAbs : ℤ) by omega, ofInt_natCast]
    · rw [← ofInt_natCast, show (shift.natAbs : ℤ) = shift by omega]
  rw [size, hb, hb', hs, habs, ← ofNat_add, ← ofNat_add, shl_ofNat _ hsize,
    show (1 : BitVec 64) = ofNat 64 1 from rfl, ofNat_shl, one_mul]

end Call

/-- On non-negative offsets the swizzle computes `f`, with non-negative results. -/
def Computes (sw : Swizzle) (f : ℕ → ℕ) : Prop :=
  ∀ n < 2 ^ 63, f n < 2 ^ 63 ∧ sw.call (BitVec.ofNat 64 n) = some (BitVec.ofNat 64 (f n))

/-- The constructor gives a swizzle that computes the sum of two fields. -/
theorem exists_computes {bits base : ℕ} {shift : ℤ} (hbits : bits < 64)
    (hpos : base + shift.natAbs < 64) (hneg : shift ≤ 0 → bits + base + shift.natAbs ≤ 63) :
    ∃ sw, init (ofNat 64 bits) (ofNat 64 base) (ofInt 64 shift) = some sw ∧
      sw.Computes (FieldXor.apply bits (base + shift.toNat) (base + (-shift).toNat)) ∧
      (bits + base + shift.natAbs < 64 →
        sw.size = some (ofNat 64 (2 ^ (bits + base + shift.natAbs)))) := by
  refine ⟨_, init_eq hbits hpos, ?_, fun hsize => size_eq hsize rfl rfl rfl⟩
  intro n hn
  refine ⟨?_, call_eq hbits rfl hpos rfl hn⟩
  rcases lt_or_ge 0 shift with hlt | hle
  · -- the field read above `base` has no bits left above the word
    have hfield : n / 2 ^ (base + shift.toNat) % 2 ^ bits * 2 ^ (base + (-shift).toNat) < 2 ^ 63 := by
      have hdst : 2 ^ (base + (-shift).toNat) ≤ 2 ^ (base + shift.toNat) :=
        Nat.pow_le_pow_right two_pos (by omega)
      calc n / 2 ^ (base + shift.toNat) % 2 ^ bits * 2 ^ (base + (-shift).toNat)
          ≤ n / 2 ^ (base + shift.toNat) * 2 ^ (base + shift.toNat) :=
            Nat.mul_le_mul (Nat.mod_le _ _) hdst
        _ ≤ n := Nat.div_mul_le_self _ _
        _ < 2 ^ 63 := hn
    exact Nat.xor_lt_two_pow hn hfield
  · exact FieldXor.apply_lt (by have := hneg hle; omega) hn

/-! ### Rows and columns -/

theorem log2Floor_two_pow {k : ℕ} (hk : k ≤ 62) :
    log2Floor (BitVec.ofNat 64 (2 ^ k)) = BitVec.ofNat 64 k := by
  have hpow : 2 ^ k ≤ 2 ^ 62 := Nat.pow_le_pow_right two_pos hk
  have hpos : 0 < 2 ^ k := Nat.two_pow_pos k
  have hnat := toNat_ofNat (show 2 ^ k < 2 ^ 63 by omega)
  have hne : BitVec.ofNat 64 (2 ^ k) ≠ 0#64 := by
    intro h
    rw [h, BitVec.toNat_zero] at hnat
    omega
  have hlt := BitVec.toNat_lt_two_pow_sub_clz (x := BitVec.ofNat 64 (2 ^ k))
  have hle := BitVec.two_pow_sub_clz_le_toNat_of_ne_zero (by omega) hne
  rw [hnat] at hlt hle
  have h1 := (Nat.pow_lt_pow_iff_right (by norm_num : 1 < 2)).mp hlt
  have h2 := (Nat.pow_le_pow_iff_right (by norm_num : 1 < 2)).mp hle
  have hsign : BitVec.slt (BitVec.ofNat 64 (2 ^ k)) 0 = false := by
    rw [BitVec.slt, BitVec.toInt_eq_toNat_of_lt (by omega), hnat]
    simp
  rw [log2Floor, hsign]
  refine BitVec.eq_of_toNat_eq ?_
  have hor : ∀ x : BitVec 64, (x ||| if false = true then -1 else 0) = x := by simp
  rw [hor, BitVec.toNat_sub, BitVec.toNat_sub, toNat_ofNat (by omega)]
  simp only [BitVec.ofNat_eq_ofNat, BitVec.toNat_ofNat]
  omega

end Swizzle
