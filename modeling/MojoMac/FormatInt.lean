/-
Writing integers (`builtin/format_int.mojo`).

`_write_int` fills a buffer from its end with the digits of a scalar of any
integral type.  It divides in the type of the value: for negative values by
`%` and `__ceildiv__`, so that the most negative value needs no negation.  The
radix is converted to that type first, which goes wrong in the types that
cannot hold it.

* `processDigits_eq` — the digit loop writes the numeral of the magnitude;
* `writeInt_of_fits` — the text is the numeral whenever the type holds the radix;
* `formatInt_eq_numeral_iff` — and in the other cases only for single digits.
-/
import MojoMac.Utf8

open List

open Utf8 (Byte)

/-- An integral `DType`; the types below eight bits are unsigned. -/
structure IntegralDType where
  width : ℕ
  isSigned : Bool
  width_pos : 0 < width
  signed_width : isSigned = true → 8 ≤ width

namespace IntegralDType

/-- `DType.int`. -/
def int : IntegralDType := ⟨64, true, Nat.succ_pos _, fun _ => by decide⟩

/-- `DType._uint2`. -/
def uint2 : IntegralDType := ⟨2, false, Nat.two_pos, fun h => by simp at h⟩

end IntegralDType

namespace Scalar

variable (d : IntegralDType)
variable {x : BitVec d.width}

/-! ### Arithmetic of `Scalar[dtype]` -/

def toInt (x : BitVec d.width) : ℤ :=
  if d.isSigned then x.toInt else x.toNat

/-- `Scalar[dtype](n)`. -/
def ofInt (n : ℤ) : BitVec d.width :=
  BitVec.ofInt d.width n

/-- `x < 0`. -/
def isNeg (x : BitVec d.width) : Bool :=
  decide (toInt d x < 0)

/-- `pop.div`; undefined for a zero divisor. -/
def div (x y : BitVec d.width) : BitVec d.width :=
  if d.isSigned then x.sdiv y else x / y

/-- `__floordiv__`. -/
def floordiv (x y : BitVec d.width) : BitVec d.width :=
  if y = 0 then 0
  else if d.isSigned then ofInt d (x.toInt.fdiv y.toInt) else x / y

/-- `__mod__`. -/
def mod (x y : BitVec d.width) : BitVec d.width :=
  let safeDivisor := if y = 0 then 1 else y
  if d.isSigned then
    let quotient := div d x safeDivisor
    let mod := x - quotient * y
    let mask := (isNeg d y ^^ isNeg d x) && mod != 0
    let modResult := mod + if mask then y else 0
    if y = 0 then 0 else modResult
  else if y = 0 then 0 else x % safeDivisor

/-- `__abs__`. -/
def abs (x : BitVec d.width) : BitVec d.width :=
  if isNeg d x then -x else x

/-- `__ceildiv__`. -/
def ceildiv (x y : BitVec d.width) : BitVec d.width :=
  if d.isSigned then -(floordiv d x (-y))
  else floordiv d x y + if mod d x y ≠ 0 then 1 else 0

/-! ### Scalars as integers -/

/-- The type holds the integer. -/
def Fits (n : ℤ) : Prop :=
  toInt d (ofInt d n) = n

variable {d} {n : ℤ}

theorem fits_iff : Fits d n ↔ if d.isSigned then -2 ^ (d.width - 1) ≤ n ∧ n < 2 ^ (d.width - 1)
    else 0 ≤ n ∧ n < 2 ^ d.width := by
  rw [Fits, toInt]
  split_ifs with hs
  · refine ⟨fun h => ?_, fun h => BitVec.toInt_ofInt_eq_self d.width_pos h.1 h.2⟩
    exact h ▸ ⟨BitVec.le_toInt _, BitVec.toInt_lt⟩
  have hlt := (ofInt d n).isLt
  constructor
  · intro h
    exact_mod_cast h ▸ And.intro (Int.natCast_nonneg _) (Int.ofNat_lt.mpr hlt)
  · rintro ⟨h0, h⟩
    lift n to ℕ using h0
    rw [ofInt, BitVec.ofInt_natCast, BitVec.toNat_ofNat, Nat.mod_eq_of_lt (by exact_mod_cast h)]

theorem Fits.between {a b : ℤ} (ha : Fits d a) (hb : Fits d b) (han : a ≤ n) (hnb : n ≤ b) :
    Fits d n := by
  rw [fits_iff] at ha hb ⊢
  split_ifs at ha hb ⊢
  · exact ⟨ha.1.trans han, hnb.trans_lt hb.2⟩
  · exact ⟨ha.1.trans han, hnb.trans_lt hb.2⟩

theorem fits_zero : Fits d 0 := by
  simp [Fits, toInt, ofInt]

theorem ofInt_toInt (x : BitVec d.width) : ofInt d (toInt d x) = x := by
  rw [toInt, ofInt]
  split_ifs
  · exact BitVec.ofInt_toInt
  · rw [BitVec.ofInt_natCast, BitVec.ofNat_toNat, BitVec.setWidth_eq]

theorem fits_toInt (x : BitVec d.width) : Fits d (toInt d x) := by
  rw [Fits, ofInt_toInt]

theorem Fits.eq_zero_iff (h : Fits d n) : ofInt d n = 0 ↔ n = 0 := by
  constructor
  · intro h0
    rw [Fits, h0, toInt] at h
    simpa using h.symm
  · rintro rfl
    simp [ofInt]

theorem Fits.toNat_eq {n : ℕ} (hs : d.isSigned = false) (h : Fits d n) : (ofInt d n).toNat = n := by
  rw [Fits, toInt, hs, if_neg (by simp)] at h
  exact_mod_cast h

theorem neg_ofInt (n : ℤ) : -(ofInt d n) = ofInt d (-n) :=
  BitVec.ofInt_neg.symm

section Signed

variable (hs : d.isSigned = true)
include hs

theorem Fits.toInt_eq (h : Fits d n) : (ofInt d n).toInt = n := by
  rwa [Fits, toInt, if_pos hs] at h

theorem div_signed {x y : ℤ} (hx : Fits d x) (hy : Fits d y) :
    div d (ofInt d x) (ofInt d y) = ofInt d (x.tdiv y) := by
  rw [div, if_pos hs]
  refine BitVec.eq_of_toInt_eq ?_
  rw [BitVec.toInt_sdiv, hx.toInt_eq hs, hy.toInt_eq hs, ofInt, BitVec.toInt_ofInt]

/-- With operands of one sign, `%` is the remainder of the truncating
division. -/
theorem mod_signed {x y : ℤ} (hx : Fits d x) (hy : Fits d y) (hy0 : y ≠ 0)
    (hsign : y < 0 ↔ x < 0) : mod d (ofInt d x) (ofInt d y) = ofInt d (x.tmod y) := by
  have hyne : ofInt d y ≠ 0 := hy.eq_zero_iff.not.mpr hy0
  have hmask : (isNeg d (ofInt d y) ^^ isNeg d (ofInt d x)) = false := by
    rw [isNeg, isNeg, hx, hy, decide_eq_decide.mpr hsign, Bool.xor_self]
  simp only [mod, if_pos hs, if_neg hyne, hmask, Bool.false_and, Bool.false_eq_true, if_false,
    div_signed hs hx hy]
  simp only [ofInt]
  rw [← BitVec.ofInt_mul, BitVec.sub_eq_add_neg, ← BitVec.ofInt_neg, ← BitVec.ofInt_add,
    Int.tmod_def, Int.mul_comm y, sub_eq_add_neg]
  exact BitVec.add_zero _

/-- The last digit of a negative number, as the code computes it. -/
theorem abs_mod_neg {m r : ℕ} (hm0 : m ≠ 0) (hr0 : r ≠ 0)
    (hm : ∀ k ≤ m, Fits d (-(k : ℤ))) (hr : Fits d r) (hrneg : Fits d (-(r : ℤ))) :
    toInt d (abs d (mod d (ofInt d (-m)) (ofInt d (-r)))) = (m % r : ℕ) := by
  have hlt : m % r < r := Nat.mod_lt m (by omega)
  have hfit : Fits d (m % r : ℕ) := fits_zero.between hr (by omega) (by omega)
  have hnegfit := hm (m % r) (Nat.mod_le m r)
  have htmod : (-(m : ℤ)).tmod (-(r : ℤ)) = -((m % r : ℕ) : ℤ) := by
    rw [Int.tmod_neg, Int.neg_tmod]
    rfl
  rw [mod_signed hs (hm m le_rfl) hrneg (by omega) (by omega), htmod, abs, isNeg, hnegfit]
  by_cases hneg : -((m % r : ℕ) : ℤ) < 0
  · rw [decide_eq_true hneg, if_pos rfl, neg_ofInt, Int.neg_neg]
    exact hfit
  · rw [decide_eq_false hneg, if_neg (by simp), hnegfit]
    omega

/-- Dropping the last digit of a negative number. -/
theorem ceildiv_neg {m r : ℕ} (hr0 : r ≠ 0) (hm : Fits d (-(m : ℤ)))
    (hrneg : Fits d (-(r : ℤ))) :
    ceildiv d (ofInt d (-m)) (ofInt d r) = ofInt d (-(m / r : ℕ)) := by
  have hne : ofInt d (-(r : ℤ)) ≠ 0 := hrneg.eq_zero_iff.not.mpr (by omega)
  have hfdiv : (-(m : ℤ)).fdiv (-(r : ℤ)) = ((m / r : ℕ) : ℤ) := by
    rw [Int.neg_fdiv_neg, Int.fdiv_eq_ediv_of_nonneg _ (by omega)]
    rfl
  rw [ceildiv, if_pos hs, neg_ofInt, floordiv, if_neg hne, if_pos hs, hm.toInt_eq hs,
    hrneg.toInt_eq hs, hfdiv, neg_ofInt]

end Signed

theorem isSigned_of_isNeg (h : toInt d x < 0) : d.isSigned = true := by
  by_contra hs
  rw [toInt, if_neg hs] at h
  omega

/-- With a natural number every smaller one fits. -/
theorem fits_of_le {m n : ℕ} (hx : toInt d x = n) (hm : m ≤ n) : Fits d (m : ℤ) :=
  fits_zero.between (hx ▸ fits_toInt x) (by omega) (by omega)

theorem fits_of_neg_le {m n : ℕ} (hx : toInt d x = -n) (hm : m ≤ n) : Fits d (-(m : ℤ)) :=
  (hx ▸ fits_toInt x).between fits_zero (by omega) (by omega)

/-- The magnitude of a value has at most as many binary digits as the type. -/
theorem natAbs_toInt_lt (x : BitVec d.width) : (toInt d x).natAbs < 2 ^ d.width := by
  rw [toInt]
  split_ifs
  · have hlo := BitVec.le_toInt x
    have hhi := BitVec.toInt_lt (x := x)
    have hpow : (2 : ℤ) ^ (d.width - 1) < 2 ^ d.width :=
      pow_lt_pow_right₀ (by norm_num) (by have := d.width_pos; omega)
    have habs : ((x.toInt.natAbs : ℕ) : ℤ) < 2 ^ d.width := by omega
    exact_mod_cast habs
  · rw [Int.natAbs_natCast]
    exact x.isLt

/-- Division of natural numbers that fit, in either kind of type. -/
theorem div_natCast {x y : ℕ} (hx : Fits d x) (hy : Fits d y) :
    div d (ofInt d x) (ofInt d y) = ofInt d (x / y : ℕ) := by
  cases hs : d.isSigned with
  | true =>
    rw [div_signed hs hx hy]
    rfl
  | false =>
    rw [div, if_neg (by simp [hs])]
    have hfit : Fits d (x / y : ℕ) :=
      fits_zero.between hx (Int.natCast_nonneg _) (by exact_mod_cast Nat.div_le_self x y)
    refine BitVec.eq_of_toNat_eq ?_
    rw [BitVec.toNat_udiv, hx.toNat_eq hs, hy.toNat_eq hs, hfit.toNat_eq hs]

theorem mod_natCast {x y : ℕ} (hx : Fits d x) (hy : Fits d y) (hy0 : y ≠ 0) :
    mod d (ofInt d x) (ofInt d y) = ofInt d (x % y : ℕ) := by
  cases hs : d.isSigned with
  | true =>
    rw [mod_signed hs hx hy (by exact_mod_cast hy0) (by omega)]
    rfl
  | false =>
    have hyne : ofInt d (y : ℤ) ≠ 0 := hy.eq_zero_iff.not.mpr (by exact_mod_cast hy0)
    rw [mod, if_neg (by simp [hs])]
    simp only [if_neg hyne]
    have hfit : Fits d (x % y : ℕ) :=
      fits_zero.between hx (Int.natCast_nonneg _) (by exact_mod_cast Nat.mod_le x y)
    refine BitVec.eq_of_toNat_eq ?_
    rw [BitVec.toNat_umod, hx.toNat_eq hs, hy.toNat_eq hs, hfit.toNat_eq hs]

end Scalar

namespace FormatInt

open Scalar

variable {d : IntegralDType}

/-! ### Writing -/

/-- The bytes of an ASCII literal. -/
def ascii (s : String) : List Byte :=
  s.toList.map fun c => BitVec.ofNat 8 c.toNat

def defaultDigitChars : List Byte :=
  ascii "0123456789abcdefghijklmnopqrstuvwxyz"

/-- `digit_chars_array[digit]`, an unchecked read. -/
def digitAt (digitChars : List Byte) (digitValue : ℤ) : Option Byte :=
  if 0 ≤ digitValue then digitChars[digitValue.toNat]? else none

/-- The loop of `process_digits`.  `free` is the number of bytes before the
place of the next digit, that one included, and `written` what stands after
it; `none` is a store before the buffer, a read outside of `digitChars` or a
division by zero. -/
def processDigits {w : ℕ} (digitChars : List Byte) (getDigitValue : BitVec w → ℤ)
    (divFn : BitVec w → Option (BitVec w)) :
    (free : ℕ) → (remainingInt : BitVec w) → (written : List Byte) → Option (List Byte)
  | 0, remainingInt, written => if remainingInt = 0 then some written else none
  | free + 1, remainingInt, written =>
    if remainingInt = 0 then some written
    else do
      let char ← digitAt digitChars (getDigitValue remainingInt)
      let next ← divFn remainingInt
      processDigits digitChars getDigitValue divFn free next (char :: written)

/-- `_write_int`; `pre` is the text put between the sign and the digits. -/
def writeInt (d : IntegralDType) (radix : ℕ) (digitChars pre : List Byte)
    (value : BitVec d.width) : Option (List Byte) :=
  let sign := if isNeg d value then ascii "-" else []
  if value = 0 then do
    let zeroChar ← digitChars[0]?
    return sign ++ pre ++ [zeroChar]
  else
    let capacity := max 64 d.width + 1
    -- the last byte of the buffer is the terminator
    let free := capacity - 1
    let r := ofInt d radix
    let digits :=
      if ¬ isNeg d value then
        processDigits digitChars (fun x => toInt d (mod d x r))
          (fun x => if r = 0 then none else some (div d x r)) free value []
      else
        processDigits digitChars
          (fun x => toInt d (abs d (mod d x (ofInt d (-radix)))))
          (fun x => some (ceildiv d x r)) free value []
    digits.map fun digits => sign ++ pre ++ digits

/-- `_format_int`, with the default digits and no prefix. -/
def formatInt (d : IntegralDType) (radix : ℕ) (value : BitVec d.width) : Option (List Byte) :=
  writeInt d radix defaultDigitChars [] value

/-! ### The numeral -/

/-- The digits of a natural number, most significant first; `0` is one
digit. -/
def digits (radix n : ℕ) : List ℕ :=
  if n = 0 then [0] else (Nat.digits radix n).reverse

/-- The character of a digit. -/
def digitChar (digitChars : List Byte) (k : ℕ) : Byte :=
  digitChars[k]?.getD 0

/-- The canonical signed numeral: the sign, the text before the digits, and
the digits. -/
def numeral (radix : ℕ) (digitChars pre : List Byte) (z : ℤ) : List Byte :=
  (if z < 0 then ascii "-" else []) ++ pre ++ (digits radix z.natAbs).map (digitChar digitChars)

variable {radix : ℕ} {digitChars : List Byte}

theorem writeInt_zero (d : IntegralDType) (radix : ℕ) (hchars : digitChars ≠ []) (pre : List Byte) :
    writeInt d radix digitChars pre 0 = some (numeral radix digitChars pre 0) := by
  have hneg : isNeg d 0 = false := by simp [isNeg, toInt]
  obtain ⟨c, cs, rfl⟩ := exists_cons_of_ne_nil hchars
  rw [writeInt, if_pos rfl, hneg]
  rfl

section Digits

variable (h2 : 2 ≤ radix) (hchars : radix ≤ digitChars.length)
include h2 hchars

/-- The digit loop, on any encoding of magnitudes: if a step of the code takes
the last digit off the encoded number, the loop writes the digits in order. -/
theorem processDigits_eq {w : ℕ} {getDigitValue : BitVec w → ℤ}
    {divFn : BitVec w → Option (BitVec w)} {enc : ℕ → BitVec w} {bound : ℕ}
    (henc : ∀ n ≤ bound, enc n = 0 ↔ n = 0)
    (hdigit : ∀ n ≤ bound, n ≠ 0 → getDigitValue (enc n) = (n % radix : ℕ))
    (hdiv : ∀ n ≤ bound, n ≠ 0 → divFn (enc n) = some (enc (n / radix))) (free n : ℕ)
    (hn : n ≤ bound) (hfree : n < 2 ^ free) (written : List Byte) :
    processDigits digitChars getDigitValue divFn free (enc n) written =
      some ((Nat.digits radix n).reverse.map (digitChar digitChars) ++ written) := by
  induction free generalizing n written with
  | zero =>
    obtain rfl : n = 0 := by simpa using hfree
    rw [processDigits, if_pos ((henc 0 hn).mpr rfl), Nat.digits_zero]
    rfl
  | succ free ih =>
    rw [processDigits]
    by_cases h0 : n = 0
    · rw [if_pos ((henc n hn).mpr h0), h0, Nat.digits_zero]
      rfl
    have hmod : n % radix < digitChars.length := (Nat.mod_lt n (by omega)).trans_le hchars
    have hle : n / radix ≤ bound := (Nat.div_le_self n radix).trans hn
    have hlt : n / radix < 2 ^ free := by
      refine Nat.div_lt_of_lt_mul (hfree.trans_le ?_)
      rw [Nat.pow_succ, Nat.mul_comm]
      exact Nat.mul_le_mul_right _ h2
    rw [if_neg fun h => h0 ((henc n hn).mp h), hdigit n hn h0, hdiv n hn h0, digitAt,
      if_pos (Int.natCast_nonneg _), Int.toNat_natCast, getElem?_eq_getElem hmod]
    simp only [Option.bind_eq_bind, Option.bind_some]
    rw [ih _ hle hlt, Nat.digits_def' (by omega) (Nat.pos_of_ne_zero h0), reverse_cons, map_append,
      append_assoc, map_singleton, digitChar, getElem?_eq_getElem hmod]
    rfl

variable {n free : ℕ}

/-- The loop for positive values, where the type holds both numbers. -/
theorem processDigits_pos (hfits : Fits d radix) (hn : ∀ m ≤ n, Fits d (m : ℕ))
    (hfree : n < 2 ^ free) (written : List Byte) :
    processDigits digitChars (fun x => toInt d (mod d x (ofInt d radix)))
      (fun x => if ofInt d radix = 0 then none else some (div d x (ofInt d radix))) free
      (ofInt d n) written =
      some ((Nat.digits radix n).reverse.map (digitChar digitChars) ++ written) := by
  have hr0 : radix ≠ 0 := by omega
  have hrne : ofInt d (radix : ℤ) ≠ 0 := hfits.eq_zero_iff.not.mpr (by exact_mod_cast hr0)
  refine @processDigits_eq _ _ h2 hchars _ _ _ (fun m => ofInt d (m : ℤ)) n ?_ ?_ ?_ free n
    le_rfl hfree written
  · intro m hm
    rw [(hn m hm).eq_zero_iff]
    exact_mod_cast Iff.rfl
  · intro m hm _
    rw [mod_natCast (hn m hm) hfits hr0]
    exact hn _ ((Nat.mod_le m radix).trans hm)
  · intro m hm _
    rw [if_neg hrne, div_natCast (hn m hm) hfits]

/-- The loop for negative values. -/
theorem processDigits_neg (hs : d.isSigned = true) (hfits : Fits d radix)
    (hfitsNeg : Fits d (-radix)) (hn : ∀ m ≤ n, Fits d (-(m : ℤ))) (hfree : n < 2 ^ free)
    (written : List Byte) :
    processDigits digitChars (fun x => toInt d (abs d (mod d x (ofInt d (-radix)))))
      (fun x => some (ceildiv d x (ofInt d radix))) free (ofInt d (-n)) written =
      some ((Nat.digits radix n).reverse.map (digitChar digitChars) ++ written) := by
  have hr0 : radix ≠ 0 := by omega
  refine @processDigits_eq _ _ h2 hchars _ _ _ (fun m => ofInt d (-(m : ℤ))) n ?_ ?_ ?_ free n
    le_rfl hfree written
  · intro m hm
    rw [(hn m hm).eq_zero_iff]
    omega
  · intro m hm hm0
    exact abs_mod_neg hs hm0 hr0 (fun k hk => hn k (hk.trans hm)) hfits hfitsNeg
  · intro m hm _
    rw [ceildiv_neg hs hr0 (hn m hm) hfitsNeg]

/-- **The text of an integer.**  Where the type holds the radix and its
negation, `_write_int` writes the canonical numeral of any value and stays
within its buffer. -/
theorem writeInt_of_fits (hfits : Fits d radix) (hneg : d.isSigned = true → Fits d (-radix))
    (pre : List Byte) (value : BitVec d.width) : writeInt d radix digitChars pre value =
      some (numeral radix digitChars pre (toInt d value)) := by
  by_cases h0 : value = 0
  · subst h0
    have hzero : toInt d 0 = 0 := by simp [toInt]
    rw [hzero]
    exact writeInt_zero d radix (ne_nil_of_length_pos (by omega)) pre
  have hfree : (toInt d value).natAbs < 2 ^ max 64 d.width :=
    (natAbs_toInt_lt value).trans_le (Nat.pow_le_pow_right (by omega) (le_max_right _ _))
  have hne : (toInt d value).natAbs ≠ 0 := by
    intro h
    have hval := ofInt_toInt value
    rw [Int.natAbs_eq_zero.mp h] at hval
    exact h0 (by simpa [ofInt] using hval.symm)
  have hnumeral : ∀ n : ℕ, (toInt d value).natAbs = n →
      (Nat.digits radix n).reverse.map (digitChar digitChars) ++ [] =
        (digits radix (toInt d value).natAbs).map (digitChar digitChars) := by
    rintro n rfl
    rw [digits, if_neg hne, append_nil]
  obtain ⟨n, hn | hn⟩ := Int.eq_nat_or_neg (toInt d value)
  · -- a positive value
    have hnot : isNeg d value = false := by simp [isNeg, hn]
    have habs : (toInt d value).natAbs = n := by omega
    rw [habs] at hfree
    have hloop := processDigits_pos h2 hchars hfits (fun m hm => fits_of_le hn hm) hfree []
    rw [← hn, ofInt_toInt] at hloop
    simp only [writeInt, if_neg h0, hnot, Bool.false_eq_true, not_false_eq_true, if_true, if_false,
      Nat.add_sub_cancel]
    rw [hloop, hnumeral n habs, numeral, if_neg (by omega)]
    rfl
  · -- a negative value, so the type is signed
    have hlt : toInt d value < 0 := by omega
    have hs := isSigned_of_isNeg hlt
    have hyes : isNeg d value = true := decide_eq_true hlt
    have habs : (toInt d value).natAbs = n := by omega
    rw [habs] at hfree
    have hloop := processDigits_neg h2 hchars hs hfits (hneg hs)
      (fun m hm => fits_of_neg_le hn hm) hfree []
    rw [← hn, ofInt_toInt] at hloop
    simp only [writeInt, if_neg h0, hyes, not_true_eq_false, if_false, if_true, Nat.add_sub_cancel]
    rw [hloop, hnumeral n habs, numeral, if_pos hlt]
    rfl

end Digits

/-! ### Types that cannot hold the radix -/

/-- `Scalar[dtype](radix)` keeps the low bits of the radix. -/
theorem ofInt_radix (d : IntegralDType) (radix : ℕ) :
    ofInt d radix = ofInt d (radix % 2 ^ d.width : ℕ) := by
  rw [ofInt, ofInt, BitVec.ofInt_natCast, BitVec.ofInt_natCast]
  exact BitVec.eq_of_toNat_eq (by simp)

/-- A loop that makes no progress runs out of its buffer. -/
theorem processDigits_stuck {w : ℕ} {getDigitValue : BitVec w → ℤ}
    {divFn : BitVec w → Option (BitVec w)} {x : BitVec w} (hx : x ≠ 0)
    (hdiv : divFn x = none ∨ divFn x = some x) (free : ℕ) (written : List Byte) :
    processDigits digitChars getDigitValue divFn free x written = none := by
  induction free generalizing written with
  | zero => rw [processDigits, if_neg hx]
  | succ free ih =>
    rw [processDigits, if_neg hx]
    cases digitAt digitChars (getDigitValue x) with
    | none => rfl
    | some c =>
      rcases hdiv with h | h
      · rw [h]
        rfl
      · rw [h]
        exact ih _

theorem length_defaultDigitChars : defaultDigitChars.length = 36 := by
  decide

/-- A radix of at most 36 fits every type that is wide enough for it. -/
theorem fits_radix (h36 : radix ≤ 36) (h : radix < 2 ^ d.width) :
    Fits d radix ∧ (d.isSigned = true → Fits d (-radix)) := by
  simp only [fits_iff]
  split_ifs with hs
  · have hpow : (2 : ℤ) ^ 7 ≤ 2 ^ (d.width - 1) :=
      pow_le_pow_right₀ (by norm_num) (by have := d.signed_width hs; omega)
    omega
  · exact ⟨⟨by omega, by exact_mod_cast h⟩, fun hs' => absurd hs' hs⟩

variable {value : BitVec d.width}

/-- In an unsigned type the digits are those of the truncated radix. -/
theorem writeInt_unsigned (hs : d.isSigned = false) {pre : List Byte} (h0 : value ≠ 0) :
    writeInt d radix digitChars pre value = (processDigits digitChars
        (fun x => toInt d (mod d x (ofInt d (radix % 2 ^ d.width : ℕ))))
        (fun x => if ofInt d (radix % 2 ^ d.width : ℕ) = 0 then none
          else some (div d x (ofInt d (radix % 2 ^ d.width : ℕ))))
        (max 64 d.width) value []).map (pre ++ ·) := by
  have hnot : isNeg d value = false := by simp [isNeg, toInt, hs]
  simp only [writeInt, if_neg h0, hnot, Bool.false_eq_true, not_false_eq_true, if_true, if_false,
    Nat.add_sub_cancel, nil_append, ofInt_radix d radix]

/-- A type that cannot hold the radix writes a non-zero value correctly only
as a single digit of the truncated radix. -/
theorem writeInt_truncated_iff (h36 : radix ≤ 36) (hbig : 2 ^ d.width ≤ radix) (h0 : value ≠ 0) :
    formatInt d radix value = some (numeral radix defaultDigitChars [] (toInt d value)) ↔
      value.toNat < radix % 2 ^ d.width := by
  have hs : d.isSigned = false := by
    cases hs : d.isSigned with
    | false => rfl
    | true =>
      have hpow : 2 ^ 8 ≤ 2 ^ d.width := Nat.pow_le_pow_right (by omega) (d.signed_width hs)
      omega
  have htoInt : toInt d value = value.toNat := by rw [toInt, hs, if_neg (by simp)]
  have hn0 : value.toNat ≠ 0 := fun h => h0 (BitVec.eq_of_toNat_eq h)
  have hlt := value.isLt
  have hvalue : ofInt d (value.toNat : ℤ) = value := by rw [← htoInt, ofInt_toInt]
  set r := radix % 2 ^ d.width with hr
  have hrlt : r < 2 ^ d.width := Nat.mod_lt _ (Nat.two_pow_pos _)
  have hrfits : Fits d r := by
    rw [fits_iff, if_neg (by simp [hs])]
    exact ⟨by omega, by exact_mod_cast hrlt⟩
  have hnumeral : numeral radix defaultDigitChars [] (toInt d value) =
      [digitChar defaultDigitChars value.toNat] := by
    rw [htoInt, numeral, if_neg (by omega), Int.natAbs_natCast, digits, if_neg hn0,
      Nat.digits_of_lt _ _ hn0 (by omega)]
    rfl
  rw [formatInt, writeInt_unsigned hs h0, hnumeral, ← hr]
  rcases (by omega : r = 0 ∨ r = 1 ∨ 2 ≤ r) with h | h | h
  · -- division by zero
    rw [processDigits_stuck h0 (.inl (by rw [if_pos]; rw [h]; simp [ofInt]))]
    exact iff_of_false (by simp) (by omega)
  · -- division by one
    have hne : ofInt d (r : ℤ) ≠ 0 := hrfits.eq_zero_iff.not.mpr (by omega)
    have hdiv : div d value (ofInt d (r : ℤ)) = value := by
      have hdiv' := div_natCast (fits_of_le htoInt le_rfl) hrfits
      rw [hvalue, h, Nat.div_one, hvalue] at hdiv'
      rw [h]
      exact hdiv'
    rw [processDigits_stuck h0 (.inr (by rw [if_neg hne, hdiv]))]
    exact iff_of_false (by simp) (by omega)
  have hfree : value.toNat < 2 ^ max 64 d.width :=
    hlt.trans_le (Nat.pow_le_pow_right (by omega) (le_max_right _ _))
  have hchars : r ≤ defaultDigitChars.length := by
    rw [length_defaultDigitChars]
    exact (Nat.mod_le _ _).trans h36
  have hloop := processDigits_pos h hchars hrfits (fun m hm => fits_of_le htoInt hm) hfree []
  rw [hvalue] at hloop
  rw [hloop, Option.map_some, Option.some_inj, nil_append, append_nil]
  constructor
  · intro heq
    by_contra hge
    have hlen := congrArg length heq
    have hdiv : value.toNat / r ≠ 0 := by
      rw [Nat.div_ne_zero_iff]
      omega
    rw [Nat.digits_def' (by omega) (by omega),
      Nat.digits_def' (by omega) (Nat.pos_of_ne_zero hdiv)] at hlen
    simp at hlen
  · intro hsmall
    rw [Nat.digits_of_lt _ _ hn0 hsmall]
    rfl

/-- `_write_int` writes the canonical numeral exactly when the type holds the
radix, or the value is zero or a single digit of the truncated radix. -/
theorem formatInt_eq_numeral_iff (d : IntegralDType) (h2 : 2 ≤ radix) (h36 : radix ≤ 36)
    (value : BitVec d.width) :
    formatInt d radix value = some (numeral radix defaultDigitChars [] (toInt d value)) ↔
      radix < 2 ^ d.width ∨ value = 0 ∨ value.toNat < radix % 2 ^ d.width := by
  rcases lt_or_ge radix (2 ^ d.width) with hlt | hge
  · obtain ⟨hfits, hneg⟩ := fits_radix h36 hlt
    refine iff_of_true ?_ (.inl hlt)
    exact writeInt_of_fits h2 (by rw [length_defaultDigitChars]; exact h36) hfits hneg [] value
  by_cases h0 : value = 0
  · refine iff_of_true ?_ (.inr (.inl h0))
    have hzero : toInt d 0 = 0 := by simp [toInt]
    rw [h0, hzero]
    exact writeInt_zero d radix (by decide) []
  · rw [writeInt_truncated_iff h36 hge h0]
    simp only [h0, false_or]
    omega

end FormatInt
