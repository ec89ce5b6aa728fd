/-
Parsing integers: `atol` of `collections/string/string.mojo`.

The digit loop adds a digit and multiplies by the base only when another
character follows that is no space; both steps are checked against the largest
magnitude of an `Int` before they are made.

* `digitLoop_digits` — the loop on the digits of a number in range;
* `atol_numeral` — `atol` reads back a canonical numeral;
* `formatInt_atol` — writing and reading an `Int`.
-/
import MojoMac.FormatInt

open List

open Utf8 (Byte)

namespace Atol

variable (strSlice : List Byte)

open FormatInt

/-! ### The parser -/

/-- How a call ends without a value. -/
inductive Fault
  | raise (message : List Byte)
  | abort
  deriving DecidableEq, Repr

/-- `Codepoint.is_posix_space`. -/
def isPosixSpace (c : Byte) : Bool :=
  c == 0x20 || c == 0x09 || c == 0x0A || c == 0x0D || c == 0x0C || c == 0x0B || c == 0x1C ||
    c == 0x1D || c == 0x1E

/-- `_str_to_base_error`. -/
def strToBaseError (base : ℤ) (strSlice : List Byte) : List Byte :=
  ascii "String is not convertible to integer with base " ++ ascii (toString base) ++
    ascii ": '" ++ strSlice ++ ascii "'"

def tooLarge : List Byte :=
  ascii " String expresses an integer too large to store in Int."

/-- An unchecked read; `past` stands for the byte after the string. -/
def readByte (past : Byte) (i : ℕ) : Byte :=
  strSlice[i]?.getD past

/-- `_trim_and_handle_sign`: the index after white space and sign, and whether
the sign is a minus. -/
def trimAndHandleSign (past : Byte) : ℕ × Bool :=
  let start := (strSlice.takeWhile isPosixSpace).length
  let p := readByte strSlice past start == 0x2B
  let n := readByte strSlice past start == 0x2D
  (start + if p || n then 1 else 0, n)

/-- `_handle_base_prefix`. -/
def handleBasePrefix (pos : ℕ) (strSlice : List Byte) (past : Byte) (base : ℤ) : ℕ × Bool :=
  if pos + 1 < strSlice.length then
    let prefixChar := readByte strSlice past (pos + 1)
    if readByte strSlice past pos == 0x30 &&
        ((base == 2 && (prefixChar == 0x62 || prefixChar == 0x42)) ||
          (base == 8 && (prefixChar == 0x6F || prefixChar == 0x4F)) ||
          (base == 16 && (prefixChar == 0x78 || prefixChar == 0x58))) then
      (pos + 2, true)
    else (pos, false)
  else (pos, false)

/-- `str_slice[byte=i]`, which aborts outside of the string and inside of a
character; of the character only the first byte matters. -/
def getByte (i : ℕ) : Except Fault Byte :=
  match strSlice[i]? with
  | none => .error .abort
  | some b => if b.toNat < 128 || b.toNat ≥ 192 then .ok b else .error .abort

/-- The check of `_identify_base` that a literal with a leading zero has only
zeroes and single underscores. -/
def allZeroes (strSlice : List Byte) (i : ℕ) (wasLastCharacterUnderscore : Bool) :
    Except Fault Bool :=
  if _h : i < strSlice.length then do
    let c ← getByte strSlice i
    if c == 0x5F then
      if wasLastCharacterUnderscore then .ok false else allZeroes strSlice (i + 1) true
    else if c != 0x30 then .ok false
    else allZeroes strSlice (i + 1) false
  else .ok true
  termination_by strSlice.length - i

/-- `_identify_base`; `none` is the pair `(-1, -1)`. -/
def identifyBase (start : ℕ) : Except Fault (Option (ℤ × ℕ)) :=
  if start + 1 = strSlice.length then .ok (some (10, start))
  else do
    let first ← getByte strSlice start
    if first == 0x30 then
      let secondDigit ← getByte strSlice (start + 1)
      if secondDigit == 0x62 || secondDigit == 0x42 then .ok (some (2, start + 2))
      else if secondDigit == 0x6F || secondDigit == 0x4F then .ok (some (8, start + 2))
      else if secondDigit == 0x78 || secondDigit == 0x58 then .ok (some (16, start + 2))
      else do
        let zeroes ← allZeroes strSlice (start + 1) false
        .ok (if zeroes then some (10, start) else none)
    else if 0x31 ≤ first.toNat && first.toNat ≤ 0x39 then .ok (some (10, start))
    else .ok none

/-- The constants of the digit loop. -/
structure Context where
  base : ℤ
  realBase : ℕ
  strSlice : List Byte
  ordNumMax : ℤ
  ordLetterMax : ℤ × ℤ
  limit : ℕ
  mulCutoff : ℕ

def Context.error (c : Context) : Fault :=
  .raise (strToBaseError c.base c.strSlice)

def Context.errorTooLarge (c : Context) : Fault :=
  .raise (strToBaseError c.base c.strSlice ++ tooLarge)

/-- The digit a byte stands for. -/
def Context.digit (c : Context) (ordCurrent : ℤ) : Option ℕ :=
  if 0x30 ≤ ordCurrent ∧ ordCurrent ≤ c.ordNumMax then some (ordCurrent - 0x30).toNat
  else if 0x61 ≤ ordCurrent ∧ ordCurrent ≤ c.ordLetterMax.1 then
    some (ordCurrent - 0x61 + 10).toNat
  else if 0x41 ≤ ordCurrent ∧ ordCurrent ≤ c.ordLetterMax.2 then
    some (ordCurrent - 0x41 + 10).toNat
  else none

/-- The variables of the digit loop; `spaceEnd` is the new `start` when a space
ends the digits. -/
structure LoopState where
  result : ℕ
  wasLastDigitUnderscore : Bool
  foundValidCharsAfterStart : Bool
  spaceEnd : Option ℕ
  deriving DecidableEq, Repr

/-- The digit loop, from index `pos` on. -/
def digitLoop (c : Context) (pos : ℕ) (st : LoopState) : Except Fault LoopState :=
  if _h : pos < c.strSlice.length then
    let current := c.strSlice[pos]
    if current == 0x5F then
      if st.wasLastDigitUnderscore then .error c.error
      else digitLoop c (pos + 1) { st with wasLastDigitUnderscore := true }
    else
      match c.digit current.toNat with
      | none =>
        if isPosixSpace current then
          .ok { st with wasLastDigitUnderscore := false, spaceEnd := some (pos + 1) }
        else .error c.error
      | some digit =>
        if st.result > c.limit - digit then .error c.errorTooLarge
        else
          let result := (st.result + digit) % 2 ^ 64
          if pos + 1 < c.strSlice.length &&
              !isPosixSpace (c.strSlice[pos + 1]?.getD 0) then
            if result > c.mulCutoff then .error c.errorTooLarge
            else digitLoop c (pos + 1) ⟨result * c.realBase % 2 ^ 64, false, true, st.spaceEnd⟩
          else digitLoop c (pos + 1) ⟨result, false, true, st.spaceEnd⟩
  else .ok st
  termination_by c.strSlice.length - pos

/-- The base in use, the index of the first digit and whether a prefix was
read. -/
def resolveBase (past : Byte) (base : ℤ) (start : ℕ) : Except Fault (ℤ × ℕ × Bool) :=
  if base = 0 then do
    match ← identifyBase strSlice start with
    | none => .error (.raise (strToBaseError base strSlice))
    | some (realBase, start) => .ok (realBase, start, decide (realBase ≠ 10))
  else .ok (base, handleBasePrefix start strSlice past base)

def makeContext (base realBase : ℤ) (isNegative : Bool) : Context :=
  -- the largest magnitude: one more for negative results
  let limit := 2 ^ 63 - 1 + if isNegative then 1 else 0
  { base, realBase := realBase.toNat, strSlice
    ordNumMax := if realBase ≤ 10 then 0x30 + (realBase - 1) else 0x39
    ordLetterMax :=
      if realBase ≤ 10 then (-1, -1) else (0x61 + (realBase - 11), 0x41 + (realBase - 11))
    limit, mulCutoff := limit / realBase.toNat }

/-- The checks after the digit loop and the value. -/
def finish (c : Context) (isNegative : Bool) (st : LoopState) : Except Fault ℤ :=
  if st.wasLastDigitUnderscore || !st.foundValidCharsAfterStart then .error c.error
  else if st.spaceEnd.any fun start => !(c.strSlice.drop start).all isPosixSpace then
    .error c.error
  else if isNegative then .ok (if st.result = 2 ^ 63 then -2 ^ 63 else -(st.result : ℤ))
  else .ok st.result

/-- `atol`; `past` is the byte that follows the string in memory. -/
def atol (past : Byte) (base : ℤ) : Except Fault ℤ :=
  if base ≠ 0 ∧ (base < 2 ∨ base > 36) then
    .error (.raise (ascii "Base must be >= 2 and <= 36, or 0."))
  else if strSlice = [] then .error (.raise (strToBaseError base strSlice))
  else do
    let (start, isNegative) := trimAndHandleSign strSlice past
    let (realBase, start, hasPrefix) ← resolveBase strSlice past base start
    let c := makeContext strSlice base realBase isNegative
    -- a literal with a prefix may start with an underscore
    let underscore := !((realBase == 2 || realBase == 8 || realBase == 16) && hasPrefix)
    let st ← digitLoop c start ⟨0, underscore, false, none⟩
    finish c isNegative st

/-! ### Reading a numeral -/

theorem digitChar_eq : ∀ k < 36, (digitChar defaultDigitChars k).toNat =
    if k < 10 then 0x30 + k else 0x61 + (k - 10) := by
  decide

theorem digitChar_not_space : ∀ k < 36, isPosixSpace (digitChar defaultDigitChars k) = false := by
  decide

theorem digitChar_ne : ∀ k < 36, digitChar defaultDigitChars k ≠ 0x5F ∧
    digitChar defaultDigitChars k ≠ 0x2B ∧ digitChar defaultDigitChars k ≠ 0x2D := by
  decide

variable {radix : ℕ}

/-- The context recognises the digits of its base. -/
theorem makeContext_digit {strSlice : List Byte} {base : ℤ} {k : ℕ} {isNegative : Bool}
    (h36 : radix ≤ 36) (hk : k < radix) : (makeContext strSlice base radix isNegative).digit
      (digitChar defaultDigitChars k).toNat = some k := by
  rw [digitChar_eq k (by omega), Context.digit, makeContext]
  dsimp only
  split_ifs <;> first | omega | (congr 1; omega)

/-- The number with the given digits, after a number `acc`. -/
def value (radix acc : ℕ) (ds : List ℕ) : ℕ :=
  ds.foldl (fun a d => a * radix + d) acc

theorem le_value (h : 1 ≤ radix) (acc : ℕ) (ds : List ℕ) : acc ≤ value radix acc ds := by
  induction ds generalizing acc with
  | nil => exact le_rfl
  | cons d ds ih =>
    have hstep : acc ≤ acc * radix + d := by nlinarith
    exact hstep.trans (ih _)

theorem value_reverse_digits (radix n : ℕ) : value radix 0 (Nat.digits radix n).reverse = n := by
  have hval : ∀ l : List ℕ, value radix 0 l.reverse = Nat.ofDigits radix l := by
    intro l
    rw [value, foldl_reverse, Nat.ofDigits_eq_foldr]
    congr 1
    funext x y
    simp [Nat.mul_comm, Nat.add_comm]
  rw [hval, Nat.ofDigits_digits]

theorem value_digits (radix n : ℕ) : value radix 0 (digits radix n) = n := by
  rw [digits]
  split_ifs with h
  · simp [value, h]
  · exact value_reverse_digits radix n

theorem digits_lt {n k : ℕ} (h2 : 2 ≤ radix) (hk : k ∈ digits radix n) : k < radix := by
  rw [digits] at hk
  split_ifs at hk
  · obtain rfl := mem_singleton.mp hk
    omega
  · exact Nat.digits_lt_base (by omega) (mem_reverse.mp hk)

variable {c : Context}

/-- One round of the loop on a digit that keeps the number in range. -/
theorem digitLoop_digit {pos k : ℕ} {b : Byte} {st : LoopState}
    (hb : c.strSlice[pos]? = some b) (hne : b ≠ 0x5F) (hdigit : c.digit b.toNat = some k)
    (hfit : st.result + k ≤ c.limit) (hlimit : c.limit ≤ 2 ^ 63) : digitLoop c pos st =
      if pos + 1 < c.strSlice.length && !isPosixSpace (c.strSlice[pos + 1]?.getD 0) then
        if st.result + k > c.mulCutoff then .error c.errorTooLarge
        else digitLoop c (pos + 1) ⟨(st.result + k) * c.realBase % 2 ^ 64, false, true, st.spaceEnd⟩
      else digitLoop c (pos + 1) ⟨st.result + k, false, true, st.spaceEnd⟩ := by
  obtain ⟨hpos, rfl⟩ := List.getElem_of_getElem? hb
  have hmod : (st.result + k) % 2 ^ 64 = st.result + k := Nat.mod_eq_of_lt (by omega)
  rw [digitLoop, dif_pos hpos]
  simp only [beq_eq_false_iff_ne.mpr hne, Bool.false_eq_true, if_false, hdigit, hmod,
    if_neg (by omega : ¬ st.result > c.limit - k)]

/-- The loop on the remaining digits of a number in range: they are added up,
and nothing overflows. -/
theorem digitLoop_digits (h2 : 2 ≤ radix) (h36 : radix ≤ 36)
    (hbase : c.realBase = radix) (hcut : c.mulCutoff = c.limit / radix) (hlimit : c.limit ≤ 2 ^ 63)
    (hdigit : ∀ k < radix, c.digit (digitChar defaultDigitChars k).toNat = some k)
    (ds : List ℕ) (hds : ds ≠ []) (hlt : ∀ k ∈ ds, k < radix) (acc : ℕ) (before : List Byte)
    (hstr : c.strSlice = before ++ ds.map (digitChar defaultDigitChars))
    (hval : value radix acc ds ≤ c.limit) (underscore found : Bool) :
    digitLoop c before.length ⟨acc * radix, underscore, found, none⟩ =
      .ok ⟨value radix acc ds, false, true, none⟩ := by
  -- induction on the digits; `acc` is the number read so far
  induction ds generalizing acc before underscore found with
  | nil => exact absurd rfl hds
  | cons d ds ih =>
    have hd : d < radix := hlt d mem_cons_self
    have hlen : c.strSlice.length = before.length + (ds.length + 1) := by simp [hstr]
    have hcur : c.strSlice[before.length]? = some (digitChar defaultDigitChars d) := by simp [hstr]
    have hle : acc * radix + d ≤ c.limit := (le_value (by omega) _ ds).trans hval
    rw [digitLoop_digit hcur (digitChar_ne d (by omega)).1 (hdigit d hd) hle hlimit]
    cases ds with
    | nil =>
      -- the last digit: nothing is multiplied
      have hend : ¬ before.length + 1 < c.strSlice.length := by simp [hlen]
      rw [decide_eq_false hend, Bool.false_and, if_neg (by simp), digitLoop, dif_neg hend]
      rfl
    | cons e es =>
      have he : e < radix := hlt e (by simp)
      have hnext : c.strSlice[before.length + 1]? = some (digitChar defaultDigitChars e) := by
        simp [hstr]
      have hmul : (acc * radix + d) * radix ≤ c.limit :=
        (Nat.le_add_right _ e).trans ((le_value (by omega) _ es).trans hval)
      have hcutoff : ¬ acc * radix + d > c.mulCutoff := by
        rw [hcut, not_lt]
        exact (Nat.le_div_iff_mul_le (by omega)).mpr hmul
      have hmore : before.length + 1 < c.strSlice.length := by simp [hlen]
      have hnowrap : (acc * radix + d) * radix % 2 ^ 64 = (acc * radix + d) * radix :=
        Nat.mod_eq_of_lt (by omega)
      rw [hnext, Option.getD_some, digitChar_not_space e (by omega), decide_eq_true hmore,
        Bool.not_false, Bool.and_self, if_pos rfl, if_neg hcutoff, hbase]
      dsimp only
      rw [hnowrap]
      have hrest := ih (by simp) (fun k hk => hlt k (mem_cons_of_mem d hk))
        (acc * radix + d) (before ++ [digitChar defaultDigitChars d]) (by simp [hstr]) hval
        false true
      rwa [length_append, length_singleton] at hrest

/-- The digits of a positive number do not start with a zero. -/
theorem digits_head_ne_zero {n d : ℕ} {ds : List ℕ} (hn : digits radix n = d :: ds)
    (hds : ds ≠ []) : d ≠ 0 := by
  rw [digits] at hn
  split_ifs at hn with h0
  · exact absurd (cons_eq_cons.mp hn).2.symm hds
  · have hne : Nat.digits radix n ≠ [] := Nat.digits_ne_nil_iff_ne_zero.mpr h0
    have hlast := Nat.getLast_digit_ne_zero radix h0
    rw [← head_reverse (by simpa using hne)] at hlast
    simpa [hn] using hlast

theorem digits_ne_nil (radix n : ℕ) : digits radix n ≠ [] := by
  rw [digits]
  split_ifs with h
  · exact cons_ne_nil _ _
  · rw [ne_eq, reverse_eq_nil_iff]
    exact Nat.digits_ne_nil_iff_ne_zero.mpr h

/-- No base prefix is found at the start of a canonical numeral. -/
theorem handleBasePrefix_digits {n : ℕ} (h2 : 2 ≤ radix) (h36 : radix ≤ 36)
    (before : List Byte) (past : Byte) (base : ℤ) : handleBasePrefix before.length
      (before ++ (digits radix n).map (digitChar defaultDigitChars)) past base =
      (before.length, false) := by
  obtain ⟨d, ds, hn⟩ := exists_cons_of_ne_nil (digits_ne_nil radix n)
  rw [handleBasePrefix]
  by_cases hlen : before.length + 1 <
      (before ++ (digits radix n).map (digitChar defaultDigitChars)).length
  · -- two characters at least, so the first digit is not zero
    have hds : ds ≠ [] := by
      rintro rfl
      simp [hn] at hlen
    have hd := digits_head_ne_zero hn hds
    have hdlt : d < 36 := (digits_lt h2 (hn ▸ mem_cons_self)).trans_le h36
    have hread : readByte (before ++ (digits radix n).map (digitChar defaultDigitChars)) past
        before.length = digitChar defaultDigitChars d := by
      simp [readByte, hn]
    have hnz : ∀ k < 36, k ≠ 0 → digitChar defaultDigitChars k ≠ 0x30 := by decide
    simp only [if_pos hlen, hread, beq_eq_false_iff_ne.mpr (hnz d hdlt hd), Bool.false_and,
      Bool.false_eq_true, if_false]
  · rw [if_neg hlen]

/-- The sign of a numeral. -/
theorem trimAndHandleSign_numeral (h2 : 2 ≤ radix) (h36 : radix ≤ 36) (z : ℤ) (past : Byte) :
    trimAndHandleSign (numeral radix defaultDigitChars [] z) past =
      (if z < 0 then 1 else 0, decide (z < 0)) := by
  obtain ⟨d, ds, hn⟩ := exists_cons_of_ne_nil (digits_ne_nil radix z.natAbs)
  have hdlt : d < 36 := (digits_lt h2 (hn ▸ mem_cons_self)).trans_le h36
  by_cases hz : z < 0
  · have htext : numeral radix defaultDigitChars [] z =
        0x2D :: (digits radix z.natAbs).map (digitChar defaultDigitChars) := by
      rw [numeral, if_pos hz]
      rfl
    rw [htext, if_pos hz, decide_eq_true hz]
    rfl
  have htext : numeral radix defaultDigitChars [] z =
      digitChar defaultDigitChars d :: ds.map (digitChar defaultDigitChars) := by
    rw [numeral, if_neg hz, hn]
    rfl
  obtain ⟨_, hplus, hminus⟩ := digitChar_ne d hdlt
  have hspace : (numeral radix defaultDigitChars [] z).takeWhile isPosixSpace = [] := by
    rw [htext, takeWhile_cons, digitChar_not_space d hdlt]
    rfl
  have hread : readByte (numeral radix defaultDigitChars [] z) past 0 =
      digitChar defaultDigitChars d := by
    rw [htext]
    rfl
  simp only [trimAndHandleSign, hspace, length_nil, hread, beq_eq_false_iff_ne.mpr hplus,
    beq_eq_false_iff_ne.mpr hminus, Bool.or_self, Bool.false_eq_true, if_false, Nat.add_zero,
    if_neg hz, decide_eq_false hz]

/-- `atol` reads back the canonical numeral of every `Int`. -/
theorem atol_numeral (h2 : 2 ≤ radix) (h36 : radix ≤ 36) {z : ℤ}
    (hlo : -2 ^ 63 ≤ z) (hhi : z < 2 ^ 63) (past : Byte) :
    atol (numeral radix defaultDigitChars [] z) past radix = .ok z := by
  set text := numeral radix defaultDigitChars [] z with htext
  set sign : List Byte := if z < 0 then ascii "-" else [] with hsign
  have hstr : text = sign ++ (digits radix z.natAbs).map (digitChar defaultDigitChars) := by
    rw [htext, numeral, append_nil]
  have hsignlen : sign.length = if z < 0 then 1 else 0 := by
    rw [hsign]
    split_ifs <;> rfl
  have hnonempty : text ≠ [] := by
    rw [hstr]
    exact append_ne_nil_of_right_ne_nil _ (by simpa using digits_ne_nil radix z.natAbs)
  have hbase : ¬ ((radix : ℤ) ≠ 0 ∧ ((radix : ℤ) < 2 ∨ (radix : ℤ) > 36)) := by omega
  have hresolve : resolveBase text past radix sign.length = .ok (radix, sign.length, false) := by
    rw [resolveBase, if_neg (by omega), hstr, handleBasePrefix_digits h2 h36]
  set c := makeContext text radix radix (decide (z < 0)) with hc
  have hlimit : c.limit = 2 ^ 63 - 1 + if z < 0 then 1 else 0 := by simp [hc, makeContext]
  have hvalue : value radix 0 (digits radix z.natAbs) = z.natAbs := value_digits radix _
  have hloop := digitLoop_digits (c := c) h2 h36 (by simp [hc, makeContext])
    (by simp [hc, makeContext]) (by rw [hlimit]; split_ifs <;> omega)
    (fun k hk => makeContext_digit h36 hk) (digits radix z.natAbs) (digits_ne_nil radix _)
    (fun k hk => digits_lt h2 hk) 0 sign hstr
    (by rw [hvalue, hlimit]; split_ifs <;> omega) true false
  rw [hvalue, Nat.zero_mul] at hloop
  have htrim : trimAndHandleSign text past = (sign.length, decide (z < 0)) := by
    rw [htext, trimAndHandleSign_numeral h2 h36, hsignlen]
  have hmain : atol text past radix = finish c (decide (z < 0)) ⟨z.natAbs, false, true, none⟩ := by
    rw [atol, if_neg hbase, if_neg hnonempty]
    simp only [htrim, hresolve, bind, Except.bind, Bool.and_false, Bool.not_false, ← hc, hloop]
  rw [hmain, finish]
  simp only [Bool.not_true, Bool.or_self, Bool.false_eq_true, if_false, Option.any_none,
    decide_eq_true_eq]
  split_ifs with hz hmin
  · congr 1
    omega
  · congr 1
    omega
  · congr 1
    omega

/-- **Formatting and parsing.**  For every radix from 2 to 36, in every
integral type, the text written is the canonical numeral of the value exactly
when the type holds the radix, or the value is zero or a single digit of the
truncated radix; and `atol` reads the text of every `Int` back. -/
theorem formatInt_atol {radix : ℕ} (h2 : 2 ≤ radix) (h36 : radix ≤ 36) :
    (∀ (d : IntegralDType) (value : BitVec d.width),
      formatInt d radix value = some (numeral radix defaultDigitChars [] (Scalar.toInt d value)) ↔
        radix < 2 ^ d.width ∨ value = 0 ∨ value.toNat < radix % 2 ^ d.width) ∧
    ∀ (value : BitVec 64) (past : Byte),
      ∃ text, formatInt IntegralDType.int radix value = some text ∧
        atol text past radix = .ok value.toInt := by
  refine ⟨fun d value => formatInt_eq_numeral_iff d h2 h36 value, fun value past => ?_⟩
  have hfits : radix < 2 ^ IntegralDType.int.width := lt_of_le_of_lt h36 (by decide)
  refine ⟨_, (formatInt_eq_numeral_iff IntegralDType.int h2 h36 value).mpr (.inl hfits), ?_⟩
  exact atol_numeral h2 h36 (BitVec.le_toInt value) BitVec.toInt_lt past

/-- The smallest `Int` in base 16, and the type without room for the radix. -/
theorem formatInt_atol_sixteen :
    ∃ text, formatInt IntegralDType.int 16 (BitVec.intMin 64) = some text ∧
      atol text 0 16 = .ok (BitVec.intMin 64).toInt :=
  (formatInt_atol (by decide : 2 ≤ 16) (by decide)).2 (BitVec.intMin 64) 0

/-- In a two-bit type the radix ten becomes two, and three is written `11`. -/
theorem formatInt_uint2_three :
    formatInt IntegralDType.uint2 10 3 = some (ascii "11") ∧
      numeral 10 defaultDigitChars [] (Scalar.toInt IntegralDType.uint2 3) = ascii "3" := by
  decide

end Atol
