/-
The two UTF-8 validators of `collections/string/_utf8.mojo`.

`isValidUtf8Runtime` works on blocks: three table lookups classify every pair
of neighbouring bytes, two saturating subtractions say where a third or fourth
byte must stand, and the previous block is carried along.  `isValidUtf8Comptime`
reads one character after the other.

* `pairCheck_eq_zero_iff`, `pairCheck_eq_twoConts_iff` — what the tables decide;
* `laneError_eq_zero_iff` — what one lane of a block checks;
* `lanesOk_iff_wellFormed` — the lane checks along a string accept exactly the
  well-formed ones;
* `isValidUtf8_spec` — both validators do.
-/
import MojoMac.Utf8
import MojoMac.WordBits

open List hiding Vector

namespace Utf8

/-! ### Block validation -/

def tooShort : Byte := 1 <<< 0
def tooLong : Byte := 1 <<< 1
def overlong3 : Byte := 1 <<< 2
def surrogate : Byte := 1 <<< 4
def overlong2 : Byte := 1 <<< 5
def twoConts : Byte := 1 <<< 7
def tooLarge : Byte := 1 <<< 3
def tooLarge1000 : Byte := 1 <<< 6
def overlong4 : Byte := 1 <<< 6
def carry : Byte := tooShort ||| tooLong ||| twoConts

/-- Errors possible with the high half of the first byte. -/
def shuf1 : Vector Byte 16 :=
  #v[tooLong, tooLong, tooLong, tooLong,
     tooLong, tooLong, tooLong, tooLong,
     twoConts, twoConts, twoConts, twoConts,
     tooShort ||| overlong2,
     tooShort,
     tooShort ||| overlong3 ||| surrogate,
     tooShort ||| tooLarge ||| tooLarge1000 ||| overlong4]

/-- Errors possible with the low half of the first byte. -/
def shuf2 : Vector Byte 16 :=
  #v[carry ||| overlong3 ||| overlong2 ||| overlong4,
     carry ||| overlong2,
     carry,
     carry,
     carry ||| tooLarge,
     carry ||| tooLarge ||| tooLarge1000,
     carry ||| tooLarge ||| tooLarge1000,
     carry ||| tooLarge ||| tooLarge1000,
     carry ||| tooLarge ||| tooLarge1000,
     carry ||| tooLarge ||| tooLarge1000,
     carry ||| tooLarge ||| tooLarge1000,
     carry ||| tooLarge ||| tooLarge1000,
     carry ||| tooLarge ||| tooLarge1000,
     carry ||| tooLarge ||| tooLarge1000 ||| surrogate,
     carry ||| tooLarge ||| tooLarge1000,
     carry ||| tooLarge ||| tooLarge1000]

/-- Errors possible with the high half of the second byte. -/
def shuf3 : Vector Byte 16 :=
  #v[tooShort, tooShort, tooShort, tooShort,
     tooShort, tooShort, tooShort, tooShort,
     tooLong ||| overlong2 ||| twoConts ||| overlong3 ||| tooLarge1000 ||| overlong4,
     tooLong ||| overlong2 ||| twoConts ||| overlong3 ||| tooLarge,
     tooLong ||| overlong2 ||| twoConts ||| surrogate ||| tooLarge,
     tooLong ||| overlong2 ||| twoConts ||| surrogate ||| tooLarge,
     tooShort, tooShort, tooShort, tooShort]

/-- One lane of `_dynamic_shuffle`; the index is always below 16. -/
def dynamicShuffle (shuf : Vector Byte 16) (index : Byte) : Byte :=
  shuf[index.toNat]?.getD 0

/-- `llvm.usub.sat`. -/
def subWithSaturation (a b : Byte) : Byte :=
  if a.toNat < b.toNat then 0 else a - b

/-- The lookups of one lane, for a byte and the one before it. -/
def pairCheck (prev1 current : Byte) : Byte :=
  dynamicShuffle shuf1 (prev1 >>> 4) &&& dynamicShuffle shuf2 (prev1 &&& 0x0F) &&&
    dynamicShuffle shuf3 (current >>> 4)

/-- One lane of `validate_chunk`: the error bits for a byte, given the three
bytes before it. -/
def laneError (prev3 prev2 prev1 current : Byte) : Byte :=
  let thirdByte : Byte := 0b11100000 - 0x80
  let fourthByte : Byte := 0b11110000 - 0x80
  let isThirdByte := subWithSaturation prev2 thirdByte
  let isFourthByte := subWithSaturation prev3 fourthByte
  let must23 := isThirdByte ||| isFourthByte
  (must23 &&& 0x80) ^^^ pairCheck prev1 current

/-- `_extract_vector`: the block that starts at `offset` in two joined ones. -/
def extractVector {simdSize : ℕ} (offset : ℕ) (a b : Vector Byte simdSize) : Vector Byte simdSize :=
  Vector.ofFn fun i => (a ++ b)[offset + i.val]?.getD 0

/-- `validate_chunk`. -/
def validateChunk {simdSize : ℕ} (current previous : Vector Byte simdSize) : Vector Byte simdSize :=
  let prev1 := extractVector (simdSize - 1) previous current
  let prev2 := extractVector (simdSize - 2) previous current
  let prev3 := extractVector (simdSize - 3) previous current
  Vector.ofFn fun i => laneError prev3[i] prev2[i] prev1[i] current[i]

/-- A full block, read at `i`. -/
def loadBlock (simdSize : ℕ) (span : List Byte) (i : ℕ) : Vector Byte simdSize :=
  Vector.ofFn fun j => span[i + j.val]?.getD 0

/-- The last, incomplete block: the bytes from `i` on, copied over zeroes. -/
def tailBlock (simdSize : ℕ) (span : List Byte) (i : ℕ) : Vector Byte simdSize :=
  (List.range' i (span.length - i)).foldl
    (fun buffer j => buffer.setIfInBounds (j - i) (span[j]?.getD 0)) (Vector.replicate simdSize 0)

/-- The loop of `_is_valid_utf8_runtime` and the check of the final block. -/
def runtimeLoop (simdSize : ℕ) (span : List Byte) (i : ℕ) (previous : Vector Byte simdSize) :
    Bool :=
  if _h : 0 < simdSize ∧ i + simdSize ≤ span.length then
    let currentBytes := loadBlock simdSize span i
    let hasError := validateChunk currentBytes previous
    if hasError.any (· != 0) then false
    else runtimeLoop simdSize span (i + simdSize) currentBytes
  else
    let hasError :=
      if i ≠ span.length then validateChunk (tailBlock simdSize span i) previous
      -- a block of zeroes, to end a character that the last block left open
      else validateChunk (Vector.replicate simdSize 0) previous
    hasError.all (· == 0)
  termination_by span.length - i

/-- `_is_valid_utf8_runtime`. -/
def isValidUtf8Runtime (simdSize : ℕ) (span : List Byte) : Bool :=
  runtimeLoop simdSize span 0 (Vector.replicate simdSize 0)

/-! ### Scalar validation -/

def biggestUtf8FirstByte : Byte := 0b11110100

/-- `_utf8_byte_type`: the number of leading ones. -/
def utf8ByteType (b : Byte) : ℕ :=
  (~~~b).clz.toNat

/-- `_is_utf8_continuation_byte`: the byte as a signed number is below -64. -/
def isUtf8ContinuationByte (b : Byte) : Bool :=
  b.toInt < -(0b10000000 >>> 1 : ℤ)

/-- The loop of `_is_valid_utf8_comptime`. -/
def comptimeLoop (span : List Byte) (offset : ℕ) : Bool :=
  if _h : offset < span.length then
    let b0 := span[offset]
    if b0 > biggestUtf8FirstByte then false
    else
      let byteType := utf8ByteType b0
      if _h0 : byteType = 0 then comptimeLoop span (offset + 1)
      else if byteType = 1 then false
      else if (List.range' 1 (byteType - 1)).any fun i =>
          !(decide (offset + i < span.length) &&
            isUtf8ContinuationByte (span[offset + i]?.getD 0)) then false
      else
        -- special unicode ranges
        let b1 := span[offset + 1]?.getD 0
        if byteType = 2 && b0 < 0b11000010 then false
        else if b0 == 0xE0 && b1 < 0xA0 then false
        else if b0 == 0xED && b1 > 0x9F then false
        else if b0 == 0xF0 && b1 < 0x90 then false
        else if b0 == 0xF4 && b1 > 0x8F then false
        else comptimeLoop span (offset + byteType)
  else true
  termination_by span.length - offset
  decreasing_by
    · omega
    · have hpos : utf8ByteType span[offset] ≠ 0 := _h0
      omega

/-- `_is_valid_utf8_comptime`. -/
def isValidUtf8Comptime (span : List Byte) : Bool :=
  comptimeLoop span 0

/-! ### What the tables decide -/

/-- The tables, with the second byte only known by its high half. -/
theorem tables_spec : ∀ (p : Byte) (high : Fin 16),
    let sc := dynamicShuffle shuf1 (p >>> 4) &&& dynamicShuffle shuf2 (p &&& 0x0F) &&& shuf3[high]
    (sc = 0 ↔ if 8 ≤ high.val ∧ high.val ≤ 11 then
        (0xC2 ≤ p.toNat ∧ p.toNat ≤ 0xF4) ∧ (p.toNat = 0xE0 → 10 ≤ high.val) ∧
          (p.toNat = 0xED → high.val ≤ 9) ∧ (p.toNat = 0xF0 → 9 ≤ high.val) ∧
          (p.toNat = 0xF4 → high.val ≤ 8)
      else p.toNat < 0xC0) ∧
    (sc = 0x80 ↔ IsTail p ∧ 8 ≤ high.val ∧ high.val ≤ 11) := by
  decide +kernel

theorem shiftRight_four_toNat (c : Byte) : (c >>> 4).toNat = c.toNat / 16 := by
  rw [BitVec.toNat_ushiftRight, Nat.shiftRight_eq_div_pow]

theorem pairCheck_high (p c : Byte) (h : c.toNat / 16 < 16) :
    pairCheck p c = dynamicShuffle shuf1 (p >>> 4) &&& dynamicShuffle shuf2 (p &&& 0x0F) &&&
      shuf3[(⟨c.toNat / 16, h⟩ : Fin 16)] := by
  have hlook : dynamicShuffle shuf3 (c >>> 4) = shuf3[(⟨c.toNat / 16, h⟩ : Fin 16)] := by
    rw [dynamicShuffle, shiftRight_four_toNat, Vector.getElem?_eq_getElem h]
    rfl
  rw [pairCheck, hlook]

/-- A pair without error bits: a trailing byte after a first byte that allows
it, or no trailing byte after a byte that opens nothing. -/
theorem pairCheck_eq_zero_iff (p c : Byte) : pairCheck p c = 0 ↔
      if IsTail c then (0xC2 ≤ p.toNat ∧ p.toNat ≤ 0xF4) ∧ IsSecond p c else p.toNat < 0xC0 := by
  have hc := c.isLt
  have hlt : c.toNat / 16 < 16 := by omega
  rw [pairCheck_high p c hlt, (tables_spec p ⟨c.toNat / 16, hlt⟩).1]
  have htail : IsTail c ↔ 8 ≤ c.toNat / 16 ∧ c.toNat / 16 ≤ 11 := by
    rw [IsTail]
    omega
  by_cases ht : IsTail c
  · rw [if_pos (htail.mp ht), if_pos ht, IsSecond]
    refine and_congr_right fun _ => ?_
    rw [and_iff_right ht]
    dsimp only
    omega
  · rw [if_neg (htail.not.mp ht), if_neg ht]

/-- Exactly the error bit of two trailing bytes. -/
theorem pairCheck_eq_twoConts_iff (p c : Byte) : pairCheck p c = 0x80 ↔ IsTail p ∧ IsTail c := by
  have hc := c.isLt
  have hlt : c.toNat / 16 < 16 := by omega
  rw [pairCheck_high p c hlt, (tables_spec p ⟨c.toNat / 16, hlt⟩).2, IsTail, IsTail]
  refine and_congr_right fun _ => ?_
  dsimp only
  omega

/-- A saturating subtraction leaves the top bit exactly when the byte is at
least `0x80` larger. -/
theorem subWithSaturation_top (b lead : Byte) (h : 0x80 ≤ lead.toNat) :
    (subWithSaturation b (lead - 0x80)).getLsbD 7 = decide (lead.toNat ≤ b.toNat) := by
  have hsub : (lead - 0x80).toNat = lead.toNat - 0x80 := by
    rw [BitVec.toNat_sub_of_le h]
    rfl
  have htop : ∀ x : Byte, x.getLsbD 7 = decide (0x80 ≤ x.toNat) := by
    intro x
    have hmsb := BitVec.msb_eq_decide x
    rw [BitVec.msb_eq_getLsbD_last] at hmsb
    simpa using hmsb
  rw [htop, subWithSaturation, hsub]
  split_ifs with hlt
  · have : ¬ lead.toNat ≤ b.toNat := by omega
    simp [this]
  · rw [BitVec.toNat_sub_of_le (by rw [BitVec.le_def, hsub]; omega), hsub]
    exact decide_eq_decide.mpr (by omega)

/-- The saturating subtractions find the first bytes of long characters. -/
theorem must23_eq (p₃ p₂ : Byte) :
    (subWithSaturation p₂ (0b11100000 - 0x80) ||| subWithSaturation p₃ (0b11110000 - 0x80)) &&&
        0x80 = if 0xE0 ≤ p₂.toNat ∨ 0xF0 ≤ p₃.toNat then 0x80 else 0 := by
  have hmask : ∀ x : Byte, x &&& 0x80 = if x.getLsbD 7 then 0x80 else 0 :=
    fun x => BitVec.and_twoPow x 7
  rw [hmask, BitVec.getLsbD_or, subWithSaturation_top p₂ 0xE0 (by decide),
    subWithSaturation_top p₃ 0xF0 (by decide)]
  refine if_congr ?_ rfl rfl
  rw [Bool.or_eq_true, decide_eq_true_eq, decide_eq_true_eq]
  rfl

/-- What one lane checks.  A byte that must be the third or fourth of a
character stands after a trailing byte and is one itself; any other byte is
checked against the one before it. -/
def LaneOk (p₃ p₂ p₁ c : Byte) : Prop :=
  if 0xE0 ≤ p₂.toNat ∨ 0xF0 ≤ p₃.toNat then IsTail p₁ ∧ IsTail c
  else if IsTail c then (0xC2 ≤ p₁.toNat ∧ p₁.toNat ≤ 0xF4) ∧ IsSecond p₁ c
  else p₁.toNat < 0xC0

theorem laneError_eq_zero_iff (p₃ p₂ p₁ c : Byte) :
    laneError p₃ p₂ p₁ c = 0 ↔ LaneOk p₃ p₂ p₁ c := by
  have hxor : ∀ x y : Byte, x ^^^ y = 0 ↔ y = x := fun x y =>
    BitVec.xor_eq_zero_iff.trans eq_comm
  rw [laneError, hxor, must23_eq, LaneOk]
  split_ifs with hmust htail
  · exact pairCheck_eq_twoConts_iff p₁ c
  · rw [pairCheck_eq_zero_iff, if_pos htail]
  · rw [pairCheck_eq_zero_iff, if_neg htail]

/-! ### Lanes along a string -/

/-- Every byte of a string passes its lane check, and so does a zero after
it; `p₃`, `p₂` and `p₁` are the bytes before the string. -/
def LanesOk : (p₃ p₂ p₁ : Byte) → List Byte → Prop
  | p₃, p₂, p₁, [] => LaneOk p₃ p₂ p₁ 0
  | p₃, p₂, p₁, c :: s => LaneOk p₃ p₂ p₁ c ∧ LanesOk p₂ p₁ c s

/-- Between two characters: no byte before is still owed a trailing byte. -/
structure Boundary (p₃ p₂ p₁ : Byte) : Prop where
  three : p₃.toNat < 0xF0
  two : p₂.toNat < 0xE0
  one : p₁.toNat < 0xC0

theorem not_isTail_zero : ¬ IsTail 0 := by decide

variable {p₃ p₂ p₁ : Byte}

theorem laneOk_zero_iff : LaneOk p₃ p₂ p₁ 0 ↔ Boundary p₃ p₂ p₁ := by
  rw [LaneOk, if_neg not_isTail_zero]
  split_ifs with hmust
  · refine ⟨fun h => absurd h.2 not_isTail_zero, fun h => ?_⟩
    have h₂ := h.two
    have h₃ := h.three
    omega
  · exact ⟨fun h => ⟨by omega, by omega, h⟩, fun h => h.one⟩

/-- At a boundary, a byte passes unless it is a trailing byte. -/
theorem Boundary.laneOk_iff (h : Boundary p₃ p₂ p₁) (c : Byte) :
    LaneOk p₃ p₂ p₁ c ↔ ¬ IsTail c := by
  have h₃ := h.three
  have h₂ := h.two
  have h₁ := h.one
  rw [LaneOk, if_neg (by omega)]
  split_ifs with htail
  · exact ⟨fun hc => absurd hc.1.1 (by omega), fun hc => absurd htail hc⟩
  · exact ⟨fun _ => htail, fun _ => h₁⟩

/-- Right after a first byte, only an allowed second byte passes. -/
theorem laneOk_second_iff {b c : Byte} (h₃ : p₃.toNat < 0xF0) (h₂ : p₂.toNat < 0xE0)
    (hb : 0xC0 ≤ b.toNat) :
    LaneOk p₃ p₂ b c ↔ (0xC2 ≤ b.toNat ∧ b.toNat ≤ 0xF4) ∧ IsSecond b c := by
  rw [LaneOk, if_neg (by omega)]
  split_ifs with htail
  · rfl
  · exact ⟨fun h => absurd h (by omega), fun h => absurd h.2.1 htail⟩

theorem IsTail.lt {b : Byte} (h : IsTail b) : b.toNat < 0xC0 := by
  have := h.2
  omega

variable {s : List Byte}

/-- Within a character the string goes on. -/
theorem lanesOk_open_iff (h : ¬ Boundary p₃ p₂ p₁) :
    LanesOk p₃ p₂ p₁ s ↔ ∃ b t, s = b :: t ∧ LaneOk p₃ p₂ p₁ b ∧ LanesOk p₂ p₁ b t := by
  cases s with
  | nil => exact iff_of_false (fun hok => h (laneOk_zero_iff.mp hok)) (by simp)
  | cons c s => simp [LanesOk]

/-- After a first byte the string goes on with a second byte. -/
theorem lanesOk_second_iff {b : Byte} (h₃ : p₃.toNat < 0xF0) (h₂ : p₂.toNat < 0xE0)
    (hb : 0xC0 ≤ b.toNat) :
    LanesOk p₃ p₂ b s ↔ ∃ b₁ t, s = b₁ :: t ∧ ((0xC2 ≤ b.toNat ∧ b.toNat ≤ 0xF4) ∧
      IsSecond b b₁) ∧ LanesOk p₂ b b₁ t := by
  have hopen : ¬ Boundary p₃ p₂ b := fun h => absurd h.one (by omega)
  simp only [lanesOk_open_iff hopen, laneOk_second_iff h₃ h₂ hb]

/-- Where a third or fourth byte must stand, the string goes on with a
trailing byte. -/
theorem lanesOk_must_iff (h : 0xE0 ≤ p₂.toNat ∨ 0xF0 ≤ p₃.toNat) :
    LanesOk p₃ p₂ p₁ s ↔ ∃ b₁ t, s = b₁ :: t ∧ (IsTail p₁ ∧ IsTail b₁) ∧ LanesOk p₂ p₁ b₁ t := by
  have hopen : ¬ Boundary p₃ p₂ p₁ := by
    rintro ⟨h₃, h₂, -⟩
    omega
  simp only [lanesOk_open_iff hopen, LaneOk, if_pos h]

/-- After these bytes `n` trailing bytes have to follow. -/
def Owed : ℕ → (p₃ p₂ p₁ : Byte) → Prop
  | 0, p₃, p₂, p₁ => Boundary p₃ p₂ p₁
  | n + 1, p₃, p₂, p₁ =>
    (0xE0 ≤ p₂.toNat ∨ 0xF0 ≤ p₃.toNat) ∧ IsTail p₁ ∧ ∀ c, IsTail c → Owed n p₂ p₁ c

/-- What is owed after the first two bytes of a character. -/
theorem owed_of_lead {n : ℕ} {b₀ b₁ : Byte} (h : p₁.toNat < 0xC0) (hlead : IsLead b₀ (n + 2))
    (hb : IsTail b₁) : Owed n p₁ b₀ b₁ := by
  have hlt := hb.lt
  rw [IsLead] at hlead
  rcases (by omega : n = 0 ∨ n = 1 ∨ n = 2) with rfl | rfl | rfl
  · exact ⟨by omega, by omega, hlt⟩
  · exact ⟨by omega, hb, fun c hc => ⟨by omega, by omega, hc.lt⟩⟩
  · refine ⟨by omega, hb, fun c hc => ⟨by omega, hc, fun d hd => ⟨by omega, ?_, hd.lt⟩⟩⟩
    have := hc.lt
    omega

/-- The owed bytes are the next ones; after them there is a boundary. -/
theorem lanesOk_owed_iff {n : ℕ} (h : Owed n p₃ p₂ p₁)
    (hrec : ∀ t : List Byte, t.length ≤ s.length → ∀ {q₃ q₂ q₁}, Boundary q₃ q₂ q₁ →
      (LanesOk q₃ q₂ q₁ t ↔ WellFormed t)) :
    LanesOk p₃ p₂ p₁ s ↔ ∃ c t, s = c ++ t ∧ c.length = n ∧ (∀ b ∈ c, IsTail b) ∧ WellFormed t := by
  induction n generalizing p₃ p₂ p₁ s with
  | zero =>
    rw [hrec s le_rfl h]
    refine ⟨fun hs => ⟨[], s, rfl, rfl, by simp, hs⟩, ?_⟩
    rintro ⟨c, t, rfl, hc, -, ht⟩
    rwa [length_eq_zero_iff.mp hc]
  | succ n ih =>
    rw [lanesOk_must_iff h.1]
    constructor
    · rintro ⟨b, t, rfl, ⟨-, hb⟩, hok⟩
      obtain ⟨c, t, rfl, hc, htail, ht⟩ :=
        (ih (h.2.2 b hb) fun t ht => hrec t (by simp at ht ⊢; omega)).mp hok
      exact ⟨b :: c, t, rfl, by simp [hc], by simpa [hb] using htail, ht⟩
    · rintro ⟨c, t, rfl, hc, htail, ht⟩
      obtain ⟨b, c, rfl⟩ := exists_cons_of_length_eq_add_one hc
      obtain ⟨hb, htail⟩ := forall_mem_cons.mp htail
      refine ⟨b, c ++ t, rfl, ⟨h.2.1, hb⟩, ?_⟩
      exact (ih (h.2.2 b hb) fun t ht => hrec t (by simp at ht ⊢; omega)).mpr
        ⟨c, t, rfl, by simpa using hc, htail, ht⟩

/-- From a boundary on, the lane checks accept exactly the well-formed
strings. -/
theorem lanesOk_iff_wellFormed (s : List Byte) (h : Boundary p₃ p₂ p₁) :
    LanesOk p₃ p₂ p₁ s ↔ WellFormed s := by
  -- induction on the length: each step removes a whole character
  induction hn : s.length using Nat.strong_induction_on generalizing s p₃ p₂ p₁ with
  | _ n ih =>
  subst hn
  have h₂ := h.two
  have h₁ := h.one
  rcases s with _ | ⟨b₀, s⟩
  · exact iff_of_true (laneOk_zero_iff.mpr h) WellFormed.nil
  rw [LanesOk, h.laneOk_iff]
  rcases (by omega : b₀.toNat ≤ 0x7F ∨ 0x80 ≤ b₀.toNat ∧ b₀.toNat ≤ 0xBF ∨ 0xC0 ≤ b₀.toNat)
    with hb | hb | hb
  · rw [wellFormed_one_iff hb, ih _ (by simp) s ⟨by omega, by omega, by omega⟩ rfl]
    exact and_iff_right fun ht => by have := ht.1; omega
  · exact iff_of_false (fun hok => hok.1 hb) (not_wellFormed_of_first (.inl ⟨hb.1, by omega⟩) s)
  have hnt : ¬ IsTail b₀ := fun ht => by have := ht.lt; omega
  rw [and_iff_right hnt, lanesOk_second_iff (by omega) (by omega) hb,
    wellFormed_lead_iff (by omega)]
  constructor
  · rintro ⟨b₁, t, rfl, ⟨hrange, hsec⟩, hok⟩
    obtain ⟨n, hlead⟩ : ∃ n, IsLead b₀ (n + 2) := by
      rcases (by omega : b₀.toNat ≤ 0xDF ∨ 0xE0 ≤ b₀.toNat ∧ b₀.toNat ≤ 0xEF ∨ 0xF0 ≤ b₀.toNat)
        with hw | hw | hw
      · exact ⟨0, .inl ⟨rfl, hrange.1, hw⟩⟩
      · exact ⟨1, .inr (.inl ⟨rfl, hw⟩)⟩
      · exact ⟨2, .inr (.inr ⟨rfl, hw, hrange.2⟩)⟩
    obtain ⟨c, t, rfl, rfl, htail, ht⟩ := (lanesOk_owed_iff (owed_of_lead h₁ hlead hsec.1)
      fun u hu _ _ _ hbd => ih _ (by simp at hu ⊢; omega) u hbd rfl).mp hok
    exact ⟨b₁, c, t, rfl, hlead, hsec, htail, ht⟩
  · rintro ⟨b₁, c, t, rfl, hlead, hsec, htail, ht⟩
    refine ⟨b₁, c ++ t, rfl, ⟨by rw [IsLead] at hlead; omega, hsec⟩, ?_⟩
    exact (lanesOk_owed_iff (owed_of_lead h₁ hlead hsec.1)
      fun u hu _ _ _ hbd => ih _ (by simp at hu ⊢; omega) u hbd rfl).mpr ⟨c, t, rfl, rfl, htail, ht⟩

/-! ### Blocks -/

/-- A string with three zeroes before it and zeroes after it. -/
def padded (s : List Byte) (k : ℕ) : Byte :=
  ((0 : Byte) :: 0 :: 0 :: s)[k]?.getD 0

/-- The lane check of the byte `k`, which is `padded s (k + 3)`. -/
def LaneOkAt (s : List Byte) (k : ℕ) : Prop :=
  LaneOk (padded s k) (padded s (k + 1)) (padded s (k + 2)) (padded s (k + 3))

theorem padded_add_three (s : List Byte) (k : ℕ) : padded s (k + 3) = s[k]?.getD 0 := rfl

theorem padded_of_lt (s : List Byte) {k : ℕ} (h : k < 3) : padded s k = 0 := by
  match k, h with
  | 0, _ => rfl
  | 1, _ => rfl
  | 2, _ => rfl

/-- Past the end, each check follows from the one before. -/
theorem LaneOkAt.succ {k : ℕ} (hk : s.length ≤ k) (h : LaneOkAt s k) : LaneOkAt s (k + 1) := by
  have hzero : ∀ j, s.length ≤ j → padded s (j + 3) = 0 := by
    intro j hj
    rw [padded_add_three, getElem?_eq_none hj]
    rfl
  rw [LaneOkAt, hzero k hk, laneOk_zero_iff] at h
  have h₂ := h.two
  have h₁ := h.one
  rw [LaneOkAt, (by omega : k + 1 + 2 = k + 3), (by omega : k + 1 + 1 = k + 2), hzero k hk,
    hzero (k + 1) (by omega), laneOk_zero_iff]
  exact ⟨by omega, by omega, by decide⟩

/-- The checks along a string are the checks at its positions and at its
end. -/
theorem lanesOk_iff_forall_le (p₃ p₂ p₁ : Byte) (s : List Byte) :
    LanesOk p₃ p₂ p₁ s ↔ ∀ k ≤ s.length,
      LaneOk ((p₃ :: p₂ :: p₁ :: s)[k]?.getD 0) ((p₃ :: p₂ :: p₁ :: s)[k + 1]?.getD 0)
        ((p₃ :: p₂ :: p₁ :: s)[k + 2]?.getD 0) ((p₃ :: p₂ :: p₁ :: s)[k + 3]?.getD 0) := by
  induction s generalizing p₃ p₂ p₁ with
  | nil =>
    constructor
    · intro h k hk
      obtain rfl : k = 0 := Nat.le_zero.mp hk
      exact h
    · exact fun h => h 0 le_rfl
  | cons c s ih =>
    rw [LanesOk, ih]
    constructor
    · rintro ⟨h0, hs⟩ k hk
      cases k with
      | zero => exact h0
      | succ k => exact hs k (Nat.succ_le_succ_iff.mp hk)
    · exact fun h => ⟨h 0 (Nat.zero_le _), fun k hk => h (k + 1) (Nat.succ_le_succ hk)⟩

/-- The checks past the end follow from the one at the end. -/
theorem laneOkAt_of_forall_le {i k : ℕ} (hi : i ≤ s.length)
    (h : ∀ k, i ≤ k → k ≤ s.length → LaneOkAt s k) (hk : i ≤ k) : LaneOkAt s k := by
  rcases le_total k s.length with hle | hle
  · exact h k hk hle
  · induction k, hle using Nat.le_induction with
    | base => exact h _ hi le_rfl
    | succ k hle ih => exact (ih (by omega)).succ hle

theorem forall_laneOkAt_iff (s : List Byte) : (∀ k, LaneOkAt s k) ↔ WellFormed s := by
  have hbd : Boundary 0 0 0 := ⟨by decide, by decide, by decide⟩
  rw [← lanesOk_iff_wellFormed s hbd, lanesOk_iff_forall_le]
  exact ⟨fun h k _ => h k, fun h k =>
    laneOkAt_of_forall_le (Nat.zero_le _) (fun j _ hj => h j hj) (Nat.zero_le k)⟩

/-- The block before position `i` ends with the three bytes before it. -/
def Carries {simdSize : ℕ} (s : List Byte) (i : ℕ) (previous : Vector Byte simdSize) : Prop :=
  ∀ d < 3, previous[simdSize - 3 + d]?.getD 0 = padded s (i + d)

/-- The block at position `i` holds the bytes from there on. -/
def Holds {simdSize : ℕ} (s : List Byte) (i : ℕ) (current : Vector Byte simdSize) : Prop :=
  ∀ j, (h : j < simdSize) → current[j] = s[i + j]?.getD 0

variable {simdSize : ℕ} {previous current : Vector Byte simdSize}

/-- Two neighbouring blocks, read from the third last byte of the first. -/
theorem getElem?_append_carries {i m : ℕ} (hsize : 3 ≤ simdSize) (hp : Carries s i previous)
    (hc : Holds s i current) (hm : m < simdSize + 3) :
    (previous ++ current)[simdSize - 3 + m]?.getD 0 = padded s (i + m) := by
  rcases lt_or_ge m 3 with h3 | h3
  · rw [← hp m h3, Vector.getElem?_append_left (by omega)]
  obtain ⟨j, rfl⟩ := Nat.exists_eq_add_of_le' h3
  have hj : j < simdSize := by omega
  rw [Vector.getElem?_append_right (by omega), ← Nat.add_assoc i j 3, padded_add_three, ← hc j hj]
  have hidx : simdSize - 3 + (j + 3) - simdSize = j := by omega
  rw [hidx, Vector.getElem?_eq_getElem hj]
  rfl

/-- Each lane of a block checks one position of the string. -/
theorem validateChunk_getElem_eq_zero_iff {i j : ℕ} (hsize : 3 ≤ simdSize)
    (hp : Carries s i previous) (hc : Holds s i current) (hj : j < simdSize) :
    (validateChunk current previous)[j] = 0 ↔ LaneOkAt s (i + j) := by
  have hlane : ∀ d ≤ 3, (extractVector (simdSize - d) previous current)[j] =
      padded s (i + j + (3 - d)) := by
    intro d hd
    have hget := getElem?_append_carries hsize hp hc (m := j + (3 - d)) (by omega)
    rw [extractVector, Vector.getElem_ofFn, Nat.add_assoc i, ← hget]
    dsimp only
    rw [(by omega : simdSize - d + j = simdSize - 3 + (j + (3 - d)))]
  have h₃ := hlane 3 le_rfl
  have h₂ := hlane 2 (by omega)
  have h₁ := hlane 1 (by omega)
  have hcur : current[j] = padded s (i + j + 3) := hc j hj
  simp only [validateChunk, Vector.getElem_ofFn, Fin.getElem_fin, h₃, h₂, h₁, hcur]
  exact laneError_eq_zero_iff _ _ _ _

/-- A block passes when all its positions do. -/
theorem validateChunk_all_iff {i : ℕ} (hsize : 3 ≤ simdSize) (hp : Carries s i previous)
    (hc : Holds s i current) : (validateChunk current previous).all (· == 0) = true ↔
      ∀ k, i ≤ k → k < i + simdSize → LaneOkAt s k := by
  rw [Vector.all_eq_true]
  constructor
  · intro h k hik hk
    obtain ⟨j, rfl⟩ := Nat.exists_eq_add_of_le hik
    have hj : j < simdSize := by omega
    exact (validateChunk_getElem_eq_zero_iff hsize hp hc hj).mp (beq_iff_eq.mp (h j hj))
  · intro h j hj
    rw [beq_iff_eq, validateChunk_getElem_eq_zero_iff hsize hp hc hj]
    exact h (i + j) (by omega) (by omega)

theorem carries_zero (s : List Byte) : Carries s 0 (Vector.replicate simdSize (0 : Byte)) := by
  intro d hd
  rw [padded_of_lt s (by omega), Vector.getElem?_replicate]
  split_ifs <;> rfl

theorem holds_loadBlock (simdSize : ℕ) (s : List Byte) (i : ℕ) :
    Holds s i (loadBlock simdSize s i) := by
  intro j hj
  rw [loadBlock, Vector.getElem_ofFn]

theorem Holds.carries {i : ℕ} (hsize : 3 ≤ simdSize) (h : Holds s i current) :
    Carries s (i + simdSize) current := by
  intro d hd
  rw [Vector.getElem?_eq_getElem (by omega), Option.getD_some, h _ (by omega), ← padded_add_three]
  congr 1
  omega

theorem holds_tailBlock {i : ℕ} : Holds s i (tailBlock simdSize s i) := by
  intro j hj
  have hmap : range' i (s.length - i) = (range (s.length - i)).map (i + ·) :=
    ext_getElem (by simp) (by simp)
  simp only [tailBlock, hmap, foldl_map, Nat.add_sub_cancel_left]
  rw [WordBits.foldl_store_getElem (fun k => s[i + k]?.getD 0)]
  split_ifs with h
  · rfl
  · rw [Vector.getElem_replicate, getElem?_eq_none (by omega)]
    rfl

theorem holds_replicate : Holds s s.length (Vector.replicate simdSize (0 : Byte)) := by
  have h : Holds s s.length (tailBlock simdSize s s.length) := holds_tailBlock
  simpa [tailBlock] using h

/-- From a position where the last three bytes are carried, the loop checks
all positions. -/
theorem runtimeLoop_iff (hsize : 3 ≤ simdSize) (s : List Byte) (i : ℕ)
    (previous : Vector Byte simdSize) (hi : i ≤ s.length) (hp : Carries s i previous) :
    runtimeLoop simdSize s i previous = true ↔ ∀ k, i ≤ k → LaneOkAt s k := by
  induction hn : s.length - i using Nat.strong_induction_on generalizing i previous with
  | _ n ih =>
  rw [runtimeLoop]
  by_cases h : 0 < simdSize ∧ i + simdSize ≤ s.length
  · rw [dif_pos h]
    have hload := holds_loadBlock simdSize s i
    have hblock := validateChunk_all_iff hsize hp hload
    have hrest := ih (s.length - (i + simdSize)) (by omega) (i + simdSize)
      (loadBlock simdSize s i) h.2 (hload.carries hsize) rfl
    have hany : (validateChunk (loadBlock simdSize s i) previous).any (· != 0) =
        !(validateChunk (loadBlock simdSize s i) previous).all (· == 0) := by
      rw [Vector.not_all_eq_any_not]
      rfl
    dsimp only
    rw [hany]
    cases hall : (validateChunk (loadBlock simdSize s i) previous).all (· == 0) with
    | false =>
      refine iff_of_false (by simp) fun hk => absurd (hblock.mpr fun k hik _ => hk k hik) ?_
      rw [hall]
      exact Bool.false_ne_true
    | true =>
      rw [Bool.not_true, if_neg (by simp), hrest]
      refine ⟨fun hk k hik => ?_, fun hk k hik => hk k (by omega)⟩
      rcases lt_or_ge k (i + simdSize) with hlt | hge
      · exact hblock.mp hall k hik hlt
      · exact hk k hge
  · rw [dif_neg h]
    have hlast : ∀ {current : Vector Byte simdSize}, Holds s i current →
        ((validateChunk current previous).all (· == 0) = true ↔ ∀ k, i ≤ k → LaneOkAt s k) :=
      fun hc => (validateChunk_all_iff hsize hp hc).trans ⟨fun h _ => laneOkAt_of_forall_le hi
        fun k hk _ => h k hk (by omega), fun h k hk _ => h k hk⟩
    dsimp only
    split_ifs with hne
    · exact hlast holds_tailBlock
    · obtain rfl : i = s.length := not_not.mp hne
      exact hlast holds_replicate

/-- The block validator accepts exactly the well-formed strings. -/
theorem isValidUtf8Runtime_eq_true_iff (hsize : 3 ≤ simdSize) (s : List Byte) :
    isValidUtf8Runtime simdSize s = true ↔ WellFormed s := by
  rw [isValidUtf8Runtime, runtimeLoop_iff hsize s 0 _ (Nat.zero_le _) (carries_zero s),
    ← forall_laneOkAt_iff]
  exact ⟨fun h k => h k (Nat.zero_le k), fun h k _ => h k⟩

/-! ### The scalar validator -/

theorem utf8ByteType_eq : ∀ b : Byte, b.toNat ≤ 0xF4 →
    utf8ByteType b = if b.toNat < 0x80 then 0 else if b.toNat < 0xC0 then 1
      else if b.toNat < 0xE0 then 2 else if b.toNat < 0xF0 then 3 else 4 := by
  decide +kernel

theorem isUtf8ContinuationByte_iff : ∀ b : Byte, isUtf8ContinuationByte b = true ↔ IsTail b := by
  decide +kernel

/-- The inner check of the loop, at one index. -/
theorem continuation_check_iff {k : ℕ} :
    (decide (k < s.length) && isUtf8ContinuationByte (s[k]?.getD 0)) = true ↔
      ∃ b, s[k]? = some b ∧ IsTail b := by
  rw [Bool.and_eq_true, decide_eq_true_eq, isUtf8ContinuationByte_iff]
  constructor
  · rintro ⟨hk, ht⟩
    rw [getElem?_eq_getElem hk] at ht ⊢
    exact ⟨_, rfl, ht⟩
  · rintro ⟨b, hb, ht⟩
    obtain ⟨hk, -⟩ := List.getElem_of_getElem? hb
    rw [hb]
    exact ⟨hk, ht⟩

/-- The inner loop finds a byte that is not a trailing one. -/
theorem continuation_any_iff {offset n : ℕ} :
    ((range' 1 n).any fun i => !(decide (offset + i < s.length) &&
      isUtf8ContinuationByte (s[offset + i]?.getD 0))) = true ↔
        ¬ ∀ i < n, ∃ b, s[offset + 1 + i]? = some b ∧ IsTail b := by
  rw [any_eq_true, Classical.not_forall]
  simp only [Bool.not_eq_true', ← Bool.not_eq_true, continuation_check_iff, Classical.not_imp,
    mem_range'_1]
  constructor
  · rintro ⟨i, ⟨h1, hi⟩, hno⟩
    obtain ⟨j, rfl⟩ := Nat.exists_eq_add_of_le h1
    exact ⟨j, by omega, by rwa [Nat.add_assoc]⟩
  · rintro ⟨i, hi, hno⟩
    exact ⟨1 + i, by omega, by rwa [← Nat.add_assoc]⟩

theorem drop_eq_cons_iff {t : List Byte} {k : ℕ} {b : Byte} :
    s.drop k = b :: t ↔ s[k]? = some b ∧ s.drop (k + 1) = t := by
  rcases lt_or_ge k s.length with hk | hk
  · rw [drop_eq_getElem_cons hk, cons_eq_cons, getElem?_eq_getElem hk, Option.some_inj]
  · rw [drop_eq_nil_of_le hk, getElem?_eq_none hk]
    simp

/-- The range checks after the continuation bytes, for the second byte. -/
theorem special_ranges_iff {b₀ b₁ : Byte} (h₁ : IsTail b₁) :
    (¬ ((b₀ == 0xE0 && decide (b₁ < 0xA0)) = true) ∧ ¬ ((b₀ == 0xED && decide (b₁ > 0x9F)) = true) ∧
      ¬ ((b₀ == 0xF0 && decide (b₁ < 0x90)) = true) ∧
      ¬ ((b₀ == 0xF4 && decide (b₁ > 0x8F)) = true)) ↔ IsSecond b₀ b₁ := by
  simp only [Bool.and_eq_true, beq_iff_eq, decide_eq_true_eq, BitVec.lt_def, gt_iff_lt, IsSecond,
    ← BitVec.toNat_inj]
  have := h₁.1
  have := h₁.2
  simp only [BitVec.reduceToNat, not_and, not_lt]
  tauto

/-- One round of the loop on a character of `n + 1` bytes. -/
theorem comptimeLoop_multi {offset n : ℕ} (h : offset < s.length) (hle : s[offset].toNat ≤ 0xF4)
    (hn : utf8ByteType s[offset] = n + 1) (h1 : 1 ≤ n) :
    comptimeLoop s offset = true ↔ (∀ i < n, ∃ b, s[offset + 1 + i]? = some b ∧ IsTail b) ∧
      (n = 1 → 0xC2 ≤ s[offset].toNat) ∧ IsSecond s[offset] (s[offset + 1]?.getD 0) ∧
      comptimeLoop s (offset + 1 + n) = true := by
  have hbig : ¬ s[offset] > biggestUtf8FirstByte := by
    rw [gt_iff_lt, BitVec.lt_def]
    exact not_lt.mpr hle
  rw [comptimeLoop, dif_pos h]
  dsimp only
  rw [if_neg hbig, dif_neg (by omega), if_neg (by omega), hn, Nat.add_sub_cancel,
    Nat.add_right_comm offset 1 n, ← Nat.add_assoc]
  by_cases hcont : ∀ i < n, ∃ b, s[offset + 1 + i]? = some b ∧ IsTail b
  · rw [if_neg (continuation_any_iff.not.mpr (not_not.mpr hcont)), and_iff_right hcont]
    obtain ⟨b₁, hb₁, ht₁⟩ := hcont 0 (by omega)
    rw [show s[offset + 1]? = some b₁ from hb₁, Option.getD_some, ← special_ranges_iff ht₁]
    have hshort : (decide (n + 1 = 2) && decide (s[offset] < 0b11000010)) = true ↔
        ¬ (n = 1 → 0xC2 ≤ s[offset].toNat) := by
      rw [Bool.and_eq_true, decide_eq_true_eq, decide_eq_true_eq, BitVec.lt_def,
        Classical.not_imp, not_le, Nat.add_right_cancel_iff]
      rfl
    split_ifs with c1 c2 c3 c4 c5
    · exact iff_of_false (by simp) fun hok => hshort.mp c1 hok.1
    · exact iff_of_false (by simp) fun hok => hok.2.1.1 c2
    · exact iff_of_false (by simp) fun hok => hok.2.1.2.1 c3
    · exact iff_of_false (by simp) fun hok => hok.2.1.2.2.1 c4
    · exact iff_of_false (by simp) fun hok => hok.2.1.2.2.2 c5
    · exact ⟨fun hrec => ⟨not_not.mp (hshort.not.mp c1), ⟨c2, c3, c4, c5⟩, hrec⟩,
        fun hok => hok.2.2⟩
  · refine iff_of_false ?_ fun hok => hcont hok.1
    rw [if_pos (continuation_any_iff.mpr hcont)]
    exact Bool.false_ne_true

/-- The trailing bytes from a position on. -/
theorem tails_iff {k n : ℕ} : (∀ i < n, ∃ b, s[k + i]? = some b ∧ IsTail b) ↔
    ∃ c, s.drop k = c ++ s.drop (k + n) ∧ c.length = n ∧ ∀ b ∈ c, IsTail b := by
  constructor
  · intro h
    refine ⟨(s.drop k).take n, by rw [← drop_drop, take_append_drop], ?_, fun b hb => ?_⟩
    · rcases n.eq_zero_or_pos with rfl | hn
      · simp
      obtain ⟨b, hb, -⟩ := h (n - 1) (by omega)
      have hlt := (List.getElem_of_getElem? hb).1
      rw [length_take, length_drop]
      omega
    · obtain ⟨i, hi⟩ := mem_iff_getElem?.mp hb
      rw [getElem?_take, getElem?_drop] at hi
      split_ifs at hi with hin
      obtain ⟨b', hb', ht⟩ := h i hin
      rwa [Option.some_inj.mp (hi.symm.trans hb')]
  · rintro ⟨u, hdrop, rfl, htail⟩ i hi
    refine ⟨u[i], ?_, htail _ (getElem_mem hi)⟩
    rw [← getElem?_drop, hdrop, getElem?_append_left hi, getElem?_eq_getElem hi]

theorem isLead_iff {b : Byte} {n m : ℕ} (hle : b.toNat ≤ 0xF4) (hn : utf8ByteType b = n + 1)
    (h1 : 1 ≤ n) : IsLead b (m + 2) ↔ m + 1 = n ∧ (n = 1 → 0xC2 ≤ b.toNat) := by
  have hbt := utf8ByteType_eq b hle
  rw [IsLead]
  split_ifs at hbt <;> omega

/-- The scalar loop accepts exactly when the rest of the string is
well-formed. -/
theorem comptimeLoop_iff (s : List Byte) (offset : ℕ) :
    comptimeLoop s offset = true ↔ WellFormed (s.drop offset) := by
  -- induction on the bytes left
  induction hm : s.length - offset using Nat.strong_induction_on generalizing offset with
  | _ m ih =>
  rcases lt_or_ge offset s.length with h | h
  swap
  · rw [comptimeLoop, dif_neg (by omega), drop_eq_nil_of_le h]
    exact iff_of_true rfl WellFormed.nil
  rw [drop_eq_getElem_cons h]
  rcases lt_or_ge 0xF4 s[offset].toNat with hbig | hle
  · rw [comptimeLoop, dif_pos h]
    have hgt : s[offset] > biggestUtf8FirstByte := BitVec.lt_def.mpr hbig
    dsimp only
    rw [if_pos hgt]
    exact iff_of_false (by simp) (not_wellFormed_of_first (.inr hbig) _)
  have hgt : ¬ s[offset] > biggestUtf8FirstByte := by
    rw [gt_iff_lt, BitVec.lt_def]
    exact not_lt.mpr hle
  have hbt := utf8ByteType_eq s[offset] hle
  rcases (by omega : s[offset].toNat < 0x80 ∨ (0x80 ≤ s[offset].toNat ∧ s[offset].toNat < 0xC0) ∨
    0xC0 ≤ s[offset].toNat) with hr | hr | hr
  · rw [if_pos hr] at hbt
    rw [comptimeLoop, dif_pos h]
    dsimp only
    rw [if_neg hgt, dif_pos hbt, ih (s.length - (offset + 1)) (by omega) _ rfl,
      wellFormed_one_iff (by omega)]
  · rw [if_neg (by omega), if_pos hr.2] at hbt
    rw [comptimeLoop, dif_pos h]
    dsimp only
    rw [if_neg hgt, dif_neg (by omega), if_pos hbt]
    exact iff_of_false (by simp) (not_wellFormed_of_first (.inl ⟨hr.1, by omega⟩) _)
  obtain ⟨n, hn, h1⟩ : ∃ n, utf8ByteType s[offset] = n + 1 ∧ 1 ≤ n := by
    refine ⟨utf8ByteType s[offset] - 1, ?_⟩
    split_ifs at hbt <;> omega
  rw [comptimeLoop_multi h hle hn h1, ih _ (by omega) _ rfl, tails_iff,
    wellFormed_lead_iff (by omega)]
  constructor
  · rintro ⟨⟨c, hdrop, hc, htail⟩, hshort, hsec, hrest⟩
    obtain ⟨b₁, c, rfl⟩ := exists_cons_of_length_pos (hc ▸ h1)
    rw [(drop_eq_cons_iff.mp hdrop).1, Option.getD_some] at hsec
    exact ⟨b₁, c, _, hdrop, (isLead_iff hle hn h1).mpr ⟨hc, hshort⟩, hsec,
      (forall_mem_cons.mp htail).2, hrest⟩
  · rintro ⟨b₁, c, t, hs, hlead, hsec, htail, ht⟩
    obtain ⟨rfl, hshort⟩ := (isLead_iff hle hn h1).mp hlead
    have hrest := congrArg (drop (c.length + 1)) hs
    rw [drop_drop, drop_succ_cons, drop_left] at hrest
    rw [hrest, (drop_eq_cons_iff.mp hs).1]
    exact ⟨⟨b₁ :: c, hs, rfl, forall_mem_cons.mpr ⟨hsec.1, htail⟩⟩, hshort, hsec, ht⟩

theorem isValidUtf8Comptime_eq_true_iff (s : List Byte) :
    isValidUtf8Comptime s = true ↔ WellFormed s := by
  rw [isValidUtf8Comptime, comptimeLoop_iff, drop_zero]

/-- **UTF-8 validation.**  With blocks of at least 16 bytes the block validator
accepts a string exactly when it is well-formed, and so it agrees with the
scalar validator on every string. -/
theorem isValidUtf8_spec {simdSize : ℕ} (hsize : 16 ≤ simdSize) (s : List Byte) :
    (isValidUtf8Runtime simdSize s = true ↔ WellFormed s) ∧
      isValidUtf8Runtime simdSize s = isValidUtf8Comptime s := by
  have hruntime := isValidUtf8Runtime_eq_true_iff (by omega : 3 ≤ simdSize) s
  refine ⟨hruntime, ?_⟩
  rw [Bool.eq_iff_iff, hruntime, isValidUtf8Comptime_eq_true_iff]

/-- The euro sign and an overlong slash, in blocks of 16. -/
theorem isValidUtf8_spec_sixteen :
    WellFormed [0xE2, 0x82, 0xAC] ∧ isValidUtf8Runtime 16 [0xC0, 0xAF] = false := by
  refine ⟨(isValidUtf8_spec (le_refl 16) [0xE2, 0x82, 0xAC]).1.mp ?_, ?_⟩
  · rw [(isValidUtf8_spec (le_refl 16) _).2]
    decide +kernel
  · rw [(isValidUtf8_spec (le_refl 16) _).2]
    decide +kernel

end Utf8
