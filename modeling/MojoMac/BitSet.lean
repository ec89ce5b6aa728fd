/-
`BitSet` (`collections/bitset.mojo`): a set of integers below a compile-time
`size`, one bit each, in an array of 64-bit words.

Every operation is described by what it does to the single storage bits
(`bit_set`, `bit_zeroUpper`, `bit_vectorizeApply`, `bit_resizedFrom`, ...);
what a bitset stands for, its length and its text are read off the bits.

* `vectorize_lanes` — the vectorized loop visits every index once, in order;
* `Denotes` — a bitset has exactly the bits of a set below `size`;
* `Denotes.len`, `Denotes.writeTo` — the count and the text of such a bitset.
-/
import MojoMac.WordBits

open List hiding Vector

/-! ### The vectorized loop -/

namespace Vectorize

/-- One call of the loop body, on the indices `idx, ..., idx + width - 1`. -/
structure Call where
  width : ℕ
  idx : ℕ
  deriving DecidableEq, Repr

def Call.lanes (c : Call) : List ℕ :=
  List.range' c.idx c.width

def alignDown (value alignment : ℕ) : ℕ :=
  value / alignment * alignment

/-- `range(start, stop, step)`. -/
def steps (start stop step : ℕ) : List ℕ :=
  List.range' start ((stop - start + (step - 1)) / step) step

/-- `vectorize`: the calls of the loop body, in order. -/
def vectorize (simdWidth unrollFactor size : ℕ) : List Call :=
  let unrolledSimdWidth := simdWidth * unrollFactor
  let simdEnd := alignDown size simdWidth
  let unrolledEnd := alignDown size unrolledSimdWidth
  ((steps 0 unrolledEnd unrolledSimdWidth).flatMap fun unrolledIdx =>
      (List.range unrollFactor).map fun idx => ⟨simdWidth, unrolledIdx + idx * simdWidth⟩) ++
    (if unrollFactor > 1 then (steps unrolledEnd simdEnd simdWidth).map (⟨simdWidth, ·⟩) else []) ++
    (List.range' simdEnd (size - simdEnd)).map (⟨1, ·⟩)

/-- Consecutive blocks of `w` make one interval. -/
theorem flatMap_range' (a c w : ℕ) :
    ((range' a c w).flatMap fun o => range' o w) = range' a (c * w) := by
  induction c generalizing a with
  | zero => simp
  | succ c ih =>
    rw [range'_succ, flatMap_cons, ih, Nat.succ_mul, Nat.add_comm (c * w) w]
    exact range'_append_1

theorem steps_mul (a c w : ℕ) (hw : 0 < w) : steps a (a + c * w) w = range' a c w := by
  rw [steps, Nat.add_sub_cancel_left, Nat.mul_comm c w, Nat.mul_add_div hw,
    Nat.div_eq_of_lt (by omega : w - 1 < w), Nat.add_zero]

/-- Consecutive blocks of `w`, numbered from `m` on. -/
theorem flatMap_blocks (a m n w : ℕ) :
    ((range' m n).flatMap fun k => range' (a + k * w) w) = range' (a + m * w) (n * w) := by
  have hmap : (range' m n).map (fun k => a + k * w) = range' (a + m * w) n w :=
    ext_getElem (by simp) fun i _ _ => by
      simp only [getElem_map, getElem_range']
      ring
  rw [← flatMap_range', ← hmap, flatMap_map]

theorem flatMap_lanes_map (w : ℕ) (l : List ℕ) :
    (l.map (⟨w, ·⟩)).flatMap Call.lanes = l.flatMap fun o => range' o w := by
  rw [flatMap_map]
  rfl

/-- The two ends of the loop are apart by whole vectors. -/
theorem alignDown_mul_le (size w u : ℕ) :
    alignDown size w = alignDown size (w * u) + (size / w - size / (w * u) * u) * w := by
  have hle : size / (w * u) * u ≤ size / w := by
    rw [← Nat.div_div_eq_div_mul]
    exact Nat.div_mul_le_self _ _
  rw [alignDown, alignDown, Nat.sub_mul, Nat.mul_assoc, Nat.mul_comm u w]
  have := Nat.mul_le_mul_right w hle
  rw [Nat.mul_assoc, Nat.mul_comm u w] at this
  omega

/-- Every index below `size` is visited once, in ascending order. -/
theorem vectorize_lanes {simdWidth unrollFactor : ℕ} (hw : 0 < simdWidth)
    (hu : 0 < unrollFactor) (size : ℕ) :
    (vectorize simdWidth unrollFactor size).flatMap Call.lanes = range size := by
  set simdEnd := alignDown size simdWidth with hse
  set unrolledEnd := alignDown size (simdWidth * unrollFactor) with hue
  set c := size / simdWidth - size / (simdWidth * unrollFactor) * unrollFactor
  have hends : simdEnd = unrolledEnd + c * simdWidth := alignDown_mul_le _ _ _
  have hend : simdEnd ≤ size := Nat.div_mul_le_self _ _
  have hmain : ((steps 0 unrolledEnd (simdWidth * unrollFactor)).flatMap fun o =>
      (range unrollFactor).map fun i => (⟨simdWidth, o + i * simdWidth⟩ : Call)).flatMap
        Call.lanes = range' 0 unrolledEnd := by
    have hblock : ∀ o, ((range unrollFactor).map fun i =>
        (⟨simdWidth, o + i * simdWidth⟩ : Call)).flatMap Call.lanes =
          range' o (simdWidth * unrollFactor) := by
      intro o
      have hblocks := flatMap_blocks o 0 unrollFactor simdWidth
      rw [Nat.zero_mul, Nat.add_zero, ← range_eq_range', Nat.mul_comm] at hblocks
      rw [← hblocks, flatMap_map]
      rfl
    have hsteps := steps_mul 0 (size / (simdWidth * unrollFactor)) _ (Nat.mul_pos hw hu)
    rw [Nat.zero_add] at hsteps
    simp only [flatMap_assoc, hblock]
    rw [hue, alignDown, hsteps, flatMap_range']
  have hmid : (if unrollFactor > 1 then
      (steps unrolledEnd simdEnd simdWidth).map (⟨simdWidth, ·⟩) else []).flatMap Call.lanes =
        range' unrolledEnd (simdEnd - unrolledEnd) := by
    rw [hends, Nat.add_sub_cancel_left]
    split_ifs with h1
    · rw [flatMap_lanes_map, steps_mul _ _ _ hw, flatMap_range']
    · -- without unrolling both ends agree
      obtain rfl : unrollFactor = 1 := by omega
      have hc : c = 0 := by simp [c]
      simp [hc]
  have htail : ((range' simdEnd (size - simdEnd)).map (⟨1, ·⟩)).flatMap Call.lanes =
      range' simdEnd (size - simdEnd) := by
    rw [flatMap_lanes_map, flatMap_range', Nat.mul_one]
  rw [vectorize, flatMap_append, flatMap_append, hmain, hmid, htail, range_eq_range']
  have h1 := @List.range'_append_1 0 unrolledEnd (simdEnd - unrolledEnd)
  have h2 := @List.range'_append_1 0 simdEnd (size - simdEnd)
  rw [Nat.zero_add] at h1 h2
  rw [h1, Nat.add_sub_cancel' (by omega), h2, Nat.add_sub_cancel' hend]

end Vectorize

/-! ### The bitset -/

/-- `BitSet._words_size`: at least one word, also for size zero. -/
def BitSet.wordsSize (size : ℕ) : ℕ :=
  max 1 ((size + 63) / 64)

structure BitSet (size : ℕ) where
  words : Vector (BitVec 64) (BitSet.wordsSize size)
  deriving DecidableEq, Repr

namespace BitSet

open Vectorize

variable {size simdWidth i : ℕ} (b : BitSet size)

def wordIndex (idx : ℕ) : ℕ :=
  idx >>> 6

def bitMask (idx : ℕ) : BitVec 64 :=
  1#64 <<< (idx &&& 63)

theorem wordIndex_eq (idx : ℕ) : wordIndex idx = idx / 64 := by
  rw [wordIndex, Nat.shiftRight_eq_div_pow]

variable {idx : ℕ}

theorem wordIndex_lt (h : idx < size) : wordIndex idx < wordsSize size := by
  rw [wordIndex_eq, wordsSize]
  omega

theorem div_lt_wordsSize (h : idx < size) : idx / 64 < wordsSize size :=
  wordIndex_eq idx ▸ wordIndex_lt h

/-- `BitSet()`. -/
def init : BitSet size :=
  ⟨Vector.replicate _ 0⟩

/-- Replaces the word that holds the bit `idx`. -/
def modifyWord (idx : Fin size) (f : BitVec 64 → BitVec 64) : BitSet size :=
  have h := wordIndex_lt idx.isLt
  ⟨b.words.set (wordIndex idx) (f (b.words[wordIndex idx]))⟩

def set (idx : Fin size) : BitSet size :=
  b.modifyWord idx (· ||| bitMask idx)

def clear (idx : Fin size) : BitSet size :=
  b.modifyWord idx (· &&& ~~~(bitMask idx))

def toggle (idx : Fin size) : BitSet size :=
  b.modifyWord idx (· ^^^ bitMask idx)

def test (idx : Fin size) : Bool :=
  have h := wordIndex_lt idx.isLt
  (b.words[wordIndex idx] &&& bitMask idx) != 0

/-- `BitSet._zero_upper`: masks the last word, unless `size` is a multiple of
the word size. -/
def zeroUpper : BitSet size :=
  let bitsInLastWord := size % 64
  if bitsInLastWord ≠ 0 then
    let mask : BitVec 64 := (1#64 <<< bitsInLastWord) - 1
    have h : wordsSize size - 1 < wordsSize size := by
      rw [wordsSize]
      omega
    ⟨b.words.set (wordsSize size - 1) (b.words[wordsSize size - 1] &&& mask)⟩
  else b

def clearAll (_ : BitSet size) : BitSet size :=
  init

def toggleAll : BitSet size :=
  zeroUpper ⟨b.words.map (· ^^^ ~~~0)⟩

def setAll : BitSet size :=
  zeroUpper ⟨b.words.map fun _ => ~~~0⟩

/-- `len(bitset)`: the population counts of all words. -/
def len : ℕ :=
  (List.finRange (wordsSize size)).foldl (fun total i => total + b.words[i].cpop.toNat) 0

/-- `BitSet._vectorize_apply`: the words are combined in vectors of
`simdWidth`, or one by one when there are fewer. -/
def vectorizeApply (simdWidth : ℕ) (left right : BitSet size)
    (func : BitVec 64 → BitVec 64 → BitVec 64) : BitSet size :=
  let store (res : Vector (BitVec 64) (wordsSize size)) (i : ℕ) :=
    res.setIfInBounds i (func (left.words[i]?.getD 0) (right.words[i]?.getD 0))
  let res := (init : BitSet size).words
  if wordsSize size ≥ simdWidth then
    ⟨(vectorize simdWidth 1 (wordsSize size)).foldl (fun res call => call.lanes.foldl store res) res⟩
  else ⟨(List.range (wordsSize size)).foldl store res⟩

def union (simdWidth : ℕ) (left right : BitSet size) : BitSet size :=
  vectorizeApply simdWidth left right (· ||| ·)

def intersection (simdWidth : ℕ) (left right : BitSet size) : BitSet size :=
  vectorizeApply simdWidth left right (· &&& ·)

def difference (simdWidth : ℕ) (left right : BitSet size) : BitSet size :=
  vectorizeApply simdWidth left right (fun l r => l &&& ~~~r)

/-- `_range_mask`: the bits `[lo, hi)` of a word. -/
def rangeMask (lo hi : ℕ) : BitVec 64 :=
  let high : BitVec 64 := if hi = 64 then ~~~0 else (1#64 <<< hi) - 1
  let low : BitVec 64 := (1#64 <<< lo) - 1
  high &&& ~~~low

/-- `BitSet.test_range`: whether every bit in `[lo, hi)` is `bitValue`.  The
two boundary words are masked, the words between them are read in vectors. -/
def testRange (simdWidth : ℕ) (b : BitSet size) (bitValue : Bool) (lo hi maxUnroll : ℕ) : Bool :=
  let word (i : ℕ) : BitVec 64 := b.words[i]?.getD 0
  let violations (x : BitVec 64) : BitVec 64 := if bitValue then ~~~x else x
  if lo = hi then true
  else
    let wordLo := wordIndex lo
    let wordHi := wordIndex (hi - 1)
    let loOff := lo &&& 63
    let hiOff := ((hi - 1) &&& 63) + 1
    if wordLo = wordHi then (violations (word wordLo) &&& rangeMask loOff hiOff) == 0
    else if (violations (word wordLo) &&& rangeMask loOff 64) != 0 then false
    else if (violations (word wordHi) &&& rangeMask 0 hiOff) != 0 then false
    else
      let interiorLo := wordLo + 1
      let nBatches := (wordHi - interiorLo) / simdWidth
      let unrollFactor := min nBatches maxUnroll
      let unrolled := alignDown nBatches unrollFactor
      -- the bits of a batch that disagree, or-ed together
      let kernel (batch : ℕ) : Bool :=
        ((List.range simdWidth).foldl
          (fun acc j => acc ||| violations (word (interiorLo + batch * simdWidth + j))) 0) != 0
      if nBatches > 0 &&
          ((steps 0 unrolled unrollFactor).any fun i =>
            (List.range unrollFactor).any fun j => kernel (i + j)) then false
      else if nBatches > 0 && (List.range' unrolled (nBatches - unrolled)).any kernel then false
      else
        let tailLo := interiorLo + nBatches * simdWidth
        !(List.range' tailLo (wordHi - tailLo)).any fun i => violations (word i) != 0

/-- `BitSet(resized_from=other)`.  `none` is the failed `debug_assert` of a
narrowing copy that would lose bits; it is checked only under `asserts`. -/
def resizedFrom (simdWidth : ℕ) (asserts truncate : Bool) {otherSize : ℕ}
    (other : BitSet otherSize) : Option (BitSet size) :=
  if asserts && !truncate && decide (size < otherSize) &&
      !testRange simdWidth other false size otherSize 16 then none
  else if h : otherSize = size then some (h ▸ other)
  else
    let values := if otherSize < size then other.zeroUpper else other
    -- the words of `values`, then zeroes
    let copied : BitSet size := ⟨Vector.ofFn fun k => values.words[k.val]?.getD 0⟩
    some (if size < otherSize then copied.zeroUpper else copied)

/-! ### Text -/

/-- The text written so far and whether no index has been written yet. -/
structure Writer where
  text : String
  first : Bool
  deriving DecidableEq, Repr

def Writer.index (w : Writer) (absIdx : ℕ) : Writer :=
  ⟨(if w.first then w.text else w.text ++ ", ") ++ toString absIdx, false⟩

/-- The inner loop of `write_to` on one word: takes the lowest set bit until
the word is empty, or stops at an index that is not below `size`. -/
def writeWord (size bitIdxBase : ℕ) (word : BitVec 64) (w : Writer) : Writer :=
  if _h : word = 0 then w
  else
    let rightmostBit := word &&& (~~~word + 1)
    let bitPos := (rightmostBit - 1).cpop.toNat
    let absIdx := bitIdxBase + bitPos
    if absIdx ≥ size then w
    else writeWord size bitIdxBase (word &&& ~~~rightmostBit) (w.index absIdx)
  termination_by word.toNat
  decreasing_by
    obtain ⟨k, hk⟩ := WordBits.exists_isLowest ‹_›
    rw [hk.isolate]
    exact hk.toNat_cleared_lt

/-- `BitSet.write_to`. -/
def writeTo : String :=
  ((List.finRange (wordsSize size)).foldl
    (fun w wordIdx => writeWord size (wordIdx.val <<< 6) b.words[wordIdx] w)
    ⟨"\x7b", true⟩).text ++ "\x7d"

/-! ### The storage bits -/

/-- The storage bit `i`; there are none past the last word. -/
def bit (i : ℕ) : Bool :=
  (b.words[i / 64]?.getD 0).getLsbD (i % 64)

theorem bit_of_lt (h : i / 64 < wordsSize size) : b.bit i = (b.words[i / 64]).getLsbD (i % 64) := by
  rw [bit, Vector.getElem?_eq_getElem h, Option.getD_some]

theorem bit_of_le (h : wordsSize size ≤ i / 64) : b.bit i = false := by
  rw [bit, Vector.getElem?_eq_none h, Option.getD_none]
  exact BitVec.getLsbD_zero

@[simp] theorem bit_init (i : ℕ) : (init : BitSet size).bit i = false := by
  rcases lt_or_ge (i / 64) (wordsSize size) with h | h
  · simp [bit_of_lt _ h, init]
  · exact bit_of_le _ h

/-- A word-by-word map acts on the bits of the storage. -/
theorem bit_map (f : BitVec 64 → BitVec 64) (h : i / 64 < wordsSize size) :
    (⟨b.words.map f⟩ : BitSet size).bit i = (f b.words[i / 64]).getLsbD (i % 64) := by
  rw [bit_of_lt _ h, Vector.getElem_map]

theorem bitMask_eq_twoPow (idx : ℕ) : bitMask idx = BitVec.twoPow 64 (idx % 64) := by
  rw [bitMask, BitVec.twoPow, (Nat.and_two_pow_sub_one_eq_mod idx 6 : idx &&& 63 = idx % 64)]

theorem getLsbD_bitMask (idx j : ℕ) : (bitMask idx).getLsbD j = decide (idx % 64 = j) := by
  rw [bitMask_eq_twoPow, BitVec.getLsbD_twoPow, decide_eq_true (Nat.mod_lt idx (by omega)),
    Bool.true_and]

section

include b

/-- Changing one bit of one word changes one bit of the storage. -/
theorem bit_modifyWord (idx : Fin size) {f : BitVec 64 → BitVec 64} {g : Bool → Bool}
    (hf : ∀ x j, j < 64 →
      (f x).getLsbD j = if idx.val % 64 = j then g (x.getLsbD j) else x.getLsbD j) (i : ℕ) :
    (b.modifyWord idx f).bit i = if idx.val = i then g (b.bit i) else b.bit i := by
  rcases lt_or_ge (i / 64) (wordsSize size) with h | h
  · rw [bit_of_lt _ h, bit_of_lt _ h]
    simp only [modifyWord, Vector.getElem_set, wordIndex_eq]
    by_cases hw : idx.val / 64 = i / 64
    · simp only [hw, if_true]
      rw [hf _ _ (Nat.mod_lt i (by omega))]
      exact if_congr (by omega) rfl rfl
    · rw [if_neg hw, if_neg (by rintro rfl; exact hw rfl)]
  · have hne : idx.val ≠ i := by
      rintro rfl
      exact absurd (div_lt_wordsSize idx.isLt) (not_lt.mpr h)
    rw [bit_of_le _ h, if_neg hne, bit_of_le _ h]

theorem bit_set (idx : Fin size) (i : ℕ) :
    (b.set idx).bit i = (decide (idx.val = i) || b.bit i) := by
  rw [set, bit_modifyWord b idx (g := fun _ => true)]
  · by_cases h : idx.val = i <;> simp [h]
  · intro x j _
    by_cases h : idx.val % 64 = j <;> simp [getLsbD_bitMask, h]

theorem bit_clear (idx : Fin size) (i : ℕ) :
    (b.clear idx).bit i = (decide (idx.val ≠ i) && b.bit i) := by
  rw [clear, bit_modifyWord b idx (g := fun _ => false)]
  · by_cases h : idx.val = i <;> simp [h]
  · intro x j hj
    rw [BitVec.getLsbD_and, BitVec.getLsbD_not, getLsbD_bitMask]
    by_cases h : idx.val % 64 = j <;> simp [h, hj]

theorem bit_toggle (idx : Fin size) (i : ℕ) :
    (b.toggle idx).bit i = (decide (idx.val = i) ^^ b.bit i) := by
  rw [toggle, bit_modifyWord b idx (g := fun x => !x)]
  · by_cases h : idx.val = i <;> simp [h]
  · intro x j _
    by_cases h : idx.val % 64 = j <;> simp [getLsbD_bitMask, h]

/-- `test` reads the storage bit. -/
theorem test_eq_bit (idx : Fin size) : b.test idx = b.bit idx := by
  have hw := div_lt_wordsSize idx.isLt
  rw [bit_of_lt _ hw]
  simp only [test, wordIndex_eq]
  rw [bitMask_eq_twoPow, BitVec.and_twoPow]
  cases b.words[idx.val / 64].getLsbD (idx.val % 64) with
  | true =>
    have hne : BitVec.twoPow 64 (idx.val % 64) ≠ 0 := by
      intro h0
      have hbit := BitVec.getLsbD_twoPow (w := 64) (idx.val % 64) (idx.val % 64)
      rw [h0] at hbit
      exact absurd hbit (by simp [Nat.mod_lt])
    simpa using hne
  | false => rfl

theorem zeroUpper_of_dvd (h : size % 64 = 0) : b.zeroUpper = b := by
  simp [zeroUpper, h]

/-- For a positive size, `_zero_upper` clears exactly the bits that are not
below `size`. -/
theorem bit_zeroUpper (hpos : 0 < size) (i : ℕ) :
    b.zeroUpper.bit i = (b.bit i && decide (i < size)) := by
  have hws : wordsSize size = (size + 63) / 64 := by
    rw [wordsSize]
    omega
  rcases lt_or_ge (i / 64) (wordsSize size) with h | h
  · by_cases hmod : size % 64 = 0
    · -- every storage bit is below `size`
      rw [zeroUpper_of_dvd b hmod, decide_eq_true (by omega), Bool.and_true]
    rw [bit_of_lt _ h, bit_of_lt _ h]
    simp only [zeroUpper, ne_eq, hmod, not_false_eq_true, if_true, Vector.getElem_set]
    by_cases hlast : wordsSize size - 1 = i / 64
    · have hmask := WordBits.IsLowest.getLsbD_twoPow_sub_one
        (Nat.mod_lt size (by omega : 0 < 64)) (i % 64)
      simp only [hlast, if_true, BitVec.getLsbD_and]
      rw [← BitVec.twoPow, hmask]
      congr 2
      exact propext (by omega)
    · rw [if_neg hlast, decide_eq_true (by omega), Bool.and_true]
  · rw [bit_of_le _ h, bit_of_le _ h, Bool.false_and]

end

theorem getLsbD_not_zero {j : ℕ} (hj : j < 64) : (~~~(0 : BitVec 64)).getLsbD j = true := by
  have h0 : (0 : BitVec 64).getLsbD j = false := BitVec.getLsbD_zero
  rw [BitVec.getLsbD_not, h0, decide_eq_true hj]
  rfl

theorem bit_setAll (hpos : 0 < size) (i : ℕ) : b.setAll.bit i = decide (i < size) := by
  rw [setAll, bit_zeroUpper _ hpos]
  by_cases hi : i < size
  · rw [bit_map _ _ (div_lt_wordsSize hi), getLsbD_not_zero (Nat.mod_lt i (by omega)), Bool.true_and]
  · simp [hi]

theorem bit_toggleAll (hpos : 0 < size) (i : ℕ) :
    b.toggleAll.bit i = (!b.bit i && decide (i < size)) := by
  rw [toggleAll, bit_zeroUpper _ hpos]
  by_cases hi : i < size
  · have h := div_lt_wordsSize hi
    rw [bit_map _ _ h, bit_of_lt _ h, BitVec.getLsbD_xor,
      getLsbD_not_zero (Nat.mod_lt i (by omega)), Bool.xor_true]
  · simp [hi]

section Words

variable (hsimd : 0 < simdWidth) (l r : BitSet size)
include hsimd

/-- Whatever the vector width, the operation is applied to every pair of
words once. -/
theorem vectorizeApply_words (f : BitVec 64 → BitVec 64 → BitVec 64) (hi : i < wordsSize size) :
    (vectorizeApply simdWidth l r f).words[i] = f l.words[i] r.words[i] := by
  have hrange : (vectorizeApply simdWidth l r f).words = (range (wordsSize size)).foldl
        (fun res j => res.setIfInBounds j (f (l.words[j]?.getD 0) (r.words[j]?.getD 0)))
        (init : BitSet size).words := by
    unfold vectorizeApply
    split_ifs with h
    · rw [← vectorize_lanes hsimd one_pos (wordsSize size), foldl_flatMap]
    · rfl
  simp only [hrange]
  rw [WordBits.foldl_store_getElem, if_pos hi, Vector.getElem?_eq_getElem hi,
    Vector.getElem?_eq_getElem hi]
  rfl

/-- A bitwise operation on the words acts bitwise on the storage. -/
theorem bit_vectorizeApply {f : BitVec 64 → BitVec 64 → BitVec 64} {g : Bool → Bool → Bool}
    (hf : ∀ x y j, j < 64 → (f x y).getLsbD j = g (x.getLsbD j) (y.getLsbD j))
    (hg : g false false = false) (i : ℕ) :
    (vectorizeApply simdWidth l r f).bit i = g (l.bit i) (r.bit i) := by
  rcases lt_or_ge (i / 64) (wordsSize size) with h | h
  · rw [bit_of_lt _ h, bit_of_lt _ h, bit_of_lt _ h, vectorizeApply_words hsimd,
      hf _ _ _ (Nat.mod_lt i (by omega))]
  · rw [bit_of_le _ h, bit_of_le _ h, bit_of_le _ h, hg]

theorem bit_union (i : ℕ) :
    (union simdWidth l r).bit i = (l.bit i || r.bit i) :=
  bit_vectorizeApply hsimd l r (fun _ _ _ _ => BitVec.getLsbD_or) rfl i

theorem bit_intersection (i : ℕ) :
    (intersection simdWidth l r).bit i = (l.bit i && r.bit i) :=
  bit_vectorizeApply hsimd l r (fun _ _ _ _ => BitVec.getLsbD_and) rfl i

theorem bit_difference (i : ℕ) :
    (difference simdWidth l r).bit i = (l.bit i && !r.bit i) :=
  bit_vectorizeApply hsimd l r (g := fun x y => x && !y)
    (fun x y j hj => by rw [BitVec.getLsbD_and, BitVec.getLsbD_not, decide_eq_true hj,
      Bool.true_and]) rfl i

end Words

variable {otherSize : ℕ}

/-- The words of another bitset, cut off or filled up with zeroes. -/
theorem bit_copy (v : BitSet otherSize) (i : ℕ) :
    (⟨Vector.ofFn fun k => v.words[k.val]?.getD 0⟩ : BitSet size).bit i =
      (v.bit i && decide (i / 64 < wordsSize size)) := by
  rcases lt_or_ge (i / 64) (wordsSize size) with h | h
  · rw [bit_of_lt _ h, Vector.getElem_ofFn, decide_eq_true h, Bool.and_true, bit]
  · rw [bit_of_le _ h, decide_eq_false (by omega), Bool.and_false]

variable {b}

/-- Masking a bitset without stray bits changes nothing. -/
theorem bit_zeroUpper_of_lt (hb : ∀ i, b.bit i = true → i < size) (i : ℕ) :
    b.zeroUpper.bit i = b.bit i := by
  rcases Nat.eq_zero_or_pos size with h0 | hpos
  · rw [zeroUpper_of_dvd b (by rw [h0])]
  · rw [bit_zeroUpper b hpos]
    cases hbit : b.bit i with
    | true => rw [decide_eq_true (hb i hbit), Bool.and_true]
    | false => rfl

variable {c : BitSet size}

/-- A copy keeps the bits below the new size, when the source has none at or
above its own; a copy to size zero keeps the whole first word. -/
theorem bit_resizedFrom {asserts truncate : Bool}
    {other : BitSet otherSize} (hother : ∀ i, other.bit i = true → i < otherSize)
    (h : resizedFrom simdWidth asserts truncate other = some c) (i : ℕ) :
    c.bit i = (other.bit i && decide (i < if size = 0 then 64 else size)) := by
  unfold resizedFrom at h
  split_ifs at h with hassert heq hwide hnarrow hnarrow
  · -- same size: the bits are copied, and all of them are below it
    subst heq
    obtain rfl := Option.some_inj.mp h
    cases hbit : other.bit i with
    | true =>
      have hi := hother i hbit
      rw [if_neg (by omega), decide_eq_true hi]
      rfl
    | false => rfl
  · omega
  · obtain rfl := Option.some_inj.mp h
    rw [bit_copy, bit_zeroUpper_of_lt hother, if_neg (by omega)]
    cases hbit : other.bit i with
    | true =>
      have hi := hother i hbit
      rw [decide_eq_true (div_lt_wordsSize (hi.trans hwide)), decide_eq_true (hi.trans hwide)]
    | false => rfl
  · obtain rfl := Option.some_inj.mp h
    rcases Nat.eq_zero_or_pos size with h0 | hpos
    · -- nothing is masked, and the storage is one word
      subst h0
      rw [zeroUpper_of_dvd _ rfl, bit_copy, if_pos rfl]
      congr 2
      exact propext (by rw [wordsSize]; omega)
    · rw [bit_zeroUpper _ hpos, bit_copy, if_neg (by omega)]
      by_cases hi : i < size
      · rw [decide_eq_true (div_lt_wordsSize hi), Bool.and_true]
      · simp [hi]
  · omega

/-! ### Members, length and text -/

/-- The indices of the set storage bits, word by word. -/
def members (b : BitSet size) : List ℕ :=
  (List.finRange (wordsSize size)).flatMap fun k =>
    (WordBits.positions b.words[k]).map (k.val <<< 6 + ·)

theorem mem_members : i ∈ b.members ↔ b.bit i = true := by
  simp only [members, mem_flatMap, mem_finRange, true_and, mem_map,
    WordBits.mem_positions, Nat.shiftLeft_eq]
  constructor
  · rintro ⟨k, j, hj, rfl⟩
    have hlt : j < 64 := BitVec.lt_of_getLsbD hj
    have hdiv : (k.val * 2 ^ 6 + j) / 64 = k.val := by omega
    have hmod : (k.val * 2 ^ 6 + j) % 64 = j := by omega
    rw [bit, hdiv, hmod, Vector.getElem?_eq_getElem k.isLt]
    exact hj
  · intro hbit
    rcases lt_or_ge (i / 64) (wordsSize size) with h | h
    · rw [bit_of_lt _ h] at hbit
      exact ⟨⟨i / 64, h⟩, i % 64, hbit, by simp only; omega⟩
    · exact absurd hbit (by simp [bit_of_le _ h])

theorem members_pairwise (b : BitSet size) : b.members.Pairwise (· < ·) := by
  refine pairwise_flatMap.mpr ⟨fun k _ => ?_, ?_⟩
  · refine Pairwise.map _ (fun i j hij => ?_) (WordBits.positions_pairwise _)
    omega
  refine (pairwise_lt_finRange _).imp fun {k l} hkl i hi j hj => ?_
  simp only [mem_map, WordBits.mem_positions, Nat.shiftLeft_eq] at hi hj
  obtain ⟨p, hp, rfl⟩ := hi
  obtain ⟨q, _, rfl⟩ := hj
  have hp64 : p < 64 := BitVec.lt_of_getLsbD hp
  omega

theorem len_eq_length_members (b : BitSet size) : b.len = b.members.length := by
  have hsum : ∀ (l : List (Fin (wordsSize size))) (acc : ℕ),
      l.foldl (fun total i => total + b.words[i].cpop.toNat) acc =
        acc + (l.flatMap fun k => (WordBits.positions b.words[k]).map (k.val <<< 6 + ·)).length := by
    intro l
    induction l with
    | nil => simp
    | cons k l ih =>
      intro acc
      rw [foldl_cons, ih, flatMap_cons, length_append, length_map, WordBits.toNat_cpop]
      omega
  rw [len, hsum, zero_add, members]

/-- On a word whose bits are all below `size`, the inner loop writes its
positions. -/
theorem writeWord_eq {size base : ℕ} (word : BitVec 64) (w : Writer)
    (hlt : ∀ k, word.getLsbD k = true → base + k < size) :
    writeWord size base word w = ((WordBits.positions word).map (base + ·)).foldl Writer.index w := by
  -- induction along the loop: each round removes the lowest bit
  induction hn : word.toNat using Nat.strong_induction_on generalizing word w with
  | _ n ih =>
  rw [writeWord]
  split_ifs with h0
  · subst h0
    have hnil : WordBits.positions (0 : BitVec 64) = [] := by decide
    rw [hnil]
    rfl
  · obtain ⟨k, hk⟩ := WordBits.exists_isLowest h0
    simp only [hk.isolate, hk.toNat_cpop_sub_one]
    rw [if_neg (not_le.mpr (hlt k hk.set)), hk.positions_eq, map_cons, foldl_cons]
    refine ih _ (hn ▸ hk.toNat_cleared_lt) _ _ (fun j hj => hlt j ?_) rfl
    rw [hk.getLsbD_cleared] at hj
    exact (Bool.and_eq_true_iff.mp hj).1

theorem foldl_index_text (l : List ℕ) (acc : String) :
    (l.foldl Writer.index ⟨acc, false⟩).text =
      if l = [] then acc else acc ++ ", " ++ ", ".intercalate (l.map toString) := by
  induction l generalizing acc with
  | nil => rfl
  | cons a l ih =>
    rw [foldl_cons, if_neg (cons_ne_nil a l), map_cons]
    have hstep : Writer.index ⟨acc, false⟩ a = ⟨acc ++ ", " ++ toString a, false⟩ := rfl
    rw [hstep, ih]
    cases l with
    | nil => simp
    | cons c l =>
      rw [if_neg (cons_ne_nil c l), map_cons, String.intercalate_cons_cons]
      simp only [String.append_assoc]

/-- The indices are written separated by commas. -/
theorem foldl_index_first (l : List ℕ) (acc : String) :
    (l.foldl Writer.index ⟨acc, true⟩).text = acc ++ ", ".intercalate (l.map toString) := by
  cases l with
  | nil => simp
  | cons a l =>
    have hstep : Writer.index ⟨acc, true⟩ a = ⟨acc ++ toString a, false⟩ := rfl
    rw [foldl_cons, hstep, foldl_index_text]
    cases l with
    | nil => simp
    | cons c l =>
      rw [if_neg (cons_ne_nil c l), map_cons, map_cons, map_cons, String.intercalate_cons_cons]
      simp only [String.append_assoc]

theorem writeTo_eq (hb : ∀ i, b.bit i = true → i < size) :
    b.writeTo = "\x7b" ++ ", ".intercalate (b.members.map toString) ++ "\x7d" := by
  have hword : ∀ (k : Fin (wordsSize size)) (w : Writer),
      writeWord size (k.val <<< 6) b.words[k] w =
        ((WordBits.positions b.words[k]).map (k.val <<< 6 + ·)).foldl Writer.index w := by
    refine fun k w => writeWord_eq _ _ fun j hj => hb _ (mem_members.mp ?_)
    exact mem_flatMap.mpr ⟨k, mem_finRange k, mem_map.mpr ⟨j, WordBits.mem_positions.mpr hj, rfl⟩⟩
  simp only [writeTo, hword]
  rw [← foldl_flatMap, foldl_index_first, members]

/-! ### What a bitset stands for -/

/-- The storage bits are those of a set below `size`. -/
structure Denotes (b : BitSet size) (s : Finset ℕ) : Prop where
  bit_iff : ∀ i, b.bit i = true ↔ i ∈ s
  lt_size : ∀ i ∈ s, i < size

namespace Denotes

variable {s t : Finset ℕ}

section

variable (h : Denotes b s)

include h

theorem bit_eq (i : ℕ) : b.bit i = decide (i ∈ s) := by
  rw [Bool.eq_iff_iff, h.bit_iff, decide_eq_true_eq]

theorem lt_of_bit (i : ℕ) (hi : b.bit i = true) : i < size :=
  h.lt_size i ((h.bit_iff i).mp hi)

theorem members_eq : b.members = s.sort := by
  have hs : s = b.members.toFinset := by
    ext i
    rw [mem_toFinset, mem_members, h.bit_iff]
  have hnodup : b.members.Nodup := b.members_pairwise.imp ne_of_lt
  rw [hs]
  exact ((toFinset_sort _ hnodup).mpr (b.members_pairwise.imp le_of_lt)).symm

theorem len : b.len = s.card := by
  rw [len_eq_length_members, h.members_eq, Finset.length_sort]

theorem test (idx : Fin size) : b.test idx = decide (idx.val ∈ s) := by
  rw [test_eq_bit, h.bit_eq]

theorem writeTo : b.writeTo = "\x7b" ++ ", ".intercalate (s.sort.map toString) ++ "\x7d" := by
  rw [writeTo_eq h.lt_of_bit, h.members_eq]

end

/-- How the operations act on the sets: from the bits of the result. -/
theorem of_bit_eq {s : Finset ℕ} (hbit : ∀ i, b.bit i = decide (i ∈ s))
    (hlt : ∀ i ∈ s, i < size) : Denotes b s :=
  ⟨fun i => by rw [hbit, decide_eq_true_eq], hlt⟩

theorem init : Denotes (BitSet.init : BitSet size) ∅ :=
  of_bit_eq (by simp) (by simp)

theorem set (h : Denotes b s) (idx : Fin size) : Denotes (b.set idx) (insert idx.val s) := by
  refine of_bit_eq (fun i => ?_) fun i hi => ?_
  · rw [bit_set, h.bit_eq, ← Bool.decide_or]
    simp [eq_comm]
  · rcases Finset.mem_insert.mp hi with rfl | hi
    · exact idx.isLt
    · exact h.lt_size i hi

theorem clear (h : Denotes b s) (idx : Fin size) : Denotes (b.clear idx) (s.erase idx.val) := by
  refine of_bit_eq (fun i => ?_) fun i hi => h.lt_size i (Finset.mem_of_mem_erase hi)
  rw [bit_clear, h.bit_eq, ← Bool.decide_and]
  simp [eq_comm]

/-- Toggling removes a member and adds a non-member. -/
theorem toggle (h : Denotes b s) (idx : Fin size) :
    Denotes (b.toggle idx) (symmDiff s {idx.val}) := by
  refine of_bit_eq (fun i => ?_) fun i hi => ?_
  · rw [bit_toggle, h.bit_eq]
    by_cases hi : idx.val = i <;> by_cases hs : i ∈ s <;> simp_all [Finset.mem_symmDiff, eq_comm]
  · rw [Finset.mem_symmDiff, Finset.mem_singleton] at hi
    rcases hi with ⟨hi, _⟩ | ⟨rfl, _⟩
    · exact h.lt_size i hi
    · exact idx.isLt

theorem setAll (b : BitSet size) (hpos : 0 < size) : Denotes b.setAll (Finset.range size) :=
  of_bit_eq (by simp [bit_setAll b hpos]) (by simp)

theorem toggleAll (h : Denotes b s) (hpos : 0 < size) :
    Denotes b.toggleAll (Finset.range size \ s) := by
  refine of_bit_eq (fun i => ?_) fun i hi => Finset.mem_range.mp (Finset.mem_sdiff.mp hi).1
  rw [bit_toggleAll b hpos, h.bit_eq, ← decide_not, ← Bool.decide_and]
  simp [and_comm]

theorem union (hsimd : 0 < simdWidth) (hb : Denotes b s) (hc : Denotes c t) :
    Denotes (BitSet.union simdWidth b c) (s ∪ t) := by
  refine of_bit_eq (fun i => ?_) fun i hi => ?_
  · rw [bit_union hsimd, hb.bit_eq, hc.bit_eq, ← Bool.decide_or]
    simp
  · rcases Finset.mem_union.mp hi with hi | hi
    · exact hb.lt_size i hi
    · exact hc.lt_size i hi

theorem intersection (hsimd : 0 < simdWidth) (hb : Denotes b s)
    (hc : Denotes c t) : Denotes (BitSet.intersection simdWidth b c) (s ∩ t) := by
  refine of_bit_eq (fun i => ?_) fun i hi => hb.lt_size i (Finset.mem_inter.mp hi).1
  rw [bit_intersection hsimd, hb.bit_eq, hc.bit_eq, ← Bool.decide_and]
  simp

theorem difference (hsimd : 0 < simdWidth) (hb : Denotes b s)
    (hc : Denotes c t) : Denotes (BitSet.difference simdWidth b c) (s \ t) := by
  refine of_bit_eq (fun i => ?_) fun i hi => hb.lt_size i (Finset.mem_sdiff.mp hi).1
  rw [bit_difference hsimd, hb.bit_eq, hc.bit_eq, ← decide_not, ← Bool.decide_and]
  simp

/-- A copy denotes the members below the new size.  At size zero the first
word survives, so there must be nothing in it. -/
theorem resizedFrom {asserts truncate : Bool} {other : BitSet otherSize} (h : Denotes other s)
    (hzero : size = 0 → ∀ i ∈ s, 64 ≤ i)
    (hc : BitSet.resizedFrom simdWidth asserts truncate other = some c) :
    Denotes c (s.filter (· < size)) := by
  refine of_bit_eq (fun i => ?_) fun i hi => (Finset.mem_filter.mp hi).2
  rw [bit_resizedFrom h.lt_of_bit hc, h.bit_eq, ← Bool.decide_and]
  rcases Nat.eq_zero_or_pos size with h0 | hpos
  · have hnone : ¬ (i ∈ s ∧ i < 64) := fun hi => absurd (hzero h0 i hi.1) (by omega)
    simp [h0, hnone]
  · simp [hpos.ne']

end Denotes

end BitSet
