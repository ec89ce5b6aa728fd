/-
Ranges of a bitset: `BitSet.test_range` (`collections/bitset.mojo`).

* `interiorWords` — the words between the two boundary words, in the order in which the unrolled
  batches, the remaining batches and the tail read them;
* `examined` — the bits that are looked at, word by word;
* `testRange_spec` — the answer is right, and every bit of the range is looked at once.
-/
import MojoMac.BitSet

open List BitVec

namespace BitSet

open Vectorize

variable {size : ℕ}

/-! ### Words -/

/-- The bits of a word that disagree with `bitValue`. -/
def violations (bitValue : Bool) (x : BitVec 64) : BitVec 64 :=
  if bitValue then ~~~x else x

/-- The storage bits `[lo, hi)` of a word. -/
def wordBits (w lo hi : ℕ) : List ℕ :=
  List.range' (w * 64 + lo) (hi - lo)

theorem getLsbD_rangeMask {lo hi j : ℕ} (hlo : lo < 64) (hhi : hi ≤ 64) (hj : j < 64) :
    (rangeMask lo hi).getLsbD j = decide (lo ≤ j ∧ j < hi) := by
  have hlow := WordBits.IsLowest.getLsbD_twoPow_sub_one hlo j
  have hhigh : (if hi = 64 then ~~~0 else (1#64 <<< hi) - 1).getLsbD j = decide (j < hi) := by
    split
    · next h => rw [getLsbD_not_zero hj, h, decide_eq_true hj]
    · exact WordBits.IsLowest.getLsbD_twoPow_sub_one (by omega) j
  rw [twoPow] at hlow
  rw [rangeMask, getLsbD_and, hhigh, getLsbD_not, hlow]
  rw [decide_eq_true hj, Bool.true_and, ← decide_not, ← Bool.decide_and]
  exact decide_eq_decide.mpr (by omega)

/-- A masked word without violations. -/
theorem violations_and_rangeMask (b : BitSet size) (bitValue : Bool) (w : ℕ) {lo hi : ℕ}
    (hlo : lo < 64) (hhi : hi ≤ 64) :
    ((violations bitValue (b.words[w]?.getD 0) &&& rangeMask lo hi) == 0) =
      (wordBits w lo hi).all (b.bit · == bitValue) := by
  have hbit : ∀ j < 64, b.bit (w * 64 + j) = (b.words[w]?.getD 0).getLsbD j := by
    intro j hj
    rw [bit, (by omega : (w * 64 + j) / 64 = w), (by omega : (w * 64 + j) % 64 = j)]
  have hviolation : ∀ j < 64, (violations bitValue (b.words[w]?.getD 0)).getLsbD j =
      (b.bit (w * 64 + j) != bitValue) := by
    intro j hj
    rw [hbit j hj]
    cases bitValue <;> simp [violations, hj]
  rw [Bool.eq_iff_iff, beq_iff_eq, all_eq_true]
  constructor
  · intro hzero i hmem
    obtain ⟨hle, hlt⟩ := mem_range'_1.mp hmem
    obtain ⟨j, rfl⟩ := Nat.exists_eq_add_of_le hle
    have hnone := congrArg (getLsbD · (lo + j)) hzero
    rw [getLsbD_and, hviolation _ (by omega), getLsbD_rangeMask hlo hhi (by omega),
      decide_eq_true (by omega), Bool.and_true] at hnone
    rw [Nat.add_assoc]
    simpa using hnone
  · intro hall
    refine eq_of_getLsbD_eq fun j hj => ?_
    rw [getLsbD_and, hviolation j hj, getLsbD_rangeMask hlo hhi hj]
    by_cases hin : lo ≤ j ∧ j < hi
    · have hagree := hall (w * 64 + j) (mem_range'_1.mpr (by omega))
      simpa [bne, hin] using hagree
    · simp [hin]

theorem violations_beq_zero (b : BitSet size) (bitValue : Bool) (w : ℕ) :
    (violations bitValue (b.words[w]?.getD 0) == 0) =
      (wordBits w 0 64).all (b.bit · == bitValue) := by
  have hall : rangeMask 0 64 = allOnes 64 := by decide
  rw [← violations_and_rangeMask b bitValue w (by omega) le_rfl, hall, and_allOnes]

theorem foldl_or_beq_zero (l : List ℕ) (f : ℕ → BitVec 64) (acc : BitVec 64) :
    (l.foldl (fun acc j => acc ||| f j) acc == 0) = (acc == 0 && l.all (f · == 0)) := by
  induction l generalizing acc with
  | nil => simp
  | cons j l ih =>
    rw [foldl_cons, ih, all_cons, ← Bool.and_assoc]
    congr 1
    rw [Bool.eq_iff_iff, Bool.and_eq_true, beq_iff_eq, beq_iff_eq, beq_iff_eq]
    exact or_eq_zero_iff

/-! ### The loops -/

def interiorWords (simdWidth interiorLo wordHi maxUnroll : ℕ) : List ℕ :=
  let nBatches := (wordHi - interiorLo) / simdWidth
  let unrollFactor := min nBatches maxUnroll
  let unrolled := alignDown nBatches unrollFactor
  let batches := ((steps 0 unrolled unrollFactor).flatMap fun i =>
    (List.range unrollFactor).map (i + ·)) ++ List.range' unrolled (nBatches - unrolled)
  let tailLo := interiorLo + nBatches * simdWidth
  (batches.flatMap fun batch => List.range' (interiorLo + batch * simdWidth) simdWidth) ++
    List.range' tailLo (wordHi - tailLo)

theorem batches_eq {n u : ℕ} (hu : 0 < n → 0 < u) :
    ((steps 0 (alignDown n u) u).flatMap fun i => (List.range u).map (i + ·)) ++
      List.range' (alignDown n u) (n - alignDown n u) = List.range' 0 n := by
  rcases Nat.eq_zero_or_pos u with rfl | hpos
  · obtain rfl : n = 0 := by omega
    rfl
  have hsteps := steps_mul 0 (n / u) u hpos
  have hwhole := @List.range'_append_1 0 (n / u * u) (n - n / u * u)
  rw [Nat.zero_add] at hsteps hwhole
  rw [Nat.add_sub_cancel' (Nat.div_mul_le_self n u)] at hwhole
  simp only [alignDown, hsteps, ← range'_eq_map_range, flatMap_range', hwhole]

theorem interiorWords_eq {simdWidth maxUnroll : ℕ} (hunroll : 0 < maxUnroll) {interiorLo wordHi : ℕ}
    (hle : interiorLo ≤ wordHi) : interiorWords simdWidth interiorLo wordHi maxUnroll =
      List.range' interiorLo (wordHi - interiorLo) := by
  have hfits := Nat.div_mul_le_self (wordHi - interiorLo) simdWidth
  simp only [interiorWords, batches_eq fun hn => lt_min hn hunroll, flatMap_blocks, Nat.zero_mul,
    Nat.add_zero, range'_append_1]
  congr 1
  omega

/-- The bits that `test_range` looks at. -/
def examined (simdWidth lo hi maxUnroll : ℕ) : List ℕ :=
  let wordLo := wordIndex lo
  let wordHi := wordIndex (hi - 1)
  let loOff := lo &&& 63
  let hiOff := ((hi - 1) &&& 63) + 1
  if lo = hi then []
  else if wordLo = wordHi then wordBits wordLo loOff hiOff
  else wordBits wordLo loOff 64 ++ (wordBits wordHi 0 hiOff ++
    (interiorWords simdWidth (wordLo + 1) wordHi maxUnroll).flatMap (wordBits · 0 64))

theorem land_63 (i : ℕ) : i &&& 63 = i % 64 :=
  Nat.and_two_pow_sub_one_eq_mod i 6

theorem testRange_eq_all (simdWidth : ℕ) (b : BitSet size) (bitValue : Bool) (lo hi maxUnroll : ℕ) :
    testRange simdWidth b bitValue lo hi maxUnroll =
      (examined simdWidth lo hi maxUnroll).all (b.bit · == bitValue) := by
  have hlo : lo &&& 63 < 64 := land_63 lo ▸ Nat.mod_lt lo (by omega)
  have hhi : ((hi - 1) &&& 63) + 1 ≤ 64 := land_63 (hi - 1) ▸ Nat.mod_lt (hi - 1) (by omega)
  have hkernel : ∀ a, ((range simdWidth).foldl
      (fun acc j => acc ||| violations bitValue (b.words[a + j]?.getD 0)) 0 == 0) =
      (range' a simdWidth).all fun w => (wordBits w 0 64).all (b.bit · == bitValue) := by
    intro a
    rw [foldl_or_beq_zero, range'_eq_map_range, all_map]
    simp only [violations_beq_zero]
    rfl
  by_cases heq : lo = hi
  · simp [testRange, examined, heq]
  by_cases hw : wordIndex lo = wordIndex (hi - 1)
  · simp only [testRange, examined, if_neg heq, if_pos hw]
    exact violations_and_rangeMask b bitValue _ hlo hhi
  simp only [testRange, ← violations.eq_1, examined, if_neg heq, if_neg hw, Bool.if_false_left,
    Bool.decide_eq_true, all_append, all_flatMap, interiorWords, all_map, bne]
  simp only [violations_and_rangeMask b bitValue _ hlo le_rfl, violations_beq_zero, hkernel,
    violations_and_rangeMask b bitValue _ (by omega : 0 < 64) hhi]
  rcases Nat.eq_zero_or_pos ((wordIndex (hi - 1) - (wordIndex lo + 1)) / simdWidth) with hn | hn
  · simp [hn, alignDown, steps, not_any_eq_all_not]
  · simp only [decide_eq_true hn, Bool.true_and, not_any_eq_all_not, Bool.not_not, Bool.and_assoc]
    rfl

/-- The bits of the range are looked at once each, and no others. -/
theorem examined_perm (simdWidth : ℕ) {lo hi maxUnroll : ℕ} (hunroll : 0 < maxUnroll) (hle : lo ≤ hi) :
    (examined simdWidth lo hi maxUnroll).Perm (List.range' lo (hi - lo)) := by
  by_cases heq : lo = hi
  · simp [examined, heq]
  simp only [examined, if_neg heq, wordIndex_eq, land_63]
  split
  · next hw =>
    rw [wordBits, Nat.div_add_mod', (by omega : (hi - 1) % 64 + 1 - lo % 64 = hi - lo)]
  next hw =>
  have hwords : lo / 64 + 1 ≤ (hi - 1) / 64 := by omega
  have hinterior := flatMap_blocks 0 (lo / 64 + 1) ((hi - 1) / 64 - (lo / 64 + 1)) 64
  simp only [Nat.zero_add] at hinterior
  simp only [interiorWords_eq hunroll hwords, wordBits, Nat.add_zero, Nat.sub_zero, hinterior,
    Nat.div_add_mod']
  refine (perm_append_comm.append_left _).trans (Perm.of_eq ?_)
  rw [(by omega : (lo / 64 + 1) * 64 = lo + (64 - lo % 64)), (by omega : (hi - 1) / 64 * 64 = lo +
      (64 - lo % 64) + ((hi - 1) / 64 - (lo / 64 + 1)) * 64), range'_append_1, range'_append_1]
  congr 1
  omega

/-- **Testing a range**: the answer says whether all bits of the range are `bitValue`; these bits
are looked at once each, whatever the widths. -/
theorem testRange_spec {simdWidth maxUnroll : ℕ} (hunroll : 0 < maxUnroll) (b : BitSet size)
    (bitValue : Bool) {lo hi : ℕ} (hle : lo ≤ hi) (hhi : hi ≤ size) :
    (testRange simdWidth b bitValue lo hi maxUnroll = true ↔
      ∀ i (h : i < hi), lo ≤ i → b.test ⟨i, h.trans_le hhi⟩ = bitValue) ∧
    testRange simdWidth b bitValue lo hi maxUnroll =
      (examined simdWidth lo hi maxUnroll).all (b.bit · == bitValue) ∧
    (examined simdWidth lo hi maxUnroll).Perm (List.range' lo (hi - lo)) := by
  have hperm := examined_perm simdWidth hunroll hle
  refine ⟨?_, testRange_eq_all simdWidth b bitValue lo hi maxUnroll, hperm⟩
  simp only [testRange_eq_all, all_eq_true, hperm.mem_iff, mem_range'_1, beq_iff_eq, test_eq_bit]
  exact ⟨fun hall i hi hlo => hall i ⟨hlo, by omega⟩, fun hall i hi => hall i (by omega) hi.1⟩

theorem testRange_spec_six_words : testRange 2 (init : BitSet 384) false 3 380 1 = true :=
  (testRange_spec one_pos init false (by omega) (by omega)).1.mpr fun i _ _ => by
    rw [test_eq_bit, bit_init]

end BitSet
