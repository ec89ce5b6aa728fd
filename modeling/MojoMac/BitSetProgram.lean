/-
Sequences of `BitSet` operations and the sets they stand for.

A `Program` is any way of building a bitset: the operations on one bitset,
the binary operations on two, and copies between sizes.  `Program.run`
executes it, `Program.members` is the set it describes, and
`Program.run_denotes` relates the two.

The relation fails at size zero.  Storage is never empty, `_zero_upper` masks
only when `size % 64` is not zero, and so `set_all`, `toggle_all` and a
narrowing copy leave bits in the word of a bitset that has no indices at all.
`Program.Masked` says where a program stays clear of this.
-/
import MojoMac.BitSet

namespace BitSet

/-- A way of building a bitset of the given size. -/
inductive Program : ℕ → Type
  | init {size : ℕ} : Program size
  | set {size : ℕ} (p : Program size) (idx : Fin size) : Program size
  | clear {size : ℕ} (p : Program size) (idx : Fin size) : Program size
  | toggle {size : ℕ} (p : Program size) (idx : Fin size) : Program size
  | setAll {size : ℕ} (p : Program size) : Program size
  | toggleAll {size : ℕ} (p : Program size) : Program size
  | clearAll {size : ℕ} (p : Program size) : Program size
  | union {size : ℕ} (p q : Program size) : Program size
  | intersection {size : ℕ} (p q : Program size) : Program size
  | difference {size : ℕ} (p q : Program size) : Program size
  | resizedFrom {otherSize size : ℕ} (truncate : Bool) (p : Program otherSize) : Program size

variable {size : ℕ}

namespace Program

/-- Runs the operations; `none` when a `debug_assert` fails. -/
def run (simdWidth : ℕ) (asserts : Bool) : {size : ℕ} → Program size → Option (BitSet size)
  | _, init => some BitSet.init
  | _, set p idx => (p.run simdWidth asserts).map (·.set idx)
  | _, clear p idx => (p.run simdWidth asserts).map (·.clear idx)
  | _, toggle p idx => (p.run simdWidth asserts).map (·.toggle idx)
  | _, setAll p => (p.run simdWidth asserts).map (·.setAll)
  | _, toggleAll p => (p.run simdWidth asserts).map (·.toggleAll)
  | _, clearAll p => (p.run simdWidth asserts).map (·.clearAll)
  | _, union p q => do
    let l ← p.run simdWidth asserts
    let r ← q.run simdWidth asserts
    return BitSet.union simdWidth l r
  | _, intersection p q => do
    let l ← p.run simdWidth asserts
    let r ← q.run simdWidth asserts
    return BitSet.intersection simdWidth l r
  | _, difference p q => do
    let l ← p.run simdWidth asserts
    let r ← q.run simdWidth asserts
    return BitSet.difference simdWidth l r
  | _, resizedFrom truncate p => do
    let other ← p.run simdWidth asserts
    BitSet.resizedFrom simdWidth asserts truncate other

/-- The set that the operations describe. -/
def members : {size : ℕ} → Program size → Finset ℕ
  | _, init => ∅
  | _, set p idx => insert idx.val p.members
  | _, clear p idx => p.members.erase idx.val
  | _, toggle p idx => symmDiff p.members {idx.val}
  | size, setAll _ => Finset.range size
  | size, toggleAll p => Finset.range size \ p.members
  | _, clearAll _ => ∅
  | _, union p q => p.members ∪ q.members
  | _, intersection p q => p.members ∩ q.members
  | _, difference p q => p.members \ q.members
  | size, resizedFrom _ p => p.members.filter (· < size)

/-- No step relies on the mask of a bitset of size zero: `set_all` and
`toggle_all` are used at positive sizes only, and a copy to size zero has no
member in the first word. -/
def Masked : {size : ℕ} → Program size → Prop
  | _, init => True
  | _, set p _ => p.Masked
  | _, clear p _ => p.Masked
  | _, toggle p _ => p.Masked
  | size, setAll p => 0 < size ∧ p.Masked
  | size, toggleAll p => 0 < size ∧ p.Masked
  | _, clearAll p => p.Masked
  | _, union p q => p.Masked ∧ q.Masked
  | _, intersection p q => p.Masked ∧ q.Masked
  | _, difference p q => p.Masked ∧ q.Masked
  | size, resizedFrom _ p => (size = 0 → ∀ i ∈ p.members, 64 ≤ i) ∧ p.Masked

/-- Without assertions every program runs through. -/
theorem run_isSome (simdWidth : ℕ) (p : Program size) : (p.run simdWidth false).isSome = true := by
  induction p with
  | init => rfl
  | set _ _ ih => simpa [run] using ih
  | clear _ _ ih => simpa [run] using ih
  | toggle _ _ ih | setAll _ ih | toggleAll _ ih | clearAll _ ih => simpa [run] using ih
  | union _ _ ihp ihq | intersection _ _ ihp ihq | difference _ _ ihp ihq =>
    obtain ⟨l, hl⟩ := Option.isSome_iff_exists.mp ihp
    obtain ⟨r, hr⟩ := Option.isSome_iff_exists.mp ihq
    simp [run, hl, hr]
  | resizedFrom truncate p ih =>
    obtain ⟨other, hother⟩ := Option.isSome_iff_exists.mp ih
    simp only [run, hother, Option.bind_eq_bind, Option.bind_some, BitSet.resizedFrom,
      Bool.false_and, Bool.false_eq_true, if_false]
    split_ifs <;> rfl

/-- The two operands of a binary operation that ran through. -/
theorem bind₂_eq_some {x y : Option (BitSet size)} {b : BitSet size}
    {f : BitSet size → BitSet size → BitSet size}
    (h : (do let l ← x; let r ← y; return f l r) = some b) :
    ∃ l r, x = some l ∧ y = some r ∧ f l r = b := by
  cases x with
  | none => exact absurd h (by simp)
  | some l =>
    cases y with
    | none => exact absurd h (by simp)
    | some r => exact ⟨l, r, rfl, rfl, Option.some_inj.mp h⟩

/-- A program that stays clear of the mask at size zero builds the set it
describes. -/
theorem run_denotes {simdWidth : ℕ} (hsimd : 0 < simdWidth) {asserts : Bool}
    (p : Program size) (hp : p.Masked) {b : BitSet size}
    (h : p.run simdWidth asserts = some b) : Denotes b p.members := by
  -- induction on the program: one case per operation, each a lemma on `Denotes`
  induction p with
  | init =>
    obtain rfl := Option.some_inj.mp h
    exact Denotes.init
  | set p idx ih =>
    obtain ⟨c, hc, rfl⟩ := Option.map_eq_some_iff.mp h
    exact (ih hp hc).set idx
  | clear p idx ih =>
    obtain ⟨c, hc, rfl⟩ := Option.map_eq_some_iff.mp h
    exact (ih hp hc).clear idx
  | toggle p idx ih =>
    obtain ⟨c, hc, rfl⟩ := Option.map_eq_some_iff.mp h
    exact (ih hp hc).toggle idx
  | setAll p ih =>
    obtain ⟨c, _, rfl⟩ := Option.map_eq_some_iff.mp h
    exact Denotes.setAll c hp.1
  | toggleAll p ih =>
    obtain ⟨c, hc, rfl⟩ := Option.map_eq_some_iff.mp h
    exact (ih hp.2 hc).toggleAll hp.1
  | clearAll p ih =>
    obtain ⟨c, _, rfl⟩ := Option.map_eq_some_iff.mp h
    exact Denotes.init
  | union p q ihp ihq =>
    obtain ⟨l, r, hl, hr, rfl⟩ := bind₂_eq_some h
    exact (ihp hp.1 hl).union hsimd (ihq hp.2 hr)
  | intersection p q ihp ihq =>
    obtain ⟨l, r, hl, hr, rfl⟩ := bind₂_eq_some h
    exact (ihp hp.1 hl).intersection hsimd (ihq hp.2 hr)
  | difference p q ihp ihq =>
    obtain ⟨l, r, hl, hr, rfl⟩ := bind₂_eq_some h
    exact (ihp hp.1 hl).difference hsimd (ihq hp.2 hr)
  | resizedFrom truncate p ih =>
    obtain ⟨other, hother, hc⟩ := Option.bind_eq_some_iff.mp h
    exact (ih hp.2 hother).resizedFrom hp.1 hc

/-- **What a bitset shows.**  After any sequence of operations that stays
clear of the mask at size zero, the storage holds no bit at or above `size`,
the length is the number of members, `test` is membership and the text lists
the members in ascending order. -/
theorem run_shows_members {simdWidth : ℕ} (hsimd : 0 < simdWidth) {asserts : Bool} {size : ℕ}
    (p : Program size) (hp : p.Masked) {b : BitSet size}
    (h : p.run simdWidth asserts = some b) :
    p.members ⊆ Finset.range size ∧ (∀ i, size ≤ i → b.bit i = false) ∧ b.len = p.members.card ∧
      (∀ idx : Fin size, b.test idx = decide (idx.val ∈ p.members)) ∧
      b.writeTo = "\x7b" ++ ", ".intercalate (p.members.sort.map toString) ++ "\x7d" := by
  have hden := run_denotes hsimd p hp h
  refine ⟨fun i hi => Finset.mem_range.mpr (hden.lt_size i hi), fun i hi => ?_, hden.len,
    hden.test, hden.writeTo⟩
  cases hbit : b.bit i with
  | false => rfl
  | true => exact absurd (hden.lt_of_bit i hbit) (by omega)

/-- Toggling all of `{1}` at size 3. -/
theorem run_shows_members_toggleAll :
    ∃ b : BitSet 3, (toggleAll (set init 1)).run 2 true = some b ∧ b.len = 2 :=
  ⟨_, rfl, (@run_shows_members 2 (by decide) true 3 (toggleAll (set init 1))
    ⟨by decide, trivial⟩ _ rfl).2.2.1⟩

/-- At size zero `set_all` describes the empty set, but leaves 64 bits set. -/
theorem run_setAll_zero :
    ∃ b : BitSet 0, (setAll init).run 2 true = some b ∧ (setAll (init : Program 0)).members = ∅ ∧
      b.bit 0 = true ∧ b.len = 64 :=
  ⟨_, rfl, rfl, by decide +kernel, by decide +kernel⟩

end Program

end BitSet
