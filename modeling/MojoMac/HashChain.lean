/-
Chained hashes of the blocks of a sequence.

A sequence is cut into blocks of `k` elements.  The hash of a block is computed from the hash of
the block before it and the elements of the block.

* `chain_add` — a chain can be resumed from its last hash;
* `chain_congr` — a chain depends on the elements it covers only.
-/
import Mathlib

open List

namespace HashChain

variable {B T : Type} {f : B → List T → B} {k : ℕ}

/-- The hashes of the first `n` blocks, from the hash `p` before them. -/
def chain (f : B → List T → B) (k : ℕ) : ℕ → B → List T → List B
  | 0, _, _ => []
  | n + 1, p, ts => f p (ts.take k) :: chain f k n (f p (ts.take k)) (ts.drop k)

@[simp] theorem length_chain (n : ℕ) (p : B) (ts : List T) : (chain f k n p ts).length = n := by
  induction n generalizing p ts with
  | zero => rfl
  | succ n ih => simp [chain, ih]

/-- A chain is resumed from its last hash. -/
theorem chain_add (m n : ℕ) (p : B) (ts : List T) : chain f k (m + n) p ts
      = chain f k m p ts ++ chain f k n ((chain f k m p ts).getLastD p) (ts.drop (m * k)) := by
  induction m generalizing p ts with
  | zero => simp [chain]
  | succ m ih =>
    rw [Nat.add_right_comm, chain, ih, chain, drop_drop, Nat.add_mul, one_mul, Nat.add_comm k,
      cons_append, getLastD_cons]

/-- Elements behind the blocks do not matter. -/
theorem chain_congr {n : ℕ} {ts us : List T} (h : ts.take (n * k) = us.take (n * k)) (p : B) :
    chain f k n p ts = chain f k n p us := by
  induction n generalizing p ts us with
  | zero => rfl
  | succ n ih =>
    have hblock : ts.take k = us.take k := by
      have h' := congrArg (take k) h
      rwa [take_take, take_take, min_eq_left (by rw [Nat.add_mul]; omega)] at h'
    have hrest : (ts.drop k).take (n * k) = (us.drop k).take (n * k) := by
      have h' := congrArg (drop k) h
      rwa [drop_take, drop_take, Nat.add_mul, one_mul, Nat.add_sub_cancel] at h'
    rw [chain, chain, hblock, ih hrest]

theorem chain_prefix {n : ℕ} {ts us : List T} (h : ts <+: us) (hn : n * k ≤ ts.length) (p : B) :
    chain f k n p us = chain f k n p ts := by
  refine chain_congr ?_ p
  obtain ⟨rest, rfl⟩ := h
  rw [take_append_of_le_length hn]

/-- Every hash of a chain is one of a block. -/
theorem exists_of_mem_chain {n : ℕ} {p : B} {ts : List T} {h : B} (hh : h ∈ chain f k n p ts) :
    ∃ q block, h = f q block := by
  induction n generalizing p ts with
  | zero => simp [chain] at hh
  | succ n ih =>
    rcases mem_cons.mp hh with rfl | hh
    · exact ⟨_, _, rfl⟩
    · exact ih hh

end HashChain
