/-
Well-formed UTF-8.

The byte sequences of Table 3-7 of the Unicode standard and the strings made
of them.  `wellFormed_cons_iff` reads a string from its first byte, which is
how validators work: the width of the character from the first byte, a
restricted range for the second byte, plain trailing bytes after it.
-/
import Mathlib

open List

namespace Utf8

abbrev Byte := BitVec 8

/-- The well-formed byte sequences, as ranges of each byte. -/
def table : List (List (ℕ × ℕ)) :=
  [[(0x00, 0x7F)],
   [(0xC2, 0xDF), (0x80, 0xBF)],
   [(0xE0, 0xE0), (0xA0, 0xBF), (0x80, 0xBF)],
   [(0xE1, 0xEC), (0x80, 0xBF), (0x80, 0xBF)],
   [(0xED, 0xED), (0x80, 0x9F), (0x80, 0xBF)],
   [(0xEE, 0xEF), (0x80, 0xBF), (0x80, 0xBF)],
   [(0xF0, 0xF0), (0x90, 0xBF), (0x80, 0xBF), (0x80, 0xBF)],
   [(0xF1, 0xF3), (0x80, 0xBF), (0x80, 0xBF), (0x80, 0xBF)],
   [(0xF4, 0xF4), (0x80, 0x8F), (0x80, 0xBF), (0x80, 0xBF)]]

/-- A byte in a range of the table. -/
def InRange (b : Byte) (r : ℕ × ℕ) : Prop :=
  r.1 ≤ b.toNat ∧ b.toNat ≤ r.2

/-- The encoding of one character: a row of the table. -/
def IsChar (c : List Byte) : Prop :=
  ∃ row ∈ table, List.Forall₂ InRange c row

/-- A string of well-formed characters. -/
inductive WellFormed : List Byte → Prop
  | nil : WellFormed []
  | char {c s : List Byte} : IsChar c → WellFormed s → WellFormed (c ++ s)

/-- A trailing byte. -/
def IsTail (b : Byte) : Prop :=
  0x80 ≤ b.toNat ∧ b.toNat ≤ 0xBF

instance (b : Byte) : Decidable (IsTail b) :=
  inferInstanceAs (Decidable (_ ∧ _))

/-- The second byte after a given first byte: a trailing byte, narrowed after
four of the first bytes. -/
def IsSecond (b₀ b₁ : Byte) : Prop :=
  IsTail b₁ ∧ (b₀.toNat = 0xE0 → 0xA0 ≤ b₁.toNat) ∧ (b₀.toNat = 0xED → b₁.toNat ≤ 0x9F) ∧
    (b₀.toNat = 0xF0 → 0x90 ≤ b₁.toNat) ∧ (b₀.toNat = 0xF4 → b₁.toNat ≤ 0x8F)

instance (b₀ b₁ : Byte) : Decidable (IsSecond b₀ b₁) :=
  inferInstanceAs (Decidable (_ ∧ _ ∧ _ ∧ _ ∧ _))

/-- The first byte of a character of `n` bytes, more than one. -/
def IsLead (b : Byte) (n : ℕ) : Prop :=
  n = 2 ∧ 0xC2 ≤ b.toNat ∧ b.toNat ≤ 0xDF ∨ n = 3 ∧ 0xE0 ≤ b.toNat ∧ b.toNat ≤ 0xEF ∨
    n = 4 ∧ 0xF0 ≤ b.toNat ∧ b.toNat ≤ 0xF4

theorem isChar_one {b : Byte} : IsChar [b] ↔ b.toNat ≤ 0x7F := by
  simp [IsChar, table, InRange]

variable {b₀ : Byte} {s : List Byte}

theorem isChar_lead {b₁ : Byte} (c : List Byte) :
    IsChar (b₀ :: b₁ :: c) ↔ IsLead b₀ (c.length + 2) ∧ IsSecond b₀ b₁ ∧ ∀ b ∈ c, IsTail b := by
  match c with
  | _ :: _ :: _ :: _ => simp [IsChar, table, IsLead]
  | [] | [_] | [_, _] =>
    simp only [IsChar, table, InRange, IsTail, IsSecond, IsLead, mem_cons, not_mem_nil,
      or_false, exists_eq_or_imp, exists_eq_left, forall₂_cons, forall₂_nil_right_iff,
      forall₂_nil_left_iff, reduceCtorEq, and_false, and_true, false_or, length_cons,
      length_nil, forall_eq_or_imp, forall_eq, false_implies, implies_true, true_and]
    omega

/-- Reading a string from its first byte. -/
theorem wellFormed_cons_iff : WellFormed (b₀ :: s) ↔ b₀.toNat ≤ 0x7F ∧ WellFormed s ∨
      ∃ b₁ c t, s = b₁ :: (c ++ t) ∧ IsLead b₀ (c.length + 2) ∧ IsSecond b₀ b₁ ∧
        (∀ b ∈ c, IsTail b) ∧ WellFormed t := by
  constructor
  · intro h
    generalize hu : b₀ :: s = u at h
    cases h with
    | nil => exact absurd hu (cons_ne_nil _ _)
    | @char c t hc ht =>
      match c, hc with
      | [], ⟨row, hrow, hc⟩ =>
        obtain rfl := forall₂_nil_left_iff.mp hc
        exact absurd hrow (by decide)
      | [_], hc =>
        obtain ⟨rfl, rfl⟩ := cons_eq_cons.mp hu
        exact .inl ⟨isChar_one.mp hc, ht⟩
      | _ :: b₁ :: c, hc =>
        obtain ⟨rfl, rfl⟩ := cons_eq_cons.mp hu
        obtain ⟨hlead, hsec, htail⟩ := (isChar_lead c).mp hc
        exact .inr ⟨b₁, c, t, rfl, hlead, hsec, htail, ht⟩
  · rintro (⟨h, hs⟩ | ⟨b₁, c, t, rfl, hlead, hsec, htail, ht⟩)
    · exact .char (isChar_one.mpr h) hs
    · exact .char ((isChar_lead c).mpr ⟨hlead, hsec, htail⟩) ht

theorem wellFormed_one_iff (h : b₀.toNat ≤ 0x7F) (s : List Byte) :
    WellFormed (b₀ :: s) ↔ WellFormed s := by
  rw [wellFormed_cons_iff, and_iff_right h, or_iff_left]
  rintro ⟨_, _, _, _, hlead, _⟩
  rw [IsLead] at hlead
  omega

theorem wellFormed_lead_iff (h : 0x80 ≤ b₀.toNat) :
    WellFormed (b₀ :: s) ↔ ∃ b₁ c t, s = b₁ :: (c ++ t) ∧ IsLead b₀ (c.length + 2) ∧
      IsSecond b₀ b₁ ∧ (∀ b ∈ c, IsTail b) ∧ WellFormed t := by
  rw [wellFormed_cons_iff, or_iff_right]
  exact fun h' => absurd h'.1 (by omega)

/-- A byte that starts no character. -/
theorem not_wellFormed_of_first (h : 0x80 ≤ b₀.toNat ∧ b₀.toNat < 0xC2 ∨ 0xF4 < b₀.toNat)
    (s : List Byte) : ¬ WellFormed (b₀ :: s) := by
  rw [wellFormed_lead_iff (by omega)]
  rintro ⟨_, _, _, _, hlead, _⟩
  rw [IsLead] at hlead
  omega

end Utf8
