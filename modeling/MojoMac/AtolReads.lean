/-
The bytes that `atol` reads.

`_trim_and_handle_sign` compares the byte after the white space with the signs, whether the string
goes on or not.  All other reads are guarded.

* `atolReads` — the indices that a call reads, function by function;
* `atolReads_inBounds_iff` — they are inside the string exactly if it is not all white space.
-/
import MojoMac.Atol
import MojoMac.Utf8Validate

open Utf8 FormatInt List

namespace Atol

variable (strSlice : List Byte)

/-! ### The reads -/

/-- The reads of a loop over white space from index `i` on. -/
def spaceReads (i : ℕ) : List ℕ :=
  List.range' i (min (((strSlice.drop i).takeWhile isPosixSpace).length + 1) (strSlice.length - i))

/-- `_trim_and_handle_sign`. -/
def trimReads : List ℕ :=
  let start := (strSlice.takeWhile isPosixSpace).length
  spaceReads strSlice 0 ++ [start, start]

/-- `_handle_base_prefix`. -/
def prefixReads (pos : ℕ) : List ℕ :=
  if pos + 1 < strSlice.length then [pos + 1, pos] else []

/-- `str_slice[byte=i]` reads the byte after the check of the bounds. -/
def byteReads (i : ℕ) : List ℕ :=
  if i < strSlice.length then [i] else []

/-- The loop of `_identify_base`. -/
def zeroReads (strSlice : List Byte) (i : ℕ) (wasLastCharacterUnderscore : Bool) : List ℕ :=
  if _h : i < strSlice.length then
    i :: match getByte strSlice i with
      | .error _ => []
      | .ok c =>
        if c == 0x5F && !wasLastCharacterUnderscore then zeroReads strSlice (i + 1) true
        else if c == 0x30 then zeroReads strSlice (i + 1) false
        else []
  else []
  termination_by strSlice.length - i

/-- `_utf8_first_byte_sequence_length`. -/
def firstByteSequenceLength (b : Byte) : ℕ :=
  utf8ByteType b ||| if b.toNat < 0x80 then 1 else 0

/-- `_identify_base`; only `ord` reads all bytes of a character. -/
def identifyReads (start : ℕ) : List ℕ :=
  if start + 1 = strSlice.length then []
  else byteReads strSlice start ++ match getByte strSlice start with
    | .error _ => []
    | .ok first =>
      if first == 0x30 then
        byteReads strSlice (start + 1) ++ match getByte strSlice (start + 1) with
          | .error _ => []
          | .ok secondDigit =>
            if secondDigit ∈ ascii "bBoOxX" then [] else zeroReads strSlice (start + 1) false
      else List.range' start (firstByteSequenceLength first)

/-- The digit loop. -/
def digitReads (c : Context) (pos : ℕ) (st : LoopState) : List ℕ :=
  if _h : pos < c.strSlice.length then
    let current := c.strSlice[pos]
    pos :: if current == 0x5F then
        if st.wasLastDigitUnderscore then []
        else digitReads c (pos + 1) { st with wasLastDigitUnderscore := true }
      else
        match c.digit current.toNat with
        | none => []
        | some digit =>
          if st.result > c.limit - digit then []
          else
            let result := (st.result + digit) % 2 ^ 64
            let more := !isPosixSpace (c.strSlice[pos + 1]?.getD 0)
            byteReads c.strSlice (pos + 1) ++
              if more && result > c.mulCutoff then []
              else digitReads c (pos + 1)
                ⟨if more then result * c.realBase % 2 ^ 64 else result, false, true, st.spaceEnd⟩
  else []
  termination_by c.strSlice.length - pos

/-- The check that only white space follows the digits. -/
def finishReads (st : LoopState) : List ℕ :=
  if st.wasLastDigitUnderscore || !st.foundValidCharsAfterStart then []
  else (st.spaceEnd.map (spaceReads strSlice)).getD []

/-- The indices that `atol` reads. -/
def atolReads (past : Byte) (base : ℤ) : List ℕ :=
  if base ≠ 0 ∧ (base < 2 ∨ base > 36) ∨ strSlice = [] then []
  else
    let (start, isNegative) := trimAndHandleSign strSlice past
    trimReads strSlice ++
      (if base = 0 then identifyReads strSlice start else prefixReads strSlice start) ++
      match resolveBase strSlice past base start with
      | .error _ => []
      | .ok (realBase, start, hasPrefix) =>
        let c := makeContext strSlice base realBase isNegative
        let underscore := !((realBase == 2 || realBase == 8 || realBase == 16) && hasPrefix)
        digitReads c start ⟨0, underscore, false, none⟩ ++
          match digitLoop c start ⟨0, underscore, false, none⟩ with
          | .error _ => []
          | .ok st => finishReads strSlice st

/-! ### The bounds -/

def InBounds (reads : List ℕ) : Prop := ∀ i ∈ reads, i < strSlice.length

variable {strSlice} {i : ℕ}

theorem inBounds_nil : InBounds strSlice [] := by
  simp [InBounds]

theorem InBounds.cons {l : List ℕ} (hi : i < strSlice.length) (hl : InBounds strSlice l) :
    InBounds strSlice (i :: l) :=
  forall_mem_cons.mpr ⟨hi, hl⟩

theorem inBounds_append {l l' : List ℕ} :
    InBounds strSlice (l ++ l') ↔ InBounds strSlice l ∧ InBounds strSlice l' :=
  forall_mem_append

theorem inBounds_range' {n : ℕ} (h : n ≤ strSlice.length - i) :
    InBounds strSlice (List.range' i n) := by
  intro j hj
  rw [mem_range'_1] at hj
  omega

theorem inBounds_spaceReads : InBounds strSlice (spaceReads strSlice i) :=
  inBounds_range' (min_le_right ..)

theorem inBounds_byteReads : InBounds strSlice (byteReads strSlice i) := by
  rw [byteReads]
  split_ifs with hi
  · exact inBounds_nil.cons hi
  · exact inBounds_nil

theorem inBounds_prefixReads : InBounds strSlice (prefixReads strSlice i) := by
  rw [prefixReads]
  split_ifs with hi
  · exact (inBounds_nil.cons (by omega)).cons hi
  · exact inBounds_nil

theorem inBounds_zeroReads {was : Bool} : InBounds strSlice (zeroReads strSlice i was) := by
  fun_induction zeroReads strSlice i was with
  | case1 i was hi ih₁ ih₂ =>
    refine InBounds.cons hi ?_
    split
    · exact inBounds_nil
    · split_ifs
      · exact ih₁
      · exact ih₂
      · exact inBounds_nil
  | case2 => exact inBounds_nil

theorem inBounds_digitReads {c : Context} {st : LoopState} :
    InBounds c.strSlice (digitReads c i st) := by
  fun_induction digitReads c i st with
  | case1 pos st hpos current ih₁ ih₂ =>
    refine InBounds.cons hpos ?_
    split
    · split
      · exact inBounds_nil
      · exact ih₁
    split
    · exact inBounds_nil
    split
    · exact inBounds_nil
    · refine inBounds_append.mpr ⟨inBounds_byteReads, ?_⟩
      split
      · exact inBounds_nil
      · exact ih₂ _
  | case2 => exact inBounds_nil

theorem inBounds_finishReads {st : LoopState} : InBounds strSlice (finishReads strSlice st) := by
  rw [finishReads]
  split
  · exact inBounds_nil
  · cases st.spaceEnd with
    | none => exact inBounds_nil
    | some start => exact inBounds_spaceReads

/-- A string without its first ASCII characters. -/
theorem wellFormed_drop (h : WellFormed strSlice) {k : ℕ}
    (hascii : ∀ b ∈ strSlice.take k, b.toNat ≤ 0x7F) : WellFormed (strSlice.drop k) := by
  induction k generalizing strSlice with
  | zero => exact h
  | succ k ih =>
    cases strSlice with
    | nil => exact h
    | cons b s =>
      have hrest := (wellFormed_one_iff (hascii b (by simp)) s).mp h
      exact ih hrest fun b' hb' => hascii b' (by simp [hb'])

/-- A character is read whole. -/
theorem firstByteSequenceLength_le {b : Byte} {s : List Byte} (h : WellFormed (b :: s)) :
    firstByteSequenceLength b ≤ s.length + 1 := by
  rw [firstByteSequenceLength]
  rcases wellFormed_cons_iff.mp h with ⟨hb, -⟩ | ⟨b₁, c, t, rfl, hlead, -⟩
  · rw [utf8ByteType_eq b (by omega), if_pos (by omega), if_pos (by omega)]
    simp
  · rw [IsLead] at hlead
    rw [utf8ByteType_eq b (by omega), if_neg (by omega : ¬ b.toNat < 0x80),
      if_neg (by omega : ¬ b.toNat < 0x80), Nat.or_zero, length_cons, length_append]
    split_ifs <;> omega

theorem inBounds_identifyReads (h : WellFormed (strSlice.drop i)) :
    InBounds strSlice (identifyReads strSlice i) := by
  rw [identifyReads]
  split_ifs
  · exact inBounds_nil
  refine inBounds_append.mpr ⟨inBounds_byteReads, ?_⟩
  split
  · exact inBounds_nil
  rename_i first hfirst
  split_ifs
  · refine inBounds_append.mpr ⟨inBounds_byteReads, ?_⟩
    split
    · exact inBounds_nil
    · split_ifs
      · exact inBounds_nil
      · exact inBounds_zeroReads
  · rw [getByte] at hfirst
    split at hfirst
    · exact absurd hfirst (by simp)
    rename_i b hb
    obtain ⟨hi, rfl⟩ := List.getElem_of_getElem? hb
    split_ifs at hfirst
    rw [← Except.ok.inj hfirst]
    rw [drop_eq_getElem_cons hi] at h
    have hle := firstByteSequenceLength_le h
    rw [length_drop] at hle
    exact inBounds_range' (by omega)

/-- The white space ends inside the string, or the string is white space. -/
theorem takeWhile_length_lt_iff : (strSlice.takeWhile isPosixSpace).length < strSlice.length ↔
      ∃ b ∈ strSlice, isPosixSpace b = false := by
  have hpre := strSlice.takeWhile_prefix isPosixSpace
  constructor
  · intro h
    by_contra hall
    rw [takeWhile_eq_self_iff.mpr (by simpa using hall)] at h
    exact lt_irrefl _ h
  · rintro ⟨b, hb, hother⟩
    refine lt_of_le_of_ne hpre.length_le fun heq => ?_
    have hspace := takeWhile_eq_self_iff.mp (hpre.eq_of_length heq) b hb
    exact absurd hspace (by simp [hother])

theorem isPosixSpace_ascii : ∀ b : Byte, isPosixSpace b = true → b.toNat ≤ 0x7F := by
  decide +kernel

/-- Before the first digit there are ASCII characters only. -/
theorem wellFormed_drop_start (hwf : WellFormed strSlice) (past : Byte)
    (h : (strSlice.takeWhile isPosixSpace).length < strSlice.length) :
    WellFormed (strSlice.drop (trimAndHandleSign strSlice past).1) := by
  have htake := prefix_iff_eq_take.mp (strSlice.takeWhile_prefix isPosixSpace)
  have hspace : ∀ b ∈ strSlice.take (strSlice.takeWhile isPosixSpace).length, b.toNat ≤ 0x7F := by
    intro b hb
    rw [← htake] at hb
    exact isPosixSpace_ascii b (mem_takeWhile_imp hb)
  refine wellFormed_drop hwf ?_
  rw [trimAndHandleSign]
  simp only [readByte, getElem?_eq_getElem h, Option.getD_some]
  split
  · rename_i hsign
    rw [take_succ_eq_append_getElem h, forall_mem_append]
    refine ⟨hspace, fun b hb => ?_⟩
    rw [mem_singleton.mp hb]
    simp only [Bool.or_eq_true, beq_iff_eq] at hsign
    rcases hsign with hsign | hsign
    · simp [hsign]
    · simp [hsign]
  · exact hspace

/-- **For every non-empty string in UTF-8, whatever follows it in memory, and every base: all bytes
that `atol` reads are inside the string exactly if the string does not consist of white space.** -/
theorem atolReads_inBounds_iff (hne : strSlice ≠ []) (hwf : WellFormed strSlice) (past : Byte)
    {base : ℤ} (hbase : base = 0 ∨ 2 ≤ base ∧ base ≤ 36) :
    InBounds strSlice (atolReads strSlice past base) ↔ ∃ b ∈ strSlice, isPosixSpace b = false := by
  rw [atolReads, if_neg (by rintro (h | h); omega; exact hne h), ← takeWhile_length_lt_iff]
  simp only
  rw [inBounds_append, inBounds_append]
  constructor
  · rintro ⟨⟨htrim, -⟩, -⟩
    exact htrim _ (by simp [trimReads])
  · intro h
    refine ⟨⟨?_, ?_⟩, ?_⟩
    · exact inBounds_append.mpr ⟨inBounds_spaceReads, (inBounds_nil.cons h).cons h⟩
    · split
      · exact inBounds_identifyReads (wellFormed_drop_start hwf past h)
      · exact inBounds_prefixReads
    split
    · exact inBounds_nil
    · refine inBounds_append.mpr ⟨inBounds_digitReads, ?_⟩
      split
      · exact inBounds_nil
      · exact inBounds_finishReads

theorem atolReads_inBounds_seven :
    InBounds [0x20, 0x37] (atolReads [0x20, 0x37] 0 0) ↔
      ∃ b ∈ [0x20, 0x37], isPosixSpace b = false :=
  have hseven : WellFormed [0x20, 0x37] :=
    (wellFormed_one_iff (by decide) _).mpr ((wellFormed_one_iff (by decide) _).mpr .nil)
  atolReads_inBounds_iff (by decide) hseven 0 (Or.inl rfl)

/-- A string of one space: the byte after it is compared with the signs. -/
theorem atolReads_space :
    atolReads [0x20] 0 10 = [0, 1, 1] ∧ ¬ InBounds [0x20] (atolReads [0x20] 0 10) := by
  have hreads : atolReads [0x20] 0 10 = [0, 1, 1] := by decide +kernel
  rw [hreads]
  exact ⟨rfl, fun h => absurd (h 1 (by simp)) (by simp)⟩

end Atol
