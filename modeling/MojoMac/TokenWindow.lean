/-
The processing window of a token buffer over whole runs.

* `Windowed` — `active` has `active_length` tokens and is the end of what is before the end of the
  processing range;
* `Inv` — what the operations keep as long as each of them is `Safe`;
* `Sound` — what is to hold after an operation;
* `run_windowed_iff` — the window is right after every operation of a run exactly when every
  operation of the run is safe.
-/
import MojoMac.TokenArray

open StateSpec PySlice List

namespace TokenRange

variable {r : TokenRange} {amount : ℤ}

theorem bumpStart_spec (r : TokenRange) (amount : ℤ) : Spec (bumpStart amount) r
      (fun _ r' => ∃ start : ℕ, (start : ℤ) = r.start + amount ∧ start ≤ r.stop ∧
        r' = ⟨start, r.stop⟩)
      fun _ r' => r' = r ∧ ¬ (0 ≤ r.start + amount ∧ r.start + amount ≤ r.stop) := by
  rw [bumpStart]
  simp only [spec_bind, spec_get]
  split
  · exact ⟨rfl, by omega⟩
  · split
    · exact ⟨rfl, by omega⟩
    · exact ⟨(r.start + amount).toNat, by omega, by omega, rfl⟩

theorem bumpEnd_spec (r : TokenRange) (amount : ℤ) :
    Spec (bumpEnd amount) r (fun _ r' => ∃ stop : ℕ, (stop : ℤ) = r.stop + amount ∧ r.start ≤ stop ∧
        r' = ⟨r.start, stop⟩) fun _ r' => r' = r := by
  rw [bumpEnd]
  simp only [spec_bind, spec_get]
  split
  · rfl
  · split
    · rfl
    · exact ⟨(r.stop + amount).toNat, by omega, by omega, rfl⟩

end TokenRange

namespace TokenArray

variable {b b' : TokenArray}

/-- The window over the tokens that are to be processed. -/
structure Windowed (b : TokenArray) : Prop where
  length : (b.active.length : ℤ) = b.activeLength
  suffix : b.active <:+ b.all.take b.processingRange.stop
  processed_le : b.processedLength ≤ b.processingRange.stop
  stop_le : b.processingRange.stop ≤ b.len

/-- What the operations keep. -/
structure Inv (b : TokenArray) : Prop where
  start_le : b.processingRange.start ≤ b.processingRange.stop
  offset_nonneg : 0 ≤ b.processingRange.start + b.processingOffset
  offset_le : b.processingRange.start + b.processingOffset ≤ b.processingRange.stop
  stop_le : b.processingRange.stop ≤ b.currentLength
  current_le : b.currentLength ≤ b.array.length
  prompt_pos : 0 < b.promptLength
  prompt_le : b.promptLength ≤ b.currentLength
  completion_le : b.completionRange.start ≤ b.completionRange.stop
  completion_stop : b.completionRange.stop = b.currentLength

theorem init_inv {array : List ℤ} (h : init array = .ok b) : b.Inv := by
  rw [init] at h
  split at h
  · exact absurd h nofun
  · obtain rfl := Except.ok.inj h
    refine ⟨?_, ?_, ?_, ?_, ?_, ?_, ?_, ?_, ?_⟩ <;> simp only <;> omega

namespace Inv

theorem length_all (h : b.Inv) : b.all.length = b.currentLength := by
  rw [all, length_take, Nat.min_eq_left h.current_le]

/-- The active tokens, as a part of the valid ones. -/
theorem active_eq (h : b.Inv) : b.active = (b.all.take b.processingRange.stop).drop
      (b.processingRange.start + b.processingOffset).toNat := by
  have hstart : (b.processingRange.start : ℤ) + b.processingOffset
      = ((b.processingRange.start + b.processingOffset).toNat : ℕ) :=
    (Int.toNat_of_nonneg h.offset_nonneg).symm
  have hle := h.offset_le
  rw [active, hstart, slice_eq (by omega) (h.stop_le.trans h.current_le), all, take_take,
    Nat.min_eq_left h.stop_le]
  rfl

theorem windowed (h : b.Inv) : b.Windowed where
  length := by
    have hnonneg := h.offset_nonneg
    have hle := h.offset_le
    have hstart := h.start_le
    rw [h.active_eq, length_drop, length_take, h.length_all, Nat.min_eq_left h.stop_le,
      activeLength, TokenRange.len]
    omega
  suffix := by
    rw [h.active_eq]
    exact drop_suffix ..
  processed_le := h.start_le
  stop_le := by
    rw [len, h.length_all]
    exact h.stop_le

end Inv

/-! ### The operations -/

theorem applyProcessingOffset_spec (h : b.Inv) (value : ℤ) :
    Spec (applyProcessingOffset value) b (fun _ b' => b'.Inv) fun _ _ => True := by
  rw [applyProcessingOffset]
  simp only [spec_bind, spec_get]
  split
  · trivial
  · split
    · trivial
    · exact { h with
        offset_nonneg := by simp only; omega
        offset_le := by simp only; omega }

/-- A rewind moves the start of the range back. -/
theorem rewindProcessing_spec (b : TokenArray) (n : ℤ) :
    Spec (rewindProcessing n) b (fun _ b' => ∃ start : ℕ,
      (start : ℤ) = b.processingRange.start - n ∧ 0 ≤ n ∧
        b' = { b with processingRange := ⟨start, b.processingRange.stop⟩ }) fun _ b' => b' = b := by
  rw [rewindProcessing]
  split
  · rfl
  simp only [onProcessing, spec_focus]
  refine (TokenRange.bumpStart_spec _ _).mono ?_ ?_
  · rintro _ _ ⟨start, hstart, -, rfl⟩
    exact ⟨start, by omega, by omega, rfl⟩
  · rintro _ _ ⟨rfl, -⟩
    rfl

theorem skipProcessing_spec (b : TokenArray) (n : ℤ) :
    Spec (skipProcessing n) b (fun _ b' => (b.Inv → b'.Inv) ∧ b'.activeLength ≤ b.activeLength ∧
        ∃ start, b' = { b with processingRange := ⟨start, b.processingRange.stop⟩ })
      fun _ b' => b' = b := by
  rw [skipProcessing]
  simp only [spec_bind, spec_get]
  split
  · rfl
  split
  · rfl
  rename_i hnonneg hlt
  rw [onProcessing, spec_focus]
  refine (TokenRange.bumpStart_spec _ _).mono ?_ ?_
  · rintro _ _ ⟨start, hstart, hle, rfl⟩
    rw [activeLength, TokenRange.len] at hlt ⊢
    refine ⟨fun h => ?_, by simp only [activeLength, TokenRange.len]; omega, start, rfl⟩
    have hstart_le := h.start_le
    have hoffset := h.offset_nonneg
    exact { h with
      start_le := hle
      offset_nonneg := by simp only; omega
      offset_le := by simp only; omega }
  · rintro _ _ ⟨rfl, -⟩
    rfl

/-- A chunk has the size that was asked for. -/
theorem chunk_spec (b : TokenArray) (chunkSize : ℤ) :
    Spec (chunk chunkSize) b (fun _ b' => (b.Inv → b'.Inv) ∧ b'.activeLength = chunkSize ∧
        chunkSize < b.activeLength ∧ ∃ stop, b' = { b with
          processingRange := ⟨b.processingRange.start, stop⟩, activelyChunked := true })
      fun _ b' => b' = b := by
  rw [chunk, spec_get_bind]
  split_ifs with hsize
  · rfl
  rw [spec_bind, onProcessing, spec_focus]
  refine (TokenRange.bumpEnd_spec _ _).mono ?_ ?_
  · rintro _ _ ⟨stop, hstop, hle, rfl⟩
    rw [spec_modify]
    simp only [activeLength, TokenRange.len] at hsize hstop ⊢
    refine ⟨fun h => ?_, by omega, by omega, stop, rfl⟩
    have hstart_le := h.start_le
    have hstop_le := h.stop_le
    exact { h with
      start_le := hle
      offset_le := by simp only; omega
      stop_le := by simp only; omega }
  · rintro _ _ rfl
    rfl

/-- The offset goes back to zero whenever the range is one. -/
theorem clearProcessingOffset_spec (h : b.processingRange.start ≤ b.processingRange.stop) :
    Returns clearProcessingOffset b fun _ b' => b' = { b with processingOffset := 0 } := by
  rw [Returns, clearProcessingOffset, spec_get_bind]
  split_ifs with hzero
  · rw [applyProcessingOffset]
    rw [spec_get_bind]
    rw [if_neg (by omega), if_neg (by omega)]
    rfl
  · rw [spec_pure, ← not_not.mp hzero]

theorem advanceChunk_spec (h : b.Inv) :
    Spec advanceChunk b (fun _ b' => b'.Inv ∧ b' = { b with
        processingRange := ⟨b.processingRange.stop, b.currentLength⟩
        processingOffset := 0
        activelyChunked := false })
      fun _ b' => b' = b ∧ b.activelyChunked = false := by
  rw [advanceChunk, spec_get_bind]
  split_ifs with hchunked
  · exact ⟨rfl, by simpa using hchunked⟩
  rw [spec_bind]
  refine Returns.mono (clearProcessingOffset_spec h.start_le) ?_
  rintro _ _ rfl
  have hstop := h.stop_le
  exact ⟨{ h with
    start_le := hstop
    offset_nonneg := by simp only; omega
    offset_le := by simp only; omega
    stop_le := le_refl _ }, rfl⟩

/-- The loop that doubles the size ends beyond the target. -/
theorem lt_growSize {target fuel newSize : ℕ} (h : target < newSize * 2 ^ fuel) :
    target < growSize target fuel newSize := by
  induction fuel generalizing newSize with
  | zero =>
    rw [growSize]
    simpa using h
  | succ fuel ih =>
    rw [growSize]
    split
    · refine ih ?_
      rw [mul_assoc, ← pow_succ']
      exact h
    · omega

/-- After `expandCapacity` there is room behind the valid tokens. -/
theorem expandCapacity_spec (memory : ℕ → ℤ) (hcurrent : b.currentLength ≤ b.array.length)
    (hpos : 0 < b.currentLength) :
    Returns (expandCapacity memory) b fun _ b' => ∃ array, b' = { b with array := array } ∧
      array.take b.currentLength = b.all ∧ b.currentLength < array.length := by
  have hlength : b.all.length = b.currentLength := by
    rw [all, length_take, Nat.min_eq_left hcurrent]
  rw [Returns, expandCapacity]
  simp only [spec_bind, spec_get]
  split_ifs with hroom
  · have hgrow : b.currentLength < growSize b.currentLength (b.currentLength + 1) b.array.length :=
      lt_growSize ((Nat.lt_two_pow_self.trans (Nat.pow_lt_pow_right one_lt_two
        (Nat.lt_succ_self _))).trans_le (Nat.le_mul_of_pos_left _ (hpos.trans_le hcurrent)))
    have hcopied : copyto b.currentLength b.all = pure b.all := if_pos hlength
    rw [hcopied, pure_bind, spec_modify]
    refine ⟨_, rfl, ?_, ?_⟩
    · rw [take_append_of_le_length hlength.ge, ← hlength, take_length]
    · rw [length_append, length_map, length_range, hlength]
      omega
  · exact ⟨b.array, rfl, rfl, not_le.mp hroom⟩

/-- **A token is added** behind the valid ones, and becomes the only active one. -/
theorem advanceWithToken_spec (h : b.Inv) (hchunked : b.activelyChunked = false)
    (memory : ℕ → ℤ) (token : ℤ) :
    Returns (advanceWithToken memory token) b fun _ b' => ∃ array, b' = { b with
        array := array
        processingRange := ⟨b.processingRange.stop, b.processingRange.stop + 1⟩
        processingOffset := 0
        completionRange := ⟨b.completionRange.start, b.completionRange.stop + 1⟩
        currentLength := b.currentLength + 1 } ∧
      b'.Inv ∧ b'.all = b.all ++ [token] := by
  have hcompletion := h.completion_le
  rw [Returns, advanceWithToken]
  simp only [spec_bind, spec_get, hchunked, Bool.false_eq_true, if_false, spec_modify,
    onProcessing, onCompletion, spec_focus, TokenRange.bumpEnd, TokenRange.advance]
  rw [if_neg (by omega), if_neg (by omega), spec_modify, if_neg (by omega), if_neg (by omega),
    spec_modify]
  refine Spec.imp (expandCapacity_spec memory ?_ ?_) ?_
  · exact h.current_le
  · exact h.prompt_pos.trans_le h.prompt_le
  rintro _ _ ⟨array, rfl, htake, hlt⟩
  simp only at htake hlt
  simp only [storeToken, spec_bind, spec_get, if_neg (not_le.mpr hlt), spec_modify]
  refine (clearProcessingOffset_spec ?_).spec.mono ?_ fun _ _ he => he
  · exact Nat.le_succ _
  rintro _ _ rfl
  have hstop := h.stop_le
  refine ⟨_, rfl, ⟨Nat.le_succ _, by simp only; omega, by simp only; omega,
    Nat.succ_le_succ hstop, ?_, h.prompt_pos, h.prompt_le.trans (Nat.le_succ _),
    h.completion_le.trans (Nat.le_succ _), congrArg (· + 1) h.completion_stop⟩, ?_⟩
  · rw [length_set]
    exact hlt
  · simp only [all]
    rw [take_add_one, take_set_of_le (le_refl _), htake]
    simp [hlt, all]

theorem overwriteTokenAtOffsetFromEnd_spec (h : b.Inv) (offsetFromEnd token : ℤ) :
    Spec (overwriteTokenAtOffsetFromEnd offsetFromEnd token) b
      (fun _ b' => ∃ index : ℕ, (index : ℤ) = b.currentLength - offsetFromEnd ∧
        index < b.currentLength ∧ b' = { b with array := b.array.set index token } ∧ b'.Inv)
      fun _ b' => b' = b ∧ (offsetFromEnd < 1 ∨ b.currentLength < offsetFromEnd) := by
  rw [overwriteTokenAtOffsetFromEnd, spec_get_bind]
  split_ifs with hbounds
  · exact ⟨rfl, hbounds⟩
  have hcurrent := h.current_le
  simp only [storeToken, spec_bind, spec_get]
  rw [if_neg (by omega), spec_modify]
  refine ⟨_, by omega, by omega, rfl, { h with current_le := ?_ }⟩
  rw [length_set]
  exact h.current_le

/-- Tokens are streamed in the order of the buffer, from the one behind those streamed before, as
far as there are any. -/
theorem consumeRecentlyGeneratedTokens_spec (h : b.Inv) (numTrailingToExclude : ℤ) :
    Spec (consumeRecentlyGeneratedTokens numTrailingToExclude) b
      (fun tokens b' => ∃ stop : ℕ, (stop : ℤ) = b.completionRange.stop - numTrailingToExclude ∧
        b.completionRange.start ≤ stop ∧ stop ≤ b.completionRange.stop ∧
        tokens = (b.all.take stop).drop b.completionRange.start ∧
        b' = { b with completionRange := ⟨stop, b.completionRange.stop⟩ })
      fun _ b' => b' = b ∧ ¬ (b.completionRange.start < b.completionRange.stop ∧
        0 ≤ numTrailingToExclude ∧
        b.completionRange.start + numTrailingToExclude ≤ b.completionRange.stop) := by
  have hcompletion := h.completion_stop
  rw [consumeRecentlyGeneratedTokens]
  simp only [spec_bind, spec_get]
  split
  · exact ⟨rfl, by omega⟩
  split
  · exact ⟨rfl, by omega⟩
  split_ifs with hstart
  · exact ⟨rfl, by omega⟩
  simp only [onCompletion, spec_focus, spec_bind, spec_pure]
  refine (TokenRange.bumpStart_spec _ _).mono ?_ ?_
  · rintro _ _ ⟨stop, hstop, hle, rfl⟩
    have hend : (b.completionRange.stop : ℤ) - numTrailingToExclude = (stop : ℕ) := by omega
    have hcurrent := h.current_le
    refine ⟨stop, hend.symm, by omega, hle, ?_, rfl⟩
    rw [hend, slice_eq (by omega) (by omega), all, take_take, Nat.min_eq_left (by omega)]
  · rintro _ _ ⟨rfl, hbounds⟩
    exact ⟨rfl, by omega⟩

/-- The buffer after a reset: nothing but the offset is kept of the processing window. -/
theorem resetAsNewPrompt_spec (h : b.Inv) (numTrailingTokensToDelete : ℤ) :
    Spec (resetAsNewPrompt numTrailingTokensToDelete) b
      (fun _ b' => ∃ current : ℕ, (current : ℤ) = b.currentLength - numTrailingTokensToDelete ∧
        b.promptLength ≤ current ∧ b' = { b with
          processingRange := ⟨0, current⟩
          completionRange := ⟨current, current⟩
          promptLength := current
          currentLength := current
          activelyChunked := false })
      fun _ b' => b' = b ∧ b.generatedLength < numTrailingTokensToDelete := by
  rw [resetAsNewPrompt, spec_get_bind]
  rw [if_neg (not_lt.mpr h.stop_le)]
  have hdelete : Spec (deleteTrailing numTrailingTokensToDelete) b
      (fun _ b' => ∃ current : ℕ, (current : ℤ) = b.currentLength - numTrailingTokensToDelete ∧
        b.promptLength ≤ current ∧ b' = { b with currentLength := current })
      fun _ b' => b' = b ∧ b.generatedLength < numTrailingTokensToDelete := by
    rw [deleteTrailing, spec_get_bind]
    split
    · split_ifs with hlt
      · exact ⟨rfl, hlt⟩
      · rw [generatedLength] at hlt
        exact ⟨_, by omega, by omega, rfl⟩
    · exact ⟨b.currentLength, by omega, h.prompt_le, rfl⟩
  rw [spec_bind]
  refine hdelete.mono ?_ fun _ _ he => he
  rintro _ _ ⟨current, hcurrent, hprompt, rfl⟩
  exact ⟨current, hcurrent, hprompt, rfl⟩

/-! ### Runs -/

/-- The operations.  Memory that an operation allocates may contain anything. -/
inductive Op where
  | chunk (chunkSize : ℤ)
  | advanceChunk
  | skipProcessing (n : ℤ)
  | rewindProcessing (n : ℤ)
  | applyProcessingOffset (value : ℤ)
  | advanceWithToken (memory : ℕ → ℤ) (token : ℤ)
  | overwrite (offsetFromEnd token : ℤ)
  | consume (numTrailingToExclude : ℤ)
  | reset (numTrailingTokensToDelete : ℤ)

def Op.run : Op → PyM TokenArray Unit
  | .chunk chunkSize => TokenArray.chunk chunkSize
  | .advanceChunk => TokenArray.advanceChunk
  | .skipProcessing n => TokenArray.skipProcessing n
  | .rewindProcessing n => TokenArray.rewindProcessing n
  | .applyProcessingOffset value => TokenArray.applyProcessingOffset value
  | .advanceWithToken memory token => TokenArray.advanceWithToken memory token
  | .overwrite offsetFromEnd token => overwriteTokenAtOffsetFromEnd offsetFromEnd token
  | .consume numTrailingToExclude => do
    let _ ← consumeRecentlyGeneratedTokens numTrailingToExclude
  | .reset numTrailingTokensToDelete => resetAsNewPrompt numTrailingTokensToDelete

/-- When an operation leaves the window right: a rewind does not go back beyond the first token by
more than the offset gives, and at a reset the offset is zero and the array as long as the
tokens. -/
def Op.Safe (b : TokenArray) : Op → Prop
  | .rewindProcessing n => n ≤ b.processingRange.start + b.processingOffset
  | .reset numTrailingTokensToDelete => b.processingOffset = 0 ∧
      b.currentLength - numTrailingTokensToDelete ≤ b.array.length
  | _ => True

/-- What is to hold after an operation. -/
def Op.Sound (b' : TokenArray) : Op → Prop
  | .reset _ => b'.Windowed ∧ b'.active = b'.all
  | _ => b'.Windowed

theorem rewindProcessing_sound_iff (h : b.Inv) {n : ℤ} {start : ℕ}
    (hstart : (start : ℤ) = b.processingRange.start - n) (hn : 0 ≤ n)
    (hb' : b' = { b with processingRange := ⟨start, b.processingRange.stop⟩ }) :
    (n ≤ b.processingRange.start + b.processingOffset → b'.Inv) ∧
      (b'.Windowed → n ≤ b.processingRange.start + b.processingOffset) := by
  have hle := h.start_le
  have hoffset := h.offset_le
  subst hb'
  refine ⟨fun hsafe => ?_, fun hwindowed => ?_⟩
  · exact { h with
      start_le := by simp only; omega
      offset_nonneg := by simp only; omega
      offset_le := by simp only; omega }
  -- with a start below zero there are more tokens counted than stand before the end
  have hlength := hwindowed.length
  have hbound := length_slice_le b.array (start + b.processingOffset) b.processingRange.stop
  rw [active, activeLength, TokenRange.len] at hlength
  simp only at hlength hbound
  omega

theorem resetAsNewPrompt_sound_iff (h : b.Inv) {current : ℕ} (hprompt : b.promptLength ≤ current)
    (hb' : b' = { b with
      processingRange := ⟨0, current⟩
      completionRange := ⟨current, current⟩
      promptLength := current
      currentLength := current
      activelyChunked := false }) :
    (b.processingOffset = 0 ∧ current ≤ b.array.length → b'.Inv ∧ b'.active = b'.all) ∧
      (b'.Windowed ∧ b'.active = b'.all → b.processingOffset = 0 ∧ current ≤ b.array.length) := by
  have hpos := h.prompt_pos
  subst hb'
  refine ⟨fun ⟨hoffset, hcurrent⟩ => ?_, fun ⟨hwindowed, hactive⟩ => ?_⟩
  · refine ⟨⟨Nat.zero_le _, ?_, ?_, le_refl _, hcurrent, by simp only; omega, le_refl _, le_refl _,
      rfl⟩, ?_⟩
    · simp [hoffset]
    · simp [hoffset]
    · rw [active, all]
      simp only [hoffset, Nat.cast_zero, add_zero]
      exact slice_eq (Nat.zero_le _) hcurrent
  · have hstop := hwindowed.stop_le
    have hlength := hwindowed.length
    rw [hactive] at hlength
    rw [len] at hstop
    simp only [all, length_take, activeLength, TokenRange.len] at hstop hlength
    omega

/-- **One operation**: it leaves the window right exactly when it is safe, and then keeps the
invariant. -/
theorem Inv.step (h : b.Inv) {op : Op} (hrun : op.run b = .ok () b') :
    (op.Safe b → b'.Inv) ∧ (op.Sound b' ↔ op.Safe b) := by
  have hkeeps : ∀ {m : PyM TokenArray Unit},
      Spec m b (fun _ b' => b'.Inv) (fun _ _ => True) → m b = .ok () b' →
        (True → b'.Inv) ∧ (b'.Windowed ↔ True) := by
    intro m hspec hok
    have hinv : b'.Inv := (spec_of_ok hok).mp hspec
    exact ⟨fun _ => hinv, iff_true_intro hinv.windowed⟩
  cases op with
  | chunk chunkSize =>
    exact hkeeps ((chunk_spec b chunkSize).mono (fun _ _ hb => hb.1 h) fun _ _ _ => trivial) hrun
  | advanceChunk =>
    exact hkeeps ((advanceChunk_spec h).mono (fun _ _ hb => hb.1) fun _ _ _ => trivial) hrun
  | skipProcessing n =>
    exact hkeeps ((skipProcessing_spec b n).mono (fun _ _ hb => hb.1 h) fun _ _ _ => trivial) hrun
  | applyProcessingOffset value => exact hkeeps (applyProcessingOffset_spec h value) hrun
  | rewindProcessing n =>
    obtain ⟨start, hstart, hn, hb'⟩ := (spec_of_ok hrun).mp (rewindProcessing_spec b n)
    have hiff := rewindProcessing_sound_iff h hstart hn hb'
    exact ⟨hiff.1, hiff.2, fun hsafe => (hiff.1 hsafe).windowed⟩
  | advanceWithToken memory token =>
    refine hkeeps ?_ hrun
    by_cases hchunked : b.activelyChunked = true
    · change Spec (advanceWithToken memory token) b _ _
      rw [advanceWithToken]
      simp only [spec_bind, spec_get, hchunked, if_true, spec_throw]
    · refine Returns.mono (advanceWithToken_spec h (by simpa using hchunked) memory token) ?_
      rintro _ _ ⟨_, _, hinv, _⟩
      exact hinv
  | overwrite offsetFromEnd token =>
    refine hkeeps ?_ hrun
    refine (overwriteTokenAtOffsetFromEnd_spec h offsetFromEnd token).mono ?_ fun _ _ _ => trivial
    rintro _ _ ⟨_, _, _, _, hinv⟩
    exact hinv
  | consume numTrailingToExclude =>
    refine hkeeps ?_ hrun
    rw [Op.run, spec_bind]
    refine (consumeRecentlyGeneratedTokens_spec h numTrailingToExclude).mono ?_ fun _ _ _ => trivial
    rintro _ _ ⟨stop, -, -, hle, -, rfl⟩
    exact { h with completion_le := hle }
  | reset numTrailingTokensToDelete =>
    obtain ⟨current, hcurrent, hprompt, hb'⟩ :=
      (spec_of_ok hrun).mp (resetAsNewPrompt_spec h numTrailingTokensToDelete)
    have hiff := resetAsNewPrompt_sound_iff h hprompt hb'
    have hsafe : Op.Safe b (.reset numTrailingTokensToDelete) ↔
        b.processingOffset = 0 ∧ current ≤ b.array.length := by
      rw [Op.Safe, ← hcurrent, Nat.cast_le]
    rw [hsafe]
    exact ⟨fun h => (hiff.1 h).1, hiff.2, fun h => ⟨(hiff.1 h).1.windowed, (hiff.1 h).2⟩⟩

/-- A run of operations none of which raises, with the buffer after each of them. -/
inductive Run : TokenArray → List (Op × TokenArray) → Prop
  | nil (b : TokenArray) : Run b []
  | cons {b b' : TokenArray} {op : Op} {trace : List (Op × TokenArray)}
      (hstep : op.run b = .ok () b') (hrest : Run b' trace) : Run b ((op, b') :: trace)

/-- Every operation of a run is safe when it is made. -/
def SafeRun : TokenArray → List (Op × TokenArray) → Prop
  | _, [] => True
  | b, (op, b') :: trace => op.Safe b ∧ SafeRun b' trace

attribute [local simp] SafeRun

theorem Inv.run (h : b.Inv) {trace : List (Op × TokenArray)} (hrun : Run b trace) :
    (∀ entry ∈ trace, entry.1.Sound entry.2) ↔ SafeRun b trace := by
  induction hrun with
  | nil b => simp
  | @cons b b' op trace hstep hrest ih =>
    obtain ⟨hinv, hiff⟩ := h.step hstep
    rw [forall_mem_cons, SafeRun, hiff]
    exact and_congr_right fun hsafe => ih (hinv hsafe)

/-- **The processing window over whole runs**: from a new buffer, it is right after every operation
exactly when every operation is safe. -/
theorem run_windowed_iff {array : List ℤ} {trace : List (Op × TokenArray)}
    (hinit : init array = .ok b) (hrun : Run b trace) :
    (b.Windowed ∧ ∀ entry ∈ trace, entry.1.Sound entry.2) ↔ SafeRun b trace := by
  have hinv := init_inv hinit
  rw [hinv.run hrun]
  exact and_iff_right hinv.windowed

/-- A prompt of three tokens that is processed in two chunks. -/
theorem run_windowed_iff_chunked :
    let b : TokenArray := ⟨[1, 2, 3], ⟨0, 3⟩, 0, ⟨3, 3⟩, 3, 3, false⟩
    let b₁ : TokenArray := ⟨[1, 2, 3], ⟨0, 2⟩, 0, ⟨3, 3⟩, 3, 3, true⟩
    let b₂ : TokenArray := ⟨[1, 2, 3], ⟨2, 3⟩, 0, ⟨3, 3⟩, 3, 3, false⟩
    init [1, 2, 3] = .ok b ∧ Run b [(.chunk 2, b₁), (.advanceChunk, b₂)] ∧
      b.Windowed ∧ ∀ entry ∈ [(Op.chunk 2, b₁), (.advanceChunk, b₂)], entry.1.Sound entry.2 := by
  intro b b₁ b₂
  have hrun : Run b [(.chunk 2, b₁), (.advanceChunk, b₂)] := .cons rfl (.cons rfl (.nil b₂))
  have hinit : init [1, 2, 3] = .ok b := rfl
  exact ⟨hinit, hrun, (run_windowed_iff hinit hrun).mpr ⟨trivial, trivial, trivial⟩⟩

/-- An offset of one stays after a reset, and the first token is not active; a rewind under an
offset of minus two takes the last token for all of them. -/
theorem run_loses_window :
    let b : TokenArray := ⟨[1, 2, 3], ⟨0, 3⟩, 0, ⟨3, 3⟩, 3, 3, false⟩
    init [1, 2, 3] = .ok b ∧ (∃ b₁ b₂, Run b [(.applyProcessingOffset 1, b₁), (.reset 0, b₂)] ∧
        b₂.all = [1, 2, 3] ∧ b₂.active = [2, 3]) ∧
      ∃ b₁ b₂ b₃, Run b [(.skipProcessing 2, b₁), (.applyProcessingOffset (-2), b₂),
        (.rewindProcessing 1, b₃)] ∧ b₃.active = [3] ∧ b₃.activeLength = 4 := by
  refine ⟨rfl, ⟨_, _, .cons rfl (.cons rfl (.nil _)), rfl, rfl⟩, ?_⟩
  exact ⟨_, _, _, .cons rfl (.cons rfl (.cons rfl (.nil _))), rfl, rfl⟩

/-! ### The buffer that the block managers read -/

/-- The same operation on a buffer without the array. -/
def Op.onBuffer : Op → Option (TokenBuffer → Except PyError TokenBuffer)
  | .chunk chunkSize => some (·.chunk chunkSize)
  | .advanceChunk => some (·.advanceChunk)
  | .skipProcessing n => some (·.skipProcessing n)
  | .rewindProcessing n => some (·.rewindProcessing n)
  | .advanceWithToken _ token => some (·.advanceWithToken token)
  | _ => none

@[simp] theorem view_activeLength : b.view.activeLength = b.activeLength := rfl

theorem view_bumpStart (b : TokenArray) (amount : ℤ) :
    Spec (onProcessing (TokenRange.bumpStart amount)) b
      (fun _ b' => b.view.bumpStart amount = .ok b'.view)
      fun e _ => b.view.bumpStart amount = .error e := by
  simp only [onProcessing, spec_focus, TokenRange.bumpStart, spec_bind, spec_get,
    TokenBuffer.bumpStart, view]
  by_cases hneg : (b.processingRange.start : ℤ) + amount < 0
  · simp only [hneg, if_true]
    rfl
  by_cases hlt : (b.processingRange.stop : ℤ) < b.processingRange.start + amount
  · simp only [hneg, hlt, if_false, if_true]
    rfl
  · simp only [hneg, hlt, if_false]
    rfl

theorem view_bumpEnd (b : TokenArray) (amount : ℤ) :
    Spec (onProcessing (TokenRange.bumpEnd amount)) b
      (fun _ b' => b.view.bumpEnd amount = .ok b'.view)
      fun e _ => b.view.bumpEnd amount = .error e := by
  simp only [onProcessing, spec_focus, TokenRange.bumpEnd, spec_bind, spec_get,
    TokenBuffer.bumpEnd, view]
  by_cases hneg : (b.processingRange.stop : ℤ) + amount < 0
  · simp only [hneg, if_true]
    rfl
  by_cases hlt : (b.processingRange.stop : ℤ) + amount < b.processingRange.start
  · simp only [hneg, hlt, if_false, if_true]
    rfl
  · simp only [hneg, hlt, if_false]
    rfl

/-- **The operations act on the view** as those of the buffer without the array do, with the same
errors. -/
theorem view_run (h : b.Inv) {op : Op} {f : TokenBuffer → Except PyError TokenBuffer}
    (hf : op.onBuffer = some f) :
    Spec op.run b (fun _ b' => f b.view = .ok b'.view) fun e _ => f b.view = .error e := by
  cases op with
  | chunk chunkSize =>
    obtain rfl := Option.some.inj hf
    rw [Op.run, TokenArray.chunk]
    simp only [spec_bind, spec_get, TokenBuffer.chunk, view_activeLength]
    by_cases hsize : chunkSize ≤ 0 ∨ b.activeLength ≤ chunkSize
    · simp only [hsize, if_true]
      rfl
    simp only [hsize, if_false, spec_bind]
    refine (view_bumpEnd b _).mono ?_ ?_
    · intro _ b' hb'
      rw [hb']
      rfl
    · intro e b' he
      rw [he]
      rfl
  | advanceChunk =>
    obtain rfl := Option.some.inj hf
    rw [Op.run, TokenArray.advanceChunk]
    simp only [spec_bind, spec_get, TokenBuffer.advanceChunk, view]
    by_cases hchunked : b.activelyChunked = true
    · simp only [hchunked, Bool.not_true, Bool.false_eq_true, if_false, spec_bind]
      refine Returns.mono (clearProcessingOffset_spec h.start_le) ?_
      rintro _ _ rfl
      rw [spec_modify, TokenBuffer.len, h.length_all]
      rfl
    · simp only [hchunked, Bool.not_false, if_true]
      rfl
  | skipProcessing n =>
    obtain rfl := Option.some.inj hf
    rw [Op.run, TokenArray.skipProcessing]
    simp only [spec_bind, spec_get, TokenBuffer.skipProcessing, view_activeLength]
    by_cases hneg : n < 0
    · simp only [hneg, if_true]
      rfl
    by_cases hle : b.activeLength ≤ n
    · simp only [hneg, hle, if_false, if_true]
      rfl
    · simp only [hneg, hle, if_false]
      exact view_bumpStart b n
  | rewindProcessing n =>
    obtain rfl := Option.some.inj hf
    rw [Op.run, TokenArray.rewindProcessing]
    simp only [TokenBuffer.rewindProcessing]
    by_cases hneg : n < 0
    · simp only [hneg, if_true]
      rfl
    · simp only [hneg, if_false]
      exact view_bumpStart b (-n)
  | advanceWithToken memory token =>
    obtain rfl := Option.some.inj hf
    rw [Op.run]
    simp only [TokenBuffer.advanceWithToken]
    by_cases hchunked : b.activelyChunked = true
    · rw [TokenArray.advanceWithToken]
      simp only [spec_bind, spec_get, hchunked, if_true, spec_throw, view]
      rfl
    rw [Bool.not_eq_true] at hchunked
    refine Returns.mono (advanceWithToken_spec h hchunked memory token) ?_
    rintro _ _ ⟨array, rfl, -, hall⟩
    have hview : ¬ b.view.activelyChunked = true := ne_true_of_eq_false hchunked
    rw [if_neg hview]
    simp only [view, hall]
    rfl
  | _ => cases hf

/-- The first chunk of a prompt of three tokens. -/
theorem view_run_chunk :
    let b : TokenArray := ⟨[1, 2, 3], ⟨0, 3⟩, 0, ⟨3, 3⟩, 3, 3, false⟩
    Spec (Op.chunk 2).run b (fun _ b' => b.view.chunk 2 = .ok b'.view)
      fun e _ => b.view.chunk 2 = .error e := by
  intro b
  have hinit : init [1, 2, 3] = .ok b := rfl
  exact view_run (f := (·.chunk 2)) (init_inv hinit) rfl

end TokenArray
