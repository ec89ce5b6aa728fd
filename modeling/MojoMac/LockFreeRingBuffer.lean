/-
The lock-free ring buffer, under any interleaving of any number of threads.

Each load, store and compare-exchange of `enqueue` and `dequeue` is one step, and so is the move of
an item into or out of its slot.  Counters are 64-bit words.  Two lists record the history: the
items in the order in which their write indices were claimed, and what the dequeues returned.

* `Ring`, `step` — the shared words, the threads at their places, and the steps they take;
* `Knows` — what a thread may rely on at its place;
* `Inv` — the invariant: indices in progress are held by one thread each, and a slot of the
  current turn is full from the move into it to the move out of it;
* `run_sound` — the order of the four counters, first-in first-out delivery, and that no slot is
  overwritten before it was emptied or read before it was filled.
-/
import MojoMac.Interleaving

open Function List

namespace LockFreeRingBuffer

variable {T α : Type} [DecidableEq T]

/-! ### Words -/

/-- Difference of two `uint64_t`. -/
def sub64 (a b : ℕ) : ℕ := (a + 2 ^ 64 - b) % 2 ^ 64

/-- Successor of a `uint64_t`. -/
def succ64 (a : ℕ) : ℕ := (a + 1) % 2 ^ 64

/-- The next power of two that is greater than `a`, zero where 64 bits do not hold it. -/
def nextPowerOf2 (a : ℕ) : ℕ := (if a = 0 then 1 else 2 ^ (a.log2 + 1)) % 2 ^ 64

/-- The slot of an index: `index & (size - 1)`. -/
def slot (size index : ℕ) : ℕ := index &&& sub64 size 1

/-- A size that the constructor sets: a power of two in 64 bits, or zero. -/
def IsSize (size : ℕ) : Prop := size = 0 ∨ ∃ n < 64, size = 2 ^ n

theorem isSize_nextPowerOf2 (a : ℕ) : IsSize (nextPowerOf2 a) := by
  have hpow : ∀ n : ℕ, IsSize (2 ^ n % 2 ^ 64) := by
    intro n
    rcases lt_or_ge n 64 with hn | hn
    · exact .inr ⟨n, hn, Nat.mod_eq_of_lt (Nat.pow_lt_pow_right one_lt_two hn)⟩
    · exact .inl (Nat.mod_eq_zero_of_dvd (pow_dvd_pow 2 hn))
  rw [nextPowerOf2]
  split
  · exact hpow 0
  · exact hpow _

variable {size : ℕ}

theorem slot_eq_mod (hsize : IsSize size) (hpos : 0 < size) (k : ℕ) : slot size k = k % size := by
  obtain rfl | ⟨n, hn, rfl⟩ := hsize
  · exact absurd hpos (lt_irrefl 0)
  have hlt : 2 ^ n < 2 ^ 64 := Nat.pow_lt_pow_right one_lt_two hn
  have hsub : sub64 (2 ^ n) 1 = 2 ^ n - 1 := by
    rw [sub64]
    omega
  rw [slot, hsub, Nat.and_two_pow_sub_one_eq_mod]

variable {k : ℕ}

/-- The slots of one turn are different. -/
theorem slot_injOn {c j : ℕ} (hsize : IsSize size) (hj : c ≤ j ∧ j < c + size)
    (hk : c ≤ k ∧ k < c + size) (h : slot size j = slot size k) : j = k := by
  have hpos : 0 < size := by omega
  rw [slot_eq_mod hsize hpos, slot_eq_mod hsize hpos] at h
  exact Nat.ModEq.eq_of_abs_lt h (by rw [abs_lt]; omega)

theorem slot_add_size (hsize : IsSize size) (k : ℕ) : slot size (k + size) = slot size k := by
  rcases Nat.eq_zero_or_pos size with rfl | hpos
  · rfl
  · rw [slot_eq_mod hsize hpos, slot_eq_mod hsize hpos, Nat.add_mod_right]

theorem sub64_of_le {a b : ℕ} (h : b ≤ a) (ha : a < 2 ^ 64) : sub64 a b = a - b := by
  rw [sub64]
  omega

theorem succ64_of_lt {a : ℕ} (h : a + 1 < 2 ^ 64) : succ64 a = a + 1 := Nat.mod_eq_of_lt h

/-! ### Threads -/

/-- What a call returned: an `enqueue` whether it was done, a `dequeue` the item if there was one. -/
inductive Outcome (α : Type)
  | enqueued
  | full
  | dequeued (ret : Option α)
  | empty
  deriving DecidableEq, Repr

/-- Where a thread stands: between calls, or before the next shared access of a call. -/
inductive Place (α : Type)
  | idle (returned : Option (Outcome α))
  | enqueueStart (item : α)
  | enqueueLoad (item : α) (curConsumed : ℕ)
  | enqueueClaim (item : α) (curWriteIndex : ℕ)
  | enqueueRecheck (item : α) (curWriteIndex : ℕ)
  | enqueueMove (item : α) (curWriteIndex : ℕ)
  | enqueueWait (curWriteIndex : ℕ)
  | enqueueStore (curWriteIndex : ℕ)
  | dequeueStart
  | dequeueLoad (curPublished : ℕ)
  | dequeueClaim (curReadIndex : ℕ)
  | dequeueRecheck (curReadIndex : ℕ)
  | dequeueMove (curReadIndex : ℕ)
  | dequeueWait (curReadIndex : ℕ) (ret : Option α)
  | dequeueStore (curReadIndex : ℕ) (ret : Option α)
  deriving DecidableEq, Repr

/-- The ring buffer with its threads.  An empty slot is one that was never filled, or whose item
was moved out. -/
structure Ring (T α : Type) where
  buffer : ℕ → Option α
  readIndex : ℕ
  writeIndex : ℕ
  consumed : ℕ
  published : ℕ
  place : T → Place α
  /-- The items by their write indices. -/
  enqueued : List α
  /-- What the dequeues returned, in the order in which they finished. -/
  dequeued : List (Option α)

def init : Ring T α where
  buffer _ := none
  readIndex := 0
  writeIndex := 0
  consumed := 0
  published := 0
  place _ := .idle none
  enqueued := []
  dequeued := []

/-- What a thread does next: a call, or the next access of the call it is in.  A weak
compare-exchange may fail for no reason. -/
inductive Action (α : Type)
  | enqueue (item : α)
  | dequeue
  | next (spurious : Bool)
  deriving DecidableEq, Repr

def Ring.goto (s : Ring T α) (p : T) (place : Place α) : Ring T α :=
  { s with place := Function.update s.place p place }

/-- The next shared access of the thread `p`. -/
def advance (size : ℕ) (s : Ring T α) (p : T) (spurious : Bool) : Option (Ring T α) :=
  match s.place p with
  | .idle _ => none
  | .enqueueStart item => some (s.goto p (.enqueueLoad item s.consumed))
  | .enqueueLoad item curConsumed =>
    if sub64 s.writeIndex curConsumed ≥ size then some (s.goto p (.idle (some .full)))
    else some (s.goto p (.enqueueClaim item s.writeIndex))
  | .enqueueClaim item curWriteIndex =>
    if s.writeIndex = curWriteIndex ∧ spurious = false then
      some { s.goto p (.enqueueMove item curWriteIndex) with
        writeIndex := succ64 curWriteIndex
        enqueued := s.enqueued ++ [item] }
    else some (s.goto p (.enqueueRecheck item s.writeIndex))
  | .enqueueRecheck item curWriteIndex =>
    if sub64 curWriteIndex s.consumed ≥ size then some (s.goto p (.idle (some .full)))
    else some (s.goto p (.enqueueClaim item curWriteIndex))
  | .enqueueMove item curWriteIndex =>
    some { s.goto p (.enqueueWait curWriteIndex) with
      buffer := Function.update s.buffer (slot size curWriteIndex) (some item) }
  | .enqueueWait curWriteIndex =>
    if s.published = curWriteIndex then some (s.goto p (.enqueueStore curWriteIndex)) else some s
  | .enqueueStore curWriteIndex =>
    some { s.goto p (.idle (some .enqueued)) with published := succ64 curWriteIndex }
  | .dequeueStart => some (s.goto p (.dequeueLoad s.published))
  | .dequeueLoad curPublished =>
    if curPublished ≤ s.readIndex then some (s.goto p (.idle (some .empty)))
    else some (s.goto p (.dequeueClaim s.readIndex))
  | .dequeueClaim curReadIndex =>
    if s.readIndex = curReadIndex ∧ spurious = false then
      some { s.goto p (.dequeueMove curReadIndex) with readIndex := succ64 curReadIndex }
    else some (s.goto p (.dequeueRecheck s.readIndex))
  | .dequeueRecheck curReadIndex =>
    if s.published ≤ curReadIndex then some (s.goto p (.idle (some .empty)))
    else some (s.goto p (.dequeueClaim curReadIndex))
  | .dequeueMove curReadIndex =>
    some { s.goto p (.dequeueWait curReadIndex (s.buffer (slot size curReadIndex))) with
      buffer := Function.update s.buffer (slot size curReadIndex) none }
  | .dequeueWait curReadIndex ret =>
    if s.consumed = curReadIndex then some (s.goto p (.dequeueStore curReadIndex ret)) else some s
  | .dequeueStore curReadIndex ret =>
    some { s.goto p (.idle (some (.dequeued ret))) with
      consumed := succ64 curReadIndex
      dequeued := s.dequeued ++ [ret] }

variable {l : Place α}

/-- A step of the system: a thread that is in no call makes one, or goes on in its call. -/
def step (size : ℕ) (s : Ring T α) (a : T × Action α) : Option (Ring T α) :=
  match a.2, s.place a.1 with
  | .enqueue item, .idle _ => some (s.goto a.1 (.enqueueStart item))
  | .dequeue, .idle _ => some (s.goto a.1 .dequeueStart)
  | .next spurious, _ => advance size s a.1 spurious
  | _, _ => none

/-! ### The invariant -/

namespace Place

/-- The write index that a thread has claimed and not yet published. -/
def writes : Place α → Option ℕ
  | enqueueMove _ k | enqueueWait k | enqueueStore k => some k
  | _ => none

/-- The read index that a thread has claimed and not yet given back. -/
def reads : Place α → Option ℕ
  | dequeueMove k | dequeueWait k _ | dequeueStore k _ => some k
  | _ => none

/-- The claimed write index whose slot is still to be filled. -/
def unfilled : Place α → Option ℕ
  | enqueueMove _ k => some k
  | _ => none

/-- The claimed read index whose slot has been emptied. -/
def emptied : Place α → Option ℕ
  | dequeueWait k _ | dequeueStore k _ => some k
  | _ => none

/-- All that a thread holds. -/
def holds (l : Place α) : (Option ℕ × Option ℕ) × Option ℕ × Option ℕ :=
  ((l.writes, l.reads), l.unfilled, l.emptied)

theorem writes_of_unfilled (h : l.unfilled = some k) : l.writes = some k := by
  cases l <;> simp_all [unfilled, writes]

theorem reads_of_emptied (h : l.emptied = some k) : l.reads = some k := by
  cases l <;> simp_all [emptied, reads]

end Place

/-- What a thread may rely on at its place.  A stale index is only known to be behind; it is known
to be free, or filled, as long as the compare-exchange can succeed. -/
def Knows (size : ℕ) (s : Ring T α) : Place α → Prop
  | .enqueueLoad _ curConsumed => curConsumed ≤ s.consumed
  | .enqueueClaim _ k => k ≤ s.writeIndex ∧ (s.writeIndex = k → k < s.consumed + size)
  | .enqueueRecheck _ k => k ≤ s.writeIndex
  | .enqueueMove item k => s.published ≤ k ∧ k < s.writeIndex ∧ s.enqueued[k]? = some item
  | .enqueueWait k => s.published ≤ k ∧ k < s.writeIndex
  | .enqueueStore k => s.published = k ∧ k < s.writeIndex
  | .dequeueLoad curPublished => curPublished ≤ s.published
  | .dequeueClaim k => k ≤ s.readIndex ∧ (s.readIndex = k → k < s.published)
  | .dequeueRecheck k => k ≤ s.readIndex
  | .dequeueMove k => s.consumed ≤ k ∧ k < s.readIndex
  | .dequeueWait k ret => s.consumed ≤ k ∧ k < s.readIndex ∧ ret = s.enqueued[k]?
  | .dequeueStore k ret => s.consumed = k ∧ k < s.readIndex ∧ ret = s.enqueued[k]?
  | _ => True

/-- The thread is not about to fill the slot of the index, and did not empty it. -/
def Untouched (k : ℕ) (l : Place α) : Prop := l.unfilled ≠ some k ∧ l.emptied ≠ some k

/-- The index was claimed for writing, its slot was filled, and its item is not moved out. -/
def Filled (s : Ring T α) (k : ℕ) : Prop :=
  k < s.writeIndex ∧ ∀ p, Untouched k (s.place p)

/-- No two threads hold the same index. -/
def Unique (held : T → Option ℕ) : Prop := ∀ p q k, held p = some k → held q = some k → p = q

structure Inv (size : ℕ) (s : Ring T α) : Prop where
  consumed_le : s.consumed ≤ s.readIndex
  readIndex_le : s.readIndex ≤ s.published
  published_le : s.published ≤ s.writeIndex
  writeIndex_le : s.writeIndex ≤ s.consumed + size
  claims : s.writeIndex = s.enqueued.length
  knows : ∀ p, Knows size s (s.place p)
  writers : Unique fun p => (s.place p).writes
  readers : Unique fun p => (s.place p).reads
  slots : ∀ k, s.consumed ≤ k → k < s.consumed + size →
    (Filled s k → s.buffer (slot size k) = s.enqueued[k]?) ∧
      (¬ Filled s k → s.buffer (slot size k) = none)
  delivered : s.dequeued = (s.enqueued.take s.consumed).map some

variable {s t : Ring T α} {p q : T} {place : Place α} {item : α}

section

omit [DecidableEq T]

theorem inv_init : Inv size (init : Ring T α) where
  consumed_le := le_rfl
  readIndex_le := le_rfl
  published_le := le_rfl
  writeIndex_le := Nat.zero_le _
  claims := rfl
  knows _ := trivial
  writers _ _ _ h := by cases h
  readers _ _ _ h := by cases h
  slots k _ _ := ⟨fun h => absurd h.1 (Nat.not_lt_zero k), fun _ => rfl⟩
  delivered := rfl

variable (hs : Inv size s)

include hs

theorem Inv.order : s.consumed ≤ s.readIndex ∧ s.readIndex ≤ s.published ∧
    s.published ≤ s.writeIndex ∧ s.writeIndex ≤ s.consumed + size :=
  ⟨hs.consumed_le, hs.readIndex_le, hs.published_le, hs.writeIndex_le⟩

theorem Inv.knows_at (hplace : s.place p = place) : Knows size s place :=
  hplace ▸ hs.knows p

theorem Inv.of_writes (h : (s.place p).writes = some k) :
    s.published ≤ k ∧ k < s.writeIndex := by
  have hknows := hs.knows p
  cases hplace : s.place p <;> rw [hplace] at h hknows <;> cases h
  · exact ⟨hknows.1, hknows.2.1⟩
  · exact hknows
  · exact ⟨hknows.1.le, hknows.2⟩

theorem Inv.of_reads (h : (s.place p).reads = some k) :
    s.consumed ≤ k ∧ k < s.readIndex := by
  have hknows := hs.knows p
  cases hplace : s.place p <;> rw [hplace] at h hknows <;> cases h
  · exact hknows
  · exact ⟨hknows.1, hknows.2.1⟩
  · exact ⟨hknows.1.le, hknows.2.1⟩

/-- What a thread knows stays true while the others move the counters on, as long as they do not
pass an index that the thread holds. -/
theorem Knows.mono (h : Knows size s place)
    (hconsumed : s.consumed ≤ t.consumed) (hread : s.readIndex ≤ t.readIndex)
    (hpublished : s.published ≤ t.published) (hwrite : s.writeIndex ≤ t.writeIndex)
    (henqueued : ∀ k < s.writeIndex, t.enqueued[k]? = s.enqueued[k]?)
    (hwrites : ∀ k, place.writes = some k → t.published ≤ k)
    (hreads : ∀ k, place.reads = some k → t.consumed ≤ k) : Knows size t place := by
  obtain ⟨-, h₂, h₃, -⟩ := hs.order
  cases place with
  | idle | enqueueStart | dequeueStart => trivial
  | enqueueLoad item cur => exact le_trans h hconsumed
  | enqueueClaim item k =>
    refine ⟨h.1.trans hwrite, fun heq => ?_⟩
    have := h.2 (le_antisymm (hwrite.trans heq.le) h.1)
    omega
  | enqueueRecheck item k => exact le_trans h hwrite
  | enqueueMove item k =>
    exact ⟨hwrites k rfl, h.2.1.trans_le hwrite, (henqueued k h.2.1).trans h.2.2⟩
  | enqueueWait k => exact ⟨hwrites k rfl, h.2.trans_le hwrite⟩
  | enqueueStore k =>
    exact ⟨le_antisymm (hwrites k rfl) (h.1.ge.trans hpublished), h.2.trans_le hwrite⟩
  | dequeueLoad cur => exact le_trans h hpublished
  | dequeueClaim k =>
    refine ⟨h.1.trans hread, fun heq => ?_⟩
    exact (h.2 (le_antisymm (hread.trans heq.le) h.1)).trans_le hpublished
  | dequeueRecheck k => exact le_trans h hread
  | dequeueMove k => exact ⟨hreads k rfl, h.2.trans_le hread⟩
  | dequeueWait k ret =>
    obtain ⟨-, hlt, rfl⟩ := h
    exact ⟨hreads k rfl, hlt.trans_le hread, (henqueued k (by omega)).symm⟩
  | dequeueStore k ret =>
    obtain ⟨hk, hlt, rfl⟩ := h
    exact ⟨le_antisymm (hreads k rfl) (hk.ge.trans hconsumed), hlt.trans_le hread,
      (henqueued k (by omega)).symm⟩

/-- A thread that is about to move an item out finds the item of its index. -/
theorem Inv.buffer_of_dequeueMove (hplace : s.place p = .dequeueMove k) :
    s.buffer (slot size k) = s.enqueued[k]? := by
  obtain ⟨-, h₂, h₃, h₄⟩ := hs.order
  have hholds : (s.place p).reads = some k := congrArg Place.reads hplace
  obtain ⟨hle, hlt⟩ := hs.of_reads hholds
  refine (hs.slots k hle (by omega)).1 ⟨by omega, fun q => ⟨fun h => ?_, fun h => ?_⟩⟩
  · have := hs.of_writes (Place.writes_of_unfilled h)
    omega
  · obtain rfl := hs.readers q p k (Place.reads_of_emptied h) hholds
    rw [hplace] at h
    cases h

/-- A thread that is about to move an item in finds the slot empty. -/
theorem Inv.buffer_of_enqueueMove
    (hplace : s.place p = .enqueueMove item k) : s.buffer (slot size k) = none := by
  obtain ⟨h₁, h₂, -, h₄⟩ := hs.order
  have hunfilled : (s.place p).unfilled = some k := congrArg Place.unfilled hplace
  have hrange := hs.of_writes (Place.writes_of_unfilled hunfilled)
  exact (hs.slots k (by omega) (by omega)).2 fun hf => (hf.2 p).1 hunfilled

theorem Inv.getElem?_of_reads (h : (s.place p).reads = some k) :
    ∃ item, s.enqueued[k]? = some item := by
  obtain ⟨-, h₂, h₃, -⟩ := hs.order
  have hclaims := hs.claims
  have hlt := (hs.of_reads h).2
  exact ⟨_, getElem?_eq_getElem (by omega)⟩

end

/-- What a step does, where the counters have not wrapped around. -/
inductive Effect (size : ℕ) (s : Ring T α) (p : T) : Ring T α → Prop
  | loads {place : Place α} (hknows : Knows size s place)
      (hholds : place.holds = (s.place p).holds) : Effect size s p (s.goto p place)
  | claimsWrite {item : α} (hplace : s.place p = .enqueueClaim item s.writeIndex) :
      Effect size s p { s.goto p (.enqueueMove item s.writeIndex) with
        writeIndex := s.writeIndex + 1
        enqueued := s.enqueued ++ [item] }
  | fills {item : α} {k : ℕ} (hplace : s.place p = .enqueueMove item k) :
      Effect size s p { s.goto p (.enqueueWait k) with
        buffer := Function.update s.buffer (slot size k) (some item) }
  | publishes (hplace : s.place p = .enqueueStore s.published) :
      Effect size s p { s.goto p (.idle (some .enqueued)) with published := s.published + 1 }
  | claimsRead (hplace : s.place p = .dequeueClaim s.readIndex) :
      Effect size s p { s.goto p (.dequeueMove s.readIndex) with readIndex := s.readIndex + 1 }
  | empties {k : ℕ} (hplace : s.place p = .dequeueMove k) :
      Effect size s p { s.goto p (.dequeueWait k (s.buffer (slot size k))) with
        buffer := Function.update s.buffer (slot size k) none }
  | gives {ret : Option α} (hplace : s.place p = .dequeueStore s.consumed ret) :
      Effect size s p { s.goto p (.idle (some (.dequeued ret))) with
        consumed := s.consumed + 1
        dequeued := s.dequeued ++ [ret] }

/-- A step that only changes the place of the thread. -/
theorem Effect.of_place {place' : Place α} (h : some (s.goto p place') = some t)
    (hplace : s.place p = place) (hknows : Knows size s place')
    (hholds : place'.holds = place.holds) : Effect size s p t :=
  Option.some.inj h ▸ .loads hknows (hplace ▸ hholds)

theorem Effect.stay (hs : Inv size s) : Effect size s p s := by
  have hstay : Effect size s p (s.goto p (s.place p)) := .loads (hs.knows p) rfl
  rwa [Ring.goto, update_eq_self] at hstay

theorem effect_of_advance {spurious : Bool} (hs : Inv size s) (h64 : t.enqueued.length < 2 ^ 64)
    (hle : s.enqueued.length ≤ t.enqueued.length) (h : t ∈ advance size s p spurious) :
    Effect size s p t := by
  obtain ⟨h₁, h₂, h₃, -⟩ := hs.order
  have hclaims := hs.claims
  have hknows := hs.knows p
  unfold advance at h
  generalize hplace : s.place p = place at h hknows
  cases place with
  | idle returned => cases h
  | enqueueStart item => exact .of_place h hplace (le_refl s.consumed) rfl
  | enqueueLoad item curConsumed =>
    have hcur : curConsumed ≤ s.consumed := hknows
    dsimp only at h
    split at h
    · exact .of_place h hplace trivial rfl
    · next hroom =>
      rw [sub64_of_le (by omega) (by omega)] at hroom
      refine .of_place h hplace ⟨le_refl _, fun _ => ?_⟩ rfl
      omega
  | enqueueClaim item cur =>
    dsimp only at h
    split at h
    · next hcas =>
      obtain ⟨rfl, -⟩ := hcas
      obtain rfl := Option.some.inj h
      have hlt : s.writeIndex + 1 < 2 ^ 64 := by simpa [hclaims] using h64
      rw [succ64_of_lt hlt]
      exact .claimsWrite hplace
    · exact .of_place h hplace (le_refl s.writeIndex) rfl
  | enqueueRecheck item cur =>
    have hcur : cur ≤ s.writeIndex := hknows
    dsimp only at h
    split at h
    · exact .of_place h hplace trivial rfl
    next hroom =>
    -- The difference may have wrapped around, but then the index is no longer the next one.
    refine .of_place h hplace ⟨hcur, fun heq => ?_⟩ rfl
    rw [sub64_of_le (by omega) (by omega)] at hroom
    omega
  | enqueueMove item cur => exact Option.some.inj h ▸ .fills hplace
  | enqueueWait cur =>
    dsimp only at h
    split at h
    · next heq => exact .of_place h hplace ⟨heq, hknows.2⟩ rfl
    · exact Option.some.inj h ▸ .stay hs
  | enqueueStore cur =>
    obtain ⟨rfl, hlt⟩ := hknows
    dsimp only at h
    rw [succ64_of_lt (by omega)] at h
    exact Option.some.inj h ▸ .publishes hplace
  | dequeueStart => exact .of_place h hplace (le_refl s.published) rfl
  | dequeueLoad curPublished =>
    have hcur : curPublished ≤ s.published := hknows
    dsimp only at h
    split at h
    · exact .of_place h hplace trivial rfl
    · next hsome =>
      refine .of_place h hplace ⟨le_refl _, fun _ => ?_⟩ rfl
      omega
  | dequeueClaim cur =>
    dsimp only at h
    split at h
    · next hcas =>
      obtain ⟨rfl, -⟩ := hcas
      have hlt : s.readIndex < s.published := hknows.2 rfl
      rw [succ64_of_lt (by omega)] at h
      exact Option.some.inj h ▸ .claimsRead hplace
    · exact .of_place h hplace (le_refl s.readIndex) rfl
  | dequeueRecheck cur =>
    dsimp only at h
    split at h
    · exact .of_place h hplace trivial rfl
    · next hsome =>
      exact .of_place h hplace ⟨hknows, fun _ => not_le.mp hsome⟩ rfl
  | dequeueMove cur => exact Option.some.inj h ▸ .empties hplace
  | dequeueWait cur ret =>
    dsimp only at h
    split at h
    · next heq => exact .of_place h hplace ⟨heq, hknows.2⟩ rfl
    · exact Option.some.inj h ▸ .stay hs
  | dequeueStore cur ret =>
    obtain ⟨rfl, hlt, -⟩ := hknows
    dsimp only at h
    rw [succ64_of_lt (by omega)] at h
    exact Option.some.inj h ▸ .gives hplace

/-- The history of claimed write indices only grows. -/
theorem enqueued_of_step {a : T × Action α} (h : t ∈ step size s a) :
    s.enqueued.length ≤ t.enqueued.length := by
  have hadvance : ∀ {p : T} {spurious : Bool}, t ∈ advance size s p spurious →
      s.enqueued.length ≤ t.enqueued.length := by
    intro p spurious h
    unfold advance at h
    split at h <;> try split at h
    all_goals first
      | (obtain rfl := Option.some.inj h; simp [Ring.goto])
      | cases h
  unfold step at h
  split at h
  · exact Option.some.inj h ▸ le_refl s.enqueued.length
  · exact Option.some.inj h ▸ le_refl s.enqueued.length
  · exact hadvance h
  · cases h

theorem effect_of_step {a : T × Action α} (hs : Inv size s) (h64 : t.enqueued.length < 2 ^ 64)
    (h : t ∈ step size s a) : Effect size s a.1 t := by
  have hle := enqueued_of_step h
  unfold step at h
  split at h
  · next hplace => exact .of_place h hplace trivial rfl
  · next hplace => exact .of_place h hplace trivial rfl
  · exact effect_of_advance hs h64 hle h
  · cases h

/-! ### What the threads hold -/

theorem place_goto_self (place : Place α) : (s.goto p place).place p = place :=
  update_self ..

theorem place_goto_of_ne (place : Place α) (h : q ≠ p) : (s.goto p place).place q = s.place q :=
  update_of_ne h ..

/-- What is said of every thread after a step of `p` is said of `p` and of the others. -/
theorem forall_place_goto {Q : T → Place α → Prop} :
    (∀ q, Q q ((s.goto p place).place q)) ↔ Q p place ∧ ∀ q, q ≠ p → Q q (s.place q) := by
  constructor
  · intro h
    refine ⟨place_goto_self (s := s) place ▸ h p, fun q hq => ?_⟩
    exact place_goto_of_ne (s := s) place hq ▸ h q
  · rintro ⟨hp, hothers⟩ q
    by_cases hq : q = p
    · subst hq
      rwa [place_goto_self]
    · rw [place_goto_of_ne place hq]
      exact hothers q hq

variable {held : Place α → Option ℕ}

theorem Unique.goto (h : Unique fun q => held (s.place q))
    (hnew : ∀ k, held place = some k → ∀ q, q ≠ p → held (s.place q) ≠ some k) :
    Unique fun q => held ((s.goto p place).place q) := by
  intro q r k hq hr
  dsimp only at hq hr
  by_cases hqp : q = p <;> by_cases hrp : r = p
  · exact hqp.trans hrp.symm
  · subst hqp
    rw [place_goto_self] at hq
    rw [place_goto_of_ne place hrp] at hr
    exact absurd hr (hnew k hq r hrp)
  · subst hrp
    rw [place_goto_self] at hr
    rw [place_goto_of_ne place hqp] at hq
    exact absurd hq (hnew k hr q hqp)
  · rw [place_goto_of_ne place hqp] at hq
    rw [place_goto_of_ne place hrp] at hr
    exact h q r k hq hr

/-- A thread that holds what it held before, or nothing, shares it with nobody. -/
theorem Unique.goto_of_eq (h : Unique fun q => held (s.place q))
    (hold : held place = none ∨ held place = held (s.place p)) :
    Unique fun q => held ((s.goto p place).place q) := by
  refine h.goto fun k hk q hq hqk => ?_
  rcases hold with hnone | hsame
  · rw [hnone] at hk
    cases hk
  · exact hq (h q p k hqk (hsame.symm.trans hk))

/-- A step of `p` fills or empties no slot but those that `p` holds. -/
theorem filled_goto_iff (hwrite : t.writeIndex = s.writeIndex)
    (hplace : t.place = (s.goto p place).place)
    (hunfilled : place.unfilled = some k ↔ (s.place p).unfilled = some k)
    (hemptied : place.emptied = some k ↔ (s.place p).emptied = some k) :
    Filled t k ↔ Filled s k := by
  rw [Filled, Filled, hwrite, hplace]
  refine and_congr_right fun _ => ?_
  rw [forall_place_goto (Q := fun _ => Untouched k), Untouched, Ne, Ne, hunfilled, hemptied]
  constructor
  · rintro ⟨hp, hothers⟩ q
    by_cases hq : q = p
    · exact hq ▸ hp
    · exact hothers q hq
  · exact fun h => ⟨h p, fun q _ => h q⟩

/-! ### The steps keep the invariant -/

section

variable (hs : Inv size s)

include hs

/-- The thread `p` moves the two inner counters on, past no index that another thread holds. -/
theorem Inv.counts {r w : ℕ}
    (ht : t = { s.goto p place with readIndex := r, published := w })
    (hr : s.readIndex ≤ r) (hw : s.published ≤ w) (hrw : r ≤ w) (hle : w ≤ s.writeIndex)
    (hknows : Knows size t place) (hunfilled : place.unfilled = (s.place p).unfilled)
    (hemptied : place.emptied = (s.place p).emptied)
    (hwriters : Unique fun q => ((s.goto p place).place q).writes)
    (hreaders : Unique fun q => ((s.goto p place).place q).reads)
    (hwrites : ∀ q, q ≠ p → ∀ k, (s.place q).writes = some k → w ≤ k) : Inv size t := by
  have hfilled : ∀ k, Filled t k ↔ Filled s k := fun k => ht ▸
    filled_goto_iff rfl rfl (by rw [hunfilled]) (by rw [hemptied])
  subst ht
  refine { hs with
    consumed_le := hs.consumed_le.trans hr
    readIndex_le := hrw
    published_le := hle
    knows := (forall_place_goto (Q := fun _ => Knows size _)).mpr ⟨hknows, fun q hq => ?_⟩
    writers := hwriters
    readers := hreaders
    slots := fun k => by
      rw [hfilled k]
      exact hs.slots k }
  exact (hs.knows q).mono hs le_rfl hr hw le_rfl (fun _ _ => rfl) (hwrites q hq)
    fun k hk => (hs.of_reads hk).1

theorem Inv.loads (hknows : Knows size s place)
    (hholds : place.holds = (s.place p).holds) : Inv size (s.goto p place) := by
  simp only [Place.holds, Prod.mk.injEq] at hholds
  obtain ⟨⟨hwrites, hreads⟩, hunfilled, hemptied⟩ := hholds
  refine hs.counts rfl le_rfl le_rfl hs.readIndex_le hs.published_le ?_ hunfilled hemptied
    (hs.writers.goto_of_eq (.inr hwrites)) (hs.readers.goto_of_eq (.inr hreads))
    fun q _ k hk => (hs.of_writes hk).1
  cases place <;> exact hknows

theorem Inv.claimsWrite (hplace : s.place p = .enqueueClaim item s.writeIndex) :
    Inv size { s.goto p (.enqueueMove item s.writeIndex) with
      writeIndex := s.writeIndex + 1
      enqueued := s.enqueued ++ [item] } := by
  set t : Ring T α := { s.goto p (.enqueueMove item s.writeIndex) with
    writeIndex := s.writeIndex + 1
    enqueued := s.enqueued ++ [item] } with ht
  have hclaims := hs.claims
  obtain ⟨h₁, h₂, h₃, -⟩ := hs.order
  have hroom : s.writeIndex < s.consumed + size := (hs.knows_at hplace).2 rfl
  have henqueued : ∀ k < s.writeIndex, t.enqueued[k]? = s.enqueued[k]? := fun k hk =>
    getElem?_append_left (by omega)
  -- The new index is claimed but its slot is still to be filled.
  have hfilled : ∀ k, Filled t k ↔ Filled s k := by
    intro k
    have hp : Untouched k (s.place p) := by
      rw [hplace]
      exact ⟨nofun, nofun⟩
    constructor
    · rintro ⟨hlt, hall⟩
      obtain ⟨hnew, hothers⟩ := (forall_place_goto (Q := fun _ => Untouched k)).mp hall
      have hne : s.writeIndex ≠ k := fun h => hnew.1 (congrArg some h)
      refine ⟨lt_of_le_of_ne (Nat.lt_succ_iff.mp hlt) hne.symm, fun q => ?_⟩
      by_cases hq : q = p
      · exact hq ▸ hp
      · exact hothers q hq
    · rintro ⟨hlt, hall⟩
      refine ⟨Nat.lt_succ_of_lt hlt, (forall_place_goto (Q := fun _ => Untouched k)).mpr
        ⟨⟨fun h => ?_, nofun⟩, fun q _ => hall q⟩⟩
      exact absurd (Option.some.inj h) hlt.ne'
  refine { hs with
    published_le := h₃.trans (Nat.le_succ _)
    writeIndex_le := hroom
    claims := by simp [ht, hclaims]
    knows := ?_
    writers := ?_
    readers := hs.readers.goto_of_eq (.inl rfl)
    slots := fun k hk hk' => ?_
    delivered := ?_ }
  · refine (forall_place_goto (Q := fun _ => Knows size t)).mpr ⟨⟨h₃, ?_, ?_⟩, fun q _ => ?_⟩
    · exact Nat.lt_succ_self _
    · rw [hclaims]
      exact getElem?_concat_length
    · exact (hs.knows q).mono hs le_rfl le_rfl le_rfl (Nat.le_succ _) henqueued
        (fun k hk => (hs.of_writes hk).1) (fun k hk => (hs.of_reads hk).1)
  · refine hs.writers.goto fun k hk q _ hqk => ?_
    exact (hs.of_writes hqk).2.ne (Option.some.inj hk).symm
  · rw [hfilled k]
    obtain ⟨hfull, hvacant⟩ := hs.slots k hk hk'
    exact ⟨fun hf => (hfull hf).trans (henqueued k hf.1).symm, hvacant⟩
  · have hle : s.consumed ≤ s.enqueued.length := by omega
    change s.dequeued = ((s.enqueued ++ [item]).take s.consumed).map some
    rw [take_append_of_le_length hle]
    exact hs.delivered

theorem Inv.publishes (hplace : s.place p = .enqueueStore s.published) :
    Inv size { s.goto p (.idle (some .enqueued)) with published := s.published + 1 } := by
  have hholds : (s.place p).writes = some s.published := congrArg Place.writes hplace
  refine hs.counts rfl le_rfl (Nat.le_succ _) (hs.readIndex_le.trans (Nat.le_succ _))
    (hs.knows_at hplace).2 trivial (by rw [hplace]; rfl) (by rw [hplace]; rfl)
    (hs.writers.goto_of_eq (.inl rfl)) (hs.readers.goto_of_eq (.inl rfl)) fun q hq k hk => ?_
  -- Another thread that writes holds a later index.
  refine lt_of_le_of_ne (hs.of_writes hk).1 fun heq => ?_
  exact hq (hs.writers q p k hk (heq ▸ hholds))

theorem Inv.claimsRead (hplace : s.place p = .dequeueClaim s.readIndex) :
    Inv size { s.goto p (.dequeueMove s.readIndex) with readIndex := s.readIndex + 1 } := by
  refine hs.counts rfl (Nat.le_succ _) le_rfl ((hs.knows_at hplace).2 rfl) hs.published_le
    ⟨hs.consumed_le, Nat.lt_succ_self _⟩ (by rw [hplace]; rfl) (by rw [hplace]; rfl)
    (hs.writers.goto_of_eq (.inl rfl)) (hs.readers.goto fun k hk q _ hqk => ?_)
    fun q _ k hk => (hs.of_writes hk).1
  exact (hs.of_reads hqk).2.ne (Option.some.inj hk).symm

variable (hsize : IsSize size)

include hsize

/-- The thread `p` writes the slot of the index `k`, which is full or vacant as it should be. -/
theorem Inv.writesSlot {x : Option α}
    (ht : t = { s.goto p place with buffer := update s.buffer (slot size k) x })
    (hk : s.consumed ≤ k ∧ k < s.consumed + size) (hknows : Knows size s place)
    (hwrites : place.writes = (s.place p).writes) (hreads : place.reads = (s.place p).reads)
    (hsame : ∀ j, j ≠ k → (Filled t j ↔ Filled s j)) (hfull : Filled t k → x = s.enqueued[k]?)
    (hvacant : ¬ Filled t k → x = none) : Inv size t := by
  -- The slots of the other indices of this turn are as they were.
  have hother : ∀ j, s.consumed ≤ j → j < s.consumed + size → j ≠ k →
      t.buffer (slot size j) = s.buffer (slot size j) := fun j hj hj' hne => ht ▸
    update_of_ne (fun h => hne (slot_injOn hsize ⟨hj, hj'⟩ hk h)) _ _
  have hself : t.buffer (slot size k) = x := ht ▸ update_self ..
  have hframe : ∀ l, Knows size s l → Knows size t l := by
    intro l hl
    subst ht
    cases l <;> exact hl
  have hplaces : ∀ q, Knows size t ((s.goto p place).place q) :=
    (forall_place_goto (Q := fun _ => Knows size t)).mpr
      ⟨hframe place hknows, fun q _ => hframe _ (hs.knows q)⟩
  have hslots : ∀ j, s.consumed ≤ j → j < s.consumed + size →
      (Filled t j → t.buffer (slot size j) = s.enqueued[j]?) ∧
        (¬ Filled t j → t.buffer (slot size j) = none) := by
    intro j hj hj'
    by_cases hne : j = k
    · rw [hne, hself]
      exact ⟨hfull, hvacant⟩
    · rw [hother j hj hj' hne, hsame j hne]
      exact hs.slots j hj hj'
  subst ht
  exact { hs with
    knows := hplaces
    writers := hs.writers.goto_of_eq (.inr hwrites)
    readers := hs.readers.goto_of_eq (.inr hreads)
    slots := hslots }

theorem Inv.fills
    (hplace : s.place p = .enqueueMove item k) : Inv size { s.goto p (.enqueueWait k) with
      buffer := update s.buffer (slot size k) (some item) } := by
  obtain ⟨h₁, h₂, -, h₄⟩ := hs.order
  obtain ⟨hle, hlt, hitem⟩ := hs.knows_at hplace
  have hholds : (s.place p).writes = some k := congrArg Place.writes hplace
  refine hs.writesSlot hsize rfl (by omega) ⟨hle, hlt⟩ hholds.symm (by simp [hplace, Place.reads])
    (fun j hne => filled_goto_iff rfl rfl (by simp [hplace, Place.unfilled, hne.symm])
      (by simp [hplace, Place.emptied])) (fun _ => hitem.symm) fun hf => absurd ?_ hf
  refine ⟨hlt, (forall_place_goto (Q := fun _ => Untouched k)).mpr
    ⟨⟨nofun, nofun⟩, fun q hq => ⟨fun h => ?_, fun h => ?_⟩⟩⟩
  · exact hq (hs.writers q p k (Place.writes_of_unfilled h) hholds)
  · have := hs.of_reads (Place.reads_of_emptied h)
    omega

theorem Inv.empties (hplace : s.place p = .dequeueMove k) :
    Inv size { s.goto p (.dequeueWait k (s.buffer (slot size k))) with
      buffer := update s.buffer (slot size k) none } := by
  obtain ⟨-, h₂, h₃, h₄⟩ := hs.order
  have hholds : (s.place p).reads = some k := congrArg Place.reads hplace
  obtain ⟨hle, hlt⟩ := hs.of_reads hholds
  refine hs.writesSlot hsize rfl ⟨hle, by omega⟩ ⟨hle, hlt, hs.buffer_of_dequeueMove hplace⟩
    (by simp [hplace, Place.writes]) hholds.symm
    (fun j hne => filled_goto_iff rfl rfl (by simp [hplace, Place.unfilled])
      (by simp [hplace, Place.emptied, hne.symm])) (fun hf => False.elim ?_) fun _ => rfl
  exact ((forall_place_goto (Q := fun _ => Untouched k)).mp hf.2).1.2 rfl

theorem Inv.gives {ret : Option α}
    (hplace : s.place p = .dequeueStore s.consumed ret) :
    Inv size { s.goto p (.idle (some (.dequeued ret))) with
      consumed := s.consumed + 1
      dequeued := s.dequeued ++ [ret] } := by
  set t : Ring T α := { s.goto p (.idle (some (.dequeued ret))) with
    consumed := s.consumed + 1
    dequeued := s.dequeued ++ [ret] }
  obtain ⟨-, h₂, h₃, h₄⟩ := hs.order
  have hclaims := hs.claims
  have hholds : (s.place p).reads = some s.consumed := congrArg Place.reads hplace
  have hemptied : (s.place p).emptied = some s.consumed := congrArg Place.emptied hplace
  obtain ⟨-, hlt, hret⟩ := hs.knows_at hplace
  have hfilled : ∀ k, k ≠ s.consumed → (Filled t k ↔ Filled s k) := fun k hne =>
    filled_goto_iff rfl rfl (by simp [hplace, Place.unfilled])
      (by simp [hplace, Place.emptied, hne.symm])
  refine { hs with
    consumed_le := hlt
    writeIndex_le := h₄.trans (by change _ ≤ s.consumed + 1 + size; omega)
    knows := ?_
    writers := hs.writers.goto_of_eq (.inl rfl)
    readers := hs.readers.goto_of_eq (.inl rfl)
    slots := fun k hk hk' => ?_
    delivered := ?_ }
  · refine (forall_place_goto (Q := fun _ => Knows size t)).mpr ⟨trivial, fun q hq => ?_⟩
    refine (hs.knows q).mono hs (Nat.le_succ _) le_rfl le_rfl le_rfl (fun _ _ => rfl)
      (fun k hk => (hs.of_writes hk).1) (fun k hk => ?_)
    refine lt_of_le_of_ne (hs.of_reads hk).1 fun heq => ?_
    exact hq (hs.readers q p k hk (heq ▸ hholds))
  · change s.consumed + 1 ≤ k at hk
    change k < s.consumed + 1 + size at hk'
    rw [hfilled k (by omega)]
    by_cases hnew : k = s.consumed + size
    · -- The slot of the next turn is the one that was just emptied.
      refine ⟨fun hf => absurd hf.1 (by omega), fun _ => ?_⟩
      rw [hnew]
      change s.buffer (slot size (s.consumed + size)) = none
      rw [slot_add_size hsize]
      exact (hs.slots s.consumed le_rfl (by omega)).2 fun hf => (hf.2 p).2 hemptied
    · exact hs.slots k (by omega) (by omega)
  · have hsome : s.consumed < s.enqueued.length := by omega
    rw [getElem?_eq_getElem hsome] at hret
    change s.dequeued ++ [ret] = (s.enqueued.take (s.consumed + 1)).map some
    rw [hs.delivered, hret, take_add_one, getElem?_eq_getElem hsome, map_append]
    rfl

theorem Inv.effect (h : Effect size s p t) :
    Inv size t := by
  cases h with
  | loads hknows hholds => exact hs.loads hknows hholds
  | claimsWrite hplace => exact hs.claimsWrite hplace
  | fills hplace => exact hs.fills hsize hplace
  | publishes hplace => exact hs.publishes hplace
  | claimsRead hplace => exact hs.claimsRead hplace
  | empties hplace => exact hs.empties hsize hplace
  | gives hplace => exact hs.gives hsize hplace

end

/-! ### Every interleaving -/

/-- What the ring buffer guarantees in a state. -/
structure Sound (size : ℕ) (s : Ring T α) : Prop where
  order : s.consumed ≤ s.readIndex ∧ s.readIndex ≤ s.published ∧ s.published ≤ s.writeIndex ∧
    s.writeIndex ≤ s.consumed + size
  claimed : s.writeIndex = s.enqueued.length
  /-- A claimed read index is held by one thread, and was not delivered before. -/
  once : ∀ p k, (s.place p).reads = some k →
    s.consumed ≤ k ∧ ∀ q, (s.place q).reads = some k → q = p
  /-- The claimed read index `k` gets the item of the write index `k`. -/
  received : ∀ p k ret, s.place p = .dequeueWait k ret ∨ s.place p = .dequeueStore k ret →
    ∃ item, s.enqueued[k]? = some item ∧ ret = some item
  delivered : s.dequeued = (s.enqueued.take s.consumed).map some
  /-- No slot is filled that still holds an item. -/
  emptied : ∀ p item k, s.place p = .enqueueMove item k → s.buffer (slot size k) = none
  /-- No slot is read that does not hold the item of the index yet. -/
  filled : ∀ p k, s.place p = .dequeueMove k →
    ∃ item, s.enqueued[k]? = some item ∧ s.buffer (slot size k) = some item

omit [DecidableEq T] in
theorem Inv.sound (hs : Inv size s) : Sound size s where
  order := hs.order
  claimed := hs.claims
  once p k h := ⟨(hs.of_reads h).1, fun q hq => hs.readers q p k hq h⟩
  received p k ret h := by
    have hknows := hs.knows p
    have hget : (s.place p).reads = some k → ret = s.enqueued[k]? →
        ∃ item, s.enqueued[k]? = some item ∧ ret = some item := by
      intro hreads hret
      obtain ⟨item, hitem⟩ := hs.getElem?_of_reads hreads
      exact ⟨item, hitem, hret.trans hitem⟩
    rcases h with h | h <;> rw [h] at hknows hget <;> exact hget rfl hknows.2.2
  delivered := hs.delivered
  emptied p item k h := hs.buffer_of_enqueueMove h
  filled p k h := by
    obtain ⟨item, hitem⟩ := hs.getElem?_of_reads (congrArg Place.reads h)
    exact ⟨item, hitem, (hs.buffer_of_dequeueMove h).trans hitem⟩

/-- **The lock-free ring buffer.**  For every capacity and every interleaving of any number of
threads with fewer than `2 ^ 64` enqueues: the counters keep their order, the `k`-th claimed read
index gets the item of the `k`-th claimed write index, once, and a slot is filled only when it is
empty and read only when it is full. -/
theorem run_sound (capacity : ℕ) {as : List (T × Action α)} {s : Ring T α}
    (h : s ∈ Interleaving.run (step (nextPowerOf2 capacity)) init as)
    (h64 : s.enqueued.length < 2 ^ 64) : Sound (nextPowerOf2 capacity) s := by
  -- The bound on the enqueues holds in every earlier state too.
  have hinv : s.enqueued.length < 2 ^ 64 → Inv (nextPowerOf2 capacity) s := by
    refine Interleaving.run_invariant
      (I := fun s => s.enqueued.length < 2 ^ 64 → Inv (nextPowerOf2 capacity) s)
      (fun s a t hs ht h64 => ?_) (fun _ => inv_init) h
    have hinv := hs ((enqueued_of_step ht).trans_lt h64)
    exact hinv.effect (isSize_nextPowerOf2 capacity) (effect_of_step hinv h64 ht)
  exact (hinv h64).sound

/-- Two threads enqueue and a third dequeues in between, on a ring of two slots. -/
theorem run_sound_three_threads :
    ∃ s ∈ Interleaving.run (step (nextPowerOf2 1)) (init : Ring (Fin 3) ℕ)
      ([(0, .enqueue 7), (1, .enqueue 8)] ++ List.replicate 3 (0, .next false) ++
        List.replicate 5 (1, .next true) ++ List.replicate 3 (0, .next false) ++ [(2, .dequeue)] ++
        List.replicate 6 (2, .next false)), s.dequeued = [some 7] ∧ Sound (nextPowerOf2 1) s := by
  refine Exists.imp (p := fun s => s ∈ _ ∧ s.dequeued = [some 7] ∧ s.enqueued.length < 2 ^ 64)
    (fun s h => ⟨h.1, h.2.1, run_sound 1 h.1 h.2.2⟩) ?_
  decide +kernel

end LockFreeRingBuffer
