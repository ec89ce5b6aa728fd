/-
The queue of free blocks (`paged_kv_cache/block_utils.py`).

The blocks of a queue are doubly linked through two fields of their own, and their ids are also
kept in a set.  The fields of all the blocks are kept with the queue here: a block is only ever
linked into one queue.

* `FreeKVCacheBlockQueue` — the queue;
* `Holds` — the list of blocks that a queue stands for;
* `Holds.init`, `Holds.append`, `Holds.remove`, `Holds.popleft` — its operations on this list.
-/
import MojoMac.StateSpec
import MojoMac.TokenBuffer

open StateSpec List

structure FreeKVCacheBlockQueue (α : Type) where
  numFreeBlocks : ℤ
  freeBlocks : Finset α
  freeListHead : Option α
  freeListTail : Option α
  prevFreeBlock : α → Option α
  nextFreeBlock : α → Option α

namespace FreeKVCacheBlockQueue

variable {α : Type} [DecidableEq α] (q : FreeKVCacheBlockQueue α)

def setPrev (block : α) (link : Option α) : FreeKVCacheBlockQueue α :=
  { q with prevFreeBlock := Function.update q.prevFreeBlock block link }

def setNext (block : α) (link : Option α) : FreeKVCacheBlockQueue α :=
  { q with nextFreeBlock := Function.update q.nextFreeBlock block link }

/-- One turn of the loop of the constructor. -/
def linkAt (blocks : List α) (q : FreeKVCacheBlockQueue α) (i : ℕ) : FreeKVCacheBlockQueue α :=
  match blocks[i]? with
  | none => q
  | some block => { q with
      prevFreeBlock :=
        if 0 < i then Function.update q.prevFreeBlock block blocks[i - 1]? else q.prevFreeBlock
      nextFreeBlock :=
        if i + 1 < blocks.length then Function.update q.nextFreeBlock block blocks[i + 1]?
        else q.nextFreeBlock }

def init (blocks : List α) : FreeKVCacheBlockQueue α :=
  (List.range blocks.length).foldl (linkAt blocks)
    ⟨blocks.length, blocks.toFinset, blocks.head?, blocks.getLast?, fun _ => none, fun _ => none⟩

/-- A link of a block, if there is one, is set. -/
def setLink (links : α → Option α) (block link : Option α) : α → Option α :=
  match block with
  | none => links
  | some block => Function.update links block link

/-- The links around a block that is taken out, and the count. -/
def unlink (block : α) : FreeKVCacheBlockQueue α :=
  let q := { q with
    nextFreeBlock := setLink q.nextFreeBlock (q.prevFreeBlock block) (q.nextFreeBlock block) }
  let q := { q with
    prevFreeBlock := setLink q.prevFreeBlock (q.nextFreeBlock block) (q.prevFreeBlock block) }
  let q := { q with
    freeListHead := if some block = q.freeListHead then q.nextFreeBlock block else q.freeListHead }
  let q := { q with
    freeListTail := if some block = q.freeListTail then q.prevFreeBlock block else q.freeListTail }
  let q := (q.setPrev block none).setNext block none
  { q with numFreeBlocks := q.numFreeBlocks - 1 }

def remove (block : α) : PyM (FreeKVCacheBlockQueue α) Unit := do
  modify fun q => q.unlink block
  if block ∉ (← get).freeBlocks then
    throw .keyError
  modify fun q => { q with freeBlocks := q.freeBlocks.erase block }

def popleft : PyM (FreeKVCacheBlockQueue α) α := do
  match (← get).freeListHead with
  | none => throw (.valueError "No free blocks available")
  | some block =>
    remove block
    return block

def append (block : α) : PyM (FreeKVCacheBlockQueue α) Unit := do
  match (← get).freeListTail with
  | some tail =>
    modify fun q => { (q.setNext tail (some block)).setPrev block (some tail) with
      freeListTail := some block }
  | none =>
    if (← get).freeListHead ≠ none then
      throw .assertionError
    modify fun q => { q with freeListHead := some block, freeListTail := some block }
  modify fun q => { q.setNext block none with
    numFreeBlocks := q.numFreeBlocks + 1, freeBlocks := insert block q.freeBlocks }

theorem setLink_apply (links : α → Option α) (block link : Option α) (y : α) :
    setLink links block link y = if block = some y then link else links y := by
  cases block with
  | none => simp [setLink]
  | some x => simp [setLink, Function.update_apply, eq_comm]

variable {q : FreeKVCacheBlockQueue α}

/-- The fields of a queue after a block was unlinked that is not its own neighbour. -/
theorem unlink_fields {x : α} (hprev : q.prevFreeBlock x ≠ some x)
    (hnext : q.nextFreeBlock x ≠ some x) : (q.unlink x).numFreeBlocks = q.numFreeBlocks - 1 ∧
    (q.unlink x).freeBlocks = q.freeBlocks ∧ (q.unlink x).freeListHead
      = (if some x = q.freeListHead then q.nextFreeBlock x else q.freeListHead) ∧
    (q.unlink x).freeListTail
      = (if some x = q.freeListTail then q.prevFreeBlock x else q.freeListTail) ∧
    (∀ z, (q.unlink x).prevFreeBlock z = if z = x then none
      else if q.nextFreeBlock x = some z then q.prevFreeBlock x else q.prevFreeBlock z) ∧
    ∀ y, (q.unlink x).nextFreeBlock y = if y = x then none
      else if q.prevFreeBlock x = some y then q.nextFreeBlock x else q.nextFreeBlock y := by
  refine ⟨rfl, rfl, ?_, ?_, ?_, ?_⟩
  · simp [unlink, setPrev, setNext, setLink_apply, hprev]
  · simp [unlink, setPrev, setNext, setLink_apply, hprev, hnext]
  · intro z
    simp [unlink, setPrev, setNext, setLink_apply, hprev, Function.update_apply]
  · intro y
    simp [unlink, setPrev, setNext, setLink_apply, Function.update_apply]

/-! ### Neighbours in a list -/

variable {l : List α}

section Adjacent

omit [DecidableEq α]

/-- The element `z` comes right after `y`. -/
def Adjacent : List α → α → α → Prop
  | [], _, _ => False
  | x :: l, y, z => (x = y ∧ l.head? = some z) ∨ Adjacent l y z

variable {y z : α}

theorem adjacent_append (a b : List α) : Adjacent (a ++ b) y z ↔
      Adjacent a y z ∨ Adjacent b y z ∨ (a.getLast? = some y ∧ b.head? = some z) := by
  induction a with
  | nil => simp [Adjacent]
  | cons x a ih =>
    rw [cons_append, Adjacent, ih, Adjacent]
    cases a with
    | nil => simp [Adjacent]; tauto
    | cons x' a => simp [Adjacent, getLast?_cons_cons]; tauto

theorem Adjacent.mem (h : Adjacent l y z) : y ∈ l ∧ z ∈ l := by
  induction l with
  | nil => exact h.elim
  | cons x l ih =>
    rcases h with ⟨rfl, hz⟩ | h
    · exact ⟨mem_cons_self, mem_cons_of_mem _ (mem_of_head? hz)⟩
    · exact ⟨mem_cons_of_mem _ (ih h).1, mem_cons_of_mem _ (ih h).2⟩

theorem not_adjacent_of_getLast? (hl : l.Nodup) (hy : l.getLast? = some y) : ¬ Adjacent l y z := by
  obtain ⟨l, rfl⟩ := getLast?_eq_some_iff.mp hy
  have hnot : y ∉ l := by simpa using (nodup_append'.mp hl).2.2
  rw [adjacent_append]
  rintro (h | h | h)
  · exact hnot h.mem.1
  · simp [Adjacent] at h
  · exact hnot (mem_of_getLast? h.1)

theorem not_adjacent_of_head? (hl : l.Nodup) (hz : l.head? = some z) : ¬ Adjacent l y z := by
  obtain ⟨l, rfl⟩ := head?_eq_some_iff.mp hz
  rintro (⟨-, h⟩ | h)
  · exact (nodup_cons.mp hl).1 (mem_of_head? h)
  · exact (nodup_cons.mp hl).1 h.mem.2

end Adjacent

/-! ### The list of a queue -/

/-- The blocks of a queue, from the first to the last. -/
structure Holds (q : FreeKVCacheBlockQueue α) (l : List α) : Prop where
  nodup : l.Nodup
  num : q.numFreeBlocks = l.length
  mem : ∀ x, x ∈ q.freeBlocks ↔ x ∈ l
  head : q.freeListHead = l.head?
  tail : q.freeListTail = l.getLast?
  prev : ∀ y z, q.prevFreeBlock z = some y ↔ Adjacent l y z
  next : ∀ y z, q.nextFreeBlock y = some z ↔ Adjacent l y z

variable {q' : FreeKVCacheBlockQueue α}

namespace Holds

variable {x : α} {a b : List α}

section

omit [DecidableEq α]

theorem prev_eq_none (h : q.Holds l) (hx : x ∉ l) : q.prevFreeBlock x = none :=
  Option.eq_none_iff_forall_ne_some.mpr fun y hy => hx ((h.prev y x).mp hy).mem.2

theorem next_eq_none (h : q.Holds l) (hx : x ∉ l) : q.nextFreeBlock x = none :=
  Option.eq_none_iff_forall_ne_some.mpr fun z hz => hx ((h.next x z).mp hz).mem.1

theorem adjacent_middle (y z : α) :
    Adjacent (a ++ x :: b) y z ↔ Adjacent a y z ∨ Adjacent b y z ∨
      (x = y ∧ b.head? = some z) ∨ (a.getLast? = some y ∧ x = z) := by
  rw [adjacent_append, Adjacent, head?_cons, Option.some_inj]
  tauto

theorem prev_middle (h : q.Holds (a ++ x :: b)) : q.prevFreeBlock x = a.getLast? := by
  have hx := nodup_middle.mp h.nodup
  refine Option.ext fun y => ?_
  rw [h.prev, adjacent_middle]
  have ha : ¬ Adjacent a y x := fun hyx => (nodup_cons.mp hx).1 (mem_append_left _ hyx.mem.2)
  have hb : ¬ Adjacent b y x := fun hyx => (nodup_cons.mp hx).1 (mem_append_right _ hyx.mem.2)
  have hhead : b.head? ≠ some x := fun hbx => (nodup_cons.mp hx).1
    (mem_append_right _ (mem_of_head? hbx))
  tauto

theorem next_middle (h : q.Holds (a ++ x :: b)) : q.nextFreeBlock x = b.head? := by
  have hx := nodup_middle.mp h.nodup
  refine Option.ext fun z => ?_
  rw [h.next, adjacent_middle]
  have ha : ¬ Adjacent a x z := fun hxz => (nodup_cons.mp hx).1 (mem_append_left _ hxz.mem.1)
  have hb : ¬ Adjacent b x z := fun hxz => (nodup_cons.mp hx).1 (mem_append_right _ hxz.mem.1)
  have hlast : a.getLast? ≠ some x := fun hax => (nodup_cons.mp hx).1
    (mem_append_left _ (mem_of_getLast? hax))
  tauto

theorem adjacent_take_succ (l : List α) (k : ℕ) (y z : α) : Adjacent (l.take (k + 1)) y z ↔
      Adjacent (l.take k) y z ∨ ((l.take k).getLast? = some y ∧ l[k]? = some z) := by
  rw [take_add_one, adjacent_append]
  cases l[k]? <;> simp [Adjacent]

theorem getLast?_take_succ {k : ℕ} (hk : l[k]? = some x) : (l.take (k + 1)).getLast? = some x := by
  rw [take_add_one, hk]
  exact getLast?_concat

theorem getLast?_take {k : ℕ} (hk : k ≤ l.length) :
    (l.take k).getLast? = if 0 < k then l[k - 1]? else none := by
  cases k with
  | zero => rfl
  | succ k =>
    have hget := getElem?_eq_getElem (show k < l.length by omega)
    rw [getLast?_take_succ hget, if_pos (by omega), Nat.add_sub_cancel, hget]

end

/-- What makes a queue hold one more block at its end. -/
theorem of_append (h : q.Holds l) (hx : x ∉ l) (hnum : q'.numFreeBlocks = q.numFreeBlocks + 1)
    (hmem : q'.freeBlocks = insert x q.freeBlocks) (hhead : q'.freeListHead = (l ++ [x]).head?)
    (htail : q'.freeListTail = some x)
    (hprev : ∀ z, q'.prevFreeBlock z = if z = x then l.getLast? else q.prevFreeBlock z)
    (hnext : ∀ y, q'.nextFreeBlock y = if l.getLast? = some y then some x else q.nextFreeBlock y) :
    q'.Holds (l ++ [x]) := by
  have hadj : ∀ y z, Adjacent (l ++ [x]) y z ↔ Adjacent l y z ∨ (l.getLast? = some y ∧ x = z) := by
    intro y z
    rw [adjacent_append]
    simp [Adjacent]
  constructor
  case nodup =>
    rw [nodup_append']
    exact ⟨h.nodup, nodup_singleton x, by simpa using hx⟩
  case num => simp [hnum, h.num]
  case mem =>
    intro y
    rw [hmem, Finset.mem_insert, h.mem, mem_append, mem_singleton, or_comm]
  case head => exact hhead
  case tail => simp [htail]
  case prev =>
    intro y z
    rw [hprev, hadj]
    split_ifs with hz
    · subst hz
      have hnot : ¬ Adjacent l y z := fun hyz => hx hyz.mem.2
      simp [hnot]
    · rw [h.prev]
      simp [Ne.symm hz]
  case next =>
    intro y z
    rw [hnext, hadj]
    split_ifs with hy
    · simp [not_adjacent_of_getLast? h.nodup hy, hy]
    · rw [h.next]
      simp [hy]

/-- A block that is not in the queue goes to its end. -/
theorem append (h : q.Holds l) (hx : x ∉ l) :
    Returns (FreeKVCacheBlockQueue.append x) q fun _ q' => q'.Holds (l ++ [x]) := by
  have hprev := h.prev_eq_none hx
  have hnext := h.next_eq_none hx
  rw [Returns, FreeKVCacheBlockQueue.append]
  simp only [spec_bind, spec_get, h.tail]
  cases hlast : l.getLast? with
  | none =>
    have hnil : l = [] := getLast?_eq_none_iff.mp hlast
    subst hnil
    simp only [spec_bind, spec_get, h.head, head?_nil, ne_eq, not_true_eq_false, if_false,
      spec_modify]
    refine h.of_append hx rfl rfl rfl rfl ?_ ?_
    · intro z
      by_cases hz : z = x <;> simp [setNext, hz, hprev]
    · intro y
      by_cases hy : y = x <;> simp [setNext, hy, hnext]
  | some t =>
    have hne : t ≠ x := fun heq => hx (heq ▸ mem_of_getLast? hlast)
    dsimp only
    simp only [spec_bind, spec_modify]
    refine h.of_append hx rfl rfl ?_ rfl ?_ ?_
    · have hhead : (l ++ [x]).head? = l.head? := by
        rw [head?_append_of_ne_nil]
        exact ne_nil_of_mem (mem_of_getLast? hlast)
      rw [hhead]
      exact h.head
    · intro z
      by_cases hz : z = x <;> simp [setNext, setPrev, hz, hlast]
    · intro y
      by_cases hy : y = x
      · simp [setNext, setPrev, hy, hlast, hne, hnext]
      · by_cases hyt : t = y
        · simp [setNext, setPrev, hlast, hyt, hy]
        · simp [setNext, setPrev, hlast, hyt, hy, Ne.symm hyt]

/-- What makes a queue hold one block less. -/
theorem of_remove (h : q.Holds (a ++ x :: b)) (hnum : q'.numFreeBlocks = q.numFreeBlocks - 1)
    (hmem : q'.freeBlocks = q.freeBlocks.erase x) (hhead : q'.freeListHead = (a ++ b).head?)
    (htail : q'.freeListTail = (a ++ b).getLast?)
    (hprev : ∀ z, q'.prevFreeBlock z = if z = x then none
      else if b.head? = some z then a.getLast? else q.prevFreeBlock z)
    (hnext : ∀ y, q'.nextFreeBlock y = if y = x then none
      else if a.getLast? = some y then b.head? else q.nextFreeBlock y) : q'.Holds (a ++ b) := by
  obtain ⟨hx, hnodup⟩ := nodup_cons.mp (nodup_middle.mp h.nodup)
  obtain ⟨hanodup, hbnodup, hdisj⟩ := nodup_append'.mp hnodup
  constructor
  case nodup => exact hnodup
  case num =>
    rw [hnum, h.num]
    simp
    omega
  case mem =>
    intro y
    rw [hmem, Finset.mem_erase, h.mem]
    by_cases hy : y = x
    · subst hy
      simpa using hx
    · simp [hy]
  case head => exact hhead
  case tail => exact htail
  case prev =>
    intro y z
    rw [hprev]
    split_ifs with hz hbz
    · subst hz
      simp only [false_iff]
      exact fun hyz => hx hyz.mem.2
    · have ha : ¬ Adjacent a y z := fun hyz => hdisj hyz.mem.2 (mem_of_head? hbz)
      rw [adjacent_append]
      simp [ha, not_adjacent_of_head? hbnodup hbz, hbz]
    · rw [h.prev, adjacent_middle, adjacent_append]
      simp [hbz, Ne.symm hz]
  case next =>
    intro y z
    rw [hnext]
    split_ifs with hy hay
    · subst hy
      simp only [false_iff]
      exact fun hyz => hx hyz.mem.1
    · have hb : ¬ Adjacent b y z := fun hyz => hdisj (mem_of_getLast? hay) hyz.mem.1
      rw [adjacent_append]
      simp [hb, not_adjacent_of_getLast? hanodup hay, hay]
    · rw [h.next, adjacent_middle, adjacent_append]
      simp [hay, Ne.symm hy]

theorem remove_middle (h : q.Holds (a ++ x :: b)) :
    Returns (FreeKVCacheBlockQueue.remove x) q fun _ q' => q'.Holds (a ++ b) := by
  have hx := (nodup_cons.mp (nodup_middle.mp h.nodup)).1
  have hlast : q.prevFreeBlock x ≠ some x := fun hax => hx
    (mem_append_left _ (mem_of_getLast? (h.prev_middle ▸ hax)))
  have hhead : q.nextFreeBlock x ≠ some x := fun hbx => hx
    (mem_append_right _ (mem_of_head? (h.next_middle ▸ hbx)))
  obtain ⟨hnum, hfree, hh, ht, hp, hn⟩ := unlink_fields hlast hhead
  have hmem : x ∈ q.freeBlocks := (h.mem x).mpr (by simp)
  rw [Returns, FreeKVCacheBlockQueue.remove]
  simp only [spec_bind, spec_get, spec_modify, hfree, hmem, not_true_eq_false, if_false]
  refine h.of_remove hnum rfl ?_ ?_ ?_ ?_
  · rw [hh, h.head, h.next_middle]
    cases a with
    | nil => simp
    | cons y a =>
      have hne : x ≠ y := fun heq => hx (heq ▸ mem_cons_self)
      simp [hne]
  · rw [ht, h.tail, h.prev_middle]
    rcases eq_nil_or_concat b with rfl | ⟨b, y, rfl⟩
    · simp
    · rw [concat_eq_append] at hx ⊢
      have hne : x ≠ y := fun heq => hx (by simp [heq])
      rw [← cons_append, ← append_assoc, ← append_assoc, getLast?_concat,
        getLast?_concat, if_neg (by simpa using hne)]
  · intro z
    rw [hp, h.prev_middle, h.next_middle]
  · intro y
    rw [hn, h.prev_middle, h.next_middle]

/-- A block of the queue is taken out of it. -/
theorem remove (h : q.Holds l) (hx : x ∈ l) :
    Returns (FreeKVCacheBlockQueue.remove x) q fun _ q' => q'.Holds (l.erase x) := by
  obtain ⟨a, b, rfl⟩ := append_of_mem hx
  have hnot : x ∉ a := by
    have hnodup := nodup_cons.mp (nodup_middle.mp h.nodup)
    exact fun ha => hnodup.1 (mem_append_left _ ha)
  rw [erase_append_right _ hnot, erase_cons_head]
  exact h.remove_middle

/-- An empty queue has nothing to hand out. -/
theorem popleft_nil (h : q.Holds []) :
    Raises FreeKVCacheBlockQueue.popleft q fun e q' => e = .valueError "No free blocks available" ∧
      q' = q := by
  have hhead : q.freeListHead = none := h.head
  rw [Raises, FreeKVCacheBlockQueue.popleft]
  simp only [spec_bind, spec_get, hhead, spec_throw, and_self]

/-- The first block is handed out. -/
theorem popleft (h : q.Holds (x :: l)) :
    Returns FreeKVCacheBlockQueue.popleft q fun block q' => block = x ∧ q'.Holds l := by
  rw [Returns, FreeKVCacheBlockQueue.popleft]
  simp only [spec_bind, spec_get, h.head, head?_cons]
  refine (h.remove mem_cons_self).mono fun _ q' hq' => ?_
  rw [erase_cons_head] at hq'
  exact ⟨rfl, hq'⟩

/-! ### The queue of the constructor -/

/-- The links after the first `k` turns of the loop. -/
theorem foldl_linkAt (hl : l.Nodup) (q : FreeKVCacheBlockQueue α)
    (hprev : ∀ z, q.prevFreeBlock z = none) (hnext : ∀ y, q.nextFreeBlock y = none) (k : ℕ) :
    let q' := (range k).foldl (linkAt l) q
    (q'.numFreeBlocks = q.numFreeBlocks ∧ q'.freeBlocks = q.freeBlocks ∧
      q'.freeListHead = q.freeListHead ∧ q'.freeListTail = q.freeListTail) ∧
    (∀ y z, q'.prevFreeBlock z = some y ↔ Adjacent (l.take k) y z) ∧
    ∀ y z, q'.nextFreeBlock y = some z ↔ Adjacent (l.take (k + 1)) y z := by
  induction k with
  | zero =>
    refine ⟨⟨rfl, rfl, rfl, rfl⟩, fun y z => ?_, fun y z => ?_⟩
    · simp [hprev, Adjacent]
    · rw [adjacent_take_succ]
      simp [hnext, Adjacent]
  | succ k ih =>
    rw [range_succ, foldl_concat]
    generalize (range k).foldl (linkAt l) q = q' at ih
    obtain ⟨hfields, ihprev, ihnext⟩ := ih
    rw [linkAt]
    cases hk : l[k]? with
    | none =>
      have hlen : l.length ≤ k := getElem?_eq_none_iff.mp hk
      have htake : ∀ j, k ≤ j → l.take j = l := fun j hj => take_of_length_le (by omega)
      rw [htake k le_rfl] at ihprev
      rw [htake (k + 1) (by omega)] at ihnext
      rw [htake (k + 1) (by omega), htake (k + 1 + 1) (by omega)]
      exact ⟨hfields, ihprev, ihnext⟩
    | some x =>
      have hlt : k < l.length := (List.getElem_of_getElem? hk).1
      have hlast := getLast?_take_succ hk
      have hnot : x ∉ l.take k := by
        have hnodup := hl.sublist (take_sublist (k + 1) l)
        rw [take_add_one, hk, nodup_append'] at hnodup
        simpa using hnodup.2.2
      refine ⟨hfields, fun y z => ?_, fun y z => ?_⟩
      · rw [adjacent_take_succ, hk, getLast?_take (by omega)]
        by_cases hz : z = x
        · subst hz
          have hnadj : ¬ Adjacent (l.take k) y z := fun hyz => hnot hyz.mem.2
          have hnone : q'.prevFreeBlock z = none :=
            Option.eq_none_iff_forall_ne_some.mpr fun y hy => hnot ((ihprev y z).mp hy).mem.2
          by_cases hpos : 0 < k <;> simp [hpos, hnadj, hnone]
        · by_cases hpos : 0 < k <;> simp [hpos, hz, Ne.symm hz, ihprev]
      · rw [adjacent_take_succ, hlast]
        by_cases hy : y = x
        · subst hy
          have hnadj : ∀ z, ¬ Adjacent (l.take (k + 1)) y z := fun z =>
            not_adjacent_of_getLast? (hl.sublist (take_sublist _ l)) hlast
          have hnone : q'.nextFreeBlock y = none :=
            Option.eq_none_iff_forall_ne_some.mpr fun z hz => hnadj z ((ihnext y z).mp hz)
          by_cases hlt' : k + 1 < l.length
          · simp [hlt', hnadj]
          · simp [hlt', hnadj, hnone]
        · by_cases hlt' : k + 1 < l.length <;> simp [hlt', hy, Ne.symm hy, ihnext]

theorem init (hl : l.Nodup) : (FreeKVCacheBlockQueue.init l).Holds l := by
  obtain ⟨⟨hnum, hfree, hhead, htail⟩, hprev, hnext⟩ := foldl_linkAt hl
    ⟨l.length, l.toFinset, l.head?, l.getLast?, fun _ => none, fun _ => none⟩ (fun _ => rfl)
    (fun _ => rfl) l.length
  rw [take_length] at hprev
  rw [take_of_length_le (by omega)] at hnext
  constructor
  case nodup => exact hl
  case num => exact hnum
  case mem =>
    intro x
    rw [FreeKVCacheBlockQueue.init, hfree, mem_toFinset]
  case head => exact hhead
  case tail => exact htail
  case prev => exact hprev
  case next => exact hnext

end Holds

end FreeKVCacheBlockQueue
