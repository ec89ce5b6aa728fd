/-
The adapters that are loaded into slots (`pipelines/lora/lora.py`, `pipelines/lora/modulev3.py`,
`serve/scheduler/lora_scheduler_utils.py`).

* `LoRALRUCache` — the active adapters with their slots, the least recently used one first;
* `LoRAManager` — the adapters that are registered, and the active ones;
* `canAllocateLoraRequest` — whether a request for an adapter may be admitted;
* `LoRALRUCache.put_spec` — what activating an adapter does to the cache.
-/
import MojoMac.OrderedDict
import MojoMac.StateSpec
import MojoMac.TokenBuffer

open Function StateSpec List OrderedDict

set_option linter.unusedSectionVars false

/-- The active adapters, the slots that are free, and the slot of each name. -/
structure LoRALRUCache (N M : Type) where
  cache : OrderedDict N (M × ℕ)
  maxSize : ℕ
  freeSlots : Finset ℕ
  nameToSlot : N → Option ℕ

namespace LoRALRUCache

variable {N M : Type} [DecidableEq N]

/-- The constructor. -/
def init (maxSize : ℕ) : LoRALRUCache N M := ⟨.empty, maxSize, Finset.range maxSize, fun _ => none⟩

def nextSlot (c : LoRALRUCache N M) : Option ℕ :=
  if h : c.freeSlots.Nonempty then some (c.freeSlots.min' h) else none

/-- The least recently used adapter leaves its slot. -/
def evictOldest : PyM (LoRALRUCache N M) (N × ℕ) := do
  match (← get).cache.popFirst with
  | none => throw .keyError
  | some ((evictedKey, (_, freedSlot)), rest) =>
    modify fun c => { c with
      cache := rest
      nameToSlot := Function.update c.nameToSlot evictedKey none
      freeSlots := insert freedSlot c.freeSlots }
    return (evictedKey, freedSlot)

/-- The slot for a new entry, and what was evicted for it. -/
def assignSlot (slot : Option ℕ) :
    PyM (LoRALRUCache N M) (Option ℕ × Option (N × ℕ)) := do
  let c ← get
  match slot with
  | some slot => return (some slot, none)
  | none =>
    match c.nextSlot with
    | some slot => return (some slot, none)
    | none =>
      if c.maxSize ≤ c.cache.length then
        let evicted ← evictOldest
        return (some evicted.2, some evicted)
      else
        return (none, none)

/-- The entry of a name with its slot. -/
def store (key : N) (value : M) (slot : ℕ) (c : LoRALRUCache N M) : LoRALRUCache N M :=
  { c with
    cache := c.cache.set key (value, slot)
    nameToSlot := Function.update c.nameToSlot key (some slot)
    freeSlots := c.freeSlots.erase slot }

def put (key : N) (value : M) (slot : Option ℕ) :
    PyM (LoRALRUCache N M) (Option (N × ℕ)) := do
  if key ∈ (← get).cache then
    modify fun c => { c with cache := c.cache.moveToEnd key }
    return none
  else
    let (slot, evicted) ← assignSlot slot
    match slot with
    | none => pure ()
    | some slot => modify (store key value slot)
    return evicted

end LoRALRUCache

/-- The adapters that are registered, and those that are active. -/
structure LoRAManager (N M : Type) where
  maxNumLoras : ℕ
  loras : N → Option M
  activeLoras : LoRALRUCache N M

namespace LoRAManager

variable {N M : Type} [DecidableEq N]

def init (maxNumLoras : ℕ) (loras : N → Option M) : LoRAManager N M :=
  ⟨maxNumLoras, loras, .init maxNumLoras⟩

def isLora (m : LoRAManager N M) (name : N) : Bool := (m.loras name).isSome

def isActiveLora (m : LoRAManager N M) (name : N) : Bool := name ∈ m.activeLoras.cache

def activateAdapter (name : N) : PyM (LoRAManager N M) (Option (N × ℕ)) := do
  match (← get).loras name with
  | none => throw .keyError
  | some lora =>
    focus (·.activeLoras) (fun c m => { m with activeLoras := c }) (LoRALRUCache.put name lora none)

end LoRAManager

/-- Whether a request for the model `modelName` can be admitted while the adapters `activeLoras`
are protected. -/
def canAllocateLoraRequest {N M : Type} [DecidableEq N] (modelName : N) (activeLoras : Finset N)
    (loraManager : LoRAManager N M) : Bool :=
  !loraManager.isLora modelName || decide (modelName ∈ activeLoras) ||
    loraManager.isActiveLora modelName ||
    decide (activeLoras.card + 1 ≤ loraManager.maxNumLoras)

namespace LoRALRUCache

variable {N M : Type} [DecidableEq N] {c c' : LoRALRUCache N M} {key : N}

/-! ### The slots -/

/-- The slots of the active adapters. -/
def slots (c : LoRALRUCache N M) : List ℕ := c.cache.entries.map (·.2.2)

/-- Every slot is free or belongs to one adapter. -/
structure WF (c : LoRALRUCache N M) : Prop where
  nodup : c.slots.Nodup
  cover : ∀ s, s < c.maxSize ↔ s ∈ c.freeSlots ∨ s ∈ c.slots
  disjoint : ∀ s ∈ c.freeSlots, s ∉ c.slots
  nameToSlot : ∀ n s, c.nameToSlot n = some s ↔ ∃ m, (n, m, s) ∈ c.cache.entries

theorem init_wf (maxSize : ℕ) : (init maxSize : LoRALRUCache N M).WF where
  nodup := nodup_nil
  cover s := by simp [init, slots, empty]
  disjoint s _ := by simp [init, slots, empty]
  nameToSlot n s := by simp [init, empty]

/-- When no slot is free the cache is full. -/
theorem WF.full (h : c.WF) (hfree : c.freeSlots = ∅) : c.maxSize ≤ c.cache.length := by
  have hsubset : Finset.range c.maxSize ⊆ c.slots.toFinset := by
    intro s hs
    rcases (h.cover s).mp (Finset.mem_range.mp hs) with hmem | hmem
    · rw [hfree] at hmem
      exact absurd hmem (Finset.notMem_empty s)
    · exact mem_toFinset.mpr hmem
  calc c.maxSize = (Finset.range c.maxSize).card := (Finset.card_range _).symm
    _ ≤ c.slots.toFinset.card := Finset.card_le_card hsubset
    _ ≤ c.slots.length := toFinset_card_le _
    _ = c.cache.length := length_map ..

theorem WF.moveToEnd (h : c.WF) (hkey : key ∈ c.cache) :
    WF { c with cache := c.cache.moveToEnd key } := by
  have hperm : (c.cache.moveToEnd key).entries.Perm c.cache.entries := entries_moveToEnd hkey
  have hslots : (({ c with cache := c.cache.moveToEnd key } : LoRALRUCache N M).slots).Perm c.slots :=
    hperm.map _
  refine ⟨hslots.nodup_iff.mpr h.nodup, fun s => ?_, fun s hs => ?_, fun n s => ?_⟩
  · rw [h.cover s, hslots.mem_iff]
  · rw [hslots.mem_iff]
    exact h.disjoint s hs
  · rw [h.nameToSlot n s]
    exact exists_congr fun m => hperm.mem_iff.symm

theorem WF.store (h : c.WF) (hkey : key ∉ c.cache) (value : M) {slot : ℕ}
    (hslot : slot ∈ c.freeSlots) : (LoRALRUCache.store key value slot c).WF := by
  have hentries : (LoRALRUCache.store key value slot c).cache.entries =
      c.cache.entries ++ [(key, value, slot)] := entries_set_of_not_mem hkey _
  have hslots : (LoRALRUCache.store key value slot c).slots = c.slots ++ [slot] := by
    rw [slots, hentries]
    exact map_append
  refine ⟨?_, fun s => ?_, fun s hs => ?_, fun n s => ?_⟩
  · rw [hslots]
    exact h.nodup.append (nodup_singleton _) (disjoint_singleton.mpr (h.disjoint slot hslot))
  · change s < c.maxSize ↔
      s ∈ c.freeSlots.erase slot ∨ s ∈ (LoRALRUCache.store key value slot c).slots
    rw [h.cover s, hslots, Finset.mem_erase, mem_append, mem_singleton]
    by_cases hs : s = slot
    · simp [hs, hslot]
    · simp [hs]
  · obtain ⟨hne, hs⟩ := Finset.mem_erase.mp hs
    rw [hslots, mem_append, mem_singleton, not_or]
    exact ⟨h.disjoint s hs, hne⟩
  · rw [hentries]
    change update c.nameToSlot key (some slot) n = some s ↔ _
    by_cases hn : n = key
    · rw [hn, update_self]
      have hnone : ∀ m s, (key, m, s) ∉ c.cache.entries := fun m s hmem =>
        hkey (mem_map.mpr ⟨_, hmem, rfl⟩)
      simp [hnone, eq_comm]
    · rw [update_of_ne hn, h.nameToSlot]
      simp [hn]

/-- The cache after the least recently used adapter left it. -/
theorem WF.evict (h : c.WF) {e : N × M × ℕ} {rest : OrderedDict N (M × ℕ)}
    (hpop : c.cache.popFirst = some (e, rest)) :
    WF { c with
      cache := rest
      nameToSlot := update c.nameToSlot e.1 none
      freeSlots := insert e.2.2 c.freeSlots } := by
  have hentries := entries_popFirst hpop
  have hslots : c.slots = e.2.2 :: rest.entries.map (·.2.2) := by
    rw [slots, hentries]
    rfl
  have hnodup := h.nodup
  rw [hslots, nodup_cons] at hnodup
  refine ⟨hnodup.2, fun s => ?_, fun s hs => ?_, fun n s => ?_⟩
  · rw [h.cover s, hslots, Finset.mem_insert, mem_cons]
    change _ ↔ _ ∨ s ∈ rest.entries.map (·.2.2)
    tauto
  · change s ∉ rest.entries.map (·.2.2)
    rcases Finset.mem_insert.mp hs with rfl | hs
    · exact hnodup.1
    · have hnot := h.disjoint s hs
      rw [hslots, mem_cons, not_or] at hnot
      exact hnot.2
  have hkeys := c.cache.nodup
  rw [hentries, map_cons, nodup_cons] at hkeys
  change update c.nameToSlot e.1 none n = some s ↔ ∃ m, (n, m, s) ∈ rest.entries
  by_cases hn : n = e.1
  · rw [hn, update_self]
    have hnone : ∀ m s, (e.1, m, s) ∉ rest.entries := fun m s hmem =>
      hkeys.1 (mem_map.mpr ⟨_, hmem, rfl⟩)
    simp [hnone]
  · rw [update_of_ne hn, h.nameToSlot, hentries]
    refine exists_congr fun m => ?_
    rw [mem_cons, or_iff_right]
    rintro rfl
    exact hn rfl

/-- What activating an adapter does to the names in the cache. -/
inductive Puts (c : LoRALRUCache N M) (key : N) (c' : LoRALRUCache N M) : Option (N × ℕ) → Prop
  | refresh (hkey : key ∈ c.cache) (hkeys : ∀ n, n ∈ c'.cache ↔ n ∈ c.cache) : Puts c key c' none
  | free (hkey : key ∉ c.cache) (hfree : c.freeSlots.Nonempty)
      (hkeys : c'.cache.keys = c.cache.keys ++ [key]) : Puts c key c' none
  | evict (hkey : key ∉ c.cache) (hfree : c.freeSlots = ∅) (old : N) (slot : ℕ) (rest : List N)
      (hold : c.cache.keys = old :: rest) (hkeys : c'.cache.keys = rest ++ [key]) :
      Puts c key c' (some (old, slot))

/-- **Activating an adapter**: its entry is refreshed, or it takes a free slot, or that of the least
recently used adapter. -/
theorem put_spec (h : c.WF) (hpos : key ∈ c.cache ∨ 0 < c.maxSize) (value : M) :
    Returns (put key value none) c fun evicted c' => c'.WF ∧ c'.maxSize = c.maxSize ∧
      Puts c key c' evicted := by
  rw [Returns, put, spec_get_bind]
  by_cases hkey : key ∈ c.cache
  · simp only [hkey, if_true, spec_bind, spec_modify, spec_pure]
    refine ⟨h.moveToEnd hkey, trivial, .refresh hkey fun n => ?_⟩
    change n ∈ (c.cache.moveToEnd key).keys ↔ n ∈ c.cache.keys
    exact ((entries_moveToEnd hkey).map _).mem_iff
  simp only [hkey, if_false, spec_bind, assignSlot, spec_get]
  by_cases hfree : c.freeSlots.Nonempty
  · have hnext : c.nextSlot = some (c.freeSlots.min' hfree) := dif_pos hfree
    simp only [hnext, spec_pure]
    exact ⟨h.store hkey value (Finset.min'_mem _ _), rfl, .free hkey hfree
      (keys_set_of_not_mem hkey _)⟩
  have hnext : c.nextSlot = none := dif_neg hfree
  rw [Finset.not_nonempty_iff_eq_empty] at hfree
  have hfull := h.full hfree
  simp only [hnext, hfull, if_true, spec_bind, evictOldest, spec_get]
  cases hpop : c.cache.popFirst with
  | none =>
    have hnil := popFirst_eq_none.mp hpop
    rw [← length_keys, hnil] at hfull
    exact absurd (hpos.resolve_left hkey) (not_lt.mpr hfull)
  | some popped =>
    obtain ⟨⟨old, lora, slot⟩, rest⟩ := popped
    have hkeys := keys_popFirst hpop
    have hnot : key ∉ rest := by
      intro hmem
      refine hkey ?_
      rw [← OrderedDict.mem_keys, hkeys]
      exact mem_cons_of_mem _ hmem
    simp only [spec_bind, spec_modify, spec_pure]
    exact ⟨(h.evict hpop).store hnot value (Finset.mem_insert_self ..), rfl,
      .evict hkey hfree old slot rest.keys hkeys (keys_set_of_not_mem hnot _)⟩

end LoRALRUCache
