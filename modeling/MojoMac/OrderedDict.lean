/-
Dictionaries that remember the order of their keys.

* `OrderedDict` — a list of keys and values in which no key occurs twice;
* `set`, `erase`, `moveToEnd`, `moveToFront`, `popFirst` — its operations;
* `mem_set`, `keys_erase`, `keys_moveToFront` — what they do to the keys;
* `get?_set`, `get?_erase` — what they do to the values.
-/
import Mathlib

open List

set_option linter.unusedSectionVars false

/-- The entries of a dictionary, from the first to the last. -/
structure OrderedDict (K V : Type) where
  entries : List (K × V)
  nodup : (entries.map Prod.fst).Nodup

namespace OrderedDict

variable {K V : Type} [DecidableEq K] {d : OrderedDict K V} {k k' : K} {v : V}

def empty : OrderedDict K V := ⟨[], List.nodup_nil⟩

instance : Inhabited (OrderedDict K V) := ⟨empty⟩

def keys (d : OrderedDict K V) : List K := d.entries.map Prod.fst

def values (d : OrderedDict K V) : List V := d.entries.map Prod.snd

def length (d : OrderedDict K V) : ℕ := d.entries.length

instance : Membership K (OrderedDict K V) := ⟨fun d k => k ∈ d.keys⟩

instance (d : OrderedDict K V) (k : K) : Decidable (k ∈ d) := inferInstanceAs (Decidable (k ∈ d.keys))

instance [DecidableEq V] (d : OrderedDict K V) (v : V) : Decidable (v ∈ d.values) := inferInstance

theorem mem_keys : k ∈ d.keys ↔ k ∈ d := Iff.rfl

/-- The value of a key. -/
def get? (d : OrderedDict K V) (k : K) : Option V := d.entries.lookup k

/-- The entries without that of `k`. -/
def without (l : List (K × V)) (k : K) : List (K × V) := l.filter (·.1 != k)

theorem keys_without (l : List (K × V)) (k : K) :
    (without l k).map Prod.fst = (l.map Prod.fst).filter (· != k) := by
  rw [filter_map]
  rfl

/-- `del d[k]`. -/
def erase (d : OrderedDict K V) (k : K) : OrderedDict K V where
  entries := without d.entries k
  nodup := by
    rw [keys_without]
    exact d.nodup.filter _

/-- The value of `k` in place, where it has one. -/
def replaceIn (l : List (K × V)) (k : K) (v : V) : List (K × V) :=
  l.map fun e => if e.1 = k then (k, v) else e

theorem keys_replaceIn (l : List (K × V)) (k : K) (v : V) :
    (replaceIn l k v).map Prod.fst = l.map Prod.fst := by
  rw [replaceIn, map_map]
  refine map_congr_left fun e _ => ?_
  by_cases he : e.1 = k
  · simp [he]
  · simp [he]

/-- `d[k] = v`: a key that is new comes last. -/
def set (d : OrderedDict K V) (k : K) (v : V) : OrderedDict K V :=
  if h : k ∈ d then
    ⟨replaceIn d.entries k v, by rw [keys_replaceIn]; exact d.nodup⟩
  else
    ⟨d.entries ++ [(k, v)], by
      rw [List.map_append, List.map_singleton]
      exact d.nodup.append (List.nodup_singleton k) (List.disjoint_singleton.mpr h)⟩

/-- `d.move_to_end(k)`. -/
def moveToEnd (d : OrderedDict K V) (k : K) : OrderedDict K V :=
  match d.get? k with
  | none => d
  | some v => ⟨without d.entries k ++ [(k, v)], by
      rw [List.map_append, keys_without, List.map_singleton]
      exact (d.nodup.filter _).append (List.nodup_singleton k) (by simp)⟩

/-- `d.move_to_end(k, last=False)`. -/
def moveToFront (d : OrderedDict K V) (k : K) : OrderedDict K V :=
  match d.get? k with
  | none => d
  | some v => ⟨(k, v) :: without d.entries k, by
      rw [List.map_cons, keys_without]
      exact List.nodup_cons.mpr ⟨by simp, d.nodup.filter _⟩⟩

/-- `d.popitem(last=False)`. -/
def popFirst (d : OrderedDict K V) : Option ((K × V) × OrderedDict K V) :=
  match h : d.entries with
  | [] => none
  | e :: rest => some (e, ⟨rest, by
      have hnodup := d.nodup
      rw [h, List.map_cons] at hnodup
      exact hnodup.of_cons⟩)

/-! ### The keys -/

theorem nodup_keys (d : OrderedDict K V) : d.keys.Nodup := d.nodup

theorem eq_empty_of_keys (h : d.keys = []) : d = empty := by
  obtain ⟨l, hl⟩ := d
  obtain rfl : l = [] := map_eq_nil_iff.mp h
  rfl

theorem length_keys (d : OrderedDict K V) : d.keys.length = d.length := length_map ..

theorem length_pos : 0 < d.length ↔ ∃ k, k ∈ d := by
  rw [← length_keys, length_pos_iff_exists_mem]
  rfl

theorem length_eq_zero : d.length = 0 ↔ ∀ k, k ∉ d := by
  rw [← not_exists, ← length_pos, Nat.pos_iff_ne_zero, not_not]

theorem keys_erase (d : OrderedDict K V) (k : K) : (d.erase k).keys = d.keys.erase k :=
  (keys_without ..).trans (d.nodup.erase_eq_filter k).symm

@[simp] theorem mem_erase : k' ∈ d.erase k ↔ k' ≠ k ∧ k' ∈ d := by
  rw [← mem_keys, keys_erase, d.nodup_keys.mem_erase_iff]
  rfl

theorem mem_iff_ne_and_mem (h : k ∉ d) : k' ∈ d ↔ k' ≠ k ∧ k' ∈ d := by
  refine (and_iff_right_of_imp ?_).symm
  rintro hmem rfl
  exact h hmem

theorem erase_erase (d : OrderedDict K V) (k : K) : (d.erase k).erase k = d.erase k := by
  simp only [erase, without, filter_filter, Bool.and_self]

theorem entries_set_of_not_mem (h : k ∉ d) (v : V) :
    (d.set k v).entries = d.entries ++ [(k, v)] := by
  rw [set, dif_neg h]

theorem keys_set_of_mem (h : k ∈ d) (v : V) : (d.set k v).keys = d.keys := by
  rw [set, dif_pos h]
  exact keys_replaceIn ..

theorem keys_set_of_not_mem (h : k ∉ d) (v : V) : (d.set k v).keys = d.keys ++ [k] := by
  rw [keys, entries_set_of_not_mem h]
  exact map_append

@[simp] theorem mem_set : k' ∈ d.set k v ↔ k' = k ∨ k' ∈ d := by
  by_cases h : k ∈ d
  · rw [← mem_keys, keys_set_of_mem h]
    refine ⟨Or.inr, ?_⟩
    rintro (rfl | h')
    · exact h
    · exact h'
  · rw [← mem_keys, keys_set_of_not_mem h, mem_append, mem_singleton, or_comm]
    rfl

theorem get?_isSome : (d.get? k).isSome ↔ k ∈ d := by
  rw [get?, ← mem_keys, keys]
  induction d.entries with
  | nil => simp
  | cons e l ih =>
    rw [lookup_cons]
    by_cases he : k = e.1
    · simp [he]
    · simp only [beq_eq_false_iff_ne.mpr he, ih, map_cons, mem_cons, he, false_or]

theorem exists_get? (h : k ∈ d) : ∃ v, d.get? k = some v :=
  Option.isSome_iff_exists.mp (get?_isSome.mpr h)

theorem mem_of_get? (h : d.get? k = some v) : k ∈ d :=
  get?_isSome.mp (Option.isSome_of_eq_some h)

theorem get?_eq_none : d.get? k = none ↔ k ∉ d := by
  rw [← get?_isSome, Option.not_isSome_iff_eq_none]

theorem get?_eq_some : d.get? k = some v ↔ (k, v) ∈ d.entries := by
  obtain ⟨entries, hnodup⟩ := d
  change entries.lookup k = some v ↔ (k, v) ∈ entries
  induction entries with
  | nil => simp
  | cons e l ih =>
    rw [map_cons, nodup_cons] at hnodup
    rw [lookup_cons, mem_cons]
    by_cases he : k = e.1
    · have hnot : (k, v) ∉ l := fun hmem => hnodup.1 (he ▸ mem_map_of_mem hmem)
      simp only [he, beq_self_eq_true, Option.some.injEq, Prod.ext_iff, true_and]
      rw [he] at hnot
      simp [hnot, eq_comm]
    · rw [beq_eq_false_iff_ne.mpr he]
      simp only [ih hnodup.2]
      rw [or_iff_right]
      rintro rfl
      exact he rfl

variable (d)

theorem get?_set_self (k : K) (v : V) : (d.set k v).get? k = some v := by
  rw [get?_eq_some]
  by_cases h : k ∈ d
  · obtain ⟨e, he, rfl⟩ := mem_map.mp h
    rw [set, dif_pos h]
    exact mem_map.mpr ⟨e, he, if_pos rfl⟩
  · rw [entries_set_of_not_mem h]
    exact mem_append_right _ mem_cons_self

theorem get?_set_of_ne (hne : k' ≠ k) (v : V) :
    (d.set k v).get? k' = d.get? k' := by
  refine Option.ext fun w => ?_
  rw [get?_eq_some, get?_eq_some]
  by_cases h : k ∈ d
  · rw [set, dif_pos h]
    change (k', w) ∈ d.entries.map (fun e => if e.1 = k then (k, v) else e) ↔ _
    rw [mem_map]
    constructor
    · rintro ⟨e, he, heq⟩
      split at heq
      · exact absurd (congrArg Prod.fst heq).symm hne
      · exact heq ▸ he
    · exact fun hmem => ⟨_, hmem, if_neg hne⟩
  · rw [entries_set_of_not_mem h]
    simp [hne]

theorem get?_erase_self (k : K) : (d.erase k).get? k = none := by
  rw [get?_eq_none, mem_erase]
  exact fun h => h.1 rfl

theorem get?_erase_of_ne (hne : k' ≠ k) :
    (d.erase k).get? k' = d.get? k' := by
  refine Option.ext fun w => ?_
  rw [get?_eq_some, get?_eq_some]
  change (k', w) ∈ without d.entries k ↔ _
  rw [without, mem_filter]
  simp [hne]

theorem get?_erase (k k' : K) :
    (d.erase k).get? k' = if k' = k then none else d.get? k' := by
  by_cases h : k' = k
  · rw [h, get?_erase_self, if_pos rfl]
  · rw [get?_erase_of_ne d h, if_neg h]

theorem get?_set (k k' : K) (v : V) :
    (d.set k v).get? k' = if k' = k then some v else d.get? k' := by
  by_cases h : k' = k
  · rw [h, get?_set_self, if_pos rfl]
  · rw [get?_set_of_ne d h, if_neg h]

variable {d}

/-- A value that is set again. -/
theorem set_eq_self (h : d.get? k = some v) : d.set k v = d := by
  have hmem : k ∈ d := mem_of_get? h
  have hentries : replaceIn d.entries k v = d.entries := by
    refine (map_congr_left fun e he => ?_).trans (map_id _)
    change (if e.1 = k then (k, v) else e) = e
    split_ifs with hk
    · subst hk
      have hv := h.symm.trans (get?_eq_some.mpr he)
      rw [Option.some.inj hv]
    · rfl
  simp only [set, dif_pos hmem, hentries]

/-- The dictionary without several keys. -/
theorem get?_foldl_erase (d : OrderedDict K V) (ks : List K) (k : K) :
    (ks.foldl erase d).get? k = if k ∈ ks then none else d.get? k := by
  induction ks generalizing d with
  | nil => simp
  | cons k' ks ih =>
    rw [foldl_cons, ih, get?_erase]
    by_cases hk : k = k'
    · simp [hk]
    · simp [hk]

theorem mem_values : v ∈ d.values ↔ ∃ k, d.get? k = some v := by
  rw [values, mem_map]
  constructor
  · rintro ⟨e, he, rfl⟩
    exact ⟨e.1, get?_eq_some.mpr he⟩
  · rintro ⟨k, hk⟩
    exact ⟨_, get?_eq_some.mp hk, rfl⟩

/-- An entry that is found is put aside. -/
theorem perm_without {l : List (K × V)} (hl : (l.map Prod.fst).Nodup) (hv : l.lookup k = some v) :
    l.Perm ((k, v) :: without l k) := by
  induction l with
  | nil => simp at hv
  | cons e l ih =>
    rw [map_cons, nodup_cons] at hl
    rw [lookup_cons] at hv
    by_cases he : k = e.1
    · have hrest : without l k = l := by
        refine filter_eq_self.mpr fun e' he' => bne_iff_ne.mpr ?_
        rintro rfl
        exact hl.1 (he ▸ mem_map_of_mem he')
      simp only [he, beq_self_eq_true, Option.some.injEq] at hv
      rw [without, filter_cons, if_neg (by simp [he]), ← without, hrest, he, ← hv]
    · have hne : (e.1 != k) = true := bne_iff_ne.mpr fun h => he h.symm
      rw [beq_eq_false_iff_ne.mpr he] at hv
      rw [without, filter_cons, if_pos hne, ← without]
      exact ((ih hl.2 hv).cons e).trans (Perm.swap ..)

theorem entries_moveToEnd (h : k ∈ d) : (d.moveToEnd k).entries.Perm d.entries := by
  obtain ⟨v, hv⟩ := exists_get? h
  rw [moveToEnd, hv]
  exact (perm_append_singleton ..).trans (perm_without d.nodup hv).symm

theorem keys_moveToFront (h : k ∈ d) : (d.moveToFront k).keys = k :: d.keys.erase k := by
  obtain ⟨v, hv⟩ := exists_get? h
  rw [moveToFront, hv]
  simp only [keys, map_cons, keys_without, d.nodup.erase_eq_filter]

/-- A key that is set and moved to the front. -/
theorem mem_set_moveToFront : k' ∈ (d.set k v).moveToFront k ↔ k' = k ∨ k' ∈ d := by
  have hmem : k ∈ d.set k v := mem_set.mpr (Or.inl rfl)
  rw [← mem_keys, keys_moveToFront hmem, mem_cons,
    (d.set k v).nodup_keys.mem_erase_iff, mem_keys, mem_set]
  by_cases h : k' = k
  · simp [h]
  · simp [h]

theorem popFirst_eq_none : d.popFirst = none ↔ d.keys = [] := by
  obtain ⟨l, hl⟩ := d
  cases l with
  | nil | cons e rest => simp [popFirst, keys]

variable {e : K × V} {rest : OrderedDict K V}

theorem entries_popFirst (h : d.popFirst = some (e, rest)) : d.entries = e :: rest.entries := by
  obtain ⟨l, hl⟩ := d
  cases l with
  | nil => simp [popFirst] at h
  | cons e' l =>
    simp only [popFirst, Option.some.injEq, Prod.mk.injEq] at h
    rw [← h.1, ← h.2]

theorem keys_popFirst (h : d.popFirst = some (e, rest)) : d.keys = e.1 :: rest.keys := by
  rw [keys, entries_popFirst h]
  rfl

theorem mem_of_popFirst (h : d.popFirst = some (e, rest)) : k ∈ rest ↔ k ≠ e.1 ∧ k ∈ d := by
  have hnodup := d.nodup_keys
  rw [keys_popFirst h, nodup_cons] at hnodup
  rw [← mem_keys, ← mem_keys, keys_popFirst h, mem_cons]
  constructor
  · intro hmem
    refine ⟨?_, Or.inr hmem⟩
    rintro rfl
    exact hnodup.1 hmem
  · rintro ⟨hne, rfl | hmem⟩
    · exact absurd rfl hne
    · exact hmem

end OrderedDict
