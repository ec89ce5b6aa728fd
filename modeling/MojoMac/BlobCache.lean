/-
The blob cache (`Cache/lib/BlobCache.cpp`): a chain of backends, each of which
hands what it does not hold on to its delegate.

* `insertSync`, `containsSync`, `findSync` — the calls on a chain, the head
  first and its delegates behind it;
* `findSync_fst` — a value that is found is that of the first backend with it;
* `run_promotes_iff` — it reaches every writable backend in front of that one
  exactly when none of them is a filesystem backend.

Each backend has contents of its own: no two filesystem backends have one
directory.  No I/O fails and a file holds what was written to it, so the hash
behind the contents of a file is left out.
-/
import Mathlib.Data.Nat.Notation
import Mathlib.Logic.Function.Basic

open List

namespace BlobCache

inductive Kind where
  | inMemory
  | filesystem (readOnly : Bool)
deriving DecidableEq

/-- A backend without its delegate: what it is and what it holds. -/
structure Backend (K V : Type) where
  kind : Kind
  cache : K → Option V

/-- A backend and its delegates, the head first. -/
abbrev Chain (K V : Type) := List (Backend K V)

variable {K V : Type} (b : Backend K V)

namespace Backend

def containsSyncImpl (keyHash : K) : Bool :=
  (b.cache keyHash).isSome

def findSyncImpl (keyHash : K) : Option V :=
  b.cache keyHash

def write [DecidableEq K] (b : Backend K V) (keyHash : K) (obj : V) : Backend K V :=
  { b with cache := Function.update b.cache keyHash (some obj) }

def Writable : Prop :=
  b.kind ≠ .filesystem true

end Backend

def containsSync : Chain K V → K → Bool
  | [], _ => false
  | b :: delegate, keyHash => b.containsSyncImpl keyHash || containsSync delegate keyHash

variable [DecidableEq K]

/-- What the backend in front of `delegate` does with a value. -/
def insertSyncImpl (delegate : Chain K V) (keyHash : K) (obj : V) : Backend K V :=
  match b.kind with
  | .inMemory => b.write keyHash obj
  | .filesystem readOnly =>
    -- "already have the object in the filesystem cache": the call looks at the delegates too.
    if containsSync (b :: delegate) keyHash then b
    else if readOnly then b
    else b.write keyHash obj

def insertSync : Chain K V → K → V → Chain K V
  | [], _, _ => []
  | b :: delegate, keyHash, obj =>
    insertSyncImpl b delegate keyHash obj :: insertSync delegate keyHash obj

/-- The value that is found, and the chain after the call. -/
def findSync : Chain K V → K → Option V × Chain K V
  | [], _ => (none, [])
  | b :: delegate, keyHash =>
    match b.findSyncImpl keyHash with
    | some obj => (some obj, b :: delegate)
    | none =>
      match findSync delegate keyHash with
      | (none, delegate) => (none, b :: delegate)
      | (some buf, delegate) => (some buf, insertSync (b :: delegate) keyHash buf)

/-- A call on the head of the chain. -/
inductive Call (K V : Type) where
  | insert (keyHash : K) (obj : V)
  | contains (keyHash : K)
  | find (keyHash : K)

def call (c : Chain K V) : Call K V → Chain K V
  | .insert keyHash obj => insertSync c keyHash obj
  | .contains _ => c
  | .find keyHash => (findSync c keyHash).2

def run (c : Chain K V) (calls : List (Call K V)) : Chain K V :=
  calls.foldl call c

variable {c : Chain K V} {val : K → V} {k : K} {v : V}

/-! ### What is found -/

theorem findSync_fst (c : Chain K V) (k : K) : (findSync c k).1 = c.findSome? (·.cache k) := by
  induction c with
  | nil => rfl
  | cons b delegate ih =>
    rw [findSync, findSome?_cons, ← ih]
    cases hb : b.cache k with
    | some obj => simp [Backend.findSyncImpl, hb]
    | none =>
      simp only [Backend.findSyncImpl, hb]
      split <;> simp_all

theorem containsSync_eq (c : Chain K V) (k : K) : containsSync c k = (findSync c k).1.isSome := by
  rw [findSync_fst]
  induction c with
  | nil => rfl
  | cons b delegate ih =>
    rw [containsSync, findSome?_cons, ih]
    cases hb : b.cache k <;> simp [Backend.containsSyncImpl, hb]

/-- Every backend holds for a key only the value that is inserted with it. -/
def Agrees (val : K → V) (c : Chain K V) : Prop :=
  ∀ b ∈ c, ∀ k v, b.cache k = some v → v = val k

theorem Agrees.eq (h : Agrees val c) (hv : (findSync c k).1 = some v) : v = val k := by
  rw [findSync_fst] at hv
  obtain ⟨b, hb, hbv⟩ := exists_of_findSome?_eq_some hv
  exact h b hb k v hbv

/-! ### What a run keeps -/

theorem insertSyncImpl_eq_or (delegate : Chain K V) (k : K) (v : V) :
    insertSyncImpl b delegate k v = b ∨ insertSyncImpl b delegate k v = b.write k v := by
  unfold insertSyncImpl
  grind

theorem Agrees.insertSync (h : Agrees val c) (k : K) : Agrees val (insertSync c k (val k)) := by
  induction c with
  | nil => exact h
  | cons b delegate ih =>
    obtain ⟨hb, hdelegate⟩ := forall_mem_cons.mp h
    refine forall_mem_cons.mpr ⟨fun j w hw => ?_, ih hdelegate⟩
    obtain heq | heq := insertSyncImpl_eq_or b delegate k (val k)
    · exact hb j w (heq ▸ hw)
    · simp only [heq, Backend.write, Function.update_apply] at hw
      split at hw
      · next hj => rw [hj, Option.some.inj hw]
      · exact hb j w hw

theorem Agrees.findSync (h : Agrees val c) (k : K) : Agrees val (findSync c k).2 := by
  induction c with
  | nil => exact h
  | cons b delegate ih =>
    obtain ⟨hb, hdelegate⟩ := forall_mem_cons.mp h
    rw [BlobCache.findSync]
    split
    · exact h
    have hafter := forall_mem_cons.mpr ⟨hb, ih hdelegate⟩
    split
    · next hfound => rwa [hfound] at hafter
    · next buf _ hfound =>
      rw [Agrees.eq hdelegate (congrArg Prod.fst hfound)]
      rw [hfound] at hafter
      exact Agrees.insertSync hafter k

theorem Agrees.run (h : Agrees val c) (calls : List (Call K V))
    (hcalls : ∀ k v, .insert k v ∈ calls → v = val k) : Agrees val (run c calls) := by
  induction calls generalizing c with
  | nil => exact h
  | cons x calls ih =>
    refine ih ?_ fun k v hmem => hcalls k v (mem_cons_of_mem x hmem)
    cases x with
    | insert k v =>
      rw [hcalls k v mem_cons_self]
      exact h.insertSync k
    | contains k => exact h
    | find k => exact h.findSync k

/-! ### The backends in front of a supplier -/

/-- What an insertion leaves of a backend with the key somewhere behind it. -/
def promote (k : K) (v : V) (b : Backend K V) : Backend K V :=
  if b.kind = .inMemory then b.write k v else b

theorem promote_promote (k : K) (v : V) (b : Backend K V) :
    promote k v (promote k v b) = promote k v b := by
  by_cases hb : b.kind = .inMemory <;> simp [promote, hb, Backend.write]

omit [DecidableEq K] in
theorem containsSync_append (front : Chain K V) (h : containsSync c k = true) :
    containsSync (front ++ c) k = true := by
  induction front with
  | nil => exact h
  | cons b front ih => simp [containsSync, ih]

theorem containsSync_insertSync (v : V) (h : containsSync c k = true) :
    containsSync (insertSync c k v) k = true := by
  induction c with
  | nil => exact h
  | cons b delegate ih =>
    rw [containsSync, Bool.or_eq_true] at h
    rw [insertSync, containsSync, Bool.or_eq_true]
    refine h.imp (fun hb => ?_) ih
    obtain heq | heq := insertSyncImpl_eq_or b delegate k v
    · rwa [heq]
    · simp [heq, Backend.write, Backend.containsSyncImpl]

theorem insertSync_append (front : Chain K V) (v : V) (h : containsSync c k = true) :
    insertSync (front ++ c) k v = front.map (promote k v) ++ insertSync c k v := by
  induction front with
  | nil => rfl
  | cons b front ih =>
    have hbehind := containsSync_append (b :: front) h
    rw [cons_append] at hbehind
    rw [cons_append, insertSync, ih, insertSyncImpl]
    cases hb : b.kind <;> simp [promote, hb, hbehind]

/-- A find that reaches a supplier behind `front` promotes the value into all of `front`. -/
theorem findSync_append {front : Chain K V} {supplier : Backend K V} (rest : Chain K V)
    (hv : supplier.cache k = some v) (hfront : ∀ b ∈ front, b.cache k = none) :
    ∃ behind, containsSync behind k = true ∧ findSync (front ++ supplier :: rest) k =
      (some v, front.map (promote k v) ++ behind) := by
  induction front with
  | nil =>
    refine ⟨supplier :: rest, ?_, ?_⟩
    · simp [containsSync, Backend.containsSyncImpl, hv]
    · simp [findSync, Backend.findSyncImpl, hv]
  | cons b front ih =>
    obtain ⟨hb, hfront⟩ := forall_mem_cons.mp hfront
    obtain ⟨behind, hbehind, hfind⟩ := ih hfront
    refine ⟨_, containsSync_insertSync v hbehind, ?_⟩
    simp only [cons_append, findSync, Backend.findSyncImpl, hb, hfind]
    rw [← cons_append, insertSync_append _ _ hbehind]
    simp [promote_promote]

/-- **Promotion**: along any history a find returns the value of the key exactly when a backend
holds it, as does a look for the key, and leaves it in every writable backend in front of the
supplier exactly when none of these is a writable filesystem backend. -/
theorem run_promotes_iff (val : K → V) (c₀ : Chain K V) (calls : List (Call K V))
    (h₀ : Agrees val c₀) (hcalls : ∀ k v, .insert k v ∈ calls → v = val k) (k : K) :
    (∀ v, (findSync (run c₀ calls) k).1 = some v ↔
      v = val k ∧ ∃ b ∈ run c₀ calls, (b.cache k).isSome) ∧
    containsSync (run c₀ calls) k = (findSync (run c₀ calls) k).1.isSome ∧
    ∀ front supplier rest, run c₀ calls = front ++ supplier :: rest →
      (supplier.cache k).isSome → (∀ b ∈ front, b.cache k = none) →
      ((∀ b ∈ (findSync (run c₀ calls) k).2.take front.length,
          b.Writable → b.cache k = some (val k)) ↔ ∀ b ∈ front, b.kind ≠ .filesystem false) := by
  have h := h₀.run calls hcalls
  refine ⟨fun v => ⟨fun hv => ⟨h.eq hv, ?_⟩, ?_⟩, containsSync_eq _ k, ?_⟩
  · rw [findSync_fst] at hv
    obtain ⟨b, hb, hbv⟩ := exists_of_findSome?_eq_some hv
    exact ⟨b, hb, by rw [hbv, Option.isSome_some]⟩
  · rintro ⟨rfl, hsome⟩
    rw [← findSome?_isSome_iff, ← findSync_fst] at hsome
    obtain ⟨v, hv⟩ := Option.isSome_iff_exists.mp hsome
    rw [hv, h.eq hv]
  intro front supplier rest hc hsome hfront
  obtain ⟨v, hv⟩ := Option.isSome_iff_exists.mp hsome
  obtain rfl : v = val k := h supplier (by simp [hc]) k v hv
  obtain ⟨behind, -, hfind⟩ := findSync_append rest hv hfront
  rw [hc, hfind, take_left' (length_map _), forall_mem_map]
  refine forall₂_congr fun b hb => ?_
  -- A filesystem backend is left as it was, so a writable one still lacks the key.
  cases hkind : b.kind with
  | inMemory => simp [promote, hkind, Backend.write]
  | filesystem readOnly => cases readOnly <;> simp [promote, hkind, Backend.Writable, hfront b hb]

theorem run_promotes_iff_memory_first :
    let c : Chain ℕ ℕ := [⟨.inMemory, fun _ => none⟩, ⟨.filesystem true, fun _ => some 7⟩]
    (findSync (run c [.contains 0]) 0).1 = some 7 ∧
      ∀ b ∈ (findSync (run c [.contains 0]) 0).2.take 1, b.Writable → b.cache 0 = some 7 := by
  intro c
  obtain ⟨hfound, -, hpromoted⟩ := run_promotes_iff (fun _ => 7) c [.contains 0]
    (by simp [Agrees, c]) (by simp) 0
  refine ⟨(hfound 7).mpr ⟨rfl, by simp [run, call, c]⟩, ?_⟩
  exact (hpromoted [c.head (by simp [c])] _ [] rfl rfl (by simp [c])).mpr (by simp [c])

/-- A writable directory in front of a read-only one never receives what the latter holds. -/
theorem findSync_skips_writable :
    let c : Chain ℕ ℕ := [⟨.filesystem false, fun _ => none⟩, ⟨.filesystem true, fun _ => some 7⟩]
    (findSync c 0).1 = some 7 ∧ (findSync c 0).2.map (·.cache 0) = [none, some 7] := by
  decide

end BlobCache
