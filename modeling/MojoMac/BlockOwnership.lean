/-
Who holds the blocks of a block manager.

The references to the blocks of a replica belong to the block lists of its requests, to the
transfers that pin them, or to a call that is going on.  A block keeps its hash as long as it is
referenced, so the blocks in the list of a request have the hashes of the request, as far as they
have any.

* `Owns` — the invariant of one replica, with the references held by a call going on;
* `Owns.setPool` — what an operation on the pool may do;
* `Frame` — nothing outside one replica and one request changed.
-/
import MojoMac.BlockManager

open Function StateSpec List PoolView

set_option linter.unusedSectionVars false

namespace BlockManager

variable {H R P : Type} [DecidableEq H] [DecidableEq R] {k : ℕ}

/-- A place in one list or in the one behind it. -/
theorem getElem?_append_eq_some {α : Type} {l l' : List α} {x : α} :
    (l ++ l')[k]? = some x ↔ l[k]? = some x ∨ ∃ j, k = l.length + j ∧ l'[j]? = some x := by
  constructor
  · intro h
    by_cases hlt : k < l.length
    · exact .inl (by rwa [getElem?_append_left hlt] at h)
    · refine .inr ⟨k - l.length, by omega, ?_⟩
      rwa [getElem?_append_right (by omega)] at h
  · rintro (h | ⟨j, rfl, h⟩)
    · rw [getElem?_append_left (List.getElem_of_getElem? h).1, h]
    · rw [getElem?_append_right (by omega), Nat.add_sub_cancel_left, h]

variable (m : BlockManager H R P)

/-- The requests of a replica. -/
def requestsOn (i : ℕ) : Finset R :=
  m.reqToReplica.keys.toFinset.filter fun r => m.reqToReplica.lookup r = some i

/-- The references in the block lists of the requests of a replica. -/
def owned (i : ℕ) : Multiset ℕ :=
  ∑ r ∈ m.requestsOn i, (m.reqToBlocks r : Multiset ℕ)

/-- The references of the pending transfers of a replica. -/
def pinned (i : ℕ) : Multiset ℕ :=
  ((m.pendingTransfers i).map fun t => (t.blocks : Multiset ℕ)).sum

/-- A block of a replica is in the list of a request. -/
def At (i b : ℕ) (r : R) (k : ℕ) : Prop :=
  m.reqToReplica.lookup r = some i ∧ (m.reqToBlocks r)[k]? = some b

/-- A load that is pending brings a block with a hash. -/
def Loads (i b : ℕ) (e : Option H) : Prop :=
  ∃ (t : PendingTransfer H P) (hs : List H) (k : ℕ), t ∈ m.pendingTransfers i ∧
    t.commitHashes = some hs ∧ t.blocks[k]? = some b ∧ e = hs[k]?

/-- The hash that a block is to have, by its place in the list of a request or in a load. -/
def Expects (i b : ℕ) (e : Option H) : Prop :=
  (∃ r k, m.At i b r k ∧ e = (m.reqToHashes r)[k]?) ∨ m.Loads i b e

/-- The invariant of a replica whose pool has the view `v`, when a call holds the references
`held`. -/
structure Owns (i : ℕ) (v : PoolView H) (held : Multiset ℕ) : Prop where
  shows : (m.deviceBlockPools i).Shows v
  numBlocks : v.numBlocks = m.totalNumBlocks
  refs : v.refs = m.owned i + m.pinned i + held
  unique : ∀ b r k r' k', v.hash b = none → m.At i b r k → m.At i b r' k' → r = r' ∧ k = k'
  agree : ∀ b e e', m.Expects i b e → m.Expects i b e' → e = e'
  named : ∀ b h e, v.hash b = some h → m.Expects i b e → e = some h
  runs : ∀ run ∈ m.pendingOffloads i, run.Nodup
  transfers : ∀ t ∈ m.pendingTransfers i,
    t.blocks.Nodup ∧ ∀ hs, t.commitHashes = some hs → hs.length = t.blocks.length

variable {m m' : BlockManager H R P} {i b : ℕ} {r : R} {v v' : PoolView H}
  {held held' : Multiset ℕ}

theorem mem_requestsOn : r ∈ m.requestsOn i ↔ m.reqToReplica.lookup r = some i := by
  rw [requestsOn, Finset.mem_filter, mem_toFinset, ← AList.mem_keys, and_iff_right_iff_imp]
  intro hr
  exact AList.lookup_isSome.mp (by rw [hr]; rfl)

theorem mem_owned : b ∈ m.owned i ↔ ∃ r k, m.At i b r k := by
  rw [owned, Multiset.mem_sum]
  constructor
  · rintro ⟨r, hr, hb⟩
    obtain ⟨k, hk⟩ := mem_iff_getElem?.mp (Multiset.mem_coe.mp hb)
    exact ⟨r, k, mem_requestsOn.mp hr, hk⟩
  · rintro ⟨r, k, hr, hk⟩
    exact ⟨r, mem_requestsOn.mpr hr, Multiset.mem_coe.mpr (mem_of_getElem? hk)⟩

theorem mem_pinned : b ∈ m.pinned i ↔ ∃ t ∈ m.pendingTransfers i, b ∈ t.blocks := by
  rw [pinned]
  induction m.pendingTransfers i with
  | nil => simp
  | cons t ts ih => simp [ih]

theorem At.mem_owned (h : m.At i b r k) : b ∈ m.owned i :=
  BlockManager.mem_owned.mpr ⟨r, k, h⟩

variable {e : Option H}

theorem Loads.mem_pinned (h : m.Loads i b e) : b ∈ m.pinned i := by
  obtain ⟨t, hs, k, ht, -, hb, -⟩ := h
  exact BlockManager.mem_pinned.mpr ⟨t, ht, mem_of_getElem? hb⟩

/-- A block of which a hash is expected is referenced. -/
theorem Expects.mem (h : m.Expects i b e) : b ∈ m.owned i + m.pinned i := by
  rw [Multiset.mem_add]
  rcases h with ⟨r, k, hat, -⟩ | hload
  · exact .inl hat.mem_owned
  · exact .inr hload.mem_pinned

theorem At.expects (h : m.At i b r k) : m.Expects i b (m.reqToHashes r)[k]? :=
  .inl ⟨r, k, h, rfl⟩

@[simp] theorem setBlocks_self (m : BlockManager H R P) (r : R) (l : List ℕ) :
    (m.setBlocks r l).reqToBlocks r = l :=
  update_self ..

theorem setBlocks_of_ne (m : BlockManager H R P) {r r' : R} (h : r' ≠ r) (l : List ℕ) :
    (m.setBlocks r l).reqToBlocks r' = m.reqToBlocks r' :=
  update_of_ne h ..

/-- The blocks of a replica after the list of one of its requests was changed. -/
theorem owned_setBlocks (hr : m.reqToReplica.lookup r = some i) (l : List ℕ) :
    (m.setBlocks r l).owned i + ↑(m.reqToBlocks r) = m.owned i + ↑l := by
  have hmem : r ∈ m.requestsOn i := mem_requestsOn.mpr hr
  have hrest : ∑ x ∈ (m.requestsOn i).erase r, ((m.setBlocks r l).reqToBlocks x : Multiset ℕ)
      = ∑ x ∈ (m.requestsOn i).erase r, (m.reqToBlocks x : Multiset ℕ) := by
    refine Finset.sum_congr rfl fun x hx => ?_
    rw [setBlocks_of_ne m (Finset.ne_of_mem_erase hx)]
  change (∑ x ∈ m.requestsOn i, ((m.setBlocks r l).reqToBlocks x : Multiset ℕ)) + _ = _
  rw [owned, ← Finset.add_sum_erase _ _ hmem, ← Finset.add_sum_erase _ _ hmem, hrest,
    setBlocks_self]
  abel

/-- What a block needs to stand in a new place of a list, for the hash `x`. -/
structure Fits (m : BlockManager H R P) (i : ℕ) (v : PoolView H) (x : Option H) (l : List ℕ)
    (k b : ℕ) : Prop where
  expected : ∀ e, m.Expects i b e → e = x
  hash : v.hash b = none ∨ v.hash b = x
  fresh : v.hash b = none → b ∉ m.owned i ∧ ∀ k', l[k']? = some b → k' = k

variable {l : List ℕ} {p : BlockPool H} {t : PendingTransfer H P}

namespace Owns

/-- A free block is of no concern to anybody. -/
theorem not_expects (h : m.Owns i v held) (hb : b ∉ v.refs) (e : Option H) : ¬ m.Expects i b e := by
  intro he
  refine hb ?_
  rw [h.refs]
  exact Multiset.mem_add.mpr (.inl he.mem)

theorem not_at (h : m.Owns i v held) (hb : b ∉ v.refs) (r : R) (k : ℕ) : ¬ m.At i b r k :=
  fun hat => h.not_expects hb _ hat.expects

/-- A replica of which only block lists may have changed, to lists with fewer places. -/
theorem restrict (h : m.Owns i v held) (hpool : m'.deviceBlockPools i = m.deviceBlockPools i)
    (hconfig : m'.toManagerConfig = m.toManagerConfig)
    (hruns : m'.pendingOffloads i = m.pendingOffloads i)
    (htransfers : m'.pendingTransfers i = m.pendingTransfers i)
    (hat : ∀ b r k, m'.At i b r k → m.At i b r k ∧ m'.reqToHashes r = m.reqToHashes r)
    (hrefs : m'.owned i + held' = m.owned i + held) : m'.Owns i v held' := by
  have hexp : ∀ {b e}, m'.Expects i b e → m.Expects i b e := by
    rintro b e (⟨r, k, hb, rfl⟩ | hload)
    · rw [(hat b r k hb).2]
      exact (hat b r k hb).1.expects
    · rw [Loads, htransfers] at hload
      exact .inr hload
  constructor
  case shows => exact hpool ▸ h.shows
  case numBlocks => rw [h.numBlocks, hconfig]
  case refs =>
    rw [h.refs, add_right_comm, ← hrefs, add_right_comm, pinned, pinned, htransfers]
  case unique =>
    exact fun b r k r' k' hb hr hr' => h.unique b r k r' k' hb (hat b r k hr).1 (hat b r' k' hr').1
  case agree => exact fun b e e' he he' => h.agree b e e' (hexp he) (hexp he')
  case named => exact fun b x e hb he => h.named b x e hb (hexp he)
  case runs => exact hruns ▸ h.runs
  case transfers => exact htransfers ▸ h.transfers

/-- **What an operation on the pool may do**: blocks in use keep their hashes, and a hash that a
block gets is the one expected. -/
theorem setPool (h : m.Owns i v held) (hp : p.Shows v')
    (hnum : v'.numBlocks = v.numBlocks) (hrefs : v'.refs + held = v.refs + held')
    (hnone : ∀ b, v'.hash b = none → v.hash b = none ∨ b ∉ v.refs)
    (hsome : ∀ b x, v'.hash b = some x → v.hash b = some x ∨ ∀ e, m.Expects i b e → e = some x) :
    (m.setPool i p).Owns i v' held' where
  shows := by
    change (update m.deviceBlockPools i p i).Shows v'
    rw [update_self]
    exact hp
  numBlocks := hnum.trans h.numBlocks
  refs := by
    rw [h.refs] at hrefs
    change v'.refs = m.owned i + m.pinned i + held'
    have hcancel : held + v'.refs = held + (m.owned i + m.pinned i + held') := by
      rw [add_comm held v'.refs, hrefs]
      abel
    exact Multiset.add_right_inj.mp hcancel
  unique b r k r' k' hb hat hat' := by
    rcases hnone b hb with hb | hb
    · exact h.unique b r k r' k' hb hat hat'
    · exact absurd hat (h.not_at hb r k)
  agree := h.agree
  named b x e hb he := by
    rcases hsome b x hb with hb | hb
    · exact h.named b x e hb he
    · exact hb e he
  runs := h.runs
  transfers := h.transfers

theorem at_setBlocks (hr : m.reqToReplica.lookup r = some i) (l : List ℕ) {r' : R} :
    (m.setBlocks r l).At i b r' k ↔ r' = r ∧ l[k]? = some b ∨ r' ≠ r ∧ m.At i b r' k := by
  by_cases hrr : r' = r
  · subst hrr
    simp only [At, setBlocks_self, true_and, ne_eq, not_true_eq_false, false_and, or_false]
    exact and_iff_right hr
  · simp only [At, setBlocks_of_ne m hrr, hrr, false_and, ne_eq, not_false_eq_true, true_and,
      false_or]
    rfl

/-- **Changing the list of a request**: what is new in it fits its place. -/
theorem setBlocks (h : m.Owns i v held) (hr : m.reqToReplica.lookup r = some i)
    (hrefs : held' + ↑l = held + ↑(m.reqToBlocks r)) (hpos : ∀ k b, l[k]? = some b →
      (m.reqToBlocks r)[k]? = some b ∨ Fits m i v (m.reqToHashes r)[k]? l k b) :
    (m.setBlocks r l).Owns i v held' := by
  -- a place in the new list is an old one, or it is new and fits
  have hat : ∀ {b r' k}, (m.setBlocks r l).At i b r' k →
      m.At i b r' k ∨ r' = r ∧ l[k]? = some b ∧ Fits m i v (m.reqToHashes r)[k]? l k b := by
    intro b r' k hb
    rcases (at_setBlocks hr l).mp hb with ⟨hrr, hl⟩ | ⟨-, hold⟩
    · rcases hpos k b hl with hold | hfits
      · exact .inl (hrr ▸ ⟨hr, hold⟩)
      · exact .inr ⟨hrr, hl, hfits⟩
    · exact .inl hold
  have hexp : ∀ {b e}, (m.setBlocks r l).Expects i b e → m.Expects i b e ∨
        ∃ k, l[k]? = some b ∧ Fits m i v (m.reqToHashes r)[k]? l k b ∧ e = (m.reqToHashes r)[k]? := by
    rintro b e (⟨r', k, hb, rfl⟩ | hload)
    · rcases hat hb with hold | ⟨hrr, hl, hfits⟩
      · exact .inl hold.expects
      · exact .inr ⟨k, hl, hfits, by rw [hrr]; rfl⟩
    · exact .inl (.inr hload)
  refine { h with refs := ?refs, unique := ?unique, agree := ?agree, named := ?named }
  case refs =>
    have howned := owned_setBlocks hr l
    have hpinned : (m.setBlocks r l).pinned i = m.pinned i := rfl
    have hcancel : (m.reqToBlocks r : Multiset ℕ) + v.refs = ↑(m.reqToBlocks r) +
        ((m.setBlocks r l).owned i + (m.setBlocks r l).pinned i + held') := by
      calc (m.reqToBlocks r : Multiset ℕ) + v.refs
          = m.owned i + m.pinned i + (held + ↑(m.reqToBlocks r)) := by
            rw [h.refs]
            abel
        _ = (m.owned i + ↑l) + m.pinned i + held' := by
            rw [← hrefs]
            abel
        _ = _ := by
            rw [← howned, hpinned]
            abel
    exact Multiset.add_right_inj.mp hcancel
  case unique =>
    intro b r₁ k₁ r₂ k₂ hb hat₁ hat₂
    rcases hat hat₁ with hold₁ | ⟨hr₁, -, hfits₁⟩
    · rcases hat hat₂ with hold₂ | ⟨-, -, hfits₂⟩
      · exact h.unique b r₁ k₁ r₂ k₂ hb hold₁ hold₂
      · exact absurd hold₁.mem_owned (hfits₂.fresh hb).1
    · rcases hat hat₂ with hold₂ | ⟨hr₂, hb₂, -⟩
      · exact absurd hold₂.mem_owned (hfits₁.fresh hb).1
      · exact ⟨hr₁.trans hr₂.symm, ((hfits₁.fresh hb).2 k₂ hb₂).symm⟩
  case agree =>
    intro b e₁ e₂ he₁ he₂
    rcases hexp he₁ with he₁ | ⟨k₁, hb₁, hfits₁, rfl⟩
    · rcases hexp he₂ with he₂ | ⟨k₂, hb₂, hfits₂, rfl⟩
      · exact h.agree b e₁ e₂ he₁ he₂
      · exact hfits₂.expected e₁ he₁
    rcases hexp he₂ with he₂ | ⟨k₂, hb₂, hfits₂, rfl⟩
    · exact (hfits₁.expected e₂ he₂).symm
    rcases hfits₁.hash with hb | hb
    · rw [(hfits₁.fresh hb).2 k₂ hb₂]
    · rcases hfits₂.hash with hb' | hb'
      · rw [(hfits₁.fresh hb').2 k₂ hb₂]
      · rw [← hb, ← hb']
  case named =>
    intro b x e hb he
    rcases hexp he with he | ⟨k, hbk, hfits, rfl⟩
    · exact h.named b x e hb he
    · rw [← hfits.hash.resolve_left (by simp [hb]), hb]

/-- The last block of a list is held by the call. -/
theorem pop (h : m.Owns i v held) (hr : m.reqToReplica.lookup r = some i)
    (hl : m.reqToBlocks r = l ++ [b]) : (m.setBlocks r l).Owns i v (b ::ₘ held) := by
  refine h.setBlocks hr ?_ fun k b' hk => .inl ?_
  · rw [hl, ← Multiset.coe_add, Multiset.coe_singleton, ← Multiset.singleton_add]
    abel
  · rw [hl]
    exact getElem?_append_eq_some.mpr (.inl hk)

/-- **Blocks that the call holds** are appended to the list. -/
theorem append {bs : List ℕ} (h : m.Owns i v (↑bs + held)) (hr : m.reqToReplica.lookup r = some i)
    (hfits : ∀ k b : ℕ, bs[k]? = some b →
      Fits m i v (m.reqToHashes r)[(m.reqToBlocks r).length + k]? bs k b) :
    (m.setBlocks r (m.reqToBlocks r ++ bs)).Owns i v held := by
  refine h.setBlocks hr ?_ fun k b hk => ?_
  · rw [← Multiset.coe_add]
    abel
  rcases getElem?_append_eq_some.mp hk with hk | ⟨j, rfl, hj⟩
  · exact .inl hk
  obtain ⟨hexpected, hhash, hfresh⟩ := hfits j b hj
  refine .inr ⟨hexpected, hhash, fun hnone => ?_⟩
  obtain ⟨hnot, hunique⟩ := hfresh hnone
  refine ⟨hnot, fun k' hk' => ?_⟩
  rcases getElem?_append_eq_some.mp hk' with hk' | ⟨j', rfl, hj'⟩
  · exact absurd (At.mem_owned (show m.At i b r k' from ⟨hr, hk'⟩)) hnot
  · rw [hunique j' hj']

/-! ### Steps on the pool -/

section Pool

variable {x : H}

theorem setPool_touch (h : m.Owns i v held) (hp : p.Shows (v.touch b)) :
    (m.setPool i p).Owns i (v.touch b) (b ::ₘ held) := by
  refine h.setPool hp rfl ?_ (fun _ hb => .inl hb) fun _ _ hb => .inl hb
  change b ::ₘ v.refs + held = v.refs + b ::ₘ held
  rw [Multiset.cons_add, Multiset.add_cons]

theorem setPool_alloc (h : m.Owns i v held) (hb : b ∈ v.free) (hp : p.Shows (v.alloc b)) :
    (m.setPool i p).Owns i (v.alloc b) (b ::ₘ held) := by
  have hnot : b ∉ v.refs := ((h.shows.wf.mem_free b).mp hb).2
  refine h.setPool hp rfl ?_ (fun b' hb' => ?_) fun b' x hb' => .inl ?_
  · change b ::ₘ v.refs + held = v.refs + b ::ₘ held
    rw [Multiset.cons_add, Multiset.add_cons]
  · by_cases hbb : b' = b
    · exact .inr (hbb ▸ hnot)
    · exact .inl (by simpa [alloc, hbb] using hb')
  · by_cases hbb : b' = b
    · simp [alloc, hbb] at hb'
    · simpa [alloc, hbb] using hb'

theorem setPool_drop (h : m.Owns i v (b ::ₘ held)) (hp : p.Shows (v.drop b)) :
    (m.setPool i p).Owns i (v.drop b) held := by
  refine h.setPool hp rfl ?_ (fun _ hb => .inl hb) fun _ _ hb => .inl hb
  have hmem : b ∈ v.refs := by
    rw [h.refs]
    simp
  change v.refs.erase b + b ::ₘ held = v.refs + held
  rw [Multiset.add_cons, ← Multiset.cons_add, Multiset.cons_erase hmem]

theorem setPool_commit (h : m.Owns i v held) (hx : ∀ e, m.Expects i b e → e = some x)
    (hp : p.Shows (v.commit x b)) : (m.setPool i p).Owns i (v.commit x b) held := by
  refine h.setPool hp rfl rfl (fun b' hb' => .inl ?_) fun b' x' hb' => ?_
  · by_cases hbb : b' = b
    · simp [commit, hbb] at hb'
    · simpa [commit, hbb] using hb'
  · by_cases hbb : b' = b
    · subst hbb
      have hxx : x = x' := by simpa [commit] using hb'
      exact .inr (hxx ▸ hx)
    · exact .inl (by simpa [commit, hbb] using hb')

theorem setPool_reset (h : m.Owns i v held) (hp : p.Shows v.reset) :
    (m.setPool i p).Owns i v.reset held := by
  refine h.setPool hp rfl rfl (fun b' hb' => ?_) fun b' x' hb' => .inl ?_
  · change (if b' ∈ v.refs then v.hash b' else none) = none at hb'
    split at hb'
    · exact .inl hb'
    · rename_i hnot
      exact .inr hnot
  · change (if b' ∈ v.refs then v.hash b' else none) = some x' at hb'
    split at hb'
    · exact hb'
    · cases hb'

end Pool

/-! ### Steps on transfers and hashes -/

theorem setTransfers_self (m : BlockManager H R P) (i : ℕ) (ts : List (PendingTransfer H P)) :
    (m.setTransfers i ts).pendingTransfers i = ts :=
  update_self ..

theorem pinned_setTransfers (m : BlockManager H R P) (i : ℕ) (ts : List (PendingTransfer H P)) :
    (m.setTransfers i ts).pinned i = (ts.map fun t => (t.blocks : Multiset ℕ)).sum := by
  rw [pinned, setTransfers_self]

/-- **A transfer is over** and its blocks are held by the call. -/
theorem finish {as bs : List (PendingTransfer H P)}
    (h : (m.setTransfers i (as ++ t :: bs)).Owns i v held) :
    (m.setTransfers i (as ++ bs)).Owns i v (↑t.blocks + held) := by
  have hmem : ∀ {t'}, t' ∈ (m.setTransfers i (as ++ bs)).pendingTransfers i →
      t' ∈ (m.setTransfers i (as ++ t :: bs)).pendingTransfers i := by
    intro t' ht'
    rw [setTransfers_self] at ht' ⊢
    simp only [mem_append, mem_cons] at ht' ⊢
    tauto
  have hexp : ∀ {b e}, (m.setTransfers i (as ++ bs)).Expects i b e →
      (m.setTransfers i (as ++ t :: bs)).Expects i b e := by
    rintro b e (hat | ⟨t', hs, k, ht', hrest⟩)
    · exact .inl hat
    · exact .inr ⟨t', hs, k, hmem ht', hrest⟩
  refine { h with
    agree := fun b e e' he he' => h.agree b e e' (hexp he) (hexp he')
    named := fun b x e hb he => h.named b x e hb (hexp he)
    transfers := fun t' ht' => h.transfers t' (hmem ht')
    refs := ?_ }
  rw [h.refs, pinned_setTransfers, pinned_setTransfers]
  change m.owned i + _ + held = m.owned i + _ + _
  simp only [map_append, map_cons, sum_append, sum_cons]
  abel

/-- **A transfer begins**: it pins blocks that the call holds. -/
theorem track (h : m.Owns i v (↑t.blocks + held)) (hnodup : t.blocks.Nodup)
    (hlen : ∀ hs, t.commitHashes = some hs → hs.length = t.blocks.length)
    (hexpected : ∀ (hs : List H) (k b : ℕ), t.commitHashes = some hs → t.blocks[k]? = some b →
      (∀ e, m.Expects i b e → e = hs[k]?) ∧ (v.hash b = none ∨ v.hash b = hs[k]?)) :
    (m.setTransfers i (m.pendingTransfers i ++ [t])).Owns i v held := by
  have hexp : ∀ {b e}, (m.setTransfers i (m.pendingTransfers i ++ [t])).Expects i b e →
      m.Expects i b e ∨ ∃ (hs : List H) (k : ℕ),
        t.commitHashes = some hs ∧ t.blocks[k]? = some b ∧ e = hs[k]? := by
    rintro b e (hat | ⟨t', hs, k, ht', hhs, hb, rfl⟩)
    · exact .inl (.inl hat)
    rw [setTransfers_self] at ht'
    rcases mem_append.mp ht' with ht' | ht'
    · exact .inl (.inr ⟨t', hs, k, ht', hhs, hb, rfl⟩)
    · rw [mem_singleton.mp ht'] at hhs hb
      exact .inr ⟨hs, k, hhs, hb, rfl⟩
  refine { h with agree := ?agree, named := ?named, transfers := ?transfers, refs := ?refs }
  case agree =>
    intro b e₁ e₂ he₁ he₂
    rcases hexp he₁ with he₁ | ⟨hs₁, k₁, hhs₁, hb₁, rfl⟩
    · rcases hexp he₂ with he₂ | ⟨hs₂, k₂, hhs₂, hb₂, rfl⟩
      · exact h.agree b e₁ e₂ he₁ he₂
      · exact (hexpected hs₂ k₂ b hhs₂ hb₂).1 e₁ he₁
    rcases hexp he₂ with he₂ | ⟨hs₂, k₂, hhs₂, hb₂, rfl⟩
    · exact ((hexpected hs₁ k₁ b hhs₁ hb₁).1 e₂ he₂).symm
    -- the blocks of the transfer are different ones
    obtain ⟨hlt₁, hget₁⟩ := List.getElem_of_getElem? hb₁
    obtain ⟨hlt₂, hget₂⟩ := List.getElem_of_getElem? hb₂
    rw [hhs₁, Option.some_inj] at hhs₂
    rw [hhs₂, (hnodup.getElem_inj_iff).mp (hget₁.trans hget₂.symm)]
  case named =>
    intro b x e hb he
    rcases hexp he with he | ⟨hs, k, hhs, hbk, rfl⟩
    · exact h.named b x e hb he
    · rw [← (hexpected hs k b hhs hbk).2.resolve_left (by simp [hb]), hb]
  case transfers =>
    intro t' ht'
    rw [setTransfers_self] at ht'
    rcases mem_append.mp ht' with ht' | ht'
    · exact h.transfers t' ht'
    · rw [mem_singleton.mp ht']
      exact ⟨hnodup, hlen⟩
  case refs =>
    rw [h.refs, pinned_setTransfers]
    change m.owned i + m.pinned i + _ = m.owned i + _ + held
    simp only [map_append, map_cons, map_nil, sum_append, sum_cons, sum_nil, pinned]
    abel

/-- **More hashes** of a request become known. -/
theorem setHashes (h : m.Owns i v held) (hr : m.reqToReplica.lookup r = some i) (new : List H) :
    (m.setHashes r (m.reqToHashes r ++ new)).Owns i v held := by
  -- a block behind the known hashes has one place only
  have hold : ∀ {b k}, m.At i b r k → (m.reqToHashes r).length ≤ k →
      v.hash b = none ∧ ∀ e, ¬ m.Loads i b e := by
    intro b k hat hk
    have hnone : (m.reqToHashes r)[k]? = none := getElem?_eq_none hk
    have hb : v.hash b = none := by
      cases hb : v.hash b with
      | none => rfl
      | some x =>
        have hx := h.named b x _ hb hat.expects
        rw [hnone] at hx
        cases hx
    refine ⟨hb, fun e hload => ?_⟩
    have he := h.agree b _ _ hat.expects (.inr hload)
    obtain ⟨t, hs, k', ht, hhs, hbk, rfl⟩ := hload
    obtain ⟨hlt, -⟩ := List.getElem_of_getElem? hbk
    rw [hnone, eq_comm, getElem?_eq_none_iff, (h.transfers t ht).2 hs hhs] at he
    omega
  have hexp : ∀ {b e}, (m.setHashes r (m.reqToHashes r ++ new)).Expects i b e →
      m.Expects i b e ∨ ∃ k, m.At i b r k ∧ (m.reqToHashes r).length ≤ k ∧
        e = (m.reqToHashes r ++ new)[k]? := by
    rintro b e (⟨r', k, hat, rfl⟩ | hload)
    · by_cases hrr : r' = r
      · subst hrr
        have hself : (m.setHashes r' (m.reqToHashes r' ++ new)).reqToHashes r'
            = m.reqToHashes r' ++ new := update_self ..
        rw [hself]
        by_cases hk : k < (m.reqToHashes r').length
        · rw [getElem?_append_left hk]
          exact .inl (At.expects hat)
        · exact .inr ⟨k, hat, by omega, rfl⟩
      · have hne : (m.setHashes r (m.reqToHashes r ++ new)).reqToHashes r' = m.reqToHashes r' :=
          update_of_ne hrr ..
        rw [hne]
        exact .inl (At.expects hat)
    · exact .inl (.inr hload)
  have hnew : ∀ {b k e}, m.At i b r k → (m.reqToHashes r).length ≤ k →
      (m.setHashes r (m.reqToHashes r ++ new)).Expects i b e →
      e = (m.reqToHashes r ++ new)[k]? := by
    rintro b k e hat hk (⟨r', k', hat', rfl⟩ | hload)
    · obtain ⟨rfl, rfl⟩ := h.unique b _ _ r' k' (hold hat hk).1 hat hat'
      exact congrArg (·[k]?) (update_self ..)
    · exact absurd hload ((hold hat hk).2 e)
  refine { h with agree := ?agree, named := ?named }
  case agree =>
    intro b e₁ e₂ he₁ he₂
    rcases hexp he₁ with hold₁ | ⟨k, hat, hk, rfl⟩
    · rcases hexp he₂ with hold₂ | ⟨k, hat, hk, rfl⟩
      · exact h.agree b e₁ e₂ hold₁ hold₂
      · exact hnew hat hk he₁
    · exact (hnew hat hk he₂).symm
  case named =>
    intro b x e hb he
    rcases hexp he with he | ⟨k, hat, hk, rfl⟩
    · exact h.named b x e hb he
    · rw [(hold hat hk).1] at hb
      cases hb

end Owns

/-! ### What stays the same -/

/-- Nothing changed outside the replica `i` and the requests `S`. -/
structure Frame (i : ℕ) (S : Set R) (m m' : BlockManager H R P) : Prop where
  config : m'.toManagerConfig = m.toManagerConfig
  replicas : m'.reqToReplica = m.reqToReplica
  pools : ∀ j ≠ i, m'.deviceBlockPools j = m.deviceBlockPools j
  transfers : ∀ j ≠ i, m'.pendingTransfers j = m.pendingTransfers j
  offloads : ∀ j ≠ i, m'.pendingOffloads j = m.pendingOffloads j
  blocks : ∀ r ∉ S, m'.reqToBlocks r = m.reqToBlocks r
  hashes : ∀ r ∉ S, m'.reqToHashes r = m.reqToHashes r
  committed : ∀ r ∉ S, m'.reqToCommittedIdx r = m.reqToCommittedIdx r

/-- Nothing changed outside the replica `i`. -/
abbrev Inside (i : ℕ) (m m' : BlockManager H R P) : Prop := Frame i (∅ : Set R) m m'

namespace Frame

variable {m'' : BlockManager H R P} {j : ℕ} {S : Set R}

theorem refl (i : ℕ) (m : BlockManager H R P) : Frame i S m m where
  config := rfl
  replicas := rfl
  pools _ _ := rfl
  transfers _ _ := rfl
  offloads _ _ := rfl
  blocks _ _ := rfl
  hashes _ _ := rfl
  committed _ _ := rfl

theorem trans (h : Frame i S m m') (h' : Frame i S m' m'') : Frame i S m m'' where
  config := h'.config.trans h.config
  replicas := h'.replicas.trans h.replicas
  pools j hj := (h'.pools j hj).trans (h.pools j hj)
  transfers j hj := (h'.transfers j hj).trans (h.transfers j hj)
  offloads j hj := (h'.offloads j hj).trans (h.offloads j hj)
  blocks r hr := (h'.blocks r hr).trans (h.blocks r hr)
  hashes r hr := (h'.hashes r hr).trans (h.hashes r hr)
  committed r hr := (h'.committed r hr).trans (h.committed r hr)

theorem of_inside (h : Inside i m m') : Frame i S m m' :=
  { h with
    blocks := fun r _ => h.blocks r id
    hashes := fun r _ => h.hashes r id
    committed := fun r _ => h.committed r id }

theorem setBlocks (i : ℕ) (r : R) (m : BlockManager H R P) (l : List ℕ) :
    Frame i {r} m (m.setBlocks r l) :=
  { refl i m with blocks := fun _ hr => update_of_ne hr .. }

theorem setHashes (i : ℕ) (r : R) (m : BlockManager H R P) (l : List H) :
    Frame i {r} m (m.setHashes r l) :=
  { refl i m with hashes := fun _ hr => update_of_ne hr .. }

theorem setCommittedIdx (i : ℕ) (r : R) (m : BlockManager H R P) (n : ℕ) :
    Frame i {r} m (m.setCommittedIdx r n) :=
  { refl i m with committed := fun _ hr => update_of_ne hr .. }

theorem setPool (i : ℕ) (m : BlockManager H R P) (p : BlockPool H) : Frame i S m (m.setPool i p) :=
  { refl i m with pools := fun _ hj => update_of_ne hj .. }

theorem setTransfers (i : ℕ) (m : BlockManager H R P) (ts : List (PendingTransfer H P)) :
    Frame i S m (m.setTransfers i ts) :=
  { refl i m with transfers := fun _ hj => update_of_ne hj .. }

theorem setOffloads (i : ℕ) (m : BlockManager H R P) (runs : List (List H)) :
    Frame i S m (m.setOffloads i runs) :=
  { refl i m with offloads := fun _ hj => update_of_ne hj .. }

theorem owned_eq (hf : Frame i S m m') (hS : ∀ r ∈ S, m.reqToReplica.lookup r ≠ some j) :
    m'.owned j = m.owned j := by
  rw [owned, owned, requestsOn, requestsOn, hf.replicas]
  refine Finset.sum_congr rfl fun r hr => ?_
  rw [hf.blocks r fun hrS => hS r hrS (mem_requestsOn.mp hr)]

/-- Another replica, whose requests are not those that changed. -/
theorem owns (hf : Frame i S m m') (hS : ∀ r ∈ S, m.reqToReplica.lookup r ≠ some j) (hj : j ≠ i)
    (h : m.Owns j v held) : m'.Owns j v held := by
  refine h.restrict (hf.pools j hj) hf.config (hf.offloads j hj) (hf.transfers j hj) ?_
    (by rw [hf.owned_eq hS])
  rintro b r k ⟨hr, hb⟩
  rw [hf.replicas] at hr
  have hrS : r ∉ S := fun hrS => hS r hrS hr
  rw [hf.blocks r hrS] at hb
  exact ⟨⟨hr, hb⟩, hf.hashes r hrS⟩

end Frame

end BlockManager
