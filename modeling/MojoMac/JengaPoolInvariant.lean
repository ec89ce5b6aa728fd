/-
The invariant of the pool of huge blocks.

Every huge block is parked, or claimed by one cache that has each of its little blocks there
either in use or in its free queue.

* `Core` — the invariant, while some parked huge blocks may be out of the queue;
* `Settled` — the invariant between operations;
* `claimHugeBlock_spec`, `allocBlock_spec` — claiming a huge block, and allocation.
-/
import MojoMac.JengaBlockPool

open Function StateSpec List

set_option linter.unusedSectionVars false

/-! ### Little and huge blocks -/

namespace JengaGeometry

variable {K : Type} {g : JengaGeometry K}

theorem mem_littleBlocks {c : K} (hc : 0 < g.cacheRatios c) (huge : ℕ) (b : LittleKVCacheBlock K) :
    b ∈ g.littleBlocks huge c ↔ b.cacheId = c ∧ g.hugeBlock b = huge := by
  obtain ⟨c', bid⟩ := b
  simp only [littleBlocks, mem_map, mem_range'_1, LittleKVCacheBlock.mk.injEq, hugeBlock]
  constructor
  · rintro ⟨i, ⟨hle, hlt⟩, rfl, rfl⟩
    refine ⟨rfl, ?_⟩
    rw [Nat.div_eq_iff hc]
    constructor
    · omega
    · omega
  · rintro ⟨rfl, rfl⟩
    refine ⟨bid, ⟨Nat.div_mul_le_self _ _, ?_⟩, rfl, rfl⟩
    exact Nat.lt_div_mul_add hc

theorem nodup_littleBlocks (g : JengaGeometry K) (huge : ℕ) (c : K) :
    (g.littleBlocks huge c).Nodup := by
  refine Nodup.map (fun i j hij => ?_) nodup_range'
  simpa using hij

@[simp] theorem length_littleBlocks (g : JengaGeometry K) (huge : ℕ) (c : K) :
    (g.littleBlocks huge c).length = g.cacheRatios c := by
  simp [littleBlocks]

/-- A block of the pool that can be handed out. -/
structure Real (g : JengaGeometry K) (b : LittleKVCacheBlock K) : Prop where
  cache : b.cacheId ∈ g.cacheIds
  pos : 0 < g.hugeBlock b
  lt : g.hugeBlock b < g.numHugeBlocks

end JengaGeometry

namespace JengaBlockPool

variable {K H : Type} [DecidableEq K] [DecidableEq H]

/-- The prefix caches and the hashes of the blocks say the same. -/
def CachesAgree (caches : K → AList fun _ : H => LittleKVCacheBlock K)
    (hashes : LittleKVCacheBlock K → Option H) : Prop :=
  ∀ c x b, (caches c).lookup x = some b ↔ b.cacheId = c ∧ hashes b = some x

/-- The invariant of a pool with the blocks `little` and `queue` in its queues; the huge blocks
of `parked` are in nobody's hands. -/
structure Core (p : JengaBlockPool K H) (little : K → List (LittleKVCacheBlock K))
    (queue parked : List ℕ) : Prop where
  ratio_pos : ∀ c ∈ p.cacheIds, 0 < p.cacheRatios c
  little_holds : ∀ c, (p.freeLittleBlocks c).Holds (little c)
  queue_holds : p.freeHugeBlocks.Holds queue
  queue_parked : ∀ h ∈ queue, h ∈ parked
  parked_nodup : parked.Nodup
  parked_real : ∀ h ∈ parked, 0 < h ∧ h < p.numHugeBlocks
  nonneg : ∀ b, 0 ≤ p.refCnt b
  mem_little : ∀ c b, b ∈ little c ↔ b.cacheId = c ∧ p.Real b ∧ p.refCnt b = 0 ∧
    p.littleBlockType (p.hugeBlock b) = some c ∧ p.hugeBlock b ∉ parked
  in_use : ∀ b, p.Real b → p.refCnt b ≠ 0 →
    p.littleBlockType (p.hugeBlock b) = some b.cacheId ∧ p.hugeBlock b ∉ parked
  typed : ∀ h, 0 < h → h < p.numHugeBlocks → h ∉ parked → p.littleBlockType h ≠ none
  type_mem : ∀ h c, p.littleBlockType h = some c → c ∈ p.cacheIds
  committed : ∀ b, p.blockHash b ≠ none →
    p.Real b ∧ p.littleBlockType (p.hugeBlock b) = some b.cacheId
  agree : CachesAgree p.prefixCaches p.blockHash

/-! ### Hashes -/

variable {p : JengaBlockPool K H} {b : LittleKVCacheBlock K} {c : K} {x : H}
  {little : K → List (LittleKVCacheBlock K)} {queue parked : List ℕ}
  {caches : K → AList fun _ : H => LittleKVCacheBlock K}
  {hashes : LittleKVCacheBlock K → Option H}

/-- The cache of a block and its hash are replaced. -/
theorem CachesAgree.set (h : CachesAgree caches hashes)
    {cache : AList fun _ : H => LittleKVCacheBlock K} {v : Option H}
    (hown : ∀ y, cache.lookup y = some b ↔ v = some y) (hother : ∀ y b', b' ≠ b →
      (cache.lookup y = some b' ↔ (caches b.cacheId).lookup y = some b')) :
    CachesAgree (update caches b.cacheId cache) (update hashes b v) := by
  intro c y b'
  rw [update_apply, update_apply]
  by_cases hbb : b' = b
  · subst hbb
    rw [if_pos rfl]
    split_ifs with hc
    · rw [hown, and_iff_right hc.symm]
    · rw [h c y b']
      exact ⟨fun hcc => absurd hcc.1.symm hc, fun hcc => absurd hcc.1.symm hc⟩
  · rw [if_neg hbb, ← h c y b']
    split_ifs with hc
    · rw [hc]
      exact hother y b' hbb
    · rfl

theorem CachesAgree.drop (h : CachesAgree caches hashes) (hb : hashes b = some x) :
    CachesAgree (update caches b.cacheId ((caches b.cacheId).erase x)) (update hashes b none) := by
  refine h.set (fun y => ?_) fun y b' hne => ?_ <;> rcases eq_or_ne y x with rfl | hxy
  · simp
  · rw [AList.lookup_erase_ne hxy, h, hb]
    simp [Ne.symm hxy]
  · -- the hash was that of `b` only
    simp [(h b.cacheId y b).mpr ⟨rfl, hb⟩, Ne.symm hne]
  · rw [AList.lookup_erase_ne hxy]

theorem CachesAgree.add (h : CachesAgree caches hashes)
    (hb : hashes b = none) (hx : x ∉ caches b.cacheId) :
    CachesAgree (update caches b.cacheId ((caches b.cacheId).insert x b))
      (update hashes b (some x)) := by
  refine h.set (fun y => ?_) fun y b' hne => ?_ <;> rcases eq_or_ne y x with rfl | hxy
  · simp
  · rw [AList.lookup_insert_ne hxy, h, hb]
    simp [Ne.symm hxy]
  · simp [AList.lookup_eq_none.mpr hx, Ne.symm hne]
  · rw [AList.lookup_insert_ne hxy]

/-- Only hashes were dropped, those of the blocks in `bs`. -/
structure Uncommitted (p p' : JengaBlockPool K H) (bs : List (LittleKVCacheBlock K)) : Prop where
  eq : p' = { p with prefixCaches := p'.prefixCaches, blockHash := p'.blockHash }
  hash : ∀ b, p'.blockHash b = if b ∈ bs then none else p.blockHash b
  agree : CachesAgree p'.prefixCaches p'.blockHash

theorem Uncommitted.refl (h : CachesAgree p.prefixCaches p.blockHash) : Uncommitted p p [] where
  eq := rfl
  hash b := by simp
  agree := h

variable {p' : JengaBlockPool K H} {bs : List (LittleKVCacheBlock K)}

theorem Uncommitted.trans {p p'' : JengaBlockPool K H} {bs' : List (LittleKVCacheBlock K)}
    (h : Uncommitted p p' bs) (h' : Uncommitted p' p'' bs') : Uncommitted p p'' (bs ++ bs') where
  eq := by rw [h'.eq, h.eq]
  hash b := by
    rw [h'.hash, h.hash]
    by_cases hb : b ∈ bs <;> by_cases hb' : b ∈ bs' <;> simp [hb, hb']
  agree := h'.agree

theorem dropHash_spec (h : CachesAgree p.prefixCaches p.blockHash) (hb : p.blockHash b = some x) :
    Returns (dropHash b.cacheId x b) p fun _ p' => Uncommitted p p' [b] := by
  have hmem : x ∈ p.prefixCaches b.cacheId := by
    rw [← AList.lookup_isSome, (h b.cacheId x b).mpr ⟨rfl, hb⟩]
    rfl
  rw [Returns, dropHash]
  simp only [spec_bind, spec_get, hmem, not_true_eq_false, if_false, spec_modify]
  exact ⟨rfl, fun b' => by simp [update_apply], h.drop hb⟩

theorem uncommitBlock_spec (h : CachesAgree p.prefixCaches p.blockHash) (b : LittleKVCacheBlock K) :
    Returns (uncommitBlock b) p fun _ p' => Uncommitted p p' [b] := by
  rw [Returns, uncommitBlock, spec_get_bind]
  cases hb : p.blockHash b with
  | none =>
    refine ⟨rfl, fun b' => ?_, h⟩
    by_cases hbb : b' = b <;> simp [hbb, hb]
  | some x => exact dropHash_spec h hb

theorem forM_uncommitBlock
    (h : CachesAgree p.prefixCaches p.blockHash) (bs : List (LittleKVCacheBlock K)) :
    Returns (bs.forM uncommitBlock) p fun _ p' => Uncommitted p p' bs := by
  refine Spec.forM (I := fun done p' => Uncommitted p p' done) bs (fun done b todo _ p' hp' => ?_)
    (Uncommitted.refl h)
  exact Spec.imp (uncommitBlock_spec hp'.agree b) (fun _ p'' hp'' => hp'.trans hp'')

/-- Blocks that lose their hashes. -/
theorem Core.uncommitted (h : p.Core little queue parked) (hp' : Uncommitted p p' bs) :
    p'.Core little queue parked := by
  have hcommitted : ∀ b, p'.blockHash b ≠ none → p.blockHash b ≠ none := by
    intro b hb
    rw [hp'.hash] at hb
    split at hb
    · exact absurd rfl hb
    · exact hb
  have hagree := hp'.agree
  rw [hp'.eq] at hagree ⊢
  rw [hp'.eq] at hcommitted
  exact { h with
    committed := fun b hb => h.committed b (hcommitted b hb)
    agree := hagree }

/-! ### Loops over the queue of a cache -/

/-- Only the free queue of one cache changed, to the list `l`. -/
def Requeued (p p' : JengaBlockPool K H) (c : K) (l : List (LittleKVCacheBlock K)) : Prop :=
  ∃ q, p' = { p with freeLittleBlocks := Function.update p.freeLittleBlocks c q } ∧ q.Holds l

variable {l : List (LittleKVCacheBlock K)}

theorem Requeued.refl (h : (p.freeLittleBlocks c).Holds l) : Requeued p p c l :=
  ⟨_, by rw [update_eq_self], h⟩

theorem Requeued.holds (h : Requeued p p' c l) : (p'.freeLittleBlocks c).Holds l := by
  obtain ⟨q, rfl, hq⟩ := h
  simpa using hq

variable {l' : List (LittleKVCacheBlock K)}

/-- An operation on the queue of a cache, after others. -/
theorem Requeued.onLittle {α : Type} {m : PyM (FreeKVCacheBlockQueue (LittleKVCacheBlock K)) α}
    {Q : α → Prop} (h : Requeued p p' c l)
    (hm : ∀ q : FreeKVCacheBlockQueue (LittleKVCacheBlock K), q.Holds l →
      Returns m q fun a q' => Q a ∧ q'.Holds l') :
    Returns (onLittle c m) p' fun a p'' => Q a ∧ Requeued p p'' c l' := by
  rw [Returns, JengaBlockPool.onLittle, spec_focus]
  refine Spec.imp (hm _ h.holds) (fun a q' hq' => ⟨hq'.1, q', ?_, hq'.2⟩)
  obtain ⟨q, rfl, -⟩ := h
  simp

theorem Requeued.write
    {m : PyM (FreeKVCacheBlockQueue (LittleKVCacheBlock K)) Unit} (h : Requeued p p' c l)
    (hm : ∀ q : FreeKVCacheBlockQueue (LittleKVCacheBlock K), q.Holds l →
      Returns m q fun _ q' => q'.Holds l') :
    Returns (JengaBlockPool.onLittle c m) p' fun _ p'' => Requeued p p'' c l' :=
  Returns.mono (h.onLittle (Q := fun _ => True) fun q hq =>
    (hm q hq).mono fun _ _ hq' => ⟨trivial, hq'⟩) fun _ _ hp'' => hp''.2

theorem forM_append (h : (p.freeLittleBlocks c).Holds l) (hbs : (l ++ bs).Nodup) :
    Returns (bs.forM fun b => onLittle c (FreeKVCacheBlockQueue.append b)) p
      fun _ p' => Requeued p p' c (l ++ bs) := by
  refine Spec.forM (I := fun done p' => Requeued p p' c (l ++ done)) bs ?_ ?_
  · rintro done b todo rfl p' hp'
    have hb : b ∉ l ++ done := by
      rw [append_cons, ← append_assoc, ← append_assoc] at hbs
      simpa using (nodup_append'.mp (nodup_append'.mp hbs).1).2.2
    rw [← append_assoc]
    exact hp'.write fun q hq => hq.append hb
  · rw [append_nil]
    exact .refl h

theorem forM_remove (h : (p.freeLittleBlocks c).Holds l) (hbs : bs.Nodup) (hsub : ∀ b ∈ bs, b ∈ l) :
    Returns (bs.forM fun b => onLittle c (FreeKVCacheBlockQueue.remove b)) p
      fun _ p' => Requeued p p' c (l.diff bs) := by
  refine Spec.forM (I := fun done p' => Requeued p p' c (l.diff done)) bs ?_ ?_
  · rintro done b todo rfl p' hp'
    have hb : b ∈ l.diff done := by
      exact (h.nodup.mem_sdiff_iff).mpr ⟨hsub b (by simp), not_mem_done hbs rfl⟩
    rw [diff_append, diff_cons, diff_nil]
    exact hp'.write fun q hq => hq.remove hb
  · exact .refl h

/-! ### Claiming a huge block -/

section Claim

variable {huge : ℕ}

section

variable (h : p.Core little queue parked)

include h

theorem Core.real_of_mem (hh : huge ∈ parked) (hc : c ∈ p.cacheIds)
    (hb : b ∈ p.littleBlocks huge c) : p.Real b ∧ p.hugeBlock b = huge := by
  obtain ⟨rfl, rfl⟩ := (JengaGeometry.mem_littleBlocks (h.ratio_pos c hc) huge b).mp hb
  obtain ⟨hpos, hlt⟩ := h.parked_real _ hh
  exact ⟨⟨hc, hpos, hlt⟩, rfl⟩

/-- No block of a parked huge block is in use. -/
theorem Core.refCnt_parked (hb : p.Real b) (hh : p.hugeBlock b ∈ parked) : p.refCnt b = 0 := by
  by_contra hne
  exact (h.in_use b hb hne).2 hh

theorem Core.hugeRefCnt_parked (hh : huge ∈ parked) : p.hugeRefCnt huge = 0 := by
  rw [hugeRefCnt]
  cases htype : p.littleBlockType huge with
  | none => rfl
  | some c =>
    refine sum_eq_zero fun n hn => ?_
    obtain ⟨b, hb, rfl⟩ := mem_map.mp hn
    obtain ⟨hreal, hhuge⟩ := h.real_of_mem hh (h.type_mem huge c htype) hb
    exact h.refCnt_parked hreal (hhuge ▸ hh)

/-- What claiming a huge block for a cache changes. -/
structure Claimed (p p' : JengaBlockPool K H) (huge : ℕ) (c : K) : Prop where
  geometry : p'.toJengaGeometry = p.toJengaGeometry
  refCnt : p'.refCnt = p.refCnt
  type : p'.littleBlockType = Function.update p.littleBlockType huge (some c)
  /-- No hash is dropped if the huge block was of this cache before. -/
  kept : p.littleBlockType huge = some c →
    p'.blockHash = p.blockHash ∧ p'.prefixCaches = p.prefixCaches

/-- A claimed huge block is in no queue of huge blocks. -/
theorem unqueueHuge_spec (huge : ℕ) : Returns (unqueueHuge huge) p fun _ p' =>
      (∃ q, p' = { p with freeHugeBlocks := q }) ∧ p'.freeHugeBlocks.Holds (queue.erase huge) := by
  rw [Returns, unqueueHuge]
  simp only [spec_bind, spec_get, h.queue_holds.mem]
  split_ifs with hmem
  · rw [onHuge, spec_focus]
    exact Spec.imp (h.queue_holds.remove hmem) (fun _ q hq => ⟨⟨q, rfl⟩, hq⟩)
  · rw [erase_of_not_mem hmem]
    exact ⟨⟨_, rfl⟩, h.queue_holds⟩

end

theorem evictOther_spec (h : CachesAgree p.prefixCaches p.blockHash) (huge : ℕ) (c : K) :
    Returns (evictOther huge c) p fun _ p' => ∃ bs, Uncommitted p p' bs ∧
      (∀ prev, p.littleBlockType huge = some prev → prev ≠ c → p.littleBlocks huge prev ⊆ bs) ∧
      (p.littleBlockType huge = some c → p' = p) := by
  rw [Returns, evictOther, spec_get_bind]
  cases htype : p.littleBlockType huge with
  | none =>
    refine ⟨[], .refl h, ?_, fun _ => rfl⟩
    rintro prev ⟨⟩
  | some prev =>
    by_cases hprev : prev = c
    · subst hprev
      simp only [ne_eq, not_true_eq_false, if_false, spec_pure]
      refine ⟨[], .refl h, ?_, fun _ => trivial⟩
      rintro prev' ⟨⟩ hne
      exact absurd rfl hne
    · simp only [ne_eq, hprev, not_false_eq_true, if_true, spec_bind, spec_get]
      refine Spec.imp (forM_uncommitBlock h (p.littleBlocks huge prev)) (fun _ p' hp' => ?_)
      refine ⟨_, hp', ?_, ?_⟩
      · rintro prev' ⟨⟩ -
        exact Subset.refl _
      · rintro ⟨⟩
        exact absurd rfl hprev

theorem circulate_spec (huge : ℕ) (h : (p.freeLittleBlocks c).Holds l)
    (hnodup : (l ++ p.littleBlocks huge c).Nodup) : Returns (circulate huge c) p fun _ p' =>
      Requeued { p with littleBlockType := update p.littleBlockType huge (some c) } p' c
        (l ++ p.littleBlocks huge c) := by
  rw [Returns, circulate]
  simp only [spec_bind, spec_get, spec_modify]
  exact forM_append h hnodup

variable (h : p.Core little queue parked)

include h

/-- The blocks of a parked huge block are in no queue. -/
theorem Core.nodup_append_littleBlocks (hh : huge ∈ parked)
    (hc : c ∈ p.cacheIds) : (little c ++ p.littleBlocks huge c).Nodup := by
  rw [nodup_append']
  refine ⟨(h.little_holds c).nodup, JengaGeometry.nodup_littleBlocks _ _ _, fun b hb hb' => ?_⟩
  obtain ⟨-, -, -, -, hnot⟩ := (h.mem_little c b).mp hb
  exact hnot ((h.real_of_mem hh hc hb').2 ▸ hh)

/-- The invariant after a huge block was claimed. -/
theorem Core.claim (hh : huge ∈ parked) (hc : c ∈ p.cacheIds)
    (hp' : Claimed p p' huge c) (hqueue : p'.freeHugeBlocks.Holds (queue.erase huge))
    (hlittle : ∀ c', (p'.freeLittleBlocks c').Holds
      (update little c (little c ++ p.littleBlocks huge c) c'))
    (hhash : ∀ b, p'.blockHash b ≠ none →
      p.blockHash b ≠ none ∧ (p.hugeBlock b = huge → b.cacheId = c))
    (hagree : CachesAgree p'.prefixCaches p'.blockHash) :
    p'.Core (update little c (little c ++ p.littleBlocks huge c)) (queue.erase huge)
      (parked.erase huge) := by
  have herase : ∀ g, g ∈ parked.erase huge ↔ g ≠ huge ∧ g ∈ parked := fun g =>
    h.parked_nodup.mem_erase_iff
  have htype : ∀ g, p'.littleBlockType g = if g = huge then some c else p.littleBlockType g := by
    intro g
    rw [hp'.type, update_apply]
  constructor
  case ratio_pos =>
    rw [hp'.geometry]
    exact h.ratio_pos
  case little_holds => exact hlittle
  case queue_holds => exact hqueue
  case queue_parked =>
    intro g hg
    obtain ⟨hne, hg⟩ := h.queue_holds.nodup.mem_erase_iff.mp hg
    exact (herase g).mpr ⟨hne, h.queue_parked g hg⟩
  case parked_nodup => exact h.parked_nodup.erase huge
  case parked_real =>
    intro g hg
    rw [hp'.geometry]
    exact h.parked_real g ((herase g).mp hg).2
  case nonneg =>
    rw [hp'.refCnt]
    exact h.nonneg
  case mem_little =>
    intro c' b
    rw [hp'.geometry, hp'.refCnt, htype, herase, update_apply]
    by_cases hb : p.hugeBlock b = huge
    · -- a block of the huge block was in no queue, and is in that of `c` now
      have hold : ∀ c', b ∉ little c' := fun c' hmem =>
        ((h.mem_little c' b).mp hmem).2.2.2.2 (hb ▸ hh)
      by_cases hcc : c' = c
      · subst hcc
        rw [if_pos rfl, if_pos hb, mem_append, JengaGeometry.mem_littleBlocks (h.ratio_pos c' hc)]
        constructor
        · rintro (hmem | ⟨hcache, -⟩)
          · exact absurd hmem (hold c')
          · have hreal : p.Real b := ⟨hcache ▸ hc, hb ▸ (h.parked_real huge hh).1,
              hb ▸ (h.parked_real huge hh).2⟩
            exact ⟨hcache, hreal, h.refCnt_parked hreal (hb ▸ hh), rfl, fun hne => hne.1 hb⟩
        · rintro ⟨hcache, -⟩
          exact Or.inr ⟨hcache, hb⟩
      · rw [if_neg hcc, if_pos hb]
        constructor
        · exact fun hmem => absurd hmem (hold c')
        · rintro ⟨-, -, -, htype', -⟩
          exact absurd (Option.some_inj.mp htype').symm hcc
    · have hnot : b ∉ p.littleBlocks huge c := fun hmem => hb (h.real_of_mem hh hc hmem).2
      rw [if_neg hb]
      by_cases hcc : c' = c
      · subst hcc
        rw [if_pos rfl, mem_append, h.mem_little]
        simp [hnot, hb]
      · rw [if_neg hcc, h.mem_little]
        simp [hb]
  case in_use =>
    intro b hb hne
    rw [hp'.geometry] at hb ⊢
    rw [hp'.refCnt] at hne
    obtain ⟨htype', hnot⟩ := h.in_use b hb hne
    have hne : p.hugeBlock b ≠ huge := fun heq => hnot (heq ▸ hh)
    rw [htype, if_neg hne, herase]
    exact ⟨htype', fun hmem => hnot hmem.2⟩
  case typed =>
    intro g hpos hlt hnot
    rw [hp'.geometry] at hlt
    rw [htype]
    split_ifs with hne
    · exact Option.some_ne_none c
    · exact h.typed g hpos hlt fun hg => hnot ((herase g).mpr ⟨hne, hg⟩)
  case type_mem =>
    intro g c' hg
    rw [hp'.geometry]
    rw [htype] at hg
    split at hg
    · cases hg
      exact hc
    · exact h.type_mem g c' hg
  case committed =>
    intro b hb
    obtain ⟨hb, hsame⟩ := hhash b hb
    obtain ⟨hreal, htype'⟩ := h.committed b hb
    rw [hp'.geometry, htype]
    refine ⟨hreal, ?_⟩
    split_ifs with heq
    · rw [hsame heq]
    · exact htype'
  case agree => exact hagree

theorem claimHugeBlock_spec (hh : huge ∈ parked) (hc : c ∈ p.cacheIds) :
    Returns (claimHugeBlock huge c) p fun _ p' =>
      p'.Core (update little c (little c ++ p.littleBlocks huge c)) (queue.erase huge)
        (parked.erase huge) ∧ Claimed p p' huge c := by
  rw [Returns, claimHugeBlock]
  simp only [spec_bind, spec_get, h.hugeRefCnt_parked hh, ne_eq, not_true_eq_false, if_false]
  refine Spec.imp (unqueueHuge_spec h huge) ?_
  rintro - p₁ ⟨⟨q, rfl⟩, hqueue⟩
  refine Spec.imp (evictOther_spec (p := { p with freeHugeBlocks := q }) h.agree huge c) ?_
  rintro - p₂ ⟨bs, hp₂, hevict, hkept⟩
  have hlittle : (p₂.freeLittleBlocks c).Holds (little c) := by
    rw [hp₂.eq]
    exact h.little_holds c
  have hgeometry : p₂.toJengaGeometry = p.toJengaGeometry := by rw [hp₂.eq]
  have hnodup : (little c ++ p₂.littleBlocks huge c).Nodup := by
    rw [hgeometry]
    exact h.nodup_append_littleBlocks hh hc
  refine Spec.imp (circulate_spec huge hlittle hnodup) ?_
  rintro - p₃ ⟨q', rfl, hq'⟩
  rw [hgeometry] at hq'
  have hclaimed : Claimed p { p₂ with
      littleBlockType := update p₂.littleBlockType huge (some c)
      freeLittleBlocks := update p₂.freeLittleBlocks c q' } huge c := by
    refine ⟨hgeometry, ?_, ?_, fun hsame => ?_⟩
    · rw [hp₂.eq]
    · rw [hp₂.eq]
    · rw [hkept hsame]
      exact ⟨rfl, rfl⟩
  refine ⟨h.claim hh hc hclaimed ?_ ?_ ?_ hp₂.agree, hclaimed⟩
  · change p₂.freeHugeBlocks.Holds (queue.erase huge)
    rw [hp₂.eq]
    exact hqueue
  · intro c'
    by_cases hcc : c' = c
    · subst hcc
      simpa using hq'
    · have hsame : p₂.freeLittleBlocks = p.freeLittleBlocks := by rw [hp₂.eq]
      simpa [hcc, hsame] using h.little_holds c'
  intro b hb
  have hb' : p₂.blockHash b ≠ none := hb
  rw [hp₂.hash] at hb'
  split at hb'
  · exact absurd rfl hb'
  rename_i hnot
  refine ⟨hb', fun heq => ?_⟩
  by_contra hne
  obtain ⟨hreal, htype⟩ := h.committed b hb'
  rw [heq] at htype
  refine hnot (hevict b.cacheId htype hne ?_)
  exact (JengaGeometry.mem_littleBlocks (h.ratio_pos _ hreal.cache) huge b).mpr ⟨rfl, heq⟩

end Claim

/-! ### Reference counts -/

section RefCnt

/-- A block with `n` references is in the queue `l` of its cache just when `n = 0`. -/
def requeue (p : JengaBlockPool K H) (b : LittleKVCacheBlock K) (n : ℤ)
    (q : FreeKVCacheBlockQueue (LittleKVCacheBlock K)) : JengaBlockPool K H :=
  { p with
    refCnt := Function.update p.refCnt b n
    freeLittleBlocks := Function.update p.freeLittleBlocks b.cacheId q }

/-- A block of a claimed huge block gets another reference count. -/
theorem Core.requeue (h : p.Core little queue parked) {n : ℤ} (hreal : p.Real b) (hn : 0 ≤ n)
    (htype : p.littleBlockType (p.hugeBlock b) = some b.cacheId)
    (hparked : p.hugeBlock b ∉ parked) {q : FreeKVCacheBlockQueue (LittleKVCacheBlock K)}
    (hq : q.Holds l) (hl : ∀ b', b' ∈ l ↔ if b' = b then n = 0 else b' ∈ little b.cacheId) :
    (p.requeue b n q).Core (update little b.cacheId l) queue parked := by
  refine { h with little_holds := fun c => ?_, nonneg := fun b' => ?_, in_use := ?_, mem_little := ?_ }
  · by_cases hc : c = b.cacheId
    · subst hc
      simpa [JengaBlockPool.requeue] using hq
    · simpa [JengaBlockPool.requeue, hc] using h.little_holds c
  · by_cases hb : b' = b
    · simpa [JengaBlockPool.requeue, hb] using hn
    · simpa [JengaBlockPool.requeue, hb] using h.nonneg b'
  · intro c b'
    change b' ∈ update little b.cacheId l c ↔ b'.cacheId = c ∧ p.Real b' ∧
      update p.refCnt b n b' = 0 ∧ p.littleBlockType (p.hugeBlock b') = some c ∧
        p.hugeBlock b' ∉ parked
    rw [update_apply, update_apply]
    by_cases hb : b' = b
    · subst hb
      rw [if_pos rfl]
      split_ifs with hc
      · subst hc
        rw [hl, if_pos rfl]
        exact ⟨fun hn => ⟨rfl, hreal, hn, htype, hparked⟩, fun hb => hb.2.2.1⟩
      · rw [h.mem_little]
        exact ⟨fun hb => absurd hb.1.symm hc, fun hb => absurd hb.1.symm hc⟩
    · rw [if_neg hb]
      split_ifs with hc
      · subst hc
        rw [hl, if_neg hb, h.mem_little]
      · rw [h.mem_little]
  · intro b' hreal' hne
    by_cases hb : b' = b
    · subst hb
      exact ⟨htype, hparked⟩
    · refine h.in_use b' hreal' ?_
      simpa [JengaBlockPool.requeue, hb] using hne

/-- Every claimed huge block but `g` has a block in use. -/
def BusyBut (p : JengaBlockPool K H) (parked : List ℕ) (g : Option ℕ) : Prop :=
  ∀ h, 0 < h → h < p.numHugeBlocks → h ∉ parked → g ≠ some h →
    ∃ b, p.Real b ∧ p.hugeBlock b = h ∧ p.refCnt b ≠ 0

/-- The invariant between operations. -/
structure Settled (p : JengaBlockPool K H) (little : K → List (LittleKVCacheBlock K))
    (huge : List ℕ) : Prop where
  core : p.Core little huge huge
  busy : p.BusyBut huge none

def Inv (p : JengaBlockPool K H) : Prop := ∃ little huge, p.Settled little huge

theorem BusyBut.requeue {g : Option ℕ} (h : p.BusyBut parked g) (hreal : p.Real b) {n : ℤ}
    (hn : n ≠ 0) (hg : g = none ∨ g = some (p.hugeBlock b))
    (q : FreeKVCacheBlockQueue (LittleKVCacheBlock K)) : (p.requeue b n q).BusyBut parked none := by
  intro a hpos hlt hnot _
  by_cases ha : p.hugeBlock b = a
  · exact ⟨b, hreal, ha, by simpa [JengaBlockPool.requeue] using hn⟩
  have hne : g ≠ some a := by
    rcases hg with rfl | rfl
    · simp
    · simpa using ha
  obtain ⟨b', hreal', hb', href⟩ := h a hpos hlt hnot hne
  refine ⟨b', hreal', hb', ?_⟩
  by_cases hbb : b' = b
  · simpa [JengaBlockPool.requeue, hbb] using hn
  · simpa [JengaBlockPool.requeue, hbb] using href

end RefCnt

/-! ### Allocation -/

section Alloc

variable [ToString K]

theorem Core.numFreeBlocks_eq (h : p.Core little queue parked) (c : K) :
    p.numFreeBlocks c = queue.length * p.cacheRatios c + (little c).length := by
  rw [numFreeBlocks, h.queue_holds.num, (h.little_holds c).num]

variable (h : p.Settled little huge)

include h

/-- A cache with no free block left raises an error if there is no huge block either. -/
theorem claimIfNoneFree_error (hlittle : little c = []) (hhuge : huge = []) :
    Raises (claimIfNoneFree c) p fun e p' =>
      e = .insufficientBlocksError s!"No free blocks available for {c}" ∧ p' = p := by
  have hnum := (h.core.little_holds c).num
  have hnum' := h.core.queue_holds.num
  rw [hlittle] at hnum
  rw [hhuge] at hnum'
  rw [Raises, claimIfNoneFree]
  simp [hnum, hnum']

/-- What is true of the free blocks of a cache that is about to hand out a block. -/
structure CanServe (p p' : JengaBlockPool K H) (c : K)
    (little : K → List (LittleKVCacheBlock K)) (huge : List ℕ) (b : LittleKVCacheBlock K)
    (l : List (LittleKVCacheBlock K)) : Prop where
  core : p'.Core little huge huge
  first : little c = b :: l
  busy : p'.BusyBut huge (some (p'.hugeBlock b))
  geometry : p'.toJengaGeometry = p.toJengaGeometry
  refCnt : p'.refCnt = p.refCnt
  num : p'.numFreeBlocks c = p.numFreeBlocks c

theorem claimIfNoneFree_spec (hc : c ∈ p.cacheIds) (hfree : little c ≠ [] ∨ huge ≠ []) :
    Returns (claimIfNoneFree c) p fun _ p' =>
      ∃ little' huge' b l, CanServe p p' c little' huge' b l := by
  have hnum := (h.core.little_holds c).num
  rw [Returns, claimIfNoneFree, spec_get_bind]
  cases hlittle : little c with
  | cons b l =>
    rw [if_neg (by rw [hnum, hlittle]; simp; omega)]
    refine ⟨little, huge, b, l, h.core, hlittle, ?_, rfl, rfl, rfl⟩
    exact fun a hpos hlt hnot _ => h.busy a hpos hlt hnot (by simp)
  | nil =>
    obtain ⟨g, rest, rfl⟩ := exists_cons_of_ne_nil (hfree.resolve_left (by simp [hlittle]))
    have hnum' := h.core.queue_holds.num
    rw [if_pos (by rw [hnum, hlittle]; rfl), spec_bind, spec_get,
      if_neg (by rw [hnum']; simp; omega)]
    have hpop : Returns (onHuge FreeKVCacheBlockQueue.popleft) p fun a p₁ =>
        a = g ∧ ∃ q, p₁ = { p with freeHugeBlocks := q } ∧ q.Holds rest := by
      rw [Returns, onHuge, spec_focus]
      exact Spec.imp h.core.queue_holds.popleft (fun _ q hq => ⟨hq.1, q, rfl, hq.2⟩)
    refine Spec.bind hpop ?_
    rintro _ _ ⟨rfl, q, rfl, hq⟩
    rename_i g
    -- the first huge block is out of the queue, and in nobody's hands
    have hcore : ({ p with freeHugeBlocks := q } : JengaBlockPool K H).Core little rest
        (g :: rest) := { h.core with
        queue_holds := hq
        queue_parked := fun a ha => mem_cons_of_mem _ ha }
    refine Spec.imp (claimHugeBlock_spec hcore mem_cons_self hc) ?_
    rintro - p₂ ⟨hcore₂, hclaimed⟩
    have hg : g ∉ rest := (nodup_cons.mp h.core.queue_holds.nodup).1
    rw [erase_of_not_mem hg, erase_cons_head] at hcore₂
    have hpos := h.core.ratio_pos c hc
    have hlen : (p.littleBlocks g c).length = p.cacheRatios c := by simp
    obtain ⟨b, l, hbl⟩ := exists_cons_of_length_pos (hlen ▸ hpos)
    have hb : p.hugeBlock b = g := ((JengaGeometry.mem_littleBlocks hpos g b).mp
      (hbl ▸ mem_cons_self)).2
    refine ⟨_, rest, b, l, hcore₂, ?_, ?_, hclaimed.geometry, hclaimed.refCnt, ?_⟩
    · simp [hlittle, hbl]
    · intro a hpos hlt hnot hne
      rw [hclaimed.geometry, hb] at hne
      rw [hclaimed.geometry] at hlt
      obtain ⟨b', hreal, hb', href⟩ := h.busy a hpos hlt
        (fun ha => (mem_cons.mp ha).elim (fun heq => hne (by rw [heq])) hnot) (by simp)
      rw [hclaimed.geometry, hclaimed.refCnt]
      exact ⟨b', hreal, hb', href⟩
    · rw [hcore₂.numFreeBlocks_eq, h.core.numFreeBlocks_eq, hclaimed.geometry, hlittle]
      simp
      ring

/-- A cache with no free bytes raises an error and leaves the pool as it was. -/
theorem allocBlock_error (hc : c ∈ p.cacheIds) (hnum : p.numFreeBlocks c = 0) :
    Raises (allocBlock c) p fun e p' =>
      e = .insufficientBlocksError s!"No free blocks available for {c}" ∧ p' = p := by
  have hpos := h.core.ratio_pos c hc
  rw [h.core.numFreeBlocks_eq] at hnum
  have hlittle : little c = [] := by
    rw [← length_eq_zero_iff]
    have := Int.natCast_nonneg (huge.length * p.cacheRatios c)
    push_cast at this
    omega
  have hhuge : huge = [] := by
    rw [hlittle] at hnum
    simpa [hpos.ne'] using hnum
  rw [Raises, allocBlock]
  simp only [spec_bind, spec_get, hc, not_true_eq_false, if_false]
  exact Spec.imp (claimIfNoneFree_error h hlittle hhuge) (fun _ _ hf => hf.elim)

/-- What an allocation changes. -/
structure Allocated (p p' : JengaBlockPool K H) (c : K) (b : LittleKVCacheBlock K) : Prop where
  settled : ∃ little huge, p'.Settled little huge
  geometry : p'.toJengaGeometry = p.toJengaGeometry
  cache : b.cacheId = c
  real : p.Real b
  unused : p.refCnt b = 0
  refCnt : p'.refCnt = Function.update p.refCnt b 1
  num : p'.numFreeBlocks c = p.numFreeBlocks c - 1

/-- **Allocation** hands out a block that nobody uses. -/
theorem allocBlock_spec (hc : c ∈ p.cacheIds) (hnum : p.numFreeBlocks c ≠ 0) :
    Returns (allocBlock c) p fun b p' => Allocated p p' c b := by
  rw [h.core.numFreeBlocks_eq] at hnum
  have hfree : little c ≠ [] ∨ huge ≠ [] := by
    by_contra hnone
    rw [not_or, not_not, not_not] at hnone
    rw [hnone.1, hnone.2] at hnum
    exact hnum (by simp)
  rw [Returns, allocBlock]
  simp only [spec_bind, spec_get, hc, not_true_eq_false, if_false, spec_modify, spec_pure]
  refine Spec.imp (claimIfNoneFree_spec h hc hfree) ?_
  rintro - p₁ ⟨little₁, huge₁, b, l, h₁⟩
  have hmem : b ∈ little₁ c := h₁.first ▸ mem_cons_self
  obtain ⟨hcache, hreal, hunused, htype, hparked⟩ := (h₁.core.mem_little c b).mp hmem
  subst hcache
  have hpop : Returns (onLittle b.cacheId FreeKVCacheBlockQueue.popleft) p₁ fun a p₂ =>
      a = b ∧ Requeued p₁ p₂ b.cacheId l :=
    (Requeued.refl (h₁.core.little_holds b.cacheId)).onLittle fun q hq =>
      (show q.Holds (b :: l) from h₁.first ▸ hq).popleft
  refine Spec.imp hpop ?_
  rintro _ _ ⟨rfl, q, rfl, hq⟩
  rename_i b
  refine Spec.imp (uncommitBlock_spec (p := { p₁ with
    freeLittleBlocks := update p₁.freeLittleBlocks b.cacheId q }) h₁.core.agree b) ?_
  rintro - p₃ hp₃
  -- dropping the hash and leaving the queue commute
  have huncommitted : Uncommitted p₁
      { p₁ with prefixCaches := p₃.prefixCaches, blockHash := p₃.blockHash } [b] :=
    ⟨rfl, hp₃.hash, hp₃.agree⟩
  have hnot : b ∉ l := by
    have hnodup := (h₁.core.little_holds b.cacheId).nodup
    rw [h₁.first] at hnodup
    exact (nodup_cons.mp hnodup).1
  have hcore := (h₁.core.uncommitted huncommitted).requeue hreal Int.one_nonneg htype hparked hq
    (fun b' => by
      rw [h₁.first]
      by_cases hb : b' = b
      · simp [hb, hnot]
      · simp [hb])
  have heq : p₃.setRefCnt b (p₃.refCnt b + 1) = requeue
      { p₁ with prefixCaches := p₃.prefixCaches, blockHash := p₃.blockHash } b 1 q := by
    have href : p₃.refCnt b = 0 := by
      rw [hp₃.eq]
      exact hunused
    rw [href, hp₃.eq]
    rfl
  have hbusy : (requeue { p₁ with prefixCaches := p₃.prefixCaches, blockHash := p₃.blockHash }
      b 1 q).BusyBut huge₁ none := BusyBut.requeue h₁.busy hreal one_ne_zero (Or.inr rfl) q
  rw [heq]
  refine ⟨⟨_, _, hcore, hbusy⟩, h₁.geometry, rfl, h₁.geometry ▸ hreal, h₁.refCnt ▸ hunused, ?_, ?_⟩
  · rw [← h₁.refCnt]
    rfl
  · rw [hcore.numFreeBlocks_eq, ← h₁.num, h₁.core.numFreeBlocks_eq, h₁.first]
    simp [requeue]
    ring

end Alloc

end JengaBlockPool
