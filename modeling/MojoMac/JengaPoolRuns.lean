/-
References to the blocks of the pool, and its runs.

* `touch_spec`, `freeBlock_spec` — taking and dropping a reference;
* `Reachable` — the states that the pool comes to;
* `Reachable.consistent` — every huge block is parked or claimed by one cache, blocks in use never
  share bytes across caches, and `numFreeBlocks` is the number of allocations that succeed.
-/
import MojoMac.JengaPoolInvariant

open Function StateSpec List

set_option linter.unusedSectionVars false

namespace JengaBlockPool

variable {K H : Type} [DecidableEq K] [DecidableEq H] {p : JengaBlockPool K H}
  {little : K → List (LittleKVCacheBlock K)} {huge : List ℕ} {b : LittleKVCacheBlock K}

/-! ### Taking a reference -/

/-- Nothing changed but queues, and the references, to `refCnt`. -/
structure Counted (p p' : JengaBlockPool K H) (refCnt : LittleKVCacheBlock K → ℤ) : Prop where
  geometry : p'.toJengaGeometry = p.toJengaGeometry
  refCnt : p'.refCnt = refCnt
  hash : p'.blockHash = p.blockHash
  caches : p'.prefixCaches = p.prefixCaches

theorem setRefCnt_eq (p : JengaBlockPool K H) (b : LittleKVCacheBlock K) (n : ℤ) :
    p.setRefCnt b n = p.requeue b n (p.freeLittleBlocks b.cacheId) := by
  rw [setRefCnt, requeue, update_eq_self]

/-- A block in use gets another positive reference count. -/
theorem Settled.setRefCnt (h : p.Settled little huge) (hreal : p.Real b) (href : p.refCnt b ≠ 0)
    {n : ℤ} (hn : 0 < n) :
    (p.setRefCnt b n).Settled (update little b.cacheId (little b.cacheId)) huge := by
  obtain ⟨htype, hparked⟩ := h.core.in_use b hreal href
  rw [setRefCnt_eq]
  refine ⟨h.core.requeue hreal hn.le htype hparked (h.core.little_holds _) fun b' => ?_,
    BusyBut.requeue h.busy hreal hn.ne' (Or.inl rfl) _⟩
  split_ifs with hb
  · subst hb
    rw [h.core.mem_little]
    exact ⟨fun hmem => absurd hmem.2.2.1 href, fun hzero => absurd hzero hn.ne'⟩
  · rfl

/-- The pool when a block is the next to leave the queue of its cache. -/
structure Queued (p p₁ : JengaBlockPool K H) (b : LittleKVCacheBlock K)
    (little : K → List (LittleKVCacheBlock K)) (huge : List ℕ) : Prop
    extends Counted p p₁ p.refCnt where
  core : p₁.Core little huge huge
  busy : p₁.BusyBut huge (some (p₁.hugeBlock b))
  mem : b ∈ little b.cacheId

theorem Queued.remove {p₁ : JengaBlockPool K H} (h : Queued p p₁ b little huge) :
    Returns (onLittle b.cacheId (FreeKVCacheBlockQueue.remove b)) p₁ fun _ p' =>
      Requeued p₁ p' b.cacheId ((little b.cacheId).erase b) :=
  (Requeued.refl (h.core.little_holds b.cacheId)).write fun _ hq => hq.remove h.mem

/-- An unreferenced block comes out of the queue of its cache, with its huge block claimed. -/
theorem revive_spec (h : p.Settled little huge) (hreal : p.Real b) (href : p.refCnt b = 0)
    (htype : p.littleBlockType (p.hugeBlock b) = some b.cacheId) :
    Returns (revive b) p fun _ p' => ∃ p₁ little₁ huge₁, Queued p p₁ b little₁ huge₁ ∧
      Requeued p₁ p' b.cacheId ((little₁ b.cacheId).erase b) := by
  rw [Returns, revive]
  simp only [spec_bind, spec_get, href, if_true, h.core.queue_holds.mem]
  by_cases hparked : p.hugeBlock b ∈ huge
  · rw [if_pos hparked, spec_bind]
    refine Spec.imp (claimHugeBlock_spec h.core hparked hreal.cache) ?_
    rintro - p₁ ⟨hcore, hclaimed⟩
    obtain ⟨hhash, hcaches⟩ := hclaimed.kept htype
    have hqueued : Queued p p₁ b (update little b.cacheId
        (little b.cacheId ++ p.littleBlocks (p.hugeBlock b) b.cacheId))
        (huge.erase (p.hugeBlock b)) := by
      refine ⟨⟨hclaimed.geometry, hclaimed.refCnt, hhash, hcaches⟩, hcore, ?_, ?_⟩
      · intro a hpos hlt hnot hne
        rw [hclaimed.geometry] at hlt hne
        rw [hclaimed.geometry, hclaimed.refCnt]
        refine h.busy a hpos hlt (fun ha => hnot ?_) (by simp)
        exact h.core.parked_nodup.mem_erase_iff.mpr ⟨fun heq => hne (by rw [heq]), ha⟩
      · rw [update_self, mem_append]
        exact Or.inr ((JengaGeometry.mem_littleBlocks (h.core.ratio_pos _ hreal.cache) _ b).mpr
          ⟨rfl, rfl⟩)
    exact Spec.imp hqueued.remove (fun _ p' hp' => ⟨p₁, _, _, hqueued, hp'⟩)
  · rw [if_neg hparked]
    have hqueued : Queued p p b little huge := by
      refine ⟨⟨rfl, rfl, rfl, rfl⟩, h.core, ?_, ?_⟩
      · exact fun a hpos hlt hnot _ => h.busy a hpos hlt hnot (by simp)
      · exact (h.core.mem_little _ b).mpr ⟨rfl, hreal, href, htype, hparked⟩
    exact Spec.imp hqueued.remove (fun _ p' hp' => ⟨p, _, _, hqueued, hp'⟩)

/-- **Taking a reference** on a block of the cache that its huge block serves: nothing is
evicted. -/
theorem touch_spec (h : p.Settled little huge) (hreal : p.Real b)
    (htype : p.littleBlockType (p.hugeBlock b) = some b.cacheId) :
    Returns (touch b) p fun _ p' => p'.Inv ∧ Counted p p' (update p.refCnt b (p.refCnt b + 1)) := by
  rw [Returns, touch]
  simp only [spec_bind, spec_get, htype, ne_eq, not_true_eq_false, if_false, spec_modify]
  by_cases href : p.refCnt b = 0
  · refine Spec.imp (revive_spec h hreal href htype) ?_
    rintro - _ ⟨p₁, little₁, huge₁, hqueued, q, rfl, hq⟩
    obtain ⟨-, hreal₁, href₁, htype₁, hparked₁⟩ := (hqueued.core.mem_little _ b).mp hqueued.mem
    have hpos : (0 : ℤ) < p₁.refCnt b + 1 := by omega
    have hcore := hqueued.core.requeue hreal₁ hpos.le htype₁ hparked₁ hq (fun b' => by
      rw [(hqueued.core.little_holds b.cacheId).nodup.mem_erase_iff]
      by_cases hb : b' = b
      · simp [hb, hpos.ne']
      · simp [hb])
    have hbusy := hqueued.busy.requeue hreal₁ hpos.ne' (Or.inr rfl) q
    refine ⟨⟨_, _, hcore, hbusy⟩, hqueued.geometry, ?_, hqueued.hash, hqueued.caches⟩
    rw [← hqueued.refCnt]
    rfl
  · have hrevive : Returns (revive b) p fun _ p' => p' = p := by
      rw [Returns, revive]
      simp [href]
    refine Spec.imp hrevive ?_
    rintro - _ rfl
    have hnonneg := h.core.nonneg b
    exact ⟨⟨_, _, h.setRefCnt hreal href (by omega)⟩, rfl, rfl, rfl, rfl⟩

/-! ### Dropping a reference -/

variable {g : ℕ} {c : K}

section Free

/-- The blocks of an idle huge block are all in the queue of their cache. -/
theorem Core.mem_little_of_idle {queue parked : List ℕ} (h : p.Core little queue parked)
    (hpos : 0 < g) (hlt : g < p.numHugeBlocks) (hparked : g ∉ parked)
    (htype : p.littleBlockType g = some c) (hidle : p.hugeRefCnt g = 0) :
    ∀ b ∈ p.littleBlocks g c, b ∈ little c := by
  intro b hb
  have hc := h.type_mem g c htype
  obtain ⟨rfl, rfl⟩ := (JengaGeometry.mem_littleBlocks (h.ratio_pos c hc) g b).mp hb
  rw [hugeRefCnt, htype] at hidle
  have hzero : p.refCnt b = 0 := by
    refine all_zero_of_le_zero_le_of_sum_eq_zero ?_ hidle (mem_map_of_mem hb)
    intro n hn
    obtain ⟨b', -, rfl⟩ := mem_map.mp hn
    exact h.nonneg b'
  exact (h.mem_little _ b).mpr ⟨rfl, ⟨hc, hpos, hlt⟩, hzero, htype, hparked⟩

/-- The invariant after an idle huge block was parked. -/
theorem Core.park (h : p.Core little huge huge) (hpos : 0 < g) (hlt : g < p.numHugeBlocks)
    (htype : p.littleBlockType g = some c) (hidle : ∀ b ∈ p.littleBlocks g c, b ∈ little c)
    {q : FreeKVCacheBlockQueue (LittleKVCacheBlock K)} {r : FreeKVCacheBlockQueue ℕ}
    (hq : q.Holds ((little c).diff (p.littleBlocks g c))) (hr : r.Holds (huge ++ [g])) :
    Core { p with
        freeLittleBlocks := update p.freeLittleBlocks c q
        freeHugeBlocks := r }
      (update little c ((little c).diff (p.littleBlocks g c))) (huge ++ [g])
      (huge ++ [g]) := by
  have hc := h.type_mem g c htype
  refine { h with
    queue_holds := hr
    queue_parked := fun a ha => ha
    parked_nodup := hr.nodup
    typed := fun a hpos hlt hnot => h.typed a hpos hlt fun ha => hnot (mem_append_left _ ha)
    parked_real := ?_, little_holds := ?_, in_use := ?_, mem_little := ?_ }
  · intro c'
    by_cases hcc : c' = c
    · subst hcc
      simpa using hq
    · simpa [hcc] using h.little_holds c'
  · intro a ha
    rcases mem_append.mp ha with ha | ha
    · exact h.parked_real a ha
    · rw [mem_singleton.mp ha]
      exact ⟨hpos, hlt⟩
  · intro c' b
    have hparked' : p.hugeBlock b ∉ huge ++ [g] ↔ p.hugeBlock b ∉ huge ∧ p.hugeBlock b ≠ g := by
      simp
    change _ ↔ b.cacheId = c' ∧ p.Real b ∧ p.refCnt b = 0 ∧
      p.littleBlockType (p.hugeBlock b) = some c' ∧ p.hugeBlock b ∉ huge ++ [g]
    rw [hparked', update_apply]
    split_ifs with hcc
    · subst hcc
      rw [(h.little_holds c').nodup.mem_sdiff_iff, h.mem_little,
        JengaGeometry.mem_littleBlocks (h.ratio_pos c' hc)]
      tauto
    · rw [h.mem_little]
      refine ⟨fun hb => ⟨hb.1, hb.2.1, hb.2.2.1, hb.2.2.2.1, hb.2.2.2.2, fun heq => ?_⟩,
        fun hb => ⟨hb.1, hb.2.1, hb.2.2.1, hb.2.2.2.1, hb.2.2.2.2.1⟩⟩
      rw [heq, htype, Option.some_inj] at hb
      exact hcc hb.2.2.2.1.symm
  · intro b hreal href
    obtain ⟨htype', hnot⟩ := h.in_use b hreal href
    refine ⟨htype', fun hmem => ?_⟩
    rcases mem_append.mp hmem with hmem | hmem
    · exact hnot hmem
    -- a block in use is not queued
    rw [mem_singleton.mp hmem, htype, Option.some_inj] at htype'
    have hb := hidle b ((JengaGeometry.mem_littleBlocks (h.ratio_pos c hc) g b).mpr
      ⟨htype'.symm, mem_singleton.mp hmem⟩)
    exact href ((h.mem_little c b).mp hb).2.2.1

theorem parkIfIdle_spec (h : p.Core little huge huge) (hmem : b ∈ little b.cacheId)
    (hbusy : p.BusyBut huge (some (p.hugeBlock b))) :
    Returns (parkIfIdle b) p fun _ p' => p'.Inv ∧ Counted p p' p.refCnt := by
  obtain ⟨-, hreal, -, htype, hparked⟩ := (h.mem_little _ b).mp hmem
  rw [Returns, parkIfIdle]
  simp only [spec_bind, spec_get]
  by_cases hidle : p.hugeRefCnt (p.hugeBlock b) = 0
  · rw [if_pos hidle]
    simp only [spec_bind, spec_get, htype, ne_eq, not_true_eq_false, if_false]
    have hqueued := h.mem_little_of_idle hreal.pos hreal.lt hparked htype hidle
    have hremove := forM_remove (h.little_holds b.cacheId)
      (JengaGeometry.nodup_littleBlocks p.toJengaGeometry (p.hugeBlock b) b.cacheId) hqueued
    refine Spec.imp hremove ?_
    rintro - _ ⟨q, rfl, hq⟩
    rw [onHuge, spec_focus]
    refine Spec.imp (h.queue_holds.append hparked) (fun _ r hr => ?_)
    refine ⟨⟨_, _, h.park hreal.pos hreal.lt htype hqueued hq hr, ?_⟩, rfl, rfl, rfl, rfl⟩
    intro a hpos hlt hnot _
    rw [mem_append, not_or, mem_singleton] at hnot
    exact hbusy a hpos hlt hnot.1 (by simpa [eq_comm] using hnot.2)
  · rw [if_neg hidle, spec_pure]
    refine ⟨⟨little, huge, h, ?_⟩, rfl, rfl, rfl, rfl⟩
    intro a hpos hlt hnot _
    by_cases ha : p.hugeBlock b = a
    · -- a huge block that is not idle has a block in use
      by_contra hnone
      push Not at hnone
      refine hidle ?_
      rw [hugeRefCnt, htype]
      refine sum_eq_zero fun n hn => ?_
      obtain ⟨b', hb', rfl⟩ := mem_map.mp hn
      obtain ⟨hcache, hhuge⟩ := (JengaGeometry.mem_littleBlocks
        (h.ratio_pos _ hreal.cache) _ b').mp hb'
      exact hnone b' ⟨hcache ▸ hreal.cache, hhuge ▸ hreal.pos, hhuge ▸ hreal.lt⟩ (hhuge.trans ha)
    · exact hbusy a hpos hlt hnot (by simpa using ha)

theorem isNull_of_real (hreal : p.Real b) : isNull b = false := by
  have hpos := hreal.pos
  rw [JengaGeometry.hugeBlock] at hpos
  have hbid : b.bid ≠ 0 := fun h0 => by simp [h0] at hpos
  simpa [isNull] using hbid

/-- **Dropping a reference** keeps every hash. -/
theorem freeBlock_spec (h : p.Settled little huge) (hreal : p.Real b) (href : p.refCnt b ≠ 0) :
    Returns (freeBlock b) p fun _ p' =>
      p'.Inv ∧ Counted p p' (update p.refCnt b (p.refCnt b - 1)) := by
  have hnonneg := h.core.nonneg b
  obtain ⟨htype, hparked⟩ := h.core.in_use b hreal href
  have hcount : (p.setRefCnt b (p.refCnt b - 1)).refCnt b = p.refCnt b - 1 := by simp [setRefCnt]
  rw [Returns, freeBlock]
  simp only [isNull_of_real hreal, Bool.false_eq_true, if_false, spec_bind, spec_modify, spec_get,
    hcount]
  rw [if_neg (by omega), spec_bind, spec_get, hcount]
  by_cases hlast : p.refCnt b - 1 = 0
  · rw [if_pos hlast, spec_bind, hlast]
    have hnot : b ∉ little b.cacheId := fun hmem =>
      href ((h.core.mem_little _ b).mp hmem).2.2.1
    have happend : Returns (onLittle b.cacheId (FreeKVCacheBlockQueue.append b)) (p.setRefCnt b 0)
        fun _ p' => ∃ q, p' = p.requeue b 0 q ∧ q.Holds (little b.cacheId ++ [b]) := by
      rw [Returns, onLittle, spec_focus]
      exact Spec.imp ((h.core.little_holds b.cacheId).append hnot) (fun _ q hq => ⟨q, rfl, hq⟩)
    refine Spec.imp happend ?_
    rintro - _ ⟨q, rfl, hq⟩
    have hcore := h.core.requeue hreal le_rfl htype hparked hq (fun b' => by
      by_cases hb : b' = b
      · simp [hb]
      · simp [hb])
    have hbusy : (p.requeue b 0 q).BusyBut huge (some (p.hugeBlock b)) := by
      intro a hpos hlt hnot hne
      obtain ⟨b', hreal', hb', href'⟩ := h.busy a hpos hlt hnot (by simp)
      refine ⟨b', hreal', hb', ?_⟩
      have hbb : b' ≠ b := fun heq => hne (by rw [← hb', heq])
      simpa [requeue, hbb] using href'
    refine Spec.imp (parkIfIdle_spec hcore (by simp) hbusy) ?_
    rintro - p' ⟨hinv, hsame⟩
    exact ⟨hinv, hsame.geometry, hsame.refCnt, hsame.hash, hsame.caches⟩
  · rw [if_neg hlast]
    exact ⟨⟨_, _, h.setRefCnt hreal href (by omega)⟩, rfl, rfl, rfl, rfl⟩

end Free

/-! ### Hashes of blocks -/

section

variable (h : p.Settled little huge)

include h

/-- Committing a block of the cache that its huge block serves; an error leaves the pool as it
was. -/
theorem commitIntoPrefixCache_spec (hreal : p.Real b)
    (htype : p.littleBlockType (p.hugeBlock b) = some b.cacheId) (x : H) :
    Spec (commitIntoPrefixCache x b) p (fun _ p' => p'.Settled little huge) fun _ p' => p' = p := by
  rw [commitIntoPrefixCache]
  simp only [isNull_of_real hreal, Bool.false_eq_true, if_false, spec_bind, spec_get]
  split_ifs with hhash
  · rfl
  rw [spec_bind, spec_get]
  split_ifs with hcache
  · rfl
  rw [not_not] at hhash
  refine ⟨{ h.core with
    committed := fun b' hb' => ?_
    agree := h.core.agree.add hhash hcache }, h.busy⟩
  by_cases hbb : b' = b
  · rw [hbb]
    exact ⟨hreal, htype⟩
  · exact h.core.committed b' (by simpa [hbb] using hb')

/-- A block in use is committed or replaced by the block that has its hash already. -/
theorem getOrCommitIntoPrefixCache_spec (hreal : p.Real b) (href : p.refCnt b ≠ 0) (x : H) :
    Spec (getOrCommitIntoPrefixCache x b) p (fun _ p' => p'.Inv) fun _ p' => p'.Inv := by
  rw [getOrCommitIntoPrefixCache]
  simp only [isNull_of_real hreal, Bool.false_eq_true, if_false, spec_bind, spec_get]
  cases hlookup : (p.prefixCaches b.cacheId).lookup x with
  | none =>
    simp only [spec_bind, spec_pure]
    exact Spec.mono (commitIntoPrefixCache_spec h hreal (h.core.in_use b hreal href).1 x)
      (fun _ p' hp' => ⟨little, huge, hp'⟩) fun _ p' hp' => ⟨little, huge, hp' ▸ h⟩
  | some twin =>
    obtain ⟨hcache, hhash⟩ := (h.core.agree _ x twin).mp hlookup
    obtain ⟨hreal', htype'⟩ := h.core.committed twin (by simp [hhash])
    simp only
    split_ifs with hbid
    · exact ⟨little, huge, h⟩
    have hne : b ≠ twin := fun heq => hbid (by rw [heq])
    rw [spec_bind]
    refine Returns.mono (touch_spec h hreal' htype') ?_
    rintro - p₁ ⟨⟨little₁, huge₁, h₁⟩, hcounted⟩
    rw [spec_bind, spec_get]
    split
    · exact ⟨little₁, huge₁, h₁⟩
    rw [spec_bind]
    have href₁ : p₁.refCnt b ≠ 0 := by
      rw [hcounted.refCnt, update_of_ne hne]
      exact href
    exact Returns.mono (freeBlock_spec h₁ (hcounted.geometry ▸ hreal) href₁) fun _ _ hp₂ => hp₂.1

/-- Dropping hashes keeps the invariant. -/
theorem Settled.uncommitted {p' : JengaBlockPool K H} {bs : List (LittleKVCacheBlock K)}
    (hp' : Uncommitted p p' bs) : p'.Settled little huge := by
  refine ⟨h.core.uncommitted hp', ?_⟩
  rw [hp'.eq]
  exact h.busy

theorem resetCache_spec (c : K) : Returns (resetCache c) p fun _ p' => p'.Settled little huge := by
  rw [Returns, resetCache]
  simp only [spec_bind, spec_get, spec_pure]
  -- the entries that are left to go through still have their hashes
  refine Spec.imp (Spec.forM (I := fun done p' => Uncommitted p p' (done.map Sigma.snd)) _ ?_
    (Uncommitted.refl h.core.agree)) (fun _ p' hp' => h.uncommitted hp')
  intro done entry todo hsplit p' hp'
  have hmem : entry ∈ (p.prefixCaches c).entries :=
    mem_of_mem_filter (hsplit ▸ mem_append_right _ mem_cons_self)
  obtain ⟨hcache, hhash⟩ := (h.core.agree c entry.1 entry.2).mp (AList.mem_lookup_iff.mpr hmem)
  have hnot : entry.2 ∉ done.map Sigma.snd := by
    intro hdone
    obtain ⟨entry', hentry', hsnd⟩ := mem_map.mp hdone
    have hmem' : entry' ∈ (p.prefixCaches c).entries :=
      mem_of_mem_filter (hsplit ▸ mem_append_left _ hentry')
    have hhash' := ((h.core.agree c entry'.1 entry'.2).mp (AList.mem_lookup_iff.mpr hmem')).2
    rw [hsnd, hhash, Option.some_inj] at hhash'
    have heq : entry' = entry := Sigma.ext hhash'.symm (heq_of_eq hsnd)
    have hnodup := ((p.prefixCaches c).nodupKeys.nodup).filter fun entry => p.refCnt entry.2 = 0
    exact not_mem_done hnodup hsplit (heq ▸ hentry')
  have hhash' : p'.blockHash entry.2 = some entry.1 := by rw [hp'.hash, if_neg hnot, hhash]
  rw [map_append]
  subst hcache
  exact Spec.imp (dropHash_spec hp'.agree hhash') (fun _ p'' hp'' => hp'.trans hp'')

theorem resetPrefixCache_spec : Returns resetPrefixCache p fun _ p' => p'.Settled little huge := by
  rw [Returns, resetPrefixCache, spec_get_bind]
  refine Spec.mapM (I := fun p' : JengaBlockPool K H => p'.Settled little huge) _ ?_ h
  exact fun c _ p' hp' => resetCache_spec hp' c

end

/-! ### Runs of the pool -/

variable {hugeBytes : ℕ} {pageBytes : K → ℕ}

section Runs

variable [ToString K]

theorem init_settled {n : ℕ} {ids : List K} {ratios : K → ℕ} (h : init n ids ratios = .ok p) :
    p.Settled (fun _ => []) (List.range' 1 (n - 1)) := by
  rw [init] at h
  split at h
  · cases h
  split at h
  · cases h
  split at h
  · cases h
  rename_i hn _ hpos
  cases h
  have hmem : ∀ a, a ∈ range' 1 (n - 1) ↔ 0 < a ∧ a < n := by
    intro a
    rw [mem_range'_1]
    omega
  refine ⟨?_, ?_⟩
  · constructor
    case ratio_pos =>
      intro c hc
      have hc' : ¬ ratios c ≤ 0 := fun hle => hpos (any_eq_true.mpr ⟨c, hc, by simpa using hle⟩)
      exact Nat.pos_of_ne_zero fun h0 => hc' h0.le
    case little_holds => exact fun c => FreeKVCacheBlockQueue.Holds.init nodup_nil
    case queue_holds => exact FreeKVCacheBlockQueue.Holds.init nodup_range'
    case queue_parked => exact fun a ha => ha
    case parked_nodup => exact nodup_range'
    case parked_real => exact fun a ha => (hmem a).mp ha
    case nonneg =>
      intro b
      dsimp only
      split <;> decide
    case mem_little => simp
    case in_use =>
      intro b hreal href
      have hbid : b.bid ≠ 0 := by simpa [isNull] using isNull_of_real hreal
      exact absurd (by simp [hbid]) href
    case typed => exact fun a hpos hlt hnot => absurd ((hmem a).mpr ⟨hpos, hlt⟩) hnot
    case type_mem => simp
    case committed => simp
    case agree =>
      intro c x b
      simp
  · exact fun a hpos hlt hnot _ => absurd ((hmem a).mpr ⟨hpos, hlt⟩) hnot

/-- The operations of the pool. -/
inductive Op (K H : Type) where
  | allocBlock (cacheId : K)
  | touch (block : LittleKVCacheBlock K)
  | commit (hash : H) (block : LittleKVCacheBlock K)
  | getOrCommit (hash : H) (block : LittleKVCacheBlock K)
  | freeBlock (block : LittleKVCacheBlock K)
  | resetPrefixCache

/-- A block that somebody has a reference to; null blocks are always in use. -/
def InUse (p : JengaBlockPool K H) (b : LittleKVCacheBlock K) : Prop :=
  b.bid = 0 ∨ p.Real b ∧ p.refCnt b ≠ 0

/-- What is asked of the caller: only committed blocks are touched, only blocks in use are
committed or freed. -/
def Op.Allowed (p : JengaBlockPool K H) : Op K H → Prop
  | .allocBlock _ => True
  | .touch b => p.blockHash b ≠ none
  | .commit _ b => p.InUse b
  | .getOrCommit _ b => p.InUse b
  | .freeBlock b => p.InUse b
  | .resetPrefixCache => True

/-- The pool after an operation, whether it returned or raised. -/
def Op.run (p : JengaBlockPool K H) : Op K H → JengaBlockPool K H
  | .allocBlock c => finalState (JengaBlockPool.allocBlock c) p
  | .touch b => finalState (JengaBlockPool.touch b) p
  | .commit x b => finalState (commitIntoPrefixCache x b) p
  | .getOrCommit x b => finalState (getOrCommitIntoPrefixCache x b) p
  | .freeBlock b => finalState (JengaBlockPool.freeBlock b) p
  | .resetPrefixCache => finalState JengaBlockPool.resetPrefixCache p

/-- The states that a pool comes to. -/
inductive Reachable : JengaBlockPool K H → Prop
  | init {p : JengaBlockPool K H} {n : ℕ} {ids : List K} {ratios : K → ℕ} :
    JengaBlockPool.init n ids ratios = .ok p → Reachable p
  | step {p : JengaBlockPool K H} (op : Op K H) : Reachable p → op.Allowed p → Reachable (op.run p)

theorem commitIntoPrefixCache_null (hb : b.bid = 0) (x : H) :
    Raises (commitIntoPrefixCache x b) p fun _ p' => p' = p := by
  rw [Raises, commitIntoPrefixCache]
  simp [isNull, hb]

theorem getOrCommitIntoPrefixCache_null (hb : b.bid = 0) (x : H) :
    Raises (getOrCommitIntoPrefixCache x b) p fun _ p' => p' = p := by
  rw [Raises, getOrCommitIntoPrefixCache]
  simp [isNull, hb]

theorem freeBlock_null (hb : b.bid = 0) : Returns (freeBlock b) p fun _ p' => p' = p := by
  rw [Returns, freeBlock]
  simp [isNull, hb]

theorem Inv.of_returns {α : Type} {m : PyM (JengaBlockPool K H) α}
    (hm : Returns m p fun _ p' => p'.Inv) : (finalState m p).Inv :=
  Spec.finalState (P := Inv) (hm.mono fun _ _ hp' => hp')

theorem Inv.of_raises (h : p.Inv) {α : Type} {m : PyM (JengaBlockPool K H) α}
    (hm : Raises m p fun _ p' => p' = p) : (finalState m p).Inv :=
  Spec.finalState (P := Inv) (hm.mono fun _ _ hp' => hp' ▸ h)

/-- One operation keeps the invariant. -/
theorem Inv.run (h : p.Inv) (op : Op K H) (hop : op.Allowed p) : (op.run p).Inv := by
  obtain ⟨little, huge, hs⟩ := id h
  cases op with
  | allocBlock c =>
    by_cases hc : c ∈ p.cacheIds
    · by_cases hnum : p.numFreeBlocks c = 0
      · exact h.of_raises ((allocBlock_error hs hc hnum).mono fun _ _ hp' => hp'.2)
      · exact .of_returns ((allocBlock_spec hs hc hnum).mono fun _ _ hp' => hp'.settled)
    · refine h.of_raises ?_
      rw [Raises, allocBlock]
      simp [hc]
  | touch b =>
    obtain ⟨hreal, htype⟩ := hs.core.committed b hop
    exact .of_returns ((touch_spec hs hreal htype).mono fun _ _ hp' => hp'.1)
  | commit x b =>
    rcases hop with hnull | ⟨hreal, href⟩
    · exact h.of_raises (commitIntoPrefixCache_null hnull x)
    · have htype := (hs.core.in_use b hreal href).1
      exact Spec.finalState (P := Inv) ((commitIntoPrefixCache_spec hs hreal htype x).mono
        (fun _ _ hp' => ⟨little, huge, hp'⟩) fun _ _ hp' => hp' ▸ h)
  | getOrCommit x b =>
    rcases hop with hnull | ⟨hreal, href⟩
    · exact h.of_raises (getOrCommitIntoPrefixCache_null hnull x)
    · exact Spec.finalState (P := Inv) (getOrCommitIntoPrefixCache_spec hs hreal href x)
  | freeBlock b =>
    rcases hop with hnull | ⟨hreal, href⟩
    · exact .of_returns ((freeBlock_null hnull).mono fun _ _ hp' => hp' ▸ h)
    · exact .of_returns ((freeBlock_spec hs hreal href).mono fun _ _ hp' => hp'.1)
  | resetPrefixCache =>
    exact .of_returns ((resetPrefixCache_spec hs).mono fun _ _ hp' => ⟨little, huge, hp'⟩)

theorem Reachable.inv (h : Reachable p) : p.Inv := by
  induction h with
  | init h => exact ⟨_, _, init_settled h⟩
  | step op _ hop ih => exact ih.run op hop

/-! ### What the invariant says -/

/-- `n` allocations in a row. -/
def allocBlocks (c : K) : ℕ → PyM (JengaBlockPool K H) (List (LittleKVCacheBlock K))
  | 0 => return []
  | n + 1 => do
    let block ← allocBlock c
    return block :: (← allocBlocks c n)

theorem Inv.numFreeBlocks_nonneg (h : p.Inv) (c : K) : 0 ≤ p.numFreeBlocks c := by
  obtain ⟨little, huge, hs⟩ := h
  rw [hs.core.numFreeBlocks_eq]
  positivity

/-- As many allocations succeed as there are free blocks. -/
theorem Inv.allocBlocks_iff (n : ℕ) : ∀ {p : JengaBlockPool K H}, p.Inv → ∀ {c : K},
    c ∈ p.cacheIds → ((∃ bs p', allocBlocks c n p = .ok bs p') ↔ (n : ℤ) ≤ p.numFreeBlocks c) := by
  induction n with
  | zero =>
    intro p h c hc
    have hnonneg := h.numFreeBlocks_nonneg c
    exact ⟨fun _ => by simpa using hnonneg, fun _ => ⟨[], p, rfl⟩⟩
  | succ n ih =>
    intro p h c hc
    have hnonneg := h.numFreeBlocks_nonneg c
    obtain ⟨little, huge, hs⟩ := h
    by_cases hnum : p.numFreeBlocks c = 0
    · -- the first allocation raises
      obtain ⟨e, p', he, -⟩ := raises_iff.mp (allocBlock_error hs hc hnum)
      refine ⟨?_, fun hle => ?_⟩
      · rintro ⟨bs, p'', hok⟩
        change EStateM.bind _ _ p = _ at hok
        rw [EStateM.bind, he] at hok
        cases hok
      · push_cast at hle
        omega
    obtain ⟨b, p₁, hp₁, halloc⟩ := returns_iff.mp (allocBlock_spec hs hc hnum)
    have hiff := ih halloc.settled (halloc.geometry ▸ hc)
    have hrest : allocBlocks c (n + 1) p = match allocBlocks c n p₁ with
        | .ok bs p' => .ok (b :: bs) p'
        | .error e p' => .error e p' := by
      change EStateM.bind _ _ p = _
      rw [EStateM.bind, hp₁]
      change EStateM.bind _ _ p₁ = _
      rw [EStateM.bind]
      cases allocBlocks c n p₁ <;> rfl
    rw [halloc.num] at hiff
    rw [hrest]
    constructor
    · rintro ⟨bs, p', hok⟩
      cases hcase : allocBlocks c n p₁ with
      | ok bs' p'' =>
        have hle := hiff.mp ⟨bs', p'', hcase⟩
        push_cast
        omega
      | error e p'' =>
        rw [hcase] at hok
        cases hok
    · intro hle
      push_cast at hle
      obtain ⟨bs, p', hok⟩ := hiff.mpr (by omega)
      exact ⟨b :: bs, p', by rw [hok]⟩

theorem jengaLcm_eq {xs : List ℕ} (hne : xs ≠ []) : jengaLcm xs = (xs : Multiset ℕ).lcm := by
  cases xs with
  | nil => exact absurd rfl hne
  | cons x xs =>
    rw [Multiset.lcm, Multiset.coe_fold_l, foldl_cons, lcm_one_left, normalize_eq]
    rfl

/-- The pages of every cache fill a huge block exactly. -/
theorem computeJengaRatios_spec {f : ℤ → String} {availableBytes : ℤ} {sizes : List (K × ℤ)}
    {numHugeBlocks : ℕ} {ratios : List (K × ℕ)}
    (h : computeJengaRatios f availableBytes sizes = .ok (numHugeBlocks, hugeBytes, ratios)) :
    2 ≤ numHugeBlocks ∧ ratios = sizes.map (fun e => (e.1, hugeBytes / e.2.toNat)) ∧
      ∀ e ∈ sizes, 0 < hugeBytes / e.2.toNat ∧ hugeBytes / e.2.toNat * e.2.toNat = hugeBytes := by
  rw [computeJengaRatios] at h
  split at h
  · cases h
  split at h
  · cases h
  split at h
  · cases h
  dsimp only at h
  split at h
  · cases h
  rename_i hne hsizes _ hnum
  cases h
  have hpos : ∀ e ∈ sizes, 0 < e.2.toNat := by
    intro e he
    have hle : ¬ e.2 ≤ 0 := fun hle => hsizes (any_eq_true.mpr ⟨e, he, by simpa using hle⟩)
    omega
  have hne' : sizes.map (fun e => e.2.toNat) ≠ [] := by simpa using hne
  refine ⟨by omega, rfl, fun e he => ?_⟩
  rw [jengaLcm_eq hne']
  have hdvd := Multiset.dvd_lcm (Multiset.mem_coe.mpr
    (mem_map_of_mem (f := fun e : K × ℤ => e.2.toNat) he))
  have hlcm : Multiset.lcm ↑(sizes.map fun e => e.2.toNat) ≠ 0 := by
    rw [ne_eq, Multiset.lcm_eq_zero_iff, Multiset.mem_coe, mem_map]
    exact fun ⟨e, he, hzero⟩ => (hpos e he).ne' hzero
  exact ⟨Nat.div_pos (Nat.le_of_dvd (Nat.pos_of_ne_zero hlcm) hdvd) (hpos e he),
    Nat.div_mul_cancel hdvd⟩

theorem computeJengaRatios_two_sizes :
    computeJengaRatios toString 30 [(0, 4), (1, 6)] = .ok (2, 12, [(0, 3), (1, 2)]) ∧
      12 / 6 * 6 = 12 := by
  have h : computeJengaRatios toString 30 [(0, 4), (1, 6)] = .ok (2, 12, [(0, 3), (1, 2)]) := rfl
  exact ⟨h, ((computeJengaRatios_spec h).2.2 (1, 6) (by simp)).2⟩

/-- The bytes of a block, for the page sizes of the caches. -/
def bytes (pageBytes : K → ℕ) (b : LittleKVCacheBlock K) : Set ℕ :=
  Set.Ico (b.bid * pageBytes b.cacheId) ((b.bid + 1) * pageBytes b.cacheId)

/-- A block lies in its huge block. -/
theorem bytes_subset {g : JengaGeometry K} (hpos : 0 < g.cacheRatios b.cacheId)
    (hbytes : g.cacheRatios b.cacheId * pageBytes b.cacheId = hugeBytes) :
    bytes pageBytes b ⊆ Set.Ico (g.hugeBlock b * hugeBytes) ((g.hugeBlock b + 1) * hugeBytes) := by
  have hle : g.hugeBlock b * g.cacheRatios b.cacheId ≤ b.bid := Nat.div_mul_le_self _ _
  have hlt : b.bid + 1 ≤ (g.hugeBlock b + 1) * g.cacheRatios b.cacheId := by
    rw [Nat.add_mul, one_mul]
    exact Nat.lt_div_mul_add hpos
  subst hbytes
  rw [bytes, ← Nat.mul_assoc, ← Nat.mul_assoc]
  exact Set.Ico_subset_Ico (Nat.mul_le_mul_right _ hle) (Nat.mul_le_mul_right _ hlt)

/-- A huge block that any cache may claim. -/
structure Parked (p : JengaBlockPool K H) (g : ℕ) : Prop where
  queued : g ∈ p.freeHugeBlocks.freeBlocks
  unreferenced : ∀ b, p.Real b → p.hugeBlock b = g → p.refCnt b = 0
  unqueued : ∀ b, p.hugeBlock b = g → ∀ c, b ∉ (p.freeLittleBlocks c).freeBlocks

/-- A huge block that serves the cache `c`: each of its blocks of `c` is in use or queued. -/
structure ClaimedBy (p : JengaBlockPool K H) (g : ℕ) (c : K) : Prop where
  unqueued : g ∉ p.freeHugeBlocks.freeBlocks
  type : p.littleBlockType g = some c
  busy : ∃ b, p.Real b ∧ p.hugeBlock b = g ∧ 0 < p.refCnt b
  used_or_queued : ∀ b, p.Real b → p.hugeBlock b = g → b.cacheId = c →
    (0 < p.refCnt b ∧ b ∉ (p.freeLittleBlocks c).freeBlocks) ∨
      (p.refCnt b = 0 ∧ b ∈ (p.freeLittleBlocks c).freeBlocks)

/-- What is true of a pool between operations. -/
structure Consistent (p : JengaBlockPool K H) : Prop where
  linked : (∀ c, ∃ l, (p.freeLittleBlocks c).Holds l) ∧ ∃ l, p.freeHugeBlocks.Holds l
  parked_or_claimed : ∀ g, 0 < g → g < p.numHugeBlocks →
    (p.Parked g ∧ ∀ c, ¬ p.ClaimedBy g c) ∨ (¬ p.Parked g ∧ ∃! c, p.ClaimedBy g c)
  typed : ∀ b, p.Real b → 0 < p.refCnt b ∨ p.blockHash b ≠ none →
    p.littleBlockType (p.hugeBlock b) = some b.cacheId
  disjoint : ∀ (pageBytes : K → ℕ) (hugeBytes : ℕ),
    (∀ c ∈ p.cacheIds, p.cacheRatios c * pageBytes c = hugeBytes) →
    ∀ b b', p.Real b → p.Real b' → 0 < p.refCnt b ∨ p.blockHash b ≠ none →
      0 < p.refCnt b' ∨ p.blockHash b' ≠ none → b.cacheId ≠ b'.cacheId →
      Disjoint (bytes pageBytes b) (bytes pageBytes b')
  allocatable : ∀ c ∈ p.cacheIds, ∀ n : ℕ,
    (∃ bs p', allocBlocks c n p = .ok bs p') ↔ (n : ℤ) ≤ p.numFreeBlocks c

theorem Inv.typed (h : p.Inv) (hreal : p.Real b) (hb : 0 < p.refCnt b ∨ p.blockHash b ≠ none) :
    p.littleBlockType (p.hugeBlock b) = some b.cacheId := by
  obtain ⟨little, huge, hs⟩ := h
  rcases hb with href | hhash
  · exact (hs.core.in_use b hreal href.ne').1
  · exact (hs.core.committed b hhash).2

omit [ToString K] in
/-- The blocks of a prefix cache can be touched. -/
theorem Inv.of_lookup (h : p.Inv) {x : H} (hb : (p.prefixCaches c).lookup x = some b) :
    b.cacheId = c ∧ p.Real b ∧ p.littleBlockType (p.hugeBlock b) = some b.cacheId := by
  obtain ⟨little, huge, hs⟩ := h
  obtain ⟨hcache, hhash⟩ := (hs.core.agree c x b).mp hb
  exact ⟨hcache, hs.core.committed b (by simp [hhash])⟩

theorem Inv.disjoint (h : p.Inv)
    (hbytes : ∀ c ∈ p.cacheIds, p.cacheRatios c * pageBytes c = hugeBytes)
    {b b' : LittleKVCacheBlock K} (hreal : p.Real b) (hreal' : p.Real b')
    (hne : p.hugeBlock b ≠ p.hugeBlock b') : Disjoint (bytes pageBytes b) (bytes pageBytes b') := by
  obtain ⟨little, huge, hs⟩ := h
  refine Set.disjoint_of_subset
    (bytes_subset (hs.core.ratio_pos _ hreal.cache) (hbytes _ hreal.cache))
    (bytes_subset (hs.core.ratio_pos _ hreal'.cache) (hbytes _ hreal'.cache)) ?_
  rw [Set.disjoint_left]
  rintro x ⟨hle, hlt⟩ ⟨hle', hlt'⟩
  rcases Nat.lt_or_gt_of_ne hne with hlt'' | hgt
  · have := Nat.mul_le_mul_right hugeBytes (show p.hugeBlock b + 1 ≤ p.hugeBlock b' from hlt'')
    omega
  · have := Nat.mul_le_mul_right hugeBytes (show p.hugeBlock b' + 1 ≤ p.hugeBlock b from hgt)
    omega

theorem Inv.parked_or_claimed (h : p.Inv) (hpos : 0 < g) (hlt : g < p.numHugeBlocks) :
    (p.Parked g ∧ ∀ c, ¬ p.ClaimedBy g c) ∨ (¬ p.Parked g ∧ ∃! c, p.ClaimedBy g c) := by
  obtain ⟨little, huge, hs⟩ := h
  have hmem := hs.core.queue_holds.mem g
  by_cases hg : g ∈ huge
  · refine Or.inl ⟨⟨hmem.mpr hg, ?_, ?_⟩, fun c hclaimed => hclaimed.unqueued (hmem.mpr hg)⟩
    · rintro b hreal rfl
      exact hs.core.refCnt_parked hreal hg
    · rintro b rfl c hb
      rw [(hs.core.little_holds c).mem, hs.core.mem_little] at hb
      exact hb.2.2.2.2 hg
  refine Or.inr ⟨fun hparked => hg (hmem.mp hparked.queued), ?_⟩
  obtain ⟨c, hc⟩ := Option.ne_none_iff_exists'.mp (hs.core.typed g hpos hlt hg)
  refine ⟨c, ⟨fun hq => hg (hmem.mp hq), hc, ?_, ?_⟩, fun c' hc' => ?_⟩
  · obtain ⟨b, hreal, hb, href⟩ := hs.busy g hpos hlt hg (by simp)
    have hnonneg := hs.core.nonneg b
    exact ⟨b, hreal, hb, by omega⟩
  · rintro b hreal rfl rfl
    rw [(hs.core.little_holds b.cacheId).mem, hs.core.mem_little]
    have hnonneg := hs.core.nonneg b
    by_cases href : p.refCnt b = 0
    · exact Or.inr ⟨href, rfl, hreal, href, hc, hg⟩
    · exact Or.inl ⟨by omega, fun hb => href hb.2.2.1⟩
  · have hsame := hc'.type
    rw [hc, Option.some_inj] at hsame
    exact hsame.symm

/-- **Every state of the pool**: each huge block is parked or claimed by one cache, blocks of
different caches in use share no bytes, and the free blocks can all be allocated. -/
theorem Reachable.consistent (h : Reachable p) : p.Consistent := by
  have hinv := h.inv
  refine ⟨?_, fun g hpos hlt => hinv.parked_or_claimed hpos hlt,
    fun b hreal hb => hinv.typed hreal hb, ?_, fun c hc n => hinv.allocBlocks_iff n hc⟩
  · obtain ⟨little, huge, hs⟩ := hinv
    exact ⟨fun c => ⟨little c, hs.core.little_holds c⟩, huge, hs.core.queue_holds⟩
  intro pageBytes hugeBytes hbytes b b' hreal hreal' hb hb' hne
  refine hinv.disjoint hbytes hreal hreal' fun heq => hne ?_
  have htype := hinv.typed hreal hb
  rw [heq, hinv.typed hreal' hb', Option.some_inj] at htype
  exact htype.symm

theorem Reachable.consistent_two_caches : ∃ p : JengaBlockPool ℕ ℕ,
    JengaBlockPool.init 3 [0, 1] (fun c => if c = 0 then 2 else 1) = .ok p ∧
      ((Op.allocBlock 1).run ((Op.allocBlock 0).run p)).Consistent := by
  obtain ⟨p, hp⟩ : ∃ p : JengaBlockPool ℕ ℕ,
    JengaBlockPool.init 3 [0, 1] (fun c => if c = 0 then 2 else 1) = .ok p := ⟨_, rfl⟩
  exact ⟨p, hp, Reachable.consistent (.step _ (.step _ (.init hp) trivial) trivial)⟩

end Runs

end JengaBlockPool
