/-
The longest prefix cache hit.

Each group looks for the longest hit that it can resume from.  For a window this is not
monotone, so the window groups are asked in turn until the hit is one that all of them can
resume from.

* `KVGroup.longestCacheHit_spec` — the hit of one group is the greatest;
* `JengaBlockManager.hitHashes_spec` — so is the common hit;
* `KVGroup.claimHitBlocks_spec` — the blocks of a hit are taken, one reference each;
* `JengaBlockManager.findLongestPrefixCacheHit_spec` — all of it together.
-/
import MojoMac.JengaBlockManager
import MojoMac.JengaPoolRuns

open StateSpec List

set_option linter.unusedSectionVars false

/-! ### Windows -/

section Window

variable {held : ℕ → Bool} {W : ℕ}

/-- All that the window before `n` reads is held. -/
def WindowHeld (held : ℕ → Bool) (W n : ℕ) : Prop := ∀ i, n - W ≤ i → i < n → held i

/-- The loop at index `idx` with `run` held hashes behind it: no window that ends later is
held. -/
theorem windowHit_spec (n idx run : ℕ) (hrun : run < W) (hle : idx + run ≤ n)
    (hheld : ∀ i, idx ≤ i → i < idx + run → held i)
    (hlater : ∀ k, idx + run < k → k ≤ n → ¬ WindowHeld held W k) :
    IsGreatest {k | k ≤ n ∧ WindowHeld held W k} (KVGroup.windowHit held W idx run) := by
  induction idx generalizing run with
  | zero =>
    rw [KVGroup.windowHit]
    refine ⟨⟨by omega, fun i _ hi => hheld i (by omega) (by omega)⟩, fun k hk => ?_⟩
    by_contra hlt
    exact hlater k (by omega) hk.1 hk.2
  | succ idx ih =>
    rw [KVGroup.windowHit]
    cases hidx : held idx with
    | false =>
      -- every window that ends in the run reads the hash at `idx`
      refine ih 0 (by omega) (by omega) (fun i _ hi => by omega) fun k hlt hkn hk => ?_
      by_cases hin : k ≤ idx + 1 + run
      · have := hk idx (by omega) (by omega)
        rw [hidx] at this
        cases this
      · exact hlater k (by omega) hkn hk
    | true =>
      have hheld' : ∀ i, idx ≤ i → i < idx + (run + 1) → held i := by
        intro i hi hlt
        by_cases heq : i = idx
        · rw [heq, hidx]
        · exact hheld i (by omega) (by omega)
      simp only [Bool.not_true, Bool.false_eq_true, if_false]
      split
      · refine ⟨⟨by omega, fun i hi hlt => hheld' i (by omega) hlt⟩, fun k hk => ?_⟩
        by_contra hlt
        exact hlater k (by omega) hk.1 hk.2
      · refine ih (run + 1) (by omega) (by omega) hheld' fun k hlt hkn => ?_
        exact hlater k (by omega) hkn

end Window

namespace KVGroup

variable {K H : Type} [DecidableEq K] [DecidableEq H]

theorem ceildiv_eq (a : ℕ) {b : ℕ} (h : 0 < b) : ceildiv a b = ((a ⌈/⌉ b : ℕ) : ℤ) := by
  have hlow := Nat.div_mul_le_self (a + b - 1) b
  have hhigh := Nat.lt_div_mul_add h (a := a + b - 1)
  rw [Nat.ceilDiv_eq_add_pred_div, ceildiv, ← neg_neg (a : ℤ), Int.neg_fdiv_neg,
    Int.fdiv_eq_ediv_of_nonneg _ (by omega), neg_eq_iff_eq_neg, Int.ediv_eq_iff_of_pos (by omega),
    neg_mul]
  omega

variable {pageSize : ℕ}

theorem blocksInWindow_eq (windowSize : ℕ) (h : 0 < pageSize) (hw : 0 < windowSize) :
    blocksInWindow windowSize pageSize = (windowSize - 1) ⌈/⌉ pageSize := by
  have hcast : (windowSize : ℤ) - 1 = ((windowSize - 1 : ℕ) : ℤ) := by omega
  rw [blocksInWindow, hcast, ceildiv_eq _ h, Int.toNat_natCast]

/-- How many of the hashes before `n` the group reads when it resumes there. -/
def reads (group : KVGroup K) (pageSize n : ℕ) : ℕ :=
  match group.groupId with
  | .full => n
  | .slidingWindow windowSize _ => min n ((windowSize - 1) ⌈/⌉ pageSize)

/-- A group has every hash that it reads when it resumes after the first `n`. -/
def Resumable (group : KVGroup K) (pageSize : ℕ) (pool : JengaBlockPool K H) (hashes : List H)
    (n : ℕ) : Prop :=
  ∀ hash ∈ (hashes.take n).drop (n - group.reads pageSize n),
    ∀ leafId ∈ group.leafIds, hash ∈ pool.prefixCaches leafId

variable {group : KVGroup K} {hashes : List H}

section Hit

variable {pool : JengaBlockPool K H} {hashes' : List H}

theorem isInPrefixCache_iff (group : KVGroup K) (pool : JengaBlockPool K H) (hash : H) :
    group.isInPrefixCache pool hash ↔ ∀ leafId ∈ group.leafIds, hash ∈ pool.prefixCaches leafId := by
  simp [isInPrefixCache]

theorem resumable_iff (n : ℕ) (hn : n ≤ hashes.length) :
    group.Resumable pageSize pool hashes n ↔ ∀ i, n - group.reads pageSize n ≤ i → i < n →
      hashes[i]?.any (group.isInPrefixCache pool) := by
  simp only [Resumable, ← isInPrefixCache_iff, forall_mem_iff_forall_getElem,
    getElem_drop, getElem_take, length_drop, length_take, min_eq_left hn]
  refine ⟨fun h i hi hlt => ?_, fun h i hi => ?_⟩
  · have hheld := h (i - (n - group.reads pageSize n)) (by omega)
    simp only [Nat.add_sub_cancel' hi] at hheld
    rwa [getElem?_eq_getElem (by omega)]
  · have hheld := h _ (Nat.le_add_right _ i) (by omega)
    rwa [getElem?_eq_getElem (by omega)] at hheld

theorem resumable_of_isPrefix (h : hashes' <+: hashes) {n : ℕ} (hn : n ≤ hashes'.length) :
    group.Resumable pageSize pool hashes' n ↔ group.Resumable pageSize pool hashes n := by
  obtain ⟨rest, rfl⟩ := h
  rw [Resumable, Resumable, take_append_of_le_length hn]

theorem resumable_zero : group.Resumable pageSize pool hashes 0 := by
  intro hash hhash
  simp at hhash

theorem fullHit_eq (held : H → Bool) (hashes : List H) (n : ℕ) :
    fullHit held n hashes = n + (hashes.takeWhile held).length := by
  induction hashes generalizing n with
  | nil => rfl
  | cons hash hashes ih =>
    rw [fullHit]
    cases hheld : held hash with
    | false => simp [hheld]
    | true =>
      rw [takeWhile_cons_of_pos hheld, length_cons]
      simp only [Bool.not_true, Bool.false_eq_true, if_false, ih]
      omega

/-- **The hit of one group** is the longest that it can resume from. -/
theorem longestCacheHit_spec (group : KVGroup K) (h : 0 < pageSize) (pool : JengaBlockPool K H)
    (hashes : List H) :
    IsGreatest {n | n ≤ hashes.length ∧ group.Resumable pageSize pool hashes n}
      (group.longestCacheHit pageSize pool hashes) := by
  rw [longestCacheHit]
  cases hgroup : group.groupId with
  | full =>
    have hreads : ∀ n, group.reads pageSize n = n := fun n => by rw [reads, hgroup]
    dsimp only
    rw [fullHit_eq, Nat.zero_add]
    have hheld : ∀ n, group.Resumable pageSize pool hashes n ↔
        ∀ hash ∈ hashes.take n, group.isInPrefixCache pool hash := by
      intro n
      simp only [Resumable, hreads, Nat.sub_self, drop_zero, isInPrefixCache_iff]
    have hpre := takeWhile_prefix (group.isInPrefixCache pool) (l := hashes)
    refine ⟨⟨hpre.length_le, (hheld _).mpr fun hash hhash => ?_⟩, fun n hn => ?_⟩
    · rw [← prefix_iff_eq_take.mp hpre] at hhash
      exact mem_takeWhile_imp hhash
    have htake := takeWhile_eq_self_iff.mpr ((hheld n).mp hn.2)
    have hlen : (hashes.take n).length = n := by rw [length_take, min_eq_left hn.1]
    rw [← take_append_drop n hashes, takeWhile_append, if_pos (by rw [htake]), length_append, hlen]
    omega
  | slidingWindow windowSize pos =>
    have hW := blocksInWindow_eq windowSize h pos
    have hreads : ∀ n, n - group.reads pageSize n = n - blocksInWindow windowSize pageSize := by
      intro n
      rw [reads, hgroup, hW]
      dsimp only
      omega
    have hset : {n | n ≤ hashes.length ∧ group.Resumable pageSize pool hashes n}
        = {n | n ≤ hashes.length ∧ WindowHeld
            (fun idx => hashes[idx]?.any (group.isInPrefixCache pool))
            (blocksInWindow windowSize pageSize) n} := by
      ext n
      refine and_congr_right fun hn => ?_
      rw [resumable_iff n hn, hreads]
      rfl
    dsimp only
    rw [hset]
    split_ifs with hzero
    · refine ⟨⟨le_rfl, fun i hi hlt => ?_⟩, fun n hn => hn.1⟩
      omega
    · refine windowHit_spec _ _ _ (by omega) le_rfl (fun i _ hi => by omega) fun k hlt hle => ?_
      omega

end Hit

/-! ### Taking the blocks of a hit -/

section Claim

variable {p p' p'' : JengaBlockPool K H} {f g : LittleKVCacheBlock K → ℤ}

/-- References were taken, as many as `f` says, and nothing was evicted. -/
structure Touched (p p' : JengaBlockPool K H) (f : LittleKVCacheBlock K → ℤ) : Prop where
  inv : p'.Inv
  geometry : p'.toJengaGeometry = p.toJengaGeometry
  hash : p'.blockHash = p.blockHash
  caches : p'.prefixCaches = p.prefixCaches
  refCnt : ∀ b, p'.refCnt b = p.refCnt b + f b

theorem Touched.refl (h : p.Inv) : Touched p p fun _ => 0 :=
  ⟨h, rfl, rfl, rfl, fun _ => (add_zero _).symm⟩

theorem Touched.trans (h : Touched p p' f) (h' : Touched p' p'' g) :
    Touched p p'' fun b => f b + g b :=
  ⟨h'.inv, h'.geometry.trans h.geometry, h'.hash.trans h.hash, h'.caches.trans h.caches,
    fun b => by rw [h'.refCnt, h.refCnt, add_assoc]⟩

/-- The blocks of a cache with the given hashes. -/
def taken (p : JengaBlockPool K H) (leafId : K) (hashes : List H) : List (LittleKVCacheBlock K) :=
  hashes.filterMap fun hash => (p.prefixCaches leafId).lookup hash

theorem Touched.taken_eq (h : Touched p p' f) (leafId : K) (hashes : List H) :
    taken p' leafId hashes = taken p leafId hashes := by
  rw [taken, taken, h.caches]

/-- What is taken for `hashes` in the caches `leafIds`. -/
def takenIn (p : JengaBlockPool K H) (leafIds : List K) (hashes : List H) : Rows K := fun leafId =>
  if leafId ∈ leafIds then taken p leafId hashes else []

/-- Blocks were added to rows, with one reference each. -/
structure Adds (p p' : JengaBlockPool K H) (rows rows' more : Rows K) : Prop where
  rows : ∀ leafId, rows' leafId = rows leafId ++ more leafId
  touched : Touched p p' fun b => (more b.cacheId).count b

theorem Adds.refl (h : p.Inv) (rows : Rows K) : Adds p p rows rows fun _ => [] :=
  ⟨fun _ => (append_nil _).symm, by simpa using Touched.refl h⟩

theorem Adds.trans {rows rows' rows'' more more' more'' : Rows K} (h : Adds p p' rows rows' more)
    (h' : Adds p' p'' rows' rows'' more')
    (hmore : ∀ leafId, more'' leafId = more leafId ++ more' leafId) :
    Adds p p'' rows rows'' more'' := by
  refine ⟨fun leafId => by rw [h'.rows, h.rows, hmore, append_assoc], ?_⟩
  have htrans := h.touched.trans h'.touched
  convert htrans using 2 with b
  rw [hmore, count_append, Nat.cast_add]

/-- One block is taken. -/
theorem claimBlock_spec (h : p.Inv) {leafId : K} {hash : H}
    (hhash : hash ∈ p.prefixCaches leafId) (rows : Rows K) :
    Returns (claimBlock hash rows leafId) p fun rows' p' =>
      Adds p p' rows rows' (takenIn p [leafId] [hash]) := by
  obtain ⟨block, hblock⟩ := Option.isSome_iff_exists.mp (AList.lookup_isSome.mpr hhash)
  obtain ⟨hcache, hreal, htype⟩ := h.of_lookup hblock
  obtain ⟨little, huge, hs⟩ := h
  have htaken : takenIn p [leafId] [hash] = Function.update (fun _ => []) leafId [block] := by
    funext l
    by_cases hl : l = leafId <;> simp [takenIn, taken, hl, hblock]
  rw [Returns, claimBlock, htaken]
  simp only [spec_bind, spec_get, hblock]
  refine Spec.imp (JengaBlockPool.touch_spec hs hreal htype) ?_
  rintro - p' ⟨hinv, hcounted⟩
  refine ⟨fun l => ?_, hinv, hcounted.geometry, hcounted.hash, hcounted.caches, fun b => ?_⟩
  · by_cases hl : l = leafId <;> simp [hl]
  · rw [hcounted.refCnt, Function.update_apply, Function.update_apply]
    by_cases hb : b = block
    · simp [hb, hcache]
    · by_cases hleaf : b.cacheId = leafId <;> simp [hb, hleaf, Ne.symm hb]

/-- One hash is taken in every cache of a group. -/
theorem claimHash_spec (h : p.Inv) {leafIds : List K} (hnodup : leafIds.Nodup) {hash : H}
    (hheld : ∀ leafId ∈ leafIds, hash ∈ p.prefixCaches leafId) (rows : Rows K) :
    Returns (leafIds.foldlM (claimBlock hash) rows) p fun rows' p' =>
      Adds p p' rows rows' (takenIn p leafIds [hash]) := by
  refine Spec.foldlM (I := fun done rows' p' => Adds p p' rows rows' (takenIn p done [hash]))
    leafIds rows ?_ (Adds.refl h rows)
  rintro done leafId todo rfl rows' p' hadds
  have hmem : hash ∈ p'.prefixCaches leafId := by
    rw [hadds.touched.caches]
    exact hheld leafId (by simp)
  have hnot : leafId ∉ done := not_mem_done hnodup rfl
  refine Spec.imp (claimBlock_spec hadds.touched.inv hmem rows') ?_
  refine fun rows'' p'' hadds' => hadds.trans hadds' fun l => ?_
  by_cases hl : l = leafId
  · simp [takenIn, hl, hnot, hadds.touched.taken_eq]
  · simp [takenIn, hl]

/-- All hashes are taken in every cache of a group. -/
theorem claimHashes_spec (h : p.Inv) {leafIds : List K} (hnodup : leafIds.Nodup)
    (hheld : ∀ hash ∈ hashes, ∀ leafId ∈ leafIds, hash ∈ p.prefixCaches leafId) (rows : Rows K) :
    Returns (hashes.foldlM (fun rows hash => leafIds.foldlM (claimBlock hash) rows) rows) p
      fun rows' p' => Adds p p' rows rows' (takenIn p leafIds hashes) := by
  refine Spec.foldlM (I := fun done rows' p' => Adds p p' rows rows' (takenIn p leafIds done))
    hashes rows ?_ ?_
  swap
  · have hnil : takenIn p leafIds ([] : List H) = fun _ => [] :=
      funext fun _ => by simp [takenIn, taken]
    rw [hnil]
    exact Adds.refl h rows
  rintro done hash todo rfl rows' p' hadds
  have hmem : ∀ leafId ∈ leafIds, hash ∈ p'.prefixCaches leafId := by
    rw [hadds.touched.caches]
    exact hheld hash (by simp)
  refine Spec.imp (claimHash_spec hadds.touched.inv hnodup hmem rows') ?_
  refine fun rows'' p'' hadds' => hadds.trans hadds' fun l => ?_
  by_cases hl : l ∈ leafIds
  · simp [takenIn, hl, taken, hadds.touched.caches]
  · simp [takenIn, hl]

/-- The slots that a group needs begin at its window, when it has what it reads. -/
theorem low_eq (hpos : 0 < pageSize) (hres : group.Resumable pageSize p hashes hashes.length) :
    group.low pageSize p hashes = hashes.length - group.reads pageSize hashes.length := by
  rw [Resumable, take_length] at hres
  simp only [← isInPrefixCache_iff] at hres
  rw [low]
  rw [reads] at hres ⊢
  cases hgroup : group.groupId with
  | full => simp
  | slidingWindow windowSize pos =>
    rw [hgroup] at hres
    dsimp only at hres ⊢
    have hmin : hashes.length - min hashes.length ((windowSize - 1) ⌈/⌉ pageSize)
        = hashes.length - (windowSize - 1) ⌈/⌉ pageSize := by omega
    rw [blocksInWindow_eq windowSize hpos pos, ← hmin, if_pos]
    exact all_eq_true.mpr hres

/-- **The blocks of a hit**: null blocks below the window, and the others taken. -/
theorem claimHitBlocks_spec (h : p.Inv) (hnodup : group.leafIds.Nodup) (hpos : 0 < pageSize)
    (hres : group.Resumable pageSize p hashes hashes.length) :
    Returns (group.claimHitBlocks pageSize hashes) p fun rows p' =>
      Adds p p' (fun leafId => List.replicate
          (hashes.length - group.reads pageSize hashes.length) ⟨leafId, 0⟩) rows
        (takenIn p group.leafIds
          (hashes.drop (hashes.length - group.reads pageSize hashes.length))) := by
  rw [Returns, claimHitBlocks]
  simp only [spec_bind, spec_get, low_eq hpos hres]
  rw [Resumable, take_length] at hres
  exact claimHashes_spec h hnodup hres _

end Claim

end KVGroup

namespace JengaBlockManager

variable {K H R : Type} [DecidableEq K] [DecidableEq H] [DecidableEq R]
variable {hashes : List H} {group : KVGroup K} {leafId : K}

/-! ### The common hit -/

variable {pageSize : ℕ} {pool : JengaBlockPool K H} {groups : List (KVGroup K)}

section Narrow

/-- All the groups can resume after the first `n` hashes. -/
def AllResumable (pageSize : ℕ) (pool : JengaBlockPool K H) (groups : List (KVGroup K))
    (hashes : List H) (n : ℕ) : Prop :=
  ∀ group ∈ groups, group.Resumable pageSize pool hashes n

theorem allResumable_of_isPrefix {hashes' : List H}
    (h : hashes' <+: hashes) {n : ℕ} (hn : n ≤ hashes'.length) :
    AllResumable pageSize pool groups hashes' n ↔ AllResumable pageSize pool groups hashes n :=
  forall₂_congr fun _ _ => KVGroup.resumable_of_isPrefix h hn

/-- One pass shortens the hit no further than to a common one, and leaves only a common one as
it was. -/
theorem narrowPass_spec (h : 0 < pageSize) (pool : JengaBlockPool K H)
    (windowed : List (KVGroup K)) (hashes : List H) :
    narrowPass pageSize pool windowed hashes <+: hashes ∧
    (∀ n, n ≤ hashes.length → AllResumable pageSize pool windowed hashes n →
      n ≤ (narrowPass pageSize pool windowed hashes).length) ∧
    ((narrowPass pageSize pool windowed hashes).length = hashes.length →
      AllResumable pageSize pool windowed hashes hashes.length) := by
  induction windowed generalizing hashes with
  | nil => exact ⟨prefix_rfl, fun n hn _ => hn, fun _ group hgroup => by cases hgroup⟩
  | cons group windowed ih =>
    obtain ⟨⟨hle, hresumable⟩, hgreatest⟩ := group.longestCacheHit_spec h pool hashes
    rw [narrowPass, foldl_cons, ← narrowPass]
    generalize hk : group.longestCacheHit pageSize pool hashes = k at hle hresumable hgreatest
    obtain ⟨hpre, hcommon, hfixed⟩ := ih (hashes.take k)
    have hlen : (hashes.take k).length = k := by rw [length_take, min_eq_left hle]
    have htake := take_prefix k hashes
    refine ⟨hpre.trans htake, fun n hn hall => ?_, fun hsame => ?_⟩
    · have hnk : n ≤ k := hgreatest ⟨hn, hall group mem_cons_self⟩
      refine hcommon n (by omega) ((allResumable_of_isPrefix htake (by omega)).mpr ?_)
      exact fun g hg => hall g (mem_cons_of_mem _ hg)
    -- no group of the pass shortened the hit
    have hlen' := hpre.length_le
    have hk' : k = hashes.length := by omega
    subst hk'
    rw [take_length] at hfixed hsame
    intro g hg
    rcases mem_cons.mp hg with rfl | hg
    · exact hresumable
    · exact hfixed hsame g hg

theorem isGreatest_of_isPrefix {hashes' : List H} (h : hashes' <+: hashes)
    (hcommon : ∀ n, n ≤ hashes.length → AllResumable pageSize pool groups hashes n →
      n ≤ hashes'.length) {k : ℕ}
    (hk : IsGreatest {n | n ≤ hashes'.length ∧ AllResumable pageSize pool groups hashes' n} k) :
    IsGreatest {n | n ≤ hashes.length ∧ AllResumable pageSize pool groups hashes n} k := by
  obtain ⟨⟨hle, hall⟩, hgreatest⟩ := hk
  refine ⟨⟨hle.trans h.length_le, (allResumable_of_isPrefix h hle).mp hall⟩, fun n hn => ?_⟩
  have hn' := hcommon n hn.1 hn.2
  exact hgreatest ⟨hn', (allResumable_of_isPrefix h hn').mpr hn.2⟩

/-- The passes end in the longest hit that all window groups can resume from. -/
theorem narrow_spec (h : 0 < pageSize) (pool : JengaBlockPool K H) (windowed : List (KVGroup K))
    (fuel : ℕ) : ∀ hashes : List H, hashes.length < fuel →
    narrow pageSize pool windowed fuel hashes <+: hashes ∧
      IsGreatest {n | n ≤ hashes.length ∧ AllResumable pageSize pool windowed hashes n}
        (narrow pageSize pool windowed fuel hashes).length := by
  induction fuel with
  | zero =>
    intro hashes hlt
    omega
  | succ fuel ih =>
    intro hashes hlt
    obtain ⟨hpre, hcommon, hfixed⟩ := narrowPass_spec h pool windowed hashes
    rw [narrow]
    split_ifs with hnil
    · refine ⟨prefix_rfl, ⟨le_rfl, ?_⟩, fun n hn => hn.1⟩
      rcases hnil with rfl | rfl
      · exact fun g hg => by cases hg
      · exact fun g _ => KVGroup.resumable_zero
    dsimp only
    split_ifs with hstop
    · refine ⟨hpre, isGreatest_of_isPrefix hpre hcommon ⟨⟨le_rfl, ?_⟩, fun n hn => hn.1⟩⟩
      rcases hstop with hsame | hone
      · have heq := hpre.eq_of_length_le (by omega)
        rw [heq]
        exact hfixed (congrArg length heq)
      -- a lone group can resume from its own answer
      obtain ⟨group, rfl⟩ := length_eq_one_iff.mp hone
      obtain ⟨⟨hle, hresumable⟩, -⟩ := group.longestCacheHit_spec h pool hashes
      intro g hg
      rw [mem_singleton.mp hg]
      have hlen : (hashes.take (group.longestCacheHit pageSize pool hashes)).length
          = group.longestCacheHit pageSize pool hashes := by
        rw [length_take, min_eq_left hle]
      refine (KVGroup.resumable_of_isPrefix (List.take_prefix _ hashes) le_rfl).mpr ?_
      rwa [hlen]
    · rw [not_or, not_not] at hstop
      obtain ⟨hpre', hgreatest⟩ := ih (narrowPass pageSize pool windowed hashes) (by omega)
      exact ⟨hpre'.trans hpre, isGreatest_of_isPrefix hpre hcommon hgreatest⟩

end Narrow

/-! ### The groups of a manager -/

section Groups

theorem foldl_fromKeys {α : Type} [DecidableEq α] (xs keys : List α) (h : keys.Nodup) :
    (xs.foldl (fun keys x => if x ∈ keys then keys else keys ++ [x]) keys).Nodup ∧
      ∀ x, x ∈ xs.foldl (fun keys x => if x ∈ keys then keys else keys ++ [x]) keys
        ↔ x ∈ keys ∨ x ∈ xs := by
  induction xs generalizing keys with
  | nil => exact ⟨h, by simp⟩
  | cons y xs ih =>
    rw [foldl_cons]
    by_cases hy : y ∈ keys
    · rw [if_pos hy]
      refine ⟨(ih keys h).1, fun x => ?_⟩
      rw [(ih keys h).2, mem_cons, ← or_assoc]
      exact or_congr_left (or_iff_left_of_imp fun hx => hx ▸ hy).symm
    · have h' : (keys ++ [y]).Nodup := by simpa using Nodup.concat hy h
      rw [if_neg hy]
      refine ⟨(ih _ h').1, fun x => ?_⟩
      rw [(ih _ h').2, mem_append, mem_singleton, mem_cons, or_assoc]

variable (m : JengaBlockManager K H R)

/-- A group is one of the attention patterns of the caches, with the caches that have it. -/
theorem mem_groups (group : KVGroup K) :
    group ∈ m.groups ↔ (∃ leaf ∈ m.leafInfos.entries, leaf.2.groupId = group.groupId) ∧
      group.leafIds
        = (m.leafInfos.entries.filter fun leaf => leaf.2.groupId = group.groupId).map Sigma.fst := by
  have hkeys := foldl_fromKeys (m.leafInfos.entries.map fun leaf => leaf.2.groupId) [] nodup_nil
  obtain ⟨leafIds, groupId⟩ := group
  simp only [groups, mem_map, KVGroup.mk.injEq, fromKeys, hkeys.2, not_mem_nil, false_or]
  constructor
  · rintro ⟨_, ⟨leaf, hleaf, rfl⟩, rfl, rfl⟩
    exact ⟨⟨leaf, hleaf, rfl⟩, rfl⟩
  · rintro ⟨⟨leaf, hleaf, rfl⟩, hleafIds⟩
    exact ⟨_, ⟨leaf, hleaf, rfl⟩, hleafIds.symm, rfl⟩

theorem nodup_groups : (m.groups.map KVGroup.groupId).Nodup := by
  have hkeys := foldl_fromKeys (m.leafInfos.entries.map fun leaf => leaf.2.groupId) [] nodup_nil
  rw [groups, map_map]
  exact (map_id' _).symm ▸ hkeys.1

theorem nodup_leafIds (h : group ∈ m.groups) : group.leafIds.Nodup := by
  rw [((m.mem_groups group).mp h).2]
  exact m.leafInfos.keys_nodup.sublist (filter_sublist.map Sigma.fst)

theorem eq_of_groupId_eq {g g' : KVGroup K} (h : g ∈ m.groups) (h' : g' ∈ m.groups)
    (heq : g.groupId = g'.groupId) : g = g' :=
  inj_on_of_nodup_map m.nodup_groups h h' heq

/-- A cache is in one group. -/
theorem eq_of_mem_leafIds {g g' : KVGroup K} (h : g ∈ m.groups) (h' : g' ∈ m.groups) {c : K}
    (hc : c ∈ g.leafIds) (hc' : c ∈ g'.leafIds) : g = g' := by
  rw [((m.mem_groups g).mp h).2] at hc
  rw [((m.mem_groups g').mp h').2] at hc'
  obtain ⟨leaf, hleaf, rfl⟩ := mem_map.mp hc
  obtain ⟨leaf', hleaf', hfst⟩ := mem_map.mp hc'
  obtain ⟨hmem, hgroup⟩ := mem_filter.mp hleaf
  obtain ⟨hmem', hgroup'⟩ := mem_filter.mp hleaf'
  have heq : leaf' = leaf := m.leafInfos.nodupKeys.eq_of_fst_eq hmem' hmem hfst
  subst heq
  refine m.eq_of_groupId_eq h h' ?_
  rw [← of_decide_eq_true hgroup, ← of_decide_eq_true hgroup']

theorem resumable_full_mono (hfull : group.groupId = .full) {n k : ℕ} (hle : n ≤ k)
    (hk : group.Resumable pageSize pool hashes k) : group.Resumable pageSize pool hashes n := by
  have hreads : ∀ n, group.reads pageSize n = n := fun n => by rw [KVGroup.reads, hfull]
  intro hash hhash
  refine hk hash ?_
  rw [hreads, Nat.sub_self, drop_zero] at hhash ⊢
  exact (List.take_prefix_take_left hle).subset hhash

/-- A hit that the full groups can resume from anywhere is narrowed for the others. -/
theorem narrow_groups (pool : JengaBlockPool K H) {hit : List H} (hpre : hit <+: hashes)
    (hfull : ∀ group ∈ m.groups, group.groupId = .full → ∀ n ≤ hit.length,
      group.Resumable m.blockSize pool hit n)
    (hcommon : ∀ n, n ≤ hashes.length → AllResumable m.blockSize pool m.groups hashes n →
      n ≤ hit.length) {narrowed : List H} (hnarrowed : narrow m.blockSize pool
      (m.groups.filter fun group => group.groupId.isSlidingWindow) (hit.length + 1) hit = narrowed) :
    narrowed <+: hashes ∧
      IsGreatest {n | n ≤ hashes.length ∧ AllResumable m.blockSize pool m.groups hashes n}
        narrowed.length := by
  obtain ⟨hpre', hgreatest⟩ := narrow_spec m.blockSize_pos pool
    (m.groups.filter fun group => group.groupId.isSlidingWindow) _ hit (Nat.lt_succ_self _)
  rw [hnarrowed] at hpre' hgreatest
  refine ⟨hpre'.trans hpre, isGreatest_of_isPrefix hpre hcommon ?_⟩
  convert hgreatest using 1
  ext n
  refine and_congr_right fun hn => ⟨fun hall g hg => hall g (mem_of_mem_filter hg), ?_⟩
  intro hwindow g hg
  cases hcase : g.groupId with
  | full => exact hfull g hg hcase n hn
  | slidingWindow w pos => exact hwindow g (mem_filter.mpr ⟨hg, by rw [hcase]; rfl⟩)

/-- **The common hit** is the longest that every group can resume from. -/
theorem hitHashes_spec (pool : JengaBlockPool K H) (hashes : List H) :
    m.hitHashes pool hashes <+: hashes ∧
      IsGreatest {n | n ≤ hashes.length ∧ AllResumable m.blockSize pool m.groups hashes n}
        (m.hitHashes pool hashes).length := by
  rw [hitHashes]
  cases hfind : m.groups.find? fun group => group.groupId = .full with
  | none =>
    refine m.narrow_groups pool prefix_rfl (fun g hg hfull => ?_) (fun n hn _ => hn) rfl
    exact absurd hfull (by simpa using find?_eq_none.mp hfind g hg)
  | some group =>
    have hmem := mem_of_find?_eq_some hfind
    have hfull : group.groupId = .full := by simpa using find?_some hfind
    obtain ⟨⟨hle, hresumable⟩, hbest⟩ := group.longestCacheHit_spec m.blockSize_pos pool hashes
    have hlen := (length_take ..).trans (min_eq_left hle)
    have htake := take_prefix (group.longestCacheHit m.blockSize pool hashes) hashes
    refine m.narrow_groups pool htake (fun g hg hg' n hn => ?_) (fun n hn hall => ?_) rfl
    · rw [m.eq_of_groupId_eq hg hmem (hg'.trans hfull.symm)]
      refine (KVGroup.resumable_of_isPrefix htake hn).mpr ?_
      exact resumable_full_mono hfull (hn.trans hlen.le) hresumable
    · exact (hbest ⟨hn, hall group hmem⟩).trans hlen.ge

end Groups

/-! ### Taking the common hit -/

variable {E : PyError → JengaBlockManager K H R → Prop}

section Find

variable {m : JengaBlockManager K H R} {p p' : JengaBlockPool K H}

/-- The slots of a cache: null blocks below the window, and then the blocks of the hashes. -/
def slots (pageSize : ℕ) (p : JengaBlockPool K H) (group : KVGroup K) (hashes : List H)
    (leafId : K) : List (LittleKVCacheBlock K) :=
  List.replicate (hashes.length - group.reads pageSize hashes.length) ⟨leafId, 0⟩
    ++ KVGroup.taken p leafId (hashes.drop (hashes.length - group.reads pageSize hashes.length))

theorem bid_ne_zero_of_mem_taken (h : p.Inv)
    {b : LittleKVCacheBlock K} (hb : b ∈ KVGroup.taken p leafId hashes) : b.bid ≠ 0 := by
  obtain ⟨hash, -, hlookup⟩ := mem_filterMap.mp hb
  obtain ⟨-, hreal, -⟩ := h.of_lookup hlookup
  simpa [JengaBlockPool.isNull] using JengaBlockPool.isNull_of_real hreal

/-- The rows of the groups gone through, with one reference for each block that is not null. -/
structure Rowed (pageSize : ℕ) (p p' : JengaBlockPool K H) (hashes : List H)
    (done : List (KVGroup K)) (rows : KVGroup.Rows K) : Prop where
  touched : KVGroup.Touched p p' fun b => if b.bid = 0 then 0 else (rows b.cacheId).count b
  row : ∀ group ∈ done, ∀ leafId ∈ group.leafIds, rows leafId = slots pageSize p group hashes leafId
  other : ∀ leafId, (∀ group ∈ done, leafId ∉ group.leafIds) → rows leafId = []

theorem Rowed.claimGroup (hpos : 0 < pageSize)
    {done : List (KVGroup K)} {rows : KVGroup.Rows K} (hp : p.Inv)
    (h : Rowed pageSize p p' hashes done rows) (hnodup : group.leafIds.Nodup)
    (hnew : ∀ leafId ∈ group.leafIds, ∀ g ∈ done, leafId ∉ g.leafIds)
    (hres : group.Resumable pageSize p hashes hashes.length) :
    Returns (claimGroup pageSize hashes rows group) p' fun rows' p'' =>
      Rowed pageSize p p'' hashes (done ++ [group]) rows' := by
  have hres' : group.Resumable pageSize p' hashes hashes.length := by
    rw [KVGroup.Resumable, h.touched.caches]
    exact hres
  rw [Returns, JengaBlockManager.claimGroup, spec_bind]
  refine Spec.imp (KVGroup.claimHitBlocks_spec h.touched.inv hnodup hpos hres') ?_
  intro rows' p'' hadds
  rw [spec_pure]
  have hslots : ∀ leafId ∈ group.leafIds, rows' leafId = slots pageSize p group hashes leafId := by
    intro leafId hleaf
    rw [hadds.rows, KVGroup.takenIn, if_pos hleaf, h.touched.taken_eq]
    rfl
  refine ⟨?_, ?_, ?_⟩
  · convert h.touched.trans hadds.touched using 2 with b
    rw [KVGroup.takenIn]
    by_cases hb : b.cacheId ∈ group.leafIds
    · rw [if_pos hb, if_pos hb, hslots _ hb, h.other _ (hnew _ hb), h.touched.taken_eq, slots]
      by_cases hnull : b.bid = 0
      · have hnot : b ∉ KVGroup.taken p b.cacheId
            (hashes.drop (hashes.length - group.reads pageSize hashes.length)) :=
          fun hmem => bid_ne_zero_of_mem_taken hp hmem hnull
        simp [hnull, count_eq_zero_of_not_mem hnot]
      · have hne : (⟨b.cacheId, 0⟩ : LittleKVCacheBlock K) ≠ b := fun heq =>
          hnull (by rw [← heq])
        simp [hnull, count_append, count_replicate, hne]
    · simp [hb]
  · intro g hg leafId hleaf
    rcases mem_append.mp hg with hg | hg
    · have hnot : leafId ∉ group.leafIds := fun hmem => hnew leafId hmem g hg hleaf
      rw [if_neg hnot, h.row g hg leafId hleaf]
    · rw [mem_singleton.mp hg] at hleaf ⊢
      rw [if_pos hleaf, hslots leafId hleaf]
  · intro leafId hleaf
    rw [if_neg (hleaf group (by simp)), h.other leafId fun g hg => hleaf g (mem_append_left _ hg)]

theorem foldlM_claimGroup (hp : p.Inv)
    (hres : AllResumable m.blockSize p m.groups hashes hashes.length) :
    Returns (m.groups.foldlM (claimGroup m.blockSize hashes) fun _ => []) p fun rows p' =>
      Rowed m.blockSize p p' hashes m.groups rows := by
  have hgroups := m.nodup_groups.of_map _
  refine Spec.foldlM (I := fun done rows p' => Rowed m.blockSize p p' hashes done rows)
    m.groups _ ?_ ?_
  · intro done group todo hsplit rows p' h
    have hmem : group ∈ m.groups := by rw [hsplit]; simp
    refine h.claimGroup m.blockSize_pos hp (m.nodup_leafIds hmem) ?_ (hres group hmem)
    intro leafId hleaf g hg hleaf'
    have heq := m.eq_of_mem_leafIds (by rw [hsplit]; simp [hg]) hmem hleaf' hleaf
    exact not_mem_done hgroups hsplit (heq ▸ hg)
  · refine ⟨?_, ?_, fun _ _ => rfl⟩
    · simpa using KVGroup.Touched.refl hp
    · intro g hg
      cases hg

theorem taken_of_held (hheld : ∀ hash ∈ hashes, hash ∈ p.prefixCaches leafId) :
    (KVGroup.taken p leafId hashes).length = hashes.length ∧ ∀ i : ℕ,
      (KVGroup.taken p leafId hashes)[i]?
        = hashes[i]?.bind fun hash => (p.prefixCaches leafId).lookup hash := by
  induction hashes with
  | nil => simp [KVGroup.taken]
  | cons hash hashes ih =>
    obtain ⟨block, hblock⟩ := Option.isSome_iff_exists.mp
      (AList.lookup_isSome.mpr (hheld hash mem_cons_self))
    obtain ⟨hlen, hget⟩ := ih fun x hx => hheld x (mem_cons_of_mem _ hx)
    have hcons : KVGroup.taken p leafId (hash :: hashes)
        = block :: KVGroup.taken p leafId hashes := by
      rw [KVGroup.taken, filterMap_cons, hblock]
      rfl
    rw [hcons]
    refine ⟨by rw [length_cons, length_cons, hlen], fun i => ?_⟩
    cases i with
    | zero => simp [hblock]
    | succ i => simpa using hget i

/-- The rows of a hit that the group can resume from. -/
theorem slots_spec (hres : group.Resumable pageSize p hashes hashes.length)
    (hleaf : leafId ∈ group.leafIds) :
    (slots pageSize p group hashes leafId).length = hashes.length ∧ ∀ i < hashes.length,
      (slots pageSize p group hashes leafId)[i]?
        = if i < hashes.length - group.reads pageSize hashes.length then some ⟨leafId, 0⟩
          else hashes[i]?.bind fun hash => (p.prefixCaches leafId).lookup hash := by
  rw [KVGroup.Resumable, take_length] at hres
  rw [slots]
  generalize hlow : hashes.length - group.reads pageSize hashes.length = low at hres
  obtain ⟨hlen, hget⟩ := taken_of_held fun hash hhash => hres hash hhash leafId hleaf
  refine ⟨?_, fun i hi => ?_⟩
  · rw [length_append, length_replicate, hlen, length_drop]
    omega
  split_ifs with hlt
  · rw [getElem?_append_left (by rwa [length_replicate]), getElem?_replicate, if_pos hlt]
  · rw [getElem?_append_right (by rw [length_replicate]; omega), length_replicate,
      hget, getElem?_drop, Nat.add_sub_cancel' (by omega)]

theorem spec_getItem {V : Type} {dict : JengaBlockManager K H R → AList fun _ : R => V} {reqId : R}
    {v : V} (h : (dict m).lookup reqId = some v) {Q : V → JengaBlockManager K H R → Prop} :
    Spec (getItem dict reqId) m Q E ↔ Q v m := by
  rw [getItem]
  simp only [spec_bind, spec_get, h, spec_pure]

theorem spec_onPool {α : Type} {replicaIdx : ℕ} (h : m.pools[replicaIdx]? = some p)
    {f : PyM (JengaBlockPool K H) α} {Q : α → JengaBlockManager K H R → Prop} :
    Spec (onPool replicaIdx f) m Q E
      ↔ Spec f p (fun a p' => Q a { m with pools := m.pools.set replicaIdx p' })
        fun e p' => E e { m with pools := m.pools.set replicaIdx p' } := by
  rw [Spec, Spec, onPool, h]
  dsimp only [focus]
  cases f p <;> rfl

/-- The result of a search for a hit among the hashes that a request desires. -/
structure LongestHit (m : JengaBlockManager K H R) (pool pool' : JengaBlockPool K H)
    (desired : List H) (rows : KVGroup.Rows K) (n : ℕ) : Prop where
  /-- The hit is the longest that every group can resume from. -/
  greatest : IsGreatest {n | n ≤ desired.length ∧
    ∀ group ∈ m.groups, group.Resumable m.blockSize pool desired n} n
  /-- The slots of every cache are null below the window of its group, and hold the blocks of
  the hashes above. -/
  row : ∀ group ∈ m.groups, ∀ leafId ∈ group.leafIds, (rows leafId).length = n ∧
    ∀ i < n, (rows leafId)[i]? = if i < n - group.reads m.blockSize n then some ⟨leafId, 0⟩
      else desired[i]?.bind fun hash => (pool.prefixCaches leafId).lookup hash
  /-- One reference is taken for each of these blocks. -/
  refCnt : ∀ b, pool'.refCnt b
    = pool.refCnt b + if b.bid = 0 then 0 else ((rows b.cacheId).count b : ℤ)
  /-- Nothing is evicted. -/
  kept : pool'.prefixCaches = pool.prefixCaches ∧ pool'.blockHash = pool.blockHash
  inv : pool'.Inv

/-- **The longest prefix cache hit** of a request, over any groups and prefix caches. -/
theorem findLongestPrefixCacheHit_spec {reqId : R} {replicaIdx committedIdx : ℕ} {hashes : List H}
    (hpool : m.pools[replicaIdx]? = some p) (hp : p.Inv)
    (hidx : m.reqToCommittedIdx.lookup reqId = some committedIdx)
    (hhashes : m.reqToHashes.lookup reqId = some hashes) :
    ∃ rows n p', findLongestPrefixCacheHit reqId replicaIdx m
        = .ok (rows, n) { m with pools := m.pools.set replicaIdx p' } ∧
      LongestHit m p p' (hashes.drop (committedIdx / m.blockSize)) rows n := by
  generalize hdesired : hashes.drop (committedIdx / m.blockSize) = desired
  obtain ⟨hpre, hgreatest⟩ := m.hitHashes_spec p desired
  generalize hhit : m.hitHashes p desired = hit at hpre hgreatest
  have hres : AllResumable m.blockSize p m.groups hit hit.length :=
    (allResumable_of_isPrefix hpre le_rfl).mpr hgreatest.1.2
  have hreturns : Returns (findLongestPrefixCacheHit reqId replicaIdx) m fun r m' =>
      r.2 = hit.length ∧ ∃ p', m' = { m with pools := m.pools.set replicaIdx p' } ∧
        Rowed m.blockSize p p' hit m.groups r.1 := by
    rw [Returns, findLongestPrefixCacheHit]
    simp only [spec_bind, spec_get, spec_getItem hidx, spec_getItem hhashes, spec_onPool hpool,
      spec_pure, hdesired, hhit]
    exact Spec.imp (foldlM_claimGroup hp hres) (fun rows p' hrowed => ⟨trivial, p', rfl, hrowed⟩)
  obtain ⟨⟨rows, n⟩, _, hok, rfl, p', rfl, hrowed⟩ := returns_iff.mp hreturns
  refine ⟨rows, hit.length, p', hok, hgreatest, ?_, hrowed.touched.refCnt,
    ⟨hrowed.touched.caches, hrowed.touched.hash⟩, hrowed.touched.inv⟩
  intro group hgroup leafId hleaf
  obtain ⟨hlen, hget⟩ := slots_spec (hres group hgroup) hleaf
  have hrow : rows leafId = slots m.blockSize p group hit leafId := hrowed.row group hgroup leafId hleaf
  rw [hrow]
  refine ⟨hlen, fun i hi => ?_⟩
  rw [hget i hi]
  obtain ⟨rest, rfl⟩ := hpre
  rw [getElem?_append_left hi]

/-- Cache `0` has the blocks of the hashes `5` and `6`, cache `1` only that of `6`. -/
def hitOps : List (JengaBlockPool.Op ℕ ℕ) :=
  [.allocBlock 0, .allocBlock 0, .commit 5 ⟨0, 2⟩, .commit 6 ⟨0, 3⟩, .allocBlock 1, .commit 6 ⟨1, 4⟩]

def hitPool : JengaBlockPool ℕ ℕ :=
  hitOps.foldl (fun p op => op.run p)
    ((JengaBlockPool.init 4 [0, 1] fun _ => 2).toOption.get rfl)

theorem hitPool_inv : hitPool.Inv := by
  have huse : ∀ (p : JengaBlockPool ℕ ℕ) (b : LittleKVCacheBlock ℕ),
      b.cacheId ∈ p.cacheIds → 0 < p.hugeBlock b → p.hugeBlock b < p.numHugeBlocks →
      p.refCnt b ≠ 0 → p.InUse b :=
    fun p b hcache hpos hlt href => Or.inr ⟨⟨hcache, hpos, hlt⟩, href⟩
  have hinit : ((JengaBlockPool.init 4 [0, 1] fun _ => 2).toOption.get rfl
      : JengaBlockPool ℕ ℕ).Inv :=
    JengaBlockPool.Reachable.inv (.init (show JengaBlockPool.init 4 [0, 1] (fun _ => 2) = .ok _
      from rfl))
  refine (((((hinit.run (.allocBlock 0) trivial).run (.allocBlock 0) trivial).run
    (.commit 5 ⟨0, 2⟩) ?_).run (.commit 6 ⟨0, 3⟩) ?_).run (.allocBlock 1) trivial).run
    (.commit 6 ⟨1, 4⟩) ?_
  · exact huse _ _ (by decide) (by decide) (by decide) (by decide)
  · exact huse _ _ (by decide) (by decide) (by decide) (by decide)
  · exact huse _ _ (by decide) (by decide) (by decide) (by decide)

/-- Cache `0` is read in full, cache `1` one block back. -/
def hitManager : JengaBlockManager ℕ ℕ ℕ where
  blockSize := 1
  blockSize_pos := Nat.one_pos
  leafInfos := (AList.singleton 1 ⟨2, .slidingWindow 2 Nat.two_pos⟩).insert 0 ⟨2, .full⟩
  pools := [hitPool]
  reqToHashes := AList.singleton 9 [5, 6, 7]
  reqToCommittedIdx := AList.singleton 9 0

theorem findLongestPrefixCacheHit_spec_two_groups :
    ∃ rows n p', findLongestPrefixCacheHit 9 0 hitManager
        = .ok (rows, n) { hitManager with pools := hitManager.pools.set 0 p' } ∧
      LongestHit hitManager hitPool p' [5, 6, 7] rows n :=
  findLongestPrefixCacheHit_spec (show hitManager.pools[0]? = some hitPool from rfl) hitPool_inv
    (show hitManager.reqToCommittedIdx.lookup 9 = some 0 from rfl)
    (show hitManager.reqToHashes.lookup 9 = some [5, 6, 7] from rfl)

example : hitManager.hitHashes hitPool [5, 6, 7] = [5, 6] := by decide

end Find

end JengaBlockManager
