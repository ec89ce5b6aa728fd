/-
Hashing a growing request.

The hashes of a request are a chain over its content: the tokens that can be hashed, with
content hashes in the place of media tokens.  They can be computed step by step, from the last
hash so far, except where the hash that is kept is not the one that the chain goes on from.

* `Hasher.hashRequestTokens_snd` — the tokens are as before afterwards;
* `HashConfig.computeBlockHashes_resume` — the hashes from those of an earlier state on;
* `HashConfig.accumulate_spec` — when growing step by step gives the hashes of the final state.
-/
import MojoMac.BlockHashes

open HashChain List

/-! ### Writing several positions of a list -/

/-- The values written to their positions. -/
def setAll {α : Type} (xs : List α) (ps : List (ℕ × α)) : List α :=
  ps.foldl (fun xs p => xs.set p.1 p.2) xs

section SetAll

variable {α : Type} {xs : List α} {ps : List (ℕ × α)}

theorem setAll_cons (xs : List α) (p : ℕ × α) (ps : List (ℕ × α)) :
    setAll xs (p :: ps) = setAll (xs.set p.1 p.2) ps := rfl

@[simp] theorem length_setAll (xs : List α) (ps : List (ℕ × α)) :
    (setAll xs ps).length = xs.length := by
  induction ps generalizing xs with
  | nil => rfl
  | cons p ps ih => rw [setAll_cons, ih, length_set]

theorem getElem?_setAll_of_notMem {j : ℕ} (h : j ∉ ps.map Prod.fst) :
    (setAll xs ps)[j]? = xs[j]? := by
  induction ps generalizing xs with
  | nil => rfl
  | cons p ps ih =>
    rw [map_cons, mem_cons, not_or] at h
    rw [setAll_cons, ih h.2, getElem?_set_ne (Ne.symm h.1)]

theorem getElem?_setAll_of_mem (hps : (ps.map Prod.fst).Nodup) {p : ℕ × α} (hp : p ∈ ps)
    (hlt : p.1 < xs.length) : (setAll xs ps)[p.1]? = some p.2 := by
  induction ps generalizing xs with
  | nil => cases hp
  | cons q ps ih =>
    rw [map_cons, nodup_cons] at hps
    rw [setAll_cons]
    rcases mem_cons.mp hp with rfl | hp
    · rw [getElem?_setAll_of_notMem hps.1, getElem?_set_self hlt]
    · exact ih hps.2 hp (by rwa [length_set])

end SetAll

namespace Hasher

/-! ### Content hashes in the place of tokens -/

variable {ps : List (ℕ × ℤ)}

theorem foldl_replace (h : (ps.map Prod.fst).Nodup) {ts us : List ℤ}
    (hus : ∀ p ∈ ps, us.getD p.1 0 = ts.getD p.1 0) (reset : List (ℕ × ℤ)) :
    ps.foldl (fun (tokens, reset) (idx, tokenHash) =>
      (tokens.set idx tokenHash, reset ++ [(idx, tokens.getD idx 0)])) (us, reset)
      = (setAll us ps, reset ++ ps.map fun p => (p.1, ts.getD p.1 0)) := by
  induction ps generalizing us reset with
  | nil => simp [setAll]
  | cons p ps ih =>
    rw [map_cons, nodup_cons] at h
    -- the positions still to come are untouched
    have hrest : ∀ q ∈ ps, (us.set p.1 p.2).getD q.1 0 = ts.getD q.1 0 := by
      intro q hq
      have hne : p.1 ≠ q.1 := fun heq => h.1 (heq ▸ mem_map_of_mem hq)
      rw [getD_eq_getElem?_getD, getElem?_set_ne hne, ← getD_eq_getElem?_getD]
      exact hus q (mem_cons_of_mem _ hq)
    rw [foldl_cons, ih h.2 hrest, hus p mem_cons_self]
    simp [setAll_cons]

theorem replaceTokens_eq (h : (ps.map Prod.fst).Nodup) (ts : List ℤ) :
    replaceTokens ts ps = (setAll ts ps, ps.map fun p => (p.1, ts.getD p.1 0)) :=
  foldl_replace h (fun _ _ => rfl) []

theorem resetTokens_replaceTokens (h : (ps.map Prod.fst).Nodup)
    (ts : List ℤ) : resetTokens (replaceTokens ts ps).1 (replaceTokens ts ps).2 = ts := by
  rw [replaceTokens_eq h]
  change setAll (setAll ts ps) (ps.map fun p => (p.1, ts.getD p.1 0)) = ts
  have hkeys : (ps.map fun p => (p.1, ts.getD p.1 0)).map Prod.fst = ps.map Prod.fst := by
    rw [map_map]
    rfl
  refine ext_getElem? fun j => ?_
  by_cases hj : j ∈ ps.map Prod.fst
  · obtain ⟨p, hp, rfl⟩ := mem_map.mp hj
    by_cases hlt : p.1 < ts.length
    · have hmem : (p.1, ts.getD p.1 0) ∈ ps.map fun p => (p.1, ts.getD p.1 0) :=
        mem_map.mpr ⟨p, hp, rfl⟩
      rw [getElem?_setAll_of_mem (hkeys ▸ h) hmem (by simpa using hlt)]
      simp [hlt]
    · rw [getElem?_eq_none (by simpa using hlt), getElem?_eq_none (by simpa using hlt)]
  · rw [getElem?_setAll_of_notMem (by rwa [hkeys]), getElem?_setAll_of_notMem hj]

theorem overridesInSlice_eq (os : List TokenHashOverride) (a n : ℕ) :
    overridesInSlice os a n = os.foldlM (addOverride a n) [] := by
  rw [overridesInSlice, if_neg]
  rintro ⟨-, h⟩
  omega

/-- One turn: the override is left out, refused or added. -/
theorem addOverride_cases (a n : ℕ) (acc : List (ℕ × ℤ)) (o : TokenHashOverride) :
    (¬ (a ≤ o.tokenIdx ∧ o.tokenIdx < a + n) ∧ addOverride a n acc o = .ok acc) ∨
    ∃ i, i < n ∧ o.tokenIdx = a + i ∧
      (i ∈ acc.map Prod.fst ∧ (∃ e, addOverride a n acc o = .error e) ∨
        i ∉ acc.map Prod.fst ∧ addOverride a n acc o = .ok (acc ++ [(i, o.tokenHash)])) := by
  by_cases hin : 0 ≤ (o.tokenIdx : ℤ) - a ∧ (o.tokenIdx : ℤ) - a < n
  · refine Or.inr ⟨((o.tokenIdx : ℤ) - a).toNat, by omega, by omega, ?_⟩
    by_cases hdup : ((o.tokenIdx : ℤ) - a).toNat ∈ acc.map Prod.fst
    · refine Or.inl ⟨hdup, ?_⟩
      simp only [addOverride, hin, hdup, and_self, if_true]
      exact ⟨_, rfl⟩
    · refine Or.inr ⟨hdup, ?_⟩
      simp only [addOverride, hin, hdup, and_self, if_true, if_false]
      rfl
  · refine Or.inl ⟨by omega, ?_⟩
    simp only [addOverride, hin, if_false]
    rfl

variable {found : List (ℕ × ℤ)} {os : List TokenHashOverride} {a n : ℕ}

theorem foldlM_addOverride {acc : List (ℕ × ℤ)} (hacc : (acc.map Prod.fst).Nodup)
    (hfold : os.foldlM (addOverride a n) acc = .ok found) : (found.map Prod.fst).Nodup ∧
      ∀ p, p ∈ found ↔ p ∈ acc ∨ p.1 < n ∧ (⟨a + p.1, p.2⟩ : TokenHashOverride) ∈ os := by
  induction os generalizing acc with
  | nil =>
    cases hfold
    exact ⟨hacc, by simp⟩
  | cons o os ih =>
    rw [foldlM_cons] at hfold
    rcases addOverride_cases a n acc o with ⟨hout, hok⟩ | ⟨i, hi, ho, hcase⟩
    · rw [hok] at hfold
      obtain ⟨hnodup, hmem⟩ := ih hacc hfold
      refine ⟨hnodup, fun p => ?_⟩
      have hhead : ¬ (p.1 < n ∧ (⟨a + p.1, p.2⟩ : TokenHashOverride) = o) := by
        rintro ⟨hlt, rfl⟩
        exact hout ⟨by simp, by simpa using hlt⟩
      rw [hmem, mem_cons]
      tauto
    rcases hcase with ⟨-, e, he⟩ | ⟨hnew, hok⟩
    · rw [he] at hfold
      cases hfold
    rw [hok] at hfold
    have hacc' : ((acc ++ [(i, o.tokenHash)]).map Prod.fst).Nodup := by
      rw [map_append, nodup_append']
      exact ⟨hacc, by simp, by simpa using hnew⟩
    obtain ⟨hnodup, hmem⟩ := ih hacc' hfold
    refine ⟨hnodup, fun p => ?_⟩
    have hhead : p = (i, o.tokenHash) ↔ p.1 < n ∧ (⟨a + p.1, p.2⟩ : TokenHashOverride) = o := by
      obtain ⟨j, v⟩ := p
      obtain ⟨k, w⟩ := o
      simp only [Prod.mk.injEq, TokenHashOverride.mk.injEq] at ho ⊢
      constructor
      · rintro ⟨rfl, rfl⟩
        exact ⟨hi, ho.symm, rfl⟩
      · rintro ⟨-, hj, rfl⟩
        exact ⟨by omega, rfl⟩
    rw [hmem, mem_append, mem_singleton, mem_cons, hhead]
    tauto

/-- What is found are the overrides that lie in the array, one for each position. -/
theorem overridesInSlice_spec (h : overridesInSlice os a n = .ok found) :
    (found.map Prod.fst).Nodup ∧
      ∀ p, p ∈ found ↔ p.1 < n ∧ (⟨a + p.1, p.2⟩ : TokenHashOverride) ∈ os := by
  rw [overridesInSlice_eq] at h
  have hnil : (([] : List (ℕ × ℤ)).map Prod.fst).Nodup := nodup_nil
  simpa using foldlM_addOverride hnil h

theorem exists_foldlM_addOverride (hos : (os.map TokenHashOverride.tokenIdx).Nodup)
    {acc : List (ℕ × ℤ)} (hacc : ∀ o ∈ os, ∀ p ∈ acc, o.tokenIdx ≠ a + p.1) :
    ∃ found, os.foldlM (addOverride a n) acc = .ok found := by
  induction os generalizing acc with
  | nil => exact ⟨acc, rfl⟩
  | cons o os ih =>
    rw [map_cons, nodup_cons] at hos
    rw [forall_mem_cons] at hacc
    rw [foldlM_cons]
    rcases addOverride_cases a n acc o with ⟨-, hok⟩ | ⟨i, hi, ho, hcase⟩
    · rw [hok]
      exact ih hos.2 hacc.2
    rcases hcase with ⟨hdup, -⟩ | ⟨-, hok⟩
    · obtain ⟨p, hp, rfl⟩ := mem_map.mp hdup
      exact absurd ho (hacc.1 p hp)
    rw [hok]
    refine ih hos.2 fun o' ho' p hp => ?_
    rcases mem_append.mp hp with hp | hp
    · exact hacc.2 o' ho' p hp
    · rw [mem_singleton.mp hp, ← ho]
      exact fun heq => hos.1 (heq ▸ mem_map_of_mem ho')

/-- Overrides of different tokens are never refused. -/
theorem exists_overridesInSlice (hos : (os.map TokenHashOverride.tokenIdx).Nodup) (a n : ℕ) :
    ∃ found, overridesInSlice os a n = .ok found := by
  rw [overridesInSlice_eq]
  exact exists_foldlM_addOverride hos (by simp)

variable {B : Type} (hs : Hasher B)

/-- **The tokens are as before**, whatever comes of the call. -/
theorem hashRequestTokens_snd (algo : KVHashAlgo) (seed : Option B) (salt : Option String)
    (tokenIds : List ℤ) (blockSize : ℕ) (parentHash : Option B) (a : ℕ)
    (os : List TokenHashOverride) :
    (hs.hashRequestTokens algo seed salt tokenIds blockSize parentHash a os).2 = tokenIds := by
  rw [hashRequestTokens]
  cases hfound : overridesInSlice os a tokenIds.length with
  | error e => rfl
  | ok found => exact resetTokens_replaceTokens (overridesInSlice_spec hfound).1 tokenIds

end Hasher

namespace TextContext

variable {os : List TokenHashOverride}

/-! ### The content of a request -/

variable {R : Type}

/-- The overrides of a request whose images have their hashes. -/
def overrides (ctx : TextContext R) : List TokenHashOverride :=
  match ctx.vision with
  | none => []
  | some fields => fields.images.filterMap (fun img => img.imageHash.map (⟨img.startIdx, ·⟩))
      ++ fields.tokenHashOverrides

/-- Every image has its hash, and no two overrides are for the same token. -/
structure HasContent (ctx : TextContext R) : Prop where
  images : ∀ fields, ctx.vision = some fields → ∀ img ∈ fields.images, img.imageHash ≠ none
  distinct : (ctx.overrides.map TokenHashOverride.tokenIdx).Nodup

theorem mapM_imageOverride (imgs : List ImageMetadata) (h : ∀ img ∈ imgs, img.imageHash ≠ none) :
    imgs.mapM imageOverride
      = .ok (imgs.filterMap fun img => img.imageHash.map (⟨img.startIdx, ·⟩)) := by
  induction imgs with
  | nil => rfl
  | cons img imgs ih =>
    obtain ⟨v, hv⟩ := Option.ne_none_iff_exists'.mp (h img mem_cons_self)
    rw [mapM_cons, ih fun i hi => h i (mem_cons_of_mem _ hi)]
    simp only [imageOverride, hv, filterMap_cons, Option.map_some]
    rfl

theorem hashOverrides_eq {ctx : TextContext R} (h : ctx.HasContent) :
    ctx.hashOverrides = .ok ctx.overrides := by
  have himages := h.images
  rw [hashOverrides, overrides]
  cases hv : ctx.vision with
  | none => rfl
  | some fields =>
    simp only [mapM_imageOverride fields.images (himages fields hv)]
    rfl

/-- The tokens `ts` with content hashes in the place of media tokens. -/
def withOverrides (os : List TokenHashOverride) (ts : List ℤ) : List ℤ :=
  ts.mapIdx fun i t => ((os.find? fun o => o.tokenIdx = i).map TokenHashOverride.tokenHash).getD t

/-- What the hashes of a request are computed from. -/
def content (ctx : TextContext R) : List ℤ :=
  withOverrides ctx.overrides (ctx.tokens.all.take ctx.numHashableTokens.toNat)

@[simp] theorem length_withOverrides (os : List TokenHashOverride) (ts : List ℤ) :
    (withOverrides os ts).length = ts.length := by
  simp [withOverrides]

variable {ts : List ℤ}

theorem getElem?_withOverrides_of_mem
    (hos : (os.map TokenHashOverride.tokenIdx).Nodup) {o : TokenHashOverride} (ho : o ∈ os)
    (hlt : o.tokenIdx < ts.length) : (withOverrides os ts)[o.tokenIdx]? = some o.tokenHash := by
  have hfind : (os.find? fun o' => o'.tokenIdx = o.tokenIdx) = some o := by
    cases hcase : os.find? fun o' => o'.tokenIdx = o.tokenIdx with
    | none =>
      have hnone := find?_eq_none.mp hcase o ho
      simp at hnone
    | some o' =>
      have hidx : o'.tokenIdx = o.tokenIdx := by simpa using find?_some hcase
      rw [inj_on_of_nodup_map hos (mem_of_find?_eq_some hcase) ho hidx]
  simp [withOverrides, hlt, hfind]

theorem getElem?_withOverrides_of_notMem {j : ℕ}
    (hj : ∀ o ∈ os, o.tokenIdx ≠ j) (ts : List ℤ) : (withOverrides os ts)[j]? = ts[j]? := by
  have hfind : (os.find? fun o => o.tokenIdx = j) = none :=
    find?_eq_none.mpr fun o ho => by simpa using hj o ho
  cases hts : ts[j]? <;> simp [withOverrides, getElem?_mapIdx, hfind, hts]

/-- What is written into a part of the tokens is this part of the content. -/
theorem setAll_found (hos : (os.map TokenHashOverride.tokenIdx).Nodup) {a : ℕ}
    {found : List (ℕ × ℤ)}
    (hfound : Hasher.overridesInSlice os a (ts.drop a).length = .ok found) :
    setAll (ts.drop a) found = (withOverrides os ts).drop a := by
  obtain ⟨hnodup, hmem⟩ := Hasher.overridesInSlice_spec hfound
  refine ext_getElem? fun j => ?_
  rw [getElem?_drop]
  by_cases hj : j ∈ found.map Prod.fst
  · obtain ⟨p, hp, rfl⟩ := mem_map.mp hj
    obtain ⟨hlt, ho⟩ := (hmem p).mp hp
    have hlt' : a + p.1 < ts.length := by rw [length_drop] at hlt; omega
    rw [getElem?_setAll_of_mem hnodup hp hlt]
    exact (getElem?_withOverrides_of_mem hos ho hlt').symm
  · rw [getElem?_setAll_of_notMem hj, getElem?_drop]
    by_cases hlt : a + j < ts.length
    · refine (getElem?_withOverrides_of_notMem ?_ ts).symm
      rintro ⟨i, v⟩ ho rfl
      refine hj (mem_map.mpr ⟨(j, v), (hmem (j, v)).mpr ⟨?_, ho⟩, rfl⟩)
      rw [length_drop]
      omega
    · rw [getElem?_eq_none (by omega), getElem?_eq_none (by simp; omega)]

theorem numHashableTokens_lt (ctx : TextContext R) :
    ctx.numHashableTokens < ctx.tokens.all.length := by
  rw [numHashableTokens, TokenBuffer.len]
  omega

@[simp] theorem length_content (ctx : TextContext R) :
    ctx.content.length = ctx.numHashableTokens.toNat := by
  have hlt := ctx.numHashableTokens_lt
  rw [content, length_withOverrides, length_take]
  omega

/-- A request that has grown: its hashable tokens and their overrides are still there. -/
structure Grows (ctx ctx' : TextContext R) : Prop where
  salt : ctx'.cacheSalt = ctx.cacheSalt
  hashable : ctx.numHashableTokens ≤ ctx'.numHashableTokens
  tokens : ctx.tokens.all.take ctx.numHashableTokens.toNat <+: ctx'.tokens.all
  overrides : ∀ o : TokenHashOverride, o.tokenIdx < ctx.numHashableTokens →
    (o ∈ ctx'.overrides ↔ o ∈ ctx.overrides)

/-- The content of a request only grows. -/
theorem Grows.content {ctx ctx' : TextContext R} (h : ctx.Grows ctx') (hc : ctx.HasContent)
    (hc' : ctx'.HasContent) : ctx.content <+: ctx'.content := by
  have hlt := ctx.numHashableTokens_lt
  have hle := h.hashable
  have htokens := h.tokens
  have hn : (ctx.tokens.all.take ctx.numHashableTokens.toNat).length
      = ctx.numHashableTokens.toNat := by rw [length_take]; omega
  rw [prefix_iff_getElem?]
  intro j hj
  rw [length_content] at hj
  rw [← getElem?_eq_getElem, TextContext.content, TextContext.content]
  have htoken : (ctx'.tokens.all.take ctx'.numHashableTokens.toNat)[j]?
      = (ctx.tokens.all.take ctx.numHashableTokens.toNat)[j]? := by
    rw [getElem?_take_of_lt (by omega), prefix_iff_getElem?.mp htokens j (by omega)]
    exact (getElem?_eq_getElem _).symm
  have hlen' : ctx.numHashableTokens.toNat
      ≤ (ctx'.tokens.all.take ctx'.numHashableTokens.toNat).length := by
    have := ctx'.numHashableTokens_lt
    rw [length_take]
    omega
  by_cases ho : ∃ o ∈ ctx.overrides, o.tokenIdx = j
  · obtain ⟨o, ho, rfl⟩ := ho
    rw [getElem?_withOverrides_of_mem hc.distinct ho (by omega),
      getElem?_withOverrides_of_mem hc'.distinct ((h.overrides o (by omega)).mpr ho) (by omega)]
  · push Not at ho
    rw [getElem?_withOverrides_of_notMem ho, getElem?_withOverrides_of_notMem _, htoken]
    intro o ho' hoj
    exact ho o ((h.overrides o (by omega)).mp ho') hoj

end TextContext

namespace HashConfig

variable {ts : List ℤ}

/-! ### The hashes of a content -/

variable {B R : Type} (cfg : HashConfig B) (salt : Option String)

/-- A block holds tokens, and a seed has 32 bytes. -/
structure Valid : Prop where
  blockSize_pos : 0 < cfg.blockSize
  seed : ∀ seed, cfg.seed = some seed → cfg.hasher.width seed = 32

def rootHash : B :=
  match salt.filter (· ≠ "") with
  | none => cfg.seed.getD (cfg.hasher.zeros 32)
  | some salt => cfg.hasher.xor (cfg.seed.getD (cfg.hasher.zeros 32)) (cfg.hasher.digest salt)

/-- What the chain of a request begins with. -/
def start : B :=
  match cfg.algo with
  | .ahash64 => cfg.hasher.zeros 8
  | .sha256 | .sha256_64 => cfg.rootHash salt

/-- How the chain of a request goes on. -/
def link : B → List ℤ → B :=
  match cfg.algo with
  | .ahash64 => cfg.hasher.ahash (cfg.rootHash salt)
  | .sha256 | .sha256_64 => cfg.hasher.sha

/-- What is kept of a hash of the chain. -/
def kept : B → B :=
  match cfg.algo with
  | .ahash64 | .sha256 => id
  | .sha256_64 => cfg.hasher.truncate

/-- The hashes of the full blocks of a content. -/
def hashesOf (content : List ℤ) : List B :=
  (chain (cfg.link salt) cfg.blockSize (content.length / cfg.blockSize) (cfg.start salt)
    (content.map Hasher.toInt32)).map cfg.kept

/-- The number of blocks of a request that can be hashed. -/
def numHashableBlocks (ctx : TextContext R) : ℕ := ctx.numHashableTokens.toNat / cfg.blockSize

variable {cfg} {parent : B}

theorem rootHash_of_none {salt : Option String}
    (h : ¬ (cfg.seed.isSome ∨ salt.isSome)) : cfg.rootHash salt = cfg.hasher.zeros 32 := by
  rw [not_or, Option.not_isSome_iff_eq_none, Option.not_isSome_iff_eq_none] at h
  simp [rootHash, h.1, h.2]

section

variable (h : cfg.Valid) (salt : Option String)

include h

theorem width_seed : cfg.hasher.width (cfg.seed.getD (cfg.hasher.zeros 32)) = 32 := by
  cases hseed : cfg.seed with
  | none => exact cfg.hasher.width_zeros 32
  | some seed => exact h.seed seed hseed

theorem width_rootHash : cfg.hasher.width (cfg.rootHash salt) = 32 := by
  rw [rootHash]
  split
  · exact width_seed h
  · rw [cfg.hasher.width_xor, width_seed h, cfg.hasher.width_digest, min_self]

theorem makeRootParentHash_eq :
    cfg.hasher.makeRootParentHash cfg.seed salt = .ok (cfg.rootHash salt) := by
  rw [Hasher.makeRootParentHash, rootHash]
  simp only [width_seed h, ne_eq, not_true_eq_false, if_false]
  cases salt.filter (· ≠ "") <;> rfl

theorem blockHasher_eq (hparent : cfg.hasher.width parent = 8)
    (ts : List ℤ) : cfg.hasher.blockHasher ts cfg.blockSize parent (cfg.rootHash salt)
      = .ok (chain (cfg.hasher.ahash (cfg.rootHash salt)) cfg.blockSize (ts.length / cfg.blockSize)
          parent (ts.map Hasher.toInt32)) := by
  have hpos := h.blockSize_pos
  simp only [Hasher.blockHasher, hparent, width_rootHash h, hpos.ne', ne_eq, not_true_eq_false,
    if_false]
  rfl

theorem blockHasherSha256_eq (hparent : cfg.hasher.width parent = 32) (ts : List ℤ) :
    cfg.hasher.blockHasherSha256 ts cfg.blockSize parent
      = .ok (chain cfg.hasher.sha cfg.blockSize (ts.length / cfg.blockSize) parent
          (ts.map Hasher.toInt32)) := by
  have hpos := h.blockSize_pos
  simp only [Hasher.blockHasherSha256, hparent, hpos.ne', ne_eq, not_true_eq_false, if_false]
  rfl

/-- The width of what a chain goes on from. -/
def parentWidth (algo : KVHashAlgo) : ℕ :=
  match algo with
  | .ahash64 => 8
  | .sha256 | .sha256_64 => 32

theorem width_start : cfg.hasher.width (cfg.start salt) = parentWidth cfg.algo := by
  rw [start]
  cases cfg.algo with
  | ahash64 => exact cfg.hasher.width_zeros 8
  | sha256 | sha256_64 => exact width_rootHash h salt

theorem rootOrParent_eq {parent : Option B}
    (hparent : ∀ p, parent = some p → cfg.hasher.width p = 32) (name : String) :
    Hasher.hashTokens.rootOrParent cfg.hasher cfg.seed salt parent name
      = .ok (parent.getD (cfg.rootHash salt)) := by
  cases parent with
  | none => exact makeRootParentHash_eq h salt
  | some p =>
    simp only [Hasher.hashTokens.rootOrParent, hparent p rfl, ne_eq, not_true_eq_false, if_false]
    rfl

/-- The hashes from a parent on; no parent is the beginning of the chain. -/
theorem hashTokens_eq {parent : Option B}
    (hparent : ∀ p, parent = some p → cfg.hasher.width p = parentWidth cfg.algo) (ts : List ℤ) :
    cfg.hasher.hashTokens cfg.algo cfg.seed salt cfg.blockSize parent ts
      = .ok ((chain (cfg.link salt) cfg.blockSize (ts.length / cfg.blockSize)
          (parent.getD (cfg.start salt)) (ts.map Hasher.toInt32)).map cfg.kept) := by
  have hwidth : cfg.hasher.width (parent.getD (cfg.start salt)) = parentWidth cfg.algo := by
    cases parent with
    | none => exact width_start h salt
    | some p => exact hparent p rfl
  rw [Hasher.hashTokens.eq_def, link, kept]
  rw [start] at hwidth ⊢
  cases halgo : cfg.algo with
  | ahash64 =>
    simp only [halgo, parentWidth] at hwidth
    by_cases hroot : cfg.seed.isSome ∨ salt.isSome
    · simp only [hroot, if_true, makeRootParentHash_eq h salt]
      simp [bind, Except.bind, pure, Except.pure, blockHasher_eq h salt hwidth ts]
    · have hzeros := rootHash_of_none hroot
      simp only [hroot, if_false, ← hzeros]
      simp [bind, Except.bind, pure, Except.pure, blockHasher_eq h salt hwidth ts]
  | sha256 | sha256_64 =>
    simp only [halgo, parentWidth] at hwidth hparent
    simp [bind, Except.bind, pure, Except.pure, rootOrParent_eq h salt hparent,
      blockHasherSha256_eq h hwidth ts]

end

/-- A parent of the wrong width is refused. -/
theorem hashTokens_refuses (halgo : cfg.algo = .sha256_64)
    (hparent : cfg.hasher.width parent = 8) (ts : List ℤ) :
    ∃ msg, cfg.hasher.hashTokens cfg.algo cfg.seed salt cfg.blockSize (some parent) ts
      = .error (.valueError msg) := by
  have hroot : Hasher.hashTokens.rootOrParent cfg.hasher cfg.seed salt (some parent) "sha256_64"
      = .error (.valueError "algo=sha256_64 requires 32-byte parent_hash, got8") := by
    simp only [Hasher.hashTokens.rootOrParent, hparent]
    rfl
  refine ⟨"algo=sha256_64 requires 32-byte parent_hash, got8", ?_⟩
  rw [Hasher.hashTokens.eq_def, halgo]
  simp only [hroot]
  rfl

/-! ### The hashes of a request -/

/-- The tokens of the request are as before, whatever comes of the call. -/
theorem computeBlockHashes_snd (ctx : TextContext R) (existing : List B) :
    (cfg.computeBlockHashes ctx existing).2 = ctx.tokens.all := by
  rw [computeBlockHashes]
  dsimp only
  split
  · rfl
  rename_i hunhashed
  cases hover : ctx.hashOverrides with
  | error e => rfl
  | ok os =>
    dsimp only
    rw [Hasher.hashRequestTokens_snd]
    -- the three parts of the buffer make the whole again
    have hle : existing.length * cfg.blockSize ≤ ctx.numHashableTokens.toNat := by omega
    rw [drop_take, ← Nat.add_sub_cancel' hle, Nat.add_sub_cancel_left, ← drop_drop,
      append_assoc, take_append_drop, take_append_drop]

@[simp] theorem length_hashesOf (ts : List ℤ) :
    (cfg.hashesOf salt ts).length = ts.length / cfg.blockSize := by
  simp [hashesOf]

/-- The hash that a chain goes on from. -/
theorem width_of_mem_hashesOf {salt : Option String} {p : B} (hp : p ∈ cfg.hashesOf salt ts) :
    cfg.hasher.width p = match cfg.algo with
      | .ahash64 | .sha256_64 => 8
      | .sha256 => 32 := by
  obtain ⟨q, hq, rfl⟩ := mem_map.mp hp
  obtain ⟨q, block, rfl⟩ := exists_of_mem_chain hq
  rw [kept, link]
  cases cfg.algo with
  | ahash64 => exact cfg.hasher.width_ahash _ _ _
  | sha256 => exact cfg.hasher.width_sha _ _
  | sha256_64 => exact cfg.hasher.width_truncate _ (cfg.hasher.width_sha _ _)

/-- What is kept of a hash is the hash itself, or the content has no hashes yet. -/
theorem getLast?_hashesOf (h : cfg.algo = .sha256_64 → ts.length / cfg.blockSize = 0) :
    ((cfg.hashesOf salt ts).getLast?).getD (cfg.start salt)
      = (chain (cfg.link salt) cfg.blockSize (ts.length / cfg.blockSize) (cfg.start salt)
          (ts.map Hasher.toInt32)).getLastD (cfg.start salt) := by
  have hkept : cfg.algo ≠ .sha256_64 → cfg.kept = id := by
    intro halgo
    rw [kept]
    cases hcase : cfg.algo with
    | ahash64 | sha256 => rfl
    | sha256_64 => exact absurd hcase halgo
  rw [hashesOf, getLastD_eq_getLast?]
  by_cases halgo : cfg.algo = .sha256_64
  · rw [h halgo]
    rfl
  · rw [hkept halgo, map_id]

variable (cfg) in
/-- The hashes of a content that goes on. -/
theorem hashesOf_append {ts us : List ℤ} (h : ts <+: us) :
    cfg.hashesOf salt us = cfg.hashesOf salt ts ++ (chain (cfg.link salt) cfg.blockSize
          ((us.drop (ts.length / cfg.blockSize * cfg.blockSize)).length / cfg.blockSize)
          ((chain (cfg.link salt) cfg.blockSize (ts.length / cfg.blockSize) (cfg.start salt)
            (ts.map Hasher.toInt32)).getLastD (cfg.start salt))
          ((us.drop (ts.length / cfg.blockSize * cfg.blockSize)).map Hasher.toInt32)).map
        cfg.kept := by
  have hle : ts.length / cfg.blockSize * cfg.blockSize ≤ ts.length := Nat.div_mul_le_self _ _
  have hlen := h.length_le
  have hblocks : us.length / cfg.blockSize = ts.length / cfg.blockSize
      + (us.drop (ts.length / cfg.blockSize * cfg.blockSize)).length / cfg.blockSize := by
    rw [length_drop, Nat.mul_comm, Nat.sub_mul_div, Nat.add_sub_cancel']
    exact Nat.div_le_div_right hlen
  rw [hashesOf, hashesOf, hblocks, chain_add, map_append, map_drop,
    chain_prefix (h.map _) (by simpa using hle)]

theorem numHashableBlocks_eq (c : TextContext R) :
    cfg.numHashableBlocks c = c.content.length / cfg.blockSize := by
  rw [TextContext.length_content, numHashableBlocks]

@[simp] theorem hashesOf_nil : cfg.hashesOf salt [] = [] :=
  eq_nil_of_length_eq_zero (by simp)

section

variable {ctx c : TextContext R} {existing : List B} (h : cfg.Valid)

include h

/-- A call with no full block to hash returns nothing. -/
theorem computeBlockHashes_of_le (hle : cfg.numHashableBlocks ctx ≤ existing.length) :
    (cfg.computeBlockHashes ctx existing).1 = .ok [] := by
  have hlt : ctx.numHashableTokens.toNat < (existing.length + 1) * cfg.blockSize :=
    (Nat.div_lt_iff_lt_mul h.blockSize_pos).mp (Nat.lt_succ_of_le hle)
  rw [Nat.add_mul, one_mul] at hlt
  rw [computeBlockHashes]
  dsimp only
  rw [if_pos]
  push_cast
  omega

/-- Another call hashes the rest of the content. -/
theorem computeBlockHashes_of_lt (hc : ctx.HasContent)
    (hlt : existing.length < cfg.numHashableBlocks ctx) :
    (cfg.computeBlockHashes ctx existing).1
      = cfg.hasher.hashTokens cfg.algo cfg.seed ctx.cacheSalt cfg.blockSize existing.getLast?
          (ctx.content.drop (existing.length * cfg.blockSize)) := by
  have hle : (existing.length + 1) * cfg.blockSize ≤ ctx.numHashableTokens.toNat :=
    (Nat.le_div_iff_mul_le h.blockSize_pos).mp hlt
  have hpos := h.blockSize_pos
  rw [Nat.add_mul, one_mul] at hle
  rw [computeBlockHashes, TextContext.hashOverrides_eq hc]
  dsimp only
  rw [if_neg (by push_cast; omega)]
  obtain ⟨found, hfound⟩ := Hasher.exists_overridesInSlice hc.distinct
    (existing.length * cfg.blockSize) ((ctx.tokens.all.take ctx.numHashableTokens.toNat).drop
      (existing.length * cfg.blockSize)).length
  rw [Hasher.hashRequestTokens, hfound]
  dsimp only
  rw [Hasher.replaceTokens_eq (Hasher.overridesInSlice_spec hfound).1,
    TextContext.setAll_found hc.distinct hfound]
  rfl

variable (cfg) in
/-- Hashing goes on from `m` blocks to `n`: unless hashes are cut, or there is nothing to go on
from or to. -/
def Resumes (m n : ℕ) : Prop := cfg.algo = .sha256_64 → m = 0 ∨ n = m

omit h in
theorem resumes_nil (n : ℕ) : cfg.Resumes (([] : List ℤ).length / cfg.blockSize) n := by
  intro _
  exact Or.inl (by simp)

/-- **The hashes of a request from those of an earlier content on.** -/
theorem computeBlockHashes_resume (hc : ctx.HasContent) (hts : ts <+: ctx.content)
    (hresume : cfg.Resumes (ts.length / cfg.blockSize) (cfg.numHashableBlocks ctx)) :
    ∃ new, (cfg.computeBlockHashes ctx (cfg.hashesOf ctx.cacheSalt ts)).1 = .ok new ∧
      cfg.hashesOf ctx.cacheSalt ts ++ new = cfg.hashesOf ctx.cacheSalt ctx.content := by
  have happend := cfg.hashesOf_append ctx.cacheSalt hts
  by_cases hlt : ts.length / cfg.blockSize < cfg.numHashableBlocks ctx
  · -- the last hash, if there is one, is the one that the chain goes on from
    have hfresh : cfg.algo = .sha256_64 → ts.length / cfg.blockSize = 0 := by
      intro halgo
      rcases hresume halgo with h0 | heq
      · exact h0
      · omega
    have hparent : ∀ p, (cfg.hashesOf ctx.cacheSalt ts).getLast? = some p →
        cfg.hasher.width p = parentWidth cfg.algo := by
      intro p hp
      have hmem := mem_of_getLast? hp
      rw [width_of_mem_hashesOf hmem]
      cases halgo : cfg.algo with
      | ahash64 | sha256 => rfl
      | sha256_64 =>
        have hnil := length_pos_of_mem hmem
        rw [length_hashesOf, hfresh halgo] at hnil
        omega
    refine ⟨_, ?_, happend.symm⟩
    rw [computeBlockHashes_of_lt h hc (by rwa [length_hashesOf]), length_hashesOf,
      hashTokens_eq h ctx.cacheSalt hparent, getLast?_hashesOf ctx.cacheSalt hfresh]
  · refine ⟨[], computeBlockHashes_of_le h (by rw [length_hashesOf]; omega), ?_⟩
    refine (IsPrefix.eq_of_length_le ?_ ?_)
    · rw [happend, append_nil]
      exact prefix_append _ _
    · rw [append_nil, length_hashesOf, length_hashesOf, ← numHashableBlocks_eq]
      omega

/-- The hash that is kept of a block is refused as a parent when it was cut. -/
theorem computeBlockHashes_refuses (hc : ctx.HasContent)
    (hle : ts.length / cfg.blockSize ≤ cfg.numHashableBlocks ctx)
    (hresume : ¬ cfg.Resumes (ts.length / cfg.blockSize) (cfg.numHashableBlocks ctx)) :
    ∃ msg, (cfg.computeBlockHashes ctx (cfg.hashesOf ctx.cacheSalt ts)).1
      = .error (.valueError msg) := by
  rw [Resumes, Classical.not_imp, not_or] at hresume
  obtain ⟨halgo, hts, hne⟩ := hresume
  have hlt := lt_of_le_of_ne hle (Ne.symm hne)
  rw [computeBlockHashes_of_lt h hc (by rwa [length_hashesOf])]
  cases hlast : (cfg.hashesOf ctx.cacheSalt ts).getLast? with
  | none =>
    have hlen := congrArg length (getLast?_eq_none_iff.mp hlast)
    rw [length_hashesOf] at hlen
    exact absurd hlen hts
  | some p =>
    have hwidth := width_of_mem_hashesOf (mem_of_getLast? hlast)
    rw [halgo] at hwidth
    exact hashTokens_refuses ctx.cacheSalt halgo hwidth _

/-! ### Whole runs -/

variable (cfg) in
/-- Hashing goes on at every step. -/
def ResumesAll (cs : List (TextContext R)) : Prop :=
  cs.IsChain fun x y => cfg.Resumes (cfg.numHashableBlocks x) (cfg.numHashableBlocks y)

/-- One step of a run. -/
theorem accumulate_cons (hc : c.HasContent) (hts : ts <+: c.content)
    (hresume : cfg.Resumes (ts.length / cfg.blockSize) (cfg.numHashableBlocks c))
    (cs : List (TextContext R)) : cfg.accumulate (cfg.hashesOf c.cacheSalt ts) (c :: cs)
      = cfg.accumulate (cfg.hashesOf c.cacheSalt c.content) cs := by
  obtain ⟨new, hnew, happend⟩ := computeBlockHashes_resume h hc hts hresume
  rw [accumulate, hnew, ← happend]
  rfl

/-- A run in which hashing goes on at every step gives the hashes of the last state; any other
raises an error. -/
theorem accumulate_cases {cs : List (TextContext R)} (hc : ∀ ctx ∈ c :: cs, ctx.HasContent)
    (hgrow : (c :: cs).IsChain TextContext.Grows) (hts : ts <+: c.content)
    (hresume : cfg.Resumes (ts.length / cfg.blockSize) (cfg.numHashableBlocks c)) :
    (cfg.ResumesAll (c :: cs) → cfg.accumulate (cfg.hashesOf c.cacheSalt ts) (c :: cs)
      = .ok (cfg.hashesOf (cs.getLastD c).cacheSalt (cs.getLastD c).content)) ∧
    (¬ cfg.ResumesAll (c :: cs) →
      ∃ e, cfg.accumulate (cfg.hashesOf c.cacheSalt ts) (c :: cs) = .error e) := by
  rw [accumulate_cons h (hc c mem_cons_self) hts hresume]
  induction cs generalizing c ts with
  | nil => exact ⟨fun _ => rfl, fun hall => absurd (isChain_singleton c) hall⟩
  | cons c' cs ih =>
    obtain ⟨hgrows, hgrow⟩ := isChain_cons_cons.mp hgrow
    have hc' := hc c' (mem_cons_of_mem _ mem_cons_self)
    have hcontent := hgrows.content (hc c mem_cons_self) hc'
    have hcons : cfg.ResumesAll (c :: c' :: cs) ↔
        cfg.Resumes (c.content.length / cfg.blockSize) (cfg.numHashableBlocks c') ∧
          cfg.ResumesAll (c' :: cs) := by
      rw [← numHashableBlocks_eq]
      exact isChain_cons_cons
    rw [hcons, ← hgrows.salt, getLastD_cons]
    by_cases hresume' : cfg.Resumes (c.content.length / cfg.blockSize) (cfg.numHashableBlocks c')
    · rw [accumulate_cons h hc' hcontent hresume', and_iff_right hresume']
      exact ih (fun ctx hctx => hc ctx (mem_cons_of_mem _ hctx)) hgrow hcontent hresume'
    refine ⟨fun hall => absurd hall.1 hresume', fun _ => ?_⟩
    have hle : c.content.length / cfg.blockSize ≤ cfg.numHashableBlocks c' := by
      rw [numHashableBlocks_eq c']
      exact Nat.div_le_div_right hcontent.length_le
    obtain ⟨msg, hmsg⟩ := computeBlockHashes_refuses h hc' hle hresume'
    refine ⟨.valueError msg, ?_⟩
    rw [accumulate, hmsg]
    rfl

/-- One call on a request that has no hashes yet. -/
theorem computeBlockHashes_nil (hc : c.HasContent) :
    (cfg.computeBlockHashes c []).1 = .ok (cfg.hashesOf c.cacheSalt c.content) := by
  obtain ⟨new, hnew, happend⟩ := computeBlockHashes_resume h hc c.content.nil_prefix (resumes_nil _)
  rw [hashesOf_nil] at hnew happend
  rw [hnew, ← happend]
  rfl

end

theorem resumesAll_iff (cs : List (TextContext R)) :
    cfg.ResumesAll cs ↔ (cfg.algo = .sha256_64 → cs.IsChain fun x y =>
      cfg.numHashableBlocks x = 0 ∨ cfg.numHashableBlocks y = cfg.numHashableBlocks x) := by
  constructor
  · intro hall halgo
    exact hall.imp fun _ _ hresume => hresume halgo
  · intro hcut
    by_cases halgo : cfg.algo = .sha256_64
    · exact (hcut halgo).imp fun _ _ hxy _ => hxy
    · exact (pairwise_of_forall fun _ _ hsha => absurd hsha halgo).isChain

/-- Byte strings as their length and a number. -/
def sumHasher : Hasher (ℕ × ℤ) where
  width b := b.1
  ahash seed parent block := (8, seed.2 + 3 * parent.2 + block.sum)
  sha parent block := (32, 3 * parent.2 + block.sum)
  digest salt := (32, salt.length)
  xor a b := (min a.1 b.1, a.2 - b.2)
  truncate a := (8, a.2 % 5)
  zeros n := (n, 0)
  width_ahash _ _ _ := rfl
  width_sha _ _ := rfl
  width_digest _ := rfl
  width_xor _ _ := rfl
  width_truncate _ _ := rfl
  width_zeros _ := rfl

def sumConfig (algo : KVHashAlgo) : HashConfig (ℕ × ℤ) := ⟨sumHasher, algo, none, 1⟩

/-- A request with one image. -/
def imageRequest (tokens : List ℤ) : TextContext ℕ :=
  ⟨0, ⟨tokens, 0, tokens.length, 0, false⟩, 0, some ⟨[⟨1, some 77⟩], []⟩, none, 0, 0, none⟩

theorem valid_sumConfig (algo : KVHashAlgo) : (sumConfig algo).Valid where
  blockSize_pos := Nat.one_pos
  seed := by
    intro seed hseed
    cases hseed

theorem hasContent_imageRequest (tokens : List ℤ) : (imageRequest tokens).HasContent where
  images := by
    intro fields hfields img himg
    cases hfields
    rw [mem_singleton.mp himg]
    exact Option.some_ne_none 77
  distinct := nodup_singleton 1

theorem grows_imageRequest (tokens more : List ℤ) :
    (imageRequest tokens).Grows (imageRequest (tokens ++ more)) where
  salt := rfl
  hashable := by simp [TextContext.numHashableTokens, imageRequest, TokenBuffer.len]
  tokens := (List.take_prefix _ _).trans (prefix_append _ _)
  overrides _ _ := Iff.rfl

end HashConfig
