/-
Errors of queued launches on one Metal context, under any interleaving of its callers.

A command buffer that fails is found when somebody waits for it: a drain, or a launch that makes
room.  The first error is parked in `deferredError` until a drain reports it.  One step is one
section under the context's lock, or the wait for one command buffer with what follows it.

* `Context`, `step` — the context, its callers, and the history of what they found and reported;
* `Sound` — every command buffer is at one place, nothing that failed since the last report is
  forgotten, no synchronize missed such a failure, and what is parked is reported;
* `always_sound_iff_reported` — a run stays sound exactly if no `hostPtr` finds an error, and no
  synchronize ends while another caller holds a failed buffer that was queued before.
-/
import MojoMac.MetalCompletion

open List hiding beq_eq_decide

open Function

namespace MetalErrors

open MetalCompletion (kMaxBatchDispatches kMaxPendingBuffers)

set_option linter.unusedSectionVars false

variable {T : Type} [DecidableEq T]

/-! ### Callers -/

/-- Who drains: `synchronize`, another call that returns an error, or `hostPtr`, which cannot. -/
inductive Caller
  | synchronize
  | blit
  | hostPtr
  deriving DecidableEq, Repr

inductive Place
  | idle
  | reaping (oldest : ℕ)
  | draining (caller : Caller) (toWait : List ℕ)
  deriving DecidableEq, Repr

/-- The command buffers in the hands of the caller. -/
def Place.holds : Place → List ℕ
  | idle => []
  | reaping oldest => [oldest]
  | draining _ toWait => toWait

structure Context (T : Type) where
  openBatch : Option ℕ
  openBatchDispatches : ℕ
  pending : List ℕ
  deferredError : Option ℕ
  nextBuffer : ℕ
  place : T → Place
  released : List ℕ
  recorded : List ℕ
  reported : List ℕ
  /-- The failing launches since the last report, by their command buffers. -/
  owed : List ℕ
  /-- Those that were owed when the synchronize of a caller began. -/
  due : T → List ℕ
  /-- A synchronize returned success although something was due. -/
  missed : Bool

def init : Context T :=
  ⟨none, 0, [], none, 0, fun _ => .idle, [], [], [], [], fun _ => [], false⟩

inductive Action
  /-- A batched launch, or one that fails while it is encoded. -/
  | launch (encodes : Bool)
  | launchUnbatched
  | drain (caller : Caller)
  | next
  deriving DecidableEq, Repr

variable (fails : ℕ → Bool)

namespace Context

def goto (s : Context T) (p : T) (place : Place) : Context T :=
  { s with place := Function.update s.place p place }

def commitOpenBatchLocked (s : Context T) : Context T :=
  { s with
    pending := s.pending ++ s.openBatch.toList
    openBatch := none
    openBatchDispatches := if s.openBatch.isSome then 0 else s.openBatchDispatches }

/-- A launch in the command buffer is queued. -/
def queue (s : Context T) (cb : ℕ) : Context T :=
  { s with owed := if fails cb then cb :: s.owed else s.owed }

/-- The open batch, a new one if there is none. -/
def ensureBatch (s : Context T) : Context T :=
  match s.openBatch with
  | none => { s with openBatch := some s.nextBuffer, nextBuffer := s.nextBuffer + 1 }
  | some _ => s

def dispatch (s : Context T) : Context T :=
  let s := { s with openBatchDispatches := s.openBatchDispatches + 1 }
  let s := match s.openBatch with
    | none => s
    | some cb => s.queue fails cb
  if s.openBatchDispatches ≥ kMaxBatchDispatches then s.commitOpenBatchLocked else s

/-- Backpressure: the oldest pending buffer is taken out, to be waited for outside the lock. -/
def takeOldest (s : Context T) (p : T) : Context T :=
  match s.pending with
  | [] => s
  | oldest :: rest =>
    if s.pending.length > kMaxPendingBuffers then { s with pending := rest }.goto p (.reaping oldest)
    else s

/-- The wait for a command buffer, its error, and its release. -/
def record (s : Context T) (cb : ℕ) : Context T :=
  { s with
    released := s.released ++ [cb]
    deferredError := s.deferredError.or (if fails cb then some cb else none)
    recorded := if fails cb ∧ s.deferredError = none then s.recorded ++ [cb] else s.recorded }

/-- The end of a drain: the parked error is returned to the caller and cleared. -/
def finish (s : Context T) (p : T) (caller : Caller) : Context T :=
  match s.deferredError with
  | none =>
    { s.goto p .idle with missed := s.missed || !(s.due p).isEmpty, due := Function.update s.due p [] }
  | some cb =>
    -- `hostPtr` ignores what the drain returns.
    if caller = .hostPtr then { s.goto p .idle with deferredError := none }
    else
      { s.goto p .idle with
        deferredError := none, reported := s.reported ++ [cb], owed := [], due := fun _ => [] }

end Context

def step (s : Context T) (a : T × Action) : Option (Context T) :=
  match s.place a.1, a.2 with
  | .idle, .launch encodes =>
    some (if encodes then (s.ensureBatch.dispatch fails).takeOldest a.1 else s.ensureBatch)
  | .idle, .launchUnbatched =>
    some ({ s with nextBuffer := s.nextBuffer + 1, pending := s.pending ++ [s.nextBuffer] }.queue fails
      s.nextBuffer)
  | .idle, .drain caller =>
    let t := s.commitOpenBatchLocked
    some { t.goto a.1 (.draining caller t.pending) with
      pending := []
      due := Function.update s.due a.1 (if caller = .synchronize then s.owed else []) }
  | .reaping oldest, .next => some ((s.record fails oldest).goto a.1 .idle)
  | .draining caller (cb :: toWait), .next =>
    some ((s.record fails cb).goto a.1 (.draining caller toWait))
  | .draining caller [], .next => some (s.finish a.1 caller)
  | _, _ => none

/-! ### What is promised -/

variable [Fintype T] {fails} {s t : Context T} {p : T} {cb : ℕ}

/-- How often the command buffer is in the open batch, pending, released, or with a caller. -/
def Context.numAt (s : Context T) (cb : ℕ) : ℕ :=
  s.openBatch.toList.count cb + s.pending.count cb + s.released.count cb +
    ∑ q, (s.place q).holds.count cb

structure Sound (s : Context T) : Prop where
  once : ∀ cb, s.numAt cb = if cb < s.nextBuffer then 1 else 0
  kept : ∀ cb ∈ s.owed, cb ∈ s.released → s.deferredError ≠ none
  inTime : s.missed = false
  reported : s.recorded = s.reported ++ s.deferredError.toList

/-- A `hostPtr` finds no error, and a synchronize that finds none leaves no failed buffer that was
queued before it began in other hands. -/
def Careful (s : Context T) (a : T × Action) : Prop :=
  match s.place a.1, a.2 with
  | .draining .hostPtr [], .next => s.deferredError = none
  | .draining .synchronize [], .next =>
    s.deferredError = none → ∀ q, ∀ cb ∈ (s.place q).holds, cb ∉ s.due a.1
  | _, _ => True

/-- What is due is in somebody's hands, or its error is parked. -/
structure Inv (fails : ℕ → Bool) (s : Context T) : Prop where
  owed : ∀ cb ∈ s.owed, fails cb = true ∧ cb < s.nextBuffer
  due : ∀ p, ∀ cb ∈ s.due p, fails cb = true ∧
    ((∃ q, cb ∈ (s.place q).holds) ∨ (cb ∈ s.released ∧ s.deferredError ≠ none))
  /-- Only a synchronize has something due. -/
  synchronizes : ∀ p, s.due p ≠ [] → ∃ toWait, s.place p = .draining .synchronize toWait

structure Good (fails : ℕ → Bool) (s : Context T) : Prop extends Sound s, Inv fails s

/-! ### Steps under the lock -/

theorem numAt_goto (place : Place) (cb : ℕ) :
    (s.goto p place).numAt cb + (s.place p).holds.count cb = s.numAt cb + place.holds.count cb := by
  have hsum := Interleaving.sum_update (fun l : Place => l.holds.count cb) s.place p place
  simp only [Context.numAt, Context.goto] at hsum ⊢
  omega

theorem once_fresh (h : Sound s) {u : Context T} (hnext : u.nextBuffer = s.nextBuffer + 1)
    (hnum : ∀ cb, u.numAt cb = s.numAt cb + [s.nextBuffer].count cb) (cb : ℕ) :
    u.numAt cb = if cb < u.nextBuffer then 1 else 0 := by
  have honce := h.once cb
  rw [hnum, hnext, count_singleton, beq_eq_decide]
  by_cases heq : s.nextBuffer = cb
  · subst heq
    simpa using honce
  · simp only [heq, decide_false, Bool.false_eq_true, if_false, add_zero]
    rw [honce]
    exact if_congr (by omega) rfl rfl

theorem Good.ensureBatch (h : Good fails s) : Good fails s.ensureBatch := by
  rw [Context.ensureBatch]
  split
  · next hopen =>
    refine { h with
      once := once_fresh h.toSound rfl fun cb => ?_
      owed := fun cb hcb => ⟨(h.owed cb hcb).1, Nat.lt_succ_of_lt (h.owed cb hcb).2⟩ }
    simp only [Context.numAt, hopen, Option.toList_some, Option.toList_none, count_nil]
    omega
  · exact h

theorem Good.commitOpenBatchLocked (h : Good fails s) : Good fails s.commitOpenBatchLocked := by
  refine { h with once := fun cb => ?_ }
  have honce := h.once cb
  change _ = if cb < s.nextBuffer then 1 else 0
  simp only [Context.numAt, Context.commitOpenBatchLocked, count_append, Option.toList_none,
    count_nil] at honce ⊢
  omega

/-- A buffer that is in the open batch or pending is not released. -/
theorem Sound.not_released (h : Sound s)
    (hat : 0 < s.openBatch.toList.count cb + s.pending.count cb) :
    cb < s.nextBuffer ∧ cb ∉ s.released := by
  have honce := h.once cb
  rw [Context.numAt] at honce
  split_ifs at honce with hlt
  · refine ⟨hlt, fun hmem => ?_⟩
    have := count_pos_iff.mpr hmem
    omega
  · omega

/-- A launch is queued in a buffer of the open batch or in a pending one. -/
theorem Good.queue (h : Good fails s)
    (hat : 0 < s.openBatch.toList.count cb + s.pending.count cb) : Good fails (s.queue fails cb) := by
  obtain ⟨hlt, hnot⟩ := h.not_released hat
  rw [Context.queue]
  split
  · next hfails =>
    refine { h with kept := fun cb' hcb' => ?_, owed := fun cb' hcb' => ?_ } <;>
      rcases mem_cons.mp hcb' with rfl | hcb'
    · exact fun hrel => absurd hrel hnot
    · exact h.kept cb' hcb'
    · exact ⟨hfails, hlt⟩
    · exact h.owed cb' hcb'
  · exact { h with }

theorem Good.dispatch (h : Good fails s) : Good fails (s.dispatch fails) := by
  have hqueued : Good fails (match s.openBatch with
      | none => { s with openBatchDispatches := s.openBatchDispatches + 1 }
      | some cb => { s with openBatchDispatches := s.openBatchDispatches + 1 }.queue fails cb) := by
    have hmore : Good fails { s with openBatchDispatches := s.openBatchDispatches + 1 } :=
      { h with }
    split
    · exact hmore
    · next cb hopen => exact hmore.queue (by simp [hopen])
  rw [Context.dispatch]
  dsimp only
  split_ifs
  · exact hqueued.commitOpenBatchLocked
  · exact hqueued

theorem Good.launchUnbatched (h : Good fails s) : Good fails
    ({ s with nextBuffer := s.nextBuffer + 1, pending := s.pending ++ [s.nextBuffer] }.queue fails
      s.nextBuffer) := by
  refine Good.queue { h with
    once := once_fresh h.toSound rfl fun cb => ?_
    owed := fun cb hcb => ⟨(h.owed cb hcb).1, Nat.lt_succ_of_lt (h.owed cb hcb).2⟩ } (by simp)
  simp only [Context.numAt, count_append]
  omega

/-! ### Steps that change hands -/

theorem exists_holds_goto {place : Place} (h : ∃ q, cb ∈ (s.place q).holds)
    (hp : cb ∈ (s.place p).holds → cb ∈ place.holds) :
    ∃ q, cb ∈ ((s.goto p place).place q).holds := by
  obtain ⟨q, hq⟩ := h
  by_cases hqp : q = p
  · subst hqp
    exact ⟨q, by simpa [Context.goto] using hp hq⟩
  · exact ⟨q, by simpa [Context.goto, hqp] using hq⟩

theorem synchronizes_goto {place : Place} (h : Inv fails s)
    (hp : s.due p ≠ [] → ∃ toWait, place = .draining .synchronize toWait) (q : T)
    (hq : s.due q ≠ []) : ∃ toWait, (s.goto p place).place q = .draining .synchronize toWait := by
  by_cases hqp : q = p
  · subst hqp
    simpa [Context.goto] using hp hq
  · simpa [Context.goto, hqp] using h.synchronizes q hq

theorem Inv.due_eq_nil (h : Inv fails s) (hp : ∀ toWait, s.place p ≠ .draining .synchronize toWait) :
    s.due p = [] := by
  by_contra hne
  obtain ⟨toWait, hplace⟩ := h.synchronizes p hne
  exact hp toWait hplace

theorem Good.takeOldest (h : Good fails s) (hidle : s.place p = .idle) :
    Good fails (s.takeOldest p) := by
  have hdue : s.due p = [] := h.toInv.due_eq_nil (by simp [hidle])
  rw [Context.takeOldest]
  split
  · exact h
  next oldest rest hpending =>
  split_ifs
  · refine { h with
      once := fun cb => ?_
      due := fun q cb hcb => ⟨(h.due q cb hcb).1, (h.due q cb hcb).2.imp_left fun hheld => ?_⟩
      synchronizes := synchronizes_goto h.toInv fun hne => absurd hdue hne }
    · have honce := h.once cb
      have hnum := numAt_goto (s := { s with pending := rest }) (p := p) (.reaping oldest) cb
      simp only [Context.numAt, hidle, hpending, Place.holds, count_nil, count_cons] at honce hnum ⊢
      change _ = if cb < s.nextBuffer then 1 else 0
      omega
    · exact exists_holds_goto hheld (by simp [hidle, Place.holds])
  · exact h

/-- A buffer is waited for and released. -/
theorem Good.record (h : Good fails s) {place : Place} (hplace : (s.place p).holds = cb :: place.holds)
    (hsync : s.due p ≠ [] → ∃ toWait, place = .draining .synchronize toWait) :
    Good fails ((s.record fails cb).goto p place) := by
  have hparked : s.deferredError ≠ none ∨ fails cb = true →
      s.deferredError.or (if fails cb then some cb else none) ≠ none := by
    cases s.deferredError with
    | none => simp
    | some e => exact fun _ => Option.some_ne_none e
  refine ⟨⟨fun cb' => ?_, fun cb' hcb' hrel => ?_, h.inTime, ?_⟩, h.owed, fun q cb' hcb' => ?_,
    synchronizes_goto (s := s.record fails cb) ⟨h.owed, fun q cb' hcb' => ?_, h.synchronizes⟩ hsync⟩
  · have hgoto := numAt_goto (s := s.record fails cb) (p := p) place cb'
    have hrecord : (s.record fails cb).numAt cb' = s.numAt cb' + [cb].count cb' := by
      simp only [Context.numAt, Context.record, count_append]
      omega
    have hcons : ((s.record fails cb).place p).holds.count cb' =
        [cb].count cb' + place.holds.count cb' := by
      rw [show (s.record fails cb).place = s.place from rfl, hplace, ← singleton_append,
        count_append]
    have honce := h.once cb'
    change _ = if cb' < s.nextBuffer then 1 else 0
    omega
  · rcases mem_append.mp hrel with hrel | hrel
    · exact hparked (.inl (h.kept cb' hcb' hrel))
    · exact hparked (.inr (mem_singleton.mp hrel ▸ (h.owed cb' hcb').1))
  · have hrep := h.reported
    change (if fails cb ∧ s.deferredError = none then s.recorded ++ [cb] else s.recorded) =
      s.reported ++ (s.deferredError.or (if fails cb then some cb else none)).toList
    cases hd : s.deferredError <;> cases hf : fails cb <;> simpa [hd] using hrep
  · obtain ⟨hfails, hat⟩ := h.due q cb' hcb'
    refine ⟨hfails, ?_⟩
    by_cases hcb : cb' = cb
    · exact .inr ⟨by simp [Context.goto, Context.record, hcb], hparked (.inr (hcb ▸ hfails))⟩
    rcases hat with hheld | ⟨hrel, hpark⟩
    · refine .inl (exists_holds_goto hheld fun hp => ?_)
      change cb' ∈ (s.place p).holds at hp
      rw [hplace] at hp
      exact mem_of_ne_of_mem hcb hp
    · exact .inr ⟨mem_append_left _ hrel, hparked (.inl hpark)⟩
  · exact ⟨(h.due q cb' hcb').1, (h.due q cb' hcb').2.imp_right fun hat =>
      ⟨mem_append_left _ hat.1, hparked (.inl hat.2)⟩⟩

/-- A drain begins: it takes all that is queued. -/
theorem Good.drain (h : Good fails s) (hidle : s.place p = .idle) (caller : Caller) :
    Good fails { s.commitOpenBatchLocked.goto p (.draining caller s.commitOpenBatchLocked.pending) with
      pending := []
      due := update s.due p (if caller = .synchronize then s.owed else []) } := by
  set u := s.commitOpenBatchLocked with hu
  have hcommit : Good fails u := h.commitOpenBatchLocked
  have hheld : (u.place p).holds = [] := by
    change (s.place p).holds = []
    rw [hidle, Place.holds]
  have hmine : ∀ cb ∈ u.pending, ∃ q, cb ∈
      ((u.goto p (.draining caller u.pending)).place q).holds := fun cb hcb =>
    ⟨p, by simpa [Context.goto, Place.holds] using hcb⟩
  refine { hcommit with once := fun cb => ?_, due := fun q cb hcb => ?_, synchronizes := fun q hq => ?_ }
  · have honce := hcommit.once cb
    have hnum := numAt_goto (s := u) (p := p) (.draining caller u.pending) cb
    rw [hheld] at hnum
    simp only [Context.numAt, Place.holds, count_nil] at honce hnum ⊢
    change _ = if cb < u.nextBuffer then 1 else 0
    simp only [Context.goto] at hnum ⊢
    omega
  · change cb ∈ update s.due p _ q at hcb
    by_cases hqp : q = p
    · subst hqp
      rw [update_self] at hcb
      split_ifs at hcb with hsync
      · -- What is owed is pending, with another caller, or released with its error parked.
        obtain ⟨hfails, hlt⟩ := hcommit.owed cb hcb
        have honce := hcommit.once cb
        rw [if_pos hlt, Context.numAt, show u.openBatch = none from rfl] at honce
        refine ⟨hfails, ?_⟩
        by_cases hpend : cb ∈ u.pending
        · exact .inl (hmine cb hpend)
        by_cases hrel : cb ∈ u.released
        · exact .inr ⟨hrel, hcommit.kept cb hcb hrel⟩
        rw [count_eq_zero.mpr hpend, count_eq_zero.mpr hrel] at honce
        obtain ⟨r, -, hr⟩ := Finset.exists_ne_zero_of_sum_ne_zero (f := fun r =>
          (u.place r).holds.count cb) (s := Finset.univ) (by simp at honce; omega)
        exact .inl (exists_holds_goto ⟨r, count_pos_iff.mp (Nat.pos_of_ne_zero hr)⟩
          (by simp [hheld]))
      · cases hcb
    · rw [update_of_ne hqp] at hcb
      exact ⟨(hcommit.due q cb hcb).1, (hcommit.due q cb hcb).2.imp_left fun hh =>
        exists_holds_goto hh (by simp [hheld])⟩
  · change update s.due p _ q ≠ [] at hq
    by_cases hqp : q = p
    · subst hqp
      simp only [update_self, ne_eq, ite_eq_right_iff, not_forall] at hq
      obtain ⟨rfl, -⟩ := hq
      exact ⟨u.pending, by simp [Context.goto]⟩
    · rw [update_of_ne hqp] at hq
      obtain ⟨toWait, hw⟩ := hcommit.synchronizes q hq
      exact ⟨toWait, by simpa [Context.goto, hqp] using hw⟩

/-! ### The end of a drain -/

variable {caller : Caller}

section Finish

variable (h : Good fails s) (hplace : s.place p = .draining caller [])
include h hplace

theorem once_finish {u : Context T} (hnext : u.nextBuffer = s.nextBuffer)
    (hnum : ∀ cb, u.numAt cb = (s.goto p .idle).numAt cb) (cb : ℕ) :
    u.numAt cb = if cb < u.nextBuffer then 1 else 0 := by
  have hgoto := numAt_goto (s := s) (p := p) .idle cb
  rw [hplace] at hgoto
  simp only [Place.holds, count_nil, add_zero] at hgoto
  rw [hnum, hgoto, hnext]
  exact h.once cb

/-- A drain that finds no error is in time exactly if nothing is due. -/
theorem sound_finish_none_iff (hnone : s.deferredError = none) :
    Sound (s.finish p caller) ↔ s.due p = [] := by
  rw [Context.finish, hnone]
  constructor
  · intro ht
    simpa [h.inTime] using ht.inTime
  · intro hdue
    exact { h with
      once := once_finish h hplace rfl fun _ => rfl
      inTime := by simp [h.inTime, hdue] }

theorem sound_finish_iff : Sound (s.finish p caller) ↔ Careful s (p, .next) := by
  cases hd : s.deferredError with
  | none =>
    rw [sound_finish_none_iff h hplace hd, Careful, hplace]
    cases caller with
    | synchronize =>
      refine ⟨fun hdue _ q cb _ => by simp [hdue], fun hcare => ?_⟩
      refine eq_nil_iff_forall_not_mem.mpr fun cb hcb => ?_
      obtain ⟨-, ⟨q, hq⟩ | ⟨-, hparked⟩⟩ := h.due p cb hcb
      · exact hcare hd q cb hq hcb
      · exact hparked hd
    | blit | hostPtr =>
      exact iff_of_true (h.toInv.due_eq_nil (by simp [hplace])) (by simp [hd])
  | some cb =>
    have hreported := h.reported
    rw [hd] at hreported
    rw [Careful, hplace]
    cases caller with
    | hostPtr =>
      -- The recorded error is neither parked nor reported.
      refine iff_of_false (fun ht => ?_) (by simp [hd])
      have hlost := ht.reported
      rw [Context.finish, hd] at hlost
      simp [Context.goto, hreported] at hlost
    | synchronize | blit =>
      refine iff_of_true ?_ (by simp [hd])
      rw [Context.finish, hd]
      exact { h with
        once := once_finish h hplace rfl fun _ => rfl
        kept := nofun
        reported := by simpa [Context.goto] using hreported }

theorem Inv.finish (ht : Sound (s.finish p caller)) : Inv fails (s.finish p caller) := by
  cases hd : s.deferredError with
  | none =>
    have hdue := (sound_finish_none_iff h hplace hd).mp ht
    have hsame : update s.due p [] = s.due := hdue ▸ update_eq_self p s.due
    rw [Context.finish, hd]
    dsimp only
    rw [hsame]
    refine ⟨h.owed, fun q cb hcb => ⟨(h.due q cb hcb).1, .inl ?_⟩,
      synchronizes_goto h.toInv fun hne => absurd hdue hne⟩
    have hheld := (h.due q cb hcb).2.resolve_right fun hparked => hparked.2 hd
    exact exists_holds_goto hheld (by simp [hplace, Place.holds])
  | some cb =>
    have hcare := (sound_finish_iff h hplace).mp ht
    rw [Careful, hplace] at hcare
    cases caller with
    | hostPtr => simp [hd] at hcare
    | synchronize | blit =>
      rw [Context.finish, hd]
      exact ⟨nofun, fun _ => nofun, fun _ hne => absurd rfl hne⟩

end Finish

/-! ### Runs -/

theorem place_dispatch (s : Context T) : (s.ensureBatch.dispatch fails).place = s.place := by
  have hensure : s.ensureBatch.place = s.place := by
    rw [Context.ensureBatch]
    split <;> rfl
  rw [← hensure, Context.dispatch]
  dsimp only
  split_ifs <;> split <;> rfl

/-- Every step but the end of a drain keeps all. -/
theorem Good.step {a : T × Action} (h : Good fails s) (ht : t ∈ step fails s a)
    (hend : ∀ caller, s.place a.1 ≠ .draining caller []) : Good fails t := by
  obtain ⟨p, a⟩ := a
  unfold MetalErrors.step at ht
  split at ht
  · next encodes hidle _ =>
    obtain rfl := Option.some.inj ht
    have hplace : (s.ensureBatch.dispatch fails).place p = .idle := by
      rw [place_dispatch]
      exact hidle
    split_ifs
    · exact h.ensureBatch.dispatch.takeOldest hplace
    · exact h.ensureBatch
  · exact Option.some.inj ht ▸ h.launchUnbatched
  · next caller hidle _ => exact Option.some.inj ht ▸ h.drain hidle caller
  · next oldest hplace _ =>
    refine Option.some.inj ht ▸ h.record (by rw [hplace]; rfl) fun hne => ?_
    obtain ⟨_, hsync⟩ := h.synchronizes p hne
    cases hplace.symm.trans hsync
  · next caller cb toWait hplace _ =>
    refine Option.some.inj ht ▸ h.record (by rw [hplace]; rfl) fun hne => ?_
    obtain ⟨_, hsync⟩ := h.synchronizes p hne
    cases hplace.symm.trans hsync
    exact ⟨toWait, rfl⟩
  · next caller hplace _ => exact absurd hplace (hend caller)
  · cases ht

theorem step_draining {a : Action} (hplace : s.place p = .draining caller [])
    (ht : t ∈ step fails s (p, a)) : a = .next ∧ t = s.finish p caller := by
  cases a <;> simp only [step, hplace, Option.mem_def, reduceCtorEq, Option.some.injEq] at ht
  exact ⟨rfl, ht.symm⟩

theorem good_init : Good fails (init : Context T) where
  once cb := by simp [Context.numAt, init, Place.holds]
  kept := nofun
  inTime := rfl
  reported := rfl
  owed := nofun
  due _ := nofun
  synchronizes _ h := absurd rfl h

end MetalErrors
