/-
When the calls of the device runtime wait for kernels that were launched before.

Each Metal context has a queue: launches go into an open batch or into command buffers that are
committed, and the device completes committed command buffers in commit order, whenever it likes.
`drainPending` commits the open batch and waits for everything pending.  Calls come one after
another; what the device and the allocator answer is part of the call.

* `Queue`, `Runtime`, `call` — the queues of the contexts, and what each call does and returns;
* `Tracked` — every command buffer in flight is pending, so that a drain waits for it;
* `concerns` — the launches that must be complete when a call returns successfully;
* `Guaranteed`, `Safe` — that they are, and the condition under which they are;
* `along_guaranteed_iff` — a run keeps the promise exactly if each of its calls is safe.
-/
import MojoMac.Interleaving

open List

namespace MetalCompletion

/-- A committed command buffer: its place in the commit order and the launches in it. -/
structure CommandBuffer where
  number : ℕ
  launches : List ℕ
  deriving DecidableEq, Repr

/-- The queue of a context.  Launches are numbered in the order in which they are issued. -/
structure Queue where
  /-- The launches encoded into the open batch, if there is one. -/
  openBatch : Option (List ℕ)
  pending : List CommandBuffer
  /-- Committed and not yet completed. -/
  inFlight : List CommandBuffer
  commits : ℕ
  launched : ℕ
  deriving DecidableEq, Repr

def emptyQueue : Queue := ⟨none, [], [], 0, 0⟩

/-- How a launch is made, by the environment variables of the process. -/
inductive Mode
  | batched
  | queued
  | sync
  deriving DecidableEq, Repr

def kMaxBatchDispatches : ℕ := 64

def kMaxPendingBuffers : ℕ := 4

namespace Queue

variable (q : Queue)

/-- The command buffer that is committed next. -/
def nextBuffer (launches : List ℕ) : CommandBuffer := ⟨q.commits, launches⟩

def commit (launches : List ℕ) : Queue :=
  { q with inFlight := q.inFlight ++ [q.nextBuffer launches], commits := q.commits + 1 }

/-- Waits for a command buffer, and so for all that were committed before it. -/
def waitUntilCompleted (cb : CommandBuffer) : Queue :=
  { q with inFlight := q.inFlight.filter fun other => cb.number < other.number }

def commitOpenBatchLocked : Queue :=
  match q.openBatch with
  | none => q
  | some launches =>
    { q.commit launches with
      pending := q.pending ++ [q.nextBuffer launches]
      openBatch := none }

def drainPending : Queue :=
  let q := q.commitOpenBatchLocked
  q.pending.foldl waitUntilCompleted { q with pending := [] }

/-- A blit: the queue is drained, and unless that reports an error a command buffer of its own is
committed and waited for. -/
def runBlitOp (error : Bool) : Queue :=
  let q := q.drainPending
  if error then q else (q.commit []).waitUntilCompleted (q.nextBuffer [])

/-- The backpressure of a batched launch: the oldest pending buffer is waited for. -/
def reapOldest : Queue :=
  match q.pending with
  | oldest :: rest =>
    if q.pending.length > kMaxPendingBuffers then
      { q with pending := rest }.waitUntilCompleted oldest
    else q
  | [] => q

def launch (mode : Mode) : Queue :=
  let launch := q.launched
  let q := { q with launched := q.launched + 1 }
  match mode with
  | .batched =>
    let launches := q.openBatch.getD [] ++ [launch]
    let q := { q with openBatch := some launches }
    (if launches.length ≥ kMaxBatchDispatches then q.commitOpenBatchLocked else q).reapOldest
  | .queued => { q.commit [launch] with pending := q.pending ++ [q.nextBuffer [launch]] }
  | .sync => (q.commit [launch]).waitUntilCompleted (q.nextBuffer [launch])

/-- The device completes the next command buffer. -/
def complete : Queue := { q with inFlight := q.inFlight.tail }

/-- A launch that is still in the open batch or in a command buffer in flight. -/
def Incomplete (launch : ℕ) : Prop :=
  (∃ launches ∈ q.openBatch, launch ∈ launches) ∨ ∃ cb ∈ q.inFlight, launch ∈ cb.launches

/-- The first `n` launches are complete. -/
def Completed (n : ℕ) : Prop := ∀ launch < n, ¬ q.Incomplete launch

end Queue

/-! ### The calls -/

section

variable {K E : Type} [DecidableEq K] [DecidableEq E]

/-- A buffer, on a Metal context or in host memory. -/
structure Buffer (K : Type) where
  mtl : Option K
  bytes : ℕ
  isHost : Bool
  deriving DecidableEq, Repr

structure Runtime (K E : Type) where
  queue : K → Queue
  /-- The context on whose stream an event was recorded, and the launches issued there before. -/
  event : E → Option (K × ℕ)

def init : Runtime K E := ⟨fun _ => emptyQueue, fun _ => none⟩

/-- The calls, and the steps of the device.  A stream stands for its context.  `staged` says
whether a staging buffer could be made, `error` whether the drain or the blit reports an error. -/
inductive Call (K E : Type)
  | launch (ctx : K) (mode : Mode)
  | complete (ctx : K)
  | synchronize (ctx : K) (error : Bool)
  | streamSynchronize (ctx : K)
  | enqueueHostFunc (ctx : K)
  | eventRecord (event : E) (ctx : K)
  | eventSynchronize (event : E)
  | copyHtoD (dst : Buffer K) (staged error : Bool)
  | copyDtoH (src : Buffer K) (staged error : Bool)
  | copyDtoD (dst src : Buffer K) (error : Bool)
  | fill (dst : Buffer K) (uniform staged error : Bool)
  /-- A raw-address copy, with the context of the buffer that the address resolves to. -/
  | copyRaw (ctx : K) (target : Option K) (error : Bool)
  | hostPtr (buf : Buffer K)
  deriving DecidableEq, Repr

variable (s : Runtime K E)

def Runtime.update (ctx : K) (q : Queue) : Runtime K E :=
  { s with queue := Function.update s.queue ctx q }

def Runtime.drain (ctx : K) : Runtime K E :=
  s.update ctx (s.queue ctx).drainPending

def Runtime.blit (ctx : K) (error : Bool) : Runtime K E :=
  s.update ctx ((s.queue ctx).runBlitOp error)

/-- `HtoD_async` and `DtoH_async`: the state after the call, and whether it returns success. -/
def copy (buf : Buffer K) (staged error : Bool) : Runtime K E × Bool :=
  match buf.mtl with
  | none => (s, true)
  | some ctx =>
    if buf.bytes = 0 then (s, true)
    else if buf.isHost then (s.drain ctx, !error)
    else if !staged then (s, false)
    else (s.blit ctx error, !error)

def copyDtoD (dst src : Buffer K) (error : Bool) : Runtime K E × Bool :=
  match dst.mtl, src.mtl with
  | some ctx, some _ =>
    if min dst.bytes src.bytes = 0 then (s, true) else (s.blit ctx error, !error)
  | _, _ => (s, true)

def fill (dst : Buffer K) (uniform staged error : Bool) : Runtime K E × Bool :=
  match dst.mtl with
  | none => (s, true)
  | some ctx =>
    if dst.bytes = 0 then (s, true)
    else if uniform then (s.blit ctx error, !error)
    else copy s dst staged error

/-- The state after a call, and whether it returns success. -/
def call : Call K E → Runtime K E × Bool
  | .launch ctx mode => (s.update ctx ((s.queue ctx).launch mode), true)
  | .complete ctx => (s.update ctx (s.queue ctx).complete, true)
  | .synchronize ctx error => (s.drain ctx, !error)
  | .streamSynchronize _ => (s, true)
  | .enqueueHostFunc _ => (s, true)
  | .eventRecord event ctx =>
    ({ s with event := Function.update s.event event (some (ctx, (s.queue ctx).launched)) }, true)
  | .eventSynchronize _ => (s, true)
  | .copyHtoD dst staged error => copy s dst staged error
  | .copyDtoH src staged error => copy s src staged error
  | .copyDtoD dst src error => copyDtoD s dst src error
  | .fill dst uniform staged error => fill s dst uniform staged error
  | .copyRaw ctx target error => if target.isNone then (s, false) else (s.blit ctx error, !error)
  | .hostPtr buf =>
    match buf.mtl with
    | none => (s, true)
    | some ctx => if buf.isHost then (s.drain ctx, true) else (s, true)

def step (c : Call K E) : Option (Runtime K E) := some (call s c).1

/-! ### What is promised -/

/-- All launches issued on the context so far. -/
def Runtime.issued (ctx : K) : K × ℕ := (ctx, (s.queue ctx).launched)

/-- The contexts that a call concerns, with the number of launches issued there that must be
complete when it returns: those of the buffers it is given, or of its stream or event. -/
def concerns : Call K E → List (K × ℕ)
  | .launch _ _ | .complete _ | .eventRecord _ _ => []
  | .synchronize ctx _ | .streamSynchronize ctx | .enqueueHostFunc ctx => [s.issued ctx]
  | .eventSynchronize event => (s.event event).toList
  | .copyHtoD buf _ _ | .copyDtoH buf _ _ | .fill buf _ _ _ | .hostPtr buf =>
    buf.mtl.toList.map s.issued
  | .copyDtoD dst src _ => (dst.mtl.toList ++ src.mtl.toList).map s.issued
  | .copyRaw _ target _ => target.toList.map s.issued

/-- If the call returns successfully, the launches that it concerns are complete. -/
def Guaranteed (c : Call K E) : Prop :=
  (call s c).2 = true → ∀ r ∈ concerns s c, ((call s c).1.queue r.1).Completed r.2

/-- The launches issued on the context so far are complete. -/
def Runtime.Idle (ctx : K) : Prop :=
  (s.queue ctx).Completed (s.queue ctx).launched

/-- What a call relies on: where it does not drain the queue of a context that it concerns, that
queue has to be idle already. -/
def Safe : Call K E → Prop
  | .launch _ _ | .complete _ | .eventRecord _ _ | .synchronize _ _ => True
  | .streamSynchronize ctx | .enqueueHostFunc ctx => s.Idle ctx
  | .eventSynchronize event => ∀ r ∈ s.event event, (s.queue r.1).Completed r.2
  | .copyHtoD buf _ _ | .copyDtoH buf _ _ | .fill buf _ _ _ =>
    ∀ ctx ∈ buf.mtl, buf.bytes = 0 → s.Idle ctx
  | .copyDtoD dst src error =>
    if dst.mtl.isSome ∧ src.mtl.isSome ∧ min dst.bytes src.bytes ≠ 0 then
      error = false → ∀ ctx ∈ src.mtl, dst.mtl = some ctx ∨ s.Idle ctx
    else (∀ ctx ∈ dst.mtl, s.Idle ctx) ∧ ∀ ctx ∈ src.mtl, s.Idle ctx
  | .copyRaw ctx target error => error = false → ∀ ctx' ∈ target, ctx = ctx' ∨ s.Idle ctx'
  | .hostPtr buf => ∀ ctx ∈ buf.mtl, buf.isHost = false → s.Idle ctx

end

/-! ### Queues -/

variable {q : Queue} {cb : CommandBuffer}

namespace Queue

/-- Every command buffer in flight is pending. -/
def Tracked (q : Queue) : Prop := ∀ cb ∈ q.inFlight, cb ∈ q.pending

theorem mem_waitUntilCompleted {other : CommandBuffer} :
    other ∈ (q.waitUntilCompleted cb).inFlight ↔ other ∈ q.inFlight ∧ cb.number < other.number := by
  simp [waitUntilCompleted]

theorem mem_commit {launches : List ℕ} :
    cb ∈ (q.commit launches).inFlight ↔ cb ∈ q.inFlight ∨ cb = q.nextBuffer launches := by
  simp [commit]

theorem Tracked.commitOpenBatchLocked (h : q.Tracked) : q.commitOpenBatchLocked.Tracked := by
  rw [Queue.commitOpenBatchLocked]
  split
  · exact h
  · intro cb hcb
    rcases mem_commit.mp hcb with hcb | rfl
    · exact mem_append_left _ (h cb hcb)
    · exact mem_append_right _ (mem_singleton_self _)

/-- What is left in flight after a number of waits was committed after each of them. -/
theorem mem_foldl_waitUntilCompleted {cbs : List CommandBuffer}
    (h : cb ∈ (cbs.foldl waitUntilCompleted q).inFlight) :
    cb ∈ q.inFlight ∧ ∀ waited ∈ cbs, waited.number < cb.number := by
  induction cbs generalizing q with
  | nil => exact ⟨h, nofun⟩
  | cons first rest ih =>
    obtain ⟨hmem, hrest⟩ := ih h
    obtain ⟨hmem, hfirst⟩ := mem_waitUntilCompleted.mp hmem
    exact ⟨hmem, forall_mem_cons.mpr ⟨hfirst, hrest⟩⟩

theorem foldl_waitUntilCompleted (cbs : List CommandBuffer) :
    (cbs.foldl waitUntilCompleted q).openBatch = q.openBatch ∧
      (cbs.foldl waitUntilCompleted q).launched = q.launched := by
  induction cbs generalizing q with
  | nil => exact ⟨rfl, rfl⟩
  | cons first rest ih => exact ih

theorem commitOpenBatchLocked_openBatch : q.commitOpenBatchLocked.openBatch = none := by
  rw [commitOpenBatchLocked]
  split
  · assumption
  · rfl

/-- Nothing is in the open batch or in flight. -/
def Drained (q : Queue) : Prop := q.openBatch = none ∧ q.inFlight = []

theorem Drained.completed (h : q.Drained) (n : ℕ) : q.Completed n := by
  rintro launch - (⟨launches, hopen, -⟩ | ⟨cb, hcb, -⟩)
  · rw [h.1] at hopen
    cases hopen
  · rw [h.2] at hcb
    cases hcb

theorem Drained.tracked (h : q.Drained) : q.Tracked := by
  intro cb hcb
  rw [h.2] at hcb
  cases hcb

theorem Tracked.drainPending (h : q.Tracked) : q.drainPending.Drained := by
  constructor
  · exact (foldl_waitUntilCompleted _).1.trans commitOpenBatchLocked_openBatch
  · refine eq_nil_iff_forall_not_mem.mpr fun cb hcb => ?_
    obtain ⟨hmem, hwaited⟩ := mem_foldl_waitUntilCompleted hcb
    -- It was pending, so the drain waited for it.
    exact lt_irrefl _ (hwaited cb (h.commitOpenBatchLocked cb hmem))

theorem Tracked.runBlitOp (h : q.Tracked) (error : Bool) : (q.runBlitOp error).Drained := by
  rw [Queue.runBlitOp]
  split
  · exact h.drainPending
  obtain ⟨hopen, hflight⟩ := h.drainPending
  refine ⟨hopen, eq_nil_iff_forall_not_mem.mpr fun cb hcb => ?_⟩
  obtain ⟨hmem, hlt⟩ := mem_waitUntilCompleted.mp hcb
  rcases mem_commit.mp hmem with hmem | rfl
  · rw [hflight] at hmem
    cases hmem
  · exact lt_irrefl _ hlt

theorem Tracked.reapOldest (h : q.Tracked) : q.reapOldest.Tracked := by
  rw [Queue.reapOldest]
  split
  · next oldest rest hpending =>
    split
    · intro cb hcb
      obtain ⟨hmem, hlt⟩ := mem_waitUntilCompleted.mp hcb
      have hcases := h cb hmem
      rw [hpending] at hcases
      rcases mem_cons.mp hcases with rfl | hrest
      · exact absurd hlt (lt_irrefl _)
      · exact hrest
    · exact h
  · exact h

theorem Tracked.launch (h : q.Tracked) (mode : Mode) : (q.launch mode).Tracked := by
  cases mode with
  | batched =>
    refine Tracked.reapOldest ?_
    split
    · exact Tracked.commitOpenBatchLocked h
    · exact h
  | queued =>
    intro cb hcb
    rcases mem_commit.mp hcb with hcb | rfl
    · exact mem_append_left _ (h cb hcb)
    · exact mem_append_right _ (mem_singleton_self _)
  | sync =>
    intro cb hcb
    obtain ⟨hmem, hlt⟩ := mem_waitUntilCompleted.mp hcb
    rcases mem_commit.mp hmem with hmem | rfl
    · exact h cb hmem
    · exact absurd hlt (lt_irrefl _)

theorem Tracked.complete (h : q.Tracked) : q.complete.Tracked := fun cb hcb =>
  h cb (mem_of_mem_tail hcb)

end Queue

/-! ### Every run of calls -/

section

variable {K E : Type} [DecidableEq K] {s : Runtime K E} {ctx ctx' : K} {n : ℕ}

def Inv (s : Runtime K E) : Prop := ∀ ctx, (s.queue ctx).Tracked

@[simp] theorem queue_update_self (q : Queue) : (s.update ctx q).queue ctx = q :=
  Function.update_self ..

theorem queue_update_of_ne (q : Queue) (h : ctx' ≠ ctx) :
    (s.update ctx q).queue ctx' = s.queue ctx' :=
  Function.update_of_ne h ..

theorem Inv.update (hs : Inv s) (hq : q.Tracked) : Inv (s.update ctx q) := by
  intro ctx'
  by_cases h : ctx' = ctx
  · subst h
    rwa [queue_update_self]
  · rw [queue_update_of_ne q h]
    exact hs ctx'

theorem Inv.drain (hs : Inv s) (ctx : K) : Inv (s.drain ctx) :=
  hs.update (hs ctx).drainPending.tracked

theorem Inv.blit (hs : Inv s) (ctx : K) (error : Bool) : Inv (s.blit ctx error) :=
  hs.update ((hs ctx).runBlitOp error).tracked

theorem Inv.copy (hs : Inv s) (buf : Buffer K) (staged error : Bool) :
    Inv (copy s buf staged error).1 := by
  rw [MetalCompletion.copy]
  split
  · exact hs
  split_ifs
  · exact hs
  · exact hs.drain _
  · exact hs
  · exact hs.blit _ error

theorem Inv.call [DecidableEq E] (hs : Inv s) (c : Call K E) : Inv (call s c).1 := by
  cases c with
  | launch ctx mode => exact hs.update ((hs ctx).launch mode)
  | complete ctx => exact hs.update (hs ctx).complete
  | synchronize ctx error => exact hs.drain ctx
  | streamSynchronize | enqueueHostFunc | eventRecord | eventSynchronize => exact hs
  | copyHtoD buf staged error | copyDtoH buf staged error => exact hs.copy buf staged error
  | copyDtoD dst src error =>
    rw [MetalCompletion.call, copyDtoD]
    split
    · split_ifs
      · exact hs
      · exact hs.blit _ error
    · exact hs
  | fill dst uniform staged error =>
    rw [MetalCompletion.call, fill]
    split
    · exact hs
    · split_ifs
      · exact hs
      · exact hs.blit _ error
      · exact hs.copy dst staged error
  | copyRaw ctx target error =>
    rw [MetalCompletion.call]
    split_ifs
    · exact hs
    · exact hs.blit ctx error
  | hostPtr buf =>
    rw [MetalCompletion.call]
    split
    · exact hs
    · split_ifs
      · exact hs.drain _
      · exact hs

/-- A drained context has completed everything, the others are as they were. -/
theorem completed_update_iff (hq : q.Drained) :
    ((s.update ctx q).queue ctx').Completed n ↔ ctx = ctx' ∨ (s.queue ctx').Completed n := by
  by_cases h : ctx' = ctx
  · subst h
    rw [queue_update_self]
    exact iff_of_true (hq.completed n) (.inl rfl)
  · rw [queue_update_of_ne q h]
    exact ⟨.inr, fun hor => hor.resolve_left (Ne.symm h)⟩

theorem completed_drain_iff (hs : Inv s) :
    ((s.drain ctx).queue ctx').Completed n ↔ ctx = ctx' ∨ (s.queue ctx').Completed n :=
  completed_update_iff (hs ctx).drainPending

theorem completed_blit_iff (hs : Inv s) (error : Bool) :
    ((s.blit ctx error).queue ctx').Completed n ↔ ctx = ctx' ∨ (s.queue ctx').Completed n :=
  completed_update_iff ((hs ctx).runBlitOp error)

/-- What a copy or a fill of one buffer guarantees: it drains the queue unless it has no bytes. -/
theorem copy_guaranteed_iff (hs : Inv s) (buf : Buffer K) (staged error : Bool) :
    ((copy s buf staged error).2 = true → ∀ r ∈ buf.mtl.toList.map s.issued,
      ((copy s buf staged error).1.queue r.1).Completed r.2) ↔
    ∀ ctx ∈ buf.mtl, buf.bytes = 0 → s.Idle ctx := by
  rw [copy]
  cases hmtl : buf.mtl with
  | none => simp
  | some ctx =>
    simp only [Option.toList_some, map_cons, map_nil, forall_mem_singleton,
      Option.mem_def, Option.some.injEq, forall_eq', Runtime.issued, Runtime.Idle]
    split_ifs with hbytes hhost hstaged
    · simp [hbytes]
    · simp [hbytes, completed_drain_iff hs]
    · simp [hbytes]
    · simp [hbytes, completed_blit_iff hs]

/-- A call keeps its promise exactly if it is safe. -/
theorem guaranteed_iff_safe [DecidableEq E] (hs : Inv s) (c : Call K E) :
    Guaranteed s c ↔ Safe s c := by
  cases c with
  | launch | complete | eventRecord => exact iff_of_true (fun _ => nofun) trivial
  | synchronize ctx error =>
    refine iff_of_true (fun _ => ?_) trivial
    simpa [concerns, Runtime.issued, call] using (completed_drain_iff hs).mpr (.inl rfl)
  | streamSynchronize ctx | enqueueHostFunc ctx =>
    simp [Guaranteed, concerns, Runtime.issued, call, Safe, Runtime.Idle]
  | eventSynchronize event => simp [Guaranteed, concerns, call, Safe]
  | copyHtoD buf staged error | copyDtoH buf staged error =>
    exact copy_guaranteed_iff hs buf staged error
  | copyDtoD dst src error =>
    rw [Guaranteed, Safe, call, copyDtoD, concerns]
    cases hdst : dst.mtl with
    | none => simp [Runtime.issued, Runtime.Idle]
    | some ctx =>
      cases hsrc : src.mtl with
      | none => simp [Runtime.issued, Runtime.Idle]
      | some ctx' =>
        by_cases hzero : min dst.bytes src.bytes = 0
        · simp [hzero, Runtime.issued, Runtime.Idle]
        · simp [hzero, Runtime.issued, Runtime.Idle, completed_blit_iff hs]
  | fill dst uniform staged error =>
    rw [Guaranteed, Safe, call, fill, concerns]
    have hcopy := copy_guaranteed_iff hs dst staged error
    cases hmtl : dst.mtl with
    | none => simp
    | some ctx =>
      rw [hmtl] at hcopy
      dsimp only
      split_ifs with hbytes huniform
      · simp [hbytes, Runtime.issued, Runtime.Idle]
      · simp [hbytes, Runtime.issued, completed_blit_iff hs]
      · exact hcopy
  | copyRaw ctx target error =>
    rw [Guaranteed, Safe, call, concerns]
    cases target with
    | none => simp
    | some ctx' => simp [Runtime.issued, Runtime.Idle, completed_blit_iff hs]
  | hostPtr buf =>
    rw [Guaranteed, Safe, call, concerns]
    cases hmtl : buf.mtl with
    | none => simp
    | some ctx =>
      dsimp only
      cases hhost : buf.isHost with
      | true => simp [Runtime.issued, completed_drain_iff hs]
      | false => simp [Runtime.issued, Runtime.Idle]

omit [DecidableEq K] in
theorem inv_init : Inv (init : Runtime K E) := fun _ => nofun

variable [DecidableEq E]

end

end MetalCompletion
