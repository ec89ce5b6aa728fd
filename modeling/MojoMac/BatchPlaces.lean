/-
Where the requests of the batch constructor are.

* `Place`, `At` — the places: waiting for a grammar, the pool, a queue of a replica, waiting for
  blocks to be loaded, or out in a batch;
* `Located` — the constructor as a map from requests to places: each request is in one place, and
  bound to the replica of that place;
* `Located.relocate` — an operation that moves one request.
-/
import MojoMac.BatchPlan
import MojoMac.BatchSteps

open StateSpec List Function OrderedDict

set_option linter.unusedSectionVars false

/-- The places of a request. -/
inductive Place (n : ℕ) where
  | grammar
  | pool
  | queue (k : Queue) (i : Fin (n + 1))
  | onloading (i : Fin (n + 1))
  | out (i : Fin (n + 1))
  deriving DecidableEq, Repr

/-- The replica that a request is bound to. -/
def Place.replica {n : ℕ} : Place n → Option (Fin (n + 1))
  | grammar => none
  | pool => none
  | queue _ i => some i
  | onloading i => some i
  | out i => some i

namespace TextBatchConstructor

variable {n : ℕ} {R N M L W T F : Type} [DecidableEq R] [DecidableEq N]
  {s s' : TextBatchConstructor n R N M L W T F} {out out' : Fin (n + 1) → Set R}
  {loc : R → Option (Place n)} {r : R} {i : Fin (n + 1)}

/-- A request is at a place; `out` are the CE requests of the batches. -/
def At (s : TextBatchConstructor n R N M L W T F) (out : Fin (n + 1) → Set R) (r : R) :
    Place n → Prop
  | .grammar => r ∈ s.grammarPending
  | .pool => r ∈ s.cePending
  | .queue k i => r ∈ (s.replicas i).queue k
  | .onloading i => ∃ t, s.onloadingReqs.get? r = some (i, t)
  | .out i => r ∈ out i

/-- The requests are where `loc` says, and bound accordingly. -/
structure Located (s : TextBatchConstructor n R N M L W T F) (out : Fin (n + 1) → Set R)
    (loc : R → Option (Place n)) : Prop where
  at_iff : ∀ r p, At s out r p ↔ loc r = some p
  bound : ∀ r, s.boundRequests.get? r = (loc r).bind Place.replica

theorem Located.relocate (h : Located s out loc) {q : Option (Place n)}
    (hother : ∀ r' ≠ r, ∀ p, At s' out' r' p ↔ At s out r' p)
    (hself : ∀ p, At s' out' r p ↔ q = some p)
    (hbound : ∀ r' ≠ r, s'.boundRequests.get? r' = s.boundRequests.get? r')
    (hbound_self : s'.boundRequests.get? r = q.bind Place.replica) :
    Located s' out' (update loc r q) where
  at_iff r' p := by
    by_cases hr' : r' = r
    · rw [hr', update_self]
      exact hself p
    · rw [update_of_ne hr', hother r' hr' p, h.at_iff]
  bound r' := by
    by_cases hr' : r' = r
    · rw [hr', update_self, hbound_self]
    · rw [update_of_ne hr', hbound r' hr', h.bound]

variable {p q : Place n}

section

variable (h : Located s out loc)

include h

/-- A request that stays with its replica. -/
theorem Located.move (hp : loc r = some p) (hreplica : q.replica = p.replica)
    (hsame : s'.boundRequests = s.boundRequests)
    (hother : ∀ r' ≠ r, ∀ p, At s' out' r' p ↔ At s out r' p)
    (hself : ∀ p, At s' out' r p ↔ q = p) : Located s' out' (update loc r (some q)) := by
  refine h.relocate hother (fun p => (hself p).trans Option.some_inj.symm) (fun r' _ => by rw [hsame])
    ?_
  rw [hsame, h.bound, hp]
  exact hreplica.symm

theorem Located.eq (hp : loc r = some p) (hq : At s out r q) : p = q :=
  Option.some.inj (hp.symm.trans ((h.at_iff r q).mp hq))

theorem Located.not_at (hr : loc r = none) (p : Place n) : ¬ At s out r p := by
  rw [h.at_iff, hr]
  simp

/-- A request that goes from the place `p` to the place `q` of the same replica. -/
theorem Located.transfer (hp : loc r = some p) (hreplica : q.replica = p.replica)
    (hsame : s'.boundRequests = s.boundRequests)
    (hat : ∀ r' p', At s' out' r' p' ↔ (r' = r ∧ p' = q) ∨ At s out r' p' ∧ ¬ (r' = r ∧ p' = p)) :
    Located s' out' (update loc r (some q)) := by
  refine h.move hp hreplica hsame (fun r' hr' p' => ?_) (fun p' => ?_)
  · rw [hat]
    simp [hr']
  rw [hat]
  constructor
  · rintro (⟨-, rfl⟩ | ⟨hmem, hne⟩)
    · rfl
    · exact absurd ⟨rfl, (h.eq hp hmem).symm⟩ hne
  · exact fun hq => Or.inl ⟨rfl, hq.symm⟩

/-- A request that leaves a place where it is bound to no replica. -/
theorem Located.leave (hp : loc r = some p) (hreplica : p.replica = none)
    (hsame : s'.boundRequests = s.boundRequests)
    (hat : ∀ r' p', At s' out r' p' ↔ At s out r' p' ∧ ¬ (r' = r ∧ p' = p)) :
    Located s' out (update loc r none) := by
  refine h.relocate (fun r' hr' p' => ?_) (fun p' => ?_) (fun r' _ => by rw [hsame]) ?_
  · rw [hat]
    simp [hr']
  · rw [hat]
    exact iff_of_false (fun ⟨hmem, hne⟩ => hne ⟨rfl, (h.eq hp hmem).symm⟩) (by simp)
  · rw [hsame, h.bound, hp]
    exact hreplica

end

/-! ### Queues of one replica -/

/-- Membership in the queues after those of one replica have changed. -/
theorem at_update_replica (q : ReplicaRequests R N) (p : Place n) :
    At { s with replicas := update s.replicas i q } out r p ↔
      (∃ k, p = .queue k i ∧ r ∈ q.queue k) ∨ (∀ k, p ≠ .queue k i) ∧ At s out r p := by
  cases p with
  | queue k j =>
    by_cases hj : j = i
    · subst hj
      simp [At]
    · simp [At, hj]
  | grammar | pool | onloading j | out j => simp [At]

variable {k : Queue}

section

variable (h : Located s out loc)

include h

/-- A request moves between the queues of its replica. -/
theorem Located.moveQueue {k' : Queue} (hp : loc r = some (.queue k i)) {q : ReplicaRequests R N}
    (hother : ∀ r' ≠ r, ∀ j, r' ∈ q.queue j ↔ r' ∈ (s.replicas i).queue j)
    (hself : ∀ j, r ∈ q.queue j ↔ k' = j) :
    Located { s with replicas := update s.replicas i q } out
      (update loc r (some (.queue k' i))) := by
  refine h.move hp rfl rfl (fun r' hr' p => ?_) (fun p => ?_)
  · rw [at_update_replica]
    constructor
    · rintro (⟨j, rfl, hmem⟩ | ⟨-, hat⟩)
      · exact (hother r' hr' j).mp hmem
      · exact hat
    · intro hat
      by_cases hj : ∃ j, p = .queue j i
      · obtain ⟨j, rfl⟩ := hj
        exact Or.inl ⟨j, rfl, (hother r' hr' j).mpr hat⟩
      · exact Or.inr ⟨fun j hpj => hj ⟨j, hpj⟩, hat⟩
  · rw [at_update_replica]
    constructor
    · rintro (⟨j, rfl, hmem⟩ | ⟨hne, hat⟩)
      · rw [(hself j).mp hmem]
      · exact absurd (h.eq hp hat).symm (hne k)
    · rintro rfl
      exact Or.inl ⟨k', rfl, (hself k').mpr rfl⟩

/-- A request goes to the front of the CE queue, and out of the TG queue if it was there. -/
theorem Located.toFront (hk : k ≠ .deferred) (hp : loc r = some (.queue k i))
    {ce : OrderedDict R Unit} (hce : ∀ r', r' ∈ ce ↔ r' = r ∨ r' ∈ (s.replicas i).ceReqs) :
    Located { s with replicas := update s.replicas i { s.replicas i with
      tgReqs := (s.replicas i).tgReqs.erase r
      ceReqs := ce } } out (update loc r (some (.queue .ce i))) := by
  refine h.moveQueue hp (fun r' hr' j => ?_) (fun j => ?_)
  · cases j with
    | ce => exact (hce r').trans (or_iff_right hr')
    | tg =>
      change r' ∈ (s.replicas i).tgReqs.erase r ↔ r' ∈ (s.replicas i).tgReqs
      rw [mem_erase, and_iff_right hr']
    | deferred => exact Iff.rfl
  · cases j with
    | ce => exact iff_of_true ((hce r).mpr (Or.inl rfl)) rfl
    | tg =>
      change r ∈ (s.replicas i).tgReqs.erase r ↔ _
      simp
    | deferred =>
      refine iff_of_false (fun hmem => ?_) (by simp)
      have hplace := h.eq hp (q := .queue .deferred i) hmem
      rw [Place.queue.injEq] at hplace
      exact hk hplace.1

/-- A preempted request goes from the TG queue to the CE queue. -/
theorem Located.requeue (hk : k ≠ .deferred) (hp : loc r = some (.queue k i)) :
    Located (requeue i r s) out (update loc r (some (.queue .ce i))) :=
  h.toFront hk hp fun _ => mem_set_moveToFront

/-- What is in the queues decides where requests are. -/
theorem Located.congr (hgrammar : s'.grammarPending = s.grammarPending)
    (hpool : s'.cePending = s.cePending)
    (hqueue : ∀ i k, (s'.replicas i).queue k = (s.replicas i).queue k)
    (honloading : s'.onloadingReqs = s.onloadingReqs)
    (hbound : s'.boundRequests = s.boundRequests) : Located s' out loc where
  at_iff r p := by
    rw [← h.at_iff]
    cases p with
    | grammar => simp only [At, hgrammar]
    | pool => simp only [At, hpool]
    | queue k i => simp only [At, hqueue]
    | onloading i => simp only [At, honloading]
    | out i => simp only [At]
  bound r := by rw [hbound, h.bound]

theorem Located.touch (w : W) (ctx : GenerationContext R L) : Located (touch r w ctx s) out loc :=
  h.congr rfl rfl (fun _ _ => rfl) rfl rfl

end

theorem queue_activate (manager : Option (LoRAManager N M)) (loras : Finset N) (j : Fin (n + 1))
    (k : Queue) : ((activate i manager loras s).replicas j).queue k = (s.replicas j).queue k :=
  replica_update (·.queue k) (by cases k <;> rfl) j

/-! ### The request that an iteration takes -/

section Taken

variable {rest : OrderedDict R Unit} (hpop : (s.replicas i).ceReqs.popFirst = some ((r, ()), rest))
  (h : Located s out loc)

include hpop

theorem At.of_front : At s out r (.queue .ce i) := by
  change r ∈ (s.replicas i).ceReqs
  rw [← OrderedDict.mem_keys, OrderedDict.keys_popFirst hpop]
  exact mem_cons_self

theorem at_take (r' : R) (p : Place n) :
    At (take i rest s) out r' p ↔ At s out r' p ∧ ¬ (r' = r ∧ p = .queue .ce i) := by
  rw [take, at_update_replica]
  by_cases hp : p = .queue .ce i
  · subst hp
    have hmem := mem_of_popFirst (k := r') hpop
    simp only [At, ReplicaRequests.queue, Place.queue.injEq, and_true] at hmem ⊢
    grind
  · have hsame : ∀ k, p = .queue k i →
        (r' ∈ ({ s.replicas i with ceReqs := rest } : ReplicaRequests R N).queue k ↔ At s out r' p) := by
      rintro k rfl
      cases k with
      | ce => exact absurd rfl hp
      | tg | deferred => exact Iff.rfl
    grind

include h

/-- The request is at the front of the CE queue. -/
theorem Located.front : loc r = some (.queue .ce i) := by
  rw [← h.at_iff]
  exact At.of_front hpop

/-- A request that is taken is at no place. -/
theorem Located.not_at_take (p : Place n) : ¬ At (take i rest s) out r p := by
  rw [at_take hpop]
  rintro ⟨hat, hne⟩
  exact hne ⟨rfl, (h.eq (h.front hpop) hat).symm⟩

/-- It goes to the place `q`. -/
theorem Located.takeTo (hreplica : q.replica = some i) (hsame : s'.boundRequests = s.boundRequests)
    (hat : ∀ r' p, At s' out' r' p ↔ (r' = r ∧ p = q) ∨ At (take i rest s) out r' p) :
    Located s' out' (update loc r (some q)) := by
  refine h.transfer (h.front hpop) hreplica hsame fun r' p => ?_
  rw [hat, at_take hpop]

/-- It goes back to the front. -/
theorem Located.takeRequeue (w : W) (ctx : GenerationContext R L) :
    Located (((take i rest s).touch r w ctx).requeue i r) out loc := by
  have hfront := h.front hpop
  have hce : ∀ r', r' ∈ (rest.set r ()).moveToFront r ↔ r' = r ∨ r' ∈ (s.replicas i).ceReqs := by
    intro r'
    rw [mem_set_moveToFront, mem_of_popFirst hpop]
    tauto
  have hmoved := h.toFront (by simp) hfront hce
  have hloc : update loc r (some (.queue .ce i)) = loc := by
    rw [← hfront, update_eq_self]
  rw [hloc] at hmoved
  refine hmoved.congr rfl rfl (fun j k => ?_) rfl rfl
  simp [TextBatchConstructor.requeue, TextBatchConstructor.touch, take]

/-- It waits for its blocks. -/
theorem Located.takeCordon (w : W) (ctx : GenerationContext R L) (t : T) :
    Located (cordon i r t ((take i rest s).touch r w ctx)) out
      (update loc r (some (.onloading i))) := by
  refine h.takeTo hpop rfl rfl fun r' p => ?_
  cases p with
  | onloading j =>
    change (∃ t', (s.onloadingReqs.set r (i, t)).get? r' = some (j, t')) ↔ _
    rw [get?_set]
    by_cases hr' : r' = r
    · simp [hr', h.not_at_take hpop, eq_comm]
    · simp only [hr', if_false, false_and, false_or]
      exact Iff.rfl
  | queue k j | grammar | pool => simp [At, cordon, TextBatchConstructor.touch]
  | out j => simp [At]

/-- It waits for a slot for its adapter. -/
theorem Located.takeDefer : Located (deferLora i r (take i rest s)) out
      (update loc r (some (.queue .deferred i))) := by
  refine h.takeTo hpop rfl rfl fun r' p => ?_
  cases p with
  | queue k j =>
    by_cases hj : j = i
    · subst hj
      cases k <;> simp [At, deferLora, ReplicaRequests.queue]
    · simp [At, deferLora, hj]
  | grammar | pool | onloading j => simp [At, deferLora]
  | out j => simp [At]

/-- It joins the batch. -/
theorem Located.takeOut (w : W) (ctx : GenerationContext R L) (manager : Option (LoRAManager N M))
    (loras : Finset N) : Located (((take i rest s).touch r w ctx).activate i manager loras)
      (update out i (insert r (out i))) (update loc r (some (.out i))) := by
  refine h.takeTo hpop rfl rfl fun r' p => ?_
  cases p with
  | out j =>
    by_cases hj : j = i
    · subst hj
      simp [At]
    · simp [At, hj]
  | queue k j =>
    change r' ∈ ((TextBatchConstructor.activate i manager loras _).replicas j).queue k ↔ _
    rw [queue_activate]
    simp [At, TextBatchConstructor.touch]
  | grammar => simp [At, TextBatchConstructor.activate, TextBatchConstructor.touch]
  | pool | onloading j => simp [At, TextBatchConstructor.activate, TextBatchConstructor.touch]

end Taken

/-! ### The deferred requests -/

/-- The deferred requests of a replica are back in its CE queue. -/
def restore (i : Fin (n + 1)) (s : TextBatchConstructor n R N M L W T F) :
    TextBatchConstructor n R N M L W T F :=
  { s with replicas := Function.update s.replicas i { s.replicas i with
      ceReqs := (s.replicas i).deferredLoraRequests.keys.foldl
        (fun ceReqs r => (ceReqs.set r ()).moveToFront r) (s.replicas i).ceReqs
      deferredLoraRequests := .empty } }

theorem mem_foldl_moveToFront (rs : List R) (d : OrderedDict R Unit) :
    r ∈ rs.foldl (fun d r => (d.set r ()).moveToFront r) d ↔ r ∈ rs ∨ r ∈ d := by
  induction rs generalizing d with
  | nil => simp
  | cons r' rs ih =>
    rw [foldl_cons, ih, mem_set_moveToFront, mem_cons]
    tauto

section

variable (h : Located s out loc)

include h

theorem Located.restore (i : Fin (n + 1)) : Located (restore i s) out fun r =>
      if loc r = some (.queue .deferred i) then some (.queue .ce i) else loc r where
  at_iff r p := by
    have hat : ∀ k, r ∈ (s.replicas i).queue k ↔ loc r = some (.queue k i) :=
      fun k => h.at_iff r (.queue k i)
    by_cases hp : ∃ k, p = .queue k i
    · obtain ⟨k, rfl⟩ := hp
      change r ∈ (update s.replicas i _ i).queue k ↔ _
      rw [update_self]
      cases k with
      | ce =>
        refine ((mem_foldl_moveToFront ..).trans (or_congr (hat .deferred) (hat .ce))).trans ?_
        split <;> simp [*]
      | tg =>
        refine (hat .tg).trans ?_
        split <;> simp [*]
      | deferred =>
        refine iff_of_false not_mem_nil ?_
        split <;> simp [*]
    · rw [TextBatchConstructor.restore, at_update_replica, h.at_iff]
      grind
  bound r := by
    change s.boundRequests.get? r = _
    rw [h.bound]
    by_cases hr : loc r = some (.queue .deferred i)
    · rw [if_pos hr, hr]
      rfl
    · rw [if_neg hr]

/-! ### Requests that come and go -/

theorem Located.eraseGrammar (hp : loc r = some .grammar) :
    Located { s with grammarPending := s.grammarPending.erase r } out (update loc r none) := by
  refine h.leave hp rfl rfl fun r' p => ?_
  cases p with
  | grammar =>
    change r' ∈ s.grammarPending.erase r ↔ r' ∈ s.grammarPending ∧ _
    simp [mem_erase, and_comm]
  | _ => simp [At]

theorem Located.erasePool (hp : loc r = some .pool) :
    Located { s with cePending := s.cePending.erase r } out (update loc r none) := by
  refine h.leave hp rfl rfl fun r' p => ?_
  cases p with
  | pool =>
    change r' ∈ s.cePending.erase r ↔ r' ∈ s.cePending ∧ _
    simp [mem_erase, and_comm]
  | _ => simp [At]

/-- A new request at the place `q`, and nowhere else. -/
theorem Located.add (hr : loc r = none)
    (hat : ∀ r' p, At s' out r' p ↔ (r' = r ∧ p = q) ∨ At s out r' p)
    (hbound : ∀ r' ≠ r, s'.boundRequests.get? r' = s.boundRequests.get? r')
    (hbound_self : s'.boundRequests.get? r = q.replica) :
    Located s' out (update loc r (some q)) := by
  refine h.relocate (fun r' hr' p => ?_) (fun p => ?_) hbound hbound_self
  · rw [hat]
    simp [hr']
  · rw [hat, or_iff_left (h.not_at hr p)]
    simp [eq_comm]

theorem Located.addGrammar (hr : loc r = none) (replicaIdx : Option (Fin (n + 1))) :
    Located { s with grammarPending := s.grammarPending.set r replicaIdx } out
      (update loc r (some .grammar)) := by
  refine h.add hr (fun r' p => ?_) (fun _ _ => rfl) ?_
  · cases p with
    | grammar =>
      change r' ∈ s.grammarPending.set r replicaIdx ↔ _
      simp [At]
    | _ => simp [At]
  · rw [h.bound, hr]
    rfl

theorem Located.addPool (hr : loc r = none) (weights : Fin (n + 1) → ℤ)
    (arrival : OrderedDict R F) :
    Located { s with cePending := s.cePending.set r weights, ceArrival := arrival } out
      (update loc r (some .pool)) := by
  refine h.add hr (fun r' p => ?_) (fun _ _ => rfl) ?_
  · cases p with
    | pool =>
      change r' ∈ s.cePending.set r weights ↔ _
      simp [At]
    | _ => simp [At]
  · rw [h.bound, hr]
    rfl

/-- The blocks of a request are there: it goes to the front of the CE queue. -/
theorem Located.readmitted (hp : loc r = some (.onloading i)) : Located { s with
      onloadingReqs := s.onloadingReqs.erase r
      replicas := update s.replicas i { s.replicas i with
        ceReqs := ((s.replicas i).ceReqs.set r ()).moveToFront r } } out
      (update loc r (some (.queue .ce i))) := by
  refine h.transfer hp rfl rfl fun r' p => ?_
  cases p with
  | onloading j =>
    change (∃ t, (s.onloadingReqs.erase r).get? r' = some (j, t)) ↔ _
    rw [get?_erase]
    by_cases hr' : r' = r
    · subst hr'
      have honly : At s out r' (.onloading j) → j = i := fun hat => by
        simpa [eq_comm] using h.eq hp hat
      simpa using honly
    · simp [hr', At]
  | queue k j =>
    by_cases hj : j = i
    · subst hj
      cases k with
      | ce =>
        simp only [At, update_self, ReplicaRequests.queue]
        rw [mem_set_moveToFront]
        simp
      | tg | deferred => simp [At, ReplicaRequests.queue]
    · simp [At, hj]
  | grammar | pool | out j => simp [At]

/-- A request of the batch has run: it joins the TG queue. -/
theorem Located.advance (hp : loc r = some (.out i)) :
    Located { s with replicas := update s.replicas i { s.replicas i with
        tgReqs := (s.replicas i).tgReqs.set r () } } (update out i (out i \ {r}))
      (update loc r (some (.queue .tg i))) := by
  refine h.transfer hp rfl rfl fun r' p => ?_
  cases p with
  | out j =>
    by_cases hj : j = i
    · subst hj
      simp [At]
    · simp [At, hj]
  | queue k j =>
    by_cases hj : j = i
    · subst hj
      cases k <;> simp [At, ReplicaRequests.queue]
    · simp [At, hj]
  | grammar | pool | onloading j => simp [At]

end

section Operations

variable [ToString R] [IntCast F] [Div F] [Sub F] [LE F] [DecidableLE F] [LT F] [DecidableLT F]
  {e : BatchSettings n R N W T F}

theorem Located.addBound (h : Located s out loc) (hr : loc r = none) (i : Fin (n + 1)) :
    Located (s.bound e r i) out (update loc r (some (.queue (newQueue s r) i))) := by
  refine h.add hr (fun r' p => ?_) (fun r' hr' => ?_) ?_
  · cases p with
    | queue k j =>
      change r' ∈ ((s.bound e r i).replicas j).queue k ↔ _ ∨ r' ∈ (s.replicas j).queue k
      rw [mem_bound_queue, Place.queue.injEq]
      tauto
    | grammar | pool | onloading j => simp [At, TextBatchConstructor.bound]
    | out j => simp [At]
  · exact get?_set_of_ne _ hr' _
  · exact get?_set_self ..

end Operations

end TextBatchConstructor
