/-
Reading and writing one file under a lock file, by any number of processes.

`doLockedFileOperation` tries to take the lock, retries after errors and after the death of an
owner, waits while another process owns it, and then runs the operation it was given.  The lock
manager is taken by its contract: it grants the lock to one process at a time, and a wait succeeds
once the owner that was waited for no longer owns it.

* `State`, `step` — the processes at their places in the function, and the steps they take;
* `Guarded` — one process executes its operation at most, and it owns the lock;
* `always_guarded_iff` — the runs that stay so are exactly those in which no wait succeeds.
-/
import MojoMac.Interleaving

namespace FileLock

variable {P : Type} [DecidableEq P]

/-- The operation passed in, by `writeFileUnderLock` or `readFileUnderLock`. -/
inductive Operation
  | writeFile
  | read
  deriving DecidableEq, Repr

/-- What a call returned. -/
inductive Result
  | completed
  | unableToTakeLockFile
  | timedOut
  deriving DecidableEq, Repr

/-- Where a process stands in `doLockedFileOperation`. -/
inductive Place (P : Type)
  | outside (returned : Option Result)
  /-- At the head of the loop, before `tryLock`. -/
  | trying (callable : Operation) (retries : ℕ)
  /-- In `waitForUnlockFor`, for the owner that `tryLock` met. -/
  | waiting (callable : Operation) (retries : ℕ) (holder : P)
  | executing (callable : Operation)
  | dead
  deriving DecidableEq, Repr

structure State (P : Type) where
  owner : Option P
  place : P → Place P

/-- Nobody has called, nobody owns the lock. -/
def init : State P := ⟨none, fun _ => .outside none⟩

/-- What happens to a process next: the answers of the lock manager, the start and the end of a
call, and the death of the process. -/
inductive Event
  | call (callable : Operation)
  | error
  | owned
  | notOwned
  | success
  | ownerDied
  | timeout
  | finish
  | die
  deriving DecidableEq, Repr

variable (s : State P)

namespace State

def goto (p : P) (place : Place P) : State P :=
  { s with place := Function.update s.place p place }

/-- The lock can be granted: nobody owns it, or its owner is dead. -/
def Free : Prop := ∀ q ∈ s.owner, s.place q = .dead

instance (s : State P) : Decidable s.Free :=
  match h : s.owner with
  | none => isTrue (by simp [Free, h])
  | some q => decidable_of_iff (s.place q = .dead) (by simp [Free, h])

/-- The process runs the operation that it passed in. -/
def Executing (p : P) : Prop := ∃ callable, s.place p = .executing callable

/-- One process at most executes its operation, and only while it owns the lock. -/
structure Guarded : Prop where
  exclusive : ∀ p q, s.Executing p → s.Executing q → p = q
  owned : ∀ p, s.Executing p → s.owner = some p

end State

/-- The largest number of retries after an error of `tryLock`. -/
def kLockMaxRetriesOnError : ℕ := 1000

/-- What the process `p` does at the given event, one turn through the body of the loop being cut
at the calls of the lock manager. -/
def act (p : P) (event : Event) : Option (State P) :=
  match s.place p, event with
  | .outside _, .call callable => some (s.goto p (.trying callable 0))
  | .trying callable retries, .error =>
    if retries > kLockMaxRetriesOnError then
      some (s.goto p (.outside (some .unableToTakeLockFile)))
    else some (s.goto p (.trying callable (retries + 1)))
  | .trying callable _, .owned =>
    if s.Free then some { s.goto p (.executing callable) with owner := some p } else none
  | .trying callable retries, .notOwned =>
    s.owner.map fun q => s.goto p (.waiting callable retries q)
  -- The wait succeeded: the switch is left by `break`, and the operation runs.
  | .waiting callable _ holder, .success =>
    if s.owner ≠ some holder then some (s.goto p (.executing callable)) else none
  | .waiting callable retries holder, .ownerDied =>
    if s.place holder = .dead then some (s.goto p (.trying callable retries)) else none
  | .waiting _ _ _, .timeout => some (s.goto p (.outside (some .timedOut)))
  -- The lock manager of this turn goes out of scope and gives up what it owns.
  | .executing _, .finish =>
    some { s.goto p (.outside (some .completed)) with
      owner := if s.owner = some p then none else s.owner }
  | .dead, _ => none
  | _, .die => some (s.goto p .dead)
  | _, _ => none

/-- A step of the system: an event at one of the processes. -/
def step (a : P × Event) : Option (State P) := act s a.1 a.2

variable {s t : State P} {p q : P} {event : Event}

/-- What a step does to the lock and to the set of executing processes. -/
inductive Effect (s : State P) (p : P) : Event → State P → Prop
  | moves {event : Event} {place : Place P} (hfrom : ∀ callable, s.place p ≠ .executing callable)
      (halive : s.place p ≠ .dead) (hto : ∀ callable, place ≠ .executing callable)
      (hevent : event ≠ .success) : Effect s p event (s.goto p place)
  | dies : Effect s p .die (s.goto p .dead)
  | takes {callable : Operation} (hfree : s.Free) :
      Effect s p .owned { s.goto p (.executing callable) with owner := some p }
  | proceeds {callable callable' : Operation} {retries : ℕ} {holder : P}
      (hfrom : s.place p = .waiting callable' retries holder) :
      Effect s p .success (s.goto p (.executing callable))
  | finishes :
      Effect s p .finish { s.goto p (.outside (some .completed)) with
        owner := if s.owner = some p then none else s.owner }

theorem effect_of_mem_act (h : t ∈ act s p event) : Effect s p event t := by
  unfold act at h
  cases hplace : s.place p <;> cases event <;>
    simp only [hplace, Option.mem_def, Option.some.injEq, reduceCtorEq] at h
  case outside.die | trying.die | waiting.die | executing.die => exact h ▸ .dies
  case outside.call | waiting.timeout =>
    exact h ▸ .moves (by simp [hplace]) (by simp [hplace]) (by simp) (by simp)
  case trying.error =>
    split at h <;> obtain rfl := Option.some.inj h <;>
      exact .moves (by simp [hplace]) (by simp [hplace]) (by simp) (by simp)
  case trying.owned =>
    split at h
    case isTrue hfree => exact Option.some.inj h ▸ .takes hfree
    case isFalse => cases h
  case trying.notOwned =>
    obtain ⟨q, -, rfl⟩ := Option.map_eq_some_iff.mp h
    exact .moves (by simp [hplace]) (by simp [hplace]) (by simp) (by simp)
  case waiting.success =>
    split at h
    case isTrue => exact Option.some.inj h ▸ .proceeds hplace
    case isFalse => cases h
  case waiting.ownerDied =>
    split at h
    case isTrue =>
      obtain rfl := Option.some.inj h
      exact .moves (by simp [hplace]) (by simp [hplace]) (by simp) (by simp)
    case isFalse => cases h
  case executing.finish => exact h ▸ .finishes

/-! ### Who executes, and who owns the lock -/

theorem place_goto_self (place : Place P) : (s.goto p place).place p = place :=
  Function.update_self ..

theorem place_goto_of_ne (place : Place P) (h : q ≠ p) : (s.goto p place).place q = s.place q :=
  Function.update_of_ne h ..

theorem executing_goto_of_ne {place : Place P} (h : q ≠ p) :
    (s.goto p place).Executing q ↔ s.Executing q := by
  simp only [State.Executing, place_goto_of_ne _ h]

/-- Where a process leaves for another place than its operation, the executing ones are others. -/
theorem executing_of_goto {place : Place P} (hto : ∀ callable, place ≠ .executing callable)
    (hq : (s.goto p place).Executing q) : q ≠ p ∧ s.Executing q := by
  have hne : q ≠ p := by
    rintro rfl
    obtain ⟨callable, hc⟩ := hq
    exact hto callable ((place_goto_self place).symm.trans hc)
  exact ⟨hne, (executing_goto_of_ne hne).mp hq⟩

/-- An owner executes its operation, or it died while it did. -/
def Held (s : State P) : Prop := ∀ p, s.owner = some p → s.Executing p ∨ s.place p = .dead

/-- What is said of the owner stays so while other processes move. -/
theorem Held.goto_of_ne (hs : Held s) {place : Place P} (howner : s.owner = some q) (h : q ≠ p) :
    (s.goto p place).Executing q ∨ (s.goto p place).place q = .dead := by
  rw [executing_goto_of_ne h, place_goto_of_ne place h]
  exact hs q howner

theorem Held.act (hs : Held s) (h : t ∈ act s p event) : Held t := by
  intro q hq
  cases effect_of_mem_act h with
  | moves hfrom halive =>
    refine hs.goto_of_ne hq ?_
    rintro rfl
    exact (hs q hq).elim (fun ⟨callable, hc⟩ => hfrom callable hc) halive
  | dies =>
    by_cases hne : q = p
    · subst hne
      exact .inr (place_goto_self _)
    · exact hs.goto_of_ne hq hne
  | takes =>
    obtain rfl : p = q := Option.some.inj hq
    exact .inl ⟨_, place_goto_self _⟩
  | proceeds =>
    by_cases hne : q = p
    · subst hne
      exact .inl ⟨_, place_goto_self _⟩
    · exact hs.goto_of_ne hq hne
  | finishes =>
    -- After `finish` the lock is free or another process owns it.
    dsimp only at hq
    split at hq
    · cases hq
    · next howner =>
      refine hs.goto_of_ne hq ?_
      rintro rfl
      exact howner hq

omit [DecidableEq P] in
/-- A state is guarded where every executing process was executing in a guarded one. -/
theorem State.Guarded.of_executing (hs : s.Guarded)
    (h : ∀ q, t.Executing q → s.Executing q ∧ t.owner = s.owner) : t.Guarded where
  exclusive p q hp hq := hs.exclusive p q (h p hp).1 (h q hq).1
  owned p hp := (h p hp).2.trans (hs.owned p (h p hp).1)

/-- From a guarded state every step leads to a guarded one, unless a wait succeeds. -/
theorem guarded_act_iff (hheld : Held s) (hs : s.Guarded) (h : t ∈ act s p event) :
    t.Guarded ↔ event ≠ .success := by
  cases effect_of_mem_act h with
  | moves hfrom halive hto hevent =>
    refine iff_of_true (hs.of_executing fun q hq => ?_) hevent
    exact ⟨(executing_of_goto hto hq).2, rfl⟩
  | dies =>
    refine iff_of_true (hs.of_executing fun q hq => ?_) (by simp)
    exact ⟨(executing_of_goto (by simp) hq).2, rfl⟩
  | @takes callable hfree =>
    -- The lock was free, so nobody executed before.
    have hnobody : ∀ q, ¬ s.Executing q := by
      rintro q ⟨c, hc⟩
      have hdead := hfree q (hs.owned q ⟨c, hc⟩)
      rw [hdead] at hc
      cases hc
    have honly : ∀ q, (s.goto p (.executing callable)).Executing q → q = p := by
      intro q hq
      by_contra hne
      exact hnobody q ((executing_goto_of_ne hne).mp hq)
    refine iff_of_true ⟨fun q r hq hr => ?_, fun q hq => ?_⟩ (by simp)
    · exact (honly q hq).trans (honly r hr).symm
    · exact congrArg some (honly q hq).symm
  | @proceeds callable callable' retries holder hfrom =>
    -- A waiting process is not the owner, and now it executes.
    refine iff_of_false (fun ht => ?_) (by simp)
    have howner : s.owner = some p := ht.owned p ⟨callable, place_goto_self _⟩
    rcases hheld p howner with ⟨c, hc⟩ | hc <;> rw [hfrom] at hc <;> cases hc
  | finishes =>
    refine iff_of_true (hs.of_executing fun q hq => ?_) (by simp)
    obtain ⟨hne, hexec⟩ := executing_of_goto (s := s) (by simp) hq
    refine ⟨hexec, if_neg fun howner => ?_⟩
    exact hne (Option.some.inj ((hs.owned q hexec).symm.trans howner))

omit [DecidableEq P] in
theorem held_init : Held (init : State P) := by
  intro p hp
  cases hp

omit [DecidableEq P] in
theorem guarded_init : (init : State P).Guarded where
  exclusive p q hp _ := by
    obtain ⟨callable, hc⟩ := hp
    cases hc
  owned p hp := by
    obtain ⟨callable, hc⟩ := hp
    cases hc

/-- **The lock file.**  Whatever the processes do, one of them at most executes its operation, as
the owner of the lock, exactly as long as no wait for another owner succeeds: a process whose wait
succeeds goes on to its operation without the lock. -/
theorem always_guarded_iff (as : List (P × Event)) :
    Interleaving.Always step State.Guarded (init : State P) as ↔
      Interleaving.Along step (fun _ a => a.2 ≠ .success) (init : State P) as := by
  refine Interleaving.always_iff_along (I := Held) ?_ ?_ held_init guarded_init
  · intro s a t hs _ _ ht
    exact hs.act ht
  · intro s a t hheld hs ht
    exact guarded_act_iff hheld hs ht

/-- Two processes wait for the owner of the lock, and both write once it is done. -/
theorem two_execute_unlocked :
    ∃ s ∈ Interleaving.run step (init : State (Fin 3))
      [(0, .call .writeFile), (1, .call .writeFile), (2, .call .writeFile), (0, .owned),
        (1, .notOwned), (2, .notOwned), (0, .finish), (1, .success), (2, .success)],
      s.place 1 = .executing .writeFile ∧ s.place 2 = .executing .writeFile ∧ s.owner = none := by
  decide

end FileLock
