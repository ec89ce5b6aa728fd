/-
Runs of a system whose parties take atomic steps in any order.

A system is a step function: `step s a` is the state after the action `a`, or `none` where `a`
cannot happen.  A schedule is a list of actions, each of which names the party that takes it, so
every interleaving of the parties is a schedule.

* `run` — the state after a schedule;
* `Always`, `Along` — what holds in every state that a schedule passes, and of every step it takes;
* `run_invariant` — an invariant of the steps is one of the runs;
* `always_iff_along` — where each step says whether the next state is good, the good runs are
  those all of whose steps are;
* `along_congr` — conditions that agree in the states of an invariant hold of the same runs;
* `sum_update` — what the parties hold together when one of them takes a step.
-/
import Mathlib

namespace Interleaving

variable {S A : Type*} {step : S → A → Option S} {s t : S} {a : A} {as bs : List A}

/-- A sum over the parties of which one has changed. -/
theorem sum_update {T B : Type*} [Fintype T] [DecidableEq T] (f : B → ℕ) (g : T → B) (p : T)
    (b : B) : ∑ q, f (Function.update g p b q) + f (g p) = ∑ q, f (g q) + f b := by
  rw [← Finset.add_sum_erase _ _ (Finset.mem_univ p),
    ← Finset.add_sum_erase _ (fun q => f (g q)) (Finset.mem_univ p), Function.update_self]
  have hrest : ∑ q ∈ Finset.univ.erase p, f (Function.update g p b q) =
      ∑ q ∈ Finset.univ.erase p, f (g q) :=
    Finset.sum_congr rfl fun q hq => by rw [Function.update_of_ne (Finset.ne_of_mem_erase hq)]
  omega

/-- The state after the actions in order, `none` if one of them cannot happen. -/
def run (step : S → A → Option S) : S → List A → Option S
  | s, [] => some s
  | s, a :: as => (step s a).bind fun t => run step t as

/-- `P` holds in every state that the schedule passes. -/
def Always (step : S → A → Option S) (P : S → Prop) : S → List A → Prop
  | s, [] => P s
  | s, a :: as => P s ∧ ∀ t ∈ step s a, Always step P t as

/-- `C` holds of every step that the schedule takes. -/
def Along (step : S → A → Option S) (C : S → A → Prop) : S → List A → Prop
  | _, [] => True
  | s, a :: as => ∀ t ∈ step s a, C s a ∧ Along step C t as

theorem Always.head {P : S → Prop} (h : Always step P s as) : P s := by
  cases as with
  | nil => exact h
  | cons a as => exact h.1

/-- What every step keeps holds at the end of every run. -/
theorem run_invariant {I : S → Prop} (hstep : ∀ s a t, I s → t ∈ step s a → I t) (hs : I s)
    (ht : t ∈ run step s as) : I t := by
  induction as generalizing s with
  | nil =>
    obtain rfl : s = t := Option.some.inj ht
    exact hs
  | cons a as ih =>
    obtain ⟨u, hu, hrun⟩ := Option.mem_bind_iff.mp ht
    exact ih (hstep s a u hs hu) hrun

/-- Where a step from a good state comes to a good state exactly if it meets the condition, a run
is good throughout exactly if all its steps meet it. -/
theorem always_iff_along {I P : S → Prop} {C : S → A → Prop}
    (hkeep : ∀ s a t, I s → P s → P t → t ∈ step s a → I t)
    (hstep : ∀ s a t, I s → P s → t ∈ step s a → (P t ↔ C s a)) (hI : I s) (hP : P s) :
    Always step P s as ↔ Along step C s as := by
  induction as generalizing s with
  | nil => exact iff_of_true hP trivial
  | cons a as ih =>
    constructor
    · intro h t ht
      have hrest := h.2 t ht
      exact ⟨(hstep s a t hI hP ht).mp hrest.head,
        (ih (hkeep s a t hI hP hrest.head ht) hrest.head).mp hrest⟩
    · intro h
      refine ⟨hP, fun t ht => ?_⟩
      obtain ⟨hc, hrest⟩ := h t ht
      have ht' := (hstep s a t hI hP ht).mpr hc
      exact (ih (hkeep s a t hI hP ht' ht) ht').mpr hrest

/-- Two conditions that agree on the steps from states that the invariant allows hold of the same
runs. -/
theorem along_congr {I : S → Prop} {C D : S → A → Prop} (hkeep : ∀ s a t, I s → t ∈ step s a → I t)
    (hstep : ∀ s a t, I s → t ∈ step s a → (C s a ↔ D s a)) (hI : I s) :
    Along step C s as ↔ Along step D s as := by
  induction as generalizing s with
  | nil => exact Iff.rfl
  | cons a as ih =>
    refine forall_congr' fun t => forall_congr' fun ht => ?_
    exact and_congr (hstep s a t hI ht) (ih (hkeep s a t hI ht))

end Interleaving
