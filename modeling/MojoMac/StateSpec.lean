/-
What holds after a computation with state and exceptions.

A computation that raises keeps the state it had reached, so there is one postcondition for a
result and one for an error.

* `Spec` — the postcondition that holds after a run from a state;
* `Spec.bind`, `Spec.mono`, `Spec.forM`, `Spec.foldlM`, `Spec.mapM` — its rules;
* `finalState`, `outcome` — the state after a run, and what is made of its result;
* `focus` — a computation on a part of the state.
-/
import Mathlib

open List

namespace StateSpec

variable {ε σ τ α β : Type}

/-- After `m` from `s`, `Q` holds of the result or `E` of the error. -/
def Spec (m : EStateM ε σ α) (s : σ) (Q : α → σ → Prop) (E : ε → σ → Prop) : Prop :=
  match m s with
  | .ok a s' => Q a s'
  | .error e s' => E e s'

/-- `m` from `s` does not raise, and `Q` holds of the result. -/
def Returns (m : EStateM ε σ α) (s : σ) (Q : α → σ → Prop) : Prop := Spec m s Q fun _ _ => False

/-- `m` from `s` raises an error of which `E` holds. -/
def Raises (m : EStateM ε σ α) (s : σ) (E : ε → σ → Prop) : Prop := Spec m s (fun _ _ => False) E

variable {m : EStateM ε σ α} {f : α → EStateM ε σ β} {s : σ} {Q Q' : α → σ → Prop}
  {R : β → σ → Prop} {E E' : ε → σ → Prop}

theorem spec_of_ok {a : α} {s' : σ} (h : m s = .ok a s') : Spec m s Q E ↔ Q a s' := by
  rw [Spec, h]

@[simp] theorem spec_pure (a : α) : Spec (pure a : EStateM ε σ α) s Q E ↔ Q a s := Iff.rfl

@[simp] theorem spec_throw (e : ε) : Spec (throw e : EStateM ε σ α) s Q E ↔ E e s := Iff.rfl

@[simp] theorem spec_get {Q : σ → σ → Prop} : Spec (get : EStateM ε σ σ) s Q E ↔ Q s s := Iff.rfl

@[simp] theorem spec_modify (g : σ → σ) {Q : PUnit → σ → Prop} :
    Spec (modify g : EStateM ε σ PUnit) s Q E ↔ Q ⟨⟩ (g s) := Iff.rfl

@[simp] theorem spec_bind : Spec (m >>= f) s R E ↔ Spec m s (fun a s' => Spec (f a) s' R E) E := by
  change (match EStateM.bind m f s with
    | .ok a s' => R a s'
    | .error e s' => E e s') ↔ _
  rw [EStateM.bind, Spec]
  cases m s <;> rfl

theorem spec_get_bind {f : σ → EStateM ε σ β} : Spec (get >>= f) s R E ↔ Spec (f s) s R E := by
  rw [spec_bind, spec_get]

theorem Spec.mono (h : Spec m s Q E) (hQ : ∀ a s', Q a s' → Q' a s')
    (hE : ∀ e s', E e s' → E' e s') : Spec m s Q' E' := by
  rw [Spec] at h ⊢
  cases hm : m s with
  | ok a s' =>
    rw [hm] at h
    exact hQ a s' h
  | error e s' =>
    rw [hm] at h
    exact hE e s' h

theorem Spec.imp (h : Spec m s Q E) (hQ : ∀ a s', Q a s' → Q' a s') : Spec m s Q' E :=
  h.mono hQ fun _ _ he => he

/-- What is known if the run returns. -/
theorem Spec.mono_ok (h : Spec m s Q E) (hQ : ∀ a s', Q a s' → Q' a s') :
    Spec m s Q' fun _ _ => True :=
  h.mono hQ fun _ _ _ => trivial

theorem Spec.bind (h : Spec m s Q E) (hf : ∀ a s', Q a s' → Spec (f a) s' R E) :
    Spec (m >>= f) s R E :=
  spec_bind.mpr (h.imp hf)

theorem Returns.mono (h : Returns m s Q) (hQ : ∀ a s', Q a s' → Q' a s') : Spec m s Q' E :=
  Spec.mono h hQ fun _ _ he => he.elim

theorem Raises.mono (h : Raises m s E) (hE : ∀ e s', E e s' → E' e s') : Spec m s Q E' :=
  Spec.mono h (fun _ _ hq => hq.elim) hE

theorem Returns.bind (h : Returns m s Q) (hf : ∀ a s', Q a s' → Spec (f a) s' R E) :
    Spec (m >>= f) s R E :=
  spec_bind.mpr (h.mono hf)

theorem Returns.spec (h : Returns m s Q) : Spec m s Q E :=
  h.mono fun _ _ hq => hq

theorem returns_iff : Returns m s Q ↔ ∃ a s', m s = .ok a s' ∧ Q a s' := by
  rw [Returns, Spec]
  cases hm : m s with
  | ok a s' | error e s' => simp

theorem raises_iff : Raises m s E ↔ ∃ e s', m s = .error e s' ∧ E e s' := by
  rw [Raises, Spec]
  cases hm : m s with
  | ok a s' | error e s' => simp

/-- What is known of a run that returns. -/
theorem Returns.and_spec (h : Returns m s Q) (h' : Spec m s Q' E) :
    ∃ a s', m s = .ok a s' ∧ Q a s' ∧ Q' a s' := by
  obtain ⟨a, s', hrun, hQ⟩ := returns_iff.mp h
  exact ⟨a, s', hrun, hQ, (spec_of_ok hrun).mp h'⟩

/-- A loop comes to each element once, if there are no duplicates. -/
theorem not_mem_done {as done todo : List α} {a : α} (hnodup : as.Nodup)
    (has : as = done ++ a :: todo) : a ∉ done := by
  rw [has, nodup_append'] at hnodup
  exact fun hmem => hnodup.2.2 hmem mem_cons_self

theorem not_mem_map_done {as done todo : List α} {a : α} {f : α → β} (hnodup : (as.map f).Nodup)
    (has : as = done ++ a :: todo) : f a ∉ done.map f :=
  not_mem_done hnodup (by rw [has, map_append, map_cons])

/-- The rule for a loop with an accumulator. -/
theorem Spec.foldlM {g : β → α → EStateM ε σ β} {I : List α → β → σ → Prop} (as : List α) (b : β)
    (hstep : ∀ done a todo, as = done ++ a :: todo →
      ∀ b s, I done b s → Spec (g b a) s (fun b' s' => I (done ++ [a]) b' s') E)
    (h : I [] b s) : Spec (as.foldlM g b) s (fun b' s' => I as b' s') E := by
  have hgen : ∀ (todo done : List α) (b : β) (s : σ), as = done ++ todo → I done b s →
      Spec (todo.foldlM g b) s (fun b' s' => I as b' s') E := by
    intro todo
    induction todo with
    | nil =>
      intro done b s has hI
      rw [append_nil] at has
      rw [foldlM_nil, spec_pure, has]
      exact hI
    | cons a todo ih =>
      intro done b s has hI
      rw [foldlM_cons]
      refine (hstep done a todo has b s hI).bind fun b' s' hI' => ih (done ++ [a]) b' s' ?_ hI'
      rw [has, append_assoc]
      rfl
  exact hgen as [] b s rfl h

/-- The rule for a loop: an invariant of the elements gone through. -/
theorem Spec.forM {g : α → EStateM ε σ PUnit} {I : List α → σ → Prop} (as : List α)
    (hstep : ∀ done a todo, as = done ++ a :: todo →
      ∀ s, I done s → Spec (g a) s (fun _ s' => I (done ++ [a]) s') E)
    (h : I [] s) : Spec (as.forM g) s (fun _ s' => I as s') E := by
  have hloop : ∀ as : List α, as.forM g = as.foldlM (fun _ a => g a) ⟨⟩ := by
    intro as
    induction as with
    | nil => rfl
    | cons a as ih => exact congrArg (g a >>= ·) (funext fun _ => ih)
  rw [hloop]
  exact Spec.foldlM (I := fun done _ s => I done s) as _
    (fun done a todo has _ s => hstep done a todo has s) h

/-- The rule for a loop that collects results. -/
theorem Spec.mapM {g : α → EStateM ε σ β} {I : σ → Prop} (as : List α)
    (hstep : ∀ a ∈ as, ∀ s, I s → Spec (g a) s (fun _ s' => I s') E) (h : I s) :
    Spec (as.mapM g) s (fun _ s' => I s') E := by
  induction as generalizing s with
  | nil =>
    rw [mapM_nil]
    exact h
  | cons a as ih =>
    rw [mapM_cons]
    refine (hstep a mem_cons_self s h).bind fun b s' hs' => ?_
    refine Spec.bind (ih (fun a ha => hstep a (mem_cons_of_mem _ ha)) hs') ?_
    exact fun _ _ hs'' => hs''

/-- The state after a run, whether it returned or raised. -/
def finalState (m : EStateM ε σ α) (s : σ) : σ :=
  match m s with
  | .ok _ s' => s'
  | .error _ s' => s'

/-- What is made of a run, of its result or of its error. -/
def outcome (m : EStateM ε σ α) (s : σ) (ok : α → σ → β) (error : ε → σ → β) : β :=
  match m s with
  | .ok a s' => ok a s'
  | .error e s' => error e s'

theorem Spec.outcome {P : β → Prop} {ok : α → σ → β} {error : ε → σ → β}
    (h : Spec m s (fun a s' => P (ok a s')) fun e s' => P (error e s')) :
    P (outcome m s ok error) := by
  rw [Spec] at h
  rw [StateSpec.outcome]
  cases hm : m s with
  | ok a s' | error e s' => rwa [hm] at h

theorem Spec.finalState {P : σ → Prop} (h : Spec m s (fun _ => P) fun _ => P) :
    P (finalState m s) :=
  Spec.outcome h

/-- The run of a step that may end: what holds of the next state. -/
theorem Spec.mem_outcome {P : β → Prop} {ok : α → σ → Option β} {error : ε → σ → Option β}
    (h : Spec m s (fun a s' => ∀ b ∈ ok a s', P b) fun e s' => ∀ b ∈ error e s', P b) :
    ∀ b ∈ StateSpec.outcome m s ok error, P b :=
  Spec.outcome (P := fun next => ∀ b ∈ next, P b) h

/-- A computation on a part of the state. -/
def focus (part : σ → τ) (put : τ → σ → σ) (m : EStateM ε τ α) : EStateM ε σ α := fun s =>
  match m (part s) with
  | .ok a t => .ok a (put t s)
  | .error e t => .error e (put t s)

@[simp] theorem spec_focus {part : σ → τ} {put : τ → σ → σ} {m : EStateM ε τ α} :
    Spec (focus part put m) s Q E
      ↔ Spec m (part s) (fun a t => Q a (put t s)) fun e t => E e (put t s) := by
  rw [Spec, Spec, focus]
  cases m (part s) <;> rfl

end StateSpec
