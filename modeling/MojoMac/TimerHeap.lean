/-
The timer heap: chains that a timer thread triggers at their expiration.

Time is discrete.  `push`, `cancel`, `stop` and one turn of the loop of `run` each hold the mutex
and are one step; a wait of the thread ends when it times out or its predicate holds.  The
standard heap algorithms are taken by their contract.

* `Timer`, `step` — the entries, the thread and its waits, with a history of what was removed and
  triggered;
* `cancelLoop_spec` — the loop of `cancel` only takes out entries of the cancelled chain, and
  leaves a part of the heap unless it asks for a new one;
* `Inv` — what every step keeps;
* `always_timely_iff` — the thread always wakes up in time exactly if no entry that is pushed
  during a timed wait expires before the wait ends.
-/
import MojoMac.HeapAlgorithms
import MojoMac.Interleaving

open List

namespace TimerHeap

open HeapOrder

variable {C : Type}

/-- A pending entry.  Its number in the order of the pushes is part of the history. -/
structure Entry (C : Type) where
  expiration : ℕ
  /-- The chain, `none` for a null reference. -/
  expired : Option C
  number : ℕ
  deriving DecidableEq, Repr

/-- An entry comes first that expires first. -/
def Entry.priority (e : Entry C) : ℕᵒᵈ := OrderDual.toDual e.expiration

/-- The thread that runs `run`. -/
inductive Thread
  | looping
  /-- In a wait, until the given time if it is a timed one. -/
  | waiting (wakeUp : Option ℕ) (notified : Bool)
  | stopped
  deriving DecidableEq, Repr

/-- A chain that was triggered: by the timer thread, or by `cancel` of the given chain. -/
structure Trigger (C : Type) where
  entry : Entry C
  time : ℕ
  cancelled : Option C
  deriving DecidableEq, Repr

structure Timer (C : Type) where
  entries : List (Entry C)
  running : Bool
  now : ℕ
  thread : Thread
  pushed : ℕ
  removed : List (Entry C)
  triggered : List (Trigger C)
  deriving DecidableEq, Repr

def init : Timer C where
  entries := []
  running := true
  now := 0
  thread := .looping
  pushed := 0
  removed := []
  triggered := []

/-- `cv.notify_one()`. -/
def Thread.notify : Thread → Thread
  | .waiting wakeUp _ => .waiting wakeUp true
  | thread => thread

variable (s : Timer C)

/-- Whether `push` notifies: there was no entry, or the first one expires later. -/
def Timer.notify (expiration : ℕ) : Bool :=
  match s.entries.head? with
  | none => true
  | some front => decide (front.expiration > expiration)

def push (algorithms : HeapAlgorithms (Entry.priority (C := C))) (s : Timer C) (expiration : ℕ)
    (chain : Option C) : Timer C :=
  { s with
    entries := algorithms.pushHeap (s.entries ++ [⟨expiration, chain, s.pushed⟩])
    pushed := s.pushed + 1
    thread := if s.notify expiration then s.thread.notify else s.thread }

/-- The loop of `cancel` from index `i` on, with the entries it has triggered.  Every turn either
goes on to the next entry or takes one out, so there are as many turns as entries. -/
def cancelLoop [DecidableEq C] (chain : C) :
    ℕ → ℕ → List (Entry C) → Bool → List (Entry C) → List (Entry C) × Bool × List (Entry C)
  | 0, _, entries, reheap, out => (entries, reheap, out)
  | n + 1, i, entries, reheap, out =>
    match entries[i]?, entries.getLast? with
    | some entry, some back =>
      if entry.expired = some chain then
        if i < entries.length - 1 then
          cancelLoop chain n i ((entries.set i back).set (entries.length - 1) entry).dropLast true
            (out ++ [entry])
        else cancelLoop chain n i entries.dropLast reheap (out ++ [entry])
      else cancelLoop chain n (i + 1) entries reheap out
    | _, _ => (entries, reheap, out)

def cancel [DecidableEq C] (algorithms : HeapAlgorithms (Entry.priority (C := C))) (s : Timer C)
    (chain : C) : Timer C :=
  let (entries, reheap, out) := cancelLoop chain s.entries.length 0 s.entries false []
  { s with
    entries := if reheap then algorithms.makeHeap entries else entries
    removed := s.removed ++ out
    triggered := s.triggered ++ out.map fun e => ⟨e, s.now, some chain⟩ }

def stop : Timer C :=
  if s.running then { s with running := false, thread := s.thread.notify } else s

/-- One turn of the loop of `run`. -/
def loop (algorithms : HeapAlgorithms (Entry.priority (C := C))) (s : Timer C) : Timer C :=
  if !s.running then { s with thread := .stopped }
  else match s.entries.head? with
    | none => { s with thread := .waiting none false }
    | some next =>
      if s.now ≥ next.expiration then
        let popped := algorithms.popHeap s.entries
        { s with
          triggered := if next.expired.isSome then s.triggered ++ [⟨next, s.now, none⟩]
            else s.triggered
          entries := popped.dropLast
          removed := s.removed ++ popped.getLast?.toList }
      else
        let delta := next.expiration - s.now
        { s with thread := .waiting (some (s.now + delta)) false }

/-- The predicate that a wait is given: the timed wait only looks at `running`. -/
def Timer.pred : Option ℕ → Bool
  | none => !s.running || !s.entries.isEmpty
  | some _ => !s.running

/-- A waiting thread wakes up, and sleeps on unless the predicate holds or the time is over. -/
def wake (wakeUp : Option ℕ) : Timer C :=
  if s.pred wakeUp ∨ ∃ time ∈ wakeUp, time ≤ s.now then { s with thread := .looping }
  else { s with thread := .waiting wakeUp false }

inductive Action (C : Type)
  | push (expiration : ℕ) (chain : Option C)
  | cancel (chain : C)
  | stop
  | loop
  | wake
  | tick
  deriving DecidableEq, Repr

def step [DecidableEq C] (algorithms : HeapAlgorithms (Entry.priority (C := C))) (s : Timer C) :
    Action C → Option (Timer C)
  | .push expiration chain => some (push algorithms s expiration chain)
  | .cancel chain => some (cancel algorithms s chain)
  | .stop => some (stop s)
  | .loop => if s.thread = .looping then some (loop algorithms s) else none
  | .wake =>
    match s.thread with
    | .waiting wakeUp _ => some (wake s wakeUp)
    | _ => none
  | .tick => some { s with now := s.now + 1 }

variable {algorithms : HeapAlgorithms (Entry.priority (C := C))} {s t : Timer C}

/-! ### Cancelling -/

/-- Swapping an entry with the last one and dropping the last takes that entry out. -/
theorem swap_dropLast_perm {entries : List (Entry C)} {i : ℕ} {entry back : Entry C}
    (hentry : entries[i]? = some entry) (hback : entries.getLast? = some back)
    (hi : i < entries.length - 1) :
    (((entries.set i back).set (entries.length - 1) entry).dropLast ++ [entry]).Perm entries := by
  have hlast : ((entries.set i back).set (entries.length - 1) entry).getLast? = some entry := by
    rw [getLast?_eq_getElem?]
    simp only [length_set]
    exact getElem?_set_self (by simp; omega)
  have hswap : ((entries.set i back).set (entries.length - 1) entry).Perm entries := by
    rw [getLast?_eq_getElem?] at hback
    have hperm := HeapOrder.set_set_perm (x := entry) (by omega : i < entries.length) hback
      (by omega)
    rwa [HeapOrder.set_eq_self hentry] at hperm
  rw [dropLast_append_getLast? entry hlast]
  exact hswap

/-- What is taken out goes behind what was taken out before. -/
theorem perm_behind {l m out : List (Entry C)} (h : (l ++ out).Perm m) (r : List (Entry C)) :
    (l ++ (r ++ out)).Perm (m ++ r) := by
  refine .trans ?_ (h.append_right r)
  rw [append_assoc]
  exact perm_append_comm.append_left _

/-- What the loop of `cancel` does: it takes entries of the chain out, and where it does not ask
for a new heap it has only cut off the end. -/
theorem cancelLoop_spec [DecidableEq C] (chain : C) (n i : ℕ) (entries : List (Entry C)) (reheap : Bool)
    (out : List (Entry C)) {entries' out' : List (Entry C)} {reheap' : Bool}
    (h : cancelLoop chain n i entries reheap out = (entries', reheap', out')) :
    (entries' ++ out').Perm (entries ++ out) ∧
    (∀ e ∈ out', e ∈ out ∨ e.expired = some chain) ∧
    (reheap' = false → reheap = false ∧ ∃ k, entries' = entries.take k) := by
  induction n generalizing i entries reheap out with
  | zero =>
    obtain ⟨rfl, rfl, rfl⟩ : entries = entries' ∧ reheap = reheap' ∧ out = out' := by
      simpa [cancelLoop] using h
    exact ⟨.refl _, fun e he => .inl he, fun hr => ⟨hr, entries.length, by simp⟩⟩
  | succ n ih =>
    rw [cancelLoop] at h
    split at h
    · next entry back hentry hback =>
      have hout : ∀ e ∈ out ++ [entry], entry.expired = some chain →
          e ∈ out ∨ e.expired = some chain := by
        intro e he hchain
        rcases mem_append.mp he with he | he
        · exact .inl he
        · rw [mem_singleton.mp he]
          exact .inr hchain
      split at h
      · next hchain =>
        split at h
        · next hi =>
          obtain ⟨hperm, hmem, hheap⟩ := ih _ _ _ _ h
          exact ⟨hperm.trans (perm_behind (swap_dropLast_perm hentry hback hi) out),
            fun e he => (hmem e he).elim (hout e · hchain) .inr, fun hr => nomatch (hheap hr).1⟩
        next hi =>
        -- The entry is the last one, so nothing is swapped.
        obtain ⟨hperm, hmem, hheap⟩ := ih _ _ _ _ h
        refine ⟨hperm.trans ?_, fun e he => (hmem e he).elim (hout e · hchain) .inr,
          fun hr => ⟨(hheap hr).1, ?_⟩⟩
        · have hlen : i < entries.length := (List.getElem_of_getElem? hentry).fst
          have hlast : entries.getLast? = some entry := by
            rw [getLast?_eq_getElem?, ← hentry]
            congr 1
            omega
          exact perm_behind (.of_eq (dropLast_append_getLast? entry hlast)) out
        · obtain ⟨k, hk⟩ := (hheap hr).2
          exact ⟨min k (entries.length - 1), by rw [hk, dropLast_eq_take, take_take]⟩
      · exact ih _ _ _ _ h
    · obtain ⟨rfl, rfl, rfl⟩ : entries = entries' ∧ reheap = reheap' ∧ out = out' := by
        simpa using h
      exact ⟨.refl _, fun e he => .inl he, fun hr => ⟨hr, entries.length, by simp⟩⟩

/-! ### What every step keeps -/

structure Inv (s : Timer C) : Prop where
  heap : IsHeap Entry.priority s.entries
  /-- No two entries that were ever pushed have the same number. -/
  numbers : ((s.entries ++ s.removed).map Entry.number).Nodup
  pushed : ∀ e ∈ s.entries ++ s.removed, e.number < s.pushed
  due : ∀ f ∈ s.triggered, f.cancelled = none → f.entry.expiration ≤ f.time
  cancelled : ∀ f ∈ s.triggered, ∀ chain ∈ f.cancelled, f.entry.expired = some chain
  removed : (s.triggered.map Trigger.entry).Sublist s.removed
  /-- Whoever waits for an entry is told of it. -/
  notified : ∀ b, s.thread = .waiting none b → s.entries ≠ [] → b = true
  stopping : s.running = false → ∀ w b, s.thread = .waiting w b → b = true

theorem inv_init : Inv (init : Timer C) where
  heap := isHeap_nil
  numbers := nodup_nil
  pushed := nofun
  due := nofun
  cancelled := nofun
  removed := .slnil
  notified _ h := nomatch h
  stopping h := nomatch h

/-- A thread that is notified waits for the same time as before. -/
theorem Thread.notify_eq_waiting {thread : Thread} {w : Option ℕ} {b : Bool} :
    thread.notify = .waiting w b ↔ b = true ∧ ∃ b', thread = .waiting w b' := by
  cases thread with
  | waiting w' b' =>
    simp only [Thread.notify, Thread.waiting.injEq]
    grind
  | looping | stopped => simp [Thread.notify]

/-- `push` tells a thread that waits for any entry. -/
theorem thread_push {expiration : ℕ} {chain : Option C} {w : Option ℕ} {b : Bool}
    (h : (push algorithms s expiration chain).thread = .waiting w b) :
    ∃ b', s.thread = .waiting w b' ∧ (b' = true ∨ s.entries = [] → b = true) := by
  simp only [push] at h
  split at h
  · obtain ⟨hb, b', hthread⟩ := Thread.notify_eq_waiting.mp h
    exact ⟨b', hthread, fun _ => hb⟩
  · next hnotify =>
    refine ⟨b, h, fun hor => hor.resolve_right fun hempty => ?_⟩
    exact hnotify (by rw [Timer.notify, hempty]; rfl)

theorem Inv.push (hs : Inv s) (expiration : ℕ) (chain : Option C) :
    Inv (push algorithms s expiration chain) := by
  have hperm := algorithms.pushHeap_perm (s.entries ++ [⟨expiration, chain, s.pushed⟩])
  have hall : (algorithms.pushHeap (s.entries ++ [⟨expiration, chain, s.pushed⟩]) ++
      s.removed).Perm (⟨expiration, chain, s.pushed⟩ :: (s.entries ++ s.removed)) := by
    refine (hperm.append_right s.removed).trans ?_
    rw [append_assoc]
    exact perm_middle
  exact { hs with
    heap := algorithms.isHeap_pushHeap _ _ hs.heap
    numbers := by
      refine ((hall.map Entry.number).nodup_iff).mpr (nodup_cons.mpr ⟨fun h => ?_, hs.numbers⟩)
      obtain ⟨e, he, hnumber⟩ := mem_map.mp h
      exact (hs.pushed e he).ne hnumber
    pushed := by
      intro e he
      rcases mem_cons.mp (hall.mem_iff.mp he) with rfl | he
      · exact Nat.lt_succ_self _
      · exact (hs.pushed e he).trans (Nat.lt_succ_self _)
    notified := by
      intro b hb _
      obtain ⟨b', hthread, htold⟩ := thread_push hb
      by_cases hempty : s.entries = []
      · exact htold (.inr hempty)
      · exact htold (.inl (hs.notified b' hthread hempty))
    stopping := by
      intro hrunning w b hb
      obtain ⟨b', hthread, htold⟩ := thread_push hb
      exact htold (.inl (hs.stopping hrunning w b' hthread)) }

/-- Entries that leave the heap go to the removed ones. -/
theorem Inv.moved {entries removed : List (Entry C)} (hs : Inv s)
    (hperm : (entries ++ removed).Perm (s.entries ++ s.removed)) :
    ((entries ++ removed).map Entry.number).Nodup ∧ ∀ e ∈ entries ++ removed, e.number < s.pushed :=
  ⟨((hperm.map Entry.number).nodup_iff).mpr hs.numbers,
    fun e he => hs.pushed e (hperm.mem_iff.mp he)⟩

/-- `cancel` takes entries of the chain out, and the rest is a heap again. -/
theorem cancel_spec [DecidableEq C] (algorithms : HeapAlgorithms (Entry.priority (C := C)))
    (s : Timer C) (chain : C) : ∃ entries out, cancel algorithms s chain = { s with
        entries := entries
        removed := s.removed ++ out
        triggered := s.triggered ++ out.map fun e => ⟨e, s.now, some chain⟩ } ∧
      (entries ++ out).Perm s.entries ∧ (∀ e ∈ out, e.expired = some chain) ∧
      (IsHeap Entry.priority s.entries → IsHeap Entry.priority entries) := by
  obtain ⟨⟨entries, reheap, out⟩, hloop⟩ :
      ∃ r, cancelLoop chain s.entries.length 0 s.entries false [] = r := ⟨_, rfl⟩
  obtain ⟨hperm, hmem, hcut⟩ := cancelLoop_spec chain _ _ _ _ _ hloop
  rw [append_nil] at hperm
  refine ⟨_, out, by rw [cancel, hloop], ?_, fun e he => (hmem e he).resolve_left nofun, ?_⟩
  · split
    · exact ((algorithms.makeHeap_perm entries).append_right out).trans hperm
    · exact hperm
  · intro hheap
    split
    · exact algorithms.isHeap_makeHeap entries
    · next hreheap =>
      obtain ⟨k, rfl⟩ := (hcut (by simpa using hreheap)).2
      exact hheap.take k

theorem Inv.cancel [DecidableEq C] (hs : Inv s) (chain : C) : Inv (cancel algorithms s chain) := by
  obtain ⟨entries, out, heq, hperm, hmem, hheap⟩ := cancel_spec algorithms s chain
  have hall := perm_behind hperm s.removed
  have htriggered : ∀ f ∈ out.map fun e => (⟨e, s.now, some chain⟩ : Trigger C),
      f.cancelled = some chain ∧ f.entry.expired = some chain := by
    intro f hf
    obtain ⟨e, he, rfl⟩ := mem_map.mp hf
    exact ⟨rfl, hmem e he⟩
  rw [heq]
  exact { hs with
    heap := hheap hs.heap
    numbers := (hs.moved hall).1
    pushed := (hs.moved hall).2
    due := by
      intro f hf hnone
      rcases mem_append.mp hf with hf | hf
      · exact hs.due f hf hnone
      · rw [(htriggered f hf).1] at hnone
        cases hnone
    cancelled := by
      intro f hf c hc
      rcases mem_append.mp hf with hf | hf
      · exact hs.cancelled f hf c hc
      · obtain ⟨hcancelled, hexpired⟩ := htriggered f hf
        rw [hcancelled] at hc
        exact hexpired.trans hc
    removed := by
      rw [map_append]
      refine hs.removed.append ?_
      rw [map_map]
      exact (map_id out).symm ▸ .refl _
    notified := by
      intro b hb hne
      refine hs.notified b hb fun hempty => hne ?_
      rw [hempty] at hperm
      exact (append_eq_nil_iff.mp hperm.eq_nil).1 }

theorem Inv.stop (hs : Inv s) : Inv (stop s) := by
  rw [TimerHeap.stop]
  split
  · have htold : ∀ w b, s.thread.notify = .waiting w b → b = true := fun w b hb =>
      (Thread.notify_eq_waiting.mp hb).1
    exact { hs with
      notified := fun b hb _ => htold none b hb
      stopping := fun _ w b hb => htold w b hb }
  · exact hs

theorem Inv.loop (hs : Inv s) : Inv (loop algorithms s) := by
  rw [TimerHeap.loop]
  split
  · exact { hs with
      notified := nofun
      stopping := nofun }
  next hrunning =>
  have hrun : s.running ≠ false := by simpa using hrunning
  split
  · next hempty =>
    have hentries : s.entries = [] := head?_eq_none_iff.mp hempty
    exact { hs with
      notified := fun _ _ hne => absurd hentries hne
      stopping := fun h => absurd h hrun }
  next next hnext =>
  split
  · next hnow =>
    -- The last entry after `popHeap` is the one that was in front.
    have hlast := algorithms.getLast?_popHeap s.entries hs.heap
    rw [hnext] at hlast
    have hpopped : ((algorithms.popHeap s.entries).dropLast ++ [next]).Perm s.entries := by
      rw [dropLast_append_getLast? next hlast]
      exact algorithms.popHeap_perm s.entries
    have hall : ((algorithms.popHeap s.entries).dropLast ++ (s.removed ++ [next])).Perm
        (s.entries ++ s.removed) := perm_behind hpopped s.removed
    have hmem : ∀ f ∈ (if next.expired.isSome then s.triggered ++ [⟨next, s.now, none⟩]
        else s.triggered), f ∈ s.triggered ∨ f = ⟨next, s.now, none⟩ := by
      intro f hf
      split at hf
      · simpa using hf
      · exact .inl hf
    dsimp only
    rw [hlast]
    exact {
      heap := algorithms.isHeap_popHeap s.entries hs.heap
      numbers := (hs.moved hall).1
      pushed := (hs.moved hall).2
      due := by
        intro f hf hnone
        rcases hmem f hf with hf | rfl
        · exact hs.due f hf hnone
        · exact hnow
      cancelled := by
        intro f hf c hc
        rcases hmem f hf with hf | rfl
        · exact hs.cancelled f hf c hc
        · cases hc
      removed := by
        dsimp only
        split
        · rw [map_append]
          exact hs.removed.append (.refl _)
        · exact hs.removed.trans (sublist_append_left ..)
      notified := by
        intro b hb _
        refine hs.notified b hb fun hempty => ?_
        rw [hempty] at hnext
        cases hnext
      stopping := fun h => absurd h hrun }
  · exact { hs with
      notified := nofun
      stopping := fun h => absurd h hrun }

theorem Inv.wake (hs : Inv s) (w : Option ℕ) : Inv (wake s w) := by
  rw [TimerHeap.wake]
  split
  · exact { hs with
      notified := nofun
      stopping := nofun }
  next hsleep =>
  rw [not_or] at hsleep
  have hrunning : s.running = true := by cases w <;> simp_all [Timer.pred]
  refine { hs with
    notified := fun b hb hne => ?_
    stopping := fun h => ?_ }
  · -- With an entry the predicate holds, and the thread does not sleep on.
    injection hb with hw
    subst hw
    simp_all [Timer.pred]
  · exact absurd (h.symm.trans hrunning) (by simp)

theorem Inv.step [DecidableEq C] {a : Action C} (hs : Inv s) (h : t ∈ step algorithms s a) : Inv t := by
  cases a with
  | push expiration chain => exact Option.some.inj h ▸ hs.push expiration chain
  | cancel chain => exact Option.some.inj h ▸ hs.cancel chain
  | stop => exact Option.some.inj h ▸ hs.stop
  | loop =>
    rw [TimerHeap.step] at h
    split at h
    · exact Option.some.inj h ▸ hs.loop
    · cases h
  | wake =>
    rw [TimerHeap.step] at h
    split at h
    · exact Option.some.inj h ▸ hs.wake _
    · cases h
  | tick => exact Option.some.inj h ▸ { hs with }

/-! ### Waking up in time -/

/-- The thread does not sleep beyond a pending expiration: where there are entries and it waits, it
is about to leave the wait, or it wakes up no later than the earliest of them expires. -/
def InTime (s : Timer C) : Prop :=
  ∀ w b, s.thread = .waiting w b → s.entries ≠ [] →
    (b = true ∧ s.pred w = true) ∨ ∃ time ∈ w, ∀ e ∈ s.entries, time ≤ e.expiration

/-- It comes down to the timed waits of a running thread. -/
theorem inTime_iff (hs : Inv s) :
    InTime s ↔ (s.running = true → ∀ time b, s.thread = .waiting (some time) b →
      ∀ e ∈ s.entries, time ≤ e.expiration) := by
  constructor
  · intro h hrunning time b hb e he
    rcases h (some time) b hb (ne_nil_of_mem he) with ⟨-, hpred⟩ | ⟨time', htime, hall⟩
    · simp [Timer.pred, hrunning] at hpred
    · exact Option.some.inj htime ▸ hall e he
  · intro h w b hb hne
    cases hrunning : s.running with
    | false =>
      refine .inl ⟨hs.stopping hrunning w b hb, ?_⟩
      cases w <;> simp [Timer.pred, hrunning]
    | true =>
      cases w with
      | none => exact .inl ⟨hs.notified b hb hne, by simp [Timer.pred, hne]⟩
      | some time => exact .inr ⟨time, rfl, h hrunning time b hb⟩

/-- An entry that is pushed during a timed wait does not expire before the end of the wait. -/
def Punctual (s : Timer C) : Action C → Prop
  | .push expiration _ =>
    s.running = true → ∀ time b, s.thread = .waiting (some time) b → time ≤ expiration
  | _ => True

theorem cancel_subset [DecidableEq C] (chain : C) :
    ∀ e ∈ (cancel algorithms s chain).entries, e ∈ s.entries := by
  intro e he
  obtain ⟨entries, out, heq, hperm, -⟩ := cancel_spec algorithms s chain
  rw [heq] at he
  exact hperm.mem_iff.mp (mem_append_left out he)

theorem inTime_push_iff (hs : Inv s) (hin : InTime s) (expiration : ℕ) (chain : Option C) :
    InTime (push algorithms s expiration chain) ↔ Punctual s (.push expiration chain) := by
  have hmem : ∀ e, e ∈ (push algorithms s expiration chain).entries ↔
      e ∈ s.entries ∨ e = ⟨expiration, chain, s.pushed⟩ := by
    intro e
    rw [push, (algorithms.pushHeap_perm _).mem_iff, mem_append, mem_singleton]
  rw [inTime_iff (hs.push expiration chain)]
  rw [inTime_iff hs] at hin
  constructor
  · intro h hrunning time b hb
    -- The thread waits for the same time, whether it was notified or not.
    have hthread : ∃ b', (push algorithms s expiration chain).thread = .waiting (some time) b' := by
      simp only [push]
      split
      · exact ⟨true, by rw [hb]; rfl⟩
      · exact ⟨b, hb⟩
    obtain ⟨b', hb'⟩ := hthread
    exact h hrunning time b' hb' _ ((hmem _).mpr (.inr rfl))
  · intro h hrunning time b hb e he
    obtain ⟨b', hthread, -⟩ := thread_push hb
    rcases (hmem e).mp he with he | rfl
    · exact hin hrunning time b' hthread e he
    · exact h hrunning time b' hthread

theorem InTime.loop (hs : Inv s) (hlooping : s.thread = .looping) : InTime (loop algorithms s) := by
  rw [inTime_iff hs.loop]
  intro _ time b hb e he
  rw [TimerHeap.loop] at hb he
  split at hb
  · cases hb
  next hrunning =>
  rw [if_neg hrunning] at he
  split at hb
  · cases hb
  next next hnext =>
  simp only [hnext] at he
  split at hb
  · rw [hlooping] at hb
    cases hb
  next hnow =>
  rw [if_neg hnow] at he
  obtain ⟨rfl, -⟩ : s.now + (next.expiration - s.now) = time ∧ false = b := by simpa using hb
  have hle : next.expiration ≤ e.expiration := hs.heap.le_head hnext e he
  omega

/-- A step from a state in which the thread wakes up in time leads to such a state exactly if it is
punctual. -/
theorem inTime_step_iff [DecidableEq C] {a : Action C} (hs : Inv s) (hin : InTime s)
    (h : t ∈ step algorithms s a) : InTime t ↔ Punctual s a := by
  cases a with
  | push expiration chain => exact Option.some.inj h ▸ inTime_push_iff hs hin expiration chain
  | cancel chain =>
    refine iff_of_true ?_ trivial
    obtain rfl := Option.some.inj h
    rw [inTime_iff hs] at hin
    rw [inTime_iff (hs.cancel chain)]
    intro hrunning time b hb e he
    exact hin hrunning time b hb e (cancel_subset chain e he)
  | stop =>
    refine iff_of_true ?_ trivial
    obtain rfl := Option.some.inj h
    rw [inTime_iff hs.stop]
    intro hrunning
    rw [stop] at hrunning
    split at hrunning
    · cases hrunning
    · contradiction
  | loop =>
    refine iff_of_true ?_ trivial
    rw [step] at h
    split at h
    · next hlooping => exact Option.some.inj h ▸ InTime.loop hs hlooping
    · cases h
  | wake =>
    refine iff_of_true ?_ trivial
    rw [step] at h
    split at h
    · next w b hthread =>
      obtain rfl := Option.some.inj h
      rw [inTime_iff hs] at hin
      rw [inTime_iff (hs.wake w)]
      rw [wake]
      split
      · intro _ time b' hb
        cases hb
      · intro hrunning time b' hb e he
        obtain ⟨rfl, -⟩ : w = some time ∧ false = b' := by simpa using hb
        exact hin hrunning time b hthread e he
    · cases h
  | tick =>
    refine iff_of_true ?_ trivial
    obtain rfl := Option.some.inj h
    exact hin

/-! ### Every run -/

/-- What the timer heap is meant to keep. -/
structure Timely (s : Timer C) : Prop where
  inTime : InTime s
  heap : IsHeap Entry.priority s.entries
  front : ∀ next ∈ s.entries.head?, ∀ e ∈ s.entries, next.expiration ≤ e.expiration
  /-- A chain is triggered once its entry has expired, or because it was cancelled. -/
  due : ∀ f ∈ s.triggered, f.entry.expiration ≤ f.time ∨
    ∃ chain, f.cancelled = some chain ∧ f.entry.expired = some chain
  removedOnce : ((s.entries ++ s.removed).map Entry.number).Nodup
  triggeredOnce : (s.triggered.map fun f => f.entry.number).Nodup

theorem Inv.timely_iff (hs : Inv s) : Timely s ↔ InTime s := by
  refine ⟨Timely.inTime, fun h => ⟨h, hs.heap, fun next hnext => hs.heap.le_head hnext, ?_,
    hs.numbers, ?_⟩⟩
  · intro f hf
    cases hcancelled : f.cancelled with
    | none => exact .inl (hs.due f hf hcancelled)
    | some chain => exact .inr ⟨chain, rfl, hs.cancelled f hf chain hcancelled⟩
  · have hremoved : (s.removed.map Entry.number).Nodup := by
      have hnumbers := hs.numbers
      rw [map_append] at hnumbers
      exact hnumbers.of_append_right
    have hsub := (hs.removed.map Entry.number).nodup hremoved
    rwa [map_map] at hsub

variable [DecidableEq C]

/-- **The timer heap.**  Under every schedule of pushes, cancels, clock ticks and turns of the timer
thread, the thread always wakes up in time and the other guarantees hold, exactly if every entry
that is pushed during a timed wait expires no earlier than the wait ends: a notification does not
shorten the wait, whose predicate only looks at `running`. -/
theorem always_timely_iff (algorithms : HeapAlgorithms (Entry.priority (C := C)))
    (as : List (Action C)) :
    Interleaving.Always (step algorithms) Timely (init : Timer C) as ↔
      Interleaving.Along (step algorithms) Punctual (init : Timer C) as := by
  refine Interleaving.always_iff_along (I := Inv) ?_ ?_ inv_init ?_
  · intro s a t hs _ _ ht
    exact hs.step ht
  · intro s a t hs htimely ht
    rw [(hs.step ht).timely_iff]
    exact inTime_step_iff hs htimely.inTime ht
  · refine inv_init.timely_iff.mpr ?_
    intro w b hb
    cases hb

/-- The thread sleeps until time 10 although an entry was pushed that expires at time 1, and it
still sleeps at time 2. -/
theorem sleeps_past_expiration :
    ∃ s ∈ Interleaving.run (step (HeapAlgorithms.bySorting (Entry.priority (C := ℕ)))) init
      [.push 10 (some 0), .loop, .push 1 (some 1), .tick, .tick, .wake],
      s.thread = .waiting (some 10) false ∧ s.now = 2 ∧ s.triggered = [] ∧
        ∃ e ∈ s.entries, e.expiration = 1 := by
  decide +kernel

end TimerHeap
