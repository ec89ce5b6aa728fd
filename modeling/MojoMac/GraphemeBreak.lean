/-
Grapheme cluster boundaries (`collections/string/_grapheme_break.mojo`).

`_is_grapheme_break` walks a text once and decides before every code point whether a
cluster ends there.  The rules of UAX #29 look arbitrarily far to the left; the code
keeps what it has to know of the text in the previous property and four flags.  Which
property a code point has is a parameter here.

* `Boundary` — the rules, with their contexts as decompositions of the text;
* `State.Reflects` — the flags say what the text ends in, after every code point;
* `isGraphemeBreak_eq` — the rules that the code really decides: in GB11 it lets ZWJ
  stand among the Extend of the context, in GB9c it lets every Extend and ZWJ stand
  in a conjunct, whatever their Indic property;
* `isGraphemeBreak_iff` — it agrees with UAX #29 exactly where this makes no difference.
-/
import Mathlib

open List

namespace GraphemeBreak

/-- Grapheme_Cluster_Break, with Extended_Pictographic as one of its values. -/
inductive Gbp
  | other
  | cr
  | lf
  | control
  | extend
  | zwj
  | regionalIndicator
  | prepend
  | spacingMark
  | l
  | v
  | t
  | lv
  | lvt
  | extendedPictographic
deriving DecidableEq

/-- Indic_Conjunct_Break. -/
inductive Incb
  | none
  | consonant
  | extend
  | linker
deriving DecidableEq

/-- The lookups `_gbp_lookup` and `_incb_lookup`. -/
structure Lookups (C : Type*) where
  gbp : C → Gbp
  incb : C → Incb

/-! ### The state machine -/

/-- `_GraphemeBreakState`. -/
structure State where
  prevGbp : Gbp
  riCountIsOdd : Bool
  inExtPictSeq : Bool
  seenIncbLinker : Bool
  inIncbConjunct : Bool
deriving DecidableEq

/-- The state at the start of a text. -/
def State.init : State :=
  { prevGbp := .control
    riCountIsOdd := false
    inExtPictSeq := false
    seenIncbLinker := false
    inIncbConjunct := false }

variable {C : Type*} (P : Lookups C)

/-- The part of `_is_grapheme_break` that updates the state. -/
def State.next (state : State) (cp : C) : State :=
  let gbp := P.gbp cp
  let incb := P.incb cp
  let riCountIsOdd := if gbp = .regionalIndicator then !state.riCountIsOdd else false
  let inExtPictSeq :=
    if gbp = .extendedPictographic then true
    else if gbp = .extend then state.inExtPictSeq
    else if gbp = .zwj then state.inExtPictSeq
    else false
  let (inIncbConjunct, seenIncbLinker) :=
    if incb = .consonant then (true, false)
    else if state.inIncbConjunct ∧ incb = .extend then (state.inIncbConjunct, state.seenIncbLinker)
    else if state.inIncbConjunct ∧ incb = .linker then (state.inIncbConjunct, true)
    else if state.inIncbConjunct ∧ gbp = .extend then (state.inIncbConjunct, state.seenIncbLinker)
    else if state.inIncbConjunct ∧ gbp = .zwj then (state.inIncbConjunct, state.seenIncbLinker)
    else (false, false)
  { prevGbp := gbp, riCountIsOdd, inExtPictSeq, seenIncbLinker, inIncbConjunct }

/-- `_is_grapheme_break`: whether there is a boundary before `cp`, and the state after it. -/
def isGraphemeBreak (state : State) (cp : C) : Bool × State :=
  let gbp := P.gbp cp
  let incb := P.incb cp
  let prev := state.prevGbp
  let isBreak :=
    if prev = .cr ∧ gbp = .lf then false
    else if prev = .cr ∨ prev = .lf ∨ prev = .control then true
    else if gbp = .cr ∨ gbp = .lf ∨ gbp = .control then true
    else if prev = .l ∧ (gbp = .l ∨ gbp = .v ∨ gbp = .lv ∨ gbp = .lvt) then false
    else if (prev = .lv ∨ prev = .v) ∧ (gbp = .v ∨ gbp = .t) then false
    else if (prev = .lvt ∨ prev = .t) ∧ gbp = .t then false
    else if gbp = .extend ∨ gbp = .zwj then false
    else if gbp = .spacingMark then false
    else if prev = .prepend then false
    else if state.inIncbConjunct ∧ state.seenIncbLinker ∧ incb = .consonant then false
    else if state.inExtPictSeq ∧ prev = .zwj ∧ gbp = .extendedPictographic then false
    else if gbp = .regionalIndicator ∧ prev = .regionalIndicator then !state.riCountIsOdd
    else true
  (isBreak, state.next P cp)

variable (text : List C)

/-- The state after a text. -/
def stateAfter : State :=
  text.foldl (fun state cp => (isGraphemeBreak P state cp).2) .init

theorem stateAfter_append (cp : C) :
    stateAfter P (text ++ [cp]) = (stateAfter P text).next P cp := by
  rw [stateAfter, foldl_append]
  rfl

/-! ### The rules -/

/-- The text ends in a code point with `start` and code points with `inner` after it. -/
def EndsIn (start inner : C → Prop) (text : List C) : Prop :=
  ∃ before first rest, text = before ++ first :: rest ∧ start first ∧ ∀ x ∈ rest, inner x

/-- The text ends as it does left of the sign in GB9c: a consonant, then code points with `inner`, a
linker among them. -/
def EndsConjunct (inner : C → Prop) (text : List C) : Prop :=
  ∃ before consonant rest, text = before ++ consonant :: rest ∧ P.incb consonant = .consonant ∧
    (∀ x ∈ rest, inner x) ∧ ∃ x ∈ rest, P.incb x = .linker

/-- The text ends as it does left of the sign in GB11, with `inner` between the pictograph and the
last ZWJ. -/
def EndsEmoji (inner : C → Prop) (text : List C) : Prop :=
  ∃ before joiner, text = before ++ [joiner] ∧ P.gbp joiner = .zwj ∧
    EndsIn (P.gbp · = .extendedPictographic) inner before

/-- The text ends in the regional indicators `run`, with none right before them. -/
def RegionalRun (text run : List C) : Prop :=
  ∃ before, text = before ++ run ∧ (∀ x ∈ run, P.gbp x = .regionalIndicator) ∧
    ∀ x, before.getLast? = some x → P.gbp x ≠ .regionalIndicator

/-- The text ends as it does left of the sign in GB12 and GB13. -/
def EndsOddRegional : Prop :=
  ∃ run, RegionalRun P text run ∧ Odd run.length

/-- CR, LF and Control. -/
def IsControl (g : Gbp) : Prop :=
  g = .cr ∨ g = .lf ∨ g = .control

/-- The rules GB6 to GB9b, which look at two neighbours only. -/
def JoinsPair (prev gbp : Gbp) : Prop :=
  prev = .l ∧ (gbp = .l ∨ gbp = .v ∨ gbp = .lv ∨ gbp = .lvt) ∨
  (prev = .lv ∨ prev = .v) ∧ (gbp = .v ∨ gbp = .t) ∨
  (prev = .lvt ∨ prev = .t) ∧ gbp = .t ∨
  (gbp = .extend ∨ gbp = .zwj) ∨
  gbp = .spacingMark ∨
  prev = .prepend

/-- The rules for a boundary after `text` and before `cp`: GB1, GB3, GB4, GB5, then all that join.
`conjunct` and `emoji` are the contexts that the text must end in for GB9c and GB11. -/
def BoundaryWith (conjunct emoji : List C → Prop) (text : List C) (cp : C) : Prop :=
  match text.getLast? with
  | none => True
  | some last =>
    ¬ (P.gbp last = .cr ∧ P.gbp cp = .lf) ∧
    (IsControl (P.gbp last) ∨ IsControl (P.gbp cp) ∨
      ¬ JoinsPair (P.gbp last) (P.gbp cp) ∧
      ¬ (conjunct text ∧ P.incb cp = .consonant) ∧
      ¬ (emoji text ∧ P.gbp cp = .extendedPictographic) ∧
      ¬ (EndsOddRegional P text ∧ P.gbp cp = .regionalIndicator))

/-- What may stand in an Indic conjunct: `[\p{InCB=Extend} \p{InCB=Linker}]`. -/
def InConjunct (x : C) : Prop :=
  P.incb x = .extend ∨ P.incb x = .linker

/-- UAX #29: there is a boundary after `text` and before `cp`. -/
def Boundary (cp : C) : Prop :=
  BoundaryWith P (EndsConjunct P (InConjunct P)) (EndsEmoji P (P.gbp · = .extend)) text cp

/-! ### What the state says of the text -/

/-- What the code lets stand in an Indic conjunct. -/
def KeepsConjunct (x : C) : Prop :=
  P.incb x ≠ .consonant ∧ (InConjunct P x ∨ P.gbp x = .extend ∨ P.gbp x = .zwj)

/-- What the code lets stand between a pictograph and a ZWJ. -/
def KeepsEmoji (x : C) : Prop :=
  P.gbp x = .extend ∨ P.gbp x = .zwj

/-- The state describes the end of the text. -/
structure State.Reflects (state : State) (text : List C) : Prop where
  prevGbp : state.prevGbp = (text.getLast?.map P.gbp).getD .control
  riCountIsOdd : state.riCountIsOdd = true ↔ EndsOddRegional P text
  inExtPictSeq : state.inExtPictSeq = true ↔
    EndsIn (P.gbp · = .extendedPictographic) (KeepsEmoji P) text
  inIncbConjunct : state.inIncbConjunct = true ↔
    EndsIn (P.incb · = .consonant) (KeepsConjunct P) text
  seenIncbLinker : state.seenIncbLinker = true ↔ EndsConjunct P (KeepsConjunct P) text

variable {P}

theorem not_endsIn_nil (start inner : C → Prop) : ¬ EndsIn start inner [] := by
  rintro ⟨before, first, rest, heq, -⟩
  simp at heq

variable {inner : C → Prop} {text : List C} {cp : C}

/-- A context that grows to the right: the last code point starts it or is its last one. -/
theorem exists_split_append {Q : C → List C → Prop} :
    (∃ before first rest, text ++ [cp] = before ++ first :: rest ∧ Q first rest) ↔
      Q cp [] ∨ ∃ before first rest, text = before ++ first :: rest ∧ Q first (rest ++ [cp]) := by
  constructor
  · rintro ⟨before, first, rest, heq, hQ⟩
    rcases eq_nil_or_concat rest with rfl | ⟨rest', last, rfl⟩
    · obtain ⟨-, hlast⟩ := append_inj' heq rfl
      cases hlast
      exact .inl hQ
    · rw [concat_eq_append] at heq hQ
      rw [← cons_append, ← append_assoc] at heq
      obtain ⟨htext, hlast⟩ := append_inj' heq rfl
      cases hlast
      exact .inr ⟨before, first, rest', htext, hQ⟩
  · rintro (hQ | ⟨before, first, rest, rfl, hQ⟩)
    · exact ⟨text, cp, [], rfl, hQ⟩
    · exact ⟨before, first, rest ++ [cp], by simp, hQ⟩

theorem endsIn_append_iff {start : C → Prop} :
    EndsIn start inner (text ++ [cp]) ↔ start cp ∨ inner cp ∧ EndsIn start inner text := by
  rw [EndsIn, exists_split_append (Q := fun first rest => start first ∧ ∀ x ∈ rest, inner x)]
  simp only [EndsIn, forall_mem_append, forall_mem_singleton, ← and_assoc,
    exists_and_right, and_comm (a := inner cp)]
  simp

theorem not_endsConjunct_nil (inner : C → Prop) : ¬ EndsConjunct P inner [] := by
  rintro ⟨before, first, rest, heq, -⟩
  simp at heq

theorem EndsConjunct.endsIn (h : EndsConjunct P inner text) :
    EndsIn (P.incb · = .consonant) inner text := by
  obtain ⟨before, first, rest, heq, hfirst, hrest, -⟩ := h
  exact ⟨before, first, rest, heq, hfirst, hrest⟩

/-- The linker of a conjunct is the last code point or stands before it. -/
theorem endsConjunct_append_iff :
    EndsConjunct P inner (text ++ [cp]) ↔ inner cp ∧ (EndsConjunct P inner text ∨
        P.incb cp = .linker ∧ EndsIn (P.incb · = .consonant) inner text) := by
  rw [EndsConjunct, exists_split_append (Q := fun first rest =>
    P.incb first = .consonant ∧ (∀ x ∈ rest, inner x) ∧ ∃ x ∈ rest, P.incb x = .linker)]
  have hexists : ∀ rest : List C, (∃ x ∈ rest ++ [cp], P.incb x = .linker) ↔
      (∃ x ∈ rest, P.incb x = .linker) ∨ P.incb cp = .linker := by
    simp [or_and_right, exists_or]
  simp only [forall_mem_append, forall_mem_singleton, hexists]
  constructor
  · rintro (⟨-, -, x, hx, -⟩ | ⟨before, first, rest, heq, hfirst, ⟨hrest, hcp⟩, hlinker⟩)
    · cases hx
    · refine ⟨hcp, hlinker.imp (fun h => ?_) fun h => ⟨h, before, first, rest, heq, hfirst, hrest⟩⟩
      exact ⟨before, first, rest, heq, hfirst, hrest, h⟩
  · rintro ⟨hcp, ⟨before, first, rest, heq, hfirst, hrest, hlinker⟩ |
      ⟨hlinker, before, first, rest, heq, hfirst, hrest⟩⟩
    · exact .inr ⟨before, first, rest, heq, hfirst, ⟨hrest, hcp⟩, .inl hlinker⟩
    · exact .inr ⟨before, first, rest, heq, hfirst, ⟨hrest, hcp⟩, .inr hlinker⟩

variable {run : List C}

theorem RegionalRun.append (h : RegionalRun P text run)
    (hcp : P.gbp cp = .regionalIndicator) : RegionalRun P (text ++ [cp]) (run ++ [cp]) := by
  obtain ⟨before, rfl, hrun, hbefore⟩ := h
  refine ⟨before, append_assoc _ _ _, forall_mem_append.mpr ⟨hrun, ?_⟩, hbefore⟩
  simpa using hcp

theorem regionalRun_nil (hcp : P.gbp cp ≠ .regionalIndicator) :
    RegionalRun P (text ++ [cp]) [] := by
  refine ⟨text ++ [cp], (append_nil _).symm, fun x hx => absurd hx not_mem_nil, ?_⟩
  intro x hx
  rw [getLast?_append_cons, getLast?_singleton] at hx
  cases hx
  exact hcp

theorem exists_regionalRun (text : List C) : ∃ run, RegionalRun P text run := by
  induction text using reverseRecOn with
  | nil => exact ⟨[], [], rfl, fun x hx => absurd hx not_mem_nil, fun x hx => by cases hx⟩
  | append_singleton text cp ih =>
    obtain ⟨run, hrun⟩ := ih
    by_cases hcp : P.gbp cp = .regionalIndicator
    · exact ⟨_, hrun.append hcp⟩
    · exact ⟨[], regionalRun_nil hcp⟩

/-- Of two runs at the end of a text none is longer: a longer one would reach into what stands
before the other. -/
theorem RegionalRun.length_le {run' : List C} (h : RegionalRun P text run)
    (h' : RegionalRun P text run') : run.length ≤ run'.length := by
  obtain ⟨before, rfl, hrun, -⟩ := h
  obtain ⟨before', heq, -, hbefore'⟩ := h'
  rcases append_eq_append_iff.mp heq with ⟨between, rfl, rfl⟩ | ⟨between, -, rfl⟩
  · rcases eq_nil_or_concat between with rfl | ⟨init, last, rfl⟩
    · simp
    · refine absurd (hrun last (by simp)) (hbefore' last ?_)
      simp
  · simp

theorem endsOddRegional_iff (h : RegionalRun P text run) :
    EndsOddRegional P text ↔ Odd run.length := by
  constructor
  · rintro ⟨run', h', hodd⟩
    rwa [le_antisymm (h.length_le h') (h'.length_le h)]
  · exact fun hodd => ⟨run, h, hodd⟩

theorem endsOddRegional_append_iff : EndsOddRegional P (text ++ [cp]) ↔
      P.gbp cp = .regionalIndicator ∧ ¬ EndsOddRegional P text := by
  obtain ⟨run, hrun⟩ := exists_regionalRun (P := P) text
  by_cases hcp : P.gbp cp = .regionalIndicator
  · rw [endsOddRegional_iff (hrun.append hcp), endsOddRegional_iff hrun, length_append,
      length_singleton, Nat.odd_add_one]
    simp [hcp]
  · rw [endsOddRegional_iff (regionalRun_nil hcp)]
    simp [hcp]

/-! ### The step and the run -/

theorem State.reflects_init : State.init.Reflects P ([] : List C) where
  prevGbp := rfl
  riCountIsOdd := by
    refine iff_of_false Bool.false_ne_true ?_
    rintro ⟨run, ⟨before, heq, -⟩, hodd⟩
    rw [(append_eq_nil_iff.mp heq.symm).2] at hodd
    simp at hodd
  inExtPictSeq := iff_of_false Bool.false_ne_true (not_endsIn_nil _ _)
  inIncbConjunct := iff_of_false Bool.false_ne_true (not_endsIn_nil _ _)
  seenIncbLinker := iff_of_false Bool.false_ne_true (not_endsConjunct_nil _)

/-- One code point more: every flag follows its context. -/
theorem State.Reflects.next {state : State} (h : state.Reflects P text) (cp : C) :
    (state.next P cp).Reflects P (text ++ [cp]) where
  prevGbp := by simp [State.next]
  riCountIsOdd := by
    rw [endsOddRegional_append_iff, ← h.riCountIsOdd]
    by_cases hcp : P.gbp cp = .regionalIndicator <;> simp [State.next, hcp]
  inExtPictSeq := by
    rw [endsIn_append_iff, ← h.inExtPictSeq]
    cases hgbp : P.gbp cp <;> simp [State.next, KeepsEmoji, hgbp]
  inIncbConjunct := by
    rw [endsIn_append_iff, ← h.inIncbConjunct]
    cases hincb : P.incb cp <;> cases hgbp : P.gbp cp <;> cases hin : state.inIncbConjunct <;>
      simp [State.next, KeepsConjunct, InConjunct, hincb, hgbp, hin]
  seenIncbLinker := by
    rw [endsConjunct_append_iff, ← h.seenIncbLinker, ← h.inIncbConjunct]
    have himp : state.seenIncbLinker = true → state.inIncbConjunct = true := by
      rw [h.seenIncbLinker, h.inIncbConjunct]
      exact EndsConjunct.endsIn
    cases hincb : P.incb cp <;> cases hgbp : P.gbp cp <;> cases hin : state.inIncbConjunct <;>
      simp_all [State.next, KeepsConjunct, InConjunct]

theorem stateAfter_reflects (text : List C) : (stateAfter P text).Reflects P text := by
  induction text using reverseRecOn with
  | nil => exact State.reflects_init
  | append_singleton text cp ih =>
    rw [stateAfter_append]
    exact ih.next cp

theorem endsEmoji_append_iff {last : C} :
    EndsEmoji P inner (text ++ [last]) ↔ P.gbp last = .zwj ∧
      EndsIn (P.gbp · = .extendedPictographic) inner text := by
  constructor
  · rintro ⟨before, joiner, heq, hjoiner, hends⟩
    obtain ⟨rfl, hlast⟩ := append_inj' heq rfl
    cases hlast
    exact ⟨hjoiner, hends⟩
  · rintro ⟨hlast, hends⟩
    exact ⟨text, last, rfl, hlast, hends⟩

/-- The rules that the code decides. -/
theorem isGraphemeBreak_eq (text : List C) (cp : C) :
    (isGraphemeBreak P (stateAfter P text) cp).1 = true ↔
      BoundaryWith P (EndsConjunct P (KeepsConjunct P)) (EndsEmoji P (KeepsEmoji P)) text cp := by
  have h := stateAfter_reflects (P := P) text
  rcases eq_nil_or_concat text with rfl | ⟨init, last, rfl⟩
  · exact iff_of_true rfl trivial
  rw [concat_eq_append] at h ⊢
  have hprev : (stateAfter P (init ++ [last])).prevGbp = P.gbp last := by simp [h.prevGbp]
  -- the flags of GB11 and of GB12, GB13 matter only next to the right previous property
  have hemoji : EndsEmoji P (KeepsEmoji P) (init ++ [last]) ↔
      (stateAfter P (init ++ [last])).inExtPictSeq = true ∧ P.gbp last = .zwj := by
    rw [endsEmoji_append_iff, h.inExtPictSeq, endsIn_append_iff]
    constructor
    · exact fun hends => ⟨.inr ⟨.inr hends.1, hends.2⟩, hends.1⟩
    · rintro ⟨hstart | ⟨-, hends⟩, hlast⟩
      · rw [hstart] at hlast
        cases hlast
      · exact ⟨hlast, hends⟩
  have hregional : EndsOddRegional P (init ++ [last]) ↔ P.gbp last = .regionalIndicator ∧
      (stateAfter P (init ++ [last])).riCountIsOdd = true := by
    rw [h.riCountIsOdd]
    exact ⟨fun hends => ⟨(endsOddRegional_append_iff.mp hends).1, hends⟩, fun hends => hends.2⟩
  have hconjunct : EndsConjunct P (KeepsConjunct P) (init ++ [last]) ↔
      (stateAfter P (init ++ [last])).inIncbConjunct = true ∧
        (stateAfter P (init ++ [last])).seenIncbLinker = true := by
    rw [h.inIncbConjunct, h.seenIncbLinker]
    exact ⟨fun hends => ⟨hends.endsIn, hends⟩, fun hends => hends.2⟩
  have hpair : ∀ (a b : Prop) (odd : Bool), (¬ (a ∧ b) ∨ odd = false) ↔ ¬ (b ∧ odd = true ∧ a) := by
    intro a b odd
    cases odd <;> simp [and_comm]
  simp only [BoundaryWith, IsControl, JoinsPair, not_or, getLast?_append_cons, getLast?_singleton,
    isGraphemeBreak, hprev, hemoji, hregional, hconjunct, Bool.if_false_left, Bool.if_true_left,
    Bool.if_true_right, Bool.and_eq_true, Bool.or_eq_true, Bool.not_eq_true', decide_eq_true_eq,
    decide_eq_false_iff_not, and_assoc, hpair]

/-! ### Where the code and the rules differ -/

variable (P) in
/-- UAX #29 has a boundary here, but the text ends in a context that only the code accepts: a
conjunct with an Extend or ZWJ that has no Indic property for it, or a pictograph and more than one
ZWJ. -/
def Overjoined (text : List C) (cp : C) : Prop :=
  Boundary P text cp ∧ ¬ IsControl (P.gbp cp) ∧
    (∃ last, text.getLast? = some last ∧ ¬ IsControl (P.gbp last)) ∧
    (EndsConjunct P (KeepsConjunct P) text ∧ P.incb cp = .consonant ∨
      EndsEmoji P (KeepsEmoji P) text ∧ P.gbp cp = .extendedPictographic)

theorem EndsIn.mono {start inner' : C → Prop} (himp : ∀ x, inner x → inner' x)
    (h : EndsIn start inner text) : EndsIn start inner' text := by
  obtain ⟨before, first, rest, heq, hfirst, hrest⟩ := h
  exact ⟨before, first, rest, heq, hfirst, fun x hx => himp x (hrest x hx)⟩

theorem endsConjunct_keeps (h : EndsConjunct P (InConjunct P) text) :
    EndsConjunct P (KeepsConjunct P) text := by
  obtain ⟨before, first, rest, heq, hfirst, hrest, hlinker⟩ := h
  refine ⟨before, first, rest, heq, hfirst, fun x hx => ⟨?_, .inl (hrest x hx)⟩, hlinker⟩
  rcases hrest x hx with hx | hx <;> rw [hx] <;> decide

theorem endsEmoji_keeps (h : EndsEmoji P (P.gbp · = .extend) text) :
    EndsEmoji P (KeepsEmoji P) text := by
  obtain ⟨before, joiner, heq, hjoiner, hends⟩ := h
  exact ⟨before, joiner, heq, hjoiner, hends.mono fun x hx => .inl hx⟩

/-- With wider contexts, a boundary that is lost is lost to GB9c or GB11. -/
theorem boundaryWith_iff_of_imp (conjunct emoji conjunct' emoji' : List C → Prop)
    (hconjunct : conjunct text → conjunct' text) (hemoji : emoji text → emoji' text) :
    BoundaryWith P conjunct' emoji' text cp ↔ BoundaryWith P conjunct emoji text cp ∧
      ¬ (¬ IsControl (P.gbp cp) ∧ (∃ last, text.getLast? = some last ∧ ¬ IsControl (P.gbp last)) ∧
        (conjunct' text ∧ P.incb cp = .consonant ∨
          emoji' text ∧ P.gbp cp = .extendedPictographic)) := by
  rw [BoundaryWith, BoundaryWith]
  cases text.getLast? with
  | none => simp
  | some last =>
    simp only [Option.some.injEq, exists_eq_left']
    by_cases hprev : IsControl (P.gbp last)
    · simp [hprev]
    by_cases hcp : IsControl (P.gbp cp)
    · simp [hcp]
    simp only [hprev, hcp, false_or, not_false_eq_true, true_and, not_or]
    tauto

/-- **Where `_is_grapheme_break` follows UAX #29.**  For every text and every assignment of
properties, it reports a boundary before a code point exactly when the rules require one, except at
the code points where it is `Overjoined`. -/
theorem isGraphemeBreak_iff (P : Lookups C) (text : List C) (cp : C) :
    ((isGraphemeBreak P (stateAfter P text) cp).1 = true ↔ Boundary P text cp) ↔
      ¬ Overjoined P text cp := by
  rw [isGraphemeBreak_eq, boundaryWith_iff_of_imp (EndsConjunct P (InConjunct P))
    (EndsEmoji P (P.gbp · = .extend)) _ _ endsConjunct_keeps endsEmoji_keeps]
  change ((Boundary P text cp ∧ _) ↔ Boundary P text cp) ↔ _
  rw [and_iff_left_iff_imp, Overjoined]
  exact not_and.symm

/-- Two ZWJ between pictographs: UAX #29 has a boundary before the second pictograph, the code
has none. -/
theorem isGraphemeBreak_misses_boundary :
    (isGraphemeBreak ⟨id, fun _ => .none⟩
      (stateAfter ⟨id, fun _ => .none⟩ [Gbp.extendedPictographic, .zwj, .zwj])
      .extendedPictographic).1 = false ∧
    Boundary ⟨id, fun _ => .none⟩ [Gbp.extendedPictographic, .zwj, .zwj] .extendedPictographic := by
  refine ⟨by decide, ?_⟩
  have hemoji : ¬ EndsEmoji ⟨id, fun _ => .none⟩ (· = Gbp.extend)
      ([Gbp.extendedPictographic, .zwj] ++ [.zwj]) := by
    rw [endsEmoji_append_iff, show [Gbp.extendedPictographic, .zwj] =
      [Gbp.extendedPictographic] ++ [.zwj] from rfl, endsIn_append_iff]
    simp
  refine ⟨by decide, .inr (.inr ⟨by simp [JoinsPair], by simp, ?_, by simp⟩)⟩
  exact fun h => hemoji h.1

end GraphemeBreak
