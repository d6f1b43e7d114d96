-- Commands that may end in more than one way. A command relates the state
-- before it to the ways in which it can end: in a state from which what
-- follows goes on, or with an exit that leaves what is around it. A law about
-- a command is a law about each of its paths.
import Mathlib.Logic.Basic

namespace mudos.commands

variable {σ ε : Type*}

/-- How a path of a command ends. -/
inductive Outcome (σ ε : Type*)
  | ends (s : σ)
  | exits (e : ε)

abbrev Command (σ ε : Type*) := σ → Outcome σ ε → Prop

/-! ## The commands -/

def skip : Command σ ε := fun s o => o = .ends s

def leave (e : ε) : Command σ ε := fun _ o => o = .exits e

/-- An exit of the first command passes over the second one. -/
def andThen (c d : Command σ ε) : Command σ ε := fun s o =>
  (∃ t, c s (.ends t) ∧ d t o) ∨ ∃ e, c s (.exits e) ∧ o = .exits e

def either (c d : Command σ ε) : Command σ ε := fun s o => c s o ∨ d s o

def handle (c : Command σ ε) (h : ε → Command σ ε) : Command σ ε := fun s o =>
  (∃ t, c s (.ends t) ∧ o = .ends t) ∨ ∃ e, c s (.exits e) ∧ h e s o

/-- A command in a round of a loop: its exits leave the loop. -/
def inRound (c : Command σ ε) : Command σ (Outcome σ ε) := fun s o =>
  (∃ t, c s (.ends t) ∧ o = .ends t) ∨ ∃ e, c s (.exits e) ∧ o = .exits (.exits e)

/-- The rounds of a loop. A round that ends is followed by another one, and an exit of a
round is how the loop ends. -/
inductive Rounds (round : Command σ (Outcome σ ε)) : Command σ ε
  | again {s t : σ} {o : Outcome σ ε} :
      round s (.ends t) → Rounds round t o → Rounds round s o
  | last {s : σ} {o : Outcome σ ε} : round s (.exits o) → Rounds round s o

/-! ## Laws of all paths -/

/-- Each path of the command from the state ends in a way that meets `Q`. -/
def Ensures (c : Command σ ε) (s : σ) (Q : Outcome σ ε → Prop) : Prop := ∀ o, c s o → Q o

/-- A condition on the state in which a path ends, and one on its exit. -/
def OnEnd (P : σ → Prop) (E : ε → Prop) : Outcome σ ε → Prop
  | .ends s => P s
  | .exits e => E e

theorem OnEnd.mono {P P' : σ → Prop} {E E' : ε → Prop} (hP : ∀ s, P s → P' s)
    (hE : ∀ e, E e → E' e) {o : Outcome σ ε} (h : OnEnd P E o) : OnEnd P' E' o := by
  cases o with
  | ends s => exact hP s h
  | exits e => exact hE e h

theorem Ensures.mono {c : Command σ ε} {s : σ} {Q Q' : Outcome σ ε → Prop}
    (h : Ensures c s Q) (hQ : ∀ o, Q o → Q' o) : Ensures c s Q' :=
  fun o hc => hQ o (h o hc)

theorem ensures_skip {s : σ} {P : σ → Prop} {E : ε → Prop} (h : P s) :
    Ensures skip s (OnEnd P E) := by
  intro o ho
  subst ho
  exact h

theorem ensures_leave {s : σ} {e : ε} {P : σ → Prop} {E : ε → Prop} (h : E e) :
    Ensures (leave e) s (OnEnd P E) := by
  intro o ho
  subst ho
  exact h

theorem ensures_either {c d : Command σ ε} {s : σ} {Q : Outcome σ ε → Prop}
    (hc : Ensures c s Q) (hd : Ensures d s Q) : Ensures (either c d) s Q := by
  rintro o (h | h)
  · exact hc o h
  · exact hd o h

theorem ensures_andThen {c d : Command σ ε} {s : σ} {P M : σ → Prop} {E : ε → Prop}
    (hc : Ensures c s (OnEnd M E)) (hd : ∀ t, M t → Ensures d t (OnEnd P E)) :
    Ensures (andThen c d) s (OnEnd P E) := by
  rintro o (⟨t, ht, ho⟩ | ⟨e, he, rfl⟩)
  · exact hd t (hc _ ht) o ho
  · exact hc _ he

theorem ensures_handle {c : Command σ ε} {h : ε → Command σ ε} {s : σ} {P : σ → Prop}
    {E F : ε → Prop} (hc : Ensures c s (OnEnd P F))
    (hh : ∀ e, F e → Ensures (h e) s (OnEnd P E)) : Ensures (handle c h) s (OnEnd P E) := by
  rintro o (⟨t, ht, rfl⟩ | ⟨e, he, ho⟩)
  · exact hc _ ht
  · exact hh e (hc _ he) o ho

theorem ensures_inRound {c : Command σ ε} {s : σ} {P M : σ → Prop} {E : ε → Prop}
    (h : Ensures c s (OnEnd P E)) : Ensures (inRound c) s (OnEnd P (OnEnd M E)) := by
  rintro o (⟨t, ht, rfl⟩ | ⟨e, he, rfl⟩)
  · exact h _ ht
  · exact h _ he

theorem ensures_rounds {round : Command σ (Outcome σ ε)} {I : σ → Prop}
    {Q : Outcome σ ε → Prop} (hround : ∀ s, I s → Ensures round s (OnEnd I Q)) {s : σ}
    (hs : I s) : Ensures (Rounds round) s Q := by
  intro o ho
  induction ho with
  | again hr _ ih => exact ih (hround _ hs _ hr)
  | last hr => exact hround _ hs _ hr

/-! ## Laws of the commands -/

theorem andThen_assoc (c d e : Command σ ε) :
    andThen (andThen c d) e = andThen c (andThen d e) := by
  funext s o
  apply propext
  constructor
  · rintro (⟨t, ⟨u, hu, ht⟩ | ⟨x, _, hx⟩, ho⟩ | ⟨x, ⟨u, hu, hx⟩ | ⟨y, hy, hx⟩, rfl⟩)
    · exact Or.inl ⟨u, hu, Or.inl ⟨t, ht, ho⟩⟩
    · cases hx
    · exact Or.inl ⟨u, hu, Or.inr ⟨x, hx, rfl⟩⟩
    · exact Or.inr ⟨y, hy, hx⟩
  · rintro (⟨u, hu, ⟨t, ht, ho⟩ | ⟨x, hx, rfl⟩⟩ | ⟨x, hx, rfl⟩)
    · exact Or.inl ⟨t, Or.inl ⟨u, hu, ht⟩, ho⟩
    · exact Or.inr ⟨x, Or.inl ⟨u, hu, hx⟩, rfl⟩
    · exact Or.inr ⟨x, Or.inr ⟨x, hx, rfl⟩, rfl⟩

theorem skip_andThen (c : Command σ ε) : andThen skip c = c := by
  funext s o
  apply propext
  constructor
  · rintro (⟨t, ht, ho⟩ | ⟨e, he, _⟩)
    · cases ht
      exact ho
    · cases he
  · intro h
    exact Or.inl ⟨s, rfl, h⟩

end mudos.commands
