-- Paths as texts whose components stand between slashes, and where a path leads from a
-- directory: an empty component and a dot stay there, two dots go up, a name goes down.
import Mathlib.Data.List.Infix

open List

namespace mudos.paths

variable {α : Type*} {slash dot : α}

/-! ## Plain components -/

/-- No component goes up, and none but the last one may stay where it is. -/
structure Plain (dot : α) (comps : List (List α)) : Prop where
  no_parent : [dot, dot] ∉ comps
  stays_at_end : [dot] ∉ comps.dropLast

theorem Plain.append_iff {l m : List (List α)} (hm : m ≠ []) :
    Plain dot (l ++ m) ↔ [dot, dot] ∉ l ∧ [dot] ∉ l ∧ Plain dot m := by
  constructor
  · rintro ⟨h1, h2⟩
    rw [dropLast_append_of_ne_nil hm] at h2
    simp only [mem_append, not_or] at h1 h2
    exact ⟨h1.1, h2.1, h1.2, h2.2⟩
  · rintro ⟨h1, h2, h3, h4⟩
    refine ⟨by simp [h1, h3], ?_⟩
    rw [dropLast_append_of_ne_nil hm]
    simp [h2, h4]

theorem plain_of_head {comps : List (List α)} (h : ∀ c ∈ comps, c.head? ≠ some dot) :
    [dot, dot] ∉ comps ∧ [dot] ∉ comps := by
  constructor
  · intro hc
    exact h _ hc rfl
  · intro hc
    exact h _ hc rfl

/-! ## Paths -/

variable [DecidableEq α]

def components (slash : α) (path : List α) : List (List α) := path.splitOn slash

def Relative (slash : α) (path : List α) : Prop := path.head? ≠ some slash

/-- Where one component leads. A directory is the list of the names on the way to it. -/
def enter (dot : α) (dir : List (List α)) (comp : List α) : List (List α) :=
  if comp = [] ∨ comp = [dot] then dir
  else if comp = [dot, dot] then dir.dropLast
  else dir ++ [comp]

def enter_all (dot : α) (dir : List (List α)) (comps : List (List α)) : List (List α) :=
  comps.foldl (enter dot) dir

/-- The directories on the way of a path, from the directory where it begins. -/
def walk (slash dot : α) (dir : List (List α)) (path : List α) : List (List (List α)) :=
  (components slash path).inits.map
    (enter_all dot (if path.head? = some slash then [] else dir))

/-! ## Components -/

theorem components_ne_nil (slash : α) (path : List α) : components slash path ≠ [] :=
  splitOn_ne_nil slash path

@[simp] theorem components_nil : components slash [] = [[]] := splitOn_nil slash

theorem components_slash (path : List α) :
    components slash (slash :: path) = [] :: components slash path := by
  unfold components
  rw [splitOn_cons_eq_if_modifyHead]
  simp

theorem components_cons {c : α} (hc : c ≠ slash) (path : List α) :
    ∃ comp comps, components slash path = comp :: comps ∧
      components slash (c :: path) = (c :: comp) :: comps := by
  obtain ⟨comp, comps, h⟩ := exists_cons_of_ne_nil (components_ne_nil slash path)
  refine ⟨comp, comps, h, ?_⟩
  unfold components at h ⊢
  rw [splitOn_cons_eq_if_modifyHead, h]
  simp [hc]

theorem components_append (u v : List α) :
    components slash (u ++ slash :: v) = components slash u ++ components slash v := by
  unfold components
  exact splitOn_append_cons_self u v

theorem head_of_first {path comp : List α} {comps : List (List α)} {c : α} (hc : c ≠ slash)
    (h : components slash path = comp :: comps) : comp.head? = some c ↔ path.head? = some c := by
  cases path with
  | nil =>
    rw [components_nil] at h
    cases h
    simp
  | cons d path =>
    by_cases hd : d = slash
    · subst hd
      rw [components_slash] at h
      cases h
      simp [hc.symm]
    · obtain ⟨first, rest, _, h'⟩ := components_cons hd path
      rw [h'] at h
      cases h
      simp

theorem head_of_others {path comp : List α} {comps : List (List α)} (hds : dot ≠ slash)
    (hno : ¬ [slash, dot] <:+: path) (h : components slash path = comp :: comps) :
    ∀ c ∈ comps, c.head? ≠ some dot := by
  induction path generalizing comp comps with
  | nil =>
    rw [components_nil] at h
    cases h
    simp
  | cons d path ih =>
    have hrest : ¬ [slash, dot] <:+: path :=
      fun hin => hno (hin.trans (suffix_cons d path).isInfix)
    obtain ⟨first, others, hpath⟩ :=
      exists_cons_of_ne_nil (components_ne_nil slash path)
    by_cases hd : d = slash
    · subst hd
      rw [components_slash, hpath] at h
      cases h
      intro c hc
      rcases mem_cons.1 hc with rfl | hc
      · rw [Ne, head_of_first hds hpath]
        intro hhead
        obtain ⟨path', rfl⟩ := head?_eq_some_iff.1 hhead
        exact hno ⟨[], path', rfl⟩
      · exact ih hrest hpath c hc
    · obtain ⟨first', rest', hpath', h'⟩ := components_cons hd path
      rw [h'] at h
      cases h
      exact ih hrest hpath'

/-! ## Where a path leads -/

theorem prefix_enter {dir root : List (List α)} {comp : List α} (hcomp : comp ≠ [dot, dot])
    (h : root <+: dir) : root <+: enter dot dir comp := by
  unfold enter
  split_ifs
  · exact h
  · exact h.trans (prefix_append dir [comp])

theorem prefix_enter_all {dir root : List (List α)} {comps : List (List α)}
    (hcomps : [dot, dot] ∉ comps) (h : root <+: dir) : root <+: enter_all dot dir comps := by
  induction comps generalizing dir with
  | nil => exact h
  | cons comp comps ih =>
    simp only [mem_cons, not_or] at hcomps
    exact ih hcomps.2 (prefix_enter (fun e => hcomps.1 e.symm) h)

theorem walk_stays {path : List α} (hrel : Relative slash path)
    (hup : [dot, dot] ∉ components slash path) (dir : List (List α)) :
    ∀ d ∈ walk slash dot dir path, dir <+: d := by
  intro d hd
  obtain ⟨comps, hcomps, rfl⟩ := mem_map.1 hd
  rw [if_neg hrel]
  refine prefix_enter_all (fun h => hup ?_) (prefix_refl dir)
  exact ((mem_inits _ _).1 hcomps).subset h

end mudos.paths
