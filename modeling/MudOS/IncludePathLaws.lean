-- Which names lead `merge` to a path in the mudlib that fits the buffer: a walk over
-- the components of the name says so.
import Mathlib.Tactic.SplitIfs
import MudOS.IncludePaths

open List Option

namespace mudos.include_paths

variable {c : List UInt8} {p q : List (List UInt8)} {turns : Nat}
variable {s : List UInt8}

/-! ## Components -/

def dot_dot : List UInt8 := [dot, dot]

def components (s : List UInt8) : List (List UInt8) := s.splitOn slash

def text (path : List (List UInt8)) : List UInt8 := [slash].intercalate path

theorem components_ne_nil (s : List UInt8) : components s ≠ [] := splitOn_ne_nil slash s

theorem text_components (s : List UInt8) : text (components s) = s :=
  intercalate_splitOn slash

theorem components_text {path : List (List UInt8)} (h : ∀ c ∈ path, slash ∉ c) (hne : path ≠ []) :
    components (text path) = path :=
  splitOn_intercalate slash h hne

theorem components_append (h : slash ∉ c) (s : List UInt8) :
    components (c ++ slash :: s) = c :: components s :=
  splitOn_append_cons_self_of_not_mem h s

theorem components_of_not_mem (h : slash ∉ c) : components c = [c] :=
  splitOn_eq_singleton h

theorem first_component (s : List UInt8) :
    slash ∉ s ∨ ∃ c rest, slash ∉ c ∧ s = c ++ slash :: rest := by
  by_cases h : slash ∈ s
  · obtain ⟨c, rest, hs, hc⟩ := eq_append_cons_of_mem h
    exact Or.inr ⟨c, rest, hc, hs⟩
  · exact Or.inl h

theorem not_mem_components (s : List UInt8) : ∀ c ∈ components s, slash ∉ c := by
  induction hn : s.length using Nat.strongRecOn generalizing s with
  | ind n ih =>
    rcases first_component s with h | ⟨c, rest, hc, rfl⟩
    · simp only [components_of_not_mem h, mem_singleton, forall_eq]
      exact h
    · rw [components_append hc]
      intro d hd
      rcases mem_cons.mp hd with rfl | hd
      · exact hc
      · exact ih _ (by simp only [← hn, length_append, length_cons]; omega) rest rfl d hd

theorem text_singleton (c : List UInt8) : text [c] = c := intercalate_singleton

theorem text_append (hp : p ≠ []) (hq : q ≠ []) : text (p ++ q) = text p ++ slash :: text q := by
  induction p with
  | nil => exact absurd rfl hp
  | cons c p ih =>
    rcases p with _ | ⟨d, p⟩
    · simp [text, intercalate_cons_of_ne_nil hq]
    · have hih := ih (cons_ne_nil d p)
      simp only [text, cons_append, intercalate_cons_cons] at hih ⊢
      simp [hih]

def skip : List (List UInt8) → List (List UInt8)
  | [] :: next :: cs => skip (next :: cs)
  | cs => cs

theorem components_dropWhile (s : List UInt8) :
    components (s.dropWhile (· = slash)) = skip (components s) := by
  induction s with
  | nil => rfl
  | cons x s ih =>
    by_cases hx : x = slash
    · subst hx
      have hcons := components_append (c := []) not_mem_nil s
      rw [nil_append] at hcons
      obtain ⟨next, cs, hs⟩ := exists_cons_of_ne_nil (components_ne_nil s)
      rw [hcons, hs, skip, ← hs, ← ih]
      simp
    · have hkeep : (x :: s).dropWhile (· = slash) = x :: s := by simp [hx]
      rw [hkeep]
      rcases first_component (x :: s) with h | ⟨c, rest, hc, hs⟩
      · rw [components_of_not_mem h]
        rfl
      · rcases c with _ | ⟨y, c⟩
        · exact absurd (List.cons.inj hs).1 hx
        · rw [hs, components_append hc]
          rfl

/-! ## Paths -/

structure Inside (path : List UInt8) : Prop where
  relative : path.head? ≠ some slash
  no_dots : dot_dot ∉ components path

structure Directory (path : List (List UInt8)) : Prop where
  single : ∀ c ∈ path, slash ∉ c
  relative : (text path).head? ≠ some slash
  no_dots : dot_dot ∉ path

def Fits (path : List (List UInt8)) : Prop := (text path).length < buf_size

theorem dot_dot_of_not_mem_nil : dot_dot ∉ components [] := by decide

theorem Directory.inside {path : List (List UInt8)} (h : Directory path) : Inside (text path) := by
  refine ⟨h.relative, ?_⟩
  by_cases hpath : path = []
  · subst hpath
    exact dot_dot_of_not_mem_nil
  · rw [components_text h.single hpath]
    exact h.no_dots

theorem Inside.directory {path : List UInt8} (h : Inside path) : Directory (components path) :=
  ⟨not_mem_components path, by rw [text_components]; exact h.relative, h.no_dots⟩

theorem text_eq_nil {path : List (List UInt8)} (h : text path = []) : path = [] ∨ path = [[]] := by
  rcases path with _ | ⟨c, _ | ⟨d, path⟩⟩
  · exact Or.inl rfl
  · rw [text_singleton] at h
    exact Or.inr (by rw [h])
  · rw [show c :: d :: path = [c] ++ d :: path from rfl, text_append (by simp) (by simp)] at h
    simp at h

theorem head_of_append (hp : text p ≠ []) : (text (p ++ q)).head? = (text p).head? := by
  have hne : p ≠ [] := by
    rintro rfl
    exact hp rfl
  by_cases hq : q = []
  · rw [hq, append_nil]
  · obtain ⟨x, s, hs⟩ := exists_cons_of_ne_nil hp
    rw [text_append hne hq, hs]
    rfl

theorem Directory.append (h : Directory p) (hp : p ≠ [[]]) (hq : Directory q) :
    Directory (p ++ q) := by
  refine ⟨fun c hc => ?_, ?_, ?_⟩
  · rcases mem_append.mp hc with hc | hc
    · exact h.single c hc
    · exact hq.single c hc
  · by_cases hnil : text p = []
    · rcases text_eq_nil hnil with rfl | rfl
      · exact hq.relative
      · exact absurd rfl hp
    · rw [head_of_append hnil]
      exact h.relative
  · rw [mem_append, not_or]
    exact ⟨h.no_dots, hq.no_dots⟩

theorem Directory.dropLast {path : List (List UInt8)} (h : Directory path) :
    Directory path.dropLast ∧ path.dropLast ≠ [[]] := by
  rcases eq_nil_or_concat path with rfl | ⟨init, last, rfl⟩
  · exact ⟨h, by simp⟩
  · rw [concat_eq_append, dropLast_concat]
    rw [concat_eq_append] at h
    by_cases hinit : init = []
    · subst hinit
      exact ⟨⟨by simp, by simp [text], by simp⟩, by simp⟩
    · have hrelative := h.relative
      rw [text_append hinit (by simp)] at hrelative
      refine ⟨⟨fun c hc => h.single c (mem_append_left _ hc), fun hhead => ?_,
        fun hdots => h.no_dots (mem_append_left _ hdots)⟩, ?_⟩
      · apply hrelative
        rw [head?_append, hhead]
        rfl
      · rintro rfl
        exact hrelative rfl

/-! ## `merge_loop`, by components -/

theorem strrchr_of_not_mem (h : slash ∉ s) : strrchr slash s = none := by
  induction s with
  | nil => rfl
  | cons x s ih =>
    rw [mem_cons, not_or] at h
    rw [strrchr, ih h.2]
    simp [if_neg (Ne.symm h.1)]

theorem strrchr_append (h : slash ∉ s) (dest : List UInt8) :
    strrchr slash (dest ++ slash :: s) = some dest.length := by
  induction dest with
  | nil => simp [strrchr, strrchr_of_not_mem h]
  | cons x dest ih => rw [cons_append, strrchr, ih]; rfl

theorem strchr_of_not_mem (h : slash ∉ s) : strchr slash s = none := by
  induction s with
  | nil => rfl
  | cons x s ih =>
    rw [mem_cons, not_or] at h
    rw [strchr, if_neg (Ne.symm h.1), ih h.2]
    rfl

theorem strchr_append (h : slash ∉ c) (s : List UInt8) :
    strchr slash (c ++ slash :: s) = some c.length := by
  induction c with
  | nil => simp [strchr]
  | cons x c ih =>
    rw [mem_cons, not_or] at h
    rw [cons_append, strchr, if_neg (Ne.symm h.1), ih h.2]
    rfl

theorem strip_text {path : List (List UInt8)} (h : ∀ c ∈ path, slash ∉ c) :
    strip (text path) = text path.dropLast := by
  rcases eq_nil_or_concat path with rfl | ⟨init, last, rfl⟩
  · rfl
  · rw [concat_eq_append, dropLast_concat]
    have hlast : slash ∉ last := h last (by simp)
    by_cases hinit : init = []
    · subst hinit
      rw [nil_append, text_singleton, strip, strrchr_of_not_mem hlast]
      rfl
    · rw [text_append hinit (by simp), text_singleton, strip, strrchr_append hlast]
      exact take_left

def add (dest src : List UInt8) : Option (List UInt8) :=
  (separate dest).bind (strcat · src)

theorem add_text (hp : p ≠ [[]]) (hq : q ≠ []) :
    (Fits (p ++ q) → add (text p) (text q) = some (text (p ++ q))) ∧
      (¬ Fits (p ++ q) → add (text p) (text q) = none) := by
  by_cases hnil : p = []
  · subst hnil
    simp only [nil_append, Fits, add, separate, show text ([] : List (List UInt8)) = [] from rfl,
      if_true, bind_some, strcat]
    exact ⟨fun h => if_pos h, fun h => if_neg h⟩
  · have htext : text p ≠ [] := fun h => (text_eq_nil h).elim hnil hp
    have hlength : (text (p ++ q)).length = (text p).length + 1 + (text q).length := by
      rw [text_append hnil hq, length_append, length_cons]
      omega
    simp only [Fits, add, separate, if_neg htext, strcat, length_append, length_singleton,
      hlength]
    rw [text_append hnil hq]
    constructor
    · intro hfits
      rw [if_pos (by omega), bind_some, if_pos (by simpa using hfits)]
      simp
    · intro hfits
      split_ifs
      · rw [bind_some, length_append, length_singleton, if_neg hfits]
      · rw [bind_none]

theorem loop_nil (turns : Nat) (dest : List UInt8) : merge_loop turns dest [] = some dest := by
  cases turns <;> rfl

theorem loop_last (dest : List UInt8) {last : List UInt8} (h : slash ∉ last) (hne : last ≠ []) :
    merge_loop (turns + 1) dest last = add dest last := by
  have hup : last.take 3 ≠ [dot, dot, slash] := by
    intro htake
    exact h (mem_of_mem_take (i := 3) (by rw [htake]; simp))
  have hhere : last.take 2 ≠ [dot, slash] := by
    intro htake
    exact h (mem_of_mem_take (i := 2) (by rw [htake]; simp))
  rw [merge_loop, if_neg hne, if_neg hup, if_neg hhere, append_first]
  simp only [strchr_of_not_mem h, add]
  rcases separate dest with _ | dest'
  · rfl
  · simp only [bind_eq_bind, bind_some]
    rcases strcat dest' last with _ | out <;> rfl

theorem loop_component (dest : List UInt8) (h : slash ∉ c) (hnil : c ≠ []) (hdot : c ≠ [dot])
    (hdots : c ≠ dot_dot) (hlength : c.length < 2147483648) (rest : List UInt8) :
    merge_loop (turns + 1) dest (c ++ slash :: rest) =
      (add dest c).bind (merge_loop turns · (rest.dropWhile (· = slash))) := by
  obtain ⟨x, c, rfl⟩ := exists_cons_of_ne_nil hnil
  rw [mem_cons, not_or] at h
  have hup : (x :: c ++ slash :: rest).take 3 ≠ [dot, dot, slash] := by
    rcases c with _ | ⟨y, _ | ⟨z, c⟩⟩
    · simp [slash, dot]
    · intro htake
      simp only [cons_append, nil_append, take_succ_cons, take_zero,
        List.cons.injEq, and_true] at htake
      exact hdots (by rw [htake.1, htake.2]; rfl)
    · intro htake
      simp only [cons_append, take_succ_cons, take_zero, List.cons.injEq,
        and_true] at htake
      exact h.2 (by rw [htake.2.2]; simp)
  have hhere : (x :: c ++ slash :: rest).take 2 ≠ [dot, slash] := by
    rcases c with _ | ⟨y, c⟩
    · intro htake
      simp only [cons_append, nil_append, take_succ_cons, take_zero,
        List.cons.injEq, and_true] at htake
      exact hdot (by rw [htake])
    · intro htake
      simp only [cons_append, take_succ_cons, take_zero, List.cons.injEq,
        and_true] at htake
      exact h.2 (by rw [htake.2]; simp)
  have hstart : (x :: c ++ slash :: rest).dropWhile (· = slash) = x :: c ++ slash :: rest := by
    simp [Ne.symm h.1]
  have hq : strchr slash (x :: c ++ slash :: rest) = some (x :: c).length :=
    strchr_append (by rw [mem_cons, not_or]; exact h) rest
  have hsize : size_t ((x :: c).length - ((x :: c ++ slash :: rest).length -
      (x :: c ++ slash :: rest).length : Int)) = (x :: c).length := by
    rw [size_t]
    omega
  rw [merge_loop, if_neg (by simp), if_neg hup, if_neg hhere, append_first]
  simp only [hq, hstart, strncat, add, hsize, take_left]
  have hdrop : (x :: c ++ slash :: rest).drop ((x :: c).length + 1) = rest := by simp
  rw [hdrop]
  rcases separate dest with _ | dest'
  · rfl
  · simp only [bind_eq_bind, bind_some]
    rcases strcat dest' (x :: c) with _ | out <;> rfl

/-- A slash where a component was expected: `q` is before the place where the rest starts, and the
whole rest is appended. -/
theorem loop_doubled (dest : List UInt8) {rest : List UInt8} (h : rest.length < 2147483648) :
    merge_loop (turns + 1) dest (slash :: rest) =
      (add dest (rest.dropWhile (· = slash))).bind
        (merge_loop turns · (rest.dropWhile (· = slash))) := by
  have hstart : (slash :: rest).dropWhile (· = slash) = rest.dropWhile (· = slash) := by simp
  have hle : (rest.dropWhile (· = slash)).length ≤ rest.length :=
    (dropWhile_sublist _).length_le
  have htake : (rest.dropWhile (· = slash)).take (size_t ((0 : Nat) - ((slash :: rest).length -
      (rest.dropWhile (· = slash)).length : Int))) = rest.dropWhile (· = slash) := by
    apply take_of_length_le
    rw [size_t, length_cons]
    omega
  rw [merge_loop, if_neg (by simp), if_neg (by simp [slash, dot]), if_neg (by simp [slash, dot]),
    append_first]
  simp only [strchr, if_true, hstart, strncat, add, htake]
  rcases separate dest with _ | dest'
  · rfl
  · simp only [bind_eq_bind, bind_some]
    rcases strcat dest' (rest.dropWhile (· = slash)) with _ | out <;> rfl

theorem loop_here (turns : Nat) (dest rest : List UInt8) :
    merge_loop (turns + 1) dest (dot :: slash :: rest) = merge_loop turns dest rest := by
  rw [merge_loop, if_neg (by simp), if_neg (by simp [slash, dot]), if_pos (by simp)]
  rfl

theorem loop_up (turns : Nat) {dest : List UInt8} (h : dest ≠ []) (rest : List UInt8) :
    merge_loop (turns + 1) dest (dot_dot ++ slash :: rest) =
      merge_loop turns (strip dest) rest := by
  rw [merge_loop, if_neg (by simp), if_pos (by simp [dot_dot]), if_neg h]
  rfl

theorem loop_root (turns : Nat) (rest : List UInt8) :
    merge_loop (turns + 1) [] (dot_dot ++ slash :: rest) = some [] := by
  rw [merge_loop, if_neg (by simp), if_pos (by simp [dot_dot]), if_pos rfl]

/-! ## The walk over a name -/

/-- Walking the components of a name from a directory stays in the mudlib and in the buffer. An
empty component is skipped, but after `.` or `..` it has the whole rest appended; `..` ends the walk
where there is nothing to leave. -/
def Stays : List (List UInt8) → Bool → List (List UInt8) → Prop
  | _, _, [] => True
  | path, _, [last] => last ≠ dot_dot ∧ (last = [] ∨ Fits (path ++ [last]))
  | path, dots, c :: next :: cs =>
    if c = dot_dot then path = [] ∨ Stays path.dropLast true (next :: cs)
    else if c = [dot] then Stays path true (next :: cs)
    else if c ≠ [] then Fits (path ++ [c]) ∧ Stays (path ++ [c]) false (next :: cs)
    else if dots then
      dot_dot ∉ next :: cs ∧ Fits (path ++ skip (next :: cs)) ∧
        Stays (path ++ skip (next :: cs)) false (next :: cs)
    else Stays path false (next :: cs)

theorem stays_cons (path : List (List UInt8)) (dots : Bool) (c rest : List UInt8) :
    Stays path dots (c :: components rest) ↔
      if c = dot_dot then path = [] ∨ Stays path.dropLast true (components rest)
      else if c = [dot] then Stays path true (components rest)
      else if c ≠ [] then Fits (path ++ [c]) ∧ Stays (path ++ [c]) false (components rest)
      else if dots then
        dot_dot ∉ components rest ∧ Fits (path ++ skip (components rest)) ∧
          Stays (path ++ skip (components rest)) false (components rest)
      else Stays path false (components rest) := by
  obtain ⟨next, cs, hrest⟩ := exists_cons_of_ne_nil (components_ne_nil rest)
  rw [hrest, Stays]

theorem components_slash (rest : List UInt8) :
    components (slash :: rest) = [] :: components rest :=
  components_append (c := []) not_mem_nil rest

theorem stays_dropWhile (path : List (List UInt8)) (s : List UInt8) :
    Stays path false (components (s.dropWhile (· = slash))) ↔ Stays path false (components s) := by
  induction s with
  | nil => exact Iff.rfl
  | cons x s ih =>
    by_cases hx : x = slash
    · subst hx
      rw [components_slash, stays_cons, if_neg (by decide), if_neg (by decide), if_neg (by simp),
        if_neg (by simp), ← ih, dropWhile_cons_of_pos (by simp)]
    · rw [dropWhile_cons_of_neg (by simpa using hx)]

def leaves (name : List UInt8) : Nat := (components name).dropLast.count dot_dot

theorem leaves_append (h : slash ∉ c) (rest : List UInt8) :
    leaves (c ++ slash :: rest) = leaves rest + if c = dot_dot then 1 else 0 := by
  rw [leaves, components_append h, dropLast_cons_of_ne_nil (components_ne_nil rest),
    count_cons]
  simp [leaves]

theorem leaves_dropWhile (s : List UInt8) : leaves (s.dropWhile (· = slash)) = leaves s := by
  induction s with
  | nil => rfl
  | cons x s ih =>
    by_cases hx : x = slash
    · subst hx
      have hcons := leaves_append (c := []) not_mem_nil s
      rw [nil_append] at hcons
      rw [hcons, ← ih]
      simp [dot_dot]
    · rw [dropWhile_cons_of_neg (by simpa using hx)]

theorem mem_skip {cs : List (List UInt8)} (hc : c ≠ []) : c ∈ skip cs ↔ c ∈ cs := by
  fun_induction skip cs with
  | case1 next cs ih =>
    rw [ih]
    exact ⟨mem_cons_of_mem [], fun h => (mem_cons.mp h).resolve_left hc⟩
  | case2 => rfl

/-! ## After a doubled slash -/

theorem add_some (hp : p ≠ [[]]) (hq : q ≠ []) {out : List UInt8}
    (h : add (text p) (text q) = some out) : out = text (p ++ q) := by
  by_cases hfits : Fits (p ++ q)
  · rw [(add_text hp hq).1 hfits] at h
    exact (some.inj h).symm
  · simp [(add_text hp hq).2 hfits] at h

/-- Components with a `..` that what is left of a name does not leave: there are as many after
it. -/
structure Stuck (path : List (List UInt8)) (name : List UInt8) : Prop where
  single : ∀ c ∈ path, slash ∉ c
  stuck : ∃ init rest, path = init ++ dot_dot :: rest ∧ leaves name ≤ rest.length

namespace Stuck

variable {path : List (List UInt8)} {name : List UInt8}

theorem mem (h : Stuck path name) : dot_dot ∈ path := by
  obtain ⟨init, rest, rfl, -⟩ := h.stuck
  simp

theorem ne_root (h : Stuck path name) : path ≠ [[]] := by
  intro hpath
  have hmem := h.mem
  rw [hpath] at hmem
  revert hmem
  decide

theorem text_ne_nil (h : Stuck path name) : text path ≠ [] := by
  intro htext
  rcases text_eq_nil htext with hpath | hpath
  · have hmem := h.mem
    rw [hpath] at hmem
    exact not_mem_nil hmem
  · exact h.ne_root hpath

theorem append (h : Stuck path name) {q : List (List UInt8)} (hq : ∀ c ∈ q, slash ∉ c)
    {name' : List UInt8} (hname : leaves name' = leaves name) : Stuck (path ++ q) name' := by
  obtain ⟨init, rest, hpath, hle⟩ := h.stuck
  refine ⟨fun c hc => (mem_append.mp hc).elim (h.single c) (hq c), init, rest ++ q, ?_, ?_⟩
  · rw [hpath, append_assoc, cons_append]
  · rw [hname, length_append]
    omega

theorem dropLast (h : Stuck path name) {name' : List UInt8}
    (hname : leaves name = leaves name' + 1) : Stuck path.dropLast name' := by
  obtain ⟨init, rest, hpath, hle⟩ := h.stuck
  rcases eq_nil_or_concat rest with rfl | ⟨rest, last, rfl⟩
  · simp only [length_nil] at hle
    omega
  · refine ⟨fun c hc => h.single c (dropLast_subset _ hc), init, rest, ?_, ?_⟩
    · rw [hpath, concat_eq_append, ← cons_append, ← append_assoc, dropLast_concat]
    · rw [concat_eq_append, length_append, length_singleton] at hle
      omega

theorem not_inside (h : Stuck path name) : ¬ Inside (text path) := by
  intro hinside
  apply hinside.no_dots
  rw [components_text h.single (ne_nil_of_mem h.mem)]
  exact h.mem

theorem loop_not_inside (h : Stuck path name) (hturns : name.length ≤ turns)
    (hlength : name.length < 2147483648) {out : List UInt8}
    (hout : merge_loop turns (text path) name = some out) : ¬ Inside out := by
  induction turns generalizing path name with
  | zero =>
    obtain rfl : name = [] := eq_nil_of_length_eq_zero (by omega)
    cases hout
    exact h.not_inside
  | succ turns ih =>
    by_cases hnil : name = []
    · subst hnil
      rw [loop_nil] at hout
      cases hout
      exact h.not_inside
    rcases first_component name with hlast | ⟨c, rest, hc, rfl⟩
    · rw [loop_last _ hlast hnil, ← text_singleton name] at hout
      rw [add_some h.ne_root (by simp) hout]
      exact (h.append (q := [name]) (by simpa using hlast) (rfl : leaves name = leaves name)).not_inside
    have hleaves := leaves_append hc rest
    rw [length_append, length_cons] at hturns hlength
    have hdrop : (rest.dropWhile (· = slash)).length ≤ rest.length :=
      (dropWhile_sublist _).length_le
    by_cases hdots : c = dot_dot
    · rw [if_pos hdots] at hleaves
      rw [hdots, loop_up turns h.text_ne_nil, strip_text h.single] at hout
      exact ih (h.dropLast hleaves) (by omega) (by omega) hout
    rw [if_neg hdots, Nat.add_zero] at hleaves
    by_cases hdot : c = [dot]
    · rw [hdot, cons_append, nil_append, loop_here] at hout
      have hrest : Stuck (path ++ []) rest := h.append (by simp) hleaves.symm
      rw [append_nil] at hrest
      exact ih hrest (by omega) (by omega) hout
    by_cases hempty : c = []
    · subst hempty
      rw [nil_append, loop_doubled _ (by omega),
        ← text_components (rest.dropWhile (· = slash)), bind_eq_some_iff] at hout
      obtain ⟨dest, hadd, hout⟩ := hout
      rw [add_some h.ne_root (components_ne_nil _) hadd, text_components] at hout
      refine ih (h.append (not_mem_components _) ?_) (by omega) (by omega) hout
      rw [leaves_dropWhile, hleaves]
    · rw [loop_component _ hc hempty hdot hdots (by omega), bind_eq_some_iff,
        ← text_singleton c] at hout
      obtain ⟨dest, hadd, hout⟩ := hout
      rw [add_some h.ne_root (by simp) hadd] at hout
      refine ih (h.append (by simpa using hc) ?_) (by omega) (by omega) hout
      rw [leaves_dropWhile, hleaves]

end Stuck

theorem stuck_of_mem {path : List (List UInt8)} (hpath : ∀ c ∈ path, slash ∉ c)
    (h : dot_dot ∈ components name) : Stuck (path ++ components name) name := by
  obtain ⟨init, rest, hname, hinit⟩ := eq_append_cons_of_mem h
  refine ⟨fun c hc => (mem_append.mp hc).elim (hpath c) (not_mem_components name c),
    path ++ init, rest, by rw [hname, append_assoc], ?_⟩
  rw [leaves, hname, dropLast_append_of_ne_nil (by simp), count_append,
    count_eq_zero_of_not_mem hinit, Nat.zero_add]
  refine Nat.le_trans count_le_length ?_
  simp

/-! ## The law of the loop -/

theorem directory_of_component (h : slash ∉ c) (hdots : c ≠ dot_dot) : Directory [c] := by
  refine ⟨by simpa using h, ?_, by simpa using Ne.symm hdots⟩
  rw [text_singleton]
  intro hhead
  exact h (mem_of_head? hhead)

theorem head_dropWhile (s : List UInt8) : (s.dropWhile (· = slash)).head? ≠ some slash := by
  induction s with
  | nil => simp
  | cons x s ih =>
    by_cases hx : x = slash
    · rwa [dropWhile_cons_of_pos (by simpa using hx)]
    · rw [dropWhile_cons_of_neg (by simpa using hx)]
      simpa using hx

theorem loop_after_add (turns : Nat) (hp : p ≠ [[]]) (hq : q ≠ []) (name : List UInt8) :
    (∃ out, (add (text p) (text q)).bind (merge_loop turns · name) = some out ∧ Inside out) ↔
      Fits (p ++ q) ∧ ∃ out, merge_loop turns (text (p ++ q)) name = some out ∧ Inside out := by
  by_cases hfits : Fits (p ++ q)
  · rw [(add_text hp hq).1 hfits, bind_some, and_iff_right hfits]
  · rw [(add_text hp hq).2 hfits]
    simp [hfits]

theorem append_ne_root (hq : q ≠ []) (htext : text q ≠ []) : p ++ q ≠ [[]] := by
  intro h
  rcases append_eq_singleton_iff.mp h with ⟨-, rfl⟩ | ⟨-, rfl⟩
  · exact htext rfl
  · exact hq rfl

theorem loop_end_iff (turns : Nat) {path : List (List UInt8)} (dots : Bool)
    (hpath : Directory path) :
    (∃ out, merge_loop turns (text path) [] = some out ∧ Inside out) ↔
      Stays path dots (components []) :=
  iff_of_true ⟨text path, loop_nil turns _, hpath.inside⟩ ⟨by decide, Or.inl rfl⟩

theorem loop_last_iff (turns : Nat) {path : List (List UInt8)} (dots : Bool)
    (hpath : Directory path) (hroot : path ≠ [[]]) {last : List UInt8} (h : slash ∉ last)
    (hne : last ≠ []) :
    (∃ out, merge_loop (turns + 1) (text path) last = some out ∧ Inside out) ↔
      Stays path dots (components last) := by
  have hadd : add (text path) last =
      (add (text path) (text [last])).bind (merge_loop turns · []) := by
    rw [text_singleton]
    rcases add (text path) last with _ | out
    · rfl
    · rw [bind_some, loop_nil]
  rw [loop_last _ h hne, hadd, loop_after_add turns hroot (by simp), components_of_not_mem h, Stays,
    or_iff_right hne, and_comm]
  simp only [loop_nil, some.injEq, exists_eq_left']
  refine and_congr_left fun _ => ⟨fun hinside hdots => ?_, fun hdots => ?_⟩
  · subst hdots
    have hmem : dot_dot ∈ components dot_dot := by decide
    have hstuck := stuck_of_mem hpath.single hmem
    rw [components_of_not_mem h] at hstuck
    exact hstuck.not_inside hinside
  · exact (hpath.append hroot (directory_of_component h hdots)).inside

theorem loop_inside_iff {path : List (List UInt8)} {dots : Bool} (hpath : Directory path)
    (hroot : name ≠ [] → path ≠ [[]]) (hdots : dots = false → name.head? ≠ some slash)
    (hturns : name.length ≤ turns) (hlength : name.length < 2147483648) :
    (∃ out, merge_loop turns (text path) name = some out ∧ Inside out) ↔
      Stays path dots (components name) := by
  induction turns generalizing path name dots with
  | zero =>
    obtain rfl : name = [] := eq_nil_of_length_eq_zero (by omega)
    exact loop_end_iff 0 dots hpath
  | succ turns ih =>
    by_cases hnil : name = []
    · subst hnil
      exact loop_end_iff (turns + 1) dots hpath
    have hne := hroot hnil
    rcases first_component name with hlast | ⟨c, rest, hc, rfl⟩
    · exact loop_last_iff turns dots hpath hne hlast hnil
    have hdrop : (rest.dropWhile (· = slash)).length ≤ rest.length :=
      (dropWhile_sublist _).length_le
    rw [length_append, length_cons] at hturns hlength
    rw [components_append hc, stays_cons]
    by_cases hup : c = dot_dot
    · rw [if_pos hup, hup]
      by_cases hempty : path = []
      · subst hempty
        refine iff_of_true ⟨[], loop_root turns rest, hpath.inside⟩ (Or.inl rfl)
      · have htext : text path ≠ [] := fun h => (text_eq_nil h).elim hempty hne
        rw [loop_up turns htext, strip_text hpath.single, or_iff_right hempty]
        exact ih hpath.dropLast.1 (fun _ => hpath.dropLast.2) (by simp) (by omega) (by omega)
    rw [if_neg hup]
    by_cases hdot : c = [dot]
    · rw [if_pos hdot, hdot, cons_append, nil_append, loop_here]
      exact ih hpath (fun _ => hne) (by simp) (by omega) (by omega)
    rw [if_neg hdot]
    by_cases hempty : c = []
    · subst hempty
      rw [if_neg (by simp), nil_append, loop_doubled _ (by omega)]
      obtain rfl : dots = true := by
        cases dots
        · exact absurd rfl (hdots rfl)
        · rfl
      rw [if_pos rfl, ← components_dropWhile, ← stays_dropWhile,
        ← mem_skip (c := dot_dot) (by decide), ← components_dropWhile]
      have hadd := loop_after_add turns hne
        (components_ne_nil (rest.dropWhile (· = slash))) (rest.dropWhile (· = slash))
      rw [text_components] at hadd
      rw [hadd]
      by_cases hmem : dot_dot ∈ components (rest.dropWhile (· = slash))
      · refine iff_of_false ?_ (fun h => h.1 hmem)
        rintro ⟨-, out, hout, hinside⟩
        exact (stuck_of_mem hpath.single hmem).loop_not_inside (by omega) (by omega) hout hinside
      · rw [and_iff_right hmem]
        refine and_congr_right fun _ => ih (hpath.append hne ?_) (fun hrest => ?_)
          (fun _ => head_dropWhile rest) (by omega) (by omega)
        · exact Inside.directory ⟨head_dropWhile rest, hmem⟩
        · exact append_ne_root (components_ne_nil _) (by rwa [text_components])
    · rw [if_pos hempty, loop_component _ hc hempty hdot hup (by omega), ← stays_dropWhile,
        ← text_singleton c, loop_after_add turns hne (by simp), text_singleton]
      refine and_congr_right fun _ => ih (hpath.append hne (directory_of_component hc hup))
        (fun _ => ?_) (fun _ => head_dropWhile rest) (by omega) (by omega)
      exact append_ne_root (by simp) (by rwa [text_singleton])

/-! ## The law of include files -/

/-- The directory of the current file, or the root for a name that starts with a slash. -/
def directory (current_file name : List UInt8) : List (List UInt8) :=
  if name.head? = some slash then [] else (components current_file).dropLast

theorem directory_spec {current_file : List UInt8} (h : Inside current_file)
    (name : List UInt8) :
    Directory (directory current_file name) ∧ directory current_file name ≠ [[]] := by
  unfold directory
  split_ifs
  · exact ⟨⟨by simp, by simp [text], by simp⟩, by simp⟩
  · exact h.directory.dropLast

theorem merge_eq {current_file : List UInt8} (h : current_file.length < buf_size)
    (name : List UInt8) :
    merge current_file name =
      merge_loop name.length (text (directory current_file name)) (name.dropWhile (· = slash)) := by
  have hcopy : strcat [] current_file = some current_file := if_pos h
  simp only [merge, hcopy, bind_eq_bind, bind_some]
  congr 1
  rcases name with _ | ⟨x, name⟩
  · simp [directory, ← strip_text (not_mem_components current_file), text_components]
  · by_cases hx : x = slash
    · have hle : (name.dropWhile (· = slash)).length ≤ name.length :=
        (dropWhile_sublist _).length_le
      rw [dropWhile_cons_of_pos (by simpa using hx), length_cons, if_neg (by omega),
        directory, if_pos (by rw [hx]; rfl)]
      rfl
    · rw [dropWhile_cons_of_neg (by simpa using hx), if_pos rfl, directory,
        if_neg (by simpa using hx), ← strip_text (not_mem_components current_file),
        text_components]

theorem include_name_length {line : List UInt8} (h : include_name line = .ok name) :
    name.length ≤ buf_size - 100 := by
  rcases line with _ | ⟨c, line⟩
  · cases h
  · simp only [include_name] at h
    generalize (if c = quote then quote else greater_than) = delim at h
    split_ifs at h with hlead htrail hlong
    cases h
    have hle : (line.takeWhile (· ≠ delim)).length ≤ line.length :=
      (takeWhile_sublist _).length_le
    omega

theorem has_dots_append (s : List UInt8) {t : List UInt8} (h : has_dots t) : has_dots (s ++ t) := by
  induction s with
  | nil => exact h
  | cons x s ih =>
    rw [cons_append]
    generalize s ++ t = u at ih
    rcases u with _ | ⟨y, u⟩
    · cases ih
    · simp only [has_dots, drop_succ_cons, drop_zero] at ih ⊢
      rw [zip_cons_cons, any_cons, ih, Bool.or_true]

theorem has_dots_of_mem (h : dot_dot ∈ components name) : has_dots name := by
  induction hn : name.length using Nat.strongRecOn generalizing name with
  | ind n ih =>
    rcases first_component name with hlast | ⟨c, rest, hc, rfl⟩
    · rw [components_of_not_mem hlast, mem_singleton] at h
      rw [← h]
      decide
    · rw [components_append hc] at h
      rcases mem_cons.mp h with rfl | h
      · simp [has_dots, dot_dot]
      · have hrest := ih rest.length
          (by rw [← hn, length_append, length_cons]; omega) h rfl
        have happend := has_dots_append (c ++ [slash]) hrest
        rwa [append_assoc] at happend

theorem search_dirs_spec {can_open : List UInt8 → Bool} {inc_list : List (List UInt8)}
    {path : List UInt8} (h : search_dirs can_open name inc_list = some (some path)) :
    ∃ dir ∈ inc_list, path = dir ++ slash :: name := by
  induction inc_list with
  | nil => cases h
  | cons dir inc_list ih =>
    simp only [search_dirs, strcat, nil_append, bind_eq_bind, bind_eq_some_iff]
      at h
    obtain ⟨buf, hbuf, h⟩ := h
    split_ifs at hbuf h
    · cases hbuf
      cases h
      exact ⟨dir, mem_cons_self, rfl⟩
    · obtain ⟨dir', hdir, hpath⟩ := ih h
      exact ⟨dir', mem_cons_of_mem dir hdir, hpath⟩

/-- `merge` makes a path in the mudlib that fits the buffer when the current file fits, and the walk
over the name stays; then no other file is opened but in an include directory, by a name without
`..`. -/
theorem included_files_are_inside {current_file line name : List UInt8} (h : Inside current_file)
    (hname : include_name line = .ok name) :
    ((∃ path, merge current_file name = some path ∧ Inside path) ↔
      current_file.length < buf_size ∧
        Stays (directory current_file name) false (components name)) ∧
    (current_file.length < buf_size → Stays (directory current_file name) false (components name) →
      ∀ can_open inc_list path, inc_open can_open inc_list current_file name = some (some path) →
        Inside path ∨
          ∃ dir ∈ inc_list, path = dir ++ slash :: name ∧ dot_dot ∉ components name) := by
  have hlength := include_name_length hname
  have hdrop : (name.dropWhile (· = slash)).length ≤ name.length :=
    (dropWhile_sublist _).length_le
  have hmerge : (∃ path, merge current_file name = some path ∧ Inside path) ↔
      current_file.length < buf_size ∧
        Stays (directory current_file name) false (components name) := by
    by_cases hfile : current_file.length < buf_size
    · obtain ⟨hdirectory, hroot⟩ := directory_spec h name
      rw [merge_eq hfile, loop_inside_iff hdirectory (fun _ => hroot)
        (fun _ : false = false => head_dropWhile name) hdrop (by simp [buf_size] at hlength; omega),
        stays_dropWhile, and_iff_right hfile]
    · have hcopy : strcat [] current_file = none := if_neg hfile
      simp [merge, hcopy, hfile]
  refine ⟨hmerge, fun hfile hstays can_open inc_list path hopen => ?_⟩
  obtain ⟨buf, hbuf, hinside⟩ := hmerge.mpr ⟨hfile, hstays⟩
  simp only [inc_open, hbuf, bind_eq_bind, bind_some] at hopen
  split_ifs at hopen with hcan hdots
  · cases hopen
    exact Or.inl hinside
  · cases hopen
  · obtain ⟨dir, hdir, hpath⟩ := search_dirs_spec hopen
    exact Or.inr ⟨dir, hdir, hpath, mt has_dots_of_mem hdots⟩

instance (path : List (List UInt8)) : Decidable (Fits path) :=
  inferInstanceAs (Decidable ((text path).length < buf_size))

instance decidableStays : (path : List (List UInt8)) → (dots : Bool) → (cs : List (List UInt8)) →
    Decidable (Stays path dots cs)
  | _, _, [] => isTrue trivial
  | _path, _, [last] => inferInstanceAs (Decidable (last ≠ dot_dot ∧ (last = [] ∨ _)))
  | path, dots, c :: next :: cs =>
    have := decidableStays path.dropLast true (next :: cs)
    have := decidableStays path true (next :: cs)
    have := decidableStays path false (next :: cs)
    have := decidableStays (path ++ [c]) false (next :: cs)
    have := decidableStays (path ++ skip (next :: cs)) false (next :: cs)
    inferInstanceAs (Decidable (if c = dot_dot then _ else if c = [dot] then _ else
      if c ≠ [] then _ else if dots then _ else _))

instance (path : List UInt8) : Decidable (Inside path) :=
  decidable_of_iff (path.head? ≠ some slash ∧ dot_dot ∉ components path)
    ⟨fun h => ⟨h.1, h.2⟩, fun h => ⟨h.1, h.2⟩⟩

/-- `a/b.c` includes `"../d/./e"`. -/
theorem a_file_beside_the_directory_is_included :
    ∃ path, merge [97, 47, 98, 46, 99] [46, 46, 47, 100, 47, 46, 47, 101] = some path ∧
      Inside path := by
  have hname : include_name [34, 46, 46, 47, 100, 47, 46, 47, 101, 34] =
      .ok [46, 46, 47, 100, 47, 46, 47, 101] := by rfl
  have hinside : Inside [97, 47, 98, 46, 99] := by decide
  exact (included_files_are_inside hinside hname).1.mpr ⟨by decide, by decide⟩

/-- `b.c` includes `".//../x"`, and gets `../x`. -/
theorem a_doubled_slash_leads_outside :
    Inside [98, 46, 99] ∧
      include_name [34, 46, 47, 47, 46, 46, 47, 120, 34] = .ok [46, 47, 47, 46, 46, 47, 120] ∧
      merge [98, 46, 99] [46, 47, 47, 46, 46, 47, 120] = some [46, 46, 47, 120] ∧
      ¬ Inside [46, 46, 47, 120] := by refine ⟨by decide, by rfl, by decide, by decide⟩

end mudos.include_paths
