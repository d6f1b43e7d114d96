-- The laws of the compressed function tables: a program of the compiler
-- finds each of its functions again, exactly while no more than 255 entries
-- below an entry that the inherits predict are unpredicted.
import MudOS.FunctionTable
import Mathlib.Data.List.Range

open mudos.runs List Option

namespace mudos.compiler

variable {c c' : compile_t}

/-! ## The searches -/

section

variable {E : Nat → Bool}

theorem find_f_def_spec (n : Nat) :
    find_f_def E n ≤ n ∧ (∀ i, find_f_def E n ≤ i → i < n → E i = false) ∧
      (0 < find_f_def E n → E (find_f_def E n - 1) = true) := by
  induction n with
  | zero => exact ⟨Nat.le_refl _, fun _ _ h => by omega, fun h => absurd h (by simp [find_f_def])⟩
  | succ n ih =>
    obtain ⟨hle, hnone, hlast⟩ := ih
    unfold find_f_def
    cases hE : E n with
    | true => exact ⟨Nat.le_refl _, fun i h1 h2 => by simp at h1; omega, fun _ => hE⟩
    | false =>
      simp only [Bool.false_eq_true, if_false]
      refine ⟨by omega, fun i h1 h2 => ?_, hlast⟩
      rcases Nat.lt_succ_iff_lt_or_eq.1 h2 with h | rfl
      · exact hnone i h1 h
      · exact hE

theorem find_f_ov_spec (n f_ov : Nat) :
    f_ov ≤ find_f_ov E n f_ov ∧ find_f_ov E n f_ov ≤ f_ov + n ∧
      ∀ i, f_ov ≤ i → i < find_f_ov E n f_ov → E i = true := by
  induction n generalizing f_ov with
  | zero => exact ⟨Nat.le_refl _, Nat.le_refl _, fun i h1 h2 => by unfold find_f_ov at h2; omega⟩
  | succ n ih =>
    unfold find_f_ov
    cases hE : E f_ov with
    | true =>
      obtain ⟨h1, h2, h3⟩ := ih (f_ov + 1)
      simp only [if_true]
      refine ⟨by omega, by omega, fun i hi hlt => ?_⟩
      rcases Nat.eq_or_lt_of_le hi with rfl | hi
      · exact hE
      · exact h3 i hi hlt
    | false =>
      simp only [Bool.false_eq_true, if_false]
      exact ⟨Nat.le_refl _, by omega, fun i h1 h2 => by omega⟩

theorem find_l_ov_spec (f_ov n : Nat) :
    find_l_ov E f_ov n ≤ n ∧ (f_ov ≤ n → f_ov ≤ find_l_ov E f_ov n) ∧
      ∀ i, find_l_ov E f_ov n ≤ i → i < n → E i = true := by
  induction n with
  | zero => exact ⟨Nat.le_refl _, id, fun _ _ h => by omega⟩
  | succ n ih =>
    obtain ⟨h1, h2, h3⟩ := ih
    unfold find_l_ov
    by_cases hE : (n > f_ov && E n) = true
    · simp only [hE, if_true]
      simp only [Bool.and_eq_true, decide_eq_true_eq] at hE
      refine ⟨by omega, fun _ => h2 (by omega), fun i hi hlt => ?_⟩
      rcases Nat.lt_succ_iff_lt_or_eq.1 hlt with h | rfl
      · exact h3 i hi h
      · exact hE.2
    · rw [if_neg hE]
      exact ⟨Nat.le_refl _, id, fun i h1 h2 => by omega⟩

/-! ## The unexpected entries of a range -/

def misses (E : Nat → Bool) (a n : Nat) : Nat := (range' a n).countP fun k => !E k

@[simp] theorem misses_zero (a : Nat) : misses E a 0 = 0 := rfl

theorem misses_succ (a n : Nat) :
    misses E a (n + 1) = misses E a n + if E (a + n) then 0 else 1 := by
  rw [misses, range'_concat, countP_append, misses]
  cases hE : E (a + n) <;> simp [hE]

theorem misses_add (a n m : Nat) : misses E a (n + m) = misses E a n + misses E (a + n) m := by
  induction m with
  | zero => rfl
  | succ m ih => rw [← Nat.add_assoc, misses_succ, ih, misses_succ, Nat.add_assoc, Nat.add_assoc]

theorem misses_le (a n : Nat) : misses E a n ≤ n := by
  have := countP_le_length (p := fun k => !E k) (l := range' a n)
  simpa [misses] using this

theorem misses_mono {a n m : Nat} (h : n ≤ m) : misses E a n ≤ misses E a m := by
  obtain ⟨k, rfl⟩ := Nat.exists_eq_add_of_le h
  rw [misses_add]
  omega

theorem misses_eq_zero {a n : Nat} (h : ∀ i, a ≤ i → i < a + n → E i = true) :
    misses E a n = 0 := by
  unfold misses
  rw [countP_eq_zero]
  intro i hi
  rw [mem_range'_1] at hi
  simp [h i hi.1 hi.2]

theorem misses_lt {a i j : Nat} (hij : i < j) (h : E (a + i) = false) :
    misses E a i < misses E a j := by
  have := misses_mono (E := E) (a := a) hij
  rw [misses_succ, h] at this
  simp only [Bool.false_eq_true, if_false] at this
  omega

/-! ## The index bytes -/

/-- What the loop writes while `j` stays a byte: 255 for an expected entry, and
the next free place for any other. -/
theorem index_loop_fits (f_ov n i : Nat) (h : misses E f_ov (i + n) ≤ 255) :
    index_loop E f_ov n i (misses E f_ov i) =
      ((range' i n).map fun k => if E (f_ov + k) then 255 else misses E f_ov k,
        misses E f_ov (i + n), none) := by
  induction n generalizing i with
  | zero => rfl
  | succ n ih =>
    have hsucc := misses_succ (E := E) f_ov i
    rw [show i + (n + 1) = i + 1 + n by omega] at h ⊢
    unfold index_loop
    cases hE : E (f_ov + i) with
    | true =>
      simp only [hE, if_true, Nat.add_zero] at hsucc
      simp [← hsucc, ih (i + 1) h, range'_succ, hE]
    | false =>
      simp only [hE, Bool.false_eq_true, if_false] at hsucc
      have hle := misses_mono (E := E) (a := f_ov) (Nat.le_add_right (i + 1) n)
      rw [if_neg (by simp), if_neg (by omega), ← hsucc, ih (i + 1) h]
      simp [range'_succ, hE]

theorem index_loop_overflows (f_ov n i : Nat) (hi : misses E f_ov i ≤ 255)
    (h : 255 < misses E f_ov (i + n)) :
    ∃ k, i ≤ k ∧ k < i + n ∧ 255 ≤ k ∧
      (index_loop E f_ov n i (misses E f_ov i)).2 = (255, some k) := by
  induction n generalizing i with
  | zero => exact absurd h (by simpa using hi)
  | succ n ih =>
    have hsucc := misses_succ (E := E) f_ov i
    rw [show i + (n + 1) = i + 1 + n by omega] at h
    unfold index_loop
    cases hE : E (f_ov + i) with
    | true =>
      simp only [hE, if_true, Nat.add_zero] at hsucc
      obtain ⟨k, h1, h2, h3, h4⟩ := ih (i + 1) (by omega) h
      refine ⟨k, by omega, by omega, h3, ?_⟩
      simp [← hsucc, h4]
    | false =>
      simp only [hE, Bool.false_eq_true, if_false] at hsucc
      rw [if_neg (by simp)]
      by_cases hfull : misses E f_ov i + 1 = 256
      · have := misses_le (E := E) f_ov i
        exact ⟨i, Nat.le_refl _, by omega, by omega, by rw [if_pos hfull]⟩
      · obtain ⟨k, h1, h2, h3, h4⟩ := ih (i + 1) (by omega) h
        refine ⟨k, by omega, by omega, h3, ?_⟩
        rw [if_neg hfull, ← hsucc]
        simp [h4]

end

/-! ## The stores of the copy -/

section

variable {α : Type*} {pos : Nat → Option Nat} {val : Nat → α}

theorem store_all_succ (n : Nat) (p : List α) :
    store_all pos val (n + 1) p = match pos n with
      | some k => (store_all pos val n p).set k (val n)
      | none => store_all pos val n p := by
  rw [store_all, range_succ, foldl_append]
  rfl

@[simp] theorem length_store_all (n : Nat) (p : List α) :
    (store_all pos val n p).length = p.length := by
  induction n with
  | zero => rfl
  | succ n ih =>
    rw [store_all_succ]
    split
    · rw [length_set, ih]
    · exact ih

theorem store_all_other {n k : Nat} (p : List α) (h : ∀ i, i < n → pos i ≠ some k) :
    (store_all pos val n p)[k]? = p[k]? := by
  induction n with
  | zero => rfl
  | succ n ih =>
    rw [store_all_succ]
    have hn := h n (Nat.lt_succ_self n)
    split
    · rename_i j hj
      rw [getElem?_set_ne fun hjk : j = k => hn (by rw [hj, hjk]), ih fun i hi => h i (Nat.lt_succ_of_lt hi)]
    · exact ih fun i hi => h i (Nat.lt_succ_of_lt hi)

theorem store_all_at {n i k : Nat} (p : List α) (hi : i < n) (hpos : pos i = some k)
    (hk : k < p.length) (hinj : ∀ j, j < n → pos j = some k → j = i) :
    (store_all pos val n p)[k]? = some (val i) := by
  induction n with
  | zero => omega
  | succ n ih =>
    rw [store_all_succ]
    by_cases hin : i = n
    · subst hin
      rw [hpos]
      simp [hk]
    · have ih := ih (by omega) fun j hj => hinj j (Nat.lt_succ_of_lt hj)
      split
      · rename_i j hj
        have hjk : j ≠ k := by
          rintro rfl
          exact hin (hinj n (Nat.lt_succ_self n) hj).symm
        rw [getElem?_set_ne hjk, ih]
      · exact ih

end

/-! ## The binary search -/

theorem find_inherit_eq {offset : Nat → Nat} {index o : Nat} {fuel first last : Nat}
    (hfirst : first ≤ o) (hlast : o ≤ last) (hfuel : last - first ≤ fuel)
    (hbelow : ∀ i, i ≤ o → offset i ≤ index)
    (habove : ∀ i, o < i → i ≤ last → index < offset i) :
    find_inherit offset index fuel first last = o := by
  induction fuel generalizing first last with
  | zero =>
    unfold find_inherit
    omega
  | succ fuel ih =>
    unfold find_inherit
    by_cases hlt : last > first
    · simp only [hlt, if_true]
      by_cases hmid : offset ((last + first + 1) / 2) > index
      · rw [if_pos hmid]
        have ho : o < (last + first + 1) / 2 := by
          by_contra hn
          have := hbelow _ (Nat.not_lt.1 hn)
          omega
        exact ih hfirst (by omega) (by omega) fun i h1 h2 => habove i h1 (by omega)
      · rw [if_neg hmid]
        have ho : (last + first + 1) / 2 ≤ o := by
          by_contra hn
          have := habove _ (Nat.not_le.1 hn) (by omega)
          omega
        exact ih ho hlast (by omega) habove
    · simp only [hlt, if_false]
      omega

/-! ## The tables that the compiler makes -/

/-- The entry is one of the copied functions of an inherited program. -/
def Points (inherits : List inherit_t) (entry : runtime_function_u) : Prop :=
  ∃ o k ip, entry = .inh o k ∧ inherits[o]? = some ip ∧ k < ip.prog.num_functions

def Laid (inherits : List inherit_t) : Prop :=
  inherits.Pairwise fun a b =>
    a.function_index_offset + a.prog.num_functions ≤ b.function_index_offset

theorem Points.append {inherits : List inherit_t} {entry : runtime_function_u}
    (h : Points inherits entry) (ip : inherit_t) : Points (inherits ++ [ip]) entry := by
  obtain ⟨o, k, a, rfl, ho, hk⟩ := h
  refine ⟨o, k, a, rfl, ?_, hk⟩
  rw [getElem?_append_left (List.getElem?_eq_some_iff.1 ho).1, ho]

/-- An entry that says it is inherited is, during the compilation. -/
def Kept (inherits : List inherit_t) (f : function_t) : Prop :=
  f.flags.INHERITED = true ∨ f.flags.DEF_BY_INHERIT = true → Points inherits f.entry

structure Compiles (c : compile_t) : Prop where
  kept : ∀ f ∈ c.table, Kept c.inherits f
  laid : Laid c.inherits
  inside : ∀ ip ∈ c.inherits, ip.function_index_offset + ip.prog.num_functions ≤ c.table.length

theorem kept_set {inherits : List inherit_t} {table : List function_t} {f : function_t}
    (h : ∀ f ∈ table, Kept inherits f) (hf : Kept inherits f) (i : Nat) :
    ∀ g ∈ table.set i f, Kept inherits g := by
  intro g hg
  rcases mem_or_eq_of_mem_set hg with hg | rfl
  · exact h g hg
  · exact hf

theorem kept_append {inherits : List inherit_t} {table : List function_t} {f : function_t}
    (h : ∀ f ∈ table, Kept inherits f) (hf : Kept inherits f) :
    ∀ g ∈ table ++ [f], Kept inherits g := by
  intro g hg
  rcases mem_append.1 hg with hg | hg
  · exact h g hg
  · exact mem_singleton.mp hg ▸ hf

theorem overload_function_kept {newflags : name_flags} {index oldindex : Nat} {typemod : name_mods}
    (h : ∀ f ∈ c.table, Kept c.inherits f)
    (hp : Points c.inherits (.inh (c.inherits.length - 1) index))
    (hc : overload_function c newflags index oldindex typemod = some c') :
    c'.inherits = c.inherits ∧ c'.table.length = c.table.length + 1 ∧
      ∀ f ∈ c'.table, Kept c'.inherits f := by
  unfold overload_function at hc
  split at hc
  · cases hc
  rename_i old hold
  split at hc
  · cases hc
  simp only [some.injEq] at hc
  subst hc
  refine ⟨rfl, by simp, ?_⟩
  have hnew : Kept c.inherits (if (old.flags.UNDEFINED && !newflags.NO_CODE) = true then
      { old with
        entry := .inh (c.inherits.length - 1) index
        flags := inherited_flags newflags typemod, u_index := none }
      else old) := by
    split
    · exact fun _ => hp
    · exact h old (mem_of_getElem? hold)
  apply kept_set (kept_append h fun _ => hp)
  split
  · exact hnew
  · exact hnew

theorem copy_functions_loop_kept {typemod : name_mods} {functions : List (Nat × name_flags)}
    {i : Nat} (h : ∀ f ∈ c.table, Kept c.inherits f)
    (hp : ∀ k, k < i + functions.length → Points c.inherits (.inh (c.inherits.length - 1) k))
    (hc : copy_functions_loop typemod functions i c = some c') :
    c'.inherits = c.inherits ∧ c'.table.length = c.table.length + functions.length ∧
      ∀ f ∈ c'.table, Kept c'.inherits f := by
  induction functions generalizing i c with
  | nil =>
    cases hc
    exact ⟨rfl, rfl, h⟩
  | cons function functions ih =>
    obtain ⟨name, flags⟩ := function
    have hi := hp i (by simp)
    have hstep : ∀ d : compile_t, d.inherits = c.inherits → d.table.length = c.table.length + 1 →
        (∀ f ∈ d.table, Kept d.inherits f) →
        copy_functions_loop typemod functions (i + 1) d = some c' →
        c'.inherits = c.inherits ∧
          c'.table.length = c.table.length + ((name, flags) :: functions).length ∧
          ∀ f ∈ c'.table, Kept c'.inherits f := by
      intro d hinh hlen hkept hd
      obtain ⟨h1, h2, h3⟩ := ih hkept (fun k hk => by
        rw [hinh]
        exact hp k (by rw [length_cons]; omega)) hd
      refine ⟨h1.trans hinh, ?_, h3⟩
      rw [h2, hlen, length_cons]
      omega
    unfold copy_functions_loop at hc
    split at hc
    · split at hc
      · rename_i d hd
        obtain ⟨h1, h2, h3⟩ := overload_function_kept h hi hd
        exact hstep d h1 h2 h3 hc
      · cases hc
    · exact hstep (copy_function c name flags i typemod) rfl (by simp [copy_function])
        (kept_append h fun _ => hi) hc

theorem inherit_compiles {prog : inherited_t} {type_mod : name_mods} (h : Compiles c)
    (hc : inherit c prog type_mod = some c') : Compiles c' := by
  obtain ⟨hkept, hlaid, hinside⟩ := h
  unfold inherit copy_functions at hc
  have hnum : (prog.functions.take prog.num_functions).length = prog.num_functions := by
    rw [length_take, inherited_t.num_functions]
    split <;> omega
  obtain ⟨h1, h2, h3⟩ := copy_functions_loop_kept (i := 0)
    (c := { c with inherits := c.inherits ++ [⟨prog, c.table.length, type_mod⟩] })
    (fun f hf hflag => (hkept f hf hflag).append _) (fun k hk => by
      refine ⟨_, k, ⟨prog, c.table.length, type_mod⟩, rfl, by simp, ?_⟩
      rw [hnum, Nat.zero_add] at hk
      exact hk) hc
  rw [hnum] at h2
  refine ⟨h3, ?_, ?_⟩
  · rw [h1, Laid, pairwise_append]
    refine ⟨hlaid, pairwise_singleton _ _, fun a ha b hb => ?_⟩
    rw [mem_singleton] at hb
    subst hb
    exact hinside a ha
  · intro ip hip
    rw [h1] at hip
    rw [h2]
    rcases mem_append.1 hip with hip | hip
    · have := hinside ip hip
      simp only
      omega
    · rw [mem_singleton] at hip
      subst hip
      exact Nat.le_refl _

theorem define_new_function_compiles {d : declaration_t} (h : Compiles c)
    (hc : define_new_function c d = some c') : Compiles c' := by
  obtain ⟨hkept, hlaid, hinside⟩ := h
  unfold define_new_function at hc
  split at hc
  · split at hc
    · cases hc
    split at hc
    · cases hc
    split at hc
    · cases hc
    split at hc
    · cases hc
      exact ⟨hkept, hlaid, hinside⟩
    · simp only [some.injEq] at hc
      subst hc
      refine ⟨kept_set hkept ?_ _, hlaid, fun ip hip => ?_⟩
      · rintro (hf | hf) <;> cases hf
      · simpa using hinside ip hip
  · simp only [some.injEq] at hc
    subst hc
    refine ⟨kept_append hkept ?_, hlaid, fun ip hip => ?_⟩
    · rintro (hf | hf) <;> cases hf
    · have := hinside ip hip
      simp only [length_append, length_singleton]
      omega

theorem reachable_compiles (h : Reachable compile_t.start compile_t.step (fun _ _ => True) c) :
    Compiles c := by
  refine h.inv ⟨by simp [compile_t.start], List.Pairwise.nil, by simp [compile_t.start]⟩
    fun c s c' hcompiles _ hs => ?_
  unfold compile_t.step at hs
  cases s with
  | inherit prog type_mod =>
    simp only at hs
    split at hs
    · rename_i d hd
      split at hs
      · cases hs
        exact inherit_compiles hcompiles hd
      · cases hs
    · cases hs
  | function d =>
    simp only at hs
    split at hs
    · rename_i d hd
      split at hs
      · cases hs
        exact define_new_function_compiles hcompiles hd
      · cases hs
    · cases hs

theorem epilog_entry_kept {inherits : List inherit_t} {table : List function_t}
    (h : ∀ f ∈ table, Kept inherits f) (i : Nat) : ∀ f ∈ epilog_entry table i, Kept inherits f := by
  unfold epilog_entry
  split
  · exact h
  rename_i f hi
  have hf := h f (mem_of_getElem? hi)
  have hmarked : ∀ g ∈ table.set i { f with
      flags := if (f.flags.UNDEFINED && f.flags.DEF_BY_INHERIT) = true then
          { f.flags with UNDEFINED := f.flags.PROTOTYPE || f.flags.ALIAS, INHERITED := true }
        else f.flags }, Kept inherits g := by
    apply kept_set h
    by_cases hdef : (f.flags.UNDEFINED && f.flags.DEF_BY_INHERIT) = true
    · rw [if_pos hdef]
      rw [Bool.and_eq_true] at hdef
      exact fun _ => hf (Or.inr hdef.2)
    · rwa [if_neg hdef]
  simp only
  split
  · split
    · exact hmarked
    · rename_i which hwhich
      split
      · apply kept_set hmarked
        exact fun hflag => hmarked which (mem_of_getElem? hwhich) hflag
      · exact hmarked
  · exact hmarked

theorem length_epilog_entry (table : List function_t) (i : Nat) :
    (epilog_entry table i).length = table.length := by
  unfold epilog_entry
  split
  · rfl
  simp only
  split
  · split
    · simp
    · split <;> simp
  · simp

theorem epilog_table_kept {inherits : List inherit_t} {table : List function_t}
    (h : ∀ f ∈ table, Kept inherits f) : ∀ f ∈ epilog_table table, Kept inherits f := by
  unfold epilog_table
  generalize range table.length = is
  induction is generalizing table with
  | nil => exact h
  | cons i is ih => exact ih (epilog_entry_kept h i)

/-! ## The compressed table -/

section

variable {inherits : List inherit_t} {table : List function_t}
variable {i f_def f_ov m : Nat}

theorem FUNCTION_RENTRY_eq (hi : i < table.length) : FUNCTION_RENTRY table i = table[i].entry := by
  simp [FUNCTION_RENTRY, hi]

theorem expected_lt (h : expected inherits table i = true) : i < table.length := by
  by_contra hn
  simp [expected, getElem?_eq_none (Nat.not_lt.1 hn)] at h

theorem function_index_offset_eq {o : Nat} {ip : inherit_t} (h : inherits[o]? = some ip) :
    function_index_offset inherits o = ip.function_index_offset := by
  simp [function_index_offset, h]

theorem Laid.before {o o' : Nat} {a b : inherit_t} (h : Laid inherits) (ha : inherits[o]? = some a)
    (hb : inherits[o']? = some b) (hlt : o < o') :
    a.function_index_offset + a.prog.num_functions ≤ b.function_index_offset := by
  obtain ⟨h1, rfl⟩ := List.getElem?_eq_some_iff.1 ha
  obtain ⟨h2, rfl⟩ := List.getElem?_eq_some_iff.1 hb
  exact pairwise_iff_getElem.1 h o o' h1 h2 hlt

theorem remake_entry_eq (hkept : ∀ f ∈ table, Kept inherits f) (hlaid : Laid inherits)
    (h : expected inherits table i = true) :
    remake_entry inherits i = some (FUNCTION_RENTRY table i) := by
  have hi := expected_lt h
  rw [FUNCTION_RENTRY_eq hi]
  unfold expected at h
  rw [getElem?_eq_getElem hi] at h
  simp only [Bool.and_eq_true, beq_iff_eq] at h
  obtain ⟨hflag, hexp⟩ := h
  obtain ⟨o, k, ip, hentry, hip, hk⟩ := hkept _ (getElem_mem hi) (Or.inl hflag)
  rw [hentry] at hexp ⊢
  simp only [EXPECTED_INDEX, hip, map_some, some.injEq] at hexp
  have ho : o < inherits.length := (List.getElem?_eq_some_iff.1 hip).1
  have hsearch : find_inherit (function_index_offset inherits) i inherits.length 0
      (inherits.length - 1) = o := by
    apply find_inherit_eq (Nat.zero_le o) (by omega) (by omega)
    · intro o' ho'
      rcases Nat.eq_or_lt_of_le ho' with rfl | hlt
      · rw [function_index_offset_eq hip]
        omega
      · have ha := getElem?_eq_getElem (Nat.lt_trans hlt ho)
        have := hlaid.before ha hip hlt
        rw [function_index_offset_eq ha]
        omega
    · intro o' hlt hle
      have hb := getElem?_eq_getElem (show o' < inherits.length by omega)
      have := hlaid.before hip hb hlt
      rw [function_index_offset_eq hb]
      omega
  unfold remake_entry
  simp only [hsearch, hip, map_some, some.injEq, runtime_function_u.inh.injEq,
    true_and]
  omega

/-- Where the searches of `compress_function_tables` end: all before `f_ov` and all
from `m` to `f_def` is expected, and nothing from `f_def` on. -/
structure Found (E : Nat → Bool) (n f_def f_ov m : Nat) : Prop where
  f_def_eq : f_def = find_f_def E n
  f_ov_eq : f_ov = find_f_ov E f_def 0
  m_eq : m = find_l_ov E f_ov f_def
  f_def_le : f_def ≤ n
  f_ov_le : f_ov ≤ m
  m_le : m ≤ f_def
  start : ∀ i, i < f_ov → E i = true
  middle : ∀ i, m ≤ i → i < f_def → E i = true
  rest : ∀ i, f_def ≤ i → i < n → E i = false
  last : 0 < f_def → E (f_def - 1) = true

theorem found (E : Nat → Bool) (n : Nat) : ∃ f_def f_ov m, Found E n f_def f_ov m := by
  obtain ⟨h1, h2, h3⟩ := find_f_def_spec (E := E) n
  obtain ⟨-, h4, h5⟩ := find_f_ov_spec (E := E) (find_f_def E n) 0
  obtain ⟨h6, h7, h8⟩ := find_l_ov_spec (E := E) (find_f_ov E (find_f_def E n) 0) (find_f_def E n)
  rw [Nat.zero_add] at h4
  exact ⟨_, _, _, rfl, rfl, rfl, h1, h7 h4, h6, fun i hi => h5 i (Nat.zero_le i) hi, h8, h2, h3⟩

theorem Found.misses_eq {n : Nat} (h : Found E n f_def f_ov m) :
    misses E 0 f_def = misses E f_ov (m - f_ov) := by
  have h1 := h.f_ov_le
  have h2 := h.m_le
  have hsplit := misses_add (E := E) 0 f_ov (f_def - f_ov)
  have hsplit' := misses_add (E := E) f_ov (m - f_ov) (f_def - m)
  rw [show f_ov + (f_def - f_ov) = f_def by omega, Nat.zero_add] at hsplit
  rw [show m - f_ov + (f_def - m) = f_def - f_ov by omega,
    show f_ov + (m - f_ov) = m by omega] at hsplit'
  have hstart : misses E 0 f_ov = 0 := misses_eq_zero fun i _ hi => h.start i (by omega)
  have hmiddle : misses E m (f_def - m) = 0 :=
    misses_eq_zero fun i hi hlt => h.middle i hi (by omega)
  omega

theorem unexpected_eq (i : Nat) : unexpected inherits table i = misses (expected inherits table) 0 i := by
  rw [unexpected, misses, range_eq_range']

/-- The index bytes suffice exactly while there are at most 255 unexpected entries
below the last expected one. -/
theorem Found.fits_iff (h : Found (expected inherits table) table.length f_def f_ov m) :
    (∀ i, expected inherits table i = true → unexpected inherits table i ≤ 255) ↔
      misses (expected inherits table) f_ov (m - f_ov) ≤ 255 := by
  rw [← h.misses_eq]
  constructor
  · intro hall
    rcases Nat.eq_zero_or_pos f_def with h0 | hpos
    · simp [h0]
    · have hlast := hall _ (h.last hpos)
      have hsucc := misses_succ (E := expected inherits table) 0 (f_def - 1)
      rw [Nat.zero_add, h.last hpos, show f_def - 1 + 1 = f_def by omega] at hsucc
      rw [unexpected_eq] at hlast
      simpa [hsucc] using hlast
  · intro hle i hi
    have hlt : i < f_def := by
      by_contra hn
      simp [h.rest i (Nat.not_lt.1 hn) (expected_lt hi)] at hi
    rw [unexpected_eq]
    exact Nat.le_trans (misses_mono (Nat.le_of_lt hlt)) hle

theorem compress_fits (h : Found (expected inherits table) table.length f_def f_ov m)
    (hfits : misses (expected inherits table) f_ov (m - f_ov) ≤ 255) (hi : i < table.length)
    (hkept : ∀ f ∈ table, Kept inherits f) (hlaid : Laid inherits) :
    FIND_FUNC_ENTRY (compress_function_tables inherits table) i =
      some (FUNCTION_RENTRY table i) := by
  have h2 := h.m_le
  have hloop := index_loop_fits (E := expected inherits table) f_ov (m - f_ov) 0
    (by rwa [Nat.zero_add])
  rw [misses_zero, Nat.zero_add] at hloop
  have hj := misses_le (E := expected inherits table) f_ov (m - f_ov)
  have hcompress : compress_function_tables inherits table = _ := rfl
  conv at hcompress => rhs; unfold compress_function_tables
  simp only [← h.f_def_eq, ← h.f_ov_eq, ← h.m_eq, hloop] at hcompress
  rw [hcompress]
  clear hcompress hloop
  have hremake := fun hE => remake_entry_eq hkept hlaid (i := i) hE
  generalize hjdef : misses (expected inherits table) f_ov (m - f_ov) = j at *
  simp only [FIND_FUNC_ENTRY, find_func_entry]
  by_cases hF : i < f_def
  · rw [if_pos hF, show f_def - (f_def - (m - f_ov)) = m - f_ov by omega]
    by_cases hout : i < f_ov ∨ i - f_ov ≥ m - f_ov
    · rw [if_pos hout]
      apply hremake
      rcases hout with hout | hout
      · exact h.start i hout
      · by_cases hlt : i < f_ov
        · exact h.start i hlt
        · exact h.middle i (by omega) hF
    · have hin : i - f_ov < m - f_ov := by omega
      have hfi : f_ov + (i - f_ov) = i := by omega
      rw [if_neg hout]
      simp only [getElem?_map, getElem?_range' hin, map_some, Nat.zero_add,
        Nat.one_mul, hfi]
      cases hE : expected inherits table i with
      | true =>
        simp only [if_true]
        exact hremake hE
      | false =>
        -- an entry that was copied to its own place
        have hlt := misses_lt (E := expected inherits table) (a := f_ov) hin (by rw [hfi]; exact hE)
        rw [hjdef] at hlt
        have hne : misses (expected inherits table) f_ov (i - f_ov) ≠ 255 := by omega
        have hpos : ¬ (j + (table.length - f_def) = 0) := by omega
        have hf0 : f_def ≠ 0 := by omega
        simp only [Bool.false_eq_true, if_false, hne, hpos, hf0, ne_eq, not_false_eq_true, if_true]
        rw [store_all_other _ fun k _ hk => by simp at hk; omega]
        rw [store_all_at (i := i - f_ov) _ hin]
        · rw [hfi]
        · simp [getElem?_range' hin, hfi, hE, hne]
        · simp only [length_replicate]
          omega
        · intro k hk hpk
          have hfk : expected inherits table (f_ov + k) = false := by
            cases hEk : expected inherits table (f_ov + k) with
            | false => rfl
            | true =>
              simp only [getElem?_range' hk, map_some, Nat.zero_add, Nat.one_mul, hEk,
                if_true, filter_some] at hpk
              cases hpk
          have hsame : misses (expected inherits table) f_ov k =
              misses (expected inherits table) f_ov (i - f_ov) := by
            simp only [getElem?_range' hk, map_some, Nat.zero_add, Nat.one_mul, hfk,
              Bool.false_eq_true, if_false, filter_some] at hpk
            split at hpk
            · exact some.inj hpk
            · cases hpk
          rcases Nat.lt_trichotomy k (i - f_ov) with hlt' | heq | hlt'
          · have := misses_lt (E := expected inherits table) hlt' hfk
            omega
          · exact heq
          · have := misses_lt (E := expected inherits table) (a := f_ov) hlt' (by rw [hfi]; exact hE)
            omega
  · rw [if_neg hF]
    have hpos : ¬ (j + (table.length - f_def) = 0) := by omega
    simp only [hpos, if_false]
    by_cases hf0 : f_def = 0
    · subst hf0
      have hj0 : j = 0 := by omega
      simp [hj0, FUNCTION_RENTRY, hi]
    · simp only [ne_eq, hf0, not_false_eq_true, if_true]
      rw [show i - (f_def - j) = (i - f_def) + j by omega, store_all_at (i := i - f_def)]
      · rw [show f_def + (i - f_def) = i by omega]
      · omega
      · rfl
      · simp only [length_store_all, length_replicate]
        omega
      · intro k _ hk
        simp only [some.injEq] at hk
        omega

theorem compress_overflows (h : Found (expected inherits table) table.length f_def f_ov m)
    (hover : 255 < misses (expected inherits table) f_ov (m - f_ov)) :
    FIND_FUNC_ENTRY (compress_function_tables inherits table) (table.length - 1) = none := by
  have h2 := h.m_le
  have h3 := h.f_def_le
  obtain ⟨k, -, hk, hk255, hloop⟩ := index_loop_overflows (E := expected inherits table)
    f_ov (m - f_ov) 0 (by simp) (by rwa [Nat.zero_add])
  rw [misses_zero] at hloop
  rw [Nat.zero_add] at hk
  have hcompress : compress_function_tables inherits table = _ := rfl
  conv at hcompress => rhs; unfold compress_function_tables
  simp only [← h.f_def_eq, ← h.f_ov_eq, ← h.m_eq] at hcompress
  rw [hcompress]
  generalize index_loop (expected inherits table) f_ov (m - f_ov) 0 0 = r at *
  obtain ⟨index, j, fix⟩ := r
  simp only [Prod.mk.injEq] at hloop
  obtain ⟨rfl, rfl⟩ := hloop
  have hf0 : f_ov + k ≠ 0 := by omega
  have hpos : ¬ (255 + (table.length - f_def) = 0) := by omega
  simp only [FIND_FUNC_ENTRY, hpos, hf0, ne_eq, not_false_eq_true, if_true, if_false]
  rw [if_neg (by omega), getElem?_eq_none]
  simp only [length_store_all, length_replicate]
  omega

end

/-! ## The laws -/

/-- A program of the compiler finds the entry of each index exactly while no entry
that is where the inherits say has more than 255 below it that are not. -/
theorem every_function_is_found_iff_the_index_bytes_suffice (c : compile_t)
    (h : Reachable compile_t.start compile_t.step (fun _ _ => True) c) :
    (∀ i, i < (epilog_table c.table).length →
        FIND_FUNC_ENTRY (epilog c) i = some (FUNCTION_RENTRY (epilog_table c.table) i)) ↔
      ∀ i, expected c.inherits (epilog_table c.table) i = true →
        unexpected c.inherits (epilog_table c.table) i ≤ 255 := by
  have hc := reachable_compiles h
  obtain ⟨f_def, f_ov, m, hfound⟩ :=
    found (expected c.inherits (epilog_table c.table)) (epilog_table c.table).length
  rw [hfound.fits_iff]
  constructor
  · intro hall
    by_contra hover
    have hnone := compress_overflows hfound (Nat.not_le.1 hover)
    have hlt : 0 < (epilog_table c.table).length := by
      have h1 := hfound.m_le
      have h2 := hfound.f_def_le
      have h3 := misses_le (E := expected c.inherits (epilog_table c.table)) f_ov (m - f_ov)
      omega
    have := hall _ (Nat.sub_lt hlt Nat.one_pos)
    simp [epilog, hnone] at this
  · exact fun hfits i hi => compress_fits hfound hfits hi (epilog_table_kept hc.kept) hc.laid

theorem unexpected_le (inherits : List inherit_t) (table : List function_t) (i : Nat) :
    unexpected inherits table i ≤ i := by
  rw [unexpected_eq]
  exact misses_le _ _

def no_mods : name_mods := ⟨false, false, false, false, false, false, false⟩

def plain_flags : name_flags := ⟨false, false, false, false, false, false, false, no_mods⟩

/-- Two programs with a function of the same name, and one more function of that name. -/
def two_inherits : List Statement :=
  [.inherit ⟨[(1, plain_flags), (2, plain_flags)], false⟩ no_mods,
    .function ⟨3, 0, 1, false, false, false, no_mods⟩,
    .inherit ⟨[(2, plain_flags), (4, plain_flags), (9, plain_flags)], true⟩ no_mods,
    .function ⟨2, 1, 0, false, false, false, no_mods⟩]

theorem the_functions_of_two_inherits_are_found :
    ∃ c, run compile_t.step compile_t.start two_inherits = some c ∧
      ∀ i, i < (epilog_table c.table).length →
        FIND_FUNC_ENTRY (epilog c) i = some (FUNCTION_RENTRY (epilog_table c.table) i) := by
  have hrun : (run compile_t.step compile_t.start two_inherits).map
      (fun c => (epilog_table c.table).length) = some 5 := by decide
  obtain ⟨c, hc, hlen⟩ := map_eq_some_iff.mp hrun
  refine ⟨c, hc, (every_function_is_found_iff_the_index_bytes_suffice c
    (.of_any hc)).2 fun i hi => ?_⟩
  have h1 := expected_lt hi
  have h2 := unexpected_le c.inherits (epilog_table c.table) i
  omega

/-! ## Many local functions -/

def local_function (name : Nat) : Statement := .function ⟨name, 0, 0, false, false, false, no_mods⟩

def local_entry (k : Nat) : function_t := ⟨.def_ 0 0 k, plain_flags, 1, some k⟩

theorem run_locals {n : Nat} (hn : n ≤ USHRT_MAX) :
    ∃ c, run compile_t.step compile_t.start ((range n).map local_function) = some c ∧
      c.inherits = [] ∧ c.table = (range n).map local_entry ∧
      (∀ k, n ≤ k → lookup_ident c k = none) ∧ c.num_compiler_functions = n := by
  induction n with
  | zero => exact ⟨compile_t.start, rfl, rfl, rfl, fun _ _ => rfl, rfl⟩
  | succ n ih =>
    obtain ⟨c, hc, hinh, htable, hident, hnum⟩ := ih (by omega)
    refine ⟨⟨[], (range (n + 1)).map local_entry, (n, n) :: c.idents, n + 1⟩, ?_, rfl, rfl,
      fun k hk => ?_, rfl⟩
    · rw [range_succ, map_append, run_append, hc]
      simp [run, compile_t.step, local_function, define_new_function, hident n (Nat.le_refl n),
        htable, hinh, hnum, hn, local_entry, plain_flags]
    · have hne : (k == n) = false := by simp; omega
      have := hident k (by omega)
      simp only [lookup_ident, lookup_cons, hne] at this ⊢
      exact this

theorem epilog_entry_local {i k : Nat} (h : table[i]? = some (local_entry k)) :
    epilog_entry table i = table := by
  obtain ⟨hi, hget⟩ := List.getElem?_eq_some_iff.1 h
  have hset : epilog_entry table i = table.set i (local_entry k) := by
    simp only [epilog_entry, h]
    rfl
  rw [hset, ← hget, set_getElem_self]

/-- The entry of the function that is inherited after `n` local ones. -/
def late_entry (marked : Bool) : function_t :=
  ⟨.inh 0 0, { inherited_flags plain_flags no_mods with UNDEFINED := !marked, INHERITED := marked },
    1, none⟩

theorem copied_entry :
    (⟨.inh 0 0, inherited_flags plain_flags no_mods, 1, none⟩ : function_t) = late_entry false := rfl

theorem epilog_locals (n : Nat) :
    epilog_table ((range n).map local_entry ++ [late_entry false]) =
      (range n).map local_entry ++ [late_entry true] := by
  have hskip : ∀ m, m ≤ n → (range m).foldl epilog_entry
      ((range n).map local_entry ++ [late_entry false]) =
      (range n).map local_entry ++ [late_entry false] := by
    intro m hm
    induction m with
    | zero => rfl
    | succ m ih =>
      rw [range_succ, foldl_append, ih (by omega)]
      apply epilog_entry_local (k := m)
      rw [getElem?_append_left (by simpa using (show m < n by omega))]
      simp [show m < n by omega]
  rw [epilog_table, length_append, length_map, length_range, length_singleton,
    range_succ, foldl_append, hskip n (Nat.le_refl n)]
  simp [epilog_entry, late_entry, inherited_flags, plain_flags, no_mods, name_mods.or]

theorem late_entry_is_lost {prog : inherited_t} {type_mod : name_mods}
    (hinh : c.inherits = [⟨prog, 256, type_mod⟩])
    (htable : c.table = (range 256).map local_entry ++ [late_entry false]) :
    FIND_FUNC_ENTRY (epilog c) 256 = none := by
  have htable' : epilog_table c.table = (range 256).map local_entry ++ [late_entry true] := by
    rw [htable]
    exact epilog_locals 256
  have hexp : expected c.inherits (epilog_table c.table) 256 = true := by
    rw [htable', expected, getElem?_append_right (by simp)]
    simp [late_entry, EXPECTED_INDEX, hinh]
  have hlocal : ∀ k, k < 256 → expected c.inherits (epilog_table c.table) k = false := by
    intro k hk
    rw [htable', expected, getElem?_append_left (by simpa using hk)]
    simp [hk, local_entry, plain_flags]
  have hcount : unexpected c.inherits (epilog_table c.table) 256 = 256 := by
    rw [unexpected, countP_eq_length.2 fun k hk => by
      rw [hlocal k (mem_range.1 hk)]
      rfl, length_range]
  obtain ⟨f_def, f_ov, m, hfound⟩ :=
    found (expected c.inherits (epilog_table c.table)) (epilog_table c.table).length
  have hover : ¬ misses (expected c.inherits (epilog_table c.table)) f_ov (m - f_ov) ≤ 255 := by
    rw [← hfound.fits_iff]
    intro hfits
    have := hfits 256 hexp
    omega
  have hlast : (epilog_table c.table).length - 1 = 256 := by
    rw [htable']
    simp
  have hlost := compress_overflows hfound (Nat.not_le.1 hover)
  rwa [hlast] at hlost

theorem inherit_after_locals :
    ∃ c c', run compile_t.step compile_t.start ((range 256).map local_function) = some c ∧
      c.step (.inherit ⟨[(256, plain_flags)], false⟩ no_mods) = some c' ∧
      c.table.length = 256 ∧ c'.inherits = [⟨⟨[(256, plain_flags)], false⟩, 256, no_mods⟩] ∧
      c'.table = (range 256).map local_entry ++ [late_entry false] ∧
      lookup_ident c' 256 = some 256 := by
  obtain ⟨c, hc, hinh, htable, hident, -⟩ := run_locals (n := 256) (by decide)
  let ip : inherit_t := ⟨⟨[(256, plain_flags)], false⟩, 256, no_mods⟩
  let c' : compile_t := ⟨[ip], (range 256).map local_entry ++ [late_entry false],
    (256, 256) :: c.idents, c.num_compiler_functions⟩
  have hlookup := hident 256 (Nat.le_refl _)
  have hstep : compile_t.step c (.inherit ip.prog no_mods) = some c' := by
    unfold lookup_ident at hlookup
    simp [compile_t.step, inherit, copy_functions, copy_functions_loop, inherited_t.num_functions,
      ip, c', lookup_ident, hlookup, copy_function, htable, hinh, copied_entry, USHRT_MAX]
  exact ⟨c, c', hc, hstep, by simp [htable], rfl, rfl, by simp [lookup_ident, c']⟩

theorem an_inherited_function_after_256_local_ones_is_lost :
    ¬ ∀ c, Reachable compile_t.start compile_t.step (fun _ _ => True) c →
      ∀ i, i < (epilog_table c.table).length →
        FIND_FUNC_ENTRY (epilog c) i = some (FUNCTION_RENTRY (epilog_table c.table) i) := by
  intro hall
  obtain ⟨c, c', hc, hstep, -, hinh, htable, -⟩ := inherit_after_locals
  have hreach : Reachable compile_t.start compile_t.step (fun _ _ => True) c' :=
    .step (.of_any hc) trivial hstep
  have htable' : epilog_table c'.table = (range 256).map local_entry ++ [late_entry true] := by
    rw [htable]
    exact epilog_locals 256
  have hlost := hall c' hreach 256 (by rw [htable']; simp)
  simp [late_entry_is_lost hinh htable] at hlost

end mudos.compiler
