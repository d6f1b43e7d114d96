-- The laws of overloading: whichever programs are inherited, and whatever is defined
-- between them, the entries of one name are one main entry, which has the latest
-- definition, and aliases of it.
import MudOS.FunctionTableLaws

open List Option

namespace mudos.compiler

/-! ## What has been copied -/

def inherited_t.copied (prog : inherited_t) : List (Nat × name_flags) :=
  prog.functions.take prog.num_functions

section

variable (fss : List (List (Nat × name_flags)))

/-- The function `i` of the inherit `k`, where `fss` has what was copied of each inherit. -/
def Copied (k i name : Nat) (flags : name_flags) : Prop :=
  ∃ fs, fss[k]? = some fs ∧ fs[i]? = some (name, flags)

def Names (k name : Nat) : Prop := ∃ i flags, Copied fss k i name flags

def Provides (k name : Nat) : Prop :=
  ∃ i flags, Copied fss k i name flags ∧ flags.NO_CODE = false

end

section

variable {full : List (List (Nat × name_flags))} {fs : List (Nat × name_flags)}
  {n : Nat} {fl : name_flags} {k i name : Nat} {flags : name_flags}

theorem copied_snoc :
    Copied (full ++ [fs ++ [(n, fl)]]) k i name flags ↔
      Copied (full ++ [fs]) k i name flags ∨
        (k = full.length ∧ i = fs.length ∧ name = n ∧ flags = fl) := by
  unfold Copied
  rcases Nat.lt_trichotomy k full.length with hk | rfl | hk
  · rw [getElem?_append_left hk, getElem?_append_left hk]
    constructor
    · exact .inl
    · rintro (h | ⟨rfl, -⟩)
      · exact h
      · omega
  · simp only [getElem?_concat_length, some.injEq, exists_eq_left', true_and]
    rcases Nat.lt_trichotomy i fs.length with hi | rfl | hi
    · rw [getElem?_append_left hi]
      constructor
      · exact .inl
      · rintro (h | ⟨rfl, -⟩)
        · exact h
        · omega
    · rw [getElem?_concat_length, getElem?_eq_none (Nat.le_refl _)]
      simp only [some.injEq, Prod.mk.injEq, true_and, reduceCtorEq, false_or]
      exact ⟨fun h => ⟨h.1.symm, h.2.symm⟩, fun h => ⟨h.1.symm, h.2.symm⟩⟩
    · rw [getElem?_eq_none (by simp; omega), getElem?_eq_none (by omega)]
      constructor
      · exact .inl
      · rintro (h | ⟨rfl, -⟩)
        · exact h
        · omega
  · rw [getElem?_eq_none (by simp; omega), getElem?_eq_none (by simp; omega)]
    constructor
    · exact .inl
    · rintro (h | ⟨rfl, -⟩)
      · exact h
      · omega

theorem copied_nil : Copied (full ++ [[]]) k i name flags ↔ Copied full k i name flags := by
  unfold Copied
  rcases Nat.lt_trichotomy k full.length with hk | rfl | hk
  · rw [getElem?_append_left hk]
  · rw [getElem?_concat_length, getElem?_eq_none (Nat.le_refl _)]
    simp
  · rw [getElem?_eq_none (by simp; omega), getElem?_eq_none (by omega)]

end

/-- Of the functions with one name the first has the flags, and all the others are aliases. -/
structure Shown (functions : List (Nat × name_flags)) : Prop where
  alias_iff : ∀ (i : Nat) name flags, functions[i]? = some (name, flags) →
    (flags.ALIAS = true ↔ ∃ (j : Nat) (g : name_flags), j < i ∧ functions[j]? = some (name, g))
  undefined : ∀ (i : Nat) name flags, functions[i]? = some (name, flags) → flags.ALIAS = false →
    flags.UNDEFINED = flags.PROTOTYPE

/-! ## The entries of a name -/

section

variable (fss : List (List (Nat × name_flags)))

/-- What the main entry of a name is: a function of this level, or the latest definition of
those that are inherited. -/
inductive Origin (name : Nat) (f : function_t) : Prop
  | own (num_arg num_local num : Nat) (hentry : f.entry = .def_ num_arg num_local num)
      (hindex : f.u_index = some num) (hdef : f.flags.DEF_BY_INHERIT = false)
      (hundefined : f.flags.UNDEFINED = f.flags.PROTOTYPE)
      (hnone : f.flags.PROTOTYPE = true → ∀ k, ¬ Provides fss k name)
  | inherited (k i : Nat) (flags : name_flags) (hentry : f.entry = .inh k i)
      (hindex : f.u_index = none) (hdef : f.flags.DEF_BY_INHERIT = true)
      (hundefined : f.flags.UNDEFINED = true) (hcopied : Copied fss k i name flags)
      (hlatest : f.flags.PROTOTYPE = false →
        Provides fss k name ∧ ∀ k', k < k' → ¬ Provides fss k' name)
      (hnone : f.flags.PROTOTYPE = true → ∀ k', ¬ Provides fss k' name)
      (hsingle : f.alias_for = 1 → ∀ k', Names fss k' name → k' = k)

structure Main (name : Nat) (f : function_t) : Prop where
  main : f.flags.ALIAS = false
  open_ : f.flags.INHERITED = false
  counted : 1 ≤ f.alias_for
  origin : Origin fss name f

structure Alias (c : compile_t) (x : Nat) (f : function_t) : Prop where
  flags : f.flags = alias_flags
  u_index : f.u_index = none
  before : f.alias_for < x
  copy : ∃ k i name flags, f.entry = .inh k i ∧ Copied fss k i name flags ∧
    lookup_ident c name = some f.alias_for

structure Overloads (c : compile_t) : Prop where
  mains : ∀ name x, lookup_ident c name = some x →
    ∃ f, c.table[x]? = some f ∧ Main fss name f
  once : ∀ name name' x, lookup_ident c name = some x → lookup_ident c name' = some x →
    name = name'
  seen : ∀ k name, Names fss k name → ∃ x, lookup_ident c name = some x
  known : ∀ x f, c.table[x]? = some f → f.flags.ALIAS = false →
    ∃ name, lookup_ident c name = some x
  aliases : ∀ x f, c.table[x]? = some f → f.flags.ALIAS = true → Alias fss c x f

end

/-- The entry has a name: it is the main entry, or an alias of it. -/
def EntryOf (c : compile_t) (x name : Nat) : Prop :=
  lookup_ident c name = some x ∨
    ∃ f, c.table[x]? = some f ∧ f.flags.ALIAS = true ∧ lookup_ident c name = some f.alias_for

structure Grows (c c' : compile_t) : Prop where
  lookup : ∀ n y, lookup_ident c n = some y → lookup_ident c' n = some y
  entry : ∀ y n, EntryOf c y n → EntryOf c' y n

theorem Grows.refl (c : compile_t) : Grows c c := ⟨fun _ _ h => h, fun _ _ h => h⟩

theorem Grows.trans {c c' c'' : compile_t} (h : Grows c c') (h' : Grows c' c'') : Grows c c'' :=
  ⟨fun n y hy => h'.lookup n y (h.lookup n y hy), fun y n hy => h'.entry y n (h.entry y n hy)⟩

/-! ## The two changes of the table -/

section

variable {fss fss' : List (List (Nat × name_flags))} {c c' : compile_t} {name x : Nat}
  {f : function_t}

theorem Origin.congr
    (hsame : ∀ k i flags, Copied fss' k i name flags ↔ Copied fss k i name flags)
    (h : Origin fss name f) : Origin fss' name f := by
  have hnames : ∀ k, Names fss' k name ↔ Names fss k name := by
    intro k
    simp [Names, hsame]
  have hprovides : ∀ k, Provides fss' k name ↔ Provides fss k name := by
    intro k
    simp [Provides, hsame]
  cases h with
  | own num_arg num_local num hentry hindex hdef hundefined hnone =>
    refine .own num_arg num_local num hentry hindex hdef hundefined ?_
    intro hproto k
    rw [hprovides]
    exact hnone hproto k
  | inherited k i flags hentry hindex hdef hundefined hcopied hlatest hnone hsingle =>
    refine .inherited k i flags hentry hindex hdef hundefined ((hsame k i flags).2 hcopied)
      ?_ ?_ ?_
    · intro hcode
      simp only [hprovides]
      exact hlatest hcode
    · intro hproto k'
      rw [hprovides]
      exact hnone hproto k'
    · intro hone k' hk'
      exact hsingle hone k' ((hnames k').1 hk')

theorem overloads_new (h : Overloads fss c) (hnone : lookup_ident c name = none)
    (hmain : Main fss' name f)
    (hmono : ∀ k i n flags, Copied fss k i n flags → Copied fss' k i n flags)
    (hothers : ∀ k i n flags, n ≠ name → Copied fss' k i n flags → Copied fss k i n flags)
    (htable : c'.table = c.table ++ [f]) (hidents : c'.idents = (name, c.table.length) :: c.idents) :
    Overloads fss' c' ∧ Grows c c' := by
  have hself : lookup_ident c' name = some c.table.length := by
    simp [lookup_ident, hidents]
  have hother : ∀ n, n ≠ name → lookup_ident c' n = lookup_ident c n := by
    intro n hn
    rw [lookup_ident, hidents, lookup_cons, beq_false_of_ne hn, lookup_ident]
  have hkeep : ∀ n y, lookup_ident c n = some y → lookup_ident c' n = some y := by
    intro n y hy
    rw [hother n, hy]
    rintro rfl
    simp [hnone] at hy
  have hinside : ∀ n y, lookup_ident c n = some y → y < c.table.length := by
    intro n y hy
    obtain ⟨g, hg, -⟩ := h.mains n y hy
    exact (List.getElem?_eq_some_iff.1 hg).1
  have hold : ∀ (y : Nat), y < c.table.length → c'.table[y]? = c.table[y]? := by
    intro y hy
    rw [htable, getElem?_append_left hy]
  have hlast : c'.table[c.table.length]? = some f := by
    rw [htable, getElem?_concat_length]
  have hcases : ∀ (y : Nat) g, c'.table[y]? = some g →
      c.table[y]? = some g ∨ (y = c.table.length ∧ g = f) := by
    intro y g hg
    have hy := (List.getElem?_eq_some_iff.1 hg).1
    rw [htable, length_append, length_singleton] at hy
    by_cases hlt : y < c.table.length
    · rw [hold y hlt] at hg
      exact .inl hg
    · obtain rfl : y = c.table.length := by omega
      rw [hlast, some.injEq] at hg
      exact .inr ⟨rfl, hg.symm⟩
  refine ⟨⟨?_, ?_, ?_, ?_, ?_⟩, ?_⟩
  · intro n y hy
    by_cases hn : n = name
    · subst hn
      cases hself.symm.trans hy
      exact ⟨f, hlast, hmain⟩
    · rw [hother n hn] at hy
      obtain ⟨g, hg, hmaing⟩ := h.mains n y hy
      refine ⟨g, (hold y (hinside n y hy)).trans hg, { hmaing with origin := ?_ }⟩
      exact hmaing.origin.congr fun k i flags =>
        ⟨hothers k i n flags hn, hmono k i n flags⟩
  · intro n n' y hy hy'
    by_cases hn : n = name <;> by_cases hn' : n' = name
    · rw [hn, hn']
    · subst hn
      rw [hself, some.injEq] at hy
      rw [hother n' hn'] at hy'
      exact absurd (hinside n' y hy') (by omega)
    · subst hn'
      rw [hself, some.injEq] at hy'
      rw [hother n hn] at hy
      exact absurd (hinside n y hy) (by omega)
    · rw [hother n hn] at hy
      rw [hother n' hn'] at hy'
      exact h.once n n' y hy hy'
  · intro k n hnames
    by_cases hn : n = name
    · subst hn
      exact ⟨_, hself⟩
    · obtain ⟨i, flags, hcopied⟩ := hnames
      obtain ⟨y, hy⟩ := h.seen k n ⟨i, flags, hothers k i n flags hn hcopied⟩
      exact ⟨y, hkeep n y hy⟩
  · intro y g hg halias
    rcases hcases y g hg with hg | ⟨rfl, rfl⟩
    · obtain ⟨n, hn⟩ := h.known y g hg halias
      exact ⟨n, hkeep n y hn⟩
    · exact ⟨name, hself⟩
  · intro y g hg halias
    rcases hcases y g hg with hg | ⟨rfl, rfl⟩
    · have hentry := h.aliases y g hg halias
      obtain ⟨k, i, n, flags, hinh, hcopied, hn⟩ := hentry.copy
      exact { hentry with copy := ⟨k, i, n, flags, hinh, hmono _ _ _ _ hcopied, hkeep _ _ hn⟩ }
    · simp [hmain.main] at halias
  · refine ⟨hkeep, ?_⟩
    rintro y n (hy | ⟨g, hg, halias, hn⟩)
    · exact .inl (hkeep n y hy)
    · refine .inr ⟨g, ?_, halias, hkeep n _ hn⟩
      rw [hold y (List.getElem?_eq_some_iff.1 hg).1, hg]

theorem overloads_set (h : Overloads fss c) (hx : lookup_ident c name = some x)
    (hmain : Main fss' name f)
    (hmono : ∀ k i n flags, Copied fss k i n flags → Copied fss' k i n flags)
    (hothers : ∀ k i n flags, n ≠ name → Copied fss' k i n flags → Copied fss k i n flags)
    {extra : List function_t}
    (hextra : ∀ g ∈ extra, g.flags = alias_flags ∧ g.u_index = none ∧ g.alias_for = x ∧
      ∃ k i flags, g.entry = .inh k i ∧ Copied fss' k i name flags)
    (htable : c'.table = c.table.set x f ++ extra) (hidents : c'.idents = c.idents) :
    Overloads fss' c' ∧ Grows c c' := by
  have hlookup : ∀ n, lookup_ident c' n = lookup_ident c n := by
    intro n
    rw [lookup_ident, lookup_ident, hidents]
  obtain ⟨old, hold, hmainold⟩ := h.mains name x hx
  have hxlt := (List.getElem?_eq_some_iff.1 hold).1
  have hself : c'.table[x]? = some f := by
    rw [htable, getElem?_append_left (by rwa [length_set]),
      getElem?_set_self hxlt]
  have hother : ∀ (y : Nat), y ≠ x → y < c.table.length → c'.table[y]? = c.table[y]? := by
    intro y hy hlt
    rw [htable, getElem?_append_left (by rwa [length_set]),
      getElem?_set_ne (Ne.symm hy)]
  have hcases : ∀ (y : Nat) g, c'.table[y]? = some g →
      (y = x ∧ g = f) ∨ (y ≠ x ∧ c.table[y]? = some g) ∨ (x < y ∧ g ∈ extra) := by
    intro y g hg
    by_cases hyx : y = x
    · subst hyx
      rw [hself, some.injEq] at hg
      exact .inl ⟨rfl, hg.symm⟩
    · by_cases hlt : y < c.table.length
      · rw [hother y hyx hlt] at hg
        exact .inr (.inl ⟨hyx, hg⟩)
      · rw [htable, getElem?_append_right (by rw [length_set]; omega)] at hg
        exact .inr (.inr ⟨by omega, mem_of_getElem? hg⟩)
  refine ⟨⟨?_, ?_, ?_, ?_, ?_⟩, ?_⟩
  · intro n y hy
    rw [hlookup] at hy
    by_cases hn : n = name
    · subst hn
      cases hx.symm.trans hy
      exact ⟨f, hself, hmain⟩
    · obtain ⟨g, hg, hmaing⟩ := h.mains n y hy
      have hyx : y ≠ x := by
        rintro rfl
        exact hn (h.once n name y hy hx)
      refine ⟨g, (hother y hyx (List.getElem?_eq_some_iff.1 hg).1).trans hg,
        { hmaing with origin := ?_ }⟩
      exact hmaing.origin.congr fun k i flags =>
        ⟨hothers k i n flags hn, hmono k i n flags⟩
  · intro n n' y hy hy'
    rw [hlookup] at hy hy'
    exact h.once n n' y hy hy'
  · intro k n hnames
    rw [hlookup]
    by_cases hn : n = name
    · subst hn
      exact ⟨x, hx⟩
    · obtain ⟨i, flags, hcopied⟩ := hnames
      exact h.seen k n ⟨i, flags, hothers k i n flags hn hcopied⟩
  · intro y g hg halias
    simp only [hlookup]
    rcases hcases y g hg with ⟨rfl, rfl⟩ | ⟨-, hg⟩ | ⟨-, hg⟩
    · exact ⟨name, hx⟩
    · exact h.known y g hg halias
    · rw [(hextra g hg).1] at halias
      cases halias
  · intro y g hg halias
    rcases hcases y g hg with ⟨rfl, rfl⟩ | ⟨-, hg⟩ | ⟨hlt, hg⟩
    · simp [hmain.main] at halias
    · have hentry := h.aliases y g hg halias
      obtain ⟨k, i, n, flags, hinh, hcopied, hn⟩ := hentry.copy
      exact { hentry with
        copy := ⟨k, i, n, flags, hinh, hmono _ _ _ _ hcopied, (hlookup n).trans hn⟩ }
    · obtain ⟨hflags, hindex, hfor, k, i, flags, hinh, hcopied⟩ := hextra g hg
      refine ⟨hflags, hindex, by omega, k, i, name, flags, hinh, hcopied, ?_⟩
      rw [hlookup, hx, hfor]
  · refine ⟨fun n y hy => (hlookup n).trans hy, ?_⟩
    rintro y n (hy | ⟨g, hg, halias, hn⟩)
    · exact .inl ((hlookup n).trans hy)
    · refine .inr ⟨g, ?_, halias, (hlookup n).trans hn⟩
      rw [hother y ?_ (List.getElem?_eq_some_iff.1 hg).1, hg]
      rintro rfl
      rw [hold, some.injEq] at hg
      simp [← hg, hmainold.main] at halias

end

/-! ## Inheriting -/

section

variable {full : List (List (Nat × name_flags))} {fs : List (Nat × name_flags)}
  {n : Nat} {fl : name_flags} {rest : List (Nat × name_flags)} {c c' : compile_t}
  {typemod : name_mods}

variable {first : Nat}

@[simp] theorem inherited_flags_ALIAS (flags : name_flags) (typemod : name_mods) :
    (inherited_flags flags typemod).ALIAS = false := rfl

@[simp] theorem inherited_flags_INHERITED (flags : name_flags) (typemod : name_mods) :
    (inherited_flags flags typemod).INHERITED = false := rfl

@[simp] theorem inherited_flags_DEF_BY_INHERIT (flags : name_flags) (typemod : name_mods) :
    (inherited_flags flags typemod).DEF_BY_INHERIT = true := rfl

@[simp] theorem inherited_flags_UNDEFINED (flags : name_flags) (typemod : name_mods) :
    (inherited_flags flags typemod).UNDEFINED = true := rfl

@[simp] theorem inherited_flags_PROTOTYPE (flags : name_flags) (typemod : name_mods) :
    (inherited_flags flags typemod).PROTOTYPE = flags.PROTOTYPE := rfl

theorem copied_mono {flags : name_flags} (h : Copied (full ++ [fs]) k i name flags) :
    Copied (full ++ [fs ++ [(n, fl)]]) k i name flags := copied_snoc.2 (.inl h)

theorem copied_other {flags : name_flags} (hn : name ≠ n)
    (h : Copied (full ++ [fs ++ [(n, fl)]]) k i name flags) :
    Copied (full ++ [fs]) k i name flags := by
  rcases copied_snoc.1 h with h | ⟨-, -, rfl, -⟩
  · exact h
  · exact absurd rfl hn

theorem copied_last : Copied (full ++ [fs ++ [(n, fl)]]) full.length fs.length n fl :=
  copied_snoc.2 (.inr ⟨rfl, rfl, rfl, rfl⟩)

theorem not_provides_after (hk : full.length < k) : ¬ Provides (full ++ [fs]) k name := by
  rintro ⟨i, flags, ⟨fs', hfs', -⟩, -⟩
  have := (List.getElem?_eq_some_iff.1 hfs').1
  simp only [length_append, length_singleton] at this
  omega

theorem provides_snoc (h : Provides (full ++ [fs ++ [(n, fl)]]) k name) :
    Provides (full ++ [fs]) k name ∨ (k = full.length ∧ name = n ∧ fl.NO_CODE = false) := by
  obtain ⟨i, flags, hcopied, hcode⟩ := h
  rcases copied_snoc.1 hcopied with hcopied | ⟨hk, -, hn, rfl⟩
  · exact .inl ⟨i, flags, hcopied, hcode⟩
  · exact .inr ⟨hk, hn, hcode⟩

theorem NO_CODE_eq_false {flags : name_flags} :
    flags.NO_CODE = false ↔
      flags.UNDEFINED = false ∧ flags.ALIAS = false ∧ flags.PROTOTYPE = false := by
  simp [name_flags.NO_CODE, and_assoc]

theorem main_copy (h : Overloads (full ++ [fs]) c) (hnone : lookup_ident c n = none)
    (hshown : fl.UNDEFINED = fl.PROTOTYPE) (hfirst : fl.ALIAS = false)
    (hentry : f.entry = .inh full.length fs.length) (hflags : f.flags = inherited_flags fl typemod)
    (hfor : f.alias_for = 1) (hindex : f.u_index = none) :
    Main (full ++ [fs ++ [(n, fl)]]) n f := by
  have hunseen : ∀ k, ¬ Names (full ++ [fs]) k n := by
    intro k hk
    obtain ⟨x, hx⟩ := h.seen k n hk
    simp [hnone] at hx
  have hprovides : ∀ k, Provides (full ++ [fs ++ [(n, fl)]]) k n →
      k = full.length ∧ fl.NO_CODE = false := by
    intro k hk
    rcases provides_snoc hk with ⟨i, flags, hcopied, -⟩ | ⟨hk, -, hcode⟩
    · exact absurd ⟨i, flags, hcopied⟩ (hunseen k)
    · exact ⟨hk, hcode⟩
  refine ⟨by rw [hflags]; rfl, by rw [hflags]; rfl, by omega, ?_⟩
  refine .inherited full.length fs.length fl hentry hindex (by rw [hflags]; rfl)
    (by rw [hflags]; rfl) copied_last ?_ ?_ ?_
  · intro hcode
    rw [hflags, inherited_flags_PROTOTYPE] at hcode
    refine ⟨⟨_, _, copied_last, NO_CODE_eq_false.2 ⟨hshown.trans hcode, hfirst, hcode⟩⟩, ?_⟩
    intro k' hk'
    exact not_provides_after hk'
  · intro hproto k' hk'
    rw [hflags, inherited_flags_PROTOTYPE] at hproto
    have := (NO_CODE_eq_false.1 (hprovides k' hk').2).2.2
    simp [hproto] at this
  · rintro - k' ⟨i, flags, hcopied⟩
    rcases copied_snoc.1 hcopied with hcopied | ⟨hk, -⟩
    · exact absurd ⟨i, flags, hcopied⟩ (hunseen k')
    · exact hk

/-- One more function of a name comes in: a definition replaces what is not one of this
level, and anything else changes the count at most. -/
theorem main_overload {old new : function_t} (hold : Main (full ++ [fs]) n old)
    (hrepeat : fl.ALIAS = true → Names (full ++ [fs]) full.length n)
    (hnew : new = (if fl.ALIAS then
        (if old.flags.UNDEFINED && !fl.NO_CODE then
          { old with
            entry := .inh full.length fs.length
            flags := inherited_flags fl typemod
            u_index := none }
        else old)
      else
        { (if old.flags.UNDEFINED && !fl.NO_CODE then
            { old with
              entry := .inh full.length fs.length
              flags := inherited_flags fl typemod
              u_index := none }
          else old) with
          alias_for := old.alias_for + 1 })) :
    Main (full ++ [fs ++ [(n, fl)]]) n new := by
  have hcounted := hold.counted
  by_cases htake : (old.flags.UNDEFINED && !fl.NO_CODE) = true
  · rw [if_pos htake] at hnew
    simp only [Bool.and_eq_true, Bool.not_eq_true'] at htake
    obtain ⟨-, halias, hproto⟩ := NO_CODE_eq_false.1 htake.2
    rw [halias, if_neg (by simp)] at hnew
    subst hnew
    refine ⟨rfl, rfl, Nat.le_add_left _ _, ?_⟩
    refine .inherited full.length fs.length fl rfl rfl rfl rfl copied_last ?_ ?_ ?_
    · intro _
      refine ⟨⟨_, _, copied_last, htake.2⟩, ?_⟩
      intro k' hk'
      exact not_provides_after hk'
    · simp [inherited_flags_PROTOTYPE, hproto]
    · intro h
      simp only at h
      omega
  · rw [if_neg htake] at hnew
    simp only [Bool.and_eq_true, Bool.not_eq_true', not_and, Bool.not_eq_false] at htake
    have hflags : new.flags = old.flags ∧ new.entry = old.entry ∧ new.u_index = old.u_index := by
      rw [hnew]
      split <;> exact ⟨rfl, rfl, rfl⟩
    have hfor : old.alias_for ≤ new.alias_for ∧
        (fl.ALIAS = false → new.alias_for = old.alias_for + 1) := by
      rw [hnew]
      cases fl.ALIAS <;> simp
    have hprovides : old.flags.UNDEFINED = true → ∀ k,
        Provides (full ++ [fs ++ [(n, fl)]]) k n → Provides (full ++ [fs]) k n := by
      intro hundefined k hk
      rcases provides_snoc hk with hk | ⟨-, -, hcode⟩
      · exact hk
      · simp [htake hundefined] at hcode
    refine ⟨by rw [hflags.1]; exact hold.main, by rw [hflags.1]; exact hold.open_, by omega, ?_⟩
    cases hold.origin with
    | own num_arg num_local num hentry hindex hdef hundefined hnone =>
      refine .own num_arg num_local num (hflags.2.1.trans hentry) (hflags.2.2.trans hindex)
        (by rw [hflags.1]; exact hdef) (by rw [hflags.1]; exact hundefined) ?_
      intro hproto k hk
      rw [hflags.1] at hproto
      exact hnone hproto k (hprovides (hundefined.trans hproto) k hk)
    | inherited k i flags hentry hindex hdef hundefined hcopied hlatest hnone hsingle =>
      refine .inherited k i flags (hflags.2.1.trans hentry) (hflags.2.2.trans hindex)
        (by rw [hflags.1]; exact hdef) (by rw [hflags.1]; exact hundefined) (copied_mono hcopied)
        ?_ ?_ ?_
      · intro hcode
        rw [hflags.1] at hcode
        obtain ⟨⟨j, g, hj, hg⟩, hafter⟩ := hlatest hcode
        refine ⟨⟨j, g, copied_mono hj, hg⟩, ?_⟩
        intro k' hk' hprov
        exact hafter k' hk' (hprovides hundefined k' hprov)
      · intro hproto k' hk'
        rw [hflags.1] at hproto
        exact hnone hproto k' (hprovides hundefined k' hk')
      · rintro hone k' ⟨j, g, hj⟩
        -- the count is still 1, so the function is an alias in its own program
        have halias : fl.ALIAS = true := by
          cases hfl : fl.ALIAS with
          | true => rfl
          | false =>
            have := hfor.2 hfl
            omega
        rcases copied_snoc.1 hj with hj | ⟨rfl, -⟩
        · exact hsingle (by omega) k' ⟨j, g, hj⟩
        · exact hsingle (by omega) _ (hrepeat halias)

def Owned (c : compile_t) (x num : Nat) : Prop :=
  ∃ f, c.table[x]? = some f ∧ f.u_index = some num

theorem overloads_copy_function (h : Overloads (full ++ [fs]) c) (hnone : lookup_ident c n = none)
    (hinherits : c.inherits.length = full.length + 1) (hshown : Shown (fs ++ (n, fl) :: rest)) :
    let c' := copy_function c n fl fs.length typemod
    Overloads (full ++ [fs ++ [(n, fl)]]) c' ∧ Grows c c' ∧ EntryOf c' c.table.length n ∧
      ∀ x num, Owned c' x num → Owned c x num := by
  have hat : (fs ++ (n, fl) :: rest)[fs.length]? = some (n, fl) := by simp
  have hfirst : fl.ALIAS = false := by
    cases halias : fl.ALIAS with
    | false => rfl
    | true =>
      obtain ⟨j, g, hj, hg⟩ := (hshown.alias_iff _ _ _ hat).1 halias
      rw [getElem?_append_left hj] at hg
      have hseen : Names (full ++ [fs]) full.length n :=
        ⟨j, g, fs, by rw [getElem?_concat_length], hg⟩
      obtain ⟨x, hx⟩ := h.seen _ _ hseen
      simp [hnone] at hx
  have hmain : Main (full ++ [fs ++ [(n, fl)]]) n {
      entry := .inh (c.inherits.length - 1) fs.length
      flags := inherited_flags fl typemod
      alias_for := 1
      u_index := none } :=
    main_copy h hnone (hshown.undefined _ _ _ hat hfirst) hfirst
      (by rw [hinherits, Nat.add_sub_cancel]) rfl rfl rfl
  obtain ⟨hoverloads, hgrows⟩ := overloads_new h hnone hmain (fun _ _ _ _ => copied_mono)
    (fun _ _ _ _ => copied_other)
    (show (copy_function c n fl fs.length typemod).table = c.table ++ [_] from rfl) rfl
  refine ⟨hoverloads, hgrows, .inl (by simp [lookup_ident, copy_function]), ?_⟩
  rintro x num ⟨f, hf, hnum⟩
  simp only [copy_function] at hf
  by_cases hx : x < c.table.length
  · rw [getElem?_append_left hx] at hf
    exact ⟨f, hf, hnum⟩
  · rw [getElem?_append_right (by omega)] at hf
    have := mem_of_getElem? hf
    rw [mem_singleton] at this
    subst this
    cases hnum

theorem overloads_overload_function (h : Overloads (full ++ [fs]) c)
    (hx : lookup_ident c n = some x) (hinherits : c.inherits.length = full.length + 1)
    (hshown : Shown (fs ++ (n, fl) :: rest))
    (hc : overload_function c fl fs.length x typemod = some c') :
    Overloads (full ++ [fs ++ [(n, fl)]]) c' ∧ Grows c c' ∧ EntryOf c' c.table.length n ∧
      ∀ y num, Owned c' y num → Owned c y num := by
  obtain ⟨old, hold, hmain⟩ := h.mains n x hx
  have hxlt := (List.getElem?_eq_some_iff.1 hold).1
  unfold overload_function at hc
  rw [hold] at hc
  simp only at hc
  split at hc
  · cases hc
  rw [some.injEq, hinherits, Nat.add_sub_cancel] at hc
  have hat : (fs ++ (n, fl) :: rest)[fs.length]? = some (n, fl) := by simp
  have hrepeat : fl.ALIAS = true → Names (full ++ [fs]) full.length n := by
    intro halias
    obtain ⟨j, g, hj, hg⟩ := (hshown.alias_iff _ _ _ hat).1 halias
    rw [getElem?_append_left hj] at hg
    exact ⟨j, g, fs, by rw [getElem?_concat_length], hg⟩
  set new : function_t := if fl.ALIAS then
      (if old.flags.UNDEFINED && !fl.NO_CODE then
        { old with
          entry := .inh full.length fs.length
          flags := inherited_flags fl typemod
          u_index := none }
      else old)
    else
      { (if old.flags.UNDEFINED && !fl.NO_CODE then
          { old with
            entry := .inh full.length fs.length
            flags := inherited_flags fl typemod
            u_index := none }
        else old) with
        alias_for := old.alias_for + 1 } with hnew
  have hmainnew := main_overload hmain hrepeat hnew
  have htable : c'.table = c.table.set x new ++
      [⟨.inh full.length fs.length, alias_flags, x, none⟩] := by
    rw [← hc, set_append_left _ _ hxlt, hnew]
    split <;> split <;> rfl
  have hidents : c'.idents = c.idents := by rw [← hc]
  obtain ⟨hoverloads, hgrows⟩ := overloads_set h hx hmainnew (fun _ _ _ _ => copied_mono)
    (fun _ _ _ _ => copied_other) (by
      intro g hg
      rw [mem_singleton] at hg
      subst hg
      exact ⟨rfl, rfl, rfl, _, _, _, rfl, copied_last⟩) htable hidents
  have hlookup : lookup_ident c' n = some x := hgrows.lookup n x hx
  have hlast : c'.table[c.table.length]? =
      some ⟨.inh full.length fs.length, alias_flags, x, none⟩ := by
    rw [htable, getElem?_append_right (by rw [length_set]), length_set]
    simp
  refine ⟨hoverloads, hgrows, .inr ⟨_, hlast, rfl, hlookup⟩, ?_⟩
  rintro y num ⟨f, hf, hnum⟩
  rw [htable] at hf
  by_cases hy : y < c.table.length
  · rw [getElem?_append_left (by rwa [length_set])] at hf
    by_cases hyx : y = x
    · subst hyx
      rw [getElem?_set_self hy, some.injEq] at hf
      refine ⟨old, hold, ?_⟩
      rw [← hf, hnew] at hnum
      revert hnum
      split <;> split <;> intro hnum
      · cases hnum
      · exact hnum
      · cases hnum
      · exact hnum
    · rw [getElem?_set_ne (Ne.symm hyx)] at hf
      exact ⟨f, hf, hnum⟩
  · rw [getElem?_append_right (by rw [length_set]; omega)] at hf
    have := mem_of_getElem? hf
    rw [mem_singleton] at this
    subst this
    cases hnum

/-- Each function of the inherit has the entry that its index says. -/
def Placed (c : compile_t) (first : Nat) (fs : List (Nat × name_flags)) : Prop :=
  ∀ (i : Nat) name flags, fs[i]? = some (name, flags) → EntryOf c (first + i) name

theorem Placed.grows (h : Placed c first fs) (hgrows : Grows c c') : Placed c' first fs := by
  intro i name flags hi
  exact hgrows.entry _ _ (h i name flags hi)

theorem Placed.snoc (h : Placed c first fs) (hlast : EntryOf c (first + fs.length) n) :
    Placed c first (fs ++ [(n, fl)]) := by
  intro i name flags hi
  by_cases hlt : i < fs.length
  · rw [getElem?_append_left hlt] at hi
    exact h i name flags hi
  · have hlength := (List.getElem?_eq_some_iff.1 hi).1
    rw [length_append, length_singleton] at hlength
    obtain rfl : i = fs.length := by omega
    rw [getElem?_concat_length, some.injEq, Prod.mk.injEq] at hi
    rwa [← hi.1]

theorem overloads_loop (h : Overloads (full ++ [fs]) c)
    (hinherits : c.inherits.length = full.length + 1) (hshown : Shown (fs ++ rest))
    (hlength : c.table.length = first + fs.length) (hplaced : Placed c first fs)
    (hc : copy_functions_loop typemod rest fs.length c = some c') :
    Overloads (full ++ [fs ++ rest]) c' ∧ Grows c c' ∧ Placed c' first (fs ++ rest) ∧
      (∀ x num, Owned c' x num → Owned c x num) ∧ c'.inherits = c.inherits ∧
      c'.num_compiler_functions = c.num_compiler_functions := by
  induction rest generalizing fs c with
  | nil =>
    cases hc
    rw [append_nil]
    exact ⟨h, Grows.refl _, hplaced, fun _ _ h => h, rfl, rfl⟩
  | cons function rest ih =>
    obtain ⟨n, fl⟩ := function
    have hstep : ∀ d : compile_t, Overloads (full ++ [fs ++ [(n, fl)]]) d → Grows c d →
        EntryOf d c.table.length n → (∀ x num, Owned d x num → Owned c x num) →
        d.inherits = c.inherits → d.table.length = c.table.length + 1 →
        d.num_compiler_functions = c.num_compiler_functions →
        copy_functions_loop typemod rest (fs.length + 1) d = some c' →
        Overloads (full ++ [fs ++ (n, fl) :: rest]) c' ∧ Grows c c' ∧
          Placed c' first (fs ++ (n, fl) :: rest) ∧
          (∀ x num, Owned c' x num → Owned c x num) ∧ c'.inherits = c.inherits ∧
          c'.num_compiler_functions = c.num_compiler_functions := by
      intro d hd hgrows hentry howned hinh hlen hnum hloop
      have happend : fs ++ (n, fl) :: rest = fs ++ [(n, fl)] ++ rest := by simp
      rw [happend] at hshown ⊢
      have hone : (fs ++ [(n, fl)]).length = fs.length + 1 := by simp
      rw [← hone] at hloop
      rw [hlength] at hentry
      obtain ⟨h1, h2, h3, h4, h5, h6⟩ := ih hd (by rw [hinh, hinherits]) hshown
        (by rw [hlen, hlength, hone]; omega) ((hplaced.grows hgrows).snoc hentry) hloop
      exact ⟨h1, hgrows.trans h2, h3, fun x num hx => howned x num (h4 x num hx), h5.trans hinh,
        h6.trans hnum⟩
    unfold copy_functions_loop at hc
    split at hc
    · rename_i x hx
      split at hc
      · rename_i d hd
        obtain ⟨h1, h2, h3, h4⟩ := overloads_overload_function h hx hinherits hshown hd
        unfold overload_function at hd
        split at hd
        · cases hd
        split at hd
        · cases hd
        rw [some.injEq] at hd
        refine hstep d h1 h2 h3 h4 ?_ ?_ ?_ hc
        · rw [← hd]
        · rw [← hd]
          simp
        · rw [← hd]
      · cases hc
    · rename_i hnone
      obtain ⟨h1, h2, h3, h4⟩ := overloads_copy_function h hnone hinherits hshown
      exact hstep _ h1 h2 h3 h4 rfl (by simp [copy_function]) rfl hc

theorem Overloads.congr {fss fss' : List (List (Nat × name_flags))} (h : Overloads fss c)
    (hsame : ∀ k i name flags, Copied fss' k i name flags ↔ Copied fss k i name flags)
    (htable : c'.table = c.table) (hidents : c'.idents = c.idents) : Overloads fss' c' := by
  have hlookup : ∀ n, lookup_ident c' n = lookup_ident c n := by
    intro n
    rw [lookup_ident, lookup_ident, hidents]
  refine ⟨?_, ?_, ?_, ?_, ?_⟩
  · intro n y hy
    rw [hlookup] at hy
    rw [htable]
    obtain ⟨g, hg, hmain⟩ := h.mains n y hy
    exact ⟨g, hg, { hmain with origin := hmain.origin.congr fun k i flags => hsame k i n flags }⟩
  · intro n n' y hy hy'
    rw [hlookup] at hy hy'
    exact h.once n n' y hy hy'
  · rintro k n ⟨i, flags, hcopied⟩
    rw [hlookup]
    exact h.seen k n ⟨i, flags, (hsame k i n flags).1 hcopied⟩
  · intro y g hg halias
    rw [htable] at hg
    simp only [hlookup]
    exact h.known y g hg halias
  · intro y g hg halias
    rw [htable] at hg
    have hentry := h.aliases y g hg halias
    obtain ⟨k, i, n, flags, hinh, hcopied, hn⟩ := hentry.copy
    exact { hentry with
      copy := ⟨k, i, n, flags, hinh, (hsame k i n flags).2 hcopied, (hlookup n).trans hn⟩ }

def copies (inherits : List inherit_t) : List (List (Nat × name_flags)) :=
  inherits.map fun ip => ip.prog.copied

theorem overloads_inherit {prog : inherited_t} {type_mod : name_mods}
    (h : Overloads (copies c.inherits) c) (hshown : Shown prog.copied)
    (hc : compiler.inherit c prog type_mod = some c') :
    Overloads (copies c'.inherits) c' ∧ Grows c c' ∧
      Placed c' c.table.length prog.copied ∧ (∀ x num, Owned c' x num → Owned c x num) ∧
      c'.inherits = c.inherits ++ [⟨prog, c.table.length, type_mod⟩] ∧
      c'.num_compiler_functions = c.num_compiler_functions := by
  set start : compile_t :=
    { c with inherits := c.inherits ++ [⟨prog, c.table.length, type_mod⟩] } with hstart
  have hbegin : Overloads (copies c.inherits ++ [[]]) start :=
    h.congr (fun _ _ _ _ => copied_nil) rfl rfl
  have hinherits : start.inherits.length = (copies c.inherits).length + 1 := by
    simp [hstart, copies]
  have hplaced : Placed start c.table.length [] := fun i name flags hi => by simp at hi
  have hloop : copy_functions_loop type_mod prog.copied
      ([] : List (Nat × name_flags)).length start = some c' := hc
  obtain ⟨h1, h2, h3, h4, h5, h6⟩ :=
    overloads_loop hbegin hinherits hshown rfl hplaced hloop
  refine ⟨?_, ⟨h2.lookup, h2.entry⟩, h3, h4, h5, h6⟩
  have hcopies : copies c'.inherits = copies c.inherits ++ [[] ++ prog.copied] := by
    rw [h5]
    simp [hstart, copies]
  rwa [hcopies]

/-! ## Local functions -/

theorem overloads_define {fss : List (List (Nat × name_flags))} {d : declaration_t}
    (h : Overloads fss c) (hc : define_new_function c d = some c') :
    Overloads fss c' ∧ Grows c c' ∧ c'.inherits = c.inherits ∧
      ((d.prototype = true ∧ c' = c) ∨
        ∃ x num, lookup_ident c' d.name = some x ∧ Owned c' x num ∧
          ((Owned c x num ∧ d.prototype = false ∧
              c'.num_compiler_functions = c.num_compiler_functions) ∨
            (num = c.num_compiler_functions ∧
              c'.num_compiler_functions = c.num_compiler_functions + 1)) ∧
          ∀ y m, Owned c' y m → (y = x ∧ m = num) ∨ (y ≠ x ∧ Owned c y m)) := by
  unfold define_new_function at hc
  split at hc
  · rename_i x hx
    obtain ⟨old, hold, hmain⟩ := h.mains _ x hx
    have hxlt := (List.getElem?_eq_some_iff.1 hold).1
    simp only [hold] at hc
    split at hc
    · cases hc
    split at hc
    · cases hc
    split at hc
    · rename_i hproto
      cases hc
      exact ⟨h, Grows.refl _, rfl, .inl ⟨hproto, rfl⟩⟩
    · rename_i hproto
      rw [Bool.not_eq_true] at hproto
      rw [some.injEq] at hc
      set num := old.u_index.getD c.num_compiler_functions with hnum
      set new : function_t := ⟨.def_ d.num_arg d.num_local num,
        ⟨false, d.prototype, d.exact_types, d.prototype, false, false, d.true_varargs, d.type⟩,
        old.alias_for + 1, some num⟩ with hnew
      have hmainnew : Main fss d.name new := by
        refine ⟨rfl, rfl, Nat.le_add_left _ _, .own _ _ _ rfl rfl rfl rfl ?_⟩
        simp [hnew, hproto]
      have htable : c'.table = c.table.set x new ++ [] := by
        rw [← hc, append_nil]
      obtain ⟨hoverloads, hgrows⟩ := overloads_set h hx hmainnew (fun _ _ _ _ => id)
        (fun _ _ _ _ _ => id) (by simp) htable (by rw [← hc])
      rw [append_nil] at htable
      have howned : Owned c' x num := ⟨new, by rw [htable, getElem?_set_self hxlt], rfl⟩
      refine ⟨hoverloads, hgrows, by rw [← hc], .inr ⟨x, num, hgrows.lookup _ _ hx, howned, ?_, ?_⟩⟩
      · cases hindex : old.u_index with
        | some m =>
          refine .inl ⟨⟨old, hold, ?_⟩, hproto, ?_⟩
          · rw [hnum, hindex, getD_some]
          · rw [← hc, hindex, isSome_some, if_pos rfl]
        | none =>
          refine .inr ⟨?_, ?_⟩
          · rw [hnum, hindex, getD_none]
          · rw [← hc, hindex, isSome_none, if_neg (by simp)]
      · rintro y m ⟨f, hf, hm⟩
        rw [htable] at hf
        by_cases hyx : y = x
        · subst hyx
          rw [getElem?_set_self hxlt, some.injEq] at hf
          rw [← hf, hnew, some.injEq] at hm
          exact .inl ⟨rfl, hm.symm⟩
        · rw [getElem?_set_ne (Ne.symm hyx)] at hf
          exact .inr ⟨hyx, f, hf, hm⟩
  · rename_i hnone
    rw [some.injEq] at hc
    set new : function_t := ⟨.def_ d.num_arg d.num_local c.num_compiler_functions,
      ⟨false, d.prototype, d.exact_types, d.prototype, false, false, d.true_varargs, d.type⟩,
      1, some c.num_compiler_functions⟩ with hnew
    have hmainnew : Main fss d.name new := by
      refine ⟨rfl, rfl, Nat.le_refl _, .own _ _ _ rfl rfl rfl rfl ?_⟩
      rintro - k ⟨i, flags, hcopied, -⟩
      obtain ⟨x, hx⟩ := h.seen k _ ⟨i, flags, hcopied⟩
      simp [hnone] at hx
    have htable : c'.table = c.table ++ [new] := by rw [← hc]
    obtain ⟨hoverloads, hgrows⟩ := overloads_new h hnone hmainnew (fun _ _ _ _ => id)
      (fun _ _ _ _ _ => id) htable (by rw [← hc])
    have hlast : c'.table[c.table.length]? = some new := by
      rw [htable, getElem?_concat_length]
    refine ⟨hoverloads, hgrows, by rw [← hc], .inr ⟨c.table.length, c.num_compiler_functions,
      by rw [← hc]; simp [lookup_ident], ⟨new, hlast, rfl⟩, .inr ⟨rfl, by rw [← hc]⟩, ?_⟩⟩
    rintro y m ⟨f, hf, hm⟩
    by_cases hy : y < c.table.length
    · rw [htable, getElem?_append_left hy] at hf
      exact .inr ⟨Nat.ne_of_lt hy, f, hf, hm⟩
    · have hlt := (List.getElem?_eq_some_iff.1 hf).1
      rw [htable, length_append, length_singleton] at hlt
      obtain rfl : y = c.table.length := by omega
      rw [hlast, some.injEq] at hf
      rw [← hf, hnew, some.injEq] at hm
      exact .inl ⟨rfl, hm.symm⟩

end

/-! ## The end of the compilation -/

def marked (f : function_t) : function_t :=
  { f with
    flags :=
      if f.flags.UNDEFINED && f.flags.DEF_BY_INHERIT then
        { f.flags with
          UNDEFINED := f.flags.PROTOTYPE || f.flags.ALIAS
          INHERITED := true }
      else f.flags }

def aliased (which f : function_t) : function_t :=
  if !which.flags.INHERITED || 2 ≤ which.alias_for then
    { f with entry := which.entry, flags := { which.flags with ALIAS := true } }
  else f

def finished (table : List function_t) (x : Nat) : Option function_t :=
  match table[x]? with
  | none => none
  | some f =>
    if f.flags.ALIAS then (table[f.alias_for]?.map fun g => aliased (marked g) f)
    else some (marked f)

section

variable {fss : List (List (Nat × name_flags))} {c : compile_t}

theorem epilog_entries (h : Overloads fss c) (m : Nat) (hm : m ≤ c.table.length) :
    let table := (List.range m).foldl epilog_entry c.table
    (∀ (x : Nat), x < m → table[x]? = finished c.table x) ∧
      ∀ (x : Nat), m ≤ x → table[x]? = c.table[x]? := by
  induction m with
  | zero => exact ⟨fun x hx => absurd hx (Nat.not_lt_zero x), fun _ _ => rfl⟩
  | succ m ih =>
    obtain ⟨hdone, hrest⟩ := ih (Nat.le_of_succ_le hm)
    rw [range_succ, foldl_append]
    set table := (List.range m).foldl epilog_entry c.table with htable
    have hget : c.table[m]? = some c.table[m] := getElem?_eq_getElem hm
    generalize c.table[m] = f at hget
    have hf : table[m]? = some f := (hrest m (Nat.le_refl _)).trans hget
    have hlt := (List.getElem?_eq_some_iff.1 hf).1
    have hstep : ∃ new, epilog_entry table m = table.set m new ∧
        finished c.table m = some new := by
      unfold epilog_entry finished
      rw [hf, hget]
      simp only
      cases halias : f.flags.ALIAS with
      | false =>
        refine ⟨marked f, ?_, rfl⟩
        simp [marked, halias]
      | true =>
        have hentry := h.aliases m f hget halias
        obtain ⟨k, i, name, flags, -, -, hname⟩ := hentry.copy
        obtain ⟨g, hg, hmain⟩ := h.mains _ _ hname
        have hmarked : table[f.alias_for]? = some (marked g) := by
          rw [hdone _ hentry.before, finished, hg]
          simp [hmain.main]
        refine ⟨aliased (marked g) f, ?_, by rw [if_pos rfl, hg, map_some]⟩
        have hne : m ≠ f.alias_for := Nat.ne_of_gt hentry.before
        simp only [if_true, hentry.flags, alias_flags, Bool.false_and, Bool.false_eq_true,
          if_false]
        rw [getElem?_set_ne hne, hmarked]
        simp only [aliased, set_set]
        split
        · rfl
        · congr 1
          rw [← alias_flags, ← hentry.flags]
    obtain ⟨new, hnew, hfinished⟩ := hstep
    simp only [foldl_cons, foldl_nil, hnew]
    refine ⟨?_, ?_⟩
    · intro x hx
      rcases Nat.lt_succ_iff_lt_or_eq.1 hx with hx | rfl
      · rw [getElem?_set_ne (Nat.ne_of_gt hx), hdone x hx]
      · rw [getElem?_set_self hlt, hfinished]
    · intro x hx
      rw [getElem?_set_ne (by omega), hrest x (by omega)]

theorem length_epilog_table (table : List function_t) :
    (epilog_table table).length = table.length := by
  unfold epilog_table
  generalize List.range table.length = is
  induction is generalizing table with
  | nil => rfl
  | cons i is ih => rw [foldl_cons, ih, length_epilog_entry]

theorem epilog_table_at (h : Overloads fss c) (x : Nat) :
    (epilog_table c.table)[x]? = finished c.table x := by
  by_cases hx : x < c.table.length
  · exact (epilog_entries h _ (Nat.le_refl _)).1 x hx
  · rw [getElem?_eq_none (by rw [length_epilog_table]; omega), finished,
      getElem?_eq_none (by omega)]

end

end mudos.compiler
