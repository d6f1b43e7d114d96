-- The laws of the programs that the compiler makes: every index of a program leads the
-- interpreter to the definition that the program gives the name of that index.
import MudOS.InheritedCalls
import MudOS.InheritedTableLaws

open mudos.runs List
open mudos.compiler
open mudos.program (found_t setup_new_frame frame_in_inherit frame_in_inherit_slot function_at)

namespace mudos.inherited_calls

/-! ## The interpreter's walk -/

def walk (prog : program_t) (index : Nat) : Option found_t :=
  setup_new_frame prog.addr prog.run_time index

def name_at (prog : program_t) (index : Nat) : Option Nat :=
  (function_at prog.run_time index).map program.compiler_function_t.name

theorem setup_new_frame_addr (a b : Nat) (prog : program.program_t) (index : Nat) :
    (setup_new_frame a prog index).map (fun r => (r.prog, r.index)) =
      (setup_new_frame b prog index).map fun r => (r.prog, r.index) := by
  obtain ⟨id, function_table, function_flags, function_offsets, inherit⟩ := prog
  rw [setup_new_frame, setup_new_frame]
  split
  · rfl
  · split <;> rfl
  · rfl

theorem name_at_eq (prog : program_t) (index : Nat) :
    name_at prog index = (walk prog index).bind fun r =>
      (r.prog.function_table[r.index]?).map program.compiler_function_t.name := by
  have h := setup_new_frame_addr 0 prog.addr prog.run_time index
  unfold name_at function_at walk
  cases h0 : setup_new_frame 0 prog.run_time index with
  | none =>
    rw [h0] at h
    cases h1 : setup_new_frame prog.addr prog.run_time index with
    | none => rfl
    | some r =>
      simp [h1] at h
  | some r0 =>
    rw [h0] at h
    cases h1 : setup_new_frame prog.addr prog.run_time index with
    | none =>
      simp [h1] at h
    | some r =>
      rw [h1] at h
      simp only [Option.map_some, Option.some.injEq, Prod.mk.injEq] at h
      simp [h.1, h.2]

theorem run_time_inherit_eq (inherit : List (program_t × Nat × Nat × name_mods)) :
    run_time_inherit inherit =
      inherit.map fun ip => (ip.1.addr, ip.1.run_time, ip.2.1, ip.2.2.1) := by
  induction inherit with
  | nil => rfl
  | cons ip inherit ih =>
    obtain ⟨prog, fio, vio, type_mod⟩ := ip
    rw [run_time_inherit, ih, map_cons]

/-- The place in an inherited program, seen from the program that inherits it. -/
def from_inherit (ip : program_t × Nat × Nat × name_mods) (r : found_t) : found_t :=
  { r with
    fio := r.fio + ip.2.1
    vio := r.vio + ip.2.2.1 }

theorem frame_in_inherit_walk {inherit : List (program_t × Nat × Nat × name_mods)} {k : Nat}
    {ip : program_t × Nat × Nat × name_mods} (hk : inherit[k]? = some ip) (index : Nat) :
    frame_in_inherit (run_time_inherit inherit) k index =
      (walk ip.1 index).map (from_inherit ip) := by
  rw [frame_in_inherit_slot, run_time_inherit_eq, getElem?_map, hk]
  rfl

/-! ## The search -/

def before (init : Nat) (f g : program.compiler_function_t) : Prop :=
  f.name ≠ init ∧ (g.name = init ∨ f.name < g.name)

section

variable {init name : Nat} {function_table : List program.compiler_function_t}

theorem search_cases (hsorted : function_table.Pairwise (before init)) (hname : name ≠ init)
    {fuel : Nat} {low high : Int} (hlow : 0 ≤ low) (hhigh : high < function_table.length)
    (hfuel : high - low + 1 < fuel)
    (hinside : ∀ (i : Nat) f, function_table[i]? = some f → f.name = name →
      low ≤ i ∧ (i : Int) ≤ high) :
    match program.search function_table name fuel low high with
    | some mid => ∃ f, function_table[mid]? = some f ∧ f.name = name
    | none => ∀ (i : Nat) f, function_table[i]? = some f → f.name ≠ name := by
  have hpair : ∀ (i j : Nat) f g, i < j → function_table[i]? = some f →
      function_table[j]? = some g → before init f g := by
    intro i j f g hij hf hg
    obtain ⟨hi, rfl⟩ := List.getElem?_eq_some_iff.1 hf
    obtain ⟨hj, rfl⟩ := List.getElem?_eq_some_iff.1 hg
    exact pairwise_iff_getElem.1 hsorted i j hi hj hij
  induction fuel generalizing low high with
  | zero =>
    intro i f hf hfn
    have := hinside i f hf hfn
    omega
  | succ fuel ih =>
    unfold program.search
    by_cases hle : high ≥ low
    · rw [if_pos hle]
      have hmid : ((high + low) / 2).toNat < function_table.length := by omega
      have hget := getElem?_eq_getElem hmid
      generalize function_table[((high + low) / 2).toNat] = f at hget
      simp only [hget]
      by_cases hlt : name < f.name
      · rw [if_pos hlt]
        refine ih hlow (by omega) (by omega) ?_
        intro i g hg hgn
        obtain ⟨h1, h2⟩ := hinside i g hg hgn
        refine ⟨h1, ?_⟩
        rcases Nat.lt_trichotomy i ((high + low) / 2).toNat with hi | hi | hi
        · omega
        · rw [hi, hget, Option.some.injEq] at hg
          rw [hg] at hlt
          omega
        · obtain ⟨-, hfg⟩ := hpair _ _ f g hi hget hg
          rw [hgn] at hfg
          rcases hfg with h | h
          · exact absurd h hname
          · omega
      · rw [if_neg hlt]
        by_cases hgt : name > f.name
        · rw [if_pos hgt]
          refine ih (by omega) hhigh (by omega) ?_
          intro i g hg hgn
          obtain ⟨h1, h2⟩ := hinside i g hg hgn
          refine ⟨?_, h2⟩
          rcases Nat.lt_trichotomy i ((high + low) / 2).toNat with hi | hi | hi
          · obtain ⟨-, hgf⟩ := hpair i _ g f hi hg hget
            rw [hgn] at hgf
            rcases hgf with h | h
            · -- the last function is the middle one only when it is the only one left
              have hlast : ¬ ((high + low) / 2).toNat + 1 < function_table.length := by
                intro hnext
                exact (hpair _ _ f _ (Nat.lt_succ_self _) hget
                  (getElem?_eq_getElem hnext)).1 h
              omega
            · omega
          · rw [hi, hget, Option.some.injEq] at hg
            rw [hg] at hgt
            omega
          · omega
        · rw [if_neg hgt]
          exact ⟨f, hget, by omega⟩
    · rw [if_neg hle]
      intro i f hf hfn
      have := hinside i f hf hfn
      omega

theorem search_eq (hsorted : function_table.Pairwise (before init)) (hname : name ≠ init) :
    program.search function_table name (function_table.length + 1) 0
        (function_table.length - 1) =
      function_table.findIdx? fun f => f.name == name := by
  have hhigh : (function_table.length : Int) - 1 < function_table.length := by omega
  have hfuel : (function_table.length : Int) - 1 - 0 + 1 < (function_table.length + 1 : Nat) := by
    omega
  have hcases := search_cases hsorted hname (Int.le_refl 0) hhigh hfuel (by
      intro i f hf _
      have := (List.getElem?_eq_some_iff.1 hf).1
      omega)
  have honce : ∀ (i j : Nat) f g, i < j → function_table[i]? = some f →
      function_table[j]? = some g → f.name = name → g.name ≠ name := by
    intro i j f g hij hf hg hfn hgn
    obtain ⟨hi, rfl⟩ := List.getElem?_eq_some_iff.1 hf
    obtain ⟨hj, rfl⟩ := List.getElem?_eq_some_iff.1 hg
    obtain ⟨-, h⟩ := pairwise_iff_getElem.1 hsorted i j hi hj hij
    rw [hfn, hgn] at h
    rcases h with h | h
    · exact hname h
    · omega
  split at hcases
  · rename_i mid hmid
    obtain ⟨f, hf, hfn⟩ := hcases
    rw [hmid, eq_comm, findIdx?_eq_some_iff_getElem]
    obtain ⟨hlt, hget⟩ := List.getElem?_eq_some_iff.1 hf
    refine ⟨hlt, by rw [hget, hfn, beq_self_eq_true], ?_⟩
    intro j hj
    have hgj := getElem?_eq_getElem (Nat.lt_trans hj hlt)
    rw [beq_iff_eq]
    intro hjn
    exact honce j mid _ f hj hgj hf hjn hfn
  · rename_i hnone
    rw [hnone, eq_comm, findIdx?_eq_none_iff]
    intro f hf
    obtain ⟨i, hi, rfl⟩ := mem_iff_getElem.1 hf
    exact beq_false_of_ne (hcases i _ (getElem?_eq_getElem hi))

end

/-! ## The compilation -/

/-- What the compiler knows of a program, and of those that it inherits. -/
structure Built (init : Nat) (s : source_t) : Prop where
  overloads : Overloads (copies s.c.inherits) s.c
  inherits : s.c.inherits = s.inherit.map fun ip => ⟨inherited init ip.1, ip.2.1, ip.2.2.2⟩
  placed : ∀ (k : Nat) ip, s.inherit[k]? = some ip →
    Placed s.c ip.2.1 (inherited init ip.1).copied
  length : s.functions.length = s.c.num_compiler_functions
  functions : ∀ x num, Owned s.c x num → ∃ f, s.functions[num]? = some f ∧
    f.runtime_index = x ∧ lookup_ident s.c f.name = some x
  short : s.c.table.length ≤ USHRT_MAX

structure Inheritable (init : Nat) (prog : program_t) : Prop where
  shown : Shown (inherited init prog).copied
  ordinary : ∀ (i : Nat) name flags, (inherited init prog).copied[i]? = some (name, flags) →
    name ≠ init

section

variable {init : Nat} {s s' : source_t}

theorem step_eq {c c' : compile_t} {a : compiler.Statement} (h : c.step a = some c') :
    (match a with
      | .inherit prog type_mod => compiler.inherit c prog type_mod
      | .function d => define_new_function c d) = some c' ∧ c'.table.length ≤ USHRT_MAX := by
  unfold compile_t.step at h
  cases a with
  | inherit prog type_mod =>
    simp only at h
    split at h
    · rename_i d hd
      split at h
      · cases h
        exact ⟨hd, by assumption⟩
      · cases h
    · cases h
  | function d =>
    simp only at h
    split at h
    · rename_i e he
      split at h
      · cases h
        exact ⟨he, by assumption⟩
      · cases h
    · cases h

theorem built_inherit {prog : program_t} {vio : Nat} {type_mod : name_mods} (h : Built init s)
    (hprog : Shown (inherited init prog).copied)
    (hstep : s.step init (.inherit prog vio type_mod) = some s') : Built init s' := by
  simp only [source_t.step, Option.map_eq_some_iff] at hstep
  obtain ⟨c, hc, rfl⟩ := hstep
  obtain ⟨hinherit, hshort⟩ := step_eq hc
  obtain ⟨h1, h2, h3, h4, h5, h6⟩ := overloads_inherit h.overloads hprog hinherit
  refine ⟨h1, ?_, ?_, h.length.trans h6.symm, ?_, hshort⟩
  · rw [h5, h.inherits, map_append]
    rfl
  · intro k ip hk
    rcases Nat.lt_or_ge k s.inherit.length with hlt | hge
    · rw [getElem?_append_left hlt] at hk
      exact (h.placed k ip hk).grows h2
    · rw [getElem?_append_right hge] at hk
      have hmem := mem_of_getElem? hk
      rw [mem_singleton] at hmem
      subst hmem
      exact h3
  · intro x num howned
    obtain ⟨f, hf, hindex, hname⟩ := h.functions x num (h4 x num howned)
    exact ⟨f, hf, hindex, h2.lookup _ _ hname⟩

theorem put_at {functions : List compiler_function_t} {num : Nat} {g : compiler_function_t}
    (hnum : num ≤ functions.length) :
    (functions.take num ++ g :: functions.drop (num + 1))[num]? = some g ∧
      (∀ (m : Nat), m ≠ num → m < functions.length →
        (functions.take num ++ g :: functions.drop (num + 1))[m]? = functions[m]?) ∧
      (functions.take num ++ g :: functions.drop (num + 1)).length =
        if num = functions.length then functions.length + 1 else functions.length := by
  have htake : (functions.take num).length = num := by
    rw [length_take]
    omega
  refine ⟨?_, ?_, ?_⟩
  · rw [getElem?_append_right (by omega), htake, Nat.sub_self]
    rfl
  · intro m hne hm
    rcases Nat.lt_or_gt_of_ne hne with hlt | hgt
    · rw [getElem?_append_left (by omega), getElem?_take_of_lt hlt]
    · rw [getElem?_append_right (by omega), htake]
      obtain ⟨k, rfl⟩ : ∃ k, m = num + 1 + k := ⟨m - (num + 1), by omega⟩
      rw [show num + 1 + k - num = k + 1 by omega, getElem?_cons_succ, getElem?_drop]
  · rw [length_append, htake, length_cons, length_drop]
    split <;> omega

theorem built_function {d : declaration_t} {type : Nat} (h : Built init s)
    (hstep : s.step init (.function d type) = some s') :
    Built init s' ∧ Grows s.c s'.c ∧ s'.inherit = s.inherit := by
  simp only [source_t.step, Option.map_eq_some_iff] at hstep
  obtain ⟨c, hc, rfl⟩ := hstep
  obtain ⟨hdefine, hshort⟩ := step_eq hc
  obtain ⟨h1, h2, h3, h4⟩ := overloads_define h.overloads hdefine
  have hplaced : ∀ (k : Nat) ip, s.inherit[k]? = some ip →
      Placed c ip.2.1 (inherited init ip.1).copied := fun k ip hk => (h.placed k ip hk).grows h2
  rw [← h3] at h1
  refine ⟨?_, h2, rfl⟩
  -- nothing is written when there is nothing to define
  have hbelow : ∀ x num, Owned s.c x num → num < s.c.num_compiler_functions := by
    intro x num howned
    obtain ⟨f, hf, -⟩ := h.functions x num howned
    rw [← h.length]
    exact (List.getElem?_eq_some_iff.1 hf).1
  rcases h4 with ⟨hproto, rfl⟩ | ⟨x, num, hx, howned, hwhich, hothers⟩
  · have hput : put_function s.c s.c d type s.functions = s.functions := by
      unfold put_function
      split
      · rfl
      · rename_i x hx
        split
        · rfl
        · rename_i num hnum
          obtain ⟨f, hf, hindex⟩ := Option.bind_eq_some_iff.1 hnum
          rw [hproto, Bool.true_and, decide_eq_true (hbelow x num ⟨f, hf, hindex⟩), if_pos rfl]
    refine ⟨h1, h.inherits, hplaced, ?_, ?_, hshort⟩
    · simp only [hput]
      exact h.length
    · simp only [hput]
      exact h.functions
  · have hput : put_function s.c c d type s.functions =
        s.functions.take num ++ ⟨⟨d.name, x⟩, type⟩ :: s.functions.drop (num + 1) := by
      obtain ⟨f, hf, hindex⟩ := howned
      unfold put_function
      rw [hx]
      simp only [hf, Option.bind_some, hindex]
      rw [if_neg]
      rcases hwhich with ⟨-, hproto, -⟩ | ⟨rfl, -⟩
      · rw [hproto]
        simp
      · simp
    have hnum : num ≤ s.functions.length := by
      rw [h.length]
      rcases hwhich with ⟨hold, -⟩ | ⟨rfl, -⟩
      · exact Nat.le_of_lt (hbelow x num hold)
      · exact Nat.le_refl _
    obtain ⟨hat, hother, hlength⟩ := put_at (g := ⟨⟨d.name, x⟩, type⟩) hnum
    refine ⟨h1, h3.trans h.inherits, hplaced, ?_, ?_, hshort⟩
    · simp only [hput, hlength, h.length]
      rcases hwhich with ⟨hold, -, hcount⟩ | ⟨rfl, hcount⟩
      · rw [if_neg (Nat.ne_of_lt (hbelow x num hold)), hcount]
      · rw [if_pos rfl, hcount]
    · simp only [hput]
      intro y m hy
      rcases hothers y m hy with ⟨rfl, rfl⟩ | ⟨hyx, hold⟩
      · exact ⟨_, hat, rfl, hx⟩
      · obtain ⟨f, hf, hindex, hname⟩ := h.functions y m hold
        have hne : m ≠ num := by
          rintro rfl
          rcases hwhich with ⟨holdx, -⟩ | ⟨rfl, -⟩
          · obtain ⟨g, hg, hindexg, -⟩ := h.functions x m holdx
            rw [hf, Option.some.injEq] at hg
            rw [hg] at hindex
            exact hyx (hindex.symm.trans hindexg)
          · exact absurd (hbelow y _ hold) (Nat.lt_irrefl _)
        refine ⟨f, ?_, hindex, h2.lookup _ _ hname⟩
        rw [hother m hne (List.getElem?_eq_some_iff.1 hf).1, hf]

theorem init_not_known (h : Built init s) (hinherit : ∀ ip ∈ s.inherit, Inheritable init ip.1)
    (hordinary : ∀ f ∈ s.functions, f.name ≠ init) : lookup_ident s.c init = none := by
  cases hx : lookup_ident s.c init with
  | none => rfl
  | some x =>
    obtain ⟨f, hf, hmain⟩ := h.overloads.mains init x hx
    cases hmain.origin with
    | own num_arg num_local num hentry hindex hdef hundefined hnone =>
      obtain ⟨g, hg, -, hname⟩ := h.functions x num ⟨f, hf, hindex⟩
      have hsame := h.overloads.once _ _ x hname hx
      exact absurd hsame (hordinary g (mem_of_getElem? hg))
    | inherited k i flags hentry hindex hdef hundefined hcopied hlatest hnone hsingle =>
      obtain ⟨fs, hfs, hi⟩ := hcopied
      rw [copies, h.inherits, map_map, getElem?_map, Option.map_eq_some_iff] at hfs
      obtain ⟨ip, hip, rfl⟩ := hfs
      exact absurd rfl ((hinherit ip (mem_of_getElem? hip)).ordinary i init flags hi)

theorem put_function_mem {c c' : compile_t} {d : declaration_t} {type : Nat}
    {functions : List compiler_function_t} {f : compiler_function_t}
    (h : f ∈ put_function c c' d type functions) : f ∈ functions ∨ f.name = d.name := by
  unfold put_function at h
  split at h
  · exact .inl h
  split at h
  · exact .inl h
  split at h
  · exact .inl h
  rcases mem_append.1 h with h | h
  · exact .inl (mem_of_mem_take h)
  · rcases mem_cons.1 h with rfl | h
    · exact .inr rfl
    · exact .inl (mem_of_mem_drop h)

theorem reachable_built
    (h : Reachable source_t.start (source_t.step init) (ordinary init) s) :
    (∀ ip ∈ s.inherit, Inheritable init ip.1) →
      Built init s ∧ ∀ f ∈ s.functions, f.name ≠ init := by
  induction h with
  | start =>
    intro _
    refine ⟨⟨⟨?_, ?_, ?_, ?_, ?_⟩, rfl, ?_, rfl, ?_, Nat.zero_le _⟩, ?_⟩
    · intro name x hx
      cases hx
    · intro name name' x hx
      cases hx
    · rintro k name ⟨i, flags, fs, hfs, -⟩
      simp [source_t.start, compile_t.start, copies] at hfs
    · intro x f hf
      simp [source_t.start, compile_t.start] at hf
    · intro x f hf
      simp [source_t.start, compile_t.start] at hf
    · intro k ip hk
      simp [source_t.start] at hk
    · rintro x num ⟨f, hf, -⟩
      simp [source_t.start, compile_t.start] at hf
    · intro f hf
      cases hf
  | @step s s' a _ hok hstep ih =>
    intro hinherit
    cases a with
    | inherit prog vio type_mod =>
      have hsource := hstep
      simp only [source_t.step, Option.map_eq_some_iff] at hsource
      obtain ⟨c, -, rfl⟩ := hsource
      obtain ⟨hbuilt, hordinary⟩ := ih fun ip hip => hinherit ip (mem_append_left _ hip)
      have hprog := hinherit (prog, s.c.table.length, vio, type_mod) (by simp)
      exact ⟨built_inherit hbuilt hprog.shown hstep, hordinary⟩
    | function d type =>
      have hsource := hstep
      simp only [source_t.step, Option.map_eq_some_iff] at hsource
      obtain ⟨c, -, rfl⟩ := hsource
      obtain ⟨hbuilt, hordinary⟩ := ih hinherit
      refine ⟨(built_function hbuilt hstep).1, ?_⟩
      intro f hf
      rcases put_function_mem hf with hf | hname
      · exact hordinary f hf
      · rwa [hname]

/-- The compilation that `epilog` finishes: `__INIT` has the last entry, if it has one. -/
structure Complete (init : Nat) (s : source_t) : Prop extends Built init s where
  init_last : ∀ x, lookup_ident s.c init = some x → x + 1 = s.c.table.length
  compiles : Compiles s.c

theorem step_compiles {a : Statement} (h : Compiles s.c) (hstep : s.step init a = some s') :
    Compiles s'.c := by
  cases a with
  | inherit prog vio type_mod =>
    simp only [source_t.step, Option.map_eq_some_iff] at hstep
    obtain ⟨c, hc, rfl⟩ := hstep
    exact inherit_compiles h (step_eq hc).1
  | function d type =>
    simp only [source_t.step, Option.map_eq_some_iff] at hstep
    obtain ⟨c, hc, rfl⟩ := hstep
    exact define_new_function_compiles h (step_eq hc).1

theorem add_init_complete {initializer : Bool}
    (h : Reachable source_t.start (source_t.step init) (ordinary init) s)
    (hinherit : ∀ ip ∈ s.inherit, Inheritable init ip.1)
    (hinit : add_init init s initializer = some s') :
    Complete init s' ∧ s'.inherit = s.inherit := by
  obtain ⟨hbuilt, hordinary⟩ := reachable_built h hinherit
  have hnone := init_not_known hbuilt hinherit hordinary
  have hcompiles : Compiles s.c := h.inv
    ⟨by simp [source_t.start, compile_t.start], List.Pairwise.nil,
      by simp [source_t.start, compile_t.start]⟩
    fun _ _ _ hcompiles _ hstep => step_compiles hcompiles hstep
  unfold add_init at hinit
  cases initializer with
  | false =>
    cases hinit
    refine ⟨{ hbuilt with init_last := ?_, compiles := hcompiles }, rfl⟩
    intro x hx
    simp [hnone] at hx
  | true =>
    obtain ⟨hbuilt', -, hsame⟩ := built_function hbuilt hinit
    rw [if_pos rfl] at hinit
    refine ⟨{ hbuilt' with init_last := ?_, compiles := step_compiles hcompiles hinit }, hsame⟩
    simp only [source_t.step, Option.map_eq_some_iff] at hinit
    obtain ⟨c, hc, rfl⟩ := hinit
    obtain ⟨hdefine, -⟩ := step_eq hc
    have hname : lookup_ident s.c (init_declaration init).name = none := hnone
    simp only [define_new_function, hname, Option.some.injEq] at hdefine
    intro x hx
    rw [← hdefine] at hx ⊢
    simp only [lookup_ident, init_declaration, lookup_cons, beq_self_eq_true,
      Option.some.injEq] at hx
    rw [← hx, length_append, length_singleton]

/-! ## The sorted functions -/

theorem used_iff (h : Built init s) (num : Nat) :
    used s.c s.functions num = true ↔ ∃ x, Owned s.c x num := by
  unfold used
  constructor
  · intro hused
    split at hused
    · cases hused
    · rename_i f hf
      rw [beq_iff_eq] at hused
      obtain ⟨g, hg, hindex⟩ := Option.bind_eq_some_iff.1 hused
      exact ⟨f.runtime_index, g, hg, hindex⟩
  · rintro ⟨x, howned⟩
    obtain ⟨f, hf, rfl, -⟩ := h.functions x num howned
    obtain ⟨g, hg, hindex⟩ := howned
    rw [hf]
    simp [hg, hindex]

theorem mem_sorted_functions (h : Built init s) (num : Nat) :
    num ∈ sorted_functions init s ↔ ∃ x, Owned s.c x num := by
  unfold sorted_functions
  rw [(perm_insertionSort _ _).mem_iff, mem_filter, used_iff h, mem_range]
  constructor
  · exact And.right
  · rintro ⟨x, howned⟩
    obtain ⟨f, hf, -⟩ := h.functions x num howned
    exact ⟨(List.getElem?_eq_some_iff.1 hf).1, x, howned⟩

theorem nodup_sorted_functions (init : Nat) (s : source_t) : (sorted_functions init s).Nodup := by
  unfold sorted_functions
  rw [(perm_insertionSort _ _).nodup_iff]
  exact nodup_range.filter _

theorem used_name_inj (h : Built init s) {x y num num' : Nat} (hx : Owned s.c x num)
    (hy : Owned s.c y num') (hname : name_of s.functions num = name_of s.functions num') :
    num = num' := by
  obtain ⟨f, hf, -, hlookup⟩ := h.functions x num hx
  obtain ⟨g, hg, -, hlookup'⟩ := h.functions y num' hy
  simp only [name_of, hf, hg, Option.map_some, Option.getD_some] at hname
  rw [hname, hlookup', Option.some.injEq] at hlookup
  subst hlookup
  obtain ⟨e, he, hindex⟩ := hx
  obtain ⟨e', he', hindex'⟩ := hy
  rw [he, Option.some.injEq] at he'
  rw [he', hindex', Option.some.injEq] at hindex
  exact hindex.symm

theorem function_table_at (h : Built init s) (i : Nat) :
    ((sorted_functions init s).filterMap fun num => s.functions[num]?)[i]? =
      (sorted_functions init s)[i]?.bind fun num => s.functions[num]? := by
  have hall : ∀ num ∈ sorted_functions init s, ∃ f, s.functions[num]? = some f := by
    intro num hnum
    obtain ⟨x, howned⟩ := (mem_sorted_functions h num).1 hnum
    obtain ⟨f, hf, -⟩ := h.functions x num howned
    exact ⟨f, hf⟩
  generalize sorted_functions init s = sorted at hall
  induction sorted generalizing i with
  | nil => rfl
  | cons num sorted ih =>
    obtain ⟨f, hf⟩ := hall num mem_cons_self
    rw [filterMap_cons_some hf]
    cases i with
    | zero => simp [hf]
    | succ i => simpa using ih i fun num hnum => hall num (mem_cons_of_mem _ hnum)

theorem pairwise_sorted_functions (h : Built init s) :
    (sorted_functions init s).Pairwise fun x y =>
      name_of s.functions x ≠ init ∧
        (name_of s.functions y = init ∨ name_of s.functions x < name_of s.functions y) := by
  have hle : (sorted_functions init s).Pairwise fun x y =>
      compare_compiler_funcs init s.functions x y = true := by
    have : Std.Total fun x y => compare_compiler_funcs init s.functions x y = true := by
      refine ⟨fun x y => ?_⟩
      simp only [compare_compiler_funcs]
      split_ifs <;> simp only [decide_eq_true_eq] <;> omega
    have : IsTrans Nat fun x y => compare_compiler_funcs init s.functions x y = true := by
      refine ⟨fun x y z hxy hyz => ?_⟩
      simp only [compare_compiler_funcs] at hxy hyz ⊢
      split_ifs at hxy hyz ⊢ <;> simp at * <;> omega
    exact pairwise_insertionSort _ _
  rw [pairwise_iff_getElem] at hle ⊢
  intro i j hi hj hij
  have hcompare := hle i j hi hj hij
  have hne : name_of s.functions (sorted_functions init s)[i] ≠
      name_of s.functions (sorted_functions init s)[j] := by
    intro hname
    obtain ⟨x, hx⟩ := (mem_sorted_functions h _).1 (getElem_mem hi)
    obtain ⟨y, hy⟩ := (mem_sorted_functions h _).1 (getElem_mem hj)
    have hsame := used_name_inj h hx hy hname
    have := (List.Nodup.getElem_inj_iff (nodup_sorted_functions init s)).1 hsame
    omega
  simp only [compare_compiler_funcs] at hcompare
  split_ifs at hcompare with hlast <;> simp at hcompare
  · exact absurd (hlast.trans hcompare.symm) hne
  · exact ⟨hlast, hcompare.imp id fun hlt => by omega⟩

/-! ## The tables of the program -/

section

variable (addr id_number : Nat) (pname : List Char)
variable {n : Nat}

theorem entry_found (h : Complete init s) (hfits : fits s.c) {x : Nat}
    (hx : x < (epilog_table s.c.table).length) :
    FIND_FUNC_ENTRY (compiler.epilog s.c) x = some (FUNCTION_RENTRY (epilog_table s.c.table) x) := by
  obtain ⟨f_def, f_ov, m, hfound⟩ := found (expected s.c.inherits (epilog_table s.c.table))
    (epilog_table s.c.table).length
  exact compress_fits hfound (hfound.fits_iff.1 hfits) hx (epilog_table_kept h.compiles.kept)
    h.compiles.laid

theorem epilog_flags_length :
    (epilog init addr id_number pname s).function_flags.length = s.c.table.length := by
  simp [epilog, program_t.function_flags, length_epilog_table]

theorem epilog_flags (h : Complete init s) (x : Nat) :
    (epilog init addr id_number pname s).function_flags[x]? =
      (finished s.c.table x).map function_t.flags := by
  simp [epilog, program_t.function_flags, epilog_table_at h.overloads]

theorem epilog_walk (h : Complete init s) (hfits : fits s.c) {x : Nat} {f : function_t}
    (hf : finished s.c.table x = some f) :
    walk (epilog init addr id_number pname s) x =
      match f.entry with
      | .inh k i =>
        if f.flags.INHERITED then frame_in_inherit (run_time_inherit s.inherit) k i else none
      | .def_ _ _ num =>
        if f.flags.INHERITED then none
        else
          some ⟨addr, (epilog init addr id_number pname s).run_time,
            (sorted_functions init s).idxOf num, 0, 0⟩ := by
  have hat : (epilog_table s.c.table)[x]? = some f := (epilog_table_at h.overloads x).trans hf
  have hlt := (List.getElem?_eq_some_iff.1 hat).1
  have hentry : FUNCTION_RENTRY (epilog_table s.c.table) x = f.entry := by
    simp [FUNCTION_RENTRY, hat]
  have hflags : ((epilog_table s.c.table).map function_t.flags)[x]? = some f.flags := by
    rw [getElem?_map, hat, Option.map_some]
  unfold walk
  simp only [epilog, program_t.run_time, program_t.addr]
  rw [setup_new_frame, hflags, getElem?_map, getElem?_zipIdx, hat]
  simp only [Option.map_some, Nat.zero_add, entry_found h hfits hlt, hentry, Option.getD_some]
  cases f.entry with
  | inh k i => rfl
  | def_ num_arg num_local num =>
    simp only [moved_entry]
    split_ifs with hinherited
    · rfl
    · rfl

/-! ## The definitions of the program -/

/-- The definition of an inherited program, seen from the program that inherits it. -/
def definition_t.through (d : definition_t) (ip : program_t × Nat × Nat × name_mods) :
    definition_t :=
  { d with
    fio := d.fio + ip.2.1
    vio := d.vio + ip.2.2.1
    path := ip.2.2.2 :: d.path }

theorem found_through (d : definition_t) (ip : program_t × Nat × Nat × name_mods) :
    (d.through ip).found = from_inherit ip d.found := rfl

theorem last_definition_none {inherit : List (program_t × Nat × Nat × name_mods)}
    (h : ∀ ip ∈ inherit, definition ip.1 n = none) : last_definition inherit n = none := by
  induction inherit with
  | nil => rfl
  | cons ip inherit ih =>
    obtain ⟨prog, fio, vio, type_mod⟩ := ip
    rw [last_definition, ih fun ip hip => h ip (mem_cons_of_mem _ hip)]
    simp [h (prog, fio, vio, type_mod) mem_cons_self]

theorem last_definition_some {inherit : List (program_t × Nat × Nat × name_mods)} {k : Nat}
    {ip : program_t × Nat × Nat × name_mods} {d : definition_t} (hk : inherit[k]? = some ip)
    (hd : definition ip.1 n = some d)
    (hafter : ∀ (k' : Nat) ip', k < k' → inherit[k']? = some ip' → definition ip'.1 n = none) :
    last_definition inherit n = some (d.through ip) := by
  induction inherit generalizing k with
  | nil => simp at hk
  | cons first inherit ih =>
    obtain ⟨prog, fio, vio, type_mod⟩ := first
    cases k with
    | zero =>
      cases getElem?_cons_zero.symm.trans hk
      have hnone : last_definition inherit n = none := by
        apply last_definition_none
        intro ip' hip'
        obtain ⟨i, hi⟩ := mem_iff_getElem?.1 hip'
        exact hafter (i + 1) ip' (Nat.succ_pos i) hi
      rw [last_definition, hnone]
      simp only [hd, Option.map_some]
      rfl
    | succ k =>
      rw [last_definition, ih hk fun k' ip' hlt hk' => hafter (k' + 1) ip' (by omega) hk']

theorem definition_eq (p : program_t) (n : Nat) :
    definition p n =
      match p.function_table.findIdx? fun f => f.name == n with
      | some index =>
        match p.function_table[index]? with
        | none => none
        | some function =>
          match p.function_flags[function.runtime_index]? with
          | none => none
          | some flags =>
            if flags.PROTOTYPE then none else some ⟨p, index, function, flags, 0, 0, []⟩
      | none => last_definition p.inherit n := by
  obtain ⟨addr, id_number, pname, function_table, function_flags, function_offsets, inherit⟩ := p
  rw [definition]
  rfl

/-- What the interpreter and the compiler agree on about a program. -/
structure Good (init : Nat) (p : program_t) : Prop extends Inheritable init p where
  named : ∀ x, x < p.function_flags.length → ∃ n, name_at p x = some n
  same : ∀ x y n, name_at p x = some n → name_at p y = some n → walk p x = walk p y
  defined : ∀ x n d, n ≠ init → name_at p x = some n → definition p n = some d →
    walk p x = some d.found
  code : ∀ n, n ≠ init →
    ((∃ (i : Nat) (flags : name_flags), (inherited init p).copied[i]? = some (n, flags) ∧
      flags.NO_CODE = false) ↔ ∃ d, definition p n = some d)
  index : ∀ n d, n ≠ init → definition p n = some d →
    ∃ flags, (inherited init p).copied[d.fio + d.function.runtime_index]? = some (n, flags)
  searched : ∀ n, n ≠ init →
    program.find_name p.run_time n = p.function_table.findIdx? fun f => f.name == n
  own : ∀ (i : Nat) g, p.function_table[i]? = some g →
    ∃ flags, p.function_flags[g.runtime_index]? = some flags ∧
      flags.UNDEFINED = flags.PROTOTYPE ∧ flags.INHERITED = false
  short : p.function_flags.length ≤ USHRT_MAX

theorem functions_at (init : Nat) (p : program_t) (i : Nat) :
    (inherited init p).functions[i]? =
      p.function_flags[i]?.map fun flags => ((name_at p i).getD 0, flags) := by
  simp only [inherited, getElem?_map, getElem?_zipIdx, Option.map_map, name_at]
  rw [Nat.zero_add]
  rfl

theorem copied_at {p : program_t} {i : Nat} {flags : name_flags} :
    (inherited init p).copied[i]? = some (n, flags) ↔
      i < (inherited init p).num_functions ∧ p.function_flags[i]? = some flags ∧
        (name_at p i).getD 0 = n := by
  rw [inherited_t.copied, getElem?_take]
  split
  · rename_i hlt
    rw [functions_at, Option.map_eq_some_iff]
    constructor
    · rintro ⟨fl, hfl, h⟩
      simp only [Prod.mk.injEq] at h
      obtain ⟨hn, rfl⟩ := h
      exact ⟨hlt, hfl, hn⟩
    · rintro ⟨-, hfl, hn⟩
      exact ⟨flags, hfl, by rw [hn]⟩
  · rename_i hge
    constructor
    · nofun
    · rintro ⟨hlt, -⟩
      exact absurd hlt hge

theorem Good.copied_name {p : program_t} (h : Good init p) {i : Nat} {flags : name_flags}
    (hi : (inherited init p).copied[i]? = some (n, flags)) : name_at p i = some n := by
  obtain ⟨-, hflags, hn⟩ := copied_at.1 hi
  obtain ⟨m, hm⟩ := h.named i (List.getElem?_eq_some_iff.1 hflags).1
  rw [hm, Option.getD_some] at hn
  rw [hm, hn]

section

variable (hs : Complete init s) (hfits : fits s.c) (hgood : ∀ ip ∈ s.inherit, Good init ip.1)
variable {k i n x : Nat} {flags : name_flags} {f : function_t}
variable {ip : program_t × Nat × Nat × name_mods} {num : Nat}

include hs

theorem copied_inherit (h : Copied (copies s.c.inherits) k i n flags) :
    ∃ ip, s.inherit[k]? = some ip ∧ (inherited init ip.1).copied[i]? = some (n, flags) := by
  obtain ⟨fs, hfs, hi⟩ := h
  rw [copies, hs.inherits, map_map, getElem?_map, Option.map_eq_some_iff] at hfs
  obtain ⟨ip, hip, rfl⟩ := hfs
  exact ⟨ip, hip, hi⟩

theorem copied_of_inherit (hk : s.inherit[k]? = some ip)
    (hi : (inherited init ip.1).copied[i]? = some (n, flags)) :
    Copied (copies s.c.inherits) k i n flags := by
  refine ⟨(inherited init ip.1).copied, ?_, hi⟩
  rw [copies, hs.inherits, map_map, getElem?_map, hk]
  rfl

include hgood

theorem provides_iff (hn : n ≠ init) (hk : s.inherit[k]? = some ip) :
    Provides (copies s.c.inherits) k n ↔ ∃ d, definition ip.1 n = some d := by
  rw [← (hgood ip (mem_of_getElem? hk)).code n hn]
  constructor
  · rintro ⟨i, flags, hcopied, hcode⟩
    obtain ⟨ip', hk', hi⟩ := copied_inherit hs hcopied
    cases hk.symm.trans hk'
    exact ⟨i, flags, hi, hcode⟩
  · rintro ⟨i, flags, hi, hcode⟩
    exact ⟨i, flags, copied_of_inherit hs hk hi, hcode⟩

theorem not_provided (hn : n ≠ init) (hk : s.inherit[k]? = some ip)
    (h : ¬ Provides (copies s.c.inherits) k n) : definition ip.1 n = none := by
  rw [provides_iff hs hgood hn hk] at h
  cases hd : definition ip.1 n with
  | none => rfl
  | some d => exact absurd ⟨d, hd⟩ h

omit hgood in
theorem own_function (howned : Owned s.c x num) :
    ∃ g, s.functions[num]? = some g ∧ g.runtime_index = x ∧
      lookup_ident s.c g.name = some x ∧
      (epilog init addr id_number pname s).function_table[(sorted_functions init s).idxOf num]? =
        some g := by
  obtain ⟨g, hg, hindex, hname⟩ := hs.functions x num howned
  refine ⟨g, hg, hindex, hname, ?_⟩
  have hmem := (mem_sorted_functions hs.toBuilt num).2 ⟨x, howned⟩
  have hlt := idxOf_lt_length_of_mem hmem
  simp only [epilog, program_t.function_table]
  rw [function_table_at hs.toBuilt, getElem?_eq_getElem hlt, getElem_idxOf hlt,
    Option.bind_some, hg]

include hfits

omit hgood in
theorem own_walk (hx : lookup_ident s.c n = some x) (hf : s.c.table[x]? = some f)
    (hmain : f.flags.ALIAS = false) (hopen : f.flags.INHERITED = false)
    (hdef : f.flags.DEF_BY_INHERIT = false) {num_arg num_local : Nat}
    (hentry : f.entry = .def_ num_arg num_local num) (hindex : f.u_index = some num) :
    walk (epilog init addr id_number pname s) x =
        some ⟨addr, (epilog init addr id_number pname s).run_time,
          (sorted_functions init s).idxOf num, 0, 0⟩ ∧
      name_at (epilog init addr id_number pname s) x = some n := by
  have hmarked : marked f = f := by
    simp [marked, hdef]
  have hfinished : finished s.c.table x = some f := by
    rw [finished, hf]
    simp [hmain, hmarked]
  have hwalk : walk (epilog init addr id_number pname s) x =
      some ⟨addr, (epilog init addr id_number pname s).run_time,
        (sorted_functions init s).idxOf num, 0, 0⟩ := by
    rw [epilog_walk addr id_number pname hs hfits hfinished, hentry]
    simp [hopen]
  refine ⟨hwalk, ?_⟩
  obtain ⟨g, hg, hgx, hname, htable⟩ := own_function addr id_number pname hs ⟨f, hf, hindex⟩
  have hgn := hs.overloads.once _ _ x hname hx
  have hrun : (epilog init addr id_number pname s).run_time.function_table =
      (epilog init addr id_number pname s).function_table.map fun f =>
        f.tocompiler_function_t := rfl
  rw [name_at_eq, hwalk, Option.bind_some, hrun, getElem?_map, htable]
  simp [hgn]

theorem inherited_walk (hfinished : finished s.c.table x = some f)
    (hinherited : f.flags.INHERITED = true) (hentry : f.entry = .inh k i)
    (hcopied : Copied (copies s.c.inherits) k i n flags) :
    name_at (epilog init addr id_number pname s) x = some n ∧
      ∃ ip, s.inherit[k]? = some ip ∧ name_at ip.1 i = some n ∧
        walk (epilog init addr id_number pname s) x = (walk ip.1 i).map (from_inherit ip) := by
  obtain ⟨ip, hk, hi⟩ := copied_inherit hs hcopied
  have hname := (hgood ip (mem_of_getElem? hk)).copied_name hi
  have hwalk : walk (epilog init addr id_number pname s) x =
      (walk ip.1 i).map (from_inherit ip) := by
    rw [epilog_walk addr id_number pname hs hfits hfinished, hentry]
    simp only [hinherited, if_true]
    exact frame_in_inherit_walk hk i
  refine ⟨?_, ip, hk, hname, hwalk⟩
  rw [name_at_eq] at hname ⊢
  rw [hwalk]
  obtain ⟨r, hr, hrn⟩ := Option.bind_eq_some_iff.1 hname
  rwa [hr, Option.map_some, Option.bind_some]

theorem main_name (hx : lookup_ident s.c n = some x) :
    name_at (epilog init addr id_number pname s) x = some n := by
  obtain ⟨f, hf, hmain⟩ := hs.overloads.mains n x hx
  cases hmain.origin with
  | own num_arg num_local num hentry hindex hdef hundefined hnone =>
    exact (own_walk addr id_number pname hs hfits hx hf hmain.main hmain.open_ hdef hentry
      hindex).2
  | inherited k i flags hentry hindex hdef hundefined hcopied hlatest hnone hsingle =>
    have hfinished : finished s.c.table x = some (marked f) := by
      rw [finished, hf]
      simp [hmain.main]
    have hflag : (marked f).flags.INHERITED = true := by
      simp [marked, hundefined, hdef]
    exact (inherited_walk addr id_number pname hs hfits hgood hfinished hflag hentry hcopied).1

theorem entry_walk (h : EntryOf s.c x n) :
    name_at (epilog init addr id_number pname s) x = some n ∧
      ∃ m, lookup_ident s.c n = some m ∧
        walk (epilog init addr id_number pname s) x =
          walk (epilog init addr id_number pname s) m := by
  rcases h with hx | ⟨f, hf, halias, hname⟩
  · exact ⟨main_name addr id_number pname hs hfits hgood hx, x, hx, rfl⟩
  obtain ⟨g, hg, hmain⟩ := hs.overloads.mains n _ hname
  have hmainname := main_name addr id_number pname hs hfits hgood hname
  have hfinished : finished s.c.table x = some (aliased (marked g) f) := by
    rw [finished, hf]
    simp [halias, hg]
  have hfinishedm : finished s.c.table f.alias_for = some (marked g) := by
    rw [finished, hg]
    simp [hmain.main]
  by_cases hcopy : (!(marked g).flags.INHERITED || 2 ≤ (marked g).alias_for) = true
  · have hwalk : walk (epilog init addr id_number pname s) x =
        walk (epilog init addr id_number pname s) f.alias_for := by
      rw [epilog_walk addr id_number pname hs hfits hfinished,
        epilog_walk addr id_number pname hs hfits hfinishedm, aliased, if_pos hcopy]
    refine ⟨?_, f.alias_for, hname, hwalk⟩
    rw [name_at_eq, hwalk, ← name_at_eq, hmainname]
  · -- only one inherit has the name, so both entries are of that one
    simp only [Bool.or_eq_true, Bool.not_eq_true', decide_eq_true_eq, not_or, Bool.not_eq_false]
      at hcopy
    have hcounted := hmain.counted
    have hsame : aliased (marked g) f = f := by
      rw [aliased, if_neg]
      simp only [hcopy.1, Bool.not_true, Bool.false_or, decide_eq_true_eq]
      exact hcopy.2
    have hentry := hs.overloads.aliases x f hf halias
    obtain ⟨k, i, n', flags, hinh, hcopied, hname'⟩ := hentry.copy
    obtain rfl := hs.overloads.once _ _ _ hname' hname
    rw [hsame] at hfinished
    have hflag : f.flags.INHERITED = true := by
      rw [hentry.flags]
      rfl
    obtain ⟨hnamex, ip, hk, hnamei, hwalk⟩ :=
      inherited_walk addr id_number pname hs hfits hgood hfinished hflag hinh hcopied
    refine ⟨hnamex, f.alias_for, hname, ?_⟩
    cases hmain.origin with
    | own num_arg num_local num hentryg hindex hdef hundefined hnone =>
      have := hcopy.1
      simp [marked, hdef, hmain.open_] at this
    | inherited k' i' flags' hentryg hindex hdef hundefined hcopied' hlatest hnone hsingle =>
      have hone : g.alias_for = 1 := by
        have : (marked g).alias_for = g.alias_for := rfl
        omega
      obtain rfl := hsingle hone k ⟨i, flags, hcopied⟩
      obtain ⟨-, ip', hk', hnamei', hwalk'⟩ :=
        inherited_walk addr id_number pname hs hfits hgood hfinishedm hcopy.1 hentryg hcopied'
      cases hk.symm.trans hk'
      rw [hwalk, hwalk', (hgood ip (mem_of_getElem? hk)).same i i' _ hnamei hnamei']

omit hfits hgood in
theorem entry_exists (hx : x < s.c.table.length) : ∃ n, EntryOf s.c x n := by
  have hf := getElem?_eq_getElem hx
  generalize s.c.table[x] = f at hf
  cases halias : f.flags.ALIAS with
  | false =>
    obtain ⟨n, hn⟩ := hs.overloads.known x f hf halias
    exact ⟨n, .inl hn⟩
  | true =>
    obtain ⟨k, i, n, flags, -, -, hn⟩ := (hs.overloads.aliases x f hf halias).copy
    exact ⟨n, .inr ⟨f, hf, halias, hn⟩⟩

theorem entry_of_name (hname : name_at (epilog init addr id_number pname s) x = some n) :
    EntryOf s.c x n := by
  have hx : x < s.c.table.length := by
    by_contra hge
    have hnone : (epilog init addr id_number pname s).function_flags[x]? = none :=
      getElem?_eq_none (by rw [epilog_flags_length]; omega)
    rw [name_at_eq, walk] at hname
    have hrun : (epilog init addr id_number pname s).run_time.function_flags =
      (epilog init addr id_number pname s).function_flags := rfl
    rw [← hrun] at hnone
    generalize (epilog init addr id_number pname s).run_time = prog at hname hnone
    obtain ⟨id, function_table, function_flags, function_offsets, inherit⟩ := prog
    simp only [program.program_t.function_flags] at hnone
    simp [setup_new_frame, hnone] at hname
  obtain ⟨m, hm⟩ := entry_exists hs hx
  obtain ⟨hnamem, -⟩ := entry_walk addr id_number pname hs hfits hgood hm
  rw [hnamem, Option.some.injEq] at hname
  rwa [← hname]

omit hfits hgood in
theorem table_owned {g : compiler_function_t}
    (hi : (epilog init addr id_number pname s).function_table[i]? = some g) :
    ∃ num, Owned s.c g.runtime_index num ∧ s.functions[num]? = some g ∧
      (sorted_functions init s)[i]? = some num ∧
      lookup_ident s.c g.name = some g.runtime_index := by
  simp only [epilog, program_t.function_table] at hi
  rw [function_table_at hs.toBuilt] at hi
  obtain ⟨num, hnum, hg⟩ := Option.bind_eq_some_iff.1 hi
  obtain ⟨x, howned⟩ := (mem_sorted_functions hs.toBuilt num).1 (mem_of_getElem? hnum)
  obtain ⟨g', hg', rfl, hname⟩ := hs.functions x num howned
  cases hg.symm.trans hg'
  exact ⟨num, howned, hg, hnum, hname⟩

omit hfits hgood in
theorem table_sorted :
    (epilog init addr id_number pname s).run_time.function_table.Pairwise (before init) := by
  have hrun : (epilog init addr id_number pname s).run_time.function_table =
      (epilog init addr id_number pname s).function_table.map fun f =>
        f.tocompiler_function_t := rfl
  rw [hrun, pairwise_map, pairwise_iff_getElem]
  intro i j hi hj hij
  obtain ⟨num, -, hf, hnum, -⟩ :=
    table_owned addr id_number pname hs (getElem?_eq_getElem hi)
  obtain ⟨num', -, hg, hnum', -⟩ :=
    table_owned addr id_number pname hs (getElem?_eq_getElem hj)
  obtain ⟨hli, hgi⟩ := List.getElem?_eq_some_iff.1 hnum
  obtain ⟨hlj, hgj⟩ := List.getElem?_eq_some_iff.1 hnum'
  have horder := pairwise_iff_getElem.1 (pairwise_sorted_functions hs.toBuilt) i j hli hlj hij
  rw [hgi, hgj] at horder
  simp only [name_of, hf, hg, Option.map_some, Option.getD_some] at horder
  exact horder

omit hfits hgood in
theorem table_index (howned : Owned s.c x num) (hx : lookup_ident s.c n = some x) :
    (epilog init addr id_number pname s).function_table.findIdx? (fun f => f.name == n) =
      some ((sorted_functions init s).idxOf num) := by
  obtain ⟨g, hg, rfl, hname, htable⟩ := own_function addr id_number pname hs howned
  have hgn := hs.overloads.once _ _ _ hname hx
  obtain ⟨hlt, hget⟩ := List.getElem?_eq_some_iff.1 htable
  refine findIdx?_eq_some_iff_getElem.mpr ⟨hlt, by rw [hget, hgn, beq_self_eq_true], ?_⟩
  intro j hj
  rw [beq_iff_eq]
  intro hjn
  have hgj := getElem?_eq_getElem (Nat.lt_trans hj hlt)
  obtain ⟨num', howned', -, hnum', hname'⟩ := table_owned addr id_number pname hs hgj
  rw [hjn, hx, Option.some.injEq] at hname'
  rw [← hname'] at howned'
  obtain ⟨e, he, hindex⟩ := howned
  obtain ⟨e', he', hindex'⟩ := howned'
  rw [he, Option.some.injEq] at he'
  rw [← he', hindex, Option.some.injEq] at hindex'
  obtain ⟨hlj, hgetj⟩ := List.getElem?_eq_some_iff.1 hnum'
  rw [← hindex'] at hgetj
  have := (nodup_sorted_functions init s).idxOf_getElem j hlj
  rw [hgetj] at this
  omega

omit hfits hgood in
theorem table_no_index (h : ∀ x num, lookup_ident s.c n = some x → ¬ Owned s.c x num) :
    (epilog init addr id_number pname s).function_table.findIdx? (fun f => f.name == n) =
      none := by
  rw [findIdx?_eq_none_iff]
  intro g hg
  obtain ⟨i, hi⟩ := mem_iff_getElem?.1 hg
  obtain ⟨num, howned, -, -, hname⟩ := table_owned addr id_number pname hs hi
  apply beq_false_of_ne
  rintro rfl
  exact h _ num hname howned

omit hfits hgood in
theorem searched (hn : n ≠ init) :
    program.find_name (epilog init addr id_number pname s).run_time n =
      (epilog init addr id_number pname s).function_table.findIdx? fun f => f.name == n := by
  have hrun : (epilog init addr id_number pname s).run_time.function_table =
      (epilog init addr id_number pname s).function_table.map fun f =>
        f.tocompiler_function_t := rfl
  rw [program.find_name, search_eq (table_sorted addr id_number pname hs) hn, hrun,
    findIdx?_map]
  rfl

omit hs hfits hgood in
theorem main_finished (hf : s.c.table[x]? = some f) (hmain : Main (copies s.c.inherits) n f) :
    finished s.c.table x = some (marked f) := by
  rw [finished, hf]
  simp [hmain.main]

omit hfits in
theorem unknown_definition (hn : n ≠ init) (hx : lookup_ident s.c n = none) :
    definition (epilog init addr id_number pname s) n = none := by
  have htable := table_no_index addr id_number pname hs (n := n) (by
    intro x num hx'
    rw [hx] at hx'
    cases hx')
  rw [definition_eq, htable]
  apply last_definition_none
  intro ip hip
  obtain ⟨k, hk⟩ := mem_iff_getElem?.1 hip
  apply not_provided hs hgood hn hk
  rintro ⟨i, flags, hcopied, -⟩
  obtain ⟨x, hx'⟩ := hs.overloads.seen k n ⟨i, flags, hcopied⟩
  simp [hx] at hx'

theorem main_definition (hn : n ≠ init) (hx : lookup_ident s.c n = some x)
    (hf : s.c.table[x]? = some f) (hmain : Main (copies s.c.inherits) n f) :
    (f.flags.PROTOTYPE = true → definition (epilog init addr id_number pname s) n = none) ∧
      (f.flags.PROTOTYPE = false → ∃ d,
        definition (epilog init addr id_number pname s) n = some d ∧
          walk (epilog init addr id_number pname s) x = some d.found ∧
          EntryOf s.c (d.fio + d.function.runtime_index) n) := by
  have hfinished := main_finished hf hmain
  cases hmain.origin with
  | own num_arg num_local num hentry hindex hdef hundefined hnone =>
    have howned : Owned s.c x num := ⟨f, hf, hindex⟩
    obtain ⟨g, hg, hgx, hname, htable⟩ := own_function addr id_number pname hs howned
    have hflags : (epilog init addr id_number pname s).function_flags[g.runtime_index]? =
        some f.flags := by
      rw [hgx, epilog_flags addr id_number pname hs, hfinished, Option.map_some]
      simp [marked, hdef]
    have hdefinition := definition_eq (epilog init addr id_number pname s) n
    rw [table_index addr id_number pname hs howned hx] at hdefinition
    simp only [htable, hflags] at hdefinition
    obtain ⟨hwalk, -⟩ :=
      own_walk addr id_number pname hs hfits hx hf hmain.main hmain.open_ hdef hentry hindex
    constructor
    · intro hproto
      rw [hdefinition, if_pos hproto]
    · intro hcode
      rw [hcode, if_neg (by simp)] at hdefinition
      refine ⟨_, hdefinition, hwalk, .inl ?_⟩
      rwa [Nat.zero_add, hgx]
  | inherited k i flags hentry hindex hdef hundefined hcopied hlatest hnone hsingle =>
    have htable := table_no_index addr id_number pname hs (n := n) (by
      rintro y num hy ⟨e, he, hnum⟩
      cases hx.symm.trans hy
      rw [hf, Option.some.injEq] at he
      rw [← he, hindex] at hnum
      cases hnum)
    have hdefinition := definition_eq (epilog init addr id_number pname s) n
    rw [htable] at hdefinition
    simp only at hdefinition
    have hinherit : (epilog init addr id_number pname s).inherit = s.inherit := rfl
    rw [hinherit] at hdefinition
    constructor
    · intro hproto
      rw [hdefinition]
      apply last_definition_none
      intro ip hip
      obtain ⟨k', hk'⟩ := mem_iff_getElem?.1 hip
      exact not_provided hs hgood hn hk' (hnone hproto k')
    · intro hcode
      obtain ⟨hprovides, hafter⟩ := hlatest hcode
      have hflag : (marked f).flags.INHERITED = true := by
        simp [marked, hundefined, hdef]
      obtain ⟨-, ip, hk, hname, hwalk⟩ :=
        inherited_walk addr id_number pname hs hfits hgood hfinished hflag hentry hcopied
      have hip := hgood ip (mem_of_getElem? hk)
      obtain ⟨d, hd⟩ := (provides_iff hs hgood hn hk).1 hprovides
      refine ⟨d.through ip, ?_, ?_, ?_⟩
      · rw [hdefinition]
        apply last_definition_some hk hd
        intro k' ip' hlt hk'
        exact not_provided hs hgood hn hk' (hafter k' hlt)
      · rw [hwalk, hip.defined i n d hn hname hd, Option.map_some, found_through]
      · obtain ⟨fl, hfl⟩ := hip.index n d hn hd
        have hplaced := hs.placed k ip hk _ n fl hfl
        have hsum : (d.through ip).fio + (d.through ip).function.runtime_index =
            ip.2.1 + (d.fio + d.function.runtime_index) := by
          simp only [definition_t.through]
          omega
        rwa [hsum]

omit hfits hgood in
theorem flags_alias (h : EntryOf s.c x n)
    (hflags : (epilog init addr id_number pname s).function_flags[x]? = some flags) :
    (flags.ALIAS = false ∧ ∃ f, lookup_ident s.c n = some x ∧ s.c.table[x]? = some f ∧
        Main (copies s.c.inherits) n f ∧ flags = (marked f).flags) ∨
      (flags.ALIAS = true ∧ ∃ m, lookup_ident s.c n = some m ∧ m < x) := by
  rw [epilog_flags addr id_number pname hs, Option.map_eq_some_iff] at hflags
  obtain ⟨f', hf', rfl⟩ := hflags
  rcases h with hx | ⟨f, hf, halias, hname⟩
  · obtain ⟨f, hf, hmain⟩ := hs.overloads.mains n x hx
    cases (main_finished hf hmain).symm.trans hf'
    refine .inl ⟨?_, f, hx, hf, hmain, rfl⟩
    simp only [marked]
    split
    · exact hmain.main
    · exact hmain.main
  · refine .inr ⟨?_, f.alias_for, hname, (hs.overloads.aliases x f hf halias).before⟩
    obtain ⟨g, hg, -⟩ := hs.overloads.mains n _ hname
    rw [finished, hf] at hf'
    simp only [halias, if_true, hg, Option.map_some, Option.some.injEq] at hf'
    rw [← hf', aliased]
    split
    · rfl
    · exact halias

omit hs hfits hgood in
theorem marked_flags (hmain : Main (copies s.c.inherits) n f) :
    (marked f).flags.UNDEFINED = f.flags.PROTOTYPE ∧
      (marked f).flags.PROTOTYPE = f.flags.PROTOTYPE ∧ (marked f).flags.ALIAS = false := by
  cases hmain.origin with
  | own num_arg num_local num hentry hindex hdef hundefined hnone =>
    simp only [marked, hdef, Bool.and_false, Bool.false_eq_true, if_false]
    exact ⟨hundefined, trivial, hmain.main⟩
  | inherited k i flags hentry hindex hdef hundefined hcopied hlatest hnone hsingle =>
    simp only [marked, hundefined, hdef, Bool.and_self, if_true]
    exact ⟨by rw [hmain.main, Bool.or_false], trivial, hmain.main⟩

omit hs hfits hgood in
theorem functions_length : (inherited init (epilog init addr id_number pname s)).functions.length =
    s.c.table.length := by simp [inherited, epilog_flags_length]

theorem entry_copied (hn : n ≠ init) (h : EntryOf s.c x n) :
    ∃ flags, (epilog init addr id_number pname s).function_flags[x]? = some flags ∧
      (inherited init (epilog init addr id_number pname s)).copied[x]? = some (n, flags) := by
  have hx : x < s.c.table.length := by
    rcases h with hx | ⟨f, hf, -⟩
    · obtain ⟨f, hf, -⟩ := hs.overloads.mains n x hx
      exact (List.getElem?_eq_some_iff.1 hf).1
    · exact (List.getElem?_eq_some_iff.1 hf).1
  obtain ⟨hname, -⟩ := entry_walk addr id_number pname hs hfits hgood h
  have hget := getElem?_eq_getElem
    (l := (epilog init addr id_number pname s).function_flags) (i := x)
    (by rwa [epilog_flags_length])
  refine ⟨_, hget, copied_at.2 ⟨?_, hget, by rw [hname, Option.getD_some]⟩⟩
  rw [inherited_t.num_functions, functions_length addr id_number pname]
  split
  · rename_i hinit
    simp only [inherited] at hinit
    rw [Option.any_eq_true] at hinit
    obtain ⟨g, hg, hgn⟩ := hinit
    obtain ⟨i, hi⟩ := mem_iff_getElem?.1 (mem_of_getLast? hg)
    obtain ⟨num, -, -, -, hlookup⟩ := table_owned addr id_number pname hs hi
    rw [beq_iff_eq] at hgn
    rw [hgn] at hlookup
    have hlast := hs.init_last _ hlookup
    rcases Nat.lt_or_ge x (s.c.table.length - 1) with hlt | hge
    · exact hlt
    · obtain rfl : x = g.runtime_index := by omega
      have := main_name addr id_number pname hs hfits hgood hlookup
      rw [hname, Option.some.injEq] at this
      exact absurd this hn
  · exact hx

omit hfits hgood in
theorem own_flags {g : compiler_function_t}
    (hi : (epilog init addr id_number pname s).function_table[i]? = some g) :
    ∃ flags, (epilog init addr id_number pname s).function_flags[g.runtime_index]? = some flags ∧
      flags.UNDEFINED = flags.PROTOTYPE ∧ flags.INHERITED = false := by
  obtain ⟨num, ⟨e, he, hnum⟩, -, -, hname⟩ := table_owned addr id_number pname hs hi
  obtain ⟨f, hf, hmain⟩ := hs.overloads.mains _ _ hname
  cases he.symm.trans hf
  refine ⟨(marked e).flags, ?_, ?_⟩
  · rw [epilog_flags addr id_number pname hs, main_finished he hmain, Option.map_some]
  · cases hmain.origin with
    | own num_arg num_local num' hentry hindex hdef hundefined hnone =>
      simp only [marked, hdef, Bool.and_false, Bool.false_eq_true, if_false]
      exact ⟨hundefined, hmain.open_⟩
    | inherited k j flags hentry hindex hdef hundefined hcopied hlatest hnone hsingle =>
      simp [hindex] at hnum

theorem init_not_copied
    (hi : (inherited init (epilog init addr id_number pname s)).copied[i]? = some (n, flags)) :
    n ≠ init := by
  rintro rfl
  obtain ⟨hlt, hflags, hname⟩ := copied_at.1 hi
  have hilt := (List.getElem?_eq_some_iff.1 hflags).1
  rw [epilog_flags_length] at hilt
  obtain ⟨m, hm⟩ := entry_exists hs hilt
  rw [(entry_walk addr id_number pname hs hfits hgood hm).1, Option.getD_some] at hname
  subst hname
  -- the entry is the last of the table, and an entry of this level
  have hmain : lookup_ident s.c m = some i := by
    rcases hm with hm | ⟨f, hf, halias, hm⟩
    · exact hm
    · have hlast := hs.init_last _ hm
      have hbefore := (hs.overloads.aliases i f hf halias).before
      omega
  have hlast := hs.init_last _ hmain
  obtain ⟨f, hf, horigin⟩ := hs.overloads.mains m i hmain
  cases horigin.origin with
  | own num_arg num_local num hentry hindex hdef hundefined hnone =>
    obtain ⟨g, -, -, hgname, htable⟩ :=
      own_function addr id_number pname hs ⟨f, hf, hindex⟩
    have hgm := hs.overloads.once _ _ _ hgname hmain
    have hsorted := pairwise_iff_getElem.1 (table_sorted addr id_number pname hs)
    have hrun : (epilog m addr id_number pname s).run_time.function_table =
        (epilog m addr id_number pname s).function_table.map fun f =>
          f.tocompiler_function_t := rfl
    simp only [hrun, length_map, getElem_map] at hsorted
    obtain ⟨hj, hget⟩ := List.getElem?_eq_some_iff.1 htable
    have hend : (sorted_functions m s).idxOf num + 1 =
        (epilog m addr id_number pname s).function_table.length := by
      by_contra hne
      have hlt' : (sorted_functions m s).idxOf num <
          (epilog m addr id_number pname s).function_table.length - 1 := by omega
      have := (hsorted _ _ hj (by omega) hlt').1
      rw [hget] at this
      exact this hgm
    have hinitializer : (inherited m (epilog m addr id_number pname s)).initializer = true := by
      simp only [inherited]
      rw [getLast?_eq_getElem?, ← hend, Nat.add_sub_cancel, htable, Option.any_some, hgm,
        beq_self_eq_true]
    rw [inherited_t.num_functions, hinitializer, if_pos rfl,
      functions_length addr id_number pname] at hlt
    omega
  | inherited k j fl hentry hindex hdef hundefined hcopied hlatest hnone hsingle =>
    obtain ⟨ip, hk, hj⟩ := copied_inherit hs hcopied
    exact (hgood ip (mem_of_getElem? hk)).ordinary j m fl hj rfl

theorem good_epilog : Good init (epilog init addr id_number pname s) := by
  have hentry : ∀ {x n : Nat}, name_at (epilog init addr id_number pname s) x = some n →
      EntryOf s.c x n := entry_of_name addr id_number pname hs hfits hgood
  have hwalk : ∀ {x n : Nat}, EntryOf s.c x n → _ :=
    fun {x n} => entry_walk addr id_number pname hs hfits hgood (x := x) (n := n)
  have hcopied : ∀ {i n : Nat} {flags : name_flags},
      (inherited init (epilog init addr id_number pname s)).copied[i]? = some (n, flags) →
        EntryOf s.c i n ∧
          (epilog init addr id_number pname s).function_flags[i]? = some flags := by
    intro i n flags hi
    obtain ⟨-, hflags, hname⟩ := copied_at.1 hi
    have hilt := (List.getElem?_eq_some_iff.1 hflags).1
    rw [epilog_flags_length] at hilt
    obtain ⟨m, hm⟩ := entry_exists hs hilt
    rw [(hwalk hm).1, Option.getD_some] at hname
    rw [← hname]
    exact ⟨hm, hflags⟩
  refine ⟨⟨⟨?_, ?_⟩, ?_⟩, ?_, ?_, ?_, ?_, ?_, ?_, ?_, ?_⟩
  · intro i n flags hi
    obtain ⟨hm, hflags⟩ := hcopied hi
    constructor
    · intro halias
      rcases flags_alias addr id_number pname hs hm hflags with ⟨hmain, -⟩ | ⟨-, j, hj, hji⟩
      · simp [halias] at hmain
      · have hn := init_not_copied addr id_number pname hs hfits hgood hi
        obtain ⟨g, -, hg⟩ := entry_copied addr id_number pname hs hfits hgood hn (.inl hj)
        exact ⟨j, g, hji, hg⟩
    · rintro ⟨j, g, hji, hj⟩
      cases halias : flags.ALIAS with
      | true => rfl
      | false =>
        rcases flags_alias addr id_number pname hs hm hflags with ⟨-, f, hi', -⟩ | ⟨h, -⟩
        · obtain ⟨hmj, hflagsj⟩ := hcopied hj
          rcases flags_alias addr id_number pname hs hmj hflagsj with
            ⟨-, g', hj', -⟩ | ⟨-, k, hk, hkj⟩
          · rw [hi', Option.some.injEq] at hj'
            omega
          · rw [hi', Option.some.injEq] at hk
            omega
        · simp [halias] at h
  · intro i n flags hi halias
    obtain ⟨hm, hflags⟩ := hcopied hi
    rcases flags_alias addr id_number pname hs hm hflags with
      ⟨-, f, -, -, hmain, rfl⟩ | ⟨h, -⟩
    · obtain ⟨h1, h2, -⟩ := marked_flags hmain
      rw [h1, h2]
    · simp [halias] at h
  · intro i n flags hi
    exact init_not_copied addr id_number pname hs hfits hgood hi
  · intro x hx
    rw [epilog_flags_length] at hx
    obtain ⟨n, hn⟩ := entry_exists hs hx
    exact ⟨n, (hwalk hn).1⟩
  · intro x y n hx hy
    obtain ⟨-, m, hm, hwx⟩ := hwalk (hentry hx)
    obtain ⟨-, m', hm', hwy⟩ := hwalk (hentry hy)
    rw [hm, Option.some.injEq] at hm'
    rw [hwx, hwy, hm']
  · intro x n d hn hx hd
    obtain ⟨-, m, hm, hwx⟩ := hwalk (hentry hx)
    obtain ⟨f, hf, hmain⟩ := hs.overloads.mains n m hm
    obtain ⟨hnone, hsome⟩ := main_definition addr id_number pname hs hfits hgood hn hm hf hmain
    cases hproto : f.flags.PROTOTYPE with
    | true =>
      simp [hnone hproto] at hd
    | false =>
      obtain ⟨d', hd', hwalkd, -⟩ := hsome hproto
      rw [hd, Option.some.injEq] at hd'
      rw [hwx, hwalkd, hd']
  · intro n hn
    constructor
    · rintro ⟨i, flags, hi, hcode⟩
      obtain ⟨hm, hflags⟩ := hcopied hi
      obtain ⟨-, halias, hproto⟩ := NO_CODE_eq_false.1 hcode
      rcases flags_alias addr id_number pname hs hm hflags with
        ⟨-, f, hi', hf, hmain, rfl⟩ | ⟨h, -⟩
      · rw [(marked_flags hmain).2.1] at hproto
        obtain ⟨d, hd, -⟩ :=
          (main_definition addr id_number pname hs hfits hgood hn hi' hf hmain).2 hproto
        exact ⟨d, hd⟩
      · simp [halias] at h
    · rintro ⟨d, hd⟩
      cases hx : lookup_ident s.c n with
      | none =>
        simp [unknown_definition addr id_number pname hs hgood hn hx] at hd
      | some x =>
        obtain ⟨f, hf, hmain⟩ := hs.overloads.mains n x hx
        obtain ⟨hnone, -⟩ := main_definition addr id_number pname hs hfits hgood hn hx hf hmain
        obtain ⟨flags, hflags, hcopy⟩ :=
          entry_copied addr id_number pname hs hfits hgood hn (.inl hx)
        refine ⟨x, flags, hcopy, ?_⟩
        rw [epilog_flags addr id_number pname hs, main_finished hf hmain, Option.map_some,
          Option.some.injEq] at hflags
        subst hflags
        obtain ⟨h1, h2, h3⟩ := marked_flags hmain
        cases hproto : f.flags.PROTOTYPE with
        | true =>
          simp [hnone hproto] at hd
        | false => exact NO_CODE_eq_false.2 ⟨h1.trans hproto, h3, h2.trans hproto⟩
  · intro n d hn hd
    cases hx : lookup_ident s.c n with
    | none =>
      simp [unknown_definition addr id_number pname hs hgood hn hx] at hd
    | some x =>
      obtain ⟨f, hf, hmain⟩ := hs.overloads.mains n x hx
      obtain ⟨hnone, hsome⟩ := main_definition addr id_number pname hs hfits hgood hn hx hf hmain
      cases hproto : f.flags.PROTOTYPE with
      | true =>
        simp [hnone hproto] at hd
      | false =>
        obtain ⟨d', hd', -, hplace⟩ := hsome hproto
        cases hd.symm.trans hd'
        obtain ⟨flags, -, hcopy⟩ := entry_copied addr id_number pname hs hfits hgood hn hplace
        exact ⟨flags, hcopy⟩
  · intro n hn
    exact searched addr id_number pname hs hn
  · intro i g hi
    exact own_flags addr id_number pname hs hi
  · rw [epilog_flags_length]
    exact hs.short

end

end

theorem compiled_good {p : program_t} (h : Compiled init fits p) : Good init p := by
  induction h with
  | mk addr id_number name hsource hinit hfits hinherit ih =>
    obtain ⟨hcomplete, hsame⟩ :=
      add_init_complete hsource (fun ip hip => (ih ip hip).toInheritable) hinit
    rw [← hsame] at ih
    exact good_epilog addr id_number name hcomplete hfits ih

end

end mudos.inherited_calls
