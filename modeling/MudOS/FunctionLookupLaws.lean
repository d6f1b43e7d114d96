-- The law of lookups by name: a call by name, a local call and `function_exists` mean one
-- definition, as long as the compressed tables of the programs have every entry.
import MudOS.InheritedCallLaws

open mudos.runs List
open mudos.compiler
open mudos.program (found_t exists_t ffbn_recurse ffbn_recurse2 search_inherited2 exists_inherited)

namespace mudos.inherited_calls

variable {n : Nat}

/-- `F_CALL_FUNCTION_BY_ADDRESS`, in an object of the program itself; `none` when the function
is undefined, or when an entry outside the tables is read. -/
def call_function_by_address (p : program_t) (offset : Nat) : Option found_t :=
  match p.function_flags[offset]? with
  | none => none
  | some flags => if flags.UNDEFINED then none else walk p offset

/-- `function_exists`, when the caller may see static and private functions. -/
def function_exists (p : program_t) (name : Nat) : Option exists_t :=
  (ffbn_recurse p.addr p.run_time name).bind fun r =>
    match p.function_flags[r.runtime_index]? with
    | none => none
    | some flags => if flags.UNDEFINED then none else some r

/-! ## The searches by name -/

theorem ffbn_recurse2_eq (p : program_t) (n : Nat) :
    ffbn_recurse2 p.addr p.run_time n =
      match program.find_name p.run_time n with
      | some mid =>
        match program.flags_of p.run_time mid with
        | none => none
        | some flags =>
          if flags.UNDEFINED || flags.PROTOTYPE || flags.INHERITED then
            if flags.INHERITED then search_inherited2 (run_time_inherit p.inherit) n else none
          else some ⟨p.addr, p.run_time, mid, 0, 0⟩
      | none => search_inherited2 (run_time_inherit p.inherit) n := by
  obtain ⟨addr, id_number, pname, function_table, function_flags, function_offsets, inherit⟩ := p
  rw [program_t.run_time, ffbn_recurse2]
  rfl

theorem ffbn_recurse_eq (p : program_t) (n : Nat) :
    ffbn_recurse p.addr p.run_time n =
      match program.find_name p.run_time n with
      | some mid =>
        match (p.function_table[mid]?).map (fun f => f.tocompiler_function_t),
          program.flags_of p.run_time mid with
        | some f, some flags =>
          if flags.UNDEFINED || flags.PROTOTYPE then
            if flags.INHERITED then exists_inherited (run_time_inherit p.inherit) n else none
          else some ⟨p.addr, p.run_time, mid, f.runtime_index⟩
        | _, _ => none
      | none => exists_inherited (run_time_inherit p.inherit) n := by
  obtain ⟨addr, id_number, pname, function_table, function_flags, function_offsets, inherit⟩ := p
  rw [program_t.run_time, ffbn_recurse]
  simp only [getElem?_map]
  rfl

def definition_t.exists_ (d : definition_t) : exists_t :=
  ⟨d.prog.addr, d.prog.run_time, d.index, d.fio + d.function.runtime_index⟩

theorem search_inherited2_eq {inherit : List (program_t × Nat × Nat × name_mods)}
    (h : ∀ ip ∈ inherit, ffbn_recurse2 ip.1.addr ip.1.run_time n =
      (definition ip.1 n).map definition_t.found) :
    search_inherited2 (run_time_inherit inherit) n =
      (last_definition inherit n).map definition_t.found := by
  induction inherit with
  | nil => rfl
  | cons ip inherit ih =>
    obtain ⟨prog, fio, vio, type_mod⟩ := ip
    have hlater := ih fun ip hip => h ip (mem_cons_of_mem _ hip)
    have hfirst := h (prog, fio, vio, type_mod) mem_cons_self
    simp only at hfirst
    rw [run_time_inherit, search_inherited2, last_definition, hlater]
    cases last_definition inherit n with
    | some d => rfl
    | none =>
      simp only [Option.map_none, hfirst]
      cases definition prog n <;> rfl

theorem exists_inherited_eq {inherit : List (program_t × Nat × Nat × name_mods)}
    (h : ∀ ip ∈ inherit, ffbn_recurse ip.1.addr ip.1.run_time n =
      (definition ip.1 n).map definition_t.exists_) :
    exists_inherited (run_time_inherit inherit) n =
      (last_definition inherit n).map definition_t.exists_ := by
  induction inherit with
  | nil => rfl
  | cons ip inherit ih =>
    obtain ⟨prog, fio, vio, type_mod⟩ := ip
    have hlater := ih fun ip hip => h ip (mem_cons_of_mem _ hip)
    have hfirst := h (prog, fio, vio, type_mod) mem_cons_self
    simp only at hfirst
    rw [run_time_inherit, exists_inherited, last_definition, hlater]
    cases last_definition inherit n with
    | some d => rfl
    | none =>
      simp only [Option.map_none, hfirst]
      cases definition prog n with
      | none => rfl
      | some d =>
        simp only [Option.map_some, definition_t.exists_, Option.some.injEq, exists_t.mk.injEq,
          true_and]
        omega

theorem searches_find {init : Nat} {p : program_t} (hp : Compiled init fits p) (hn : n ≠ init) :
    ffbn_recurse2 p.addr p.run_time n = (definition p n).map definition_t.found ∧
      ffbn_recurse p.addr p.run_time n = (definition p n).map definition_t.exists_ := by
  have hgood := compiled_good hp
  induction hp with
  | mk addr id_number name hsource hinit hfits hinherit ih =>
    rename_i s s' initializer
    have hinherited : (epilog init addr id_number name s').inherit = s.inherit :=
      (add_init_complete hsource
        (fun ip hip => (compiled_good (hinherit ip hip)).toInheritable) hinit).2
    generalize epilog init addr id_number name s' = p at hgood hinherited
    rw [ffbn_recurse2_eq, ffbn_recurse_eq, definition_eq, hgood.searched n hn, hinherited]
    cases hmid : p.function_table.findIdx? fun f => f.name == n with
    | some mid =>
      obtain ⟨hlt, -⟩ := findIdx?_eq_some_iff_getElem.1 hmid
      have hget := getElem?_eq_getElem hlt
      obtain ⟨flags, hflags, hundefined, hopen⟩ := hgood.own mid _ hget
      generalize p.function_table[mid] = g at hget hflags
      simp only [flags_of_eq, hget, Option.bind_some, hflags, hundefined, hopen, Bool.or_self,
        Bool.or_false, Bool.false_eq_true, if_false, Option.map_some]
      cases flags.PROTOTYPE with
      | true => exact ⟨rfl, rfl⟩
      | false =>
        simp only [Bool.false_eq_true, if_false, Option.map_some, definition_t.found,
          definition_t.exists_, Nat.zero_add]
        exact ⟨trivial, trivial⟩
    | none =>
      exact ⟨search_inherited2_eq fun ip hip => (ih ip hip (compiled_good (hinherit ip hip))).1,
        exists_inherited_eq fun ip hip => (ih ip hip (compiled_good (hinherit ip hip))).2⟩

/-! ## The law of lookups -/

section

variable {init : Nat} {s s' : source_t} {initializer : Bool}
variable {n : Nat}

theorem entry_defined (hs : Complete init s) {x m : Nat} {f : function_t} {flags : name_flags}
    (hm : lookup_ident s.c n = some m) (hf : s.c.table[m]? = some f)
    (hcode : f.flags.PROTOTYPE = false) (h : EntryOf s.c x n)
    (hflags : (finished s.c.table x).map function_t.flags = some flags) :
    flags.UNDEFINED = false := by
  obtain ⟨f', hf', hmain⟩ := hs.overloads.mains n m hm
  cases hf.symm.trans hf'
  have hmarked : (marked f).flags.UNDEFINED = false := (marked_flags hmain).1.trans hcode
  rcases h with hx | ⟨g, hg, halias, hx⟩
  · cases hm.symm.trans hx
    rw [main_finished hf hmain, Option.map_some, Option.some.injEq] at hflags
    rwa [← hflags]
  · rw [hm, Option.some.injEq] at hx
    rw [finished, hg] at hflags
    simp only [halias, if_true, ← hx, hf, Option.map_some, Option.some.injEq] at hflags
    rw [← hflags, aliased]
    split
    · exact hmarked
    · rw [(hs.overloads.aliases x g hg halias).flags]
      rfl

theorem local_call_reaches
    (hsource : Reachable source_t.start (source_t.step init) (ordinary init) s)
    (hinit : add_init init s initializer = some s') (hfits : fits s'.c)
    (hinherit : ∀ ip ∈ s.inherit, Compiled init fits ip.1) (hn : n ≠ init) (addr id_number : Nat)
    (pname : List Char) :
    (lookup_ident s'.c n).bind
        (call_function_by_address (epilog init addr id_number pname s')) =
      (definition (epilog init addr id_number pname s') n).map definition_t.found := by
  obtain ⟨hs, hsame⟩ := add_init_complete hsource
    (fun ip hip => (compiled_good (hinherit ip hip)).toInheritable) hinit
  have hgood : ∀ ip ∈ s'.inherit, Good init ip.1 := by
    rw [hsame]
    exact fun ip hip => compiled_good (hinherit ip hip)
  cases hx : lookup_ident s'.c n with
  | none =>
    rw [unknown_definition addr id_number pname hs hgood hn hx]
    rfl
  | some x =>
    obtain ⟨f, hf, hmain⟩ := hs.overloads.mains n x hx
    obtain ⟨hnone, hsome⟩ := main_definition addr id_number pname hs hfits hgood hn hx hf hmain
    have hflags : (epilog init addr id_number pname s').function_flags[x]? =
        some (marked f).flags := by
      rw [epilog_flags addr id_number pname hs, main_finished hf hmain, Option.map_some]
    rw [Option.bind_some, call_function_by_address, hflags]
    simp only [(marked_flags hmain).1]
    cases hproto : f.flags.PROTOTYPE with
    | true =>
      rw [hnone hproto]
      rfl
    | false =>
      obtain ⟨d, hd, hwalk, -⟩ := hsome hproto
      simp [hwalk, hd]

theorem exists_reaches (hsource : Reachable source_t.start (source_t.step init) (ordinary init) s)
    (hinit : add_init init s initializer = some s') (hfits : fits s'.c)
    (hinherit : ∀ ip ∈ s.inherit, Compiled init fits ip.1) (hn : n ≠ init) (addr id_number : Nat)
    (pname : List Char) :
    function_exists (epilog init addr id_number pname s') n =
      (definition (epilog init addr id_number pname s') n).map definition_t.exists_ := by
  obtain ⟨hs, hsame⟩ := add_init_complete hsource
    (fun ip hip => (compiled_good (hinherit ip hip)).toInheritable) hinit
  have hgood : ∀ ip ∈ s'.inherit, Good init ip.1 := by
    rw [hsame]
    exact fun ip hip => compiled_good (hinherit ip hip)
  have hp : Compiled init fits (epilog init addr id_number pname s') :=
    .mk addr id_number pname hsource hinit hfits hinherit
  rw [function_exists, (searches_find hp hn).2]
  cases hd : definition (epilog init addr id_number pname s') n with
  | none => rfl
  | some d =>
    cases hx : lookup_ident s'.c n with
    | none =>
      simp [unknown_definition addr id_number pname hs hgood hn hx] at hd
    | some x =>
      obtain ⟨f, hf, hmain⟩ := hs.overloads.mains n x hx
      obtain ⟨hnone, hsome⟩ := main_definition addr id_number pname hs hfits hgood hn hx hf hmain
      have hcode : f.flags.PROTOTYPE = false := by
        cases hproto : f.flags.PROTOTYPE with
        | false => rfl
        | true =>
          simp [hnone hproto] at hd
      obtain ⟨d', hd', -, hentry⟩ := hsome hcode
      cases hd.symm.trans hd'
      obtain ⟨flags, hflags, -⟩ := entry_copied addr id_number pname hs hfits hgood hn hentry
      have hindex : (d.exists_).runtime_index = d.fio + d.function.runtime_index := rfl
      rw [Option.map_some, Option.bind_some, hindex, hflags]
      rw [epilog_flags addr id_number pname hs] at hflags
      simp [entry_defined hs hx hf hcode hentry hflags]

/-- A call by name, a local call and `function_exists` mean one definition, with one place,
or the name is undefined for all of them. -/
theorem lookups_agree
    (hsource : Reachable source_t.start (source_t.step init) (ordinary init) s)
    (hinit : add_init init s initializer = some s') (hfits : fits s'.c)
    (hinherit : ∀ ip ∈ s.inherit, Compiled init fits ip.1) {n : Nat} (hn : n ≠ init)
    (addr id_number : Nat) (pname : List Char) :
    let p := epilog init addr id_number pname s'
    ffbn_recurse2 addr p.run_time n =
        (lookup_ident s'.c n).bind (call_function_by_address p) ∧
      (function_exists p n).map (fun r => (r.addr, r.prog, r.index)) =
        (ffbn_recurse2 addr p.run_time n).map fun r => (r.addr, r.prog, r.index) := by
  intro p
  have hp : Compiled init fits p := .mk addr id_number pname hsource hinit hfits hinherit
  have hfound : ffbn_recurse2 addr p.run_time n = _ := (searches_find hp hn).1
  refine ⟨?_, ?_⟩
  · rw [hfound, local_call_reaches hsource hinit hfits hinherit hn]
  · rw [hfound, exists_reaches hsource hinit hfits hinherit hn, Option.map_map, Option.map_map]
    rfl

end

/-- `f` of `/std/c.c` is the function of `/b.c` for all of them. -/
theorem f_is_one_function :
    ((lookup_ident (compilation 0 inherit_f).c 5).bind
        (call_function_by_address an_inherited_f)).map (fun f => (f.addr, f.index, f.fio, f.vio)) =
        some (2, 0, 1, 3) ∧
      (function_exists an_inherited_f 5).map (fun r => (r.addr, r.index)) = some (2, 0) := by
  obtain ⟨hlocal, hexists⟩ := lookups_agree (n := 5)
    (compilation_reachable (by decide) (by decide))
    (show add_init 0 (compilation 0 inherit_f) false = some _ from rfl)
    (fits_of_short (by decide)) inherit_f_compiled (by decide) 3 3 "std/c.c".toList
  have hfound : (ffbn_recurse2 3 an_inherited_f.run_time 5).map
      (fun f => (f.addr, f.index, f.fio, f.vio)) = some (2, 0, 1, 3) := by decide
  obtain ⟨r, hr, hplace⟩ := Option.map_eq_some_iff.1 hfound
  have hr' : ffbn_recurse2 3 (epilog 0 3 3 "std/c.c".toList (compilation 0 inherit_f)).run_time 5 =
      some r := hr
  refine ⟨(congrArg _ hlocal).symm.trans hfound, ?_⟩
  rw [hr', Option.map_some, Option.map_eq_some_iff] at hexists
  obtain ⟨e, he, hsame⟩ := hexists
  have he' : function_exists an_inherited_f 5 = some e := he
  simp only [Prod.mk.injEq] at hsame hplace
  rw [he', Option.map_some, hsame.1, hsame.2.2, hplace.1, hplace.2.1]

/-! ## A function that is lost -/

def table_statement (init : Nat) : Statement → compiler.Statement
  | .inherit prog _ type_mod => .inherit (inherited init prog) type_mod
  | .function d _ => .function d

theorem run_tables {init : Nat} {statements : List Statement} {s : source_t} {c : compile_t}
    (h : run compile_t.step s.c (statements.map (table_statement init)) = some c) :
    ∃ s', run (source_t.step init) s statements = some s' ∧ s'.c = c := by
  induction statements generalizing s with
  | nil =>
    cases h
    exact ⟨s, rfl, rfl⟩
  | cons a statements ih =>
    rw [map_cons, run, Option.bind_eq_some_iff] at h
    obtain ⟨c1, hc1, h⟩ := h
    obtain ⟨s1, hs1, rfl⟩ : ∃ s1, s.step init a = some s1 ∧ s1.c = c1 := by
      cases a with
      | inherit prog vio type_mod
      | function d type => exact ⟨_, by rw [source_t.step, ← table_statement, hc1]; rfl, rfl⟩
    obtain ⟨s', hs', hc⟩ := ih h
    exact ⟨s', by rw [run, hs1, Option.bind_some, hs'], hc⟩

theorem run_functions {statements : List Statement}
    (hall : ∀ a ∈ statements, ∃ d type, a = .function d type)
    (h : run (source_t.step init) s statements = some s') : s'.inherit = s.inherit := by
  induction statements generalizing s with
  | nil =>
    cases h
    rfl
  | cons a statements ih =>
    rw [run, Option.bind_eq_some_iff] at h
    obtain ⟨s1, hs1, h⟩ := h
    rw [ih (fun a ha => hall a (mem_cons_of_mem _ ha)) h]
    obtain ⟨d, type, rfl⟩ := hall a mem_cons_self
    simp only [source_t.step, Option.map_eq_some_iff] at hs1
    obtain ⟨c, -, rfl⟩ := hs1
    rfl

theorem along_ordinary {statements : List Statement}
    (h : ∀ a ∈ statements, ∀ s, ordinary init s a) :
    Along (source_t.step init) (ordinary init) s statements := by
  induction statements generalizing s with
  | nil => trivial
  | cons a statements ih =>
    exact ⟨h a mem_cons_self s, fun s' _ => ih fun a ha => h a (mem_cons_of_mem _ ha)⟩

theorem lost_walk (addr id_number : Nat) (pname : List Char) (hs : Complete init s) {x : Nat}
    {f : function_t} (hfew : s.inherit.length ≤ USHRT_MAX) (hf : finished s.c.table x = some f)
    (hlost : FIND_FUNC_ENTRY (compiler.epilog s.c) x = none) :
    walk (epilog init addr id_number pname s) x = none := by
  have hat : (epilog_table s.c.table)[x]? = some f := (epilog_table_at hs.overloads x).trans hf
  have hflags : ((epilog_table s.c.table).map function_t.flags)[x]? = some f.flags := by
    rw [getElem?_map, hat, Option.map_some]
  unfold walk
  simp only [epilog, program_t.run_time, program_t.addr]
  rw [program.setup_new_frame, hflags, getElem?_map, getElem?_zipIdx, hat]
  simp only [Option.map_some, Nat.zero_add, hlost, Option.getD_none, moved_entry, unreadable]
  rw [program.frame_in_inherit_slot, run_time_inherit_eq, getElem?_map,
    getElem?_eq_none hfew]
  split <;> rfl

/-- `late() { }` -/
def a_late_function : program_t :=
  epilog 1000 2 2 "b.c".toList (compilation 1000 [a_function 256 no_mods])

theorem a_late_function_compiled : Compiled 1000 fits a_late_function :=
  compilation_compiled 2 _ (by decide) (by decide) (by decide)
    (fun ip hip => by cases hip)

theorem inherited_late_function :
    inherited 1000 a_late_function = ⟨[(256, plain_flags)], false⟩ := by
  have hfunctions : (inherited 1000 a_late_function).functions = [(256, plain_flags)] := by
    decide
  have hinitializer : (inherited 1000 a_late_function).initializer = false := by decide
  rw [← hfunctions, ← hinitializer]

def local_functions : List Statement := (List.range 256).map fun k => a_function k no_mods

theorem late_source : ∃ s, Reachable source_t.start (source_t.step 1000) (ordinary 1000) s ∧
    s.inherit = [(a_late_function, 256, 0, no_mods)] ∧
    s.c.inherits = [⟨⟨[(256, plain_flags)], false⟩, 256, no_mods⟩] ∧
    s.c.table = (List.range 256).map local_entry ++ [late_entry false] ∧
    lookup_ident s.c 256 = some 256 := by
  obtain ⟨c, c', hc, hstep, hlength, hinh, htable, hlookup⟩ := inherit_after_locals
  have hstatements : local_functions.map (table_statement 1000) =
      (List.range 256).map local_function := by
    rw [local_functions, map_map]
    exact map_congr_left fun _ _ => rfl
  rw [← hstatements] at hc
  obtain ⟨s, hs, rfl⟩ := @run_tables 1000 local_functions source_t.start c hc
  have hnone : s.inherit = [] := by
    refine run_functions ?_ hs
    intro a ha
    obtain ⟨k, -, rfl⟩ := mem_map.1 ha
    exact ⟨_, _, rfl⟩
  have hreach : Reachable source_t.start (source_t.step 1000) (ordinary 1000) s := by
    refine .of_run .start (along_ordinary ?_) hs
    intro a ha s
    obtain ⟨k, hk, rfl⟩ := mem_map.1 ha
    have := mem_range.1 hk
    simp only [a_function, ordinary]
    omega
  refine ⟨_, .step (a := .inherit a_late_function 0 no_mods) hreach trivial
    (by rw [source_t.step, inherited_late_function, hstep]; rfl), ?_, hinh, htable, hlookup⟩
  simp [hnone, hlength]

theorem Compiled.weaken {ok ok' : compile_t → Prop} (hok : ∀ c, ok c → ok' c) {p : program_t}
    (h : Compiled init ok p) : Compiled init ok' p := by
  induction h with
  | mk addr id_number name hsource hinit hfits hinherit ih =>
    exact .mk addr id_number name hsource hinit (hok _ hfits) ih

/-- A call by name runs the function, and a local call reads outside the tables. -/
theorem a_late_function_is_lost :
    ¬ ∀ (init : Nat) (s s' : source_t) (initializer : Bool) (n addr id_number : Nat)
        (pname : List Char),
      Reachable source_t.start (source_t.step init) (ordinary init) s →
      add_init init s initializer = some s' →
      (∀ ip ∈ s.inherit, Compiled init (fun _ => True) ip.1) → n ≠ init →
        let p := epilog init addr id_number pname s'
        ffbn_recurse2 addr p.run_time n =
          (lookup_ident s'.c n).bind (call_function_by_address p) := by
  intro hall
  obtain ⟨s, hsource, hinherit, hinh, htable, hlookup⟩ := late_source
  have hq : ∀ ip ∈ s.inherit, Compiled 1000 fits ip.1 := by
    rw [hinherit]
    intro ip hip
    rw [mem_singleton] at hip
    rw [hip]
    exact a_late_function_compiled
  have hinit : add_init 1000 s false = some s := rfl
  have hagree := hall 1000 s s false 256 3 3 "c.c".toList hsource hinit
    (fun ip hip => (hq ip hip).weaken fun _ _ => trivial) (by decide)
  have hs : Complete 1000 s := (add_init_complete hsource
    (fun ip hip => (compiled_good (hq ip hip)).toInheritable) hinit).1
  have hlate : s.c.table[256]? = some (late_entry false) := by
    rw [htable, getElem?_append_right (by simp)]
    simp
  have hnotowned : ∀ x num, lookup_ident s.c 256 = some x → ¬ Owned s.c x num := by
    rintro x num hx ⟨f, hf, hnum⟩
    cases hlookup.symm.trans hx
    rw [hlate, Option.some.injEq] at hf
    rw [← hf] at hnum
    cases hnum
  have hfinished : finished s.c.table 256 = some (late_entry true) := by
    rw [finished, hlate]
    rfl
  -- by name the function is found in the program that is inherited
  have hname : (ffbn_recurse2 3 (epilog 1000 3 3 "c.c".toList s).run_time 256).isSome = true := by
    have hfind := searched 3 3 "c.c".toList hs (n := 256) (by decide)
    have hsearch := search_inherited2_eq (n := 256) fun ip hip =>
      (searches_find (hq ip hip) (by decide)).1
    have heq := ffbn_recurse2_eq (epilog 1000 3 3 "c.c".toList s) 256
    rw [hfind, table_no_index 3 3 "c.c".toList hs hnotowned] at heq
    refine (congrArg Option.isSome heq).trans ?_
    refine (congrArg Option.isSome hsearch).trans ?_
    rw [hinherit]
    decide
  -- its entry is lost
  have hlocal : call_function_by_address (epilog 1000 3 3 "c.c".toList s) 256 = none := by
    have hflags := epilog_flags 3 3 "c.c".toList hs 256
    rw [hfinished, Option.map_some] at hflags
    have hfew : s.inherit.length ≤ USHRT_MAX := by
      rw [hinherit]
      decide
    rw [call_function_by_address, hflags,
      lost_walk 3 3 "c.c".toList hs hfew hfinished (late_entry_is_lost hinh htable)]
    split
    · rfl
    · exact ite_self _
  rw [hagree, hlookup, Option.bind_some, hlocal] at hname
  cases hname

end mudos.inherited_calls
