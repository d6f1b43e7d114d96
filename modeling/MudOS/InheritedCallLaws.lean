-- The law of inherited calls: the first inherit statement that a reference may mean and
-- that has a definition decides it, and the call that is compiled runs that definition.
import MudOS.InheritedProgramLaws

open mudos.runs List Option
open mudos.compiler
open mudos.program (found_t frame_in_inherit)

namespace mudos.inherited_calls

variable {n init : Nat}
variable {d : definition_t}

/-! ## The search for the function -/

def definition_t.call (d : definition_t) (node : parse_node_t) : parse_node_t :=
  { node with
    kind := .NODE_CALL_2
    v := .F_CALL_INHERITED
    l := d.fio + d.function.runtime_index
    type := d.function.type }

/-- What a search with this result says of a definition. A private one may be found when the
search does not look where it is hidden, and then the node is anything. -/
def Says (result : Int × parse_node_t) (node : parse_node_t) : Option definition_t → Prop
  | none => result = (0, node)
  | some d =>
    result.1 = (if d.refused then -1 else 1) ∧ result.2.r = node.r ∧
      (d.hidden = false → result.2 = d.call node)

theorem refused_of_not_hidden (h : d.hidden = false) : d.refused = false := by
  unfold definition_t.hidden at h
  rw [Bool.or_eq_false_iff] at h
  unfold definition_t.refused
  cases hpath : d.path with
  | nil => exact h.1
  | cons type_mod path =>
    rw [hpath, any_cons, Bool.or_eq_false_iff] at h
    exact h.2.1

theorem find_matching_function_eq (p : program_t) (n : Nat) (node : parse_node_t) :
    find_matching_function p n node =
      match program.find_name p.run_time n with
      | some mid =>
        match p.function_table[mid]?, program.flags_of p.run_time mid with
        | some funp, some flags =>
          if flags.UNDEFINED || flags.PROTOTYPE || flags.INHERITED then
            if flags.INHERITED then search_inherited_tables p.inherit n node else (0, node)
          else if flags.mods.PRIVATE then (-1, node)
          else
            (1, { node with
              kind := .NODE_CALL_2
              v := .F_CALL_INHERITED
              l := funp.runtime_index
              type := funp.type })
        | _, _ => (0, node)
      | none => search_inherited_tables p.inherit n node := by
  obtain ⟨addr, id_number, pname, function_table, function_flags, function_offsets, inherit⟩ := p
  rw [find_matching_function]
  rfl

theorem flags_of_eq (p : program_t) (mid : Nat) :
    program.flags_of p.run_time mid =
      p.function_table[mid]?.bind fun f => p.function_flags[f.runtime_index]? := by
  obtain ⟨addr, id_number, pname, function_table, function_flags, function_offsets, inherit⟩ := p
  simp only [program.flags_of, program_t.run_time, program.program_t.function_table,
    program.program_t.function_flags, program_t.function_table, program_t.function_flags,
    getElem?_map]
  cases function_table[mid]? <;> rfl

theorem search_says {inherit : List (program_t × Nat × Nat × name_mods)} {node : parse_node_t}
    (h : ∀ ip ∈ inherit, Says (find_matching_function ip.1 n node) node (definition ip.1 n)) :
    Says (search_inherited_tables inherit n node) node (last_definition inherit n) := by
  induction inherit with
  | nil => rfl
  | cons ip inherit ih =>
    obtain ⟨prog, fio, vio, type_mod⟩ := ip
    have hlater := ih fun ip hip => h ip (mem_cons_of_mem _ hip)
    have hfirst := h (prog, fio, vio, type_mod) mem_cons_self
    rw [search_inherited_tables, last_definition]
    cases hlast : last_definition inherit n with
    | some d =>
      rw [hlast] at hlater
      have hne : (search_inherited_tables inherit n node).1 ≠ 0 := by
        rw [hlater.1]
        split <;> decide
      simp only [hne, ne_eq, not_false_eq_true, if_true]
      exact hlater
    | none =>
      rw [hlast] at hlater
      have hzero : search_inherited_tables inherit n node = (0, node) := hlater
      simp only [hzero, ne_eq, not_true_eq_false, if_false]
      cases hd : definition prog n with
      | none =>
        simp only [hd] at hfirst
        have hnone : find_matching_function prog n node = (0, node) := hfirst
        simp only [hnone, not_true_eq_false, if_false, map_none]
        rfl
      | some d =>
        simp only [hd] at hfirst
        obtain ⟨hret, hr, hcall⟩ := hfirst
        have hne : (find_matching_function prog n node).1 ≠ 0 := by
          rw [hret]
          split <;> decide
        simp only [hne, not_false_eq_true, if_true, map_some]
        cases hprivate : type_mod.PRIVATE with
        | true =>
          simp only [if_true]
          refine ⟨?_, hr, ?_⟩
          · simp [definition_t.refused, hprivate]
          · intro hhidden
            simp only [definition_t.hidden, any_cons, hprivate, Bool.true_or, Bool.or_true]
              at hhidden
            cases hhidden
        | false =>
          simp only [Bool.false_eq_true, if_false]
          refine ⟨?_, hr, ?_⟩
          · simp [definition_t.refused, hprivate]
          · intro hhidden
            simp only [definition_t.hidden, any_cons, hprivate, Bool.false_or] at hhidden
            rw [hcall hhidden]
            simp only [definition_t.call, parse_node_t.mk.injEq, true_and, and_true]
            omega

theorem find_says {p : program_t} (hp : Compiled init fits p) (hn : n ≠ init) (node : parse_node_t) :
    Says (find_matching_function p n node) node (definition p n) := by
  have hgood := compiled_good hp
  induction hp with
  | mk addr id_number name hsource hinit hfits hinherit ih =>
    rename_i s s' initializer
    have hsame : s'.inherit = s.inherit :=
      (add_init_complete hsource
        (fun ip hip => (compiled_good (hinherit ip hip)).toInheritable) hinit).2
    have hinherited : (epilog init addr id_number name s').inherit = s.inherit := hsame
    generalize epilog init addr id_number name s' = p at hgood hinherited
    rw [find_matching_function_eq, definition_eq, hgood.searched n hn, hinherited]
    cases hmid : p.function_table.findIdx? fun f => f.name == n with
    | some mid =>
      obtain ⟨hlt, -⟩ := findIdx?_eq_some_iff_getElem.1 hmid
      have hget := getElem?_eq_getElem hlt
      obtain ⟨flags, hflags, hundefined, hopen⟩ := hgood.own mid _ hget
      generalize p.function_table[mid] = g at hget hflags
      simp only [flags_of_eq, hget, bind_some, hflags, hundefined, hopen, Bool.or_self, Bool.or_false,
        Bool.false_eq_true, if_false]
      cases hproto : flags.PROTOTYPE with
      | true => rfl
      | false =>
        simp only [Bool.false_eq_true, if_false]
        cases hprivate : flags.mods.PRIVATE with
        | true =>
          simp only [if_true]
          refine ⟨?_, rfl, ?_⟩
          · simp [definition_t.refused, hprivate]
          · simp [definition_t.hidden, hprivate]
        | false =>
          simp only [Bool.false_eq_true, if_false]
          refine ⟨?_, rfl, ?_⟩
          · simp [definition_t.refused, hprivate]
          · intro _
            simp [definition_t.call]
    | none =>
      apply search_says
      intro ip hip
      exact ih ip hip (compiled_good (hinherit ip hip))

/-! ## The reference -/

theorem split_reference {super_name : Option (List Char)} (real_name : List Char)
    (h : ∀ t, super_name = some t → t ≠ [] ∧ ':' ∉ t) :
    split_name (reference super_name real_name) = (super_name, real_name) := by
  cases super_name with
  | none => rfl
  | some t =>
    obtain ⟨hne, hcolon⟩ := h t rfl
    have hsplit : reference (some t) real_name = t ++ (':' :: ':' :: real_name) := by
      simp [reference]
    have hhead : (t ++ (':' :: ':' :: real_name)).head? ≠ some ':' := by
      cases t with
      | nil => exact absurd rfl hne
      | cons c t =>
        intro h
        rw [cons_append, head?_cons, some.injEq] at h
        exact hcolon (h ▸ mem_cons_self)
    have hidx : (t ++ (':' :: ':' :: real_name)).idxOf ':' = t.length := by
      rw [idxOf_append_of_notMem hcolon, idxOf_cons_self, Nat.add_zero]
    rw [split_name, hsplit, if_neg hhead]
    simp only [hidx]
    rw [take_left, drop_append]
    simp

theorem invalid_congr {a b : parse_node_t} (h : a.r = b.r) (error : List Char) :
    invalid a error = invalid b error := by simp [invalid, h]

theorem first_definition_at {super_name : Option (List Char)}
    {inherit : List (program_t × Nat × Nat × name_mods)} {i j : Nat}
    {ip : program_t × Nat × Nat × name_mods}
    (h : first_definition super_name n inherit i = some (j, ip, d)) :
    (∃ k : Nat, j = i + k ∧ inherit[k]? = some ip) ∧ definition ip.1 n = some d := by
  induction inherit generalizing i with
  | nil => cases h
  | cons first inherit ih =>
    have hnext : first_definition super_name n inherit (i + 1) = some (j, ip, d) →
        (∃ k : Nat, j = i + k ∧ (first :: inherit)[k]? = some ip) ∧
          definition ip.1 n = some d := by
      intro h
      obtain ⟨⟨k, rfl, hk⟩, hd⟩ := ih h
      exact ⟨⟨k + 1, by omega, hk⟩, hd⟩
    rw [first_definition] at h
    split at h
    · exact hnext h
    · split at h
      · rename_i d' hd'
        simp only [some.injEq, Prod.mk.injEq] at h
        obtain ⟨rfl, rfl, rfl⟩ := h
        exact ⟨⟨0, rfl, rfl⟩, hd'⟩
      · exact hnext h

theorem arrange_loop_eq {super_name : Option (List Char)} {n : Nat} {name : List Char}
    {inherit : List (program_t × Nat × Nat × name_mods)} {node : parse_node_t}
    (h : ∀ ip ∈ inherit, Says (find_matching_function ip.1 n node) node (definition ip.1 n))
    (i : Nat) :
    match first_definition super_name n inherit i with
    | none =>
      arrange_loop super_name n name inherit i node =
        invalid node (message ("No such inherited function ".toList ++ name))
    | some (j, ip, d) =>
      ((ip.2.2.2.PRIVATE || d.refused) = true →
        arrange_loop super_name n name inherit i node =
          invalid node "Called function is private.".toList) ∧
      ((ip.2.2.2.PRIVATE || d.hidden) = false →
        arrange_loop super_name n name inherit i node =
          { ret := some (d.fio + d.function.runtime_index + ip.2.1)
            node := { d.call node with
              l := d.fio + d.function.runtime_index + j * 65536 }
            errors := [] }) := by
  induction inherit generalizing i with
  | nil => rfl
  | cons ip inherit ih =>
    obtain ⟨prog, fio, vio, type_mod⟩ := ip
    have hnext := ih (fun ip hip => h ip (mem_cons_of_mem _ hip)) (i + 1)
    have hfirst := h (prog, fio, vio, type_mod) mem_cons_self
    rw [first_definition, arrange_loop]
    by_cases hsuper : (super_name.any fun s => !super_matches s prog.name) = true
    · simp only [hsuper, if_true]
      exact hnext
    · rw [Bool.not_eq_true] at hsuper
      simp only [hsuper, Bool.false_eq_true, if_false]
      cases hd : definition prog n with
      | none =>
        simp only [hd] at hfirst
        have hnone : find_matching_function prog n node = (0, node) := hfirst
        simp only [hnone, ne_eq, not_true_eq_false, if_false]
        exact hnext
      | some d =>
        simp only [hd] at hfirst
        obtain ⟨hret, hr, hcall⟩ := hfirst
        have hne : (find_matching_function prog n node).1 ≠ 0 := by
          rw [hret]
          split <;> decide
        simp only [hne, ne_eq, not_false_eq_true, if_true]
        simp only [hret]
        constructor
        · intro hprivate
          have hcond : (if d.refused = true then (-1 : Int) else 1) = -1 ∨
              type_mod.PRIVATE = true := by
            rw [Bool.or_eq_true] at hprivate
            rcases hprivate with hprivate | hrefused
            · exact .inr hprivate
            · exact .inl (by rw [hrefused, if_pos rfl])
          rw [if_pos hcond]
          exact invalid_congr hr _
        · intro hpublic
          rw [Bool.or_eq_false_iff] at hpublic
          rw [refused_of_not_hidden hpublic.2, if_neg, hcall hpublic.2]
          · rfl
          · rw [hpublic.1]
            simp

/-! ## The law of inherited calls -/

theorem call_inherited_eq {inherits : List (program_t × Nat × Nat × name_mods)}
    {ip : program_t × Nat × Nat × name_mods} {i : Nat} (hp : Compiled init fits ip.1)
    (hn : n ≠ init) (hi : inherits[i]? = some ip) (hbyte : i < 256)
    (hd : definition ip.1 n = some d) {node : parse_node_t}
    (hl : node.l = d.fio + d.function.runtime_index + i * 65536) :
    call_inherited inherits node = some (from_inherit ip d.found) := by
  have hgood := compiled_good hp
  obtain ⟨flags, hcopied⟩ := hgood.index n d hn hd
  have hname := hgood.copied_name hcopied
  have hlt := (List.getElem?_eq_some_iff.1 (copied_at.1 hcopied).2.1).1
  have hshort : _ ≤ 65535 := hgood.short
  have hindex : node.l / 65536 % 256 = i := by
    rw [hl]
    omega
  have hoffset : node.l % 65536 = d.fio + d.function.runtime_index := by
    rw [hl]
    omega
  rw [call_inherited, hindex, hoffset, frame_in_inherit_walk hi,
    hgood.defined _ n d hn hname hd, map_some]

/-- The first inherit statement that the reference may mean and whose program defines the
function decides. When the definition is accessible, the node is set, and the call runs that
definition, also with the programs that are inherited `later`; when the definition or the
statement is private, or the definition is inherited through a private statement of that
program, there is an error, as there is when no program defines the function. -/
theorem first_definition_decides (init : Nat)
    {inherits : List (program_t × Nat × Nat × name_mods)}
    (hinherits : ∀ ip ∈ inherits, Compiled init fits ip.1) (findstring : List Char → Option Nat)
    (super_name : Option (List Char)) (real_name : List Char)
    (hsuper : ∀ t, super_name = some t → t ≠ [] ∧ ':' ∉ t)
    (hinit : findstring real_name ≠ some init) (node : parse_node_t)
    (later : List (program_t × Nat × Nat × name_mods)) :
    let name := reference super_name real_name
    let r := arrange_call_inherited findstring inherits name node
    match (findstring real_name).bind fun n => first_definition super_name n inherits 0 with
    | none => r = invalid node (message ("No such inherited function ".toList ++ name))
    | some (i, ip, d) =>
      ((ip.2.2.2.PRIVATE || d.refused) = true →
        r = invalid node "Called function is private.".toList) ∧
      ((ip.2.2.2.PRIVATE || d.hidden) = false →
        r.ret = some (d.fio + d.function.runtime_index + ip.2.1) ∧ r.errors = [] ∧
        r.node = { node with
          kind := .NODE_CALL_2
          v := .F_CALL_INHERITED
          l := d.fio + d.function.runtime_index + i * 65536
          type := d.function.type } ∧
        (i < 256 →
          call_inherited (inherits ++ later) r.node = some (from_inherit ip d.found))) := by
  intro name r
  have hr : r = match findstring real_name with
      | some shared_string => arrange_loop super_name shared_string name inherits 0 node
      | none => invalid node (message ("No such inherited function ".toList ++ name)) := by
    show arrange_call_inherited findstring inherits (reference super_name real_name) node = _
    simp only [arrange_call_inherited, name, split_reference real_name hsuper] <;> rfl
  cases hn : findstring real_name with
  | none =>
    rwa [hn] at hr
  | some n =>
    rw [hn] at hr
    have hne : n ≠ init := by
      rintro rfl
      exact hinit hn
    have hloop := @arrange_loop_eq super_name n name inherits node
      (fun ip hip => find_says (hinherits ip hip) hne node) 0
    simp only [bind_some]
    simp only at hr
    rw [← hr] at hloop
    cases hfirst : first_definition super_name n inherits 0 with
    | none =>
      rwa [hfirst] at hloop
    | some first =>
      obtain ⟨i, ip, d⟩ := first
      rw [hfirst] at hloop
      obtain ⟨hrefused, hcall⟩ := hloop
      refine ⟨hrefused, fun hpublic => ?_⟩
      have hresult := hcall hpublic
      obtain ⟨⟨k, hk, hip⟩, hd⟩ := first_definition_at hfirst
      rw [Nat.zero_add] at hk
      subst hk
      rw [hresult]
      refine ⟨rfl, rfl, rfl, fun hbyte => ?_⟩
      have hat : (inherits ++ later)[i]? = some ip := by
        rw [getElem?_append_left (List.getElem?_eq_some_iff.1 hip).1, hip]
      exact call_inherited_eq (hinherits ip (mem_of_getElem? hip)) hne hat hbyte hd rfl

theorem fits_of_short {c : compile_t} (h : c.table.length ≤ 256) : fits c := by
  intro i hi
  have hlt := expected_lt hi
  rw [length_epilog_table] at hlt
  have hle := unexpected_le c.inherits (epilog_table c.table) i
  omega

def a_function (name : Nat) (type : name_mods) : Statement :=
  .function ⟨name, 0, 0, false, false, false, type⟩ 4

def compilation (init : Nat) (statements : List Statement) : source_t :=
  (run (source_t.step init) source_t.start statements).getD source_t.start

theorem compilation_reachable {statements : List Statement}
    (hrun : (run (source_t.step init) source_t.start statements).isSome = true)
    (hordinary : Along (source_t.step init) (ordinary init) source_t.start statements) :
    Reachable source_t.start (source_t.step init) (ordinary init) (compilation init statements) := by
  obtain ⟨s, hs⟩ := isSome_iff_exists.1 hrun
  have hsame : compilation init statements = s := by
    rw [compilation, hs, getD_some]
  rw [hsame]
  exact .of_run .start hordinary hs

theorem compilation_compiled (addr : Nat) (name : List Char) {statements : List Statement}
    (hrun : (run (source_t.step init) source_t.start statements).isSome = true)
    (hordinary : Along (source_t.step init) (ordinary init) source_t.start statements)
    (hshort : (compilation init statements).c.table.length ≤ 256)
    (hinherit : ∀ ip ∈ (compilation init statements).inherit, Compiled init fits ip.1) :
    Compiled init fits (epilog init addr addr name (compilation init statements)) := by
  have hnone : add_init init (compilation init statements) false =
      some (compilation init statements) := rfl
  exact .mk addr addr name (compilation_reachable hrun hordinary) hnone (fits_of_short hshort)
    hinherit

/-- `private f() { }` -/
def a_private_f : program_t :=
  epilog 0 1 1 "a.c".toList (compilation 0 [a_function 5 { no_mods with PRIVATE := true }])

/-- `f() { }` -/
def a_public_f : program_t := epilog 0 2 2 "b.c".toList (compilation 0 [a_function 5 no_mods])

/-- `g() { } inherit "b";`, after three variables -/
def inherit_f : List Statement := [a_function 6 no_mods, .inherit a_public_f 3 no_mods]

def an_inherited_f : program_t := epilog 0 3 3 "std/c.c".toList (compilation 0 inherit_f)

theorem a_private_f_compiled : Compiled 0 fits a_private_f :=
  compilation_compiled 1 _ (by decide) (by decide) (by decide)
    (fun ip hip => by cases hip)

theorem a_public_f_compiled : Compiled 0 fits a_public_f :=
  compilation_compiled 2 _ (by decide) (by decide) (by decide)
    (fun ip hip => by cases hip)

theorem inherit_f_compiled : ∀ ip ∈ (compilation 0 inherit_f).inherit, Compiled 0 fits ip.1 := by
  intro ip hip
  have hone : (compilation 0 inherit_f).inherit = [(a_public_f, 1, 3, no_mods)] := by rfl
  rw [hone, mem_singleton] at hip
  rw [hip]
  exact a_public_f_compiled

theorem an_inherited_f_compiled : Compiled 0 fits an_inherited_f :=
  compilation_compiled 3 _ (by decide) (by decide) (by decide)
    inherit_f_compiled

def findstring_f (text : List Char) : Option Nat := if text = ['f'] then some 5 else none

def a_node : parse_node_t := ⟨.other 0, .other 0, 0, 0, 0⟩

/-- `inherit "a"; inherit "std/c";` -/
def two_inherits_of_f : List (program_t × Nat × Nat × name_mods) :=
  [(a_private_f, 0, 0, no_mods), (an_inherited_f, 1, 0, no_mods)]

theorem two_inherits_compiled : ∀ ip ∈ two_inherits_of_f, Compiled 0 fits ip.1 := by
  intro ip hip
  rcases mem_cons.1 hip with rfl | hip
  · exact a_private_f_compiled
  · rw [mem_singleton] at hip
    rw [hip]
    exact an_inherited_f_compiled

/-- `c::f()` calls the function of `/b.c`, which `/std/c.c` inherits. -/
theorem c_f_is_called :
    let r := arrange_call_inherited findstring_f two_inherits_of_f "c::f".toList a_node
    r.ret = some 2 ∧ r.node = ⟨.NODE_CALL_2, .F_CALL_INHERITED, 65537, 0, 4⟩ ∧
      (call_inherited two_inherits_of_f r.node).map (fun f => (f.addr, f.index, f.fio, f.vio)) =
        some (2, 0, 2, 3) := by
  have h := first_definition_decides 0 two_inherits_compiled findstring_f (some ['c']) ['f']
    (by
      intro t ht
      cases ht
      decide) (by decide) a_node []
  obtain ⟨d, hd, hd'⟩ : ∃ d, first_definition (some ['c']) 5 two_inherits_of_f 0 =
      some (1, (an_inherited_f, 1, 0, no_mods), d) ∧ d = _ := ⟨_, rfl, rfl⟩
  have hn : findstring_f ['f'] = some 5 := rfl
  simp only [hn, bind_some, hd] at h
  obtain ⟨hret, -, hnode, hcall⟩ := h.2 (by rw [hd']; rfl)
  have hcalled := hcall (by decide)
  rw [append_nil] at hcalled
  refine ⟨hret.trans (by rw [hd']; rfl), hnode.trans (by rw [hd']; rfl), ?_⟩
  refine (congrArg _ hcalled).trans ?_
  rw [hd']
  rfl

/-- The private function of `/a.c` is in the way of that of `/b.c`. -/
theorem an_accessible_f_is_not_called :
    ¬ ∀ (inherits : List (program_t × Nat × Nat × name_mods)) (n : Nat) (node : parse_node_t),
      (∀ ip ∈ inherits, Compiled 0 fits ip.1) → n ≠ 0 → findstring_f ['f'] = some n →
        ((arrange_call_inherited findstring_f inherits "::f".toList node).ret.isSome = true ↔
          ∃ ip ∈ inherits, ∃ d, definition ip.1 n = some d ∧
            (ip.2.2.2.PRIVATE || d.hidden) = false) := by
  intro h
  have h := (h two_inherits_of_f 5 a_node two_inherits_compiled (by decide) rfl).2
    ⟨(an_inherited_f, 1, 0, no_mods), mem_cons_of_mem _ mem_cons_self, _, rfl, rfl⟩
  have hnone : (arrange_call_inherited findstring_f two_inherits_of_f "::f".toList a_node).ret.isSome
      = false := by decide
  rw [hnone] at h
  cases h

end mudos.inherited_calls
