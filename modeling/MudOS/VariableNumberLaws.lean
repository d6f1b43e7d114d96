-- The numbers and the names of the variables agree when their count fits in an `unsigned short`.
import MudOS.VariableNumbers
import Mathlib.Algebra.Ring.Nat

open List

namespace mudos.variable_numbers

variable {prog : program_t} {l : List (inherit_t program_t)} {k : Nat} {s : List UInt8}

/-! ## Layouts -/

theorem inherited_layout_append (l l' : List (inherit_t program_t)) :
    inherited_layout (l ++ l') = inherited_layout l ++ inherited_layout l' := by
  induction l with
  | nil => rfl
  | cons inh l ih => simp only [cons_append, inherited_layout, ih, append_assoc]

def Small (prog : program_t) : Prop := (layout prog).length ≤ 65535

theorem ushort_eq {n : Nat} (h : n ≤ 65535) : ushort n = n := Nat.mod_eq_of_lt (by omega)

inductive Laid : Nat → List (inherit_t program_t) → Prop
  | nil (start : Nat) : Laid start []
  | cons {start : Nat} {inh : inherit_t program_t} {rest : List (inherit_t program_t)} :
      inh.variable_index_offset = start → Laid (start + (layout inh.prog).length) rest →
      Laid start (inh :: rest)

inductive Exact : program_t → Prop
  | mk {inherit : List (inherit_t program_t)} (variable_table : List variable_t) :
      (∀ inh ∈ inherit, Exact inh.prog) → Laid 0 inherit →
      Small (.mk inherit variable_table (layout (.mk inherit variable_table 0)).length) →
      Exact (.mk inherit variable_table (layout (.mk inherit variable_table 0)).length)

theorem Exact.small (h : Exact prog) : Small prog := by
  cases h
  assumption

theorem Exact.total (h : Exact prog) : prog.num_variables_total = (layout prog).length := by
  cases h
  rfl

/-! ## Compiling -/

theorem defined_eq {variable_table : List variable_t} (h : variable_table.length ≤ 65535) :
    defined variable_table = variable_table := by rw [defined, ushort_eq h, take_length]

theorem Exact.table_le (h : Exact prog) : prog.variable_table.length ≤ 65535 := by
  cases h with
  | mk variable_table _ _ hsmall =>
    simp only [Small, layout, length_append, length_map] at hsmall
    change variable_table.length ≤ 65535
    omega

theorem copy_inherited_eq (h : ∀ inh ∈ l, copy_variables inh.prog = layout inh.prog) :
    copy_inherited l = inherited_layout l := by
  induction l with
  | nil => rfl
  | cons inh l ih =>
    obtain ⟨hinh, hl⟩ := forall_mem_cons.mp h
    rw [copy_inherited, inherited_layout, ih hl]
    exact congrArg (· ++ inherited_layout l) hinh

theorem copy_variables_eq (h : Exact prog) : copy_variables prog = layout prog := by
  induction h with
  | mk variable_table hall hlaid hsmall ih =>
    have htable : variable_table.length ≤ 65535 := (Exact.mk _ hall hlaid hsmall).table_le
    rw [copy_variables, layout, copy_inherited_eq ih, defined_eq htable]

theorem inherit_all_spec {inherits : List (program_t × UInt16)} {t : List (List UInt8)}
    (hexact : ∀ inh ∈ inherits, Small inh.1 → Exact inh.1)
    (hsmall : t.length + (inherited_layout (inherit_all t inherits).1).length ≤ 65535) :
    (∀ inh ∈ (inherit_all t inherits).1, Exact inh.prog) ∧
      Laid t.length (inherit_all t inherits).1 ∧
      (inherit_all t inherits).2 = t ++ inherited_layout (inherit_all t inherits).1 := by
  induction inherits generalizing t with
  | nil => exact ⟨fun _ h => (not_mem_nil h).elim, .nil _, (List.append_nil _).symm⟩
  | cons inh inherits ih =>
    obtain ⟨prog, type_mod⟩ := inh
    obtain ⟨hprog, hrest⟩ := forall_mem_cons.mp hexact
    simp only [inherit_all, inherited_layout, length_append] at hsmall ⊢
    have hthis : Exact prog := hprog (show (layout prog).length ≤ 65535 by omega)
    rw [copy_variables_eq hthis] at hsmall ⊢
    obtain ⟨hall, hlaid, htemp⟩ := ih (t := t ++ layout prog) hrest
      (by rw [length_append]; omega)
    rw [length_append] at hlaid
    refine ⟨forall_mem_cons.mpr ⟨hthis, hall⟩, .cons (ushort_eq (by omega)) hlaid, ?_⟩
    rw [htemp, append_assoc]

theorem exact_of_compiled (h : Compiled prog) (hsmall : Small prog) : Exact prog := by
  induction h with
  | @compile inherits variable_table _ ih =>
    have hle : (inherited_layout (inherit_all [] inherits).1).length + variable_table.length ≤
        65535 := by
      simpa [Small, compile, layout] using hsmall
    obtain ⟨hall, hlaid, htemp⟩ := inherit_all_spec (t := []) ih (by rw [length_nil]; omega)
    have htotal : ushort ((inherit_all [] inherits).2 ++ variable_table.map variable_t.name).length =
        (layout (.mk (inherit_all [] inherits).1 variable_table 0)).length := by
      rw [htemp, nil_append, layout]
      apply ushort_eq
      rwa [length_append, length_map]
    rw [compile, htotal]
    exact .mk variable_table hall hlaid hsmall

/-! ## Names -/

theorem Laid.le_of_any {start : Nat} (h : Laid start l)
    (hany : (l.any fun inh => inh.variable_index_offset ≤ k) = true) : start ≤ k := by
  induction h with
  | nil => cases hany
  | cons hoffset _ ih =>
    rw [any_cons, Bool.or_eq_true, decide_eq_true_eq] at hany
    rcases hany with hthis | hrest
    · omega
    · have := ih hrest
      omega

theorem Laid.any_of_lt {start : Nat} (h : Laid start l) (hle : start ≤ k)
    (hlt : k < start + (inherited_layout l).length) :
    (l.any fun inh => inh.variable_index_offset ≤ k) = true := by
  cases h with
  | nil => simp [inherited_layout] at hlt; omega
  | cons hoffset _ => simp [hoffset, hle]

theorem Laid.getLast {start : Nat} (h : Laid start l) {last : inherit_t program_t}
    (hlast : l.getLast? = some last) :
    last.variable_index_offset + (layout last.prog).length =
      start + (inherited_layout l).length := by
  induction h with
  | nil => cases hlast
  | @cons start inh rest hoffset hrest ih =>
    rw [inherited_layout, length_append]
    cases rest with
    | nil =>
      cases hlast
      rw [getLast_singleton, hoffset]
      rfl
    | cons next rest =>
      rw [ih hlast]
      exact Nat.add_assoc ..

theorem variable_below_eq {start : Nat} (h : Laid start l)
    (hname : ∀ inh ∈ l, ∀ k < (layout inh.prog).length,
      variable_name inh.prog k = (layout inh.prog)[k]?)
    (hle : start ≤ k) (hlt : k < start + (inherited_layout l).length) :
    variable_below l k = (inherited_layout l)[k - start]? := by
  induction h with
  | nil => simp [inherited_layout] at hlt; omega
  | @cons start inh rest hoffset hrest ih =>
    obtain ⟨hinh, hnames⟩ := forall_mem_cons.mp hname
    rw [inherited_layout, length_append] at hlt
    rw [variable_below, inherited_layout]
    by_cases hnext : start + (layout inh.prog).length ≤ k
    · rw [if_pos (hrest.any_of_lt hnext (by omega)), ih hnames hnext (by omega),
        getElem?_append_right (by omega)]
      congr 1
      omega
    · rw [if_neg fun hany => hnext (hrest.le_of_any hany), if_pos (by omega), hoffset,
        List.getElem?_append_left (by omega)]
      exact hinh _ (by omega)

theorem variable_name_eq (h : Exact prog) (hidx : k < (layout prog).length) :
    variable_name prog k = (layout prog)[k]? := by
  induction h generalizing k with
  | @mk inherit variable_table hall hlaid hsmall ih =>
    rw [layout, length_append] at hidx
    rw [variable_name, layout]
    cases hlast : inherit.getLast? with
    | none =>
      rw [getLast?_eq_none_iff.mp hlast, inherited_layout, nil_append, getElem?_map]
    | some last =>
      have hfirst := hlaid.getLast hlast
      have htotal := (hall last (mem_of_getLast? hlast)).total
      simp only
      rw [htotal, hfirst, Nat.zero_add]
      split_ifs with hown
      · rw [getElem?_append_right hown, getElem?_map]
      · rw [List.getElem?_append_left (by omega)]
        exact variable_below_eq hlaid (fun inh hinh k => ih inh hinh) (Nat.zero_le _) (by omega)

/-! ## Numbers -/

def Finds (names : List (List UInt8)) (s : List UInt8) (k : Nat) (r : Option UInt16 × Nat) :
    Prop :=
  match names.findIdx? (· = s) with
  | some i => r.1.isSome = true ∧ r.2 = k + i
  | none => r = (none, k + names.length)

theorem Finds.found {names : List (List UInt8)} {type : UInt16} {i : Nat}
    (h : Finds names s k (some type, i)) (more : List (List UInt8)) (type' : UInt16) :
    Finds (names ++ more) s k (some type', i) := by
  unfold Finds at h ⊢
  rw [findIdx?_append]
  cases hfind : names.findIdx? (· = s) with
  | none => simp [hfind] at h
  | some j =>
    rw [hfind] at h
    exact ⟨rfl, h.2⟩

theorem Finds.missed {names more : List (List UInt8)} {i : Nat} {r : Option UInt16 × Nat}
    (h : Finds names s k (none, i)) (hmore : Finds more s i r) :
    Finds (names ++ more) s k r := by
  unfold Finds at h hmore ⊢
  rw [findIdx?_append]
  cases hfind : names.findIdx? (· = s) with
  | some j => simp [hfind] at h
  | none =>
    simp only [hfind, Prod.mk.injEq, true_and] at h
    subst h
    cases hrest : more.findIdx? (· = s) with
    | none => simpa [hrest, Nat.add_assoc] using hmore
    | some j =>
      simp only [hrest] at hmore
      simp only [Option.none_or, Option.map_some]
      exact ⟨hmore.1, by omega⟩

theorem fgv_inherited_finds (hfind : ∀ inh ∈ l, ∀ k,
      Finds (layout inh.prog) s k (fgv_recurse inh.prog k s)) (k : Nat) :
    Finds (inherited_layout l) s k (fgv_inherited l k s) := by
  induction l generalizing k with
  | nil => rfl
  | cons inh l ih =>
    obtain ⟨hinh, hl⟩ := forall_mem_cons.mp hfind
    have hthis := hinh k
    rw [fgv_inherited, inherited_layout]
    split
    · rename_i type i hsome
      rw [hsome] at hthis
      exact hthis.found _ _
    · rename_i i hnone
      rw [hnone] at hthis
      exact hthis.missed (ih hl i)

theorem fgv_recurse_finds (h : Exact prog) (k : Nat) :
    Finds (layout prog) s k (fgv_recurse prog k s) := by
  induction h generalizing k with
  | @mk inherit variable_table hall hlaid hsmall ih =>
    have htable : variable_table.length ≤ 65535 := (Exact.mk _ hall hlaid hsmall).table_le
    have hinherited := fgv_inherited_finds (s := s) ih k
    rw [fgv_recurse, layout, defined_eq htable]
    split
    · rename_i type i hsome
      rw [hsome] at hinherited
      exact hinherited.found _ _
    · rename_i i hnone
      rw [hnone] at hinherited
      refine hinherited.missed ?_
      unfold Finds
      rw [findIdx?_map]
      simp only [Function.comp_def]
      cases hown : variable_table.findIdx? fun v => v.name = s with
      | none => simp
      | some j =>
        have hlt := (findIdx?_eq_some_iff_getElem.mp hown).1
        simp [hlt]

theorem find_global_variable_of_mem (h : Exact prog) (hmem : s ∈ layout prog) :
    ∃ j type, find_global_variable prog s = some (j, type) ∧
      variable_name prog j = some s := by
  have hfinds := fgv_recurse_finds (s := s) h 0
  unfold Finds at hfinds
  cases hfind : (layout prog).findIdx? (· = s) with
  | none =>
    have hnot := findIdx?_eq_none_iff.mp hfind s hmem
    simp at hnot
  | some i =>
    obtain ⟨hlt, hi, -⟩ := findIdx?_eq_some_iff_getElem.mp hfind
    rw [hfind] at hfinds
    obtain ⟨type, htype⟩ := Option.isSome_iff_exists.mp hfinds.1
    have hrecurse : fgv_recurse prog 0 s = (some type, i) := by
      rw [← htype, ← Nat.zero_add i, ← hfinds.2]
    refine ⟨i, _, by rw [find_global_variable, hrecurse], ?_⟩
    rw [variable_name_eq h hlt, getElem?_eq_getElem hlt, of_decide_eq_true hi]

/-! ## Blocks -/

theorem exists_inherited (hidx : k < (inherited_layout l).length) :
    ∃ before inh after, l = before ++ inh :: after ∧ (inherited_layout before).length ≤ k ∧
      k - (inherited_layout before).length < (layout inh.prog).length ∧
      (inherited_layout l)[k]? = (layout inh.prog)[k - (inherited_layout before).length]? := by
  induction l generalizing k with
  | nil => simp [inherited_layout] at hidx
  | cons inh l ih =>
    rw [inherited_layout, length_append] at hidx
    rw [inherited_layout]
    by_cases hthis : k < (layout inh.prog).length
    · refine ⟨[], inh, l, rfl, Nat.zero_le _, hthis, ?_⟩
      rw [List.getElem?_append_left hthis]
      rfl
    · rw [Nat.not_lt] at hthis
      obtain ⟨before, other, after, rfl, hle, hlt, hget⟩ :=
        ih (k := k - (layout inh.prog).length) (by omega)
      have hlength : (inherited_layout (inh :: before)).length =
          (layout inh.prog).length + (inherited_layout before).length := length_append
      refine ⟨inh :: before, other, after, rfl, by omega, ?_, ?_⟩
      · rwa [hlength, ← Nat.sub_sub]
      · rw [getElem?_append_right hthis, hget, hlength, Nat.sub_sub]

theorem exists_block (h : Exact prog) (hidx : k < (layout prog).length) :
    ∃ start owner v, Block prog start owner ∧ start ≤ k ∧
      owner.variable_table[k - start]? = some v ∧ (layout prog)[k]? = some v.name := by
  induction h generalizing k with
  | @mk inherit variable_table _ _ _ ih =>
    generalize (layout (.mk inherit variable_table 0)).length = total at hidx ⊢
    rw [layout, length_append, length_map] at hidx
    rw [layout]
    by_cases hown : (inherited_layout inherit).length ≤ k
    · have hv := getElem?_eq_getElem (l := variable_table)
        (i := k - (inherited_layout inherit).length) (by omega)
      refine ⟨_, _, _, .own, hown, hv, ?_⟩
      rw [getElem?_append_right hown, getElem?_map, hv]
      rfl
    · rw [Nat.not_le] at hown
      obtain ⟨before, inh, after, hinherit, hle, hlt, hget⟩ := exists_inherited hown
      have hmem : inh ∈ inherit := by simp [hinherit]
      obtain ⟨start, owner, v, hblock, hstart, hv, hname⟩ := ih inh hmem hlt
      refine ⟨_, owner, v, .inherited hinherit hblock, by omega, ?_, ?_⟩
      · rwa [← Nat.sub_sub]
      · rw [List.getElem?_append_left hown, hget, hname]

/-- A program with one variable, and two that inherit it, the second one from both ends. -/
def x : variable_t := ⟨[120], 0⟩

def diamond : program_t :=
  compile [(compile [(compile [] [x], 0)] [⟨[121], 0⟩], 0), (compile [] [x], 0)] [⟨[122], 0⟩]

theorem compiled_x : Compiled (compile [] [x]) := .compile _ (fun _ h => (not_mem_nil h).elim)

theorem Block.name_of_get {start k : Nat} {owner : program_t} {v : variable_t}
    (h : Block prog start owner) (hv : owner.variable_table[k]? = some v) :
    (layout prog)[start + k]? = some v.name := by
  induction h with
  | @own prog =>
    cases prog
    rw [layout, program_t.inherit, getElem?_append_right (Nat.le_add_right ..),
      Nat.add_sub_cancel_left, getElem?_map]
    exact congrArg (Option.map _) hv
  | @inherited prog owner before after inh start hinherit hblock ih =>
    have hlt := (List.getElem?_eq_some_iff.mp (ih hv)).1
    cases prog with
    | mk inherit variable_table total =>
      have hinherit : inherit = before ++ inh :: after := hinherit
      subst hinherit
      rw [layout, inherited_layout_append, inherited_layout, append_assoc, append_assoc,
        Nat.add_assoc, getElem?_append_right (Nat.le_add_right ..), Nat.add_sub_cancel_left,
        List.getElem?_append_left hlt]
      exact ih hv

def tower : Nat → program_t
  | 0 => compile [] [x]
  | n + 1 => compile [(tower n, 0), (tower n, 0)] []

def above (prog : program_t) : program_t := compile [(prog, 0)] [⟨[121], 0⟩]

theorem compiled_tower (n : Nat) : Compiled (tower n) := by
  induction n with
  | zero => exact compiled_x
  | succ n ih => exact .compile _ (by simpa using ih)

theorem tower_eq (n : Nat) : copy_variables (tower n) = replicate (2 ^ n) [120] ∧
    layout (tower n) = replicate (2 ^ n) [120] ∧
    (tower n).num_variables_total = 2 ^ n % 65536 := by
  induction n with
  | zero => exact ⟨rfl, rfl, rfl⟩
  | succ n ih =>
    obtain ⟨hcopy, hlayout, -⟩ := ih
    have hdouble : replicate (2 ^ n) [(120 : UInt8)] ++ replicate (2 ^ n) [120] =
        replicate (2 ^ (n + 1)) [120] := by
      rw [replicate_append_replicate, Nat.pow_succ, Nat.mul_two]
    refine ⟨?_, ?_, ?_⟩
    · simp [tower, compile, inherit_all, copy_variables, copy_inherited, defined, hcopy, hdouble]
    · simp [tower, compile, inherit_all, layout, inherited_layout, hlayout, hdouble]
    · simp [tower, compile, inherit_all, program_t.num_variables_total, ushort, hcopy, hdouble]

theorem not_numbered_above (hcopy : ushort (copy_variables prog).length = 0)
    (hlayout : (layout prog)[0]? = some [120]) (htotal : prog.num_variables_total = 0) :
    ¬ Numbered (above prog) := by
  intro h
  have habove : above prog = .mk [⟨prog, 0, 0⟩] [⟨[121], 0⟩] 1 := by
    have hone : ushort ((copy_variables prog).length + 1) = 1 := by
      unfold ushort at hcopy ⊢
      omega
    simpa [above, compile, inherit_all] using ⟨rfl, hone⟩
  rw [habove] at h
  obtain ⟨start, owner, v, hblock, hle, hv, hname, -⟩ := h 0 Nat.zero_lt_one
  obtain rfl : start = 0 := by omega
  have hfirst := hblock.name_of_get hv
  rw [layout, inherited_layout, inherited_layout, List.append_nil, List.getElem?_append_left
    (List.getElem?_eq_some_iff.mp hlayout).1, hlayout] at hfirst
  rw [variable_name] at hname
  simp [htotal] at hname hfirst
  rw [← hname] at hfirst
  cases hfirst

end mudos.variable_numbers
