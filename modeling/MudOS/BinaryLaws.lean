-- When a saved binary is loaded, nothing it was made from is newer and its offsets fit the
-- programs it is linked to, if each program it inherits has been saved as well.
import MudOS.Binaries
import Mathlib.Data.List.Forall2
import Mathlib.Logic.Relation

open List Option

namespace mudos.binaries

variable {name f : path} {p : program_t} {b : binary_t} {a : Nat}
variable {n : path} {t : Nat}

/-! ## What a program is made from -/

def Inherits (d : driver) : Nat → Nat → Prop :=
  Relation.ReflTransGen fun a b => ∃ p, d.progs a = some p ∧ ∃ i ∈ p.inherit, i.prog = b

def program_t.files (p : program_t) : List path := p.name :: p.includes

def MadeFrom (d : driver) (a : Nat) (f : path) : Prop :=
  ∃ b p, Inherits d a b ∧ d.progs b = some p ∧ f ∈ p.files

def LinkedFrom (d : driver) (p : program_t) (f : path) : Prop :=
  f ∈ p.files ∨ ∃ i ∈ p.inherit, MadeFrom d i.prog f

/-! ## Offsets -/

structure slot where
  function_index_offset : Nat
  variable_index_offset : Nat
  functions : Nat
  vars : Nat

/-- The functions and variables of each program are behind those before it, and the variables of the
program itself are behind all. -/
def Fits : (funs vars : Nat) → List slot → (num_functions num_variables : Nat) → Prop
  | funs, vars, [], num_functions, num_variables => funs ≤ num_functions ∧ vars = num_variables
  | funs, vars, i :: rest, num_functions, num_variables =>
    funs ≤ i.function_index_offset ∧ i.variable_index_offset = vars ∧
      Fits (i.function_index_offset + i.functions) (vars + i.vars) rest num_functions num_variables

def slot_of (d : driver) (i : inherit_t) : Option slot :=
  (d.progs i.prog).map fun p => ⟨i.function_index_offset, i.variable_index_offset,
    num_copied p.num_functions_total p.initializer, p.num_variables_total⟩

def OffsetsFit (d : driver) (p : program_t) : Prop :=
  ∃ slots own, p.inherit.map (slot_of d) = slots.map some ∧
    own + p.num_variables_defined = p.num_variables_total ∧
    Fits 0 0 slots p.num_functions_total own

/-! ## Paths -/

variable {SAVE_BINARIES : path}

theorem starts_with_slash_eq (n m : path) :
    starts_with_slash (full_name SAVE_BINARIES n) =
      starts_with_slash (full_name SAVE_BINARIES m) := by cases SAVE_BINARIES <;> rfl

theorem file_name_real (n : path) :
    file_name SAVE_BINARIES (real_name n) =
      (if starts_with_slash (full_name SAVE_BINARIES n) then (full_name SAVE_BINARIES n).tail
        else full_name SAVE_BINARIES n) ++ [46, 98] := by
  have hfull : full_name SAVE_BINARIES (real_name n) = full_name SAVE_BINARIES n ++ [46, 99] := by
    simp [full_name, real_name]
  have hne : full_name SAVE_BINARIES n ≠ [] := by simp [full_name]
  have hdrop : ∀ l : path, (l ++ [46, 99]).dropLast ++ [98] = l ++ [46, 98] := by
    intro l
    rw [dropLast_append_of_ne_nil (by simp), append_assoc]
    rfl
  unfold file_name
  rw [starts_with_slash_eq (real_name n) n]
  by_cases hslash : starts_with_slash (full_name SAVE_BINARIES n) = true
  · rw [if_pos hslash, if_pos hslash, hfull, tail_append_of_ne_nil hne]
    exact hdrop _
  · rw [if_neg hslash, if_neg hslash, hfull]
    exact hdrop _

theorem file_name_inj {m : path}
    (h : file_name SAVE_BINARIES (real_name n) = file_name SAVE_BINARIES (real_name m)) :
    n = m := by
  rw [file_name_real, file_name_real, starts_with_slash_eq m n, append_cancel_right_eq] at h
  by_cases hslash : starts_with_slash (full_name SAVE_BINARIES n) = true
  · rw [if_pos hslash, if_pos hslash] at h
    cases SAVE_BINARIES with
    | nil => exact h
    | cons c l =>
      simp only [full_name, cons_append, tail_cons] at h
      exact (List.cons.inj (append_cancel_left h)).2
  · rw [if_neg hslash, if_neg hslash] at h
    exact (List.cons.inj (append_cancel_left h)).2

/-! ## Reading the inherit table -/

variable {d : driver}

structure Linked (SAVE_BINARIES : path) (d : driver) (mtime : Nat) (s : saved_inherit_t)
    (i : inherit_t) : Prop where
  functions : i.function_index_offset = s.function_index_offset
  vars : i.variable_index_offset = s.variable_index_offset
  found : find_object2 d s.name = some i.prog
  source : 0 < check_times mtime (d.mtime s.name)
  binary : check_times mtime ((d.binaries (file_name SAVE_BINARIES s.name)).map binary_t.mtime) ≠ 0

theorem read_inherits_linked {mtime : Nat} : ∀ {l : List saved_inherit_t} {k : Nat}
    {inherit : List inherit_t}, read_inherits SAVE_BINARIES d mtime k l = .loaded inherit →
      List.Forall₂ (Linked SAVE_BINARIES d mtime) l inherit
  | [], k, inherit, h => by
    rw [read_inherits, loaded_t.loaded.injEq] at h
    rw [← h]
    exact .nil
  | s :: rest, k, inherit, h => by
    rw [read_inherits] at h
    split at h
    · cases h
    · split at h
      · cases h
      · rename_i hchecks
        rw [not_or, Int.not_le] at hchecks
        split at h
        · cases h
        · rename_i prog hfound
          split at h
          · rename_i inherit' hrest
            rw [loaded_t.loaded.injEq] at h
            rw [← h]
            exact .cons ⟨rfl, rfl, hfound, hchecks.1, hchecks.2⟩ (read_inherits_linked hrest)
          all_goals cases h

/-- The path of each binary fits, behind the slashes of those before. -/
def RoomFor (SAVE_BINARIES : path) (names : List path) : Prop :=
  ∀ k name, names[k]? = some name →
    200 + (if starts_with_slash (full_name SAVE_BINARIES name) then k else 0) +
      (full_name SAVE_BINARIES name).length + 1 ≤ 400

theorem read_inherits_room {mtime : Nat} : ∀ {l : List saved_inherit_t} {k : Nat},
    (∀ j s, l[j]? = some s →
      k + (if starts_with_slash (full_name SAVE_BINARIES s.name) then j else 0) +
        (full_name SAVE_BINARIES s.name).length + 1 ≤ 400) →
      read_inherits SAVE_BINARIES d mtime k l ≠ .overrun
  | [], k, _, h => by
    simp [read_inherits] at h
  | s :: rest, k, hroom, h => by
    have hfirst := hroom 0 s rfl
    rw [ite_self] at hfirst
    rw [read_inherits, if_neg (by omega)] at h
    split at h
    · cases h
    · split at h
      · cases h
      · split at h
        case h_4 hrest =>
          refine read_inherits_room ?_ hrest
          intro j s' hj
          have hnext := hroom (j + 1) s' hj
          rw [starts_with_slash_eq s.name s'.name]
          split_ifs at hnext ⊢ <;> omega
        all_goals cases h

/-- What `int_load_binary` has checked when it returns a program. -/
structure Accepted (SAVE_BINARIES : path) (d : driver) (name : path) (b : binary_t)
    (p : program_t) : Prop where
  binary : d.binaries (file_name SAVE_BINARIES name) = some b
  source : 0 < check_times b.mtime (d.mtime name)
  includes : ∀ iname ∈ b.includes, 0 < check_times b.mtime (d.mtime iname)
  same_name : b.name = name
  inherit : List.Forall₂ (Linked SAVE_BINARIES d b.mtime) b.inherit p.inherit
  program : p =
    { name
      includes := b.includes
      num_functions_total := b.num_functions_total
      initializer := b.initializer
      num_variables_defined := b.num_variables_defined
      num_variables_total := b.num_variables_total
      inherit := p.inherit
      saved := true }

theorem int_load_binary_accepted (h : int_load_binary SAVE_BINARIES d name = .loaded p) :
    ∃ b, Accepted SAVE_BINARIES d name b p := by
  unfold int_load_binary at h
  split at h
  · cases h
  · split at h
    · cases h
    · rename_i b hb
      split_ifs at h with hsource hdriver hconfig hsize hincludes hname
      simp only [not_exists, not_and, Int.not_le] at hincludes
      split at h
      · rename_i inherit hread
        rw [loaded_t.loaded.injEq] at h
        refine ⟨b, hb, Int.not_le.mp hsource, hincludes, Decidable.not_not.mp hname, ?_, ?_⟩
        · rw [← h]
          exact read_inherits_linked hread
        · rw [← h]
      all_goals cases h

/-! ## The condition -/

def Own (d : driver) (n : path) : Prop :=
  ∀ a, d.objects n = some a → ∃ p, d.progs a = some p ∧ p.name = real_name n ∧ p.saved = true

structure LoadMeets (SAVE_BINARIES : path) (d : driver) (b : binary_t) : Prop where
  size : includes_size b.includes ≤ 32767
  room : RoomFor SAVE_BINARIES (b.inherit.map saved_inherit_t.name)
  own : ∀ s ∈ b.inherit, Own d (strip_name s.name)

structure SaveMeets (SAVE_BINARIES : path) (d : driver) (name : path) (source : source_t) :
    Prop where
  own : ∀ i ∈ source.inherits, Own d i.1
  /-- No program that inherits it has been saved in this second. -/
  later : ∀ f b, d.binaries f = some b → b.mtime = d.current_time →
    ∀ s ∈ b.inherit, file_name SAVE_BINARIES s.name ≠ file_name SAVE_BINARIES (real_name name)

def Meets (SAVE_BINARIES : path) (d : driver) : action → Prop
  | .tick => True
  | .write_file f => ∀ n a, d.objects n = some a → ¬ MadeFrom d a f
  | .rm _ => True
  | .rm_binary name => d.objects name = none
  | .load_object name source _ =>
    (full_name SAVE_BINARIES (real_name name)).length + 1 ≤ 400 ∧
    (∀ b, d.binaries (file_name SAVE_BINARIES (real_name name)) = some b →
      LoadMeets SAVE_BINARIES d b) ∧
    (source.save_binary = true → SaveMeets SAVE_BINARIES d name source)
  | .destruct _ => True
  | .replace name prog => ∀ p, d.progs prog = some p → p.name ≠ real_name name
  | .restart _ _ => True

/-! ## What holds at every step -/

def totals (b : binary_t) : Nat × Nat :=
  (num_copied b.num_functions_total b.initializer, b.num_variables_total)

def recorded (T : path → Nat × Nat) (s : saved_inherit_t) : slot :=
  ⟨s.function_index_offset, s.variable_index_offset, (T s.name).1, (T s.name).2⟩

/-- The offsets of a binary are right for programs with these totals. -/
def BinaryFits (b : binary_t) (T : path → Nat × Nat) : Prop :=
  ∃ own, own + b.num_variables_defined = b.num_variables_total ∧
    Fits 0 0 (b.inherit.map (recorded T)) b.num_functions_total own

structure Kept (d : driver) (a : Nat) (p : program_t) (b : binary_t) : Prop where
  functions : (totals b).1 = num_copied p.num_functions_total p.initializer
  vars : (totals b).2 = p.num_variables_total
  files : ∀ f, MadeFrom d a f → ∀ t, d.mtime f = some t → t ≤ b.mtime

structure Sound (SAVE_BINARIES : path) (d : driver) : Prop where
  past : ∀ f t, d.mtime f = some t → t ≤ d.current_time
  saved : ∀ f b, d.binaries f = some b → b.mtime ≤ d.current_time
  objects : ∀ n a, d.objects n = some a → strip_name (real_name n) = n ∧ d.progs a ≠ none
  linked : ∀ a p, d.progs a = some p → ∀ i ∈ p.inherit, d.progs i.prog ≠ none
  own : ∀ n a p, d.objects n = some a → d.progs a = some p → p.name = real_name n →
    p.saved = true → ∃ b, d.binaries (file_name SAVE_BINARIES p.name) = some b ∧ Kept d a p b
  names : ∀ f b, d.binaries f = some b → ∀ s ∈ b.inherit,
    strip_name (real_name (strip_name s.name)) = strip_name s.name ∧
      real_name (strip_name s.name) = s.name
  /-- A program whose binary is not newer has the totals it had when the offsets were made. -/
  offsets : ∀ f b, d.binaries f = some b → ∃ T, BinaryFits b T ∧ ∀ s ∈ b.inherit, ∀ b',
    d.binaries (file_name SAVE_BINARIES s.name) = some b' → b'.mtime ≤ b.mtime →
      T s.name = totals b'
  no_overrun : d.overrun = false

/-! ## Accepted binaries -/

theorem check_times_pos {mtime : Nat} {st : Option Nat} (h : 0 < check_times mtime st)
    (ht : st = some t) : t ≤ mtime := by
  subst ht
  simp only [check_times] at h
  split_ifs at h with hnewer
  · cases h
  · exact Nat.not_lt.mp hnewer

theorem check_times_ne {mtime : Nat} {st : Option Nat} (h : check_times mtime st ≠ 0)
    (ht : st = some t) : t ≤ mtime := by
  subst ht
  simp only [check_times] at h
  split_ifs at h with hnewer
  · exact absurd rfl h
  · exact Nat.not_lt.mp hnewer

theorem linked_kept (hsound : Sound SAVE_BINARIES d) (hb : d.binaries f = some b)
    {s : saved_inherit_t} (hs : s ∈ b.inherit) (hown : Own d (strip_name s.name)) {i : inherit_t}
    (hlinked : Linked SAVE_BINARIES d b.mtime s i) :
    ∃ q b', d.progs i.prog = some q ∧ d.binaries (file_name SAVE_BINARIES s.name) = some b' ∧
      b'.mtime ≤ b.mtime ∧ Kept d i.prog q b' := by
  obtain ⟨q, hq, hname, hsaved⟩ := hown i.prog hlinked.found
  obtain ⟨b', hb', hkept⟩ := hsound.own _ _ _ hlinked.found hq hname hsaved
  rw [hname, (hsound.names f b hb s hs).2] at hb'
  refine ⟨q, b', hq, hb', ?_, hkept⟩
  exact check_times_ne hlinked.binary (by rw [hb']; rfl)

structure Matched (SAVE_BINARIES : path) (d : driver) (b : binary_t) (s : saved_inherit_t)
    (i : inherit_t) (q : program_t) (b' : binary_t) : Prop where
  mem : s ∈ b.inherit
  functions : i.function_index_offset = s.function_index_offset
  vars : i.variable_index_offset = s.variable_index_offset
  prog : d.progs i.prog = some q
  binary : d.binaries (file_name SAVE_BINARIES s.name) = some b'
  older : b'.mtime ≤ b.mtime
  kept : Kept d i.prog q b'

theorem accepted_matched (hsound : Sound SAVE_BINARIES d)
    (haccepted : Accepted SAVE_BINARIES d name b p) (hmeets : LoadMeets SAVE_BINARIES d b) :
    List.Forall₂ (fun s i => ∃ q b', Matched SAVE_BINARIES d b s i q b') b.inherit p.inherit := by
  have hmem : ∀ s ∈ b.inherit, s ∈ b.inherit := fun s hs => hs
  refine ((List.forall₂_and_left _ _).mpr ⟨hmem, haccepted.inherit⟩).imp ?_
  rintro s i ⟨hs, hlinked⟩
  obtain ⟨q, b', hq, hb', holder, hkept⟩ :=
    linked_kept hsound haccepted.binary hs (hmeets.own s hs) hlinked
  exact ⟨q, b', hs, hlinked.functions, hlinked.vars, hq, hb', holder, hkept⟩

theorem mem_right {α β : Type} {R : α → β → Prop} {l : List α} {l' : List β}
    (h : List.Forall₂ R l l') {y : β} (hy : y ∈ l') : ∃ x, R x y := by
  induction h with
  | nil => cases hy
  | @cons x z l l' hxz _ ih =>
    rcases mem_cons.mp hy with rfl | hy
    · exact ⟨x, hxz⟩
    · exact ih hy

theorem map_some {α β γ : Type} {R : α → β → Prop} {f : α → γ} {g : β → Option γ} {l : List α}
    {l' : List β} (h : List.Forall₂ R l l') (heq : ∀ x y, R x y → g y = some (f x)) :
    l'.map g = (l.map f).map some := by
  induction h with
  | nil => rfl
  | cons hxy _ ih => rw [map_cons, map_cons, map_cons, heq _ _ hxy, ih]

theorem accepted_files (hsound : Sound SAVE_BINARIES d)
    (haccepted : Accepted SAVE_BINARIES d name b p) (hmeets : LoadMeets SAVE_BINARIES d b)
    (hf : LinkedFrom d p f) (ht : d.mtime f = some t) : t ≤ b.mtime := by
  rcases hf with hf | ⟨i, hi, hf⟩
  · rw [haccepted.program] at hf
    rcases mem_cons.mp hf with rfl | hf
    · exact check_times_pos haccepted.source ht
    · exact check_times_pos (haccepted.includes f hf) ht
  · obtain ⟨s, q, b', hmatched⟩ := mem_right (accepted_matched hsound haccepted hmeets) hi
    exact Nat.le_trans (hmatched.kept.files f hf t ht) hmatched.older

theorem accepted_fits (hsound : Sound SAVE_BINARIES d)
    (haccepted : Accepted SAVE_BINARIES d name b p) (hmeets : LoadMeets SAVE_BINARIES d b) :
    OffsetsFit d p := by
  obtain ⟨T, ⟨own, hown, hfits⟩, htotals⟩ := hsound.offsets _ b haccepted.binary
  refine ⟨b.inherit.map (recorded T), own,
    map_some (accepted_matched hsound haccepted hmeets) ?_, ?_, ?_⟩
  · rintro s i ⟨q, b', hmatched⟩
    rw [recorded, htotals s hmatched.mem b' hmatched.binary hmatched.older, hmatched.kept.functions,
      hmatched.kept.vars, ← hmatched.functions, ← hmatched.vars, slot_of, hmatched.prog]
    rfl
  · rwa [haccepted.program]
  · rwa [haccepted.program]

theorem load_no_overrun (hname : (full_name SAVE_BINARIES name).length + 1 ≤ 400)
    (hmeets : ∀ b, d.binaries (file_name SAVE_BINARIES name) = some b →
      LoadMeets SAVE_BINARIES d b) : int_load_binary SAVE_BINARIES d name ≠ .overrun := by
  intro h
  unfold int_load_binary at h
  rw [if_neg (by omega)] at h
  split at h
  · cases h
  · rename_i b hb
    have hsize := (hmeets b hb).size
    split_ifs at h
    · omega
    · split at h
      case h_4 hread =>
        refine read_inherits_room ?_ hread
        intro j s hj
        exact (hmeets b hb).room j s.name (by rw [getElem?_map, hj]; rfl)
      all_goals cases h

/-! ## Programs that stay -/

theorem inherits_old {d' : driver} (hgrow : ∀ a p, d.progs a = some p → d'.progs a = some p)
    (hlinked : ∀ a p, d.progs a = some p → ∀ i ∈ p.inherit, d.progs i.prog ≠ none) {b : Nat}
    (ha : d.progs a ≠ none) (h : Inherits d' a b) : Inherits d a b ∧ d.progs b ≠ none := by
  induction h with
  | refl => exact ⟨.refl, ha⟩
  | @tail b c _ hstep ih =>
    obtain ⟨hab, hb⟩ := ih
    obtain ⟨p, hp⟩ := ne_none_iff_exists'.mp hb
    obtain ⟨p', hp', i, hi, rfl⟩ := hstep
    cases (hgrow b p hp).symm.trans hp'
    exact ⟨hab.tail ⟨p, hp, i, hi, rfl⟩, hlinked b p hp i hi⟩

theorem made_from_old {d' : driver} (hgrow : ∀ a p, d.progs a = some p → d'.progs a = some p)
    (hlinked : ∀ a p, d.progs a = some p → ∀ i ∈ p.inherit, d.progs i.prog ≠ none)
    (ha : d.progs a ≠ none) (h : MadeFrom d' a f) : MadeFrom d a f := by
  obtain ⟨b, p, hab, hp, hf⟩ := h
  obtain ⟨hold, hb⟩ := inherits_old hgrow hlinked ha hab
  obtain ⟨p', hp'⟩ := ne_none_iff_exists'.mp hb
  rw [hgrow b p' hp', Option.some.injEq] at hp
  subst hp
  exact ⟨b, p', hold, hp', hf⟩

@[simp] theorem link_prog_self (name : path) (prog : Nat) (p : program_t) :
    (link d name prog p).progs prog = some p := if_pos rfl

@[simp] theorem link_prog_other (name : path) {prog : Nat} (p : program_t) (h : a ≠ prog) :
    (link d name prog p).progs a = d.progs a := if_neg h

@[simp] theorem link_object_self (name : path) (prog : Nat) (p : program_t) :
    (link d name prog p).objects name = some prog := if_pos rfl

@[simp] theorem link_object_other (prog : Nat) (p : program_t) (h : n ≠ name) :
    (link d name prog p).objects n = d.objects n := if_neg h

theorem link_grows {prog : Nat} (hfree : d.progs prog = none) (name : path) (p : program_t)
    (a : Nat) (q : program_t) (hq : d.progs a = some q) : (link d name prog p).progs a = some q := by
  have ha : a ≠ prog := by
    rintro rfl
    simp [hfree] at hq
  rw [link_prog_other name p ha, hq]

theorem made_from_new {prog : Nat} (hfree : d.progs prog = none)
    (hlinked : ∀ a p, d.progs a = some p → ∀ i ∈ p.inherit, d.progs i.prog ≠ none)
    (hp : ∀ i ∈ p.inherit, d.progs i.prog ≠ none) (h : MadeFrom (link d name prog p) prog f) :
    LinkedFrom d p f := by
  obtain ⟨b, q, hab, hq, hf⟩ := h
  rcases hab.cases_head with rfl | ⟨c, ⟨p', hp', i, hi, rfl⟩, hcb⟩
  · rw [link_prog_self, Option.some.injEq] at hq
    subst hq
    exact .inl hf
  · rw [link_prog_self, Option.some.injEq] at hp'
    subst hp'
    have hold := made_from_old (link_grows hfree name p) hlinked (hp i hi) ⟨b, q, hcb, hq, hf⟩
    exact .inr ⟨i, hi, hold⟩

/-! ## Steps -/

theorem sound_link (hsound : Sound SAVE_BINARIES d) {prog : Nat}
    (hname : strip_name (real_name name) = name) (hfree : d.progs prog = none)
    (hp : ∀ i ∈ p.inherit, d.progs i.prog ≠ none)
    (hown : p.saved = true → ∃ b, d.binaries (file_name SAVE_BINARIES p.name) = some b ∧
      (totals b).1 = num_copied p.num_functions_total p.initializer ∧
      (totals b).2 = p.num_variables_total ∧
      ∀ f, LinkedFrom d p f → ∀ t, d.mtime f = some t → t ≤ b.mtime) :
    Sound SAVE_BINARIES (link d name prog p) := by
  have hgrow := link_grows hfree name p
  have hsome : ∀ a, d.progs a ≠ none → (link d name prog p).progs a ≠ none := by
    intro a ha
    obtain ⟨q, hq⟩ := ne_none_iff_exists'.mp ha
    rw [hgrow a q hq]
    exact some_ne_none q
  refine { hsound with objects := ?_, linked := ?_, own := ?_ }
  · intro n a ha
    by_cases hn : n = name
    · subst hn
      rw [link_object_self, Option.some.injEq] at ha
      subst ha
      exact ⟨hname, by simp⟩
    · rw [link_object_other prog p hn] at ha
      exact ⟨(hsound.objects n a ha).1, hsome a (hsound.objects n a ha).2⟩
  · intro a q hq i hi
    by_cases ha : a = prog
    · subst ha
      rw [link_prog_self, Option.some.injEq] at hq
      subst hq
      exact hsome i.prog (hp i hi)
    · rw [link_prog_other name p ha] at hq
      exact hsome i.prog (hsound.linked a q hq i hi)
  · intro n a q ha hq hreal hsaved
    by_cases hn : n = name
    · subst hn
      rw [link_object_self, Option.some.injEq] at ha
      subst ha
      rw [link_prog_self, Option.some.injEq] at hq
      subst hq
      obtain ⟨b, hb, hfunctions, hvars, hfiles⟩ := hown hsaved
      exact ⟨b, hb, hfunctions, hvars,
        fun f hf => hfiles f (made_from_new hfree hsound.linked hp hf)⟩
    · rw [link_object_other prog p hn] at ha
      have hallocated := (hsound.objects n a ha).2
      have hne : a ≠ prog := by
        rintro rfl
        exact hallocated hfree
      rw [link_prog_other name p hne] at hq
      obtain ⟨b, hb, hkept⟩ := hsound.own n a q ha hq hreal hsaved
      exact ⟨b, hb, hkept.functions, hkept.vars,
        fun f hf => hkept.files f (made_from_old hgrow hsound.linked hallocated hf)⟩

/-! ## Compiling -/

def current (d : driver) (name : path) : Nat × Nat :=
  match (find_object2 d name).bind d.progs with
  | some q => (num_copied q.num_functions_total q.initializer, q.num_variables_total)
  | none => (0, 0)

theorem inheritance_mem : ∀ {l : List (path × Nat)} {funs vars funs' vars' : Nat}
    {inherit : List inherit_t}, inheritance d funs vars l = some (inherit, funs', vars') →
      ∀ i ∈ inherit, ∃ n k q, (n, k) ∈ l ∧ d.objects n = some i.prog ∧ d.progs i.prog = some q
  | [], _, _, _, _, inherit, h, i, hi => by
    simp only [inheritance, Option.some.injEq, Prod.mk.injEq] at h
    simp [← h.1] at hi
  | (n, k) :: rest, funs, vars, funs', vars', inherit, h, i, hi => by
    simp only [inheritance, bind_eq_bind, bind_eq_some_iff] at h
    obtain ⟨prog, hprog, q, hq, ⟨inherit', total⟩, hrest, h⟩ := h
    simp only [Option.pure_def, Option.some.injEq, Prod.mk.injEq] at h
    rw [← h.1] at hi
    rcases mem_cons.mp hi with rfl | hi
    · exact ⟨n, k, q, mem_cons_self, hprog, hq⟩
    · obtain ⟨n', k', q', hmem, hobject, hq'⟩ := inheritance_mem hrest i hi
      exact ⟨n', k', q', mem_cons_of_mem _ hmem, hobject, hq'⟩

theorem inheritance_fits (hsound : Sound SAVE_BINARIES d) {num_functions : Nat} :
    ∀ {l : List (path × Nat)} {funs vars funs' vars' : Nat} {inherit : List inherit_t},
      (∀ i ∈ l, Own d i.1) → inheritance d funs vars l = some (inherit, funs', vars') →
        funs' ≤ num_functions →
          Fits funs vars ((inherit.filterMap (save_inherit d)).map (recorded (current d)))
            num_functions vars'
  | [], funs, vars, funs', vars', inherit, _, h, hle => by
    simp only [inheritance, Option.some.injEq, Prod.mk.injEq] at h
    obtain ⟨rfl, rfl, rfl⟩ := h
    exact ⟨hle, rfl⟩
  | (n, k) :: rest, funs, vars, funs', vars', inherit, hown, h, hle => by
    simp only [inheritance, bind_eq_bind, bind_eq_some_iff] at h
    obtain ⟨prog, hprog, q, hq, ⟨inherit', total⟩, hrest, h⟩ := h
    simp only [Option.pure_def, Option.some.injEq, Prod.mk.injEq] at h
    obtain ⟨rfl, rfl⟩ := h
    obtain ⟨q', hq', hname, -⟩ := hown (n, k) mem_cons_self prog hprog
    cases hq.symm.trans hq'
    have hsave : save_inherit d ⟨prog, funs + k, vars⟩ = some ⟨q.name, funs + k, vars⟩ := by
      rw [save_inherit, hq]
      rfl
    have hcurrent : current d q.name =
        (num_copied q.num_functions_total q.initializer, q.num_variables_total) := by
      rw [current, find_object2, hname, (hsound.objects n prog hprog).1, hprog, bind_some,
        hq]
    rw [filterMap_cons_some hsave, map_cons, recorded, hcurrent]
    exact ⟨Nat.le_add_right _ _, rfl,
      inheritance_fits hsound (fun i hi => hown i (mem_cons_of_mem _ hi)) hrest hle⟩

def binary_of (d : driver) (p : program_t) : binary_t where
  mtime := d.current_time
  driver_id := d.driver_id
  config_id := d.config_id
  includes := p.includes
  name := p.name
  num_functions_total := p.num_functions_total
  initializer := p.initializer
  num_variables_defined := p.num_variables_defined
  num_variables_total := p.num_variables_total
  inherit := p.inherit.filterMap (save_inherit d)

theorem save_self (p : program_t) :
    (save_binary SAVE_BINARIES d p).binaries (file_name SAVE_BINARIES p.name) =
      some (binary_of d p) := if_pos rfl

theorem save_other (h : f ≠ file_name SAVE_BINARIES p.name) :
    (save_binary SAVE_BINARIES d p).binaries f = d.binaries f := if_neg h

theorem save_cases (h : (save_binary SAVE_BINARIES d p).binaries f = some b) :
    f = file_name SAVE_BINARIES p.name ∧ b = binary_of d p ∨
      f ≠ file_name SAVE_BINARIES p.name ∧ d.binaries f = some b := by
  by_cases hf : f = file_name SAVE_BINARIES p.name
  · subst hf
    rw [save_self, Option.some.injEq] at h
    exact .inl ⟨rfl, h.symm⟩
  · rw [save_other hf] at h
    exact .inr ⟨hf, h⟩

theorem compile_file_name {source : source_t} (h : compile_file d name source = some p) :
    p.name = name ∧ p.saved = source.save_binary ∧
      ∀ i ∈ p.inherit, ∃ n k q, (n, k) ∈ source.inherits ∧ d.objects n = some i.prog ∧
        d.progs i.prog = some q := by
  rw [compile_file, map_eq_some_iff] at h
  obtain ⟨⟨inherit, funs, vars⟩, hinherit, rfl⟩ := h
  exact ⟨rfl, rfl, inheritance_mem hinherit⟩

theorem sound_save (hsound : Sound SAVE_BINARIES d) {source : source_t}
    (hobject : d.objects name = none) (hcompile : compile_file d (real_name name) source = some p)
    (hmeets : SaveMeets SAVE_BINARIES d name source) :
    Sound SAVE_BINARIES (save_binary SAVE_BINARIES d p) := by
  obtain ⟨hname, -, hinherit⟩ := compile_file_name hcompile
  -- The entries of the new binary have the names of the objects that are inherited.
  have hentries : ∀ s ∈ (binary_of d p).inherit, ∃ n a q, d.objects n = some a ∧
      d.progs a = some q ∧ q.saved = true ∧ q.name = real_name n ∧ s.name = q.name := by
    intro s hs
    obtain ⟨i, hi, hsi⟩ := mem_filterMap.mp hs
    obtain ⟨n, k, q, hmem, ha, hq⟩ := hinherit i hi
    obtain ⟨q', hq', hreal, hsaved⟩ := hmeets.own (n, k) hmem i.prog ha
    cases hq.symm.trans hq'
    rw [save_inherit, hq, Option.map_some, Option.some.injEq] at hsi
    exact ⟨n, i.prog, q, ha, hq, hsaved, hreal, by rw [← hsi]⟩
  have hother : ∀ n a, d.objects n = some a →
      file_name SAVE_BINARIES (real_name n) ≠ file_name SAVE_BINARIES p.name := by
    intro n a ha hsame
    rw [hname] at hsame
    simp [file_name_inj hsame, hobject] at ha
  refine { hsound with saved := ?_, own := ?_, names := ?_, offsets := ?_ }
  · intro f b hb
    rcases save_cases hb with ⟨-, rfl⟩ | ⟨-, hb⟩
    · exact Nat.le_refl _
    · exact hsound.saved f b hb
  · intro n a q ha hq hreal hsaved
    obtain ⟨b, hb, hkept⟩ := hsound.own n a q ha hq hreal hsaved
    rw [hreal] at hb ⊢
    exact ⟨b, (save_other (hother n a ha)).trans hb, hkept.functions, hkept.vars, hkept.files⟩
  · intro f b hb s hs
    rcases save_cases hb with ⟨-, rfl⟩ | ⟨-, hb⟩
    · obtain ⟨n, a, q, ha, -, -, hreal, hs⟩ := hentries s hs
      rw [hs, hreal, (hsound.objects n a ha).1]
      exact ⟨(hsound.objects n a ha).1, rfl⟩
    · exact hsound.names f b hb s hs
  · intro f b hb
    rcases save_cases hb with ⟨-, rfl⟩ | ⟨-, hb⟩
    · refine ⟨current d, ?_, ?_⟩
      · rw [compile_file, map_eq_some_iff] at hcompile
        obtain ⟨⟨inherit, funs, vars⟩, hinherit', rfl⟩ := hcompile
        exact ⟨vars, rfl, inheritance_fits hsound hmeets.own hinherit' (Nat.le_add_right _ _)⟩
      · intro s hs b' hb' _
        obtain ⟨n, a, q, ha, hq, hsaved, hreal, hs⟩ := hentries s hs
        rw [hs, hreal, save_other (hother n a ha), ← hreal] at hb'
        obtain ⟨b₀, hb₀, hkept⟩ := hsound.own n a q ha hq hreal hsaved
        cases hb₀.symm.trans hb'
        rw [hs, current, find_object2, hreal, (hsound.objects n a ha).1, ha, bind_some, hq]
        exact Prod.ext hkept.functions.symm hkept.vars.symm
    · obtain ⟨T, hfits, htotals⟩ := hsound.offsets f b hb
      refine ⟨T, hfits, ?_⟩
      intro s hs b' hb' hle
      rcases save_cases hb' with ⟨hsame, rfl⟩ | ⟨-, hb'⟩
      · have hnow : b.mtime = d.current_time := Nat.le_antisymm (hsound.saved f b hb) hle
        rw [hname] at hsame
        exact absurd hsame (hmeets.later f b hb hnow s hs)
      · exact htotals s hs b' hb' hle

theorem sound_load_object (hsound : Sound SAVE_BINARIES d) {source : source_t} {prog : Nat}
    (hmeets : Meets SAVE_BINARIES d (.load_object name source prog))
    (hobject : d.objects name = none) (hfree : d.progs prog = none)
    (hname : strip_name (real_name name) = name) :
    Sound SAVE_BINARIES (load_object SAVE_BINARIES d name source prog) := by
  obtain ⟨hlength, hload, hsave⟩ := hmeets
  unfold load_object
  split
  · rename_i p haccepted
    obtain ⟨b, hb⟩ := int_load_binary_accepted haccepted
    have hmatched := accepted_matched hsound hb (hload b hb.binary)
    refine sound_link hsound hname hfree ?_ ?_
    · intro i hi
      obtain ⟨s, q, b', hmatch⟩ := mem_right hmatched hi
      rw [hmatch.prog]
      exact some_ne_none q
    · intro _
      refine ⟨b, ?_, ?_, ?_, fun f hf t ht => accepted_files hsound hb (hload b hb.binary) hf ht⟩
      · rw [hb.program]
        exact hb.binary
      · rw [hb.program]
        rfl
      · rw [hb.program]
        rfl
  · exact hsound
  · rename_i hoverrun
    exact absurd hoverrun (load_no_overrun hlength hload)
  · cases hcompile : compile_file d (real_name name) source with
    | none => exact hsound
    | some p =>
      obtain ⟨hp, hsaved, hinherit⟩ := compile_file_name hcompile
      have hlinks : ∀ i ∈ p.inherit, d.progs i.prog ≠ none := by
        intro i hi
        obtain ⟨n, k, q, -, -, hq⟩ := hinherit i hi
        rw [hq]
        exact some_ne_none q
      by_cases hbinary : source.save_binary = true
      · have hafter := sound_save hsound hobject hcompile (hsave hbinary)
        simp only [hbinary, if_true]
        refine sound_link hafter hname hfree hlinks ?_
        intro _
        exact ⟨binary_of d p, save_self p, rfl, rfl, fun f _ t ht => hsound.past f t ht⟩
      · simp only [hbinary, Bool.false_eq_true, if_false]
        refine sound_link hsound hname hfree hlinks ?_
        intro h
        rw [hsaved] at h
        exact absurd h hbinary

/-- When no program changes, nothing is needed of the binaries that are not of an object, and of the
files that no program of an object is made from. -/
theorem own_kept (hsound : Sound SAVE_BINARIES d) (d' : driver) (hprogs : d'.progs = d.progs)
    (hbinaries : ∀ n a, d.objects n = some a → d'.binaries (file_name SAVE_BINARIES (real_name n)) =
      d.binaries (file_name SAVE_BINARIES (real_name n)))
    (hmtime : ∀ n a f, d.objects n = some a → MadeFrom d a f → ∀ t, d'.mtime f = some t →
      d.mtime f = some t) (ha : d.objects n = some a) (hp : d'.progs a = some p)
    (hname : p.name = real_name n) (hsaved : p.saved = true) :
    ∃ b, d'.binaries (file_name SAVE_BINARIES p.name) = some b ∧ Kept d' a p b := by
  have hmade : MadeFrom d' a = MadeFrom d a := by
    unfold MadeFrom Inherits
    rw [hprogs]
  rw [hprogs] at hp
  obtain ⟨b, hb, hkept⟩ := hsound.own n a p ha hp hname hsaved
  rw [hname] at hb ⊢
  refine ⟨b, by rw [hbinaries n a ha, hb], hkept.functions, hkept.vars, ?_⟩
  intro f hf t ht
  rw [hmade] at hf
  exact hkept.files f hf t (hmtime n a f ha hf t ht)

theorem sound_step (hsound : Sound SAVE_BINARIES d) (a : action)
    (hmeets : Meets SAVE_BINARIES d a) :
    Sound SAVE_BINARIES (step SAVE_BINARIES d a) := by
  cases a with
  | tick =>
    exact { hsound with
      past := fun f t ht => Nat.le_succ_of_le (hsound.past f t ht)
      saved := fun f b hb => Nat.le_succ_of_le (hsound.saved f b hb)
      own := fun n a p ha hp hname hsaved => own_kept hsound (step SAVE_BINARIES d .tick) rfl
        (fun _ _ _ => rfl) (fun _ _ _ _ _ _ ht => ht) ha hp hname hsaved }
  | write_file f =>
    refine { hsound with past := ?_, own := ?_ }
    · intro f' t ht
      by_cases hf : f' = f
      · simp only [step, if_pos hf, Option.some.injEq] at ht
        exact Nat.le_of_eq ht.symm
      · simp only [step, if_neg hf] at ht
        exact hsound.past f' t ht
    · intro n a p ha hp hname hsaved
      refine own_kept hsound (step SAVE_BINARIES d (.write_file f)) rfl (fun _ _ _ => rfl) ?_ ha hp
        hname hsaved
      intro n' a' f' ha' hf' t ht
      have hne : f' ≠ f := by
        rintro rfl
        exact hmeets n' a' ha' hf'
      simp only [step, if_neg hne] at ht
      exact ht
  | rm f =>
    have hless : ∀ f' t, (step SAVE_BINARIES d (.rm f)).mtime f' = some t →
        d.mtime f' = some t := by
      intro f' t ht
      by_cases hf : f' = f
      · simp [step, if_pos hf] at ht
      · simp only [step, if_neg hf] at ht
        exact ht
    exact { hsound with
      past := fun f' t ht => hsound.past f' t (hless f' t ht)
      own := fun n a p ha hp hname hsaved => own_kept hsound
        (step SAVE_BINARIES d (.rm f)) rfl (fun _ _ _ => rfl)
        (fun _ _ f' _ _ t ht => hless f' t ht) ha hp hname hsaved }
  | rm_binary name =>
    have hless : ∀ f b, (step SAVE_BINARIES d (.rm_binary name)).binaries f = some b →
        d.binaries f = some b := by
      intro f b hb
      by_cases hf : f = file_name SAVE_BINARIES (real_name name)
      · simp [step, if_pos hf] at hb
      · simp only [step, if_neg hf] at hb
        exact hb
    refine { hsound with saved := ?_, own := ?_, names := ?_, offsets := ?_ }
    · exact fun f b hb => hsound.saved f b (hless f b hb)
    · intro n a p ha hp hname hsaved
      refine own_kept hsound (step SAVE_BINARIES d (.rm_binary name)) rfl ?_
        (fun _ _ _ _ _ _ ht => ht) ha hp hname hsaved
      intro n' a' ha'
      have hne : file_name SAVE_BINARIES (real_name n') ≠
          file_name SAVE_BINARIES (real_name name) := by
        intro hsame
        have hobject : d.objects name = none := hmeets
        simp [file_name_inj hsame, hobject] at ha'
      simp [step, if_neg hne]
    · exact fun f b hb => hsound.names f b (hless f b hb)
    · intro f b hb
      obtain ⟨T, hfits, htotals⟩ := hsound.offsets f b (hless f b hb)
      exact ⟨T, hfits, fun s hs b' hb' => htotals s hs b' (hless _ b' hb')⟩
  | load_object name source prog =>
    simp only [step]
    split_ifs with h
    · exact sound_load_object hsound hmeets h.1 h.2.1 h.2.2
    · exact hsound
  | destruct name =>
    have hless : ∀ n a, (step SAVE_BINARIES d (.destruct name)).objects n = some a →
        d.objects n = some a := by
      intro n a ha
      by_cases hn : n = name
      · simp [step, if_pos hn] at ha
      · simp only [step, if_neg hn] at ha
        exact ha
    exact { hsound with
      objects := fun n a ha => hsound.objects n a (hless n a ha)
      own := fun n a p ha hp hname hsaved => own_kept hsound
        (step SAVE_BINARIES d (.destruct name)) rfl (fun _ _ _ => rfl) (fun _ _ _ _ _ _ ht => ht)
        (hless n a ha) hp hname hsaved }
  | replace name prog =>
    simp only [step]
    split_ifs with h
    · exact hsound
    · rw [not_or] at h
      obtain ⟨a₀, ha₀⟩ := ne_none_iff_exists'.mp h.1
      refine { hsound with objects := ?_, own := ?_ }
      · intro n a ha
        by_cases hn : n = name
        · simp only [if_pos hn, Option.some.injEq] at ha
          subst hn ha
          exact ⟨(hsound.objects n a₀ ha₀).1, h.2⟩
        · simp only [if_neg hn] at ha
          exact hsound.objects n a ha
      · intro n a p ha hp hname hsaved
        by_cases hn : n = name
        · simp only [if_pos hn, Option.some.injEq] at ha
          subst hn ha
          exact absurd hname (hmeets p hp)
        · simp only [if_neg hn] at ha
          exact own_kept hsound
            { d with objects := fun n => if n = name then some prog else d.objects n } rfl
            (fun _ _ _ => rfl) (fun _ _ _ _ _ _ ht => ht) ha hp hname hsaved
  | restart driver_id config_id =>
    refine { hsound with objects := ?_, own := ?_ }
    · intro n a ha
      cases ha
    · intro n a p ha
      cases ha

/-! ## Runs -/

structure Initial (d : driver) : Prop where
  past : ∀ f t, d.mtime f = some t → t ≤ d.current_time
  none_saved : ∀ f, d.binaries f = none
  progs : ∀ a, d.progs a = none
  objects : ∀ n, d.objects n = none
  no_overrun : d.overrun = false

inductive Reached (SAVE_BINARIES : path) : driver → Prop
  | initial {d : driver} (h : Initial d) : Reached SAVE_BINARIES d
  | step {d : driver} (h : Reached SAVE_BINARIES d) (a : action)
      (hmeets : Meets SAVE_BINARIES d a) :
      Reached SAVE_BINARIES (step SAVE_BINARIES d a)

theorem sound_reached (h : Reached SAVE_BINARIES d) : Sound SAVE_BINARIES d := by
  induction h with
  | initial h =>
    constructor
    · exact h.past
    · intro f b hb
      simp [h.none_saved f] at hb
    · intro n a ha
      simp [h.objects n] at ha
    · intro a p hp
      simp [h.progs a] at hp
    · intro n a p ha
      simp [h.objects n] at ha
    · intro f b hb
      simp [h.none_saved f] at hb
    · intro f b hb
      simp [h.none_saved f] at hb
    · exact h.no_overrun
  | step _ a hmeets ih => exact sound_step ih a hmeets

theorem accepted_binaries_are_up_to_date (hreached : Reached SAVE_BINARIES d) {name : path}
    {source : source_t} {prog : Nat}
    (hmeets : Meets SAVE_BINARIES d (.load_object name source prog)) :
    (step SAVE_BINARIES d (.load_object name source prog)).overrun = false ∧
    ∀ p, int_load_binary SAVE_BINARIES d (real_name name) = .loaded p →
      ∃ b, d.binaries (file_name SAVE_BINARIES (real_name name)) = some b ∧
        (∀ f, LinkedFrom d p f → ∀ t, d.mtime f = some t → t ≤ b.mtime) ∧ OffsetsFit d p := by
  have hsound := sound_reached hreached
  refine ⟨(sound_step hsound _ hmeets).no_overrun, ?_⟩
  intro p hp
  obtain ⟨b, hb⟩ := int_load_binary_accepted hp
  have hload := hmeets.2.1 b hb.binary
  exact ⟨b, hb.binary, fun f hf t ht => accepted_files hsound hb hload hf ht,
    accepted_fits hsound hb hload⟩

/-- `b.c` inherits `a.c`, which includes `h`. -/
def files : driver where
  current_time := 1
  mtime := fun f => if f = [97, 46, 99] ∨ f = [98, 46, 99] ∨ f = [104] then some 0 else none
  binaries := fun _ => none
  driver_id := 0
  config_id := 0
  progs := fun _ => none
  objects := fun _ => none
  overrun := false

def source_a (num_variables : Nat) (save_binary : Bool) : source_t where
  includes := [[104]]
  inherits := []
  num_functions := 1
  initializer := false
  num_variables
  save_binary

def source_b : source_t where
  includes := []
  inherits := [([97], 0)]
  num_functions := 1
  initializer := false
  num_variables := 1
  save_binary := true

/-- `/b` -/
def directory : path := [47, 98]

def run (d : driver) (l : List action) : driver := l.foldl (step directory) d

theorem files_initial : Initial files := by
  constructor
  · intro f t ht
    simp only [files] at ht
    split_ifs at ht
    cases ht
    exact Nat.zero_le 1
  · exact fun _ => rfl
  · exact fun _ => rfl
  · exact fun _ => rfl
  · rfl

def kept : driver :=
  run files [.load_object [97] (source_a 2 true) 0, .load_object [98] source_b 1, .destruct [98]]

theorem a_saved_binary_is_loaded :
    ∃ p, int_load_binary directory kept (real_name [98]) = .loaded p ∧ OffsetsFit kept p := by
  have hfirst : Meets directory files (.load_object [97] (source_a 2 true) 0) := by
    refine ⟨by decide, ?_, fun _ => ⟨?_, ?_⟩⟩
    · intro b hb
      cases hb
    · intro i hi
      cases hi
    · intro f b hb
      cases hb
  have hsaved : step directory files (.load_object [97] (source_a 2 true) 0) =
      link (save_binary directory files ⟨[97, 46, 99], [[104]], 1, false, 2, 2, [], true⟩) [97] 0
        ⟨[97, 46, 99], [[104]], 1, false, 2, 2, [], true⟩ := rfl
  have hsecond : Meets directory (step directory files (.load_object [97] (source_a 2 true) 0))
      (.load_object [98] source_b 1) := by
    refine ⟨by decide, ?_, fun _ => ⟨?_, ?_⟩⟩
    · intro b hb
      have hnone : (step directory files (.load_object [97] (source_a 2 true) 0)).binaries
          (file_name directory (real_name [98])) = none := by decide
      simp [hnone] at hb
    · intro i hi a ha
      rw [source_b, mem_singleton] at hi
      rw [hsaved, hi, link_object_self, Option.some.injEq] at ha
      rw [hsaved, hi, ← ha, link_prog_self]
      exact ⟨_, rfl, rfl, rfl⟩
    · intro f b hb _ s hs
      rw [hsaved] at hb
      rcases save_cases hb with ⟨-, rfl⟩ | ⟨-, hb⟩
      · cases hs
      · cases hb
  have hreached : Reached directory kept :=
    .step (.step (.step (.initial files_initial) _ hfirst) _ hsecond) (.destruct [98]) trivial
  have hmeets : Meets directory kept (.load_object [98] (source_a 2 false) 2) := by
    refine ⟨by decide, ?_, fun h => by cases h⟩
    intro b hb
    have hbinary : kept.binaries (file_name directory (real_name [98])) =
        some ⟨1, 0, 0, [], [98, 46, 99], 2, false, 1, 3, [⟨[97, 46, 99], 0, 0⟩]⟩ := by
      decide
    cases hbinary.symm.trans hb
    refine ⟨by decide, ?_, ?_⟩
    · intro k name hk
      rcases k with _ | k
      · rw [map_singleton, getElem?_cons_zero, Option.some.injEq] at hk
        rw [← hk]
        decide
      · cases hk
    · intro s hs a ha
      rw [mem_singleton] at hs
      have hobject : kept.objects [97] = some 0 := by decide
      have hprog : kept.progs 0 = some ⟨[97, 46, 99], [[104]], 1, false, 2, 2, [], true⟩ := by
        decide
      rw [hs, show strip_name [97, 46, 99] = [97] by decide, hobject, Option.some.injEq] at ha
      rw [hs, ← ha, hprog]
      exact ⟨_, rfl, rfl, rfl⟩
  have hloaded : int_load_binary directory kept (real_name [98]) = .loaded
      ⟨[98, 46, 99], [], 2, false, 1, 3, [⟨0, 0, 0⟩], true⟩ := by decide
  obtain ⟨-, haccepted⟩ := accepted_binaries_are_up_to_date hreached hmeets
  obtain ⟨b, -, -, hfit⟩ := haccepted _ hloaded
  exact ⟨_, hloaded, hfit⟩

/-- `a` is compiled again from a newer `h` and not saved, and `b` is loaded as it was. -/
def stale : driver :=
  run files [.load_object [97] (source_a 2 false) 0, .load_object [98] source_b 1, .destruct [97],
    .destruct [98], .tick, .write_file [104], .load_object [97] (source_a 3 false) 2]

theorem a_stale_binary_is_loaded :
    ∃ p b, int_load_binary directory stale (real_name [98]) = .loaded p ∧
      stale.binaries (file_name directory (real_name [98])) = some b ∧
      (∃ f t, LinkedFrom stale p f ∧ stale.mtime f = some t ∧ b.mtime < t) ∧
      ¬ OffsetsFit stale p := by
  refine ⟨⟨[98, 46, 99], [], 2, false, 1, 3, [⟨2, 0, 0⟩], true⟩,
    ⟨1, 0, 0, [], [98, 46, 99], 2, false, 1, 3, [⟨[97, 46, 99], 0, 0⟩]⟩,
    by decide, by decide, ?_, ?_⟩
  · refine ⟨[104], 2, .inr ⟨⟨2, 0, 0⟩, mem_cons_self, 2, ?_⟩, by decide, by decide⟩
    exact ⟨⟨[97, 46, 99], [[104]], 1, false, 3, 3, [], false⟩, .refl, by decide, by decide⟩
  · rintro ⟨slots, own, hslots, hown, hfits⟩
    have hslot : slot_of stale ⟨2, 0, 0⟩ = some ⟨0, 0, 1, 3⟩ := rfl
    rw [map_singleton, hslot] at hslots
    cases slots with
    | nil => cases hslots
    | cons i rest =>
      rw [map_cons, List.cons.injEq, Option.some.injEq] at hslots
      obtain ⟨rfl, hrest⟩ := hslots
      rw [eq_comm, map_eq_nil_iff] at hrest
      subst hrest
      obtain ⟨-, -, -, hvars⟩ := hfits
      have hown : own + 1 = 3 := hown
      have hvars : 0 + 3 = own := hvars
      omega

end mudos.binaries
