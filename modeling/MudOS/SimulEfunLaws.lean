-- The laws of the simul_efun tables. While no program without functions is
-- loaded over simul_efuns and the indices fit in a `short`, an index keeps its
-- name through all loads, and a call through it runs that name or is refused.
import MudOS.Library.SortedTables
import MudOS.SimulEfun
import Mathlib.Data.List.Dedup
import Mathlib.Data.List.Perm.Subperm
import Mathlib.Order.Nat

open mudos.runs Function List Option
open mudos.program
open mudos.sorted_tables

namespace mudos.simul_efun

variable {name k i n : Nat} {s t : simuls_t} {e : simul_entry} {prog : program_t}
  {f : compiler_function_t} {L : Nat → Option (Nat × compiler_function_t)} {idents : Nat → ident_t}

/-! ## The search -/

theorem search_names_cases {simul_names : List simul_entry}
    (hs : Sorted simul_entry.name simul_names) : ∀ {fuel : Nat} {first last : Int},
    Between simul_entry.name simul_names name first last → 0 ≤ first → first ≤ last + 1 →
    last < simul_names.length → last + 1 - first < fuel →
    (∃ e ∈ simul_names, e.name = name ∧ search_names simul_names name fuel first last = .found e) ∨
    ∃ f l, search_names simul_names name fuel first last = .missing f l ∧
      Between simul_entry.name simul_names name f l ∧ l < f ∧ 0 ≤ f := by
  intro fuel
  induction fuel with
  | zero =>
    intro first last _ _ hle _ hfuel
    omega
  | succ fuel ih =>
    intro first last hb h0 hle hlast hfuel
    unfold search_names
    dsimp only
    split
    · rename_i hfl
      have hj : ((first + last) / 2).toNat < simul_names.length := by omega
      have hmid : (((first + last) / 2).toNat : Int) = (first + last) / 2 := by omega
      rw [getElem?_eq_getElem hj]
      have he := getElem?_eq_getElem hj
      dsimp only
      split
      · rename_i hlt
        have hb' := hb.lower hs he hlt
        rw [hmid] at hb'
        exact ih hb' h0 (by omega) (by omega) (by omega)
      · split
        · rename_i hgt
          have hb' := hb.upper hs he hgt
          rw [hmid] at hb'
          exact ih hb' (by omega) (by omega) hlast (by omega)
        · refine .inl ⟨_, getElem_mem hj, ?_, rfl⟩
          omega
    · rename_i hfl
      exact .inr ⟨first, last, rfl, hb, by omega, h0⟩

theorem search_all_cases (hs : Sorted simul_entry.name s.simul_names) (name : Nat) :
    (∃ e ∈ s.simul_names, e.name = name ∧ search_all s name = .found e) ∨
    ∃ f l, search_all s name = .missing f l ∧
      Between simul_entry.name s.simul_names name f l ∧ l < f ∧ 0 ≤ f := by
  have hnum : s.num_simul_efun = s.simul_names.length := rfl
  apply search_names_cases hs (Between.whole _ _)
  all_goals omega

theorem search_all_mem (hs : Sorted simul_entry.name s.simul_names) (he : e ∈ s.simul_names) :
    search_all s e.name = .found e := by
  rcases search_all_cases hs e.name with ⟨e', he', hname, h⟩ | ⟨f, l, -, hb, hlt, -⟩
  · rw [h, hs.eq_of_key he' he hname]
  · exact absurd rfl (hb.missing hlt he)

theorem find_simul_efun_mem (hs : Sorted simul_entry.name s.simul_names) (he : e ∈ s.simul_names) :
    find_simul_efun s e.name = e.index := by rw [find_simul_efun, search_all_mem hs he]

theorem find_simul_efun_missing (hs : Sorted simul_entry.name s.simul_names)
    (h : ∀ e ∈ s.simul_names, e.name ≠ name) : find_simul_efun s name = -1 := by
  rw [find_simul_efun]
  rcases search_all_cases hs name with ⟨e, he, hname, -⟩ | ⟨f, l, hm, -⟩
  · exact absurd hname (h e he)
  · rw [hm]

/-! ## What a program offers -/

def offered (prog : program_t) (i : Nat) : Option compiler_function_t :=
  match prog.function_flags[i]? with
  | none => none
  | some flags =>
    if flags.NO_CODE || flags.mods.STATIC || flags.mods.PRIVATE then none else function_at prog i

/-- The last of the first `k` functions with each name, with its index. -/
def latest (prog : program_t) : Nat → Nat → Option (Nat × compiler_function_t)
  | 0 => fun _ => none
  | k + 1 =>
    match offered prog k with
    | none => latest prog k
    | some f => update (latest prog k) f.name (some (k, f))

def current (s : simuls_t) : Nat → Option (Nat × compiler_function_t) :=
  match s.simul_efun_ob with
  | none => fun _ => none
  | some prog => latest prog prog.function_flags.length

theorem latest_none (h : offered prog k = none) : latest prog (k + 1) = latest prog k := by
  simp [latest, h]

theorem latest_update (h : offered prog k = some f) :
    latest prog (k + 1) = update (latest prog k) f.name (some (k, f)) := by simp [latest, h]

theorem latest_some (h : latest prog k name = some (i, f)) :
    offered prog i = some f ∧ f.name = name := by
  induction k with
  | zero => cases h
  | succ k ih =>
    cases hg : offered prog k with
    | none =>
      rw [latest_none hg] at h
      exact ih h
    | some g =>
      rw [latest_update hg] at h
      by_cases hn : name = g.name
      · subst hn
        rw [update_self] at h
        cases h
        exact ⟨hg, rfl⟩
      · rw [update_of_ne hn] at h
        exact ih h

theorem latest_offered (h : offered prog i = some f) (hik : i < k) :
    (latest prog k f.name).isSome := by
  induction k with
  | zero => omega
  | succ k ih =>
    cases hg : offered prog k with
    | none =>
      rw [latest_none hg]
      apply ih
      rcases Nat.lt_or_eq_of_le (Nat.le_of_lt_succ hik) with hlt | rfl
      · exact hlt
      · cases h.symm.trans hg
    | some g =>
      rw [latest_update hg]
      by_cases hn : f.name = g.name
      · rw [hn, update_self]
        rfl
      · rw [update_of_ne hn]
        apply ih
        rcases Nat.lt_or_eq_of_le (Nat.le_of_lt_succ hik) with hlt | rfl
        · exact hlt
        · cases h.symm.trans hg
          exact absurd rfl hn

/-! ## The tables -/

def info : Option (Nat × compiler_function_t) → simul_info_t
  | none => ⟨none, 0⟩
  | some (i, f) => ⟨some f, i⟩

def Meant (ihe : ident_t) : Prop :=
  0 ≤ ihe.sem_value ∧ (ihe.simul_num ≠ -1 → 0 < ihe.sem_value)

/-- The tables are sound, and each name stands for the function that `L` tells. -/
structure Tables (L : Nat → Option (Nat × compiler_function_t)) (s : simuls_t) : Prop where
  sorted : Sorted simul_entry.name s.simul_names
  length : s.simuls.length = s.simul_names.length
  numbered : ∀ e ∈ s.simul_names, 0 ≤ e.index ∧ e.index < s.simuls.length
  one_name : ∀ e ∈ s.simul_names, ∀ e' ∈ s.simul_names, e.index = e'.index → e = e'
  filled : ∀ e ∈ s.simul_names, s.simuls[e.index.toNat]? = some (info (L e.name))
  listed : ∀ n, (L n).isSome → ∃ e ∈ s.simul_names, e.name = n
  simul_num : ∀ e ∈ s.simul_names,
    (s.idents e.name).simul_num = if (L e.name).isSome then e.index else -1
  unnamed : ∀ n, (∀ e ∈ s.simul_names, e.name ≠ n) → (s.idents n).simul_num = -1
  meant : ∀ n, Meant (s.idents n)
  kept : s.lost = false ∧ s.freed = false

theorem Tables.start (efuns : List Nat) : Tables (fun _ => none) (start efuns) := by
  constructor
  case sorted => exact List.Pairwise.nil
  case length => rfl
  case kept => exact ⟨rfl, rfl⟩
  case unnamed => exact fun _ _ => rfl
  case meant => exact fun n => ⟨Int.natCast_nonneg _, fun h => absurd rfl h⟩
  all_goals intro e h; cases h

theorem Tables.congr (h : Tables L s) (hnames : t.simul_names = s.simul_names)
    (hsimuls : t.simuls = s.simuls) (hidents : t.idents = s.idents)
    (hkept : t.lost = false ∧ t.freed = false) : Tables L t := by
  obtain ⟨names, simuls, room, idents, ob, freed, lost⟩ := t
  subst hnames hsimuls hidents
  exact ⟨h.sorted, h.length, h.numbered, h.one_name, h.filled, h.listed, h.simul_num, h.unnamed,
    h.meant, hkept⟩

/-! ## Taking simul_efuns away -/

theorem remove_ident_of_ne (h : n ≠ name) : remove_ident idents name n = idents n := by
  unfold remove_ident
  split
  · rfl
  · rw [update_of_ne h]

theorem remove_ident_self (h : Meant (idents name)) :
    (remove_ident idents name name).simul_num = -1 ∧ Meant (remove_ident idents name name) := by
  obtain ⟨h0, hpos⟩ := h
  unfold remove_ident
  split
  · rename_i hz
    have : (idents name).simul_num = -1 := by
      apply Classical.byContradiction
      intro hne
      have := hpos hne
      omega
    exact ⟨this, h0, hpos⟩
  · rw [update_self]
    refine ⟨rfl, ?_, fun hne => absurd rfl hne⟩
    dsimp only
    split
    · rename_i hne
      have := hpos hne
      omega
    · exact h0

/-- After the names of a list have been taken, none of them stands for a simul_efun, and
the others are as before. -/
theorem remove_idents (names : List Nat) (h : ∀ n, Meant (idents n)) :
    (∀ n, Meant (names.foldl remove_ident idents n)) ∧
    (∀ n ∈ names, (names.foldl remove_ident idents n).simul_num = -1) ∧
    ∀ n, (idents n).simul_num = -1 → (names.foldl remove_ident idents n).simul_num = -1 := by
  induction names generalizing idents with
  | nil => exact ⟨h, fun n hn => absurd hn not_mem_nil, fun n hn => hn⟩
  | cons name names ih =>
    have hstep : ∀ n, Meant (remove_ident idents name n) := by
      intro n
      by_cases hn : n = name
      · subst hn
        exact (remove_ident_self (h n)).2
      · rw [remove_ident_of_ne hn]
        exact h n
    obtain ⟨hmeant, hgone, hstays⟩ := ih hstep
    refine ⟨hmeant, fun n hn => ?_, fun n hn => ?_⟩
    · rcases mem_cons.mp hn with rfl | hn
      · exact hstays _ (remove_ident_self (h n)).1
      · exact hgone n hn
    · apply hstays
      by_cases heq : n = name
      · subst heq
        exact (remove_ident_self (h n)).1
      · rwa [remove_ident_of_ne heq]

theorem Tables.remove (h : Tables L s) : Tables (fun _ => none) (remove_simuls s) := by
  obtain ⟨hmeant, hgone, hstays⟩ :=
    remove_idents (s.simul_names.map simul_entry.name) h.meant
  constructor
  case sorted => exact h.sorted
  case length => simpa [remove_simuls] using h.length
  case numbered => simpa [remove_simuls] using h.numbered
  case one_name => exact h.one_name
  case filled =>
    intro e he
    have := h.filled e he
    simp only [remove_simuls, getElem?_map, this]
    rfl
  case listed =>
    intro n hn
    cases hn
  case simul_num =>
    intro e he
    exact hgone _ (mem_map_of_mem he)
  case unnamed =>
    intro n hn
    exact hstays n (h.unnamed n hn)
  case meant => exact hmeant
  case kept => exact h.kept

/-! ## Adding a function -/

theorem add_ident_self (idents : Nat → ident_t) (name : Nat) (simul_num : Int) :
    (add_ident idents name simul_num name).simul_num = simul_num := by simp [add_ident]

theorem add_ident_of_ne {simul_num : Int} (h : n ≠ name) :
    add_ident idents name simul_num n = idents n := by simp [add_ident, update_of_ne h]

theorem add_ident_meant (h : ∀ n, Meant (idents n)) (name : Nat) (simul_num : Int) (n : Nat) :
    Meant (add_ident idents name simul_num n) := by
  by_cases hn : n = name
  · subst hn
    obtain ⟨h0, -⟩ := h n
    simp only [add_ident, update_self]
    exact ⟨by dsimp only; omega, fun _ => by dsimp only; omega⟩
  · rw [add_ident_of_ne hn]
    exact h n

theorem Tables.again (h : Tables L s) (he : e ∈ s.simul_names) (f : compiler_function_t) (i : Nat) :
    Tables (update L e.name (some (i, f)))
      { s with
        simuls := s.simuls.set e.index.toNat ⟨some f, i⟩
        idents := add_ident s.idents e.name e.index } := by
  have hother : ∀ e' ∈ s.simul_names, e'.name ≠ e.name → e.index.toNat ≠ e'.index.toNat := by
    intro e' he' hne hidx
    have h1 := h.numbered e he
    have h2 := h.numbered e' he'
    exact hne (congrArg _ (h.one_name e' he' e he (by omega)))
  constructor
  case sorted => exact h.sorted
  case length => simpa using h.length
  case numbered => simpa using h.numbered
  case one_name => exact h.one_name
  case kept => exact h.kept
  case meant => exact add_ident_meant h.meant _ _
  case filled =>
    intro e' he'
    by_cases hn : e'.name = e.name
    · have hidx := h.numbered e he
      rw [h.sorted.eq_of_key he' he hn, update_self]
      exact getElem?_set_self (by omega)
    · rw [update_of_ne hn, getElem?_set_ne (hother e' he' hn)]
      exact h.filled e' he'
  case listed =>
    intro n hn
    by_cases heq : n = e.name
    · exact ⟨e, he, heq.symm⟩
    · rw [update_of_ne heq] at hn
      exact h.listed n hn
  case simul_num =>
    intro e' he'
    by_cases hn : e'.name = e.name
    · rw [h.sorted.eq_of_key he' he hn, update_self, add_ident_self]
      rfl
    · dsimp only
      rw [update_of_ne hn, add_ident_of_ne hn]
      exact h.simul_num e' he'
  case unnamed =>
    intro n hn
    dsimp only
    rw [add_ident_of_ne fun heq => hn e he heq.symm]
    exact h.unnamed n hn

theorem short_of_lt (h : n < 32768) : short n = n := by
  unfold short
  omega

theorem Tables.fresh (h : Tables L s) (hf : ∀ e ∈ s.simul_names, e.name ≠ f.name) {first last : Int}
    (hb : Between simul_entry.name s.simul_names f.name first last) (hlt : last < first)
    (h0 : 0 ≤ first) (hn : s.num_simul_efun < 32768) (i : Nat) :
    Tables (update L f.name (some (i, f)))
      { s with
        simuls := s.simuls ++ [⟨some f, i⟩]
        simul_names := s.simul_names.take first.toNat ++
          ⟨f.name, short s.num_simul_efun⟩ :: s.simul_names.drop first.toNat
        idents := add_ident s.idents f.name (short s.num_simul_efun) } := by
  rw [short_of_lt hn]
  have hlen := h.length
  have hnum : s.num_simul_efun = s.simul_names.length := rfl
  constructor
  case sorted =>
    apply Between.insert_sorted h.sorted hb hlt
    omega
  case length =>
    have := congrArg List.length (take_append_drop first.toNat s.simul_names)
    simp only [length_append, length_cons, length_nil] at this ⊢
    omega
  case numbered =>
    intro e he
    simp only [length_append, length_cons, length_nil]
    rcases mem_insert.mp he with rfl | he
    · dsimp only
      omega
    · have := h.numbered e he
      omega
  case one_name =>
    intro e he e' he' hidx
    rcases mem_insert.mp he with rfl | he <;> rcases mem_insert.mp he' with rfl | he'
    · rfl
    · have := h.numbered e' he'
      dsimp only at hidx
      omega
    · have := h.numbered e he
      dsimp only at hidx
      omega
    · exact h.one_name e he e' he' hidx
  case kept => exact h.kept
  case meant => exact add_ident_meant h.meant _ _
  case filled =>
    intro e he
    rcases mem_insert.mp he with rfl | he
    · rw [update_self, getElem?_append_right (by dsimp only; omega)]
      simp [hlen, hnum, info]
    · rw [update_of_ne (hf e he)]
      have := h.numbered e he
      rw [getElem?_append_left (by omega)]
      exact h.filled e he
  case listed =>
    intro n hn
    by_cases heq : n = f.name
    · exact ⟨_, mem_insert.mpr (.inl rfl), heq.symm⟩
    · rw [update_of_ne heq] at hn
      obtain ⟨e, he, hname⟩ := h.listed n hn
      exact ⟨e, mem_insert.mpr (.inr he), hname⟩
  case simul_num =>
    intro e he
    rcases mem_insert.mp he with rfl | he
    · rw [update_self, add_ident_self]
      rfl
    · dsimp only
      rw [update_of_ne (hf e he), add_ident_of_ne (hf e he)]
      exact h.simul_num e he
  case unnamed =>
    intro n hn
    dsimp only
    rw [add_ident_of_ne fun heq => hn _ (mem_insert.mpr (.inl rfl)) heq.symm]
    exact h.unnamed n fun e he => hn e (mem_insert.mpr (.inr he))

structure Adds (s : simuls_t) (name : Nat) (s' : simuls_t) : Prop where
  keeps : ∀ e ∈ s.simul_names, e ∈ s'.simul_names
  only : ∀ e ∈ s'.simul_names, e ∈ s.simul_names ∨ e.name = name
  at_most_one : s'.num_simul_efun ≤ s.num_simul_efun + 1
  room : s'.room = s.room

theorem Tables.add (h : Tables L s) (f : compiler_function_t) (i : Nat)
    (hroom : s.num_simul_efun < s.room)
    (hshort : (∀ e ∈ s.simul_names, e.name ≠ f.name) → s.num_simul_efun < 32768) :
    Tables (update L f.name (some (i, f))) (find_or_add_simul_efun s f i) ∧
      Adds s f.name (find_or_add_simul_efun s f i) := by
  unfold find_or_add_simul_efun
  rcases search_all_cases h.sorted f.name with ⟨e, he, hname, hs⟩ | ⟨first, last, hs, hb, hlt, h0⟩
  · rw [hs]
    dsimp only
    rw [if_pos (h.numbered e he), ← hname]
    exact ⟨h.again he f i, fun _ h => h, fun _ h => .inl h, Nat.le_succ _, rfl⟩
  · have hf : ∀ e ∈ s.simul_names, e.name ≠ f.name := fun e he => hb.missing hlt he
    rw [hs]
    dsimp only
    rw [if_pos hroom]
    refine ⟨h.fresh hf hb hlt h0 (hshort hf) i, ?_, ?_, ?_, rfl⟩
    · intro e he
      exact mem_insert.mpr (.inr he)
    · intro e he
      rcases mem_insert.mp he with rfl | he
      · exact .inr rfl
      · exact .inl he
    · have := congrArg List.length (take_append_drop first.toNat s.simul_names)
      simp only [simuls_t.num_simul_efun, length_append, length_cons] at this ⊢
      omega

/-! ## Loads -/

def names_of (prog : program_t) : List Nat :=
  (range prog.function_flags.length).filterMap fun i =>
    (offered prog i).map compiler_function_t.name

/-- No program without functions is loaded over simul_efuns, and there are at most 32768
names with those of the program. -/
def Fits (s : simuls_t) (p : linked_t) : Prop :=
  (s.num_simul_efun ≠ 0 → p.prog.function_flags.length ≠ 0) ∧
    (s.simul_names.map simul_entry.name ++ names_of p.prog).dedup.length ≤ 32768

instance (s : simuls_t) (p : linked_t) : Decidable (Fits s p) :=
  inferInstanceAs (Decidable (_ ∧ _))

theorem mem_names_of : n ∈ names_of prog ↔ ∃ i f, offered prog i = some f ∧ f.name = n := by
  simp only [names_of, mem_filterMap, mem_range, map_eq_some_iff]
  constructor
  · rintro ⟨i, -, f, hf, hn⟩
    exact ⟨i, f, hf, hn⟩
  · rintro ⟨i, f, hf, hn⟩
    refine ⟨i, ?_, f, hf, hn⟩
    apply Classical.byContradiction
    intro hi
    simp [offered, getElem?_eq_none (Nat.not_lt.mp hi)] at hf

structure Filling (s : simuls_t) (prog : program_t) (k : Nat) (t : simuls_t) : Prop where
  tables : Tables (latest prog k) t
  keeps : ∀ e ∈ s.simul_names, e ∈ t.simul_names
  only : ∀ e ∈ t.simul_names, e ∈ s.simul_names ∨ e.name ∈ names_of prog
  room : t.num_simul_efun + prog.function_flags.length ≤ t.room + k

theorem Filling.short (h : Filling s prog k t)
    (hfits : (s.simul_names.map simul_entry.name ++ names_of prog).dedup.length ≤ 32768)
    (hn : n ∈ names_of prog) (hnew : ∀ e ∈ t.simul_names, e.name ≠ n) :
    t.num_simul_efun < 32768 := by
  have hnodup : (n :: t.simul_names.map simul_entry.name).Nodup := by
    rw [nodup_cons, List.mem_map]
    refine ⟨fun ⟨e, he, hname⟩ => hnew e he hname, ?_⟩
    rw [nodup_iff_pairwise_ne, pairwise_map]
    exact h.tables.sorted.imp fun hlt => hlt.ne
  have hsub : n :: t.simul_names.map simul_entry.name ⊆
      (s.simul_names.map simul_entry.name ++ names_of prog).dedup := by
    intro m hm
    rw [mem_dedup, mem_append]
    rcases mem_cons.mp hm with rfl | hm
    · exact .inr hn
    · obtain ⟨e, he, rfl⟩ := mem_map.mp hm
      rcases h.only e he with he | he
      · exact .inl (mem_map_of_mem he)
      · exact .inr he
  have hle := (hnodup.subperm hsub).length_le
  rw [length_cons, length_map] at hle
  exact Nat.lt_of_lt_of_le hle hfits

theorem Filling.step {s t : simuls_t} {p : linked_t} {k : Nat} (h : Filling s p.prog k t)
    (hfits : (s.simul_names.map simul_entry.name ++ names_of p.prog).dedup.length ≤ 32768)
    (hk : k < p.prog.function_flags.length) :
    Filling s p.prog (k + 1) (get_function p.prog t k) := by
  have hroom := h.room
  have hflags := getElem?_eq_getElem hk
  unfold get_function
  rw [hflags]
  dsimp only
  split
  · rename_i hhid
    have hnone : offered p.prog k = none := by
      simp [offered, hflags, hhid]
    refine ⟨?_, h.keeps, h.only, by omega⟩
    rw [latest_none hnone]
    exact h.tables
  · rename_i hvis
    rw [Bool.not_eq_true] at hvis
    obtain ⟨f, hf⟩ := isSome_iff_exists.mp (p.linked k _ hflags hvis)
    have hsome : offered p.prog k = some f := by
      simp [offered, hflags, hvis, hf]
    have hmem : f.name ∈ names_of p.prog := mem_names_of.mpr ⟨k, f, hsome, rfl⟩
    rw [hf]
    dsimp only
    obtain ⟨htables, hadds⟩ := h.tables.add f k (by omega) (h.short hfits hmem)
    have hmost := hadds.at_most_one
    refine ⟨?_, fun e he => hadds.keeps e (h.keeps e he), fun e he => ?_, ?_⟩
    · rwa [latest_update hsome]
    · rcases hadds.only e he with he | hname
      · exact h.only e he
      · exact .inr (hname ▸ hmem)
    · rw [hadds.room]
      omega

theorem Filling.run {p : linked_t} (h : Filling s p.prog 0 t)
    (hfits : (s.simul_names.map simul_entry.name ++ names_of p.prog).dedup.length ≤ 32768)
    (hk : k ≤ p.prog.function_flags.length) :
    Filling s p.prog k ((range k).foldl (get_function p.prog) t) := by
  induction k with
  | zero => exact h
  | succ k ih =>
    rw [range_succ, foldl_append]
    exact (ih (by omega)).step hfits (by omega)

theorem Tables.make_room (h : Tables L s)
    (hnew : s.num_simul_efun ≠ 0 → prog.function_flags.length ≠ 0) :
    Filling s prog 0 (make_room s prog.function_flags.length) := by
  unfold simul_efun.make_room
  split
  · rename_i hnum
    dsimp only
    rw [if_neg (hnew hnum)]
    have ht := h.remove
    refine ⟨?_, fun _ he => he, fun _ he => .inl he, Nat.le_refl _⟩
    exact ht.congr rfl rfl rfl ht.kept
  · rename_i hnum
    have hnil : s.simul_names = [] := by
      apply eq_nil_of_length_eq_zero
      exact Classical.byContradiction hnum
    have hL : L = fun _ => none := by
      funext n
      apply eq_none_iff_forall_ne_some.mpr
      intro a ha
      obtain ⟨e, he, -⟩ := h.listed n (by rw [ha]; rfl)
      simp [hnil] at he
    subst hL
    have hroom : s.num_simul_efun = 0 := Classical.byContradiction hnum
    refine ⟨?_, fun _ he => he, fun _ he => .inl he, ?_⟩
    · exact h.congr rfl rfl rfl h.kept
    · simp only [simuls_t.num_simul_efun] at hroom ⊢
      omega

theorem Tables.shrink (h : Tables L s) : Tables L (shrink s) := by
  unfold simul_efun.shrink
  obtain ⟨hlost, hfreed⟩ := h.kept
  split
  · have hkept : (s.lost || s.freed) = false ∧ s.freed = false := by
      simp [hlost, hfreed]
    exact h.congr rfl rfl rfl hkept
  · exact h

theorem shrink_names (s : simuls_t) : (shrink s).simul_names = s.simul_names := by
  unfold shrink
  split <;> rfl

def Inv (s : simuls_t) : Prop := Tables (current s) s

theorem Inv.load {s' : simuls_t} {p : linked_t} (h : Inv s) (hfits : Fits s p)
    (hs : step s p = some s') : Inv s' ∧ ∀ e ∈ s.simul_names, e ∈ s'.simul_names := by
  cases hs
  have hfill := (h.make_room hfits.1).run hfits.2 (Nat.le_refl _)
  have ht := hfill.tables.shrink
  constructor
  · exact ht.congr rfl rfl rfl ht.kept
  · intro e he
    have hmem := hfill.keeps e he
    rwa [← shrink_names] at hmem

theorem Inv.loads {loads : List linked_t} (h : Inv s) (hok : Along step Fits s loads)
    (hrun : run step s loads = some t) : Inv t ∧ ∀ e ∈ s.simul_names, e ∈ t.simul_names := by
  induction loads generalizing s with
  | nil =>
    cases hrun
    exact ⟨h, fun _ he => he⟩
  | cons p loads ih =>
    rw [runs.run, bind_eq_some_iff] at hrun
    obtain ⟨s', hs', hrun⟩ := hrun
    obtain ⟨hinv, hkeeps⟩ := h.load hok.1 hs'
    obtain ⟨ht, hrest⟩ := ih hinv (hok.2 s' hs') hrun
    exact ⟨ht, fun e he => hrest e (hkeeps e he)⟩

theorem reachable_inv {efuns : List Nat} (h : Reachable (start efuns) step Fits s) : Inv s :=
  h.inv (show Inv (start efuns) from Tables.start efuns) fun _ _ _ hi hok hs => (Inv.load hi hok hs).1

/-! ## The laws -/

/-- The object that is loaded has a function that others can call. -/
def Defines (s : simuls_t) (f : compiler_function_t) : Prop :=
  ∃ prog i, s.simul_efun_ob = some prog ∧ offered prog i = some f

def DefinesName (s : simuls_t) (name : Nat) : Prop := ∃ f, Defines s f ∧ f.name = name

/-- The tables at a later time keep the indices of an earlier one, and each index is a
name's own. -/
structure Steady (s t : simuls_t) : Prop where
  kept : t.lost = false
  sorted : Sorted simul_entry.name t.simul_names
  same_index : ∀ e ∈ s.simul_names, e ∈ t.simul_names ∧ find_simul_efun t e.name = e.index
  one_name : ∀ e ∈ t.simul_names, ∀ e' ∈ t.simul_names, e.index = e'.index → e = e'
  runs_its_name : ∀ e ∈ t.simul_names, DefinesName t e.name →
    ∃ f, call_simul_efun t false e.index.toNat = .called f ∧ Defines t f ∧ f.name = e.name
  refused : ∀ e ∈ t.simul_names, ¬ DefinesName t e.name →
    call_simul_efun t false e.index.toNat = .refused
  compiled : ∀ n, (t.idents n).simul_num ≠ -1 ↔ DefinesName t n

def Exact (s : simuls_t) : Prop := ∀ n, find_simul_efun s n ≠ -1 ↔ DefinesName s n

theorem offered_flags (h : offered prog i = some f) :
    i < prog.function_flags.length ∧ function_at prog i = some f := by
  unfold offered at h
  split at h
  · cases h
  · rename_i flags hflags
    obtain ⟨hi, -⟩ := List.getElem?_eq_some_iff.mp hflags
    split at h
    · cases h
    · exact ⟨hi, h⟩

theorem current_some (h : current s name = some (i, f)) :
    ∃ prog, s.simul_efun_ob = some prog ∧ offered prog i = some f ∧ f.name = name := by
  cases hob : s.simul_efun_ob with
  | none =>
    simp [current, hob] at h
  | some prog =>
    simp only [current, hob] at h
    obtain ⟨hf, hn⟩ := latest_some h
    exact ⟨prog, rfl, hf, hn⟩

theorem current_isSome_iff : (current s name).isSome ↔ DefinesName s name := by
  constructor
  · intro h
    obtain ⟨⟨i, f⟩, hf⟩ := isSome_iff_exists.mp h
    obtain ⟨prog, hprog, hoff, hn⟩ := current_some hf
    exact ⟨f, ⟨prog, i, hprog, hoff⟩, hn⟩
  · rintro ⟨f, ⟨prog, i, hprog, hoff⟩, rfl⟩
    rw [current, hprog]
    exact latest_offered hoff (offered_flags hoff).1

theorem Inv.calls (h : Inv t) (he : e ∈ t.simul_names) (hd : DefinesName t e.name) :
    ∃ f, call_simul_efun t false e.index.toNat = .called f ∧ Defines t f ∧ f.name = e.name := by
  obtain ⟨⟨i, f⟩, hf⟩ := isSome_iff_exists.mp (current_isSome_iff.mpr hd)
  obtain ⟨prog, hprog, hoff, hn⟩ := current_some hf
  have hslot := h.filled e he
  rw [hf] at hslot
  refine ⟨f, ?_, ⟨prog, i, hprog, hoff⟩, hn⟩
  simp [call_simul_efun, hslot, info, hprog, (offered_flags hoff).2]

theorem Inv.refuses (h : Inv t) (he : e ∈ t.simul_names) (hd : ¬ DefinesName t e.name) :
    call_simul_efun t false e.index.toNat = .refused := by
  have hnone : current t e.name = none := by
    rwa [← not_isSome_iff_eq_none, current_isSome_iff]
  have hslot := h.filled e he
  rw [hnone] at hslot
  simp [call_simul_efun, hslot, info]

theorem Inv.compiled (h : Inv t) (n : Nat) : (t.idents n).simul_num ≠ -1 ↔ DefinesName t n := by
  rw [← current_isSome_iff]
  by_cases hn : ∃ e ∈ t.simul_names, e.name = n
  · obtain ⟨e, he, rfl⟩ := hn
    have hnum := h.numbered e he
    rw [h.simul_num e he]
    split
    · rename_i hsome
      exact ⟨fun _ => hsome, fun _ => by omega⟩
    · rename_i hnone
      exact ⟨fun hne => absurd rfl hne, fun hsome => absurd hsome hnone⟩
  · rw [h.unnamed n fun e he heq => hn ⟨e, he, heq⟩]
    exact ⟨fun hne => absurd rfl hne, fun hsome => absurd (h.listed n hsome) hn⟩

theorem Inv.steady (h : Inv t) (hkeeps : ∀ e ∈ s.simul_names, e ∈ t.simul_names) :
    Steady s t where
  kept := h.kept.1
  sorted := h.sorted
  same_index e he := ⟨hkeeps e he, find_simul_efun_mem h.sorted (hkeeps e he)⟩
  one_name := h.one_name
  runs_its_name _ he hd := h.calls he hd
  refused _ he hd := h.refuses he hd
  compiled := h.compiled

theorem Inv.found_iff (h : Inv t) (n : Nat) :
    find_simul_efun t n ≠ -1 ↔ ∃ e ∈ t.simul_names, e.name = n := by
  by_cases hn : ∃ e ∈ t.simul_names, e.name = n
  · obtain ⟨e, he, rfl⟩ := hn
    have hnum := h.numbered e he
    rw [find_simul_efun_mem h.sorted he]
    exact ⟨fun _ => ⟨e, he, rfl⟩, fun _ => by omega⟩
  · rw [find_simul_efun_missing h.sorted fun e he heq => hn ⟨e, he, heq⟩]
    exact ⟨fun hne => absurd rfl hne, fun hex => absurd hex hn⟩

theorem Inv.exact_iff (h : Inv t) : Exact t ↔ ∀ e ∈ t.simul_names, DefinesName t e.name := by
  constructor
  · intro hexact e he
    exact (hexact e.name).mp ((h.found_iff e.name).mpr ⟨e, he, rfl⟩)
  · intro hall n
    rw [h.found_iff]
    constructor
    · rintro ⟨e, he, rfl⟩
      exact hall e he
    · intro hd
      exact h.listed n (current_isSome_iff.mpr hd)

/-- In every run whose loads all fit, the indices keep their names and a call runs its name
or is refused; and the search finds the names of the object just when the object defines
every name that has an index. -/
theorem the_indices_keep_their_names (efuns : List Nat) {s t : simuls_t} {loads : List linked_t}
    (h : Reachable (start efuns) step Fits s) (hok : Along step Fits s loads)
    (hrun : run step s loads = some t) :
    Steady s t ∧ (Exact t ↔ ∀ e ∈ t.simul_names, DefinesName t e.name) := by
  obtain ⟨hinv, hkeeps⟩ := (reachable_inv h).loads hok hrun
  exact ⟨hinv.steady hkeeps, hinv.exact_iff⟩

def public_flags : compiler.name_flags :=
  ⟨false, false, false, false, false, false, false, ⟨false, false, false, false, false, false, false⟩⟩

def public_program (names : List Nat) : linked_t where
  prog := .mk 0 (names.map fun name => ⟨name, 0⟩) (names.map fun _ => public_flags)
    ((range names.length).map fun i => .def_ 0 0 i) []
  linked := by
    intro i flags hflags _
    obtain ⟨name, hname, rfl⟩ : ∃ name, names[i]? = some name ∧ public_flags = flags := by
      simpa only [program_t.function_flags, getElem?_map, map_eq_some_iff] using hflags
    obtain ⟨hi, -⟩ := List.getElem?_eq_some_iff.mp hname
    simp [function_at, setup_new_frame, hi, program_t.function_table, public_flags]

/-- A function goes away while a new one comes, and it comes back. -/
theorem a_function_comes_back_to_its_index :
    (run step (start []) [public_program [5, 3], public_program [7, 5], public_program [3]]).map
      (fun t => (t.simul_names, [0, 1, 2].map (call_simul_efun t false))) =
      some ([⟨3, 1⟩, ⟨5, 0⟩, ⟨7, 2⟩], [.refused, .called ⟨3, 0⟩, .refused]) ∧
    ∃ s t, run step (start []) [public_program [5, 3]] = some s ∧
      run step s [public_program [7, 5], public_program [3]] = some t ∧
      Steady s t ∧ (Exact t ↔ ∀ e ∈ t.simul_names, DefinesName t e.name) := by
  refine ⟨by decide, _, _, rfl, rfl, ?_⟩
  have hfirst : Along step Fits (start []) [public_program [5, 3]] := by decide
  have hrest : Along step Fits (set_simul_efun (start []) (public_program [5, 3]).prog)
      [public_program [7, 5], public_program [3]] := by decide
  exact the_indices_keep_their_names [] (.of_run .start hfirst rfl) hrest rfl

/-- The tables that are given back are used, and counted on. -/
theorem an_object_without_functions_leaves_freed_tables :
    ¬ ∀ efuns s t loads, Reachable (start efuns) step (fun _ _ => True) s →
      run step s loads = some t → Steady s t ∧ Exact t := by
  intro hall
  have hrun : (run step (start []) [public_program [5, 3], public_program []]).map simuls_t.lost =
      some true := by decide
  obtain ⟨t, ht, hlost⟩ := map_eq_some_iff.mp hrun
  obtain ⟨hsteady, -⟩ := hall [] _ t _ .start ht
  simp [hsteady.kept] at hlost

end mudos.simul_efun
