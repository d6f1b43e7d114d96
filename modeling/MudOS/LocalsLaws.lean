-- The laws of local names. While the names of all open functions fit in one
-- allocation, a name is declared once in a function and no anonymous function
-- is given up, the arrays are used inside, an inner function leaves the outer
-- names as they were, and the file leaves none. Only the count of meanings
-- goes up by each name that an inner function reactivates.
import MudOS.Locals
import Mathlib.Data.List.Nodup

open mudos.runs Function List

namespace mudos.local_names

variable {a L T c : Int} {n name : Nat} {s : compiler_t} {frames : List frame_t}
variable {t : compiler_t} {num : Nat}

/-! ## The names at the offsets -/

def names (locals : Int → Nat) (a : Int) (n : Nat) : List Nat := (offsets a n).map locals

theorem mem_offsets {p : Int} : p ∈ offsets a n ↔ a ≤ p ∧ p < a + n := by
  simp only [offsets, mem_map, mem_range]
  constructor
  · rintro ⟨i, hi, rfl⟩
    omega
  · rintro ⟨ha, hn⟩
    exact ⟨(p - a).toNat, by omega, by omega⟩

theorem offsets_add (a : Int) (m n : Nat) : offsets a (m + n) = offsets a m ++ offsets (a + m) n := by
  simp only [offsets, range_add, map_append, map_map]
  congr 1
  apply map_congr_left
  intro i _
  simp only [Function.comp]
  omega

theorem offsets_succ (a : Int) (n : Nat) : offsets a (n + 1) = offsets a n ++ [a + n] := by
  rw [offsets_add]
  simp [offsets]

theorem names_add (locals : Int → Nat) (a : Int) (m n : Nat) :
    names locals a (m + n) = names locals a m ++ names locals (a + m) n := by
  rw [names, offsets_add, map_append]
  rfl

theorem names_succ (locals : Int → Nat) (a : Int) (n : Nat) :
    names locals a (n + 1) = names locals a n ++ [locals (a + n)] := by
  rw [names, offsets_succ, map_append]
  rfl

theorem mem_names {locals : Int → Nat} :
    name ∈ names locals a n ↔ ∃ p, a ≤ p ∧ p < a + n ∧ locals p = name := by
  simp [names, mem_offsets, and_assoc]

theorem names_congr {locals locals' : Int → Nat} (h : ∀ p, a ≤ p → p < a + n → locals' p = locals p) :
    names locals' a n = names locals a n := by
  apply map_congr_left
  intro p hp
  obtain ⟨ha, hn⟩ := mem_offsets.mp hp
  exact h p ha hn

/-! ## Freeing -/

/-- The identifiers after the locals of these names have been freed. -/
def freed (idents : Nat → ident_hash_elem_t) (names : List Nat) (name : Nat) : ident_hash_elem_t :=
  ⟨if name ∈ names then -1 else (idents name).local_num, (idents name).sem_value - names.count name⟩

theorem free_locals (ps : List Int) (s : compiler_t) :
    ps.foldl free_local s = { s with
      idents := freed s.idents (ps.map s.locals)
      outside := s.outside || ps.any fun p => off p s.locals_size } := by
  induction ps generalizing s with
  | nil =>
    have hnone : freed s.idents [] = s.idents := by
      funext name
      simp [freed]
    simp [hnone]
  | cons p ps ih =>
    have hidents : freed (free_local s p).idents (ps.map s.locals) =
        freed s.idents (s.locals p :: ps.map s.locals) := by
      funext name
      simp only [free_local, freed]
      by_cases hn : name = s.locals p
      · subst hn
        simp only [update_self, mem_cons, true_or, if_true, ite_self,
          count_cons_self]
        congr 1
        omega
      · have hcount := count_cons_of_ne (l := ps.map s.locals) (Ne.symm hn)
        simp [hn, hcount]
    rw [foldl_cons, ih, map_cons, any_cons, ← Bool.or_assoc, ← hidents]
    rfl

theorem offsets_inside {size : Int} (ha : 0 ≤ a) (hn : a + n ≤ size) :
    ((offsets a n).any fun p => off p size) = false := by
  rw [any_eq_false]
  intro p hp
  obtain ⟨h1, h2⟩ := mem_offsets.mp hp
  simp only [off, Bool.or_eq_true, decide_eq_true_eq]
  omega

/-! ## The invariant -/

/-- The locals of a function that waits for an inner one: `outer` is what names meant. -/
structure Kept (s : compiler_t) (outer : Nat → Option (Int × Nat)) (L T c m : Int) : Prop where
  size : 0 ≤ c ∧ 0 ≤ m ∧ m ≤ CFG_MAX_LOCAL_VARIABLES
  nodup : (names s.locals L c.toNat).Nodup
  shows : ∀ p, L ≤ p → p < L + c → 0 ≤ s.runtime_locals p ∧ s.runtime_locals p < m ∧
    outer (s.locals p) = some (s.runtime_locals p, s.type_of_locals (T + s.runtime_locals p))
  hides : ∀ name, name ∉ names s.locals L c.toNat → outer name = none

/-- The functions that wait, with their locals below `L` and their types below `T`. -/
def Waiting (s : compiler_t) : List frame_t → Int → Int → Prop
  | [], L, T => L = 0 ∧ T = 0
  | .block _ :: frames, L, T => Waiting s frames L T
  | .func c m outer :: frames, L, T =>
    Kept s outer (L - c) (T - m) c m ∧ Waiting s frames (L - c) (T - m)

def Counted : List frame_t → Int → Prop
  | [], c => 0 ≤ c
  | .block num :: frames, c => num ≤ c ∧ Counted frames (c - num)
  | .func num_local _ _ :: frames, c => 0 ≤ c ∧ Counted frames num_local

structure Inv (s : compiler_t) : Prop where
  ptr : s.runtime_locals_ptr = s.locals_ptr
  size : 0 ≤ s.current_number_of_locals ∧ 0 ≤ s.max_num_locals ∧
    s.max_num_locals ≤ CFG_MAX_LOCAL_VARIABLES
  nodup : (names s.locals s.locals_ptr s.current_number_of_locals.toNat).Nodup
  index : ∀ name ∈ names s.locals s.locals_ptr s.current_number_of_locals.toNat,
    0 ≤ (s.idents name).local_num ∧ (s.idents name).local_num < s.max_num_locals
  hides : ∀ name, name ∉ names s.locals s.locals_ptr s.current_number_of_locals.toNat →
    (s.idents name).local_num = -1
  waiting : Waiting s s.frames s.locals_ptr s.type_of_locals_ptr
  counted : Counted s.frames s.current_number_of_locals
  room : s.locals_ptr + s.current_number_of_locals ≤ s.locals_size ∧
    s.type_of_locals_ptr + CFG_MAX_LOCAL_VARIABLES ≤ s.type_of_locals_size
  meanings : ∀ name, (s.idents name).sem_value = s.others name + s.reactivated name +
    (names s.locals 0 (s.locals_ptr + s.current_number_of_locals).toNat).count name
  inside : s.outside = false

theorem Inv.start (others : Nat → Int) : Inv (init_locals others) := by
  constructor
  case ptr => rfl
  case size => exact ⟨Int.le_refl 0, Int.le_refl 0, Int.natCast_nonneg _⟩
  case nodup => exact nodup_nil
  case index => exact fun name h => absurd h not_mem_nil
  case hides => exact fun _ _ => rfl
  case waiting => exact ⟨rfl, rfl⟩
  case counted => exact Int.le_refl 0
  case room => exact ⟨Int.natCast_nonneg _, Int.le_of_eq (Int.zero_add _)⟩
  case meanings => exact fun name => by simp [init_locals, names, offsets]
  case inside => rfl

theorem Kept.congr {outer : Nat → Option (Int × Nat)} {m : Int} (h : Kept s outer L T c m)
    (hl : ∀ p, p < L + c → t.locals p = s.locals p)
    (hr : ∀ p, p < L + c → t.runtime_locals p = s.runtime_locals p)
    (ht : ∀ p, p < T + m → t.type_of_locals p = s.type_of_locals p) : Kept t outer L T c m := by
  have hnames : names t.locals L c.toNat = names s.locals L c.toNat :=
    names_congr fun p _ hp => hl p (by omega)
  refine ⟨h.size, ?_, fun p h1 h2 => ?_, fun name hn => ?_⟩
  · rw [hnames]
    exact h.nodup
  · obtain ⟨h0, hm, hshow⟩ := h.shows p h1 h2
    rw [hl p h2, hr p h2, ht _ (by omega)]
    exact ⟨h0, hm, hshow⟩
  · rw [hnames] at hn
    exact h.hides name hn

theorem Waiting.congr (h : Waiting s frames L T) (hl : ∀ p, p < L → t.locals p = s.locals p)
    (hr : ∀ p, p < L → t.runtime_locals p = s.runtime_locals p)
    (ht : ∀ p, p < T → t.type_of_locals p = s.type_of_locals p) : Waiting t frames L T := by
  induction frames generalizing L T with
  | nil => exact h
  | cons frame frames ih =>
    cases frame with
    | block num => exact ih h hl hr ht
    | func c m outer =>
      obtain ⟨hkept, hrest⟩ := h
      have hsize := hkept.size
      constructor
      · apply hkept.congr
        · exact fun p hp => hl p (by omega)
        · exact fun p hp => hr p (by omega)
        · exact fun p hp => ht p (by omega)
      · apply ih hrest
        · exact fun p hp => hl p (by omega)
        · exact fun p hp => hr p (by omega)
        · exact fun p hp => ht p (by omega)

theorem Waiting.nonneg (h : Waiting s frames L T) : 0 ≤ L ∧ 0 ≤ T := by
  induction frames generalizing L T with
  | nil =>
    obtain ⟨rfl, rfl⟩ := h
    exact ⟨Int.le_refl 0, Int.le_refl 0⟩
  | cons frame frames ih =>
    cases frame with
    | block num => exact ih h
    | func c m outer =>
      have hsize := h.1.size
      have hrest := ih h.2
      omega

theorem Counted.mono {c' : Int} (h : Counted frames c) (hc : c ≤ c') : Counted frames c' := by
  induction frames generalizing c c' with
  | nil => exact Int.le_trans h hc
  | cons frame frames ih =>
    cases frame with
    | block num => exact ⟨Int.le_trans h.1 hc, ih h.2 (by omega)⟩
    | func num_local _ _ => exact ⟨Int.le_trans h.1 hc, h.2⟩

/-! ## Declarations -/

theorem Inv.add_local_name (h : Inv s) {type : Nat} (hfresh : (s.idents name).local_num = -1)
    (hroom : s.locals_ptr + s.current_number_of_locals < s.locals_size)
    (hmax : s.max_num_locals < CFG_MAX_LOCAL_VARIABLES) : Inv (add_local_name s name type) := by
  obtain ⟨hc, hm, hm'⟩ := h.size
  obtain ⟨hL, hT⟩ := h.waiting.nonneg
  obtain ⟨c, hcur⟩ := Int.eq_ofNat_of_zero_le hc
  have hroom' := h.room
  have hnew : name ∉ names s.locals s.locals_ptr s.current_number_of_locals.toNat := by
    intro hmem
    have := h.index name hmem
    omega
  unfold local_names.add_local_name
  rw [if_neg (by omega)]
  dsimp only
  rw [if_pos hfresh]
  -- the names below the new offset are the old ones
  have hbelow : ∀ (a : Int) (n : Nat), a + n ≤ s.locals_ptr + s.current_number_of_locals →
      names (update s.locals (s.locals_ptr + s.current_number_of_locals) name) a n =
        names s.locals a n := by
    intro a n hn
    apply names_congr
    intro p _ hp
    exact update_of_ne (by omega) _ _
  have hlevel : names (update s.locals (s.locals_ptr + s.current_number_of_locals) name)
      s.locals_ptr (s.current_number_of_locals + 1).toNat =
      names s.locals s.locals_ptr s.current_number_of_locals.toNat ++ [name] := by
    have : (s.current_number_of_locals + 1).toNat = s.current_number_of_locals.toNat + 1 := by omega
    rw [this, names_succ, hbelow _ _ (by omega), Int.toNat_of_nonneg hc, update_self]
  constructor
  case ptr => exact h.ptr
  case size | room =>
    dsimp only
    omega
  case nodup =>
    dsimp only
    rw [hlevel, nodup_append]
    refine ⟨h.nodup, nodup_singleton name, fun a ha b hb => ?_⟩
    rw [mem_singleton] at hb
    subst hb
    intro hab
    exact hnew (hab ▸ ha)
  case index =>
    dsimp only
    rw [hlevel]
    intro n hn
    rcases mem_append.mp hn with hn | hn
    · have hne : n ≠ name := fun heq => hnew (heq ▸ hn)
      have := h.index n hn
      rw [update_of_ne hne]
      omega
    · rw [mem_singleton] at hn
      subst hn
      rw [update_self]
      dsimp only
      omega
  case hides =>
    dsimp only
    rw [hlevel]
    intro n hn
    rw [mem_append, mem_singleton, not_or] at hn
    rw [update_of_ne hn.2]
    exact h.hides n hn.1
  case waiting =>
    apply h.waiting.congr
    · exact fun p hp => update_of_ne (by omega) _ _
    · exact fun p hp => rfl
    · exact fun p hp => update_of_ne (by omega) _ _
  case counted => exact h.counted.mono (by dsimp only; omega)
  case meanings =>
    intro n
    dsimp only
    have hsucc : (s.locals_ptr + (s.current_number_of_locals + 1)).toNat =
        (s.locals_ptr + s.current_number_of_locals).toNat + 1 := by omega
    have hmean := h.meanings n
    rw [hsucc, names_succ, hbelow _ _ (by omega), Int.toNat_of_nonneg (by omega), Int.zero_add,
      update_self, count_append]
    by_cases hn : n = name
    · subst hn
      rw [update_self, count_singleton_self]
      dsimp only
      omega
    · rw [update_of_ne hn, count_singleton, if_neg (by simpa using Ne.symm hn)]
      omega
  case inside =>
    have h1 : off (s.type_of_locals_ptr + s.max_num_locals) s.type_of_locals_size = false := by
      simp only [off, Bool.or_eq_false_iff, decide_eq_false_iff_not]
      omega
    have h2 : off (s.locals_ptr + s.current_number_of_locals) s.locals_size = false := by
      simp only [off, Bool.or_eq_false_iff, decide_eq_false_iff_not]
      omega
    simp [h.inside, h1, h2]

/-! ## Freeing keeps the invariant -/

theorem freed_of_mem {idents : Nat → ident_hash_elem_t} {l : List Nat} (h : name ∈ l) :
    (freed idents l name).local_num = -1 := if_pos h

theorem freed_of_not_mem {idents : Nat → ident_hash_elem_t} {l : List Nat} (h : name ∉ l) :
    freed idents l name = idents name := by simp [freed, if_neg h, count_eq_zero_of_not_mem h]

theorem freed_reverse (idents : Nat → ident_hash_elem_t) (l : List Nat) (name : Nat) :
    freed idents l.reverse name = freed idents l name := by
  by_cases h : name ∈ l <;> simp [freed, h]

structure Shorter (s t : compiler_t) (num : Nat) : Prop where
  same : t = { s with
    idents := t.idents
    outside := t.outside
    current_number_of_locals := s.current_number_of_locals - num
    max_num_locals := t.max_num_locals }
  max : t.max_num_locals = s.max_num_locals ∨ t.max_num_locals = 0 ∧ s.current_number_of_locals = num
  idents : ∀ name, t.idents name =
    freed s.idents (names s.locals (s.locals_ptr + s.current_number_of_locals - num) num) name
  inside : t.outside = s.outside

theorem Inv.shorter (h : Inv s) (hnum : (num : Int) ≤ s.current_number_of_locals)
    (ht : Shorter s t num) (hw : Waiting s frames s.locals_ptr s.type_of_locals_ptr)
    (hcounted : Counted frames (s.current_number_of_locals - num)) : Inv { t with frames } := by
  obtain ⟨hsame, hmax, hidents, hinside⟩ := ht
  obtain ⟨hc, hm, hm'⟩ := h.size
  obtain ⟨hL, hT⟩ := h.waiting.nonneg
  have hroom := h.room
  rw [hsame]
  -- the names of the function are those that stay and those that go
  have hsplit : names s.locals s.locals_ptr s.current_number_of_locals.toNat =
      names s.locals s.locals_ptr (s.current_number_of_locals - num).toNat ++
        names s.locals (s.locals_ptr + s.current_number_of_locals - num) num := by
    have h1 : s.current_number_of_locals.toNat =
        (s.current_number_of_locals - num).toNat + num := by omega
    have h2 : s.locals_ptr + ((s.current_number_of_locals - num).toNat : Int) =
        s.locals_ptr + s.current_number_of_locals - num := by omega
    rw [h1, names_add, h2]
  have hnodup := h.nodup
  rw [hsplit, nodup_append] at hnodup
  obtain ⟨hnodup, -, hapart⟩ := hnodup
  have hstay : ∀ n ∈ names s.locals s.locals_ptr (s.current_number_of_locals - num).toNat,
      t.idents n = s.idents n := by
    intro n hn
    rw [hidents, freed_of_not_mem fun hgo => hapart n hn n hgo rfl]
  constructor
  case ptr => exact h.ptr
  case size | room =>
    dsimp only
    omega
  case nodup => exact hnodup
  case index =>
    intro n hn
    have hold := h.index n (by rw [hsplit]; exact mem_append_left _ hn)
    dsimp only
    rw [hstay n hn]
    rcases hmax with hmax | ⟨-, hall⟩
    · rwa [hmax]
    · rw [hall, Int.sub_self] at hn
      exact absurd hn not_mem_nil
  case hides =>
    intro n hn
    dsimp only
    by_cases hgo : n ∈ names s.locals (s.locals_ptr + s.current_number_of_locals - num) num
    · rw [hidents, freed_of_mem hgo]
    · rw [hidents, freed_of_not_mem hgo]
      apply h.hides
      rw [hsplit, mem_append, not_or]
      exact ⟨hn, hgo⟩
  case waiting => exact hw.congr (fun _ _ => rfl) (fun _ _ => rfl) fun _ _ => rfl
  case counted => exact hcounted
  case meanings =>
    intro n
    have hmean := h.meanings n
    have h1 : (s.locals_ptr + s.current_number_of_locals).toNat =
        (s.locals_ptr + (s.current_number_of_locals - num)).toNat + num := by omega
    have h2 : (0 : Int) + ((s.locals_ptr + (s.current_number_of_locals - num)).toNat : Int) =
        s.locals_ptr + s.current_number_of_locals - num := by omega
    rw [h1, names_add, h2, count_append] at hmean
    dsimp only
    rw [hidents]
    simp only [freed]
    omega
  case inside =>
    dsimp only
    rw [hinside]
    exact h.inside

theorem pop_n_locals_shorter (h : Inv s) (hnum : (num : Int) ≤ s.current_number_of_locals) :
    Shorter s (pop_n_locals s num) num := by
  have hL := h.waiting.nonneg.1
  have hroom := h.room
  unfold pop_n_locals
  dsimp only
  rw [free_locals]
  refine ⟨rfl, .inl rfl, fun name => ?_, ?_⟩
  · dsimp only
    rw [map_reverse, freed_reverse]
    rfl
  · dsimp only
    rw [any_reverse, offsets_inside (by omega) (by omega), Bool.or_false]

theorem free_all_shorter (h : Inv s) :
    Shorter s (free_all_local_names s) s.current_number_of_locals.toNat := by
  have hc := h.size.1
  have hL := h.waiting.nonneg.1
  have hroom := h.room
  have hback : s.locals_ptr + s.current_number_of_locals - (s.current_number_of_locals.toNat : Int) =
      s.locals_ptr := by omega
  have hzero : s.current_number_of_locals - (s.current_number_of_locals.toNat : Int) = 0 := by omega
  unfold free_all_local_names
  dsimp only
  rw [free_locals]
  refine ⟨?_, .inr ⟨rfl, by omega⟩, fun name => ?_, ?_⟩
  · rw [hzero]
  · rw [hback]
    rfl
  · dsimp only
    rw [offsets_inside (by omega) (by omega), Bool.or_false]

theorem Inv.free_all (h : Inv s) (hw : Waiting s frames s.locals_ptr s.type_of_locals_ptr)
    (hframes : Counted frames 0) : Inv { free_all_local_names s with frames } := by
  have hc := h.size.1
  apply h.shorter (by omega) (free_all_shorter h) hw
  rwa [Int.toNat_of_nonneg hc, Int.sub_self]

theorem Inv.clean_up (h : Inv s) : Inv { clean_up_locals s with frames := [] } := by
  have hc := h.size.1
  obtain ⟨hL, hT⟩ := h.waiting.nonneg
  have hroom := h.room
  have hidents : ∀ name, (clean_up_locals s).idents name =
      freed s.idents (names s.locals 0 (s.locals_ptr + s.current_number_of_locals).toNat) name := by
    intro name
    simp only [clean_up_locals, free_locals, map_reverse, freed_reverse]
    rfl
  constructor
  case ptr => rfl
  case size => exact ⟨Int.le_refl 0, Int.le_refl 0, Int.natCast_nonneg _⟩
  case nodup => exact nodup_nil
  case index => exact fun name hn => absurd hn not_mem_nil
  case hides =>
    intro name _
    dsimp only
    rw [hidents]
    by_cases hn : name ∈ names s.locals 0 (s.locals_ptr + s.current_number_of_locals).toNat
    · exact freed_of_mem hn
    · rw [freed_of_not_mem hn]
      apply h.hides
      intro hmem
      obtain ⟨p, h1, h2, hp⟩ := mem_names.mp hmem
      exact hn (mem_names.mpr ⟨p, by omega, by omega, hp⟩)
  case waiting => exact ⟨rfl, rfl⟩
  case counted => exact Int.le_refl 0
  case room =>
    simp only [clean_up_locals, free_locals]
    omega
  case meanings =>
    intro name
    have hmean := h.meanings name
    dsimp only
    rw [hidents]
    simp only [freed, clean_up_locals, free_locals, names, offsets, Int.add_zero, Int.toNat_zero,
      range_zero, map_nil, count_nil] at hmean ⊢
    omega
  case inside =>
    simp only [clean_up_locals, free_locals, any_reverse, h.inside, Bool.false_or]
    exact offsets_inside (by omega) (by omega)

/-! ## Anonymous functions -/

/-- The first `n` locals of the function are hidden, and their indices put away. -/
structure Deactivated (s t : compiler_t) (n : Nat) : Prop where
  same : ∃ runtime_locals idents outside, t = { s with runtime_locals, idents, outside }
  runtime : ∀ p, s.locals_ptr ≤ p → p < s.locals_ptr + n →
    t.runtime_locals p = (s.idents (s.locals p)).local_num
  below : ∀ p, p < s.locals_ptr → t.runtime_locals p = s.runtime_locals p
  hidden : ∀ name ∈ names s.locals s.locals_ptr n,
    t.idents name = { s.idents name with local_num := -1 }
  other : ∀ name, name ∉ names s.locals s.locals_ptr n → t.idents name = s.idents name
  inside : t.outside = s.outside

theorem not_off {i size : Int} (h0 : 0 ≤ i) (h : i < size) : off i size = false := by
  simp only [off, Bool.or_eq_false_iff, decide_eq_false_iff_not]
  omega

theorem deactivated (hptr : s.runtime_locals_ptr = s.locals_ptr) (hL : 0 ≤ s.locals_ptr)
    (hn : s.locals_ptr + n ≤ s.locals_size) (hnodup : (names s.locals s.locals_ptr n).Nodup) :
    Deactivated s ((offsets 0 n).foldl deactivate_local s) n := by
  induction n with
  | zero =>
    refine ⟨⟨_, _, _, rfl⟩, fun p _ _ => by omega, fun _ _ => rfl, fun name h => ?_,
      fun _ _ => rfl, rfl⟩
    exact absurd h not_mem_nil
  | succ n ih =>
    rw [names_succ, nodup_append] at hnodup
    obtain ⟨hnodup, -, hapart⟩ := hnodup
    have hnew : s.locals (s.locals_ptr + n) ∉ names s.locals s.locals_ptr n :=
      fun hmem => hapart _ hmem _ (mem_singleton_self _) rfl
    obtain ⟨hsame, hruntime, hbelow, hhidden, hother, hinside⟩ := ih (by omega) hnodup
    rw [offsets_succ, foldl_append]
    generalize (offsets 0 n).foldl deactivate_local s = t at *
    obtain ⟨runtime_locals, idents, outside, rfl⟩ := hsame
    have hkept : idents (s.locals (s.locals_ptr + n)) = s.idents (s.locals (s.locals_ptr + n)) :=
      hother _ hnew
    simp only [foldl_cons, foldl_nil, deactivate_local, Int.zero_add]
    refine ⟨⟨_, _, _, rfl⟩, fun p h1 h2 => ?_, fun p hp => ?_, fun name hname => ?_,
      fun name hname => ?_, ?_⟩
    · dsimp only
      rw [hptr]
      by_cases hp : p = s.locals_ptr + n
      · subst hp
        rw [update_self, hkept]
      · rw [update_of_ne hp]
        exact hruntime p h1 (by omega)
    · dsimp only
      rw [hptr, update_of_ne (by omega)]
      exact hbelow p hp
    · rw [names_succ, mem_append, mem_singleton] at hname
      dsimp only
      rcases hname with hname | rfl
      · have hne : name ≠ s.locals (s.locals_ptr + n) := fun heq => hnew (heq ▸ hname)
        rw [update_of_ne hne]
        exact hhidden name hname
      · rw [update_self, hkept]
    · rw [names_succ, mem_append, mem_singleton, not_or] at hname
      dsimp only
      rw [update_of_ne hname.2]
      exact hother name hname.1
    · dsimp only
      rwa [hptr, not_off (by omega) (by omega), Bool.or_false, Bool.or_false]

structure Reactivated (s t : compiler_t) (n : Nat) : Prop where
  same : ∃ idents outside reactivated, t = { s with idents, outside, reactivated }
  back : ∀ p, s.locals_ptr ≤ p → p < s.locals_ptr + n →
    (t.idents (s.locals p)).local_num = s.runtime_locals p
  other : ∀ name, name ∉ names s.locals s.locals_ptr n →
    (t.idents name).local_num = (s.idents name).local_num
  meanings : ∀ name, (t.idents name).sem_value =
    (s.idents name).sem_value + (names s.locals s.locals_ptr n).count name
  counted : ∀ name, t.reactivated name =
    s.reactivated name + (names s.locals s.locals_ptr n).count name
  inside : t.outside = s.outside

theorem reactivated {s : compiler_t} (hptr : s.runtime_locals_ptr = s.locals_ptr)
    (hL : 0 ≤ s.locals_ptr) {n : Nat} (hn : s.locals_ptr + n ≤ s.locals_size)
    (hnodup : (names s.locals s.locals_ptr n).Nodup) :
    Reactivated s ((offsets 0 n).foldl reactivate_local s) n := by
  induction n with
  | zero =>
    refine ⟨⟨_, _, _, rfl⟩, fun p _ _ => by omega, fun _ _ => rfl, fun name => ?_, fun _ => rfl, rfl⟩
    exact (Int.add_zero _).symm
  | succ n ih =>
    rw [names_succ, nodup_append] at hnodup
    obtain ⟨hnodup, -, hapart⟩ := hnodup
    obtain ⟨hsame, hback, hother, hmeanings, hcounted, hinside⟩ := ih (by omega) hnodup
    rw [offsets_succ, foldl_append]
    generalize (offsets 0 n).foldl reactivate_local s = t at *
    obtain ⟨idents, outside, reactivated, rfl⟩ := hsame
    simp only [foldl_cons, foldl_nil, reactivate_local, Int.zero_add]
    refine ⟨⟨_, _, _, rfl⟩, fun p h1 h2 => ?_, fun name hname => ?_, fun name => ?_, fun name => ?_, ?_⟩
    · dsimp only
      by_cases hp : p = s.locals_ptr + n
      · subst hp
        rw [update_self, hptr]
      · have hmem : s.locals p ∈ names s.locals s.locals_ptr n :=
          mem_names.mpr ⟨p, h1, by omega, rfl⟩
        have hne : s.locals p ≠ s.locals (s.locals_ptr + n) :=
          hapart _ hmem _ (mem_singleton_self _)
        rw [update_of_ne hne]
        exact hback p h1 (by omega)
    · rw [names_succ, mem_append, mem_singleton, not_or] at hname
      dsimp only
      rw [update_of_ne hname.2]
      exact hother name hname.1
    · have hmean := hmeanings name
      dsimp only at hmean
      rw [names_succ, count_append]
      dsimp only
      by_cases hname : name = s.locals (s.locals_ptr + n)
      · rw [hname, update_self, count_singleton_self]
        rw [hname] at hmean
        dsimp only
        omega
      · rw [update_of_ne hname, count_singleton,
          if_neg (by simpa using Ne.symm hname)]
        omega
    · have hcount := hcounted name
      dsimp only at hcount
      rw [names_succ, count_append]
      dsimp only
      by_cases hname : name = s.locals (s.locals_ptr + n)
      · rw [hname, update_self, count_singleton_self]
        rw [hname] at hcount
        omega
      · rw [update_of_ne hname, count_singleton,
          if_neg (by simpa using Ne.symm hname)]
        omega
    · dsimp only
      rwa [hptr, not_off (by omega) (by omega), Bool.or_false, Bool.or_false]

theorem Inv.open_function (h : Inv s) : Inv (open_function s) := by
  obtain ⟨hc, hm, hm'⟩ := h.size
  obtain ⟨hL, hT⟩ := h.waiting.nonneg
  have hroom := h.room
  have hcur : s.locals_ptr + (s.current_number_of_locals.toNat : Int) ≤ s.locals_size := by omega
  unfold local_names.open_function
  dsimp only
  -- the array of types has room for one more function
  obtain ⟨size, hsize, hbig⟩ : ∃ size : Int,
      (if s.type_of_locals_ptr + s.max_num_locals + CFG_MAX_LOCAL_VARIABLES ≥ s.type_of_locals_size then
        reallocate_locals s else s) = { s with type_of_locals_size := size } ∧
      s.type_of_locals_ptr + s.max_num_locals + CFG_MAX_LOCAL_VARIABLES ≤ size := by
    split
    · exact ⟨_, rfl, by omega⟩
    · exact ⟨s.type_of_locals_size, rfl, by omega⟩
  rw [hsize]
  unfold deactivate_current_locals
  dsimp only
  have hd := deactivated (s := { s with type_of_locals_size := size }) h.ptr hL hcur h.nodup
  generalize (offsets 0 s.current_number_of_locals.toNat).foldl deactivate_local
    { s with type_of_locals_size := size } = t at *
  obtain ⟨⟨runtime_locals, idents, outside, rfl⟩, hruntime, hbelow, hhidden, hother, hinside⟩ := hd
  dsimp only at hruntime hbelow hhidden hother hinside ⊢
  have hnum : ∀ name, (idents name).local_num = -1 := by
    intro name
    by_cases hn : name ∈ names s.locals s.locals_ptr s.current_number_of_locals.toNat
    · rw [hhidden name hn]
    · rw [hother name hn]
      exact h.hides name hn
  have hsem : ∀ name, (idents name).sem_value = (s.idents name).sem_value := by
    intro name
    by_cases hn : name ∈ names s.locals s.locals_ptr s.current_number_of_locals.toNat
    · rw [hhidden name hn]
    · rw [hother name hn]
  have hlback : s.locals_ptr + s.current_number_of_locals - s.current_number_of_locals =
      s.locals_ptr := by omega
  have htback : s.type_of_locals_ptr + s.max_num_locals - s.max_num_locals =
      s.type_of_locals_ptr := by omega
  constructor
  case ptr =>
    have := h.ptr
    dsimp only
    omega
  case size => exact ⟨Int.le_refl 0, Int.le_refl 0, Int.natCast_nonneg _⟩
  case nodup => exact nodup_nil
  case index => exact fun name hn => absurd hn not_mem_nil
  case hides => exact fun name _ => hnum name
  case waiting =>
    refine ⟨?_, ?_⟩
    · rw [hlback, htback]
      refine ⟨h.size, h.nodup, fun p h1 h2 => ?_, fun name hn => ?_⟩
      · have hmem : s.locals p ∈ names s.locals s.locals_ptr s.current_number_of_locals.toNat :=
          mem_names.mpr ⟨p, h1, by omega, rfl⟩
        have hindex := h.index _ hmem
        dsimp only
        rw [hruntime p h1 (by omega), lookup, if_neg (by omega)]
        exact ⟨hindex.1, hindex.2, rfl⟩
      · rw [lookup, if_pos (h.hides name hn)]
    · rw [hlback, htback]
      exact h.waiting.congr (fun _ _ => rfl) hbelow fun _ _ => rfl
  case counted => exact ⟨Int.le_refl 0, h.counted⟩
  case room =>
    dsimp only
    omega
  case meanings =>
    intro name
    dsimp only
    rw [hsem, Int.add_zero]
    exact h.meanings name
  case inside => exact hinside.trans h.inside

theorem Inv.close_function (h : Inv s) {m : Int} {outer : Nat → Option (Int × Nat)}
    (hframes : s.frames = .func c m outer :: frames) :
    Inv { close_function s c m with frames } ∧
      ∀ name, lookup { close_function s c m with frames } name = outer name := by
  have hw := h.waiting
  have hcounted := h.counted
  rw [hframes] at hw hcounted
  -- the names of the inner function are gone, and no name means a local
  have hfree := h.free_all hw ⟨Int.le_refl 0, hcounted.2⟩
  have hzero : (free_all_local_names s).current_number_of_locals = 0 := rfl
  unfold local_names.close_function
  dsimp only
  generalize free_all_local_names s = t at *
  obtain ⟨hkept, hrest⟩ := hfree.waiting
  obtain ⟨hL, hT⟩ := hrest.nonneg
  obtain ⟨hc, hm, hm'⟩ := hkept.size
  have hptr := hfree.ptr
  have hroom := hfree.room
  dsimp only at hptr hroom hL hT
  have hnone : ∀ name, (t.idents name).local_num = -1 := by
    intro name
    apply hfree.hides
    dsimp only
    rw [hzero]
    exact not_mem_nil
  have hr := reactivated (s := { t with
    current_number_of_locals := c
    max_num_locals := m
    locals_ptr := t.locals_ptr - c
    type_of_locals_ptr := t.type_of_locals_ptr - m
    runtime_locals_ptr := t.runtime_locals_ptr - c }) (n := c.toNat)
    (by dsimp only; omega) hL (by dsimp only; omega) hkept.nodup
  unfold reactivate_current_locals
  dsimp only
  generalize (offsets 0 c.toNat).foldl reactivate_local _ = u at *
  obtain ⟨⟨idents, outside, reactivated, rfl⟩, hback, hother, hmeanings, hcount, hinside⟩ := hr
  dsimp only at hback hother hmeanings hcount hinside ⊢
  have hshows : ∀ p, t.locals_ptr - c ≤ p → p < t.locals_ptr →
      0 ≤ (idents (t.locals p)).local_num ∧ (idents (t.locals p)).local_num < m ∧
      outer (t.locals p) = some ((idents (t.locals p)).local_num,
        t.type_of_locals (t.type_of_locals_ptr - m + (idents (t.locals p)).local_num)) := by
    intro p h1 h2
    rw [hback p h1 (by omega)]
    exact hkept.shows p h1 (by dsimp only; omega)
  constructor
  · constructor
    case ptr | room =>
      dsimp only
      omega
    case size => exact ⟨hc, hm, hm'⟩
    case nodup => exact hkept.nodup
    case index =>
      intro name hname
      obtain ⟨p, h1, h2, rfl⟩ := mem_names.mp hname
      obtain ⟨h0, hlt, -⟩ := hshows p h1 (by dsimp only at h2; omega)
      exact ⟨h0, hlt⟩
    case hides =>
      intro name hname
      exact (hother name hname).trans (hnone name)
    case waiting => exact hrest.congr (fun _ _ => rfl) (fun _ _ => rfl) fun _ _ => rfl
    case counted => exact hcounted.2
    case meanings =>
      intro name
      have hmean := hfree.meanings name
      have hsum := hmeanings name
      have hnum := hcount name
      have h1 : (t.locals_ptr + t.current_number_of_locals).toNat =
          (t.locals_ptr - c).toNat + c.toNat := by omega
      have h2 : (0 : Int) + ((t.locals_ptr - c).toNat : Int) = t.locals_ptr - c := by omega
      have h3 : (t.locals_ptr - c + c).toNat = (t.locals_ptr - c).toNat + c.toNat := by omega
      dsimp only at hmean ⊢
      rw [h1, names_add, h2, count_append] at hmean
      rw [h3, names_add, h2, count_append]
      omega
    case inside => exact hinside.trans hfree.inside
  · intro name
    unfold lookup
    dsimp only
    by_cases hname : name ∈ names t.locals (t.locals_ptr - c) c.toNat
    · obtain ⟨p, h1, h2, rfl⟩ := mem_names.mp hname
      obtain ⟨h0, -, hshow⟩ := hshows p h1 (by omega)
      rw [if_neg (by omega)]
      exact hshow.symm
    · rw [if_pos ((hother name hname).trans (hnone name))]
      exact (hkept.hides name hname).symm

/-! ## Runs -/

def frame_t.isFunc : frame_t → Bool
  | .block _ => false
  | .func _ _ _ => true

/-- The name is new in its function, the function has not too many names, and those of all
open functions fit in the arrays, which are never enlarged. No anonymous function is left
by the recovery from a syntax error. -/
def Meets (s : compiler_t) : action_t → Prop
  | .declare name _ => (s.idents name).local_num = -1 ∧
    s.max_num_locals < CFG_MAX_LOCAL_VARIABLES ∧
    s.locals_ptr + s.current_number_of_locals < s.locals_size
  | .undefined _ => s.max_num_locals < CFG_MAX_LOCAL_VARIABLES →
    s.locals_ptr + s.current_number_of_locals < s.locals_size
  | .recover num => (s.frames.take num).all fun frame => !frame.isFunc
  | _ => True

instance (s : compiler_t) (a : action_t) : Decidable (Meets s a) := by
  cases a <;> unfold Meets <;> infer_instance

theorem Inv.with_frames (h : Inv s) (hw : Waiting s frames s.locals_ptr s.type_of_locals_ptr)
    (hcounted : Counted frames s.current_number_of_locals) : Inv { s with frames } :=
  ⟨h.ptr, h.size, h.nodup, h.index, h.hides, hw.congr (fun _ _ => rfl) (fun _ _ => rfl) fun _ _ => rfl,
    hcounted, h.room, h.meanings, h.inside⟩

theorem Waiting.count_local (h : Waiting s frames L T) : Waiting s (count_local frames) L T := by
  unfold local_names.count_local
  split <;> exact h

theorem Counted.count_local (h : Counted frames c) : Counted (count_local frames) (c + 1) := by
  unfold local_names.count_local
  split
  · obtain ⟨hnum, hrest⟩ := h
    refine ⟨by omega, ?_⟩
    apply hrest.mono
    omega
  · exact h.mono (by omega)

theorem Inv.drop_blocks (hblocks : (frames.take num).all fun frame => !frame.isFunc)
    (hw : Waiting s frames L T) (hcounted : Counted frames c) :
    Waiting s (frames.drop num) L T ∧ Counted (frames.drop num) c := by
  induction num generalizing frames c with
  | zero => exact ⟨hw, hcounted⟩
  | succ num ih =>
    cases frames with
    | nil => exact ⟨hw, hcounted⟩
    | cons frame frames =>
      rw [take_succ_cons, all_cons, Bool.and_eq_true] at hblocks
      cases frame with
      | block n => exact ih hblocks.2 hw (hcounted.2.mono (by omega))
      | func c m outer => cases hblocks.1

theorem Inv.other (h : Inv s) (name : Nat) (change : Int) :
    Inv { s with
      idents := update s.idents name
        { s.idents name with sem_value := (s.idents name).sem_value + change }
      others := update s.others name (s.others name + change) } := by
  have hnum : ∀ n, (update s.idents name
      { s.idents name with sem_value := (s.idents name).sem_value + change } n).local_num =
      (s.idents n).local_num := by
    intro n
    by_cases hn : n = name
    · subst hn
      rw [update_self]
    · rw [update_of_ne hn]
  refine ⟨h.ptr, h.size, h.nodup, fun n hn => ?_, fun n hn => ?_, ?_, h.counted, h.room,
    fun n => ?_, h.inside⟩
  · dsimp only
    rw [hnum]
    exact h.index n hn
  · dsimp only
    rw [hnum]
    exact h.hides n hn
  · exact h.waiting.congr (fun _ _ => rfl) (fun _ _ => rfl) fun _ _ => rfl
  · have hmean := h.meanings n
    dsimp only
    by_cases hn : n = name
    · subst hn
      rw [update_self, update_self]
      dsimp only
      omega
    · rwa [update_of_ne hn, update_of_ne hn]

theorem Inv.step {s s' : compiler_t} {a : action_t} (h : Inv s) (hok : Meets s a)
    (hs : step s a = some s') : Inv s' := by
  cases a with
  | declare name type =>
    cases hs
    obtain ⟨hfresh, hmax, hroom⟩ := hok
    have hadd : Inv (local_names.add_local_name s name type) :=
      h.add_local_name hfresh hroom hmax
    have hnum : (local_names.add_local_name s name type).current_number_of_locals =
        s.current_number_of_locals + 1 := by
      rw [local_names.add_local_name, if_neg (by omega)]
    have hframes : (local_names.add_local_name s name type).frames = s.frames := by
      rw [local_names.add_local_name, if_neg (by omega)]
    have hw := hadd.waiting
    rw [hframes] at hw
    apply hadd.with_frames hw.count_local
    rw [hnum]
    exact h.counted.count_local
  | undefined name =>
    unfold local_names.step at hs
    dsimp only at hs
    split at hs
    · cases hs
    · rename_i hnum
      rw [not_not] at hnum
      split at hs
      · cases hs
        by_cases hmax : s.max_num_locals = CFG_MAX_LOCAL_VARIABLES
        · rwa [local_names.add_local_name, if_pos hmax]
        · have hle := h.size.2.2
          have hlt : s.max_num_locals < CFG_MAX_LOCAL_VARIABLES := by omega
          exact h.add_local_name hnum (hok hlt) hlt
      · cases hs
        exact h
  | open_block =>
    cases hs
    have hw : Waiting s (.block 0 :: s.frames) s.locals_ptr s.type_of_locals_ptr := h.waiting
    apply h.with_frames hw
    refine ⟨h.size.1, ?_⟩
    rw [Int.natCast_zero, Int.sub_zero]
    exact h.counted
  | close_block =>
    unfold local_names.step at hs
    dsimp only at hs
    split at hs
    · rename_i num frames hframes
      cases hs
      have hw := h.waiting
      have hcounted := h.counted
      rw [hframes] at hw hcounted
      exact h.shorter hcounted.1 (pop_n_locals_shorter h hcounted.1) hw hcounted.2
    · cases hs
  | open_function =>
    cases hs
    exact h.open_function
  | close_function =>
    unfold local_names.step at hs
    dsimp only at hs
    split at hs
    · rename_i hframes
      cases hs
      exact (h.close_function hframes).1
    · cases hs
  | end_def =>
    unfold local_names.step at hs
    dsimp only at hs
    split at hs
    · rename_i hempty
      rw [List.isEmpty_iff] at hempty
      cases hs
      have hw := h.waiting
      rw [hempty] at hw
      have hfree := h.free_all hw (Int.le_refl 0)
      have hframes : (free_all_local_names s).frames = [] := by
        simp [free_all_local_names, free_locals, hempty]
      rwa [← hframes] at hfree
    · cases hs
  | recover num =>
    cases hs
    obtain ⟨hw, hcounted⟩ := Inv.drop_blocks hok h.waiting h.counted
    exact h.with_frames hw hcounted
  | other name change =>
    cases hs
    exact h.other name change
  | end_file =>
    cases hs
    exact h.clean_up

theorem reachable_inv {others : Nat → Int} (h : Reachable (init_locals others) step Meets s) :
    Inv s :=
  h.inv (Inv.start others) fun _ _ _ hi hok hs => hi.step hok hs

/-! ## The laws -/

/-- The arrays have been used inside, the end of an inner function gives each name the index
and the type that it had at its start, and the end of the file takes the locals from all
names. -/
structure Scoped (s : compiler_t) : Prop where
  inside : s.outside = false
  saved : ∀ s', step s .open_function = some s' →
    ∃ num_local max_num_locals, s'.frames = .func num_local max_num_locals (lookup s) :: s.frames
  restored : ∀ num_local max_num_locals outer frames s',
    s.frames = .func num_local max_num_locals outer :: frames →
    step s .close_function = some s' → ∀ name, lookup s' name = outer name
  taken : ∀ s', step s .end_file = some s' → ∀ name, (s'.idents name).local_num = -1

/-- The end of the file leaves each name the meanings that it had without the locals. -/
def Restores (s : compiler_t) (name : Nat) : Prop :=
  ∀ s', step s .end_file = some s' → (s'.idents name).sem_value = s'.others name

theorem deactivate_frames (offsets : List Int) (s : compiler_t) :
    (offsets.foldl deactivate_local s).frames = s.frames := by
  induction offsets generalizing s with
  | nil => rfl
  | cons i offsets ih => exact ih (deactivate_local s i)

theorem open_function_frames (s : compiler_t) :
    (open_function s).frames =
      .func s.current_number_of_locals s.max_num_locals (lookup s) :: s.frames := by
  unfold open_function deactivate_current_locals
  dsimp only
  rw [deactivate_frames]
  split <;> rfl

/-- In every run that meets the condition the names are scoped, and the file leaves a name its
meanings just when no inner function has reactivated it. -/
theorem the_local_names_are_scoped (others : Nat → Int) {s : compiler_t}
    (h : Reachable (init_locals others) step Meets s) :
    Scoped s ∧ ∀ name, Restores s name ↔ s.reactivated name = 0 := by
  have hinv := reachable_inv h
  refine ⟨⟨hinv.inside, ?_, ?_, ?_⟩, fun name => ?_⟩
  · intro s' hs
    cases hs
    exact ⟨_, _, open_function_frames s⟩
  · intro c m outer frames s' hframes hs
    unfold step at hs
    rw [hframes] at hs
    cases hs
    exact (hinv.close_function hframes).2
  · intro s' hs name
    cases hs
    exact hinv.clean_up.hides name not_mem_nil
  · have hmean := hinv.clean_up.meanings name
    have hreact : (clean_up_locals s).reactivated = s.reactivated := by
      simp only [clean_up_locals, free_locals]
    dsimp only at hmean
    rw [hreact] at hmean
    have hnone : names (clean_up_locals s).locals 0
        ((clean_up_locals s).locals_ptr + (clean_up_locals s).current_number_of_locals).toNat = [] := rfl
    rw [hnone, count_nil] at hmean
    constructor
    · intro hrestores
      have := hrestores _ rfl
      dsimp only at this
      omega
    · intro hzero s' hs
      cases hs
      dsimp only
      omega

/-- A function with an argument and a block, and in the block a function whose argument has
the name of the outer one. -/
def nested_functions : List action_t :=
  [.declare 1 4, .open_block, .declare 2 5, .open_function, .declare 1 7, .open_block, .declare 3 6,
    .close_block, .close_function]

theorem nested_functions_are_scoped :
    (run step (init_locals fun _ => 0) nested_functions).map
      (fun s => ([1, 2, 3].map (lookup s), [1, 2, 3].map s.reactivated)) =
      some ([some (0, 4), some (1, 5), none], [1, 1, 0]) ∧
    ∃ s, run step (init_locals fun _ => 0) nested_functions = some s ∧
      Scoped s ∧ ∀ name, Restores s name ↔ s.reactivated name = 0 := by
  refine ⟨by decide, _, rfl, ?_⟩
  have hok : Along step Meets (init_locals fun _ => 0) nested_functions := by decide
  exact the_local_names_are_scoped (fun _ => 0) (.of_run .start hok rfl)

def Few (s : compiler_t) : action_t → Prop
  | .declare _ _ => s.max_num_locals < CFG_MAX_LOCAL_VARIABLES
  | _ => True

instance (s : compiler_t) (a : action_t) : Decidable (Few s a) := by
  cases a <;> unfold Few <;> infer_instance

/-- A function with all the names that it may have, and one in an inner function. -/
def full_function : List action_t :=
  (List.range 25).map (fun name => .declare name 4) ++ [.open_function, .declare 25 4]

theorem an_inner_name_is_written_outside :
    ¬ ∀ others s, Reachable (init_locals others) step Few s →
      Scoped s ∧ ∀ name, Restores s name := by
  intro hall
  have hrun : (run step (init_locals fun _ => 0) full_function).map compiler_t.outside =
      some true := by decide
  obtain ⟨s, hs, houtside⟩ := Option.map_eq_some_iff.mp hrun
  have hok : Along step Few (init_locals fun _ => 0) full_function := by decide
  obtain ⟨hscoped, -⟩ := hall _ s (.of_run .start hok hs)
  simp [hscoped.inside] at houtside

end mudos.local_names
