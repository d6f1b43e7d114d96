-- While a program is compiled, each of its strings stands once in its table and keeps its index
-- until it is freed for the last time.
import MudOS.ProgramStrings
import MudOS.Library.Chains

open mudos.runs mudos.chains Function Option

namespace mudos.program_strings

variable {s : compiler}
variable {i : Nat} {str : text_t} {u : compiler}
variable {n : Int} {l post : List Nat} {hash : UInt8}

/-! ## Chains -/

def index (n : Int) : Option Nat := if n < 0 then none else some n.toNat

def next_of (s : compiler) (i : Nat) : Option Nat := index (s.next i)

def head (s : compiler) (hash : UInt8) : Option Nat :=
  if s.string_tags hash then index (s.string_idx hash) else none

def Stored (s : compiler) (i : Nat) (str : text_t) : Prop := i < s.size ∧ s.strings i = some str

theorem index_natCast (i : Nat) : index i = some i := by
  unfold index
  rw [if_neg (by omega), Int.toNat_natCast]

theorem index_some (h : index n = some i) : n = i := by
  unfold index at h
  split_ifs at h
  rw [some.injEq] at h
  omega

theorem index_none (h : index n = none) : n < 0 := by
  unfold index at h
  split_ifs at h with hn
  exact hn

theorem find_string_chain {i : Int} {steps : Nat} (h : Chain (next_of s) (index i) l)
    (hsteps : l.length < steps) :
    find_string s str steps i = l.find? fun j => s.strings j = some str := by
  induction l generalizing i steps with
  | nil =>
    cases steps with
    | zero => omega
    | succ steps =>
      generalize hi : index i = p at h
      cases h
      rw [find_string, if_pos (index_none hi)]
      rfl
  | cons j l ih =>
    cases steps with
    | zero => omega
    | succ steps =>
      generalize hi : index i = p at h
      cases h with
      | cons h =>
        have hij := index_some hi
        subst hij
        rw [List.length_cons] at hsteps
        rw [find_string, if_neg (by omega), Int.toNat_natCast, List.find?_cons]
        by_cases hstr : s.strings j = some str
        · rw [if_pos hstr, decide_eq_true hstr]
        · rw [if_neg hstr, decide_eq_false hstr]
          exact ih h (by omega)

theorem find_prv_chain {n : Nat} {pre : List Nat} {i : Int} {prv : Option Nat} {steps : Nat}
    (h : Chain (next_of s) (index i) (pre ++ n :: post)) (hn : n ∉ pre)
    (hsteps : pre.length < steps) : find_prv s n steps prv i = some (pre.getLast?.or prv) := by
  induction pre generalizing i prv steps with
  | nil =>
    cases steps with
    | zero => omega
    | succ steps =>
      generalize hi : index i = p at h
      cases h
      rw [find_prv, if_pos (index_some hi)]
      rfl
  | cons j pre ih =>
    cases steps with
    | zero => omega
    | succ steps =>
      generalize hi : index i = p at h
      cases h with
      | cons h =>
        have hij := index_some hi
        subst hij
        rw [List.length_cons] at hsteps
        have hne : (j : Int) ≠ n := by
          intro heq
          exact hn (by rw [show j = n by omega]; exact List.mem_cons_self)
        rw [find_prv, if_neg hne, if_neg (by omega), Int.toNat_natCast,
          ih h (fun hmem => hn (List.mem_cons_of_mem j hmem)) (by omega), List.getLast?_cons]
        cases pre.getLast? <;> rfl

/-! ## What holds of the table -/

def Lowest (s : compiler) : Prop :=
  (s.freed_string = -1 ∧ ∀ i, i < s.size → s.strings i ≠ none) ∨
    ∃ f : Nat, s.freed_string = f ∧ f < s.size ∧ s.strings f = none ∧
      ∀ i, i < f → s.strings i ≠ none

structure Sound (s : compiler) : Prop where
  size : s.size ≤ 32768
  stored : ∀ i str, Stored s i str →
    s.refs i = (s.given.count (str, (i : Int)) : Int) ∧ 1 ≤ s.refs i ∧ s.refs i ≤ 32767
  given : ∀ str num, (str, num) ∈ s.given → ∃ i : Nat, num = i ∧ Stored s i str
  once : ∀ i j str, Stored s i str → Stored s j str → i = j
  chains : ∀ hash, ∃ l, Chain (next_of s) (head s hash) l ∧
    ∀ i, i ∈ l ↔ ∃ str, Stored s i str ∧ s.hash str = hash
  tags : ∀ hash, s.string_tags hash = true → 0 ≤ s.string_idx hash
  nexts : ∀ i str, Stored s i str → -1 ≤ s.next i
  freed : Lowest s
  inside : s.outside = false
  not_null : s.null = false

theorem chain_length (hsound : Sound s) {p : Option Nat} (hl : Chain (next_of s) p l)
    (hmem : ∀ i, i ∈ l ↔ ∃ str, Stored s i str ∧ s.hash str = hash) : l.length < s.size + 1 := by
  refine Nat.lt_succ_of_le (hl.length_le ?_)
  intro i hi
  obtain ⟨str, hstored, -⟩ := (hmem i).mp hi
  exact hstored.1

theorem short_eq (hlow : -32768 ≤ n) (hhigh : n ≤ 32767) : short n = n := by
  unfold short
  omega

theorem find_string_stored (hsound : Sound s) (str : text_t) :
    (∃ i, (if s.string_tags (s.hash str) then
        find_string s str (s.size + 1) (s.string_idx (s.hash str)) else none) = some i ∧
      Stored s i str) ∨
    ((if s.string_tags (s.hash str) then
        find_string s str (s.size + 1) (s.string_idx (s.hash str)) else none) = none ∧
      ∀ i, ¬ Stored s i str) := by
  obtain ⟨l, hl, hmem⟩ := hsound.chains (s.hash str)
  have hfind : (if s.string_tags (s.hash str) then
      find_string s str (s.size + 1) (s.string_idx (s.hash str)) else none) =
      l.find? fun j => s.strings j = some str := by
    unfold head at hl
    cases htag : s.string_tags (s.hash str) with
    | false =>
      rw [htag] at hl
      cases hl
      rfl
    | true =>
      rw [htag, if_pos rfl] at hl
      exact find_string_chain hl (chain_length hsound hl hmem)
  rw [hfind]
  cases hfound : l.find? fun j => s.strings j = some str with
  | some i =>
    refine .inl ⟨i, rfl, ?_⟩
    obtain ⟨t, hstored, -⟩ := (hmem i).mp (List.mem_of_find?_eq_some hfound)
    have hstr := List.find?_some hfound
    exact ⟨hstored.1, of_decide_eq_true hstr⟩
  | none =>
    refine .inr ⟨rfl, ?_⟩
    intro i hstored
    have hnone := List.find?_eq_none.mp hfound i ((hmem i).mpr ⟨str, hstored, rfl⟩)
    exact hnone (decide_eq_true hstored.2)

/-! ## Storing -/

theorem sound_store_again (hsound : Sound s) (hi : Stored s i str) (hmeets : s.refs i < 32767) :
    Sound { s with
      refs := update s.refs i (short (s.refs i + 1))
      given := (str, (i : Int)) :: s.given } := by
  obtain ⟨hcount, hlow, -⟩ := hsound.stored i str hi
  have hshort : short (s.refs i + 1) = s.refs i + 1 := short_eq (by omega) (by omega)
  refine { hsound with stored := ?_, given := ?_ }
  · intro j t hj
    change Stored s j t at hj
    by_cases hij : j = i
    · subst hij
      have hstr : t = str := some.inj (hj.2.symm.trans hi.2)
      subst hstr
      simp only [update_self, hshort, List.count_cons_self]
      omega
    · obtain ⟨hcount', hlow', hhigh'⟩ := hsound.stored j t hj
      have hne : (str, (i : Int)) ≠ (t, (j : Int)) := by
        intro h
        rw [Prod.mk.injEq] at h
        omega
      simp only [update_of_ne hij, List.count_cons_of_ne hne]
      exact ⟨hcount', hlow', hhigh'⟩
  · intro t num hmem
    rcases List.mem_cons.mp hmem with h | hmem
    · rw [Prod.mk.injEq] at h
      exact ⟨i, h.2, by rw [h.1]; exact hi⟩
    · exact hsound.given t num hmem

def placed (s : compiler) (str : text_t) (i size : Nat) (freed : Int) : compiler :=
  put_string
    { s with
      string_tags := update s.string_tags (s.hash str) true
      freed_string := freed
      size } str
    (if s.string_tags (s.hash str) then s.string_idx (s.hash str) else -1) i

theorem sound_placed (hsound : Sound s) (hnew : ∀ i, ¬ Stored s i str) {size : Nat} {freed : Int}
    (hfree : i < s.size → s.strings i = none) (hsize : ∀ j, j < size ↔ j < s.size ∨ j = i)
    (hmax : size ≤ 32768) (hlowest : Lowest (placed s str i size freed)) :
    Sound (placed s str i size freed) := by
  have hfresh : ∀ j t, Stored s j t → j ≠ i := by
    rintro j t hj rfl
    have hnone := hfree hj.1
    simp [hj.2] at hnone
  have hstored : ∀ j t, Stored (placed s str i size freed) j t ↔
      Stored s j t ∨ j = i ∧ t = str := by
    intro j t
    unfold Stored placed put_string
    simp only [hsize]
    by_cases hj : j = i
    · subst hj
      rw [update_self, some.injEq]
      constructor
      · rintro ⟨-, h⟩
        exact .inr ⟨rfl, h.symm⟩
      · rintro (h | h)
        · exact absurd rfl (hfresh j t h)
        · exact ⟨.inr rfl, h.2.symm⟩
    · rw [update_of_ne hj]
      simp [hj]
  refine ⟨hmax, ?_, ?_, ?_, ?_, ?_, ?_, hlowest, hsound.inside, hsound.not_null⟩
  · intro j t hj
    rcases (hstored j t).mp hj with hj | ⟨rfl, rfl⟩
    · obtain ⟨hcount, hlow, hhigh⟩ := hsound.stored j t hj
      have hne := hfresh j t hj
      have hpair : (str, (i : Int)) ≠ (t, (j : Int)) := by
        intro h
        rw [Prod.mk.injEq] at h
        omega
      simp only [placed, put_string, update_of_ne hne, List.count_cons_of_ne hpair]
      exact ⟨hcount, hlow, hhigh⟩
    · have hzero : s.given.count (t, (j : Int)) = 0 := by
        apply List.count_eq_zero.mpr
        intro hmem
        obtain ⟨k, hk, hstored⟩ := hsound.given t j hmem
        exact hnew k hstored
      simp only [placed, put_string, update_self, List.count_cons_self, hzero]
      omega
  · intro t num hmem
    rcases List.mem_cons.mp hmem with h | hmem
    · rw [Prod.mk.injEq] at h
      exact ⟨i, h.2, (hstored i t).mpr (.inr ⟨rfl, h.1⟩)⟩
    · obtain ⟨j, hj, hold⟩ := hsound.given t num hmem
      exact ⟨j, hj, (hstored j t).mpr (.inl hold)⟩
  · intro j k t hj hk
    rcases (hstored j t).mp hj with hj | ⟨hji, ht⟩
    · rcases (hstored k t).mp hk with hk | ⟨-, ht⟩
      · exact hsound.once j k t hj hk
      · rw [ht] at hj
        exact absurd hj (hnew j)
    · rcases (hstored k t).mp hk with hk | ⟨hki, -⟩
      · rw [ht] at hk
        exact absurd hk (hnew k)
      · exact hji.trans hki.symm
  · intro hash
    obtain ⟨l, hl, hmem⟩ := hsound.chains hash
    have hnot : i ∉ l := by
      intro hi
      obtain ⟨t, ht, -⟩ := (hmem i).mp hi
      exact hfresh i t ht rfl
    have hsame : ∀ j ∈ l, next_of (placed s str i size freed) j =
        next_of s j := by
      intro j hj
      have hne : j ≠ i := by
        rintro rfl
        exact hnot hj
      simp [next_of, placed, put_string, update_of_ne hne]
    by_cases hhash : hash = s.hash str
    · subst hhash
      refine ⟨i :: l, ?_, ?_⟩
      · have hhead : head (placed s str i size freed)
            (s.hash str) = some i := by
          simp [head, placed, put_string, index_natCast]
        have hnext : next_of (placed s str i size freed) i =
            head s (s.hash str) := by
          simp only [next_of, head, placed, put_string, update_self]
          split_ifs <;> rfl
        rw [hhead]
        apply Chain.cons
        rw [hnext]
        exact hl.congr hsame
      · intro j
        rw [List.mem_cons, hmem]
        constructor
        · rintro (rfl | ⟨t, ht, hhash⟩)
          · exact ⟨str, (hstored j str).mpr (.inr ⟨rfl, rfl⟩), rfl⟩
          · exact ⟨t, (hstored j t).mpr (.inl ht), hhash⟩
        · rintro ⟨t, ht, hhash⟩
          rcases (hstored j t).mp ht with ht | ⟨rfl, -⟩
          · exact .inr ⟨t, ht, hhash⟩
          · exact .inl rfl
    · refine ⟨l, ?_, ?_⟩
      · have hhead : head (placed s str i size freed) hash =
            head s hash := by
          simp [head, placed, put_string, update_of_ne hhash]
        rw [hhead]
        exact hl.congr hsame
      · intro j
        rw [hmem]
        constructor
        · rintro ⟨t, ht, hhash'⟩
          exact ⟨t, (hstored j t).mpr (.inl ht), hhash'⟩
        · rintro ⟨t, ht, hhash'⟩
          rcases (hstored j t).mp ht with ht | ⟨-, rfl⟩
          · exact ⟨t, ht, hhash'⟩
          · exact absurd hhash'.symm hhash
  · intro hash htag
    by_cases hhash : hash = s.hash str
    · subst hhash
      simp only [placed, put_string, update_self]
      omega
    · simp only [placed, put_string, update_of_ne hhash] at htag ⊢
      exact hsound.tags hash htag
  · intro j t hj
    by_cases hji : j = i
    · subst hji
      simp only [placed, put_string, update_self]
      split_ifs with htag
      · have := hsound.tags _ htag
        omega
      · omega
    · rcases (hstored j t).mp hj with hj | ⟨rfl, -⟩
      · simp only [placed, put_string, update_of_ne hji]
        exact hsound.nexts j t hj
      · exact absurd rfl hji

theorem next_freed_some {freed : Nat} (h : next_freed s = some freed) :
    s.freed_string < freed ∧ freed < s.size ∧ s.strings freed = none ∧
      ∀ i : Nat, s.freed_string < (i : Int) → i < freed → s.strings i ≠ none := by
  obtain ⟨hp, hlt, hbefore⟩ := List.find?_range_eq_some.mp h
  rw [Bool.and_eq_true, decide_eq_true_eq, isNone_iff_eq_none] at hp
  refine ⟨hp.1, List.mem_range.mp hlt, hp.2, ?_⟩
  intro i hi hif hnone
  have hnot := hbefore i hif
  simp [decide_eq_true hi, hnone] at hnot

theorem next_freed_none (h : next_freed s = none) :
    ∀ i : Nat, s.freed_string < (i : Int) → i < s.size → s.strings i ≠ none := by
  intro i hi hsize hnone
  have hnot := List.find?_eq_none.mp h i (List.mem_range.mpr hsize)
  rw [decide_eq_true hi, hnone] at hnot
  exact hnot rfl

theorem sound_reuse (hsound : Sound s) (hnew : ∀ i, ¬ Stored s i str) {f : Nat}
    (hf : s.freed_string = f) (hlt : f < s.size) (hnone : s.strings f = none)
    (hbefore : ∀ i, i < f → s.strings i ≠ none) (hmeets : s.size < 32768 ∨ next_freed s ≠ none) :
    Sound (match next_freed s with
      | some freed => placed s str f s.size freed
      | none =>
        if s.size ≤ 32767 then placed s str f s.size (-1) else { s with outside := true }) := by
  have hsize : ∀ j, j < s.size ↔ j < s.size ∨ j = f := by
    intro j
    omega
  have hother : ∀ {i freed}, i ≠ f → (placed s str f s.size freed).strings i = s.strings i :=
    fun hi => update_of_ne hi _ _
  have hself : ∀ freed, (placed s str f s.size freed).strings f = some str :=
    fun _ => update_self _ _ _
  cases hnext : next_freed s with
  | some freed =>
    obtain ⟨hgt, hin, hfree, hbetween⟩ := next_freed_some hnext
    refine sound_placed hsound hnew (fun _ => hnone) hsize hsound.size
      (.inr ⟨freed, rfl, hin, ?_, ?_⟩)
    · rwa [hother (by omega)]
    · intro i hi
      by_cases hif : i = f
      · rw [hif, hself]
        simp
      · rw [hother hif]
        rcases Nat.lt_or_gt_of_ne hif with hlow | hhigh
        · exact hbefore i hlow
        · exact hbetween i (by omega) hi
  | none =>
    have hsmall : s.size < 32768 := by
      rcases hmeets with h | h
      · exact h
      · exact absurd hnext h
    simp only
    rw [if_pos (by omega)]
    refine sound_placed hsound hnew (fun _ => hnone) hsize hsound.size (.inl ⟨rfl, ?_⟩)
    intro i hi
    by_cases hif : i = f
    · rw [hif, hself]
      simp
    · rw [hother hif]
      rcases Nat.lt_or_gt_of_ne hif with hlow | hhigh
      · exact hbefore i hlow
      · exact next_freed_none hnext i (by omega) hi

theorem sound_grow (hsound : Sound s) (hnew : ∀ i, ¬ Stored s i str) (hf : s.freed_string = -1)
    (hfull : ∀ i, i < s.size → s.strings i ≠ none) (hsmall : s.size < 32768) :
    Sound (placed s str s.size (s.size + 1) s.freed_string) := by
  refine sound_placed hsound hnew (fun h => absurd h (Nat.lt_irrefl _)) ?_ (by omega)
    (.inl ⟨hf, ?_⟩)
  · intro j
    omega
  · intro i hi
    by_cases hin : i = s.size
    · rw [hin]
      exact fun h => by
        rw [show (placed s str s.size (s.size + 1) s.freed_string).strings s.size = some str from
          update_self _ _ _] at h
        cases h
    · have hother : (placed s str s.size (s.size + 1) s.freed_string).strings i = s.strings i :=
        update_of_ne hin _ _
      rw [hother]
      have hlt : i < s.size + 1 := hi
      exact hfull i (by omega)

/-- There is room for a new string, and for a new reference to an old one. -/
def Room (s : compiler) (str : text_t) : Prop :=
  (∀ i, Stored s i str → s.refs i < 32767) ∧
    ((∀ i, ¬ Stored s i str) → s.size < 32768 ∨ next_freed s ≠ none)

theorem room_to_grow (hroom : Room s str) (hnew : ∀ i, ¬ Stored s i str)
    (hfull : ∀ i, i < s.size → s.strings i ≠ none) : s.size < 32768 := by
  rcases hroom.2 hnew with h | h
  · exact h
  · obtain ⟨g, hg⟩ := ne_none_iff_exists'.mp h
    obtain ⟨-, hin, hfree, -⟩ := next_freed_some hg
    exact absurd hfree (hfull g hin)

theorem sound_store (hsound : Sound s) (hroom : Room s str) :
    Sound (store_prog_string s str).2 := by
  simp only [store_prog_string]
  rcases find_string_stored hsound str with ⟨i, hfind, hstored⟩ | ⟨hfind, hnew⟩
  · rw [hfind]
    exact sound_store_again hsound hstored (hroom.1 i hstored)
  · rw [hfind]
    simp only
    rcases hsound.freed with ⟨hf, hfull⟩ | ⟨f, hf, hlt, hnone, hbefore⟩
    · rw [if_neg (by omega)]
      have hsmall := room_to_grow hroom hnew hfull
      have hshort : short s.size = s.size := short_eq (by omega) (by omega)
      rw [if_pos (by omega), hshort, Int.toNat_natCast]
      exact sound_grow hsound hnew hf hfull hsmall
    · have hreuse := sound_reuse hsound hnew hf hlt hnone hbefore (hroom.2 hnew)
      rw [if_pos (by omega)]
      have hnat : s.freed_string.toNat = f := by omega
      have hscan : next_freed
          { s with string_tags := update s.string_tags (s.hash str) true } =
          next_freed s := rfl
      rw [hnat, hscan]
      cases hnext : next_freed s with
      | some freed =>
        rwa [hnext] at hreuse
      | none =>
        rw [hnext] at hreuse
        have hsize : s.size ≤ 32767 := by
          rcases hroom.2 hnew with h | h
          · omega
          · exact absurd hnext h
        simp only at hreuse ⊢
        rw [if_pos hsize] at hreuse ⊢
        exact hreuse

/-! ## Freeing -/

theorem split_chain (hsound : Sound s) (hi : Stored s i str) :
    ∃ pre post, Chain (next_of s) (head s (s.hash str)) (pre ++ i :: post) ∧
      (∀ j, j ∈ pre ++ i :: post ↔ ∃ t, Stored s j t ∧ s.hash t = s.hash str) ∧
      i ∉ pre ∧ i ∉ post := by
  obtain ⟨l, hl, hmem⟩ := hsound.chains (s.hash str)
  obtain ⟨pre, post, rfl⟩ := List.append_of_mem ((hmem i).mpr ⟨str, hi, rfl⟩)
  have hnodup := hl.nodup
  have hcons := (List.nodup_append.mp hnodup).2.1
  refine ⟨pre, post, hl, hmem, ?_, (List.nodup_cons.mp hcons).1⟩
  intro hpre
  exact (List.nodup_append.mp hnodup).2.2 i hpre i List.mem_cons_self rfl

def Unlinked (s u : compiler) (i : Nat) : Prop :=
  (∀ hash, ∃ l, Chain (next_of u) (head u hash) l ∧
    ∀ j, j ∈ l ↔ j ≠ i ∧ ∃ str, Stored s j str ∧ s.hash str = hash) ∧
  (∀ hash, u.string_tags hash = true → 0 ≤ u.string_idx hash) ∧
  ∀ j str, Stored s j str → -1 ≤ u.next j

theorem other_chain (hi : Stored s i str) (hne : hash ≠ s.hash str)
    (hmem : ∀ j, j ∈ l ↔ ∃ t, Stored s j t ∧ s.hash t = hash) :
    ∀ j, j ∈ l ↔ j ≠ i ∧ ∃ t, Stored s j t ∧ s.hash t = hash := by
  intro j
  rw [hmem]
  constructor
  · rintro ⟨t, ht, hhash⟩
    refine ⟨?_, t, ht, hhash⟩
    rintro rfl
    have heq : t = str := some.inj (ht.2.symm.trans hi.2)
    rw [heq] at hhash
    exact hne hhash.symm
  · rintro ⟨-, h⟩
    exact h

theorem unlinked_head (hsound : Sound s) (hi : Stored s i str)
    (hl : Chain (next_of s) (head s (s.hash str)) (i :: post))
    (hmem : ∀ j, j ∈ i :: post ↔ ∃ t, Stored s j t ∧ s.hash t = s.hash str) (hpost : i ∉ post)
    (hnext : u.next = s.next)
    (hidx : u.string_idx = update s.string_idx (s.hash str) (s.next i))
    (htags : u.string_tags = if s.next i = -1 then
      update s.string_tags (s.hash str) false else s.string_tags) : Unlinked s u i := by
  have hnext_of : next_of u = next_of s := by
    funext j
    rw [next_of, next_of, hnext]
  have hlow := hsound.nexts i str hi
  have htag : ∀ hash, u.string_tags hash = true →
      s.string_tags hash = true ∧ (hash = s.hash str → s.next i ≠ -1) := by
    intro hash h
    rw [htags] at h
    split_ifs at h with hend
    · by_cases hhash : hash = s.hash str
      · simp [hhash] at h
      · rw [update_of_ne hhash] at h
        exact ⟨h, fun heq => absurd heq hhash⟩
    · exact ⟨h, fun _ => hend⟩
  refine ⟨?_, ?_, ?_⟩
  · intro hash
    by_cases hhash : hash = s.hash str
    · subst hhash
      refine ⟨post, ?_, ?_⟩
      · generalize hp : head s (s.hash str) = p at hl
        cases hl with
        | cons hl =>
          have hhead : head u (s.hash str) = next_of s i := by
            rw [head, next_of, htags, hidx, update_self]
            by_cases hend : s.next i = -1
            · rw [if_pos hend, update_self, hend]
              rfl
            · have hset : s.string_tags (s.hash str) = true := by
                unfold head at hp
                split_ifs at hp with hset
                exact hset
              rw [if_neg hend, if_pos hset]
          rwa [hhead, hnext_of]
      · intro j
        rw [← hmem, List.mem_cons]
        constructor
        · intro hj
          refine ⟨?_, .inr hj⟩
          rintro rfl
          exact hpost hj
        · rintro ⟨hne, hj | hj⟩
          · exact absurd hj hne
          · exact hj
    · obtain ⟨l, hl', hmem'⟩ := hsound.chains hash
      refine ⟨l, ?_, other_chain hi hhash hmem'⟩
      have hhead : head u hash = head s hash := by
        unfold head
        rw [htags, hidx, update_of_ne hhash]
        split_ifs with hend h₁ h₂ h₂ <;> simp_all
      rwa [hhead, hnext_of]
  · intro hash h
    obtain ⟨hset, hend⟩ := htag hash h
    rw [hidx]
    by_cases hhash : hash = s.hash str
    · have := hend hhash
      rw [hhash, update_self]
      omega
    · rw [update_of_ne hhash]
      exact hsound.tags hash hset
  · intro j t hj
    rw [hnext]
    exact hsound.nexts j t hj

theorem unlinked_behind (hsound : Sound s) (hi : Stored s i str) {pre : List Nat} {prv : Nat}
    (hl : Chain (next_of s) (head s (s.hash str)) (pre ++ prv :: i :: post))
    (hmem : ∀ j, j ∈ pre ++ prv :: i :: post ↔ ∃ t, Stored s j t ∧ s.hash t = s.hash str)
    (hnext : u.next = update s.next prv (s.next i)) (hidx : u.string_idx = s.string_idx)
    (htags : u.string_tags = s.string_tags) : Unlinked s u i := by
  have hhead : ∀ hash, head u hash = head s hash := by
    intro hash
    rw [head, head, hidx, htags]
  have hnext_of : next_of u = update (next_of s) prv (next_of s i) := by
    funext j
    rw [next_of, hnext]
    by_cases hj : j = prv
    · rw [hj, update_self, update_self]
      rfl
    · rw [update_of_ne hj, update_of_ne hj]
      rfl
  have hnodup := hl.nodup
  obtain ⟨q, hq, hqhash⟩ := (hmem prv).mp (List.mem_append_right _ List.mem_cons_self)
  refine ⟨?_, ?_, ?_⟩
  · intro hash
    rw [hhead, hnext_of]
    by_cases hhash : hash = s.hash str
    · subst hhash
      refine ⟨pre ++ prv :: post, hl.drop_behind, ?_⟩
      intro j
      rw [← hmem]
      simp only [List.mem_append, List.mem_cons]
      have hnot : i ∉ pre ∧ i ≠ prv ∧ i ∉ post := by
        simp only [List.nodup_append, List.nodup_cons, List.mem_cons, not_or] at hnodup
        refine ⟨?_, ?_, hnodup.2.1.2.1⟩
        · intro h
          exact hnodup.2.2 i h i (.inr (.inl rfl)) rfl
        · rintro rfl
          exact hnodup.2.1.1.1 rfl
      constructor
      · intro hj
        refine ⟨?_, ?_⟩
        · rintro rfl
          rcases hj with hj | hj | hj
          · exact hnot.1 hj
          · exact hnot.2.1 hj
          · exact hnot.2.2 hj
        · rcases hj with hj | hj | hj
          · exact .inl hj
          · exact .inr (.inl hj)
          · exact .inr (.inr (.inr hj))
      · rintro ⟨hne, hj | hj | hj | hj⟩
        · exact .inl hj
        · exact .inr (.inl hj)
        · exact absurd hj hne
        · exact .inr (.inr hj)
    · obtain ⟨l, hl', hmem'⟩ := hsound.chains hash
      refine ⟨l, ?_, other_chain hi hhash hmem'⟩
      apply hl'.congr
      intro j hj
      apply update_of_ne
      rintro rfl
      obtain ⟨t, ht, hthash⟩ := (hmem' j).mp hj
      have heq : t = q := some.inj (ht.2.symm.trans hq.2)
      rw [heq, hqhash] at hthash
      exact hhash hthash.symm
  · intro hash h
    rw [hidx]
    rw [htags] at h
    exact hsound.tags hash h
  · intro j t hj
    rw [hnext]
    by_cases hjp : j = prv
    · rw [hjp, update_self]
      exact hsound.nexts i str hi
    · rw [update_of_ne hjp]
      exact hsound.nexts j t hj

theorem lowest_free_slot (hlowest : Lowest u) (hi : i < u.size) (hfull : u.strings i ≠ none) :
    Lowest (free_slot u i) := by
  simp only [free_slot]
  by_cases hlast : i + 1 = u.size
  · rw [if_neg (not_not_intro hlast)]
    rcases hlowest with ⟨hf, hall⟩ | ⟨f, hf, hlt, hnone, hbefore⟩
    · refine .inl ⟨hf, fun j hj => ?_⟩
      have hj' : j < u.size - 1 := hj
      simp only [update_of_ne (show j ≠ i by omega)]
      exact hall j (by omega)
    · have hne : f ≠ i := by
        rintro rfl
        exact hfull hnone
      refine .inr ⟨f, hf, show f < u.size - 1 by omega, ?_, fun j hj => ?_⟩
      · simp only [update_of_ne hne]
        exact hnone
      · simp only [update_of_ne (show j ≠ i by omega)]
        exact hbefore j hj
  · rw [if_pos hlast]
    split_ifs with hlow
    · refine .inr ⟨i, rfl, hi, ?_, fun j hj => ?_⟩
      · simp
      · simp only [update_of_ne (show j ≠ i by omega)]
        rcases hlowest with ⟨-, hall⟩ | ⟨f, hf, -, -, hbefore⟩
        · exact hall j (by omega)
        · exact hbefore j (by omega)
    · rcases hlowest with ⟨hf, -⟩ | ⟨f, hf, hlt, hnone, hbefore⟩
      · exact absurd (.inr hf) hlow
      · have hne : f ≠ i := by
          rintro rfl
          exact hfull hnone
        refine .inr ⟨f, hf, hlt, ?_, fun j hj => ?_⟩
        · simp only [update_of_ne hne]
          exact hnone
        · have hji : j ≠ i := by omega
          simp only [update_of_ne hji]
          exact hbefore j hj

theorem free_slot_fields (u : compiler) (i : Nat) :
    (free_slot u i).strings = update u.strings i none ∧
    (∀ j, j ≠ i → i < u.size → (j < (free_slot u i).size ↔ j < u.size)) ∧
    (free_slot u i).size ≤ u.size ∧ (free_slot u i).next = u.next ∧
    (free_slot u i).refs = u.refs ∧ (free_slot u i).string_idx = u.string_idx ∧
    (free_slot u i).string_tags = u.string_tags ∧ (free_slot u i).hash = u.hash ∧
    (free_slot u i).given = u.given ∧ (free_slot u i).outside = u.outside ∧
    (free_slot u i).null = u.null := by
  simp only [free_slot]
  split_ifs with h₁ h₂
  · exact ⟨rfl, fun _ _ _ => Iff.rfl, Nat.le_refl _, rfl, rfl, rfl, rfl, rfl, rfl, rfl, rfl⟩
  · exact ⟨rfl, fun _ _ _ => Iff.rfl, Nat.le_refl _, rfl, rfl, rfl, rfl, rfl, rfl, rfl, rfl⟩
  · refine ⟨rfl, fun j hj hi => ?_, Nat.sub_le _ _, rfl, rfl, rfl, rfl, rfl, rfl, rfl, rfl⟩
    change j < u.size - 1 ↔ j < u.size
    omega

theorem sound_removed (hsound : Sound s) (hi : Stored s i str)
    (hone : s.given.count (str, (i : Int)) = 1) (hunlinked : Unlinked s u i)
    (hsize : u.size = s.size) (hstrings : u.strings = s.strings)
    (hrefs : ∀ j, j ≠ i → u.refs j = s.refs j) (hgiven : u.given = s.given.erase (str, (i : Int)))
    (hhash : u.hash = s.hash) (hfreed : u.freed_string = s.freed_string)
    (houtside : u.outside = s.outside) (hnull : u.null = s.null) : Sound (free_slot u i) := by
  obtain ⟨fstrings, fsize, fle, fnext, frefs, fidx, ftags, fhash, fgiven, foutside, fnull⟩ :=
    free_slot_fields u i
  have hin : i < u.size := by rw [hsize]; exact hi.1
  have hstored : ∀ j t, Stored (free_slot u i) j t ↔ j ≠ i ∧ Stored s j t := by
    intro j t
    unfold Stored
    rw [fstrings, hstrings]
    by_cases hj : j = i
    · subst hj
      rw [update_self]
      constructor
      · rintro ⟨-, h⟩
        cases h
      · rintro ⟨h, -⟩
        exact absurd rfl h
    · rw [update_of_ne hj, fsize j hj hin, hsize]
      exact (and_iff_right hj).symm
  have hlowest : Lowest u := by
    unfold Lowest
    rw [hfreed, hsize, hstrings]
    exact hsound.freed
  have hfull : u.strings i ≠ none := by
    rw [hstrings, hi.2]
    exact fun h => by cases h
  have hcount : ∀ j t, j ≠ i → (free_slot u i).given.count (t, (j : Int)) =
      s.given.count (t, (j : Int)) := by
    intro j t hj
    rw [fgiven, hgiven, List.count_erase_of_ne]
    intro h
    rw [Prod.mk.injEq] at h
    omega
  refine ⟨Nat.le_trans fle (by rw [hsize]; exact hsound.size), ?_, ?_, ?_, ?_, ?_, ?_,
    lowest_free_slot hlowest hin hfull, ?_, ?_⟩
  · intro j t hj
    obtain ⟨hne, hj⟩ := (hstored j t).mp hj
    rw [frefs, hrefs j hne, hcount j t hne]
    exact hsound.stored j t hj
  · intro t num hmem
    have hold : (t, num) ∈ s.given := by
      rw [fgiven, hgiven] at hmem
      exact List.mem_of_mem_erase hmem
    obtain ⟨j, rfl, hj⟩ := hsound.given t num hold
    refine ⟨j, rfl, (hstored j t).mpr ⟨?_, hj⟩⟩
    rintro rfl
    have heq : t = str := some.inj (hj.2.symm.trans hi.2)
    subst heq
    have hpos := List.count_pos_iff.mpr hmem
    rw [fgiven, hgiven, List.count_erase_self, hone] at hpos
    omega
  · intro j k t hj hk
    exact hsound.once j k t ((hstored j t).mp hj).2 ((hstored k t).mp hk).2
  · intro hash
    obtain ⟨l, hl, hmem⟩ := hunlinked.1 hash
    refine ⟨l, ?_, fun j => ?_⟩
    · have hhead : head (free_slot u i) hash = head u hash := by
        rw [head, head, ftags, fidx]
      rw [hhead]
      apply hl.congr
      intro j _
      rw [next_of, next_of, fnext]
    · rw [hmem, fhash, hhash]
      simp only [hstored]
      constructor
      · rintro ⟨hne, t, ht, h⟩
        exact ⟨t, ⟨hne, ht⟩, h⟩
      · rintro ⟨t, ⟨hne, ht⟩, h⟩
        exact ⟨hne, t, ht, h⟩
  · intro hash htag
    rw [fidx]
    rw [ftags] at htag
    exact hunlinked.2.1 hash htag
  · intro j t hj
    rw [fnext]
    exact hunlinked.2.2 j t ((hstored j t).mp hj).2
  · rw [foutside, houtside]
    exact hsound.inside
  · rw [fnull, hnull]
    exact hsound.not_null

theorem sound_free_again (hsound : Sound s) (hi : Stored s i str)
    (hmem : (str, (i : Int)) ∈ s.given) (hmore : 2 ≤ s.refs i) :
    Sound { s with
      refs := update s.refs i (s.refs i - 1)
      given := s.given.erase (str, (i : Int)) } := by
  obtain ⟨hcount, -, hhigh⟩ := hsound.stored i str hi
  refine { hsound with stored := ?_, given := ?_ }
  · intro j t hj
    change Stored s j t at hj
    by_cases hij : j = i
    · subst hij
      have hstr : t = str := some.inj (hj.2.symm.trans hi.2)
      subst hstr
      simp only [update_self, List.count_erase_self]
      omega
    · obtain ⟨hcount', hlow', hhigh'⟩ := hsound.stored j t hj
      have hne : (t, (j : Int)) ≠ (str, (i : Int)) := by
        intro h
        rw [Prod.mk.injEq] at h
        omega
      simp only [update_of_ne hij, List.count_erase_of_ne hne]
      exact ⟨hcount', hlow', hhigh'⟩
  · intro t num h
    exact hsound.given t num (List.mem_of_mem_erase h)

theorem sound_free (hsound : Sound s) {num : Int} (hmem : (str, num) ∈ s.given) :
    Sound (free_prog_string { s with given := s.given.erase (str, num) } num) := by
  obtain ⟨i, rfl, hi⟩ := hsound.given str num hmem
  obtain ⟨hcount, hlow, hhigh⟩ := hsound.stored i str hi
  have hshort : short (s.refs i - 1) = s.refs i - 1 := short_eq (by omega) (by omega)
  have hlt := hi.1
  unfold free_prog_string
  simp only [Int.toNat_natCast, update_self, hshort]
  rw [if_neg (by omega)]
  by_cases hmore : 1 ≤ s.refs i - 1
  · rw [if_pos hmore]
    exact sound_free_again hsound hi hmem (by omega)
  · rw [if_neg hmore, hi.2]
    simp only
    obtain ⟨pre, post, hl, hchain, hpre, hpost⟩ := split_chain hsound hi
    have hlen := chain_length hsound hl hchain
    rw [List.length_append] at hlen
    have htag : head s (s.hash str) = index (s.string_idx (s.hash str)) := by
      unfold head
      split_ifs with htag
      · rfl
      · unfold head at hl
        rw [if_neg htag] at hl
        cases pre <;> cases hl
    have hprv : find_prv
        { s with
          given := s.given.erase (str, (i : Int))
          refs := update s.refs i (s.refs i - 1) }
        i (s.size + 1) none (s.string_idx (s.hash str)) = some (pre.getLast?.or none) := by
      apply find_prv_chain _ hpre (by omega)
      · exact post
      · rwa [htag] at hl
    have hother : ∀ j, j ≠ i → update s.refs i (s.refs i - 1) j = s.refs j :=
      fun j hj => update_of_ne hj _ _
    rw [hprv, or_none]
    rcases List.eq_nil_or_concat pre with rfl | ⟨pre, prv, rfl⟩
    · exact sound_removed hsound hi (by omega)
        (unlinked_head hsound hi hl hchain hpost rfl rfl rfl) rfl rfl hother rfl rfl rfl rfl rfl
    · rw [List.concat_eq_append] at hl hchain ⊢
      simp only [List.append_assoc, List.singleton_append] at hl hchain
      rw [List.getLast?_concat]
      exact sound_removed hsound hi (by omega)
        (unlinked_behind hsound hi hl hchain rfl rfl rfl) rfl rfl hother rfl rfl rfl rfl rfl

/-! ## Compilations -/

theorem sound_start (hash : text_t → UInt8) : Sound { start with hash } := by
  refine ⟨Nat.zero_le _, ?_, ?_, ?_, ?_, ?_, ?_, ?_, rfl, rfl⟩
  · rintro i str ⟨h, -⟩
    exact absurd h (Nat.not_lt_zero i)
  · intro str num h
    cases h
  · rintro i j str ⟨h, -⟩
    exact absurd h (Nat.not_lt_zero i)
  · intro hash
    refine ⟨[], .nil, fun i => ?_⟩
    constructor
    · nofun
    · rintro ⟨str, ⟨h, -⟩, -⟩
      exact absurd h (Nat.not_lt_zero i)
  · intro hash h
    cases h
  · rintro i str ⟨h, -⟩
    exact absurd h (Nat.not_lt_zero i)
  · exact .inl ⟨rfl, fun i h => absurd h (Nat.not_lt_zero i)⟩

theorem sound_move (hsound : Sound s) (hnot : ∀ i, ¬ Stored s i str) :
    Sound { s with hash := update s.hash str hash } := by
  refine { hsound with chains := ?_ }
  intro h
  obtain ⟨l, hl, hmem⟩ := hsound.chains h
  refine ⟨l, hl, fun i => ?_⟩
  rw [hmem]
  have hsame : ∀ t, Stored s i t → update s.hash str hash t = s.hash t := by
    intro t ht
    apply update_of_ne
    rintro rfl
    exact hnot i ht
  constructor
  · rintro ⟨t, ht, hhash⟩
    exact ⟨t, ht, (hsame t ht).trans hhash⟩
  · rintro ⟨t, ht, hhash⟩
    exact ⟨t, ht, (hsame t ht).symm.trans hhash⟩

theorem is_stored_iff (str : text_t) : is_stored s str = true ↔ ∃ i, Stored s i str := by
  unfold is_stored Stored
  simp

/-- A new string finds room, and so does a new reference; no slot is free when the program is
done. -/
def Meets (s : compiler) : action → Prop
  | .store str => Room s str
  | .finish => s.freed_string = -1
  | _ => True

theorem sound_step (hsound : Sound s) {a : action} (hmeets : Meets s a) {s' : compiler}
    (hstep : step s a = some s') : Sound s' := by
  cases a with
  | store str =>
    cases hstep
    exact sound_store hsound hmeets
  | free str num =>
    simp only [step] at hstep
    split_ifs at hstep with hmem
    cases hstep
    exact sound_free hsound hmem
  | move str hash =>
    simp only [step] at hstep
    split_ifs at hstep with hstored
    cases hstep
    apply sound_move hsound
    intro i hi
    exact hstored ((is_stored_iff str).mpr ⟨i, hi⟩)
  | finish =>
    cases hstep
    have hnone : (List.range s.size).any (fun i => (s.strings i).isNone) = false := by
      rw [List.any_eq_false]
      intro i hi hnone
      have hend : s.freed_string = -1 := hmeets
      rcases hsound.freed with ⟨-, hall⟩ | ⟨f, hf, -⟩
      · exact hall i (List.mem_range.mp hi) (isNone_iff_eq_none.mp hnone)
      · omega
    rw [hnone, hsound.not_null, hsound.inside]
    exact sound_start s.hash

theorem sound_reachable (h : Reachable start step Meets s) : Sound s := by
  refine h.inv (sound_start _) ?_
  intro s a s' hsound hmeets hstep
  exact sound_step hsound hmeets hstep

/-! ## The table of a program -/

theorem store_reuses (hsound : Sound s) (str : text_t) (hfree : ∃ i < s.size, s.strings i = none) :
    (store_prog_string s str).2.size = s.size := by
  obtain ⟨i, hi, hnone⟩ := hfree
  obtain ⟨f, hf⟩ : ∃ f : Nat, s.freed_string = f := by
    rcases hsound.freed with ⟨-, hall⟩ | ⟨f, hf, -⟩
    · exact absurd hnone (hall i hi)
    · exact ⟨f, hf⟩
  simp only [store_prog_string]
  split
  · rfl
  · rw [if_pos (by omega)]
    split
    · rfl
    · split_ifs <;> rfl

theorem store_returns (hsound : Sound s) (hroom : Room s str) :
    (str, (store_prog_string s str).1) ∈ (store_prog_string s str).2.given := by
  simp only [store_prog_string]
  rcases find_string_stored hsound str with ⟨i, hfind, -⟩ | ⟨hfind, hnew⟩
  · rw [hfind]
    exact List.mem_cons_self
  · rw [hfind]
    simp only
    have hput : ∀ (u : compiler) (next : Int) (i : Nat) (n : Int), n = i →
        (str, n) ∈ (put_string u str next i).given := by
      rintro u next i n rfl
      exact List.mem_cons_self
    rcases hsound.freed with ⟨hf, hfull⟩ | ⟨f, hf, -⟩
    · have hsmall := room_to_grow hroom hnew hfull
      have hshort : short s.size = s.size := short_eq (by omega) (by omega)
      rw [if_neg (by omega), if_pos (by omega), hshort]
      exact hput _ _ _ _ (by omega)
    · rw [if_pos (by omega)]
      split
      · exact hput _ _ _ _ (by omega)
      · have hsize : s.size ≤ 32767 := by
          rcases hroom.2 hnew with h | h
          · omega
          · rename_i hnext
            exact absurd hnext h
        rw [if_pos hsize]
        exact hput _ _ _ _ (by omega)

structure Kept (s : compiler) : Prop where
  /-- A string is at its index until it is freed for the last time, and not after that. -/
  live : ∀ str num, (str, num) ∈ s.given ↔ ∃ i : Nat, num = i ∧ Stored s i str
  returned : ∀ str, Room s str →
    (str, (store_prog_string s str).1) ∈ (store_prog_string s str).2.given
  one_index : ∀ str n m, (str, n) ∈ s.given → (str, m) ∈ s.given → n = m
  one_string : ∀ str t n, (str, n) ∈ s.given → (t, n) ∈ s.given → str = t
  chains : ∀ hash, ∃ l, Chain (next_of s) (head s hash) l ∧
    ∀ i, i ∈ l ↔ ∃ str, Stored s i str ∧ s.hash str = hash
  lowest : Lowest s
  reused : ∀ str, (∃ i < s.size, s.strings i = none) → (store_prog_string s str).2.size = s.size
  inside : s.outside = false
  not_null : s.null = false

theorem kept_of_sound (hsound : Sound s) : Kept s := by
  have hlive : ∀ str num, (str, num) ∈ s.given ↔ ∃ i : Nat, num = i ∧ Stored s i str := by
    intro str num
    constructor
    · exact hsound.given str num
    · rintro ⟨i, rfl, hi⟩
      obtain ⟨hcount, hlow, -⟩ := hsound.stored i str hi
      apply List.count_pos_iff.mp
      omega
  refine ⟨hlive, fun _ => store_returns hsound, ?_, ?_, hsound.chains, hsound.freed,
    store_reuses hsound, hsound.inside, hsound.not_null⟩
  · intro str n m hn hm
    obtain ⟨i, rfl, hi⟩ := (hlive str n).mp hn
    obtain ⟨j, rfl, hj⟩ := (hlive str m).mp hm
    rw [hsound.once i j str hi hj]
  · intro str t n hn ht
    obtain ⟨i, rfl, hi⟩ := (hlive str n).mp hn
    obtain ⟨j, hij, hj⟩ := (hlive t i).mp ht
    have heq : i = j := by omega
    subst heq
    exact some.inj (hi.2.symm.trans hj.2)

def Small (s : compiler) : action → Prop
  | .store _ => s.size < 32768 ∧ ∀ i < s.size, s.refs i < 32767
  | .finish => s.freed_string = -1
  | _ => True

instance (s : compiler) (a : action) : Decidable (Small s a) := by
  cases a <;> unfold Small <;> infer_instance

theorem meets_of_small {a : action} (h : Small s a) : Meets s a := by
  cases a with
  | store str =>
    refine ⟨?_, fun _ => .inl h.1⟩
    intro i hi
    exact h.2 i hi.1
  | free str num => trivial
  | move str hash => trivial
  | finish => exact h

/-- A string between two others is freed and its slot is used again; the last one has two
references and is freed twice. -/
def reusing : List action :=
  [.store [97], .store [98], .store [99], .store [99], .free [98] 1, .store [100], .free [99] 2,
    .free [99] 2]

end mudos.program_strings
