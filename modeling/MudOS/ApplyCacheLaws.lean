-- The laws of the cache of `apply_low`. A slot that is filled says of its
-- program what a search of it would find. So a call through the cache comes
-- to the same as a call without one, in the runs that fill each slot whole
-- and that mark no function as missing that is there.
import Mathlib.Data.List.Nodup
import Mathlib.Data.List.Perm.Basic
import MudOS.ApplyCache

open mudos.runs mudos.program List
open mudos.compiler (name_flags runtime_function_u)

namespace mudos.apply_cache

variable {ix addr : Nat} {p progp : program_t} {c : call_t} {entry : cache_entry_t}
variable {ob : object_t}

/-! ## What the search finds -/

/-- The program is the other one, or inherits it, at some depth. -/
inductive Within : Nat → program_t → Nat → program_t → Prop
  | self {addr : Nat} {prog : program_t} : Within addr prog addr prog
  | inherit {addr b b' fio vio : Nat} {prog q q' : program_t} :
      (b, q, fio, vio) ∈ prog.inherit → Within b q b' q' → Within addr prog b' q'

theorem search_name {function_table : List compiler_function_t} {name mid : Nat} :
    ∀ {fuel : Nat} {low high : Int}, search function_table name fuel low high = some mid →
      ∃ f, function_table[mid]? = some f ∧ f.name = name
  | 0, _, _, h => by cases h
  | fuel + 1, low, high, h => by
    unfold search at h
    split at h
    · simp only at h
      split at h
      · cases h
      · rename_i f hf
        split_ifs at h
        · exact search_name h
        · exact search_name h
        · cases h
          exact ⟨f, hf, by omega⟩
    · cases h

mutual

theorem ffbn_recurse2_found (addr : Nat) : ∀ (prog : program_t) (name : Nat) (r : found_t),
    ffbn_recurse2 addr prog name = some r → Within addr prog r.addr r.prog ∧
      ∃ f, r.prog.function_table[r.index]? = some f ∧ f.name = name
  | .mk id function_table function_flags function_offsets inherit, name, r, h => by
    rw [ffbn_recurse2] at h
    have hsearch : search_inherited2 inherit name = some r →
        Within addr (.mk id function_table function_flags function_offsets inherit) r.addr r.prog ∧
          ∃ f, r.prog.function_table[r.index]? = some f ∧ f.name = name := by
      intro hs
      obtain ⟨i, hi, hw, hf⟩ := search_inherited2_found inherit name r hs
      exact ⟨.inherit hi hw, hf⟩
    split at h
    · rename_i mid hmid
      split at h
      · cases h
      · split_ifs at h
        · exact hsearch h
        · cases h
          exact ⟨.self, search_name hmid⟩
    · exact hsearch h

theorem search_inherited2_found : ∀ (inherit : List (Nat × program_t × Nat × Nat)) (name : Nat)
    (r : found_t), search_inherited2 inherit name = some r →
      ∃ i, i ∈ inherit ∧ Within i.1 i.2.1 r.addr r.prog ∧
        ∃ f, r.prog.function_table[r.index]? = some f ∧ f.name = name
  | [], _, _, h => by
    simp [search_inherited2] at h
  | (b, q, fio, vio) :: inherit, name, r, h => by
    rw [search_inherited2] at h
    split at h
    · rename_i ret hret
      cases h
      obtain ⟨i, hi, hw, hf⟩ := search_inherited2_found inherit name r hret
      exact ⟨i, mem_cons_of_mem _ hi, hw, hf⟩
    · obtain ⟨ret, hret, rfl⟩ := Option.map_eq_some_iff.mp h
      obtain ⟨hw, hf⟩ := ffbn_recurse2_found b q name ret hret
      exact ⟨(b, q, fio, vio), mem_cons_self, hw, hf⟩

end

/-! ## Shared strings -/

/-- The strings are at different addresses and have different texts. Each one counts its
references: those of others, and `n` of the cache. What the cache or a program holds is
there. -/
structure StringsKept (strings : List string_t) (n : Nat → Nat) (held : Nat → Prop) : Prop where
  addrs : (strings.map string_t.addr).Nodup
  texts : (strings.map string_t.text).Nodup
  counted : ∀ b ∈ strings, b.refs = 0 ∨ b.refs = b.others + n b.addr
  owned : ∀ addr, 0 < n addr → ∃ b ∈ strings, b.addr = addr
  held : ∀ addr, held addr → ∃ b ∈ strings, b.addr = addr ∧ 1 ≤ b.others

def bump (n : Nat → Nat) (addr : Nat) : Nat → Nat := fun a => if a = addr then n a + 1 else n a

theorem find?_of_nodup {l : List string_t} {key : string_t → Nat} (h : (l.map key).Nodup)
    {b : string_t} (hb : b ∈ l) : l.find? (fun x => key x == key b) = some b := by
  induction l with
  | nil => cases hb
  | cons x l ih =>
    rw [map_cons, nodup_cons] at h
    rcases mem_cons.mp hb with rfl | hb
    · simp
    · have hne : key x ≠ key b := by
        intro heq
        exact h.1 (heq ▸ mem_map_of_mem hb)
      rw [find?_cons_of_neg (by simpa using hne)]
      exact ih h.2 hb

theorem eq_of_key {l : List string_t} {key : string_t → Nat} (h : (l.map key).Nodup)
    {b b' : string_t} (hb : b ∈ l) (hb' : b' ∈ l) (heq : key b = key b') : b = b' := by
  have h1 := find?_of_nodup h hb
  rw [heq, find?_of_nodup h hb'] at h1
  exact (Option.some.inj h1).symm

section strings

variable {strings : List string_t} {n : Nat → Nat} {held : Nat → Prop}
variable {addr : Nat}
variable {f : string_t → string_t}

theorem StringsKept.text_at_iff (h : StringsKept strings n held) {text : Nat} :
    text_at strings addr = some text ↔ ∃ b ∈ strings, b.addr = addr ∧ b.text = text := by
  unfold text_at
  rw [Option.map_eq_some_iff]
  constructor
  · rintro ⟨b, hb, ht⟩
    refine ⟨b, mem_of_find?_eq_some hb, ?_, ht⟩
    simpa using find?_some hb
  · rintro ⟨b, hb, rfl, ht⟩
    exact ⟨b, find?_of_nodup h.addrs hb, ht⟩

theorem StringsKept.findstring_iff (h : StringsKept strings n held) {text : Nat} :
    findstring strings text = some addr ↔ text_at strings addr = some text := by
  rw [h.text_at_iff]
  unfold findstring
  rw [Option.map_eq_some_iff]
  constructor
  · rintro ⟨b, hb, ha⟩
    refine ⟨b, mem_of_find?_eq_some hb, ha, ?_⟩
    simpa using find?_some hb
  · rintro ⟨b, hb, ha, rfl⟩
    exact ⟨b, find?_of_nodup h.texts hb, ha⟩

theorem StringsKept.text_of_mem (h : StringsKept strings n held) (hb : ∃ b ∈ strings, b.addr = addr) :
    ∃ text, text_at strings addr = some text := by
  obtain ⟨b, hb, ha⟩ := hb
  exact ⟨b.text, h.text_at_iff.mpr ⟨b, hb, ha, rfl⟩⟩

theorem StringsKept.text_of_held (h : StringsKept strings n held) (ha : held addr) :
    ∃ text, text_at strings addr = some text := by
  obtain ⟨b, hb, ha, -⟩ := h.held addr ha
  exact h.text_of_mem ⟨b, hb, ha⟩

def at_addr (f : string_t → string_t) (addr : Nat) (b : string_t) : string_t :=
  if b.addr = addr then f b else b

def Recount (f : string_t → string_t) : Prop :=
  ∀ b, (f b).addr = b.addr ∧ (f b).text = b.text

theorem at_addr_key (hf : Recount f) (addr : Nat) (b : string_t) :
    (at_addr f addr b).addr = b.addr ∧ (at_addr f addr b).text = b.text := by
  unfold at_addr
  split
  · exact hf b
  · exact ⟨rfl, rfl⟩

theorem text_at_map (hf : Recount f) (addr a : Nat) :
    text_at (strings.map (at_addr f addr)) a = text_at strings a := by
  unfold text_at
  rw [find?_map, Option.map_map]
  have hpred : ((fun b : string_t => b.addr == a) ∘ at_addr f addr) = fun b => b.addr == a := by
    funext b
    simp [Function.comp, (at_addr_key hf addr b).1]
  rw [hpred]
  congr 1
  funext b
  exact (at_addr_key hf addr b).2

theorem StringsKept.recount (h : StringsKept strings n held) (hf : Recount f) {n' : Nat → Nat}
    (hothers : ∀ b ∈ strings, b.addr = addr → held addr → 1 ≤ b.others → 1 ≤ (f b).others)
    (hcount : ∀ b ∈ strings, b.addr = addr → (b.refs = 0 ∨ b.refs = b.others + n addr) →
      (f b).refs = 0 ∨ (f b).refs = (f b).others + n' addr) (hn : ∀ a, a ≠ addr → n' a = n a)
    (hmem : ∃ b ∈ strings, b.addr = addr) : StringsKept (strings.map (at_addr f addr)) n' held := by
  have haddr : string_t.addr ∘ at_addr f addr = string_t.addr := by
    funext b
    exact (at_addr_key hf addr b).1
  have htext : string_t.text ∘ at_addr f addr = string_t.text := by
    funext b
    exact (at_addr_key hf addr b).2
  refine ⟨?_, ?_, ?_, ?_, ?_⟩
  · rw [map_map, haddr]
    exact h.addrs
  · rw [map_map, htext]
    exact h.texts
  · intro b' hb'
    obtain ⟨b, hb, rfl⟩ := mem_map.mp hb'
    unfold at_addr
    split
    · rename_i ha
      rw [(hf b).1, ha]
      exact hcount b hb ha (ha ▸ h.counted b hb)
    · rename_i ha
      rw [hn b.addr ha]
      exact h.counted b hb
  · intro a ha
    have hold : ∃ b ∈ strings, b.addr = a := by
      by_cases hne : a = addr
      · exact hne ▸ hmem
      · exact h.owned a (hn a hne ▸ ha)
    obtain ⟨b, hb, rfl⟩ := hold
    exact ⟨_, mem_map_of_mem hb, (at_addr_key hf addr b).1⟩
  · intro a ha
    obtain ⟨b, hb, rfl, ho⟩ := h.held a ha
    refine ⟨_, mem_map_of_mem hb, (at_addr_key hf addr b).1, ?_⟩
    unfold at_addr
    split
    · rename_i hne
      exact hothers b hb hne (hne ▸ ha) ho
    · exact ho

theorem recount_add_ref : Recount add_ref := fun _ => ⟨rfl, rfl⟩

theorem StringsKept.ref_string (h : StringsKept strings n held)
    (hmem : ∃ b ∈ strings, b.addr = addr) :
    StringsKept (ref_string strings addr) (bump n addr) held := by
  refine h.recount recount_add_ref (fun _ _ _ _ ho => ho) ?_ ?_ hmem
  · intro b _ _ hcount
    simp only [add_ref, bump, if_true]
    split
    · exact .inl rfl
    · omega
  · intro a ha
    simp [bump, ha]

theorem text_at_ref_string (addr a : Nat) :
    text_at (apply_cache.ref_string strings addr) a = text_at strings a :=
  text_at_map recount_add_ref addr a

theorem drop_ref_some {b b' : string_t} (h : drop_ref b = some b') :
    b'.addr = b.addr ∧ b'.text = b.text ∧ b'.others = b.others ∧
      (b.refs = 0 ∧ b'.refs = 0 ∨ 1 < b.refs ∧ b'.refs = b.refs - 1) := by
  unfold drop_ref at h
  split_ifs at h with h0 h1
  · cases h
    exact ⟨rfl, rfl, rfl, .inl ⟨h0, h0⟩⟩
  · cases h
    exact ⟨rfl, rfl, rfl, .inr ⟨by omega, rfl⟩⟩

def drop_at (addr : Nat) (b : string_t) : Option string_t :=
  if b.addr = addr then drop_ref b else some b

theorem drop_at_some {b b' : string_t} (h : drop_at addr b = some b') :
    b'.addr = b.addr ∧ b'.text = b.text ∧ b'.others = b.others := by
  unfold drop_at at h
  split at h
  · obtain ⟨ha, ht, ho, -⟩ := drop_ref_some h
    exact ⟨ha, ht, ho⟩
  · cases h
    exact ⟨rfl, rfl, rfl⟩

theorem sublist_drop_at (key : string_t → Nat) (addr : Nat)
    (hkey : ∀ b b', drop_at addr b = some b' → key b' = key b) :
    ((strings.filterMap (drop_at addr)).map key).Sublist (strings.map key) := by
  induction strings with
  | nil => exact List.Sublist.refl _
  | cons b strings ih =>
    rcases hb : drop_at addr b with _ | b'
    · rw [filterMap_cons_none hb]
      exact ih.cons _
    · rw [filterMap_cons_some hb, map_cons, map_cons, hkey b b' hb]
      exact ih.cons_cons _

/-- A string that the cache still has, or a program, survives when the cache drops one
reference of its own. -/
theorem StringsKept.free_string (h : StringsKept strings (bump n addr) held) :
    ∃ strings', free_string strings addr = some strings' ∧ StringsKept strings' n held ∧
      (∀ a text, text_at strings' a = some text → text_at strings a = some text) ∧
      (∀ a, 0 < n a ∨ held a → text_at strings' a = text_at strings a) := by
  have hmem : ∃ b ∈ strings, b.addr = addr := h.owned addr (by simp [bump])
  obtain ⟨text, htext⟩ := h.text_of_mem hmem
  have hstays : ∀ b ∈ strings, (0 < n b.addr ∨ held b.addr) →
      ∃ b', drop_at addr b = some b' := by
    intro b hb hneed
    unfold drop_at
    split
    · rename_i ha
      have hcount := h.counted b hb
      rw [ha] at hcount hneed
      simp only [bump, if_true] at hcount
      have hone : b.refs ≠ 1 := by
        rcases hneed with hneed | hneed
        · omega
        · obtain ⟨b', hb', ha', ho⟩ := h.held addr hneed
          obtain rfl := eq_of_key h.addrs hb hb' (ha.trans ha'.symm)
          omega
      unfold drop_ref
      split_ifs with h0
      · exact ⟨b, rfl⟩
      · exact ⟨_, rfl⟩
    · exact ⟨b, rfl⟩
  have hkept : StringsKept (strings.filterMap (drop_at addr)) n held := by
    refine ⟨?_, ?_, ?_, ?_, ?_⟩
    · exact h.addrs.sublist (sublist_drop_at _ addr fun b b' hb => (drop_at_some hb).1)
    · exact h.texts.sublist (sublist_drop_at _ addr fun b b' hb => (drop_at_some hb).2.1)
    · intro b' hb'
      obtain ⟨b, hb, hdrop⟩ := mem_filterMap.mp hb'
      have hcount := h.counted b hb
      unfold drop_at at hdrop
      split at hdrop
      · rename_i ha
        obtain ⟨ha', -, ho, hrefs⟩ := drop_ref_some hdrop
        simp only [bump, ha, if_true] at hcount
        rw [ha', ha, ho]
        omega
      · rename_i ha
        cases hdrop
        simpa only [bump, if_neg ha] using hcount
    · intro a ha
      obtain ⟨b, hb, rfl⟩ := h.owned a (by unfold bump; split <;> omega)
      obtain ⟨b', hb'⟩ := hstays b hb (.inl ha)
      exact ⟨b', mem_filterMap.mpr ⟨b, hb, hb'⟩, (drop_at_some hb').1⟩
    · intro a ha
      obtain ⟨b, hb, rfl, ho⟩ := h.held a ha
      obtain ⟨b', hb'⟩ := hstays b hb (.inr ha)
      obtain ⟨ha', -, ho'⟩ := drop_at_some hb'
      exact ⟨b', mem_filterMap.mpr ⟨b, hb, hb'⟩, ha', ho' ▸ ho⟩
  refine ⟨strings.filterMap (drop_at addr), ?_, hkept, ?_, ?_⟩
  · rw [apply_cache.free_string, htext]
    rfl
  · intro a t ht
    obtain ⟨b', hb', ha, htext⟩ := hkept.text_at_iff.mp ht
    obtain ⟨b, hb, hdrop⟩ := mem_filterMap.mp hb'
    obtain ⟨ha', ht', -⟩ := drop_at_some hdrop
    exact h.text_at_iff.mpr ⟨b, hb, ha' ▸ ha, ht' ▸ htext⟩
  · intro a hneed
    have hold : ∃ b ∈ strings, b.addr = a := by
      rcases hneed with hneed | hneed
      · exact h.owned a (by unfold bump; split <;> omega)
      · obtain ⟨b, hb, ha, -⟩ := h.held a hneed
        exact ⟨b, hb, ha⟩
    obtain ⟨b, hb, rfl⟩ := hold
    obtain ⟨b', hb'⟩ := hstays b hb hneed
    obtain ⟨ha', ht', -⟩ := drop_at_some hb'
    rw [h.text_at_iff.mpr ⟨b, hb, rfl, rfl⟩]
    exact hkept.text_at_iff.mpr ⟨b', mem_filterMap.mpr ⟨b, hb, hb'⟩, ha', ht'⟩

theorem StringsKept.make_shared_string {malloc : List Nat → Nat}
    (hmalloc : ∀ used, malloc used ∉ used) (h : StringsKept strings n held)
    (text : Nat) :
    ∃ strings' addr, make_shared_string malloc strings text = (strings', addr) ∧
      StringsKept strings' (bump n addr) held ∧ text_at strings' addr = some text ∧
      (∀ a t, text_at strings a = some t → text_at strings' a = some t) ∧
      (∀ a t, text_at strings' a = some t → a ≠ addr → text_at strings a = some t) := by
  unfold apply_cache.make_shared_string
  rcases hfind : findstring strings text with _ | addr
  · have hnew := hmalloc (strings.map string_t.addr)
    generalize malloc (strings.map string_t.addr) = addr at hnew
    have hnone : ∀ b ∈ strings, b.addr ≠ addr := by
      rintro b hb rfl
      exact hnew (mem_map_of_mem hb)
    have htext : ∀ b ∈ strings, b.text ≠ text := by
      rintro b hb rfl
      have := h.findstring_iff.mpr (h.text_at_iff.mpr ⟨b, hb, rfl, rfl⟩)
      simp [hfind] at this
    have hzero : n addr = 0 := by
      rcases Nat.eq_zero_or_pos (n addr) with hz | hpos
      · exact hz
      · obtain ⟨b, hb, ha⟩ := h.owned addr hpos
        exact absurd ha (hnone b hb)
    have hkept : StringsKept (⟨addr, text, 1, 0⟩ :: strings) (bump n addr) held := by
      refine ⟨?_, ?_, ?_, ?_, ?_⟩
      · rw [map_cons, nodup_cons]
        exact ⟨hnew, h.addrs⟩
      · rw [map_cons, nodup_cons]
        refine ⟨?_, h.texts⟩
        intro hm
        obtain ⟨b, hb, ht⟩ := mem_map.mp hm
        exact htext b hb ht
      · intro b hb
        rcases mem_cons.mp hb with rfl | hb
        · simp [bump, hzero]
        · simpa only [bump, if_neg (hnone b hb)] using h.counted b hb
      · intro a ha
        by_cases hne : a = addr
        · exact ⟨_, mem_cons_self, hne.symm⟩
        · obtain ⟨b, hb, hab⟩ := h.owned a (by simpa only [bump, if_neg hne] using ha)
          exact ⟨b, mem_cons_of_mem _ hb, hab⟩
      · intro a ha
        obtain ⟨b, hb, hab⟩ := h.held a ha
        exact ⟨b, mem_cons_of_mem _ hb, hab⟩
    refine ⟨_, addr, rfl, hkept, ?_, ?_, ?_⟩
    · exact hkept.text_at_iff.mpr ⟨_, mem_cons_self, rfl, rfl⟩
    · intro a t ht
      obtain ⟨b, hb, hab, hbt⟩ := h.text_at_iff.mp ht
      exact hkept.text_at_iff.mpr ⟨b, mem_cons_of_mem _ hb, hab, hbt⟩
    · intro a t ht hne
      obtain ⟨b, hb, hab, hbt⟩ := hkept.text_at_iff.mp ht
      rcases mem_cons.mp hb with rfl | hb
      · exact absurd hab.symm hne
      · exact h.text_at_iff.mpr ⟨b, hb, hab, hbt⟩
  · have htext := h.findstring_iff.mp hfind
    obtain ⟨b, hb, hab, -⟩ := h.text_at_iff.mp htext
    refine ⟨_, addr, rfl, h.ref_string ⟨b, hb, hab⟩, ?_, ?_, ?_⟩
    · rwa [text_at_ref_string]
    · intro a t ht
      rwa [text_at_ref_string]
    · intro a t ht _
      rwa [text_at_ref_string] at ht

end strings

/-! ## What the slots own -/

/-- A slot for a function that is not there owns the string with its name. -/
def owns (entry : cache_entry_t) (addr : Nat) : Bool :=
  entry.id != 0 && entry.progp == 0 && entry.name == addr

def owners_below (size : Nat) (cache : Nat → cache_entry_t) (addr : Nat) : Nat :=
  (range size).countP fun ix => owns (cache ix) addr

def owners (cache : Nat → cache_entry_t) (addr : Nat) : Nat :=
  owners_below APPLY_CACHE_SIZE cache addr

theorem hash_lt (id_number fun_ : Nat) : hash id_number fun_ < APPLY_CACHE_SIZE := by
  have hle : hash id_number fun_ ≤ 2047 := Nat.and_le_right
  exact Nat.lt_succ_of_le hle

theorem countP_range_update (p : Nat → Bool) (ix size : Nat) (b : Bool) (h : ix < size) :
    (range size).countP (fun i => if i = ix then b else p i) + (p ix).toNat =
      (range size).countP p + b.toNat := by
  induction size with
  | zero => omega
  | succ size ih =>
    rw [range_succ, countP_append, countP_append, countP_singleton,
      countP_singleton]
    by_cases hix : size = ix
    · subst hix
      have hsame : (range size).countP (fun i => if i = size then b else p i) =
          (range size).countP p := by
        apply countP_congr
        intro i hi
        rw [mem_range] at hi
        rw [if_neg (by omega)]
      rw [hsame, if_pos rfl]
      cases b <;> cases p size <;> simp
    · have := ih (by omega)
      rw [if_neg hix]
      omega

theorem owners_below_set (cache : Nat → cache_entry_t) {size : Nat} (h : ix < size)
    (entry : cache_entry_t) (addr : Nat) :
    owners_below size (fun i => if i = ix then entry else cache i) addr +
        (owns (cache ix) addr).toNat =
      owners_below size cache addr + (owns entry addr).toNat := by
  have hcount := countP_range_update (fun i => owns (cache i) addr) ix size (owns entry addr) h
  have hsame : ∀ i, owns (if i = ix then entry else cache i) addr =
      if i = ix then owns entry addr else owns (cache i) addr := by
    intro i
    split <;> rfl
  unfold owners_below
  simp only [hsame]
  exact hcount

theorem owners_set (cache : Nat → cache_entry_t) (h : ix < APPLY_CACHE_SIZE) (entry : cache_entry_t)
    (addr : Nat) :
    owners (fun i => if i = ix then entry else cache i) addr + (owns (cache ix) addr).toNat =
      owners cache addr + (owns entry addr).toNat :=
  owners_below_set cache h entry addr

/-! ## The invariant -/

def Held (s : driver_t) (addr : Nat) : Prop := ∃ p ∈ all_programs s, holds_name p addr = true

/-- What a slot says of a program with its id is what a search from the slot's address
finds. -/
def Tells (entry : cache_entry_t) (p : program_t) : Prop :=
  if entry.progp = 0 then ffbn_recurse2 entry.oprogp p entry.name = none
  else ∃ r f, ffbn_recurse2 entry.oprogp p entry.name = some r ∧ function_frame p r = some f ∧
    r.addr = entry.progp ∧ r.index = entry.index ∧ r.fio = entry.function_index_offset ∧
    r.vio = entry.variable_index_offset ∧ f.num_arg = entry.num_arg ∧
    f.num_local = entry.num_local

structure EntryKept (s : driver_t) (entry : cache_entry_t) : Prop where
  id_lt : entry.id < s.current_id_number
  tells : entry.id ≠ 0 → ∀ p ∈ all_programs s, p.id_number = entry.id → Tells entry p

/-- The programs: each one in memory has its own address, and all have ids that were given
out. What a program inherits is in memory. -/
structure ProgramsKept (s : driver_t) : Prop where
  id_pos : 0 < s.current_id_number
  addr_ne : ∀ x ∈ s.programs, x.1 ≠ 0
  addrs : (s.programs.map Prod.fst).Nodup
  ids : ∀ p ∈ all_programs s, p.id_number ≠ 0 ∧ p.id_number < s.current_id_number
  unique : ((all_programs s).map program_t.id_number).Nodup
  inherits : ∀ p ∈ all_programs s, ∀ i ∈ p.inherit, program_at s i.1 = some i.2.1

structure Kept (s : driver_t) : Prop where
  strings : StringsKept s.strings (owners s.cache) (Held s)
  programs : ProgramsKept s
  entries : ∀ ix < APPLY_CACHE_SIZE, EntryKept s (s.cache ix)

theorem lookup_iff {programs : List (Nat × program_t)} (h : (programs.map Prod.fst).Nodup) :
    programs.lookup addr = some p ↔ (addr, p) ∈ programs := by
  constructor
  · intro hp
    obtain ⟨l₁, l₂, heq, -⟩ := lookup_eq_some_iff.mp hp
    rw [heq]
    simp
  · intro hp
    induction programs with
    | nil => cases hp
    | cons x programs ih =>
      rw [map_cons, nodup_cons] at h
      rcases mem_cons.mp hp with rfl | hp
      · exact lookup_cons_self
      · have hne : (addr == x.1) = false := by
          rw [beq_eq_false_iff_ne]
          rintro rfl
          exact h.1 (mem_map.mpr ⟨_, hp, rfl⟩)
        rw [lookup_cons, hne]
        exact ih h.2 hp

theorem program_at_iff {s : driver_t} (h : ProgramsKept s) :
    program_at s addr = some p ↔ (addr, p) ∈ s.programs :=
  lookup_iff h.addrs

theorem program_mem {s : driver_t} (h : ProgramsKept s) (hp : program_at s addr = some p) :
    p ∈ all_programs s := by
  have hmem := (program_at_iff h).mp hp
  exact mem_append_left _ (mem_map.mpr ⟨_, hmem, rfl⟩)

theorem ProgramsKept.within {s : driver_t} (h : ProgramsKept s) {b : Nat} {q : program_t}
    (hw : Within addr p b q) (hp : program_at s addr = some p) : program_at s b = some q := by
  induction hw with
  | self => exact hp
  | inherit hi _ ih =>
    apply ih
    exact h.inherits _ (program_mem h hp) _ hi

theorem found_live {s : driver_t} (h : ProgramsKept s) {name : Nat} {r : found_t}
    (hp : program_at s addr = some p) (hr : ffbn_recurse2 addr p name = some r) :
    program_at s r.addr = some r.prog ∧ Held s name := by
  obtain ⟨hw, f, hf, hname⟩ := ffbn_recurse2_found addr p name r hr
  have hlive := h.within hw hp
  refine ⟨hlive, r.prog, program_mem h hlive, ?_⟩
  unfold holds_name
  exact any_eq_true.mpr ⟨f, mem_of_getElem? hf, by simpa using hname⟩

/-! ## The search by text -/

section find

variable {s : driver_t} {n : Nat → Nat} {held : Nat → Prop}

theorem find_some_iff (h : StringsKept s.strings n held) {text : Nat} {r : found_t} :
    find_function_by_name2 s addr p text = some r ↔
      ∃ sfun, text_at s.strings sfun = some text ∧ ffbn_recurse2 addr p sfun = some r := by
  unfold find_function_by_name2
  rw [Option.bind_eq_some_iff]
  constructor
  · rintro ⟨sfun, hsfun, hr⟩
    exact ⟨sfun, h.findstring_iff.mp hsfun, hr⟩
  · rintro ⟨sfun, hsfun, hr⟩
    exact ⟨sfun, h.findstring_iff.mpr hsfun, hr⟩

theorem find_eq (h : StringsKept s.strings n held) {text name : Nat}
    (hname : text_at s.strings name = some text) :
    find_function_by_name2 s addr p text = ffbn_recurse2 addr p name := by
  unfold find_function_by_name2
  rw [h.findstring_iff.mpr hname]
  rfl

theorem find_congr {s' : driver_t} {n' : Nat → Nat} {held' : Nat → Prop}
    (h : StringsKept s.strings n held) (h' : StringsKept s'.strings n' held') (hp : ProgramsKept s)
    (htexts : ∀ a, Held s a → text_at s'.strings a = text_at s.strings a) (text : Nat)
    (hpa : program_at s addr = some p) :
    find_function_by_name2 s' addr p text = find_function_by_name2 s addr p text := by
  apply Option.ext
  intro r
  rw [find_some_iff h, find_some_iff h']
  constructor
  · rintro ⟨sfun, hsfun, hr⟩
    rw [htexts sfun (found_live hp hpa hr).2] at hsfun
    exact ⟨sfun, hsfun, hr⟩
  · rintro ⟨sfun, hsfun, hr⟩
    rw [← htexts sfun (found_live hp hpa hr).2] at hsfun
    exact ⟨sfun, hsfun, hr⟩

end find

/-! ## A call in one object -/

/-- The calls change the strings and the slots, and keep the texts that programs hold. -/
structure Same (s s' : driver_t) : Prop where
  programs : s'.programs = s.programs
  swapped : s'.swapped = s.swapped
  ids : s'.current_id_number = s.current_id_number
  objects : s'.objects = s.objects
  texts : ∀ a, Held s a → text_at s'.strings a = text_at s.strings a

theorem Same.refl (s : driver_t) : Same s s := ⟨rfl, rfl, rfl, rfl, fun _ _ => rfl⟩

theorem Same.held {s s' : driver_t} (h : Same s s') (a : Nat) : Held s' a ↔ Held s a := by
  unfold Held all_programs
  rw [h.programs, h.swapped]

theorem Same.trans {s s' s'' : driver_t} (h : Same s s') (h' : Same s' s'') : Same s s'' := by
  refine ⟨h'.programs.trans h.programs, h'.swapped.trans h.swapped, h'.ids.trans h.ids,
    h'.objects.trans h.objects, ?_⟩
  intro a ha
  exact (h'.texts a ((h.held a).mpr ha)).trans (h.texts a ha)

theorem Same.program_at {s s' : driver_t} (h : Same s s') (addr : Nat) :
    program_at s' addr = program_at s addr := by
  unfold apply_cache.program_at
  rw [h.programs]

theorem afresh_in_congr {s s' : driver_t} (h : Kept s) (h' : Kept s') (hs : Same s s')
    (c : call_t) (ob : object_t) : afresh_in s' c ob = afresh_in s c ob := by
  unfold afresh_in
  rw [hs.program_at]
  split
  · rfl
  · rename_i progp hp
    rw [find_congr h.strings h'.strings h.programs hs.texts c.text hp]

theorem hit_cases {s : driver_t} (h : Kept s) (hp : program_at s addr = some p)
    (hix : ix < APPLY_CACHE_SIZE) (text : Nat) :
    hit s (s.cache ix) addr p text = some false ∨
      hit s (s.cache ix) addr p text = some true ∧ (s.cache ix).oprogp = addr ∧
        find_function_by_name2 s addr p text = ffbn_recurse2 addr p (s.cache ix).name ∧
        Tells (s.cache ix) p := by
  unfold hit
  split
  · rename_i hkey
    obtain ⟨hid, haddr⟩ := hkey
    have hne : (s.cache ix).id ≠ 0 := hid ▸ (h.programs.ids p (program_mem h.programs hp)).1
    have htells := (h.entries ix hix).tells hne p (program_mem h.programs hp) hid.symm
    have hname : ∃ t, text_at s.strings (s.cache ix).name = some t := by
      by_cases hprogp : (s.cache ix).progp = 0
      · apply h.strings.text_of_mem
        apply h.strings.owned
        exact countP_pos_iff.mpr
          ⟨ix, mem_range.mpr hix, by simp [owns, hprogp, hne]⟩
      · unfold Tells at htells
        rw [if_neg hprogp, haddr] at htells
        obtain ⟨r, f, hr, -⟩ := htells
        exact h.strings.text_of_held (found_live h.programs hp hr).2
    obtain ⟨t, ht⟩ := hname
    rw [ht, Option.map_some]
    by_cases htt : t = text
    · right
      refine ⟨by simp [htt], haddr, ?_, htells⟩
      exact find_eq h.strings (htt ▸ ht)
    · left
      simp [htt]
  · exact .inl rfl

theorem apply_to_hit (malloc : List Nat → Nat) {s : driver_t} (h : Kept s)
    (hp : program_at s ob.prog = some progp)
    (hhit : hit s (s.cache (hash progp.id_number c.fun_)) ob.prog progp c.text = some true)
    (haddr : (s.cache (hash progp.id_number c.fun_)).oprogp = ob.prog)
    (hfind : find_function_by_name2 s ob.prog progp c.text =
      ffbn_recurse2 ob.prog progp (s.cache (hash progp.id_number c.fun_)).name)
    (htells : Tells (s.cache (hash progp.id_number c.fun_)) progp) :
    ∃ o, apply_to malloc s c ob = some (s, o) ∧ afresh_in s c ob = some o := by
  unfold apply_to afresh_in
  simp only [hp, hhit, hfind]
  generalize s.cache (hash progp.id_number c.fun_) = entry at haddr htells
  unfold Tells at htells
  rw [haddr] at htells
  by_cases hprogp : entry.progp = 0
  · rw [if_pos hprogp] at htells
    rw [htells, if_neg (by omega)]
    exact ⟨none, rfl, rfl⟩
  · rw [if_neg hprogp] at htells
    obtain ⟨r, f, hr, hf, ha, hi, hfio, hvio, harg, hlocal⟩ := htells
    have hflags : entry_flags s entry progp = some f.flags := by
      unfold entry_flags
      rw [← ha, (found_live h.programs hp hr).1, ← hi, ← hfio]
      unfold function_frame at hf
      split at hf
      · cases hf
      · rename_i funp hfunp
        split at hf
        · rename_i hflags
          cases hf
          rwa [Option.bind_some, hfunp]
        · cases hf
    rw [if_pos hprogp, hr]
    simp only [hflags, hf, Option.map_some]
    rw [ha, hi, hfio, hvio, ← harg, ← hlocal]
    split
    · exact ⟨_, rfl, rfl⟩
    · exact ⟨_, rfl, rfl⟩

/-! ## A search, and the slot that it fills -/

def rest (cache : Nat → cache_entry_t) (ix : Nat) : Nat → Nat :=
  owners fun i => if i = ix then empty_entry else cache i

theorem owners_eq_rest (cache : Nat → cache_entry_t) (h : ix < APPLY_CACHE_SIZE)
    (entry : cache_entry_t) (addr : Nat) :
    owners (fun i => if i = ix then entry else cache i) addr =
      rest cache ix addr + (owns entry addr).toNat := by
  have hnew := owners_set cache h entry addr
  have hnone := owners_set cache h empty_entry addr
  have hempty : (owns empty_entry addr).toNat = 0 := rfl
  unfold rest
  omega

theorem owners_of_owns (cache : Nat → cache_entry_t) (h : ix < APPLY_CACHE_SIZE)
    (hid : entry.id ≠ 0) (hprogp : entry.progp = 0) :
    owners (fun i => if i = ix then entry else cache i) = bump (rest cache ix) entry.name := by
  funext addr
  rw [owners_eq_rest cache h]
  unfold bump owns
  by_cases ha : addr = entry.name
  · simp [ha, hid, hprogp]
  · have hne : ¬ entry.name = addr := fun heq => ha heq.symm
    simp [ha, hne]

theorem owners_of_owns_not (cache : Nat → cache_entry_t) (h : ix < APPLY_CACHE_SIZE)
    (hno : ¬ (entry.progp = 0 ∧ entry.id ≠ 0)) :
    owners (fun i => if i = ix then entry else cache i) = rest cache ix := by
  funext addr
  rw [owners_eq_rest cache h]
  have howns : owns entry addr = false := by
    unfold owns
    by_cases hid : entry.id = 0
    · simp [hid]
    · have hprogp : entry.progp ≠ 0 := fun hz => hno ⟨hz, hid⟩
      simp [hprogp]
  rw [howns, Bool.toNat_false, Nat.add_zero]

theorem update_same (cache : Nat → cache_entry_t) (ix : Nat) :
    (fun i => if i = ix then cache ix else cache i) = cache := by
  funext i
  split
  · rename_i h
    rw [h]
  · rfl

structure Emptied (s : driver_t) (ix : Nat) : Prop where
  strings : StringsKept s.strings (rest s.cache ix) (Held s)
  programs : ProgramsKept s
  entries : ∀ i < APPLY_CACHE_SIZE, i ≠ ix → EntryKept s (s.cache i)

theorem free_old_name_kept {s : driver_t} (h : Kept s) (hix : ix < APPLY_CACHE_SIZE) :
    ∃ s', free_old_name s (s.cache ix) = some s' ∧ Emptied s' ix ∧ Same s s' ∧
      s'.cache = s.cache := by
  unfold free_old_name
  split
  · rename_i howns
    obtain ⟨hprogp, hid⟩ := howns
    have hcounts := owners_of_owns s.cache hix hid hprogp
    rw [update_same] at hcounts
    obtain ⟨strings', hfree, hkept, -, htexts⟩ := StringsKept.free_string (hcounts ▸ h.strings)
    rw [hfree]
    refine ⟨{ s with strings := strings' }, rfl, ⟨hkept, ?_, ?_⟩, ?_, rfl⟩
    · exact { h.programs with }
    · intro i hi _
      exact { h.entries i hi with }
    · exact ⟨rfl, rfl, rfl, rfl, fun a ha => htexts a (.inr ha)⟩
  · rename_i hno
    have hcounts := owners_of_owns_not s.cache hix hno
    rw [update_same] at hcounts
    refine ⟨s, rfl, ⟨hcounts ▸ h.strings, h.programs, ?_⟩, Same.refl s, rfl⟩
    intro i hi _
    exact h.entries i hi

theorem Emptied.set_entry {s : driver_t} {strings : List string_t} (h : Emptied s ix)
    (hentry : EntryKept s entry) (hstrings : StringsKept strings
      (owners fun i => if i = ix then entry else s.cache i) (Held s)) :
    Kept (set_entry { s with strings } ix entry) := by
  refine ⟨hstrings, ?_, ?_⟩
  · exact { h.programs with }
  · intro i hi
    have hkept : EntryKept s (if i = ix then entry else s.cache i) := by
      split
      · exact hentry
      · rename_i hne
        exact h.entries i hi hne
    exact { hkept with }

theorem EntryKept.of_tells {s : driver_t} (h : ProgramsKept s) (hp : program_at s addr = some progp)
    (hid : entry.id = progp.id_number) (htells : Tells entry progp) : EntryKept s entry := by
  have hmem := program_mem h hp
  refine ⟨hid ▸ (h.ids progp hmem).2, ?_⟩
  intro _ p hpm hpid
  have heq : p = progp := by
    apply inj_on_of_nodup_map h.unique hpm hmem
    exact hpid.trans hid
  rwa [heq]

theorem mark_missing_eq (malloc : List Nat → Nat) (s : driver_t) (ix addr : Nat)
    (progp : program_t) (text : Nat) {strings : List string_t} {name : Nat}
    (h : make_shared_string malloc s.strings text = (strings, name)) :
    mark_missing malloc s ix addr progp text =
      set_entry { s with strings } ix
        { s.cache ix with id := progp.id_number, oprogp := addr, name, progp := 0 } := by
  unfold mark_missing
  unfold make_shared_string at h ⊢
  split at h
  · cases h
    simp [*]
  · cases h
    simp [*]

theorem mark_missing_kept {malloc : List Nat → Nat} (hmalloc : ∀ used, malloc used ∉ used)
    {s : driver_t} {text : Nat} (h : Emptied s ix) (hix : ix < APPLY_CACHE_SIZE)
    (hp : program_at s addr = some progp)
    (hfind : find_function_by_name2 s addr progp text = none) :
    Kept (mark_missing malloc s ix addr progp text) ∧
      Same s (mark_missing malloc s ix addr progp text) := by
  obtain ⟨strings, name, hmake, hkept, htext, hold, -⟩ := h.strings.make_shared_string hmalloc text
  have htexts : ∀ a, Held s a → text_at strings a = text_at s.strings a := by
    intro a ha
    obtain ⟨t, ht⟩ := h.strings.text_of_held ha
    rw [ht]
    exact hold a t ht
  have hmissing : ffbn_recurse2 addr progp name = none := by
    have hcongr : find_function_by_name2 { s with strings } addr progp text =
        find_function_by_name2 s addr progp text :=
      find_congr h.strings hkept h.programs htexts text hp
    have heq : find_function_by_name2 { s with strings } addr progp text =
        ffbn_recurse2 addr progp name := find_eq hkept htext
    rw [← heq, hcongr, hfind]
  have hid := (h.programs.ids progp (program_mem h.programs hp)).1
  rw [mark_missing_eq malloc s ix addr progp text hmake]
  constructor
  · apply h.set_entry
    · apply EntryKept.of_tells h.programs hp rfl
      unfold Tells
      rwa [if_pos rfl]
    · rwa [owners_of_owns s.cache hix (by exact hid) rfl]
  · exact ⟨rfl, rfl, rfl, rfl, htexts⟩

/-! ## The calls that keep the cache -/

/-- When the slot is about another function and the search finds this one, the caller may
call it, and the slot is filled whole: the frame is set up, or the error comes before the
slot is written and the slot had no name to free. -/
def slot_ok (s : driver_t) (c : call_t) (ob : object_t) : Bool :=
  match program_at s ob.prog with
  | none => true
  | some progp =>
    let entry := s.cache (hash progp.id_number c.fun_)
    if hit s entry ob.prog progp c.text = some false then
      match find_function_by_name2 s ob.prog progp c.text with
      | none => true
      | some r =>
        match function_frame progp r with
        | none => true
        | some f =>
          permitted c ob.num f.flags &&
            if c.too_deep then !(entry.progp == 0 && entry.id != 0)
            else !c.setup_fails f.flags.TRUE_VARARGS f.num_local f.num_arg
    else true

section

variable (malloc : List Nat → Nat)

def chain_ok (c : call_t) : (fuel : Nat) → driver_t → object_t → Bool
  | 0, _, _ => true
  | fuel + 1, s, ob =>
    slot_ok s c ob &&
      match apply_to malloc s c ob, ob.shadowing with
      | some (s, none), some num =>
        match object s num with
        | none => true
        | some ob => chain_ok c fuel s ob
      | _, _ => true

def call_ok (s : driver_t) (c : call_t) : Bool :=
  match object s c.ob with
  | none => true
  | some ob =>
    match first_shadow s c.current_object s.objects.length ob with
    | none => true
    | some ob => chain_ok malloc c s.objects.length s ob

end

theorem search_and_call_agrees {malloc : List Nat → Nat} (hmalloc : ∀ used, malloc used ∉ used)
    {s s' : driver_t} (h : Kept s) (hp : program_at s ob.prog = some progp)
    (hix : ix < APPLY_CACHE_SIZE) (hfree : free_old_name s (s.cache ix) = some s')
    (hempty : Emptied s' ix) (hsame : Same s s') (hcache : s'.cache = s.cache)
    (hok : ∀ r f, find_function_by_name2 s ob.prog progp c.text = some r →
      function_frame progp r = some f → permitted c ob.num f.flags = true ∧
        (if c.too_deep then !((s.cache ix).progp == 0 && (s.cache ix).id != 0)
          else !c.setup_fails f.flags.TRUE_VARARGS f.num_local f.num_arg) = true) :
    search_and_call malloc s' c ob progp ix = none ∧ afresh_in s c ob = none ∨
      ∃ s'' o, search_and_call malloc s' c ob progp ix = some (s'', o) ∧
        afresh_in s c ob = some o ∧ Kept s'' ∧ Same s s'' := by
  have hp' : program_at s' ob.prog = some progp := (hsame.program_at _).trans hp
  have hfind : find_function_by_name2 s' ob.prog progp c.text =
      find_function_by_name2 s ob.prog progp c.text :=
    find_congr h.strings hempty.strings h.programs hsame.texts c.text hp
  unfold search_and_call afresh_in
  simp only [hp]
  rcases hr : find_function_by_name2 s ob.prog progp c.text with _ | r
  · -- the search finds nothing: the slot says so
    rw [hr] at hfind
    simp only [hfind]
    obtain ⟨hkept, hsame'⟩ := mark_missing_kept hmalloc hempty hix hp' hfind
    exact .inr ⟨_, _, rfl, rfl, hkept, hsame.trans hsame'⟩
  rw [hr] at hfind
  obtain ⟨sfun, hsfun, hr'⟩ := (find_some_iff hempty.strings).mp hfind
  simp only [hfind, hempty.strings.findstring_iff.mpr hsfun]
  rcases hf : function_frame progp r with _ | f
  · exact .inl ⟨rfl, rfl⟩
  obtain ⟨hperm, hfill⟩ := hok r f hr hf
  simp only [Option.map_some, hperm, if_true]
  right
  by_cases hdeep : c.too_deep = true
  · -- the slot is as it was, and had no name
    rw [hdeep, if_pos rfl] at hfill
    have hno : ¬ ((s.cache ix).progp = 0 ∧ (s.cache ix).id ≠ 0) := by
      rintro ⟨hprogp, hid⟩
      simp [hprogp, hid] at hfill
    unfold free_old_name at hfree
    rw [if_neg hno] at hfree
    cases hfree
    rw [if_pos hdeep]
    exact ⟨s, _, rfl, by simp only [run_function, hdeep, if_true], h, Same.refl s⟩
  · rw [if_neg hdeep] at hfill ⊢
    have hfits : c.setup_fails f.flags.TRUE_VARARGS f.num_local f.num_arg ≠ true := by
      simpa using hfill
    rw [if_neg hfits]
    have hlive : r.addr ≠ 0 := by
      have hmem := (program_at_iff hempty.programs).mp (found_live hempty.programs hp' hr').1
      exact hempty.programs.addr_ne _ hmem
    refine ⟨_, _, rfl, rfl, ?_, ?_⟩
    · refine hempty.set_entry ?_ ?_
      · apply EntryKept.of_tells hempty.programs hp' rfl
        unfold Tells
        rw [if_neg hlive]
        exact ⟨r, f, hr', hf, rfl, rfl, rfl, rfl, rfl, rfl⟩
      · rw [owners_of_owns_not s'.cache hix (fun hz => hlive hz.1)]
        exact hempty.strings
    · exact { hsame with }

theorem apply_to_agrees {malloc : List Nat → Nat} (hmalloc : ∀ used, malloc used ∉ used)
    {s : driver_t} (h : Kept s) (hok : slot_ok s c ob = true) :
    apply_to malloc s c ob = none ∧ afresh_in s c ob = none ∨
      ∃ s' o, apply_to malloc s c ob = some (s', o) ∧ afresh_in s c ob = some o ∧ Kept s' ∧
        Same s s' := by
  rcases hp : program_at s ob.prog with _ | progp
  · left
    unfold apply_to afresh_in
    rw [hp]
    exact ⟨rfl, rfl⟩
  have hix := hash_lt progp.id_number c.fun_
  rcases hit_cases h hp hix c.text with hmiss | ⟨hhit, haddr, hfind, htells⟩
  · obtain ⟨s', hfree, hempty, hsame, hcache⟩ := free_old_name_kept h hix
    have hstep : apply_to malloc s c ob =
        search_and_call malloc s' c ob progp (hash progp.id_number c.fun_) := by
      unfold apply_to
      simp [hp, hmiss, hfree]
    rw [hstep]
    apply search_and_call_agrees hmalloc h hp hix hfree hempty hsame hcache
    intro r f hr hf
    unfold slot_ok at hok
    simpa only [hp, hmiss, hr, hf, if_true, Bool.and_eq_true] using hok
  · right
    obtain ⟨o, ho, hafresh⟩ := apply_to_hit malloc h hp hhit haddr hfind htells
    exact ⟨s, o, ho, hafresh, h, Same.refl s⟩

theorem afresh_chain_congr {s s' : driver_t} (h : Kept s) (h' : Kept s') (hs : Same s s')
    (c : call_t) (fuel : Nat) : ∀ ob, afresh_chain s' c fuel ob = afresh_chain s c fuel ob := by
  induction fuel with
  | zero =>
    intro ob
    rfl
  | succ fuel ih =>
    intro ob
    unfold afresh_chain object
    rw [afresh_in_congr h h' hs, hs.objects]
    simp [ih]

theorem apply_chain_agrees {malloc : List Nat → Nat} (hmalloc : ∀ used, malloc used ∉ used)
    (fuel : Nat) : ∀ {s : driver_t} {ob : object_t}, Kept s →
      chain_ok malloc c fuel s ob = true →
      (apply_chain malloc c fuel s ob).map Prod.snd = afresh_chain s c fuel ob ∧
        ∀ s' o, apply_chain malloc c fuel s ob = some (s', o) → Kept s' ∧ Same s s' := by
  induction fuel with
  | zero =>
    intro s ob _ _
    exact ⟨rfl, fun _ _ h => by cases h⟩
  | succ fuel ih =>
    intro s ob h hok
    unfold chain_ok at hok
    rw [Bool.and_eq_true] at hok
    obtain ⟨hslot, hrest⟩ := hok
    unfold apply_chain afresh_chain
    rcases apply_to_agrees hmalloc h hslot with ⟨hto, hafresh⟩ | ⟨s', o, hto, hafresh, h', hsame⟩
    · rw [hto, hafresh]
      exact ⟨rfl, fun _ _ h => by cases h⟩
    rw [hto] at hrest
    rcases o with _ | o
    · simp only [hto, hafresh]
      rcases hsh : ob.shadowing with _ | num
      · refine ⟨rfl, ?_⟩
        intro s'' o heq
        cases heq
        exact ⟨h', hsame⟩
      · have hobject : object s' num = object s num := by
          unfold object
          rw [hsame.objects]
        rw [hsh] at hrest
        simp only [hobject] at hrest ⊢
        rcases hnum : object s num with _ | ob'
        · exact ⟨rfl, fun _ _ h => by cases h⟩
        · rw [hnum] at hrest
          obtain ⟨hout, hkept⟩ := ih h' hrest
          simp only [Option.bind_some]
          refine ⟨hout.trans (afresh_chain_congr h h' hsame c fuel ob'), ?_⟩
          intro s'' o heq
          obtain ⟨h'', hsame'⟩ := hkept s'' o heq
          exact ⟨h'', hsame.trans hsame'⟩
    · simp only [hto, hafresh]
      refine ⟨rfl, ?_⟩
      intro s'' o' heq
      cases heq
      exact ⟨h', hsame⟩

theorem apply_low_agrees {malloc : List Nat → Nat} (hmalloc : ∀ used, malloc used ∉ used)
    {s : driver_t} (h : Kept s) (hok : call_ok malloc s c = true) :
    (apply_low malloc s c).map Prod.snd = afresh s c ∧
      ∀ s' o, apply_low malloc s c = some (s', o) → Kept s' := by
  unfold call_ok at hok
  unfold apply_low afresh
  rcases hob : object s c.ob with _ | ob
  · exact ⟨rfl, fun _ _ h => by cases h⟩
  rw [hob] at hok
  simp only [Option.bind_some] at hok ⊢
  rcases hfirst : first_shadow s c.current_object s.objects.length ob with _ | ob'
  · exact ⟨rfl, fun _ _ h => by cases h⟩
  rw [hfirst] at hok
  simp only [Option.bind_some] at hok ⊢
  obtain ⟨hout, hkept⟩ := apply_chain_agrees hmalloc s.objects.length h hok
  exact ⟨hout, fun s' o heq => (hkept s' o heq).1⟩

/-! ## The steps between the calls -/

theorem StringsKept.mono {strings : List string_t} {held held' : Nat → Prop}
    (h : StringsKept strings n held)
    (hheld : ∀ a, held' a → ∃ b ∈ strings, b.addr = a ∧ 1 ≤ b.others) :
    StringsKept strings n held' :=
  ⟨h.addrs, h.texts, h.counted, h.owned, hheld⟩

theorem Kept.with_strings {s : driver_t} (h : Kept s) {strings : List string_t}
    (hs : StringsKept strings (owners s.cache) (Held s)) : Kept { s with strings } := by
  obtain ⟨hpos, hne, haddrs, hids, hunique, hinherits⟩ := h.programs
  refine ⟨hs, ⟨hpos, hne, haddrs, hids, hunique, hinherits⟩, ?_⟩
  intro ix hix
  exact { h.entries ix hix with }

theorem make_shared_string_kept {malloc : List Nat → Nat} (hmalloc : ∀ used, malloc used ∉ used)
    {s s' : driver_t} {text : Nat} (h : Kept s)
    (hs : step malloc s (.make_shared_string text) = some s') : Kept s' := by
  obtain ⟨strings, addr, hmake, hkept, htext, -, -⟩ := h.strings.make_shared_string hmalloc text
  rw [step] at hs
  rw [hmake] at hs
  cases hs
  apply h.with_strings
  obtain ⟨b, hb, hab, -⟩ := hkept.text_at_iff.mp htext
  have hrecount : Recount add_other := fun _ => ⟨rfl, rfl⟩
  apply hkept.recount hrecount
  · intro b _ _ _ _
    exact Nat.le_add_left 1 b.others
  · intro b _ _ hcount
    simp only [bump, if_true] at hcount
    simp only [add_other]
    omega
  · intro a ha
    simp [bump, if_neg ha]
  · exact ⟨b, hb, hab⟩

theorem others_of_pos {strings : List string_t} (h : others_of strings addr ≠ 0) :
    ∃ b ∈ strings, b.addr = addr ∧ b.others = others_of strings addr := by
  unfold others_of at h ⊢
  rcases hfind : strings.find? (fun b => b.addr == addr) with _ | b
  · rw [hfind] at h
    exact absurd rfl h
  · refine ⟨b, mem_of_find?_eq_some hfind, by simpa using find?_some hfind, ?_⟩
    rw [hfind]
    rfl

theorem free_string_kept {malloc : List Nat → Nat} {s s' : driver_t} (h : Kept s)
    (hs : step malloc s (.free_string addr) = some s') : Kept s' := by
  rw [step] at hs
  split_ifs at hs with hzero hlast
  obtain ⟨b, hb, hab, hothers⟩ := others_of_pos hzero
  have honly : ∀ b' ∈ s.strings, b'.addr = addr → b'.others = others_of s.strings addr := by
    intro b' hb' hab'
    rwa [eq_of_key h.strings.addrs hb' hb (hab'.trans hab.symm)]
  have hlent : StringsKept
      (s.strings.map (at_addr (fun b => { b with others := b.others - 1 }) addr))
      (bump (owners s.cache) addr) (Held s) := by
    have hrecount : Recount fun b => { b with others := b.others - 1 } := fun _ => ⟨rfl, rfl⟩
    apply h.strings.recount hrecount
    · intro b' hb' hab' hheld _
      obtain ⟨p, hp, hname⟩ := hheld
      have htwo : others_of s.strings addr ≠ 1 := by
        intro hone
        exact hlast ⟨hone, any_eq_true.mpr ⟨p, hp, hname⟩⟩
      have heq := honly b' hb' hab'
      show 1 ≤ b'.others - 1
      omega
    · intro b' hb' hab' hcount
      have heq := honly b' hb' hab'
      simp only [bump, if_true]
      omega
    · intro a ha
      simp [bump, if_neg ha]
    · exact ⟨b, hb, hab⟩
  obtain ⟨strings', hfree, hkept, -, -⟩ := hlent.free_string
  have hs' : (free_string (s.strings.map
      (at_addr (fun b => { b with others := b.others - 1 }) addr)) addr).map
        (fun strings => { s with strings }) = some s' := hs
  rw [hfree] at hs'
  cases hs'
  exact h.with_strings hkept

theorem Kept.with_programs {s : driver_t} (h : Kept s) {programs : List (Nat × program_t)}
    {swapped : List program_t}
    (hmem : ∀ p ∈ programs.map Prod.snd ++ swapped, p ∈ all_programs s)
    (hunique : ((programs.map Prod.snd ++ swapped).map program_t.id_number).Nodup)
    (hne : ∀ x ∈ programs, x.1 ≠ 0) (haddrs : (programs.map Prod.fst).Nodup)
    (hinherits : ∀ p ∈ all_programs s, ∀ i ∈ p.inherit, (i.1, i.2.1) ∈ programs) :
    Kept { s with programs, swapped } := by
  refine ⟨?_, ⟨h.programs.id_pos, hne, haddrs, ?_, hunique, ?_⟩, ?_⟩
  · apply h.strings.mono
    rintro a ⟨p, hp, hname⟩
    exact h.strings.held a ⟨p, hmem p hp, hname⟩
  · intro p hp
    exact h.programs.ids p (hmem p hp)
  · intro p hp i hi
    exact (lookup_iff haddrs).mpr (hinherits p (hmem p hp) i hi)
  · intro ix hix
    obtain ⟨hlt, htells⟩ := h.entries ix hix
    exact ⟨hlt, fun hid p hp => htells hid p (hmem p hp)⟩

theorem inherits_stay {s : driver_t} (h : ProgramsKept s) (hunused : unused s addr = true) :
    ∀ p ∈ all_programs s, ∀ i ∈ p.inherit,
      (i.1, i.2.1) ∈ s.programs.filter fun x => x.1 != addr := by
  intro p hp i hi
  refine mem_filter.mpr ⟨(program_at_iff h).mp (h.inherits p hp i hi), ?_⟩
  unfold unused at hunused
  rw [Bool.and_eq_true, all_eq_true, all_eq_true] at hunused
  exact all_eq_true.mp (hunused.2 p hp) i hi

theorem free_program_kept {malloc : List Nat → Nat} {s s' : driver_t} (h : Kept s)
    (hs : step malloc s (.free_program addr) = some s') : Kept s' := by
  rw [step] at hs
  split_ifs at hs with hunused
  cases hs
  have hsub : (s.programs.filter fun x => x.1 != addr).Sublist s.programs := filter_sublist
  have hsub' := (hsub.map Prod.snd).append (List.Sublist.refl s.swapped)
  apply h.with_programs
  · intro p hp
    exact hsub'.subset hp
  · exact h.programs.unique.sublist (hsub'.map _)
  · intro x hx
    exact h.programs.addr_ne x (hsub.subset hx)
  · exact h.programs.addrs.sublist (hsub.map _)
  · exact inherits_stay h.programs hunused

theorem filter_addr {programs : List (Nat × program_t)} (h : (programs.map Prod.fst).Nodup)
    (hp : programs.lookup addr = some p) :
    programs.Perm ((addr, p) :: programs.filter fun x => x.1 != addr) := by
  obtain ⟨l₁, l₂, rfl, -⟩ := lookup_eq_some_iff.mp hp
  rw [map_append, map_cons, nodup_middle, ← map_append, nodup_cons] at h
  have hself : (l₁ ++ l₂).filter (fun x => x.1 != addr) = l₁ ++ l₂ := by
    rw [filter_eq_self]
    intro x hx
    rw [bne_iff_ne]
    intro heq
    exact h.1 (mem_map.mpr ⟨x, hx, heq⟩)
  rw [filter_append, filter_cons_of_neg (by simp), ← filter_append, hself]
  exact perm_middle

theorem swap_out_kept {malloc : List Nat → Nat} {s s' : driver_t} (h : Kept s)
    (hs : step malloc s (.swap_out addr) = some s') : Kept s' := by
  rw [step] at hs
  split_ifs at hs with hunused
  obtain ⟨p, hp, rfl⟩ := Option.map_eq_some_iff.mp hs
  have hperm := ((filter_addr h.programs.addrs hp).map Prod.snd).append_right s.swapped
  have hperm' : (all_programs s).Perm
      ((s.programs.filter fun x => x.1 != addr).map Prod.snd ++ p :: s.swapped) :=
    hperm.trans perm_middle.symm
  have hsub : (s.programs.filter fun x => x.1 != addr).Sublist s.programs := filter_sublist
  apply h.with_programs
  · intro q hq
    exact hperm'.mem_iff.mpr hq
  · exact (hperm'.map _).nodup_iff.mp h.programs.unique
  · intro x hx
    exact h.programs.addr_ne x (hsub.subset hx)
  · exact h.programs.addrs.sublist (hsub.map _)
  · exact inherits_stay h.programs hunused

theorem swap_in_kept {malloc : List Nat → Nat} {s s' : driver_t} {n : Nat} (h : Kept s)
    (hs : step malloc s (.swap_in n addr) = some s') : Kept s' := by
  rw [step] at hs
  split_ifs at hs with hfree
  obtain ⟨p, hp, rfl⟩ := Option.map_eq_some_iff.mp hs
  obtain ⟨hn, rfl⟩ := List.getElem?_eq_some_iff.mp hp
  have hperm : (all_programs s).Perm
      (((addr, s.swapped[n]) :: s.programs).map Prod.snd ++ s.swapped.eraseIdx n) := by
    have hswapped := (getElem_cons_eraseIdx_perm hn).symm
    exact (hswapped.append_left _).trans perm_middle
  apply h.with_programs
  · intro q hq
    exact hperm.mem_iff.mpr hq
  · exact (hperm.map _).nodup_iff.mp h.programs.unique
  · intro x hx
    rcases mem_cons.mp hx with rfl | hx
    · exact fun hz => hfree (.inl hz)
    · exact h.programs.addr_ne x hx
  · rw [map_cons, nodup_cons]
    refine ⟨?_, h.programs.addrs⟩
    intro hmem
    obtain ⟨x, hx, rfl⟩ := mem_map.mp hmem
    have hat := (program_at_iff h.programs).mpr hx
    exact hfree (.inr (by rw [hat]; rfl))
  · intro q hq i hi
    exact mem_cons_of_mem _ ((program_at_iff h.programs).mp (h.programs.inherits q hq i hi))

theorem inherits_at_mem {s : driver_t} : ∀ {inherit : List (Nat × Nat × Nat)}
    {l : List (Nat × program_t × Nat × Nat)}, inherits_at s inherit = some l →
      ∀ i ∈ l, program_at s i.1 = some i.2.1
  | [], _, h, i, hi => by
    cases h
    cases hi
  | (addr, fio, vio) :: inherit, l, h, i, hi => by
    unfold inherits_at at h
    split at h
    · rename_i prog rest hprog hrest
      cases h
      rcases mem_cons.mp hi with rfl | hi
      · exact hprog
      · exact inherits_at_mem hrest i hi
    · cases h

theorem load_program_kept {malloc : List Nat → Nat} {s s' : driver_t} {prog : loaded_t} (h : Kept s)
    (hs : step malloc s (.load_program addr prog) = some s') : Kept s' := by
  rw [step] at hs
  split_ifs at hs with hfree hnames
  obtain ⟨inherit, hinherit, rfl⟩ := Option.map_eq_some_iff.mp hs
  have hold : ∀ a q, program_at s a = some q → a ≠ addr := by
    rintro a q hq rfl
    exact hfree (.inr (by rw [hq]; rfl))
  have hids := h.programs.ids
  have hpos := h.programs.id_pos
  refine ⟨?_, ⟨Nat.succ_pos _, ?_, ?_, ?_, ?_, ?_⟩, ?_⟩
  · -- the new program holds strings that are there
    apply h.strings.mono
    rintro a ⟨p, hp, hname⟩
    rcases mem_cons.mp hp with rfl | hp
    · unfold holds_name at hname
      obtain ⟨f, hf, hfa⟩ := any_eq_true.mp hname
      have ha : f.name = a := by simpa using hfa
      have hother : others_of s.strings a ≠ 0 := by
        intro hz
        exact hnames (any_eq_true.mpr ⟨f, hf, by simp [ha, hz]⟩)
      obtain ⟨b, hb, hab, ho⟩ := others_of_pos hother
      exact ⟨b, hb, hab, by omega⟩
    · exact h.strings.held a ⟨p, hp, hname⟩
  · intro x hx
    rcases mem_cons.mp hx with rfl | hx
    · exact fun hz => hfree (.inl hz)
    · exact h.programs.addr_ne x hx
  · show (map Prod.fst ((addr, _) :: s.programs)).Nodup
    rw [map_cons, nodup_cons]
    refine ⟨?_, h.programs.addrs⟩
    intro hmem
    obtain ⟨x, hx, hxa⟩ := mem_map.mp hmem
    exact hold x.1 x.2 ((program_at_iff h.programs).mpr hx) hxa
  · intro p hp
    rcases mem_cons.mp hp with rfl | hp
    · exact ⟨Nat.pos_iff_ne_zero.mp hpos, Nat.lt_succ_self _⟩
    · exact ⟨(hids p hp).1, Nat.lt_succ_of_lt (hids p hp).2⟩
  · show (s.current_id_number :: (all_programs s).map program_t.id_number).Nodup
    refine nodup_cons.mpr ⟨?_, h.programs.unique⟩
    intro hmem
    obtain ⟨p, hp, hpid⟩ := mem_map.mp hmem
    have hlt := (hids p hp).2
    omega
  · intro p hp i hi
    have hi' : program_at s i.1 = some i.2.1 := by
      rcases mem_cons.mp hp with rfl | hp
      · exact inherits_at_mem hinherit i hi
      · exact h.programs.inherits p hp i hi
    unfold program_at
    rwa [lookup_cons, beq_eq_false_iff_ne.mpr (hold _ _ hi')]
  · intro ix hix
    obtain ⟨hlt, htells⟩ := h.entries ix hix
    refine ⟨Nat.lt_succ_of_lt hlt, ?_⟩
    intro hid p hp hpid
    rcases mem_cons.mp hp with rfl | hp
    · exact absurd hpid (Nat.ne_of_gt hlt)
    · exact htells hid p hp hpid

theorem Kept.with_objects {s : driver_t} (h : Kept s) (objects : List object_t) :
    Kept { s with objects } := by
  obtain ⟨hpos, hne, haddrs, hids, hunique, hinherits⟩ := h.programs
  refine ⟨h.strings, ⟨hpos, hne, haddrs, hids, hunique, hinherits⟩, ?_⟩
  intro ix hix
  exact { h.entries ix hix with }

def step_ok (malloc : List Nat → Nat) (s : driver_t) : Action → Prop
  | .call c => call_ok malloc s c = true
  | _ => True

instance (malloc : List Nat → Nat) (s : driver_t) (a : Action) : Decidable (step_ok malloc s a) :=
  match a with
  | .call c => inferInstanceAs (Decidable (call_ok malloc s c = true))
  | .make_shared_string _ | .free_string _ | .load_program _ _ | .free_program _
  | .swap_out _ | .swap_in _ _ | .set_object _ | .remove_object _ => isTrue trivial

theorem step_kept {malloc : List Nat → Nat} (hmalloc : ∀ used, malloc used ∉ used)
    {s s' : driver_t} {a : Action} (h : Kept s) (hok : step_ok malloc s a)
    (hs : step malloc s a = some s') : Kept s' := by
  cases a with
  | call c =>
    rw [step, Option.map_eq_some_iff] at hs
    obtain ⟨⟨t, o⟩, hcall, rfl⟩ := hs
    exact (apply_low_agrees hmalloc h hok).2 t o hcall
  | make_shared_string text => exact make_shared_string_kept hmalloc h hs
  | free_string addr => exact free_string_kept h hs
  | load_program addr prog => exact load_program_kept h hs
  | free_program addr => exact free_program_kept h hs
  | swap_out addr => exact swap_out_kept h hs
  | swap_in n addr => exact swap_in_kept h hs
  | set_object ob =>
    rw [step] at hs
    split_ifs at hs
    cases hs
    exact h.with_objects _
  | remove_object num =>
    rw [step] at hs
    cases hs
    exact h.with_objects _

theorem kept_start : Kept start := by
  refine ⟨?_, ?_, ?_⟩
  · have hnone : ∀ addr, owners start.cache addr = 0 := by
      intro addr
      unfold owners owners_below
      rw [countP_eq_zero]
      intro ix _
      exact Bool.false_ne_true
    refine ⟨nodup_nil, nodup_nil, ?_, ?_, ?_⟩
    · intro b hb
      cases hb
    · intro addr haddr
      rw [hnone] at haddr
      exact absurd haddr (Nat.lt_irrefl 0)
    · rintro addr ⟨p, hp, -⟩
      cases hp
  · refine ⟨Nat.one_pos, ?_, nodup_nil, ?_, nodup_nil, ?_⟩
    · intro x hx
      cases hx
    · intro p hp
      cases hp
    · intro p hp
      cases hp
  · intro ix _
    exact ⟨Nat.one_pos, fun hid => absurd rfl hid⟩

/-! ## The cache and the search -/

/-- In a run whose calls fill each slot whole, a call comes to the same as without a
cache. -/
theorem apply_low_as_afresh {malloc : List Nat → Nat} (hmalloc : ∀ used, malloc used ∉ used)
    {s : driver_t} (h : Reachable start (step malloc) (step_ok malloc) s) {c : call_t}
    (hok : call_ok malloc s c = true) : (apply_low malloc s c).map Prod.snd = afresh s c := by
  have hkept : Kept s :=
    h.inv kept_start fun _ _ _ hk hok hs => step_kept hmalloc hk hok hs
  exact (apply_low_agrees hmalloc hkept hok).1

def after (used : List Nat) : Nat := used.foldr max 0 + 1

theorem after_not_mem (used : List Nat) : after used ∉ used := by
  have hle : ∀ a ∈ used, a ≤ used.foldr max 0 := by
    induction used with
    | nil =>
      intro a ha
      cases ha
    | cons x used ih =>
      intro a ha
      rcases mem_cons.mp ha with rfl | ha
      · exact Nat.le_max_left _ _
      · exact Nat.le_trans (ih a ha) (Nat.le_max_right _ _)
  intro hmem
  exact Nat.not_succ_le_self _ (hle _ hmem)

def no_flags : name_flags :=
  ⟨false, false, false, false, false, false, false,
    ⟨false, false, false, false, false, false, false⟩⟩

def with_function (flags : name_flags) : List Action :=
  [.make_shared_string 102, .load_program 100 ⟨[⟨1, 0⟩], [flags], [.def_ 0 0 0], []⟩,
    .set_object ⟨1, 100, none, none⟩]

def call_from (origin : call_origin) : call_t := ⟨1, 102, 1, 2, origin, false, fun _ _ _ => false⟩

theorem apply_low_as_afresh_again : ∃ s, run (step after) start
    (with_function no_flags ++ [.call (call_from .CALL_OTHER)]) = some s ∧
      afresh s (call_from .CALL_OTHER) = some (.runs 1 100 0 0 0 0 0 false) ∧
      (apply_low after s (call_from .CALL_OTHER)).map Prod.snd =
        afresh s (call_from .CALL_OTHER) := by
  have hrun : (run (step after) start
      (with_function no_flags ++ [.call (call_from .CALL_OTHER)])).map
        (fun s => (call_ok after s (call_from .CALL_OTHER), afresh s (call_from .CALL_OTHER))) =
      some (true, some (.runs 1 100 0 0 0 0 0 false)) := by decide
  obtain ⟨s, hs, heq⟩ := Option.map_eq_some_iff.mp hrun
  obtain ⟨hok, hafresh⟩ := Prod.mk.inj heq
  refine ⟨s, hs, hafresh, apply_low_as_afresh after_not_mem ?_ hok⟩
  exact .of_run .start (by decide) hs

/-- A call that is refused marks the function as missing, for `call_out` too. -/
theorem refused_call_hides_function : ¬ ∀ malloc : List Nat → Nat, (∀ used, malloc used ∉ used) →
    ∀ s, Reachable start (step malloc) (fun _ _ => True) s → ∀ c,
      (apply_low malloc s c).map Prod.snd = afresh s c := by
  intro hall
  have hrun : (run (step after) start
      (with_function { no_flags with mods := { no_flags.mods with STATIC := true } } ++
        [.call (call_from .CALL_OTHER)])).map
        (fun s => ((apply_low after s (call_from .CALL_OUT)).map Prod.snd,
          afresh s (call_from .CALL_OUT))) =
      some (some .not_found, some (.runs 1 100 0 0 0 0 0 false)) := by decide
  obtain ⟨s, hs, heq⟩ := Option.map_eq_some_iff.mp hrun
  obtain ⟨hlow, hafresh⟩ := Prod.mk.inj heq
  have hsame := hall after after_not_mem s
    (.of_any hs) (call_from .CALL_OUT)
  simp [hlow, hafresh] at hsame

end mudos.apply_cache
