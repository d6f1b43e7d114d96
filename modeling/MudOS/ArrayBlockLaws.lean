-- What the loops over the items of arrays do: what the holders of the other blocks see, and what
-- the references to each of them are.
import MudOS.Library.Windows
import MudOS.ReferenceCountLaws
import MudOS.ArrayBlocks
import Mathlib.Data.List.Induction

open mudos.reference_counts List Option
open mudos.windows

namespace mudos.array_blocks

variable {m : memory} {held : List svalue_t}
variable {b c : block_t} {gone : Nat → Prop} {m' : memory} {a i x d p : Nat} {l : List svalue_t}
  {max_array_size : Int} {v : svalue_t}

variable {gone' : Nat → Prop}

/-! ## Blocks -/

structure Same (b b' : block_t) : Prop where
  type : b'.type = b.type
  item : b'.item = b.item
  allocated : b'.allocated = b.allocated
  null : b'.null = b.null

theorem Same.refl (b : block_t) : Same b b := ⟨rfl, rfl, rfl, rfl⟩

theorem Same.trans {d : block_t} (h : Same b c) (h' : Same c d) : Same b d :=
  ⟨h'.type.trans h.type, h'.item.trans h.item, h'.allocated.trans h.allocated,
    h'.null.trans h.null⟩

theorem same_with_ref (b : block_t) (ref : Nat) : Same b { b with ref } := ⟨rfl, rfl, rfl, rfl⟩

structure Kept (gone : Nat → Prop) (m m' : memory) : Prop where
  slots : m'.slots = m.slots
  length : m.blocks.length ≤ m'.blocks.length
  block : ∀ (x : Nat) b, m.blocks[x]? = some b → ¬ gone x →
    ∃ b', m'.blocks[x]? = some b' ∧ Same b b'

theorem Kept.refl (gone : Nat → Prop) (m : memory) : Kept gone m m :=
  ⟨rfl, Nat.le_refl _, fun _ b hb _ => ⟨b, hb, Same.refl b⟩⟩

theorem Kept.trans {m₁ m₂ m₃ : memory} (h : Kept gone m₁ m₂) (h' : Kept gone' m₂ m₃) :
    Kept (fun x => gone x ∨ gone' x) m₁ m₃ := by
  refine ⟨h'.slots.trans h.slots, Nat.le_trans h.length h'.length, ?_⟩
  intro x b hb hnot
  obtain ⟨c, hc, hbc⟩ := h.block x b hb fun hgone => hnot (.inl hgone)
  obtain ⟨d, hd, hcd⟩ := h'.block x c hc fun hgone => hnot (.inr hgone)
  exact ⟨d, hd, hbc.trans hcd⟩

theorem Kept.mono (h : Kept gone m m') (hmore : ∀ x, x < m.blocks.length → gone x → gone' x) :
    Kept gone' m m' := by
  refine ⟨h.slots, h.length, fun x b hb hnot => h.block x b hb fun hgone => hnot ?_⟩
  exact hmore x (List.getElem?_eq_some_iff.mp hb).1 hgone

theorem kept_with_block {b' : block_t} (hb : m.blocks[a]? = some b) (hsame : Same b b')
    (gone : Nat → Prop) : Kept gone m (with_block m a b') := by
  refine ⟨rfl, Nat.le_of_eq (length_set ..).symm, fun x c hc _ => ?_⟩
  by_cases hx : x = a
  · subst hx
    cases hb.symm.trans hc
    exact ⟨b', with_block_self hb b', hsame⟩
  · exact ⟨c, by rw [with_block_ne hx]; exact hc, Same.refl c⟩

theorem array_at_some : array_at m a = some b ↔ m.blocks[a]? = some b ∧ b.allocated = true := by
  unfold array_at
  constructor
  · intro h
    split at h
    · cases h
    · rename_i c hc
      split_ifs at h with hallocated
      cases h
      exact ⟨hc, hallocated⟩
  · rintro ⟨hb, hallocated⟩
    simp [hb, hallocated]

theorem dec_ref_eq (hb : m.blocks[a]? = some b) :
    dec_ref m a = with_block m a { b with ref := ushort (b.ref + 65535) } := by
  unfold dec_ref with_block
  rw [modify_eq_set_getElem?, hb]
  rfl

theorem set_ref_eq (hb : m.blocks[a]? = some b) (ref : Nat) :
    set_ref m a ref = with_block m a { b with ref } := by
  unfold set_ref with_block
  rw [modify_eq_set_getElem?, hb]
  rfl

theorem write_item_eq (hb : m.blocks[a]? = some b) (v : svalue_t) :
    write m v (.item a i) = with_block m a { b with item := b.item.set i v } := by
  unfold write with_block
  simp only
  rw [modify_eq_set_getElem?, hb]
  rfl

theorem with_block_with_block (m : memory) (a : Nat) (b b' : block_t) :
    with_block (with_block m a b) a b' = with_block m a b' := by
  unfold with_block
  rw [set_set]

/-! ## Counts -/

/-- Every count is right, with the references that the running code holds. -/
structure Counted (m : memory) (held : List svalue_t) : Prop where
  sound : Sound m held
  clean : Clean m

/-- No block but a string gets more references by these than its count can tell. -/
def Room (m : memory) (l : List svalue_t) : Prop :=
  ∀ (x : Nat) b, m.blocks[x]? = some b → b.allocated = true → b.type ≠ .T_STRING →
    b.null = false → b.ref + l.count (.block x) ≤ 65535

theorem Room.mono {l' : List svalue_t} (h : Room m l)
    (hle : ∀ x, l'.count (.block x) ≤ l.count (.block x)) : Room m l' := by
  intro x b hb hallocated hstring hnull
  have := h x b hb hallocated hstring hnull
  have := hle x
  omega

theorem ref_of_other (h : Sound m held) (hb : m.blocks[a]? = some b)
    (hallocated : b.allocated = true) (hstring : b.type ≠ .T_STRING) (hnull : b.null = false) :
    b.immortal = false ∧ b.ref = total m held a := by
  have hfits := h.fits a b hb
  have himmortal : b.immortal = false := by
    rw [Bool.eq_false_iff]
    intro himmortal
    exact hstring (hfits.immortal himmortal).1
  exact ⟨himmortal, hfits.counted hallocated hnull himmortal⟩

theorem total_perm {held' : List svalue_t} (h : held.Perm held') (x : Nat) :
    total m held x = total m held' x := by
  unfold total
  rw [h.count_eq]

theorem Counted.perm {held' : List svalue_t} (h : Counted m held) (hperm : held.Perm held') :
    Counted m held' := by
  refine ⟨⟨h.sound.dangling, ?_, ?_, h.sound.shared⟩, h.clean⟩
  · intro a b hb
    rw [← total_perm hperm]
    exact h.sound.fits a b hb
  · intro a hpos
    rw [← total_perm hperm] at hpos
    exact h.sound.points a hpos

theorem total_append (m : memory) (l held : List svalue_t) (x : Nat) :
    total m (l ++ held) x = total m held x + l.count (.block x) := by
  unfold total
  rw [count_append]
  omega

theorem Counted.steady (h : Counted m held) : Steady { m with slots := m.slots ++ held } := by
  have htotal : ∀ x, total { m with slots := m.slots ++ held } [] x = total m held x := by
    intro x
    unfold total
    simp only [count_append, count_nil]
    omega
  refine ⟨⟨h.sound.dangling, ?_, ?_, h.sound.shared⟩, h.clean⟩
  · intro a b hb
    rw [htotal]
    exact h.sound.fits a b hb
  · intro a hpos
    rw [htotal] at hpos
    exact h.sound.points a hpos

theorem total_eq_references (h : Counted m held) (x : Nat) :
    total m held x = references m x + held.count (.block x) := by
  have hsame := references_eq h.steady x
  unfold references total at hsame ⊢
  simp only [count_append, count_nil] at hsame
  omega

theorem total_rest (h : Counted m (l ++ held)) (x : Nat) :
    total m held x = references m x + held.count (.block x) := by
  have hsame := total_eq_references h x
  rw [total_append, count_append] at hsame
  omega

/-- Every array has the size that the limit allows, and one of size 0 is the shared one. -/
structure Arrays (max_array_size : Int) (m : memory) : Prop where
  null_array : ∃ b, m.blocks[0]? = some b ∧ b.type = .T_ARRAY ∧ b.null = true
  sizes : ∀ (a : Nat) b, m.blocks[a]? = some b → b.allocated = true → b.type = .T_ARRAY →
    (b.item.length : Int) ≤ max_array_size ∧ b.item.length ≤ 65535 ∧ (b.item = [] → b.null = true)

structure Operand (m : memory) (a : Nat) (b : block_t) : Prop where
  block : m.blocks[a]? = some b
  allocated : b.allocated = true
  type : b.type = .T_ARRAY

structure IsArray (m : memory) (a : Nat) (item : List svalue_t) : Prop where
  there : ∃ b, m.blocks[a]? = some b ∧ b.allocated = true ∧ b.type = .T_ARRAY ∧ b.item = item

theorem IsArray.of_same {item : List svalue_t} (h : IsArray m a item) (hkept : Kept gone m m')
    (hnot : ¬ gone a) : IsArray m' a item := by
  obtain ⟨b, hb, hallocated, htype, hitem⟩ := h.there
  obtain ⟨b', hb', hsame⟩ := hkept.block a b hb hnot
  exact ⟨b', hb', hsame.allocated.trans hallocated, hsame.type.trans htype,
    hsame.item.trans hitem⟩

theorem ref_of_array (h : Counted m held) (hb : m.blocks[a]? = some b)
    (hallocated : b.allocated = true) (htype : b.type = .T_ARRAY) (hnull : b.null = false) :
    b.immortal = false ∧ b.ref = total m held a ∧ 0 < b.ref := by
  have hstring : b.type ≠ .T_STRING := by
    rw [htype]
    decide
  obtain ⟨himmortal, hcount⟩ := ref_of_other h.sound hb hallocated hstring hnull
  have href := h.clean a b hb hallocated hnull himmortal
  exact ⟨himmortal, hcount, by omega⟩

theorem null_of_empty (h : Arrays max_array_size m) (hb : m.blocks[a]? = some b)
    (hallocated : b.allocated = true) (htype : b.type = .T_ARRAY) :
    size b = b.item.length ∧ (size b = 0 → b.null = true) := by
  obtain ⟨-, hsmall, hempty⟩ := h.sizes a b hb hallocated htype
  have hsize : size b = b.item.length := by
    unfold size ushort
    omega
  exact ⟨hsize, fun hzero => hempty (eq_nil_of_length_eq_zero (hsize ▸ hzero))⟩

theorem counted_dec_ref (h : Counted m (.block a :: held)) (hb : m.blocks[a]? = some b)
    (hallocated : b.allocated = true) (htype : b.type = .T_ARRAY)
    (hmore : b.null = true ∨ 1 < b.ref) : Counted (dec_ref m a) held := by
  have hsound := h.sound
  rw [dec_ref_eq hb]
  by_cases hnull : b.null = true
  · refine ⟨sound_uncounted (sound_null hsound hb hnull ?_) (with_block_self hb _)
      (.inl hnull), ?_⟩
    · unfold ushort
      omega
    · intro x c hc hallocated hcnull himmortal
      by_cases hx : x = a
      · subst hx
        rw [with_block_self hb, some.injEq] at hc
        rw [← hc] at hcnull
        have hcnull : b.null = false := hcnull
        simp [hnull] at hcnull
      · rw [with_block_ne hx] at hc
        exact h.clean x c hc hallocated hcnull himmortal
  · have href := hmore.resolve_left hnull
    rw [Bool.not_eq_true] at hnull
    obtain ⟨himmortal, -, -⟩ := ref_of_array h hb hallocated htype hnull
    obtain ⟨-, hdec⟩ := sound_dec hsound hb hallocated hnull himmortal
    have hsmall := (hsound.fits a b hb).small
    have hushort : ushort (b.ref + 65535) = b.ref - 1 := by
      unfold ushort
      omega
    rw [if_neg (by omega), nil_append] at hdec
    rw [hushort]
    refine ⟨hdec, fun x c hc hallocated hcnull himmortal => ?_⟩
    by_cases hx : x = a
    · subst hx
      rw [with_block_self hb, some.injEq] at hc
      rw [← hc]
      dsimp only
      omega
    · rw [with_block_ne hx] at hc
      exact h.clean x c hc hallocated hcnull himmortal

theorem kept_dec_ref (hb : m.blocks[a]? = some b) (gone : Nat → Prop) :
    Kept gone m (dec_ref m a) := by
  rw [dec_ref_eq hb]
  exact kept_with_block hb (same_with_ref b _) gone

/-! ## Allocating -/

structure Living (b : block_t) : Prop where
  allocated : b.allocated = true
  type : b.type = .T_ARRAY
  null : b.null = false
  immortal : b.immortal = false
  ref : 0 < b.ref

theorem Living.live_items (h : Living b) : live_items b = b.item :=
  if_pos ⟨h.allocated, Nat.pos_iff_ne_zero.mp h.ref⟩

def with_new (m : memory) (b : block_t) : memory := { m with blocks := m.blocks ++ [b] }

theorem with_new_old (hc : m.blocks[x]? = some c) : (with_new m b).blocks[x]? = some c :=
  (getElem?_append_left (List.getElem?_eq_some_iff.mp hc).1).trans hc

theorem with_new_self (m : memory) (b : block_t) :
    (with_new m b).blocks[m.blocks.length]? = some b := getElem?_concat_length ..

theorem with_new_cases (hc : (with_new m b).blocks[x]? = some c) :
    m.blocks[x]? = some c ∨ x = m.blocks.length ∧ c = b := by
  have hc : (m.blocks ++ [b])[x]? = some c := hc
  rcases Nat.lt_trichotomy x m.blocks.length with hx | rfl | hx
  · rw [getElem?_append_left hx] at hc
    exact .inl hc
  · rw [getElem?_concat_length, some.injEq] at hc
    exact .inr ⟨rfl, hc.symm⟩
  · rw [getElem?_eq_none (by simp; omega)] at hc
    cases hc

theorem kept_with_new (m : memory) (b : block_t) (gone : Nat → Prop) :
    Kept gone m (with_new m b) := by
  refine ⟨rfl, ?_, fun x c hc _ => ⟨c, with_new_old hc, Same.refl c⟩⟩
  exact Nat.le_of_lt (by rw [with_new, length_append]; exact Nat.lt_succ_self _)

theorem total_new (hsound : Sound m held) : total m held m.blocks.length = 0 := by
  by_contra hne
  obtain ⟨b, hb, -⟩ := hsound.points m.blocks.length (by omega)
  simp at hb

theorem total_with_new (held : List svalue_t) (hliving : Living b)
    (hitems : ∀ x, b.item.count (.block x) = l.count (.block x)) (k x : Nat) :
    total (with_new m b) (replicate k (.block m.blocks.length) ++ held) x =
      total m (l ++ held) x + if x = m.blocks.length then k else 0 := by
  have hcount : (replicate k (svalue_t.block m.blocks.length)).count (.block x) =
      if x = m.blocks.length then k else 0 := by
    rw [count_replicate]
    by_cases hx : x = m.blocks.length
    · rw [if_pos hx, if_pos (by rw [hx]; exact beq_self_eq_true _)]
    · rw [if_neg hx, if_neg]
      rw [beq_iff_eq]
      exact fun h => hx (svalue_t.block.inj h).symm
  rw [total_append, total_append, hcount]
  unfold total with_new
  simp only [flatMap_append, count_append, flatMap_cons, flatMap_nil,
    append_nil, hliving.live_items, hitems]
  omega

theorem sound_with_new (h : Sound m (l ++ held)) (hliving : Living b) (hsmall : b.ref ≤ 65535)
    (hitems : ∀ x, b.item.count (.block x) = l.count (.block x)) :
    Sound (with_new m b) (replicate b.ref (.block m.blocks.length) ++ held) := by
  have hnew := total_new h
  have htotal := total_with_new (m := m) held hliving hitems b.ref
  refine ⟨h.dangling, ?_, ?_, ?_⟩
  · intro x c hc
    rw [htotal]
    rcases with_new_cases hc with hc | ⟨rfl, rfl⟩
    · have hlt := (List.getElem?_eq_some_iff.mp hc).1
      rw [if_neg (by omega)]
      exact h.fits x c hc
    · rw [hnew, if_pos rfl]
      refine ⟨hsmall, ?_, ?_, ?_, fun _ _ _ => (Nat.zero_add _).symm⟩
      · rintro (hnull | hno)
        · simp [hliving.null] at hnull
        · rw [hliving.type] at hno
          cases hno
      · simp [hliving.null]
      · simp [hliving.immortal]
  · intro x hpos
    by_cases hx : x = m.blocks.length
    · exact ⟨b, by rw [hx]; exact with_new_self m b, hliving.allocated⟩
    · rw [htotal, if_neg hx] at hpos
      obtain ⟨c, hc, hallocated⟩ := h.points x hpos
      exact ⟨c, with_new_old hc, hallocated⟩
  · intro x hx
    obtain ⟨c, hc, hnull⟩ := h.shared x hx
    exact ⟨c, with_new_old hc, hnull⟩

theorem counted_with_new (h : Counted m (l ++ held)) (hliving : Living b) (hsmall : b.ref ≤ 65535)
    (hitems : ∀ x, b.item.count (.block x) = l.count (.block x)) :
    Counted (with_new m b) (replicate b.ref (.block m.blocks.length) ++ held) := by
  refine ⟨sound_with_new h.sound hliving hsmall hitems, fun x c hc hallocated hnull himmortal => ?_⟩
  rcases with_new_cases hc with hc | ⟨rfl, rfl⟩
  · exact h.clean x c hc hallocated hnull himmortal
  · have := hliving.ref
    omega

theorem living_new_array (n : Nat) : Living (new_array n) :=
  ⟨rfl, rfl, rfl, rfl, Nat.one_pos⟩

theorem count_blocks_replicate (n x : Nat) :
    (replicate n (svalue_t.number 0)).count (.block x) = 0 := by
  rw [count_eq_zero]
  intro hmem
  cases (mem_replicate.mp hmem).2

theorem allocate_empty_array_eq {n : Nat} (hpos : n ≠ 0) (hmax : (n : Int) ≤ max_array_size) :
    allocate_empty_array max_array_size m n =
      (with_new m (new_array n), .ok m.blocks.length) := by
  unfold allocate_empty_array
  rw [if_neg (by omega), if_neg (by omega)]
  rfl

theorem counted_new_array (h : Counted m held) (n : Nat) :
    Counted (with_new m (new_array n)) (.block m.blocks.length :: held) :=
  counted_with_new (l := []) h (living_new_array n) (show 1 ≤ 65535 by omega)
    (count_blocks_replicate n)

/-! ## Copying -/

structure Filled (m m' : memory) (d i : Nat) (l : List svalue_t) : Prop where
  slots : m'.slots = m.slots
  length : m'.blocks.length = m.blocks.length
  block : ∀ (x : Nat) b, m.blocks[x]? = some b → ∃ b', m'.blocks[x]? = some b' ∧
    Same { b with item := if x = d then overwrite b.item i l else b.item } b'

theorem Filled.refl (m : memory) (d i : Nat) : Filled m m d i [] := by
  refine ⟨rfl, rfl, fun x b hb => ⟨b, hb, rfl, ?_, rfl, rfl⟩⟩
  change b.item = if x = d then overwrite b.item i [] else b.item
  rw [overwrite_nil, ite_self]

theorem Filled.kept (h : Filled m m' d i l) : Kept (· = d) m m' := by
  refine ⟨h.slots, Nat.le_of_eq h.length.symm, fun x b hb hx => ?_⟩
  obtain ⟨b', hb', hsame⟩ := h.block x b hb
  rw [if_neg hx] at hsame
  exact ⟨b', hb', hsame⟩

theorem filled_assign {src : place} {n : Int} (hdest : read m (.item d i) = some (.number n))
    (hread : read m src = some v) :
    assign_svalue_no_free m (.item d i) src = some (add_ref (write m v (.item d i)) v) ∧
      ∀ (x : Nat) b, m.blocks[x]? = some b →
        ∃ b', (add_ref (write m v (.item d i)) v).blocks[x]? = some b' ∧
          Same { b with item := if x = d then b.item.set i v else b.item } b' := by
  constructor
  · simp [assign_svalue_no_free, hdest, hread]
  · intro x b hb
    obtain ⟨g, hg, hblock⟩ := add_ref_blocks (write m v (.item d i)) v x
    have hwrite : (write m v (.item d i)).blocks[x]? =
        some { b with item := if x = d then b.item.set i v else b.item } := by
      by_cases hx : x = d
      · subst hx
        rw [write_item_eq hb, with_block_self hb, if_pos rfl]
      · rw [if_neg hx]
        exact (getElem?_modify_ne _ _ fun h => hx h.symm).trans hb
    rw [hwrite, map_some] at hblock
    obtain ⟨hitem, hallocated, htype, hnull⟩ := hg { b with
      item := if x = d then b.item.set i v else b.item }
    exact ⟨_, hblock, htype, hitem, hallocated, hnull⟩

theorem counted_assign (h : Counted m held) {src : place} {n : Int}
    (hdest : read m (.item d i) = some (.number n)) (hread : read m src = some v)
    (hroom : Room m [v]) :
    Counted (add_ref (write m v (.item d i)) v) held ∧
      ∀ x, total (add_ref (write m v (.item d i)) v) held x =
        total m held x + [v].count (.block x) := by
  have hadded : Sound (add_ref m v) (v :: held) := by
    apply sound_add_ref h.sound
    · rintro a rfl
      have hpos := total_of_read h.sound h.clean hread
      obtain ⟨b, hb, hallocated⟩ := h.sound.points a hpos
      exact ⟨b, hb, hallocated, .inr hpos⟩
    · rintro a b rfl hb hstring hnull
      have hpos := total_of_read h.sound h.clean hread
      obtain ⟨c, hc, hallocated⟩ := h.sound.points a hpos
      cases hb.symm.trans hc
      have hle := hroom a b hb hallocated hstring hnull
      rw [count_singleton_self] at hle
      omega
  have hclean := clean_add_ref hadded h.clean
  have hdest' : read (add_ref m v) (.item d i) = some (.number n) := by
    rwa [read_add_ref]
  have hcons : ∀ x, total (add_ref m v) (v :: held) x =
      total (add_ref m v) held x + [v].count (.block x) := total_append _ [v] held
  have hwrite : ∀ x, total (write (add_ref m v) v (.item d i)) held x =
      total (add_ref m v) (v :: held) x := by
    intro x
    have htotal := total_write hadded hclean hdest' v held x
    rw [count_cons_of_ne (by simp), count_nil] at htotal
    rwa [hcons]
  have hsame : ∀ x, total (add_ref m v) held x = total m held x := by
    intro x
    have hafter := total_eq_references ⟨hadded, hclean⟩ x
    have hbefore := total_eq_references h x
    rw [references_add_ref, count_cons] at hafter
    rw [hcons, count_cons, count_nil] at hafter
    omega
  rw [add_ref_write]
  refine ⟨⟨sound_write hadded hwrite, clean_write hclean v _⟩, fun x => ?_⟩
  rw [hwrite, hcons, hsame]

theorem read_write_ne {q : Nat} (h : a ≠ d ∨ q ≠ p) (v : svalue_t) :
    read (write m v (.item d p)) (.item a q) = read m (.item a q) := by
  simp only [reference_counts.read, write, getElem?_modify]
  cases m.blocks[a]? with
  | none => rfl
  | some b =>
    by_cases ha : d = a
    · have hq : p ≠ q := fun hpq => h.elim (fun hne => hne ha.symm) fun hne => hne hpq.symm
      simp [if_pos ha, getElem?_set_ne hq]
    · simp [if_neg ha]

theorem length_of_read (hb : m.blocks[a]? = some b) (h : read m (.item a i) = some v) :
    i < b.item.length := by
  simp only [reference_counts.read, hb] at h
  split_ifs at h
  exact (List.getElem?_eq_some_iff.mp h).1

theorem Filled.back (h : Filled m m' d i l) {b' : block_t} (hb' : m'.blocks[x]? = some b') :
    ∃ b, m.blocks[x]? = some b ∧ b'.type = b.type ∧ b'.null = b.null := by
  have hlt := (List.getElem?_eq_some_iff.mp hb').1
  rw [h.length] at hlt
  obtain ⟨c, hc, hsame⟩ := h.block x _ (getElem?_eq_getElem hlt)
  cases hb'.symm.trans hc
  exact ⟨_, getElem?_eq_getElem hlt, hsame.type, hsame.null⟩

theorem count_item_le (h : Counted m held) (hb : m.blocks[a]? = some b)
    (hallocated : b.allocated = true) (htype : b.type = .T_ARRAY) (x : Nat) :
    b.item.count (.block x) ≤ total m [] x := by
  by_cases hnull : b.null = true
  · rw [(h.sound.fits a b hb).empty (.inl hnull), count_nil]
    exact Nat.zero_le _
  · rw [Bool.not_eq_true] at hnull
    obtain ⟨himmortal, -, href⟩ := ref_of_array h hb hallocated htype hnull
    have hliving : Living b := ⟨hallocated, htype, hnull, himmortal, href⟩
    have htotal := total_with_block hb { b with item := [] } [] x
    rw [hliving.live_items] at htotal
    have hnone : live_items { b with item := [] } = [] := by
      unfold live_items
      exact ite_self _
    rw [hnone, count_nil] at htotal
    omega

theorem total_held (m : memory) (held : List svalue_t) (x : Nat) :
    total m held x = total m [] x + held.count (.block x) := by
  have h := total_append m held [] x
  rwa [append_nil] at h

theorem count_item_new (h : Counted m held) (hb : m.blocks[a]? = some b)
    (hallocated : b.allocated = true) (htype : b.type = .T_ARRAY) :
    b.item.count (.block m.blocks.length) = 0 := by
  have hle := count_item_le h hb hallocated htype m.blocks.length
  have hnew := total_new h.sound
  rw [total_held] at hnew
  omega

theorem Room.after {added : List svalue_t} (hfilled : Filled m m' d i l) (h : Counted m held)
    (h' : Counted m' held) (htotal : ∀ x, total m' held x = total m held x + added.count (.block x))
    {l' : List svalue_t} (hroom : Room m (l' ++ added)) : Room m' l' := by
  intro x b' hb' hallocated hstring hnull
  obtain ⟨b, hb, -, -⟩ := hfilled.back hb'
  obtain ⟨c, hc, hsame⟩ := hfilled.block x b hb
  cases hb'.symm.trans hc
  have hthere : b.allocated = true := hsame.allocated.symm.trans hallocated
  have hother : b.type ≠ .T_STRING := fun h => hstring (hsame.type.trans h)
  have hcounts : b.null = false := hsame.null.symm.trans hnull
  have hle := hroom x b hb hthere hother hcounts
  have href := (ref_of_other h.sound hb hthere hother hcounts).2
  have href' := (ref_of_other h'.sound hb' hallocated hstring hnull).2
  rw [count_append] at hle
  rw [href', htotal, ← href]
  omega

theorem filled_one {n : svalue_t} (hdest : read m (.item d i) = some n)
    (hslots : m'.slots = m.slots) (hlength : m'.blocks.length = m.blocks.length)
    (hblock : ∀ (x : Nat) b, m.blocks[x]? = some b → ∃ b', m'.blocks[x]? = some b' ∧
      Same { b with item := if x = d then b.item.set i v else b.item } b') :
    Filled m m' d i [v] := by
  refine ⟨hslots, hlength, fun x b hb => ?_⟩
  obtain ⟨b', hb', hsame⟩ := hblock x b hb
  refine ⟨b', hb', hsame.type, ?_, hsame.allocated, hsame.null⟩
  rw [hsame.item]
  by_cases hx : x = d
  · subst hx
    have hset := overwrite_set_last (w := []) (length_of_read hb hdest) v
    rw [overwrite_nil] at hset
    rwa [if_pos rfl, if_pos rfl]
  · rw [if_neg hx, if_neg hx]

theorem slots_assign (m : memory) (v : svalue_t) (d i : Nat) :
    (add_ref (write m v (.item d i)) v).slots = m.slots := by
  rw [add_ref_slots]
  rfl

theorem length_assign (m : memory) (v : svalue_t) (d i : Nat) :
    (add_ref (write m v (.item d i)) v).blocks.length = m.blocks.length := by
  have hsame : ∀ m' : memory, (add_ref m' v).blocks.length = m'.blocks.length := by
    intro m'
    cases v with
    | number n => rfl
    | block a =>
      simp only [add_ref]
      split
      · rfl
      · split_ifs
        · rfl
        · exact length_set ..
        · exact length_set ..
  rw [hsame]
  exact length_modify ..

theorem copy_items_spec {s k : Nat} (held l : List svalue_t)
    (hdest : ∀ j, j < l.length → ∃ n, read m (.item d (i + j)) = some (.number n))
    (hsrc : ∀ j, j < l.length → read m (.item s (k + j)) = l[j]?) (hne : s ≠ d ∨ k + l.length ≤ i) :
    ∃ m', copy_some_svalues m (.item d i) (.item s k) l.length = some m' ∧
      Filled m m' d i l ∧
      (Counted m held → Room m l → Counted m' held ∧
        ∀ x, total m' held x = total m held x + l.count (.block x)) := by
  induction l using reverseRecOn generalizing m with
  | nil => exact ⟨m, rfl, Filled.refl m d i, fun h _ => ⟨h, fun _ => rfl⟩⟩
  | append_singleton l v ih =>
    have hlength : (l ++ [v]).length = l.length + 1 := length_append
    obtain ⟨n, hn⟩ := hdest l.length (by omega)
    have hv : read m (.item s (k + l.length)) = some v := by
      rw [hsrc l.length (by omega), getElem?_concat_length]
    obtain ⟨hassign, hblock⟩ := filled_assign hn hv
    let m₁ := add_ref (write m v (.item d (i + l.length))) v
    have hone : Filled m m₁ d (i + l.length) [v] :=
      filled_one hn (slots_assign ..) (length_assign ..) hblock
    have hread : ∀ a q, a ≠ d ∨ q ≠ i + l.length →
        read m₁ (.item a q) = read m (.item a q) := by
      intro a q haq
      rw [read_add_ref, read_write_ne haq]
    obtain ⟨m', hcopy, hfilled, hcounted⟩ := ih (m := m₁)
      (fun j hj => by
        obtain ⟨z, hz⟩ := hdest j (by omega)
        exact ⟨z, (hread _ _ (.inr (by omega))).trans hz⟩)
      (fun j hj => by
        rw [hread _ _ (by omega), hsrc j (by omega), getElem?_append_left hj])
      (by omega)
    refine ⟨m', ?_, ⟨hfilled.slots.trans hone.slots, hfilled.length.trans hone.length, ?_⟩, ?_⟩
    · rwa [hlength, copy_some_svalues, place.add, place.add, hassign]
    · intro x b hb
      obtain ⟨b₁, hb₁, hsame₁⟩ := hone.block x b hb
      obtain ⟨b', hb', hsame⟩ := hfilled.block x b₁ hb₁
      refine ⟨b', hb', hsame.type.trans hsame₁.type, ?_, hsame.allocated.trans hsame₁.allocated,
        hsame.null.trans hsame₁.null⟩
      rw [hsame.item]
      dsimp only
      rw [hsame₁.item]
      by_cases hx : x = d
      · subst hx
        have hlt := length_of_read hb hn
        have hset := overwrite_set_last (w := []) hlt v
        rw [overwrite_nil] at hset
        simp only [if_true]
        rw [← overwrite_set_last hlt, show overwrite b.item (i + l.length) [v] = _ from hset.symm]
        rfl
      · simp [if_neg hx]
    · intro hcount hroom
      obtain ⟨hcount₁, htotal₁⟩ := counted_assign hcount hn hv
        (hroom.mono fun x => by rw [count_append]; omega)
      obtain ⟨hcount', htotal⟩ := hcounted hcount₁ 
        (Room.after hone hcount hcount₁ htotal₁ hroom)
      refine ⟨hcount', fun x => ?_⟩
      rw [htotal, htotal₁, count_append]
      omega

/-! ## Sizes -/

theorem arrays_of_blocks (h : Arrays max_array_size m)
    (hback : ∀ (x : Nat) b', m'.blocks[x]? = some b' → b'.allocated = true → b'.type = .T_ARRAY →
      (∃ b, m.blocks[x]? = some b ∧ b.allocated = true ∧ b.type = .T_ARRAY ∧
        b'.item.length = b.item.length ∧ b'.null = b.null) ∨
      (b'.item.length : Int) ≤ max_array_size ∧ b'.item.length ≤ 65535 ∧ b'.item ≠ [])
    (hnull : ∀ b, m.blocks[0]? = some b → ∃ b', m'.blocks[0]? = some b' ∧ b'.type = b.type ∧
      b'.null = b.null) : Arrays max_array_size m' := by
  constructor
  · obtain ⟨b, hb, htype, hyes⟩ := h.null_array
    obtain ⟨b', hb', htype', hnull'⟩ := hnull b hb
    exact ⟨b', hb', htype'.trans htype, hnull'.trans hyes⟩
  · intro x b' hb' hallocated htype
    rcases hback x b' hb' hallocated htype with ⟨b, hb, hthere, harray, hlength, hsame⟩ |
      ⟨hmax, hsmall, hsome⟩
    · obtain ⟨hmax, hsmall, hempty⟩ := h.sizes x b hb hthere harray
      rw [hlength]
      refine ⟨hmax, hsmall, fun hnil => hsame.trans (hempty ?_)⟩
      rw [hnil] at hlength
      exact eq_nil_of_length_eq_zero hlength.symm
    · exact ⟨hmax, hsmall, fun hnil => absurd hnil hsome⟩

theorem arrays_with_ref (h : Arrays max_array_size m) (hb : m.blocks[a]? = some b) (ref : Nat) :
    Arrays max_array_size (with_block m a { b with ref }) := by
  refine arrays_of_blocks h (fun x b' hb' hallocated htype => .inl ?_) fun c hc => ?_
  · by_cases hx : x = a
    · subst hx
      rw [with_block_self hb, some.injEq] at hb'
      subst hb'
      exact ⟨b, hb, hallocated, htype, rfl, rfl⟩
    · rw [with_block_ne hx] at hb'
      exact ⟨b', hb', hallocated, htype, rfl, rfl⟩
  · by_cases hx : 0 = a
    · subst hx
      cases hb.symm.trans hc
      exact ⟨_, with_block_self hb _, rfl, rfl⟩
    · exact ⟨c, by rw [with_block_ne hx]; exact hc, rfl, rfl⟩

theorem arrays_with_new (h : Arrays max_array_size m)
    (hmax : (b.item.length : Int) ≤ max_array_size) (hsmall : b.item.length ≤ 65535)
    (hsome : b.item ≠ []) : Arrays max_array_size (with_new m b) := by
  refine arrays_of_blocks h (fun x b' hb' hallocated htype => ?_) fun c hc =>
    ⟨c, with_new_old hc, rfl, rfl⟩
  rcases with_new_cases hb' with hb' | ⟨-, rfl⟩
  · exact .inl ⟨b', hb', hallocated, htype, rfl, rfl⟩
  · exact .inr ⟨hmax, hsmall, hsome⟩

theorem arrays_filled (h : Arrays max_array_size m) (hfilled : Filled m m' d i l)
    (hfits : ∀ b, m.blocks[d]? = some b → i + l.length ≤ b.item.length) :
    Arrays max_array_size m' := by
  refine arrays_of_blocks h (fun x b' hb' hallocated htype => .inl ?_) fun c hc => ?_
  · obtain ⟨b, hb, -, -⟩ := hfilled.back hb'
    obtain ⟨c, hc, hsame⟩ := hfilled.block x b hb
    cases hb'.symm.trans hc
    refine ⟨b, hb, hsame.allocated.symm.trans hallocated, hsame.type.symm.trans htype, ?_,
      hsame.null⟩
    rw [hsame.item]
    by_cases hx : x = d
    · subst hx
      simp only [if_true]
      exact length_overwrite (hfits b hb)
    · simp [if_neg hx]
  · obtain ⟨c', hc', hsame⟩ := hfilled.block 0 c hc
    exact ⟨c', hc', hsame.type, hsame.null⟩

structure Ready (max_array_size : Int) (m : memory) (held : List svalue_t) : Prop where
  counted : Counted m held
  arrays : Arrays max_array_size m

theorem Ready.living (h : Ready max_array_size m held) (ha : Operand m a b) (hitems : size b ≠ 0) :
    Living b := by
  have hnull : b.null = false := by
    rw [Bool.eq_false_iff]
    intro hnull
    apply hitems
    rw [(null_of_empty h.arrays ha.block ha.allocated ha.type).1,
      (h.counted.sound.fits a b ha.block).empty (.inl hnull)]
    rfl
  obtain ⟨himmortal, -, href⟩ := ref_of_array h.counted ha.block ha.allocated ha.type hnull
  exact ⟨ha.allocated, ha.type, hnull, himmortal, href⟩

theorem ready_dec_ref (h : Ready max_array_size m (.block a :: held)) (hb : m.blocks[a]? = some b)
    (hallocated : b.allocated = true) (htype : b.type = .T_ARRAY)
    (hmore : b.null = true ∨ 1 < b.ref) : Ready max_array_size (dec_ref m a) held := by
  refine ⟨counted_dec_ref h.counted hb hallocated htype hmore, ?_⟩
  rw [dec_ref_eq hb]
  exact arrays_with_ref h.arrays hb _

/-! ## A copy of an array -/

theorem room_with_new (hroom : Room m l) (hnew : b.ref + l.count (.block m.blocks.length) ≤ 65535) :
    Room (with_new m b) l := by
  intro x c hc hallocated hstring hnull
  rcases with_new_cases hc with hc | ⟨rfl, rfl⟩
  · exact hroom x c hc hallocated hstring hnull
  · exact hnew

/-- A function returns an array, and nothing is lost that another holder sees. -/
structure Returns (max_array_size : Int) (m : memory) (gone : Nat → Prop) (m' : memory) (d : Nat)
    (item held : List svalue_t) : Prop where
  ready : Ready max_array_size m' (.block d :: held)
  array : IsArray m' d item
  kept : Kept gone m m'

theorem array_of_filled (hliving : Living b)
    (hfilled : Filled (with_new m b) m' m.blocks.length i l) :
    IsArray m' m.blocks.length (overwrite b.item i l) := by
  obtain ⟨b', hb', hsame⟩ := hfilled.block m.blocks.length b (with_new_self m b)
  refine ⟨b', hb', hsame.allocated.trans hliving.allocated, hsame.type.trans hliving.type, ?_⟩
  rw [hsame.item]
  exact if_pos rfl

theorem kept_filled_new (hfilled : Filled (with_new m b) m' m.blocks.length i l)
    (gone : Nat → Prop) : Kept gone m m' := by
  refine ((kept_with_new m b gone).trans hfilled.kept).mono ?_
  rintro x hx (hgone | rfl)
  · exact hgone
  · omega

theorem copy_array_spec (h : Ready max_array_size m held) {item : List svalue_t}
    (hp : IsArray m p item) (hroom : Room m item) :
    ∃ m' d, copy_array max_array_size m p = some (m', .ok d) ∧
      Returns max_array_size m (fun _ => False) m' d item held := by
  obtain ⟨b, hb, hallocated, htype, rfl⟩ := hp.there
  have hsize := (null_of_empty h.arrays hb hallocated htype).1
  have hat : array_at m p = some b := array_at_some.mpr ⟨hb, hallocated⟩
  by_cases hempty : b.item.length = 0
  · obtain ⟨z, hz, hztype, hznull⟩ := h.arrays.null_array
    have hfits := h.counted.sound.fits 0 z hz
    refine ⟨m, 0, ?_, ⟨⟨sound_hold_null h.counted.sound hz hznull, h.counted.clean⟩, h.arrays⟩,
      ⟨z, hz, (hfits.null hznull).2, hztype, ?_⟩, Kept.refl _ m⟩
    · obtain ⟨hmax, -, -⟩ := h.arrays.sizes p b hb hallocated htype
      have hallocate : allocate_empty_array max_array_size m (size b) = (m, .ok 0) := by
        unfold allocate_empty_array
        rw [if_neg (by omega), if_pos (by omega)]
      simp only [copy_array, hat, bind_some, hallocate]
      rw [hsize, hempty]
      rfl
    · rw [hfits.empty (.inl hznull), eq_nil_of_length_eq_zero hempty]
  · obtain ⟨hmax, hsmall, -⟩ := h.arrays.sizes p b hb hallocated htype
    have hallocate := allocate_empty_array_eq (m := m) hempty hmax
    have hlt := (List.getElem?_eq_some_iff.mp hb).1
    let m₁ := with_new m (new_array b.item.length)
    have hnew : m₁.blocks[m.blocks.length]? = some (new_array b.item.length) := with_new_self m _
    have hlength : (new_array b.item.length).item.length = b.item.length := length_replicate
    obtain ⟨m', hcopy, hfilled, hcounted⟩ := copy_items_spec (m := m₁) (d := m.blocks.length) (i := 0)
      (s := p) (k := 0) (.block m.blocks.length :: held) b.item
      (fun j hj => ⟨0, by
        rw [read_item hnew rfl, Nat.zero_add]
        exact getElem?_replicate_of_lt hj⟩)
      (fun j hj => by rw [read_item (with_new_old hb) hallocated, Nat.zero_add])
      (.inl (by omega))
    have hcount₁ := counted_new_array h.counted b.item.length
    have hnone := count_item_new h.counted hb hallocated htype
    have hroom₁ : Room m₁ b.item := by
      apply room_with_new hroom
      change 1 + _ ≤ 65535
      omega
    obtain ⟨hcount', -⟩ := hcounted hcount₁ hroom₁
    refine ⟨m', m.blocks.length, ?_, ⟨⟨hcount', ?_⟩, ?_, kept_filled_new hfilled _⟩⟩
    · simp [copy_array, hat, hsize, hallocate, hcopy, m₁]
    · apply arrays_filled _ hfilled
      · intro c hc
        cases hnew.symm.trans hc
        omega
      · apply arrays_with_new h.arrays
        · rwa [hlength]
        · rwa [hlength]
        · intro hnil
          rw [hnil] at hlength
          exact hempty hlength.symm
    · have harray := array_of_filled (living_new_array b.item.length) hfilled
      have hwhole : overwrite (new_array b.item.length).item 0 b.item = b.item :=
        overwrite_rest [] hlength.symm
      rwa [hwhole] at harray

theorem references_dec_ref (hb : m.blocks[a]? = some b) (x : Nat) :
    references (dec_ref m a) x = references m x := by
  have hblock := count_flatMap_set
    (fun b : block_t => if b.allocated = true then b.item else []) (.block x) hb
    { b with ref := ushort (b.ref + 65535) }
  rw [dec_ref_eq hb]
  unfold references with_block
  simp only at hblock ⊢
  omega

theorem room_dec_ref (hroom : Room m l) (hb : m.blocks[a]? = some b)
    (hmore : b.null = true ∨ 0 < b.ref) : Room (dec_ref m a) l := by
  rw [dec_ref_eq hb]
  intro x c hc hallocated hstring hnull
  by_cases hx : x = a
  · subst hx
    rw [with_block_self hb, some.injEq] at hc
    subst hc
    have hnull : b.null = false := hnull
    have hle := hroom x b hb hallocated hstring hnull
    have href : 0 < b.ref := by
      rcases hmore with hyes | href
      · simp [hnull] at hyes
      · exact href
    dsimp only [ushort]
    omega
  · rw [with_block_ne hx] at hc
    exact hroom x c hc hallocated hstring hnull

theorem Returns.of_kept {m₀ : memory} {gone'' : Nat → Prop} {item : List svalue_t}
    (h : Returns max_array_size m gone m' d item held) (hkept : Kept gone' m₀ m)
    (hmore : ∀ x, x < m₀.blocks.length → gone' x ∨ gone x → gone'' x) :
    Returns max_array_size m₀ gone'' m' d item held :=
  ⟨h.ready, h.array, (hkept.trans h.kept).mono hmore⟩

theorem own_array_spec {r : Nat} (h : Ready max_array_size m (.block r :: held))
    (hb : m.blocks[r]? = some b) (hallocated : b.allocated = true) (htype : b.type = .T_ARRAY)
    (hroom : 1 < b.ref → Room m b.item) :
    ∃ m' d, own_array max_array_size m r = some (m', .ok d) ∧
      Returns max_array_size m (fun _ => False) m' d b.item held := by
  have hat : array_at m r = some b := array_at_some.mpr ⟨hb, hallocated⟩
  simp only [own_array, hat, bind_some]
  by_cases href : b.ref > 1
  · rw [if_pos href]
    have hkept := kept_dec_ref hb fun _ => False
    have harray : IsArray m r b.item := ⟨b, hb, hallocated, htype, rfl⟩
    obtain ⟨m', d, hcopy, hreturns⟩ :=
      copy_array_spec (ready_dec_ref h hb hallocated htype (.inr href))
        (harray.of_same hkept id) (room_dec_ref (hroom href) hb (.inr (by omega)))
    exact ⟨m', d, hcopy, hreturns.of_kept hkept fun _ _ hno => hno.elim id id⟩
  · rw [if_neg href]
    exact ⟨m, r, rfl, h, ⟨b, hb, hallocated, htype, rfl⟩, Kept.refl _ m⟩

/-! ## Resizing -/

theorem total_release (hb : m.blocks[p]? = some b) (hliving : Living b) (held : List svalue_t)
    (x : Nat) : total (FREE m p) (b.item ++ held) x = total m held x := by
  have hblock := total_with_block hb { b with allocated := false } held x
  have hdead : live_items { b with allocated := false } = [] :=
    if_neg fun hand => by cases hand.1
  rw [hliving.live_items, hdead, count_nil] at hblock
  rwa [total_append, FREE_eq hb]

theorem counted_release (h : Counted m (replicate b.ref (.block p) ++ held))
    (hb : m.blocks[p]? = some b) (hliving : Living b) : Counted (FREE m p) (b.item ++ held) := by
  obtain ⟨-, href, -⟩ := ref_of_array h hb hliving.allocated hliving.type hliving.null
  rw [total_append, count_replicate_self] at href
  have htotal : ∀ x, total (with_block m p { b with allocated := false }) (b.item ++ held) x =
      total m held x := by
    intro x
    rw [← FREE_eq hb]
    exact total_release hb hliving held x
  have hother : ∀ x, x ≠ p → total m (replicate b.ref (.block p) ++ held) x =
      total m held x := by
    intro x hx
    rw [total_append, count_replicate, if_neg]
    · exact Nat.add_zero _
    · rw [beq_iff_eq]
      exact fun heq => hx (svalue_t.block.inj heq).symm
  have hfits := h.sound.fits p b hb
  rw [FREE_eq hb]
  constructor
  · apply sound_with_block h.sound hb
    · intro x hx
      rw [htotal, hother x hx]
    · refine { hfits with null := ?_, immortal := ?_, counted := ?_ }
      · simp [hliving.null]
      · simp [hliving.immortal]
      · nofun
    · intro hpos
      rw [htotal] at hpos
      omega
    · rfl
  · intro x c hc hallocated hnull himmortal
    by_cases hx : x = p
    · subst hx
      rw [with_block_self hb, some.injEq] at hc
      subst hc
      cases hallocated
    · rw [with_block_ne hx] at hc
      exact h.clean x c hc hallocated hnull himmortal

theorem length_FREE (m : memory) (p : Nat) : (FREE m p).blocks.length = m.blocks.length :=
  length_modify ..

theorem FREE_ne (hx : x ≠ p) : (FREE m p).blocks[x]? = m.blocks[x]? :=
  getElem?_modify_ne _ _ fun h => hx h.symm

theorem FREE_self (hb : m.blocks[p]? = some b) :
    (FREE m p).blocks[p]? = some { b with allocated := false } := by
  rw [FREE_eq hb]
  exact with_block_self hb _

theorem FREE_allocated (hc : (FREE m p).blocks[x]? = some c) (hallocated : c.allocated = true) :
    m.blocks[x]? = some c ∧ x ≠ p := by
  by_cases hx : x = p
  · subst hx
    have hlt := (List.getElem?_eq_some_iff.mp hc).1
    rw [length_FREE] at hlt
    cases (FREE_self (getElem?_eq_getElem hlt)).symm.trans hc
    cases hallocated
  · rw [FREE_ne hx] at hc
    exact ⟨hc, hx⟩

theorem kept_FREE (m : memory) (p : Nat) : Kept (· = p) m (FREE m p) := by
  refine ⟨rfl, Nat.le_of_eq (length_FREE m p).symm, fun x b hb hx => ⟨b, ?_, Same.refl b⟩⟩
  rwa [FREE_ne hx]

theorem room_FREE (hroom : Room m l) (p : Nat) : Room (FREE m p) l := by
  intro x c hc hallocated
  exact hroom x c (FREE_allocated hc hallocated).1 hallocated

theorem arrays_FREE (h : Arrays max_array_size m) (p : Nat) : Arrays max_array_size (FREE m p) := by
  refine arrays_of_blocks h (fun x c hc hallocated htype => .inl ?_) fun c hc => ?_
  · exact ⟨c, (FREE_allocated hc hallocated).1, hallocated, htype, rfl, rfl⟩
  · by_cases hx : 0 = p
    · subst hx
      exact ⟨_, FREE_self hc, rfl, rfl⟩
    · exact ⟨c, (FREE_ne hx).trans hc, rfl, rfl⟩

def resized (b : block_t) (nelem : Nat) : block_t :=
  { b with item := b.item ++ replicate (nelem - b.item.length) (.number 0) }

theorem resize_spec {res : Nat}
    (h : Ready max_array_size m (replicate b.ref (.block p) ++ held))
    (hb : m.blocks[p]? = some b) (hliving : Living b) (hmore : b.item.length ≤ res)
    (hmax : (res : Int) ≤ max_array_size) (hsmall : res ≤ 65535) (hpos : 0 < res) :
    RESIZE_ARRAY m p res = some (with_new (FREE m p) (resized b res), m.blocks.length) ∧
      Ready max_array_size (with_new (FREE m p) (resized b res))
        (replicate b.ref (.block m.blocks.length) ++ held) ∧
      Kept (· = p) m (with_new (FREE m p) (resized b res)) := by
  have hlength : (resized b res).item.length = res := by
    simp only [resized, length_append, length_replicate]
    omega
  have hnew := counted_with_new (b := resized b res) (counted_release h.counted hb hliving)
    ⟨hliving.allocated, hliving.type, hliving.null, hliving.immortal, hliving.ref⟩
    (h.counted.sound.fits p b hb).small
    (fun x => by
      simp only [resized, count_append, count_blocks_replicate]
      omega)
  rw [length_FREE] at hnew
  refine ⟨?_, ⟨hnew, ?_⟩, ?_⟩
  · have hat : array_at m p = some b := array_at_some.mpr ⟨hb, hliving.allocated⟩
    have hnull : ¬ b.null = true := by
      rw [hliving.null]
      decide
    simp only [RESIZE_ARRAY, hat, bind_some]
    rw [if_neg hnull, take_of_length_le hmore, length_FREE]
    rfl
  · apply arrays_with_new (arrays_FREE h.arrays p)
    · rwa [hlength]
    · rwa [hlength]
    · intro hnil
      rw [hnil] at hlength
      exact absurd hlength (by simp only [length_nil]; omega)
  · refine ((kept_FREE m p).trans (kept_with_new _ _ fun x => x = p)).mono ?_
    rintro x - (hx | hx) <;> exact hx

theorem living_resized (h : Living b) (nelem : Nat) : Living (resized b nelem) :=
  ⟨h.allocated, h.type, h.null, h.immortal, h.ref⟩

theorem resized_free {nelem j : Nat} (hj : j < nelem - b.item.length) :
    (resized b nelem).item[b.item.length + j]? = some (.number 0) := by
  simp only [resized]
  rw [getElem?_append_right (Nat.le_add_right ..), Nat.add_sub_cancel_left]
  exact getElem?_replicate_of_lt hj

end mudos.array_blocks
