-- An array that is added to another one is changed only where nothing else refers to it, and every
-- block keeps a count of its references.
import MudOS.ArrayBlockLaws

open mudos.reference_counts List Option
open mudos.windows

namespace mudos.array_blocks

variable {m : memory} {held : List svalue_t}
variable {max_array_size : Int} {b : block_t} {d : Nat}
variable {p r : Nat}

/-! ## Concatenation -/

theorem append_to_itself_spec (h : Ready max_array_size m (.block p :: .block p :: held))
    (hb : m.blocks[p]? = some b) (hliving : Living b) (href : b.ref = 2) (hpos : 0 < b.item.length)
    (hmax : ((b.item.length + b.item.length : Nat) : Int) ≤ max_array_size)
    (hsmall : b.item.length + b.item.length ≤ 65535) (hroom : Room m b.item) :
    ∃ m' d, append_to_itself m p b.item.length = some (m', d) ∧
      Returns max_array_size m (· = p) m' d (b.item ++ b.item) held := by
  have hheld : (svalue_t.block p :: .block p :: held) =
      replicate b.ref (.block p) ++ held := by
    rw [href]
    rfl
  rw [hheld] at h
  obtain ⟨hresize, hready, hkept⟩ := resize_spec h hb hliving (Nat.le_add_left ..) hmax hsmall
    (by omega)
  let m₁ := with_new (FREE m p) (resized b (b.item.length + b.item.length))
  have hnew : m₁.blocks[m.blocks.length]? =
      some (resized b (b.item.length + b.item.length)) := by
    rw [← length_FREE m p]
    exact with_new_self _ _
  have hnone := count_item_new h.counted hb hliving.allocated hliving.type
  have hroom₁ : Room m₁ b.item := by
    apply room_with_new (room_FREE hroom p)
    rw [length_FREE]
    change b.ref + _ ≤ 65535
    omega
  obtain ⟨m', hcopy, hfilled, hcounted⟩ := copy_items_spec (m := m₁) (d := m.blocks.length)
    (i := b.item.length) (s := m.blocks.length) (k := 0)
    (replicate b.ref (.block m.blocks.length) ++ held) b.item
    (fun j hj => ⟨0, by
      rw [read_item hnew hliving.allocated]
      exact resized_free (by omega)⟩)
    (fun j hj => by
      rw [read_item hnew hliving.allocated, Nat.zero_add]
      exact getElem?_append_left hj)
    (.inr (by omega))
  obtain ⟨hcount, htotal⟩ := hcounted hready.counted hroom₁
  obtain ⟨b', hb', hsame⟩ := hfilled.block m.blocks.length _ hnew
  rw [if_pos rfl] at hsame
  have hallocated : b'.allocated = true := hsame.allocated.trans hliving.allocated
  have htype : b'.type = .T_ARRAY := hsame.type.trans hliving.type
  have hnull : b'.null = false := hsame.null.trans hliving.null
  have hitem : b'.item = b.item ++ b.item := by
    rw [hsame.item]
    exact overwrite_rest b.item (by rw [length_replicate]; omega)
  have harrays : Arrays max_array_size m' := by
    apply arrays_filled hready.arrays hfilled
    intro c hc
    cases hnew.symm.trans hc
    simp only [resized, length_append, length_replicate]
    omega
  -- no item is the block itself, so the count is still that of the two operands
  have href' : b'.ref = 2 := by
    have hbefore := (ref_of_array hready.counted hnew hliving.allocated hliving.type
      hliving.null).2.1
    have hafter := (ref_of_array hcount hb' hallocated htype hnull).2.1
    rw [htotal, ← hbefore] at hafter
    rw [hafter, show (resized b _).ref = 2 from href]
    omega
  have hset : set_ref m' m.blocks.length 1 = dec_ref m' m.blocks.length := by
    rw [set_ref_eq hb', dec_ref_eq hb', href']
    rfl
  refine ⟨set_ref m' m.blocks.length 1, m.blocks.length, ?_, ?_⟩
  · simp only [append_to_itself, hresize, bind_some]
    rw [show copy_some_svalues _ _ _ _ = some m' from hcopy]
    rfl
  · rw [hset]
    have hready' : Ready max_array_size m'
        (.block m.blocks.length :: .block m.blocks.length :: held) := by
      refine ⟨?_, harrays⟩
      rwa [href] at hcount
    have hkept' := kept_dec_ref (m := m') hb' fun _ => False
    have harray : IsArray m' m.blocks.length (b.item ++ b.item) :=
      ⟨b', hb', hallocated, htype, hitem⟩
    refine ⟨ready_dec_ref hready' hb' hallocated htype (.inr (by omega)),
      harray.of_same hkept' id, ?_⟩
    refine ((hkept.trans hfilled.kept).trans hkept').mono ?_
    rintro x hx ((rfl | rfl) | hno)
    · rfl
    · omega
    · exact hno.elim

/-- A new array has the items of the first operand and room for those of the second one. -/
structure Destination (max_array_size : Int) (m : memory) (gone : Nat → Prop) (m' : memory)
    (first copies : List svalue_t) (n : Nat) (held : List svalue_t) : Prop where
  total : ∀ x, total m' held x = total m held x + copies.count (.block x)
  ready : Ready max_array_size m' (.block m.blocks.length :: held)
  kept : Kept gone m m'
  block : ∃ b, m'.blocks[m.blocks.length]? = some b ∧ Living b ∧
    b.item = first ++ replicate n (.number 0)

theorem destination_spec {n : Nat} (h : Ready max_array_size m (.block p :: held))
    (hb : m.blocks[p]? = some b) (hliving : Living b) (hpos : 0 < n)
    (hmax : ((b.item.length + n : Nat) : Int) ≤ max_array_size) (hsmall : b.item.length + n ≤ 65535)
    {l : List svalue_t} (hnew : l.count (.block m.blocks.length) = 0)
    (hroom : Room m (l ++ if b.ref = 1 then [] else b.item)) :
    ∃ m', destination max_array_size m p b.item.length (b.item.length + n) (b.ref = 1) =
        some (m', .ok m.blocks.length) ∧
      Destination max_array_size m (fun x => x = p ∧ b.ref = 1) m' b.item
        (if b.ref = 1 then [] else b.item) n held ∧ Room m' l := by
  by_cases href : b.ref = 1
  · have hheld : (svalue_t.block p :: held) = replicate b.ref (.block p) ++ held := by
      rw [href]
      rfl
    rw [hheld] at h
    obtain ⟨hresize, hready, hkept⟩ := resize_spec h hb hliving (Nat.le_add_right ..) hmax hsmall
      (by omega)
    refine ⟨with_new (FREE m p) (resized b (b.item.length + n)), ?_, ⟨fun x => ?_, ?_, ?_, ?_⟩, ?_⟩
    · unfold destination
      rw [if_pos (decide_eq_true href), hresize]
      rfl
    · have hnew := total_with_new (m := FREE m p) (l := b.item) held
        (living_resized hliving (b.item.length + n))
        (fun x => by
          simp only [resized, count_append, count_blocks_replicate]
          omega) 0 x
      rw [total_release hb hliving, ite_self, Nat.add_zero] at hnew
      rwa [if_pos href, count_nil]
    · rwa [href] at hready
    · exact hkept.mono fun x _ hx => ⟨hx, href⟩
    · refine ⟨resized b (b.item.length + n), ?_, living_resized hliving _, ?_⟩
      · rw [← length_FREE m p]
        exact with_new_self _ _
      · simp [resized]
    · apply room_with_new
      · apply room_FREE
        exact hroom.mono fun x => by rw [count_append]; omega
      · rw [length_FREE, hnew, show (resized b _).ref = 1 from href]
        omega
  · rw [if_neg href] at hroom
    have hallocate := allocate_empty_array_eq (m := m) (n := b.item.length + n) (by omega) hmax
    let m₁ := with_new m (new_array (b.item.length + n))
    have hself : m₁.blocks[m.blocks.length]? = some (new_array (b.item.length + n)) :=
      with_new_self m _
    have hlt := (List.getElem?_eq_some_iff.mp hb).1
    have hnone := count_item_new h.counted hb hliving.allocated hliving.type
    have hcount₁ := counted_new_array h.counted (b.item.length + n)
    have hroom₁ : Room m₁ (l ++ b.item) := by
      apply room_with_new hroom
      rw [count_append]
      change 1 + _ ≤ 65535
      omega
    have hlength : (new_array (b.item.length + n)).item.length = b.item.length + n :=
      length_replicate
    obtain ⟨m₂, hcopy, hfilled, hcounted⟩ := copy_items_spec (m := m₁) (d := m.blocks.length) (i := 0)
      (s := p) (k := 0) (.block m.blocks.length :: .block p :: held) b.item
      (fun j hj => ⟨0, by
        rw [read_item hself rfl, Nat.zero_add]
        exact getElem?_replicate_of_lt (by omega)⟩)
      (fun j hj => by rw [read_item (with_new_old hb) hliving.allocated, Nat.zero_add])
      (.inl (by omega))
    obtain ⟨hcount₂, htotal⟩ := hcounted hcount₁
      (hroom₁.mono fun x => by rw [count_append]; omega)
    have hroom₂ := Room.after hfilled hcount₁ hcount₂ htotal hroom₁
    -- the block of the operand is the same but for its count, which is not less
    obtain ⟨b₂, hb₂, hsame⟩ := hfilled.block p b (with_new_old hb)
    rw [if_neg (by omega)] at hsame
    have hallocated₂ := hsame.allocated.trans hliving.allocated
    have htype₂ := hsame.type.trans hliving.type
    have hnull₂ := hsame.null.trans hliving.null
    have href₂ : 1 < b₂.ref := by
      have hafter := (ref_of_array hcount₂ hb₂ hallocated₂ htype₂ hnull₂).2.1
      have hmiddle := (ref_of_array hcount₁ (with_new_old hb) hliving.allocated hliving.type
        hliving.null).2.1
      have hpos := hliving.ref
      rw [htotal, ← hmiddle] at hafter
      omega
    have harrays₂ : Arrays max_array_size m₂ := by
      apply arrays_filled _ hfilled
      · intro c hc
        cases hself.symm.trans hc
        rw [hlength, Nat.zero_add]
        exact Nat.le_add_right ..
      · apply arrays_with_new h.arrays
        · rwa [hlength]
        · rwa [hlength]
        · intro hnil
          rw [hnil] at hlength
          have hlength : 0 = b.item.length + n := hlength
          omega
    have hready₂ : Ready max_array_size m₂ (.block p :: .block m.blocks.length :: held) :=
      ⟨hcount₂.perm (List.Perm.swap ..), harrays₂⟩
    have hkept₂ := kept_dec_ref hb₂ fun _ => False
    have hready₃ := ready_dec_ref hready₂ hb₂ hallocated₂ htype₂ (.inr href₂)
    have htotal₃ : ∀ x, total (dec_ref m₂ p) held x = total m held x + b.item.count (.block x) := by
      intro x
      have hnew : total m₁ held x = total m held x := by
        have hnew := total_with_new (m := m) (l := []) held
          (living_new_array (b.item.length + n)) (count_blocks_replicate _) 0 x
        rwa [ite_self, Nat.add_zero] at hnew
      have hcopied : total m₂ held x = total m₁ held x + b.item.count (.block x) := by
        have hcopied := htotal x
        have hheld₁ := total_append m₁ [.block m.blocks.length, .block p] held x
        have hheld₂ := total_append m₂ [.block m.blocks.length, .block p] held x
        simp only [cons_append, nil_append] at hheld₁ hheld₂
        omega
      have hdec : total (dec_ref m₂ p) held x = total m₂ held x := by
        rw [total_rest (l := [.block m.blocks.length]) hready₃.counted,
          total_rest (l := [.block m.blocks.length, .block p]) hcount₂, references_dec_ref hb₂]
      rw [hdec, hcopied, hnew]
    refine ⟨dec_ref m₂ p, ?_, ⟨?_, hready₃, ?_, ?_⟩, room_dec_ref hroom₂ hb₂ (.inr (by omega))⟩
    · unfold destination
      rw [if_neg (fun h => href (of_decide_eq_true h)), hallocate]
      simp only
      rw [show copy_some_svalues _ _ _ _ = some m₂ from hcopy]
      rfl
    · rwa [if_neg href]
    · refine ((kept_filled_new hfilled fun _ => False).trans hkept₂).mono ?_
      rintro x - (hno | hno) <;> exact hno.elim
    · obtain ⟨c, hc, hsame'⟩ := hfilled.block m.blocks.length _ hself
      rw [if_pos rfl] at hsame'
      obtain ⟨c', hc', hsame''⟩ := hkept₂.block _ c hc id
      have hwhole := hsame'.trans hsame''
      have hitem : c'.item = b.item ++ replicate n (.number 0) := by
        rw [hwhole.item]
        simp [overwrite, new_array]
      refine ⟨c', hc', ?_, hitem⟩
      obtain ⟨himmortal, -, hpos⟩ := ref_of_array
        (ready_dec_ref hready₂ hb₂ hallocated₂ htype₂ (.inr href₂)).counted hc'
        hwhole.allocated hwhole.type hwhole.null
      exact ⟨hwhole.allocated, hwhole.type, hwhole.null, himmortal, hpos⟩

theorem move_items_spec {i s k : Nat} (hb : m.blocks[d]? = some b) (hthere : b.allocated = true)
    (l : List svalue_t) (hdest : i + l.length ≤ b.item.length)
    (hsrc : ∀ j, j < l.length → read m (.item s (k + j)) = l[j]?) (hne : s ≠ d) :
    move_some_svalues m (.item d i) (.item s k) l.length =
      some (with_block m d { b with item := overwrite b.item i l }) := by
  induction l using List.reverseRecOn generalizing m b with
  | nil =>
    rw [overwrite_nil]
    have hsame : with_block m d b = m := by
      obtain ⟨hlt, hget⟩ := List.getElem?_eq_some_iff.mp hb
      unfold with_block
      rw [← hget, set_getElem_self]
    exact congrArg some hsame.symm
  | append_singleton l v ih =>
    have hlength : (l ++ [v]).length = l.length + 1 := length_append
    have hlt : i + l.length < b.item.length := by omega
    have hv : read m (.item s (k + l.length)) = some v := by
      rw [hsrc l.length (by omega), getElem?_concat_length]
    have hold : read m (.item d (i + l.length)) = some b.item[i + l.length] := by
      rw [read_item hb hthere]
      exact getElem?_eq_getElem hlt
    have hcopy : copy_svalue m (.item d (i + l.length)) (.item s (k + l.length)) =
        some (with_block m d { b with item := b.item.set (i + l.length) v }) := by
      simp [copy_svalue, hold, hv, write_item_eq hb]
    have hnext := ih (m := with_block m d { b with item := b.item.set (i + l.length) v })
      (with_block_self hb _) hthere
      (by
        dsimp only
        rw [length_set]
        omega)
      (fun j hj => by
        rw [← write_item_eq hb, read_write_ne (.inl hne), hsrc j (by omega),
          getElem?_append_left hj])
    rw [hlength, move_some_svalues, place.add, place.add, hcopy, bind_some, hnext,
      with_block_with_block, ← overwrite_set_last hlt]

theorem counted_fill {l : List svalue_t} (item : List svalue_t) (h : Counted m (l ++ held))
    (hb : m.blocks[d]? = some b) (hliving : Living b)
    (hitems : ∀ x, item.count (.block x) = b.item.count (.block x) + l.count (.block x)) :
    Counted (with_block m d { b with item }) held := by
  have hafter : Living { b with item } :=
    ⟨hliving.allocated, hliving.type, hliving.null, hliving.immortal, hliving.ref⟩
  have htotal : ∀ x, total (with_block m d { b with item }) held x = total m (l ++ held) x := by
    intro x
    have hblock := total_with_block hb { b with item } held x
    rw [hliving.live_items, hafter.live_items, hitems] at hblock
    rw [total_append]
    omega
  have hfits := h.sound.fits d b hb
  constructor
  · apply sound_with_block h.sound hb (fun x _ => htotal x)
    · rw [htotal]
      refine { hfits with empty := ?_ }
      rintro (hnull | hno)
      · have hnull : b.null = true := hnull
        rw [hliving.null] at hnull
        cases hnull
      · have hno : has_items b.type = false := hno
        rw [hliving.type] at hno
        cases hno
    · exact fun _ => hliving.allocated
    · rfl
  · intro x c hc hallocated hnull himmortal
    by_cases hx : x = d
    · subst hx
      rw [with_block_self hb, some.injEq] at hc
      subst hc
      exact Nat.pos_iff_ne_zero.mp hliving.ref
    · rw [with_block_ne hx] at hc
      exact h.clean x c hc hallocated hnull himmortal

theorem FREE_with_block (hne : d ≠ r) {c : block_t} (hc : m.blocks[r]? = some c) (b : block_t) :
    FREE (with_block m d b) r = with_block (FREE m r) d b := by
  have hc' : (with_block m d b).blocks[r]? = some c := (with_block_ne hne.symm b).trans hc
  rw [FREE_eq hc', FREE_eq hc]
  simp only [with_block]
  rw [set_comm _ _ hne]

theorem append_source_spec {c : block_t} {first : List svalue_t}
    (h : Ready max_array_size m (.block d :: .block r :: held)) (hb : m.blocks[d]? = some b)
    (hliving : Living b) (hc : m.blocks[r]? = some c) (hsource : Living c) (hne : r ≠ d)
    (hitem : b.item = first ++ replicate c.item.length (.number 0))
    (hroom : c.ref ≠ 1 → Room m c.item) :
    ∃ m', append_source m d first.length r = some m' ∧
      Returns max_array_size m (fun x => x = d ∨ x = r ∧ c.ref = 1) m' d (first ++ c.item)
        held := by
  have hat : array_at m r = some c := array_at_some.mpr ⟨hc, hsource.allocated⟩
  have hsize := (null_of_empty h.arrays hc hsource.allocated hsource.type).1
  have hlength : b.item.length = first.length + c.item.length := by
    rw [hitem, length_append, length_replicate]
  have hread : ∀ j, j < c.item.length → read m (.item r (0 + j)) = c.item[j]? := by
    intro j _
    rw [read_item hc hsource.allocated, Nat.zero_add]
  have hover : overwrite b.item first.length c.item = first ++ c.item := by
    rw [hitem]
    exact overwrite_rest first length_replicate.symm
  simp only [append_source, hat, bind_some, hsize]
  by_cases href : c.ref = 1
  · have hmove := move_items_spec hb hliving.allocated c.item (Nat.le_of_eq hlength.symm) hread hne
    rw [hover] at hmove
    rw [if_pos href, hmove]
    refine ⟨_, rfl, ?_⟩
    simp only
    rw [FREE_with_block hne.symm hc]
    have hheld : Counted m (replicate c.ref (.block r) ++ .block d :: held) := by
      rw [href]
      exact h.counted.perm (List.Perm.swap ..)
    have hb' : (FREE m r).blocks[d]? = some b := (FREE_ne hne.symm).trans hb
    have hcount := counted_fill (first ++ c.item) (counted_release hheld hc hsource) hb' hliving (fun x => by
        rw [hitem]
        simp only [count_append, count_blocks_replicate, Nat.add_zero])
    refine ⟨⟨hcount, ?_⟩, ⟨_, with_block_self hb' _, hliving.allocated, hliving.type, rfl⟩, ?_⟩
    · refine arrays_of_blocks (arrays_FREE h.arrays r) (fun x z hz hallocated htype => .inl ?_)
        fun z hz => ?_
      · by_cases hx : x = d
        · subst hx
          rw [with_block_self hb', some.injEq] at hz
          subst hz
          refine ⟨b, hb', hallocated, htype, ?_, rfl⟩
          simp only [length_append]
          omega
        · rw [with_block_ne hx] at hz
          exact ⟨z, hz, hallocated, htype, rfl, rfl⟩
      · by_cases hx : 0 = d
        · subst hx
          cases hb'.symm.trans hz
          exact ⟨_, with_block_self hb' _, rfl, rfl⟩
        · exact ⟨z, (with_block_ne hx _).trans hz, rfl, rfl⟩
    · refine ⟨rfl, Nat.le_of_eq ?_, fun x z hz hnot => ⟨z, ?_, Same.refl z⟩⟩
      · exact ((length_set ..).trans (length_FREE m r)).symm
      · have hxd : x ≠ d := fun hx => hnot (.inl hx)
        have hxr : x ≠ r := fun hx => hnot (.inr ⟨hx, href⟩)
        rwa [with_block_ne hxd, FREE_ne hxr]
  · obtain ⟨m₁, hcopy, hfilled, hcounted⟩ := copy_items_spec (m := m) (d := d) (i := first.length)
      (s := r) (k := 0) (.block d :: .block r :: held) c.item
      (fun j hj => ⟨0, by
        rw [read_item hb hliving.allocated, hitem, getElem?_append_right (Nat.le_add_right ..),
          Nat.add_sub_cancel_left]
        exact getElem?_replicate_of_lt hj⟩)
      hread (.inl hne)
    obtain ⟨hcount₁, htotal⟩ := hcounted h.counted (hroom href)
    obtain ⟨c₁, hc₁, hsame⟩ := hfilled.block r c hc
    rw [if_neg hne] at hsame
    have hallocated₁ := hsame.allocated.trans hsource.allocated
    have htype₁ := hsame.type.trans hsource.type
    have hnull₁ := hsame.null.trans hsource.null
    have href₁ : 1 < c₁.ref := by
      have hbefore := (ref_of_array h.counted hc hsource.allocated hsource.type hsource.null).2.1
      have hafter := (ref_of_array hcount₁ hc₁ hallocated₁ htype₁ hnull₁).2.1
      have hpos := hsource.ref
      rw [htotal, ← hbefore] at hafter
      omega
    have harrays₁ : Arrays max_array_size m₁ := by
      apply arrays_filled h.arrays hfilled
      intro z hz
      cases hb.symm.trans hz
      exact Nat.le_of_eq hlength.symm
    have hready₁ : Ready max_array_size m₁ (.block r :: .block d :: held) :=
      ⟨hcount₁.perm (List.Perm.swap ..), harrays₁⟩
    have hkept₁ := kept_dec_ref hc₁ fun _ => False
    obtain ⟨b₁, hb₁, hsame₁⟩ := hfilled.block d b hb
    rw [if_pos rfl, hover] at hsame₁
    have harray : IsArray m₁ d (first ++ c.item) :=
      ⟨b₁, hb₁, hsame₁.allocated.trans hliving.allocated, hsame₁.type.trans hliving.type,
        hsame₁.item⟩
    rw [if_neg href, hcopy]
    refine ⟨dec_ref m₁ r, rfl, ready_dec_ref hready₁ hc₁ hallocated₁ htype₁ (.inr href₁),
      harray.of_same hkept₁ id, (hfilled.kept.trans hkept₁).mono ?_⟩
    rintro x - (hx | hno)
    · exact .inl hx
    · exact hno.elim

def copied (p r : Nat) (bp br : block_t) : List svalue_t :=
  if p = r ∧ bp.ref = 2 then bp.item
  else (if bp.ref ≤ 1 then [] else bp.item) ++ if br.ref ≤ 1 then [] else br.item

/-- The references of the operands have gone, there is one to the result, every count is right, and
nothing that another holder sees has changed. -/
structure Added (max_array_size : Int) (m m' : memory) (d : Nat) (item held : List svalue_t) :
    Prop where
  array : IsArray m' d item
  ready : Ready max_array_size m' (.block d :: held)
  slots : m'.slots = m.slots
  others : ∀ (x : Nat) b, m.blocks[x]? = some b → 0 < total m held x →
    ∃ b', m'.blocks[x]? = some b' ∧ Same b b'

theorem Returns.added {gone : Nat → Prop} {m' : memory} {item : List svalue_t}
    (h : Returns max_array_size m gone m' d item held)
    (hgone : ∀ x, x < m.blocks.length → gone x → total m held x = 0) :
    Added max_array_size m m' d item held := by
  refine ⟨h.array, h.ready, h.kept.slots, fun x b hb hpos => h.kept.block x b hb fun hx => ?_⟩
  have := hgone x (List.getElem?_eq_some_iff.mp hb).1 hx
  omega

theorem general_spec {bp br : block_t} (h : Ready max_array_size m (.block p :: .block r :: held))
    (hp : m.blocks[p]? = some bp) (hr : m.blocks[r]? = some br) (htarget : Living bp)
    (hsource : Living br) (hitems : 0 < br.item.length) (hfirst : p = r → bp.ref ≠ 2)
    (hmax : ((bp.item.length + br.item.length : Nat) : Int) ≤ max_array_size)
    (hsmall : bp.item.length + br.item.length ≤ 65535)
    (hroom : Room m ((if bp.ref ≤ 1 then [] else bp.item) ++ if br.ref ≤ 1 then [] else br.item)) :
    ∃ m₁ m₂ d, destination max_array_size m p bp.item.length (bp.item.length + br.item.length)
        (bp.ref = 1) = some (m₁, .ok d) ∧
      append_source m₁ d bp.item.length r = some m₂ ∧
      Added max_array_size m m₂ d (bp.item ++ br.item) held := by
  have hreft := (ref_of_array h.counted hp htarget.allocated htarget.type htarget.null).2.1
  have hrefs := (ref_of_array h.counted hr hsource.allocated hsource.type hsource.null).2.1
  have hheld : ∀ x, total m (.block p :: .block r :: held) x =
      total m held x + [svalue_t.block p, .block r].count (.block x) :=
    total_append m [.block p, .block r] held
  -- as long as the operands are held, one array has two references
  have hsole : bp.ref = 1 → r ≠ p := by
    rintro hone rfl
    rw [hheld, count_cons_self, count_singleton_self] at hreft
    omega
  have hlow : ∀ {b : block_t} {l : List svalue_t}, Living b →
      (if b.ref ≤ 1 then [] else l) = if b.ref = 1 then [] else l := by
    intro b l hliving
    have hpos := hliving.ref
    by_cases hone : b.ref = 1
    · rw [if_pos hone, if_pos (by omega)]
    · rw [if_neg hone, if_neg (by omega)]
  rw [hlow htarget, hlow hsource] at hroom
  have hnone := count_item_new h.counted hr hsource.allocated hsource.type
  obtain ⟨m₁, hdest, hdestination, hroom₁⟩ := destination_spec
    (l := if br.ref = 1 then [] else br.item) h hp htarget hitems hmax hsmall
    (by
      split_ifs
      · rfl
      · omega)
    (hroom.mono fun x => by
      simp only [count_append]
      omega)
  obtain ⟨b, hb, hliving, hitem⟩ := hdestination.block
  have hlt := (List.getElem?_eq_some_iff.mp hr).1
  obtain ⟨c, hc, hsame⟩ := hdestination.kept.block r br hr fun hgone => hsole hgone.2 hgone.1
  have hthere := hsame.allocated.trans hsource.allocated
  have htype := hsame.type.trans hsource.type
  have hnull := hsame.null.trans hsource.null
  obtain ⟨himmortal, hrefc, hpos⟩ := ref_of_array hdestination.ready.counted hc hthere htype hnull
  -- what the copies of the items are to the second operand
  have hcount : c.ref = total m held r + 1 +
      (if bp.ref = 1 then [] else bp.item).count (.block r) := by
    rw [hrefc, show total m₁ (.block m.blocks.length :: .block r :: held) r =
      total m₁ (.block r :: held) r + [svalue_t.block m.blocks.length].count (.block r) from
      total_append m₁ [.block m.blocks.length] _ r, hdestination.total, total_cons_self,
      count_cons_of_ne (fun heq => by
        have := svalue_t.block.inj heq
        omega), count_nil]
    omega
  obtain ⟨m₂, happend, hreturns⟩ := append_source_spec hdestination.ready hb hliving hc
    ⟨hthere, htype, hnull, himmortal, hpos⟩ (by omega)
    (by rw [hitem, hsame.item])
    (fun hmore => by
      rw [hsame.item]
      by_cases hone : br.ref = 1
      · exfalso
        rw [hheld] at hrefs
        have hself : 1 ≤ [svalue_t.block p, .block r].count (.block r) :=
          count_pos_iff.mpr (by simp)
        have hitems := count_item_le h.counted hp htarget.allocated htarget.type r
        have hother : (if bp.ref = 1 then [] else bp.item).count (.block r) ≤
            bp.item.count (.block r) := by
          split_ifs
          · exact Nat.zero_le _
          · exact Nat.le_refl _
        have htotal := total_held m held r
        omega
      · rwa [if_neg hone] at hroom₁)
  rw [hsame.item] at hreturns
  refine ⟨m₁, m₂, m.blocks.length, hdest, happend, ?_⟩
  apply (hreturns.of_kept hdestination.kept fun _ _ => id).added
  rintro x hx (⟨rfl, hone⟩ | rfl | ⟨rfl, hone⟩)
  · rw [hheld, count_cons_self] at hreft
    omega
  · exact absurd hx (Nat.lt_irrefl _)
  · omega

theorem own_other_spec {a c : Nat} {ba bc : block_t}
    (h : Ready max_array_size m (.block a :: .block c :: held)) (ha : Operand m a ba)
    (hc : Operand m c bc) (hnull : ba.null = true) (hroom : 1 < bc.ref → Room m bc.item) :
    ∃ m' d, own_array max_array_size (dec_ref m a) c = some (m', .ok d) ∧
      Added max_array_size m m' d bc.item held := by
  have hready := ready_dec_ref h ha.block ha.allocated ha.type (.inl hnull)
  have hkept := kept_dec_ref ha.block fun _ => False
  obtain ⟨b, hb, hsame⟩ := hkept.block c bc hc.block id
  obtain ⟨m', d, hown, hreturns⟩ := own_array_spec hready hb (hsame.allocated.trans hc.allocated)
    (hsame.type.trans hc.type) (fun hmore => by
      apply room_dec_ref _ ha.block (.inl hnull)
      rw [hsame.item]
      by_cases hac : c = a
      · subst hac
        have hempty : bc.item = [] := by
          rw [some.inj (hc.block.symm.trans ha.block)]
          exact (h.counted.sound.fits c ba ha.block).empty (.inl hnull)
        rw [hempty]
        intro x z hz _ _ _
        exact (h.counted.sound.fits x z hz).small
      · rw [dec_ref_eq ha.block, with_block_ne hac, hc.block, some.injEq] at hb
        rw [← hb] at hmore
        exact hroom hmore)
  rw [hsame.item] at hreturns
  exact ⟨m', d, hown, (hreturns.of_kept hkept fun _ _ hno => hno.elim id id).added
    fun _ _ hno => hno.elim⟩

theorem Ready.perm {held' : List svalue_t} (h : Ready max_array_size m held)
    (hperm : held.Perm held') : Ready max_array_size m held' :=
  ⟨h.counted.perm hperm, h.arrays⟩

def appended (string : block_t) : memory :=
  { start with blocks := start.blocks ++
    [{ new_array 2 with ref := 2, item := [.number 5, .block 3] }, string] }

theorem ready_appended (string : block_t) (hstring : string.type = .T_STRING)
    (hallocated : string.allocated = true) (hnull : string.null = false) (hitem : string.item = [])
    (hcount : string.ref = 1 ∧ string.immortal = false ∨
      string.ref = 0 ∧ string.immortal = true) :
    Ready 4 (appended string) [.block 2, .block 2] := by
  have hlive : live_items string = [] := by
    unfold live_items
    rw [hitem, ite_self]
  have htotal : ∀ a, total (appended string) [.block 2, .block 2] a =
      [svalue_t.block 2, .block 2, .block 3].count (.block a) := by
    intro a
    have hblocks : (appended string).blocks.flatMap live_items = [.number 5, .block 3] := by
      change [] ++ ([] ++ ([.number 5, .block 3] ++ (live_items string ++ []))) = _
      rw [hlive]
      rfl
    unfold total
    rw [hblocks]
    simp only [appended, start, count_cons, count_nil, beq_iff_eq, svalue_t.block.injEq,
      reduceCtorEq, if_false]
    omega
  have hshared : ∀ (b : block_t) (n : Nat), b.null = true → b.allocated = true → b.item = [] →
      b.type ≠ .T_STRING → b.ref = 1 → b.immortal = false → Fits b n := by
    intro b n hyes hthere hnil hother href hmortal
    refine ⟨by omega, fun _ => hnil, fun _ => ⟨hother, hthere⟩, ?_, ?_⟩
    · simp [hmortal]
    · intro _ hno
      simp [hyes] at hno
  refine ⟨⟨⟨rfl, ?_, ?_, ?_⟩, ?_⟩, ⟨⟨_, rfl, rfl, rfl⟩, ?_⟩⟩
  · intro a b hb
    rw [htotal]
    match a with
    | 0 =>
      cases hb
      exact hshared _ _ rfl rfl rfl (by decide) rfl rfl
    | 1 =>
      cases hb
      exact hshared _ _ rfl rfl rfl (by decide) rfl rfl
    | 2 =>
      cases hb
      refine ⟨by decide, ?_, nofun, nofun, fun _ _ _ => rfl⟩
      rintro (hno | hno) <;> cases hno
    | 3 =>
      cases hb
      refine ⟨by omega, fun _ => hitem, fun h => ?_, fun h => ?_, ?_⟩
      · simp [hnull] at h
      · rcases hcount with ⟨-, hmortal⟩ | ⟨hzero, -⟩
        · simp [hmortal] at h
        · exact ⟨hstring, hzero, hallocated⟩
      · rintro - - hmortal
        rcases hcount with ⟨hone, -⟩ | ⟨-, himmortal⟩
        · exact hone
        · simp [hmortal] at himmortal
    | _ + 4 => cases hb
  · intro a hpos
    rw [htotal, count_pos_iff] at hpos
    simp only [mem_cons, svalue_t.block.injEq, not_mem_nil, or_false] at hpos
    rcases hpos with rfl | rfl | rfl
    · exact ⟨_, rfl, rfl⟩
    · exact ⟨_, rfl, rfl⟩
    · exact ⟨string, rfl, hallocated⟩
  · intro a ha
    match a with
    | 0 => exact ⟨_, rfl, rfl⟩
    | 1 => exact ⟨_, rfl, rfl⟩
  · intro a b hb _ hno hmortal
    match a with
    | 0 =>
      cases hb
      cases hno
    | 1 =>
      cases hb
      cases hno
    | 2 =>
      cases hb
      decide
    | 3 =>
      cases hb
      rcases hcount with ⟨hone, -⟩ | ⟨-, himmortal⟩
      · omega
      · simp [hmortal] at himmortal
    | _ + 4 => cases hb
  · intro a b hb _ htype
    match a with
    | 0 =>
      cases hb
      exact ⟨by decide, by decide, fun _ => rfl⟩
    | 1 =>
      cases hb
      cases htype
    | 2 =>
      cases hb
      exact ⟨by decide, by decide, nofun⟩
    | 3 =>
      cases hb
      simp [hstring] at htype
    | _ + 4 => cases hb

def one_string : block_t := { new_array 0 with type := .T_STRING }

end mudos.array_blocks
