-- A slice of an array has the items between its bounds, and what other holders see of the array and
-- of other blocks stays as it is.
import MudOS.ArrayBlockLaws

open mudos.reference_counts List Option
open mudos.windows

namespace mudos.array_blocks

variable {m : memory} {held : List svalue_t}
variable {i p : Nat} {m' : memory} {b : block_t}
variable {d : Nat} {max_array_size : Int}

/-! ## A slice that is copied -/

theorem assign_items_spec {s k : Nat} (l : List svalue_t)
    (hdest : ∀ j, j < l.length → ∃ n, read m (.item d (i + j)) = some (.number n))
    (hsrc : ∀ j, j < l.length → read m (.item s (k + j)) = l[j]?) (hne : s ≠ d) :
    ∃ m', assign_some_svalues m (.item d i) (.item s k) l.length = some m' ∧
      Filled m m' d i l := by
  induction l generalizing m i k with
  | nil => exact ⟨m, rfl, Filled.refl m d i⟩
  | cons v l ih =>
    obtain ⟨n, hn⟩ := hdest 0 (Nat.succ_pos _)
    rw [Nat.add_zero] at hn
    have hv : read m (.item s k) = some v := hsrc 0 (Nat.succ_pos _)
    obtain ⟨hassign, hblock⟩ := filled_assign hn hv
    have hone : Filled m (add_ref (write m v (.item d i)) v) d i [v] :=
      filled_one hn (slots_assign ..) (length_assign ..) hblock
    have hread : ∀ a q, a ≠ d ∨ q ≠ i →
        read (add_ref (write m v (.item d i)) v) (.item a q) = read m (.item a q) := by
      intro a q haq
      rw [read_add_ref, read_write_ne haq]
    obtain ⟨m', hcopy, hfilled⟩ := ih (m := add_ref (write m v (.item d i)) v) (i := i + 1)
      (k := k + 1)
      (fun j hj => by
        obtain ⟨z, hz⟩ := hdest (j + 1) (Nat.succ_lt_succ hj)
        rw [hread _ _ (.inr (by omega)), show i + 1 + j = i + (j + 1) by omega]
        exact ⟨z, hz⟩)
      (fun j hj => by
        rw [hread _ _ (.inl hne), show k + 1 + j = k + (j + 1) by omega,
          hsrc (j + 1) (Nat.succ_lt_succ hj)]
        rfl)
    refine ⟨m', ?_, hfilled.slots.trans hone.slots, hfilled.length.trans hone.length, ?_⟩
    · rwa [length_cons, assign_some_svalues, hassign]
    · intro x b hb
      obtain ⟨b₁, hb₁, hsame₁⟩ := hone.block x b hb
      obtain ⟨b', hb', hsame⟩ := hfilled.block x b₁ hb₁
      refine ⟨b', hb', hsame.type.trans hsame₁.type, ?_, hsame.allocated.trans hsame₁.allocated,
        hsame.null.trans hsame₁.null⟩
      rw [hsame.item]
      dsimp only
      rw [hsame₁.item]
      by_cases hx : x = d
      · subst hx
        have hlt : i < b.item.length := length_of_read hb hn
        have hset := overwrite_set_first hlt v []
        rw [overwrite_nil] at hset
        simp only [if_true]
        rw [← hset, overwrite_set_first hlt]
      · simp [if_neg hx]

/-! ## A slice in place -/

/-- What has been lost while an array was cut: nothing of the other blocks but those that nothing
refers to. -/
structure Loses (p : Nat) (m m' : memory) : Prop where
  slots : m'.slots = m.slots
  length : m'.blocks.length = m.blocks.length
  block : ∀ (x : Nat) b, m.blocks[x]? = some b → x ≠ p →
    ∃ b', m'.blocks[x]? = some b' ∧ b'.type = b.type ∧ b'.item = b.item

theorem Loses.refl (p : Nat) (m : memory) : Loses p m m :=
  ⟨rfl, rfl, fun _ b hb _ => ⟨b, hb, rfl, rfl⟩⟩

theorem Loses.trans {m₁ m₂ m₃ : memory} (h : Loses p m₁ m₂) (h' : Loses p m₂ m₃) :
    Loses p m₁ m₃ := by
  refine ⟨h'.slots.trans h.slots, h'.length.trans h.length, fun x b hb hx => ?_⟩
  obtain ⟨c, hc, htype, hitem⟩ := h.block x b hb hx
  obtain ⟨d, hd, htype', hitem'⟩ := h'.block x c hc hx
  exact ⟨d, hd, htype'.trans htype, hitem'.trans hitem⟩

theorem loses_of_freed (h : Freed m m') (p : Nat) : Loses p m m' := by
  refine ⟨h.slots, h.length, fun x b hb _ => ?_⟩
  obtain ⟨b', hb', hafter⟩ := h.block x b hb
  exact ⟨b', hb', hafter.type, hafter.item⟩

theorem loses_with_block (m : memory) (p : Nat) (b : block_t) : Loses p m (with_block m p b) := by
  refine ⟨rfl, length_set .., fun x c hc hx => ⟨c, ?_, rfl, rfl⟩⟩
  rwa [with_block_ne hx]

/-- The array that is cut has no reference any more, and its items have been handed on. -/
structure Cut (m : memory) (p : Nat) (b : block_t) : Prop where
  block : m.blocks[p]? = some b
  allocated : b.allocated = true
  type : b.type = .T_ARRAY
  null : b.null = false
  immortal : b.immortal = false
  ref : b.ref = 0

theorem live_lt (m : memory) : live m < m.blocks.length + 1 :=
  Nat.lt_succ_of_le countP_le_length

theorem free_item_spec (hcut : Cut m p b) (hi : i < b.item.length)
    (hsound : Sound m (b.item[i] :: held)) :
    ∃ m', free_item m p i = some m' ∧ Sound m' held ∧ Loses p m m' ∧ Cut m' p b := by
  have hread : read m (.item p i) = some b.item[i] := by
    rw [read_item hcut.block hcut.allocated]
    exact getElem?_eq_getElem hi
  obtain ⟨hend, hfreed⟩ := sound_free_svalue hsound (live_lt m)
  obtain ⟨b', hb', hafter⟩ := hfreed.block p b hcut.block
  -- a block without references is not touched
  have hsame := hafter.rest hcut.null hcut.ref
  subst hsame
  refine ⟨_, ?_, hend, loses_of_freed hfreed p, { hcut with block := hb' }⟩
  unfold free_item
  rw [hread]
  rfl

theorem sound_perm {held' : List svalue_t} (h : Sound m held) (hperm : held.Perm held') :
    Sound m held' := by
  refine ⟨h.dangling, ?_, ?_, h.shared⟩
  · intro a b hb
    rw [← total_perm hperm]
    exact h.fits a b hb
  · intro a hpos
    rw [← total_perm hperm] at hpos
    exact h.points a hpos

theorem free_items_down_spec (hcut : Cut m p b) {cnt : Nat} (hcnt : cnt ≤ b.item.length)
    (hsound : Sound m (b.item.take cnt ++ held)) :
    ∃ m', free_items_down m p cnt = some m' ∧ Sound m' held ∧ Loses p m m' ∧ Cut m' p b := by
  induction cnt generalizing m with
  | zero => exact ⟨m, rfl, hsound, Loses.refl p m, hcut⟩
  | succ cnt ih =>
    have hlast : (b.item.take (cnt + 1) ++ held).Perm
        (b.item[cnt] :: (b.item.take cnt ++ held)) := by
      rw [take_succ_eq_append_getElem hcnt, append_assoc]
      exact perm_middle
    obtain ⟨m₁, hfree, hsound₁, hloses₁, hcut₁⟩ :=
      free_item_spec hcut (Nat.lt_of_succ_le hcnt) (sound_perm hsound hlast)
    obtain ⟨m', hdown, hsound', hloses, hcut'⟩ := ih hcut₁ (Nat.le_of_succ_le hcnt) hsound₁
    refine ⟨m', ?_, hsound', hloses₁.trans hloses, hcut'⟩
    rwa [free_items_down, hfree]

theorem free_items_up_spec (hcut : Cut m p b) (cnt : Nat) (hcnt : i + cnt = b.item.length)
    (hsound : Sound m (b.item.drop i ++ held)) :
    ∃ m', free_items_up m p i cnt = some m' ∧ Sound m' held ∧ Loses p m m' ∧ Cut m' p b := by
  induction cnt generalizing m i with
  | zero =>
    rw [drop_of_length_le (by omega)] at hsound
    exact ⟨m, rfl, hsound, Loses.refl p m, hcut⟩
  | succ cnt ih =>
    have hi : i < b.item.length := by omega
    rw [drop_eq_getElem_cons hi] at hsound
    obtain ⟨m₁, hfree, hsound₁, hloses₁, hcut₁⟩ := free_item_spec hcut hi hsound
    obtain ⟨m', hup, hsound', hloses, hcut'⟩ := ih hcut₁ (by omega) hsound₁
    refine ⟨m', ?_, hsound', hloses₁.trans hloses, hcut'⟩
    rwa [free_items_up, hfree]

theorem shift_items_spec {k : Nat} (hb : m.blocks[p]? = some b) (hallocated : b.allocated = true)
    (hik : i ≤ k) (n : Nat) (hn : k + n ≤ b.item.length) :
    shift_svalues m (.item p i) (.item p k) n =
      some (with_block m p { b with item := overwrite b.item i ((b.item.drop k).take n) }) := by
  induction n generalizing m i k b with
  | zero =>
    have hsame : with_block m p b = m := by
      obtain ⟨hlt, hget⟩ := List.getElem?_eq_some_iff.mp hb
      unfold with_block
      rw [← hget, set_getElem_self]
    rw [take_zero, overwrite_nil]
    exact congrArg some hsame.symm
  | succ n ih =>
    have hk : k < b.item.length := by omega
    have hread : ∀ q, (hq : q < b.item.length) → read m (.item p q) = some b.item[q] := by
      intro q hq
      rw [read_item hb hallocated]
      exact getElem?_eq_getElem hq
    have hcopy : copy_svalue m (.item p i) (.item p k) =
        some (with_block m p { b with item := b.item.set i b.item[k] }) := by
      simp [copy_svalue, hread i (by omega), hread k hk, write_item_eq hb]
    have hnext := ih (m := with_block m p { b with item := b.item.set i b.item[k] }) (i := i + 1)
      (k := k + 1) (with_block_self hb _) hallocated (by omega)
      (by
        dsimp only
        rw [length_set]
        omega)
    dsimp only at hnext
    rw [drop_set_of_lt (by omega), overwrite_set_first (by omega), with_block_with_block]
      at hnext
    rwa [shift_svalues, hcopy, drop_eq_getElem_cons hk, take_succ_cons]

theorem Cut.with_items (hcut : Cut m p b) (hsound : Sound m held) (item : List svalue_t) :
    Cut (with_block m p { b with item }) p { b with item } ∧
      Sound (with_block m p { b with item }) held := by
  have hdead : ∀ c : block_t, c.ref = 0 → live_items c = [] :=
    fun c hzero => if_neg fun hand => hand.2 hzero
  have htotal : ∀ x, total (with_block m p { b with item }) held x = total m held x := by
    intro x
    have hblock := total_with_block hcut.block { b with item } held x
    rwa [hdead b hcut.ref, hdead { b with item } hcut.ref] at hblock
  have hfits := hsound.fits p b hcut.block
  refine ⟨{ hcut with block := with_block_self hcut.block _ }, ?_⟩
  apply sound_with_block hsound hcut.block (fun x _ => htotal x)
  · rw [htotal]
    refine { hfits with empty := ?_ }
    rintro (hnull | hno)
    · have hnull : b.null = true := hnull
      rw [hcut.null] at hnull
      cases hnull
    · have hno : has_items b.type = false := hno
      rw [hcut.type] at hno
      cases hno
  · exact fun _ => hcut.allocated
  · rfl

theorem cut_front {«from» «to» : Nat} (hcut : Cut m p b)
    (hbounds : «from» ≤ «to» ∧ «to» < b.item.length) (hsound : Sound m (b.item ++ held)) :
    ∃ m' b', (if «from» ≠ 0 then (free_items_down m p «from»).bind fun m =>
          shift_svalues m (.item p 0) (.item p «from») («to» - «from» + 1)
        else some m) = some m' ∧
      Loses p m m' ∧ Cut m' p b' ∧ b'.item.length = b.item.length ∧
      b'.item.take («to» - «from» + 1) = (b.item.drop «from»).take («to» - «from» + 1) ∧
      Sound m' (b'.item.drop («to» + 1) ++
        ((b.item.drop «from»).take («to» - «from» + 1) ++ held)) := by
  have hrest : b.item.drop «from» =
      (b.item.drop «from»).take («to» - «from» + 1) ++ b.item.drop («to» + 1) := by
    have happ := take_append_drop («to» - «from» + 1) (b.item.drop «from»)
    rw [drop_drop, show «from» + («to» - «from» + 1) = «to» + 1 by omega] at happ
    exact happ.symm
  have hperm : (b.item.drop «from» ++ held).Perm
      (b.item.drop («to» + 1) ++ ((b.item.drop «from»).take («to» - «from» + 1) ++ held)) := by
    have hswap : ((b.item.drop «from»).take («to» - «from» + 1) ++ b.item.drop («to» + 1)).Perm _ :=
      perm_append_comm
    rw [← hrest] at hswap
    have hboth := hswap.append_right held
    rwa [append_assoc] at hboth
  by_cases hzero : «from» = 0
  · subst hzero
    refine ⟨m, b, if_neg fun h => h rfl, Loses.refl p m, hcut, rfl, rfl, ?_⟩
    rw [drop_zero] at hperm
    exact sound_perm hsound hperm
  · rw [← take_append_drop «from» b.item, append_assoc] at hsound
    obtain ⟨m₁, hdown, hsound₁, hloses₁, hcut₁⟩ := free_items_down_spec hcut (by omega) hsound
    have hshift := shift_items_spec hcut₁.block hcut₁.allocated (Nat.zero_le «from»)
      («to» - «from» + 1) (by omega)
    let kept := (b.item.drop «from»).take («to» - «from» + 1)
    have hlength : kept.length = «to» - «from» + 1 := by
      simp only [kept, length_take, length_drop]
      omega
    have hover : overwrite b.item 0 kept = kept ++ b.item.drop kept.length := by
      simp [overwrite]
    obtain ⟨hcut₂, hsound₂⟩ := hcut₁.with_items hsound₁ (overwrite b.item 0 kept)
    refine ⟨with_block m₁ p { b with item := overwrite b.item 0 kept }, _, ?_,
      hloses₁.trans (loses_with_block ..), hcut₂, ?_, ?_, ?_⟩
    · rwa [if_pos hzero, hdown]
    · exact length_overwrite (by omega)
    · change (overwrite b.item 0 kept).take («to» - «from» + 1) = kept
      rw [hover]
      exact take_left' hlength
    · have hbehind : (overwrite b.item 0 kept).drop («to» + 1) = b.item.drop («to» + 1) := by
        rw [hover, drop_append, drop_of_length_le (by omega), nil_append,
          drop_drop]
        congr 1
        omega
      dsimp only
      rw [hbehind]
      exact sound_perm hsound₂ hperm

theorem slice_in_place_spec {«from» «to» : Nat} (hcut : Cut m p b)
    (hbounds : «from» ≤ «to» ∧ «to» < b.item.length) (hsound : Sound m (b.item ++ held)) :
    ∃ m', slice_in_place m p b.item.length «from» «to» = some (m', m.blocks.length) ∧
      m'.slots = m.slots ∧
      IsArray m' m.blocks.length ((b.item.drop «from»).take («to» - «from» + 1)) ∧
      Sound m' (.block m.blocks.length :: held) ∧
      ∀ (x : Nat) c, m.blocks[x]? = some c → x ≠ p →
        ∃ c', m'.blocks[x]? = some c' ∧ c'.type = c.type ∧ c'.item = c.item := by
  obtain ⟨m₂, b₂, hfront, hloses₂, hcut₂, hlength, htake, hsound₂⟩ := cut_front hcut hbounds hsound
  let kept := (b.item.drop «from»).take («to» - «from» + 1)
  obtain ⟨m₃, hup, hsound₃, hloses₃, hcut₃⟩ :=
    free_items_up_spec hcut₂ (b.item.length - 1 - «to») (by omega) hsound₂
  have hloses := hloses₂.trans hloses₃
  have hfreed : Sound (FREE m₃ p) (kept ++ held) :=
    sound_FREE hsound₃ hcut₃.block hcut₃.allocated hcut₃.null hcut₃.immortal hcut₃.ref
  have hlen : (FREE m₃ p).blocks.length = m.blocks.length := (length_FREE m₃ p).trans hloses.length
  have hliving : Living { b₂ with item := kept, ref := 1 } :=
    ⟨hcut₃.allocated, hcut₃.type, hcut₃.null, hcut₃.immortal, Nat.one_pos⟩
  have hnew := sound_with_new hfreed hliving (show 1 ≤ 65535 by omega) fun _ => rfl
  have hself := with_new_self (FREE m₃ p) { b₂ with item := kept, ref := 1 }
  rw [hlen] at hnew hself
  have hresize : RESIZE_ARRAY m₃ p («to» - «from» + 1) =
      some (with_new (FREE m₃ p) { b₂ with item := kept }, m.blocks.length) := by
    have hat : array_at m₃ p = some b₂ := array_at_some.mpr ⟨hcut₃.block, hcut₃.allocated⟩
    have hnull : ¬ b₂.null = true := by
      rw [hcut₃.null]
      decide
    simp only [RESIZE_ARRAY, hat, bind_some]
    rw [if_neg hnull, htake, show «to» - «from» + 1 - b₂.item.length = 0 by omega,
      replicate_zero, append_nil, hlen]
    rfl
  have hset : set_ref (with_new (FREE m₃ p) { b₂ with item := kept }) m.blocks.length 1 =
      with_new (FREE m₃ p) { b₂ with item := kept, ref := 1 } := by
    have hblock := with_new_self (FREE m₃ p) { b₂ with item := kept }
    rw [hlen] at hblock
    rw [set_ref_eq hblock]
    unfold with_block with_new
    simp only
    rw [← hlen, set_append_right _ _ (Nat.le_refl _), Nat.sub_self, set_cons_zero]
  refine ⟨with_new (FREE m₃ p) { b₂ with item := kept, ref := 1 }, ?_, hloses.slots,
    ⟨_, hself, hcut₃.allocated, hcut₃.type, rfl⟩, hnew, fun x c hc hx => ?_⟩
  · simp only [slice_in_place]
    rw [hfront, bind_some, hup, bind_some, hresize, map_some, hset]
  · obtain ⟨c', hc', htype, hitem⟩ := hloses.block x c hc hx
    exact ⟨c', with_new_old ((FREE_ne hx).trans hc'), htype, hitem⟩

/-! ## Slices -/

/-- The slice has its items. Another holder of the array sees what it has seen, and so does every
holder of another block. -/
structure Sliced (m m' : memory) (p d : Nat) (item held : List svalue_t) : Prop where
  array : IsArray m' d item
  slots : m'.slots = m.slots
  holders : 0 < total m held p → ∀ b, m.blocks[p]? = some b →
    ∃ b', m'.blocks[p]? = some b' ∧ Same b b'
  others : ∀ (x : Nat) b, m.blocks[x]? = some b → x ≠ p →
    ∃ b', m'.blocks[x]? = some b' ∧ b'.type = b.type ∧ b'.item = b.item ∧
      (b.allocated = true → 0 < total m' (.block d :: held) x → b'.allocated = true)

theorem sliced_of_kept {item : List svalue_t} (hkept : Kept (fun _ => False) m m')
    (harray : IsArray m' d item) : Sliced m m' p d item held := by
  refine ⟨harray, hkept.slots, fun _ b hb => hkept.block p b hb id, fun x b hb _ => ?_⟩
  obtain ⟨b', hb', hsame⟩ := hkept.block x b hb id
  exact ⟨b', hb', hsame.type, hsame.item, fun hallocated _ => hsame.allocated.trans hallocated⟩

theorem sliced_of_sound {item : List svalue_t} (harray : IsArray m' d item)
    (hslots : m'.slots = m.slots) (hsole : total m held p = 0)
    (hsound : Sound m' (.block d :: held)) (hblock : ∀ (x : Nat) b, m.blocks[x]? = some b → x ≠ p →
      ∃ b', m'.blocks[x]? = some b' ∧ b'.type = b.type ∧ b'.item = b.item) :
    Sliced m m' p d item held := by
  refine ⟨harray, hslots, fun hpos => by omega, fun x b hb hx => ?_⟩
  obtain ⟨b', hb', htype, hitem⟩ := hblock x b hb hx
  refine ⟨b', hb', htype, hitem, fun _ hpos => ?_⟩
  obtain ⟨c, hc, hallocated⟩ := hsound.points x hpos
  rw [hb', some.injEq] at hc
  rwa [hc]

theorem free_shared_array (hp : Operand m p b) (fuel : Nat)
    (hshared : b.null = true ∨ ushort (b.ref + 65535) ≠ 0) :
    free_svalue (fuel + 1) m (.block p) = dec_ref m p := by
  have hthere : ¬ (!b.allocated) = true := by
    rw [hp.allocated]
    decide
  have hother : ¬ b.type = .T_STRING := by
    rw [hp.type]
    decide
  rw [free_svalue, hp.block, dec_ref_eq hp.block]
  simp only
  rw [if_neg hthere, if_neg hother]
  by_cases hzero : ushort (b.ref + 65535) ≠ 0
  · rw [if_pos hzero]
    rfl
  · rw [if_neg hzero, if_pos (hshared.resolve_right hzero)]
    rfl

theorem null_array_there (h : Ready max_array_size m held)
    (hblock : ∀ b, m.blocks[0]? = some b → ∃ b', m'.blocks[0]? = some b' ∧ b'.type = b.type ∧
      b'.item = b.item ∧ b'.null = b.null ∧ b'.allocated = b.allocated) :
    IsArray m' 0 [] ∧ ∃ b, m'.blocks[0]? = some b ∧ b.null = true := by
  obtain ⟨b, hb, htype, hnull⟩ := h.arrays.null_array
  have hfits := h.counted.sound.fits 0 b hb
  obtain ⟨b', hb', htype', hitem', hnull', hallocated'⟩ := hblock b hb
  refine ⟨⟨b', hb', hallocated'.trans (hfits.null hnull).2, htype'.trans htype, ?_⟩, b', hb',
    hnull'.trans hnull⟩
  rw [hitem', hfits.empty (.inl hnull)]

theorem slice_empty (h : Ready max_array_size m (.block p :: held)) (hp : Operand m p b) :
    Sliced m (free_svalue (m.blocks.length + 1) m (.block p)) p 0 [] held := by
  have hsmall := (h.counted.sound.fits p b hp.block).small
  by_cases hshared : b.null = true ∨ ushort (b.ref + 65535) ≠ 0
  · rw [free_shared_array hp _ hshared]
    have hkept := kept_dec_ref hp.block fun _ => False
    refine sliced_of_kept hkept (null_array_there h fun c hc => ?_).1
    obtain ⟨c', hc', hsame⟩ := hkept.block 0 c hc id
    exact ⟨c', hc', hsame.type, hsame.item, hsame.null, hsame.allocated⟩
  · rw [not_or, not_not, Bool.not_eq_true] at hshared
    obtain ⟨hnull, hzero⟩ := hshared
    obtain ⟨-, hcount, hpos⟩ := ref_of_array h.counted hp.block hp.allocated hp.type hnull
    have hsole : total m held p = 0 := by
      rw [total_cons_self] at hcount
      unfold ushort at hzero
      omega
    obtain ⟨hend, hfreed⟩ := sound_free_svalue h.counted.sound (live_lt m)
    obtain ⟨harray, c, hc, hcnull⟩ := null_array_there h fun c hc => by
      obtain ⟨c', hc', hafter⟩ := hfreed.block 0 c hc
      refine ⟨c', hc', hafter.type, hafter.item, hafter.null, ?_⟩
      obtain ⟨z, hz, hznull⟩ := hend.shared 0 (by omega)
      cases hc'.symm.trans hz
      rw [((hend.fits 0 c' hc').null hznull).2,
        ((h.counted.sound.fits 0 c hc).null (hafter.null.symm.trans hznull)).2]
    refine sliced_of_sound harray hfreed.slots hsole (sound_hold_null hend hc hcnull)
      fun x z hz _ => ?_
    obtain ⟨z', hz', hafter⟩ := hfreed.block x z hz
    exact ⟨z', hz', hafter.type, hafter.item⟩

theorem slice_array_spec (h : Ready max_array_size m (.block p :: held)) (hp : Operand m p b)
    («from» «to» : Int) :
    ∃ m' d, slice_array max_array_size m p «from» «to» = some (m', .ok d) ∧
      Sliced m m' p d (between «from» «to» b.item) held := by
  have hat : array_at m p = some b := array_at_some.mpr ⟨hp.block, hp.allocated⟩
  have hsize := (null_of_empty h.arrays hp.block hp.allocated hp.type).1
  obtain ⟨hmax, -, -⟩ := h.arrays.sizes p b hp.block hp.allocated hp.type
  let low := if «from» < 0 then 0 else «from»
  let high := if (size b : Int) ≤ «to» then (size b : Int) - 1 else «to»
  have hlow : low = max «from» 0 := by
    simp only [low]
    split_ifs <;> omega
  have hhigh : high = min «to» (b.item.length - 1) := by
    simp only [high, hsize]
    split_ifs <;> omega
  have hbetween : between «from» «to» b.item = between low high b.item := by
    rw [hlow, hhigh, between_clamp]
  rw [hbetween]
  simp only [slice_array, hat, bind_some]
  by_cases hempty : high < low
  · rw [between_eq_nil (.inl (by omega))]
    exact ⟨_, 0, if_pos hempty, slice_empty h hp⟩
  · have hbounds : low.toNat ≤ high.toNat ∧ high.toNat < b.item.length := by omega
    have hwindow : between low high b.item =
        (b.item.drop low.toNat).take (high.toNat - low.toNat + 1) := by
      rw [between_eq]
      congr 1
      omega
    rw [hwindow]
    have hliving := h.living hp (by rw [hsize]; omega)
    have hsmall := (h.counted.sound.fits p b hp.block).small
    have hcount := (ref_of_array h.counted hp.block hp.allocated hp.type hliving.null).2.1
    rw [total_cons_self] at hcount
    by_cases hsole : ushort (b.ref + 65535) = 0
    · have hone : b.ref = 1 := by
        unfold ushort at hsole
        omega
      obtain ⟨-, hdec⟩ := sound_dec h.counted.sound hp.block hp.allocated hliving.null
        hliving.immortal
      rw [if_pos (by omega), hone] at hdec
      have hfreed : dec_ref m p = with_block m p { b with ref := 0 } := by
        rw [dec_ref_eq hp.block, hone]
        rfl
      have hcut : Cut (dec_ref m p) p { b with ref := 0 } := by
        rw [hfreed]
        exact ⟨with_block_self hp.block _, hp.allocated, hp.type, hliving.null, hliving.immortal,
          rfl⟩
      have hsound : Sound (dec_ref m p) (b.item ++ held) := by
        rw [hfreed]
        exact sound_perm hdec (List.Perm.append_right held b.item.reverse_perm)
      obtain ⟨m', hslice, hslots, harray, hend, hblock⟩ := slice_in_place_spec hcut hbounds hsound
      have hkept := kept_dec_ref hp.block fun _ => False
      refine ⟨m', _, ?_, sliced_of_sound harray (hslots.trans hkept.slots) (by omega) hend ?_⟩
      · refine (if_neg hempty).trans ((if_pos hsole).trans ?_)
        change (slice_in_place (dec_ref m p) p (size b) low.toNat high.toNat).map _ = _
        rw [hsize, show slice_in_place _ _ _ _ _ = _ from hslice]
        rfl
      · intro x c hc hx
        obtain ⟨c₁, hc₁, hsame⟩ := hkept.block x c hc id
        obtain ⟨c', hc', htype, hitem⟩ := hblock x c₁ hc₁ hx
        exact ⟨c', hc', htype.trans hsame.type, hitem.trans hsame.item⟩
    · have hkept := kept_dec_ref hp.block fun _ => False
      obtain ⟨b₁, hb₁, hsame⟩ := hkept.block p b hp.block id
      have hlt := (List.getElem?_eq_some_iff.mp hb₁).1
      have hcnt : high - low + 1 = ((high.toNat - low.toNat + 1 : Nat) : Int) := by omega
      have hallocate : allocate_empty_array max_array_size (dec_ref m p)
          (high.toNat - low.toNat + 1 : Nat) = _ := allocate_empty_array_eq (by omega) (by omega)
      let l := (b.item.drop low.toNat).take (high.toNat - low.toNat + 1)
      have hlength : l.length = high.toNat - low.toNat + 1 := by
        simp only [l, length_take, length_drop]
        omega
      have hnew := with_new_self (dec_ref m p) (new_array l.length)
      obtain ⟨m', hassign, hfilled⟩ := assign_items_spec
        (m := with_new (dec_ref m p) (new_array l.length)) (d := (dec_ref m p).blocks.length)
        (i := 0) (s := p) (k := low.toNat) l
        (fun j hj => ⟨0, by
          rw [read_item hnew rfl, Nat.zero_add]
          exact getElem?_replicate_of_lt hj⟩)
        (fun j hj => by
          rw [read_item (with_new_old hb₁) (hsame.allocated.trans hp.allocated), hsame.item,
            getElem?_take_of_lt (by omega), getElem?_drop])
        (by omega)
      have harray := array_of_filled (living_new_array l.length) hfilled
      have hwhole : overwrite (new_array l.length).item 0 l = l :=
        overwrite_rest [] length_replicate.symm
      rw [hwhole] at harray
      refine ⟨m', _, ?_, sliced_of_kept ?_ harray⟩
      · refine (if_neg hempty).trans ((if_neg hsole).trans ?_)
        rw [show (if (size b : Int) ≤ «to» then (size b : Int) - 1 else «to») -
          (if «from» < 0 then 0 else «from») + 1 = _ from hcnt, hallocate, Int.toNat_natCast, ← hlength]
        simp only
        rw [hassign]
        rfl
      · refine (hkept.trans (kept_filled_new hfilled fun _ => False)).mono ?_
        rintro x - (hno | hno) <;> exact hno

end mudos.array_blocks
