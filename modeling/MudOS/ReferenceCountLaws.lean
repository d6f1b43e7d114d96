-- The count of a block is the number of the references to it, and a block goes with its last
-- reference; a string that has had one reference more than its count can tell stays.
import MudOS.ReferenceFreeLaws

open mudos.runs List

namespace mudos.reference_counts

variable {m : memory}
variable {held : List svalue_t} {v old : svalue_t} {a : Nat} {m' : memory} {p dest : place}
  {b : block_t}

variable {α : Type} {i : Nat} {n : Int} {«from» : place}

/-! ## Counting -/

theorem sound_add_ref (hsound : Sound m held)
    (hthere : ∀ a, v = .block a → ∃ b, m.blocks[a]? = some b ∧ b.allocated = true ∧
      (b.null = true ∨ 0 < total m held a))
    (hroom : ∀ a b, v = .block a → m.blocks[a]? = some b → b.type ≠ .T_STRING → b.null = false →
      b.ref < 65535) : Sound (add_ref m v) (v :: held) := by
  cases v with
  | number n =>
    exact hsound.congr rfl rfl fun _ => total_cons_ne (fun h => by cases h) held
  | block a =>
    obtain ⟨b, h, hallocated, hpos⟩ := hthere a rfl
    have hfits := hsound.fits a b h
    have hsmall := hfits.small
    have hstays : ¬ (!b.allocated) = true := by
      rw [hallocated]
      decide
    -- a block that counts has its items before and after
    have htotal : ∀ b' : block_t, live_items b' = live_items b → ∀ x,
        total (with_block m a b') (.block a :: held) x = total m (.block a :: held) x := by
      intro b' hitems x
      have hblock := total_with_block h b' (.block a :: held) x
      rw [hitems] at hblock
      omega
    have hend : ∀ b' : block_t, live_items b' = live_items b →
        Fits b' (total m held a + 1) → b'.allocated = b.allocated → b'.null = b.null →
        Sound (with_block m a b') (.block a :: held) := by
      intro b' hitems hfits' hsame hnull
      apply sound_with_block hsound h
      · intro x hx
        rw [htotal b' hitems, total_cons_ne]
        intro heq
        cases heq
        exact hx rfl
      · rwa [htotal b' hitems, total_cons_self]
      · intro _
        exact hsame.trans hallocated
      · exact hnull
    have hnone : ∀ {b' : block_t}, b'.item = b.item → b.item = [] →
        live_items b' = live_items b := by
      intro b' hitem hnil
      unfold live_items
      rw [hitem, hnil, ite_self, ite_self]
    unfold add_ref
    simp only [h]
    rw [if_neg hstays]
    by_cases hstring : b.type = .T_STRING
    · rw [if_pos hstring]
      have hitem : b.item = [] := hfits.empty (.inr (by rw [hstring]; rfl))
      have hnull := hfits.not_null hstring
      have hheld : 0 < total m held a := hpos.resolve_left (by simp [hnull])
      unfold INC_COUNTED_REF
      by_cases href : b.ref = 0
      · rw [if_neg (not_not_intro href)]
        refine hend b rfl ⟨hsmall, hfits.empty, hfits.null, hfits.immortal, ?_⟩ rfl rfl
        intro _ _ himmortal
        have hcount := hfits.counted hallocated hnull himmortal
        omega
      · rw [if_pos href]
        refine hend _ (hnone rfl hitem) ⟨?_, hfits.empty, hfits.null, ?_, ?_⟩ rfl rfl
        · dsimp only [ushort]
          omega
        · intro himmortal
          exact ⟨hstring, of_decide_eq_true himmortal, hallocated⟩
        · intro _ _ himmortal
          have hmore := of_decide_eq_false himmortal
          have hmortal : b.immortal = false := by
            rw [Bool.eq_false_iff]
            intro himmortal
            exact href (hfits.immortal himmortal).2.1
          have hcount := hfits.counted hallocated hnull hmortal
          dsimp only [ushort] at hmore ⊢
          omega
    · rw [if_neg hstring]
      by_cases hnull : b.null = true
      · have hitem : b.item = [] := hfits.empty (.inl hnull)
        refine hend _ (hnone rfl hitem) ⟨?_, hfits.empty, hfits.null, ?_, ?_⟩ rfl rfl
        · dsimp only [ushort]
          omega
        · intro himmortal
          exact absurd (hfits.immortal himmortal).1 hstring
        · simp [hnull]
      · rw [Bool.not_eq_true] at hnull
        have hheld : 0 < total m held a := hpos.resolve_left (by simp [hnull])
        have himmortal := hfits.mortal hstring
        have hcount := hfits.counted hallocated hnull himmortal
        have hlt := hroom a b rfl h hstring hnull
        have hushort : ushort (b.ref + 1) = b.ref + 1 := by
          unfold ushort
          omega
        rw [hushort]
        refine hend _ ?_ ⟨?_, hfits.empty, hfits.null, ?_, ?_⟩ rfl rfl
        · have hold : live_items b = b.item := if_pos ⟨hallocated, by omega⟩
          have hnew : live_items { b with ref := b.ref + 1 } = b.item :=
            if_pos ⟨hallocated, Nat.succ_ne_zero _⟩
          exact hnew.trans hold.symm
        · dsimp only
          omega
        · intro himmortal
          exact absurd (hfits.immortal himmortal).1 hstring
        · intro _ _ _
          dsimp only
          omega

theorem add_ref_blocks (m : memory) (v : svalue_t) (x : Nat) :
    ∃ g : block_t → block_t, (∀ b, (g b).item = b.item ∧ (g b).allocated = b.allocated ∧
      (g b).type = b.type ∧ (g b).null = b.null) ∧
      (add_ref m v).blocks[x]? = (m.blocks[x]?).map g := by
  have hid : ∀ b : block_t, (id b).item = b.item ∧ (id b).allocated = b.allocated ∧
      (id b).type = b.type ∧ (id b).null = b.null := fun _ => ⟨rfl, rfl, rfl, rfl⟩
  cases v with
  | number n => exact ⟨id, hid, (Option.map_id_apply).symm⟩
  | block a =>
    cases h : m.blocks[a]? with
    | none =>
      refine ⟨id, hid, ?_⟩
      simp only [add_ref, h, Option.map_id_apply]
    | some b =>
      have hset : ∀ (g : block_t → block_t), (with_block m a (g b)).blocks[x]? =
          (m.blocks[x]?).map (if x = a then g else id) := by
        intro g
        by_cases hx : x = a
        · subst hx
          rw [with_block_self h, if_pos rfl, h, Option.map_some]
        · rw [with_block_ne hx, if_neg hx, Option.map_id_apply]
      by_cases hallocated : (!b.allocated) = true
      · refine ⟨id, hid, ?_⟩
        simp only [add_ref, h, if_pos hallocated, Option.map_id_apply]
      · by_cases hstring : b.type = .T_STRING
        · refine ⟨if x = a then INC_COUNTED_REF else id, fun c => ?_, ?_⟩
          · by_cases hx : x = a
            · rw [if_pos hx]
              unfold INC_COUNTED_REF
              split_ifs <;> exact ⟨rfl, rfl, rfl, rfl⟩
            · rw [if_neg hx]
              exact hid c
          · simp only [add_ref, h, if_neg hallocated, if_pos hstring]
            exact hset INC_COUNTED_REF
        · refine ⟨if x = a then fun b => { b with ref := ushort (b.ref + 1) } else id,
            fun c => ?_, ?_⟩
          · by_cases hx : x = a
            · rw [if_pos hx]
              exact ⟨rfl, rfl, rfl, rfl⟩
            · rw [if_neg hx]
              exact hid c
          · simp only [add_ref, h, if_neg hallocated, if_neg hstring]
            exact hset fun b => { b with ref := ushort (b.ref + 1) }

theorem add_ref_slots (m : memory) (v : svalue_t) : (add_ref m v).slots = m.slots := by
  cases v with
  | number n => rfl
  | block a =>
    simp only [add_ref]
    split
    · rfl
    · split_ifs <;> rfl

theorem add_ref_ne {x : Nat} (h : x ≠ a) : (add_ref m (.block a)).blocks[x]? = m.blocks[x]? := by
  simp only [add_ref]
  split
  · rfl
  · split_ifs
    · rfl
    · exact with_block_ne h _
    · exact with_block_ne h _

theorem read_add_ref (m : memory) (v : svalue_t) (p : place) : read (add_ref m v) p = read m p := by
  cases p with
  | slot i => simp only [read, add_ref_slots]
  | item a i =>
    obtain ⟨g, hg, hblock⟩ := add_ref_blocks m v a
    simp only [read, hblock]
    cases m.blocks[a]? with
    | none => rfl
    | some b =>
      obtain ⟨hitem, hallocated, -, -⟩ := hg b
      simp [hitem, hallocated]

/-! ## Places -/

theorem count_set_of_get [BEq α] (x : α) {l : List α} {c : α} (h : l[i]? = some c) (v : α) :
    (l.set i v).count x + [c].count x = l.count x + [v].count x := by
  induction l generalizing i with
  | nil => cases h
  | cons d l ih =>
    cases i with
    | zero =>
      cases getElem?_cons_zero.symm.trans h
      simp only [set_cons_zero, count_cons, count_nil]
      omega
    | succ i =>
      rw [getElem?_cons_succ] at h
      have := ih h
      simp only [set_cons_succ, count_cons, count_nil] at this ⊢
      omega

theorem write_blocks (m : memory) (v : svalue_t) (p : place) (x : Nat) :
    ∃ f : List svalue_t → List svalue_t, f [] = [] ∧
      (write m v p).blocks[x]? = (m.blocks[x]?).map fun b => { b with item := f b.item } := by
  cases p with
  | slot i => exact ⟨id, rfl, Option.map_id_apply.symm⟩
  | item a i =>
    by_cases hx : a = x
    · subst hx
      refine ⟨fun l => l.set i v, rfl, ?_⟩
      exact getElem?_modify_eq ..
    · refine ⟨id, rfl, ?_⟩
      have hne := getElem?_modify_ne (fun b : block_t => { b with item := b.item.set i v })
        m.blocks hx
      exact hne.trans Option.map_id_apply.symm

def Clean (m : memory) : Prop :=
  ∀ (a : Nat) b, m.blocks[a]? = some b → b.allocated = true → b.null = false →
    b.immortal = false → b.ref ≠ 0

theorem clean_write (hclean : Clean m) (v : svalue_t) (p : place) : Clean (write m v p) := by
  intro a b hb hallocated hnull himmortal
  obtain ⟨f, -, hblock⟩ := write_blocks m v p a
  rw [hblock, Option.map_eq_some_iff] at hb
  obtain ⟨c, hc, rfl⟩ := hb
  exact hclean a c hc hallocated hnull himmortal

theorem clean_freed (hclean : Clean m) (h : Freed m m') : Clean m' := by
  intro a b' hb' hallocated hnull himmortal hzero
  have hlt : a < m.blocks.length := by
    rw [← h.length]
    exact (List.getElem?_eq_some_iff.mp hb').1
  obtain ⟨c, hc, hafter⟩ := h.block a _ (getElem?_eq_getElem hlt)
  cases hb'.symm.trans hc
  have hnull' := hafter.null.symm.trans hnull
  have himmortal' := hafter.immortal.symm.trans himmortal
  exact hclean a _ (getElem?_eq_getElem hlt) (hafter.allocated hallocated) hnull' himmortal'
    (hafter.zero hallocated hnull' himmortal' hzero)

theorem counts_of_items (hsound : Sound m held) (hclean : Clean m) (hb : m.blocks[a]? = some b)
    (hallocated : b.allocated = true) (hitem : b.item ≠ []) : b.ref ≠ 0 := by
  have hfits := hsound.fits a b hb
  apply hclean a b hb hallocated
  · exact Bool.eq_false_iff.mpr fun hnull => hitem (hfits.empty (.inl hnull))
  · apply hfits.mortal
    intro hstring
    exact hitem (hfits.empty (.inr (by rw [hstring]; rfl)))

theorem counts_of_read (hsound : Sound m held) (hclean : Clean m) (h : read m (.item a i) = some v)
     :
    ∃ b, m.blocks[a]? = some b ∧ b.allocated = true ∧ b.ref ≠ 0 ∧ b.item[i]? = some v := by
  simp only [read] at h
  cases hb : m.blocks[a]? with
  | none => simp [hb] at h
  | some b =>
    simp only [hb] at h
    split_ifs at h with hallocated
    refine ⟨b, rfl, hallocated, ?_, h⟩
    have hitem : b.item ≠ [] := fun hnil => by simp [hnil] at h
    exact counts_of_items hsound hclean hb hallocated hitem

theorem total_write (hsound : Sound m held) (hclean : Clean m) (h : read m p = some old)
    (v : svalue_t) (held' : List svalue_t) (x : Nat) :
    total (write m v p) held' x + [old].count (.block x) =
      total m held' x + [v].count (.block x) := by
  cases p with
  | slot i =>
    have := count_set_of_get (.block x) (show m.slots[i]? = some old from h) v
    unfold total write
    simp only
    omega
  | item a i =>
    obtain ⟨b, hb, hallocated, href, hitem⟩ := counts_of_read hsound hclean h
    have hwrite : write m v (.item a i) = with_block m a { b with item := b.item.set i v } := by
      unfold write with_block
      simp only
      rw [modify_eq_set_getElem?, hb]
      rfl
    have hblock := total_with_block hb { b with item := b.item.set i v } held' x
    have hold : live_items b = b.item := if_pos ⟨hallocated, href⟩
    have hnew : live_items { b with item := b.item.set i v } = b.item.set i v :=
      if_pos ⟨hallocated, href⟩
    have hset := count_set_of_get (.block x) hitem v
    rw [hold, hnew] at hblock
    rw [hwrite]
    omega

theorem sound_write {held' : List svalue_t} (hsound : Sound m held)
    (htotal : ∀ x, total (write m v p) held' x = total m held x) : Sound (write m v p) held' := by
  have hdangling : (write m v p).dangling = m.dangling := by
    cases p <;> rfl
  refine ⟨hdangling.trans hsound.dangling, ?_, ?_, ?_⟩
  · intro a b hb
    obtain ⟨f, hnil, hblock⟩ := write_blocks m v p a
    rw [hblock, Option.map_eq_some_iff] at hb
    obtain ⟨c, hc, rfl⟩ := hb
    rw [htotal]
    refine { hsound.fits a c hc with empty := ?_ }
    intro hempty
    change f c.item = []
    rw [(hsound.fits a c hc).empty hempty, hnil]
  · intro a hpos
    rw [htotal] at hpos
    obtain ⟨b, hb, hallocated⟩ := hsound.points a hpos
    obtain ⟨f, -, hblock⟩ := write_blocks m v p a
    rw [hb, Option.map_some] at hblock
    exact ⟨_, hblock, hallocated⟩
  · intro a ha
    obtain ⟨b, hb, hnull⟩ := hsound.shared a ha
    obtain ⟨f, -, hblock⟩ := write_blocks m v p a
    rw [hb, Option.map_some] at hblock
    exact ⟨_, hblock, hnull⟩

/-! ## Assigning -/

structure Steady (m : memory) : Prop where
  sound : Sound m []
  clean : Clean m

theorem total_of_read (hsound : Sound m held) (hclean : Clean m) (h : read m p = some (.block a)) :
    0 < total m held a := by
  cases p with
  | slot i =>
    have hpos := count_pos_iff.mpr (mem_of_getElem? (show m.slots[i]? = _ from h))
    unfold total
    omega
  | item c i =>
    obtain ⟨b, hb, hallocated, href, hitem⟩ := counts_of_read hsound hclean h
    have hmem : svalue_t.block a ∈ m.blocks.flatMap live_items := by
      refine mem_flatMap.mpr ⟨b, mem_of_getElem? hb, ?_⟩
      rw [show live_items b = b.item from if_pos ⟨hallocated, href⟩]
      exact mem_of_getElem? hitem
    have hpos := count_pos_iff.mpr hmem
    unfold total
    omega

theorem clean_add_ref (hsound : Sound (add_ref m v) (v :: held)) (hclean : Clean m) :
    Clean (add_ref m v) := by
  cases v with
  | number n => exact hclean
  | block a =>
    intro x b hb hallocated hnull himmortal
    by_cases hx : x = a
    · subst hx
      have hcount := (hsound.fits x b hb).counted hallocated hnull himmortal
      rw [total_cons_self] at hcount
      omega
    · rw [add_ref_ne hx] at hb
      exact hclean x b hb hallocated hnull himmortal

theorem modify_set (l : List α) (a c : Nat) (b : α) (f : α → α) :
    (l.set a b).modify c f = (l.modify c f).set a (if c = a then f b else b) := by
  induction l generalizing a c with
  | nil => cases a <;> cases c <;> rfl
  | cons d l ih =>
    cases a with
    | zero => cases c <;> rfl
    | succ a =>
      cases c with
      | zero => rfl
      | succ c =>
        simp [ih]

theorem add_ref_write (m : memory) (v w : svalue_t) (p : place) :
    add_ref (write m w p) v = write (add_ref m v) w p := by
  cases v with
  | number n => cases p <;> rfl
  | block a =>
    cases p with
    | slot i =>
      simp only [add_ref, write]
      cases m.blocks[a]? with
      | none => rfl
      | some b => simp only; split_ifs <;> rfl
    | item c i =>
      simp only [add_ref, write, getElem?_modify]
      cases m.blocks[a]? with
      | none => rfl
      | some b =>
        by_cases hc : c = a
        · subst hc
          simp only [if_true, Option.map_eq_map, Option.map_some]
          split_ifs
          · rfl
          · rw [modify_set, if_pos rfl]
            simp only [INC_COUNTED_REF]
            split_ifs <;> rfl
          · rw [modify_set, if_pos rfl]
        · simp only [if_neg hc, Option.map_eq_map, Option.map_some]
          split_ifs
          · rfl
          · rw [modify_set, if_neg hc]
          · rw [modify_set, if_neg hc]

def references (m : memory) (a : Nat) : Nat :=
  m.slots.count (.block a) +
    (m.blocks.flatMap fun b => if b.allocated = true then b.item else []).count (.block a)

theorem total_eq_references (hsound : Sound m held) (hclean : Clean m) (a : Nat) :
    total m held a = references m a + held.count (.block a) := by
  have hsame : m.blocks.flatMap (fun b => if b.allocated = true then b.item else []) =
      m.blocks.flatMap live_items := by
    apply flatMap_congr
    intro b hb
    obtain ⟨x, hx⟩ := getElem?_of_mem hb
    unfold live_items
    by_cases hitem : b.item = []
    · simp [hitem]
    · by_cases hallocated : b.allocated = true
      · simp [hallocated, counts_of_items hsound hclean hx hallocated hitem]
      · simp [hallocated]
  unfold references total
  rw [hsame]
  omega

theorem references_eq (h : Steady m) (a : Nat) : references m a = total m [] a :=
  (total_eq_references h.sound h.clean a).symm

theorem flatMap_eq_of_getElem {β : Type} {f : α → List β} {l l' : List α}
    (h : ∀ i : Nat, (l[i]?).map f = (l'[i]?).map f) : l.flatMap f = l'.flatMap f := by
  have hmap : l.map f = l'.map f := by
    apply ext_getElem?
    intro i
    rw [getElem?_map, getElem?_map]
    exact h i
  rw [flatMap_def, flatMap_def, hmap]

theorem references_add_ref (m : memory) (v : svalue_t) (x : Nat) :
    references (add_ref m v) x = references m x := by
  have hsame : (add_ref m v).blocks.flatMap
      (fun b : block_t => if b.allocated = true then b.item else []) =
      m.blocks.flatMap fun b => if b.allocated = true then b.item else [] := by
    apply flatMap_eq_of_getElem
    intro i
    obtain ⟨g, hg, hblock⟩ := add_ref_blocks m v i
    rw [hblock, Option.map_map]
    congr 1
    funext b
    obtain ⟨hitem, hallocated, -, -⟩ := hg b
    simp [Function.comp, hitem, hallocated]
  unfold references
  rw [add_ref_slots, hsame]

theorem references_write (h : read m p = some old) (v : svalue_t) (x : Nat) :
    references (write m v p) x + [old].count (.block x) =
      references m x + [v].count (.block x) := by
  cases p with
  | slot i =>
    have := count_set_of_get (.block x) (show m.slots[i]? = some old from h) v
    unfold references write
    simp only
    omega
  | item a i =>
    simp only [read] at h
    cases hb : m.blocks[a]? with
    | none => simp [hb] at h
    | some b =>
      simp only [hb] at h
      split_ifs at h with hallocated
      have hset := count_set_of_get (.block x) h v
      have hblock := count_flatMap_set
        (fun b : block_t => if b.allocated = true then b.item else []) (.block x) hb
        { b with item := b.item.set i v }
      simp only [if_pos hallocated] at hblock
      unfold references write
      simp only
      rw [modify_eq_set_getElem?, hb]
      simp only [Option.map_eq_map, Option.map_some, Option.getD_some]
      omega

theorem references_push (m : memory) (v : svalue_t) (x : Nat) :
    references (push_svalue m v) x = references m x + [v].count (.block x) := by
  unfold references push_svalue
  simp only [count_append]
  omega

/-- No string apart, no block has more references than its count can tell. -/
def Bounded (m : memory) : Prop :=
  ∀ (a : Nat) b, m.blocks[a]? = some b → b.type ≠ .T_STRING → b.null = false →
    references m a ≤ 65535

theorem sound_add_ref_of_read (hsound : Sound m held) (hclean : Clean m) (hread : read m p = some v)
    (hroom : ∀ a b, v = .block a → m.blocks[a]? = some b → b.allocated = true →
      b.type ≠ .T_STRING → b.null = false → b.ref < 65535) :
    Sound (add_ref m v) (v :: held) ∧ Clean (add_ref m v) := by
  have hthere : ∀ a, v = .block a →
      0 < total m held a ∧ ∃ b, m.blocks[a]? = some b ∧ b.allocated = true := by
    rintro a rfl
    have hpos := total_of_read hsound hclean hread
    exact ⟨hpos, hsound.points a hpos⟩
  have hadded : Sound (add_ref m v) (v :: held) := by
    apply sound_add_ref hsound
    · intro a ha
      obtain ⟨hpos, b, hb, hallocated⟩ := hthere a ha
      exact ⟨b, hb, hallocated, .inr hpos⟩
    · intro a b ha hb
      obtain ⟨-, c, hc, hallocated⟩ := hthere a ha
      cases hb.symm.trans hc
      exact hroom a b ha hb hallocated
  exact ⟨hadded, clean_add_ref hadded hclean⟩

theorem steady_add_ref (h : Steady m) (hread : read m p = some v)
    (hroom : ∀ a b, v = .block a → m.blocks[a]? = some b → b.type ≠ .T_STRING → b.null = false →
      references m a < 65535) : Sound (add_ref m v) [v] ∧ Clean (add_ref m v) := by
  apply sound_add_ref_of_read h.sound h.clean hread
  intro a b ha hb hallocated hother hnull
  have hfits := h.sound.fits a b hb
  rw [hfits.counted hallocated hnull (hfits.mortal hother), ← references_eq h]
  exact hroom a b ha hb hother hnull

theorem immortal_add_ref {b' : block_t} (hb' : (add_ref m v).blocks[a]? = some b')
    (himmortal : b'.immortal = true) :
    ∃ b, m.blocks[a]? = some b ∧ (b.immortal = true ∨
      v = .block a ∧ b.type = .T_STRING ∧ b.allocated = true ∧ ushort (b.ref + 1) = 0) := by
  cases v with
  | number n => exact ⟨b', hb', .inl himmortal⟩
  | block c =>
    by_cases hc : a = c
    · subst hc
      cases h : m.blocks[a]? with
      | none =>
        obtain ⟨g, -, hblock⟩ := add_ref_blocks m (.block a) a
        simp [hblock, h] at hb'
      | some b =>
        refine ⟨b, rfl, ?_⟩
        simp only [add_ref, h] at hb'
        split_ifs at hb' with hallocated hstring
        · rw [h, Option.some.injEq] at hb'
          rw [hb']
          exact .inl himmortal
        · have hset := with_block_self h (INC_COUNTED_REF b)
          rw [show (with_block m a (INC_COUNTED_REF b)).blocks[a]? = some b' from hb',
            Option.some.injEq] at hset
          rw [hset, INC_COUNTED_REF] at himmortal
          split_ifs at himmortal with href
          · refine .inr ⟨rfl, hstring, ?_, of_decide_eq_true himmortal⟩
            rwa [Bool.not_eq_true, Bool.not_eq_false'] at hallocated
          · exact .inl himmortal
        · have hset := with_block_self h { b with ref := ushort (b.ref + 1) }
          rw [show (with_block m a _).blocks[a]? = some b' from hb', Option.some.injEq] at hset
          rw [hset] at himmortal
          exact .inl himmortal
    · rw [add_ref_ne hc] at hb'
      exact ⟨b', hb', .inl himmortal⟩

structure Grown (m m' : memory) : Prop where
  kept : ∀ (a : Nat) b, m.blocks[a]? = some b →
    ∃ b', m'.blocks[a]? = some b' ∧ b'.type = b.type ∧ b'.null = b.null
  more : ∀ a, references m a ≤ references m' a

theorem Grown.refl (m : memory) : Grown m m :=
  ⟨fun _ b hb => ⟨b, hb, rfl, rfl⟩, fun _ => Nat.le_refl _⟩

theorem Grown.trans {m₁ m₂ m₃ : memory} (h₁ : Grown m₁ m₂) (h₂ : Grown m₂ m₃) : Grown m₁ m₃ := by
  refine ⟨?_, fun a => Nat.le_trans (h₁.more a) (h₂.more a)⟩
  intro a b hb
  obtain ⟨c, hc, htype, hnull⟩ := h₁.kept a b hb
  obtain ⟨d, hd, htype', hnull'⟩ := h₂.kept a c hc
  exact ⟨d, hd, htype'.trans htype, hnull'.trans hnull⟩

theorem bounded_of_grown (h : Grown m m') (hbound : Bounded m') : Bounded m := by
  intro a b hb hstring hnull
  obtain ⟨b', hb', htype, hnull'⟩ := h.kept a b hb
  have hle := hbound a b' hb' (by rw [htype]; exact hstring) (hnull'.trans hnull)
  exact Nat.le_trans (h.more a) hle

theorem room_of_grown (h : Grown m m') (hbound : Bounded m')
    (hmore : ∀ a, references m a + [v].count (.block a) ≤ references m' a) :
    ∀ a b, v = .block a → m.blocks[a]? = some b → b.type ≠ .T_STRING → b.null = false →
      references m a < 65535 := by
  rintro a b rfl hb hstring hnull
  obtain ⟨b', hb', htype, hnull'⟩ := h.kept a b hb
  have hle := hbound a b' hb' (by rw [htype]; exact hstring) (hnull'.trans hnull)
  have := hmore a
  rw [count_singleton_self] at this
  omega

def Reborn (m m' : memory) : Prop :=
  ∀ (a : Nat) b', m'.blocks[a]? = some b' → b'.immortal = true →
    (∃ b, m.blocks[a]? = some b ∧ b.immortal = true) ∨ 65536 ≤ references m' a

theorem references_of_full (h : Steady m) (hb : m.blocks[a]? = some b)
    (hstring : b.type = .T_STRING) (hallocated : b.allocated = true)
    (hfull : ushort (b.ref + 1) = 0) : references m a = 65535 := by
  have hfits := h.sound.fits a b hb
  have hsmall := hfits.small
  unfold ushort at hfull
  have himmortal : b.immortal = false := by
    rw [Bool.eq_false_iff]
    intro himmortal
    have := (hfits.immortal himmortal).2.1
    omega
  have hnull : b.null = false := by
    rw [Bool.eq_false_iff]
    intro hnull
    exact (hfits.null hnull).1 hstring
  rw [references_eq h, ← hfits.counted hallocated hnull himmortal]
  omega

theorem sound_push (hsound : Sound m (v :: held)) : Sound (push_svalue m v) held := by
  have htotal : ∀ x, total (push_svalue m v) held x = total m (v :: held) x := by
    intro x
    unfold total push_svalue
    simp only [count_append, count_cons, count_nil]
    omega
  refine ⟨hsound.dangling, ?_, ?_, hsound.shared⟩
  · intro a b hb
    rw [htotal]
    exact hsound.fits a b hb
  · intro a hpos
    rw [htotal] at hpos
    exact hsound.points a hpos

theorem add_ref_push (m : memory) (v w : svalue_t) :
    add_ref (push_svalue m w) v = push_svalue (add_ref m v) w := by
  cases v with
  | number n => rfl
  | block a =>
    simp only [add_ref, push_svalue]
    cases m.blocks[a]? with
    | none => rfl
    | some b => simp only; split_ifs <;> rfl

theorem grown_push (m : memory) (v : svalue_t) : Grown m (add_ref (push_svalue m v) v) := by
  constructor
  · intro a b hb
    obtain ⟨g, hg, hblock⟩ := add_ref_blocks (push_svalue m v) v a
    rw [show (push_svalue m v).blocks[a]? = some b from hb, Option.map_some] at hblock
    exact ⟨g b, hblock, (hg b).2.2.1, (hg b).2.2.2⟩
  · intro a
    rw [references_add_ref, references_push]
    omega

theorem steady_push (h : Steady m) (hread : read m p = some v)
    (hbound : Bounded (add_ref (push_svalue m v) v)) :
    Steady (add_ref (push_svalue m v) v) ∧ Reborn m (add_ref (push_svalue m v) v) := by
  have hmore : ∀ a, references (add_ref (push_svalue m v) v) a =
      references m a + [v].count (.block a) := by
    intro a
    rw [references_add_ref, references_push]
  obtain ⟨hsound, hclean⟩ := steady_add_ref h hread
    (room_of_grown (grown_push m v) hbound fun a => Nat.le_of_eq (hmore a).symm)
  constructor
  · rw [add_ref_push]
    exact ⟨sound_push hsound, hclean⟩
  · intro a b' hb' himmortal
    obtain ⟨b, hb, hold | ⟨rfl, hstring, hallocated, hfull⟩⟩ := immortal_add_ref hb' himmortal
    · exact .inl ⟨b, hb, hold⟩
    · have := references_of_full h hb hstring hallocated hfull
      rw [hmore, count_singleton_self]
      exact .inr (by omega)

theorem references_assign (hdest : read m dest = some (.number n)) (v : svalue_t) (a : Nat) :
    references (add_ref (write m v dest) v) a = references m a + [v].count (.block a) := by
  have hwrite := references_write hdest v a
  rw [count_cons_of_ne (by simp), count_nil] at hwrite
  rw [references_add_ref]
  omega

theorem grown_assign (hdest : read m dest = some (.number n)) (v : svalue_t) :
    Grown m (add_ref (write m v dest) v) := by
  constructor
  · intro a b hb
    obtain ⟨f, -, hwrite⟩ := write_blocks m v dest a
    obtain ⟨g, hg, hblock⟩ := add_ref_blocks (write m v dest) v a
    rw [hwrite, hb, Option.map_some, Option.map_some] at hblock
    exact ⟨_, hblock, (hg _).2.2.1, (hg _).2.2.2⟩
  · intro a
    rw [references_assign hdest]
    omega

theorem steady_assign (h : Steady m) (hdest : read m dest = some (.number n))
    (hread : read m p = some v) (hbound : Bounded (add_ref (write m v dest) v)) :
    Steady (add_ref (write m v dest) v) ∧ Reborn m (add_ref (write m v dest) v) := by
  obtain ⟨hsound, hclean⟩ := steady_add_ref h hread
    (room_of_grown (grown_assign hdest v) hbound
      fun a => Nat.le_of_eq (references_assign hdest v a).symm)
  constructor
  · rw [add_ref_write]
    refine ⟨sound_write hsound fun x => ?_, clean_write hclean v dest⟩
    have hdest' : read (add_ref m v) dest = some (.number n) := by
      rwa [read_add_ref]
    have htotal := total_write hsound hclean hdest' v [] x
    rw [count_cons_of_ne (by simp), count_nil] at htotal
    unfold total at htotal ⊢
    rw [count_nil] at htotal ⊢
    omega
  · intro a b' hb' himmortal
    obtain ⟨c, hc, hcase⟩ := immortal_add_ref hb' himmortal
    obtain ⟨f, -, hwrite⟩ := write_blocks m v dest a
    rw [hwrite, Option.map_eq_some_iff] at hc
    obtain ⟨b, hb, rfl⟩ := hc
    rcases hcase with hold | ⟨rfl, hstring, hallocated, hfull⟩
    · exact .inl ⟨b, hb, hold⟩
    · have := references_of_full h hb hstring hallocated hfull
      rw [references_assign hdest, count_singleton_self]
      exact .inr (by omega)

theorem assign_svalue_no_free_some (h : assign_svalue_no_free m dest «from» = some m') :
    ∃ n v, read m dest = some (.number n) ∧ read m «from» = some v ∧
      m' = add_ref (write m v dest) v := by
  unfold assign_svalue_no_free at h
  split at h
  · rename_i n v hdest hread
    rw [Option.some.injEq] at h
    exact ⟨n, v, hdest, hread, h.symm⟩
  · cases h

theorem grown_copy {num : Nat} (hcopy : copy_some_svalues m dest «from» num = some m') :
    Grown m m' := by
  induction num generalizing m with
  | zero =>
    cases hcopy
    exact Grown.refl _
  | succ num ih =>
    rw [copy_some_svalues, Option.bind_eq_some_iff] at hcopy
    obtain ⟨m₁, hassign, hcopy⟩ := hcopy
    obtain ⟨n, v, hdest, -, rfl⟩ := assign_svalue_no_free_some hassign
    exact (grown_assign hdest v).trans (ih hcopy)

theorem steady_copy (h : Steady m) {num : Nat}
    (hcopy : copy_some_svalues m dest «from» num = some m') (hbound : Bounded m') :
    Steady m' ∧ Reborn m m' := by
  induction num generalizing m with
  | zero =>
    cases hcopy
    exact ⟨h, fun a b hb himmortal => .inl ⟨b, hb, himmortal⟩⟩
  | succ num ih =>
    rw [copy_some_svalues, Option.bind_eq_some_iff] at hcopy
    obtain ⟨m₁, hassign, hcopy⟩ := hcopy
    obtain ⟨n, v, hdest, hread, rfl⟩ := assign_svalue_no_free_some hassign
    have hgrown := grown_copy hcopy
    obtain ⟨hsteady, hreborn⟩ := steady_assign h hdest hread (bounded_of_grown hgrown hbound)
    obtain ⟨hsteady', hreborn'⟩ := ih hsteady hcopy
    refine ⟨hsteady', fun a b hb himmortal => ?_⟩
    rcases hreborn' a b hb himmortal with ⟨c, hc, himmortal⟩ | hmany
    · rcases hreborn a c hc himmortal with hold | hmany
      · exact .inl hold
      · have := hgrown.more a
        exact .inr (by omega)
    · exact .inr hmany

theorem steady_free (h : Steady m) (hread : read m p = some old) :
    Steady (free_place m p old) ∧ Freed (write m (.number 0) p) (free_place m p old) := by
  have hsound : Sound (write m (.number 0) p) [old] := by
    apply sound_write h.sound
    intro x
    have htotal := total_write h.sound h.clean hread (.number 0) [old] x
    rw [count_cons_of_ne (show svalue_t.number 0 ≠ .block x by simp), count_nil]
      at htotal
    unfold total at htotal ⊢
    rw [count_nil]
    omega
  have hclean := clean_write h.clean (.number 0) p
  have hlive : live (write m (.number 0) p) < m.blocks.length + 1 := by
    have hle : live (write m (.number 0) p) ≤ (write m (.number 0) p).blocks.length :=
      countP_le_length
    have hlen : (write m (.number 0) p).blocks.length = m.blocks.length := by
      cases p with
      | slot i => rfl
      | item a i => exact length_modify ..
    omega
  obtain ⟨hend, hfreed⟩ := sound_free_svalue hsound hlive
  exact ⟨⟨hend, clean_freed hclean hfreed⟩, hfreed⟩

theorem immortal_free (h : Freed (write m (.number 0) p) (free_place m p old)) {b' : block_t}
    (hb' : (free_place m p old).blocks[a]? = some b') :
    ∃ b, m.blocks[a]? = some b ∧ b'.immortal = b.immortal := by
  have hlt : a < (write m (.number 0) p).blocks.length := by
    rw [← h.length]
    exact (List.getElem?_eq_some_iff.mp hb').1
  obtain ⟨c, hc, hafter⟩ := h.block a _ (getElem?_eq_getElem hlt)
  cases hb'.symm.trans hc
  obtain ⟨f, -, hwrite⟩ := write_blocks m (.number 0) p a
  rw [getElem?_eq_getElem hlt] at hwrite
  obtain ⟨b, hb, hbf⟩ := Option.map_eq_some_iff.mp hwrite.symm
  refine ⟨b, hb, ?_⟩
  rw [hafter.immortal, ← hbf]

/-- The places that something else than the destination leads to: another slot, and the items of a
block that is read at such a place. -/
inductive Held (m : memory) (dest : place) : place → Prop
  | slot {i : Nat} : place.slot i ≠ dest → Held m dest (.slot i)
  | item {p : place} {a i : Nat} : Held m dest p → read m p = some (.block a) →
      place.item a i ≠ dest → Held m dest (.item a i)

theorem Held.ne (h : Held m dest p) : p ≠ dest := by
  cases h with
  | slot h => exact h
  | item _ _ h => exact h

theorem held_block (h : Steady m) (hread : read m dest = some old)
    (ha : ∃ p, read (free_place m dest old) p = some (.block a)) :
    ∃ b' c, (free_place m dest old).blocks[a]? = some b' ∧ b'.allocated = true ∧
      (write m (.number 0) dest).blocks[a]? = some c ∧ b'.item = c.item := by
  obtain ⟨hsteady, hfreed⟩ := steady_free h hread
  obtain ⟨p, hp⟩ := ha
  obtain ⟨b', hb', hallocated⟩ :=
    hsteady.sound.points a (total_of_read hsteady.sound hsteady.clean hp)
  have hlt : a < (write m (.number 0) dest).blocks.length := by
    rw [← hfreed.length]
    exact (List.getElem?_eq_some_iff.mp hb').1
  obtain ⟨d, hd, hafter⟩ := hfreed.block a _ (getElem?_eq_getElem hlt)
  cases hb'.symm.trans hd
  exact ⟨b', _, hb', hallocated, getElem?_eq_getElem hlt, hafter.item⟩

theorem read_item (hb : m.blocks[a]? = some b) (hallocated : b.allocated = true) :
    read m (.item a i) = b.item[i]? := by simp [read, hb, if_pos hallocated]

theorem read_held (h : Steady m) (hread : read m dest = some old) (hheld : Held m dest p)
    (hp : read m p = some v) : read (free_place m dest old) p = some v := by
  obtain ⟨hsteady, hfreed⟩ := steady_free h hread
  induction hheld generalizing v with
  | @slot i hne =>
    have hslots : (free_place m dest old).slots[i]? = m.slots[i]? := by
      rw [hfreed.slots]
      cases dest with
      | slot j =>
        apply getElem?_set_ne
        rintro rfl
        exact hne rfl
      | item a j => rfl
    exact hslots.trans hp
  | @item q a i _ hq hne ih =>
    obtain ⟨b', c, hb', hallocated', hc, hitem⟩ := held_block h hread ⟨q, ih hq⟩
    obtain ⟨b, hb, hallocated, -, hget⟩ := counts_of_read h.sound h.clean hp
    rw [read_item hb' hallocated', hitem]
    cases dest with
    | slot j =>
      have hsame : m.blocks[a]? = some c := hc
      rw [hb, Option.some.injEq] at hsame
      rwa [← hsame]
    | item d j =>
      by_cases hd : d = a
      · subst hd
        have hset : (write m (.number 0) (.item d j)).blocks[d]? =
            (m.blocks[d]?).map fun b => { b with item := b.item.set j (.number 0) } :=
          getElem?_modify_eq ..
        rw [hset, hb, Option.map_some, Option.some.injEq] at hc
        rw [← hc]
        have hij : j ≠ i := by
          rintro rfl
          exact hne rfl
        rwa [getElem?_set_ne hij]
      · have hsame : (write m (.number 0) (.item d j)).blocks[a]? = m.blocks[a]? :=
          getElem?_modify_ne _ _ hd
        rw [hsame, hb, Option.some.injEq] at hc
        rwa [← hc]

/-- The destination is a slot, or something else leads to its block. -/
def DestHeld (m : memory) : place → Prop
  | .slot _ => True
  | .item a i => ∃ p, Held m (.item a i) p ∧ read m p = some (.block a)

theorem read_dest (h : Steady m) (hread : read m dest = some old) (hheld : DestHeld m dest) :
    read (free_place m dest old) dest = some (.number 0) := by
  cases dest with
  | slot i =>
    obtain ⟨-, hfreed⟩ := steady_free h hread
    have hset : (write m (.number 0) (.slot i)).slots[i]? = some (.number 0) :=
      getElem?_set_self (List.getElem?_eq_some_iff.mp (show m.slots[i]? = _ from hread)).1
    rwa [← hfreed.slots] at hset
  | item a i =>
    obtain ⟨p, hp, hpa⟩ := hheld
    obtain ⟨b', c, hb', hallocated', hc, hitem⟩ :=
      held_block h hread ⟨p, read_held h hread hp hpa⟩
    obtain ⟨b, hb, -, -, hget⟩ := counts_of_read h.sound h.clean hread
    have hset : (write m (.number 0) (.item a i)).blocks[a]? =
        (m.blocks[a]?).map fun b => { b with item := b.item.set i (.number 0) } :=
      getElem?_modify_eq ..
    rw [hset, hb, Option.map_some, Option.some.injEq] at hc
    rw [read_item hb' hallocated', hitem, ← hc]
    exact getElem?_set_self (List.getElem?_eq_some_iff.mp hget).1

/-! ## Allocating -/

theorem sound_hold_null (hsound : Sound m held) (hb : m.blocks[a]? = some b) (hnull : b.null = true) :
    Sound m (.block a :: held) := by
  refine ⟨hsound.dangling, ?_, ?_, hsound.shared⟩
  · intro x c hc
    by_cases hx : x = a
    · subst hx
      refine { hsound.fits x c hc with counted := ?_ }
      intro _ hnot
      rw [hb, Option.some.injEq] at hc
      simp [← hc, hnull] at hnot
    · rw [total_cons_ne (fun heq => hx (svalue_t.block.inj heq).symm)]
      exact hsound.fits x c hc
  · intro x hpos
    by_cases hx : x = a
    · subst hx
      exact ⟨b, hb, ((hsound.fits x b hb).null hnull).2⟩
    · rw [total_cons_ne (fun heq => hx (svalue_t.block.inj heq).symm)] at hpos
      exact hsound.points x hpos

def fresh (type : type_t) (n : Nat) : block_t :=
  { type
    ref := 1
    item := replicate n (.number 0)
    allocated := true
    null := false
    immortal := false }

theorem getElem_fresh {type : type_t} {n x : Nat} (hb : (m.blocks ++ [fresh type n])[x]? = some b) :
    m.blocks[x]? = some b ∨ x = m.blocks.length ∧ b = fresh type n := by
  rcases Nat.lt_trichotomy x m.blocks.length with hx | rfl | hx
  · rw [getElem?_append_left hx] at hb
    exact .inl hb
  · rw [getElem?_concat_length, Option.some.injEq] at hb
    exact .inr ⟨rfl, hb.symm⟩
  · rw [getElem?_eq_none (by simp; omega)] at hb
    cases hb

theorem steady_allocate (h : Steady m) {type : type_t} {n : Nat} (hn : n = 0 ∨ has_items type) :
    Steady (push_svalue { m with blocks := m.blocks ++ [fresh type n] }
      (.block m.blocks.length)) := by
  have hnew : total m [] m.blocks.length = 0 := by
    by_contra hne
    obtain ⟨b, hb, -⟩ := h.sound.points m.blocks.length (by omega)
    simp at hb
  have hitems : ∀ x, (live_items (fresh type n)).count (.block x) = 0 := by
    intro x
    rw [count_eq_zero]
    intro hmem
    have hmem : svalue_t.block x ∈ replicate n (svalue_t.number 0) := hmem
    cases (mem_replicate.mp hmem).2
  have htotal : ∀ held x, total { m with blocks := m.blocks ++ [fresh type n] } held x =
      total m held x := by
    intro held x
    unfold total
    simp [hitems]
  have hold : ∀ (x : Nat) b, m.blocks[x]? = some b → (m.blocks ++ [fresh type n])[x]? = some b := by
    intro x b hb
    rwa [getElem?_append_left (List.getElem?_eq_some_iff.mp hb).1]
  constructor
  · apply sound_push
    refine ⟨h.sound.dangling, ?_, ?_, ?_⟩
    · intro x b hb
      rw [htotal]
      rcases getElem_fresh hb with hb | ⟨rfl, rfl⟩
      · have hlt := (List.getElem?_eq_some_iff.mp hb).1
        rw [total_cons_ne (fun heq => by
          have := svalue_t.block.inj heq
          omega)]
        exact h.sound.fits x b hb
      · rw [total_cons_self, hnew]
        refine ⟨show 1 ≤ 65535 by omega, ?_, ?_, ?_, fun _ _ _ => rfl⟩
        · rintro (hnull | hno)
          · cases hnull
          · rcases hn with rfl | hyes
            · rfl
            · simp [show has_items type = false from hno] at hyes
        · nofun
        · nofun
    · intro x hpos
      rw [htotal] at hpos
      by_cases hx : x = m.blocks.length
      · subst hx
        exact ⟨fresh type n, getElem?_concat_length .., rfl⟩
      · rw [total_cons_ne (fun heq => hx (svalue_t.block.inj heq).symm)] at hpos
        obtain ⟨b, hb, hallocated⟩ := h.sound.points x hpos
        exact ⟨b, hold x b hb, hallocated⟩
    · intro x hx
      obtain ⟨b, hb, hnull⟩ := h.sound.shared x hx
      exact ⟨b, hold x b hb, hnull⟩
  · intro x b hb
    rcases getElem_fresh hb with hb | ⟨rfl, rfl⟩
    · exact h.clean x b hb
    · intro _ _ _ hzero
      cases hzero

/-! ## Runs -/

theorem steady_start : Steady start := by
  have hblock : ∀ (a : Nat) b, start.blocks[a]? = some b → b.null = true ∧ b.type ≠ .T_STRING ∧
      b.allocated = true ∧ b.item = [] ∧ b.immortal = false ∧ b.ref = 1 := by
    intro a b hb
    match a with
    | 0 =>
      cases hb
      decide
    | 1 =>
      cases hb
      decide
    | _ + 2 => cases hb
  have htotal : ∀ a, total start [] a = 0 := by
    intro a
    rfl
  refine ⟨⟨rfl, ?_, ?_, ?_⟩, ?_⟩
  · intro a b hb
    obtain ⟨hnull, hstring, hallocated, hitem, himmortal, href⟩ := hblock a b hb
    refine ⟨by omega, fun _ => hitem, fun _ => ⟨hstring, hallocated⟩, ?_, ?_⟩
    · simp [himmortal]
    · intro _ hnot
      simp [hnull] at hnot
  · intro a hpos
    rw [htotal] at hpos
    omega
  · intro a ha
    match a with
    | 0 => exact ⟨_, rfl, rfl⟩
    | 1 => exact ⟨_, rfl, rfl⟩
  · intro a b hb _ hnot
    simp [(hblock a b hb).1] at hnot

/-- No block but a string gets more references than its count can tell, and what a value is assigned
from, or assigned to, is held by something else than the value that goes. -/
def Within (m : memory) (a : action) : Prop :=
  (∀ m', step m a = some m' → Bounded m') ∧
    match a with
    | .assign dest «from» => Held m dest «from» ∧ DestHeld m dest
    | _ => True

theorem reborn_of_same (h : ∀ (a : Nat) b', m'.blocks[a]? = some b' →
    b'.immortal = true → ∃ b, m.blocks[a]? = some b ∧ b.immortal = true) : Reborn m m' :=
  fun a b' hb' himmortal => .inl (h a b' hb' himmortal)

theorem steady_step (h : Steady m) {a : action} (hwithin : Within m a) (hstep : step m a = some m') :
    Steady m' ∧ Reborn m m' := by
  obtain ⟨hbound, hheld⟩ := hwithin
  replace hbound := hbound m' hstep
  cases a with
  | allocate type n =>
    simp only [step] at hstep
    split_ifs at hstep with hn
    cases hstep
    constructor
    · apply steady_allocate h
      rcases hn with hn | hn
      · exact .inl hn.1
      · exact .inr hn.2
    · apply reborn_of_same
      intro x b hb himmortal
      rcases getElem_fresh hb with hb | ⟨-, rfl⟩
      · exact ⟨b, hb, himmortal⟩
      · cases himmortal
  | null_array =>
    cases hstep
    obtain ⟨b, hb, hnull⟩ := h.sound.shared 0 (by omega)
    refine ⟨⟨sound_push (sound_hold_null h.sound hb hnull), h.clean⟩, ?_⟩
    exact reborn_of_same fun x b hb himmortal => ⟨b, hb, himmortal⟩
  | null_buffer =>
    cases hstep
    obtain ⟨b, hb, hnull⟩ := h.sound.shared 1 (by omega)
    have hstring := (h.sound.fits 1 b hb).null hnull
    have hsound : Sound (add_ref m (.block 1)) [.block 1] := by
      apply sound_add_ref h.sound
      · rintro x hx
        cases hx
        exact ⟨b, hb, hstring.2, .inl hnull⟩
      · rintro x c hx hc - hnot
        cases hx
        rw [hb, Option.some.injEq] at hc
        simp [← hc, hnull] at hnot
    constructor
    · rw [add_ref_push]
      exact ⟨sound_push hsound, clean_add_ref hsound h.clean⟩
    · apply reborn_of_same
      intro x b' hb' himmortal
      obtain ⟨c, hc, hold | ⟨hx, hyes, -⟩⟩ := immortal_add_ref hb' himmortal
      · exact ⟨c, hc, hold⟩
      · cases hx
        have hc : m.blocks[1]? = some c := hc
        rw [hb, Option.some.injEq] at hc
        rw [← hc] at hyes
        exact absurd hyes hstring.1
  | push p =>
    simp only [step] at hstep
    cases hread : read m p with
    | none =>
      simp [hread] at hstep
    | some v =>
      rw [hread] at hstep
      cases hstep
      exact steady_push h hread hbound
  | assign_no_free dest «from» =>
    obtain ⟨n, v, hdest, hread, rfl⟩ := assign_svalue_no_free_some hstep
    exact steady_assign h hdest hread hbound
  | assign dest «from» =>
    simp only [step] at hstep
    unfold assign_svalue at hstep
    split at hstep
    · rename_i old v hdest hread
      obtain ⟨hsteady, hfreed⟩ := steady_free h hdest
      have hdest' := read_dest h hdest hheld.2
      have hread' := read_held h hdest hheld.1 hread
      simp only [if_neg hheld.1.ne, hdest', hread', Option.some.injEq] at hstep
      subst hstep
      obtain ⟨hend, hreborn⟩ := steady_assign hsteady hdest' hread' hbound
      refine ⟨hend, fun x b' hb' himmortal => ?_⟩
      rcases hreborn x b' hb' himmortal with ⟨c, hc, himmortal⟩ | hmany
      · obtain ⟨b, hb, hsame⟩ := immortal_free hfreed hc
        exact .inl ⟨b, hb, hsame.symm.trans himmortal⟩
      · exact .inr hmany
    · cases hstep
  | copy dest «from» num => exact steady_copy h hstep hbound
  | free p =>
    simp only [step] at hstep
    cases hread : read m p with
    | none =>
      simp [hread] at hstep
    | some v =>
      rw [hread] at hstep
      cases hstep
      obtain ⟨hsteady, hfreed⟩ := steady_free h hread
      refine ⟨hsteady, reborn_of_same fun x b' hb' himmortal => ?_⟩
      obtain ⟨b, hb, hsame⟩ := immortal_free hfreed hb'
      exact ⟨b, hb, hsame.symm.trans himmortal⟩

theorem steady_reachable (h : Reachable start step Within m) : Steady m := by
  refine h.inv steady_start ?_
  intro m a m' hsteady hwithin hstep
  exact (steady_step hsteady hwithin hstep).1

/-- The same, when the block never has more references than its count can tell. -/
def WithinAt (a : Nat) (m : memory) (act : action) : Prop :=
  Within m act ∧ ∀ m', step m act = some m' → references m' a ≤ 65535

theorem mortal_reachable (h : Reachable start step (WithinAt a) m) :
    Steady m ∧ ∀ b, m.blocks[a]? = some b → b.immortal = false := by
  refine Reachable.inv (I := fun m => Steady m ∧ ∀ b, m.blocks[a]? = some b → b.immortal = false)
    ⟨steady_start, ?_⟩ ?_ h
  · intro b hb
    match a with
    | 0 =>
      cases hb
      rfl
    | 1 =>
      cases hb
      rfl
    | _ + 2 => cases hb
  · rintro m act m' ⟨hsteady, hmortal⟩ ⟨hwithin, hfew⟩ hstep
    obtain ⟨hend, hreborn⟩ := steady_step hsteady hwithin hstep
    refine ⟨hend, fun b' hb' => ?_⟩
    rw [Bool.eq_false_iff]
    intro himmortal
    rcases hreborn a b' hb' himmortal with ⟨b, hb, hyes⟩ | hmany
    · simp [hmortal b hb] at hyes
    · have := hfew m' hstep
      omega

structure Right (m : memory) : Prop where
  dangling : m.dangling = false
  /-- No block goes while there is a reference to it. -/
  there : ∀ a : Nat, 0 < references m a → ∃ b, m.blocks[a]? = some b ∧ b.allocated = true
  /-- A block goes with its last reference, and its count is the number of its references. -/
  exact : ∀ (a : Nat) b, m.blocks[a]? = some b → b.null = false → b.immortal = false →
    (b.allocated = true ↔ 0 < references m a) ∧ (b.allocated = true → b.ref = references m a)
  /-- A string that has had too many references stays. -/
  immortal : ∀ (a : Nat) b, m.blocks[a]? = some b → b.immortal = true →
    b.type = .T_STRING ∧ b.ref = 0 ∧ b.allocated = true
  shared : ∀ (a : Nat) b, m.blocks[a]? = some b → b.null = true → b.allocated = true

theorem right_of_steady (h : Steady m) : Right m := by
  refine ⟨h.sound.dangling, ?_, ?_, ?_, ?_⟩
  · intro a hpos
    rw [references_eq h] at hpos
    exact h.sound.points a hpos
  · intro a b hb hnull himmortal
    have hfits := h.sound.fits a b hb
    rw [references_eq h]
    constructor
    · constructor
      · intro hallocated
        have hcount := hfits.counted hallocated hnull himmortal
        have href := h.clean a b hb hallocated hnull himmortal
        omega
      · intro hpos
        obtain ⟨c, hc, hallocated⟩ := h.sound.points a hpos
        rw [hb, Option.some.injEq] at hc
        rwa [hc]
    · intro hallocated
      exact hfits.counted hallocated hnull himmortal
  · intro a b hb himmortal
    exact (h.sound.fits a b hb).immortal himmortal
  · intro a b hb hnull
    exact ((h.sound.fits a b hb).null hnull).2

/-- Blocks go with their last reference, when no block but a string has more references than its
count can tell; a string goes so too, unless it has had more. -/
theorem blocks_go_with_last_reference (h : Reachable start step Within m) :
    Right m ∧ ∀ a, Reachable start step (WithinAt a) m →
      ∀ b, m.blocks[a]? = some b → b.immortal = false :=
  ⟨right_of_steady (steady_reachable h), fun _ ha => (mortal_reachable ha).2⟩

/-- A value is assigned from a slot, to another one or to an item of what a slot holds, and there
are not many references. -/
def easy (m : memory) (act : action) : Bool :=
  (match step m act with
    | none => true
    | some m' => (range m'.blocks.length).all fun a => references m' a ≤ 65535) &&
  match act with
  | .assign (.slot i) (.slot j) => i ≠ j
  | .assign (.item a _) (.slot _) => m.slots.contains (.block a)
  | .assign _ (.item _ _) => false
  | _ => true

theorem within_of_easy {act : action} (h : easy m act = true) : Within m act := by
  unfold easy at h
  rw [Bool.and_eq_true] at h
  obtain ⟨hfew, heasy⟩ := h
  constructor
  · intro m' hstep a b hb _ _
    simp only [hstep, all_eq_true, mem_range, decide_eq_true_eq] at hfew
    exact hfew a (List.getElem?_eq_some_iff.mp hb).1
  · cases act with
    | assign dest «from» =>
      cases «from» with
      | item a i => cases dest <;> cases heasy
      | slot j =>
        cases dest with
        | slot i =>
          have hij : i ≠ j := of_decide_eq_true heasy
          refine ⟨.slot ?_, trivial⟩
          intro h
          exact hij (place.slot.inj h).symm
        | item a i =>
          rw [contains_iff_mem] at heasy
          obtain ⟨k, hk⟩ := getElem?_of_mem heasy
          exact ⟨.slot (by simp), .slot k, .slot (by simp), hk⟩
    | allocate => trivial
    | null_array => trivial
    | null_buffer => trivial
    | push => trivial
    | assign_no_free => trivial
    | copy => trivial
    | free => trivial

/-- A string is put in an array twice, and both go when the array has no reference any more. -/
def putting : List action :=
  [.allocate .T_ARRAY 2, .allocate .T_STRING 0, .assign (.item 2 0) (.slot 1),
    .copy (.item 2 1) (.slot 1) 1, .push (.slot 0), .free (.slot 1), .free (.slot 0),
    .assign (.slot 2) (.slot 0)]

theorem string_goes_with_array : ∃ m, run step start putting = some m ∧ Right m ∧
    m.blocks.map (fun b => (b.ref, b.allocated)) =
      [(1, true), (1, true), (0, false), (0, false)] := by
  have hok : Along step (fun m act => easy m act = true) start putting := by decide
  exact (Reachable.of_computed hok (by decide)).imp fun m h =>
    ⟨h.1, (blocks_go_with_last_reference (h.2.2.mono fun _ _ => within_of_easy)).1, h.2.1⟩

def many (b : block_t) (n : Nat) : memory :=
  { start with slots := replicate n (.block 2), blocks := start.blocks ++ [b] }

theorem many_succ (b : block_t) (n : Nat) :
    push_svalue (many b n) (.block 2) = many b (n + 1) := by
  unfold push_svalue many
  rw [replicate_succ']

theorem push_string (hallocated : b.allocated = true) (hstring : b.type = .T_STRING) (n : Nat) :
    step (many b (n + 1)) (.push (.slot 0)) = some (many (INC_COUNTED_REF b) (n + 2)) := by
  have hadd : add_ref (push_svalue (many b (n + 1)) (.block 2)) (.block 2) =
      push_svalue (many (INC_COUNTED_REF b) (n + 1)) (.block 2) := by
    have hblock : (push_svalue (many b (n + 1)) (.block 2)).blocks[2]? = some b := rfl
    simp only [add_ref, hblock, hallocated, hstring, Bool.not_true, Bool.false_eq_true, if_false,
      if_true]
    rfl
  change some (add_ref (push_svalue (many b (n + 1)) (.block 2)) (.block 2)) = _
  rw [hadd, many_succ]

theorem push_other (hallocated : b.allocated = true) (hother : b.type ≠ .T_STRING) (n : Nat) :
    step (many b (n + 1)) (.push (.slot 0)) =
      some (many { b with ref := ushort (b.ref + 1) } (n + 2)) := by
  have hadd : add_ref (push_svalue (many b (n + 1)) (.block 2)) (.block 2) =
      push_svalue (many { b with ref := ushort (b.ref + 1) } (n + 1)) (.block 2) := by
    have hblock : (push_svalue (many b (n + 1)) (.block 2)).blocks[2]? = some b := rfl
    have hstays : ¬ (!b.allocated) = true := by
      rw [hallocated]
      decide
    simp only [add_ref, hblock, if_neg hother]
    rw [if_neg hstays]
    rfl
  change some (add_ref (push_svalue (many b (n + 1)) (.block 2)) (.block 2)) = _
  rw [hadd, many_succ]

theorem run_push_string {n : Nat} (hn : n ≤ 65534) :
    run step start (.allocate .T_STRING 0 :: replicate n (.push (.slot 0))) =
      some (many { fresh .T_STRING 0 with ref := n + 1 } (n + 1)) := by
  induction n with
  | zero => rfl
  | succ n ih =>
    rw [replicate_succ', ← cons_append, run_append, ih (by omega), Option.bind_some, run,
      push_string rfl rfl, Option.bind_some, run]
    unfold INC_COUNTED_REF ushort
    rw [if_pos (Nat.succ_ne_zero n)]
    simp only
    rw [Nat.mod_eq_of_lt (by omega)]
    simp only [Nat.succ_ne_zero, decide_false]
    rfl

theorem run_push_array (n : Nat) :
    run step start (.allocate .T_ARRAY 1 :: replicate n (.push (.slot 0))) =
      some (many { fresh .T_ARRAY 1 with ref := ushort (n + 1) } (n + 1)) := by
  induction n with
  | zero => rfl
  | succ n ih =>
    rw [replicate_succ', ← cons_append, run_append, ih, Option.bind_some, run,
      push_other rfl (fun h => by cases h), Option.bind_some, run]
    unfold ushort
    simp

def mixed (b : block_t) (i n : Nat) : memory :=
  { start with
    slots := replicate i (.number 0) ++ replicate n (.block 2)
    blocks := start.blocks ++ [b] }

theorem read_mixed (b : block_t) (i n : Nat) :
    read (mixed b i (n + 1)) (.slot i) = some (.block 2) := by
  change (replicate i (svalue_t.number 0) ++
    replicate (n + 1) (svalue_t.block 2))[i]? = _
  rw [getElem?_append_right (Nat.le_of_eq length_replicate), length_replicate,
    Nat.sub_self]
  rfl

theorem write_mixed (b : block_t) (i n : Nat) :
    write (mixed b i (n + 1)) (.number 0) (.slot i) = mixed b (i + 1) n := by
  unfold write mixed
  simp only
  rw [set_append_right _ _ (Nat.le_of_eq length_replicate), length_replicate,
    Nat.sub_self, replicate_succ, set_cons_zero, replicate_succ', append_assoc]
  rfl

theorem run_free_immortal (hallocated : b.allocated = true) (hstring : b.type = .T_STRING)
    (hzero : b.ref = 0) (i n : Nat) :
    run step (mixed b i n) ((range' i n).map fun i => .free (.slot i)) =
      some (mixed b (i + n) 0) := by
  induction n generalizing i with
  | zero => rfl
  | succ n ih =>
    have hfree : free_svalue 4 (mixed b (i + 1) n) (.block 2) = mixed b (i + 1) n := by
      have hblock : (mixed b (i + 1) n).blocks[2]? = some b := rfl
      rw [free_svalue]
      simp [hblock, hallocated, hstring, hzero]
    have hstep : step (mixed b i (n + 1)) (.free (.slot i)) = some (mixed b (i + 1) n) := by
      simp only [step, read_mixed]
      unfold free_place
      rw [write_mixed]
      exact congrArg some hfree
    rw [range'_succ, map_cons, run, hstep, Option.bind_some, ih (i + 1)]
    rw [show i + 1 + n = i + (n + 1) by omega]

theorem references_mixed (b : block_t) (hitem : b.item.count (.block 2) = 0) (i n : Nat) :
    references (mixed b i n) 2 = n := by
  have hblocks : ((start.blocks ++ [b]).flatMap fun b =>
      if b.allocated = true then b.item else []).count (.block 2) = 0 := by
    rw [flatMap_append, count_append]
    have hone : ([b].flatMap fun b => if b.allocated = true then b.item else []) =
        if b.allocated = true then b.item else [] := by
      rw [flatMap_cons, flatMap_nil, append_nil]
    rw [hone]
    split_ifs
    · rw [hitem]
      rfl
    · rfl
  unfold references mixed
  simp only
  rw [hblocks, count_append, count_replicate_self, count_replicate]
  simp

/-- A string is there when its 65536 references are freed, an array is gone when one of its 65537
references is, and an array that is assigned to its own variable is used when it is gone. -/
theorem counts_end :
    (∃ m, Reachable start step (fun _ _ => True) m ∧ references m 2 = 0 ∧
      ∃ b, m.blocks[2]? = some b ∧ b.null = false ∧ b.allocated = true) ∧
    (∃ m, Reachable start step (fun _ _ => True) m ∧ references m 2 = 65536 ∧
      ∃ b, m.blocks[2]? = some b ∧ b.allocated = false) ∧
    (run step start [.allocate .T_ARRAY 1, .assign (.slot 0) (.slot 0)]).map (·.dangling) =
      some true := by
  have halong : ∀ acts, Along step (fun _ _ => True) start acts :=
    fun acts => Along.of_forall (fun _ _ => trivial) start acts
  have hmany : ∀ b n, many b n = mixed b 0 n := fun _ _ => rfl
  refine ⟨?_, ?_, by decide⟩
  · have hpush := run_push_string (n := 65534) (Nat.le_refl _)
    have hfull := push_string (b := { fresh .T_STRING 0 with ref := 65534 + 1 }) rfl rfl 65534
    have hfree := run_free_immortal
      (b := INC_COUNTED_REF { fresh .T_STRING 0 with ref := 65534 + 1 }) rfl rfl rfl 0 65536
    have hreach := (Reachable.start.of_run (halong _) hpush).step trivial hfull
    rw [hmany] at hreach
    refine ⟨_, hreach.of_run (Along.of_forall (fun _ _ => trivial) _ _) hfree, ?_, _, rfl, rfl, rfl⟩
    exact references_mixed _ rfl _ _
  · have hpush := run_push_array 65536
    have hreach := Reachable.start.of_run (halong _) hpush
    have hfree : step (mixed { fresh .T_ARRAY 1 with ref := ushort (65536 + 1) } 0 65537)
        (.free (.slot 0)) =
        some (mixed { fresh .T_ARRAY 1 with ref := 0, allocated := false } 1 65536) := by
      simp only [step, read_mixed]
      unfold free_place
      rw [write_mixed]
      rfl
    refine ⟨_, hreach.step trivial hfree, ?_, _, rfl, rfl⟩
    exact references_mixed _ rfl _ _

end mudos.reference_counts
