-- Values are freed: every block that has no reference any more goes with the items it has held, and
-- the counts of the others stay what they tell.
import MudOS.ReferenceCounts
import Mathlib.Data.List.Basic

open List

namespace mudos.reference_counts

variable {m : memory}
variable {a : Nat} {b : block_t} {held : List svalue_t}
variable {x fuel : Nat} {b' : block_t}

/-! ## References -/

/-- The items of a block, as long as it counts them: a block that is being deallocated has handed
them on. -/
def live_items (b : block_t) : List svalue_t :=
  if b.allocated = true ∧ b.ref ≠ 0 then b.item else []

/-- The references to a block, with those that the running code still has to free. -/
def total (m : memory) (held : List svalue_t) (a : Nat) : Nat :=
  m.slots.count (.block a) + held.count (.block a) +
    (m.blocks.flatMap live_items).count (.block a)

theorem count_flatMap_set {α β : Type} [BEq β] (f : α → List β) (x : β) {l : List α} {i : Nat}
    {b : α} (h : l[i]? = some b) (b' : α) :
    ((l.set i b').flatMap f).count x + (f b).count x =
      (l.flatMap f).count x + (f b').count x := by
  induction l generalizing i with
  | nil => cases h
  | cons c l ih =>
    cases i with
    | zero =>
      cases getElem?_cons_zero.symm.trans h
      simp only [set_cons_zero, flatMap_cons, count_append]
      omega
    | succ i =>
      rw [getElem?_cons_succ] at h
      have := ih h
      simp only [set_cons_succ, flatMap_cons, count_append]
      omega

def with_block (m : memory) (a : Nat) (b : block_t) : memory :=
  { m with blocks := m.blocks.set a b }

theorem total_with_block (h : m.blocks[a]? = some b) (b' : block_t) (held : List svalue_t)
    (x : Nat) :
    total (with_block m a b') held x + (live_items b).count (.block x) =
      total m held x + (live_items b').count (.block x) := by
  have := count_flatMap_set live_items (.block x) h b'
  unfold total with_block
  simp only
  omega

theorem with_block_self (h : m.blocks[a]? = some b) (b' : block_t) :
    (with_block m a b').blocks[a]? = some b' :=
  getElem?_set_self (List.getElem?_eq_some_iff.mp h).1

theorem with_block_ne (h : x ≠ a) (b' : block_t) : (with_block m a b').blocks[x]? = m.blocks[x]? :=
  getElem?_set_ne (fun hax => h hax.symm)

theorem FREE_eq (h : m.blocks[a]? = some b) :
    FREE m a = with_block m a { b with allocated := false } := by
  unfold FREE with_block
  rw [modify_eq_set_getElem?, h]
  rfl

theorem with_block_cases {c : block_t} (h : m.blocks[a]? = some b)
    (hc : (with_block m a b').blocks[x]? = some c) :
    x = a ∧ c = b' ∨ x ≠ a ∧ m.blocks[x]? = some c := by
  by_cases hx : x = a
  · subst hx
    rw [with_block_self h, Option.some.injEq] at hc
    exact .inl ⟨rfl, hc.symm⟩
  · rw [with_block_ne hx] at hc
    exact .inr ⟨hx, hc⟩

structure Fits (b : block_t) (n : Nat) : Prop where
  small : b.ref ≤ 65535
  empty : b.null = true ∨ has_items b.type = false → b.item = []
  null : b.null = true → b.type ≠ .T_STRING ∧ b.allocated = true
  immortal : b.immortal = true → b.type = .T_STRING ∧ b.ref = 0 ∧ b.allocated = true
  counted : b.allocated = true → b.null = false → b.immortal = false → b.ref = n

structure Sound (m : memory) (held : List svalue_t) : Prop where
  dangling : m.dangling = false
  fits : ∀ (a : Nat) b, m.blocks[a]? = some b → Fits b (total m held a)
  points : ∀ a : Nat, 0 < total m held a → ∃ b, m.blocks[a]? = some b ∧ b.allocated = true
  shared : ∀ a : Nat, a < 2 → ∃ b, m.blocks[a]? = some b ∧ b.null = true

theorem Fits.mortal {n : Nat} (h : Fits b n) (hother : b.type ≠ .T_STRING) : b.immortal = false := by
  exact Bool.eq_false_iff.mpr fun himmortal => hother (h.immortal himmortal).1

theorem Fits.not_null {n : Nat} (h : Fits b n) (hstring : b.type = .T_STRING) : b.null = false := by
  exact Bool.eq_false_iff.mpr fun hnull => (h.null hnull).1 hstring

theorem Sound.congr {m' : memory} {held' : List svalue_t} (h : Sound m held)
    (hblocks : m'.blocks = m.blocks) (hdangling : m'.dangling = m.dangling)
    (htotal : ∀ x, total m' held' x = total m held x) : Sound m' held' := by
  constructor
  · exact hdangling.trans h.dangling
  · simpa only [hblocks, htotal] using h.fits
  · simpa only [hblocks, htotal] using h.points
  · simpa only [hblocks] using h.shared

theorem sound_with_block {held' : List svalue_t} (hsound : Sound m held) (h : m.blocks[a]? = some b)
    (hother : ∀ x, x ≠ a → total (with_block m a b') held' x = total m held x)
    (hfits : Fits b' (total (with_block m a b') held' a))
    (hpoints : 0 < total (with_block m a b') held' a → b'.allocated = true)
    (hnull : b'.null = b.null) : Sound (with_block m a b') held' := by
  refine ⟨hsound.dangling, ?_, ?_, ?_⟩
  · intro x c hc
    rcases with_block_cases h hc with ⟨rfl, rfl⟩ | ⟨hx, hc⟩
    · exact hfits
    · rw [hother x hx]
      exact hsound.fits x c hc
  · intro x hpos
    by_cases hx : x = a
    · subst hx
      exact ⟨b', with_block_self h b', hpoints hpos⟩
    · rw [with_block_ne hx]
      rw [hother x hx] at hpos
      exact hsound.points x hpos
  · intro x hx
    obtain ⟨c, hc, hcnull⟩ := hsound.shared x hx
    by_cases hxa : x = a
    · subst hxa
      cases h.symm.trans hc
      exact ⟨b', with_block_self h b', hnull.trans hcnull⟩
    · rw [with_block_ne hxa]
      exact ⟨c, hc, hcnull⟩

/-! ## Freeing -/

theorem total_cons_self (a : Nat) (held : List svalue_t) :
    total m (.block a :: held) a = total m held a + 1 := by
  unfold total
  rw [count_cons_self]
  omega

theorem total_cons_ne {v : svalue_t} (h : v ≠ .block x) (held : List svalue_t) :
    total m (v :: held) x = total m held x := by
  unfold total
  rw [count_cons_of_ne h]

theorem sound_number {n : Int} (hsound : Sound m (.number n :: held)) : Sound m held :=
  hsound.congr rfl rfl fun _ => (total_cons_ne (fun h => by cases h) held).symm

theorem sound_uncounted (hsound : Sound m (.block a :: held)) (h : m.blocks[a]? = some b)
    (hb : b.null = true ∨ b.immortal = true) : Sound m held := by
  refine ⟨hsound.dangling, ?_, ?_, hsound.shared⟩
  · intro x c hc
    by_cases hx : x = a
    · subst hx
      cases h.symm.trans hc
      refine { hsound.fits x b h with counted := ?_ }
      intro _ hnull himmortal
      rcases hb with hb | hb
      · simp [hb] at hnull
      · simp [hb] at himmortal
    · have hne : svalue_t.block a ≠ .block x := by
        intro heq
        cases heq
        exact hx rfl
      rw [← total_cons_ne hne]
      exact hsound.fits x c hc
  · intro x hpos
    apply hsound.points x
    unfold total at hpos ⊢
    rw [count_cons]
    omega

theorem sound_null (hsound : Sound m held) (h : m.blocks[a]? = some b) (hnull : b.null = true)
    {ref : Nat} (href : ref ≤ 65535) : Sound (with_block m a { b with ref }) held := by
  have hfits := hsound.fits a b h
  have hitem := hfits.empty (.inl hnull)
  have hlive : ∀ c : block_t, c.item = [] → live_items c = [] := by
    intro c hc
    unfold live_items
    rw [hc, ite_self]
  have htotal : ∀ x, total (with_block m a { b with ref }) held x = total m held x := by
    intro x
    have := total_with_block h { b with ref } held x
    rwa [hlive b hitem, hlive { b with ref } hitem] at this
  apply sound_with_block hsound h (fun x _ => htotal x) _ (fun _ => (hfits.null hnull).2) rfl
  refine { hfits with small := href, immortal := ?_, counted := ?_ }
  · intro himmortal
    exact absurd (hfits.immortal himmortal).1 (hfits.null hnull).1
  · simp [hnull]

theorem sound_dec (hsound : Sound m (.block a :: held)) (h : m.blocks[a]? = some b)
    (hallocated : b.allocated = true) (hnull : b.null = false) (himmortal : b.immortal = false) :
    1 ≤ b.ref ∧ Sound (with_block m a { b with ref := b.ref - 1 })
      ((if b.ref - 1 = 0 then b.item.reverse else []) ++ held) := by
  have hfits := hsound.fits a b h
  have href := hfits.counted hallocated hnull himmortal
  rw [total_cons_self] at href
  have htotal : ∀ x, total (with_block m a { b with ref := b.ref - 1 })
      ((if b.ref - 1 = 0 then b.item.reverse else []) ++ held) x = total m held x := by
    intro x
    have hblock := total_with_block h { b with ref := b.ref - 1 } held x
    unfold live_items at hblock
    rw [if_pos ⟨hallocated, by omega⟩] at hblock
    unfold total at hblock ⊢
    rw [count_append]
    by_cases hzero : b.ref - 1 = 0
    · rw [if_neg (fun hand => hand.2 hzero)] at hblock
      rw [if_pos hzero, count_reverse]
      rw [count_nil] at hblock
      omega
    · rw [if_pos ⟨hallocated, hzero⟩] at hblock
      rw [if_neg hzero, count_nil]
      dsimp only at hblock ⊢
      omega
  refine ⟨by omega, ?_⟩
  have hcons : ∀ x, x ≠ a → total m (.block a :: held) x = total m held x := by
    intro x hx
    apply total_cons_ne
    intro heq
    cases heq
    exact hx rfl
  apply sound_with_block hsound h
  · intro x hx
    rw [htotal, hcons x hx]
  · rw [htotal]
    have hsmall := hfits.small
    refine { hfits with small := ?_, immortal := ?_, counted := ?_ }
    · change b.ref - 1 ≤ 65535
      omega
    · simp [himmortal]
    · intro _ _ _
      change b.ref - 1 = total m held a
      omega
  · intro _
    exact hallocated
  · rfl

theorem sound_FREE (hsound : Sound m held) (h : m.blocks[a]? = some b)
    (hallocated : b.allocated = true) (hnull : b.null = false) (himmortal : b.immortal = false)
    (hzero : b.ref = 0) : Sound (FREE m a) held := by
  have hfits := hsound.fits a b h
  have href := hfits.counted hallocated hnull himmortal
  have htotal : ∀ x, total (with_block m a { b with allocated := false }) held x =
      total m held x := by
    intro x
    have hblock := total_with_block h { b with allocated := false } held x
    unfold live_items at hblock
    rwa [if_neg (fun hand => hand.2 hzero), if_neg (fun hand => by cases hand.1)] at hblock
  rw [FREE_eq h]
  apply sound_with_block hsound h (fun x _ => htotal x)
  · rw [htotal]
    refine { hfits with null := ?_, immortal := ?_, counted := ?_ }
    · simp [hnull]
    · simp [himmortal]
    · simp
  · intro hpos
    rw [htotal] at hpos
    omega
  · rfl

structure After (b b' : block_t) : Prop where
  type : b'.type = b.type
  item : b'.item = b.item
  null : b'.null = b.null
  immortal : b'.immortal = b.immortal
  allocated : b'.allocated = true → b.allocated = true
  ref : b.null = false → b'.ref ≤ b.ref
  /-- A block that is being deallocated is not touched. -/
  rest : b.null = false → b.ref = 0 → b' = b
  /-- None is left without references. -/
  zero : b'.allocated = true → b.null = false → b.immortal = false → b'.ref = 0 → b.ref = 0

theorem After.refl (b : block_t) : After b b :=
  ⟨rfl, rfl, rfl, rfl, id, fun _ => Nat.le_refl _, fun _ _ => rfl, fun _ _ _ h => h⟩

theorem After.trans {c d : block_t} (hbc : After b c) (hcd : After c d) : After b d := by
  refine ⟨hcd.type.trans hbc.type, hcd.item.trans hbc.item, hcd.null.trans hbc.null,
    hcd.immortal.trans hbc.immortal, fun h => hbc.allocated (hcd.allocated h), ?_, ?_, ?_⟩
  · intro hnull
    exact Nat.le_trans (hcd.ref (hbc.null.trans hnull)) (hbc.ref hnull)
  · intro hnull hzero
    have hc := hbc.rest hnull hzero
    subst hc
    exact hcd.rest hnull hzero
  · intro hallocated hnull himmortal hzero
    have hc := hcd.zero hallocated (hbc.null.trans hnull) (hbc.immortal.trans himmortal) hzero
    exact hbc.zero (hcd.allocated hallocated) hnull himmortal hc

structure Freed (m m' : memory) : Prop where
  slots : m'.slots = m.slots
  length : m'.blocks.length = m.blocks.length
  block : ∀ (a : Nat) b, m.blocks[a]? = some b → ∃ b', m'.blocks[a]? = some b' ∧ After b b'

theorem Freed.refl (m : memory) : Freed m m :=
  ⟨rfl, rfl, fun _ b hb => ⟨b, hb, After.refl b⟩⟩

theorem Freed.trans {m₁ m₂ m₃ : memory} (h₁ : Freed m₁ m₂) (h₂ : Freed m₂ m₃) : Freed m₁ m₃ := by
  refine ⟨h₂.slots.trans h₁.slots, h₂.length.trans h₁.length, ?_⟩
  intro a b hb
  obtain ⟨c, hc, hbc⟩ := h₁.block a b hb
  obtain ⟨d, hd, hcd⟩ := h₂.block a c hc
  exact ⟨d, hd, hbc.trans hcd⟩

theorem freed_with_block (h : m.blocks[a]? = some b) (hafter : After b b') :
    Freed m (with_block m a b') := by
  refine ⟨rfl, length_set .., ?_⟩
  intro x c hc
  by_cases hx : x = a
  · subst hx
    cases h.symm.trans hc
    exact ⟨b', with_block_self h b', hafter⟩
  · exact ⟨c, by rw [with_block_ne hx]; exact hc, After.refl c⟩

/-- The number of the blocks that can still lose their last reference. -/
def live (m : memory) : Nat :=
  m.blocks.countP fun b => b.allocated && !b.null && decide (b.ref ≠ 0)

theorem countP_le_of_imp {α : Type} (p : α → Bool) {l l' : List α} (hlen : l'.length = l.length)
    (h : ∀ (i : Nat) b b', l[i]? = some b → l'[i]? = some b' → p b' = true → p b = true) :
    l'.countP p ≤ l.countP p := by
  induction l generalizing l' with
  | nil =>
    have hnil := eq_nil_of_length_eq_zero hlen
    subst hnil
    exact Nat.le_refl _
  | cons b l ih =>
    cases l' with
    | nil => cases hlen
    | cons b' l' =>
      have hrest := ih (Nat.succ.inj hlen) fun i => h (i + 1)
      have hhead := h 0 b b' rfl rfl
      rw [countP_cons, countP_cons]
      by_cases hp : p b' = true
      · rw [if_pos hp, if_pos (hhead hp)]
        omega
      · rw [if_neg hp]
        omega

theorem live_freed {m' : memory} (h : Freed m m') : live m' ≤ live m := by
  apply countP_le_of_imp _ h.length
  intro a b b' hb hb' hp
  obtain ⟨c, hc, hafter⟩ := h.block a b hb
  cases hb'.symm.trans hc
  rw [Bool.and_eq_true, Bool.and_eq_true, decide_eq_true_eq, Bool.not_eq_true'] at hp ⊢
  have hnull : b.null = false := hafter.null.symm.trans hp.1.2
  have href := hafter.ref hnull
  exact ⟨⟨hafter.allocated hp.1.1, hnull⟩, by omega⟩

theorem live_with_zero (h : m.blocks[a]? = some b) (hallocated : b.allocated = true)
    (hnull : b.null = false) (href : b.ref ≠ 0) :
    live (with_block m a { b with ref := 0 }) < live m := by
  obtain ⟨hlt, hget⟩ := List.getElem?_eq_some_iff.mp h
  have hcount := countP_set
    (p := fun b : block_t => b.allocated && !b.null && decide (b.ref ≠ 0)) (l := m.blocks)
    (a := { b with ref := 0 }) hlt
  have hpos : 0 < m.blocks.countP
      (fun b : block_t => b.allocated && !b.null && decide (b.ref ≠ 0)) := by
    refine countP_pos_iff.mpr ⟨b, mem_of_getElem? h, ?_⟩
    rw [hallocated, hnull, decide_eq_true href]
    rfl
  rw [hget, if_pos (by rw [hallocated, hnull, decide_eq_true href]; rfl), if_neg (by simp)]
    at hcount
  unfold live with_block
  simp only
  omega

theorem sound_free_all (hone : ∀ m v held, Sound m (v :: held) → live m < fuel →
      Sound (free_svalue fuel m v) held ∧ Freed m (free_svalue fuel m v)) (l : List svalue_t)
    (hsound : Sound m (l ++ held)) (hfuel : live m < fuel) :
    Sound (l.foldl (free_svalue fuel) m) held ∧ Freed m (l.foldl (free_svalue fuel) m) := by
  induction l generalizing m with
  | nil => exact ⟨hsound, Freed.refl m⟩
  | cons v l ih =>
    obtain ⟨hnext, hfreed⟩ := hone m v (l ++ held) hsound hfuel
    have hlive := live_freed hfreed
    obtain ⟨hend, hrest⟩ := ih hnext (by omega)
    exact ⟨hend, hfreed.trans hrest⟩

theorem sound_free_string (hsound : Sound m (.block a :: held)) (h : m.blocks[a]? = some b)
    (hallocated : b.allocated = true) (hstring : b.type = .T_STRING) (href : b.ref ≠ 0) :
    let m' := with_block m a { b with ref := b.ref - 1 }
    Sound (if b.ref - 1 > 0 then m' else FREE m' a) held ∧
      Freed m (if b.ref - 1 > 0 then m' else FREE m' a) := by
  intro m'
  have hfits := hsound.fits a b h
  have hnull := hfits.not_null hstring
  have himmortal : b.immortal = false := by
    rw [Bool.eq_false_iff]
    intro himmortal
    exact href (hfits.immortal himmortal).2.1
  have hitem : b.item = [] := hfits.empty (.inr (by rw [hstring]; rfl))
  obtain ⟨-, hdec⟩ := sound_dec hsound h hallocated hnull himmortal
  have hnil : (if b.ref - 1 = 0 then b.item.reverse else []) = [] := by
    rw [hitem, reverse_nil, ite_self]
  rw [hnil, nil_append] at hdec
  have hblock : m'.blocks[a]? = some { b with ref := b.ref - 1 } := with_block_self h _
  by_cases hmore : b.ref - 1 > 0
  · rw [if_pos hmore]
    refine ⟨hdec, freed_with_block h ⟨rfl, rfl, rfl, rfl, id, fun _ => Nat.sub_le .., ?_, ?_⟩⟩
    · intro _ hzero
      exact absurd hzero href
    · intro _ _ _ hzero
      exact absurd hzero (by dsimp only; omega)
  · rw [if_neg hmore]
    refine ⟨sound_FREE hdec hblock hallocated hnull himmortal (by dsimp only; omega), ?_⟩
    rw [FREE_eq hblock]
    have hset : with_block m' a { b with ref := b.ref - 1, allocated := false } =
        with_block m a { b with ref := b.ref - 1, allocated := false } := by
      unfold m' with_block
      rw [set_set]
    rw [hset]
    refine freed_with_block h ⟨rfl, rfl, rfl, rfl, ?_, fun _ => Nat.sub_le .., ?_, ?_⟩
    · simp
    · intro _ hzero
      exact absurd hzero href
    · simp

theorem sound_dealloc (hone : ∀ m v held, Sound m (v :: held) → live m < fuel →
      Sound (free_svalue fuel m v) held ∧ Freed m (free_svalue fuel m v))
    (hsound : Sound m (.block a :: held)) (h : m.blocks[a]? = some b)
    (hallocated : b.allocated = true) (hnull : b.null = false) (himmortal : b.immortal = false)
    (hlast : b.ref = 1) (hfuel : live m < fuel + 1) :
    let m' := b.item.reverse.foldl (free_svalue fuel) (with_block m a { b with ref := 0 })
    Sound (FREE m' a) held ∧ Freed m (FREE m' a) := by
  intro m'
  obtain ⟨-, hdec⟩ := sound_dec hsound h hallocated hnull himmortal
  have hzero : b.ref - 1 = 0 := by omega
  rw [if_pos hzero, hzero] at hdec
  have hlive := live_with_zero h hallocated hnull (by omega)
  obtain ⟨hitems, hfreed⟩ := sound_free_all hone b.item.reverse hdec (by omega)
  obtain ⟨c, hc, hafter⟩ := hfreed.block a _ (with_block_self h _)
  have hsame := hafter.rest hnull rfl
  subst hsame
  have hc : m'.blocks[a]? = some { b with ref := 0 } := hc
  refine ⟨sound_FREE hitems hc hallocated hnull himmortal rfl, ?_⟩
  rw [FREE_eq hc]
  refine ⟨hfreed.slots, ?_, ?_⟩
  · exact (length_set ..).trans (hfreed.length.trans (length_set ..))
  · intro x d hd
    by_cases hx : x = a
    · subst hx
      cases h.symm.trans hd
      refine ⟨_, with_block_self hc _, rfl, rfl, rfl, rfl, ?_, fun _ => Nat.zero_le _, ?_, ?_⟩
      · simp
      · intro _ href
        omega
      · simp
    · rw [with_block_ne hx]
      apply hfreed.block
      rwa [with_block_ne hx]

theorem sound_free_svalue {v : svalue_t} (hsound : Sound m (v :: held)) (hfuel : live m < fuel) :
    Sound (free_svalue fuel m v) held ∧ Freed m (free_svalue fuel m v) := by
  induction fuel generalizing m v held with
  | zero => omega
  | succ fuel ih =>
    cases v with
    | number n => exact ⟨sound_number hsound, Freed.refl m⟩
    | block a =>
      obtain ⟨b, h, hallocated⟩ := hsound.points a (by rw [total_cons_self]; omega)
      have hfits := hsound.fits a b h
      have hstays : ¬ (!b.allocated) = true := by
        rw [hallocated]
        decide
      rw [free_svalue, h]
      simp only
      rw [if_neg hstays]
      by_cases hstring : b.type = .T_STRING
      · rw [if_pos hstring]
        by_cases href : b.ref = 0
        · rw [if_pos href]
          refine ⟨sound_uncounted hsound h ?_, Freed.refl m⟩
          cases himmortal : b.immortal with
          | true => exact .inr rfl
          | false =>
            cases hnull : b.null with
            | true => exact .inl rfl
            | false =>
              have hcount := hfits.counted hallocated hnull himmortal
              rw [total_cons_self] at hcount
              omega
        · rw [if_neg href]
          exact sound_free_string hsound h hallocated hstring href
      · rw [if_neg hstring]
        have himmortal := hfits.mortal hstring
        by_cases hnull : b.null = true
        · have hend : Sound (with_block m a { b with ref := ushort (b.ref + 65535) }) held := by
            refine sound_uncounted (sound_null hsound h hnull ?_) (with_block_self h _)
              (.inl hnull)
            unfold ushort
            omega
          have hfreed : Freed m (with_block m a { b with ref := ushort (b.ref + 65535) }) := by
            refine freed_with_block h ⟨rfl, rfl, rfl, rfl, id, ?_, ?_, ?_⟩ <;> simp [hnull]
          rw [if_pos hnull, ite_self]
          exact ⟨hend, hfreed⟩
        · rw [if_neg hnull]
          rw [Bool.not_eq_true] at hnull
          have hcount := hfits.counted hallocated hnull himmortal
          have hsmall := hfits.small
          rw [total_cons_self] at hcount
          have hushort : ushort (b.ref + 65535) = b.ref - 1 := by
            unfold ushort
            omega
          rw [hushort]
          by_cases hmore : b.ref - 1 ≠ 0
          · obtain ⟨-, hdec⟩ := sound_dec hsound h hallocated hnull himmortal
            rw [if_neg hmore, nil_append] at hdec
            rw [if_pos hmore]
            refine ⟨hdec, freed_with_block h
              ⟨rfl, rfl, rfl, rfl, id, fun _ => Nat.sub_le .., ?_, ?_⟩⟩
            · intro _ hzero
              omega
            · intro _ _ _ hzero
              exact absurd hzero hmore
          · rw [if_neg hmore]
            rw [not_not] at hmore
            rw [hmore]
            exact sound_dealloc (fun m v held => ih) hsound h hallocated hnull himmortal
              (by omega) hfuel

end mudos.reference_counts
