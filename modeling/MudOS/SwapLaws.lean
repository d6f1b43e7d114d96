-- The laws of the swap file. The live blocks and the free blocks tile the
-- file after every run in which no write fails on a block that the
-- allocator has carved out of the free list.
import MudOS.SwapFile
import Mathlib.Data.List.TakeWhile

open mudos.memory mudos.spans mudos.runs List Option

namespace mudos.swap

variable {s : swap_state} {f : Nat → UInt8} {n : Nat} {l : List sw_block} {w : Swapper}
  {live : List (Nat × mem_block)} {block : mem_block} {time_to_swap : Int}

variable {io : IoResult} {w' : Swapper}

/-! ## Reads and writes of the file -/

@[simp] theorem length_size_word (n : Nat) : (size_word n).length = SIZEOF_INT := rfl

theorem word_size_size_word (n : Nat) (h : n < 4294967296) : word_size (size_word n) = n := by
  simp only [size_word, word_size, UInt8.toNat_ofNat']
  omega

theorem swap_in_written (s : swap_state) (f : Nat → UInt8) (loc : Nat) (block : mem_block)
    (h : s.swap_file = some (fwrite f loc (size_word block.val.length ++ block.val))) :
    swap_in s (some loc) = (block.val.length, block.val) := by
  have hword := load_store f loc [] (size_word block.val.length) block.val
  have hblock := load_store f loc (size_word block.val.length) block.val []
  simp only [nil_append, length_nil, Nat.add_zero, append_nil,
    length_size_word] at hword hblock
  have hsize : block.val.length < 4294967296 := by
    have := block.property
    omega
  simp [swap_in, h, hword, word_size_size_word _ hsize, hblock]

theorem swap_in_congr {s' : swap_state} {g : Nat → UInt8} {held : Nat × mem_block}
    (hf : s.swap_file = some f) (hg : s'.swap_file = some g)
    (h : swap_in s (some held.1) = (held.2.val.length, held.2.val))
    (hfg : ∀ i, (heldSpan held).has i → g i = f i) :
    swap_in s' (some held.1) = (held.2.val.length, held.2.val) := by
  simp only [swap_in, hf, Prod.mk.injEq] at h
  obtain ⟨hsize, hblock⟩ := h
  rw [hsize] at hblock
  have hword : fread g held.1 SIZEOF_INT = fread f held.1 SIZEOF_INT := by
    apply load_congr
    intro i h1 h2
    apply hfg
    simp only [heldSpan, Span.has, Span.fin]
    omega
  have hbody : fread g (held.1 + SIZEOF_INT) held.2.val.length =
      fread f (held.1 + SIZEOF_INT) held.2.val.length := by
    apply load_congr
    intro i h1 h2
    apply hfg
    simp only [heldSpan, Span.has, Span.fin]
    omega
  simp [swap_in, hg, hword, hsize, hbody, hblock]

/-! ## The first fit -/

theorem alloc_swap_none {last_data : Nat} (h : ∀ b ∈ l, b.length < n) :
    alloc_swap last_data n l = (last_data, l) := by
  induction l with
  | nil => rfl
  | cons ptr next ih =>
    simp only [mem_cons, forall_eq_or_imp] at h
    simp [alloc_swap, h.1, ih h.2]

/-- What the first fit does with a free list that has a block large enough. -/
structure Carved (n : Nat) (l : List sw_block) (r : Nat × List sw_block) : Prop where
  count : ∀ i, coverCount (⟨r.1, n⟩ :: r.2) i = coverCount l i
  inside : ∃ b ∈ l, r.1 + n ≤ b.fin
  pos : (∀ b ∈ l, 0 < b.length) → ∀ b ∈ r.2, 0 < b.length
  trimmed : ∀ b ∈ r.2, ∃ c ∈ l, c.start ≤ b.start ∧ b.fin = c.fin
  sorted : l.Pairwise (fun a b => a.fin < b.start) → r.2.Pairwise fun a b => a.fin < b.start

theorem alloc_swap_some (last_data : Nat) (h : ∃ b ∈ l, n ≤ b.length) :
    Carved n l (alloc_swap last_data n l) := by
  induction l with
  | nil => simp at h
  | cons ptr next ih =>
    by_cases hlt : ptr.length < n
    · have hnext : ∃ b ∈ next, n ≤ b.length := by
        obtain ⟨b, hb, hn⟩ := h
        rcases mem_cons.1 hb with rfl | hb
        · omega
        · exact ⟨b, hb, hn⟩
      obtain ⟨hcount, ⟨c, hc, hin⟩, hpos, htrim, hsorted⟩ := ih hnext
      have he : alloc_swap last_data n (ptr :: next) = ((alloc_swap last_data n next).1,
          ptr :: (alloc_swap last_data n next).2) := by simp [alloc_swap, hlt]
      rw [he]
      refine ⟨fun i => ?_, ⟨c, by simp [hc], hin⟩, ?_, ?_, ?_⟩
      · have := hcount i
        simp only [coverCount_cons] at this ⊢
        omega
      · intro hp
        simp only [mem_cons, forall_eq_or_imp] at hp ⊢
        exact ⟨hp.1, hpos hp.2⟩
      · intro b hb
        rcases mem_cons.1 hb with rfl | hb
        · exact ⟨b, by simp, Nat.le_refl _, rfl⟩
        · obtain ⟨d, hd, hle⟩ := htrim b hb
          exact ⟨d, by simp [hd], hle⟩
      · intro hs
        rw [pairwise_cons] at hs ⊢
        refine ⟨fun b hb => ?_, hsorted hs.2⟩
        obtain ⟨d, hd, hle, _⟩ := htrim b hb
        exact Nat.lt_of_lt_of_le (hs.1 d hd) hle
    · by_cases hex : ptr.length - n = 0
      · have he : alloc_swap last_data n (ptr :: next) = (ptr.start, next) := by
          simp [alloc_swap, hlt, hex]
        have hlen : ptr = ⟨ptr.start, n⟩ := by
          obtain ⟨s, k⟩ := ptr
          simp only at hlt hex ⊢
          rw [show k = n by omega]
        rw [he]
        refine ⟨fun i => ?_, ⟨ptr, by simp, by unfold Span.fin; omega⟩, ?_, ?_, ?_⟩
        · rw [← hlen]
        · exact fun hp b hb => hp b (by simp [hb])
        · exact fun b hb => ⟨b, by simp [hb], Nat.le_refl _, rfl⟩
        · exact fun hs => (pairwise_cons.1 hs).2
      · have he : alloc_swap last_data n (ptr :: next) =
            (ptr.start, ⟨ptr.start + n, ptr.length - n⟩ :: next) := by
          simp [alloc_swap, hlt, hex]
        rw [he]
        refine ⟨fun i => ?_, ⟨ptr, by simp, by unfold Span.fin; omega⟩, ?_, ?_, ?_⟩
        · have hj := count_join (s := ⟨ptr.start, n⟩) (t := ⟨ptr.start + n, ptr.length - n⟩) rfl i
          simp only [show n + (ptr.length - n) = ptr.length by omega] at hj
          simp [coverCount_cons, ← Nat.add_assoc, hj]
        · intro hp b hb
          rcases mem_cons.1 hb with rfl | hb
          · simp only; omega
          · exact hp b (by simp [hb])
        · intro b hb
          rcases mem_cons.1 hb with rfl | hb
          · exact ⟨ptr, by simp, by simp, by simp only [Span.fin]; omega⟩
          · exact ⟨b, by simp [hb], Nat.le_refl _, rfl⟩
        · intro hs
          rw [pairwise_cons] at hs ⊢
          refine ⟨fun b hb => ?_, hs.2⟩
          have := hs.1 b hb
          simp only [Span.fin] at this ⊢
          omega

/-! ## The two joins -/

theorem join_next_start (m : sw_block) (l : List sw_block) : (join_next m l).1.start = m.start := by
  unfold join_next
  split
  · rfl
  · split <;> rfl

theorem join_next_length (m : sw_block) (l : List sw_block) :
    m.length ≤ (join_next m l).1.length := by
  unfold join_next
  split
  · exact Nat.le_refl _
  · split
    · exact Nat.le_add_right _ _
    · exact Nat.le_refl _

theorem join_next_count (m : sw_block) (l : List sw_block) (i : Nat) :
    coverCount ((join_next m l).1 :: (join_next m l).2) i = coverCount (m :: l) i := by
  unfold join_next
  split
  · rfl
  · split
    · rename_i ptr next ht
      simp [coverCount_cons, ← Nat.add_assoc, count_join ht i]
    · rfl

theorem join_next_sublist (m : sw_block) (l : List sw_block) : (join_next m l).2.Sublist l := by
  unfold join_next
  split
  · exact List.Sublist.refl _
  · split
    · exact sublist_cons_self _ _
    · exact List.Sublist.refl _

theorem join_next_gap {m : sw_block} (hle : ∀ b ∈ l, m.fin ≤ b.start)
    (hs : l.Pairwise fun a b => a.fin < b.start) :
    ∀ b ∈ (join_next m l).2, (join_next m l).1.fin < b.start := by
  unfold join_next
  split
  · simp
  · rename_i ptr next
    rw [pairwise_cons] at hs
    split
    · rename_i ht
      intro b hb
      have := hs.1 b hb
      simp only [Span.fin] at this ⊢
      omega
    · rename_i ht
      intro b hb
      have hptr := hle ptr (by simp)
      rcases mem_cons.1 hb with rfl | hb
      · simp [Span.fin] at hptr ⊢; omega
      · have := hs.1 b hb
        simp only [Span.fin] at this hptr ⊢
        omega

theorem join_prev_fin (l : List sw_block) (m : sw_block) : (join_prev l m).2.fin = m.fin := by
  unfold join_prev
  split
  · rfl
  · split
    · simp only [Span.fin]; omega
    · rfl

theorem join_prev_length (l : List sw_block) (m : sw_block) :
    m.length ≤ (join_prev l m).2.length := by
  unfold join_prev
  split
  · exact Nat.le_refl _
  · split
    · exact Nat.le_add_left _ _
    · exact Nat.le_refl _

theorem join_prev_prefix (l : List sw_block) (m : sw_block) : (join_prev l m).1 <+: l := by
  unfold join_prev
  split
  · exact prefix_refl _
  · split
    · exact dropLast_prefix _
    · exact prefix_refl _

theorem join_prev_count (l : List sw_block) (m : sw_block) (i : Nat) :
    coverCount ((join_prev l m).2 :: (join_prev l m).1) i = coverCount (m :: l) i := by
  unfold join_prev
  split
  · rfl
  · rename_i prev hlast
    obtain ⟨ys, rfl⟩ := getLast?_eq_some_iff.1 hlast
    split
    · rename_i ht
      have := count_join ht i
      simp only [dropLast_concat, coverCount_cons, coverCount_append, coverCount_nil]
      omega
    · rfl

theorem join_prev_gap {m : sw_block} (hle : ∀ b ∈ l, b.fin ≤ m.start) (hpos : ∀ b ∈ l, 0 < b.length)
    (hs : l.Pairwise fun a b => a.fin < b.start) :
    ∀ b ∈ (join_prev l m).1, b.fin < (join_prev l m).2.start := by
  unfold join_prev
  split
  · rename_i hlast
    rw [getLast?_eq_none_iff] at hlast
    simp [hlast]
  · rename_i prev hlast
    obtain ⟨ys, rfl⟩ := getLast?_eq_some_iff.1 hlast
    rw [pairwise_append] at hs
    have hprev := hle prev (by simp)
    split
    · intro b hb
      rw [dropLast_concat] at hb
      exact hs.2.2 b hb prev (by simp)
    · rename_i ht
      intro b hb
      rcases mem_append.1 hb with hb | hb
      · have h1 := hs.2.2 b hb prev (by simp)
        simp only [Span.fin] at h1 hprev ⊢
        omega
      · rw [mem_singleton] at hb
        subst hb
        simp only [Span.fin] at hprev ⊢
        omega

/-! ## A block is freed -/

/-- The free list: blocks of some length, sorted, with a gap between each two
and a gap before the end of the data. -/
structure FreeList (l : List sw_block) (last_data : Nat) : Prop where
  pos : ∀ b ∈ l, 0 < b.length
  sorted : l.Pairwise fun a b => a.fin < b.start
  below : ∀ b ∈ l, b.fin < last_data

theorem free_swap_file (s : swap_state) (start length : Nat) :
    (free_swap s start length).swap_file = s.swap_file := by
  simp only [free_swap]
  split <;> rfl

theorem lt_start_of_mem_rest {start : Nat} (hs : l.Pairwise fun a b => a.fin < b.start) :
    ∀ b ∈ l.dropWhile (fun ptr => !decide (start < ptr.start)), start < b.start := by
  induction l with
  | nil => simp
  | cons p l ih =>
    rw [pairwise_cons] at hs
    by_cases hp : start < p.start
    · intro b hb
      simp only [dropWhile_cons, hp, decide_true, Bool.not_true, Bool.false_eq_true,
        if_false] at hb
      rcases mem_cons.1 hb with rfl | hb
      · exact hp
      · have := hs.1 b hb
        unfold Span.fin at this
        omega
    · simpa only [dropWhile_cons, hp, decide_false, Bool.not_false, if_true] using ih hs.2

theorem free_swap_spec {live : List Span} {start length : Nat}
    (ht : Tiles (⟨start, length + SIZEOF_INT⟩ :: (live ++ s.swap_free)) s.last_data)
    (hf : FreeList s.swap_free s.last_data) :
    Tiles (live ++ (free_swap s start length).swap_free) (free_swap s start length).last_data ∧
      FreeList (free_swap s start length).swap_free (free_swap s start length).last_data := by
  obtain ⟨hpos, hsorted, hbelow⟩ := hf
  simp only [free_swap]
  generalize hbefore : s.swap_free.takeWhile (fun ptr => !decide (start < ptr.start)) = before
  generalize hrest : s.swap_free.dropWhile (fun ptr => !decide (start < ptr.start)) = rest
  have hsplit : before ++ rest = s.swap_free := by
    rw [← hbefore, ← hrest]; exact takeWhile_append_dropWhile
  generalize hm : Span.mk start (length + SIZEOF_INT) = m at ht ⊢
  have hmpos : 0 < m.length := by subst hm; exact Nat.succ_pos _
  have hapart := ht.pairwise
  rw [pairwise_cons] at hapart
  -- the blocks before `m` end before it, and the blocks after it start after it
  have hb : ∀ b ∈ before, b.fin ≤ m.start := by
    intro b hb
    have hle : b.start ≤ m.start := by
      rw [← hbefore] at hb
      have := mem_takeWhile_imp hb
      subst hm
      simpa using this
    refine Apart.fin_le (fun i hi => ?_) hle hmpos
    exact hapart.1 b (by rw [← hsplit]; simp [hb]) i hi.symm
  have hr : ∀ b ∈ rest, m.fin ≤ b.start := by
    intro b hb
    have hmem : b ∈ s.swap_free := by rw [← hsplit]; simp [hb]
    have hlt : m.start < b.start := by
      subst hm
      exact lt_start_of_mem_rest hsorted b (by rw [hrest]; assumption)
    exact Apart.fin_le (hapart.1 b (by simp [hmem])) (Nat.le_of_lt hlt) (hpos b hmem)
  rw [← hsplit, pairwise_append] at hsorted
  have hcount : ∀ i, coverCount ((join_prev before (join_next m rest).1).1 ++
      (join_prev before (join_next m rest).1).2 :: (join_next m rest).2) i =
      coverCount (m :: s.swap_free) i := by
    intro i
    have h1 := join_next_count m rest i
    have h2 := join_prev_count before (join_next m rest).1 i
    rw [← hsplit]
    simp only [coverCount_cons, coverCount_append] at h1 h2 ⊢
    omega
  have hstart := join_next_start m rest
  have hlen := join_next_length m rest
  have hafter := join_next_gap hr hsorted.2.1
  have hsub := join_next_sublist m rest
  generalize join_next m rest = q at *
  have hfin := join_prev_fin before q.1
  have hlen' := join_prev_length before q.1
  have hprev := join_prev_gap (m := q.1) (by rw [hstart]; exact hb)
    (fun b hb => hpos b (by rw [← hsplit]; simp [hb])) hsorted.1
  have hpre := join_prev_prefix before q.1
  generalize join_prev before q.1 = p at *
  have hmem1 : ∀ b ∈ p.1, b ∈ s.swap_free := fun b hb => by
    rw [← hsplit]; simp [hpre.subset hb]
  have hmem2 : ∀ b ∈ q.2, b ∈ s.swap_free := fun b hb => by
    rw [← hsplit]; simp [hsub.subset hb]
  have htiles : Tiles (live ++ (p.1 ++ p.2 :: q.2)) s.last_data := ht.of_count fun i => by
    have := hcount i
    simp only [coverCount_cons, coverCount_append] at this ⊢
    omega
  have hends : p.2.fin ≤ s.last_data := htiles.fin_le (by simp) (by omega)
  split
  · rename_i hend
    -- nothing is free after a block that reaches the end
    have hnil : q.2 = [] := by
      rw [eq_nil_iff_forall_not_mem]
      intro b hb
      have h1 := hafter b hb
      have h2 := hbelow b (hmem2 b hb)
      unfold Span.fin at *
      omega
    rw [hnil] at htiles
    refine ⟨?_, fun b hb => hpos b (hmem1 b hb), hsorted.1.sublist hpre.sublist, fun b hb => ?_⟩
    · apply Tiles.pop
      rw [hend]
      exact htiles.of_count fun i => by simp only [coverCount_cons, coverCount_append, coverCount_nil]; omega
    · exact hprev b hb
  · rename_i hend
    refine ⟨htiles, ?_, ?_, ?_⟩
    · intro b hb
      rcases mem_append.1 hb with hb | hb
      · exact hpos b (hmem1 b hb)
      · rcases mem_cons.1 hb with rfl | hb
        · omega
        · exact hpos b (hmem2 b hb)
    · rw [pairwise_append, pairwise_cons]
      refine ⟨hsorted.1.sublist hpre.sublist, ⟨fun b hb => by rw [hfin]; exact hafter b hb,
        hsorted.2.1.sublist hsub⟩, fun a ha b hb => ?_⟩
      rcases mem_cons.1 hb with rfl | hb
      · exact hprev a ha
      · exact hsorted.2.2 a (hpre.subset ha) b (hsub.subset hb)
    · intro b hb
      rcases mem_append.1 hb with hb | hb
      · exact hbelow b (hmem1 b hb)
      · rcases mem_cons.1 hb with rfl | hb
        · change p.2.fin < s.last_data
          unfold Span.fin at hends ⊢
          omega
        · exact hbelow b (hmem2 b hb)

/-! ## The invariant -/

structure Inv (w : Swapper) : Prop where
  tiles : Tiles (w.liveSpans ++ w.state.swap_free) w.state.last_data
  free : FreeList w.state.swap_free w.state.last_data
  contents : ∀ held ∈ w.live, swap_in w.state (some held.1) = (held.2.val.length, held.2.val)
  /-- Nothing is in a file that is not open. -/
  closed : w.state.swap_file = none →
    w.live = [] ∧ w.state.swap_free = [] ∧ w.state.last_data = 0

theorem Inv.sound (h : Inv w) : Sound w :=
  ⟨h.tiles.pairwise, h.free.sorted, h.free.below, h.tiles.covers, h.contents⟩

theorem inv_start : Inv Swapper.start := by
  refine ⟨fun i => ?_, ⟨?_, List.Pairwise.nil, ?_⟩, ?_, fun _ => ⟨rfl, rfl, rfl⟩⟩ <;>
    simp [Swapper.start, Swapper.liveSpans]

theorem Inv.opened (h : Inv w) (ho : assert_swap_file io w.state = some (f, s)) :
    s.swap_file = some f ∧ Inv ⟨s, w.live⟩ := by
  unfold assert_swap_file at ho
  split at ho
  · rename_i g hg
    cases ho
    exact ⟨hg, h⟩
  · rename_i hnone
    obtain ⟨hlive, hfree, hlast⟩ := h.closed hnone
    split at ho
    · cases ho
      refine ⟨rfl, ?_, ?_, ?_, ?_⟩
      · have := h.tiles
        simpa only [Swapper.liveSpans, hlive, hfree, hlast] using this
      · have := h.free
        simpa only [hfree, hlast] using this
      · intro held hheld
        simp [hlive] at hheld
      · nofun
    · cases ho

theorem contents_fwrite {s' : swap_state} {loc : Nat} {bytes : List UInt8}
    (hf : s.swap_file = some f) (hf' : s'.swap_file = some (fwrite f loc bytes))
    (hn : bytes.length ≤ n) (ha : ∀ held ∈ live, Apart ⟨loc, n⟩ (heldSpan held))
    (h : ∀ held ∈ live, swap_in s (some held.1) = (held.2.val.length, held.2.val)) :
    ∀ held ∈ live, swap_in s' (some held.1) = (held.2.val.length, held.2.val) := by
  intro held hheld
  refine swap_in_congr hf hf' (h held hheld) fun i hi => store_outside ?_
  have hno : ¬ (Span.mk loc n).has i := fun hl => ha held hheld i ⟨hl, hi⟩
  simp only [Span.has, Span.fin] at hno
  omega

theorem freeList_carved {last_data : Nat} {r : Nat × List sw_block} (hc : Carved n l r)
    (h : FreeList l last_data) : FreeList r.2 last_data := by
  refine ⟨hc.pos h.pos, hc.sorted h.sorted, fun b hb => ?_⟩
  obtain ⟨c, hcl, _, hfin⟩ := hc.trimmed b hb
  rw [hfin]
  exact h.below c hcl

/-! ## Each step keeps the invariant -/

theorem inv_swap_out_carved {r : Nat × List sw_block} (h : Inv ⟨s, live⟩)
    (hf : s.swap_file = some f) (hc : Carved (block.val.length + SIZEOF_INT) s.swap_free r) :
    Inv ⟨{ swap_file := some (fwrite f r.1 (size_word block.val.length ++ block.val)),
           swap_free := r.2, last_data := s.last_data }, (r.1, block) :: live⟩ := by
  have ht : Tiles (heldSpan (r.1, block) :: (live.map heldSpan ++ r.2)) s.last_data := by
    refine h.tiles.of_count fun i => ?_
    have := hc.count i
    simp only [Swapper.liveSpans, coverCount_append, coverCount_cons, heldSpan] at this ⊢
    omega
  refine ⟨ht, freeList_carved hc h.free, ?_, fun hn => by cases hn⟩
  have hp := ht.pairwise
  rw [pairwise_cons] at hp
  intro held hheld
  rcases mem_cons.1 hheld with rfl | hheld
  · exact swap_in_written _ f _ _ rfl
  · refine contents_fwrite (n := block.val.length + SIZEOF_INT) hf rfl ?_ (fun held hh => ?_)
      h.contents held hheld
    · simp only [length_append, length_size_word]; omega
    · exact hp.1 _ (by simp only [mem_append, List.mem_map]; exact Or.inl ⟨held, hh, rfl⟩)

theorem apart_last_data (h : Inv ⟨s, live⟩) (n : Nat) :
    ∀ held ∈ live, Apart ⟨s.last_data, n⟩ (heldSpan held) := by
  rintro held hheld i ⟨h1, h2⟩
  have := (h.tiles.covers i).2 ⟨heldSpan held, by
    simp only [Swapper.liveSpans, mem_append, List.mem_map]; exact Or.inl ⟨held, hheld, rfl⟩, h2⟩
  simp only [Span.has] at h1
  simp only at this
  omega

theorem inv_swap_out_end (h : Inv ⟨s, live⟩) (hf : s.swap_file = some f) :
    Inv ⟨{ swap_file := some (fwrite f s.last_data (size_word block.val.length ++ block.val)),
           swap_free := s.swap_free,
           last_data := s.last_data + SIZEOF_INT + block.val.length },
         (s.last_data, block) :: live⟩ := by
  have ht : Tiles (heldSpan (s.last_data, block) :: (live.map heldSpan ++ s.swap_free))
      (s.last_data + SIZEOF_INT + block.val.length) := by
    have := (show Tiles _ (heldSpan (s.last_data, block)).start from h.tiles).push
    rwa [Nat.add_assoc, Nat.add_comm SIZEOF_INT]
  refine ⟨ht, ⟨h.free.pos, h.free.sorted, fun b hb => ?_⟩, ?_, fun hn => by cases hn⟩
  · have := h.free.below b hb
    simp only at this ⊢
    omega
  · intro held hheld
    rcases mem_cons.1 hheld with rfl | hheld
    · exact swap_in_written _ f _ _ rfl
    · refine contents_fwrite (n := block.val.length + SIZEOF_INT) hf rfl ?_
        (apart_last_data h _) h.contents held hheld
      simp only [length_append, length_size_word]; omega

theorem inv_swap_out_failed (bytes : List UInt8) (h : Inv ⟨s, live⟩) (hf : s.swap_file = some f) :
    Inv ⟨{ s with swap_file := some (fwrite f s.last_data bytes) }, live⟩ :=
  ⟨h.tiles, h.free, contents_fwrite (n := bytes.length) hf rfl (Nat.le_refl _)
    (apart_last_data h _) h.contents, fun hn => by cases hn⟩

theorem swap_out_open {s1 : swap_state} (htime : time_to_swap ≠ 0)
    (ho : assert_swap_file io s = some (f, s1)) :
    swap_out time_to_swap io s block none =
      (let r := alloc_swap s1.last_data (block.val.length + SIZEOF_INT) s1.swap_free
       let bytes := size_word block.val.length ++ block.val
       if io.written < bytes.length ∨ block.val.length = 0 then
         (false, none, { s1 with
           swap_file := some (fwrite f r.1 (bytes.take io.written)), swap_free := r.2 })
       else
         (true, some r.1, ⟨some (fwrite f r.1 bytes), r.2,
           if r.1 ≥ s1.last_data then r.1 + SIZEOF_INT + block.val.length else s1.last_data⟩)) := by
  simp only [swap_out, htime, if_false, ho]
  split
  · rfl
  · rw [take_of_length_le (by omega)]

theorem inv_step_swap_out (h : Inv w) (hok : NoCarvedWriteFails time_to_swap w (.swap_out io block))
    (hs : w.step time_to_swap (.swap_out io block) = some w') : Inv w' := by
  simp only [Swapper.step] at hs
  by_cases htime : time_to_swap = 0
  · simp only [swap_out, htime, if_true, some.injEq] at hs
    exact hs ▸ h
  rcases ho : assert_swap_file io w.state with _ | ⟨f, s⟩
  · simp only [swap_out, htime, if_false, ho, some.injEq] at hs
    exact hs ▸ h
  obtain ⟨hf, hi⟩ := h.opened ho
  rw [swap_out_open htime ho] at hs
  simp only [length_append, length_size_word] at hs
  by_cases hfit : ∃ b ∈ s.swap_free, block.val.length + SIZEOF_INT ≤ b.length
  · have hc := alloc_swap_some s.last_data hfit
    have hlt : (alloc_swap s.last_data (block.val.length + SIZEOF_INT) s.swap_free).1 <
        s.last_data := by
      obtain ⟨b, hb, hin⟩ := hc.inside
      have := hi.free.below b hb
      simp only at this
      omega
    -- the file was open already, as its free list is not empty
    have hsame : s.swap_free = w.state.swap_free := by
      unfold assert_swap_file at ho
      split at ho
      · cases ho; rfl
      · split at ho
        · cases ho; simp at hfit
        · cases ho
    have hwritten : block.val.length + SIZEOF_INT ≤ io.written ∧ block.val ≠ [] := by
      rcases hok with hok | hok | hok
      · exact absurd hok htime
      · exact hok
      · obtain ⟨b, hb, hle⟩ := hfit
        have := hok b (hsame ▸ hb)
        omega
    have hne : block.val.length ≠ 0 := fun h0 => hwritten.2 (length_eq_zero_iff.1 h0)
    rw [if_neg (by omega), if_neg (by omega)] at hs
    simp only [some.injEq] at hs
    subst hs
    exact inv_swap_out_carved hi hf hc
  · have hnone : ∀ b ∈ s.swap_free, b.length < block.val.length + SIZEOF_INT := fun b hb => by
      by_contra hn
      exact hfit ⟨b, hb, by omega⟩
    rw [alloc_swap_none hnone] at hs
    by_cases hw : io.written < SIZEOF_INT + block.val.length ∨ block.val.length = 0
    · rw [if_pos hw] at hs
      simp only [some.injEq] at hs
      subst hs
      exact inv_swap_out_failed _ hi hf
    · rw [if_neg hw] at hs
      simp only [ge_iff_le, Nat.le_refl, if_true, some.injEq] at hs
      subst hs
      exact inv_swap_out_end hi hf

theorem inv_step_free_swap {held : Nat × mem_block} (h : Inv w)
    (hs : w.step time_to_swap (.free_swap held) = some w') : Inv w' := by
  simp only [Swapper.step] at hs
  split at hs
  · rename_i hmem
    simp only [some.injEq] at hs
    subst hs
    have ht : Tiles (⟨held.1, held.2.val.length + SIZEOF_INT⟩ ::
        ((w.live.erase held).map heldSpan ++ w.state.swap_free)) w.state.last_data := by
      apply h.tiles.perm
      have := ((perm_cons_erase hmem).map heldSpan).append_right w.state.swap_free
      simpa only [map_cons, cons_append, heldSpan, Swapper.liveSpans] using this
    obtain ⟨ht', hf'⟩ := free_swap_spec ht h.free
    have hfile := free_swap_file w.state held.1 held.2.val.length
    refine ⟨ht', hf', fun x hx => ?_, fun hn => ?_⟩
    · have := h.contents x (mem_of_mem_erase hx)
      simpa only [swap_in, hfile] using this
    · rw [show _ = w.state.swap_file from hfile] at hn
      simp [(h.closed hn).1] at hmem
  · cases hs

theorem inv_step {op : Op} (h : Inv w) (hok : NoCarvedWriteFails time_to_swap w op)
    (hs : w.step time_to_swap op = some w') : Inv w' := by
  cases op with
  | swap_out io block => exact inv_step_swap_out h hok hs
  | swap_out_again io held =>
    simp only [Swapper.step] at hs
    split at hs
    · simp only [some.injEq] at hs
      subst hs
      simp only [swap_out]
      split
      · exact h
      · split
        · exact h
        · rename_i f s ho
          exact (h.opened ho).2
    · cases hs
  | swap_in held =>
    simp only [Swapper.step] at hs
    split at hs
    · simp only [some.injEq] at hs
      exact hs ▸ h
    · cases hs
  | free_swap held => exact inv_step_free_swap h hs

/-! ## The laws -/

theorem reachable_inv
    (h : Reachable Swapper.start (Swapper.step time_to_swap) (NoCarvedWriteFails time_to_swap) w) :
    Inv w :=
  h.inv inv_start fun _ _ _ hi hok hs => inv_step hi hok hs

/-- After every run in which no write fails on a carved block, the live and
the free blocks are apart and cover the data, the free list is sorted and
coalesced, and each live block reads back as it was swapped out. -/
theorem the_swap_file_is_sound_while_no_carved_write_fails (time_to_swap : Int) (w : Swapper)
    (h : Reachable Swapper.start (Swapper.step time_to_swap) (NoCarvedWriteFails time_to_swap) w) :
    Sound w :=
  (reachable_inv h).sound

/-- Two blocks, the first one freed, and a smaller block written in its place. -/
def reuse (written : Nat) : List Op :=
  let a : mem_block := ⟨[1, 2, 3, 4, 5, 6], by decide⟩
  let b : mem_block := ⟨[7, 8, 9], by decide⟩
  [.swap_out ⟨true, 10⟩ a, .swap_out ⟨true, 7⟩ b, .free_swap (0, a),
    .swap_out ⟨true, written⟩ ⟨[5], by decide⟩]

theorem a_reused_block_is_sound :
    ∃ w, run (Swapper.step 1) Swapper.start (reuse 5) = some w ∧ Sound w := by
  have hsome : (run (Swapper.step 1) Swapper.start (reuse 5)).isSome := by decide
  obtain ⟨w, hw⟩ := isSome_iff_exists.1 hsome
  exact ⟨w, hw, the_swap_file_is_sound_while_no_carved_write_fails 1 w
    (Reachable.of_run .start (by decide) hw)⟩

/-- The write of the smaller block fails, and nothing holds its space any more. -/
theorem a_carved_block_leaks_when_its_write_fails :
    ¬ ∀ w, Reachable Swapper.start (Swapper.step 1) (fun _ _ => True) w → Sound w := by
  intro hall
  have hrun : (run (Swapper.step 1) Swapper.start (reuse 0)).map
      (fun w => (w.liveSpans ++ w.state.swap_free, w.state.last_data)) =
      some ([⟨10, 7⟩, ⟨5, 5⟩], 17) := by decide
  obtain ⟨w, hw, hfile⟩ := map_eq_some_iff.mp hrun
  rw [Prod.mk.injEq] at hfile
  have hsound := hall w (Reachable.of_any hw)
  -- the first byte is in no block
  have hcover := (hsound.covers 0).1 (by rw [hfile.2]; decide)
  rw [hfile.1] at hcover
  revert hcover
  decide

end mudos.swap
