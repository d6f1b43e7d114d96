-- The law of `unique_array()`: the groups are the partition of the elements by their answers,
-- and every temporary list is freed once, by the function itself or by the error handlers.
import MudOS.UniqueArray
import Mathlib.Data.List.Induction
import Mathlib.Data.List.Pairwise

open List

namespace mudos.unique_array

variable {σ V K α : Type} {sv : sameval_t K} {const0 : K}
variable {mem : memory_t} {skipval mark : K} {answers : List (Nat × Option K)} {g : group_t K}
  {i : Nat}

variable {lists : List (unique_list_t K)} {frames : List stack_t}

/-! ## Memory -/

def blocks : List (unique_t K) → Multiset Nat
  | [] => 0
  | uptr :: head => uptr.ind ::ₘ uptr.address ::ₘ blocks head

def list_blocks : List (unique_list_t K) → Multiset Nat
  | [] => 0
  | unlist :: lists => unlist.address ::ₘ (blocks unlist.head + list_blocks lists)

theorem FREE_cons (p : Nat) (live : Multiset Nat) (h : mem.live = p ::ₘ live) :
    FREE mem p = some { mem with live } := by
  unfold FREE
  rw [h, if_pos (Multiset.mem_cons_self p live), Multiset.erase_cons_head]

theorem free_uniques_blocks (head : List (unique_t K)) {live : Multiset Nat}
    (h : mem.live = blocks head + live) : free_uniques head mem = some { mem with live } := by
  induction head generalizing mem with
  | nil =>
    simp only [blocks, Multiset.zero_add] at h
    unfold free_uniques
    rw [← h]
  | cons uptr head ih =>
    simp only [blocks, Multiset.cons_add] at h
    unfold free_uniques
    rw [FREE_cons _ _ h]
    simp only [Option.bind_eq_bind, Option.bind_some]
    rw [FREE_cons uptr.address (blocks head + live) rfl]
    exact ih rfl

theorem error_handler_frees {m : machine_t σ V K} {unlist : unique_list_t K}
    {g_u_list : List (unique_list_t K)} (hg : m.g_u_list = unlist :: g_u_list)
    (live : Multiset Nat) (h : m.mem.live = unlist.address ::ₘ (blocks unlist.head + live)) :
    unique_array_error_handler m = some { m with g_u_list, mem := { m.mem with live } } := by
  have h' : m.mem.live = blocks unlist.head + unlist.address ::ₘ live := by
    rw [h, Multiset.add_cons]
  unfold unique_array_error_handler
  rw [hg]
  simp only [free_uniques_blocks unlist.head h', Option.bind_eq_bind, Option.bind_some]
  rw [FREE_cons unlist.address live rfl]
  rfl

/-! ## What is above -/

/-- These lists and this part of the stack came on top; for each list there is a handler. -/
structure Above (m m' : machine_t σ V K) (lists : List (unique_list_t K))
    (frames : List stack_t) : Prop where
  g_u_list : m'.g_u_list = lists ++ m.g_u_list
  stack : m'.stack = frames ++ m.stack
  handlers : frames.count .error_handler = lists.length
  live : m'.mem.live = list_blocks lists + m.mem.live

theorem list_blocks_append (lists lists' : List (unique_list_t K)) :
    list_blocks (lists ++ lists') = list_blocks lists + list_blocks lists' := by
  induction lists with
  | nil => simp only [nil_append, list_blocks, Multiset.zero_add]
  | cons unlist lists ih =>
    simp [list_blocks, ih, Multiset.add_assoc]

theorem Above.trans {m m' m'' : machine_t σ V K} {lists' : List (unique_list_t K)}
    {frames' : List stack_t} (h : Above m m' lists frames) (h' : Above m' m'' lists' frames') :
    Above m m'' (lists' ++ lists) (frames' ++ frames) := by
  refine ⟨?_, ?_, ?_, ?_⟩
  · rw [h'.g_u_list, h.g_u_list, append_assoc]
  · rw [h'.stack, h.stack, append_assoc]
  · rw [count_append, length_append, h.handlers, h'.handlers]
  · rw [h'.live, h.live, list_blocks_append, Multiset.add_assoc]

theorem pop_above {m m' : machine_t σ V K} (h : Above m m' lists frames) :
    ∃ m'', pop_n_elems frames.length m' = some m'' ∧ m''.data = m'.data ∧ Above m m'' [] [] := by
  induction frames generalizing m' lists with
  | nil =>
    have hlists : lists = [] := length_eq_zero_iff.1 h.handlers.symm
    subst hlists
    exact ⟨m', rfl, rfl, h⟩
  | cons frame frames ih =>
    have hs := h.stack
    rw [cons_append] at hs
    cases frame with
    | value =>
      have h' : Above m { m' with stack := frames ++ m.stack } lists frames := by
        refine ⟨h.g_u_list, rfl, ?_, h.live⟩
        rw [← h.handlers, count_cons_of_ne (by decide)]
      simp only [length_cons, pop_n_elems, hs]
      exact ih h'
    | error_handler =>
      have hcount := h.handlers
      rw [count_cons_self] at hcount
      cases lists with
      | nil => simp at hcount
      | cons unlist lists =>
        have hl := h.live
        simp only [list_blocks, Multiset.cons_add, Multiset.add_assoc] at hl
        have h' : Above m { m' with
            stack := frames ++ m.stack
            g_u_list := lists ++ m.g_u_list
            mem := { m'.mem with live := list_blocks lists + m.mem.live } } lists frames :=
          ⟨rfl, rfl, by simpa using hcount, rfl⟩
        simp only [length_cons, pop_n_elems, hs]
        rw [error_handler_frees (m := { m' with stack := frames ++ m.stack }) h.g_u_list _ hl]
        simp only [Option.bind_eq_bind, Option.bind_some]
        exact ih h'

theorem restore_above {m m' : machine_t σ V K} (h : Above m m' lists frames) :
    ∃ m'', restore_context m.stack.length m' = some m'' ∧ m''.data = m'.data ∧
      Above m m'' [] [] := by
  unfold restore_context
  rw [h.stack, length_append, Nat.add_sub_cancel]
  exact pop_above h

/-! ## One answer -/

def group (uptr : unique_t K) : group_t K := (uptr.mark, uptr.indices)

/-- The groups changed as they should, and the blocks with them. -/
structure Kept (groups : List (group_t K)) (live : Multiset Nat)
    (r : List (unique_t K) × memory_t) : Prop where
  groups : r.1.map group = groups
  live : r.2.live = blocks r.1 + live

theorem add_index_joins (mark : K) (i : Nat) (head : List (unique_t K)) {live : Multiset Nat}
    (h : mem.live = blocks head + live) :
    (join sv mark i (head.map group) = none ∧ add_index sv mark i head mem = some none) ∨
    ∃ groups r, join sv mark i (head.map group) = some groups ∧
      add_index sv mark i head mem = some (some r) ∧ Kept groups live r := by
  induction head generalizing live with
  | nil => exact .inl ⟨rfl, rfl⟩
  | cons uptr head ih =>
    unfold add_index
    simp only [map_cons, join, group]
    by_cases hsame : sv.same mark uptr.mark = true
    · right
      simp only [hsame, if_true, RESIZE]
      simp only [blocks, Multiset.cons_add] at h
      rw [FREE_cons _ _ h]
      refine ⟨_, _, rfl, rfl, rfl, ?_⟩
      simp [ALLOCATE, blocks]
    · simp only [hsame, if_false, Bool.false_eq_true]
      have h' : mem.live = blocks head + uptr.ind ::ₘ uptr.address ::ₘ live := by
        rw [h]
        simp [blocks]
      rcases ih h' with ⟨hjoin, hadd⟩ | ⟨groups, r, hjoin, hadd, hkept⟩
      · left
        rw [hjoin, hadd]
        exact ⟨rfl, rfl⟩
      · right
        rw [hjoin, hadd]
        refine ⟨_, _, rfl, rfl, ?_, ?_⟩
        · rw [map_cons, hkept.groups]
          rfl
        · rw [hkept.live]
          simp [blocks]

theorem collect_puts (sv : sameval_t K) (skipval : K) (result : Option K) (i : Nat)
    (head : List (unique_t K)) {live : Multiset Nat} (h : mem.live = blocks head + live) :
    ∃ r, collect sv skipval result i head mem = some r ∧
      Kept (put sv skipval (head.map group) (i, result)) live r := by
  cases result with
  | none => exact ⟨_, rfl, rfl, h⟩
  | some mark =>
    unfold collect put
    simp only
    by_cases hskip : sv.same mark skipval = true
    · simp only [hskip, if_true]
      exact ⟨_, rfl, rfl, h⟩
    · simp only [hskip, if_false, Bool.false_eq_true]
      rcases add_index_joins mark i head h with ⟨hjoin, hadd⟩ | ⟨groups, r, hjoin, hadd, hkept⟩
      · rw [hjoin, hadd]
        refine ⟨_, rfl, rfl, ?_⟩
        simp [ALLOCATE, blocks, h]
      · rw [hjoin, hadd]
        exact ⟨r, rfl, hkept⟩


/-! ## Sizes -/

theorem keeps_refl (d : data_t σ V) : KeepsSizes d d := by
  intro arr item h
  exact ⟨item, h, rfl⟩

theorem KeepsSizes.trans {d d' d'' : data_t σ V} (h : KeepsSizes d d') (h' : KeepsSizes d' d'') :
    KeepsSizes d d'' := by
  intro arr item hitem
  obtain ⟨item', hitem', hlength⟩ := h arr item hitem
  obtain ⟨item'', hitem'', hlength'⟩ := h' arr item' hitem'
  exact ⟨item'', hitem'', by rw [hlength', hlength]⟩

theorem KeepsSizes.item_length {d d' : data_t σ V} (h : KeepsSizes d d') {arr : Nat}
    (hsize : (d.item arr).length ≠ 0) : (d'.item arr).length = (d.item arr).length := by
  unfold data_t.item at hsize ⊢
  cases hitem : d.arrays[arr]? with
  | none =>
    rw [hitem] at hsize
    exact absurd rfl hsize
  | some item =>
    obtain ⟨item', hitem', hlength⟩ := h arr item hitem
    rwa [hitem']

theorem ask_keeps {call : V → data_t σ V → Except String (Option K) × data_t σ V}
    (hcall : ∀ v d, KeepsSizes d (call v d).2) (arr : Nat) (indices : List Nat)
    (d : data_t σ V) : KeepsSizes d (ask call arr indices d).2 := by
  induction indices generalizing d with
  | nil => exact keeps_refl d
  | cons i indices ih =>
    unfold ask
    cases (d.item arr)[i]? with
    | none => exact keeps_refl d
    | some v =>
      have hv := hcall v d
      simp only
      generalize call v d = r at hv ⊢
      rcases r with ⟨message | result, d'⟩
      · exact hv
      · have hrest := ih d'
        simp only
        generalize ask call arr indices d' = r at hrest ⊢
        rcases r with ⟨message | answers, d''⟩
        · exact hv.trans hrest
        · exact hv.trans hrest

theorem mean_keeps (code : code_t σ V K) (d : data_t σ V) :
    KeepsSizes d (mean sv const0 code d).2 := by
  induction code generalizing d with
  | done result => exact keeps_refl d
  | error message => exact keeps_refl d
  | act f k ih =>
    unfold mean
    exact (f.keeps d).trans (ih _ _)
  | caught body k ihbody ih =>
    have hbody := ihbody d
    unfold mean
    generalize mean sv const0 body d = r at hbody ⊢
    rcases r with ⟨message | result, d'⟩
    · exact hbody.trans (ih (some message) d')
    · exact hbody.trans (ih none d')
  | unique arr callback skip k ihcallback ih =>
    have hask := ask_keeps (fun v d => ihcallback v d) arr (List.range (d.item arr).length) d
    unfold mean
    generalize ask (fun v d => mean sv const0 (callback v) d) arr
      (List.range (d.item arr).length) d = r at hask ⊢
    rcases r with ⟨message | answers, d'⟩
    · exact hask
    · exact hask.trans (ih _ d')


/-! ## The groups -/

theorem same_comm (mark mark' : K) : sv.same mark mark' = sv.same mark' mark := by
  exact Bool.eq_iff_iff.mpr ⟨sv.symm mark mark', sv.symm mark' mark⟩

/-- What the groups are after some answers, the group that was begun last comes first. -/
structure Grouped (sv : sameval_t K) (skipval : K) (answers : List (Nat × Option K))
    (groups : List (group_t K)) : Prop where
  all : (groups.map Prod.snd).flatten.Perm (chosen sv skipval answers)
  apart : (groups.map Prod.fst).Pairwise fun mark mark' => sv.same mark mark' = false
  begun : ∀ g ∈ groups, ∃ i l, g.2 = i :: l ∧ (i, some g.1) ∈ answers ∧
    ∀ j ∈ l, ∃ mark, (j, some mark) ∈ answers ∧ sv.same mark g.1 = true
  members_in_order : ∀ g ∈ groups, g.2.Pairwise (· < ·)
  in_order : groups.Pairwise fun g g' => ∃ i ∈ g'.2, ∀ j ∈ g.2, i < j

theorem mem_chosen (skipval : K) (answers : List (Nat × Option K)) (i : Nat) :
    i ∈ chosen sv skipval answers ↔
      ∃ mark, (i, some mark) ∈ answers ∧ sv.same mark skipval = false := by
  unfold chosen
  rw [mem_map]
  constructor
  · rintro ⟨⟨i', result⟩, hmem, rfl⟩
    obtain ⟨hmem, hany⟩ := mem_filter.1 hmem
    cases result with
    | none => simp at hany
    | some mark => exact ⟨mark, hmem, by simpa using hany⟩
  · rintro ⟨mark, hmem, hskip⟩
    exact ⟨(i, some mark), mem_filter.2 ⟨hmem, by simp [hskip]⟩, rfl⟩

theorem Grouped.mem_answers {groups : List (group_t K)} (h : Grouped sv skipval answers groups)
    (hg : g ∈ groups) (hi : i ∈ g.2) :
    ∃ mark, (i, some mark) ∈ answers ∧ sv.same mark skipval = false := by
  rw [← mem_chosen, ← h.all.mem_iff]
  exact mem_flatten.2 ⟨g.2, mem_map_of_mem hg, hi⟩

theorem join_cases (sv : sameval_t K) (mark : K) (i : Nat) (groups : List (group_t K)) :
    (join sv mark i groups = none ∧ ∀ g ∈ groups, sv.same mark g.1 = false) ∨
    ∃ before g after, groups = before ++ g :: after ∧ sv.same mark g.1 = true ∧
      join sv mark i groups = some (before ++ (g.1, g.2 ++ [i]) :: after) := by
  induction groups with
  | nil => exact .inl ⟨rfl, by simp⟩
  | cons g groups ih =>
    unfold join
    by_cases hsame : sv.same mark g.1 = true
    · right
      exact ⟨[], g, groups, rfl, hsame, by rw [if_pos hsame]; rfl⟩
    · rw [if_neg hsame]
      rcases ih with ⟨hjoin, hall⟩ | ⟨before, g', after, rfl, hsame', hjoin⟩
      · left
        rw [hjoin]
        refine ⟨rfl, ?_⟩
        intro g' hg'
        rcases mem_cons.1 hg' with rfl | hg'
        · simpa using hsame
        · exact hall g' hg'
      · right
        rw [hjoin]
        exact ⟨g :: before, g', after, rfl, hsame', rfl⟩

theorem Grouped.skip {groups : List (group_t K)} (h : Grouped sv skipval answers groups)
    (answer : Nat × Option K) (hskip : chosen sv skipval [answer] = []) :
    Grouped sv skipval (answers ++ [answer]) groups := by
  refine ⟨?_, h.apart, ?_, h.members_in_order, h.in_order⟩
  · have happend : chosen sv skipval (answers ++ [answer]) = chosen sv skipval answers := by
      unfold chosen at hskip ⊢
      rw [filter_append, map_append, hskip, append_nil]
    rw [happend]
    exact h.all
  · intro g hg
    obtain ⟨i, l, heq, hi, hl⟩ := h.begun g hg
    refine ⟨i, l, heq, mem_append_left _ hi, ?_⟩
    intro j hj
    obtain ⟨mark, hmark, hsame⟩ := hl j hj
    exact ⟨mark, mem_append_left _ hmark, hsame⟩

theorem chosen_snoc (answers : List (Nat × Option K)) (i : Nat)
    (hskip : sv.same mark skipval = false) :
    chosen sv skipval (answers ++ [(i, some mark)]) = chosen sv skipval answers ++ [i] := by
  unfold chosen
  rw [filter_append, map_append]
  simp [hskip]

theorem Grouped.begin {groups : List (group_t K)} (h : Grouped sv skipval answers groups)
    (hskip : sv.same mark skipval = false) (hnew : ∀ answer ∈ answers, answer.1 < i)
    (hmark : ∀ g ∈ groups, sv.same mark g.1 = false) :
    Grouped sv skipval (answers ++ [(i, some mark)]) ((mark, [i]) :: groups) := by
  refine ⟨?_, ?_, ?_, ?_, ?_⟩
  · rw [chosen_snoc answers i hskip]
    simp only [map_cons, flatten_cons, singleton_append]
    exact (h.all.cons i).trans (perm_append_singleton i _).symm
  · rw [map_cons, pairwise_cons]
    refine ⟨?_, h.apart⟩
    intro mark' hmark'
    obtain ⟨g, hg, rfl⟩ := mem_map.1 hmark'
    exact hmark g hg
  · intro g hg
    rcases mem_cons.1 hg with rfl | hg
    · exact ⟨i, [], rfl, mem_append_right _ (mem_singleton_self _), by simp⟩
    · obtain ⟨j, l, heq, hj, hl⟩ := h.begun g hg
      refine ⟨j, l, heq, mem_append_left _ hj, ?_⟩
      intro j' hj'
      obtain ⟨mark', hmark', hsame⟩ := hl j' hj'
      exact ⟨mark', mem_append_left _ hmark', hsame⟩
  · intro g hg
    rcases mem_cons.1 hg with rfl | hg
    · exact pairwise_singleton _ _
    · exact h.members_in_order g hg
  · refine pairwise_cons.mpr ⟨?_, h.in_order⟩
    intro g hg
    obtain ⟨j, l, heq, hj, -⟩ := h.begun g hg
    refine ⟨j, by rw [heq]; exact mem_cons_self, ?_⟩
    intro i' hi'
    rw [mem_singleton.1 hi']
    exact hnew _ hj


theorem Grouped.join {before after : List (group_t K)}
    (h : Grouped sv skipval answers (before ++ g :: after)) (hskip : sv.same mark skipval = false)
    (hnew : ∀ answer ∈ answers, answer.1 < i) (hsame : sv.same mark g.1 = true) :
    Grouped sv skipval (answers ++ [(i, some mark)]) (before ++ (g.1, g.2 ++ [i]) :: after) := by
  have hmem : ∀ g' ∈ before ++ (g.1, g.2 ++ [i]) :: after,
      g' = (g.1, g.2 ++ [i]) ∨ g' ∈ before ++ g :: after := by
    intro g' hg'
    simp only [mem_append, mem_cons] at hg' ⊢
    rcases hg' with hg' | hg' | hg'
    · exact .inr (.inl hg')
    · exact .inl hg'
    · exact .inr (.inr (.inr hg'))
  have hg : g ∈ before ++ g :: after := mem_append_right _ mem_cons_self
  have hbelow : ∀ g' ∈ before ++ g :: after, ∀ j ∈ g'.2, j < i := by
    intro g' hg' j hj
    obtain ⟨mark', hmark', -⟩ := h.mem_answers hg' hj
    exact hnew _ hmark'
  refine ⟨?_, ?_, ?_, ?_, ?_⟩
  · rw [chosen_snoc answers i hskip]
    refine List.Perm.trans ?_ (h.all.append_right [i])
    simp only [map_append, map_cons, flatten_append, flatten_cons,
      append_assoc]
    refine List.Perm.append_left _ (List.Perm.append_left _ ?_)
    exact perm_append_comm
  · have hmarks : (before ++ (g.1, g.2 ++ [i]) :: after).map Prod.fst =
        (before ++ g :: after).map Prod.fst := by
      simp
    rw [hmarks]
    exact h.apart
  · intro g' hg'
    rcases hmem g' hg' with rfl | hg'
    · obtain ⟨j, l, heq, hj, hl⟩ := h.begun g hg
      refine ⟨j, l ++ [i], by simp only [heq, cons_append], mem_append_left _ hj, ?_⟩
      intro j' hj'
      rcases mem_append.1 hj' with hj' | hj'
      · obtain ⟨mark', hmark', hsame'⟩ := hl j' hj'
        exact ⟨mark', mem_append_left _ hmark', hsame'⟩
      · rw [mem_singleton.1 hj']
        exact ⟨mark, mem_append_right _ (mem_singleton_self _), hsame⟩
    · obtain ⟨j, l, heq, hj, hl⟩ := h.begun g' hg'
      refine ⟨j, l, heq, mem_append_left _ hj, ?_⟩
      intro j' hj'
      obtain ⟨mark', hmark', hsame'⟩ := hl j' hj'
      exact ⟨mark', mem_append_left _ hmark', hsame'⟩
  · intro g' hg'
    rcases hmem g' hg' with rfl | hg'
    · refine pairwise_append.mpr ⟨h.members_in_order g hg, pairwise_singleton _ _, ?_⟩
      intro j hj i' hi'
      rw [mem_singleton.1 hi']
      exact hbelow g hg j hj
    · exact h.members_in_order g' hg'
  · have horder := h.in_order
    rw [pairwise_append, pairwise_cons] at horder ⊢
    obtain ⟨hbefore, ⟨hafter, hrest⟩, hacross⟩ := horder
    refine ⟨hbefore, ⟨?_, hrest⟩, ?_⟩
    · intro g' hg'
      obtain ⟨j, hj, hall⟩ := hafter g' hg'
      refine ⟨j, hj, ?_⟩
      intro j' hj'
      rcases mem_append.1 hj' with hj' | hj'
      · exact hall j' hj'
      · rw [mem_singleton.1 hj']
        exact hbelow g' (mem_append_right _ (mem_cons_of_mem _ hg')) j hj
    · intro g' hg' g'' hg''
      rcases mem_cons.1 hg'' with rfl | hg''
      · obtain ⟨j, hj, hall⟩ := hacross g' hg' g mem_cons_self
        exact ⟨j, mem_append_left _ hj, hall⟩
      · exact hacross g' hg' g'' (mem_cons_of_mem _ hg'')

theorem put_grouped {groups : List (group_t K)} (h : Grouped sv skipval answers groups)
    (answer : Nat × Option K) (hnew : ∀ answer' ∈ answers, answer'.1 < answer.1) :
    Grouped sv skipval (answers ++ [answer]) (put sv skipval groups answer) := by
  obtain ⟨i, result⟩ := answer
  cases result with
  | none => exact h.skip _ rfl
  | some mark =>
    simp only [put]
    by_cases hskip : sv.same mark skipval = true
    · rw [if_pos hskip]
      apply h.skip
      simp [chosen, hskip]
    · rw [if_neg hskip]
      have hskip' : sv.same mark skipval = false := by simpa using hskip
      rcases join_cases sv mark i groups with ⟨hjoin, hmark⟩ |
        ⟨before, g, after, rfl, hsame, hjoin⟩
      · rw [hjoin]
        exact h.begin hskip' hnew hmark
      · rw [hjoin]
        exact h.join hskip' hnew hsame

theorem all_grouped (sv : sameval_t K) (skipval : K) (answers : List (Nat × Option K))
    (horder : (answers.map Prod.fst).Pairwise (· < ·)) :
    Grouped sv skipval answers (answers.foldl (put sv skipval) []) := by
  induction answers using List.reverseRecOn with
  | nil => exact ⟨.refl _, .nil, by simp, by simp, .nil⟩
  | append_singleton answers answer ih =>
    rw [map_append, pairwise_append] at horder
    obtain ⟨hanswers, -, hlast⟩ := horder
    rw [foldl_append]
    apply put_grouped (ih hanswers)
    intro answer' hanswer'
    exact hlast _ (mem_map_of_mem hanswer') _ (by simp)

theorem answer_unique (horder : (answers.map Prod.fst).Pairwise (· < ·)) {result result' : Option K}
    (h : (i, result) ∈ answers) (h' : (i, result') ∈ answers) : result = result' := by
  have hnodup : (answers.map Prod.fst).Nodup := horder.imp Nat.ne_of_lt
  have hpair := inj_on_of_nodup_map hnodup h h' rfl
  exact (Prod.mk.inj hpair).2

theorem Grouped.member {skipval : K} {answers : List (Nat × Option K)} {groups : List (group_t K)}
    (h : Grouped sv skipval answers groups) (horder : (answers.map Prod.fst).Pairwise (· < ·))
    {g : group_t K} (hg : g ∈ groups) {i : Nat} (hi : i ∈ g.2) {mark : K}
    (hmark : (i, some mark) ∈ answers) :
    g.2.head? = some i ∧ mark = g.1 ∨ sv.same mark g.1 = true := by
  obtain ⟨j, l, heq, hj, hl⟩ := h.begun g hg
  rw [heq] at hi ⊢
  rcases mem_cons.1 hi with rfl | hi
  · left
    exact ⟨rfl, Option.some.inj (answer_unique horder hmark hj)⟩
  · right
    obtain ⟨mark', hmark', hsame⟩ := hl i hi
    rwa [Option.some.inj (answer_unique horder hmark hmark')]

theorem Grouped.marks_differ {groups : List (group_t K)} (h : Grouped sv skipval answers groups)
    {g' : group_t K} (hg : g ∈ groups) (hg' : g' ∈ groups) (hne : g ≠ g') :
    sv.same g'.1 g.1 = false := by
  have hsymm : Std.Symm fun g g' : group_t K => sv.same g.1 g'.1 = false :=
    ⟨fun g g' h => same_comm g.1 g'.1 ▸ h⟩
  exact (pairwise_map.1 h.apart).forall hg' hg (Ne.symm hne)

theorem grouped_together {groups : List (group_t K)} (h : Grouped sv skipval answers groups)
    (horder : (answers.map Prod.fst).Pairwise (· < ·)) (hg : g ∈ groups) {j : Nat} (hi : i ∈ g.2)
    {mark' : K} (hmark : (i, some mark) ∈ answers) (hmark' : (j, some mark') ∈ answers) :
    j ∈ g.2 ↔ j = i ∨ sv.same mark mark' = true := by
  have hfirst := h.member horder hg hi hmark
  constructor
  · intro hj
    rcases hfirst with ⟨hhead, rfl⟩ | hsame
    · rcases h.member horder hg hj hmark' with ⟨hhead', -⟩ | hsame'
      · left
        exact Option.some.inj (hhead'.symm.trans hhead)
      · exact .inr (sv.symm _ _ hsame')
    · right
      rcases h.member horder hg hj hmark' with ⟨-, rfl⟩ | hsame'
      · exact hsame
      · exact sv.trans _ _ _ hsame (sv.symm _ _ hsame')
  · rintro (rfl | hsame)
    · exact hi
    · have hmarks : sv.same g.1 mark' = true := by
        rcases hfirst with ⟨-, rfl⟩ | hsame'
        · exact hsame
        · exact sv.trans _ _ _ (sv.symm _ _ hsame') hsame
      have hchosen : j ∈ chosen sv skipval answers := by
        obtain ⟨mark'', hmark'', hskip⟩ := h.mem_answers hg hi
        rw [Option.some.inj (answer_unique horder hmark'' hmark)] at hskip
        refine (mem_chosen skipval answers j).2 ⟨mark', hmark', ?_⟩
        by_contra hskip'
        rw [sv.trans _ _ _ hsame (Bool.of_not_eq_false hskip')] at hskip
        contradiction
      rw [← h.all.mem_iff, mem_flatten] at hchosen
      obtain ⟨indices, hindices, hj⟩ := hchosen
      obtain ⟨g', hg', rfl⟩ := mem_map.1 hindices
      have hmarks' : sv.same g.1 g'.1 = true := by
        rcases h.member horder hg' hj hmark' with ⟨-, rfl⟩ | hsame'
        · exact hmarks
        · exact sv.trans _ _ _ hmarks hsame'
      by_cases heq : g' = g
      · rwa [← heq]
      · rw [h.marks_differ hg' hg heq] at hmarks'
        contradiction


theorem groups_of_partition (sv : sameval_t K) (skipval : K) (answers : List (Nat × Option K))
    (horder : (answers.map Prod.fst).Pairwise (· < ·)) :
    IsPartition sv skipval answers (groups_of sv skipval answers) := by
  have h := all_grouped sv skipval answers horder
  unfold groups_of
  generalize answers.foldl (put sv skipval) [] = groups at h
  have hmem : ∀ group ∈ (groups.map Prod.snd).reverse, ∃ g ∈ groups, g.2 = group := by
    intro group hgroup
    exact mem_map.1 (mem_reverse.mp hgroup)
  refine ⟨?_, ?_, ?_, ?_, ?_⟩
  · exact ((reverse_perm _).flatten).trans h.all
  · intro hempty
    obtain ⟨g, hg, hg2⟩ := hmem [] hempty
    obtain ⟨i, l, heq, -⟩ := h.begun g hg
    rw [heq] at hg2
    contradiction
  · intro group hgroup i hi j mark mark' hmark hmark'
    obtain ⟨g, hg, rfl⟩ := hmem group hgroup
    exact grouped_together h horder hg hi hmark hmark'
  · intro group hgroup
    obtain ⟨g, hg, rfl⟩ := hmem group hgroup
    exact h.members_in_order g hg
  · rw [pairwise_reverse, pairwise_map]
    exact h.in_order


example : groups_of ⟨fun a b : Nat => a == b, by simp, by simp⟩ 0
    [(0, some 1), (1, some 2), (2, none), (3, some 1), (4, some 0)] = [[0, 3], [1]] := by decide

/-! ## The result -/

theorem members_inside (item : List V) (indices : List Nat) (h : ∀ i ∈ indices, i < item.length) :
    members item indices = some (indices.filterMap fun i => item[i]?) := by
  induction indices with
  | nil => rfl
  | cons i indices ih =>
    unfold members
    have hi := h i mem_cons_self
    rw [ih fun j hj => h j (mem_cons_of_mem _ hj), getElem?_eq_getElem hi]
    simp [getElem?_eq_getElem hi]

theorem empty_list_frees (item : List V) (head : List (unique_t K)) (ret : List (List V))
    {live : Multiset Nat} (hlive : mem.live = blocks head + live)
    (h : ∀ uptr ∈ head, ∀ i ∈ uptr.indices, i < item.length) :
    empty_list item head ret mem =
      some (elements item (head.map unique_t.indices).reverse ++ ret, { mem with live }) := by
  induction head generalizing ret mem with
  | nil =>
    simp only [blocks, Multiset.zero_add] at hlive
    unfold empty_list
    rw [← hlive]
    rfl
  | cons uptr head ih =>
    simp only [blocks, Multiset.cons_add] at hlive
    unfold empty_list
    rw [members_inside item uptr.indices (h uptr mem_cons_self), FREE_cons _ _ hlive]
    simp only [Option.bind_eq_bind, Option.bind_some]
    rw [FREE_cons uptr.address (blocks head + live) rfl]
    simp only [Option.bind_some]
    rw [ih _ rfl fun uptr' huptr' => h uptr' (mem_cons_of_mem _ huptr')]
    simp [elements]

/-! ## The loop -/

/-- A call and what it means: the answer is the same, or the same error is raised and only lists
with their handlers stay behind. -/
def Agrees (m : machine_t σ V K) (r : Except String α × data_t σ V) (e : ended_t σ V K α) : Prop :=
  (∃ a m', r = (.ok a, m'.data) ∧ e = (.ok a, m') ∧ Above m m' [] []) ∨
  ∃ message m' lists frames, r = (.error message, m'.data) ∧ e = (.error (.raised message), m') ∧
    Above m m' lists frames

def collecting (m : machine_t σ V K) (unlist : unique_list_t K) (data : data_t σ V)
    (mem : memory_t) : machine_t σ V K :=
  { data, mem, g_u_list := unlist :: m.g_u_list, stack := .error_handler :: m.stack }

theorem collecting_above (m : machine_t σ V K) (unlist : unique_list_t K) (data : data_t σ V)
    (hlive : mem.live = blocks unlist.head + unlist.address ::ₘ m.mem.live) :
    Above m (collecting m unlist data mem) [unlist] [.error_handler] := by
  refine ⟨rfl, rfl, rfl, ?_⟩
  simp [collecting, list_blocks, hlive]

theorem above_collecting {m m' : machine_t σ V K} {unlist : unique_list_t K} {data : data_t σ V}
    (h : Above (collecting m unlist data mem) m' [] []) :
    m' = collecting m unlist m'.data m'.mem ∧ m'.mem.live = mem.live := by
  have hg := h.g_u_list
  have hs := h.stack
  have hl := h.live
  simp only [collecting, nil_append, list_blocks, Multiset.zero_add] at hg hs hl
  refine ⟨?_, hl⟩
  unfold collecting
  rw [← hg, ← hs]

theorem collect_at_head (sv : sameval_t K) (m : machine_t σ V K) (address : Nat)
    (head : List (unique_t K)) (d : data_t σ V) (mem : memory_t) (skipval : K)
    (result : Option K) (i : Nat)
    (hlive : mem.live = blocks head + address ::ₘ m.mem.live) :
    ∃ head' mem', at_head address (collect sv skipval result i)
        (collecting m ⟨address, head⟩ d mem) = some (collecting m ⟨address, head'⟩ d mem') ∧
      head'.map group = put sv skipval (head.map group) (i, result) ∧
      mem'.live = blocks head' + address ::ₘ m.mem.live := by
  obtain ⟨⟨head', mem'⟩, hcollect, hkept⟩ := collect_puts sv skipval result i head hlive
  refine ⟨head', mem', ?_, hkept.groups, hkept.live⟩
  unfold at_head
  simp [collecting, hcollect]

theorem collect_all_agrees (sv : sameval_t K)
    {meaning : V → data_t σ V → Except String (Option K) × data_t σ V}
    {call : V → machine_t σ V K → ended_t σ V K (Option K)}
    (hkeeps : ∀ v d, KeepsSizes d (meaning v d).2)
    (hcall : ∀ v m, Agrees m (meaning v m.data) (call v m)) (m : machine_t σ V K)
    (arr address : Nat) (skipval : K) (indices : List Nat) (head : List (unique_t K))
    (d : data_t σ V) (mem : memory_t)
    (hlive : mem.live = blocks head + address ::ₘ m.mem.live)
    (hsize : ∀ i ∈ indices, i < (d.item arr).length) :
    (∃ answers head' d' mem', ask meaning arr indices d = (.ok answers, d') ∧
      collect_all sv call arr address skipval indices (collecting m ⟨address, head⟩ d mem) =
        (.ok (), collecting m ⟨address, head'⟩ d' mem') ∧
      head'.map group = answers.foldl (put sv skipval) (head.map group) ∧
      mem'.live = blocks head' + address ::ₘ m.mem.live) ∨
    ∃ message m' lists frames, ask meaning arr indices d = (.error message, m'.data) ∧
      collect_all sv call arr address skipval indices (collecting m ⟨address, head⟩ d mem) =
        (.error (.raised message), m') ∧ Above m m' lists frames := by
  induction indices generalizing head d mem with
  | nil => exact .inl ⟨[], head, d, mem, rfl, rfl, rfl, hlive⟩
  | cons i indices ih =>
    have hi := hsize i mem_cons_self
    have hitem : (d.item arr)[i]? = some (d.item arr)[i] := getElem?_eq_getElem hi
    have habove := collecting_above m ⟨address, head⟩ d hlive
    have hv := hkeeps (d.item arr)[i] d
    unfold ask collect_all
    have hdata : (collecting m ⟨address, head⟩ d mem).data = d := rfl
    simp only [hdata, hitem]
    rcases hcall (d.item arr)[i] (collecting m ⟨address, head⟩ d mem) with
      ⟨result, m', hmeaning, hended, habove'⟩ |
      ⟨message, m', lists, frames, hmeaning, hended, habove'⟩
    · obtain ⟨hm', hlive'⟩ := above_collecting habove'
      rw [hdata] at hmeaning
      rw [hmeaning] at hv
      rw [hmeaning, hended]
      simp only
      have hsize' : ∀ j ∈ indices, j < (m'.data.item arr).length := by
        intro j hj
        rw [hv.item_length (by omega)]
        exact hsize j (mem_cons_of_mem _ hj)
      obtain ⟨head', mem', hcollect, hgroups, hlive''⟩ := collect_at_head sv m address head
        m'.data m'.mem skipval result i (hlive'.trans hlive)
      rw [hm', hcollect]
      simp only
      rcases ih head' m'.data mem' hlive'' hsize' with
        ⟨answers, head'', d'', mem'', hask, hcollected, hgroups', hlast⟩ |
        ⟨message, m'', lists, frames, hask, hcollected, habove''⟩
      · left
        rw [← hm', hask, hcollected]
        refine ⟨(i, result) :: answers, head'', d'', mem'', rfl, rfl, ?_, hlast⟩
        rw [hgroups', hgroups, foldl_cons]
      · right
        rw [← hm', hask, hcollected]
        exact ⟨message, m'', lists, frames, rfl, rfl, habove''⟩
    · right
      rw [hdata] at hmeaning
      rw [hmeaning, hended]
      exact ⟨message, m', _, _, rfl, rfl, habove.trans habove'⟩


theorem ask_in_order {meaning : V → data_t σ V → Except String (Option K) × data_t σ V}
    (hkeeps : ∀ v d, KeepsSizes d (meaning v d).2) (arr : Nat) (indices : List Nat)
    (d : data_t σ V) (hsize : ∀ i ∈ indices, i < (d.item arr).length)
    {answers : List (Nat × Option K)} {d' : data_t σ V}
    (h : ask meaning arr indices d = (.ok answers, d')) : answers.map Prod.fst = indices := by
  induction indices generalizing d answers with
  | nil =>
    unfold ask at h
    cases h
    rfl
  | cons i indices ih =>
    have hi := hsize i mem_cons_self
    have hv := hkeeps (d.item arr)[i] d
    unfold ask at h
    simp only [getElem?_eq_getElem hi] at h
    generalize meaning (d.item arr)[i] d = r at h hv
    rcases r with ⟨message | result, d₁⟩
    · cases h
    · have hsize' : ∀ j ∈ indices, j < (d₁.item arr).length := by
        intro j hj
        rw [hv.item_length (by omega)]
        exact hsize j (mem_cons_of_mem _ hj)
      have hrest := @ih d₁ hsize'
      simp only at h
      generalize ask meaning arr indices d₁ = r at h hrest
      rcases r with ⟨message | answers', d₂⟩
      · cases h
      · cases h
        rw [map_cons, hrest rfl]

/-! ## The function -/

variable {meaning : V → data_t σ V → Except String (Option K) × data_t σ V}
variable {call : V → machine_t σ V K → ended_t σ V K (Option K)}

theorem grouped_inside {n : Nat} (hasked : answers.map Prod.fst = List.range n)
    {head : List (unique_t K)} (hgroups : head.map group = answers.foldl (put sv skipval) []) :
    ∀ uptr ∈ head, ∀ i ∈ uptr.indices, i < n := by
  intro uptr huptr i hi
  have hgrouped := all_grouped sv skipval answers
    (by rw [hasked]; exact pairwise_lt_range)
  rw [← hgroups] at hgrouped
  obtain ⟨mark, hmark, -⟩ := hgrouped.mem_answers (mem_map_of_mem huptr) hi
  rw [← mem_range, ← hasked]
  exact mem_map_of_mem (f := Prod.fst) hmark

theorem finish_collecting (m : machine_t σ V K) (arr address : Nat) (head : List (unique_t K))
    (d : data_t σ V) (mem : memory_t) (hlive : mem.live = blocks head + address ::ₘ m.mem.live)
    (h : ∀ uptr ∈ head, ∀ i ∈ uptr.indices, i < (d.item arr).length) :
    finish arr (collecting m ⟨address, head⟩ d mem) =
      some (elements (d.item arr) (head.map unique_t.indices).reverse,
        { m with data := d, mem := { mem with live := m.mem.live } }) := by
  unfold finish
  simp only [collecting]
  rw [empty_list_frees (d.item arr) head [] hlive h]
  simp only [Option.bind_eq_bind, Option.bind_some]
  rw [FREE_cons address m.mem.live rfl, append_nil]
  rfl

theorem f_unique_array_agrees (hkeeps : ∀ v d, KeepsSizes d (meaning v d).2)
    (hcall : ∀ v m, Agrees m (meaning v m.data) (call v m)) (arr : Nat) (skipval : K)
    (args : List stack_t) (hargs : args.count .error_handler = 0) (m : machine_t σ V K) :
    Agrees m
      (result_of sv arr skipval (ask meaning arr (List.range (m.data.item arr).length) m.data))
      (f_unique_array sv call arr skipval args.length { m with stack := args ++ m.stack }) := by
  simp only [f_unique_array]
  by_cases hsize : (m.data.item arr).length = 0
  · left
    rw [if_pos hsize, hsize]
    refine ⟨[], { m with stack := m.stack }, rfl, ?_, rfl, rfl, rfl, ?_⟩
    · rw [drop_left]
    · exact (Multiset.zero_add _).symm
  · rw [if_neg hsize]
    have hinside : ∀ i ∈ List.range (m.data.item arr).length, i < (m.data.item arr).length := by
      intro i hi
      exact mem_range.1 hi
    have hlive : (ALLOCATE m.mem).2.live = blocks ([] : List (unique_t K)) +
        (ALLOCATE m.mem).1 ::ₘ m.mem.live := (Multiset.zero_add _).symm
    rcases collect_all_agrees sv hkeeps hcall { m with stack := args ++ m.stack } arr
        (ALLOCATE m.mem).1 skipval (List.range (m.data.item arr).length) [] m.data
        (ALLOCATE m.mem).2 hlive hinside with
      ⟨answers, head, d, mem, hask, hcollected, hgroups, hlive'⟩ |
      ⟨message, m', lists, frames, hask, hcollected, habove⟩
    · left
      have hasked := ask_in_order hkeeps arr _ m.data hinside hask
      have hsize' : (d.item arr).length = (m.data.item arr).length := by
        have hkept := ask_keeps hkeeps arr (List.range (m.data.item arr).length) m.data
        rw [hask] at hkept
        exact hkept.item_length hsize
      have hindices : ∀ uptr ∈ head, ∀ i ∈ uptr.indices, i < (d.item arr).length := by
        rw [hsize']
        exact grouped_inside hasked hgroups
      have hresult : groups_of sv skipval answers = (head.map unique_t.indices).reverse := by
        unfold groups_of
        rw [← map_nil (f := group), ← hgroups, map_map]
        rfl
      simp only [collecting] at hcollected
      rw [hask, hcollected]
      simp only
      have hfinish := finish_collecting { m with stack := args ++ m.stack } arr
        (ALLOCATE m.mem).1 head d mem hlive' hindices
      simp only [collecting] at hfinish
      rw [hfinish]
      refine ⟨elements (d.item arr) (groups_of sv skipval answers),
        { m with data := d, mem := { mem with live := m.mem.live } }, rfl, ?_, rfl, rfl, rfl, ?_⟩
      · simp [hresult]
      · exact (Multiset.zero_add _).symm
    · right
      simp only [collecting] at hcollected
      rw [hask, hcollected]
      have harguments : Above m { m with stack := args ++ m.stack } [] args :=
        ⟨rfl, rfl, hargs, (Multiset.zero_add _).symm⟩
      exact ⟨message, m', _, _, rfl, rfl, harguments.trans habove⟩


/-! ## LPC code -/

theorem call_unique_array_agrees (sv : sameval_t K) (const0 : K)
    (hkeeps : ∀ v d, KeepsSizes d (meaning v d).2)
    (hcall : ∀ v m, Agrees m (meaning v m.data) (call v m)) (arr : Nat) (skip : Option K)
    (m : machine_t σ V K) :
    Agrees m (result_of sv arr (skip.getD const0)
        (ask meaning arr (List.range (m.data.item arr).length) m.data))
      (call_unique_array sv const0 call arr skip m) := by
  apply f_unique_array_agrees hkeeps hcall
  cases skip <;> rfl

theorem Agrees.after {m m' : machine_t σ V K} {r : Except String α × data_t σ V}
    {e : ended_t σ V K α} (habove : Above m m' [] []) (h : Agrees m' r e) : Agrees m r e := by
  rcases h with ⟨a, m'', hr, he, habove'⟩ | ⟨message, m'', lists, frames, hr, he, habove'⟩
  · exact .inl ⟨a, m'', hr, he, habove.trans habove'⟩
  · exact .inr ⟨message, m'', _, _, hr, he, habove.trans habove'⟩

theorem exec_agrees (code : code_t σ V K) (m : machine_t σ V K) :
    Agrees m (mean sv const0 code m.data) (exec sv const0 code m) := by
  induction code generalizing m with
  | done result => exact .inl ⟨result, m, rfl, rfl, rfl, rfl, rfl, (Multiset.zero_add _).symm⟩
  | error message =>
    exact .inr ⟨message, m, [], [], rfl, rfl, rfl, rfl, rfl, (Multiset.zero_add _).symm⟩
  | act f k ih =>
    have habove : Above m { m with data := f.run m.data } [] [] :=
      ⟨rfl, rfl, rfl, (Multiset.zero_add _).symm⟩
    exact .after habove (ih _ _)
  | caught body k ihbody ih =>
    unfold mean exec
    rcases ihbody m with ⟨result, m', hmean, hexec, habove⟩ |
      ⟨message, m', lists, frames, hmean, hexec, habove⟩
    · rw [hmean, hexec]
      exact .after habove (ih none m')
    · obtain ⟨m'', hrestore, hdata, habove'⟩ := restore_above habove
      rw [hmean, hexec]
      simp only
      rw [hrestore, ← hdata]
      exact .after habove' (ih (some message) m'')
  | unique arr callback skip k ihcallback ih =>
    have hkeeps : ∀ v d, KeepsSizes d (mean sv const0 (callback v) d).2 := by
      intro v d
      exact mean_keeps (callback v) d
    unfold mean exec
    rcases call_unique_array_agrees sv const0 hkeeps
        (fun v m => ihcallback v m) arr skip m with
      ⟨ret, m', hresult, hcalled, habove⟩ | ⟨message, m', lists, frames, hresult, hcalled, habove⟩
    · rw [hresult, hcalled]
      exact .after habove (ih ret m')
    · rw [hresult, hcalled]
      exact .inr ⟨message, m', lists, frames, rfl, rfl, habove⟩


/-- All the lists that came are freed, and the ones before are as they were. -/
structure Restored (m m' : machine_t σ V K) : Prop where
  g_u_list : m'.g_u_list = m.g_u_list
  stack : m'.stack = m.stack
  live : m'.mem.live = m.mem.live

theorem Above.restored {m m' : machine_t σ V K} (h : Above m m' [] []) : Restored m m' := by
  refine ⟨h.g_u_list, h.stack, ?_⟩
  rw [h.live]
  exact Multiset.zero_add _

theorem partition_inside {groups : List (List Nat)} (h : IsPartition sv skipval answers groups)
    {n : Nat} (hasked : answers.map Prod.fst = List.range n) :
    ∀ group ∈ groups, ∀ i ∈ group, i < n := by
  intro group hgroup i hi
  have hmem : i ∈ groups.flatten := mem_flatten.2 ⟨group, hgroup, hi⟩
  rw [h.all.mem_iff, mem_chosen] at hmem
  obtain ⟨mark, hmark, -⟩ := hmem
  rw [← mem_range, ← hasked]
  exact mem_map_of_mem (f := Prod.fst) hmark

end mudos.unique_array
