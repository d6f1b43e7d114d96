-- Every text stands in one block, which lookup finds and which lives as long as
-- somebody refers to it, where no text that is cut off is one that is already
-- there.
import MudOS.SharedStrings
import Mathlib.Data.List.Nodup

open mudos.runs Function Option List

namespace mudos.shared_strings

variable {opts : options} {s : strings}
variable {b : Nat} {str : List UInt8}

/-! ## The invariant -/

/-- The chains hold the live blocks, each in the chain of its text, no two blocks have one
text, and a count that has not overflowed is the number of references. -/
structure Sound (opts : options) (s : strings) : Prop where
  home : ∀ h b, b ∈ s.base_table h ↔ ∃ t, text s b = some t ∧ StrHash opts t = h
  nodup : ∀ h, (s.base_table h).Nodup
  unique : ∀ b b' t, text s b = some t → text s b' = some t → b = b'
  counted : ∀ b block, s.blocks b = some block → block.refs ≠ 0 →
    block.refs = s.held b ∧ block.refs ≤ USHRT_MAX
  kept : ∀ b, 0 < s.held b → (s.blocks b).isSome
  size : ∀ b block, s.blocks b = some block →
    block.STRING.length ≤ opts.max_string_length ∧
      block.size = min block.STRING.length USHRT_MAX

theorem text_eq_some {t : List UInt8} :
    text s b = some t ↔ ∃ block, s.blocks b = some block ∧ block.STRING = t := by simp [text]

theorem Sound.perm (h : Sound opts s) {base_table : Nat → List Nat}
    (hperm : ∀ i, (base_table i).Perm (s.base_table i)) : Sound opts { s with base_table } where
  home i b := by rw [(hperm i).mem_iff]; exact h.home i b
  nodup i := (hperm i).nodup_iff.mpr (h.nodup i)
  unique := h.unique
  counted := h.counted
  kept := h.kept
  size := h.size

/-! ## Lookup -/

theorem sfindblock_fst (h : Sound opts s) (str : List UInt8) (b : Nat) :
    (sfindblock str (StrHash opts str) s).1 = some b ↔ text s b = some str := by
  unfold sfindblock
  split
  · rename_i hnone
    simp only [reduceCtorEq, false_iff]
    intro htext
    have hmem := (h.home (StrHash opts str) b).mpr ⟨str, htext, rfl⟩
    simpa [htext] using find?_eq_none.mp hnone b hmem
  · rename_i curr hcurr
    have hfound : text s curr = some str := by simpa using find?_some hcurr
    simp only [some.injEq]
    exact ⟨fun heq => heq ▸ hfound, fun htext => h.unique curr b str hfound htext⟩

theorem sfindblock_snd (str : List UInt8) (i : Nat) (s : strings) :
    ∃ base_table, (sfindblock str i s).2 = { s with base_table } ∧
      ∀ j, (base_table j).Perm (s.base_table j) := by
  unfold sfindblock
  split
  · exact ⟨s.base_table, rfl, fun j => .refl _⟩
  · rename_i curr hcurr
    refine ⟨_, rfl, fun j => ?_⟩
    by_cases hj : j = i
    · subst hj
      rw [update_self]
      exact (perm_cons_erase (mem_of_find?_eq_some hcurr)).symm
    · rw [update_of_ne hj]

theorem sound_sfindblock (h : Sound opts s) (str : List UInt8) (i : Nat) :
    Sound opts (sfindblock str i s).2 := by
  obtain ⟨base_table, heq, hperm⟩ := sfindblock_snd str i s
  rw [heq]
  exact h.perm hperm

/-! ## References -/

theorem text_set_refs (b r : Nat) (s : strings) : text (set_refs b r s) = text s := by
  funext a
  by_cases ha : a = b
  · subst ha
    rcases hb : s.blocks a <;> simp [text, set_refs, hb]
  · simp [text, set_refs, ha]

theorem Sound.recount (h : Sound opts s) {r n : Nat}
    (hcount : (s.blocks b).isSome → r ≠ 0 → r = n ∧ r ≤ USHRT_MAX)
    (hkept : 0 < n → (s.blocks b).isSome) : Sound opts (hold b n (set_refs b r s)) := by
  have htext : text (hold b n (set_refs b r s)) = text s := text_set_refs b r s
  have hblocks : ∀ a, a ≠ b → (hold b n (set_refs b r s)).blocks a = s.blocks a := by
    intro a ha
    simp [hold, set_refs, ha]
  have hself : (hold b n (set_refs b r s)).blocks b =
      (s.blocks b).map fun block => { block with refs := r } := by
    simp [hold, set_refs]
  refine ⟨fun i a => ?_, h.nodup, fun a a' t => ?_, fun a block ha hr => ?_, fun a ha => ?_,
    fun a block ha => ?_⟩
  · rw [htext]
    exact h.home i a
  · rw [htext]
    exact h.unique a a' t
  · by_cases hab : a = b
    · subst hab
      rw [hself] at ha
      obtain ⟨old, hold', rfl⟩ := map_eq_some_iff.mp ha
      have hn : (hold a n (set_refs a r s)).held a = n := update_self ..
      rw [hn]
      exact hcount (by simp [hold']) hr
    · rw [hblocks a hab] at ha
      have hn : (hold b n (set_refs b r s)).held a = s.held a := update_of_ne hab ..
      rw [hn]
      exact h.counted a block ha hr
  · by_cases hab : a = b
    · subst hab
      rw [hself, isSome_map]
      apply hkept
      have hn : (hold a n (set_refs a r s)).held a = n := update_self ..
      omega
    · rw [hblocks a hab]
      apply h.kept
      have hn : (hold b n (set_refs b r s)).held a = s.held a := update_of_ne hab ..
      omega
  · by_cases hab : a = b
    · subst hab
      rw [hself] at ha
      obtain ⟨old, hold', rfl⟩ := map_eq_some_iff.mp ha
      exact h.size a old hold'
    · rw [hblocks a hab] at ha
      exact h.size a block ha

theorem refs_of_block {block : block_t} (hb : s.blocks b = some block) : refs s b = block.refs := by
  simp [refs, hb]

theorem sound_add_reference (h : Sound opts s) (hb : (s.blocks b).isSome) :
    Sound opts (hold b (s.held b + 1) (set_refs b (add_reference (refs s b)) s)) := by
  obtain ⟨block, hblock⟩ := isSome_iff_exists.mp hb
  apply h.recount
  · intro _ hr
    rw [refs_of_block hblock] at hr ⊢
    unfold add_reference at hr ⊢
    split_ifs at hr ⊢ with hzero
    · exact absurd rfl hr
    · obtain ⟨hcount, hle⟩ := h.counted b block hblock hzero
      simp only [USHRT_MAX] at hr hle ⊢
      omega
  · exact fun _ => hb

/-! ## `make_shared_string` -/

/-- The text is not cut off, or what is left of it is new and belongs into the same chain. -/
def Fits (opts : options) (s : strings) : action → Prop
  | .make_shared_string str _ =>
    str.length ≤ opts.max_string_length ∨
      ((findstring opts (str.take opts.max_string_length) s).1 = none ∧
        StrHash opts (str.take opts.max_string_length) = StrHash opts str)
  | _ => True

theorem no_text (h : Sound opts s) (hnone : (sfindblock str (StrHash opts str) s).1 = none)
    (b : Nat) : text s b ≠ some str := by
  intro htext
  simp [(sfindblock_fst h str b).mpr htext] at hnone

theorem sound_alloc_new_string (h : Sound opts s) {i : Nat} (hb : s.blocks b = none)
    (hnew : ∀ a, text s a ≠ some (str.take opts.max_string_length))
    (hhash : StrHash opts (str.take opts.max_string_length) = i) :
    Sound opts (hold b (s.held b + 1) (alloc_new_string opts str i b s)) := by
  have hheld : s.held b = 0 := by
    by_contra hne
    have := h.kept b (by omega)
    simp [hb] at this
  have hlen : str.take (min str.length opts.max_string_length) =
      str.take opts.max_string_length := by
    rw [Nat.min_comm, ← take_take, take_length]
  set s' := hold b (s.held b + 1) (alloc_new_string opts str i b s) with hs'
  have hblocks : ∀ a, a ≠ b → s'.blocks a = s.blocks a := by
    intro a ha
    simp [hs', hold, alloc_new_string, ha]
  have hself : s'.blocks b = some ⟨min (min str.length opts.max_string_length) USHRT_MAX, 1,
      str.take opts.max_string_length⟩ := by
    simp [hs', hold, alloc_new_string, hlen]
  have htext : ∀ a, a ≠ b → text s' a = text s a := by
    intro a ha
    rw [text, hblocks a ha, text]
  have htextself : text s' b = some (str.take opts.max_string_length) := by
    rw [text, hself]
    rfl
  have hnot : ∀ j, b ∉ s.base_table j := by
    intro j hmem
    obtain ⟨t, ht, -⟩ := (h.home j b).mp hmem
    simp [text, hb] at ht
  have hchain : ∀ j, s'.base_table j = if j = i then b :: s.base_table i else s.base_table j := by
    intro j
    simp [hs', hold, alloc_new_string, update_apply]
  refine ⟨fun j a => ?_, fun j => ?_, fun a a' t ha ha' => ?_, fun a block ha hr => ?_,
    fun a ha => ?_, fun a block ha => ?_⟩
  · rw [hchain]
    by_cases hab : a = b
    · subst hab
      rw [htextself]
      split_ifs with hj
      · subst hj
        simp [hhash]
      · simp only [hnot j, false_iff, not_exists, not_and, some.injEq]
        rintro t rfl rfl
        exact hj hhash
    · rw [htext a hab, ← h.home j a]
      split_ifs with hj
      · subst hj
        simp [hab]
      · rfl
  · rw [hchain]
    split_ifs with hj
    · exact nodup_cons.mpr ⟨hnot i, h.nodup i⟩
    · exact h.nodup j
  · by_cases hab : a = b <;> by_cases hab' : a' = b
    · rw [hab, hab']
    · subst hab
      rw [htextself] at ha
      rw [htext a' hab', ← ha] at ha'
      exact absurd ha' (hnew a')
    · subst hab'
      rw [htextself] at ha'
      rw [htext a hab, ← ha'] at ha
      exact absurd ha (hnew a)
    · rw [htext a hab] at ha
      rw [htext a' hab'] at ha'
      exact h.unique a a' t ha ha'
  · by_cases hab : a = b
    · subst hab
      rw [hself] at ha
      cases ha
      have : s'.held a = s.held a + 1 := update_self ..
      rw [this, hheld]
      exact ⟨rfl, (by decide : 1 ≤ USHRT_MAX)⟩
    · rw [hblocks a hab] at ha
      have : s'.held a = s.held a := update_of_ne hab ..
      rw [this]
      exact h.counted a block ha hr
  · by_cases hab : a = b
    · subst hab
      simp [hself]
    · rw [hblocks a hab]
      have : s'.held a = s.held a := update_of_ne hab ..
      exact h.kept a (this ▸ ha)
  · by_cases hab : a = b
    · subst hab
      rw [hself] at ha
      cases ha
      simp only [length_take]
      omega
    · rw [hblocks a hab] at ha
      exact h.size a block ha

theorem sound_make_shared_string (h : Sound opts s) (hb : s.blocks b = none)
    (hfits : Fits opts s (.make_shared_string str b)) :
    Sound opts (hold (make_shared_string opts str b s).1
      (s.held (make_shared_string opts str b s).1 + 1) (make_shared_string opts str b s).2) := by
  obtain ⟨base_table, hsnd, hperm⟩ := sfindblock_snd str (StrHash opts str) s
  have hfst := sfindblock_fst h str
  have hsound := h.perm hperm
  unfold make_shared_string
  dsimp only
  rcases hfind : sfindblock str (StrHash opts str) s with ⟨_ | a, s'⟩
  · rw [hfind] at hsnd
    obtain rfl : s' = _ := hsnd
    have hnone : (sfindblock str (StrHash opts str) s).1 = none := by rw [hfind]
    have hnew : (∀ a, text s a ≠ some (str.take opts.max_string_length)) ∧
        StrHash opts (str.take opts.max_string_length) = StrHash opts str := by
      rcases hfits with hle | ⟨hcut, hhash⟩
      · rw [take_of_length_le hle]
        exact ⟨no_text h hnone, rfl⟩
      · exact ⟨no_text h hcut, hhash⟩
    exact sound_alloc_new_string (s := { s with base_table }) hsound hb hnew.1 hnew.2
  · rw [hfind] at hsnd hfst
    obtain rfl : s' = _ := hsnd
    obtain ⟨block, hblock, -⟩ := text_eq_some.mp ((hfst a).mp rfl)
    exact sound_add_reference (s := { s with base_table }) hsound (by simp [hblock])

/-! ## `free_string` -/

theorem sound_free (h : Sound opts s) {i : Nat} {t : List UInt8} (ht : text s b = some t)
    (hi : StrHash opts t = i) (hheld : s.held b = 0) :
    Sound opts { s with
      blocks := update s.blocks b none
      base_table := update s.base_table i ((s.base_table i).erase b) } := by
  have htext : ∀ a, text { s with
      blocks := update s.blocks b none
      base_table := update s.base_table i ((s.base_table i).erase b) } a =
        if a = b then none else text s a := by
    intro a
    by_cases ha : a = b
    · subst ha
      simp [text]
    · simp [text, ha]
  have hblock : ∀ a block, update s.blocks b none a = some block →
      a ≠ b ∧ s.blocks a = some block := by
    intro a block ha
    by_cases hab : a = b
    · subst hab
      simp at ha
    · exact ⟨hab, by simpa [hab] using ha⟩
  refine ⟨fun j a => ?_, fun j => ?_, fun a a' u ha ha' => ?_, fun a block ha hr => ?_,
    fun a ha => ?_, fun a block ha => ?_⟩
  · rw [htext]
    have hhome := h.home j a
    by_cases hab : a = b
    · subst hab
      simp only [if_true, reduceCtorEq, false_and, exists_false, iff_false]
      by_cases hj : j = i
      · subst hj
        rw [update_self]
        exact (h.nodup j).not_mem_erase
      · rw [update_of_ne hj, hhome]
        rintro ⟨u, hu, huj⟩
        rw [ht] at hu
        cases hu
        exact hj (huj.symm.trans hi)
    · rw [if_neg hab, ← hhome]
      dsimp only
      by_cases hj : j = i
      · subst hj
        rw [update_self, mem_erase_of_ne hab]
      · rw [update_of_ne hj]
  · by_cases hj : j = i
    · subst hj
      simpa using (h.nodup j).erase b
    · simpa [hj] using h.nodup j
  · rw [htext] at ha ha'
    split_ifs at ha ha'
    exact h.unique a a' u ha ha'
  · exact h.counted a block (hblock a block ha).2 hr
  · have hab : a ≠ b := by
      rintro rfl
      dsimp only at ha
      omega
    simpa [hab] using h.kept a ha
  · exact h.size a block (hblock a block ha).2

theorem sound_free_string (h : Sound opts s) (hheld : 0 < s.held b) :
    Sound opts (hold b (s.held b - 1) (free_string opts b s)) := by
  obtain ⟨block, hblock⟩ := isSome_iff_exists.mp (h.kept b hheld)
  have hlive : (s.blocks b).isSome := by simp [hblock]
  have hrefs := refs_of_block hblock
  unfold free_string
  by_cases hzero : refs s b = 0
  · -- the count has overflowed, and stays at zero
    rw [if_pos hzero]
    have hsame : set_refs b 0 s = s := by
      have hself : update s.blocks b (some { block with refs := 0 }) = s.blocks := by
        have hblock0 : { block with refs := 0 } = block := by
          rw [hrefs] at hzero
          rw [← hzero]
        rw [hblock0, ← hblock, update_eq_self]
      simp [set_refs, hblock, hself]
    rw [← hsame]
    exact h.recount (fun _ hr => absurd rfl hr) fun _ => hlive
  · rw [if_neg hzero]
    obtain ⟨hcount, hle⟩ := h.counted b block hblock (hrefs ▸ hzero)
    have hsound : Sound opts (hold b (s.held b - 1) (set_refs b (refs s b - 1) s)) := by
      apply h.recount
      · intro _ hr
        rw [hrefs] at hr ⊢
        omega
      · exact fun _ => hlive
    dsimp only
    split_ifs with hpos hmem
    · exact hsound
    · have hrefs' : refs (set_refs b (refs s b - 1) s) b = refs s b - 1 := by
        simp [refs, set_refs, hblock]
      have htext : text (set_refs b (refs s b - 1) s) b = some block.STRING := by
        rw [text_set_refs]
        simp [text, hblock]
      have hnone : (hold b (s.held b - 1) (set_refs b (refs s b - 1) s)).held b = 0 := by
        have : (hold b (s.held b - 1) (set_refs b (refs s b - 1) s)).held b = s.held b - 1 :=
          update_self ..
        omega
      exact sound_free hsound htext (by rw [htext]; rfl) hnone
    · exact hsound

/-! ## Runs -/

theorem sound_step {s' : strings} {a : action} (h : Sound opts s) (hfits : Fits opts s a)
    (hs : step opts s a = some s') : Sound opts s' := by
  cases a with
  | make_shared_string str b =>
    simp only [step] at hs
    split_ifs at hs with hb
    cases hs
    have hmake := sound_make_shared_string h (isNone_iff_eq_none.mp hb) hfits
    have hheld : (make_shared_string opts str b s).2.held = s.held := by
      obtain ⟨base_table, hsnd, -⟩ := sfindblock_snd str (StrHash opts str) s
      unfold make_shared_string
      dsimp only
      rcases hfind : sfindblock str (StrHash opts str) s with ⟨_ | a, t⟩
      all_goals
        rw [hfind] at hsnd
        obtain rfl : t = _ := hsnd
        rfl
    rwa [← hheld] at hmake
  | ref_string b =>
    simp only [step] at hs
    split_ifs at hs with hheld
    cases hs
    exact sound_add_reference h (h.kept b hheld)
  | free_string b =>
    simp only [step] at hs
    split_ifs at hs with hheld
    cases hs
    exact sound_free_string h hheld
  | findstring str =>
    cases hs
    exact sound_sfindblock h str _

theorem sound_start : Sound opts start where
  home := by simp [start, text]
  nodup := by simp [start]
  unique := by simp [start, text]
  counted := by simp [start]
  kept := by simp [start]
  size := by simp [start]

/-- A text has at most one block, which is found, and a block is there as long as there are
references to it. Where two references go, the texts are the same if the pointers are. -/
structure Shared (opts : options) (s : strings) : Prop where
  one : ∀ b b' t, text s b = some t → text s b' = some t → b = b'
  found : ∀ str b, (findstring opts str s).1 = some b ↔ text s b = some str
  kept : ∀ b, 0 < s.held b → (s.blocks b).isSome
  same : ∀ b b', 0 < s.held b → 0 < s.held b' → (text s b = text s b' ↔ b = b')

theorem shared (h : Sound opts s) : Shared opts s where
  one := h.unique
  found str b := sfindblock_fst h str b
  kept := h.kept
  same b b' hb hb' := by
    refine ⟨fun heq => ?_, fun heq => by rw [heq]⟩
    obtain ⟨block, hblock⟩ := isSome_iff_exists.mp (h.kept b hb)
    have htext : text s b = some block.STRING := text_eq_some.mpr ⟨block, hblock, rfl⟩
    exact h.unique b b' block.STRING htext (heq ▸ htext)

theorem make_long_string (h : Sound opts s) (hlong : opts.max_string_length < str.length)
    (b : Nat) :
    ∃ base_table, (∀ j, (base_table j).Perm (s.base_table j)) ∧
      make_shared_string opts str b s =
        (b, alloc_new_string opts str (StrHash opts str) b { s with base_table }) := by
  obtain ⟨base_table, hsnd, hperm⟩ := sfindblock_snd str (StrHash opts str) s
  refine ⟨base_table, hperm, ?_⟩
  unfold make_shared_string
  dsimp only
  rcases hfind : sfindblock str (StrHash opts str) s with ⟨_ | a, t⟩
  · rw [hfind] at hsnd
    obtain rfl : t = _ := hsnd
    rfl
  · have htext := (sfindblock_fst h str a).mp (by rw [hfind])
    obtain ⟨block, hblock, heq⟩ := text_eq_some.mp htext
    have := (h.size a block hblock).1
    rw [heq] at this
    omega

theorem a_text_that_does_not_fit {s' : strings} (h : Sound opts s)
    (hstep : step opts s (.make_shared_string str b) = some s')
    (hfits : ¬ Fits opts s (.make_shared_string str b)) : ¬ Shared opts s' := by
  intro hshared
  simp only [Fits, not_or, not_and, Nat.not_le] at hfits
  obtain ⟨hlong, hcut⟩ := hfits
  obtain ⟨base_table, hperm, hmake⟩ := make_long_string h hlong b
  simp only [step] at hstep
  split_ifs at hstep with hb
  cases hstep
  rw [hmake] at hshared
  have hfree := isNone_iff_eq_none.mp hb
  have hlen : min str.length opts.max_string_length = opts.max_string_length := by omega
  set cut := str.take opts.max_string_length with hcutdef
  have hnew : text (hold b (s.held b + 1)
      (alloc_new_string opts str (StrHash opts str) b { s with base_table })) b = some cut := by
    simp [text, hold, alloc_new_string, hlen, hcutdef]
  rcases hfind : (findstring opts cut s).1 with _ | a
  · -- the new block is in a chain where its text is not looked for
    have hfound := (hshared.found cut b).mpr hnew
    have hother : StrHash opts cut ≠ StrHash opts str := hcut hfind
    have hmem : b ∈ s.base_table (StrHash opts cut) := by
      rw [← (hperm _).mem_iff]
      unfold findstring sfindblock at hfound
      split at hfound
      · cases hfound
      · rename_i curr hcurr
        cases hfound
        have := mem_of_find?_eq_some hcurr
        simpa [hold, alloc_new_string, hother] using this
    obtain ⟨t, ht, -⟩ := (h.home _ b).mp hmem
    simp [text, hfree] at ht
  · -- the text is there already
    have hold' : text s a = some cut := (sfindblock_fst h cut a).mp hfind
    have hne : a ≠ b := by
      rintro rfl
      simp [text, hfree] at hold'
    apply hne
    apply hshared.one a b cut _ hnew
    rw [← hold']
    simp [text, hold, alloc_new_string, hne]

/-- As long as no text is cut off to one that is already there or belongs elsewhere, the
strings are shared, and they stay so with the next step exactly if it does no such thing. -/
theorem a_text_stands_once (h : Reachable start (step opts) (Fits opts) s) :
    Shared opts s ∧ ∀ a s', step opts s a = some s' → (Shared opts s' ↔ Fits opts s a) := by
  have hsound : Sound opts s := h.inv sound_start fun _ _ _ hs hfits hstep =>
    sound_step hs hfits hstep
  refine ⟨shared hsound, fun a s' hstep => ⟨fun hshared => ?_, fun hfits => ?_⟩⟩
  · cases a with
    | make_shared_string str b =>
      by_contra hfits
      exact a_text_that_does_not_fit hsound hstep hfits hshared
    | _ => trivial
  · exact shared (sound_step hsound hfits hstep)

instance (s : strings) : (a : action) → Decidable (Fits opts s a)
  | .make_shared_string str _ =>
    inferInstanceAs (Decidable (str.length ≤ opts.max_string_length ∨
      ((findstring opts (str.take opts.max_string_length) s).1 = none ∧
        StrHash opts (str.take opts.max_string_length) = StrHash opts str)))
  | .ref_string _ | .free_string _ | .findstring _ => isTrue trivial

/-- Two texts, one of them made twice, and one cut off that is new. -/
def three_strings : List action :=
  [.make_shared_string [97, 98] 1, .make_shared_string [97] 2, .make_shared_string [97, 98] 3,
    .free_string 1, .make_shared_string (replicate 21 99) 3, .free_string 2]

theorem three_strings_are_shared : ∃ s, run (step ⟨20, 255⟩) start three_strings = some s ∧
    text s 1 = some [97, 98] ∧ text s 2 = none ∧ Shared ⟨20, 255⟩ s := by
  have hrun : (run (step ⟨20, 255⟩) start three_strings).map (fun s => (text s 1, text s 2)) =
      some (some [97, 98], none) := by decide +kernel
  obtain ⟨s, hs, hvalues⟩ := map_eq_some_iff.mp hrun
  obtain ⟨hone, htwo⟩ := Prod.mk.inj hvalues
  have hok : Along (step ⟨20, 255⟩) (Fits ⟨20, 255⟩) start three_strings := by decide +kernel
  have hreach := Reachable.of_run .start hok hs
  exact ⟨s, hs, hone, htwo, (a_text_stands_once hreach).1⟩

/-- A text with 21 characters is made twice, where a string has at most 20. -/
theorem a_long_text_stands_twice : ¬ ∀ opts s,
    Reachable start (step opts) (fun _ _ => True) s → Shared opts s := by
  intro hall
  have hrun : (run (step ⟨20, 255⟩) start [.make_shared_string (replicate 21 97) 1,
      .make_shared_string (replicate 21 97) 2]).map (fun s => (text s 1, text s 2)) =
      some (some (replicate 20 97), some (replicate 20 97)) := by decide +kernel
  obtain ⟨s, hs, hvalues⟩ := map_eq_some_iff.mp hrun
  obtain ⟨hone, htwo⟩ := Prod.mk.inj hvalues
  have hreach := Reachable.of_any hs
  exact absurd ((hall _ s hreach).one 1 2 _ hone htwo) (by decide)

end mudos.shared_strings
