-- The laws of `replace_string()`. Each loop replaces the chosen occurrences of what is
-- left of the source behind what it has written; where its copies overlap, or its count of
-- written characters misses some, the function fails.
import MudOS.ReplaceString

open mudos.occurrences mudos.compaction List Option

namespace mudos.replace_string

variable {mem : List byte_t} {out rest : text_t} {slen : Nat} {p c : char_t}
variable {l : text_t}

/-! ## The skip table -/

theorem fill_table_eq (plen : Nat) (pattern : text_t) (j : Nat) (table : char_t → Nat) (c : char_t)
    (h : plen = j + pattern.length) : fill_table plen pattern j table c =
      if c ∈ pattern then pattern.reverse.idxOf c else table c := by
  induction pattern generalizing j table with
  | nil => rfl
  | cons x pattern ih =>
    rw [length_cons] at h
    unfold fill_table
    rw [ih _ _ (by omega), reverse_cons, idxOf_append]
    simp only [mem_reverse, mem_cons]
    by_cases hc : c ∈ pattern
    · rw [if_pos hc, if_pos (.inr hc), if_pos hc]
    · rw [if_neg hc, if_neg hc]
      by_cases hx : c = x
      · subst hx
        rw [if_pos (.inl rfl), Function.update_self, idxOf_cons_self, length_reverse]
        omega
      · rw [if_neg (not_or.2 ⟨hx, hc⟩), Function.update_of_ne hx]

theorem skip_table_eq (pattern : text_t) : skip_table pattern = skip pattern := by
  funext c
  unfold skip_table skip
  rw [fill_table_eq _ _ _ _ _ (Nat.zero_add _).symm]
  by_cases hc : c ∈ pattern
  · rw [if_pos hc]
  · rw [if_neg hc, idxOf_of_notMem (by rwa [mem_reverse]), length_reverse]

/-! ## The memory of the string -/

/-- What the two loops for long patterns replace an occurrence by. -/
def sep_of (pattern replace : text_t) (first last : Int) (i : Nat) : text_t :=
  if first ≤ i ∧ (i : Int) ≤ last then replace else pattern

variable {pattern replace : text_t} {first last : Int}

structure Compacting (slen : Nat) (out : text_t) (gap : Nat) (rest : text_t) (mem : List byte_t) :
    Prop where
  slid : Slid (out.map some) gap (ended rest) mem
  length : out.length + gap + rest.length = slen

theorem ended_append (a b : text_t) : ended (a ++ b) = a.map some ++ ended b := by
  unfold ended
  rw [map_append, append_assoc]

theorem text_of_append (text : text_t) (mem : List byte_t) :
    text_of (text.map some ++ none :: mem) = text := by
  induction text with
  | nil => rfl
  | cons c text ih => exact congrArg (c :: ·) ih

theorem copy_some_slid {out rest : List byte_t} {gap : Nat} (l : List byte_t)
    (h : Slid out gap (l ++ rest) mem) :
    Slid (out ++ l) gap rest (copy_some l.length mem (out.length + gap) out.length) := by
  induction l generalizing out mem with
  | nil =>
    rwa [append_nil]
  | cons c l ih =>
    have hread : mem[out.length + gap]? = some c := by
      have := h.read 0
      rwa [Nat.add_zero] at this
    have hnext := ih h.copy
    rw [length_append, length_singleton, append_assoc] at hnext
    rw [length_cons]
    unfold copy_some
    rw [hread]
    simp only
    rwa [show out.length + gap + 1 = out.length + 1 + gap by omega]

theorem Compacting.copy {gap : Nat} (h : Compacting slen out gap (l ++ rest) mem) :
    Compacting slen (out ++ l) gap rest (copy_some l.length mem (out.length + gap) out.length) := by
  obtain ⟨hslid, hlength⟩ := h
  rw [ended_append] at hslid
  refine ⟨?_, ?_⟩
  · have := copy_some_slid (l.map some) hslid
    rwa [length_map, length_map, ← map_append] at this
  · rw [length_append] at hlength ⊢
    omega

theorem Compacting.put {gap : Nat} {text : text_t} (h : Compacting slen out gap (l ++ rest) mem)
    (hle : text.length ≤ l.length) :
    ∃ mem', memcpy_from mem out.length text = some mem' ∧
      Compacting slen (out ++ text) (gap + (l.length - text.length)) rest mem' := by
  obtain ⟨hslid, hlength⟩ := h
  have hmem := hslid.length
  rw [ended_append] at hslid
  rw [ended, length_append, length_map, length_map, length_singleton] at hmem
  rw [length_append] at hlength hmem
  unfold memcpy_from
  rw [if_pos (by omega)]
  refine ⟨_, rfl, ?_, ?_⟩
  · have hstore := hslid.pass.store (l := text.map some) (by
      rw [length_map, length_map]
      omega)
    rw [length_map, length_map, length_map, ← map_append] at hstore
    rwa [show gap + (l.length - text.length) = gap + l.length - text.length by omega]
  · rw [length_append]
    omega

theorem Compacting.move {gap : Nat} (h : Compacting slen out gap (l ++ rest) mem) :
    if gap = 0 ∨ l.length ≤ gap then
      ∃ mem', memcpy mem out.length (out.length + gap) l.length = some mem' ∧
        Compacting slen (out ++ l) gap rest mem'
    else memcpy mem out.length (out.length + gap) l.length = none := by
  obtain ⟨hslid, hlength⟩ := h
  rw [ended_append] at hslid
  have hdrop := hslid.drop
  rw [length_map] at hdrop
  have hmove := hslid.move
  rw [length_map, ← map_append] at hmove
  have htake : (mem.drop (out.length + gap)).take l.length = l.map some := by
    rw [hdrop]
    exact take_left' (length_map _)
  unfold memcpy
  rw [htake]
  split
  · rw [if_pos (by omega)]
    refine ⟨_, rfl, hmove, ?_⟩
    rw [length_append] at hlength ⊢
    omega
  · rw [if_neg (by omega)]

/-! ## The long loop within the string -/

def hits (first last : Int) (cur n : Nat) : Nat :=
  (List.range n).countP fun i => first ≤ (cur + 1 + i : Nat) ∧ ((cur + 1 + i : Nat) : Int) ≤ last

theorem hits_succ (first last : Int) (cur n : Nat) : hits first last cur (n + 1) =
    (if first ≤ (cur + 1 : Nat) ∧ ((cur + 1 : Nat) : Int) ≤ last then 1 else 0) +
      hits first last (cur + 1) n := by
  unfold hits
  rw [range_succ_eq_map, countP_cons, countP_map, Nat.add_comm]
  congr 1
  · simp
  · congr 1
    funext i
    simp only [Function.comp]
    rw [show cur + 1 + i.succ = cur + 1 + 1 + i by omega]

theorem hits_past {cur : Nat} (h : last ≤ cur) (n : Nat) : hits first last cur n = 0 := by
  unfold hits
  rw [countP_eq_zero]
  intro i _
  simp only [decide_eq_true_eq]
  omega

def Stops (pattern : text_t) (last : Int) (cur : Nat) (rest : text_t) : Prop :=
  (cur : Int) < last ∧ last ≤ cur + number pattern rest

variable (pattern replace first last) in
/-- How the loop ends that has written `out` and is to read `rest`. -/
structure Ended (cur : Nat) (out rest : text_t) (gap : Nat) (out' rest' : text_t) (gap' : Nat) :
    Prop where
  text : out' ++ rest' = out ++ replaced pattern (sep_of pattern replace first last) (cur + 1) rest
  gap : gap' = gap +
    hits first last cur (number pattern rest) * (pattern.length - replace.length)
  stopped : Stops pattern last cur rest → rest' = after pattern (last - cur).toNat rest
  ran : ¬ Stops pattern last cur rest →
    rest'.length < pattern.length ∧ rest'.length ≤ (last_piece pattern rest).length

theorem Ended.jumped {cur n gap gap' : Nat} {out' rest' : text_t}
    (hnone : ∀ m < n, ¬ pattern <+: rest.drop m) (hn : n ≤ rest.length)
    (h : Ended pattern replace first last cur (out ++ rest.take n) (rest.drop n) gap out' rest'
      gap') : Ended pattern replace first last cur out rest gap out' rest' gap' := by
  have hstops : Stops pattern last cur rest ↔ Stops pattern last cur (rest.drop n) := by
    unfold Stops
    rw [number_jump hnone hn]
  refine ⟨?_, ?_, ?_, ?_⟩
  · rw [h.text, append_assoc, replaced_jump hnone hn]
  · rw [h.gap, number_jump hnone hn]
  · intro hs
    obtain ⟨k, hk⟩ : ∃ k, (last - cur).toNat = k + 1 :=
      ⟨(last - cur).toNat - 1, by have := hs.1; omega⟩
    rw [h.stopped (hstops.1 hs), hk, after_jump hnone hn]
  · intro hs
    obtain ⟨h1, h2⟩ := h.ran fun h => hs (hstops.2 h)
    exact ⟨h1, Nat.le_trans h2 (last_piece_jump hnone hn)⟩

theorem stops_occurrence (hp : pattern ≠ []) {cur : Nat} (h : pattern <+: rest)
    (hne : ((cur + 1 : Nat) : Int) ≠ last) :
    Stops pattern last cur rest ↔ Stops pattern last (cur + 1) (rest.drop pattern.length) := by
  unfold Stops
  rw [number_occurrence hp h]
  omega

theorem Ended.passed (hp : pattern ≠ []) {cur gap gap' : Nat} (gap₁ : Nat) {out' rest' : text_t}
    (hocc : pattern <+: rest) (hne : ((cur + 1 : Nat) : Int) ≠ last) (hgap : gap₁ = gap +
      (if first ≤ (cur + 1 : Nat) ∧ ((cur + 1 : Nat) : Int) ≤ last then 1 else 0) *
        (pattern.length - replace.length)) (h : Ended pattern replace first last (cur + 1)
      (out ++ sep_of pattern replace first last (cur + 1)) (rest.drop pattern.length) gap₁
      out' rest' gap') : Ended pattern replace first last cur out rest gap out' rest' gap' := by
  have hstops := stops_occurrence hp hocc hne
  refine ⟨?_, ?_, ?_, ?_⟩
  · rw [h.text, replaced_occurrence hp hocc, append_assoc]
  · rw [h.gap, number_occurrence hp hocc, hits_succ, Nat.add_mul, hgap, Nat.add_assoc]
  · intro hs
    have hk : (last - cur).toNat = (last - (cur + 1 : Nat)).toNat + 1 := by
      have := hs.1
      omega
    rw [h.stopped (hstops.1 hs), hk, after_occurrence hp hocc]
  · intro hs
    rw [last_piece_occurrence hp hocc]
    exact h.ran fun h => hs (hstops.2 h)

variable (replace) in
theorem ended_last (hp : pattern ≠ []) {cur : Nat} (gap : Nat) (out : text_t)
    (hocc : pattern <+: rest) (hchosen : first ≤ (cur + 1 : Nat))
    (heq : ((cur + 1 : Nat) : Int) = last) :
    Ended pattern replace first last cur out rest gap (out ++ replace) (rest.drop pattern.length)
      (gap + (pattern.length - replace.length)) := by
  have hkept : ∀ i ≥ cur + 1 + 1, sep_of pattern replace first last i = pattern := by
    intro i hi
    unfold sep_of
    rw [if_neg (by omega)]
  have hsep : sep_of pattern replace first last (cur + 1) = replace :=
    if_pos ⟨hchosen, Int.le_of_eq heq⟩
  refine ⟨?_, ?_, ?_, ?_⟩
  · rw [replaced_occurrence hp hocc, replaced_kept hp hkept, hsep, append_assoc]
  · rw [number_occurrence hp hocc, hits_succ, if_pos ⟨hchosen, Int.le_of_eq heq⟩,
      hits_past (Int.le_of_eq heq.symm), Nat.add_zero, Nat.one_mul]
  · intro _
    have hk : (last - cur).toNat = 0 + 1 := by omega
    rw [hk, after_occurrence hp hocc, after_zero hp]
  · intro hs
    refine absurd ⟨?_, ?_⟩ hs
    · omega
    · rw [number_occurrence hp hocc]
      omega

theorem ended_short {cur : Nat} (gap : Nat) (out : text_t) (h : rest.length < pattern.length) :
    Ended pattern replace first last cur out rest gap out rest gap := by
  refine ⟨?_, ?_, ?_, ?_⟩
  · rw [replaced_short h]
  · rw [number_short h]
    simp [hits]
  · intro hs
    unfold Stops at hs
    rw [number_short h] at hs
    omega
  · intro _
    rw [last_piece_short h]
    exact ⟨h, Nat.le_refl _⟩

theorem Compacting.compare {gap : Nat} (h : Compacting slen out gap rest mem)
    (hle : pattern.length ≤ rest.length) :
    (mem.drop (out.length + gap)).take pattern.length = pattern.map some ↔ pattern <+: rest := by
  have hdrop := h.slid.drop
  rw [length_map] at hdrop
  rw [hdrop, ended, take_append_of_le_length (by rwa [length_map]), ← map_take,
    prefix_iff_eq_take, eq_comm]
  exact (map_injective_iff.2 fun _ _ h => some.inj h).eq_iff

theorem Compacting.probe {gap : Nat} (h : Compacting slen out gap rest mem) {i : Nat}
    (hi : i < rest.length) : mem[out.length + gap + i]? = some (some rest[i]) := by
  have hread := h.slid.read i
  rw [length_map] at hread
  rw [hread, ended, getElem?_append_left (by rwa [length_map]), getElem?_map,
    getElem?_eq_getElem hi]
  rfl

theorem replace_down_ends (hp : pattern ≠ []) (hr : replace.length ≤ pattern.length)
    (hfl : first ≤ last) (steps : Nat) {gap cur : Nat} (h : Compacting slen out gap rest mem)
    (hsteps : rest.length < steps) (hgap : gap = 0 ∨ first ≤ cur ∧ (cur : Int) < last) :
    ∃ out' gap' rest' mem',
      replace_down pattern replace first last slen steps mem (out.length + gap) out.length cur =
        some (mem', out'.length + gap', out'.length) ∧
      Compacting slen out' gap' rest' mem' ∧
      Ended pattern replace first last cur out rest gap out' rest' gap' := by
  have hpos := length_pos_iff.2 hp
  induction steps generalizing out rest gap cur mem with
  | zero => exact absurd hsteps (Nat.not_lt_zero _)
  | succ steps ih =>
    have hlength := h.length
    unfold replace_down
    by_cases hle : pattern.length ≤ rest.length
    · rw [if_pos (by omega), h.probe (by omega : pattern.length - 1 < rest.length)]
      have hat : rest[pattern.length - 1]? = some rest[pattern.length - 1] :=
        getElem?_eq_getElem _
      generalize rest[pattern.length - 1] = c at *
      simp only [skip_table_eq]
      by_cases hskip : skip pattern c ≠ 0
      · -- the table moves the pattern on
        rw [if_pos hskip]
        have hnone : ∀ m < skip pattern c, ¬ pattern <+: rest.drop m := fun m hm => skip_none hat hm
        have hn : skip pattern c ≤ rest.length := Nat.le_trans (skip_le pattern c) hle
        have hcopy : Compacting slen (out ++ rest.take (skip pattern c)) gap
            (rest.drop (skip pattern c)) (copy_some (skip pattern c) mem (out.length + gap)
              out.length) := by
          have := Compacting.copy (l := rest.take (skip pattern c)) (by rwa [take_append_drop])
          rwa [length_take_of_le hn] at this
        have hlen : (out ++ rest.take (skip pattern c)).length = out.length + skip pattern c := by
          rw [length_append, length_take_of_le hn]
        obtain ⟨out', gap', rest', mem', hrun, hc, hended⟩ := ih hcopy (by
          rw [length_drop]
          omega) hgap
        rw [hlen, show out.length + skip pattern c + gap = out.length + gap + skip pattern c by
          omega] at hrun
        exact ⟨out', gap', rest', mem', hrun, hc, hended.jumped hnone hn⟩
      · rw [if_neg hskip]
        by_cases hocc : pattern <+: rest
        · rw [if_pos ((h.compare hle).2 hocc)]
          obtain ⟨u, rfl⟩ := hocc
          have hocc : pattern <+: pattern ++ u := prefix_append _ _
          have hdrop : (pattern ++ u).drop pattern.length = u := drop_left
          rw [length_append] at hsteps
          by_cases hchosen : first ≤ (cur + 1 : Nat) ∧ ((cur + 1 : Nat) : Int) ≤ last
          · obtain ⟨mem₁, hmem₁, hput⟩ := h.put hr
            rw [if_pos (by exact_mod_cast hchosen), hmem₁, bind_some]
            have hsrc : out.length + gap + pattern.length =
                (out ++ replace).length + (gap + (pattern.length - replace.length)) := by
              rw [length_append]
              omega
            have hdst : out.length + replace.length = (out ++ replace).length :=
              length_append.symm
            by_cases heq : ((cur + 1 : Nat) : Int) = last
            · -- no further one is chosen
              rw [if_pos (by exact_mod_cast heq), hsrc, hdst]
              have hended := ended_last replace hp gap out hocc hchosen.1 heq
              rw [hdrop] at hended
              exact ⟨_, _, _, _, rfl, hput, hended⟩
            · rw [if_neg (by exact_mod_cast heq), hsrc, hdst]
              have hsep : sep_of pattern replace first last (cur + 1) = replace := if_pos hchosen
              have hbefore : first ≤ ((cur + 1 : Nat) : Int) ∧ ((cur + 1 : Nat) : Int) < last :=
                ⟨hchosen.1, by omega⟩
              obtain ⟨out', gap', rest', mem', hrun, hc, hended⟩ := ih hput (by omega)
                (.inr hbefore)
              refine ⟨out', gap', rest', mem', hrun, hc,
                Ended.passed hp (gap + (pattern.length - replace.length)) hocc heq ?_ ?_⟩
              · rw [if_pos hchosen, Nat.one_mul]
              · rwa [hsep, hdrop]
          · -- nothing was replaced yet, so it is copied to itself
            have hzero : gap = 0 := by
              rcases hgap with hzero | hgap
              · exact hzero
              · exact absurd ⟨by omega, by omega⟩ hchosen
            have hmove := h.move
            rw [if_pos (.inl hzero)] at hmove
            obtain ⟨mem₁, hmem₁, hmoved⟩ := hmove
            rw [if_neg (by exact_mod_cast hchosen), hmem₁, bind_some]
            have hne : ((cur + 1 : Nat) : Int) ≠ last := fun heq =>
              hchosen ⟨Int.le_trans hfl (Int.le_of_eq heq.symm), Int.le_of_eq heq⟩
            have hsep : sep_of pattern replace first last (cur + 1) = pattern := if_neg hchosen
            have hsrc : out.length + gap + pattern.length = (out ++ pattern).length + gap := by
              rw [length_append]
              omega
            rw [hsrc, ← length_append]
            have hbefore : gap = 0 ∨ first ≤ ((cur + 1 : Nat) : Int) ∧
                ((cur + 1 : Nat) : Int) < last := .inl hzero
            obtain ⟨out', gap', rest', mem', hrun, hc, hended⟩ := ih hmoved (by omega) hbefore
            refine ⟨out', gap', rest', mem', hrun, hc, Ended.passed hp gap hocc hne ?_ ?_⟩
            · rw [if_neg hchosen, Nat.zero_mul, Nat.add_zero]
            · rwa [hsep, hdrop]
        · rw [if_neg fun heq => hocc ((h.compare hle).1 heq)]
          obtain ⟨x, t, rfl⟩ : ∃ x t, rest = x :: t :=
            exists_cons_of_length_pos (by omega)
          have hcopy := Compacting.copy (l := [x]) h
          have hlen : (out ++ [x]).length = out.length + 1 := length_append
          obtain ⟨out', gap', rest', mem', hrun, hc, hended⟩ := ih hcopy (by
            rw [length_cons] at hsteps
            omega) hgap
          rw [hlen, show out.length + 1 + gap = out.length + gap + 1 by omega] at hrun
          refine ⟨out', gap', rest', mem', hrun, hc, Ended.jumped (n := 1) ?_ ?_ hended⟩
          · intro m hm
            obtain rfl : m = 0 := by omega
            exact hocc
          · rw [length_cons]
            omega
    · rw [if_neg (by omega)]
      exact ⟨out, gap, rest, mem, rfl, h, ended_short gap out (Nat.lt_of_not_le hle)⟩

/-! ## Within the string -/

def gap_of (pattern replace : text_t) (first last : Int) (text : text_t) : Nat :=
  hits first last 0 (number pattern text) * (pattern.length - replace.length)

structure Tail (pattern : text_t) (last : Int) (text tail : text_t) : Prop where
  stopped : Stops pattern last 0 text → tail = after pattern last.toNat text
  ran : ¬ Stops pattern last 0 text →
    tail.length < pattern.length ∧ tail.length ≤ (last_piece pattern text).length

theorem compacting_start (text : text_t) : Compacting text.length [] 0 text (ended text) :=
  ⟨slid_start _, Nat.zero_add _⟩

theorem replace_long_eq (hp : pattern ≠ []) (hr : replace.length ≤ pattern.length)
    (hfl : first ≤ last) (text : text_t) : ∃ tail, Tail pattern last text tail ∧
      if gap_of pattern replace first last text = 0 ∨
          tail.length ≤ gap_of pattern replace first last text then
        ∃ mem, replace_long pattern replace first last text = some mem ∧
          text_of mem = replaced pattern (sep_of pattern replace first last) 1 text
      else replace_long pattern replace first last text = none := by
  have hstart : (0 : Nat) = 0 ∨ first ≤ ((0 : Nat) : Int) ∧ ((0 : Nat) : Int) < last := .inl rfl
  obtain ⟨out, gap, tail, mem, hrun, hc, hended⟩ := replace_down_ends hp hr hfl (text.length + 1)
    (compacting_start text) (Nat.lt_succ_self _) hstart
  have hrun : replace_down pattern replace first last text.length (text.length + 1) (ended text)
      0 0 0 = some (mem, out.length + gap, out.length) := hrun
  have hgap := hended.gap
  rw [Nat.zero_add] at hgap
  have htail : Tail pattern last text tail := by
    refine ⟨?_, hended.ran⟩
    intro hs
    have := hended.stopped hs
    rwa [Int.natCast_zero, Int.sub_zero] at this
  have hlength := hc.length
  refine ⟨tail, htail, ?_⟩
  have hfull : Compacting text.length out gap (tail ++ []) mem := by rwa [append_nil]
  have hmove := hfull.move
  unfold replace_long
  rw [hrun, bind_some]
  simp only
  rw [show text.length - (out.length + gap) = tail.length by omega]
  unfold gap_of
  rw [← hgap]
  by_cases hfit : gap = 0 ∨ tail.length ≤ gap
  · rw [if_pos hfit] at hmove ⊢
    obtain ⟨mem₁, hmem₁, hmoved⟩ := hmove
    rw [hmem₁]
    refine ⟨_, rfl, ?_⟩
    have hzero : Slid ((out ++ tail).map some) gap (none :: []) mem₁ := hmoved.slid
    obtain ⟨junk, -, hjunk⟩ := hzero.copy
    rw [length_map, length_append] at hjunk
    have htext := hended.text
    rw [nil_append] at htext
    simp only
    rw [hjunk, append_assoc, singleton_append, text_of_append, htext]
  · rw [if_neg hfit] at hmove ⊢
    rw [hmove]
    rfl

/-! ### A pattern of one character -/

theorem single_iff {t : text_t} : [p] <+: c :: t ↔ c = p := by
  rw [cons_prefix_cons, eq_comm]
  exact and_iff_left (List.nil_prefix)

theorem replaced_char_self {sep : Nat → text_t} (t : text_t) (k : Nat) :
    replaced [p] sep k (p :: t) = sep k ++ replaced [p] sep (k + 1) t :=
  replaced_occurrence (cons_ne_nil p []) (single_iff.2 rfl) k

theorem replaced_char_ne {sep : Nat → text_t} (h : c ≠ p) (t : text_t) (k : Nat) :
    replaced [p] sep k (c :: t) = c :: replaced [p] sep k t :=
  replaced_none (fun hc => h (single_iff.1 hc)) k

theorem number_char_self (t : text_t) : number [p] (p :: t) = number [p] t + 1 :=
  number_occurrence (cons_ne_nil p []) (single_iff.2 rfl)

theorem number_char_ne (h : c ≠ p) (t : text_t) :
    number [p] (c :: t) = number [p] t := number_none fun hc => h (single_iff.1 hc)

theorem slid_ended {out : List byte_t} {gap : Nat} (h : Slid out gap (ended rest) mem) :
    mem[out.length + gap]? = (ended rest)[0]? := by
  have := h.read 0
  rwa [Nat.add_zero] at this

variable (first last) in
theorem replace_char_eq {r : char_t} (steps : Nat) (cur : Nat)
    (h : Slid (out.map some) 0 (ended rest) mem) (hsteps : rest.length < steps) :
    replace_char (some p) (some r) first last steps mem out.length cur =
      ended (out ++ replaced [p] (sep_of [p] [r] first last) (cur + 1) rest) := by
  induction steps generalizing out rest mem cur with
  | zero => exact absurd hsteps (Nat.not_lt_zero _)
  | succ steps ih =>
    have hread := slid_ended h
    rw [length_map, Nat.add_zero] at hread
    unfold replace_char
    rw [hread]
    cases rest with
    | nil =>
      obtain ⟨junk, hjunk, rfl⟩ := h
      rw [length_eq_zero_iff.1 hjunk, nil_append, ← ended_append]
      rfl
    | cons c rest =>
      have hpass : ∀ x,
          Slid ((out ++ [x]).map some) 0 (ended rest) (mem.set out.length (some x)) := by
        intro x
        have hlt : out.length < mem.length := by
          rw [h.length, length_map]
          simp [ended]
        have hstore := Slid.store (l := [some x]) (Slid.pass (l := [some c]) h) (Nat.le_refl 1)
        rw [length_map, ← set_eq_store mem hlt] at hstore
        rwa [map_append]
      have hsame : mem.set out.length (some c) = mem := by
        obtain ⟨hlt, hat⟩ := List.getElem?_eq_some_iff.1
          (hread : mem[out.length]? = some (some c))
        rw [← hat, set_getElem_self]
      have hlen : ∀ x : char_t, (out ++ [x]).length = out.length + 1 := fun x => length_append
      rw [length_cons] at hsteps
      simp only [ended, map_cons, cons_append, getElem?_cons_zero, some.injEq]
      by_cases hc : c = p
      · subst hc
        rw [if_pos rfl, replaced_char_self]
        unfold sep_of
        by_cases hchosen : first ≤ (cur + 1 : Nat) ∧ ((cur + 1 : Nat) : Int) ≤ last
        · rw [if_pos (by exact_mod_cast hchosen), if_pos hchosen]
          have hrest := ih (cur + 1) (hpass r) (by omega)
          rwa [hlen, append_assoc] at hrest
        · rw [if_neg (by exact_mod_cast hchosen), if_neg hchosen]
          have hrest := ih (cur + 1) (hpass c) (by omega)
          rwa [hlen, hsame, append_assoc] at hrest
      · rw [if_neg hc, replaced_char_ne hc]
        have hrest := ih cur (hpass c) (by omega)
        rwa [hlen, hsame, append_assoc] at hrest

theorem copy_rest_slid (steps : Nat) {out : List byte_t} {gap : Nat}
    (h : Slid out gap (ended rest) mem) (hsteps : rest.length < steps) :
    ∃ mem', copy_rest steps mem (out.length + gap) out.length = (mem', out.length + rest.length) ∧
      Slid (out ++ rest.map some) gap [none] mem' := by
  induction steps generalizing out rest mem with
  | zero => exact absurd hsteps (Nat.not_lt_zero _)
  | succ steps ih =>
    have hread := slid_ended h
    unfold copy_rest
    rw [hread]
    cases rest with
    | nil =>
      refine ⟨mem, rfl, ?_⟩
      rwa [map_nil, append_nil]
    | cons c rest =>
      rw [length_cons] at hsteps
      obtain ⟨mem', hrun, hslid⟩ := ih (Slid.copy (a := some c) h) (by omega)
      rw [length_append, length_singleton,
        show out.length + 1 + gap = out.length + gap + 1 by omega] at hrun
      refine ⟨mem', ?_, ?_⟩
      · rw [length_cons, show out.length + (rest.length + 1) = out.length + 1 + rest.length by
          omega, ← hrun]
        rfl
      · rwa [append_assoc] at hslid

def left_out (p : char_t) (last : Int) (i : Nat) : text_t := if (i : Int) ≤ last then [] else [p]

theorem leave_out_slid (last : Int) (steps : Nat) {gap : Nat} (cur : Nat)
    (h : Slid (out.map some) gap (ended rest) mem) (hsteps : rest.length < steps) : ∃ mem' gap',
      leave_out (some p) last steps mem (out.length + gap) out.length cur =
        (mem', (out ++ replaced [p] (left_out p last) (cur + 1) rest).length) ∧
      Slid ((out ++ replaced [p] (left_out p last) (cur + 1) rest).map some) gap' [none] mem' := by
  induction steps generalizing out rest gap cur mem with
  | zero => exact absurd hsteps (Nat.not_lt_zero _)
  | succ steps ih =>
    have hread := slid_ended h
    rw [length_map] at hread
    unfold leave_out
    rw [hread]
    cases rest with
    | nil =>
      refine ⟨mem, gap, ?_, ?_⟩
      · rw [replaced_nil, append_nil]
        rfl
      · rwa [replaced_nil, append_nil]
    | cons c rest =>
      rw [length_cons] at hsteps
      simp only [ended, map_cons, cons_append, getElem?_cons_zero, some.injEq]
      by_cases hc : c = p
      · subst hc
        rw [if_pos rfl]
        by_cases hlast : ((cur + 1 : Nat) : Int) ≤ last
        · rw [if_pos (by exact_mod_cast hlast), replaced_char_self]
          have hsep : left_out c last (cur + 1) = [] := if_pos hlast
          rw [hsep, nil_append, Nat.add_assoc out.length gap 1]
          have hpass : Slid (out.map some) (gap + 1) (ended rest) mem :=
            Slid.pass (l := [some c]) h
          obtain ⟨mem', gap', hrun, hslid⟩ := ih (cur + 1) hpass (by omega)
          exact ⟨mem', gap', hrun, hslid⟩
        · have hkept : ∀ i ≥ cur + 1, left_out c last i = [c] := by
            intro i hi
            unfold left_out
            rw [if_neg (by omega)]
          rw [if_neg (by exact_mod_cast hlast), replaced_kept (cons_ne_nil c []) hkept]
          obtain ⟨mem', hrun, hslid⟩ := copy_rest_slid (steps + 1) h (by
            rw [length_cons]
            omega)
          rw [length_map] at hrun
          refine ⟨mem', gap, ?_, ?_⟩
          · rw [hrun, length_append]
          · rwa [map_append]
      · rw [if_neg hc, replaced_char_ne hc]
        have hcopy :
            Slid ((out ++ [c]).map some) gap (ended rest) (mem.set out.length (some c)) := by
          have := Slid.copy (a := some c) h
          rw [length_map] at this
          rwa [map_append]
        obtain ⟨mem', gap', hrun, hslid⟩ := ih cur hcopy (by omega)
        rw [length_append, length_singleton,
          show out.length + 1 + gap = out.length + gap + 1 by omega] at hrun
        rw [append_assoc] at hrun hslid
        exact ⟨mem', gap', hrun, hslid⟩

theorem leave_out_from_eq (hfl : first ≤ last) (steps : Nat) (cur : Nat)
    (h : Slid (out.map some) 0 (ended rest) mem) (hsteps : rest.length < steps) :
    ((number [p] rest = 0 ∨ ((cur + number [p] rest : Nat) : Int) < first) ∧
      leave_out_from (some p) first last steps mem out.length cur = none) ∨
    (number [p] rest ≠ 0 ∧ first ≤ (cur + number [p] rest : Nat) ∧
      ∃ mem', leave_out_from (some p) first last steps mem out.length cur = some mem' ∧
        (text_of mem').length < out.length + rest.length ∧
        ((cur : Int) < last →
          text_of mem' = out ++ replaced [p] (sep_of [p] [] first last) (cur + 1) rest)) := by
  induction steps generalizing out rest cur mem with
  | zero => exact absurd hsteps (Nat.not_lt_zero _)
  | succ steps ih =>
    have hread := slid_ended h
    rw [length_map, Nat.add_zero] at hread
    cases rest with
    | nil =>
      left
      unfold leave_out_from
      rw [hread]
      exact ⟨.inl rfl, rfl⟩
    | cons c rest =>
      rw [length_cons] at hsteps ⊢
      have hkeep : Slid ((out ++ [c]).map some) 0 (ended rest) mem := by
        obtain ⟨junk, hjunk, rfl⟩ := h
        refine ⟨[], rfl, ?_⟩
        rw [length_eq_zero_iff.1 hjunk, map_append, append_assoc]
        rfl
      have hlen : (out ++ [c]).length = out.length + 1 := length_append
      unfold leave_out_from
      rw [hread]
      simp only [ended, map_cons, cons_append, getElem?_cons_zero, some.injEq]
      by_cases hc : c = p
      · subst hc
        rw [if_pos rfl, number_char_self]
        by_cases hfirst : first ≤ ((cur + 1 : Nat) : Int)
        · right
          rw [if_pos (by exact_mod_cast hfirst)]
          have hpass : Slid (out.map some) 1 (ended rest) mem := Slid.pass (l := [some c]) h
          obtain ⟨mem', gap', hrun, hslid⟩ := leave_out_slid (p := c) last (steps + 1)
            (cur + 1) hpass (by omega)
          have hrun : leave_out (some c) last (steps + 1) mem (out.length + 1) out.length
              ((cur : Int) + 1) = _ := hrun
          rw [hrun]
          obtain ⟨junk, -, hjunk⟩ := Slid.copy hslid
          rw [length_map] at hjunk
          have hone : ∀ i, (left_out c last i).length ≤ [c].length := by
            intro i
            unfold left_out
            split <;> simp
          have hshort := replaced_length_le (cons_ne_nil c []) hone (cur + 1 + 1) rest
          refine ⟨Nat.succ_ne_zero _, by omega, _, rfl, ?_, ?_⟩
          · rw [hjunk, append_assoc, singleton_append, text_of_append,
              length_append]
            omega
          · intro hlast
            have hsep : sep_of [c] [] first last (cur + 1) = [] := if_pos ⟨hfirst, by omega⟩
            rw [hjunk, append_assoc, singleton_append, text_of_append, replaced_char_self,
              hsep, nil_append]
            congr 1
            apply replaced_congr (cons_ne_nil c [])
            intro i hi _
            unfold left_out sep_of
            have : first ≤ i := by omega
            simp [this]
        · rw [if_neg (by exact_mod_cast hfirst)]
          have hsep : sep_of [c] [] first last (cur + 1) = [c] :=
            if_neg fun hchosen => hfirst hchosen.1
          rw [replaced_char_self, hsep]
          rcases ih (cur + 1) hkeep (by omega) with
            ⟨hnone, hrun⟩ | ⟨hnum, hle, mem', hrun, hlt, heq⟩
          · rw [hlen] at hrun
            exact .inl ⟨.inr (by omega), hrun⟩
          · rw [hlen] at hrun hlt
            refine .inr ⟨Nat.succ_ne_zero _, by omega, mem', hrun, by omega, ?_⟩
            intro hlast
            rw [heq (by omega), append_assoc]
      · rw [if_neg hc, number_char_ne hc, replaced_char_ne hc]
        rcases ih cur hkeep (by omega) with ⟨hnone, hrun⟩ | ⟨hnum, hle, mem', hrun, hlt, heq⟩
        · rw [hlen] at hrun
          exact .inl ⟨hnone, hrun⟩
        · rw [hlen] at hrun hlt
          refine .inr ⟨hnum, hle, mem', hrun, by omega, ?_⟩
          intro hlast
          rw [heq hlast, append_assoc]
          rfl

/-! ## Into a new string -/

variable {max_string_length : Nat}

/-- The loop for long patterns comes to a text that is within the limit, as it counts no
more characters than it writes. -/
theorem replace_up_whole (hp : pattern ≠ []) (steps : Nat) (src dst : text_t)
    (dlen cur : Nat) (hsteps : src.length < steps) (hdlen : dlen ≤ dst.length)
    (hfits : (dst ++ replaced pattern (sep_of pattern replace first last) (cur + 1) src).length <
      max_string_length) :
    replace_up max_string_length pattern replace first last steps src dst dlen cur =
      .whole (dst ++ replaced pattern (sep_of pattern replace first last) (cur + 1) src) := by
  have hpos := length_pos_iff.2 hp
  induction steps generalizing src dst dlen cur with
  | zero => exact absurd hsteps (Nat.not_lt_zero _)
  | succ steps ih =>
    rw [length_append] at hfits
    unfold replace_up
    by_cases hle : pattern.length ≤ src.length
    · have hlt : pattern.length - 1 < src.length := by omega
      have hat : src[pattern.length - 1]? = some src[pattern.length - 1] :=
        getElem?_eq_getElem hlt
      simp only [if_pos hle, hat, skip_table_eq]
      generalize src[pattern.length - 1] = c at *
      by_cases hskip : skip pattern c ≠ 0
      · have hnone : ∀ m < skip pattern c, ¬ pattern <+: src.drop m := fun m hm => skip_none hat hm
        have hn : skip pattern c ≤ src.length := Nat.le_trans (skip_le pattern c) hle
        have htake : (src.take (skip pattern c)).length = skip pattern c :=
          length_take_of_le hn
        rw [replaced_jump hnone hn, length_append, htake] at hfits
        rw [if_pos hskip, if_pos (by unfold Fits; omega), replaced_jump hnone hn]
        rw [ih _ _ _ _ (by rw [length_drop]; omega) (by rw [length_append]; omega)
          (by rw [length_append, length_append, htake]; omega), append_assoc]
      · rw [if_neg hskip]
        by_cases hocc : pattern <+: src
        · have htake : src.take pattern.length = pattern := (prefix_iff_eq_take.1 hocc).symm
          rw [replaced_occurrence hp hocc, length_append] at hfits
          rw [if_pos htake, replaced_occurrence hp hocc]
          by_cases hchosen : first ≤ ((cur + 1 : Nat) : Int) ∧ ((cur + 1 : Nat) : Int) ≤ last
          · have hsep : sep_of pattern replace first last (cur + 1) = replace := if_pos hchosen
            rw [hsep] at hfits ⊢
            rw [if_pos (by exact_mod_cast hchosen), if_neg (by omega),
              if_pos (by unfold Fits; omega)]
            by_cases heq : ((cur + 1 : Nat) : Int) = last
            · have hkept : ∀ i ≥ cur + 1 + 1, sep_of pattern replace first last i = pattern := by
                intro i hi
                unfold sep_of
                rw [if_neg (by omega)]
              rw [replaced_kept hp hkept] at hfits ⊢
              rw [if_pos (by exact_mod_cast heq), if_neg (by omega),
                if_pos (by rw [length_append]; omega), append_assoc]
            · rw [if_neg (by exact_mod_cast heq)]
              have hrest := ih (src.drop pattern.length) (dst ++ replace)
                (dlen + replace.length) (cur + 1) (by rw [length_drop]; omega)
                (by rw [length_append]; omega)
                (by rw [length_append, length_append]; omega)
              rwa [append_assoc] at hrest
          · have hsep : sep_of pattern replace first last (cur + 1) = pattern := if_neg hchosen
            rw [hsep] at hfits ⊢
            rw [if_neg (by exact_mod_cast hchosen), if_neg (by omega),
              if_pos (by unfold Fits; omega), htake]
            have hrest := ih (src.drop pattern.length) (dst ++ pattern)
              (dlen + pattern.length) (cur + 1) (by rw [length_drop]; omega)
              (by rw [length_append]; omega)
              (by rw [length_append, length_append]; omega)
            rwa [append_assoc] at hrest
        · have htake : ¬ src.take pattern.length = pattern := fun h =>
            hocc (prefix_iff_eq_take.2 h.symm)
          obtain ⟨x, t, rfl⟩ : ∃ x t, src = x :: t := exists_cons_of_length_pos (by omega)
          rw [replaced_none hocc, length_cons] at hfits
          rw [length_cons] at hsteps
          have hone : ((x :: t).take 1).length = 1 := rfl
          rw [if_neg htake, if_neg (by omega), if_pos (by unfold Fits; omega), replaced_none hocc]
          have hrest := ih t (dst ++ [x]) (dlen + 1) cur (by omega)
            (by rw [length_append, length_singleton]; omega)
            (by rw [length_append, length_append, length_singleton]; omega)
          rwa [append_assoc] at hrest
    · have hshort := Nat.lt_of_not_le hle
      rw [replaced_short hshort] at hfits ⊢
      simp only [if_neg hle]
      rw [if_neg (by omega), if_pos (by omega)]

/-- The loop for one character gives up when the text comes to the limit, except for an
empty rest. -/
structure CountsAll (max_string_length : Nat) (p : char_t) (replace : text_t) (first last : Int)
    (src dst : text_t) (cur : Nat) : Prop where
  whole :
    (dst ++ replaced [p] (sep_of [p] replace first last) (cur + 1) src).length <
      max_string_length →
    replace_char_up max_string_length (some p) replace first last src dst dst.length cur =
      .whole (dst ++ replaced [p] (sep_of [p] replace first last) (cur + 1) src)
  too_long :
    max_string_length ≤
      (dst ++ replaced [p] (sep_of [p] replace first last) (cur + 1) src).length →
    dst.length < max_string_length ∨ src ≠ [] →
    replace_char_up max_string_length (some p) replace first last src dst dst.length cur =
      .too_long

theorem counts_piece {src dst piece : text_t} {cur k : Nat}
    (h : CountsAll max_string_length p replace first last src (dst ++ piece) k)
    (hreplaced : replaced [p] (sep_of [p] replace first last) (cur + 1) (c :: src) =
      piece ++ replaced [p] (sep_of [p] replace first last) (k + 1) src)
    (hrun : replace_char_up max_string_length (some p) replace first last (c :: src) dst
        dst.length cur =
      if max_string_length ≤ dst.length + piece.length then .too_long
      else if Fits max_string_length dst piece then
        replace_char_up max_string_length (some p) replace first last src (dst ++ piece)
          (dst.length + piece.length) k
      else .wild) : CountsAll max_string_length p replace first last (c :: src) dst cur := by
  obtain ⟨hwhole, hlong⟩ := h
  have hlen : (dst ++ piece).length = dst.length + piece.length := length_append
  rw [append_assoc, hlen] at hwhole hlong
  refine ⟨?_, ?_⟩
  · rw [hreplaced, hrun]
    intro hlt
    have hle := hlt
    rw [← append_assoc, length_append, hlen] at hle
    rw [if_neg (by omega), if_pos (by unfold Fits; omega), hwhole hlt]
  · rw [hreplaced, hrun]
    intro hle _
    by_cases hfull : max_string_length ≤ dst.length + piece.length
    · rw [if_pos hfull]
    · rw [if_neg hfull, if_pos (by unfold Fits; omega)]
      exact hlong hle (.inl (Nat.lt_of_not_le hfull))

theorem counts_all (first last : Int) (max_string_length : Nat) (hr : replace ≠ [])
    (src dst : text_t) (cur : Nat) :
    CountsAll max_string_length p replace first last src dst cur := by
  induction src generalizing dst cur with
  | nil =>
    refine ⟨?_, ?_⟩
    · rw [replaced_nil, append_nil]
      intro hlt
      unfold replace_char_up
      rw [if_pos (by omega)]
    · rw [replaced_nil, append_nil]
      rintro hle (hlt | hne)
      · omega
      · exact absurd rfl hne
  | cons c src ih =>
    by_cases hc : c = p
    · subst hc
      by_cases hchosen : first ≤ ((cur + 1 : Nat) : Int) ∧ ((cur + 1 : Nat) : Int) ≤ last
      · have hsep : sep_of [c] replace first last (cur + 1) = replace := if_pos hchosen
        apply counts_piece (ih (dst ++ replace) (cur + 1))
        · rw [replaced_char_self, hsep]
        · conv_lhs => unfold replace_char_up
          simp only [if_true]
          rw [if_pos (by exact_mod_cast hchosen), if_pos hr]
          rfl
      · have hsep : sep_of [c] replace first last (cur + 1) = [c] := if_neg hchosen
        apply counts_piece (ih (dst ++ [c]) (cur + 1))
        · rw [replaced_char_self, hsep]
        · conv_lhs => unfold replace_char_up
          simp only [if_true]
          rw [if_neg (by exact_mod_cast hchosen)]
          rfl
    · apply counts_piece (ih (dst ++ [c]) cur)
      · rw [replaced_char_ne hc]
        rfl
      · conv_lhs => unfold replace_char_up
        simp only [some.injEq, if_neg hc]
        rfl

/-! ## The ways within the string -/

theorem replace_within_long (hp : 1 < pattern.length) (hr : replace.length ≤ pattern.length)
    (hfl : first ≤ last) (text : text_t) : ∃ tail, Tail pattern last text tail ∧
      replace_within pattern replace first last text =
        if gap_of pattern replace first last text = 0 ∨
            tail.length ≤ gap_of pattern replace first last text then
          some (replaced pattern (sep_of pattern replace first last) 1 text, true)
        else none := by
  have hne : pattern ≠ [] := length_pos_iff.1 (by omega)
  obtain ⟨tail, htail, hrun⟩ := replace_long_eq hne hr hfl text
  refine ⟨tail, htail, ?_⟩
  unfold replace_within
  rw [if_pos hp]
  split at hrun
  · rename_i hfit
    obtain ⟨mem, hmem, htext⟩ := hrun
    rw [if_pos hfit, hmem, map_some, htext]
  · rename_i hfit
    rw [if_neg hfit, hrun]
    rfl

variable (first last) in
theorem replace_within_char (p r : char_t) (text : text_t) :
    replace_within [p] [r] first last text =
      some (replaced [p] (sep_of [p] [r] first last) 1 text, false) := by
  have hstart : Slid (([] : text_t).map some) 0 (ended text) (ended text) := slid_start _
  have hrun : replace_char (some p) (some r) first last (text.length + 1) (ended text) 0 0 =
    ended ([] ++ replaced [p] (sep_of [p] [r] first last) (0 + 1) text) :=
      replace_char_eq first last (text.length + 1) 0 hstart (Nat.lt_succ_self _)
  unfold replace_within
  rw [if_neg (by simp), if_pos (cons_ne_nil r [])]
  simp only [head?_cons]
  rw [hrun, nil_append, ended, text_of_append]

theorem replace_within_none (hfl : first ≤ last) (p : char_t) (text : text_t) :
    ((number [p] text = 0 ∨ (number [p] text : Int) < first) ∧
      replace_within [p] [] first last text = some (text, false)) ∨
    (number [p] text ≠ 0 ∧ first ≤ number [p] text ∧
      ∃ result, replace_within [p] [] first last text = some (result, true) ∧
        result.length < text.length ∧
        (0 < last → result = replaced [p] (sep_of [p] [] first last) 1 text)) := by
  have hstart : Slid (([] : text_t).map some) 0 (ended text) (ended text) := slid_start _
  have hrun := leave_out_from_eq (p := p) hfl (text.length + 1) 0 hstart (Nat.lt_succ_self _)
  rw [Nat.zero_add, length_nil, Nat.zero_add] at hrun
  unfold replace_within
  rw [if_neg (by simp), if_neg (by simp)]
  simp only [head?_cons]
  rcases hrun with ⟨hnone, hrun⟩ | ⟨hnum, hle, mem, hrun, hlt, heq⟩
  · left
    rw [show leave_out_from _ _ _ _ _ _ 0 = _ from hrun]
    exact ⟨hnone, rfl⟩
  · right
    rw [show leave_out_from _ _ _ _ _ _ 0 = _ from hrun]
    exact ⟨hnum, hle, text_of mem, rfl, hlt, heq⟩

theorem replaced_in_itself (first last : Int) (hp : pattern ≠ [])
    (hr : replace.length ≤ pattern.length) :
    replaced pattern (sep_of pattern replace first last) 1 replace = replace ∧
      gap_of pattern replace first last replace = 0 := by
  by_cases heq : replace = pattern
  · subst heq
    refine ⟨replaced_kept hp ?_ replace, ?_⟩
    · intro i _
      exact ite_self _
    · rw [gap_of, Nat.sub_self, Nat.mul_zero]
  · have hnone : ∀ m < replace.length, ¬ pattern <+: replace.drop m := by
      intro m hm h
      have hle := h.length_le
      rw [length_drop] at hle
      obtain rfl : m = 0 := by omega
      exact heq (h.eq_of_length (by rw [drop_zero]; omega)).symm
    refine ⟨?_, ?_⟩
    · rw [replaced_jump hnone (Nat.le_refl _), take_length, drop_length, replaced_nil,
        append_nil]
    · rw [gap_of, number_jump hnone (Nat.le_refl _), drop_length]
      exact Nat.zero_mul _

/-! ## The whole -/

section

variable {text : text_t} {range : range_t}

theorem number_le_length (hp : pattern ≠ []) (text : text_t) :
    number pattern text ≤ text.length := by
  have hpos := length_pos_iff.2 hp
  have hle := number_le hp text
  exact Nat.le_trans (Nat.le_mul_of_pos_right _ hpos) hle

theorem chosen_iff (hp : pattern ≠ []) (hlimit : text.length ≤ max_string_length) {i : Nat}
    (h1 : 1 ≤ i) (hi : i ≤ number pattern text) :
    (range.first ≤ i ∧ (i : Int) ≤ range.last_used max_string_length) ↔ Chosen range i := by
  have hle := number_le_length hp text
  unfold Chosen range_t.last_used
  split <;> omega

theorem replaced_target (hp : pattern ≠ []) (hlimit : text.length ≤ max_string_length) :
    replaced pattern (sep_of pattern replace range.first (range.last_used max_string_length)) 1
      text = target text pattern replace range := by
  apply replaced_congr hp
  intro i h1 hi
  unfold sep_of
  simp [chosen_iff hp hlimit h1 (by omega)]

theorem gap_shortening (hp : pattern ≠ []) (hlimit : text.length ≤ max_string_length) :
    gap_of pattern replace range.first (range.last_used max_string_length) text =
      shortening text pattern replace range := by
  unfold gap_of shortening hits
  congr 1
  apply countP_congr
  intro i hi
  rw [mem_range] at hi
  simp only [decide_eq_true_eq]
  rw [show 0 + 1 + i = i + 1 by omega]
  exact chosen_iff hp hlimit (by omega) (by omega)

theorem stops_reached (range : range_t) (hp : 1 < pattern.length)
    (hlimit : text.length ≤ max_string_length) :
    Stops pattern (range.last_used max_string_length) 0 text ↔ Reached text pattern range := by
  have hne : pattern ≠ [] := length_pos_iff.1 (by omega)
  have hle := number_le hne text
  have htwo : number pattern text * 2 ≤ number pattern text * pattern.length :=
    Nat.mul_le_mul_left _ hp
  unfold Stops Reached range_t.last_used
  split <;> omega

theorem target_length_le (hp : pattern ≠ []) (hr : replace.length ≤ pattern.length) :
    (target text pattern replace range).length ≤ text.length := by
  apply replaced_length_le hp
  intro i
  split
  · exact hr
  · exact Nat.le_refl _

/-- What is left for the last copy is at most the limit of it, and all of it when the last
number comes in the text. -/
theorem tail_le (hp : 1 < pattern.length) (hlimit : text.length ≤ max_string_length)
    {tail : text_t} (h : Tail pattern (range.last_used max_string_length) text tail) :
    tail.length ≤ tail_limit text pattern range ∧
      (Reached text pattern range → tail.length = tail_limit text pattern range) := by
  have hstops := stops_reached range hp hlimit
  unfold tail_limit
  by_cases hreached : Reached text pattern range
  · have hlast : range.last_used max_string_length = range.last_given := by
      unfold Reached at hreached
      unfold range_t.last_used
      rw [if_neg (by omega)]
    have htail := h.stopped (hstops.2 hreached)
    rw [hlast] at htail
    rw [if_pos hreached, htail]
    exact ⟨Nat.le_refl _, fun _ => rfl⟩
  · obtain ⟨h1, h2⟩ := h.ran fun hs => hreached (hstops.1 hs)
    rw [if_neg hreached]
    exact ⟨by omega, fun hr => absurd hr hreached⟩

end

variable {arg : string_t} {range : range_t}

theorem within_outcome (hfirst : ¬ range.first > range.last_used max_string_length)
    (hp : pattern ≠ []) (hr : replace.length ≤ pattern.length) (hconst : ¬ arg.Constant) :
    f_replace_string max_string_length arg pattern replace range =
      arg.outcome (replace_within pattern replace range.first
        (range.last_used max_string_length) arg.text) := by
  have hlength : ¬ pattern.length = 0 := fun h => hp (length_eq_zero_iff.1 h)
  unfold f_replace_string
  simp only [if_neg hfirst, if_neg hlength, if_pos hr]
  cases arg with
  | constant text => exact absurd trivial hconst
  | shared text => rfl
  | malloc text ref => rfl

theorem outcome_own (h : ¬ arg.Stuck) (result : text_t) (extended : Bool) :
    arg.outcome (some (result, extended)) = .returned result (some arg.text) := by
  cases arg with
  | constant text => rfl
  | shared text => rfl
  | malloc text ref =>
    obtain ⟨n, rfl⟩ := Nat.exists_eq_succ_of_ne_zero h
    rfl

theorem outcome_stuck (h : arg.Stuck) (result : text_t) (extended : Bool) :
    arg.outcome (some (result, extended)) =
      .returned result (if extended then none else some result) := by
  cases arg with
  | constant text => exact absurd h id
  | shared text => exact absurd h id
  | malloc text ref =>
    obtain rfl : ref = 0 := h
    rfl

theorem outcome_none (arg : string_t) : arg.outcome none = .wild := rfl

section

variable (hfirst : ¬ range.first > range.last_used max_string_length) (hp : pattern ≠ [])
  (hlimit : arg.text.length ≤ max_string_length)

include hfirst hp hlimit

omit hfirst in
theorem wanted_within (hr : replace.length ≤ pattern.length) :
    wanted max_string_length arg pattern replace range =
      .returned (target arg.text pattern replace range) (some arg.text) :=
  if_pos (Nat.le_trans (target_length_le hp hr) hlimit)

theorem constant_within (hr : replace.length ≤ pattern.length) (hconst : arg.Constant) :
    f_replace_string max_string_length arg pattern replace range =
        wanted max_string_length arg pattern replace range ↔
      range = .all ∧ target arg.text pattern replace range = replace := by
  have hlength : ¬ pattern.length = 0 := fun h => hp (length_eq_zero_iff.1 h)
  rw [wanted_within hp hlimit hr]
  obtain ⟨text, rfl⟩ : ∃ text, arg = .constant text := by
    cases arg with
    | constant text => exact ⟨text, rfl⟩
    | shared text | malloc text ref => exact absurd hconst id
  unfold f_replace_string
  simp only [if_neg hfirst, if_neg hlength, if_pos hr]
  cases range with
  | all =>
    have hsame : ∃ extended, replace_within pattern replace range_t.all.first
        (range_t.all.last_used max_string_length) replace = some (replace, extended) := by
      obtain ⟨hreplaced, hgap⟩ := replaced_in_itself range_t.all.first
        (range_t.all.last_used max_string_length) hp hr
      by_cases hlong : 1 < pattern.length
      · obtain ⟨tail, -, hrun⟩ := replace_within_long hlong hr (Int.not_lt.1 hfirst) replace
        rw [hrun, if_pos (.inl hgap), hreplaced]
        exact ⟨_, rfl⟩
      · obtain ⟨p, rfl⟩ := length_eq_one_iff.1 (by omega : pattern.length = 1)
        rcases Nat.lt_or_ge 0 replace.length with hpos | hzero
        · obtain ⟨r, rfl⟩ := length_eq_one_iff.1 (Nat.le_antisymm hr hpos)
          rw [replace_within_char, hreplaced]
          exact ⟨_, rfl⟩
        · obtain rfl := length_eq_zero_iff.1 (Nat.le_zero.1 hzero)
          rcases replace_within_none (Int.not_lt.1 hfirst) p [] with ⟨-, hrun⟩ | ⟨hnum, -⟩
          · exact ⟨false, hrun⟩
          · exact absurd rfl hnum
    obtain ⟨extended, hrun⟩ := hsame
    simp only [unlink_string_svalue, hrun, string_t.outcome, string_t.text,
      outcome.returned.injEq, and_true, true_and]
    exact eq_comm
  | up_to n | window first last => simp [unlink_string_svalue]

theorem long_within (hr : replace.length ≤ pattern.length) (hconst : ¬ arg.Constant)
    (hlong : 1 < pattern.length) :
    (¬ arg.Stuck ∧ Clear arg.text pattern replace range →
      f_replace_string max_string_length arg pattern replace range =
        wanted max_string_length arg pattern replace range) ∧
    (f_replace_string max_string_length arg pattern replace range =
        wanted max_string_length arg pattern replace range →
      ¬ arg.Stuck ∧
        (Clear arg.text pattern replace range ∨ ¬ Reached arg.text pattern range)) := by
  obtain ⟨tail, htail, hrun⟩ := replace_within_long hlong hr (Int.not_lt.1 hfirst) arg.text
  obtain ⟨hle, heq⟩ := tail_le hlong hlimit htail
  rw [gap_shortening hp hlimit, replaced_target hp hlimit] at hrun
  rw [wanted_within hp hlimit hr, within_outcome hfirst hp hr hconst, hrun]
  constructor
  · rintro ⟨hnot, hclear⟩
    have hfit : shortening arg.text pattern replace range = 0 ∨
        tail.length ≤ shortening arg.text pattern replace range :=
      hclear.imp_right fun h => Nat.le_trans hle h
    rw [if_pos hfit, outcome_own hnot]
  · intro hright
    by_cases hfit : shortening arg.text pattern replace range = 0 ∨
        tail.length ≤ shortening arg.text pattern replace range
    · rw [if_pos hfit] at hright
      by_cases hs : arg.Stuck
      · simp [outcome_stuck hs] at hright
      · refine ⟨hs, ?_⟩
        by_cases hreached : Reached arg.text pattern range
        · exact .inl (hfit.imp_right fun h => heq hreached ▸ h)
        · exact .inr hreached
    · simp [if_neg hfit, outcome_none] at hright

theorem char_within (hr : replace.length ≤ pattern.length) (hconst : ¬ arg.Constant)
    (hone : pattern.length = 1) :
    f_replace_string max_string_length arg pattern replace range =
        wanted max_string_length arg pattern replace range ↔
      (arg.Stuck → target arg.text pattern replace range = arg.text) ∧
        (replace = [] → range.last_given < 0 → number pattern arg.text = 0) := by
  rw [wanted_within hp hlimit hr, within_outcome hfirst hp hr hconst]
  obtain ⟨p, rfl⟩ := length_eq_one_iff.1 hone
  rcases Nat.lt_or_ge 0 replace.length with hpos | hzero
  · obtain ⟨r, rfl⟩ := length_eq_one_iff.1 (Nat.le_antisymm hr hpos)
    rw [replace_within_char, replaced_target hp hlimit]
    have hnil : ¬ [r] = ([] : text_t) := cons_ne_nil r []
    simp only [hnil, false_implies, and_true]
    by_cases hs : arg.Stuck
    · rw [outcome_stuck hs]
      simp [hs, outcome.returned.injEq]
    · rw [outcome_own hs]
      simp [hs]
  · obtain rfl := length_eq_zero_iff.1 (Nat.le_zero.1 hzero)
    have htarget : replaced [p] (sep_of [p] [] range.first (range.last_used max_string_length)) 1
      arg.text = target arg.text [p] [] range := replaced_target hp hlimit
    have hkept : replaced [p] (fun _ => [p]) 1 arg.text = arg.text :=
      replaced_kept hp (fun _ _ => rfl) arg.text
    simp only [true_implies]
    rcases replace_within_none (Int.not_lt.1 hfirst) p arg.text with
      ⟨hnum, hrun⟩ | ⟨hnum, hle, result, hrun, hlt, heq⟩
    · -- nothing is left out
      have hsame : target arg.text [p] [] range = arg.text := by
        rw [← htarget]
        refine Eq.trans ?_ hkept
        apply replaced_congr hp
        intro i h1 hi
        unfold sep_of
        rw [if_neg (by omega)]
      have hright : arg.outcome (some (arg.text, false)) =
          .returned (target arg.text [p] [] range) (some arg.text) := by
        rw [hsame]
        by_cases hs : arg.Stuck
        · exact outcome_stuck hs _ _
        · exact outcome_own hs _ _
      rw [hrun]
      refine iff_of_true hright ⟨fun _ => hsame, ?_⟩
      intro hneg
      have hlast : range.last_used max_string_length = range.last_given := by
        unfold range_t.last_used
        rw [if_neg (by omega)]
      omega
    · rw [hrun]
      have hshort : result ≠ arg.text := by
        rintro rfl
        exact Nat.lt_irrefl _ hlt
      by_cases hneg : range.last_given < 0
      · -- the first one is left out though none is chosen
        have hsame : target arg.text [p] [] range = arg.text := by
          refine Eq.trans ?_ hkept
          apply replaced_congr hp
          intro i h1 _
          have hnot : ¬ Chosen range i := by
            unfold Chosen
            omega
          exact if_neg hnot
        refine iff_of_false ?_ fun h => hnum (h.2 hneg)
        by_cases hs : arg.Stuck
        · rw [outcome_stuck hs]
          simp
        · rw [outcome_own hs, hsame]
          simpa using hshort
      · have hpos : 0 < range.last_used max_string_length := by
          have := number_le_length hp arg.text
          unfold range_t.last_used
          split <;> omega
        have hresult : result = target arg.text [p] [] range := (heq hpos).trans htarget
        by_cases hs : arg.Stuck
        · refine iff_of_false ?_ fun h => hshort (hresult.trans (h.1 hs))
          rw [outcome_stuck hs]
          simp
        · refine iff_of_true ?_ ⟨fun h => absurd h hs, fun h => absurd h hneg⟩
          rw [outcome_own hs, hresult]

variable (arg) in
omit hlimit in
theorem longer_outcome (hr : pattern.length < replace.length) :
    f_replace_string max_string_length arg pattern replace range =
      if pattern.length > 1 then
        (replace_up max_string_length pattern replace range.first
          (range.last_used max_string_length) (arg.text.length + 1) arg.text [] 0 0).outcome
            arg.text
      else
        (replace_char_up max_string_length pattern.head? replace range.first
          (range.last_used max_string_length) arg.text [] 0 0).outcome arg.text := by
  have hlength : ¬ pattern.length = 0 := fun h => hp (length_eq_zero_iff.1 h)
  unfold f_replace_string
  simp only [if_neg hfirst, if_neg hlength, if_neg (Nat.not_le.2 hr)]

theorem long_longer (hr : pattern.length < replace.length) (hlong : 1 < pattern.length)
    (hfits : (target arg.text pattern replace range).length < max_string_length) :
    f_replace_string max_string_length arg pattern replace range =
      wanted max_string_length arg pattern replace range := by
  have htarget : replaced pattern (sep_of pattern replace range.first
    (range.last_used max_string_length)) 1 arg.text = target arg.text pattern replace range :=
      replaced_target hp hlimit
  have hrun : replace_up max_string_length pattern replace range.first
      (range.last_used max_string_length) (arg.text.length + 1) arg.text [] 0 ((0 : Nat) : Int) =
        .whole ([] ++ replaced pattern (sep_of pattern replace range.first
          (range.last_used max_string_length)) (0 + 1) arg.text) := by
    apply replace_up_whole hp _ _ _ _ _ (Nat.lt_succ_self _) (Nat.le_refl _)
    rwa [nil_append, Nat.zero_add, htarget]
  rw [nil_append, Nat.zero_add, htarget] at hrun
  rw [longer_outcome arg hfirst hp hr, if_pos hlong,
    show replace_up _ _ _ _ _ _ _ _ _ 0 = _ from hrun]
  exact (if_pos (Nat.le_of_lt hfits)).symm

theorem char_longer (hr : pattern.length < replace.length) (hone : pattern.length = 1) :
    f_replace_string max_string_length arg pattern replace range =
        wanted max_string_length arg pattern replace range ↔
      (target arg.text pattern replace range).length ≠ max_string_length ∨ arg.text = [] := by
  have htarget : replaced pattern (sep_of pattern replace range.first
    (range.last_used max_string_length)) 1 arg.text = target arg.text pattern replace range :=
      replaced_target hp hlimit
  have hout := longer_outcome arg hfirst hp hr
  rw [if_neg (by omega)] at hout
  obtain ⟨p, rfl⟩ := length_eq_one_iff.1 hone
  rw [head?_cons] at hout
  have hne : replace ≠ [] := length_pos_iff.1 (by omega)
  obtain ⟨hwhole, hlong⟩ := counts_all range.first (range.last_used max_string_length)
    max_string_length (p := p) hne arg.text [] 0
  rw [nil_append, Nat.zero_add, htarget] at hwhole hlong
  rw [hout]
  unfold wanted
  rcases Nat.lt_or_ge (target arg.text [p] replace range).length max_string_length with hlt | hge
  · rw [if_pos (Nat.le_of_lt hlt), show replace_char_up _ _ _ _ _ _ _ 0 0 = _ from hwhole hlt]
    exact iff_of_true rfl (.inl (Nat.ne_of_lt hlt))
  · by_cases hnil : arg.text = []
    · have hempty : target arg.text [p] replace range = [] := by
        rw [hnil]
        rfl
      have hzero : ([] : text_t).length ≤ max_string_length := Nat.zero_le _
      rw [hempty, if_pos hzero, hnil]
      exact iff_of_true rfl (.inr rfl)
    · rw [show replace_char_up _ _ _ _ _ _ _ 0 0 = _ from hlong hge (.inr hnil)]
      by_cases heq : (target arg.text [p] replace range).length = max_string_length
      · rw [if_pos (Nat.le_of_eq heq)]
        exact iff_of_false (fun h => by cases h) fun h => h.elim (fun hne => hne heq) hnil
      · rw [if_neg (by omega)]
        exact iff_of_true rfl (.inl heq)

end

def text_of_bytes (l : List UInt8) : text_t :=
  l.filterMap fun c => if h : c ≠ 0 then some ⟨c, h⟩ else none

end mudos.replace_string
