-- When `explode_string` gives the pieces of a string, and what goes wrong when the string ends
-- with the delimiter and the pieces just fit, or do not.
import MudOS.Explode
import MudOS.Library.Occurrences

open mudos.occurrences List Option

namespace mudos.explode

variable {steps : Nat}

/-! ## What is asked -/

def strip_leading (d s : text_t) : text_t := if d <+: s then s.drop d.length else s

def strip_trailing (d t : text_t) : text_t := if d <:+ t then t.take (t.length - d.length) else t

def stripped (d s : text_t) : text_t := strip_trailing d (strip_leading d s)

def exploded (d s : text_t) : List text_t :=
  if strip_leading d s = [] then [] else pieces d (stripped d s)

structure Right (max_array_size : Nat) (s d : text_t) : Prop where
  initialised : (explode_string max_array_size s d).size ≤
    (explode_string max_array_size s d).stored.length
  inside : (explode_string max_array_size s d).stored.length ≤
    (explode_string max_array_size s d).size
  split : (exploded d s).length ≤ max_array_size →
    (explode_string max_array_size s d).stored = exploded d s ∧
      implode_string ((explode_string max_array_size s d).stored.map some) d = stripped d s
  same : d.length = 1 → explode_general max_array_size s d = explode_string max_array_size s d

/-- The leftmost occurrences, no two of which overlap, end with the list. -/
def Aligned (d t : text_t) : Prop := (pieces d t).getLast? = some []

instance (d t : text_t) : Decidable (Aligned d t) := by
  unfold Aligned
  infer_instance

/-- Nothing is left after a delimiter in front; or there is room, and when the rest ends with the
delimiter, the pieces need less than the room, that end was found and it is not all; or there
are more pieces than room and the delimiter has not just one character. -/
def Fits (max_array_size : Nat) (s d : text_t) : Prop :=
  strip_leading d s = [] ∨ 0 < max_array_size ∧ (d <:+ strip_leading d s →
    d.length ≠ 1 ∧ max_array_size < (exploded d s).length ∨
    (exploded d s).length < max_array_size ∧ Aligned d (strip_leading d s) ∧
      strip_leading d s ≠ d)

/-! ## The loops -/

variable {d t : text_t}

theorem count_char_eq (c : UInt8) (t : text_t) (h : t.length ≤ steps) :
    count_char c t = count_string [c] steps t := by
  induction t generalizing steps with
  | nil => cases steps <;> rfl
  | cons x t ih =>
    cases steps with
    | zero => cases h
    | succ steps =>
      have hle : t.length ≤ steps := Nat.le_of_succ_le_succ h
      unfold count_char count_string
      by_cases hx : x = c
      · rw [if_pos hx, if_pos (by rw [hx]; exact prefix_append [c] t), ih hle]
        rfl
      · have hno : ¬ [c] <+: x :: t := fun hp => hx (cons_prefix_cons.mp hp).1.symm
        rw [if_neg hno, ih hle]
        exact if_neg hx

theorem fill_char_eq (c : UInt8) (limit : Int) (t beg : text_t) (num : Nat) (h : t.length ≤ steps) :
    fill_char c limit t beg num = fill_string [c] limit steps t beg num := by
  induction t generalizing steps beg num with
  | nil =>
    cases steps with
    | zero => simp [fill_char, fill_string]
    | succ steps => rfl
  | cons x t ih =>
    cases steps with
    | zero => cases h
    | succ steps =>
      have hle : t.length ≤ steps := Nat.le_of_succ_le_succ h
      unfold fill_char fill_string
      split_ifs with hroom hx hp hp
      · rw [ih _ _ hle]
        rfl
      · refine absurd ?_ hp
        rw [hx]
        exact prefix_append [c] t
      · exact absurd (cons_prefix_cons.mp hp).1.symm hx
      · exact ih _ _ hle
      · rfl

theorem count_string_pieces (hd : d ≠ []) (t : text_t) (h : t.length ≤ steps) :
    (count_string d steps t).1 + 1 = (pieces d t).length ∧
      ((pieces d t).length = 1 → (count_string d steps t).2 = none) ∧
      ∀ x, 1 < (pieces d t).length → (pieces d t).getLast? = some x →
        (count_string d steps t).2 = some (x.length + d.length) := by
  have hpos := length_pos_iff.mpr hd
  induction steps generalizing t with
  | zero =>
    obtain rfl := length_eq_zero_iff.mp (Nat.le_zero.mp h)
    refine ⟨rfl, fun _ => rfl, ?_⟩
    intro x hlength
    exact absurd hlength (by simp)
  | succ steps ih =>
    cases t with
    | nil =>
      refine ⟨rfl, fun _ => rfl, ?_⟩
      intro x hlength
      exact absurd hlength (by simp)
    | cons c t =>
      by_cases hp : d <+: c :: t
      · have hle : ((c :: t).drop d.length).length ≤ steps := by
          simp only [length_drop, length_cons] at h ⊢
          omega
        obtain ⟨hcount, hnone, hsome⟩ := ih _ hle
        have hne := pieces_ne_nil d ((c :: t).drop d.length)
        rw [pieces_occurrence hd hp]
        unfold count_string
        rw [if_pos hp]
        refine ⟨by simpa using hcount, ?_, ?_⟩
        · intro hone
          rw [length_cons] at hone
          omega
        · intro x _ hlast
          obtain ⟨y, l, hl⟩ := exists_cons_of_ne_nil hne
          rw [hl, getLast?_cons_cons, ← hl] at hlast
          by_cases hone : (pieces d ((c :: t).drop d.length)).length = 1
          · obtain ⟨z, hz⟩ := length_eq_one_iff.mp hone
            have hrest := weave_pieces hd ((c :: t).drop d.length) 0
            rw [hz] at hlast hrest
            obtain rfl : z = x := some.inj hlast
            simp only [hnone hone, none_or, some.injEq]
            obtain ⟨u, hu⟩ := hp
            have hlength := congrArg length hu
            have hrest : z = u := by
              rwa [← hu, drop_left] at hrest
            rw [length_append, length_cons, ← hrest] at hlength
            omega
          · simp [hsome x (by omega) hlast]
      · have hle : t.length ≤ steps := Nat.le_of_succ_le_succ h
        obtain ⟨hcount, hnone, hsome⟩ := ih t hle
        have hlength := lengthen_length (pieces_ne_nil d t) [c]
        rw [pieces_none hp, hlength]
        unfold count_string
        rw [if_neg hp]
        refine ⟨hcount, hnone, ?_⟩
        intro x hmany hlast
        refine hsome x hmany ?_
        match hl : pieces d t with
        | [] => exact absurd hl (pieces_ne_nil d t)
        | [y] =>
          rw [hl] at hmany
          exact absurd hmany (by simp)
        | y :: z :: l =>
          rw [hl] at hlast
          rw [getLast?_cons_cons]
          exact (getLast?_cons_cons ..).symm.trans hlast

theorem fill_string_pieces (hd : d ≠ []) (limit : Int) (t beg : text_t) (num : Nat)
    (h : t.length ≤ steps) : let l := lengthen beg (pieces d t)
    let k := min (limit - num).toNat (l.length - 1)
    fill_string d limit steps t beg num = (l.take k, weave (fun _ => d) 0 (l.drop k)) := by
  have hpos := length_pos_iff.mpr hd
  induction steps generalizing t beg num with
  | zero =>
    obtain rfl := length_eq_zero_iff.mp (Nat.le_zero.mp h)
    simp [fill_string, lengthen, weave]
  | succ steps ih =>
    cases t with
    | nil => simp [fill_string, lengthen, weave]
    | cons c t =>
      unfold fill_string
      split_ifs with hroom hp
      · have hle : ((c :: t).drop d.length).length ≤ steps := by
          simp only [length_drop, length_cons] at h ⊢
          omega
        have hrec := ih _ [] (num + 1) hle
        have hne := pieces_ne_nil d ((c :: t).drop d.length)
        have hne_pos := length_pos_iff.mpr hne
        rw [lengthen_nil hne] at hrec
        simp only at hrec ⊢
        have hk : min (limit - num).toNat ((pieces d ((c :: t).drop d.length)).length + 1 - 1) =
            min (limit - ((num + 1 : Nat) : Int)).toNat
              ((pieces d ((c :: t).drop d.length)).length - 1) + 1 := by omega
        rw [hrec, pieces_occurrence hd hp]
        simp only [lengthen, append_nil, length_cons, hk, take_succ_cons,
          drop_succ_cons]
      · have hle : t.length ≤ steps := Nat.le_of_succ_le_succ h
        rw [pieces_none hp, lengthen_lengthen (pieces_ne_nil d t)]
        exact ih t (beg ++ [c]) num hle
      · have hk : min (limit - num).toNat ((lengthen beg (pieces d (c :: t))).length - 1) = 0 := by
          omega
        simp only [hk, take_zero, drop_zero, weave_lengthen, weave_pieces hd]

/-! ## What is stored -/

/-- What is stored when there is room for so many pieces in front of the last item. -/
def stored (d t : text_t) (room : Nat) : List text_t :=
  let l := pieces d t
  let k := min room (l.length - 1)
  if k = l.length - 1 ∧ Aligned d t then l.take k
  else l.take k ++ [weave (fun _ => d) 0 (l.drop k)]

theorem weave_ne_nil (hd : d ≠ []) {l : List text_t} (h : 1 < l.length) :
    weave (fun _ => d) 0 l ≠ [] := by
  match l with
  | x :: y :: l =>
    rw [weave_cons (cons_ne_nil y l)]
    simp [hd]

theorem last_item_fill (hd : d ≠ []) (limit : Int) (t : text_t) :
    last_item (fill_string d limit t.length t [] 0) = stored d t limit.toNat := by
  have hne := pieces_ne_nil d t
  have hfill := fill_string_pieces hd limit t [] 0 (Nat.le_refl _)
  rw [lengthen_nil hne] at hfill
  simp only [Int.natCast_zero, Int.sub_zero] at hfill
  unfold last_item stored
  rw [hfill]
  simp only
  generalize hk : min limit.toNat ((pieces d t).length - 1) = k
  by_cases hlast : k = (pieces d t).length - 1
  · have hdrop : (pieces d t).drop ((pieces d t).length - 1) = [(pieces d t).getLast hne] := by
      conv_lhs => rw [← dropLast_append_getLast hne]
      apply drop_left'
      simp
    have haligned : Aligned d t ↔ (pieces d t).getLast hne = [] := by
      unfold Aligned
      rw [getLast?_eq_some_getLast hne, some.injEq]
    subst hlast
    simp [hdrop, weave, haligned]
  · have hmany : 1 < ((pieces d t).drop k).length := by
      rw [length_drop]
      omega
    rw [if_pos (weave_ne_nil hd hmany), if_neg fun h => hlast h.1]

theorem aligned_length (hd : d ≠ []) (ht : t ≠ []) (h : Aligned d t) : 1 < (pieces d t).length := by
  have hpos := length_pos_iff.mpr (pieces_ne_nil d t)
  by_contra hle
  obtain ⟨x, hx⟩ := length_eq_one_iff.mp (show (pieces d t).length = 1 by omega)
  unfold Aligned at h
  rw [hx, getLast?_singleton, some.injEq] at h
  have hall := weave_pieces hd t 0
  rw [hx, h] at hall
  exact ht hall.symm

theorem count_string_at_end (hd : d ≠ []) (ht : t ≠ []) :
    (count_string d t.length t).2 = some d.length ↔ Aligned d t := by
  have hne := pieces_ne_nil d t
  have hpos := length_pos_iff.mpr hne
  obtain ⟨-, hnone, hsome⟩ := count_string_pieces hd t (Nat.le_refl t.length)
  by_cases hone : (pieces d t).length = 1
  · rw [hnone hone]
    refine ⟨fun h => (by cases h), fun h => ?_⟩
    have := aligned_length hd ht h
    omega
  · rw [hsome _ (by omega) (getLast?_eq_some_getLast hne), some.injEq]
    unfold Aligned
    rw [getLast?_eq_some_getLast hne, some.injEq, ← length_eq_zero_iff]
    omega

theorem suffix_of_aligned (hd : d ≠ []) (ht : t ≠ []) (h : Aligned d t) :
    d <:+ t ∧ pieces d t = pieces d (t.take (t.length - d.length)) ++ [[]] :=
  suffix_of_last_nil hd ht h

theorem explode_general_eq (max_array_size : Nat) {s : text_t} (hd : d ≠ [])
    (ht : strip_leading d s ≠ []) :
    explode_general max_array_size s d =
      ⟨min (if Aligned d (strip_leading d s) ∧ strip_leading d s ≠ d
          then (pieces d (strip_leading d s)).length - 1
          else (pieces d (strip_leading d s)).length) max_array_size,
        stored d (strip_leading d s) (max_array_size - 1)⟩ := by
  have hskip : (if d <+: s then s.drop d.length else s) = strip_leading d s := rfl
  unfold explode_general
  simp only [hskip]
  rw [if_neg fun h => ht h.2, last_item_fill hd]
  have hroom : ((max_array_size : Int) - 1).toNat = max_array_size - 1 := by omega
  have hend : ((strip_leading d s).length ≤ d.length ∨
      (count_string d (strip_leading d s).length (strip_leading d s)).2 ≠ some d.length) ↔
      ¬ (Aligned d (strip_leading d s) ∧ strip_leading d s ≠ d) := by
    rw [ne_eq, count_string_at_end hd ht, not_and_or, not_ne_iff]
    constructor
    · rintro (hle | hnot)
      · by_cases halign : Aligned d (strip_leading d s)
        · obtain ⟨hsuffix, -⟩ := suffix_of_aligned hd ht halign
          exact .inr (hsuffix.eq_of_length_le hle).symm
        · exact .inl halign
      · exact .inl hnot
    · rintro (hnot | heq)
      · exact .inr hnot
      · exact .inl (Nat.le_of_eq (congrArg length heq))
  obtain ⟨hcount, -, -⟩ :=
    count_string_pieces hd (strip_leading d s) (Nat.le_refl (strip_leading d s).length)
  rw [hroom]
  simp only [hend, ite_not]
  congr 2
  split_ifs <;> omega

theorem explode_char_eq (max_array_size : Nat) {s : text_t} (c : UInt8)
    (ht : strip_leading [c] s ≠ []) :
    explode_char max_array_size s c =
      ⟨min (if Aligned [c] (strip_leading [c] s) then (pieces [c] (strip_leading [c] s)).length - 1
          else (pieces [c] (strip_leading [c] s)).length) max_array_size,
        stored [c] (strip_leading [c] s)
          (if Aligned [c] (strip_leading [c] s) then max_array_size else max_array_size - 1)⟩ := by
  have hd : [c] ≠ [] := cons_ne_nil c []
  have hhead : s.head? = some c ↔ [c] <+: s := by
    cases s with
    | nil => simp
    | cons x s => simp [eq_comm]
  have hskip : (if s.head? = some c then s.drop 1 else s) = strip_leading [c] s := by
    unfold strip_leading
    simp [hhead]
  obtain ⟨hcount, -, -⟩ :=
    count_string_pieces hd (strip_leading [c] s) (Nat.le_refl (strip_leading [c] s).length)
  have hend := count_string_at_end hd ht
  rw [length_singleton] at hend
  unfold explode_char
  simp only [hskip]
  rw [if_neg fun h => ht h.2, fill_char_eq c _ _ _ _ (Nat.le_refl _), last_item_fill hd,
    count_char_eq c _ (Nat.le_refl _)]
  simp only [hend]
  by_cases halign : Aligned [c] (strip_leading [c] s)
  · have hroom : ((max_array_size : Int)).toNat = max_array_size := Int.toNat_natCast _
    simp only [if_pos halign, hroom]
    congr 2
    omega
  · have hroom : ((max_array_size : Int) - 1).toNat = max_array_size - 1 := by omega
    simp only [if_neg halign, hroom]
    congr 2

/-! ## Putting together again -/

theorem implode_loop_more (d : text_t) (l : List text_t) (num : Nat) :
    implode_loop d (l.map some) (num + 1) = l.flatMap fun x => d ++ x := by
  induction l generalizing num with
  | nil => rfl
  | cons x l ih =>
    rw [map_cons, implode_loop, ih, flatMap_cons]
    rfl

theorem weave_flatMap (d x : text_t) (l : List text_t) (k : Nat) :
    weave (fun _ => d) k (x :: l) = x ++ l.flatMap fun x => d ++ x := by
  induction l generalizing x k with
  | nil => simp [weave]
  | cons y l ih =>
    rw [weave_cons (cons_ne_nil y l), ih, flatMap_cons]
    simp

theorem implode_string_weave (l : List text_t) (d : text_t) :
    implode_string (l.map some) d = weave (fun _ => d) 0 l := by
  cases l with
  | nil => rfl
  | cons x l =>
    unfold implode_string
    rw [map_cons, implode_loop, implode_loop_more, weave_flatMap]
    rfl

/-! ## When it is right -/

section

variable {max_array_size : Nat} {s : text_t}

abbrev Whole (d t : text_t) (room : Nat) : Prop :=
  min room ((pieces d t).length - 1) = (pieces d t).length - 1 ∧ Aligned d t

theorem stored_short (d t : text_t) {room : Nat} (h : ¬ Whole d t room) :
    stored d t room = (pieces d t).take (min room ((pieces d t).length - 1)) ++
      [weave (fun _ => d) 0 ((pieces d t).drop (min room ((pieces d t).length - 1)))] := if_neg h

theorem implode_stored_short (hd : d ≠ []) {room : Nat} (h : ¬ Whole d t room) :
    (stored d t room).length = min room ((pieces d t).length - 1) + 1 ∧
      implode_string ((stored d t room).map some) d = t := by
  rw [stored_short d t h, implode_string_weave]
  generalize hk : min room ((pieces d t).length - 1) = k
  refine ⟨by simp only [length_append, length_take, length_singleton]; omega, ?_⟩
  by_cases hzero : k = 0
  · subst hzero
    exact weave_pieces hd t 0
  · have htake : (pieces d t).take k ≠ [] := by
      rw [← length_pos_iff, length_take]
      omega
    have hdrop : (pieces d t).drop k ≠ [] := by
      rw [← length_pos_iff, length_drop]
      omega
    have hindex : ∀ n, weave (fun _ => d) n ((pieces d t).drop k) =
        weave (fun _ => d) 0 ((pieces d t).drop k) := by
      intro n
      obtain ⟨x, l, hx⟩ := exists_cons_of_ne_nil hdrop
      rw [hx, weave_flatMap, weave_flatMap]
    have hwhole := weave_append htake hdrop (fun _ => d) 0
    rw [take_append_drop, weave_pieces hd, hindex] at hwhole
    rw [weave_append htake (cons_ne_nil _ _), weave]
    exact hwhole.symm

theorem exploded_eq (ht : strip_leading d s ≠ []) :
    exploded d s = pieces d (strip_trailing d (strip_leading d s)) := if_neg ht

theorem pieces_aligned (hd : d ≠ []) (ht : strip_leading d s ≠ [])
    (h : Aligned d (strip_leading d s)) :
    pieces d (strip_leading d s) = exploded d s ++ [[]] := by
  obtain ⟨hsuffix, hpieces⟩ := suffix_of_aligned hd ht h
  rwa [exploded_eq ht, strip_trailing, if_pos hsuffix]

theorem pieces_no_suffix (ht : strip_leading d s ≠ []) (h : ¬ d <:+ strip_leading d s) :
    exploded d s = pieces d (strip_leading d s) := by rw [exploded_eq ht, strip_trailing, if_neg h]

theorem stripped_length (hd : d ≠ []) (h : d <:+ strip_leading d s) :
    (stripped d s).length < (strip_leading d s).length := by
  have hpos := length_pos_iff.mpr hd
  have hle := h.length_le
  unfold stripped strip_trailing
  rw [if_pos h, length_take]
  omega

theorem aligned_of_suffix (c : UInt8) (t : text_t) (h : [c] <:+ t) : Aligned [c] t := by
  obtain ⟨u, rfl⟩ := h
  have hend : pieces [c] (u ++ [c]) = pieces [c] u ++ [[]] := by
    induction u with
    | nil => exact pieces_self (cons_ne_nil c [])
    | cons x u ih =>
      by_cases hx : x = c
      · subst hx
        have hfront : ∀ v, pieces [x] (x :: v) = [] :: pieces [x] v := fun v =>
          pieces_occurrence (cons_ne_nil x []) (prefix_append [x] v)
        rw [cons_append, hfront, hfront, ih]
        rfl
      · have hno : ∀ v, ¬ [c] <+: x :: v := fun v hp => hx (cons_prefix_cons.mp hp).1.symm
        rw [cons_append, pieces_none (hno _), pieces_none (hno _), ih,
          lengthen_append (pieces_ne_nil _ _)]
  unfold Aligned
  rw [hend, getLast?_concat]

theorem explode_string_one (max_array_size : Nat) (hs : s ≠ []) (c : UInt8) :
    explode_string max_array_size s [c] = explode_char max_array_size s c := by
  cases s with
  | nil => exact absurd rfl hs
  | cons x s => rfl

theorem explode_string_many (max_array_size : Nat) (hs : s ≠ []) (hd : d ≠ [])
    (hone : d.length ≠ 1) :
    explode_string max_array_size s d = explode_general max_array_size s d := by
  cases s with
  | nil => exact absurd rfl hs
  | cons x s =>
    match d with
    | [] => exact absurd rfl hd
    | [c] => exact absurd rfl hone
    | a :: b :: d => rfl

/-- The two ways are the same when there is room for one piece more than there are, or when the
string does not end with the delimiter. -/
theorem explode_string_eq_general (max_array_size : Nat) (hs : s ≠ []) (hd : d ≠ [])
    (ht : strip_leading d s ≠ [])
    (h : Aligned d (strip_leading d s) →
      (pieces d (strip_leading d s)).length - 1 < max_array_size ∧ strip_leading d s ≠ d) :
    explode_string max_array_size s d = explode_general max_array_size s d := by
  by_cases hone : d.length = 1
  · obtain ⟨c, rfl⟩ := length_eq_one_iff.mp hone
    rw [explode_string_one _ hs, explode_char_eq _ _ ht, explode_general_eq _ hd ht]
    by_cases halign : Aligned [c] (strip_leading [c] s)
    · obtain ⟨hroom, hne⟩ := h halign
      have hsame : stored [c] (strip_leading [c] s) max_array_size =
          stored [c] (strip_leading [c] s) (max_array_size - 1) := by
        unfold stored
        have hmin : min max_array_size ((pieces [c] (strip_leading [c] s)).length - 1) =
            min (max_array_size - 1) ((pieces [c] (strip_leading [c] s)).length - 1) := by omega
        simp [hmin]
      rw [if_pos halign, if_pos halign, if_pos ⟨halign, hne⟩, hsame]
    · rw [if_neg halign, if_neg halign, if_neg fun h => halign h.1]
  · exact explode_string_many _ hs hd hone

theorem explode_nothing (max_array_size : Nat) (hs : s ≠ []) (hd : d ≠ [])
    (ht : strip_leading d s = []) :
    explode_string max_array_size s d = the_null_array ∧
      explode_general max_array_size s d = the_null_array := by
  have hahead : d <+: s := by
    by_contra h
    unfold strip_leading at ht
    rw [if_neg h] at ht
    exact hs ht
  have hskip : (if d <+: s then s.drop d.length else s) = [] := ht
  have hgeneral : explode_general max_array_size s d = the_null_array := by
    unfold explode_general
    simp only [hskip]
    exact if_pos ⟨hahead, trivial⟩
  refine ⟨?_, hgeneral⟩
  by_cases hone : d.length = 1
  · obtain ⟨c, rfl⟩ := length_eq_one_iff.mp hone
    obtain ⟨u, rfl⟩ := hahead
    have hu : u = [] := by
      rw [← ht, strip_leading, if_pos (prefix_append _ u), drop_left]
    subst hu
    rw [explode_string_one _ hs]
    simp [explode_char]
  · rw [explode_string_many _ hs hd hone, hgeneral]

theorem Right.general (h : Right max_array_size s d) (hs : s ≠ []) (hd : d ≠ []) :
    explode_general max_array_size s d = explode_string max_array_size s d := by
  by_cases hone : d.length = 1
  · exact h.same hone
  · exact (explode_string_many _ hs hd hone).symm

theorem fits_of_right (hs : s ≠ []) (hd : d ≠ []) (h : Right max_array_size s d) :
    Fits max_array_size s d := by
  by_cases ht : strip_leading d s = []
  · exact .inl ht
  right
  have hgeneral := h.general hs hd
  have hinit := h.initialised
  have hinside := h.inside
  have hsplit := h.split
  rw [← hgeneral, explode_general_eq _ hd ht] at hinit hinside hsplit
  simp only at hinit hinside hsplit
  -- what is put together to the whole string has the delimiter at its end
  have hwhole : ∀ {room : Nat}, d <:+ strip_leading d s →
      ¬ Whole d (strip_leading d s) room →
      implode_string ((stored d (strip_leading d s) room).map some) d ≠ stripped d s := by
    intro room hsuffix hnot heq
    rw [(implode_stored_short hd hnot).2] at heq
    have := stripped_length hd hsuffix
    rw [← heq] at this
    omega
  have hroom : 0 < max_array_size := by
    by_contra hzero
    obtain rfl : max_array_size = 0 := by omega
    have hnot : ¬ Whole d (strip_leading d s) (0 - 1) := by
      rintro ⟨hall, halign⟩
      have := aligned_length hd ht halign
      omega
    have := (implode_stored_short hd hnot).1
    omega
  refine ⟨hroom, fun hsuffix => ?_⟩
  by_cases halign : Aligned d (strip_leading d s)
  · have hmany := aligned_length hd ht halign
    have hlength := congrArg length (pieces_aligned hd ht halign)
    rw [length_append, length_singleton] at hlength
    by_cases hself : strip_leading d s = d
    · exfalso
      have hpieces := pieces_self hd
      rw [hself, hpieces] at hlength
      rw [if_neg fun hne => hne.2 hself, hself, hpieces] at hinit
      by_cases hone : max_array_size = 1
      · subst hone
        have hnot : ¬ Whole d (strip_leading d s) (1 - 1) := by
          rintro ⟨hall, -⟩
          omega
        exact hwhole hsuffix hnot (hsplit (by simp at hlength; omega)).2
      · have hlong : (stored d d (max_array_size - 1)).length ≤ 1 := by
          have hself_aligned : Aligned d d := by
            unfold Aligned
            rw [hpieces]
            rfl
          unfold stored
          simp only [hpieces]
          rw [if_pos ⟨by simp; omega, hself_aligned⟩]
          exact Nat.le_trans (length_take_le _ _) (Nat.min_le_right _ _)
        simp at hinit
        omega
    · rcases Nat.lt_trichotomy (exploded d s).length max_array_size with hlt | heq | hgt
      · exact .inr ⟨hlt, halign, hself⟩
      · exfalso
        have hnot : ¬ Whole d (strip_leading d s) (max_array_size - 1) := by
          rintro ⟨hall, -⟩
          omega
        exact hwhole hsuffix hnot (hsplit (Nat.le_of_eq heq)).2
      · refine .inl ⟨?_, hgt⟩
        intro hone
        obtain ⟨c, rfl⟩ := length_eq_one_iff.mp hone
        have hinside := h.inside
        rw [explode_string_one _ hs, explode_char_eq _ _ ht, if_pos halign, if_pos halign]
          at hinside
        have hnot : ¬ Whole [c] (strip_leading [c] s) max_array_size := by
          rintro ⟨hall, -⟩
          omega
        have := (implode_stored_short hd hnot).1
        simp only at hinside
        omega
  · have hnot : ∀ room, ¬ Whole d (strip_leading d s) room :=
      fun room hboth => halign hboth.2
    refine .inl ⟨?_, ?_⟩
    · intro hone
      obtain ⟨c, rfl⟩ := length_eq_one_iff.mp hone
      exact halign (aligned_of_suffix c _ hsuffix)
    · by_contra hle
      exact hwhole hsuffix (hnot _) (hsplit (Nat.not_lt.mp hle)).2

theorem right_of_fits (hs : s ≠ []) (hd : d ≠ []) (h : Fits max_array_size s d) :
    Right max_array_size s d := by
  by_cases ht : strip_leading d s = []
  · obtain ⟨hstring, hgeneral⟩ := explode_nothing max_array_size hs hd ht
    have hpieces : exploded d s = [] := if_pos ht
    have hstripped : stripped d s = [] := by
      unfold stripped
      rw [ht, strip_trailing, if_neg fun hsuffix => hd (suffix_nil.mp hsuffix)]
    refine ⟨?_, ?_, fun _ => ?_, fun _ => by rw [hstring, hgeneral]⟩
    · rw [hstring]
      exact Nat.le_refl _
    · rw [hstring]
      exact Nat.le_refl _
    · rw [hstring, hpieces, hstripped]
      exact ⟨rfl, rfl⟩
  · obtain ⟨hroom, hend⟩ := h.resolve_left ht
    have hpos := length_pos_iff.mpr (pieces_ne_nil d (strip_leading d s))
    by_cases halign : Aligned d (strip_leading d s)
    · obtain ⟨hsuffix, -⟩ := suffix_of_aligned hd ht halign
      have hpieces := pieces_aligned hd ht halign
      have hlength := congrArg length hpieces
      rw [length_append, length_singleton] at hlength
      have hstripped : weave (fun _ => d) 0 (exploded d s) = stripped d s := by
        rw [exploded_eq ht, weave_pieces hd]
        rfl
      rcases hend hsuffix with ⟨hone, hgt⟩ | ⟨hlt, -, hself⟩
      · have hself : strip_leading d s ≠ d := by
          intro hself
          have := congrArg length (pieces_self hd)
          rw [hself, this] at hlength
          simp at hlength
          omega
        have hnot : ¬ Whole d (strip_leading d s) (max_array_size - 1) := by
          rintro ⟨hall, -⟩
          omega
        have hstored := (implode_stored_short hd hnot).1
        have hstring := explode_string_many max_array_size hs hd hone
        rw [explode_general_eq _ hd ht, if_pos ⟨halign, hself⟩] at hstring
        refine ⟨?_, ?_, fun hle => ?_, fun h => absurd h hone⟩
        · rw [hstring]
          simp only
          omega
        · rw [hstring]
          simp only
          omega
        · omega
      · have hsame := explode_string_eq_general max_array_size hs hd ht
          fun _ => ⟨by omega, hself⟩
        have hstored : stored d (strip_leading d s) (max_array_size - 1) = exploded d s := by
          unfold stored
          have hmin : min (max_array_size - 1) ((pieces d (strip_leading d s)).length - 1) =
              (exploded d s).length := by omega
          simp only [hmin]
          rw [if_pos ⟨by omega, halign⟩, hpieces, take_left]
        rw [explode_general_eq _ hd ht, if_pos ⟨halign, hself⟩, hstored] at hsame
        refine ⟨?_, ?_, fun _ => ?_, fun _ => ?_⟩
        · rw [hsame]
          simp only
          omega
        · rw [hsame]
          simp only
          omega
        · rw [hsame]
          exact ⟨rfl, (implode_string_weave _ _).trans hstripped⟩
        · rw [hsame, explode_general_eq _ hd ht, if_pos ⟨halign, hself⟩, hstored]
    · have hnot : ¬ Whole d (strip_leading d s) (max_array_size - 1) :=
        fun hboth => halign hboth.2
      obtain ⟨hstored, himplode⟩ := implode_stored_short hd hnot
      have hsame := explode_string_eq_general max_array_size hs hd ht
        fun h => absurd h halign
      have hgeneral := explode_general_eq max_array_size hd ht
      rw [if_neg fun h => halign h.1] at hgeneral
      refine ⟨?_, ?_, fun hle => ?_, fun _ => hsame.symm⟩
      · rw [hsame, hgeneral]
        simp only
        omega
      · rw [hsame, hgeneral]
        simp only
        omega
      · have hsuffix : ¬ d <:+ strip_leading d s := by
          intro hsuffix
          rcases hend hsuffix with ⟨-, hgt⟩ | ⟨-, h, -⟩
          · omega
          · exact halign h
        have hpieces := pieces_no_suffix ht hsuffix
        have hstripped : stripped d s = strip_leading d s := if_neg hsuffix
        rw [hsame, hgeneral, hstripped]
        refine ⟨?_, himplode⟩
        simp only
        rw [hpieces] at hle ⊢
        rw [stored_short d _ hnot]
        have hmin : min (max_array_size - 1) ((pieces d (strip_leading d s)).length - 1) =
            (pieces d (strip_leading d s)).length - 1 := by omega
        have hne := pieces_ne_nil d (strip_leading d s)
        have hdrop : (pieces d (strip_leading d s)).drop
            ((pieces d (strip_leading d s)).length - 1) =
            [(pieces d (strip_leading d s)).getLast hne] := by
          conv_lhs => rw [← dropLast_append_getLast hne]
          apply drop_left'
          simp
        rw [hmin, hdrop, weave, ← hdrop, take_append_drop]

end

def strings_of (arr : List (Option text_t)) : List text_t := arr.filterMap id

theorem implode_loop_strings (d : text_t) (arr : List (Option text_t)) (num : Nat) :
    implode_loop d arr num = implode_loop d ((strings_of arr).map some) num := by
  induction arr generalizing num with
  | nil => rfl
  | cons x arr ih => cases x <;> simp [implode_loop, strings_of, ih]

end mudos.explode
