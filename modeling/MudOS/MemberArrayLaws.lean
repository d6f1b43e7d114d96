-- The laws of `member_array`: for which values and starts the place is the
-- least one of an equal value.
import MudOS.MemberArray
import MudOS.StringSearchLaws

namespace mudos.member_array

open places string_search Option List

variable {Ob P R : Type} [DecidableEq Ob] [DecidableEq P] {w : world_t Ob R}
variable {find : svalue_t Ob P R}
variable {sv : svalue_t Ob P R} {i : Nat} {start : Option Int}

/-! ## Equal values -/

def string_t.Stored (s : string_t) : Prop :=
  s.STRING_COUNTED = true → s.size = min s.chars.length 65535

def svalue_t.Stored : svalue_t Ob P R → Prop
  | .T_STRING s => s.Stored
  | _ => True

def mixed (w : world_t Ob R) : svalue_t Ob P R → svalue_t Ob P R → Bool
  | .T_NUMBER a, .T_REAL b => w.number_real_eq a b
  | .T_REAL a, .T_NUMBER b => w.number_real_eq b a
  | _, _ => false

theorem strings_eq {a b : string_t} (ha : a.Stored) (hb : b.Stored) :
    (!SVALUE_STRLEN_DIFFERS a b && decide (a.chars = b.chars)) = decide (a.chars = b.chars) := by
  by_cases h : a.chars = b.chars
  · cases hca : a.STRING_COUNTED with
    | false => simp [SVALUE_STRLEN_DIFFERS, hca]
    | true =>
      cases hcb : b.STRING_COUNTED with
      | false => simp [SVALUE_STRLEN_DIFFERS, hcb]
      | true => simp [SVALUE_STRLEN_DIFFERS, ha hca, hb hcb, h]
  · simp [h]

theorem strings_found {a b : string_t} (ha : a.Stored) (hb : b.Stored) :
    (!(flen a ≠ 0 && b.STRING_COUNTED && flen a != b.size) && decide (a.chars = b.chars)) =
      decide (a.chars = b.chars) := by
  by_cases h : a.chars = b.chars
  · cases hca : a.STRING_COUNTED with
    | false => simp [flen, hca]
    | true =>
      cases hcb : b.STRING_COUNTED with
      | false => simp
      | true => simp [flen, hca, ha hca, hb hcb, h]
  · simp [h]

theorem f_eq_cleared (hfind : find.Stored) (hsv : sv.Stored) :
    f_eq w find (cleared w sv) = (found w find sv || mixed w find (cleared w sv)) := by
  cases sv with
  | T_OBJECT ob =>
    -- a destructed object is compared as the number 0
    cases hob : w.O_DESTRUCTED ob with
    | true | false => cases find <;> simp [cleared, hob, f_eq, found, mixed]
  | T_STRING b =>
    cases find with
    | T_STRING a =>
      simp only [cleared, f_eq, found, mixed, Bool.or_false, strings_eq hfind hsv,
        strings_found hfind hsv]
    | _ => rfl
  | _ => cases find <;> simp [cleared, f_eq, found, mixed]

theorem not_found_of_mixed (h : mixed w find (cleared w sv) = true) : found w find sv = false := by
  cases sv with
  | T_OBJECT ob =>
    cases hob : w.O_DESTRUCTED ob with
    | true => cases find <;> simp_all [cleared, found, mixed]
    | false => cases find <;> simp [cleared, hob, mixed] at h
  | T_NUMBER b | T_REAL b => cases find <;> simp_all [cleared, found, mixed]
  | _ => cases find <;> simp [cleared, mixed] at h

/-! ## The loop -/

theorem member_loop_least (find : svalue_t Ob P R) (i : Nat) (item : List (svalue_t Ob P R)) :
    ∃ o, Least (fun m => ∃ sv, item[m]? = some sv ∧ found w find sv = true) o ∧
      (member_loop w find i item).1 = i + o.getD item.length := by
  induction item generalizing i with
  | nil => exact ⟨none, .none (by simp), rfl⟩
  | cons sv item ih =>
    by_cases hsv : found w find sv = true
    · refine ⟨some 0, .some ⟨sv, rfl, hsv⟩ (by omega), ?_⟩
      rw [member_loop, if_pos hsv]
      rfl
    · obtain ⟨o, ho, hloop⟩ := ih (i + 1)
      refine ⟨o.map (1 + ·), ho.shift 1 ?_, ?_⟩
      · rintro (_ | m)
        · simp [hsv]
        · simp
      · rw [member_loop, if_neg hsv]
        simp only [hloop]
        cases o with
        | none => simp only [map_none, getD_none, length_cons]; omega
        | some m => simp only [map_some, getD_some]; omega

/-! ## When the place is right -/

/-- The element at the place is equal to the value: in an array in the sense of `==`, in which
a destructed object is 0, and in a string as the number of the character. -/
def Equal (w : world_t Ob R) (find : svalue_t Ob P R) : argument_t Ob P R → Nat → Prop
  | .T_STRING string, m => ∃ c, string[m]? = some c ∧ find = .T_NUMBER c.toNat
  | .T_ARRAY item, m => ∃ sv, item[m]? = some sv ∧ f_eq w find (cleared w sv) = true

/-- The place is the least one from the start on, and -1 is none. A start before the value, or
behind a string, is an error, and so is a value that no character can be. -/
def Right (w : world_t Ob R) (find : svalue_t Ob P R) (v : argument_t Ob P R) (start : Int) :
    Except error_t (Int × argument_t Ob P R) → Prop
  | .ok (r, _) => ∃ o, r = offset o ∧ Least (fun m => start ≤ m ∧ Equal w find v m) o
  | .error _ => start < 0 ∨ ∃ string, v = .T_STRING string ∧
      ((∀ number, find ≠ .T_NUMBER number) ∨ start > string.length)

/-- The start is not behind the array, and an element that is equal to the value as a number to
a real stands behind one that is equal to it otherwise. A number is that of a character, or
the character it is taken for does not occur. -/
def Met (w : world_t Ob R) (find : svalue_t Ob P R) (start : Int) : argument_t Ob P R → Prop
  | .T_ARRAY item => start ≤ item.length ∧
      ∀ m sv, start ≤ (m : Nat) → item[m]? = some sv → mixed w find (cleared w sv) = true →
        ∃ k sv', start ≤ (k : Nat) ∧ k < m ∧ item[k]? = some sv' ∧
          f_eq w find (cleared w sv') = true ∧ mixed w find (cleared w sv') = false
  | .T_STRING string => ∀ number, find = .T_NUMBER number → start ≤ string.length →
      1 ≤ number ∧ number < 256 ∨
        to_char number ≠ 0 ∧ ∀ m : Nat, start ≤ m → string[m]? ≠ some (to_char number)

theorem found_iff (hfind : find.Stored) (hsv : sv.Stored) :
    found w find sv = true ↔
      f_eq w find (cleared w sv) = true ∧ mixed w find (cleared w sv) = false := by
  rw [f_eq_cleared hfind hsv]
  cases hmixed : mixed w find (cleared w sv) with
  | true => simp [not_found_of_mixed hmixed]
  | false => simp

theorem f_member_array_found (find : svalue_t Ob P R) {item : List (svalue_t Ob P R)}
    (hi : i ≤ item.length) (hstart : start.getD 0 = i) :
    ∃ o v, f_member_array w find (.T_ARRAY item) start = .ok (offset o, v) ∧
      Least (fun m => i ≤ m ∧ ∃ sv, item[m]? = some sv ∧ found w find sv = true) o := by
  obtain ⟨o, ho, hloop⟩ := member_loop_least (w := w) find i (item.drop i)
  refine ⟨o.map (i + ·), .T_ARRAY (item.take i ++ (member_loop w find i (item.drop i)).2), ?_,
    ho.shift i fun m => and_congr_right fun hle => ?_⟩
  · simp only [f_member_array, hstart, if_neg (Int.not_lt.mpr (Int.natCast_nonneg i)),
      Int.toNat_natCast, hloop, length_drop]
    cases ho with
    | @some m hm _ =>
      obtain ⟨sv, hsv, -⟩ := hm
      rw [List.getElem?_drop] at hsv
      obtain ⟨hlt, -⟩ := List.getElem?_eq_some_iff.mp hsv
      rw [if_neg (by simp only [getD_some]; omega)]
      rfl
    | none _ =>
      rw [if_pos (by simp only [getD_none]; omega)]
      rfl
  · rw [List.getElem?_drop, Nat.add_sub_cancel' hle]

theorem right_array_iff {item : List (svalue_t Ob P R)} (hstart : start.getD 0 = i)
    (hfind : find.Stored) (hitem : ∀ sv ∈ item, sv.Stored) :
    Right w find (.T_ARRAY item) i (f_member_array w find (.T_ARRAY item) start) ↔
      Met w find i (.T_ARRAY item) := by
  by_cases hi : i ≤ item.length
  · obtain ⟨o, v, hresult, ho⟩ := f_member_array_found find hi hstart
    have hstored : ∀ {m : Nat} {sv : svalue_t Ob P R}, item[m]? = some sv → sv.Stored :=
      fun hsv => hitem _ (mem_of_getElem? hsv)
    have hequal : ∀ m : Nat, ((i : Int) ≤ m ∧ Equal w find (.T_ARRAY item) m) ↔
        (i ≤ m ∧ ∃ sv, item[m]? = some sv ∧ found w find sv = true) ∨
          (i ≤ m ∧ ∃ sv, item[m]? = some sv ∧ mixed w find (cleared w sv) = true) := by
      intro m
      rw [← and_or_left, Int.ofNat_le, ← exists_or]
      refine and_congr_right fun _ => exists_congr fun sv => ?_
      rw [← and_or_left]
      refine and_congr_right fun hsv => ?_
      rw [f_eq_cleared hfind (hstored hsv), Bool.or_eq_true]
    have hright : Right w find (.T_ARRAY item) i (f_member_array w find (.T_ARRAY item) start) ↔
        Least (fun m => (i : Int) ≤ m ∧ Equal w find (.T_ARRAY item) m) o := by
      rw [hresult]
      refine ⟨?_, fun h => ⟨o, rfl, h⟩⟩
      rintro ⟨o', ho', hleast⟩
      rwa [offset_inj.mp ho']
    have hor := ho.or_iff (Q := fun m => i ≤ m ∧ ∃ sv, item[m]? = some sv ∧
      mixed w find (cleared w sv) = true) (by
        rintro m ⟨-, sv, hsv, hmixed⟩ ⟨-, sv', hsv', hfound⟩
        obtain rfl := some.inj (hsv.symm.trans hsv')
        rw [not_found_of_mixed hmixed] at hfound
        cases hfound)
    rw [hright, funext fun m => propext (hequal m), hor]
    constructor
    · refine fun hbefore => ⟨Int.ofNat_le.mpr hi, fun m sv hle hsv hmixed => ?_⟩
      obtain ⟨k, hlt, hle', sv', hsv', hfound⟩ := hbefore m ⟨Int.ofNat_le.mp hle, sv, hsv, hmixed⟩
      exact ⟨k, sv', Int.ofNat_le.mpr hle', hlt, hsv',
        (found_iff hfind (hstored hsv')).mp hfound⟩
    · rintro ⟨-, hmet⟩ m ⟨hle, sv, hsv, hmixed⟩
      obtain ⟨k, sv', hle', hlt, hsv', hfound⟩ := hmet m sv (Int.ofNat_le.mpr hle) hsv hmixed
      exact ⟨k, hlt, Int.ofNat_le.mp hle', sv', hsv',
        (found_iff hfind (hstored hsv')).mpr hfound⟩
  · -- a start behind the array is returned as it is
    have hresult : f_member_array w find (.T_ARRAY item) start =
        .ok ((i : Int), .T_ARRAY (item.take i ++ [])) := by
      simp only [f_member_array, hstart, if_neg (Int.not_lt.mpr (Int.natCast_nonneg i)),
        Int.toNat_natCast, drop_eq_nil_of_le (by omega : item.length ≤ i), member_loop]
      rw [if_neg (by omega)]
    rw [hresult]
    refine iff_of_false ?_ fun hmet => hi (Int.ofNat_le.mp hmet.1)
    rintro ⟨o, ho, hleast⟩
    cases hleast with
    | @some m hm _ =>
      obtain rfl : i = m := Int.ofNat_inj.mp ho
      obtain ⟨-, sv, hsv, -⟩ := hm
      rw [getElem?_eq_none (by omega)] at hsv
      cases hsv
    | none _ =>
      have : (i : Int) = -1 := ho
      omega

theorem to_char_toNat {number : Int} (h : 0 ≤ number) (h' : number < 256) :
    ((to_char number).toNat : Int) = number := by
  rw [to_char, UInt8.toNat_ofNat', Int.emod_eq_of_lt h h', Nat.mod_eq_of_lt (by omega)]
  omega

theorem right_string_iff {number : Int} {string : List UInt8} (hstart : start.getD 0 = i)
    (hi : i ≤ string.length) :
    Right w (.T_NUMBER number : svalue_t Ob P R) (.T_STRING string) i
        (f_member_array w (.T_NUMBER number) (.T_STRING string) start) ↔
      1 ≤ number ∧ number < 256 ∨
        to_char number ≠ 0 ∧ ∀ m : Nat, (i : Int) ≤ m → string[m]? ≠ some (to_char number) := by
  have hresult : f_member_array w (.T_NUMBER number : svalue_t Ob P R) (.T_STRING string) start =
      .ok (offset (strchr_from string i (to_char number)), .T_STRING string) := by
    simp only [f_member_array, hstart, if_neg (Int.not_lt.mpr (Int.natCast_nonneg i)),
      Int.toNat_natCast]
    rw [if_neg (by omega)]
  have hright : Right w (.T_NUMBER number : svalue_t Ob P R) (.T_STRING string) i
        (f_member_array w (.T_NUMBER number) (.T_STRING string) start) ↔
      Least (fun m => (i : Int) ≤ m ∧
        Equal w (.T_NUMBER number : svalue_t Ob P R) (.T_STRING string) m)
        (strchr_from string i (to_char number)) := by
    rw [hresult]
    refine ⟨?_, fun h => ⟨_, rfl, h⟩⟩
    rintro ⟨o, ho, hleast⟩
    rwa [offset_inj.mp ho]
  have hequal : ∀ m : Nat, Equal w (.T_NUMBER number : svalue_t Ob P R) (.T_STRING string) m ↔
      ∃ c, string[m]? = some c ∧ number = c.toNat := by
    intro m
    simp [Equal, svalue_t.T_NUMBER.injEq]
  rw [hright]
  simp only [hequal]
  unfold strchr_from
  split_ifs with hzero
  · -- the NUL is no character of the string
    refine iff_of_false ?_ ?_
    · rintro (⟨⟨-, c, hc, -⟩, -⟩ | -)
      simp at hc
    · rintro (⟨hpos, hlt⟩ | ⟨hne, -⟩)
      · have := to_char_toNat (by omega) hlt
        rw [hzero] at this
        have hz : ((0 : UInt8).toNat : Int) = 0 := rfl
        omega
      · exact hne hzero
  · have hchr : Least (fun m => i ≤ m ∧ string[m]? = some (to_char number))
        ((strchr (to_char number) (string.drop i)).map (i + ·)) :=
      (strchr_least (to_char number) (string.drop i)).shift i fun m =>
        and_congr_right fun hle => by
          rw [occurs_iff, List.getElem?_drop, Nat.add_sub_cancel' hle]
          simp
    by_cases hchar : 1 ≤ number ∧ number < 256
    · refine iff_of_true (hchr.congr fun m => ?_) (.inl hchar)
      rw [Int.ofNat_le]
      refine and_congr_right fun _ => ⟨?_, fun hc => ⟨_, hc, ?_⟩⟩
      · rintro ⟨c, hc, hnumber⟩
        have hto : to_char number = c := by
          have := to_char_toNat (by omega) hchar.2
          exact UInt8.toNat_inj.mp (by omega)
        rw [hc, hto]
      · rw [to_char_toNat (by omega) hchar.2]
    · -- no character has the number
      have hno : ∀ m : Nat, ¬((i : Int) ≤ m ∧ ∃ c, string[m]? = some c ∧ number = c.toNat) := by
        rintro m ⟨-, c, -, rfl⟩
        have hc : c.toNat < 256 := c.toNat_lt
        obtain hc0 | hpos : c.toNat = 0 ∨ 1 ≤ c.toNat := by omega
        · rw [hc0] at hzero
          exact hzero rfl
        · exact hchar ⟨by omega, by omega⟩
      generalize (strchr (to_char number) (string.drop i)).map (i + ·) = o at hchr
      constructor
      · rintro (⟨hm, -⟩ | -)
        · exact absurd hm (hno _)
        · cases hchr with
          | none hnone =>
            exact .inr ⟨hzero, fun m hle hm => hnone m ⟨Int.ofNat_le.mp hle, hm⟩⟩
      · rintro (hpos | ⟨-, hnone⟩)
        · exact absurd hpos hchar
        · cases hchr with
          | some hm _ => exact absurd hm.2 (hnone _ (Int.ofNat_le.mpr hm.1))
          | none _ => exact .none hno

def argument_t.Stored : argument_t Ob P R → Prop
  | .T_STRING _ => True
  | .T_ARRAY item => ∀ sv ∈ item, sv.Stored

/-- The place is the right one exactly for a start before the value, which is an error, and
where the condition is met. -/
theorem member_array_is_right_iff (w : world_t Ob R) {find : svalue_t Ob P R}
    {v : argument_t Ob P R} (start : Option Int) (hfind : find.Stored) (hv : v.Stored) :
    Right w find v (start.getD 0) (f_member_array w find v start) ↔
      start.getD 0 < 0 ∨ Met w find (start.getD 0) v := by
  by_cases hneg : start.getD 0 < 0
  · have hresult : f_member_array w find v start = .error .bad_arg_3 := by
      simp [f_member_array, if_pos hneg]
    rw [hresult]
    exact iff_of_true (.inl hneg) (.inl hneg)
  · obtain ⟨i, hi⟩ := Int.eq_ofNat_of_zero_le (Int.not_lt.mp hneg)
    rw [or_iff_right hneg]
    cases v with
    | T_ARRAY item =>
      rw [hi]
      exact right_array_iff hi hfind hv
    | T_STRING string =>
      by_cases hnumber : ∃ number, find = .T_NUMBER number
      · obtain ⟨number, rfl⟩ := hnumber
        by_cases hlong : i ≤ string.length
        · rw [hi, right_string_iff hi hlong]
          constructor
          · rintro h _ ⟨⟩ -
            exact h
          · exact fun h => h number rfl (Int.ofNat_le.mpr hlong)
        · have hresult : f_member_array w (.T_NUMBER number : svalue_t Ob P R) (.T_STRING string)
              start = .error .index_too_large := by
            simp only [f_member_array, if_neg hneg]
            rw [if_pos (by omega)]
          rw [hresult]
          refine iff_of_true (.inr ⟨string, rfl, .inr (by omega)⟩) fun _ _ hle => ?_
          omega
      · have hresult : f_member_array w find (.T_STRING string) start = .error .bad_arg_1 := by
          simp only [f_member_array, if_neg hneg]
          cases find with
          | T_NUMBER number => exact absurd ⟨number, rfl⟩ hnumber
          | _ => rfl
        rw [hresult]
        refine iff_of_true (.inr ⟨string, rfl, .inl fun number h => hnumber ⟨number, h⟩⟩) ?_
        exact fun number h => absurd ⟨number, h⟩ hnumber

/-- Objects of which one is destructed, and reals that are numbers. -/
def one_destructed : world_t Bool Int := ⟨id, (· == ·), (· == ·)⟩

theorem a_destructed_object_is_found :
    Right one_destructed (.T_NUMBER 0 : svalue_t Bool Unit Int)
      (.T_ARRAY [.T_OBJECT false, .T_OBJECT true]) ((none : Option Int).getD 0)
      (f_member_array one_destructed (.T_NUMBER 0)
        (.T_ARRAY [.T_OBJECT false, .T_OBJECT true]) none) := by
  have hstored : (argument_t.T_ARRAY [.T_OBJECT false, .T_OBJECT true] :
      argument_t Bool Unit Int).Stored := by simp [argument_t.Stored, svalue_t.Stored]
  have hfind : (.T_NUMBER 0 : svalue_t Bool Unit Int).Stored := trivial
  refine (member_array_is_right_iff one_destructed none hfind hstored).mpr
    (.inr ⟨by decide, ?_⟩)
  rintro (_ | _ | m) sv - hsv hmixed
  · obtain rfl := some.inj hsv
    simp [cleared, one_destructed, mixed] at hmixed
  · obtain rfl := some.inj hsv
    simp [cleared, one_destructed, mixed] at hmixed
  · cases hsv

/-- A start behind the array is returned as a place. -/
theorem a_start_behind_the_array_is_found :
    ¬Right one_destructed (.T_NUMBER 1 : svalue_t Bool Unit Int) (.T_ARRAY []) 5
      (f_member_array one_destructed (.T_NUMBER 1) (.T_ARRAY []) (some 5)) := by
  have hresult : f_member_array one_destructed (.T_NUMBER 1 : svalue_t Bool Unit Int) (.T_ARRAY [])
      (some 5) = .ok (5, .T_ARRAY []) := rfl
  rw [hresult]
  rintro ⟨o, ho, hleast⟩
  cases hleast with
  | some hm _ =>
    obtain ⟨-, sv, hsv, -⟩ := hm
    cases hsv
  | none _ => cases ho

end mudos.member_array
