-- The laws of `strsrch`: the least and the greatest place of a string.
import MudOS.StringSearch

namespace mudos.string_search

open places List

variable {c : UInt8} {find big : List UInt8} {i : Nat}

def Occurs (little big : List UInt8) (i : Nat) : Prop := little <+: big.drop i

theorem occurs_nil (c : UInt8) (find : List UInt8) (i : Nat) : ¬Occurs (c :: find) [] i := by
  simp [Occurs]

theorem occurs_zero {d : UInt8} : Occurs (c :: find) (d :: big) 0 ↔ d = c ∧ find <+: big := by
  rw [Occurs, drop_zero, cons_prefix_cons]
  exact and_congr_left' eq_comm

theorem occurs_succ {little : List UInt8} {d : UInt8} :
    Occurs little (d :: big) (i + 1) ↔ Occurs little big i := Iff.rfl

theorem occurs_iff : Occurs (c :: find) big i ↔ big[i]? = some c ∧ find <+: big.drop (i + 1) := by
  induction big generalizing i with
  | nil => simp [occurs_nil]
  | cons d big ih =>
    cases i with
    | zero => simpa using occurs_zero
    | succ i => simpa [occurs_succ] using ih

theorem Occurs.le (h : Occurs (c :: find) big i) : i + (find.length + 1) ≤ big.length := by
  have hle := h.length_le
  rw [length_cons, length_drop] at hle
  omega

/-! ## From the left -/

theorem strstr_least (c : UInt8) (find big : List UInt8) (place : Nat) :
    ∃ o, strstr c find big place = o.map (place + ·) ∧ Least (Occurs (c :: find) big) o := by
  induction big generalizing place with
  | nil => exact ⟨none, rfl, .none (occurs_nil c find)⟩
  | cons d big ih =>
    by_cases hhere : d = c ∧ find.isPrefixOf big
    · refine ⟨some 0, ?_, .some (occurs_zero.mpr ?_) (by omega)⟩
      · simp only [strstr, if_pos hhere, Option.map_some, Nat.add_zero]
      · exact ⟨hhere.1, isPrefixOf_iff_prefix.mp hhere.2⟩
    · have hnot : ¬Occurs (c :: find) (d :: big) 0 := fun h =>
        hhere ⟨(occurs_zero.mp h).1, isPrefixOf_iff_prefix.mpr (occurs_zero.mp h).2⟩
      obtain ⟨o, hstrstr, ho⟩ := ih (place + 1)
      refine ⟨o.map (1 + ·), ?_, ho.shift 1 ?_⟩
      · simp only [strstr, if_neg hhere, hstrstr, Option.map_map]
        congr 1
        funext i
        simp only [Function.comp_apply]
        omega
      · rintro (_ | j)
        · simp [hnot]
        · simp [occurs_succ]

theorem strchr_eq (c : UInt8) (big : List UInt8) (place : Nat) :
    strstr c [] big place = (strchr c big).map (place + ·) := by
  induction big generalizing place with
  | nil => rfl
  | cons d big ih =>
    by_cases hd : d = c
    · simp [strstr, strchr, hd, findIdx?_cons]
    · have hchr : strchr c (d :: big) = (strchr c big).map (· + 1) := by
        simp [strchr, findIdx?_cons, hd]
      have hrest : strstr c [] (d :: big) place = strstr c [] big (place + 1) := by
        simp [strstr, hd]
      rw [hchr, hrest, ih, Option.map_map]
      congr 1
      funext i
      simp only [Function.comp_apply]
      omega

theorem strchr_least (c : UInt8) (big : List UInt8) : Least (Occurs [c] big) (strchr c big) := by
  obtain ⟨o, hstrstr, ho⟩ := strstr_least c [] big 0
  rw [strchr_eq] at hstrstr
  simp only [Nat.zero_add, Option.map_id'] at hstrstr
  rwa [hstrstr]

/-! ## From the right -/

theorem strrchr_greatest (c : UInt8) (big : List UInt8) :
    Greatest (Occurs [c] big) (strrchr c big) := by
  induction big with
  | nil => exact .none (occurs_nil c [])
  | cons d big ih =>
    unfold strrchr
    cases hback : strrchr c big with
    | some i =>
      rw [hback] at ih
      cases ih with
      | some hi hmore =>
        refine .some (occurs_succ.mpr hi) ?_
        rintro (_ | j) hj
        · omega
        · exact hmore j (by omega)
    | none =>
      rw [hback] at ih
      cases ih with
      | none hno =>
        simp only
        split
        · rename_i hd
          refine .some (occurs_zero.mpr ⟨hd, nil_prefix⟩) ?_
          rintro (_ | j) hj
          · omega
          · exact hno j
        · rename_i hd
          refine .none ?_
          rintro (_ | j)
          · exact fun h => hd (occurs_zero.mp h).1
          · exact hno j

/-- The loops from the right find the greatest place up to theirs. Where there is none they end
at the first character if it is the one that is searched for, and before it if it is not. -/
theorem strstr_back_greatest (c : UInt8) (find big : List UInt8) (pos : Nat) :
    (∃ i, strstr_back c find big pos = some (i : Nat) ∧ Occurs (c :: find) big i ∧
        ∀ j, i < j → j ≤ pos → ¬Occurs (c :: find) big j) ∨
      ((∀ j, j ≤ pos → ¬Occurs (c :: find) big j) ∧
        strstr_back c find big pos = if big[0]? = some c then some (-1) else none) := by
  induction pos with
  | zero =>
    by_cases hhere : Occurs (c :: find) big 0
    · obtain ⟨hc, hfind⟩ := occurs_iff.mp hhere
      refine .inl ⟨0, ?_, hhere, fun j hj hj' => by omega⟩
      simp only [strstr_back, if_pos hc, if_pos ( isPrefixOf_iff_prefix.mpr hfind)]
      rfl
    · refine .inr ⟨fun j hj => by rwa [Nat.le_zero.mp hj], ?_⟩
      by_cases hc : big[0]? = some c
      · have hfind : ¬(find.isPrefixOf (big.drop 1) = true) := fun h =>
          hhere (occurs_iff.mpr ⟨hc, isPrefixOf_iff_prefix.mp h⟩)
        simp only [strstr_back, if_pos hc, if_neg hfind]
      · simp only [strstr_back, if_neg hc]
  | succ pos ih =>
    by_cases hhere : Occurs (c :: find) big (pos + 1)
    · obtain ⟨hc, hfind⟩ := occurs_iff.mp hhere
      refine .inl ⟨pos + 1, ?_, hhere, fun j hj hj' => by omega⟩
      simp only [strstr_back]
      rw [if_pos ⟨hc, isPrefixOf_iff_prefix.mpr hfind⟩]
      rfl
    · have hnot : ¬(big[pos + 1]? = some c ∧ find.isPrefixOf (big.drop (pos + 2)) = true) :=
        fun h => hhere (occurs_iff.mpr ⟨h.1, isPrefixOf_iff_prefix.mp h.2⟩)
      have hback : strstr_back c find big (pos + 1) = strstr_back c find big pos := by
        simp only [strstr_back, if_neg hnot]
      rw [hback]
      obtain ⟨i, hi, hoccurs, hmore⟩ | ⟨hno, hi⟩ := ih
      · refine .inl ⟨i, hi, hoccurs, fun j hj hj' => ?_⟩
        obtain rfl | hlt := Nat.eq_or_lt_of_le hj'
        · exact hhere
        · exact hmore j hj (by omega)
      · refine .inr ⟨fun j hj => ?_, hi⟩
        obtain rfl | hlt := Nat.eq_or_lt_of_le hj
        · exact hhere
        · exact hno j (by omega)

/-! ## The search -/

def Stays (big little : List UInt8) (flag : Int) : Prop :=
  flag ≠ 0 → 2 ≤ little.length → little.length ≤ big.length →
    big.head? = little.head? ∨ ∃ i, Occurs little big i

def Sought (big little : List UInt8) (flag : Int) (o : Option Nat) : Prop :=
  if flag = 0 then Least (Occurs little big) o else Greatest (Occurs little big) o

theorem Sought.of_none {little : List UInt8} {flag : Int} (h : ∀ j, ¬Occurs little big j) :
    Sought big little flag none := by
  unfold Sought
  split
  · exact .none h
  · exact .none h

theorem f_strsrch_found (big : List UInt8) {little : little_t} (flag : Int)
    (hsome : little.chars ≠ []) (hstays : Stays big little.chars flag) :
    ∃ o, f_strsrch big little flag = some (offset o) ∧ Sought big little.chars flag o := by
  unfold f_strsrch
  cases hlittle : little.chars with
  | nil => exact absurd hlittle hsome
  | cons c find =>
    rw [hlittle] at hstays
    simp only
    by_cases hlong : big.length < find.length + 1
    · refine ⟨none, if_pos hlong, .of_none fun j hj => ?_⟩
      have := hj.le
      omega
    · rw [if_neg hlong]
      unfold Sought
      by_cases hleft : flag = 0
      · simp only [if_pos hleft]
        split
        · rename_i hone
          subst hone
          exact ⟨_, rfl, strchr_least c big⟩
        · obtain ⟨o, hstrstr, ho⟩ := strstr_least c find big 0
          simp only [Nat.zero_add, Option.map_id'] at hstrstr
          exact ⟨o, by rw [hstrstr], ho⟩
      · simp only [if_neg hleft]
        split
        · rename_i hone
          subst hone
          exact ⟨_, rfl, strrchr_greatest c big⟩
        · rename_i hmany
          have hfind : 0 < find.length := length_pos_iff.mpr hmany
          obtain ⟨i, hi, hoccurs, hmore⟩ | ⟨hno, hi⟩ :=
            strstr_back_greatest c find big (big.length - (find.length + 1))
          · refine ⟨some i, hi, .some hoccurs fun j hj hj' => ?_⟩
            have := hj'.le
            exact hmore j hj (by omega) hj'
          · have hnone : ∀ j, ¬Occurs (c :: find) big j := fun j hj => by
              have := hj.le
              exact hno j (by omega) hj
            obtain hhead | ⟨i, hoccurs⟩ := hstays hleft (by simp; omega) (by simp; omega)
            · rw [if_pos (by simpa [head?_eq_getElem?] using hhead)] at hi
              exact ⟨none, hi, .none hnone⟩
            · exact absurd hoccurs (hnone i)

theorem f_strsrch_empty (big : List UInt8) {little : little_t} (flag : Int)
    (h : little.chars = []) : f_strsrch big little flag = some (-1) := by
  unfold f_strsrch
  rw [h]

end mudos.string_search
