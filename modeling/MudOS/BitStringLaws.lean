-- The laws of the bit strings: which bits an update changes, and which bit is
-- the next one; with the laws of the searches, that find places too.
import MudOS.BitStrings
import MudOS.StringSearchLaws

namespace mudos.bit_strings

open ints places string_search List

variable {k : Nat} {v : BitVec 32} {s : List UInt8} {MAX_BITS start : Int}
variable {m : Nat}

/-! ## Characters -/

theorem tests_bit (v : BitVec 32) (hk : k < 32) : v &&& (1#32 <<< k) ≠ 0 ↔ v.getLsbD k = true := by
  have htest : v &&& (1#32 <<< k) = if v.getLsbD k then BitVec.twoPow 32 k else 0#32 :=
    BitVec.and_twoPow v k
  have hpow : BitVec.twoPow 32 k ≠ 0#32 := by
    intro h
    have := congrArg (BitVec.getLsbD · k) h
    simp [hk] at this
  rw [htest]
  cases v.getLsbD k <;> simp [hpow]

def Legal (c : UInt8) : Prop := 32 ≤ c.toNat ∧ c.toNat < 96

theorem value_of_value (h : v.toNat < 64) :
    Legal (of_value v) ∧ illegal (of_value v) = false ∧ value (of_value v) = v := by
  have hall : ∀ n : Fin 64, (32 ≤ (of_value (BitVec.ofNat 32 n)).toNat ∧
      (of_value (BitVec.ofNat 32 n)).toNat < 96) ∧ illegal (of_value (BitVec.ofNat 32 n)) = false ∧
      value (of_value (BitVec.ofNat 32 n)) = BitVec.ofNat 32 n := by decide +kernel
  have hv := hall ⟨v.toNat, h⟩
  rwa [BitVec.ofNat_toNat, BitVec.setWidth_eq] at hv

theorem Legal.value {c : UInt8} (h : Legal c) :
    (value c).toNat < 64 ∧ of_value (value c) = c ∧ illegal c = false := by
  have hall : ∀ n : Fin 64, (bit_strings.value (UInt8.ofNat (32 + n))).toNat < 64 ∧
      of_value (bit_strings.value (UInt8.ofNat (32 + n))) = UInt8.ofNat (32 + n) ∧
      illegal (UInt8.ofNat (32 + n)) = false := by decide +kernel
  have hc := hall ⟨c.toNat - 32, by have := h.1; have := h.2; omega⟩
  rwa [show 32 + (c.toNat - 32) = c.toNat by have := h.1; omega, UInt8.ofNat_toNat] at hc

theorem or_lt (h : v.toNat < 64) (hk : k < 6) : (v ||| (1#32 <<< k)).toNat < 64 := by
  rw [BitVec.toNat_or]
  refine Nat.or_lt_two_pow (n := 6) h ?_
  have hall : ∀ k : Fin 6, (1#32 <<< (k : Nat)).toNat < 2 ^ 6 := by decide
  exact hall ⟨k, hk⟩

theorem and_lt (h : v.toNat < 64) (w : BitVec 32) : (v &&& w).toNat < 64 := by
  rw [BitVec.toNat_and]
  exact Nat.lt_of_le_of_lt Nat.and_le_left h

theorem shift_bit (hk : k < 6) (m : Nat) : (1#32 <<< k).getLsbD m = decide (m = k) := by
  have htwo : 1#32 <<< k = BitVec.twoPow 32 k := rfl
  rw [htwo, BitVec.getLsbD_twoPow, decide_eq_true (show k < 32 by omega), Bool.true_and,
    decide_eq_decide.mpr eq_comm]

theorem set_value_bit (v : BitVec 32) (hk : k < 6) (m : Nat) :
    (v ||| (1#32 <<< k)).getLsbD m = (decide (m = k) || v.getLsbD m) := by
  rw [BitVec.getLsbD_or, shift_bit hk, Bool.or_comm]

theorem clear_value_bit (v : BitVec 32) (hk : k < 6) (hm : m < 6) :
    (v &&& ~~~(1#32 <<< k)).getLsbD m = (!decide (m = k) && v.getLsbD m) := by
  rw [BitVec.getLsbD_and, BitVec.getLsbD_not, shift_bit hk, decide_eq_true (show m < 32 by omega),
    Bool.true_and, Bool.and_comm]

/-! ## Bits -/

def bit_of (vs : List (BitVec 32)) (m : Nat) : Bool := (vs[m / 6]?).any (·.getLsbD (m % 6))

def has_bit (s : List UInt8) (m : Nat) : Bool := bit_of (s.map value) m

theorem bit_of_set {vs : List (BitVec 32)} {i : Nat} (hi : i < vs.length) (v : BitVec 32)
    (m : Nat) : bit_of (vs.set i v) m = if m / 6 = i then v.getLsbD (m % 6) else bit_of vs m := by
  unfold bit_of
  by_cases h : m / 6 = i
  · subst h
    simp [hi]
  · rw [if_neg h, getElem?_set_ne (Ne.symm h)]

theorem bit_of_drop (vs : List (BitVec 32)) (a m : Nat) :
    bit_of (vs.drop a) m = bit_of vs (6 * a + m) := by
  unfold bit_of
  rw [getElem?_drop, show (6 * a + m) / 6 = a + m / 6 by omega,
    show (6 * a + m) % 6 = m % 6 by omega]

theorem bit_of_append_blanks (vs : List (BitVec 32)) (n m : Nat) :
    bit_of (vs ++ List.replicate n 0#32) m = bit_of vs m := by
  unfold bit_of
  by_cases h : m / 6 < vs.length
  · rw [getElem?_append_left h]
  · rw [getElem?_append_right (by omega), getElem?_eq_none (l := vs) (by omega)]
    cases hget : (List.replicate n 0#32)[m / 6 - vs.length]? with
    | none => rfl
    | some v =>
      obtain rfl := eq_of_mem_replicate (mem_of_getElem? hget)
      simp

def LegalText (s : List UInt8) : Prop := ∀ c ∈ s, Legal c

theorem f_test_bit_eq (s : List UInt8) (m : Nat) :
    f_test_bit s m = .ok (if has_bit s m then 1 else 0) := by
  have htdiv : (m : Int).tdiv 6 = (m / 6 : Nat) := rfl
  unfold f_test_bit
  rw [htdiv]
  by_cases hlong : s.length ≤ m / 6
  · have hbit : has_bit s m = false := by
      simp [has_bit, bit_of, getElem?_eq_none hlong]
    rw [if_pos (.inr (by omega)), hbit]
    rfl
  · obtain ⟨c, hc⟩ : ∃ c, s[m / 6]? = some c := ⟨_, getElem?_eq_getElem (by omega)⟩
    have hbit : has_bit s m = (value c).getLsbD (m % 6) := by
      simp [has_bit, bit_of, hc]
    rw [if_neg (by omega), if_neg (by omega), show ((m : Int) / 6).toNat = m / 6 by omega,
      show ((m : Int) % 6).toNat = m % 6 by omega, hc, hbit]
    simp only [tests_bit (value c) (show m % 6 < 32 by omega)]
    split
    · rfl
    · rfl

/-! ## Updates -/

theorem legal_set (h : LegalText s) (i : Nat) (hv : v.toNat < 64) :
    LegalText (s.set i (of_value v)) ∧
      (s.set i (of_value v)).map value = (s.map value).set i v := by
  obtain ⟨hlegal, -, hvalue⟩ := value_of_value hv
  refine ⟨fun c hc => ?_, by rw [map_set, hvalue]⟩
  obtain hc | rfl := mem_or_eq_of_mem_set hc
  · exact h c hc
  · exact hlegal

theorem f_set_bit_spec (h : LegalText s) {n : Nat} (hn : n ≤ MAX_BITS) :
    ∃ s', f_set_bit MAX_BITS s n = .ok s' ∧ LegalText s' ∧
      ∀ m, has_bit s' m = (decide (m = n) || has_bit s m) := by
  have hind : ((n : Int) / 6).toNat = n / 6 := by omega
  have hbit : ((n : Int) % 6).toNat = n % 6 := by omega
  -- the string with the blanks that it is made longer with
  obtain ⟨str, hstr, hlegal, hlength, hsame⟩ : ∃ str,
      (if n / 6 < s.length then s else s ++ List.replicate (n / 6 + 1 - s.length) 32) = str ∧
        LegalText str ∧ n / 6 < str.length ∧ ∀ m, has_bit str m = has_bit s m := by
    by_cases hlong : n / 6 < s.length
    · exact ⟨s, if_pos hlong, h, hlong, fun _ => rfl⟩
    · refine ⟨_, if_neg hlong, ?_, ?_, fun m => ?_⟩
      · intro c hc
        obtain hc | hc := mem_append.mp hc
        · exact h c hc
        · rw [eq_of_mem_replicate hc]
          exact ⟨by decide, by decide⟩
      · rw [length_append, length_replicate]
        omega
      · have hblank : value 32 = 0#32 := by decide
        rw [has_bit, map_append, map_replicate, hblank, bit_of_append_blanks, has_bit]
  obtain ⟨c, hc⟩ : ∃ c, str[n / 6]? = some c := ⟨_, getElem?_eq_getElem hlength⟩
  obtain ⟨hvalue, -, hnot⟩ := (hlegal c (mem_of_getElem? hc)).value
  have hk : n % 6 < 6 := Nat.mod_lt _ (by decide)
  obtain ⟨hlegal', hmap⟩ := legal_set hlegal (n / 6) (or_lt hvalue hk)
  refine ⟨_, ?_, hlegal', fun m => ?_⟩
  · unfold f_set_bit
    rw [if_neg (by omega), if_neg (by omega)]
    simp only [hind, hbit, hstr, hc, hnot]
    rfl
  · rw [has_bit, hmap, bit_of_set (by simpa using hlength), ← hsame m]
    split
    · rename_i hm
      have hbit' : has_bit str m = (value c).getLsbD (m % 6) := by
        simp [has_bit, bit_of, hm, hc]
      rw [set_value_bit _ hk, hbit', decide_eq_decide.mpr (show m % 6 = n % 6 ↔ m = n by omega)]
    · rename_i hm
      rw [decide_eq_false (show ¬m = n by rintro rfl; exact hm rfl), Bool.false_or, has_bit]

theorem f_clear_bit_spec (h : LegalText s) {n : Nat} (hn : n ≤ MAX_BITS) :
    ∃ s', f_clear_bit MAX_BITS s n = .ok s' ∧ LegalText s' ∧
      ∀ m, has_bit s' m = (!decide (m = n) && has_bit s m) := by
  have hind : ((n : Int) / 6).toNat = n / 6 := by omega
  have hbit : ((n : Int) % 6).toNat = n % 6 := by omega
  unfold f_clear_bit
  rw [if_neg (by omega), if_neg (by omega)]
  simp only [hind, hbit]
  by_cases hlong : n / 6 ≥ s.length
  · refine ⟨s, if_pos hlong, h, fun m => ?_⟩
    by_cases hm : m = n
    · subst hm
      simp [has_bit, bit_of, getElem?_eq_none hlong]
    · rw [decide_eq_false hm, Bool.not_false, Bool.true_and]
  · have hlength : n / 6 < s.length := by omega
    obtain ⟨c, hc⟩ : ∃ c, s[n / 6]? = some c := ⟨_, getElem?_eq_getElem hlength⟩
    obtain ⟨hvalue, -, hnot⟩ := (h c (mem_of_getElem? hc)).value
    have hk : n % 6 < 6 := Nat.mod_lt _ (by decide)
    obtain ⟨hlegal', hmap⟩ := legal_set h (n / 6) (and_lt hvalue (~~~(1#32 <<< (n % 6))))
    refine ⟨_, by rw [if_neg hlong, hc]; simp only [hnot]; rfl, hlegal', fun m => ?_⟩
    rw [has_bit, hmap, bit_of_set (by simpa using hlength)]
    split
    · rename_i hm
      have hbit' : has_bit s m = (value c).getLsbD (m % 6) := by
        simp [has_bit, bit_of, hm, hc]
      rw [clear_value_bit _ hk (Nat.mod_lt _ (by decide)), hbit',
        decide_eq_decide.mpr (show m % 6 = n % 6 ↔ m = n by omega)]
    · rename_i hm
      rw [decide_eq_false (show ¬m = n by rintro rfl; exact hm rfl), Bool.not_false,
        Bool.true_and, has_bit]

/-! ## The next bit -/

theorem lowest_spec (h : v.toNat < 64) (which : Nat) :
    (lowest v which = none ∧ ∀ k, k < 6 → v.getLsbD k = false) ∨
      ∃ k, k < 6 ∧ lowest v which = some ((which * 6 + k : Nat) : Int) ∧ v.getLsbD k = true ∧
        ∀ m, m < k → v.getLsbD m = false := by
  have hplace : ∀ w : BitVec 32, lowest w which = (lowest w 0).map ((which * 6 : Int) + ·) := by
    intro w
    unfold lowest
    split_ifs <;> simp
  have hall : ∀ n : Fin 64,
      (lowest (BitVec.ofNat 32 n) 0 = none ∧
        ∀ k : Fin 6, (BitVec.ofNat 32 n).getLsbD k = false) ∨
      ∃ k : Fin 6, lowest (BitVec.ofNat 32 n) 0 = some ((k : Nat) : Int) ∧
        (BitVec.ofNat 32 n).getLsbD k = true ∧
        ∀ m : Fin 6, m < k → (BitVec.ofNat 32 n).getLsbD m = false := by decide +kernel
  have hv := hall ⟨v.toNat, h⟩
  rw [BitVec.ofNat_toNat, BitVec.setWidth_eq] at hv
  rw [hplace]
  obtain ⟨hnone, hclear⟩ | ⟨k, hsome, hset, hless⟩ := hv
  · exact .inl ⟨by rw [hnone]; rfl, fun k hk => hclear ⟨k, hk⟩⟩
  · refine .inr ⟨k, k.isLt, by rw [hsome]; simp, hset, fun m hm => ?_⟩
    exact hless ⟨m, Nat.lt_trans hm k.isLt⟩ hm

theorem next_loop_cons (v : BitVec 32) (which : Nat) (c : UInt8) (rest : List UInt8) :
    next_loop v which (c :: rest) = (lowest v which).getD (next_loop (value c) (which + 1) rest) := by
  rw [next_loop]
  cases lowest v which <;> rfl

theorem bit_of_cons (v : BitVec 32) (vs : List (BitVec 32)) (m : Nat) :
    bit_of (v :: vs) m = if m < 6 then v.getLsbD m else bit_of vs (m - 6) := by
  unfold bit_of
  split
  · rw [show m / 6 = 0 by omega, show m % 6 = m by omega]
    rfl
  · rw [show m / 6 = (m - 6) / 6 + 1 by omega, show m % 6 = (m - 6) % 6 by omega]
    rfl

def place (a : Nat) (o : Option Nat) : Int := offset (o.map (a + ·))

theorem next_loop_least (hv : v.toNat < 64) (which : Nat) {rest : List UInt8}
    (hrest : LegalText rest) :
    ∃ o, next_loop v which rest = place (which * 6) o ∧
      Least (fun m => bit_of (v :: rest.map value) m = true) o := by
  induction rest generalizing v which with
  | nil =>
    obtain ⟨hnone, hclear⟩ | ⟨k, hk, hsome, hset, hless⟩ := lowest_spec hv which
    · refine ⟨none, by rw [next_loop, hnone]; rfl, .none fun m => ?_⟩
      rw [map_nil, bit_of_cons]
      split
      · rename_i hm
        simp [hclear m hm]
      · simp [bit_of]
    · refine ⟨some k, by rw [next_loop, hsome]; rfl, .some ?_ fun m hm => ?_⟩
      · rw [bit_of_cons, if_pos hk, hset]
      · rw [bit_of_cons, if_pos (by omega), hless m hm]
        simp
  | cons c rest ih =>
    obtain ⟨hc, hrest⟩ := forall_mem_cons.mp hrest
    rw [next_loop_cons, map_cons]
    obtain ⟨hnone, hclear⟩ | ⟨k, hk, hsome, hset, hless⟩ := lowest_spec hv which
    · obtain ⟨o, hloop, ho⟩ := ih hc.value.1 (which + 1) hrest
      refine ⟨o.map (6 + ·), ?_, ho.shift 6 fun m => ?_⟩
      · rw [hnone, Option.getD_none, hloop, place, place, Option.map_map]
        congr 2
        funext m
        simp only [Function.comp_apply]
        omega
      · rw [bit_of_cons]
        split
        · rename_i hm
          simp [hclear m hm, Nat.not_le_of_lt hm]
        · rename_i hm
          simp [Nat.le_of_not_lt hm]
    · refine ⟨some k, by rw [hsome]; rfl, .some ?_ fun m hm => ?_⟩
      · rw [bit_of_cons, if_pos hk, hset]
      · rw [bit_of_cons, if_pos (by omega), hless m hm]
        simp

/-- The next bit is the least one that is greater, and -1 is none. -/
def Next (s : List UInt8) (start result : Int) : Prop :=
  ∃ o, result = offset o ∧ Least (fun m => start < m ∧ has_bit s m = true) o

theorem next_loop_next (h : LegalText s) {which : Nat} (hv : v.toNat < 64)
    (hbits : ∀ m : Nat, start < m ∧ has_bit s m = true ↔
      which * 6 ≤ m ∧ bit_of (v :: (s.drop (which + 1)).map value) (m - which * 6) = true) :
    Next s start (next_loop v which (s.drop (which + 1))) := by
  have hrest : LegalText (s.drop (which + 1)) := fun c hc => h c (mem_of_mem_drop hc)
  obtain ⟨o, hloop, ho⟩ := next_loop_least hv which hrest
  exact ⟨o.map (which * 6 + ·), hloop, ho.shift (which * 6) hbits⟩

theorem bits_from {which : Nat} {c : UInt8} (hc : s[which]? = some c) (m : Nat) :
    bit_of (value c :: (s.drop (which + 1)).map value) m = has_bit s (which * 6 + m) := by
  obtain ⟨hlt, rfl⟩ := List.getElem?_eq_some_iff.mp hc
  rw [← map_cons, ← drop_eq_getElem_cons hlt, map_drop, bit_of_drop, has_bit,
    Nat.mul_comm]

theorem partial_bits (v : BitVec 32) {r : Nat} (hr : r < 5) (hm : m < 6) :
    (v &&& (0x3f#32 - ((1#32 <<< (r + 1)) - 1))).getLsbD m = (decide (r < m) && v.getLsbD m) := by
  have hall : ∀ (r : Fin 5) (m : Fin 6),
      (0x3f#32 - ((1#32 <<< ((r : Nat) + 1)) - 1)).getLsbD m = decide ((r : Nat) < m) := by
    decide +kernel
  rw [BitVec.getLsbD_and, hall ⟨r, hr⟩ ⟨m, hm⟩, Bool.and_comm]

theorem Next.int32 {result : Int} (hint : ∀ m : Nat, has_bit s m = true → (m : Int) < 2147483648)
    (h : Next s start result) : Next s start (int32 result) := by
  obtain ⟨o, rfl, ho⟩ := h
  refine ⟨o, ?_, ho⟩
  cases ho with
  | some hi _ =>
    have := hint _ hi.2
    exact int32_eq (by simp only [offset]; omega) (by simpa only [offset] using this)
  | none _ => exact int32_eq (by decide) (by decide)

theorem has_bit_of_long (h : s.length ≤ m / 6) : has_bit s m = false := by
  simp [has_bit, bit_of, getElem?_eq_none h]

theorem f_next_bit_next (h : LegalText s)
    (hint : ∀ m : Nat, has_bit s m = true → (m : Int) < 2147483648)
    (hzero : start = 0 → has_bit s 0 = false) (hend : s ≠ [] → start + 1 ≠ 6 * s.length) :
    Next s start (f_next_bit s start) := by
  have hat : ∀ {i : Nat} {c : UInt8}, s[i]? = some c → char_at s i = c := fun hc => by
    rw [char_at, hc, Option.getD_some]
  have hvalue : ∀ {i : Nat} {c : UInt8}, s[i]? = some c → (value c).toNat < 64 := fun hc =>
    (h _ (mem_of_getElem? hc)).value.1
  unfold f_next_bit
  split_ifs with hlong hpos hlast
  · -- no character holds a greater bit
    refine ⟨none, rfl, .none fun m hm => ?_⟩
    have hfalse : has_bit s m = false := by
      apply has_bit_of_long
      obtain hnil | hlong := hlong
      · omega
      · have hsign : Int.sign 6 = 1 := rfl
        have hdiv := Int.tdiv_eq_ediv (a := start) (b := 6)
        rw [hsign] at hdiv
        split_ifs at hdiv <;> omega
    rw [hfalse] at hm
    exact absurd hm.2 (by simp)
  all_goals obtain ⟨hne, hlong⟩ := not_or.mp hlong
  · -- the bits of the next character
    have hdiv : start.tdiv 6 = start / 6 := Int.tdiv_eq_ediv_of_nonneg (by omega)
    have hnil : s ≠ [] := fun hnil => hne (by rw [hnil]; rfl)
    have hmore := hend hnil
    obtain ⟨c, hc⟩ : ∃ c, s[(start / 6).toNat + 1]? = some c :=
      ⟨_, getElem?_eq_getElem (by omega)⟩
    simp only [hat hc]
    refine (next_loop_next h (hvalue hc) fun m => ?_).int32 hint
    rw [bits_from hc]
    constructor
    · rintro ⟨hlt, hbit⟩
      have hle : ((start / 6).toNat + 1) * 6 ≤ m := by omega
      exact ⟨hle, by rwa [Nat.add_sub_cancel' hle]⟩
    · rintro ⟨hle, hbit⟩
      exact ⟨by omega, by rwa [Nat.add_sub_cancel' hle] at hbit⟩
  · -- the rest of the bits of a character
    have hdiv : start.tdiv 6 = start / 6 := Int.tdiv_eq_ediv_of_nonneg (by omega)
    obtain ⟨c, hc⟩ : ∃ c, s[(start / 6).toNat]? = some c :=
      ⟨_, getElem?_eq_getElem (by omega)⟩
    simp only [hat hc]
    refine (next_loop_next h (and_lt (hvalue hc) _) fun m => ?_).int32 hint
    by_cases hle : (start / 6).toNat * 6 ≤ m
    · have hbit := bits_from hc (m - (start / 6).toNat * 6)
      rw [Nat.add_sub_cancel' hle, bit_of_cons] at hbit
      rw [← hbit, bit_of_cons]
      by_cases hsix : m - (start / 6).toNat * 6 < 6
      · rw [if_pos hsix, if_pos hsix, partial_bits _ (by omega) hsix, Bool.and_eq_true,
          decide_eq_true_eq]
        have hlt : start < m ↔ (start % 6).toNat < m - (start / 6).toNat * 6 := by omega
        rw [hlt]
        exact (and_iff_right hle).symm
      · rw [if_neg hsix, if_neg hsix]
        exact and_congr_left' (iff_of_true (by omega) hle)
    · exact iff_of_false (fun hm => by omega) fun hm => hle hm.1
  · -- the bits of the first character
    obtain ⟨c, hc⟩ : ∃ c, s[0]? = some c := ⟨_, getElem?_eq_getElem (by omega)⟩
    simp only [hat hc]
    refine (next_loop_next h (hvalue hc) fun m => ?_).int32 hint
    rw [bits_from hc, Nat.zero_mul, Nat.sub_zero, Nat.zero_add]
    constructor
    · rintro ⟨-, hbit⟩
      exact ⟨Nat.zero_le m, hbit⟩
    · rintro ⟨-, hbit⟩
      refine ⟨?_, hbit⟩
      obtain hneg | rfl := Int.lt_or_eq_of_le (Int.not_lt.mp hpos)
      · omega
      · have : m ≠ 0 := by
          rintro rfl
          simp [hzero rfl] at hbit
        omega

/-! ## The strings that are built -/

inductive Built (MAX_BITS : Int) : List UInt8 → Prop
  | empty : Built MAX_BITS []
  | set_bit {s s' : List UInt8} {number : Int} : Built MAX_BITS s →
      f_set_bit MAX_BITS s number = .ok s' → Built MAX_BITS s'
  | clear_bit {s s' : List UInt8} {number : Int} : Built MAX_BITS s →
      f_clear_bit MAX_BITS s number = .ok s' → Built MAX_BITS s'

theorem set_bit_number {number : Int} {s' : List UInt8} (h : f_set_bit MAX_BITS s number = .ok s') :
    number ≤ MAX_BITS ∧ ∃ n : Nat, number = n := by
  unfold f_set_bit at h
  split_ifs at h with hmax hneg
  exact ⟨Int.not_lt.mp hmax, Int.eq_ofNat_of_zero_le (Int.not_lt.mp hneg)⟩

theorem clear_bit_number {number : Int} {s' : List UInt8}
    (h : f_clear_bit MAX_BITS s number = .ok s') : number ≤ MAX_BITS ∧ ∃ n : Nat, number = n := by
  unfold f_clear_bit at h
  split_ifs at h with hmax hneg
  exact ⟨Int.not_lt.mp hmax, Int.eq_ofNat_of_zero_le (Int.not_lt.mp hneg)⟩

theorem Built.sound (h : Built MAX_BITS s) :
    LegalText s ∧ ∀ m : Nat, has_bit s m = true → m ≤ MAX_BITS := by
  induction h with
  | empty => exact ⟨by simp [LegalText], by simp [has_bit, bit_of]⟩
  | set_bit _ hset ih =>
    obtain ⟨hmax, n, rfl⟩ := set_bit_number hset
    obtain ⟨s', hok, hlegal, hbits⟩ := f_set_bit_spec ih.1 hmax
    obtain rfl : s' = _ := Except.ok.inj (hok.symm.trans hset)
    refine ⟨hlegal, fun m hm => ?_⟩
    rw [hbits, Bool.or_eq_true, decide_eq_true_eq] at hm
    obtain rfl | hm := hm
    · exact hmax
    · exact ih.2 m hm
  | clear_bit _ hclear ih =>
    obtain ⟨hmax, n, rfl⟩ := clear_bit_number hclear
    obtain ⟨s', hok, hlegal, hbits⟩ := f_clear_bit_spec ih.1 hmax
    obtain rfl : s' = _ := Except.ok.inj (hok.symm.trans hclear)
    refine ⟨hlegal, fun m hm => ?_⟩
    rw [hbits, Bool.and_eq_true] at hm
    exact ih.2 m hm.2

theorem f_test_bit_iff (s : List UInt8) (m : Nat) :
    f_test_bit s m = .ok 1 ↔ has_bit s m = true := by
  rw [f_test_bit_eq]
  cases has_bit s m <;> simp

/-- The least bit that `test_bit` sees and that is greater, and -1 is none. -/
def NextBit (s : List UInt8) (start result : Int) : Prop :=
  ∃ o, result = offset o ∧ Least (fun m => start < m ∧ f_test_bit s m = .ok 1) o

theorem Next.bit {result : Int} (h : Next s start result) : NextBit s start result := by
  unfold NextBit
  simp only [f_test_bit_iff]
  exact h

/-- A string that is not empty is found at its least or at its greatest place, unless the search
from the right leaves the other string, and an empty one is not found. An update changes its
own bit, and the next bit is the least greater one, unless the start is a set bit 0 or the
last bit of the string. -/
theorem strings_are_searched_and_bits_are_updated (MAX_BITS : Int)
    (hint : MAX_BITS < 2147483648) :
    (∀ big little flag, little.chars ≠ [] → Stays big little.chars flag →
        ∃ o, f_strsrch big little flag = some (offset o) ∧ Sought big little.chars flag o) ∧
      (∀ big little flag, little.chars = [] → f_strsrch big little flag = some (-1)) ∧
      (∀ s, Built MAX_BITS s → ∀ n : Nat, n ≤ MAX_BITS →
        (∃ s', f_set_bit MAX_BITS s n = .ok s' ∧
          ∀ m : Nat, f_test_bit s' m = if m = n then .ok 1 else f_test_bit s m) ∧
        ∃ s', f_clear_bit MAX_BITS s n = .ok s' ∧
          ∀ m : Nat, f_test_bit s' m = if m = n then .ok 0 else f_test_bit s m) ∧
      ∀ s, Built MAX_BITS s → ∀ start : Int, (start = 0 → f_test_bit s 0 = .ok 0) →
        (s ≠ [] → start + 1 ≠ 6 * s.length) → NextBit s start (f_next_bit s start) := by
  refine ⟨fun big little flag hsome hstays => f_strsrch_found big flag hsome hstays,
    fun big little flag hnil => f_strsrch_empty big flag hnil, fun s hs n hn => ⟨?_, ?_⟩,
    fun s hs start hzero hend => ?_⟩
  · obtain ⟨s', hok, -, hbits⟩ := f_set_bit_spec hs.sound.1 hn
    refine ⟨s', hok, fun m => ?_⟩
    rw [f_test_bit_eq, f_test_bit_eq, hbits]
    by_cases hm : m = n
    · simp [hm]
    · simp [hm]
  · obtain ⟨s', hok, -, hbits⟩ := f_clear_bit_spec hs.sound.1 hn
    refine ⟨s', hok, fun m => ?_⟩
    rw [f_test_bit_eq, f_test_bit_eq, hbits]
    by_cases hm : m = n
    · simp [hm]
    · simp [hm]
  · obtain ⟨hlegal, hmax⟩ := hs.sound
    refine (f_next_bit_next hlegal (fun m hm => Int.lt_of_le_of_lt (hmax m hm) hint)
      (fun h0 => ?_) hend).bit
    by_contra hbit
    rw [Bool.not_eq_false] at hbit
    have htest := (f_test_bit_iff s 0).mpr hbit
    simp [hzero h0] at htest

theorem a_bit_is_set_in_the_empty_string :
    ∃ s', f_set_bit 1200 [] (5 : Nat) = .ok s' ∧
      ∀ m : Nat, f_test_bit s' m = if m = 5 then .ok 1 else f_test_bit [] m :=
  ((strings_are_searched_and_bits_are_updated 1200 (by decide)).2.2.1 [] .empty 5 (by decide)).1

/-- The empty string stands at every place and is not found. -/
theorem the_empty_string_is_not_found :
    ¬∃ o, f_strsrch [97] (.T_STRING []) 0 = some (offset o) ∧ Sought [97] [] 0 o := by
  rintro ⟨o, hsearch, hsought⟩
  cases hsought with
  | some _ _ =>
    have := Option.some.inj hsearch
    simp only [offset] at this
    omega
  | none hno => exact hno 0 nil_prefix

end mudos.bit_strings
