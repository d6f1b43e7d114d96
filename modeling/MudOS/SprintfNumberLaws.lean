-- The law of the numbers: nothing is written outside of `cheat` and `temp`, and the digits are those
-- of the number, exactly when the precision and the number are short.
import MudOS.SprintfNumbers
import Mathlib.Tactic.SplitIfs

open List

namespace mudos.sprintf_numbers

variable {text bytes temp : List UInt8} {fl : List UInt8} {conv : conversion_t} {n size : Nat}
variable {pres : Int} {carg : argument_t} {finfo : UInt32} {upper : Bool} {base least : Nat}

/-! ## Digits -/

theorem length_numeral (upper : Bool) (l : List Nat) : (numeral upper l).length = l.length := by
  simp [numeral]

theorem length_digits : (digits base least n).length = max (Nat.digits base n).length least := by
  rw [digits, length_append, length_replicate]
  omega

theorem writes_digits (upper : Bool) (hbase : 1 < base) (least n : Nat) :
    Writes upper base (numeral upper (digits base least n)) n := by
  refine ⟨_, rfl, ?_, ?_⟩
  · intro d hd
    rcases mem_append.mp hd with hd | hd
    · exact Nat.digits_lt_base hbase hd
    · rw [eq_of_mem_replicate hd]
      omega
  · rw [digits, Nat.ofDigits_append_replicate_zero, Nat.ofDigits_digits]

theorem numeral_ne_nil (hleast : 0 < least) : numeral upper (digits base least n) ≠ [] := by
  rw [ne_eq, ← length_eq_zero_iff, length_numeral, length_digits]
  omega

theorem numeral_split (upper : Bool) (l : List Nat) (k : Nat) :
    numeral upper (l.drop k) ++ numeral upper (l.take k) = numeral upper l := by
  rw [numeral, numeral, numeral, ← reverse_append, ← map_append, take_append_drop]

theorem rounded_near (places n : Nat) :
    2 * (rounded places n * 2 ^ 149) ≤ 2 * (n * 10 ^ places) + 2 ^ 149 ∧
      2 * (n * 10 ^ places) ≤ 2 * (rounded places n * 2 ^ 149) + 2 ^ 149 := by
  unfold rounded
  generalize n * 10 ^ places = m
  have hpos : 0 < 2 ^ 149 := Nat.two_pow_pos 149
  generalize 2 ^ 149 = k at hpos ⊢
  have hdiv := Nat.div_add_mod' m k
  have hlt := Nat.mod_lt m hpos
  have hnext : (m / k + 1) * k = m / k * k + k := Nat.succ_mul _ _
  dsimp only
  split_ifs
  · rw [hnext]
    omega
  · omega

theorem base_gt (conv : conversion_t) : 1 < conv.base := by cases conv <;> decide

theorem c_sprintf_shown (h : c_sprintf fl pres conv carg = some temp) :
    Shown fl pres conv carg temp := by
  have hint : ∀ (conv : conversion_t) (n : Int), conv ≠ .c → conv ≠ .f →
      Shown fl pres conv (.T_NUMBER n) (int_sign fl conv n ++
        numeral (conv = .X) (digits conv.base (max pres.toNat 1) (unsigned conv n))) :=
    fun conv n hc hf => .int hc hf (writes_digits _ (base_gt conv) _ _) (numeral_ne_nil (by omega))
  cases conv <;> cases carg <;> cases h
  case d n => exact hint .d n nofun nofun
  case o n => exact hint .o n nofun nofun
  case x n => exact hint .x n nofun nofun
  case X n => exact hint .X n nofun nofun
  case c n =>
    simp only [print_int]
    split_ifs with hnul
    · exact .nul hnul
    · exact .c hnul
  case f u =>
    unfold print_real
    split_ifs with hend hzero
    · exact .inf hend hzero
    · exact .nan hend hzero
    · have hlength : (digits 10 (places pres + 1) (rounded (places pres) (units u))).length = _ :=
        length_digits
      obtain ⟨hle, hge⟩ := rounded_near (places pres) (units u)
      simp only
      rw [← append_assoc]
      refine .f hend ?_ ?_ ?_ hle hge
      · rw [numeral_split]
        exact writes_digits _ (by decide) _ _
      · rw [ne_eq, ← length_eq_zero_iff, length_numeral, length_drop]
        omega
      · rw [length_numeral, length_take]
        omega

theorem width_eq : width fl pres conv carg = (c_sprintf fl pres conv carg).map length := by
  cases conv <;> cases carg
  case f.T_REAL u =>
    simp only [width, c_sprintf, print_real, Option.map_some, length_append, Option.some.injEq]
    split_ifs
    · rfl
    · rfl
    · simp only [length_append, length_cons, length_numeral, length_take, length_drop, length_digits]
      omega
  case c.T_NUMBER n =>
    simp only [width, c_sprintf, print_int, Option.map_some]
    split_ifs <;> rfl
  all_goals simp [width, c_sprintf, print_int, length_numeral, length_digits]

/-! ## The buffers -/

theorem put_ok (h : text.length + bytes.length ≤ size) : put size text bytes = .ok (text ++ bytes) :=
  if_pos h

theorem put_outside (h : ¬ text.length + bytes.length ≤ size) :
    put size text bytes = .error .outside := if_neg h

theorem length_flag (finfo : UInt32) : (flag finfo).length ≤ 1 := by
  unfold flag
  split_ifs <;> decide

def start (finfo : UInt32) (pres : Int) : List UInt8 :=
  37 :: flag finfo ++ if pres ≠ 0 then 46 :: decimal pres.toNat else []

theorem length_start (finfo : UInt32) (pres : Int) : (start finfo pres).length =
    1 + (flag finfo).length + if pres ≠ 0 then 1 + (decimal pres.toNat).length else 0 := by
  unfold start
  split_ifs <;> simp <;> omega

theorem make_cheat_eq (finfo : UInt32) (pres : Int) : make_cheat finfo pres =
    if pres ≠ 0 → (flag finfo).length + (decimal pres.toNat).length ≤ 5 then
      match conversion finfo with
      | none => .error .ERR_BAD_INT_TYPE
      | some conv => .ok (start finfo pres ++ [conv.char], conv)
    else .error .outside := by
  have hflag := length_flag finfo
  have hstart := length_start finfo pres
  have hone : put 8 [] [37] = .ok [37] := rfl
  have htwo : put 8 [37] (flag finfo) = .ok (37 :: flag finfo) := put_ok (by simp; omega)
  simp only [make_cheat, hone, htwo, bind, Except.bind]
  by_cases hpres : pres = 0
  · simp only [hpres, ne_eq, not_true_eq_false, if_false] at hstart ⊢
    rw [if_pos False.elim]
    cases conversion finfo with
    | none => rfl
    | some conv =>
      simp only [start, ne_eq, not_true_eq_false, if_false, append_nil]
      rw [put_ok (by simp; omega)]
  · have hdot : put 8 (37 :: flag finfo) [46] = .ok (37 :: flag finfo ++ [46]) :=
      put_ok (by simp; omega)
    simp only [ne_eq, hpres, not_false_eq_true, true_imp_iff, if_true, hdot] at hstart ⊢
    by_cases hfit : (flag finfo).length + (decimal pres.toNat).length ≤ 5
    · rw [if_pos hfit, put_ok (by simp; omega), put_ok (by simp; omega)]
      cases conversion finfo with
      | none => rfl
      | some conv =>
        have hend : 37 :: flag finfo ++ [46] ++ decimal pres.toNat = start finfo pres := by
          simp [start, hpres]
        simp only [hend]
        rw [put_ok (by simp; omega)]
    · rw [if_neg hfit, put_outside (by simp; omega)]

/-! ## The law -/

/-- A number is printed well exactly when its precision and itself are short enough. -/
theorem numbers_are_printed_iff (finfo : UInt32) (pres : Int) (carg : argument_t) :
    Right finfo pres carg ↔ Fits finfo pres carg := by
  have hflag := length_flag finfo
  have hstart := length_start finfo pres
  unfold Right Fits print_number
  by_cases hneg : pres < 0
  · rw [if_pos hneg]
    exact iff_of_true ⟨nofun, nofun⟩ fun h => absurd hneg (Int.not_lt.mpr h)
  rw [if_neg hneg, make_cheat_eq, imp_iff_right (Int.not_lt.mp hneg)]
  by_cases hfit : pres ≠ 0 → (flag finfo).length + (decimal pres.toNat).length ≤ 5
  · rw [if_pos hfit, and_iff_right hfit]
    cases hconv : conversion finfo with
    | none => exact iff_of_true ⟨nofun, nofun⟩ nofun
    | some conv =>
      simp only [bind, Except.bind, width_eq, Option.some.injEq, forall_eq']
      cases hprint : c_sprintf (flag finfo) pres conv carg with
      | none => exact iff_of_true ⟨nofun, nofun⟩ nofun
      | some temp =>
        simp only [Option.map_some, Option.some.injEq, forall_eq']
        have hcheat : (start finfo pres ++ [conv.char]).length + [(0 : UInt8)].length ≤ 8 ↔
            (pres ≠ 0 → (flag finfo).length + (decimal pres.toNat).length ≤ 4) := by
          by_cases hpres : pres = 0
          · simp [hpres] at hstart ⊢
            omega
          · simp [hpres] at hstart ⊢
            omega
        by_cases hnul : (start finfo pres ++ [conv.char]).length + [(0 : UInt8)].length ≤ 8
        · rw [put_ok hnul, and_iff_right (hcheat.mp hnul)]
          by_cases hlong : temp.length + [(0 : UInt8)].length ≤ 100
          · simp only [put_ok hlong]
            refine iff_of_true ⟨nofun, ?_⟩ (by simp at hlong; omega)
            rintro _ ⟨⟩
            exact ⟨conv, rfl, c_sprintf_shown hprint⟩
          · simp only [put_outside hlong]
            exact iff_of_false (fun h => h.1 rfl) fun hlt => hlong (by simp; omega)
        · rw [put_outside hnul]
          exact iff_of_false (fun h => h.1 rfl) fun h => hnul (hcheat.mpr h.1)
  · rw [if_neg hfit]
    exact iff_of_false (fun h => h.1 rfl) fun h => hfit h.1

/-- `%+.12345d` is too long for `cheat`, and what `%.100d` prints is too long for `temp`. -/
theorem long_numbers_are_written_outside :
    print_number 0x88 12345 (.T_NUMBER 7) = .error .outside ∧
      print_number 0x8 100 (.T_NUMBER 7) = .error .outside := by
  have hfive : (decimal 12345).length = 5 := by simp [decimal, length_numeral, length_digits]
  have hthree : (decimal 100).length = 3 := by simp [decimal, length_numeral, length_digits]
  have hplus : flag 0x88 = [43] := by decide
  have hnone : flag 0x8 = [] := by decide
  have hlength : (print_int [] 100 7 .d).length = 100 := by
    simp [print_int, int_sign, sign, length_numeral, length_digits, conversion_t.base, unsigned]
  refine ⟨?_, ?_⟩
  · rw [print_number, if_neg (by decide), make_cheat_eq, if_neg (by simp [hplus, hfive])]
    rfl
  · have hconv : conversion 0x8 = some .d := rfl
    have hstart := length_start 0x8 100
    rw [print_number, if_neg (by decide), make_cheat_eq, if_pos (by simp [hnone, hthree]), hconv]
    simp only [hnone, length_nil] at hstart
    simp only [bind, Except.bind, c_sprintf, hnone]
    rw [put_ok (by simp [hstart, hthree]), put_outside (by simp [hlength])]

end mudos.sprintf_numbers
