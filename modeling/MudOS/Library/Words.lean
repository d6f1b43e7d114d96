-- Operations on words of some bits as a machine does them: sums, differences and products
-- wrap, a division traps at zero and where its quotient does not fit, and a shift by the
-- whole word or more is left open. Against them stand the exact results.
import Mathlib.Data.BitVec
import Mathlib.Tactic.NormNum

namespace mudos.words

variable {w : Nat}

/-- The operations of one operand take the first. -/
inductive Operation
  | add | sub | mul | div | mod
  | and | or | xor | shl | shr
  | eq | ne | lt | le | gt | ge
  | land | lor
  | not | lnot | neg | inc | dec
deriving DecidableEq

inductive Outcome (w : Nat)
  | value (v : BitVec w)
  | trapped
  | undefined
deriving DecidableEq

def truth (p : Prop) [Decidable p] : BitVec w := if p then 1 else 0

def Traps (a b : BitVec w) : Prop := b = 0 ∨ a = BitVec.intMin w ∧ b = -1

instance (a b : BitVec w) : Decidable (Traps a b) := inferInstanceAs (Decidable (_ ∨ _))

def compute (op : Operation) (a b : BitVec w) : Outcome w :=
  match op with
  | .add => .value (a + b)
  | .sub => .value (a - b)
  | .mul => .value (a * b)
  | .div => if Traps a b then .trapped else .value (a.sdiv b)
  | .mod => if Traps a b then .trapped else .value (a.srem b)
  | .and => .value (a &&& b)
  | .or => .value (a ||| b)
  | .xor => .value (a ^^^ b)
  | .shl => if b.toNat < w then .value (a <<< b.toNat) else .undefined
  | .shr => if b.toNat < w then .value (a.sshiftRight b.toNat) else .undefined
  | .eq => .value (truth (a = b))
  | .ne => .value (truth (a ≠ b))
  | .lt => .value (truth (a.slt b))
  | .le => .value (truth (a.sle b))
  | .gt => .value (truth (b.slt a))
  | .ge => .value (truth (b.sle a))
  | .land => .value (truth (a ≠ 0 ∧ b ≠ 0))
  | .lor => .value (truth (a ≠ 0 ∨ b ≠ 0))
  | .not => .value (~~~a)
  | .lnot => .value (truth (a = 0))
  | .neg => .value (-a)
  | .inc => .value (a + 1)
  | .dec => .value (a - 1)

def truth_value (p : Prop) [Decidable p] : Int := if p then 1 else 0

def exact_result (op : Operation) (a b : BitVec w) : Int :=
  match op with
  | .add => a.toInt + b.toInt
  | .sub => a.toInt - b.toInt
  | .mul => a.toInt * b.toInt
  | .div => a.toInt.tdiv b.toInt
  | .mod => a.toInt.tmod b.toInt
  | .and => (a &&& b).toInt
  | .or => (a ||| b).toInt
  | .xor => (a ^^^ b).toInt
  | .shl => a.toInt * 2 ^ b.toNat
  | .shr => a.toInt / 2 ^ b.toNat
  | .eq => truth_value (a.toInt = b.toInt)
  | .ne => truth_value (a.toInt ≠ b.toInt)
  | .lt => truth_value (a.toInt < b.toInt)
  | .le => truth_value (a.toInt ≤ b.toInt)
  | .gt => truth_value (b.toInt < a.toInt)
  | .ge => truth_value (b.toInt ≤ a.toInt)
  | .land => truth_value (a.toInt ≠ 0 ∧ b.toInt ≠ 0)
  | .lor => truth_value (a.toInt ≠ 0 ∨ b.toInt ≠ 0)
  | .not => -a.toInt - 1
  | .lnot => truth_value (a.toInt = 0)
  | .neg => -a.toInt
  | .inc => a.toInt + 1
  | .dec => a.toInt - 1

def wrapped (op : Operation) (a b : BitVec w) : BitVec w := BitVec.ofInt w (exact_result op a b)

/-- A division that the machine does not do, or a shift that it leaves open. -/
def Irregular (op : Operation) (a b : BitVec w) : Prop :=
  (op = .div ∨ op = .mod) ∧ Traps a b ∨ (op = .shl ∨ op = .shr) ∧ w ≤ b.toNat

/-! ## The machine against the exact results -/

theorem truth_eq (p q : Prop) [Decidable p] [Decidable q] (h : p ↔ q) :
    (truth p : BitVec w) = BitVec.ofInt w (truth_value q) := by
  unfold truth truth_value
  by_cases hq : q
  · simp only [h, hq, if_true]
    rfl
  · simp only [h, hq, if_false]
    rfl

theorem toInt_eq_zero_iff (a : BitVec w) : a.toInt = 0 ↔ a = 0 := by
  rw [← BitVec.toInt_inj]
  simp

theorem sub_wrapped (a b : BitVec w) : a - b = BitVec.ofInt w (a.toInt - b.toInt) := by
  rw [← BitVec.toInt_inj, BitVec.toInt_sub, BitVec.toInt_ofInt]

theorem dec_wrapped (a : BitVec w) : a - 1 = BitVec.ofInt w (a.toInt - 1) := by
  rw [show a.toInt - 1 = a.toInt + -1 from rfl, BitVec.ofInt_add, BitVec.ofInt_neg,
    BitVec.ofInt_toInt, sub_eq_add_neg]
  rfl

theorem sdiv_wrapped (a b : BitVec w) :
    a.sdiv b = BitVec.ofInt w (a.toInt.tdiv b.toInt) := by
  rw [← BitVec.toInt_inj, BitVec.toInt_sdiv, BitVec.toInt_ofInt]

theorem srem_wrapped (a b : BitVec w) :
    a.srem b = BitVec.ofInt w (a.toInt.tmod b.toInt) := by
  rw [← BitVec.toInt_srem, BitVec.ofInt_toInt]

theorem shl_wrapped (a : BitVec w) (n : Nat) :
    a <<< n = BitVec.ofInt w (a.toInt * 2 ^ n) := by
  rw [BitVec.ofInt_mul, BitVec.ofInt_toInt, BitVec.shiftLeft_eq_mul_twoPow]
  congr 1
  apply BitVec.eq_of_toNat_eq
  rw [BitVec.toNat_twoPow]
  have : ((2 : Int) ^ n) = ((2 ^ n : Nat) : Int) := by norm_num
  rw [this, BitVec.ofInt_natCast, BitVec.toNat_ofNat]

theorem shr_wrapped (a : BitVec w) (n : Nat) :
    a.sshiftRight n = BitVec.ofInt w (a.toInt / 2 ^ n) := by
  have h : a.toInt / 2 ^ n = a.toInt >>> n := by
    rw [Int.shiftRight_eq_div_pow]
    norm_num
  rw [h, ← BitVec.toInt_sshiftRight, BitVec.ofInt_toInt]

theorem not_wrapped (a : BitVec w) : ~~~a = BitVec.ofInt w (-a.toInt - 1) := by
  rw [show -a.toInt - 1 = -a.toInt + -1 from rfl, BitVec.ofInt_add, BitVec.ofInt_neg,
    BitVec.ofInt_neg, BitVec.ofInt_toInt, BitVec.neg_eq_not_add]
  exact (add_neg_cancel_right (~~~a) 1).symm

theorem compute_regular {op : Operation} {a b : BitVec w} (h : ¬ Irregular op a b) :
    compute op a b = .value (wrapped op a b) := by
  unfold Irregular at h
  unfold compute wrapped exact_result
  cases op with
  | add => simp only [BitVec.ofInt_add, BitVec.ofInt_toInt]
  | sub => rw [sub_wrapped]
  | mul => simp only [BitVec.ofInt_mul, BitVec.ofInt_toInt]
  | div =>
    have ht : ¬ Traps a b := fun ht => h (.inl ⟨.inl rfl, ht⟩)
    simp [ht, sdiv_wrapped]
  | mod =>
    have ht : ¬ Traps a b := fun ht => h (.inl ⟨.inr rfl, ht⟩)
    simp [ht, srem_wrapped]
  | shl =>
    have hb : b.toNat < w := by
      by_contra hb
      exact h (.inr ⟨.inl rfl, by omega⟩)
    simp [hb, shl_wrapped]
  | shr =>
    have hb : b.toNat < w := by
      by_contra hb
      exact h (.inr ⟨.inr rfl, by omega⟩)
    simp [hb, shr_wrapped]
  | and | or | xor => simp only [BitVec.ofInt_toInt]
  | eq => exact congrArg _ (truth_eq _ _ BitVec.toInt_inj.symm)
  | ne => exact congrArg _ (truth_eq _ _ (not_congr BitVec.toInt_inj.symm))
  | lt | gt => exact congrArg _ (truth_eq _ _ BitVec.slt_iff_toInt_lt)
  | le | ge => exact congrArg _ (truth_eq _ _ BitVec.sle_iff_toInt_le)
  | land | lor =>
    refine congrArg _ (truth_eq _ _ ?_)
    simp [toInt_eq_zero_iff]
  | not => rw [not_wrapped]
  | lnot => exact congrArg _ (truth_eq _ _ (toInt_eq_zero_iff a).symm)
  | neg => simp only [BitVec.ofInt_neg, BitVec.ofInt_toInt]
  | inc =>
    rw [BitVec.ofInt_add, BitVec.ofInt_toInt]
    rfl
  | dec => rw [dec_wrapped]

theorem compute_irregular {op : Operation} {a b : BitVec w} (h : Irregular op a b) (v : BitVec w) :
    compute op a b ≠ .value v := by
  rcases h with ⟨rfl | rfl, ht⟩ | ⟨rfl | rfl, hb⟩
  · simp [compute, ht]
  · simp [compute, ht]
  · simp [compute, Nat.not_lt.2 hb]
  · simp [compute, Nat.not_lt.2 hb]

end mudos.words
