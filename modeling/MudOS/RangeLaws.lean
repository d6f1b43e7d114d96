-- A range has the elements between its bounds, in strings, buffers and arrays alike, as long as no
-- bound that is counted from the end is too far and no string that is copied is too long.
import MudOS.ArrayAdditionLaws
import MudOS.ArraySliceLaws
import MudOS.Ranges

open mudos.ints List
open mudos.windows
open mudos.reference_counts
open mudos.array_blocks

namespace mudos.ranges

variable {limits : limits_t} {m : memory} {held : List svalue_t}
variable {low high «from» : Int} {code : Nat}
variable {max_string_length «to» max_buffer_size : Int} {value : value_t}

/-! ## Bounds -/

def position (flag : Bool) (len : Nat) (index : Int) : Int := if flag then len - index else index

def Computed (flag : Bool) (len : Nat) (index : Int) : Prop :=
  from_end flag len index = position flag len index

def Near (flag : Bool) (len : Nat) (index : Int) : Prop :=
  flag = true → len - 2147483647 ≤ index

def IsInt (index : Int) : Prop := -2147483648 ≤ index ∧ index ≤ 2147483647

theorem computed_iff {flag : Bool} {len : Nat} {index : Int} (hlen : len ≤ 2147483647)
    (hindex : IsInt index) : Computed flag len index ↔ Near flag len index := by
  unfold Computed Near from_end position
  cases flag with
  | false => simp
  | true =>
    simp only [if_true, true_implies]
    obtain ⟨hlow, hhigh⟩ := hindex
    unfold int32
    omega

/-! ## Strings and buffers -/

theorem string_copy_eq_iff {str : List UInt8} (hpos : 0 < str.length) :
    string_copy max_string_length str = str ↔ (str.length : Int) ≤ max_string_length := by
  unfold string_copy
  split_ifs with hlong
  · refine ⟨fun h => ?_, fun h => by omega⟩
    have hlength := congrArg length h
    rw [length_take] at hlength
    omega
  · simp only [true_iff]
    omega

def Short (max_string_length : Int) (len : Nat) (low : Int) : Prop :=
  max low 0 < len → len - max low 0 ≤ max_string_length

theorem between_to_end {α : Type} {l : List α} (hhigh : (l.length : Int) - 1 ≤ high) :
    between low high l = l.drop (max low 0).toNat := by
  have hlength : (l.drop (max low 0).toNat).length = l.length - (max low 0).toNat :=
    length_drop ..
  rw [between_eq, show low.toNat = (max low 0).toNat by omega]
  exact take_of_length_le (by omega)

theorem clamp_low (low : Int) : (if low < 0 then 0 else low) = max low 0 := by split_ifs <;> omega

theorem string_range_iff {res : List UInt8}
    (hlow : from_end (code &&& 0x10 ≠ 0) res.length «from» = low)
    (hhigh : from_end (code &&& 0x01 ≠ 0) res.length «to» = high) :
    string_range max_string_length code res «from» «to» = between low high res ↔
      ((res.length : Int) - 1 ≤ high → Short max_string_length res.length low) := by
  simp only [string_range, hlow, hhigh, clamp_low]
  by_cases hempty : high < max low 0 ∨ (res.length : Int) ≤ max low 0
  · rw [if_pos hempty, between_eq_nil (by omega)]
    unfold Short
    simp only [true_iff]
    omega
  · rw [if_neg hempty]
    by_cases hend : (res.length : Int) - 1 ≤ high
    · have hlength : (res.drop (max low 0).toNat).length = res.length - (max low 0).toNat :=
        length_drop ..
      rw [if_pos hend, between_to_end hend, string_copy_eq_iff (by omega)]
      unfold Short
      omega
    · rw [if_neg hend, between_eq, show (max low 0).toNat = low.toNat by omega]
      simp [hend]

theorem string_extract_range_iff {res : List UInt8}
    (hlow : from_end (code ≠ 0) res.length «from» = low) :
    string_extract_range max_string_length code res «from» =
        between low (res.length - 1) res ↔ Short max_string_length res.length low := by
  simp only [string_extract_range, hlow, clamp_low]
  rw [between_to_end (Int.le_refl _)]
  by_cases hempty : (res.length : Int) ≤ max low 0
  · rw [if_pos hempty, drop_of_length_le (by omega)]
    unfold Short
    simp only [true_iff]
    omega
  · have hlength : (res.drop (max low 0).toNat).length = res.length - (max low 0).toNat :=
      length_drop ..
    rw [if_neg hempty, string_copy_eq_iff (by omega)]
    unfold Short
    omega

theorem buffer_copy_eq {item : List UInt8} {size : Int} (hsize : 0 ≤ size ∧ size ≤ max_buffer_size)
     :
    buffer_copy max_buffer_size item «from» size =
      .ok ((item.drop «from».toNat).take size.toNat) := if_neg (by omega)

theorem buffer_range_eq {rbuf : List UInt8}
    (hlow : from_end (code &&& 0x10 ≠ 0) rbuf.length «from» = low)
    (hhigh : from_end (code &&& 0x01 ≠ 0) rbuf.length «to» = high)
    (hmax : (rbuf.length : Int) ≤ max_buffer_size) :
    buffer_range max_buffer_size code rbuf «from» «to» = .ok (between low high rbuf) := by
  simp only [buffer_range, hlow, hhigh, clamp_low]
  by_cases hempty : high < max low 0 ∨ (rbuf.length : Int) ≤ max low 0
  · rw [if_pos hempty, between_eq_nil (by omega)]
    rfl
  · have hclamp : (if (rbuf.length : Int) ≤ high then (rbuf.length : Int) - 1 else high) =
        min high (rbuf.length - 1) := by
      split_ifs <;> omega
    rw [if_neg hempty, hclamp, buffer_copy_eq (by omega), ← between_clamp, between_eq]
    congr 2
    omega

theorem buffer_extract_range_eq {rbuf : List UInt8}
    (hlow : from_end (code ≠ 0) rbuf.length «from» = low)
    (hmax : (rbuf.length : Int) ≤ max_buffer_size) :
    buffer_extract_range max_buffer_size code rbuf «from» =
      .ok (between low (rbuf.length - 1) rbuf) := by
  simp only [buffer_extract_range, hlow, clamp_low]
  have hclamp : (if (rbuf.length : Int) < max low 0 then (rbuf.length : Int) else max low 0) =
      min (max low 0) rbuf.length := by
    split_ifs <;> omega
  rw [hclamp, buffer_copy_eq (by omega), between_to_end (Int.le_refl _)]
  by_cases hempty : (rbuf.length : Int) ≤ max low 0
  · rw [drop_of_length_le (by omega), drop_of_length_le (by omega), take_nil]
  · have hlength : (rbuf.drop (max low 0).toNat).length = rbuf.length - (max low 0).toNat :=
      length_drop ..
    rw [show (min (max low 0) (rbuf.length : Int)).toNat = (max low 0).toNat by omega,
      take_of_length_le (by omega)]

/-! ## Ranges -/

/-- A value that a range may be taken of. The running code holds an array on the stack. -/
def Valid (limits : limits_t) (m : memory) (held : List svalue_t) : value_t → Prop
  | .T_STRING res => res.length ≤ 2147483647
  | .T_BUFFER rbuf => rbuf.length ≤ 2147483647 ∧ (rbuf.length : Int) ≤ limits.max_buffer_size
  | .T_ARRAY v => Ready limits.max_array_size m (.block v :: held) ∧ ∃ b, Operand m v b
  | _ => False

def length (m : memory) : value_t → Nat
  | .T_STRING res => res.length
  | .T_BUFFER rbuf => rbuf.length
  | .T_ARRAY v =>
    match array_at m v with
    | some b => b.item.length
    | none => 0
  | _ => 0

/-- The result has the elements from one position to another one, and nothing else has changed that
a holder of the value sees. -/
def IsRange (m : memory) (held : List svalue_t) (low high : Int) : value_t → Result → Prop
  | .T_STRING res, (m', .ok (.T_STRING s)) => m' = m ∧ s = between low high res
  | .T_BUFFER rbuf, (m', .ok (.T_BUFFER s)) => m' = m ∧ s = between low high rbuf
  | .T_ARRAY v, (m', .ok (.T_ARRAY d)) =>
    ∃ b, Operand m v b ∧ Sliced m m' v d (between low high b.item) held
  | _, _ => False

def Uncut (limits : limits_t) (low high : Int) : value_t → Prop
  | .T_STRING res =>
    (res.length : Int) - 1 ≤ high → Short limits.max_string_length res.length low
  | _ => True

theorem slice_is_range {v : Nat} {b : block_t}
    (h : Ready limits.max_array_size m (.block v :: held)) (hv : Operand m v b) (low high : Int) :
    ∃ result, put_array (slice_array limits.max_array_size m v low high) = some result ∧
      IsRange m held low high (.T_ARRAY v) result := by
  obtain ⟨m', d, hslice, hsliced⟩ := slice_array_spec h hv low high
  rw [hslice]
  exact ⟨_, rfl, b, hv, hsliced⟩

theorem size_eq {v : Nat} {b : block_t} (h : Ready limits.max_array_size m (.block v :: held))
    (hv : Operand m v b) : array_at m v = some b ∧ size b = b.item.length ∧
      b.item.length ≤ 65535 :=
  ⟨array_at_some.mpr ⟨hv.block, hv.allocated⟩,
    (null_of_empty h.arrays hv.block hv.allocated hv.type).1,
    (h.arrays.sizes v b hv.block hv.allocated hv.type).2.1⟩

theorem length_le (hvalid : Valid limits m held value) : length m value ≤ 2147483647 := by
  cases value with
  | T_STRING res => exact hvalid
  | T_BUFFER rbuf => exact hvalid.1
  | T_ARRAY v =>
    obtain ⟨hready, b, hv⟩ := hvalid
    obtain ⟨hat, -, hsmall⟩ := size_eq hready hv
    simp only [length, hat]
    omega
  | T_NUMBER n => exact hvalid.elim
  | other => exact hvalid.elim

theorem f_range_of_computed (hvalid : Valid limits m held value)
    (hlow : from_end (code &&& 0x10 ≠ 0) (length m value) «from» = low)
    (hhigh : from_end (code &&& 0x01 ≠ 0) (length m value) «to» = high) :
    (∃ result, f_range limits code m (.T_NUMBER «from») (.T_NUMBER «to») value = some result ∧
      IsRange m held low high value result) ↔ Uncut limits low high value := by
  cases value with
  | T_STRING res =>
    rw [show Uncut limits low high (.T_STRING res) ↔ _ from (string_range_iff hlow hhigh).symm]
    constructor
    · rintro ⟨_, hresult, hrange⟩
      cases hresult
      exact hrange.2
    · exact fun heq => ⟨_, rfl, rfl, heq⟩
  | T_BUFFER rbuf =>
    refine ⟨fun _ => trivial, fun _ => ⟨_, rfl, ?_⟩⟩
    rw [buffer_range_eq hlow hhigh hvalid.2]
    exact ⟨rfl, rfl⟩
  | T_ARRAY v =>
    obtain ⟨hready, b, hv⟩ := hvalid
    obtain ⟨hat, hsize, -⟩ := size_eq hready hv
    simp only [length, hat] at hlow hhigh
    refine ⟨fun _ => trivial, fun _ => ?_⟩
    simp only [f_range, hat, Option.bind_some, hsize, hlow, hhigh]
    exact slice_is_range hready hv low high
  | T_NUMBER n => exact hvalid.elim
  | other => exact hvalid.elim

theorem f_extract_range_of_computed (hvalid : Valid limits m held value)
    (hlow : from_end (code ≠ 0) (length m value) «from» = low) :
    (∃ result, f_extract_range limits code m (.T_NUMBER «from») value = some result ∧
      IsRange m held low (length m value - 1) value result) ↔
      Uncut limits low (length m value - 1) value := by
  cases value with
  | T_STRING res =>
    have huncut : Uncut limits low (length m (.T_STRING res) - 1) (.T_STRING res) ↔
        Short limits.max_string_length res.length low := by
      simp [Uncut, length]
    rw [huncut, ← string_extract_range_iff hlow]
    constructor
    · rintro ⟨_, hresult, hrange⟩
      cases hresult
      exact hrange.2
    · exact fun heq => ⟨_, rfl, rfl, heq⟩
  | T_BUFFER rbuf =>
    refine ⟨fun _ => trivial, fun _ => ⟨_, rfl, ?_⟩⟩
    rw [buffer_extract_range_eq hlow hvalid.2]
    exact ⟨rfl, rfl⟩
  | T_ARRAY v =>
    obtain ⟨hready, b, hv⟩ := hvalid
    obtain ⟨hat, hsize, -⟩ := size_eq hready hv
    simp only [length, hat] at hlow ⊢
    refine ⟨fun _ => trivial, fun _ => ?_⟩
    simp only [f_extract_range, hat, Option.bind_some, hsize, hlow]
    exact slice_is_range hready hv low _
  | T_NUMBER n => exact hvalid.elim
  | other => exact hvalid.elim

/-- A range is right exactly when no index that is counted from the end is too far before the start,
and when a string is not longer than the limit from the start of the range to its end, unless the
range ends before. -/
theorem ranges_are_right_iff {code : Nat} {«from» «to» : Int} {value : value_t}
    (hvalid : Valid limits m held value) (hfrom : IsInt «from») (hto : IsInt «to») :
    let len := length m value
    let low := position (code &&& 0x10 ≠ 0) len «from»
    let high := position (code &&& 0x01 ≠ 0) len «to»
    let lowest := position (code ≠ 0) len «from»
    (Computed (code &&& 0x10 ≠ 0) len «from» ∧ Computed (code &&& 0x01 ≠ 0) len «to» ∧
        (∃ result, f_range limits code m (.T_NUMBER «from») (.T_NUMBER «to») value = some result ∧
          IsRange m held low high value result) ↔
      Near (code &&& 0x10 ≠ 0) len «from» ∧ Near (code &&& 0x01 ≠ 0) len «to» ∧
        Uncut limits low high value) ∧
    (Computed (code ≠ 0) len «from» ∧
        (∃ result, f_extract_range limits code m (.T_NUMBER «from») value = some result ∧
          IsRange m held lowest (len - 1) value result) ↔
      Near (code ≠ 0) len «from» ∧ Uncut limits lowest (len - 1) value) := by
  intro len low high lowest
  have hlen := length_le hvalid
  constructor
  · rw [← computed_iff hlen hfrom, ← computed_iff hlen hto]
    refine and_congr_right fun hlow => and_congr_right fun hhigh => ?_
    exact f_range_of_computed hvalid hlow hhigh
  · rw [← computed_iff hlen hfrom]
    exact and_congr_right fun hlow => f_extract_range_of_computed hvalid hlow

/-- A part of an array that another one holds too, and the part of a string from its last byte but
one. -/
theorem ranges_of_an_array_and_a_string :
    (∃ result, f_range ⟨4, 100, 100⟩ 0x11 (appended one_string) (.T_NUMBER 1) (.T_NUMBER 1)
        (.T_ARRAY 2) = some result ∧
      IsRange (appended one_string) [.block 2] 1 1 (.T_ARRAY 2) result) ∧
    ∃ result, f_extract_range ⟨4, 100, 100⟩ 1 start (.T_NUMBER 2) (.T_STRING [97, 98, 99]) =
        some result ∧
      IsRange start [] 1 2 (.T_STRING [97, 98, 99]) result := by
  have hready := ready_appended one_string rfl rfl rfl rfl (.inl ⟨rfl, rfl⟩)
  have hvalid : Valid ⟨4, 100, 100⟩ (appended one_string) [.block 2] (.T_ARRAY 2) :=
    ⟨hready, { new_array 2 with ref := 2, item := [.number 5, .block 3] }, rfl, rfl, rfl⟩
  have hone : IsInt 1 := ⟨by decide, by decide⟩
  have htwo : IsInt 2 := ⟨by decide, by decide⟩
  constructor
  · exact ((@ranges_are_right_iff _ _ _ 0x11 _ _ _ hvalid hone hone).1.mpr
      ⟨fun _ => by decide, fun _ => by decide, trivial⟩).2.2
  · have hstring : Valid ⟨4, 100, 100⟩ start [] (.T_STRING [97, 98, 99]) := by
      change 3 ≤ 2147483647
      decide
    refine ((@ranges_are_right_iff _ start _ 1 _ _ _ hstring htwo htwo).2.mpr
      ⟨fun _ => by decide, fun _ _ => ?_⟩).2
    decide

/-- An index that is too far before the start is taken as one that is behind the end. -/
theorem a_far_index_overflows :
    (f_range ⟨4, 100, 100⟩ 0x01 start (.T_NUMBER 0) (.T_NUMBER (-2147483647))
        (.T_STRING [97, 98])) = some (start, .ok (.T_STRING [])) ∧
      ¬ Computed true 2 (-2147483647) ∧
      between 0 (position true 2 (-2147483647)) [(97 : UInt8), 98] = [97, 98] := by
  refine ⟨rfl, ?_, rfl⟩
  unfold Computed
  decide

end mudos.ranges
