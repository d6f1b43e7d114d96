-- The bit strings: six bits in each character, above a blank.
import MudOS.Library.Ints
import Mathlib.Data.BitVec

namespace mudos.bit_strings

open ints

inductive error_t
  | maximum_bits
  | Bad_argument_2
  | Illegal_bit_pattern
  | outside
deriving DecidableEq

/-- The value of a `char`. -/
def char_value (c : UInt8) : Int := c.toBitVec.toInt

/-- `c - ' '`, an `int`. -/
def value (c : UInt8) : BitVec 32 := c.toBitVec.signExtend 32 - 32#32

/-- `value + ' '`, stored as a `char`. -/
def of_value (value : BitVec 32) : UInt8 := UInt8.ofBitVec ((value + 32#32).setWidth 8)

/-- `str[ind] > 0x3f + ' ' || str[ind] < ' '` -/
def illegal (c : UInt8) : Bool := char_value c > 0x3f + 32 || char_value c < 32

def f_set_bit (MAX_BITS : Int) (string : List UInt8) (number : Int) :
    Except error_t (List UInt8) :=
  if number > MAX_BITS then .error .maximum_bits
  else if number < 0 then .error .Bad_argument_2
  else
    let ind := (number / 6).toNat
    let bit := (number % 6).toNat
    let str := if ind < string.length then string
      else string ++ List.replicate (ind + 1 - string.length) 32
    match str[ind]? with
    | none => .error .outside
    | some c =>
      if illegal c then .error .Illegal_bit_pattern
      else .ok (str.set ind (of_value (value c ||| (1#32 <<< bit))))

def f_clear_bit (MAX_BITS : Int) (string : List UInt8) (number : Int) :
    Except error_t (List UInt8) :=
  if number > MAX_BITS then .error .maximum_bits
  else if number < 0 then .error .Bad_argument_2
  else
    let ind := (number / 6).toNat
    let bit := (number % 6).toNat
    if ind ≥ string.length then .ok string         -- return first arg unmodified
    else
      match string[ind]? with
      | none => .error .outside
      | some c =>
        if illegal c then .error .Illegal_bit_pattern
        else .ok (string.set ind (of_value (value c &&& ~~~(1#32 <<< bit))))

/-- `SVALUE_STRLEN` is a `size_t`: a negative number is not less. -/
def f_test_bit (string : List UInt8) (ind : Int) : Except error_t Int :=
  if ind.tdiv 6 < 0 ∨ ind.tdiv 6 ≥ string.length then .ok 0
  else if ind < 0 then .error .Bad_argument_2
  else
    match string[(ind / 6).toNat]? with
    | none => .error .outside
    | some c => if value c &&& (1#32 <<< (ind % 6).toNat) ≠ 0 then .ok 1 else .ok 0

/-- The least of the six bits of a value, and nothing if there is none. -/
def lowest (value : BitVec 32) (which : Nat) : Option Int :=
  if value ≠ 0 then
    if value &&& 0x07 ≠ 0 then
      if value &&& 0x01 ≠ 0 then some (which * 6)
      else if value &&& 0x02 ≠ 0 then some (which * 6 + 1)
      else some (which * 6 + 2)
    else if value &&& 0x38 ≠ 0 then
      if value &&& 0x08 ≠ 0 then some (which * 6 + 3)
      else if value &&& 0x10 ≠ 0 then some (which * 6 + 4)
      else some (which * 6 + 5)
    else none
  else none

/-- `while (1)`, with the characters behind `which`. -/
def next_loop (v : BitVec 32) (which : Nat) : List UInt8 → Int
  | [] => (lowest v which).getD (-1)
  | c :: rest =>
    match lowest v which with
    | some bit => bit
    | none => next_loop (value c) (which + 1) rest

/-- The character at a place of the string or its NUL. -/
def char_at (string : List UInt8) (i : Nat) : UInt8 := (string[i]?).getD 0

def f_next_bit (string : List UInt8) (start : Int) : Int :=
  if string.length = 0 ∨ start.tdiv 6 ≥ string.length then -1
  -- Find the next bit AFTER start
  else if start > 0 then
    if start % 6 = 5 then
      let which := (start / 6).toNat + 1
      int32 (next_loop (value (char_at string which)) which (string.drop (which + 1)))
    else
      -- we have a partial byte to check
      let which := (start / 6).toNat
      let bit := 0x3f#32 - ((1#32 <<< ((start % 6).toNat + 1)) - 1)
      int32 (next_loop (value (char_at string which) &&& bit) which (string.drop (which + 1)))
  else int32 (next_loop (value (char_at string 0)) 0 (string.drop 1))

end mudos.bit_strings
