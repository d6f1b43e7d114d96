-- The numbers of `sprintf.c`: a format for the C library is put together in `cheat`, and the
-- library prints the number into `temp`.
import Mathlib.Data.Nat.Digits.Defs

namespace mudos.sprintf_numbers

/-! ## Numbers in the C library -/

inductive conversion_t
  | d
  | f
  | c
  | o
  | x
  | X
deriving DecidableEq

def conversion_t.char : conversion_t → UInt8
  | .d => 100
  | .f => 102
  | .c => 99
  | .o => 111
  | .x => 120
  | .X => 88

def conversion_t.base : conversion_t → Nat
  | .o => 8
  | .x | .X => 16
  | _ => 10

/-- The characters of some digits, the last of which is the first one of the list. -/
def numeral (upper : Bool) (l : List Nat) : List UInt8 :=
  (l.map fun n => .ofNat (if n < 10 then 48 + n else if upper then 55 + n else 87 + n)).reverse

/-- The digits of a number, or more of them with zeros in front. -/
def digits (base least n : Nat) : List Nat :=
  Nat.digits base n ++ List.replicate (least - (Nat.digits base n).length) 0

def decimal (n : Nat) : List UInt8 := numeral false (digits 10 1 n)

def sign (flag : List UInt8) (negative : Bool) : List UInt8 := if negative then [45] else flag

def negative (u : UInt32) : Bool := 2 ^ 31 ≤ u.toNat

def exponent (u : UInt32) : Nat := u.toNat / 2 ^ 23 % 2 ^ 8

def fraction (u : UInt32) : Nat := u.toNat % 2 ^ 23

/-- The value of a finite float without its sign, in units of `2 ^ -149`. -/
def units (u : UInt32) : Nat :=
  if exponent u = 0 then fraction u else (2 ^ 23 + fraction u) * 2 ^ (exponent u - 1)

/-- The decimal places of `%f`. -/
def places (pres : Int) : Nat := if pres = 0 then 6 else pres.toNat

/-- So many units with some decimal places: what is nearest, and between two the even one. -/
def rounded (places n : Nat) : Nat :=
  let q := n * 10 ^ places / 2 ^ 149
  let r := n * 10 ^ places % 2 ^ 149
  if 2 ^ 149 < 2 * r ∨ 2 * r = 2 ^ 149 ∧ q % 2 = 1 then q + 1 else q

def print_real (flag : List UInt8) (pres : Int) (u : UInt32) : List UInt8 :=
  sign flag (negative u) ++
    if exponent u = 255 then if fraction u = 0 then [105, 110, 102] else [110, 97, 110]
    else
      let l := digits 10 (places pres + 1) (rounded (places pres) (units u))
      numeral false (l.drop (places pres)) ++ 46 :: numeral false (l.take (places pres))

/-- An int without its sign, or the `unsigned int` that it is. -/
def unsigned (conv : conversion_t) (n : Int) : Nat :=
  if conv = .d then n.natAbs else (n % 2 ^ 32).toNat

def int_sign (flag : List UInt8) (conv : conversion_t) (n : Int) : List UInt8 :=
  if conv = .d then sign flag (n < 0) else []

def print_int (flag : List UInt8) (pres : Int) (n : Int) : conversion_t → List UInt8
  | .c => if n % 2 ^ 8 = 0 then [] else [.ofNat (n % 2 ^ 8).toNat]
  | conv => int_sign flag conv n ++
      numeral (conv = .X) (digits conv.base (max pres.toNat 1) (unsigned conv n))

inductive argument_t
  | T_NUMBER (n : Int)
  | T_REAL (u : UInt32)
  | other

/-- Nothing is printed of an argument of another type. -/
def c_sprintf (flag : List UInt8) (pres : Int) : conversion_t → argument_t → Option (List UInt8)
  | .f, .T_REAL u => some (print_real flag pres u)
  | .f, _ => none
  | conv, .T_NUMBER n => some (print_int flag pres n conv)
  | _, _ => none

/-! ## The two buffers -/

inductive error_t
  | ERR_PRES_EXPECTED
  | ERR_BAD_INT_TYPE
  | incorrect_argument (conv : conversion_t)
  | outside
deriving DecidableEq

abbrev Outcome (α : Type) := Except error_t α

/-- Some bytes are written behind the text in a local array. -/
def put (size : Nat) (text bytes : List UInt8) : Outcome (List UInt8) :=
  if text.length + bytes.length ≤ size then .ok (text ++ bytes) else .error .outside

/-- `finfo & INFO_PP` -/
def flag (finfo : UInt32) : List UInt8 :=
  if finfo &&& 0xC0 = 0x40 then [32] else if finfo &&& 0xC0 = 0x80 then [43] else []

/-- `finfo & INFO_T` -/
def conversion (finfo : UInt32) : Option conversion_t :=
  [((0x8 : UInt32), conversion_t.d), (0xD, .f), (0x9, .c), (0xA, .o), (0xB, .x), (0xC, .X)].lookup
    (finfo &&& 0xF)

def make_cheat (finfo : UInt32) (pres : Int) : Outcome (List UInt8 × conversion_t) := do
  let cheat ← put 8 [] [37]
  let cheat ← put 8 cheat (flag finfo)
  let cheat ←
    if pres ≠ 0 then do
      let cheat ← put 8 cheat [46]
      -- `sprintf` writes a NUL, which is written over
      let _ ← put 8 cheat (decimal pres.toNat ++ [0])
      put 8 cheat (decimal pres.toNat)
    else .ok cheat
  match conversion finfo with
  | none => .error .ERR_BAD_INT_TYPE
  | some conv => do
    let cheat ← put 8 cheat [conv.char]
    .ok (cheat, conv)

/-- A directive for a number, after its flags, width and precision have been read: what is in `temp`
when it goes to `add_justified`. -/
def print_number (finfo : UInt32) (pres : Int) (carg : argument_t) : Outcome (List UInt8) :=
  if pres < 0 then .error .ERR_PRES_EXPECTED
  else do
    let (cheat, conv) ← make_cheat finfo pres
    match c_sprintf (flag finfo) pres conv carg with
    | none => .error (.incorrect_argument conv)
    | some temp => do
      let _ ← put 8 cheat [0]
      let _ ← put 100 temp [0]
      .ok temp

/-! ## What a number should be printed as -/

def Writes (upper : Bool) (base : Nat) (text : List UInt8) (n : Nat) : Prop :=
  ∃ l : List Nat, text = numeral upper l ∧ (∀ d ∈ l, d < base) ∧ Nat.ofDigits base l = n

/-- The text of a number. For a real its digits are a number of the last place, which is half a
place from the value at most. -/
inductive Shown (flag : List UInt8) (pres : Int) : conversion_t → argument_t → List UInt8 → Prop
  | int {conv : conversion_t} {n : Int} {text : List UInt8} : conv ≠ .c → conv ≠ .f →
      Writes (conv = .X) conv.base text (unsigned conv n) → text ≠ [] →
      Shown flag pres conv (.T_NUMBER n) (int_sign flag conv n ++ text)
  | nul {n : Int} : n % 2 ^ 8 = 0 → Shown flag pres .c (.T_NUMBER n) []
  | c {n : Int} : n % 2 ^ 8 ≠ 0 → Shown flag pres .c (.T_NUMBER n) [.ofNat (n % 2 ^ 8).toNat]
  | f {u : UInt32} {whole part : List UInt8} {q : Nat} : exponent u ≠ 255 →
      Writes false 10 (whole ++ part) q → whole ≠ [] → part.length = places pres →
      2 * (q * 2 ^ 149) ≤ 2 * (units u * 10 ^ places pres) + 2 ^ 149 →
      2 * (units u * 10 ^ places pres) ≤ 2 * (q * 2 ^ 149) + 2 ^ 149 →
      Shown flag pres .f (.T_REAL u) (sign flag (negative u) ++ whole ++ 46 :: part)
  | inf {u : UInt32} : exponent u = 255 → fraction u = 0 →
      Shown flag pres .f (.T_REAL u) (sign flag (negative u) ++ [105, 110, 102])
  | nan {u : UInt32} : exponent u = 255 → fraction u ≠ 0 →
      Shown flag pres .f (.T_REAL u) (sign flag (negative u) ++ [110, 97, 110])

/-- Nothing is written outside of the buffers, and what comes out is the number. -/
def Right (finfo : UInt32) (pres : Int) (carg : argument_t) : Prop :=
  print_number finfo pres carg ≠ .error .outside ∧
    ∀ temp, print_number finfo pres carg = .ok temp →
      ∃ conv, conversion finfo = some conv ∧ Shown (flag finfo) pres conv carg temp

/-- The number of characters of a number: the digits that it has or that are asked for, and the sign
and the point. -/
def width (flag : List UInt8) (pres : Int) : conversion_t → argument_t → Option Nat
  | .f, .T_REAL u => some <| (sign flag (negative u)).length +
      if exponent u = 255 then 3
      else max (Nat.digits 10 (rounded (places pres) (units u))).length (places pres + 1) + 1
  | .f, _ => none
  | .c, .T_NUMBER n => some (if n % 2 ^ 8 = 0 then 0 else 1)
  | conv, .T_NUMBER n => some <| (int_sign flag conv n).length +
      max (Nat.digits conv.base (unsigned conv n)).length (max pres.toNat 1)
  | _, _ => none

/-- The flag and the precision have five characters at most. When the argument has the type of the
directive they have four, and the number has less than 100. -/
def Fits (finfo : UInt32) (pres : Int) (carg : argument_t) : Prop :=
  0 ≤ pres → (pres ≠ 0 → (flag finfo).length + (decimal pres.toNat).length ≤ 5) ∧
    ∀ conv, conversion finfo = some conv → ∀ n, width (flag finfo) pres conv carg = some n →
      (pres ≠ 0 → (flag finfo).length + (decimal pres.toNat).length ≤ 4) ∧ n < 100

end mudos.sprintf_numbers
