-- `member_array`: the place of a value in an array, or of a character in a
-- string; and the `==` of the language.
import MudOS.StringSearch

namespace mudos.member_array

open places

/-! ## Values -/

/-- A string, with its subtype and the size that is stored with it. -/
structure string_t where
  chars : List UInt8
  STRING_COUNTED : Bool
  size : Nat
deriving DecidableEq

inductive type_t
  | T_ARRAY
  | T_MAPPING
  | T_FUNCTION
  | T_BUFFER
  | T_CLASS
deriving DecidableEq

inductive svalue_t (Ob P R : Type)
  | T_NUMBER (number : Int)
  | T_REAL (real : R)
  | T_STRING (string : string_t)
  | T_OBJECT (ob : Ob)
  | pointer (type : type_t) (u : P)

/-- The objects that are destructed, and the `==` of C for reals, and for a number and a real. -/
structure world_t (Ob R : Type) where
  O_DESTRUCTED : Ob → Bool
  real_eq : R → R → Bool
  number_real_eq : Int → R → Bool

variable {Ob P R : Type} [DecidableEq Ob] [DecidableEq P] (w : world_t Ob R)

def SVALUE_STRLEN_DIFFERS (x y : string_t) : Bool :=
  x.STRING_COUNTED && y.STRING_COUNTED && x.size != y.size

/-- The `==` of the language. -/
def f_eq : svalue_t Ob P R → svalue_t Ob P R → Bool
  | .T_NUMBER a, .T_NUMBER b => a = b
  | .T_REAL a, .T_REAL b => w.real_eq a b
  | .T_NUMBER a, .T_REAL b => w.number_real_eq a b
  | .T_REAL a, .T_NUMBER b => w.number_real_eq b a
  | .T_STRING a, .T_STRING b => !SVALUE_STRLEN_DIFFERS a b && a.chars = b.chars
  | .T_OBJECT a, .T_OBJECT b => a = b
  | .pointer t a, .pointer t' b => t = t' && t ≠ .T_CLASS && a = b
  | _, _ => false

/-! ## The search -/

/-- `flen`, which is 0 for a string without a stored size. -/
def flen (find : string_t) : Nat := if find.STRING_COUNTED then find.size else 0

/-- The `switch` of the loop, where a `break` finds the element. -/
def found : svalue_t Ob P R → svalue_t Ob P R → Bool
  | .T_STRING find, .T_STRING sv =>
    !(flen find ≠ 0 && sv.STRING_COUNTED && flen find != sv.size) && find.chars = sv.chars
  | .T_NUMBER find, .T_NUMBER sv => find = sv
  | .T_REAL find, .T_REAL sv => w.real_eq find sv
  | .T_OBJECT find, .T_OBJECT sv => !w.O_DESTRUCTED sv && find = sv
  | .pointer t find, .pointer t' sv => t = t' && t ≠ .T_CLASS && find = sv
  -- the default case
  | .T_NUMBER find, .T_OBJECT sv => w.O_DESTRUCTED sv && find = 0
  | _, _ => false

/-- `assign_svalue(sv, &const0)` for a destructed object. -/
def cleared : svalue_t Ob P R → svalue_t Ob P R
  | .T_OBJECT ob => if w.O_DESTRUCTED ob then .T_NUMBER 0 else .T_OBJECT ob
  | sv => sv

/-- `for (; i < size; i++)`: where the loop ends, and the elements as it leaves them. -/
def member_loop (find : svalue_t Ob P R) (i : Nat) :
    List (svalue_t Ob P R) → Nat × List (svalue_t Ob P R)
  | [] => (i, [])
  | sv :: item =>
    if found w find sv then (i, cleared w sv :: item)
    else
      let (j, item) := member_loop find (i + 1) item
      (j, cleared w sv :: item)

inductive argument_t (Ob P R : Type)
  | T_STRING (string : List UInt8)
  | T_ARRAY (item : List (svalue_t Ob P R))

inductive error_t
  | bad_arg_1
  | bad_arg_3
  | index_too_large
deriving DecidableEq

/-- The place of the character from the start on. The NUL is a character too. -/
def strchr_from (string : List UInt8) (i : Nat) (c : UInt8) : Option Nat :=
  if c = 0 then some string.length
  else (string_search.strchr c (string.drop i)).map (i + ·)

def f_member_array (find : svalue_t Ob P R) (v : argument_t Ob P R) (start : Option Int) :
    Except error_t (Int × argument_t Ob P R) :=
  let i := start.getD 0
  if i < 0 then .error .bad_arg_3
  else
    match v with
    | .T_STRING string =>
      match find with
      | .T_NUMBER number =>
        if i > string.length then .error .index_too_large
        else .ok (offset (strchr_from string i.toNat (string_search.to_char number)), v)
      | _ => .error .bad_arg_1
    | .T_ARRAY item =>
      let size := item.length
      let (j, rest) := member_loop w find i.toNat (item.drop i.toNat)
      let v := argument_t.T_ARRAY (item.take i.toNat ++ rest)
      if j = size then .ok (-1, v) else .ok ((j : Int), v)

end mudos.member_array
