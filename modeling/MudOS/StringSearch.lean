-- `strsrch`: the search for a string in another one, from the left or from
-- the right. A string is the list of the characters before its NUL.
import MudOS.Library.Places
import Mathlib.Data.List.Basic

namespace mudos.string_search

open places

/-- What is searched for: a string, or a number that is a character. -/
inductive little_t
  | T_NUMBER (number : Int)
  | T_STRING (string : List UInt8)

/-- `(char) sp->u.number` -/
def to_char (number : Int) : UInt8 := UInt8.ofNat (number % 256).toNat

def little_t.chars : little_t → List UInt8
  | .T_NUMBER number => if to_char number = 0 then [] else [to_char number]
  | .T_STRING string => string

def strchr (c : UInt8) (big : List UInt8) : Option Nat := big.findIdx? (· = c)

def strrchr (c : UInt8) : List UInt8 → Option Nat
  | [] => none
  | d :: big =>
    match strrchr c big with
    | some i => some (i + 1)
    | none => if d = c then some 0 else none

/-- The loops of `_strstr`, from a place in `s` on; `find` is behind its first character. -/
def strstr (c : UInt8) (find : List UInt8) : List UInt8 → Nat → Option Nat
  | [], _ => none
  | sc :: s, place =>
    if sc = c ∧ find.isPrefixOf s then some place else strstr c find s (place + 1)

/-- The two loops from the right, which step `pos` alike. The first one ends before the first
character, and what stands there is not of the string: nothing is a read of it. -/
def strstr_back (c : UInt8) (find big : List UInt8) : Nat → Option Int
  | 0 =>
    if big[0]? = some c then
      if find.isPrefixOf (big.drop 1) then some 0 else some (-1)
    else none
  | pos + 1 =>
    if big[pos + 1]? = some c ∧ find.isPrefixOf (big.drop (pos + 2)) then some (pos + 1)
    else strstr_back c find big pos

def f_strsrch (big : List UInt8) (little : little_t) (flag : Int) : Option Int :=
  match little.chars with
  | [] => some (-1)
  | c :: find =>
    if big.length < find.length + 1 then some (-1)
    -- start at left
    else if flag = 0 then
      if find = [] then some (offset (strchr c big))
      else some (offset (strstr c find big 0))
    -- start at right
    else
      if find = [] then some (offset (strrchr c big))
      else strstr_back c find big (big.length - (find.length + 1))

end mudos.string_search
