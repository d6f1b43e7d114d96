-- The efun `sort_array` (`f_sort_array` of `array.c`) with its sort (`qSort` of `qsort.c`), and
-- LPC code as far as it calls `sort_array`, raises errors and catches them.
import MudOS.Library.Shuffles

open mudos.shuffles

namespace mudos.sort_array

/-- Why a part of the program does not come to its end. -/
inductive fault
  | raised (message : String)
  /-- A comparison was asked of `sort_array_ftc` while it told another place than the
  `function_to_call_t` of the sort that asks. -/
  | lost
  /-- The array was used outside of its bounds. -/
  | outside
  | endless
deriving DecidableEq

/-- What a part of the program comes to, and the state after it. -/
abbrev ended (σ β : Type) := Except fault β × σ

def followed {σ β γ : Type} (r : ended σ β) (k : β → σ → ended σ γ) : ended σ γ :=
  match r with
  | (.error e, s) => (.error e, s)
  | (.ok b, s) => k b s

/-! ## The sort -/

section qsort

variable {α σ : Type}

def doSwap (v : List α) (one two : Nat) (s : σ) : ended σ (List α) :=
  match v[one]?, v[two]? with
  | some a, some b => (.ok (swapped v one two a b), s)
  | _, _ => (.error .outside, s)

/-- The loop of `qSort`, with `n` rounds to go. -/
def qSort_loop (compar : α → α → σ → ended σ Int) (left : Nat) :
    (n i last : Nat) → List α → σ → ended σ (List α × Nat)
  | 0, _, last, v, s => (.ok (v, last), s)
  | n + 1, i, last, v, s =>
    match v[i]?, v[left]? with
    | some a, some b =>
      followed (compar a b s) fun c s =>
        if c < 0 then
          followed (doSwap v (last + 1) i s) fun v s =>
            qSort_loop compar left n (i + 1) (last + 1) v s
        else qSort_loop compar left n (i + 1) last v s
    | _, _ => (.error .outside, s)

def qSort (compar : α → α → σ → ended σ Int) :
    (fuel : Nat) → List α → (left right rightmost : Int) → σ → ended σ (List α)
  | 0, _, _, _, _, s => (.error .endless, s)
  | fuel + 1, v, left, right, rightmost, s =>
    if left ≥ right ∨ left < 0 ∨ right > rightmost ∨ right < 0 then (.ok v, s)
    else
      followed (doSwap v left.toNat ((left + right) / 2).toNat s) fun v s =>
      followed (qSort_loop compar left.toNat (right - left).toNat (left.toNat + 1) left.toNat v s)
        fun (v, last) s =>
      followed (doSwap v left.toNat last s) fun v s =>
      followed (qSort compar fuel v left (last - 1) rightmost s) fun v s =>
      qSort compar fuel v (last + 1) right rightmost s

def quickSort (compar : α → α → σ → ended σ Int) (a : List α) (s : σ) : ended σ (List α) :=
  if a.length < 2 then (.ok a, s)
  else qSort compar (a.length + 1) a 0 (a.length - 1) (a.length - 1) s

end qsort

/-! ## Values -/

/-- A value, over the kind of the reals. Strings are the characters before the zero byte, and
objects, arrays and values of the other types tell where they are. -/
inductive svalue_t (R : Type)
  | number (n : Int)
  | string (s : List Nat)
  | real (x : R)
  | object (ob : Nat)
  | array (arr : Nat)
  | other (p : Nat)
deriving DecidableEq

structure data (R : Type) where
  arrays : List (List (svalue_t R))
  destructed : List Nat

variable {R : Type}

def data.item (d : data R) (arr : Nat) : List (svalue_t R) := (d.arrays[arr]?).getD []

def live (destructed : List Nat) : svalue_t R → svalue_t R
  | .object ob => if ob ∈ destructed then .number 0 else .object ob
  | v => v

def check_for_destr (d : data R) (v : Nat) : data R :=
  { d with arrays := d.arrays.modify v fun item => item.map (live d.destructed) }

def data.push_array (d : data R) (item : List (svalue_t R)) : data R :=
  { d with arrays := d.arrays ++ [item] }

/-! ## The built-in comparisons -/

section builtin

variable (less : R → R → Bool)

def strcmp : List Nat → List Nat → Int
  | [], [] => 0
  | [], _ :: _ => -1
  | _ :: _, [] => 1
  | x :: s, y :: t => if x < y then -1 else if x > y then 1 else strcmp s t

def COMPARE_NUMS {β : Type} (lt : β → β → Bool) (x y : β) : Int :=
  if lt x y then -1 else if lt y x then 1 else 0

/-- The values that an array of arrays is sorted by. -/
def compare_firsts : svalue_t R → svalue_t R → Except fault Int
  | .string s, .string t => .ok (strcmp s t)
  | .number m, .number n => .ok (COMPARE_NUMS (fun x y => decide (x < y)) m n)
  | .real x, .real y => .ok (COMPARE_NUMS less x y)
  | _, _ => .error (.raised ("sort_array() cannot handle arrays of arrays whose 1st elems\n" ++
      "aren't strings/ints/floats\n"))

/-- The types are different bits, so that the or of two is one of them only for two values of one
type. -/
def builtin_sort_array_cmp_fwd (d : data R) : svalue_t R → svalue_t R → Except fault Int
  | .string s, .string t => .ok (strcmp s t)
  | .number m, .number n => .ok (COMPARE_NUMS (fun x y => decide (x < y)) m n)
  | .real x, .real y => .ok (COMPARE_NUMS less x y)
  | .array v1, .array v2 =>
    match d.item v1, d.item v2 with
    | a :: _, b :: _ => compare_firsts less a b
    | _, _ => .error (.raised "Illegal to have empty array in array for sort_array()\n")
  | _, _ => .error (.raised ("built-in sort_array() can only handle homogeneous arrays of " ++
      "strings/ints/floats/arrays\n"))

/-- The same switch with the two values exchanged. -/
def builtin_sort_array_cmp_rev (d : data R) (p1 p2 : svalue_t R) : Except fault Int :=
  builtin_sort_array_cmp_fwd less d p2 p1

end builtin

/-! ## The efun -/

/-- `sort_array_ftc` tells the place of a `function_to_call_t` on the C stack: that of a sort below
which `n` others are under way is `n`. `left` notes for each sort with a callback that has been
left, by its end or by an error, its place and what `sort_array_ftc` tells then. -/
structure machine (R : Type) where
  data : data R
  sort_array_ftc : Option Nat
  left : List (Nat × Option Nat)

/-- The second argument of `sort_array`, with what `process_efun_callback` finds wrong with it and
what calling it does. -/
inductive argument (R σ : Type)
  | number (dir : Int)
  | callback (process_efun_callback : data R → Option String)
      (call : svalue_t R → svalue_t R → σ → ended σ (Option (svalue_t R)))

/-- What is made of the value that a callback returns. -/
def returned : Option (svalue_t R) → Int
  | some (.number n) => n
  | _ => 0

def sort_array_cmp
    (call : svalue_t R → svalue_t R → machine R → ended (machine R) (Option (svalue_t R)))
    (ftc : Nat) (p1 p2 : svalue_t R) (m : machine R) : ended (machine R) Int :=
  if m.sort_array_ftc ≠ some ftc then (.error .lost, m)
  else followed (call p1 p2 m) fun d m => (.ok (returned d), m)

/-- The sort whose `function_to_call_t` is at the place `ftc` has been left. -/
def note_left {β : Type} (ftc : Nat) (r : ended (machine R) β) : ended (machine R) β :=
  (r.1, { r.2 with left := r.2.left ++ [(ftc, r.2.sort_array_ftc)] })

def push_array (item : List (svalue_t R)) (m : machine R) : ended (machine R) Nat :=
  (.ok m.data.arrays.length, { m with data := m.data.push_array item })

def f_sort_array (less : R → R → Bool) (tmp : Nat) (arg : argument R (machine R)) (ftc : Nat)
    (m : machine R) : ended (machine R) Nat :=
  let m := { m with data := check_for_destr m.data tmp }
  -- `copy_array`
  let copy := m.data.item tmp
  match arg with
  | .number dir =>
    let cmp := if dir < 0 then builtin_sort_array_cmp_rev less m.data
      else builtin_sort_array_cmp_fwd less m.data
    followed (quickSort (fun p1 p2 m => (cmp p1 p2, m)) copy m) push_array
  | .callback process_efun_callback call =>
    let old_ptr := m.sort_array_ftc
    let m := { m with sort_array_ftc := some ftc }
    note_left ftc <|
      match process_efun_callback m.data with
      | some message => (.error (.raised message), m)
      | none =>
        followed (quickSort (sort_array_cmp call ftc) copy m) fun tmp m =>
          push_array tmp { m with sort_array_ftc := old_ptr }

/-! ## LPC code -/

inductive code (R : Type)
  | done (v : Option (svalue_t R))
  | error (message : String)
  /-- Data are changed in any way, and the code that follows depends on them. -/
  | act (f : data R → data R) (k : data R → code R)
  /-- `catch()`, which gives the message of the error -/
  | caught (body : code R) (k : Option String → code R)
  /-- `sort_array()` of an array, in a direction -/
  | sort (arr : Nat) (dir : Int) (k : Nat → code R)
  /-- `sort_array()` of an array, with a callback -/
  | sort_by (arr : Nat) (process_efun_callback : data R → Option String)
      (callback : svalue_t R → svalue_t R → code R) (k : Nat → code R)

/-- Running code while `n` sorts with a callback are under way. -/
def exec (less : R → R → Bool) :
    code R → (n : Nat) → machine R → ended (machine R) (Option (svalue_t R))
  | .done v, _, m => (.ok v, m)
  | .error message, _, m => (.error (.raised message), m)
  | .act f k, n, m => exec less (k (f m.data)) n { m with data := f m.data }
  | .caught body k, n, m =>
    match exec less body n m with
    | (.ok _, m) => exec less (k none) n m
    | (.error (.raised message), m) => exec less (k (some message)) n m
    | (.error e, m) => (.error e, m)
  | .sort arr dir k, n, m =>
    followed (f_sort_array less arr (.number dir) n m) fun r m => exec less (k r) n m
  | .sort_by arr process_efun_callback callback k, n, m =>
    followed (f_sort_array less arr
        (.callback process_efun_callback fun p1 p2 m => exec less (callback p1 p2) (n + 1) m) n m)
      fun r m => exec less (k r) n m

end mudos.sort_array
