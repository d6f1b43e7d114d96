-- The inherit lists of `array.c`: the programs that a program inherits, in a breadth-first walk
-- over a work list of fixed size.
import MudOS.Library.WorkLists

open mudos.work_lists

namespace mudos.inherit_lists

/-- A program tells the programs that it inherits. -/
inductive program_t
  | mk (name : List UInt8) (inherit : List program_t)

def program_t.name : program_t → List UInt8
  | .mk name _ => name

def program_t.inherit : program_t → List program_t
  | .mk _ inherit => inherit

/-- An `unsigned short`. -/
def program_t.num_inherited (prog : program_t) : Nat := prog.inherit.length % 65536

/-- The size of `plist`. -/
def PLIST_SIZE : Nat := 256

/-- `plist[next++] = prog`, or nothing when that is outside. -/
def put (plist : List program_t) (prog : program_t) : Option (List program_t) :=
  if plist.length < PLIST_SIZE then some (plist ++ [prog]) else none

/-- The loop over the inherited programs of one program. -/
def put_inherited (plist : List program_t) (pr : program_t) : Option (List program_t) :=
  (pr.inherit.take pr.num_inherited).foldlM put plist

/-- The loop over the work list, whose length is `next`; it ends within so many rounds as the list
has places. -/
def walk : (rounds : Nat) → (plist : List program_t) → (cur : Nat) → Option (List program_t)
  | 0, plist, _ => some plist
  | rounds + 1, plist, cur =>
    match plist[cur]? with
    | none => some plist
    | some pr =>
      if plist.length < PLIST_SIZE then
        (put_inherited plist pr).bind fun plist => walk rounds plist (cur + 1)
      else some plist

def add_slash (str : List UInt8) : List UInt8 := 47 :: str

def names (max_array_size : Int) (plist : List program_t) : Except String (List (List UInt8)) :=
  let next : Int := plist.length - 1
  if next < 0 ∨ max_array_size < next then .error "Illegal array size.\n"
  else .ok ((plist.drop 1).map fun pr => add_slash pr.name)

def deep_inherit_list (max_array_size : Int) (prog : program_t) :
    Option (Except String (List (List UInt8))) :=
  (walk PLIST_SIZE [prog] 0).map (names max_array_size)

def inherit_list (max_array_size : Int) (prog : program_t) :
    Option (Except String (List (List UInt8))) :=
  (put_inherited [prog] prog).map (names max_array_size)

/-! ## What is inherited -/

mutual

def program_t.height : program_t → Nat
  | .mk _ inherit => heights inherit

def heights : List program_t → Nat
  | [] => 0
  | prog :: rest => max (prog.height + 1) (heights rest)

end

/-- The programs that a program inherits, then those that these inherit, and so on. -/
def inherited (prog : program_t) : List program_t :=
  levels program_t.inherit prog.height prog.inherit

end mudos.inherit_lists
