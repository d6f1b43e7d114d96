-- Objects by their names: `strip_name` makes one name of a path, and what is
-- loaded or cloned is entered under its name into a hash table of chains.
import MudOS.SharedStrings

namespace mudos.object_names

abbrev slash : UInt8 := 47

abbrev MAX_OBJECT_NAME_SIZE : Nat := 2048

/-- The size of `name` and of `real_name` in `int_load_object`. -/
abbrev name_size : Nat := 200

/-! ## `strip_name` -/

/-- `while (*src && p < end)`, with the room up to `end` and the last character. -/
def copy_name : Nat → UInt8 → List UInt8 → Option (List UInt8)
  | 0, _, _ => some []
  | _, _, [] => some []
  | room + 1, last_c, c :: src =>
    if last_c = slash ∧ c = slash then none else (copy_name room c src).map (c :: ·)

/-- The suffixes `.c` are cut off, on the characters in reverse, as long as more than two
characters are left. -/
def strip_suffix : List UInt8 → List UInt8
  | 99 :: 46 :: c :: rest => strip_suffix (c :: rest)
  | name => name

def strip_name (src : List UInt8) (size : Nat) : Option (List UInt8) :=
  (copy_name (size - 1) 0 (src.dropWhile (· = slash))).map fun dest =>
    (strip_suffix dest.reverse).reverse

/-- `check_name`: two slashes in a row are refused. -/
def check_name (src : List UInt8) : Option (List UInt8) :=
  let src := src.dropWhile (· = slash)
  if src.zip (src.drop 1) |>.any fun (a, b) => a = slash && b = slash then none else some src

/-! ## The objects -/

structure object_t where
  name : List UInt8
  O_DESTRUCTED : Bool
  O_CLONE : Bool
  O_VIRTUAL : Bool

/-- Code that waits while code of the mudlib runs. -/
inductive frame
  /-- `int_load_object` for `compile_object`. -/
  | compile_object (name : List UInt8)
  /-- `clone_object` for `compile_object`. -/
  | clone_virtual (str : List UInt8)
  /-- `int_load_object` for the compiler, which calls functions of the master object. -/
  | compile_file (name : List UInt8)
  /-- `int_load_object` for the object that is inherited. -/
  | inherit (name : List UInt8)
  /-- `int_load_object` for `valid_object`. -/
  | valid_object (ob : Nat)
deriving DecidableEq

/-- The driver, with the names that `int_load_object` has used for its arguments, and whether
a byte has been stored past the end of a buffer. -/
structure driver where
  objects : Nat → Option object_t
  obj_table : Nat → List Nat
  clones : Nat
  frames : List frame
  loads : List (List UInt8 × Option (List UInt8))
  overrun : Bool

variable (otable_size_minus_one : Nat)

def ObjHash (s : List UInt8) : Nat := shared_strings.whashstr s 40 &&& otable_size_minus_one

def name (s : driver) (ob : Nat) : Option (List UInt8) := (s.objects ob).map object_t.name

def live (s : driver) (ob : Nat) : Bool := (s.objects ob).any fun o => !o.O_DESTRUCTED

/-! ## The table -/

/-- The object with the name, which moves to the head of its chain. -/
def find_obj_n (str : List UInt8) (s : driver) : Option Nat × driver :=
  let h := ObjHash otable_size_minus_one str
  match (s.obj_table h).find? fun ob => name s ob = some str with
  | none => (none, s)
  | some curr =>
    (some curr, { s with
      obj_table := Function.update s.obj_table h (curr :: (s.obj_table h).erase curr) })

def set_chain (h : Nat) (chain : List Nat) (s : driver) : driver :=
  { s with obj_table := Function.update s.obj_table h chain }

def enter_object_hash (ob : Nat) (s : driver) : driver :=
  let str := (name s ob).getD []
  let h := ObjHash otable_size_minus_one str
  let s := (find_obj_n otable_size_minus_one str s).2
  set_chain h (ob :: s.obj_table h) s

/-- `obj_table[h] = ob->next_hash` -/
def remove_object_hash (ob : Nat) (s : driver) : driver :=
  let str := (name s ob).getD []
  let h := ObjHash otable_size_minus_one str
  let s := (find_obj_n otable_size_minus_one str s).2
  set_chain h ((s.obj_table h).dropWhile (· ≠ ob)).tail s

/-! ## Loading -/

/-- How the part of `int_load_object` ends that runs no code of the mudlib: there is no file,
or an error is thrown, or there is a program for the new object, or the compiler calls the
master object, or the program inherits one that is not loaded. -/
inductive outcome
  | missing
  | fails
  | compiled (ob : Nat)
  | calls
  | inherits (inherit_file : List UInt8) (next : outcome)
deriving DecidableEq

def push (f : frame) (s : driver) : driver := { s with frames := f :: s.frames }

def set_object (ob : Nat) (o : object_t) (s : driver) : driver :=
  { s with objects := Function.update s.objects ob (some o) }

/-- The new object is entered, and the master object is asked. -/
def new_object (ob : Nat) (str : List UInt8) (s : driver) : driver :=
  if (s.objects ob).isSome then s
  else
    push (.valid_object ob)
      (enter_object_hash otable_size_minus_one ob
        (set_object ob ⟨str, false, false, false⟩ s))

def is_compiling (s : driver) : Bool :=
  s.frames.any fun f => match f with
    | .compile_file _ => true
    | _ => false

/-- `strcpy(inhbuf, inherit_file)`, where the name is refused. -/
def copy_inherit_file (inherit_file : List UInt8) (s : driver) : driver :=
  { s with overrun := s.overrun || MAX_OBJECT_NAME_SIZE ≤ inherit_file.length }

/-- The name for the argument is noted, and `.c` is appended to it in `real_name`. -/
def note_load (lname : List UInt8) (s : driver) : driver :=
  let str := strip_name lname name_size
  { s with
    loads := s.loads ++ [(lname, str)]
    overrun := s.overrun || str.any fun str => name_size < str.length + 3 }

/-- The program inherits one that is to be loaded first. Where that one is loaded, the compiler
does not stop. -/
def load_inherited (load : List UInt8 → driver → driver) (str inherit_file : List UInt8)
    (s : driver) : driver :=
  match strip_name inherit_file MAX_OBJECT_NAME_SIZE with
  | none => copy_inherit_file inherit_file s
  | some inhbuf =>
    if inhbuf = str then s
    else
      match find_obj_n otable_size_minus_one inhbuf s with
      | (some _, s) => s
      | (none, s) => load inhbuf (push (.inherit str) s)

/-- `int_load_object` as far as it runs without the mudlib. -/
def int_load_object (lname : List UInt8) : outcome → driver → driver
  | o, s =>
    let s := note_load lname s
    match strip_name lname name_size with
    | none => s
    | some str =>
      match o with
      | .missing => push (.compile_object str) s
      | .fails => s
      | .compiled ob => new_object otable_size_minus_one ob str s
      | .calls => if is_compiling s then s else push (.compile_file str) s
      | .inherits inherit_file next =>
        load_inherited otable_size_minus_one (fun inhbuf s => int_load_object inhbuf next s) str
          inherit_file s

/-- `find_object`. -/
def find_object (str : List UInt8) (o : outcome) (s : driver) : driver :=
  match strip_name str MAX_OBJECT_NAME_SIZE with
  | none => s
  | some tmpbuf =>
    match find_obj_n otable_size_minus_one tmpbuf s with
    | (some _, s) => s
    | (none, s) => int_load_object otable_size_minus_one tmpbuf o s

/-- `find_object2` -/
def find_object2 (str : List UInt8) (s : driver) : Option Nat × driver :=
  match strip_name str MAX_OBJECT_NAME_SIZE with
  | none => (none, s)
  | some p => find_obj_n otable_size_minus_one p s

/-- From the return of the compiler on, when it has called the mudlib. -/
def compile_returns (str : List UInt8) (o : outcome) (s : driver) : driver :=
  match o with
  | .compiled ob => new_object otable_size_minus_one ob str s
  | .inherits inherit_file next =>
    load_inherited otable_size_minus_one
      (fun inhbuf s => int_load_object otable_size_minus_one inhbuf next s) str inherit_file s
  | _ => s

def inherit_returns (str : List UInt8) (o : outcome) (s : driver) : driver :=
  match find_obj_n otable_size_minus_one str s with
  | (some _, s) => s
  | (none, s) => int_load_object otable_size_minus_one str o s

/-- The object gets another name, as a virtual one. -/
def rename (ob : Nat) (str : List UInt8) (s : driver) : driver :=
  let s := remove_object_hash otable_size_minus_one ob s
  enter_object_hash otable_size_minus_one ob
    { s with
      objects := Function.update s.objects ob
        ((s.objects ob).map fun o => { o with name := str, O_VIRTUAL := true }) }

/-! ## Cloning -/

/-- The characters of `#` and the number, and the space for them, with the final zero. -/
def make_new_name (str : List UInt8) (s : driver) : List UInt8 × driver :=
  let suffix := 35 :: (Nat.toDigits 10 s.clones).map fun c => UInt8.ofNat c.toNat
  (str ++ suffix, { s with
    clones := s.clones + 1
    overrun := s.overrun || str.length + 10 < (str ++ suffix).length + 1 })

def clone_virtual (ob : Nat) (str : List UInt8) (s : driver) : driver :=
  let (str, s) := make_new_name str s
  rename otable_size_minus_one ob str s

/-- `clone_object`, with the object that `find_object` has found for the text. A virtual object
that nobody uses is taken itself. -/
def clone_object (str1 : List UInt8) (ob new_ob : Nat) (unused : Bool) (s : driver) : driver :=
  match s.objects ob with
  | none => s
  | some o =>
    if o.O_CLONE then
      if !o.O_VIRTUAL || 35 ∈ str1 then s
      else
        match check_name str1 with
        | none => s
        | some str1 =>
          if unused then clone_virtual otable_size_minus_one ob str1 s
          else push (.clone_virtual str1) s
    else
      let (str, s) := make_new_name o.name s
      enter_object_hash otable_size_minus_one new_ob
        (set_object new_ob ⟨str, false, true, false⟩ s)

/-- The end of `destruct_object`, of an object that is not vital. -/
def destruct_object (ob : Nat) (s : driver) : driver :=
  if live s ob then
    let s := remove_object_hash otable_size_minus_one ob s
    { s with
      objects := Function.update s.objects ob
        ((s.objects ob).map fun o => { o with O_DESTRUCTED := true }) }
  else s

/-! ## Runs -/

/-- What code of the mudlib does, and how the code that waits goes on. -/
inductive action
  | find_object (str : List UInt8) (o : outcome)
  | find_object2 (str : List UInt8)
  | compile_returns (o : outcome)
  | inherit_returns (o : outcome)
  | compile_object_returns (ret : Option Nat)
  | valid_object_returns (approved : Bool)
  | clone_object (str1 : List UInt8) (ob new_ob : Nat) (unused : Bool)
  | destruct_object (ob : Nat)
  | error (n : Nat)
deriving DecidableEq

def step (s : driver) : action → Option driver
  | .find_object str o => some (find_object otable_size_minus_one str o s)
  | .find_object2 str => some (find_object2 otable_size_minus_one str s).2
  | .compile_returns o =>
    match s.frames with
    | .compile_file str :: rest =>
      some (compile_returns otable_size_minus_one str o { s with frames := rest })
    | _ => none
  | .inherit_returns o =>
    match s.frames with
    | .inherit str :: rest =>
      some (inherit_returns otable_size_minus_one str o { s with frames := rest })
    | _ => none
  | .compile_object_returns ret =>
    if ret.all (live s) then
      match s.frames, ret with
      | .compile_object _ :: rest, none => some { s with frames := rest }
      | .compile_object str :: rest, some ob =>
        some (rename otable_size_minus_one ob str { s with frames := rest })
      | .clone_virtual _ :: rest, none => some { s with frames := rest }
      | .clone_virtual str :: rest, some ob =>
        some (clone_virtual otable_size_minus_one ob str { s with frames := rest })
      | _, _ => none
    else none
  | .valid_object_returns approved =>
    match s.frames with
    | .valid_object ob :: rest =>
      if approved then some { s with frames := rest }
      else some (destruct_object otable_size_minus_one ob { s with frames := rest })
    | _ => none
  | .clone_object str1 ob new_ob unused =>
    if live s ob ∧ (s.objects new_ob).isNone then
      some (clone_object otable_size_minus_one str1 ob new_ob unused s)
    else none
  | .destruct_object ob => some (destruct_object otable_size_minus_one ob s)
  | .error n => some { s with frames := s.frames.drop n }

def start : driver where
  objects := fun _ => none
  obj_table := fun _ => []
  clones := 0
  frames := []
  loads := []
  overrun := false

end mudos.object_names
