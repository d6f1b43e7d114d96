-- `legal_path` and `check_valid_path` of `file.c`, by which every file efun gets the path it
-- opens, as they are compiled without `WIN32`, `AMIGA` and `LATTICE`.
import MudOS.Library.Paths

open mudos.paths

namespace mudos.file_paths

/-- The characters of a string before its end. A pointer into a string is what is left of it. -/
abbrev text_t := List UInt8

def slash : UInt8 := 47

def dot : UInt8 := 46

def number_sign : UInt8 := 35

/-! ## legal_path -/

/-- The two loops of `_strstr`, where `find` is what follows its first character `c`. -/
def search (c : UInt8) (find : text_t) : text_t → Option text_t
  | [] => none
  | sc :: s => if sc = c ∧ s.take find.length = find then some (sc :: s) else search c find s

def _strstr (s find : text_t) : Option text_t :=
  match find with
  | [] => some s
  | c :: find => search c find s

inductive component_t
  | trailing_dot
  | refused
  | passed (p : text_t)

/-- What the loop does at the beginning of a component. -/
def check_component (p : text_t) : component_t :=
  if p[0]? = some dot then
    if p[1]? = none then .trailing_dot
    else
      let p := if p[1]? = some dot then p.drop 1 else p
      if p[1]? = some slash ∨ p[1]? = none then .refused else .passed p
  else .passed p

theorem check_component_length {p q : text_t} (h : check_component p = .passed q) :
    q.length ≤ p.length := by
  simp only [check_component] at h
  split_ifs at h <;> cases h <;> simp

theorem search_length {c : UInt8} {find s q : text_t} (h : search c find s = some q) :
    q ≠ [] ∧ q.length ≤ s.length := by
  induction s with
  | nil => cases h
  | cons sc s ih =>
    unfold search at h
    split_ifs at h
    · cases h
      simp
    · have := ih h
      simp only [List.length_cons]
      exact ⟨this.1, by omega⟩

/-- The loop over the components, where `p` is at the beginning of one. -/
def legal_from (p : text_t) : Bool :=
  match _hp : check_component p with
  | .trailing_dot => true
  | .refused => false
  | .passed q =>
    match _hq : _strstr q [slash, dot] with
    | none => true
    | some r => legal_from (r.drop 1)
termination_by p.length
decreasing_by
  have h1 := check_component_length _hp
  have h2 := search_length _hq
  have h3 := List.length_pos_iff.2 h2.1
  simp only [List.length_drop]
  omega

def legal_path : Option text_t → Bool
  | none => false
  | some path =>
    if path[0]? = some slash then false
    else if number_sign ∈ path then false
    else legal_from path

/-! ## check_valid_path -/

/-- What `apply_master_ob` returns: -1 where there is no master object, 0 where it has no such
function, otherwise the value that the function returned. -/
inductive answer_t
  | no_master
  | no_function
  | number (n : Int)
  | string (path : text_t)
  | other

inductive apply_t
  | APPLY_VALID_WRITE
  | APPLY_VALID_READ

structure object_t where
  name : text_t
  destructed : Bool

def string_copy (max_string_length : Nat) (str : text_t) : text_t := str.take max_string_length

/-- The path that is looked at, if the answer lets any through. -/
def path_of_answer (max_string_length : Nat) (path : text_t) : answer_t → Option text_t
  | .number n => if n = 0 then none else some (string_copy max_string_length path)
  | .string path => some path
  | _ => some (string_copy max_string_length path)

/-- One slash in front is not part of the path, and the empty path is the directory. -/
def without_slash (path : text_t) : text_t :=
  let path := if path[0]? = some slash then path.drop 1 else path
  if path[0]? = none then [dot] else path

def check_valid_path (max_string_length : Nat)
    (apply_master_ob : apply_t → text_t → object_t → text_t → answer_t)
    (path : text_t) (call_object : Option object_t) (call_fun : text_t) (writeflg : Bool) :
    Option text_t :=
  match call_object with
  | none => none
  | some call_object =>
    if call_object.destructed then none
    else
      let fun_ := if writeflg then apply_t.APPLY_VALID_WRITE else apply_t.APPLY_VALID_READ
      let v := apply_master_ob fun_ (string_copy max_string_length path) call_object call_fun
      match path_of_answer max_string_length path v with
      | none => none
      | some path =>
        let path := without_slash path
        if legal_path (some path) then some path else none

/-! ## What the paths are for -/

/-- A path that names a file below the directory where it begins, and has no number sign. -/
structure Sandboxed (path : text_t) : Prop where
  relative : Relative slash path
  plain : Plain dot (components slash path)
  no_number_sign : number_sign ∉ path

/-- The path that the master lets through: its own, or the one it was asked about. -/
def Approved (max_string_length : Nat)
    (apply_master_ob : apply_t → text_t → object_t → text_t → answer_t)
    (path : text_t) (call_object : Option object_t) (call_fun : text_t) (writeflg : Bool)
    (approved : text_t) : Prop :=
  ∃ ob, call_object = some ob ∧ ob.destructed = false ∧
    path_of_answer max_string_length path
      (apply_master_ob (if writeflg then .APPLY_VALID_WRITE else .APPLY_VALID_READ)
        (string_copy max_string_length path) ob call_fun) = some approved

end mudos.file_paths
