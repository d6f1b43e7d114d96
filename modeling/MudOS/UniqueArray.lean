-- `f_unique_array` of `array.c`: the elements of an array are put into groups by what a
-- callback returns for them. The groups are collected in a temporary list on `g_u_list`, which
-- the function frees itself, or an error handler on the stack when the callback raises an error.
import Mathlib.Data.Multiset.AddSub

namespace mudos.unique_array

/-! ## Values -/

/-- `sameval`. A real that is no number is not the same as itself. -/
structure sameval_t (K : Type) where
  same : K → K → Bool
  symm : ∀ a b, same a b = true → same b a = true
  trans : ∀ a b c, same a b = true → same b c = true → same a c = true

/-- The arrays, and all the rest that LPC code reads and changes. -/
structure data_t (σ V : Type) where
  arrays : List (List V)
  rest : σ

variable {σ V K : Type}

def data_t.item (d : data_t σ V) (arr : Nat) : List V := (d.arrays[arr]?).getD []

def KeepsSizes (d d' : data_t σ V) : Prop :=
  ∀ (arr : Nat) item, d.arrays[arr]? = some item →
    ∃ item', d'.arrays[arr]? = some item' ∧ item'.length = item.length

/-- Arrays come, and elements and all the rest change in any way. An array that the stack holds
is never resized: the others that use it get a new one. -/
structure change_t (σ V : Type) where
  run : data_t σ V → data_t σ V
  keeps : ∀ d, KeepsSizes d (run d)

/-! ## Memory -/

/-- The blocks that are allocated; an address is never given again. -/
structure memory_t where
  live : Multiset Nat
  next : Nat

def ALLOCATE (mem : memory_t) : Nat × memory_t :=
  (mem.next, ⟨mem.next ::ₘ mem.live, mem.next + 1⟩)

/-- A block that is not allocated cannot be freed. -/
def FREE (mem : memory_t) (p : Nat) : Option memory_t :=
  if p ∈ mem.live then some { mem with live := mem.live.erase p } else none

def RESIZE (mem : memory_t) (p : Nat) : Option (Nat × memory_t) := (FREE mem p).map ALLOCATE

/-! ## The temporary lists -/

/-- The block of `indices` is at `ind`. -/
structure unique_t (K : Type) where
  address : Nat
  mark : K
  ind : Nat
  indices : List Nat

structure unique_list_t (K : Type) where
  address : Nat
  head : List (unique_t K)

inductive stack_t
  | value
  | error_handler
deriving DecidableEq

structure machine_t (σ V K : Type) where
  data : data_t σ V
  stack : List stack_t
  g_u_list : List (unique_list_t K)
  mem : memory_t

inductive fault_t
  | raised (message : String)
  /-- Memory is used that is not there. -/
  | wild

abbrev ended_t (σ V K α : Type) := Except fault_t α × machine_t σ V K

def free_uniques : List (unique_t K) → memory_t → Option memory_t
  | [], mem => some mem
  | uptr :: head, mem => do
    let mem ← FREE mem uptr.ind
    let mem ← FREE mem uptr.address
    free_uniques head mem

def unique_array_error_handler (m : machine_t σ V K) : Option (machine_t σ V K) :=
  match m.g_u_list with
  | [] => none
  | unlist :: g_u_list => do
    let mem ← free_uniques unlist.head m.mem
    let mem ← FREE mem unlist.address
    some { m with g_u_list, mem }

/-- The stack is popped, each error handler on it is called. -/
def pop_n_elems : Nat → machine_t σ V K → Option (machine_t σ V K)
  | 0, m => some m
  | n + 1, m =>
    match m.stack with
    | [] => none
    | .value :: stack => pop_n_elems n { m with stack }
    | .error_handler :: stack => do
      let m ← unique_array_error_handler { m with stack }
      pop_n_elems n m

/-- What is left of the stack after an error has so many elements. -/
def restore_context (depth : Nat) (m : machine_t σ V K) : Option (machine_t σ V K) :=
  pop_n_elems (m.stack.length - depth) m

/-! ## unique_array -/

variable (sv : sameval_t K)

/-- The `while` loop: the first group with the mark gets the index. -/
def add_index (mark : K) (i : Nat) :
    List (unique_t K) → memory_t → Option (Option (List (unique_t K) × memory_t))
  | [], _ => some none
  | uptr :: next, mem =>
    if sv.same mark uptr.mark then do
      let (ind, mem) ← RESIZE mem uptr.ind
      some (some ({ uptr with ind, indices := uptr.indices ++ [i] } :: next, mem))
    else do
      let found ← add_index mark i next mem
      some (found.map fun r => (uptr :: r.1, r.2))

/-- The body of the `for` loop after the call, on the list at `*head`. -/
def collect (skipval : K) (result : Option K) (i : Nat) (head : List (unique_t K))
    (mem : memory_t) : Option (List (unique_t K) × memory_t) :=
  match result with
  | none => some (head, mem)
  | some mark =>
    if sv.same mark skipval then some (head, mem)
    else do
      match ← add_index sv mark i head mem with
      | some r => some r
      | none =>
        let (address, mem) := ALLOCATE mem
        let (ind, mem) := ALLOCATE mem
        some (⟨address, mark, ind, [i]⟩ :: head, mem)

/-- The list at an address is still on `g_u_list` and changes. -/
def at_head (address : Nat)
    (f : List (unique_t K) → memory_t → Option (List (unique_t K) × memory_t))
    (m : machine_t σ V K) : Option (machine_t σ V K) :=
  match m.g_u_list with
  | [] => none
  | unlist :: rest =>
    if unlist.address = address then
      (f unlist.head m.mem).map fun r =>
        { m with g_u_list := { unlist with head := r.1 } :: rest, mem := r.2 }
    else none

/-- The `for` loop, for the indices that are left. -/
def collect_all (call : V → machine_t σ V K → ended_t σ V K (Option K)) (arr address : Nat)
    (skipval : K) : List Nat → machine_t σ V K → ended_t σ V K Unit
  | [], m => (.ok (), m)
  | i :: rest, m =>
    match (m.data.item arr)[i]? with
    | none => (.error .wild, m)
    | some v =>
      match call v m with
      | (.error e, m) => (.error e, m)
      | (.ok result, m) =>
        match at_head address (collect sv skipval result i) m with
        | some m => collect_all call arr address skipval rest m
        | none => (.error .wild, m)

def members (item : List V) : List Nat → Option (List V)
  | [] => some []
  | i :: indices => do
    let v ← item[i]?
    let l ← members item indices
    some (v :: l)

/-- The loop that fills the result from its last element on, and frees the list. -/
def empty_list (item : List V) : List (unique_t K) → List (List V) → memory_t →
    Option (List (List V) × memory_t)
  | [], ret, mem => some (ret, mem)
  | uptr :: head, ret, mem => do
    let group ← members item uptr.indices
    let mem ← FREE mem uptr.ind
    let mem ← FREE mem uptr.address
    empty_list item head (group :: ret) mem

def finish (arr : Nat) (m : machine_t σ V K) : Option (List (List V) × machine_t σ V K) :=
  match m.g_u_list, m.stack with
  | unlist :: g_u_list, .error_handler :: stack => do
    let (ret, mem) ← empty_list (m.data.item arr) unlist.head [] m.mem
    let mem ← FREE mem unlist.address
    some (ret, { m with g_u_list, mem, stack })
  | _, _ => none

/-- The arguments are on the stack, two or three of them. The array that is returned is handed
on and not on the stack any more. -/
def f_unique_array (call : V → machine_t σ V K → ended_t σ V K (Option K)) (arr : Nat)
    (skipval : K) (num_arg : Nat) (m : machine_t σ V K) : ended_t σ V K (List (List V)) :=
  let size := (m.data.item arr).length
  if size = 0 then (.ok [], { m with stack := m.stack.drop num_arg })
  else
    let (address, mem) := ALLOCATE m.mem
    let m := { m with
      mem
      g_u_list := ⟨address, []⟩ :: m.g_u_list
      stack := .error_handler :: m.stack }
    match collect_all sv call arr address skipval (List.range size) m with
    | (.error e, m) => (.error e, m)
    | (.ok (), m) =>
      match finish arr m with
      | some (ret, m) => (.ok ret, { m with stack := m.stack.drop num_arg })
      | none => (.error .wild, m)

/-! ## LPC code -/

inductive code_t (σ V K : Type)
  /-- What `call_function_pointer` or `apply` returns, if it is not 0 -/
  | done (result : Option K)
  | error (message : String)
  /-- The code that follows depends on the data. -/
  | act (f : change_t σ V) (k : data_t σ V → code_t σ V K)
  /-- `catch()`, which gives the message of the error -/
  | caught (body : code_t σ V K) (k : Option String → code_t σ V K)
  /-- `unique_array()`, with or without a value to skip -/
  | unique (arr : Nat) (callback : V → code_t σ V K) (skip : Option K)
      (k : List (List V) → code_t σ V K)

/-- The callback that a string names: only objects are asked. -/
def by_name {O : Type} (object_of : V → Option O) (func : O → code_t σ V K) (v : V) :
    code_t σ V K :=
  match object_of v with
  | some ob => func ob
  | none => .done none

variable (const0 : K)

def arguments (skip : Option K) : List stack_t :=
  if skip.isSome then [.value, .value, .value] else [.value, .value]

def call_unique_array (call : V → machine_t σ V K → ended_t σ V K (Option K)) (arr : Nat)
    (skip : Option K) (m : machine_t σ V K) : ended_t σ V K (List (List V)) :=
  f_unique_array sv call arr (skip.getD const0) (arguments skip).length
    { m with stack := arguments skip ++ m.stack }

def exec : code_t σ V K → machine_t σ V K → ended_t σ V K (Option K)
  | .done result, m => (.ok result, m)
  | .error message, m => (.error (.raised message), m)
  | .act f k, m => exec (k (f.run m.data)) { m with data := f.run m.data }
  | .caught body k, m =>
    match exec body m with
    | (.ok _, m) => exec (k none) m
    | (.error .wild, m) => (.error .wild, m)
    | (.error (.raised message), m') =>
      match restore_context m.stack.length m' with
      | some m => exec (k (some message)) m
      | none => (.error .wild, m')
  | .unique arr callback skip k, m =>
    match call_unique_array sv const0 (fun v m => exec (callback v) m) arr skip m with
    | (.ok ret, m) => exec (k ret) m
    | (.error e, m) => (.error e, m)

/-! ## What the groups are -/

/-- The callback's answers, one element after the other, or an error. -/
def ask (call : V → data_t σ V → Except String (Option K) × data_t σ V) (arr : Nat) :
    List Nat → data_t σ V → Except String (List (Nat × Option K)) × data_t σ V
  | [], d => (.ok [], d)
  | i :: rest, d =>
    match (d.item arr)[i]? with
    | none => (.ok [], d)
    | some v =>
      match call v d with
      | (.error message, d) => (.error message, d)
      | (.ok result, d) =>
        match ask call arr rest d with
        | (.error message, d) => (.error message, d)
        | (.ok answers, d) => (.ok ((i, result) :: answers), d)

abbrev group_t (K : Type) := K × List Nat

def join (mark : K) (i : Nat) : List (group_t K) → Option (List (group_t K))
  | [] => none
  | g :: groups =>
    if sv.same mark g.1 then some ((g.1, g.2 ++ [i]) :: groups)
    else (join mark i groups).map (g :: ·)

/-- An index joins the group of its mark, or is the first of a new group. -/
def put (skipval : K) (groups : List (group_t K)) (answer : Nat × Option K) : List (group_t K) :=
  match answer.2 with
  | none => groups
  | some mark =>
    if sv.same mark skipval then groups
    else (join sv mark answer.1 groups).getD ((mark, [answer.1]) :: groups)

/-- The indices of the groups, the group that was begun first comes first. -/
def groups_of (skipval : K) (answers : List (Nat × Option K)) : List (List Nat) :=
  ((answers.foldl (put sv skipval) []).map Prod.snd).reverse

/-- The indices of the elements whose answer is not to be skipped. -/
def chosen (skipval : K) (answers : List (Nat × Option K)) : List Nat :=
  (answers.filter fun answer => answer.2.any fun mark => !sv.same mark skipval).map Prod.fst

/-- The chosen elements are in groups of the same answers, all in the order of the array: the
members of a group, and the groups by their first members. -/
structure IsPartition (skipval : K) (answers : List (Nat × Option K)) (groups : List (List Nat)) :
    Prop where
  all : groups.flatten.Perm (chosen sv skipval answers)
  none_empty : [] ∉ groups
  together : ∀ group ∈ groups, ∀ i ∈ group, ∀ j mark mark', (i, some mark) ∈ answers →
    (j, some mark') ∈ answers → (j ∈ group ↔ j = i ∨ sv.same mark mark' = true)
  members_in_order : ∀ group ∈ groups, group.Pairwise (· < ·)
  in_order : groups.Pairwise fun group group' => ∃ i ∈ group, ∀ j ∈ group', i < j

/-- The elements of the groups, as they are at the end. -/
def elements (item : List V) (groups : List (List Nat)) : List (List V) :=
  groups.map fun indices => indices.filterMap fun i => item[i]?

/-- What the answers of the callback mean for the array. -/
def result_of (arr : Nat) (skipval : K)
    (r : Except String (List (Nat × Option K)) × data_t σ V) :
    Except String (List (List V)) × data_t σ V :=
  (r.1.map fun answers => elements (r.2.item arr) (groups_of sv skipval answers), r.2)

/-- The same code, where `unique_array()` is the groups of the answers. -/
def mean : code_t σ V K → data_t σ V → Except String (Option K) × data_t σ V
  | .done result, d => (.ok result, d)
  | .error message, d => (.error message, d)
  | .act f k, d => mean (k (f.run d)) (f.run d)
  | .caught body k, d =>
    match mean body d with
    | (.ok _, d) => mean (k none) d
    | (.error message, d) => mean (k (some message)) d
  | .unique arr callback skip k, d =>
    match result_of sv arr (skip.getD const0)
      (ask (fun v d => mean (callback v) d) arr (List.range (d.item arr).length) d) with
    | (.ok ret, d) => mean (k ret) d
    | (.error message, d) => (.error message, d)

/-- The answers of the callback for the elements of an array. -/
def answers_of (arr : Nat) (callback : V → code_t σ V K) (d : data_t σ V) :
    Except String (List (Nat × Option K)) × data_t σ V :=
  ask (fun v d => mean sv const0 (callback v) d) arr (List.range (d.item arr).length) d

end mudos.unique_array
