-- `unique_mapping()`: the elements of an array are collected under what the
-- callback returns for them, first in a table of its own, then in a mapping.
-- Both tables are measured in `unsigned short`s, the second one under the
-- limit of the configuration.
import MudOS.Mapping

open mudos.mapping

namespace mudos.unique_mapping

/-! ## The callback -/

/-- The address that `call_efun_callback` returns has a value, or is 0. -/
inductive reply (K : Type)
  | value (sv : K)
  | null
  | error (text : String)

/-- The elements of the array, which the callback may change, and all the rest. -/
structure driver_t (σ V : Type) (size : Fin 65536) where
  state : σ
  item : Fin size → V

abbrev Callback (σ V K : Type) (size : Fin 65536) :=
  driver_t σ V size → V → driver_t σ V size × reply K

inductive outcome (α : Type)
  | returned (a : α)
  | error (text : String)
  /-- Memory outside of the tables or at the address 0 is used. -/
  | wild

variable {σ V K : Type} [DecidableEq K] {size : Fin 65536}

/-! ## The table of the keys -/

def table_mask (size : Nat) : Nat :=
  if size > MAP_HASH_TABLE_SIZE then fill_up size else MAP_HASH_TABLE_SIZE - 1

def table_bytes (size : Nat) : Nat :=
  if size > MAP_HASH_TABLE_SIZE then short (short (fill_up size + 1) * 4)
  else MAP_HASH_TABLE_SIZE * 4

/-- The bucket `i` is in the table. -/
abbrev Inside (size i : Nat) : Prop := 4 * (i + 1) ≤ table_bytes size

/-- A key with the indices that it was returned for. -/
abbrev unique_node_t (K : Type) (size : Fin 65536) := (_ : K) × List (Fin size)

structure unique_table_t (K : Type) (size : Fin 65536) where
  table : Nat → List (unique_node_t K size)
  numkeys : Nat

def add_index (t : unique_table_t K size) (i : Nat) (sv : K) (index : Fin size) :
    unique_table_t K size :=
  match (t.table i).dlookup sv with
  | some ind =>
    { t with table := Function.update t.table i ((t.table i).kreplace sv (ind ++ [index])) }
  | none =>
    { table := Function.update t.table i (⟨sv, [index]⟩ :: t.table i)
      numkeys := short (t.numkeys + 1) }

/-- The handler frees what is in the buckets, from the one at `mask` on down. -/
def unique_mapping_error_handler {α : Type} (size : Nat) (text : String) : outcome α :=
  if Inside size (table_mask size) then .error text else .wild

variable (hash : K → Nat)

/-- The `while` loop, for the indices that are left. -/
def collect (callback : Callback σ V K size) :
    List (Fin size) → driver_t σ V size → unique_table_t K size →
      outcome (driver_t σ V size × unique_table_t K size)
  | [], d, t => .returned (d, t)
  | index :: rest, d, t =>
    match callback d (d.item index) with
    | (d, .value sv) =>
      let i := short (hash sv) &&& table_mask size
      if Inside size i then collect callback rest d (add_index t i sv index) else .wild
    | (_, .null) => .wild
    | (_, .error text) => unique_mapping_error_handler size text

/-! ## The mapping -/

def result_mask (numkeys : Nat) : Nat :=
  let nmask := short (numkeys <<< 1)
  -- the last `size--` of the loop went on from 0
  let size := decr 0
  if nmask > MAP_HASH_TABLE_SIZE then
    let nmask := nmask ||| nmask >>> 1
    let nmask := nmask ||| nmask >>> 2
    let nmask := nmask ||| nmask >>> 4
    if size &&& 0xff00 ≠ 0 then nmask ||| nmask >>> 8 else nmask
  else MAP_HASH_TABLE_SIZE - 1

structure making_t (K V : Type) where
  m : mapping_t K (List V)
  nmask : Nat
  numkeys : Nat

/-- One turn of the loop on the keys. When the table cannot grow, the loop that frees the
keys goes on below the first bucket. -/
def add_key (item : Fin size → V) (s : making_t K V) (uptr : unique_node_t K size) :
    outcome (making_t K V) :=
  let i := short (hash uptr.1) &&& s.nmask
  let insert (m : mapping_t K (List V)) (nmask : Nat) : making_t K V :=
    { m := { m with
        table := Function.update m.table i (⟨uptr.1, uptr.2.map item⟩ :: m.table i) }
      nmask
      numkeys := short (s.numkeys + 1) }
  if i > s.m.table_size then .wild
  else if (s.m.table i).isEmpty then
    let m := { s.m with unfilled := decr s.m.unfilled }
    if m.unfilled = 0 then
      match growMap hash m with
      | some m => .returned (insert m (decr (short (s.nmask <<< 1))))
      | none => .wild
    else .returned (insert m s.nmask)
  else .returned (insert s.m s.nmask)

def add_keys (item : Fin size → V) :
    List (unique_node_t K size) → making_t K V → outcome (making_t K V)
  | [], s => .returned s
  | uptr :: rest, s =>
    match add_key hash item s uptr with
    | .returned s => add_keys item rest s
    | .error text => .error text
    | .wild => .wild

/-- The keys in the order in which the table is emptied. -/
def keys_in (t : unique_table_t K size) : List (unique_node_t K size) :=
  (List.range (table_mask size + 1)).reverse.flatMap t.table

def f_unique_mapping (MAX_MAPPING_SIZE : Nat) (callback : Callback σ V K size)
    (d : driver_t σ V size) : outcome (driver_t σ V size × mapping_t K (List V)) :=
  if size = 0 then .returned (d, allocate_mapping MAX_MAPPING_SIZE 0)
  else
    match collect hash callback (List.finRange size).reverse d ⟨fun _ => [], 0⟩ with
    | .returned (d, t) =>
      if Inside size (table_mask size) then
        let m := allocate_mapping MAX_MAPPING_SIZE (short (t.numkeys <<< 1))
        match add_keys hash d.item (keys_in t) ⟨m, result_mask t.numkeys, 0⟩ with
        | .returned s => .returned (d, { s.m with count := s.numkeys })
        | .error text => .error text
        | .wild => .wild
      else .wild
    | .error text => .error text
    | .wild => .wild

/-! ## What is asked of it -/

inductive Calls (σ V K : Type) (size : Fin 65536)
  | answered (d : driver_t σ V size) (answers : List (Fin size × K))
  | unanswered
  | raised (text : String)

def ask (callback : Callback σ V K size) : List (Fin size) → driver_t σ V size → Calls σ V K size
  | [], d => .answered d []
  | index :: rest, d =>
    match callback d (d.item index) with
    | (d, .value sv) =>
      match ask callback rest d with
      | .answered d answers => .answered d ((index, sv) :: answers)
      | .unanswered => .unanswered
      | .raised text => .raised text
    | (_, .null) => .unanswered
    | (_, .error text) => .raised text

/-- The calls for all elements, in the order of the code: the last one first. -/
def ask_all (callback : Callback σ V K size) (d : driver_t σ V size) : Calls σ V K size :=
  ask callback (List.finRange size).reverse d

def keys_of (answers : List (Fin size × K)) : Finset K := (answers.map Prod.snd).toFinset

/-- The elements that the callback returned `k` for, in the order of the array. -/
def elements_of (d : driver_t σ V size) (answers : List (Fin size × K)) (k : K) : List V :=
  (answers.reverse.filter (·.2 = k)).map fun a => d.item a.1

/-- An error of the callback is passed on; otherwise the mapping is well formed and has
the elements of every key. -/
def Right (c : Calls σ V K size) (o : outcome (driver_t σ V size × mapping_t K (List V))) : Prop :=
  match c with
  | .answered d answers => ∃ m, o = .returned (d, m) ∧ Sound hash m ∧ ∀ k, m.denotes.lookup k =
      if k ∈ keys_of answers then some (elements_of d answers k) else none
  | .unanswered => False
  | .raised text => o = .error text

def new_mapping (MAX_MAPPING_SIZE : Nat) (keys : Finset K) : mapping_t K Unit :=
  allocate_mapping MAX_MAPPING_SIZE (2 * keys.card)

/-- The bucket of a key under the mask that is made for the keys. -/
def bucket (keys : Finset K) (k : K) : Nat := short (hash k) &&& result_mask keys.card

/-- The keys take as many buckets as the table has before it grows. -/
def Crowded (MAX_MAPPING_SIZE : Nat) : Calls σ V K size → Prop
  | .answered _ answers => (new_mapping MAX_MAPPING_SIZE (keys_of answers)).unfilled ≤
      ((keys_of answers).image (bucket hash (keys_of answers))).card
  | _ => False

/-- Less than 8192 elements, and unless the callback raises an error: a value from each
call, the same elements backwards as forwards for each key, and a table of the mapping
that has the bucket of each key and does not fill up. -/
def Served (MAX_MAPPING_SIZE : Nat) (c : Calls σ V K size) : Prop :=
  size < 8192 ∧
    match c with
    | .answered d answers =>
      (∀ k, (elements_of d answers k).reverse = elements_of d answers k) ∧
        (∀ k ∈ keys_of answers, bucket hash (keys_of answers) k ≤
          (new_mapping MAX_MAPPING_SIZE (keys_of answers)).table_size) ∧
        ¬ Crowded hash MAX_MAPPING_SIZE (.answered d answers)
    | .unanswered => False
    | .raised _ => True

end mudos.unique_mapping
