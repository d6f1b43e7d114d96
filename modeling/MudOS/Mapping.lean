-- The mappings of `mapping.c`: chained hash tables that double when 80
-- percent of the buckets have nodes, and the routines that insert, delete,
-- look up, copy and add. The routines that insert keep a mask of their own
-- beside the size of the table.
import MudOS.Library.HashTables
import MudOS.Library.Runs

open mudos.hash_tables

namespace mudos.mapping

/-! ## The data -/

abbrev MAX_TABLE_SIZE : Nat := 32768

abbrev MAP_HASH_TABLE_SIZE : Nat := 8

abbrev FILL_PERCENT : Nat := 80

abbrev mapping_node_t (K V : Type) := (_ : K) × V

/-- A chain is the list of its nodes; a bucket past the table is an empty chain. -/
structure mapping_t (K V : Type) where
  table : Nat → List (mapping_node_t K V)
  table_size : Nat
  unfilled : Nat
  count : Nat

/-- The value that an `unsigned short` holds. -/
def short (n : Nat) : Nat := n % 65536

/-- `--unfilled` of an `unsigned short` -/
def decr (unfilled : Nat) : Nat := if unfilled = 0 then 65535 else unfilled - 1

/-- `unfilled++` of an `unsigned short` -/
def incr (unfilled : Nat) : Nat := if unfilled = 65535 then 0 else unfilled + 1

-- `svalue_to_int` and `msameval` are a hash of the key and the equality of keys.
variable {K V : Type} [DecidableEq K] (hash : K → Nat)

/-! ## The table doubles -/

/-- The `do` loop on a chain: the nodes that stay, the chain `*b` with the nodes that go
over to it, and the count. -/
def split_chain (oldsize : Nat) : List (mapping_node_t K V) → List (mapping_node_t K V) → Nat →
    List (mapping_node_t K V) × List (mapping_node_t K V) × Nat
  | [], b, unfilled => ([], b, unfilled)
  | elt :: next, b, unfilled =>
    if hash elt.1 &&& oldsize ≠ 0 then
      split_chain oldsize next (elt :: b) (if b.isEmpty then decr unfilled else unfilled)
    else
      let r := split_chain oldsize next b unfilled
      (elt :: r.1, r.2)

/-- The `while` loop on the first buckets, the last one first. -/
def split_loop (oldsize : Nat) : Nat → mapping_t K V → mapping_t K V
  | 0, m => m
  | i + 1, m =>
    if (m.table i).isEmpty then split_loop oldsize i m
    else
      let r := split_chain hash oldsize (m.table i) (m.table (i + oldsize)) m.unfilled
      split_loop oldsize i { m with
        table := Function.update (Function.update m.table (i + oldsize) r.2.1) i r.1
        unfilled := if r.1.isEmpty then incr r.2.2 else r.2.2 }

def growMap (m : mapping_t K V) : Option (mapping_t K V) :=
  let oldsize := m.table_size + 1
  let newsize := 2 * oldsize
  if newsize > MAX_TABLE_SIZE then none
  else
    some (split_loop hash oldsize oldsize { m with
      table := fun j => if j < oldsize then m.table j else []
      unfilled := oldsize * FILL_PERCENT / 100
      table_size := newsize - 1 })

/-! ## One mapping -/

/-- A size with ones below its first bit, if it is not too large. -/
def fill_up (n : Nat) : Nat :=
  let n := n ||| n >>> 1
  let n := n ||| n >>> 2
  let n := n ||| n >>> 4
  if n &&& 0xff00 ≠ 0 then n ||| n >>> 8 else n

/-- `MAX_MAPPING_SIZE` is set by the configuration of the driver. -/
def allocate_mapping (MAX_MAPPING_SIZE : Nat) (n : Nat) : mapping_t K V :=
  let n := if n > MAX_MAPPING_SIZE then MAX_MAPPING_SIZE else n
  if n > MAP_HASH_TABLE_SIZE then
    let n := fill_up n
    { table := fun _ => []
      table_size := short n
      unfilled := short ((n + 1) * FILL_PERCENT % 4294967296 / 100)
      count := 0 }
  else
    { table := fun _ => []
      table_size := MAP_HASH_TABLE_SIZE - 1
      unfilled := MAP_HASH_TABLE_SIZE * FILL_PERCENT / 100
      count := 0 }

def copyMapping (m : mapping_t K V) : mapping_t K V :=
  { m with table := fun k => if k ≤ m.table_size then (m.table k).reverse else [] }

def find_in_mapping (const0u : V) (m : mapping_t K V) (lv : K) : V :=
  ((m.table (hash lv &&& m.table_size)).dlookup lv).getD const0u

def mapping_delete (m : mapping_t K V) (lv : K) : mapping_t K V :=
  let i := hash lv &&& m.table_size
  if lv ∈ (m.table i).keys then
    let l := (m.table i).kerase lv
    { m with
      table := Function.update m.table i l
      unfilled := if l.isEmpty then incr m.unfilled else m.unfilled
      count := m.count - 1 }
  else m

/-- The mapping that has a node for the key, and the bucket of the node; `none` is an
error. The address that the code returns is the value of that node. -/
def find_for_insert (MAX_MAPPING_SIZE : Nat) (const0u : V) (m : mapping_t K V) (lv : K) :
    Option (mapping_t K V × Nat) :=
  let oi := hash lv
  let i := oi &&& m.table_size
  if lv ∈ (m.table i).keys then some (m, i)
  else
    let grown : Option (mapping_t K V × Nat) :=
      if (m.table i).isEmpty then
        let m := { m with unfilled := decr m.unfilled }
        if m.unfilled = 0 then
          let size := m.table_size + 1
          (growMap hash m).map fun m => (m, if oi &&& size ≠ 0 then i ||| size else i)
        else some (m, i)
      else some (m, i)
    grown.bind fun (m, i) =>
      if m.count + 1 > MAX_MAPPING_SIZE then none
      else
        some ({ m with
          table := Function.update m.table i (⟨lv, const0u⟩ :: m.table i)
          count := m.count + 1 }, i)

/-- A value is stored at the address that `find_for_insert` returned. -/
def assign (m : mapping_t K V) (i : Nat) (lv : K) (v : V) : mapping_t K V :=
  { m with table := Function.update m.table i ((m.table i).kreplace lv v) }

/-! ## Many nodes -/

/-- The variables of a loop that adds nodes: its mapping, whose `count` is set at the
end only, with `mask` and `count` of the loop. -/
structure adding_t (K V : Type) where
  m : mapping_t K V
  mask : Nat
  count : Nat

/-- The table of the loop when a key was not found in the bucket `i`: the mapping, the
mask, the bucket for the new node and the chain to put it before. -/
def make_room (s : adding_t K V) (oi i : Nat) :
    Option (mapping_t K V × Nat × Nat × List (mapping_node_t K V)) :=
  if (s.m.table i).isEmpty then
    let m := { s.m with unfilled := decr s.m.unfilled }
    if m.unfilled = 0 then
      (growMap hash m).map fun m =>
        let mask := s.mask + 1
        if oi &&& mask ≠ 0 then (m, 2 * mask - 1, i ||| mask, m.table (i ||| mask))
        else (m, 2 * mask - 1, i, [])
    else some (m, s.mask, i, [])
  else some (s.m, s.mask, i, s.m.table i)

def add_node (MAX_MAPPING_SIZE : Nat) (overwrite : Bool) (s : adding_t K V)
    (elt : mapping_node_t K V) : Option (adding_t K V) :=
  let oi := hash elt.1
  let i := oi &&& s.mask
  if elt.1 ∈ (s.m.table i).keys then
    if overwrite then
      some { s with m := { s.m with
        table := Function.update s.m.table i ((s.m.table i).kreplace elt.1 elt.2) } }
    else some s
  else
    (make_room hash s oi i).bind fun (m, mask, i, n) =>
      if s.count + 1 > MAX_MAPPING_SIZE then none
      else
        some {
          m := { m with table := Function.update m.table i (elt :: n) }
          mask
          count := s.count + 1 }

/-- The nodes in the order in which the loops meet them. -/
def traverse (m : mapping_t K V) : List (mapping_node_t K V) :=
  (List.range (m.table_size + 1)).reverse.flatMap m.table

def add_nodes (MAX_MAPPING_SIZE : Nat) (overwrite : Bool) (m : mapping_t K V)
    (l : List (mapping_node_t K V)) : Option (mapping_t K V) :=
  (l.foldlM (add_node hash MAX_MAPPING_SIZE overwrite) ⟨m, m.table_size, m.count⟩).map fun s =>
    { s.m with count := s.count }

def load_mapping_from_aggregate (MAX_MAPPING_SIZE : Nat) (sp : List (mapping_node_t K V)) :
    Option (mapping_t K V) :=
  add_nodes hash MAX_MAPPING_SIZE true (allocate_mapping MAX_MAPPING_SIZE sp.length) sp

def add_to_mapping (MAX_MAPPING_SIZE : Nat) (m1 m2 : mapping_t K V) : Option (mapping_t K V) :=
  add_nodes hash MAX_MAPPING_SIZE true m1 (traverse m2)

def unique_add_to_mapping (MAX_MAPPING_SIZE : Nat) (m1 m2 : mapping_t K V) :
    Option (mapping_t K V) :=
  add_nodes hash MAX_MAPPING_SIZE false m1 (traverse m2)

def absorb_mapping (MAX_MAPPING_SIZE : Nat) (m1 m2 : mapping_t K V) : Option (mapping_t K V) :=
  if m2.count ≠ 0 then add_to_mapping hash MAX_MAPPING_SIZE m1 m2 else some m1

def add_mapping (MAX_MAPPING_SIZE : Nat) (m1 m2 : mapping_t K V) : Option (mapping_t K V) :=
  if m1.count ≥ m2.count then
    if m2.count ≠ 0 then add_to_mapping hash MAX_MAPPING_SIZE (copyMapping m1) m2
    else some (copyMapping m1)
  else if m1.count ≠ 0 then unique_add_to_mapping hash MAX_MAPPING_SIZE (copyMapping m2) m1
  else some (copyMapping m2)

/-! ## The mappings of the driver -/

inductive MappingOp (K V : Type)
  | allocate_mapping (n : Nat)
  | load_mapping_from_aggregate (sp : List (mapping_node_t K V))
  | copyMapping (m : Nat)
  /-- The value that is stored afterwards, if one is. -/
  | find_for_insert (m : Nat) (lv : K) (v : Option V)
  | find_in_mapping (m : Nat) (lv : K)
  | mapping_delete (m : Nat) (lv : K)
  | absorb_mapping (m1 m2 : Nat)
  | add_mapping (m1 m2 : Nat)

/-- All mappings, and the values that were found, the last one first. -/
structure Mappings (M V : Type) where
  maps : List M
  found : List V

def Mappings.start (M V : Type) : Mappings M V := ⟨[], []⟩

def Mappings.new {M : Type} (s : Mappings M V) (m : M) : Mappings M V :=
  { s with maps := s.maps ++ [m] }

def Mappings.set {M : Type} (s : Mappings M V) (i : Nat) (m : M) : Mappings M V :=
  { s with maps := s.maps.set i m }

/-- An operation that ends in an error ends the run. -/
def step (MAX_MAPPING_SIZE : Nat) (const0u : V) (s : Mappings (mapping_t K V) V) :
    MappingOp K V → Option (Mappings (mapping_t K V) V)
  | .allocate_mapping n => some (s.new (mapping.allocate_mapping MAX_MAPPING_SIZE n))
  | .load_mapping_from_aggregate sp =>
    (mapping.load_mapping_from_aggregate hash MAX_MAPPING_SIZE sp).map s.new
  | .copyMapping m => s.maps[m]?.map fun m => s.new (mapping.copyMapping m)
  | .find_for_insert i lv v => do
    let m ← s.maps[i]?
    let (m, bucket) ← mapping.find_for_insert hash MAX_MAPPING_SIZE const0u m lv
    match v with
    | some v => some (s.set i (assign m bucket lv v))
    | none => some (s.set i m)
  | .find_in_mapping m lv => s.maps[m]?.map fun m =>
    { s with found := mapping.find_in_mapping hash const0u m lv :: s.found }
  | .mapping_delete i lv => s.maps[i]?.map fun m => s.set i (mapping.mapping_delete hash m lv)
  | .absorb_mapping i j => do
    let m1 ← s.maps[i]?
    let m2 ← s.maps[j]?
    (mapping.absorb_mapping hash MAX_MAPPING_SIZE m1 m2).map (s.set i)
  | .add_mapping i j => do
    let m1 ← s.maps[i]?
    let m2 ← s.maps[j]?
    (mapping.add_mapping hash MAX_MAPPING_SIZE m1 m2).map s.new

/-! ## What the mappings are for -/

abbrev FiniteMap (K V : Type) := Finmap fun _ : K => V

/-- The same operations on finite maps. In a sum the second map has precedence. -/
def specStep (const0u : V) (s : Mappings (FiniteMap K V) V) :
    MappingOp K V → Option (Mappings (FiniteMap K V) V)
  | .allocate_mapping _ => some (s.new ∅)
  | .load_mapping_from_aggregate sp =>
    some (s.new (sp.foldl (fun f x => f.insert x.1 x.2) ∅))
  | .copyMapping m => s.maps[m]?.map s.new
  | .find_for_insert i lv v => s.maps[i]?.map fun f =>
    match v with
    | some v => s.set i (f.insert lv v)
    | none => s.set i (if lv ∈ f then f else f.insert lv const0u)
  | .find_in_mapping m lv => s.maps[m]?.map fun f =>
    { s with found := (f.lookup lv).getD const0u :: s.found }
  | .mapping_delete i lv => s.maps[i]?.map fun f => s.set i (f.erase lv)
  | .absorb_mapping i j => do
    let f ← s.maps[i]?
    let g ← s.maps[j]?
    some (s.set i (g ∪ f))
  | .add_mapping i j => do
    let f ← s.maps[i]?
    let g ← s.maps[j]?
    some (s.new (g ∪ f))

def mapping_t.denotes (m : mapping_t K V) : FiniteMap K V := contents m.table_size m.table

def Mappings.denotes (s : Mappings (mapping_t K V) V) : Mappings (FiniteMap K V) V :=
  ⟨s.maps.map mapping_t.denotes, s.found⟩

def mapping_t.nodes (m : mapping_t K V) : List (mapping_node_t K V) :=
  hash_tables.nodes m.table (m.table_size + 1)

structure Sound (m : mapping_t K V) : Prop where
  home : ∀ i, ∀ x ∈ m.table i, i = hash x.1 &&& m.table_size
  distinct : (m.nodes.map Sigma.fst).Nodup
  count : m.count = m.nodes.length

/-- The finite maps of all operations are defined and within the limit. -/
def StaysWithin (MAX_MAPPING_SIZE : Nat) (const0u : V) :
    Mappings (FiniteMap K V) V → List (MappingOp K V) → Prop
  | _, [] => True
  | s, op :: ops => ∃ s', specStep const0u s op = some s' ∧
    (∀ f ∈ s'.maps, f.keys.card ≤ MAX_MAPPING_SIZE) ∧
    StaysWithin MAX_MAPPING_SIZE const0u s' ops

end mudos.mapping
