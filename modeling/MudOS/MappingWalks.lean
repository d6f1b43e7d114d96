-- The walks of `filter_mapping` and `map_mapping` of `mapping.c`: they hold the array of the
-- buckets and the node they are at while a callback is called, which may change the mapping.
import MudOS.MappingLimitLaws

namespace mudos.mapping

variable {K V : Type} [DecidableEq K] (hash : K → Nat)

/-! ## Nodes in memory -/

/-- A value and the address of its node. No address is given twice. -/
structure cell_t (V : Type) where
  node : Nat
  value : V

/-- What `elt` points to. The key of a node never changes. -/
structure elt_t (K : Type) where
  key : K
  node : Nat

def pointer (x : mapping_node_t K (cell_t V)) : elt_t K := ⟨x.1, x.2.node⟩

/-- `elt->values + 1`, if the node is in the table. -/
def mapping_t.value (m : mapping_t K (cell_t V)) (elt : elt_t K) : Option V :=
  ((m.table (hash elt.key &&& m.table_size)).dlookup elt.key).bind fun c =>
    if c.node = elt.node then some c.value else none

/-- `elt->next` -/
def mapping_t.next (m : mapping_t K (cell_t V)) (elt : elt_t K) : Option (elt_t K) :=
  let l := (m.table (hash elt.key &&& m.table_size)).dropWhile fun x => x.1 ≠ elt.key
  l.tail.head?.map pointer

def mapping_t.store (m : mapping_t K (cell_t V)) (lv : K) (v : V) : mapping_t K (cell_t V) :=
  let i := hash lv &&& m.table_size
  match (m.table i).dlookup lv with
  | some c => assign m i lv { c with value := v }
  | none => m

/-! ## What a callback does -/

/-- The mapping that is walked, with the references that are not on the stack of the efun. -/
structure world_t (K V : Type) where
  m : mapping_t K (cell_t V)
  ref : Nat
  others : Nat
  new_node : Nat
  total_mapping_nodes : Int

inductive action_t (K V : Type)
  | insert (lv : K) (v : V)
  | delete (lv : K)
  /-- One of the other references goes. -/
  | drop

/-- `count` and `total_mapping_nodes` change together. An error of `find_for_insert` may be caught by
the callback. -/
def world_t.act (MAX_MAPPING_SIZE : Nat) (const0u : V) (w : world_t K V) :
    action_t K V → world_t K V
  | .insert lv v =>
    match find_for_insert_or_stop hash MAX_MAPPING_SIZE ⟨w.new_node, const0u⟩ w.m lv with
    | .ok (m, _) =>
      { w with
        m := m.store hash lv v
        new_node := w.new_node + 1
        total_mapping_nodes := w.total_mapping_nodes + m.count - w.m.count }
    | .error (.too_large m _) => { w with m }
    | .error .out_of_memory => { w with m := { w.m with unfilled := decr w.m.unfilled } }
  | .delete lv =>
    let m := mapping_delete hash w.m lv
    { w with m, total_mapping_nodes := w.total_mapping_nodes + m.count - w.m.count }
  | .drop => if w.others = 0 then w else { w with ref := w.ref - 1, others := w.others - 1 }

inductive answer_t (V : Type)
  | raises
  /-- There is no function to call. -/
  | nothing
  | returns (ret : V)

/-- One call: what is done with the mapping, and the answer. -/
structure called_t (K V : Type) where
  actions : List (action_t K V)
  answer : answer_t V

def world_t.after (MAX_MAPPING_SIZE : Nat) (const0u : V) (w : world_t K V) (c : called_t K V) :
    world_t K V :=
  c.actions.foldl (world_t.act hash MAX_MAPPING_SIZE const0u) w

def world_t.read (w : world_t K V) (elt : elt_t K) : Option V :=
  if w.ref = 0 then none else w.m.value hash elt

/-- `a[j]`. The array is replaced when the table grows, and then only. -/
def world_t.bucket (w : world_t K V) (a j : Nat) : Option (List (mapping_node_t K (cell_t V))) :=
  if w.ref = 0 ∨ w.m.table_size ≠ a then none else some (w.m.table j)

def world_t.dealloc {V' : Type} (w : world_t K V) (m : mapping_t K V') : world_t K V :=
  { w with total_mapping_nodes := w.total_mapping_nodes - m.count }

/-! ## The walks -/

/-- `while (j--)`: the next bucket that has a node; `none` when an array is read that is gone. -/
def seek (bucket : Nat → Option (List (mapping_node_t K (cell_t V)))) :
    Nat → Option (Option (Nat × elt_t K))
  | 0 => some none
  | j + 1 => (bucket j).bind fun l =>
    match l with
    | [] => seek bucket j
    | x :: _ => some (some (j, pointer x))

/-- A walk before a call; `own` is the mapping of the efun. -/
structure walk_t (K V Own : Type) where
  world : world_t K V
  a : Nat
  j : Nat
  elt : elt_t K
  own : Own

inductive walking_t (K V Own R : Type)
  | walking (w : walk_t K V Own)
  | returned (result : R) (world : world_t K V)
  | raised (world : world_t K V)
  /-- A node or an array was read that is not there. -/
  | fault

abbrev filtering_t (K V : Type) := walking_t K V (adding_t K V) (mapping_t K V)

abbrev mapping_each_t (K V : Type) :=
  walking_t K V (mapping_t K (cell_t V)) (mapping_t K (cell_t V))

/-- The walk goes on in the chain or in the next bucket. -/
def filter_on (world : world_t K V) (a j : Nat) (newmap : adding_t K V) :
    Option (elt_t K) → filtering_t K V
  | some elt => .walking ⟨world, a, j, elt, newmap⟩
  | none =>
    match seek (world.bucket a) j with
    | none => .fault
    | some none =>
      .returned { newmap.m with count := newmap.m.count + newmap.count }
        { world with total_mapping_nodes := world.total_mapping_nodes + newmap.count }
    | some (some (j, elt)) => .walking ⟨world, a, j, elt, newmap⟩

def filter_mapping (MAX_MAPPING_SIZE : Nat) (world : world_t K V) : filtering_t K V :=
  filter_on world world.m.table_size (world.m.table_size + 1)
    (adding (allocate_mapping MAX_MAPPING_SIZE 0)) none

/-- One call, and what is done before the next one. `accepts` tells a value that is not 0. -/
def filter_turn (MAX_MAPPING_SIZE : Nat) (const0u : V) (accepts : V → Bool)
    (w : walk_t K V (adding_t K V)) (c : called_t K V) : filtering_t K V :=
  match w.world.read hash w.elt with
  | none => .fault
  | some _ =>
    let world := w.world.after hash MAX_MAPPING_SIZE const0u c
    match c.answer with
    | .raises => .raised (world.dealloc w.own.m)
    | .nothing => filter_on world w.a w.j w.own none
    | .returns ret =>
      match world.read hash w.elt with
      | none => .fault
      | some v =>
        let next := world.m.next hash w.elt
        if accepts ret then
          match filter_node_or_stop hash MAX_MAPPING_SIZE w.own ⟨w.elt.key, v⟩ with
          | .ok newmap => filter_on world w.a w.j newmap next
          | .error (.too_large newmap counted) =>
            .raised (world_t.dealloc
              { world with total_mapping_nodes := world.total_mapping_nodes + counted } newmap)
          | .error .out_of_memory => .raised world
        else filter_on world w.a w.j w.own next

def map_on (world : world_t K V) (a j : Nat) (m : mapping_t K (cell_t V)) :
    Option (elt_t K) → mapping_each_t K V
  | some elt => .walking ⟨world, a, j, elt, m⟩
  | none =>
    match seek (fun j => if m.table_size ≠ a then none else some (m.table j)) j with
    | none => .fault
    | some none => .returned m world
    | some (some (j, elt)) => .walking ⟨world, a, j, elt, m⟩

def map_mapping (world : world_t K V) : mapping_each_t K V :=
  let m := copyMapping world.m
  map_on { world with total_mapping_nodes := world.total_mapping_nodes + m.count } m.table_size
    (m.table_size + 1) m none

def map_turn (MAX_MAPPING_SIZE : Nat) (const0u : V) (w : walk_t K V (mapping_t K (cell_t V)))
    (c : called_t K V) : mapping_each_t K V :=
  match w.own.value hash w.elt with
  | none => .fault
  | some _ =>
    let world := w.world.after hash MAX_MAPPING_SIZE const0u c
    match c.answer with
    | .raises => .raised (world.dealloc w.own)
    | .nothing => map_on world w.a w.j w.own none
    | .returns ret =>
      let m := w.own.store hash w.elt.key ret
      map_on world w.a w.j m (m.next hash w.elt)

def turns {Own R : Type} (turn : walk_t K V Own → called_t K V → walking_t K V Own R) :
    walking_t K V Own R → called_t K V → Option (walking_t K V Own R)
  | .walking w, c => some (turn w c)
  | .returned _ _, _ => none
  | .raised _, _ => none
  | .fault, _ => none

def filter_step (MAX_MAPPING_SIZE : Nat) (const0u : V) (accepts : V → Bool) :
    filtering_t K V → called_t K V → Option (filtering_t K V) :=
  turns (filter_turn hash MAX_MAPPING_SIZE const0u accepts)

def map_step (MAX_MAPPING_SIZE : Nat) (const0u : V) :
    mapping_each_t K V → called_t K V → Option (mapping_each_t K V) :=
  turns (map_turn hash MAX_MAPPING_SIZE const0u)

/-! ## What a walk is to be -/

/-- The mapping is sound, is held by the stack, and its nodes and `more` are counted. -/
structure Sane (more : Nat) (w : world_t K V) : Prop where
  ok : Ok hash w.m
  held : w.ref = w.others + 1
  counted : w.total_mapping_nodes = w.m.nodes.length + more

/-- The condition on a call: the node of an answer is not deleted, and the table does not grow while
buckets are left. -/
def SparesWalk (MAX_MAPPING_SIZE : Nat) (const0u : V) :
    filtering_t K V → called_t K V → Prop
  | .walking w, c =>
    (∀ ret, c.answer = .returns ret → ∀ a ∈ c.actions, a ≠ .delete w.elt.key) ∧
    (c.answer ≠ .raises → w.j ≠ 0 →
      (w.world.after hash MAX_MAPPING_SIZE const0u c).m.table_size = w.world.m.table_size)
  | _, _ => True

/-- No node or array was read that is not there, and the counts are right when the walk has
ended. -/
def Fine {Own R : Type} (nodes : R → Nat) : walking_t K V Own R → Prop
  | .walking _ => True
  | .returned r world => Sane hash (nodes r) world
  | .raised world => Sane hash 0 world
  | .fault => False

/-- A call that leaves the mapping alone and has an answer. -/
def quiet (ret : V) : called_t K V := ⟨[], .returns ret⟩

/-- The pairs of a mapping in the order of the walk. -/
def pairs (m : mapping_t K (cell_t V)) : List (mapping_node_t K V) :=
  (traverse m).map fun x => ⟨x.1, x.2.value⟩

def accepted (accepts : V → Bool) (l : List (mapping_node_t K V)) (rets : List V) :
    List (mapping_node_t K V) :=
  ((l.zip rets).filter fun x => accepts x.2).map Prod.fst

def answers (l : List (mapping_node_t K V)) (rets : List V) : List (mapping_node_t K V) :=
  (l.zip rets).map fun x => ⟨x.1.1, x.2⟩

def mapping_t.found (m : mapping_t K (cell_t V)) (key : K) : Option V :=
  (m.denotes.lookup key).map cell_t.value

/-- The walk asks for each pair of the mapping once. -/
structure AsksForEach (m : mapping_t K (cell_t V)) (l : List (mapping_node_t K V))
    (rets : List V) : Prop where
  length : rets.length = l.length
  distinct : l.NodupKeys
  found : ∀ key, l.dlookup key = m.found key

structure FilterExact (accepts : V → Bool) (m : mapping_t K (cell_t V)) (rets : List V)
    (r : mapping_t K V) : Prop where
  asks : AsksForEach m (pairs m) rets
  sound : Sound hash r
  lookup : ∀ key, r.denotes.lookup key = (accepted accepts (pairs m) rets).dlookup key

structure MapExact (m : mapping_t K (cell_t V)) (rets : List V) (r : mapping_t K (cell_t V)) :
    Prop where
  asks : AsksForEach m (pairs (copyMapping m)) rets
  sound : Sound hash r
  keys : r.denotes.keys = m.denotes.keys
  found : ∀ key, r.found key = (answers (pairs (copyMapping m)) rets).dlookup key

end mudos.mapping
