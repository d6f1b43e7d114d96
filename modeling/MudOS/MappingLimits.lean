-- What is left when a mapping exceeds its limit: the routines of `mapping.c` that insert nodes,
-- and `restore_mapping` of `object.c`, with the mapping and the number of counted nodes as they
-- are when the error is raised.
import MudOS.MappingLaws

namespace mudos.mapping

variable {K V : Type} [DecidableEq K] (hash : K → Nat)

/-! ## One node -/

/-- The error, the mapping as it is left, and the nodes that were added to
`total_mapping_nodes`. -/
inductive stopped_t (K V : Type)
  | too_large (m : mapping_t K V) (counted : Nat)
  | out_of_memory

/-- The limit is tested when the bucket has been taken. -/
def find_for_insert_or_stop (MAX_MAPPING_SIZE : Nat) (const0u : V) (m : mapping_t K V) (lv : K) :
    Except (stopped_t K V) (mapping_t K V × Nat) :=
  let oi := hash lv
  let i := oi &&& m.table_size
  if lv ∈ (m.table i).keys then .ok (m, i)
  else
    let grown : Option (mapping_t K V × Nat) :=
      if (m.table i).isEmpty then
        let m := { m with unfilled := decr m.unfilled }
        if m.unfilled = 0 then
          let size := m.table_size + 1
          (growMap hash m).map fun m => (m, if oi &&& size ≠ 0 then i ||| size else i)
        else some (m, i)
      else some (m, i)
    match grown with
    | none => .error .out_of_memory
    | some (m, i) =>
      let m := { m with count := m.count + 1 }
      if m.count > MAX_MAPPING_SIZE then .error (.too_large { m with count := m.count - 1 } 0)
      else .ok ({ m with table := Function.update m.table i (⟨lv, const0u⟩ :: m.table i) }, i)

/-- One turn of the loops of `add_to_mapping` and `unique_add_to_mapping`. -/
def add_node_or_stop (MAX_MAPPING_SIZE : Nat) (overwrite : Bool) (s : adding_t K V)
    (elt : mapping_node_t K V) : Except (stopped_t K V) (adding_t K V) :=
  let oi := hash elt.1
  let i := oi &&& s.mask
  if elt.1 ∈ (s.m.table i).keys then
    if overwrite then
      .ok { s with m := { s.m with
        table := Function.update s.m.table i ((s.m.table i).kreplace elt.1 elt.2) } }
    else .ok s
  else
    match make_room hash s oi i with
    | none => .error .out_of_memory
    | some (m, mask, i, n) =>
      let count := s.count + 1
      if count > MAX_MAPPING_SIZE then
        let count := count - (m.count + 1)
        .error (.too_large { m with count := m.count + count } count)
      else .ok ⟨{ m with table := Function.update m.table i (elt :: n) }, mask, count⟩

/-- One turn of the loop of `filter_mapping`, for a node that is accepted. -/
def filter_node_or_stop (MAX_MAPPING_SIZE : Nat) (s : adding_t K V) (elt : mapping_node_t K V) :
    Except (stopped_t K V) (adding_t K V) :=
  let tb_index := hash elt.1 &&& s.mask
  let room : Option (mapping_t K V × Nat × Nat) :=
    if (s.m.table tb_index).isEmpty then
      let newmap := { s.m with unfilled := decr s.m.unfilled }
      if newmap.unfilled = 0 then
        (growMap hash newmap).map fun newmap =>
          (newmap, newmap.table_size, hash elt.1 &&& newmap.table_size)
      else some (newmap, s.mask, tb_index)
    else some (s.m, s.mask, tb_index)
  match room with
  | none => .error .out_of_memory
  | some (newmap, size, tb_index) =>
    let count := s.count + 1
    if count > MAX_MAPPING_SIZE then
      let count := count - 1
      .error (.too_large { newmap with count } count)
    else
      .ok ⟨{ newmap with
        table := Function.update newmap.table tb_index (elt :: newmap.table tb_index) },
        size, count⟩

def adding (m : mapping_t K V) : adding_t K V := ⟨m, m.table_size, m.count⟩

/-! ## The operations -/

/-- What the text of a mapping is to `restore_mapping`: mappings begin and end, also inside of each
other, and a node is there when its key and its value are. -/
inductive event_t (K V : Type)
  | opened (size : Nat)
  | node (key : K) (value : V)
  | closed

inductive op_t (K V : Type)
  /-- `m[lv]`, to be assigned -/
  | insert (m : mapping_t K V) (lv : K)
  /-- `m1 += m2` -/
  | absorb (m1 m2 : mapping_t K V)
  /-- `m1 + m2` -/
  | add (m1 m2 : mapping_t K V)
  | aggregate (sp : List (mapping_node_t K V))
  | filter (accepted : List (mapping_node_t K V))
  | restore (text : List (event_t K V))

/-- What is allocated after the error: the mapping that was being changed, unless it is freed, and
the other mappings of the operation. -/
structure left_t (K V : Type) where
  changed : Option (mapping_t K V)
  others : List (mapping_t K V)
  total_mapping_nodes : Int

inductive ended_t (K V : Type)
  | done
  | out_of_memory
  | too_large (left : left_t K V)

/-- `dealloc_mapping` takes the nodes that `count` says from those that are counted. -/
def freed (counted : Int) (count : Nat) : left_t K V := ⟨none, [], counted - count⟩

/-- The error goes out of the operation with what it says is left. -/
def ended_t.of {α : Type} (left : mapping_t K V → Nat → left_t K V) :
    Except (stopped_t K V) α → ended_t K V
  | .ok _ => .done
  | .error (.too_large m counted) => .too_large (left m counted)
  | .error .out_of_memory => .out_of_memory

def stays (counted : Int) (m : mapping_t K V) (more : Nat) : left_t K V :=
  ⟨some m, [], counted + more⟩

def add_nodes_or_stop (MAX_MAPPING_SIZE : Nat) (overwrite : Bool) (m : mapping_t K V)
    (l : List (mapping_node_t K V)) : Except (stopped_t K V) (adding_t K V) :=
  l.foldlM (add_node_or_stop hash MAX_MAPPING_SIZE overwrite) (adding m)

/-- The mappings that are being restored, the innermost first. -/
structure restoring_t (K V : Type) where
  around : List (adding_t K V)
  finished : List (mapping_t K V)
  total_mapping_nodes : Int

/-- `add_map_stats` -/
def restoring_t.close (r : restoring_t K V) (s : adding_t K V) (around : List (adding_t K V)) :
    restoring_t K V :=
  { around
    finished := { s.m with count := s.count } :: r.finished
    total_mapping_nodes := r.total_mapping_nodes + s.count }

/-- With the error the innermost mapping is freed, after its nodes are counted. -/
def restore_event (MAX_MAPPING_SIZE : Nat) (r : restoring_t K V) :
    event_t K V → Except (ended_t K V) (restoring_t K V)
  | .opened size =>
    .ok { r with around := adding (allocate_mapping MAX_MAPPING_SIZE (size / 2)) :: r.around }
  | .node key value =>
    match r.around with
    | [] => .ok r
    | s :: around =>
      match add_node_or_stop hash MAX_MAPPING_SIZE true s ⟨key, value⟩ with
      | .ok s => .ok { r with around := s :: around }
      | .error .out_of_memory => .error .out_of_memory
      | .error (.too_large _ _) =>
        let count := s.count + 1
        .error (.too_large
          { changed := none
            others := r.finished ++ around.map adding_t.m
            total_mapping_nodes := r.total_mapping_nodes + (count - 1 : Nat) - (count - 1 : Nat) })
  | .closed =>
    match r.around with
    | [] => .ok r
    | s :: around => .ok (r.close s around)

def restore_mapping (MAX_MAPPING_SIZE : Nat) (text : List (event_t K V)) :
    Except (ended_t K V) (restoring_t K V) :=
  text.foldlM (restore_event hash MAX_MAPPING_SIZE) ⟨[], [], 0⟩

def perform (MAX_MAPPING_SIZE : Nat) (const0u : V) : op_t K V → ended_t K V
  | .insert m lv => .of (stays 0) (find_for_insert_or_stop hash MAX_MAPPING_SIZE const0u m lv)
  | .absorb m1 m2 =>
    if m2.count ≠ 0 then
      .of (stays 0) (add_nodes_or_stop hash MAX_MAPPING_SIZE true m1 (traverse m2))
    else .done
  | .add m1 m2 =>
    if m1.count ≥ m2.count then
      if m2.count ≠ 0 then
        .of (stays m1.count)
          (add_nodes_or_stop hash MAX_MAPPING_SIZE true (copyMapping m1) (traverse m2))
      else .done
    else if m1.count ≠ 0 then
      .of (stays m2.count)
        (add_nodes_or_stop hash MAX_MAPPING_SIZE false (copyMapping m2) (traverse m1))
    else .done
  | .aggregate sp =>
    -- the node that is one too many is counted also, and taken back with the mapping
    .of (fun m _ => freed (m.count + 1 : Nat) (m.count + 1))
      (add_nodes_or_stop hash MAX_MAPPING_SIZE true
        (allocate_mapping MAX_MAPPING_SIZE sp.length) sp)
  | .filter accepted =>
    -- the error handler frees the new mapping on the stack
    .of (fun m counted => freed counted m.count)
      (accepted.foldlM (filter_node_or_stop hash MAX_MAPPING_SIZE)
        (adding (allocate_mapping MAX_MAPPING_SIZE 0)))
  | .restore text =>
    match restore_mapping hash MAX_MAPPING_SIZE text with
    | .ok _ => .done
    | .error e => e

/-! ## What an error is to leave -/

/-- What doubling a table of this size so many times adds to the buckets that may be taken. -/
def gained (size : Nat) : Nat → Nat
  | 0 => 0
  | n + 1 => size * FILL_PERCENT / 100 + gained (2 * size) n

/-- `unfilled` counts the buckets that are left before the table grows, but for `e` of them. -/
def Holds (e : Nat) (m m' : mapping_t K V) : Prop :=
  ∃ n, m'.table_size + 1 = 2 ^ n * (m.table_size + 1) ∧
    m'.unfilled + filled m'.table (m'.table_size + 1) + e =
      m.unfilled + filled m.table (m.table_size + 1) + gained (m.table_size + 1) n

/-- The mapping that an operation changes, as it was. -/
def op_t.before : op_t K V → Option (mapping_t K V)
  | .insert m _ => some m
  | .absorb m1 _ => some m1
  | .add m1 m2 => some (copyMapping (if m1.count ≥ m2.count then m1 else m2))
  | .aggregate _ => none
  | .filter _ => none
  | .restore _ => none

def op_t.entries : op_t K V → List (mapping_node_t K V)
  | .absorb _ m2 => traverse m2
  | .add m1 m2 => traverse (if m1.count ≥ m2.count then m2 else m1)
  | .insert _ _ => []
  | .aggregate sp => sp
  | .filter accepted => accepted
  | .restore _ => []

/-- The nodes of the operation's mappings that were allocated before it. -/
def op_t.live : op_t K V → Nat
  | .insert m _ => m.nodes.length
  | .absorb m1 _ => m1.nodes.length
  | .add _ _ => 0
  | .aggregate _ => 0
  | .filter _ => 0
  | .restore _ => 0

def left_t.live (left : left_t K V) : Nat :=
  ((left.changed.toList ++ left.others).map fun m => m.nodes.length).sum

def op_t.Ready : op_t K V → Prop
  | .insert m _ => Ok hash m ∧ Roomy 0 m
  | .absorb m1 _ => Ok hash m1 ∧ Roomy 0 m1
  | .add m1 m2 => (Ok hash m1 ∧ Roomy 0 m1) ∧ Ok hash m2 ∧ Roomy 0 m2
  | .aggregate _ => True
  | .filter _ => True
  | .restore _ => True

structure Atomic (op : op_t K V) (left : left_t K V) : Prop where
  sound : ∀ m' ∈ left.changed, Sound hash m'
  room : ∀ m ∈ op.before, ∀ m' ∈ left.changed, Holds 0 m m'
  kept : ∀ m ∈ op.before, ∀ m' ∈ left.changed, ∀ key v, m.denotes.lookup key = some v →
    ∃ v', m'.denotes.lookup key = some v' ∧ (v' = v ∨ ⟨key, v'⟩ ∈ op.entries)
  whole : ∀ m ∈ op.before, ∀ m' ∈ left.changed, ∀ key v', m'.denotes.lookup key = some v' →
    m.denotes.lookup key = some v' ∨ ⟨key, v'⟩ ∈ op.entries
  counted : left.total_mapping_nodes = left.live - op.live

/-! ## When it does -/

/-- The loop before the node that is one too many, and this node. -/
def too_many_at (MAX_MAPPING_SIZE : Nat) (overwrite : Bool) :
    adding_t K V → List (mapping_node_t K V) → Option (adding_t K V × mapping_node_t K V)
  | _, [] => none
  | s, elt :: l =>
    match add_node_or_stop hash MAX_MAPPING_SIZE overwrite s elt with
    | .ok s => too_many_at MAX_MAPPING_SIZE overwrite s l
    | .error (.too_large _ _) => some (s, elt)
    | .error .out_of_memory => none

/-- The mappings around the one that is too large. -/
def too_many_in (MAX_MAPPING_SIZE : Nat) :
    restoring_t K V → List (event_t K V) → Option (List (adding_t K V))
  | _, [] => none
  | r, event :: text =>
    match restore_event hash MAX_MAPPING_SIZE r event with
    | .ok r => too_many_in MAX_MAPPING_SIZE r text
    | .error (.too_large _) => some r.around.tail
    | .error _ => none

def FallsOnNodes (at_ : Option (adding_t K V × mapping_node_t K V)) : Prop :=
  ∀ s elt, at_ = some (s, elt) → s.m.table (hash elt.1 &&& s.mask) ≠ []

def op_t.Harmless (MAX_MAPPING_SIZE : Nat) : op_t K V → Prop
  | .insert m lv => m.table (hash lv &&& m.table_size) ≠ []
  | .absorb m1 m2 =>
    FallsOnNodes hash (too_many_at hash MAX_MAPPING_SIZE true (adding m1) (traverse m2))
  | .add m1 m2 =>
    if m1.count ≥ m2.count then
      FallsOnNodes hash
        (too_many_at hash MAX_MAPPING_SIZE true (adding (copyMapping m1)) (traverse m2))
    else
      FallsOnNodes hash
        (too_many_at hash MAX_MAPPING_SIZE false (adding (copyMapping m2)) (traverse m1))
  | .aggregate _ => True
  | .filter _ => True
  | .restore text =>
    ∀ around, too_many_in hash MAX_MAPPING_SIZE ⟨[], [], 0⟩ text = some around →
      ∀ s ∈ around, s.count = 0

end mudos.mapping
