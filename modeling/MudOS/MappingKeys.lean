-- The keys of the mappings as `mapping.c` compares them: the hash and `msameval` look at the union
-- of a value, whose pointers, ints and floats have 32 bits each.
import MudOS.Mapping

namespace mudos.mapping

/-! ## Keys -/

inductive type_t
  | T_NUMBER
  | T_STRING
  | T_REAL
  | T_ARRAY
  | T_OBJECT
  | T_MAPPING
  | T_FUNCTION
  | T_BUFFER
  | T_CLASS
deriving DecidableEq

/-- The union, and what `==` makes of it: a string also has its text. -/
structure svalue_t where
  type : type_t
  u : UInt32
  string : List UInt8
deriving DecidableEq

/-- The floats without their signs: the last 31 bits. -/
def magnitude (u : UInt32) : Nat := u.toNat % 2 ^ 31

/-- `==` of two floats: the zeros are equal, and what is not a number is equal to nothing. -/
def real_eq (x y : UInt32) : Bool :=
  (x = y || (magnitude x = 0 && magnitude y = 0)) &&
    magnitude x ≤ 0x7f800000 && magnitude y ≤ 0x7f800000

/-- `MAP_POINTER_HASH`; the masks have no use for the bits of the sign. A string has become a shared
one before. -/
def svalue_to_int (v : svalue_t) : Nat := v.u.toNat >>> 4

def msameval (arg1 arg2 : svalue_t) : Bool :=
  match arg1.type, arg2.type with
  | .T_NUMBER, .T_NUMBER => arg1.u = arg2.u
  | .T_REAL, .T_REAL => real_eq arg1.u arg2.u
  | _, _ => arg1.u = arg2.u

/-- The types are the same, and the values are equal by `==`: strings by their texts, and what a
pointer points to by its identity. -/
def same (a b : svalue_t) : Bool :=
  a.type = b.type &&
    match a.type with
    | .T_REAL => real_eq a.u b.u
    | .T_STRING => a.string = b.string
    | _ => a.u = b.u

/-- The strings are shared: one text is at one address. -/
def Shared (S : Set svalue_t) : Prop :=
  ∀ a ∈ S, ∀ b ∈ S, a.type = .T_STRING → b.type = .T_STRING → (a.string = b.string ↔ a.u = b.u)

/-! ## Storing -/

section

variable {V : Type}

/-- The end of `find_for_insert`: a new node at the head of a bucket. -/
def insert_node (MAX_MAPPING_SIZE : Nat) (const0u : V) (m : mapping_t svalue_t V) (i : Nat)
    (lv : svalue_t) : mapping_t svalue_t V × Option (Nat × Nat) :=
  if m.count + 1 > MAX_MAPPING_SIZE then (m, none)
  else
    ({ m with
      table := Function.update m.table i (⟨lv, const0u⟩ :: m.table i)
      count := m.count + 1 }, some (i, 0))

/-- `find_for_insert` with the comparison of the code: the mapping, and the bucket and the place of
the node whose value is returned, or nothing when there is an error. -/
def raw_find_for_insert (MAX_MAPPING_SIZE : Nat) (const0u : V) (m : mapping_t svalue_t V)
    (lv : svalue_t) : mapping_t svalue_t V × Option (Nat × Nat) :=
  let oi := svalue_to_int lv
  let i := oi &&& m.table_size
  match (m.table i).findIdx? fun n => msameval lv n.1 with
  | some j => (m, some (i, j))
  | none =>
    if (m.table i).isEmpty then
      let m := { m with unfilled := decr m.unfilled }
      if m.unfilled = 0 then
        let size := m.table_size + 1
        match growMap svalue_to_int m with
        | some m =>
          insert_node MAX_MAPPING_SIZE const0u m (if oi &&& size ≠ 0 then i ||| size else i) lv
        | none => (m, none)
      else insert_node MAX_MAPPING_SIZE const0u m i lv
    else insert_node MAX_MAPPING_SIZE const0u m i lv

/-- A value is stored under a key; the flag tells that there was no error. -/
def store (MAX_MAPPING_SIZE : Nat) (const0u : V) (m : mapping_t svalue_t V) (lv : svalue_t)
    (v : V) : mapping_t svalue_t V × Bool :=
  match raw_find_for_insert MAX_MAPPING_SIZE const0u m lv with
  | (m, some (i, j)) =>
    ({ m with table := Function.update m.table i ((m.table i).modify j fun n => ⟨n.1, v⟩) }, true)
  | (m, none) => (m, false)

/-- `node_find_in_mapping`, with the value of the node. -/
def node_find_in_mapping (m : mapping_t svalue_t V) (lv : svalue_t) : Option V :=
  ((m.table (svalue_to_int lv &&& m.table_size)).find? fun elt => msameval elt.1 lv).map (·.2)

def raw_mapping_delete (m : mapping_t svalue_t V) (lv : svalue_t) : mapping_t svalue_t V :=
  let i := svalue_to_int lv &&& m.table_size
  if (m.table i).any fun elt => msameval elt.1 lv then
    let l := (m.table i).eraseP fun elt => msameval elt.1 lv
    { m with
      table := Function.update m.table i l
      unfilled := if l.isEmpty then incr m.unfilled else m.unfilled
      count := m.count - 1 }
  else m

/-- The mappings that can be built, and what an error leaves of one. -/
inductive Built (MAX_MAPPING_SIZE : Nat) (const0u : V) : mapping_t svalue_t V → Prop
  | allocated (n : Nat) : Built MAX_MAPPING_SIZE const0u (allocate_mapping MAX_MAPPING_SIZE n)
  | stored {m : mapping_t svalue_t V} (lv : svalue_t) (v : V) : Built MAX_MAPPING_SIZE const0u m →
      Built MAX_MAPPING_SIZE const0u (store MAX_MAPPING_SIZE const0u m lv v).1
  | deleted {m : mapping_t svalue_t V} (lv : svalue_t) : Built MAX_MAPPING_SIZE const0u m →
      Built MAX_MAPPING_SIZE const0u (raw_mapping_delete m lv)
  | copied {m : mapping_t svalue_t V} : Built MAX_MAPPING_SIZE const0u m →
      Built MAX_MAPPING_SIZE const0u (copyMapping m)

def KeysIn (m : mapping_t svalue_t V) (S : Set svalue_t) : Prop :=
  ∀ i, ∀ n ∈ m.table i, n.1 ∈ S

/-- What is stored under a key is found under the keys that are the same as it, which have its
bucket, and nothing changes for the others. -/
def ToldApart (MAX_MAPPING_SIZE : Nat) (const0u : V) (m : mapping_t svalue_t V) (k1 k2 : svalue_t) :
    Prop :=
  (same k1 k2 → svalue_to_int k1 &&& m.table_size = svalue_to_int k2 &&& m.table_size) ∧
    ∀ v m', store MAX_MAPPING_SIZE const0u m k1 v = (m', true) →
      node_find_in_mapping m' k2 = if same k1 k2 then some v else node_find_in_mapping m k2

end

end mudos.mapping
