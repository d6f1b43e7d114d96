-- `compose_mapping` of `mapping.c`, and the two operators that call it: `F_MULTIPLY`, on a copy
-- of the first mapping, and `f_mult_eq`, on the first mapping itself.
import MudOS.Mapping

namespace mudos.mapping

-- The values of the first mapping are looked up as keys of the second one.
variable {S : Type} [DecidableEq S] (hash : S → Nat)

/-- The variables of the loops; `deleted` is an `unsigned short`. -/
structure composing_t (S : Type) where
  m1 : mapping_t S S
  deleted : Nat

/-- The inner loop on the bucket `j`, which has `kept` and then the nodes that are left. The
second mapping is the first one itself where `m2` is `none`. -/
def compose_chain (m2 : Option (mapping_t S S)) (j : Nat) :
    List (mapping_node_t S S) → List (mapping_node_t S S) → composing_t S → composing_t S
  | _, [], s => s
  | kept, elt :: next, s =>
    let b := m2.getD s.m1
    match (b.table (hash elt.2 &&& b.table_size)).dlookup elt.2 with
    | some v =>
      compose_chain m2 j (kept ++ [⟨elt.1, v⟩]) next { s with
        m1 := { s.m1 with table := Function.update s.m1.table j (kept ++ ⟨elt.1, v⟩ :: next) } }
    | none =>
      let l := kept ++ next
      compose_chain m2 j kept next {
        m1 := { s.m1 with
          table := Function.update s.m1.table j l
          unfilled := if l.isEmpty then incr s.m1.unfilled else s.m1.unfilled }
        deleted := short (s.deleted + 1) }

def compose_buckets (m2 : Option (mapping_t S S)) (n : Nat) (m1 : mapping_t S S) : composing_t S :=
  (List.range n).foldl (fun s j => compose_chain hash m2 j [] (s.m1.table j) s) ⟨m1, 0⟩

/-- The mapping that was composed, and the one that is returned. -/
def compose_mapping (m1 : mapping_t S S) (m2 : Option (mapping_t S S)) (flag : Bool) :
    mapping_t S S × Option (mapping_t S S) :=
  let m1 := if flag then copyMapping m1 else m1
  let s := compose_buckets hash m2 (m1.table_size + 1) m1
  let m := { s.m1 with count := s.m1.count - s.deleted }
  (m, if flag then some m else none)

/-! ## The operators -/

/-- The mappings of the driver, or a write to the address 0. -/
inductive product_t (S : Type)
  | done (maps : List (mapping_t S S))
  | crashed

/-- `F_MULTIPLY` on two mappings pushes a new one. -/
def f_multiply (maps : List (mapping_t S S)) (i j : Nat) : Option (product_t S) := do
  let m1 ← maps[i]?
  let m2 ← maps[j]?
  match (compose_mapping hash m1 (some m2) true).2 with
  | some m => some (.done (maps ++ [m]))
  | none => some .crashed

/-- `f_mult_eq` on two mappings: `push_mapping` counts a reference to what was returned, and
the variable gets it. -/
def f_mult_eq (maps : List (mapping_t S S)) (i j : Nat) : Option (product_t S) := do
  let m1 ← maps[i]?
  let m2 ← maps[j]?
  match (compose_mapping hash m1 (if i = j then none else some m2) false).2 with
  | some m => some (.done (maps.set i m))
  | none => some .crashed

inductive product_op
  | multiply
  | mult_eq
deriving DecidableEq

def product_op.run (op : product_op) (maps : List (mapping_t S S)) (i j : Nat) :
    Option (product_t S) :=
  match op with
  | .multiply => f_multiply hash maps i j
  | .mult_eq => f_mult_eq hash maps i j

/-! ## What a product is -/

/-- The mapping `{k: g[f[k]] | k in f, f[k] in g}`. -/
def IsProduct (f g h : FiniteMap S S) : Prop := ∀ k, h.lookup k = (f.lookup k).bind g.lookup

/-- How many keys of `f` have values that are no keys of `g`. -/
def lost (f g : FiniteMap S S) : Nat :=
  (f.keys.filter fun k => ((f.lookup k).bind g.lookup).isNone).card

def product_op.place (op : product_op) (maps : List (mapping_t S S)) (i : Nat)
    (m : mapping_t S S) : List (mapping_t S S) :=
  match op with
  | .multiply => maps ++ [m]
  | .mult_eq => maps.set i m

end mudos.mapping
