-- The balanced trees in which the user ids are kept: the search, and how a node
-- comes in and goes out with the rotations that keep the balance.
import Mathlib.Order.Lattice

namespace mudos.avltree

variable {α β : Type*}

/-- `tree_b` is to be the height of the right branch less that of the left one. -/
inductive tree (α : Type*)
  | null
  | node (tree_l : tree α) (tree_p : α) (tree_b : Int) (tree_r : tree α)
deriving DecidableEq

open tree

def tree.isNull : tree α → Bool
  | null => true
  | node .. => false

def tree_srch (pfi_compare : β → α → Int) (pc_user : β) : tree α → Option α
  | null => none
  | node tree_l tree_p _ tree_r =>
    let i_comp := pfi_compare pc_user tree_p
    if i_comp > 0 then tree_srch pfi_compare pc_user tree_r
    else if i_comp < 0 then tree_srch pfi_compare pc_user tree_l
    else some tree_p

/-! ## A new node -/

/-- The left branch has grown longer. There is no result where the code would follow a
null pointer, here and in what is below. -/
def left_longer (tree_l : tree α) (tree_p : α) (tree_b : Int) (tree_r : tree α) :
    Option (tree α × Bool) :=
  if tree_b = 1 then some (node tree_l tree_p 0 tree_r, false)
  else if tree_b = 0 then some (node tree_l tree_p (-1) tree_r, true)
  else if tree_b = -1 then
    match tree_l with
    | null => none
    | node l1 p1 b1 r1 =>
      if b1 = -1 then some (node l1 p1 0 (node r1 tree_p 0 tree_r), false)
      else
        match r1 with
        | null => none
        | node l2 p2 b2 r2 =>
          some (node (node l1 p1 (if b2 = 1 then -1 else 0) l2) p2 0
            (node r2 tree_p (if b2 = -1 then 1 else 0) tree_r), false)
  else some (node tree_l tree_p tree_b tree_r, true)

def right_longer (tree_l : tree α) (tree_p : α) (tree_b : Int) (tree_r : tree α) :
    Option (tree α × Bool) :=
  if tree_b = -1 then some (node tree_l tree_p 0 tree_r, false)
  else if tree_b = 0 then some (node tree_l tree_p 1 tree_r, true)
  else if tree_b = 1 then
    match tree_r with
    | null => none
    | node l1 p1 b1 r1 =>
      if b1 = 1 then some (node (node tree_l tree_p 0 l1) p1 0 r1, false)
      else
        match l1 with
        | null => none
        | node l2 p2 b2 r2 =>
          some (node (node tree_l tree_p (if b2 = 1 then -1 else 0) l2) p2 0
            (node r2 p1 (if b2 = -1 then 1 else 0) r1), false)
  else some (node tree_l tree_p tree_b tree_r, true)

/-- The tree with `*pi_balance`, which says whether it has grown. -/
def sprout (pfi_compare : α → α → Int) (pc_data : α) : tree α → Option (tree α × Bool)
  | null => some (node null pc_data 0 null, true)
  | node tree_l tree_p tree_b tree_r =>
    let cmp := pfi_compare pc_data tree_p
    if cmp < 0 then do
      let (tree_l, i_balance) ← sprout pfi_compare pc_data tree_l
      if i_balance then left_longer tree_l tree_p tree_b tree_r
      else some (node tree_l tree_p tree_b tree_r, false)
    else if cmp > 0 then do
      let (tree_r, i_balance) ← sprout pfi_compare pc_data tree_r
      if i_balance then right_longer tree_l tree_p tree_b tree_r
      else some (node tree_l tree_p tree_b tree_r, false)
    else some (node tree_l pc_data tree_b tree_r, false)

def tree_add (pfi_compare : α → α → Int) (pc_user : α) (t : tree α) : Option (tree α) :=
  (sprout pfi_compare pc_user t).map Prod.fst

/-! ## A node less -/

/-- The left branch has become shorter. -/
def balanceL (tree_l : tree α) (tree_p : α) (tree_b : Int) (tree_r : tree α) :
    Option (tree α × Bool) :=
  if tree_b = -1 then some (node tree_l tree_p 0 tree_r, true)
  else if tree_b = 0 then some (node tree_l tree_p 1 tree_r, false)
  else if tree_b = 1 then
    match tree_r with
    | null => none
    | node l1 p1 b1 r1 =>
      if b1 ≥ 0 then
        if b1 = 0 then some (node (node tree_l tree_p 1 l1) p1 (-1) r1, false)
        else some (node (node tree_l tree_p 0 l1) p1 0 r1, true)
      else
        match l1 with
        | null => none
        | node l2 p2 b2 r2 =>
          some (node (node tree_l tree_p (if b2 = 1 then -1 else 0) l2) p2 0
            (node r2 p1 (if b2 = -1 then 1 else 0) r1), true)
  else some (node tree_l tree_p tree_b tree_r, true)

def balanceR (tree_l : tree α) (tree_p : α) (tree_b : Int) (tree_r : tree α) :
    Option (tree α × Bool) :=
  if tree_b = 1 then some (node tree_l tree_p 0 tree_r, true)
  else if tree_b = 0 then some (node tree_l tree_p (-1) tree_r, false)
  else if tree_b = -1 then
    match tree_l with
    | null => none
    | node l1 p1 b1 r1 =>
      if b1 ≤ 0 then
        if b1 = 0 then some (node l1 p1 1 (node r1 tree_p (-1) tree_r), false)
        else some (node l1 p1 0 (node r1 tree_p 0 tree_r), true)
      else
        match r1 with
        | null => none
        | node l2 p2 b2 r2 =>
          some (node (node l1 p1 (if b2 = 1 then -1 else 0) l2) p2 0
            (node r2 tree_p (if b2 = -1 then 1 else 0) tree_r), true)
  else some (node tree_l tree_p tree_b tree_r, true)

/-- The rightmost node goes out of the tree, with what it holds. -/
def del : tree α → Option (tree α × α × Bool)
  | null => none
  | node tree_l tree_p tree_b tree_r =>
    if tree_r.isNull then some (tree_l, tree_p, true)
    else do
      let (tree_r, q, i_balance) ← del tree_r
      let (r, i_balance) ←
        (if i_balance then balanceR tree_l tree_p tree_b tree_r
          else some (node tree_l tree_p tree_b tree_r, false))
      some (r, q, i_balance)

/-- The tree, `*pi_balance` and whether there was such a node. -/
def delete (pfi_compare : α → β → Int) (pc_user : β) : tree α → Option (tree α × Bool × Bool)
  | null => some (null, false, false)
  | node tree_l tree_p tree_b tree_r =>
    let i_comp := pfi_compare tree_p pc_user
    if i_comp > 0 then do
      let (tree_l, i_balance, i_ret) ← delete pfi_compare pc_user tree_l
      let (p, i_balance) ←
        (if i_balance then balanceL tree_l tree_p tree_b tree_r
          else some (node tree_l tree_p tree_b tree_r, false))
      some (p, i_balance, i_ret)
    else if i_comp < 0 then do
      let (tree_r, i_balance, i_ret) ← delete pfi_compare pc_user tree_r
      let (p, i_balance) ←
        (if i_balance then balanceR tree_l tree_p tree_b tree_r
          else some (node tree_l tree_p tree_b tree_r, false))
      some (p, i_balance, i_ret)
    else if tree_r.isNull then some (tree_l, true, true)
    else if tree_l.isNull then some (tree_r, true, true)
    else do
      let (tree_l, q, i_balance) ← del tree_l
      let (p, i_balance) ←
        (if i_balance then balanceL tree_l q tree_b tree_r
          else some (node tree_l q tree_b tree_r, false))
      some (p, i_balance, true)

def tree_delete (pfi_compare : α → β → Int) (pc_user : β) (t : tree α) :
    Option (tree α × Bool) :=
  (delete pfi_compare pc_user t).map fun (t, _, i_ret) => (t, i_ret)

end mudos.avltree
