-- The user ids: the records that a tree holds by their names, and the ids that
-- objects get from the master object, from their loaders and from each other.
import MudOS.AvlTrees
import MudOS.Library.Runs

open mudos.avltree mudos.runs

namespace mudos.user_ids

/-! ## The records -/

/-- A name is the address of its shared string. -/
structure userid_t where
  name : Nat
deriving DecidableEq

/-- The records that have been allocated, by their addresses, and the pointers to them. -/
structure registry where
  userids : List userid_t
  uids : tree Nat
  root_uid : Option Nat
  backbone_uid : Option Nat
deriving DecidableEq

def record (s : registry) (uid : Nat) : userid_t := s.userids.getD uid ⟨0⟩

def uidcmp (uid1 uid2 : userid_t) : Int :=
  let name1 := uid1.name
  let name2 := uid2.name
  if name1 < name2 then -1 else if name1 > name2 then 1 else 0

def search (name : Nat) (s : registry) : Option Nat :=
  tree_srch (fun t_uid uid => uidcmp t_uid (record s uid)) ⟨name⟩ s.uids

def enter (uid : Nat) (s : registry) : Option registry := do
  let uids ← tree_add (fun uid1 uid2 => uidcmp (record s uid1) (record s uid2)) uid s.uids
  some { s with uids := uids }

def add_uid (name : Nat) (s : registry) : Option (Nat × registry) :=
  match search name s with
  | some uid => some (uid, s)
  | none => do
    let uid := s.userids.length
    let s ← enter uid { s with userids := s.userids ++ [⟨name⟩] }
    some (uid, s)

/-- The record goes out of the tree and comes in under the name. -/
def rename (uid name : Nat) (s : registry) : Option (Nat × registry) := do
  let (uids, _) ← tree_delete (fun uid1 uid2 => uidcmp (record s uid1) uid2) (record s uid) s.uids
  let s ← enter uid { s with uids := uids, userids := s.userids.set uid ⟨name⟩ }
  some (uid, s)

def set_root_uid (name : Nat) (s : registry) : Option (Nat × registry) :=
  match s.root_uid with
  | none => do
    let (uid, s) ← add_uid name s
    some (uid, { s with root_uid := some uid })
  | some uid => rename uid name s

def set_backbone_uid (name : Nat) (s : registry) : Option (Nat × registry) :=
  match s.backbone_uid with
  | none => do
    let (uid, s) ← add_uid name s
    some (uid, { s with backbone_uid := some uid })
  | some uid => rename uid name s

inductive call
  | add_uid (name : Nat)
  | set_root_uid (name : Nat)
  | set_backbone_uid (name : Nat)

def call.exec (s : registry) : call → Option (Nat × registry)
  | .add_uid name => user_ids.add_uid name s
  | .set_root_uid name => user_ids.set_root_uid name s
  | .set_backbone_uid name => user_ids.set_backbone_uid name s

def no_uids : registry where
  userids := []
  uids := .null
  root_uid := none
  backbone_uid := none

/-- A state that some calls lead to. -/
def Registry (s : registry) : Prop :=
  Reachable no_uids (fun s c => (call.exec s c).map Prod.snd) (fun _ _ => True) s

/-! ## The ids of the objects -/

structure object_t where
  uid : Option Nat
  euid : Option Nat
deriving DecidableEq

/-- What has happened is in the last two: who has loaded the objects, and which objects were to
have which names as effective user ids when the master object was asked. -/
structure driver extends registry where
  objects : List object_t
  master_ob : Option Nat
  loaders : List Nat
  approved : List (Nat × Nat)
deriving DecidableEq

abbrev NONAME : Nat := 0

/-- The ids of a new object, for the name that `creator_file` has returned. A function of the
master object may have changed those of the loader since the object was asked for. -/
def give_uid_to_object (current_object creator_name : Nat) (d : driver) :
    Option (object_t × driver) :=
  match d.master_ob with
  | none => do
    let (uid, s) ← add_uid NONAME d.toregistry
    some (⟨some uid, none⟩, { d with toregistry := s })
  | some _ => do
    let current ← d.objects[current_object]?
    let uid ← current.uid
    let backbone_uid ← d.backbone_uid
    if (record d.toregistry uid).name = creator_name then some (current, d)
    else if (record d.toregistry backbone_uid).name = creator_name then
      some (⟨current.euid, current.euid⟩, d)
    else do
      let (uid, s) ← add_uid creator_name d.toregistry
      some (⟨some uid, none⟩, { d with toregistry := s })

def set_euid (ob : Nat) (euid : Option Nat) (d : driver) : driver :=
  { d with objects := d.objects.modify ob fun o => { o with euid := euid } }

/-- The actions of LPC code and of the driver. The answers of the master object are given. -/
inductive action
  | init_object (current_object creator_name : Nat)
  | set_master (ob root_name backbone_name : Nat)
  | f_seteuid (current_object name : Nat) (approved : Bool)
  | f_seteuid_0 (current_object : Nat)
  | f_export_uid (current_object ob : Nat)
  | reload_object (ob : Nat)

def step (d : driver) : action → Option driver
  | .init_object current_object creator_name => do
    let (ob, d) ← give_uid_to_object current_object creator_name d
    some { d with objects := d.objects ++ [ob], loaders := d.loaders ++ [current_object] }
  | .set_master ob root_name backbone_name => do
    let (uid, s) ← (if d.master_ob.isNone then set_root_uid else add_uid) root_name d.toregistry
    let s ← (if d.master_ob.isNone then (set_backbone_uid backbone_name s).map Prod.snd else some s)
    some { d with
      toregistry := s
      objects := d.objects.modify ob fun _ => ⟨some uid, some uid⟩
      master_ob := some ob
      approved := (ob, root_name) :: d.approved }
  | .f_seteuid current_object name approved =>
    if approved then do
      let (uid, s) ← add_uid name d.toregistry
      some { set_euid current_object (some uid) { d with toregistry := s } with
        approved := (current_object, name) :: d.approved }
    else some d
  | .f_seteuid_0 current_object => some (set_euid current_object none d)
  | .f_export_uid current_object ob => do
    let current ← d.objects[current_object]?
    match current.euid with
    | none => some d -- an error
    | some euid =>
      some { d with
        objects := d.objects.modify ob fun o =>
          if o.euid.isSome then o else { o with uid := some euid } }
  | .reload_object ob => some (set_euid ob none d)

def start : driver where
  toregistry := no_uids
  objects := []
  master_ob := none
  loaders := []
  approved := []

end mudos.user_ids
