-- The table of the connected users. A new connection is first the one of the
-- master object, until `connect` tells whose it is to be, `exec` gives it to
-- another object, and `remove_interactive` takes it away after `net_dead`.
import MudOS.Library.Runs
import MudOS.Library.Slots

namespace mudos.interactives

/-! ## The driver -/

/-- `interactive` is an address. -/
structure object_t where
  interactive : Option Nat
  O_HIDDEN : Bool
  O_DESTRUCTED : Bool

structure interactive_t where
  ob : Nat
  CLOSING : Bool

/-- Code that waits for an apply: `new_user_handler` for `connect`, which can throw an error
to the backend, and `remove_interactive` for `net_dead`, which cannot. -/
inductive frame
  | connect
  | net_dead (ob ip : Nat)
deriving DecidableEq

/-- The driver between two steps, with what waits, the innermost first. -/
structure driver where
  objects : Nat → Option object_t
  ips : Nat → Option interactive_t
  all_users : List (Option Nat)
  num_user : Int
  num_hidden : Int
  master_ob : Nat
  frames : List frame

def interactive (s : driver) (ob : Nat) : Option Nat := (s.objects ob).bind object_t.interactive

def hidden (s : driver) (ob : Nat) : Bool := (s.objects ob).any object_t.O_HIDDEN

def set_interactive (ob : Nat) (p : Option Nat) (s : driver) : driver :=
  { s with
    objects := Function.update s.objects ob
      ((s.objects ob).map fun o => { o with interactive := p }) }

def set_hidden (ob : Nat) (flag : Bool) (s : driver) : driver :=
  { s with
    objects := Function.update s.objects ob
      ((s.objects ob).map fun o => { o with O_HIDDEN := flag }) }

/-- `ip->ob = ob` -/
def set_ob (ip ob : Nat) (s : driver) : driver :=
  { s with ips := Function.update s.ips ip ((s.ips ip).map fun r => { r with ob := ob }) }

def set_closing (ip : Nat) (s : driver) : driver :=
  { s with
    ips := Function.update s.ips ip ((s.ips ip).map fun r => { r with CLOSING := true }) }

/-! ## `remove_interactive` -/

/-- Up to `net_dead`: the connection, when the call goes on. -/
def start_removal (ob : Nat) (s : driver) : Option Nat :=
  (interactive s ob).bind fun ip =>
    (s.ips ip).bind fun r => if r.CLOSING then none else some ip

/-- From `net_dead` on. Where the table does not have the connection, the store is past its
end. -/
def end_removal (ob ip : Nat) (s : driver) : driver :=
  let s := { s with
    num_hidden := if hidden s ob then s.num_hidden - 1 else s.num_hidden
    num_user := s.num_user - 1
    ips := Function.update s.ips ip none
    all_users := s.all_users.set (s.all_users.findIdx (· = some ip)) none }
  set_interactive ob none s

/-- `remove_interactive(ob, 0)`, as far as the call of `net_dead`. -/
def remove_interactive (ob : Nat) (s : driver) : driver :=
  match start_removal ob s with
  | none => s
  | some ip => { set_closing ip s with frames := .net_dead ob ip :: s.frames }

/-- `remove_interactive(ob, 1)` -/
def remove_dested (ob : Nat) (s : driver) : driver :=
  match start_removal ob s with
  | none => s
  | some ip => end_removal ob ip (set_closing ip s)

/-! ## `new_user_handler` -/

/-- A table with a free slot, which is the first one. -/
def free_slot (all_users : List (Option Nat)) : List (Option Nat) × Nat :=
  let i := all_users.findIdx (· = none)
  (if i = all_users.length then all_users ++ List.replicate 10 none else all_users, i)

/-- Up to the call of `connect`. The connection is at a new address. -/
def accept (ip : Nat) (s : driver) : driver :=
  let (all_users, i) := free_slot s.all_users
  { set_interactive s.master_ob (some ip) s with
    ips := Function.update s.ips ip (some ⟨s.master_ob, false⟩)
    all_users := all_users.set i (some ip)
    num_user := s.num_user + 1
    frames := .connect :: s.frames }

/-- What `connect` has given is the user. -/
def hand_over (ob ip : Nat) (s : driver) : driver :=
  let s := { s with num_hidden := if hidden s ob then s.num_hidden + 1 else s.num_hidden }
  set_interactive s.master_ob none (set_ob ip ob (set_interactive ob (some ip) s))

/-- From the return of `connect` on. -/
def connect_returns (ret : Option Nat) (s : driver) : driver :=
  match ret, interactive s s.master_ob with
  | some ob, some ip => hand_over ob ip s
  | _, _ => remove_interactive s.master_ob s

/-! ## Efuns -/

/-- `f_set_hide` -/
def set_hide (current_object : Nat) (flag : Bool) (s : driver) : driver :=
  let s' := set_hidden current_object flag s
  if (interactive s current_object).isSome then
    { s' with
      num_hidden :=
        if flag && !hidden s current_object then s.num_hidden + 1
        else if !flag && hidden s current_object then s.num_hidden - 1
        else s.num_hidden }
  else s'

/-- `exec` -/
def replace_interactive (ob obfrom : Nat) (s : driver) : Except String driver :=
  match interactive s ob, interactive s obfrom with
  | some _, _ => .error "Bad argument 1 to exec()\n"
  | none, none => .error "Bad argument 2 to exec()\n"
  | none, some ip =>
    let s := { s with
      num_hidden :=
        if hidden s ob ≠ hidden s obfrom then
          if hidden s ob then s.num_hidden + 1 else s.num_hidden - 1
        else s.num_hidden }
    .ok (set_ob ip ob (set_interactive obfrom none (set_interactive ob (some ip) s)))

def set_destructed (ob : Nat) (s : driver) : driver :=
  { s with
    objects := Function.update s.objects ob
      ((s.objects ob).map fun o => { o with O_DESTRUCTED := true }) }

/-- The end of `destruct_object`. -/
def destruct_object (ob : Nat) (s : driver) : driver :=
  if (s.objects ob).all fun o => o.O_DESTRUCTED then s
  else remove_dested ob (set_destructed ob s)

/-! ## `users` -/

/-- `display_hidden`, where `valid` tells that the object is hidden or `valid_hide` allows
it. -/
def display_hidden (valid : Bool) (s : driver) : Bool := 0 < s.num_hidden && valid

def users_size (valid : Bool) (s : driver) : Int :=
  s.num_user - if display_hidden valid s then 0 else s.num_hidden

/-- The objects that the loop stores, one after the other. -/
def users (valid : Bool) (s : driver) : List Nat :=
  s.all_users.filterMap fun entry =>
    entry.bind fun ip =>
      (s.ips ip).bind fun r =>
        if !display_hidden valid s && hidden s r.ob then none else some r.ob

/-! ## Runs -/

/-- What can happen. The applies run any code, so anything can happen while they do, but for
a new connection, which comes from the backend. -/
inductive action
  | load (ob : Nat)
  | set_master (ob : Nat)
  | accept (ip : Nat)
  | connect_returns (ret : Option Nat)
  | net_dead_returns
  | error
  | set_hide (current_object : Nat) (flag : Bool)
  | exec (ob obfrom : Nat)
  | remove_interactive (ob : Nat)
  | destruct (ob : Nat)
deriving DecidableEq

def step (s : driver) : action → Option driver
  | .load ob =>
    if (s.objects ob).isNone then
      some { s with objects := Function.update s.objects ob (some ⟨none, false, false⟩) }
    else none
  | .set_master ob => if (s.objects ob).isSome then some { s with master_ob := ob } else none
  | .accept ip =>
    if s.frames = [] ∧ (s.objects s.master_ob).isSome ∧ (s.ips ip).isNone then some (accept ip s)
    else none
  | .connect_returns ret =>
    match s.frames with
    | .connect :: rest =>
      if ret.all fun ob => (s.objects ob).isSome then
        some (connect_returns ret { s with frames := rest })
      else none
    | _ => none
  | .net_dead_returns =>
    match s.frames with
    | .net_dead ob ip :: rest => some (end_removal ob ip { s with frames := rest })
    | _ => none
  | .error =>
    match s.frames with
    | [] => some s
    | .connect :: rest => some { s with frames := rest }
    | .net_dead ob ip :: rest => some (end_removal ob ip { s with frames := rest })
  | .set_hide current_object flag => some (set_hide current_object flag s)
  | .exec ob obfrom =>
    if (s.objects ob).isSome ∧ (s.objects obfrom).isSome then
      match replace_interactive ob obfrom s with
      | .ok s' => some s'
      | .error _ => some s
    else none
  | .remove_interactive ob => some (remove_interactive ob s)
  | .destruct ob => some (destruct_object ob s)

def start (master_ob : Nat) : driver where
  objects := Function.update (fun _ => none) master_ob (some ⟨none, false, false⟩)
  ips := fun _ => none
  all_users := []
  num_user := 0
  num_hidden := 0
  master_ob := master_ob
  frames := []

end mudos.interactives
