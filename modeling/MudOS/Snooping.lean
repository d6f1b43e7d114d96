-- Users who snoop others. `new_set_snoop` links two connections, after a walk
-- that looks for a loop, and `remove_interactive` takes a connection out, after
-- `net_dead` has run whatever the user does there.
import MudOS.Library.Runs
import MudOS.Library.Chains

open mudos.chains

namespace mudos.snooping

/-! ## Users -/

/-- `interactive` is an address. -/
structure object_t where
  interactive : Option Nat
  O_DESTRUCTED : Bool

structure interactive_t where
  ob : Nat
  CLOSING : Bool

/-- The driver between two steps. The links of the connections are functions of their
addresses, which are below `top`. `removing` has the calls of `remove_interactive` that have
not returned, the innermost first. -/
structure driver where
  objects : Nat → Option object_t
  ips : Nat → Option interactive_t
  snoop_on : Nat → Option Nat
  snoop_by : Nat → Option Nat
  removing : List (Nat × Nat)
  top : Nat

def interactive (s : driver) (ob : Nat) : Option Nat :=
  (s.objects ob).bind object_t.interactive

def set_interactive (ob : Nat) (p : Option Nat) (s : driver) : driver :=
  { s with
    objects := Function.update s.objects ob
      ((s.objects ob).map fun o => { o with interactive := p }) }

/-! ## Snooping -/

/-- `by->snoop_on->snoop_by = 0; by->snoop_on = 0;` -/
def stop_on (by_ : Nat) (s : driver) : driver :=
  match s.snoop_on by_ with
  | none => s
  | some on =>
    { s with
      snoop_by := Function.update s.snoop_by on none
      snoop_on := Function.update s.snoop_on by_ none }

/-- `on->snoop_by->snoop_on = 0; on->snoop_by = 0;` -/
def stop_by (on : Nat) (s : driver) : driver :=
  match s.snoop_by on with
  | none => s
  | some by_ =>
    { s with
      snoop_on := Function.update s.snoop_on by_ none
      snoop_by := Function.update s.snoop_by on none }

/-- `on->snoop_by = by; by->snoop_on = on;` -/
def link (by_ on : Nat) (s : driver) : driver :=
  { s with
    snoop_by := Function.update s.snoop_by on (some by_)
    snoop_on := Function.update s.snoop_on by_ (some on) }

def loops (by_ on : Nat) (s : driver) : Bool :=
  (walk s.snoop_on (s.top + 1) (some on)).contains by_

def new_set_snoop (me : Nat) (you : Option Nat) (s : driver) : Except String (Nat × driver) :=
  match s.objects me with
  | none => .ok (0, s)
  | some o =>
    if o.O_DESTRUCTED ||
        you.any fun you => (s.objects you).all fun o => o.O_DESTRUCTED then .ok (0, s)
    else
      match o.interactive with
      | none => .error "First argument of snoop() is not interactive!\n"
      | some by_ =>
        match you with
        | none => .ok (1, stop_on by_ s)
        | some you =>
          match interactive s you with
          | none => .error "Second argument of snoop() is not interactive!\n"
          | some on =>
            if loops by_ on s then .ok (0, s)
            else .ok (1, link by_ on (stop_by on (stop_on by_ s)))

def query_snoop (ob : Nat) (s : driver) : Option Nat :=
  (interactive s ob).bind fun ip =>
    (s.snoop_by ip).bind fun by_ => (s.ips by_).map interactive_t.ob

def query_snooping (ob : Nat) (s : driver) : Option Nat :=
  (interactive s ob).bind fun ip =>
    (s.snoop_on ip).bind fun on => (s.ips on).map interactive_t.ob

/-! ## Connections -/

def connect (ob ip : Nat) (s : driver) : Option driver :=
  if (s.objects ob).isSome ∧ (interactive s ob).isNone ∧ (s.ips ip).isNone then
    some { set_interactive ob (some ip) s with
      ips := Function.update s.ips ip (some ⟨ob, false⟩)
      snoop_on := Function.update s.snoop_on ip none
      snoop_by := Function.update s.snoop_by ip none
      top := max s.top (ip + 1) }
  else none

/-- The part of `remove_interactive` up to `net_dead`: the connection, when the call goes
on. -/
def start_removal (ob : Nat) (s : driver) : Option Nat :=
  (interactive s ob).bind fun ip =>
    (s.ips ip).bind fun i => if i.CLOSING then none else some ip

def set_closing (ip : Nat) (s : driver) : driver :=
  { s with
    ips := Function.update s.ips ip ((s.ips ip).map fun i => { i with CLOSING := true }) }

/-- The part after `net_dead`. -/
def end_removal (ob ip : Nat) (s : driver) : driver :=
  let s := stop_on ip (stop_by ip s)
  { set_interactive ob none s with ips := Function.update s.ips ip none }

/-- `remove_interactive(ob, 1)` runs no code of the user. -/
def remove_dested (ob : Nat) (s : driver) : driver :=
  match start_removal ob s with
  | none => s
  | some ip => end_removal ob ip (set_closing ip s)

def set_destructed (ob : Nat) (s : driver) : driver :=
  { s with
    objects := Function.update s.objects ob
      ((s.objects ob).map fun o => { o with O_DESTRUCTED := true }) }

/-! ## Runs -/

/-- What can happen. While `net_dead` of a user runs anything can, also the removal of
others. -/
inductive action
  | load (ob : Nat)
  | connect (ob ip : Nat)
  | snoop (me : Nat) (you : Option Nat)
  | remove_interactive (ob : Nat)
  | net_dead_returns
  | destruct (ob : Nat)

def step (s : driver) : action → Option driver
  | .load ob =>
    if (s.objects ob).isNone then
      some { s with objects := Function.update s.objects ob (some ⟨none, false⟩) }
    else none
  | .connect ob ip => connect ob ip s
  | .snoop me you =>
    match new_set_snoop me you s with
    | .ok (_, s') => some s'
    | .error _ => some s
  | .remove_interactive ob =>
    match start_removal ob s with
    | none => some s
    | some ip => some { set_closing ip s with removing := (ob, ip) :: s.removing }
  | .net_dead_returns =>
    match s.removing with
    | [] => none
    | (ob, ip) :: rest => some { end_removal ob ip s with removing := rest }
  | .destruct ob => some (set_destructed ob (remove_dested ob s))

def start : driver where
  objects := fun _ => none
  ips := fun _ => none
  snoop_on := fun _ => none
  snoop_by := fun _ => none
  removing := []
  top := 0

end mudos.snooping
