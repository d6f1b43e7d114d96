-- Environments and inventories: `move_object` and `destruct_object` of
-- `simulate.c`, and the action sentences that they keep. The driver runs in
-- small steps over a stack, so that LPC can run at each apply in the middle of
-- them and call them again.
import MudOS.Library.Chains
import MudOS.Library.Runs

open mudos.chains

namespace mudos.environment

/-! ## Objects -/

/-- Where the objects are. An object has the number of its creation. -/
structure objects_t where
  num_objects : Nat
  super : Nat → Option Nat
  contains : Nat → Option Nat
  next_inv : Nat → Option Nat
  O_DESTRUCTED : Nat → Bool

structure sentence_t where
  ob : Nat
  function : Nat
  verb : Nat
  V_FUNCTION : Bool
deriving DecidableEq

/-- What runs, and where it goes on when what it has called is over. `save` is a variable of
the function that keeps a global one. -/
inductive frame_t
  /-- LPC runs. -/
  | lpc
  /-- The driver has raised an error. -/
  | raise
  /-- `destruct_object` is called. -/
  | destruct (ob : Nat)
  /-- The loop over shadows, at `ob2`. -/
  | shadows (ob2 : Option Nat)
  /-- `while (ob->contains)` -/
  | contents (ob : Nat) (save : Option Nat)
  /-- After the apply of `move_or_destruct` in `otmp`. -/
  | moved (ob : Nat) (save : Option Nat) (otmp : Nat)
  /-- After `save_ed_buffer`, where the master has been asked for a file. -/
  | editor (ob : Nat)
  /-- After the reload of the master or the simul_efun object. -/
  | reloaded (ob new_ob : Nat)
  /-- After the first apply of `init`, in `dest`. -/
  | init_dest (item dest : Nat) (save : Option Nat)
  /-- The loop over the inventory of `dest`, at `ob`. -/
  | inits (item dest : Nat) (ob : Option Nat) (save : Option Nat)
  /-- After the apply of `init` in `item`, for an object there. -/
  | init_item (item dest : Nat) (next_ob : Option Nat) (save : Option Nat)
  /-- After the apply of `init` in an object there. -/
  | init_ob (item dest : Nat) (next_ob : Option Nat) (save : Option Nat)
  /-- After the last apply of `init`. -/
  | init_last (save : Option Nat)
deriving DecidableEq

structure driver_t where
  objects : objects_t
  O_ENABLE_COMMANDS : Nat → Bool
  sent : Nat → List sentence_t
  shadowing : Nat → Option Nat
  shadowed : Nat → Option Nat
  ed_buffer : Nat → Bool
  command_giver : Option Nat
  restrict_destruct : Option Nat
  master_ob : Nat
  simul_efun_ob : Nat
  /-- The top is first. -/
  stack : List frame_t

/-- The driver starts with the master and the simul_efun object. -/
def start : driver_t where
  objects := ⟨2, fun _ => none, fun _ => none, fun _ => none, fun _ => false⟩
  O_ENABLE_COMMANDS _ := false
  sent _ := []
  shadowing _ := none
  shadowed _ := none
  ed_buffer _ := false
  command_giver := none
  restrict_destruct := none
  master_ob := 0
  simul_efun_ob := 1
  stack := [.lpc]

/-- The objects of a list in memory; there are no more than `num_objects`. -/
def inventory (o : objects_t) (ob : Nat) : List Nat :=
  walk o.next_inv (o.num_objects + 1) (o.contains ob)

def environments (o : objects_t) (ob : Nat) : List Nat :=
  walk o.super (o.num_objects + 1) (some ob)

/-! ## Relinking -/

/-- The object is taken out of the inventory of `env`. -/
def unlink_object (o : objects_t) (ob env : Nat) : objects_t :=
  let r := unlink ob (o.num_objects + 1) none (o.contains env) o.next_inv
  { o with
    contains := Function.update o.contains env r.1
    next_inv := r.2 }

/-- The object comes first in the inventory of `dest`. -/
def link_object (o : objects_t) (item dest : Nat) : objects_t :=
  { o with
    next_inv := Function.update o.next_inv item (o.contains dest)
    contains := Function.update o.contains dest (some item)
    super := Function.update o.super item (some dest) }

def clear_object (o : objects_t) (ob : Nat) : objects_t :=
  { o with
    super := Function.update o.super ob none
    next_inv := Function.update o.next_inv ob none
    contains := Function.update o.contains ob none
    O_DESTRUCTED := Function.update o.O_DESTRUCTED ob true }

/-! ## Sentences -/

def remove_sent (s : driver_t) (ob user : Nat) : driver_t :=
  { s with sent := Function.update s.sent user ((s.sent user).filter fun t => t.ob ≠ ob) }

/-- `remove_sent` when the user has commands. -/
def remove_sent_of (s : driver_t) (ob user : Nat) : driver_t :=
  if s.O_ENABLE_COMMANDS user then remove_sent s ob user else s

/-- What `move_object` does with the sentences of the item and of one object near it. -/
def part_with (item : Nat) (s : driver_t) (pp : Nat) : driver_t :=
  if pp = item then s
  else
    let s := remove_sent_of s item pp
    if s.O_ENABLE_COMMANDS item then remove_sent s pp item else s

/-! ## `move_object` -/

/-- The item leaves the environment that it is in. -/
def leave_super (s : driver_t) (item env : Nat) : driver_t :=
  let s := if s.O_ENABLE_COMMANDS item then remove_sent s env item else s
  let s := remove_sent_of s item env
  let s := (inventory s.objects env).foldl (part_with item) s
  { s with objects := unlink_object s.objects item env }

/-- `if (item->super)` -/
def leave_old (s : driver_t) (item : Nat) : driver_t :=
  match s.objects.super item with
  | none => s
  | some env => leave_super s item env

/-- Up to the first apply of `init`. -/
def move_object (s : driver_t) (item dest : Nat) : driver_t :=
  let save := s.command_giver
  let s := leave_old s item
  let s := { s with objects := link_object s.objects item dest }
  if s.O_ENABLE_COMMANDS item then
    { s with
      command_giver := some item
      stack := .lpc :: .init_dest item dest save :: s.stack }
  else { s with stack := .inits item dest (s.objects.contains dest) save :: s.stack }

/-- `move_object` returns. -/
def end_move (s : driver_t) (save : Option Nat) (rest : List frame_t) : driver_t :=
  { s with
    command_giver := save
    stack := rest }

/-- The second half of the loop of `init`. -/
def init_second (s : driver_t) (item dest : Nat) (next_ob save : Option Nat)
    (rest : List frame_t) : driver_t :=
  if s.objects.O_DESTRUCTED item then { s with stack := .raise :: rest }
  else if s.O_ENABLE_COMMANDS item then
    { s with
      command_giver := some item
      stack := .lpc :: .init_ob item dest next_ob save :: rest }
  else { s with stack := .inits item dest next_ob save :: rest }

/-- The loop of `init`, at `ob`. -/
def init_loop (s : driver_t) (item dest : Nat) (ob save : Option Nat) (rest : List frame_t) :
    driver_t :=
  match ob with
  | none =>
    if s.objects.O_DESTRUCTED dest then { s with stack := .raise :: rest }
    else if s.O_ENABLE_COMMANDS dest then
      { s with
        command_giver := some dest
        stack := .lpc :: .init_last save :: rest }
    else end_move s save rest
  | some ob =>
    let next_ob := s.objects.next_inv ob
    if ob = item then { s with stack := .inits item dest next_ob save :: rest }
    else if s.objects.O_DESTRUCTED ob then { s with stack := .raise :: rest }
    else if s.O_ENABLE_COMMANDS ob then
      { s with
        command_giver := some ob
        stack := .lpc :: .init_item item dest next_ob save :: rest }
    else init_second s item dest next_ob save rest

/-! ## `destruct_object` -/

def leave_shadows (s : driver_t) (ob : Nat) : driver_t :=
  let shadowed :=
    match s.shadowing ob with
    | none => s.shadowed
    | some x => Function.update s.shadowed x (s.shadowed ob)
  let shadowing :=
    match s.shadowed ob with
    | none => s.shadowing
    | some x => Function.update s.shadowing x (s.shadowing ob)
  { s with
    shadowed := Function.update shadowed ob none
    shadowing := Function.update shadowing ob none }

/-- `destruct_object` up to the loop over the contents. -/
def begin_destruct (s : driver_t) (ob : Nat) (rest : List frame_t) : driver_t :=
  if s.restrict_destruct ≠ none ∧ s.restrict_destruct ≠ some ob then
    { s with stack := .raise :: rest }
  else if s.objects.O_DESTRUCTED ob then { s with stack := rest }
  else if s.shadowed ob ≠ none ∧ s.shadowing ob = none then
    let ob2 := (walk s.shadowed (s.objects.num_objects + 1) (s.shadowed ob)).getLast?
    { s with stack := .shadows ob2 :: rest }
  else { leave_shadows s ob with stack := .contents ob s.restrict_destruct :: rest }

/-- The loop over shadows: each is destructed, the last one first. -/
def shadow_loop (s : driver_t) (ob2 : Option Nat) (rest : List frame_t) : driver_t :=
  match ob2 with
  | none => { s with stack := rest }
  | some otmp =>
    let ob2 := s.shadowing otmp
    { s with
      shadowed :=
        match ob2 with
        | none => s.shadowed
        | some x => Function.update s.shadowed x none
      shadowing := Function.update s.shadowing otmp none
      stack := .destruct otmp :: .shadows ob2 :: rest }

/-- The object goes to the list of destructed objects. -/
def finish_destruct (s : driver_t) (ob : Nat) (rest : List frame_t) : driver_t :=
  { s with
    objects := clear_object s.objects ob
    O_ENABLE_COMMANDS := Function.update s.O_ENABLE_COMMANDS ob false
    stack := rest }

def leave_room (s : driver_t) (ob : Nat) : driver_t :=
  match s.objects.super ob with
  | none => s
  | some env =>
    let s := remove_sent_of s ob env
    let s := (inventory s.objects env).foldl (fun s pp => remove_sent_of s ob pp) s
    { s with objects := unlink_object s.objects ob env }

def vital (s : driver_t) (ob : Nat) : Bool := ob = s.master_ob || ob = s.simul_efun_ob

def new_object (o : objects_t) : objects_t := { o with num_objects := o.num_objects + 1 }

/-- From the current room on: a vital object is loaded again first. -/
def leave_and_finish (s : driver_t) (ob : Nat) (rest : List frame_t) : driver_t :=
  let s := leave_room s ob
  if vital s ob then
    { s with
      objects := new_object s.objects
      stack := .lpc :: .reloaded ob s.objects.num_objects :: rest }
  else finish_destruct s ob rest

/-- The loop over the contents: each is asked to move. -/
def contents_loop (s : driver_t) (ob : Nat) (save : Option Nat) (rest : List frame_t) : driver_t :=
  match s.objects.contains ob with
  | some otmp =>
    { s with
      restrict_destruct := some otmp
      stack := .lpc :: .moved ob save otmp :: rest }
  | none =>
    if s.ed_buffer ob then { s with stack := .lpc :: .editor ob :: rest }
    else leave_and_finish s ob rest

/-- After the apply of `move_or_destruct`. -/
def after_move (s : driver_t) (ob : Nat) (save : Option Nat) (otmp : Nat) (rest : List frame_t) :
    driver_t :=
  let s := { s with restrict_destruct := save }
  if s.objects.O_DESTRUCTED ob then { s with stack := rest }
  else if s.objects.contains ob = some otmp then
    { s with stack := .destruct otmp :: .contents ob save :: rest }
  else { s with stack := .contents ob save :: rest }

/-- After the reload: the new object takes the place of the old one. -/
def after_reload (s : driver_t) (ob new_ob : Nat) (rest : List frame_t) : driver_t :=
  if s.objects.O_DESTRUCTED new_ob then { s with stack := .raise :: rest }
  else
    finish_destruct
      { s with
        master_ob := if ob = s.master_ob then new_ob else s.master_ob
        simul_efun_ob := if ob = s.simul_efun_ob then new_ob else s.simul_efun_ob } ob rest

/-! ## Commands -/

/-- What `enable_commands(0)` takes from the objects in the room of an object. -/
def remove_own (s : driver_t) (current_object : Nat) : driver_t :=
  match s.objects.super current_object with
  | none => s
  | some env =>
    (inventory s.objects env).foldl (fun s pp => remove_sent_of s current_object pp)
      (remove_sent s current_object env)

def enable_commands (s : driver_t) (current_object : Nat) (num : Bool) : driver_t :=
  if s.objects.O_DESTRUCTED current_object then s
  else if num then
    { s with
      O_ENABLE_COMMANDS := Function.update s.O_ENABLE_COMMANDS current_object true
      command_giver := some current_object }
  else
    let s := if s.O_ENABLE_COMMANDS current_object then remove_own s current_object else s
    { s with
      O_ENABLE_COMMANDS := Function.update s.O_ENABLE_COMMANDS current_object false
      command_giver := none }

def shadow_base (s : driver_t) (ob : Nat) : Nat :=
  ((walk s.shadowing (s.objects.num_objects + 1) (some ob)).getLast?).getD ob

def add_action (s : driver_t) (current_object function verb : Nat) (V_FUNCTION : Bool) : driver_t :=
  if s.objects.O_DESTRUCTED current_object then s
  else
    let ob := shadow_base s current_object
    match s.command_giver with
    | none => s
    | some giver =>
      let o := s.objects
      if o.O_DESTRUCTED giver then s
      else if ob ≠ giver ∧ o.super ob ≠ some giver ∧ o.super ob ≠ o.super giver ∧
          some ob ≠ o.super giver then s
      else
        { s with
          sent := Function.update s.sent giver (⟨ob, function, verb, V_FUNCTION⟩ :: s.sent giver) }

def remove_action (s : driver_t) (current_object act verb : Nat) : driver_t :=
  let ob := s.command_giver.getD current_object
  { s with
    sent := Function.update s.sent ob ((s.sent ob).eraseP fun t =>
      t.ob = current_object && !t.V_FUNCTION && t.function = act && t.verb = verb) }

/-! ## Steps -/

def go (s : driver_t) : Option driver_t :=
  match s.stack with
  | .destruct ob :: rest => some (begin_destruct s ob rest)
  | .shadows ob2 :: rest => some (shadow_loop s ob2 rest)
  | .contents ob save :: rest => some (contents_loop s ob save rest)
  | .moved ob save otmp :: rest => some (after_move s ob save otmp rest)
  | .editor ob :: rest =>
    some (leave_and_finish { s with ed_buffer := Function.update s.ed_buffer ob false } ob rest)
  | .reloaded ob new_ob :: rest => some (after_reload s ob new_ob rest)
  | .init_dest item dest save :: rest =>
    if s.objects.O_DESTRUCTED dest ∨ s.objects.super item ≠ some dest then
      some (end_move s save rest)
    else some { s with stack := .inits item dest (s.objects.contains dest) save :: rest }
  | .inits item dest ob save :: rest => some (init_loop s item dest ob save rest)
  | .init_item item dest next_ob save :: rest =>
    if s.objects.super item ≠ some dest then some (end_move s save rest)
    else some (init_second s item dest next_ob save rest)
  | .init_ob item dest next_ob save :: rest =>
    if s.objects.super item ≠ some dest then some (end_move s save rest)
    else some { s with stack := .inits item dest next_ob save :: rest }
  | .init_last save :: rest => some (end_move s save rest)
  | _ => none

inductive action_t
  | clone
  | move (item dest : Nat)
  | destruct (ob : Nat)
  | enable_commands (ob : Nat) (num : Bool)
  | add_action (ob function verb : Nat) (V_FUNCTION : Bool)
  | remove_action (ob act verb : Nat)
  /-- Another efun changes the command giver. -/
  | set_this_player (ob : Option Nat)
  | ed (ob : Nat)
  /-- `validate_shadowing` asks the master between its tests and the link. -/
  | shadow (current_object ob : Nat)
  /-- The function that an apply has called returns. -/
  | ret
  /-- An error unwinds the stack by so much, to a `catch` or to a safe apply. -/
  | error (num : Nat)
  | go

/-- What a `catch` is in: LPC, or the driver at its safe apply. -/
def catches : frame_t → Bool
  | .lpc => true
  | .editor _ => true
  | _ => false

def unsafe_apply : frame_t → Bool
  | .editor _ => false
  | _ => true

/-- What LPC does. An efun that raises an error does nothing else: that is `error`. -/
def lpc_step (s : driver_t) (rest : List frame_t) : action_t → Option driver_t
  | .clone => some { s with objects := new_object s.objects }
  | .move item dest =>
    let o := s.objects
    if item < o.num_objects ∧ dest < o.num_objects ∧ !o.O_DESTRUCTED item ∧ !o.O_DESTRUCTED dest ∧
        item ∉ environments o dest ∧ s.shadowing item = none then
      some (move_object s item dest)
    else none
  | .destruct ob =>
    if ob < s.objects.num_objects then some { s with stack := .destruct ob :: s.stack } else none
  | .enable_commands ob num => some (enable_commands s ob num)
  | .add_action ob function verb V_FUNCTION => some (add_action s ob function verb V_FUNCTION)
  | .remove_action ob act verb => some (remove_action s ob act verb)
  | .set_this_player ob => some { s with command_giver := ob }
  | .ed ob => some { s with ed_buffer := Function.update s.ed_buffer ob true }
  | .shadow current_object ob =>
    let ob := ((walk s.shadowed (s.objects.num_objects + 1) (some ob)).getLast?).getD ob
    some { s with
      shadowing := Function.update s.shadowing current_object (some ob)
      shadowed := Function.update s.shadowed ob (some current_object) }
  | .ret => if rest.isEmpty then none else some { s with stack := rest }
  | _ => none

def step (s : driver_t) (a : action_t) : Option driver_t :=
  match s.stack, a with
  | _, .go => go s
  | top :: rest, .error num =>
    let stack := (top :: rest).drop num
    if (top = .lpc ∨ top = .raise) ∧ ((top :: rest).take num).all unsafe_apply ∧
        (stack.head?.map catches).getD false then
      some { s with
        restrict_destruct := none
        stack }
    else none
  | .lpc :: rest, a => lpc_step s rest a
  | _, _ => none

end mudos.environment
