-- Shadows: an object that shadows another one is found in its place, and can be
-- shadowed itself. `f_shadow` asks the master between its tests and the link, and
-- the destruction of the object behind all others destructs the whole chain.
import MudOS.Environments

open mudos.chains mudos.environment

namespace mudos.shadow_chains

/-- A call of `f_shadow` that waits for the master. The LPC of `valid_shadow` runs in the frame that
has so many others below it. -/
structure call_t where
  height : Nat
  current_object : Nat
  ob : Nat
deriving DecidableEq

structure state_t where
  d : driver_t
  /-- The last call is first. -/
  calls : List call_t
  /-- The chain that a loop over shadows has to destruct, by the number of frames below it. -/
  chains : Nat → List Nat
  /-- How often an object has been put on the list of destructed objects. -/
  destructions : Nat → Nat

def start : state_t := ⟨environment.start, [], fun _ => [], fun _ => 0⟩

variable (check_shadow_functions : Nat → Nat → Bool)

/-- What `f_shadow` and `validate_shadowing` test before the master is asked.
`check_shadow_functions` finds a `nomask` function. -/
def valid (s : driver_t) (current_object ob : Nat) : Prop :=
  ob ≠ current_object ∧ s.shadowing current_object = none ∧ s.shadowed current_object = none ∧
    s.objects.super current_object = none ∧ ob ≠ s.master_ob ∧ s.shadowing ob = none ∧
    check_shadow_functions current_object ob = false

instance (s : driver_t) (current_object ob : Nat) :
    Decidable (valid check_shadow_functions s current_object ob) := by
  unfold valid
  infer_instance

/-- An object and those that shadow it, the newest one last. -/
def chain (s : driver_t) (ob : Nat) : List Nat :=
  walk s.shadowed (s.objects.num_objects + 1) (some ob)

def shadowed_by (s : driver_t) (ob : Nat) : List Nat :=
  walk s.shadowing (s.objects.num_objects + 1) (some ob)

/-- The object that the next step puts on the list of destructed objects. -/
def finishes (s : driver_t) : Option Nat :=
  match s.stack with
  | .contents ob _ :: _ =>
    if s.objects.contains ob = none ∧ s.ed_buffer ob = false ∧ vital s ob = false then some ob
    else none
  | .editor ob :: _ => if vital s ob then none else some ob
  | .reloaded ob new_ob :: _ => if s.objects.O_DESTRUCTED new_ob then none else some ob
  | _ => none

/-- The driver has gone on. An error has ended the calls of the frames that are gone. -/
def note (s : state_t) (t : driver_t) : state_t where
  d := t
  calls := s.calls.dropWhile fun call => t.stack.length ≤ call.height
  chains :=
    match s.d.stack with
    | .destruct ob :: rest => Function.update s.chains rest.length (chain s.d ob)
    | _ => s.chains
  destructions :=
    match finishes s.d with
    | none => s.destructions
    | some ob => Function.update s.destructions ob (s.destructions ob + 1)

inductive event_t
  | act (a : action_t)
  /-- `f_shadow`, up to the apply of `valid_shadow`. -/
  | shadow (current_object ob : Nat)
  /-- `valid_shadow` returns. -/
  | answer (approved : Bool)

def waits (s : state_t) : Bool :=
  match s.calls with
  | [] => false
  | call :: _ => call.height + 1 = s.d.stack.length

/-- The end of `f_shadow`. -/
def answer (s : state_t) (approved : Bool) : Option state_t :=
  match s.d.stack, s.calls with
  | .lpc :: rest, call :: calls =>
    if call.height = rest.length then
      let s := { s with
        d := { s.d with stack := rest }
        calls }
      let o := s.d.objects
      if approved ∧ o.O_DESTRUCTED call.ob = false ∧ o.O_DESTRUCTED call.current_object = false then
        (lpc_step s.d rest.tail (.shadow call.current_object call.ob)).map fun d => { s with d }
      else some s
    else none
  | _, _ => none

def step (s : state_t) : event_t → Option state_t
  | .act (.shadow _ _) => none
  | .act .ret => if waits s then none else (environment.step s.d .ret).map (note s)
  | .act a => (environment.step s.d a).map (note s)
  | .shadow current_object ob =>
    let o := s.d.objects
    if s.d.stack.head? = some .lpc ∧ current_object < o.num_objects ∧ ob < o.num_objects ∧
        o.O_DESTRUCTED ob = false ∧ valid check_shadow_functions s.d current_object ob then
      some { s with
        d := { s.d with stack := .lpc :: s.d.stack }
        calls := ⟨s.d.stack.length, current_object, ob⟩ :: s.calls }
    else none
  | .answer approved => answer s approved

end mudos.shadow_chains
