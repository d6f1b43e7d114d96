-- The heart beats of `backend.c`: the list of objects with a heart beat, the
-- loop of `call_heart_beat` that walks it, and `set_heart_beat`, which the
-- functions that the loop calls use on the list under the loop.
import MudOS.Library.Runs

namespace mudos.heart_beat

/-! ## The list -/

/-- The value that a `short` holds. -/
def int16 (x : Int) : Int := (x + 32768) % 65536 - 32768

structure heart_beat_t where
  ob : Nat
  heart_beat_ticks : Int
  time_to_heart_beat : Int
deriving DecidableEq, Repr

/-- What happens to an object in a round: its counter is decremented, or
`set_heart_beat` adds it to the list, or removes it. -/
inductive Event
  | ticked (ob : Nat)
  | added (ob : Nat)
  | removed (ob : Nat)
deriving DecidableEq, Repr

/-- Where the driver is: outside `call_heart_beat`, at the head of its loop, or in a
function that the loop called. -/
inductive Phase
  | idle
  | looping
  | callback
deriving DecidableEq, Repr

/-- `num_hb_objs` is the length of `heart_beats`. -/
structure backend_t where
  heart_beats : List heart_beat_t
  heart_beat_index : Int
  num_hb_to_do : Nat
  current_heart_beat : Option Nat
  /-- The objects with `O_HEART_BEAT`, and those with `O_DESTRUCTED`. -/
  has_heart_beat : Nat → Bool
  destructed : Nat → Bool
  phase : Phase
  /-- The last round: the objects on the list at its start, what happened in it, and
  whether the loop came to its `break`. -/
  round : List Nat
  log : List Event
  complete : Bool

/-- Events are of a round, and what happens between the rounds is in no log. -/
def backend_t.note (s : backend_t) (e : Event) : backend_t :=
  if s.phase = .idle then s else { s with log := s.log ++ [e] }

/-! ## `set_heart_beat` -/

/-- `while (index--) if (heart_beats[index].ob == ob) break;` -/
def find_ob (heart_beats : List heart_beat_t) (ob : Nat) : (index : Nat) → Option Nat
  | 0 => none
  | index + 1 =>
    if heart_beats[index]?.map heart_beat_t.ob = some ob then some index
    else find_ob heart_beats ob index

def set_flag (flags : Nat → Bool) (ob : Nat) (b : Bool) : Nat → Bool :=
  fun x => if x = ob then b else flags x

/-- The two counters of a running round, when the entry at `index` goes. -/
def patch_counters (s : backend_t) (index : Nat) : backend_t :=
  if s.num_hb_to_do ≠ 0 then
    { s with
      heart_beat_index :=
        if (index : Int) ≤ s.heart_beat_index then s.heart_beat_index - 1
        else s.heart_beat_index
      num_hb_to_do := if index < s.num_hb_to_do then s.num_hb_to_do - 1 else s.num_hb_to_do }
  else s

def remove_entry (s : backend_t) (ob index : Nat) : backend_t :=
  let s := patch_counters s index
  let s :=
    { s with
      heart_beats := s.heart_beats.eraseIdx index
      has_heart_beat := set_flag s.has_heart_beat ob false }
  s.note (.removed ob)

def append_entry (s : backend_t) (ob : Nat) (to_ : Int) : backend_t :=
  let to_ := int16 (if to_ < 0 then 1 else to_)
  let s :=
    { s with
      heart_beats := s.heart_beats ++ [heart_beat_t.mk ob to_ to_]
      has_heart_beat := set_flag s.has_heart_beat ob true }
  s.note (.added ob)

def set_heart_beat (s : backend_t) (ob : Nat) (to_ : Int) : backend_t :=
  if s.destructed ob then s
  else if to_ = 0 then
    match find_ob s.heart_beats ob s.heart_beats.length with
    | none => s
    | some index => remove_entry s ob index
  else if s.has_heart_beat ob then
    if to_ < 0 then s
    else
      match find_ob s.heart_beats ob s.heart_beats.length with
      | none => s
      | some index =>
        { s with heart_beats := s.heart_beats.set index ⟨ob, int16 to_, int16 to_⟩ }
  else append_entry s ob to_

/-- The end of `destruct_object`. -/
def destruct_object (s : backend_t) (ob : Nat) : backend_t :=
  if s.destructed ob then s
  else
    let s := set_heart_beat s ob 0
    { s with destructed := set_flag s.destructed ob true }

/-! ## `call_heart_beat` -/

def end_round (s : backend_t) (complete : Bool) : backend_t :=
  { s with
    heart_beat_index := 0
    num_hb_to_do := 0
    current_heart_beat := none
    phase := .idle
    complete }

def start_round (s : backend_t) : backend_t :=
  let s :=
    { s with
      num_hb_to_do := s.heart_beats.length
      round := s.heart_beats.map heart_beat_t.ob
      log := []
      complete := false }
  if s.num_hb_to_do ≠ 0 then { s with heart_beat_index := 0, phase := .looping }
  else { s with current_heart_beat := none, complete := true }

/-- `if (++heart_beat_index == num_hb_to_do) break;` -/
def next_entry (s : backend_t) : backend_t :=
  let s := { s with heart_beat_index := s.heart_beat_index + 1 }
  if s.heart_beat_index = s.num_hb_to_do then end_round s true else { s with phase := .looping }

/-- `heart_beats[heart_beat_index]`, if the list has that entry. -/
def curr_hb (s : backend_t) : Option heart_beat_t :=
  if 0 ≤ s.heart_beat_index then s.heart_beats[s.heart_beat_index.toNat]? else none

/-- One turn of the `while` loop, up to the call of the heart beat. `has_function` is
`ob->prog->heart_beat != -1`. There is no result when the loop reads past the list. -/
def loop_turn (s : backend_t) (heart_beat_flag has_function : Bool) : Option backend_t :=
  if heart_beat_flag then some (end_round s false)
  else
    (curr_hb s).map fun hb =>
      let hb := { hb with heart_beat_ticks := int16 (hb.heart_beat_ticks - 1) }
      let called := has_function && hb.heart_beat_ticks < 1
      let hb := if called then { hb with heart_beat_ticks := hb.time_to_heart_beat } else hb
      let s := { s with heart_beats := s.heart_beats.set s.heart_beat_index.toNat hb }
      let s := s.note (.ticked hb.ob)
      if called then { s with current_heart_beat := some hb.ob, phase := .callback }
      else next_entry s

/-- `error_handler`: the heart beat that runs is turned off. When nothing on the way
catches the error, `call_heart_beat` is left at once, and its counters stay. -/
def error_handler (s : backend_t) (caught : Bool) : backend_t :=
  let s :=
    match s.current_heart_beat with
    | some ob => { set_heart_beat s ob 0 with current_heart_beat := none }
    | none => s
  if caught then s else { s with phase := .idle }

/-! ## The steps -/

inductive Action
  | call_heart_beat
  | turn (heart_beat_flag has_function : Bool)
  | set_heart_beat (ob : Nat) (to_ : Int)
  | destruct (ob : Nat)
  | error (caught : Bool)
  | returned
deriving DecidableEq, Repr

/-- A round starts when none runs. Objects come and go between the rounds, and in a
function that the loop called. -/
def step (s : backend_t) : Action → Option backend_t
  | .call_heart_beat => if s.phase = .idle then some (start_round s) else none
  | .turn flag has_function =>
    if s.phase = .looping then loop_turn s flag has_function else none
  | .set_heart_beat ob to_ =>
    if s.phase = .looping then none else some (set_heart_beat s ob to_)
  | .destruct ob => if s.phase = .looping then none else some (destruct_object s ob)
  | .error caught => if s.phase = .looping then none else some (error_handler s caught)
  | .returned => if s.phase = .callback then some (next_entry s) else none

def start : backend_t where
  heart_beats := []
  heart_beat_index := 0
  num_hb_to_do := 0
  current_heart_beat := none
  has_heart_beat := fun _ => false
  destructed := fun _ => false
  phase := .idle
  round := []
  log := []
  complete := false

end mudos.heart_beat
