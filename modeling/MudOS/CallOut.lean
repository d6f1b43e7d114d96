-- The call_outs of `call_out.c`: a wheel of 32 delta lists, the driver loop
-- that serves one slot for each second, and the efuns that add, remove and
-- find calls, between the runs of the loop and from the functions it calls.
import MudOS.Library.DeltaLists
import MudOS.Library.Runs

open mudos.deltas

namespace mudos.call_out

/-! ## The wheel -/

abbrev CALLOUT_CYCLE_SIZE : Int := 32

abbrev INT_MAX : Int := 2147483647

/-- The value that an `int` holds. -/
def int32 (x : Int) : Int := (x + 2147483648) % 4294967296 - 2147483648

/-- `x & (CALLOUT_CYCLE_SIZE - 1)` -/
def slot_of (x : Int) : Nat := (x % CALLOUT_CYCLE_SIZE).toNat

/-- The function to call: by its name in an object, or by a function pointer, whose
call has no `ob`. Objects, names and function pointers are numbers. -/
inductive string_or_func
  | s (ob name : Nat)
  | f (fp owner : Nat)
deriving DecidableEq, Repr

/-- A pending call, less its `delta`, which the list has. Of the last two fields
the driver knows nothing: which call it is, and the `current_time` at its creation
plus its delay. -/
structure pending_call_t where
  function : string_or_func
  handle : Int
  serial : Nat
  due : Int
deriving DecidableEq, Repr

structure call_out_t where
  call_list : Nat → DeltaList pending_call_t
  call_out_time : Int
  current_time : Int
  unique : Int
  /-- The objects with `O_DESTRUCTED`. -/
  destructed : Nat → Bool
  /-- A function that the loop called is running. -/
  running : Bool
  /-- All calls that were made, and what became of those that are pending no more: the
  loop called them, at the tick given; they were removed; or the loop freed them, as
  their object was destructed. -/
  made : List pending_call_t
  fired : List (pending_call_t × Int)
  removed : List pending_call_t
  dropped : List pending_call_t

def call_out_t.set_list (s : call_out_t) (i : Nat) (l : DeltaList pending_call_t) : call_out_t :=
  { s with call_list := fun j => if j = i then l else s.call_list j }

/-- `if (!call_out_time) call_out_time = current_time;` -/
def init_time (s : call_out_t) : call_out_t :=
  if s.call_out_time = 0 then { s with call_out_time := s.current_time } else s

/-- The handle of the new call, and the wheel with it. -/
def new_call_out (s : call_out_t) (fun_ : string_or_func) (delay : Int) : Int × call_out_t :=
  let delay := if delay < 1 then 1 else delay
  let s := init_time s
  let tm := slot_of (int32 (delay + s.current_time))
  let units := 1 +
    (int32 (delay + s.current_time - s.call_out_time - 1)).tdiv CALLOUT_CYCLE_SIZE
  let unique := int32 (s.unique + 1)
  let handle := int32 (tm + CALLOUT_CYCLE_SIZE * unique)
  let cop : pending_call_t := ⟨fun_, handle, s.made.length, s.current_time + delay⟩
  (handle, { s.set_list tm (insertAt cop units (s.call_list tm)) with
    unique
    made := cop :: s.made })

/-! ## The loop -/

def call_out_t.ob_destructed (s : call_out_t) (cop : pending_call_t) : Bool :=
  match cop.function with
  | .s ob _ => s.destructed ob
  | .f _ _ => false

/-- The `do` loop on the rest of the slot, until a function is called or until the
next call is not due, which ends the tick. -/
def serve (tm : Nat) : DeltaList pending_call_t → call_out_t → call_out_t
  | [], s =>
    { s.set_list tm [] with running := false, call_out_time := s.call_out_time + 1 }
  | (delta, cop) :: next, s =>
    if delta = 0 then
      if s.ob_destructed cop then serve tm next { s with dropped := cop :: s.dropped }
      else
        { s.set_list tm next with
          running := true
          fired := (cop, s.call_out_time + 1) :: s.fired }
    else
      { s.set_list tm ((delta, cop) :: next) with
        running := false
        call_out_time := s.call_out_time + 1 }

/-- One turn of the `while` loop of `call_out`, up to its first call of a function. -/
def begin_tick (s : call_out_t) : call_out_t :=
  let s := init_time s
  if s.call_out_time < s.current_time then
    let tm := slot_of (s.call_out_time + 1)
    match s.call_list tm with
    | [] => { s with call_out_time := s.call_out_time + 1 }
    | (delta, cop) :: next =>
      if delta - 1 = 0 then serve tm ((delta - 1, cop) :: next) s
      else
        { s.set_list tm ((delta - 1, cop) :: next) with call_out_time := s.call_out_time + 1 }
  else s

/-- The function that was called returns, or ends in an error. -/
def end_callback (s : call_out_t) : call_out_t :=
  let tm := slot_of (s.call_out_time + 1)
  serve tm (s.call_list tm) s

/-! ## Queries and removals -/

def time_left (s : call_out_t) (slot : Nat) (delay : Int) : Int :=
  let current_slot : Int := slot_of s.call_out_time
  if slot > current_slot then
    (delay - 1) * CALLOUT_CYCLE_SIZE + (slot - current_slot) + s.call_out_time - s.current_time
  else
    delay * CALLOUT_CYCLE_SIZE + (slot - current_slot) + s.call_out_time - s.current_time

/-- The first call of the kind in a slot, with the sum of the deltas up to it. -/
def locate (p : pending_call_t → Bool) (l : DeltaList pending_call_t) :
    Option (Int × pending_call_t) :=
  (offsets 0 l).find? fun x => p x.2

def search (s : call_out_t) (p : pending_call_t → Bool) : Option (Nat × Int × pending_call_t) :=
  (List.range 32).findSome? fun i => (locate p (s.call_list i)).map (Prod.mk i)

def is_call (ob fun_ : Nat) (cop : pending_call_t) : Bool := cop.function == .s ob fun_

def has_handle (handle : Int) (cop : pending_call_t) : Bool := cop.handle == handle

def find_call_out (s : call_out_t) (ob fun_ : Nat) : Int :=
  match search s (is_call ob fun_) with
  | some (i, delay, _) => time_left s i delay
  | none => -1

def find_call_out_by_handle (s : call_out_t) (handle : Int) : Int :=
  match locate (has_handle handle) (s.call_list (slot_of handle)) with
  | some (delay, _) => time_left s (slot_of handle) delay
  | none => -1

def unlink (s : call_out_t) (p : pending_call_t → Bool) (i : Nat) (cop : pending_call_t) :
    call_out_t :=
  { s.set_list i (removeFirst p (s.call_list i)) with removed := cop :: s.removed }

def remove_call_out (s : call_out_t) (ob fun_ : Nat) : Int × call_out_t :=
  match search s (is_call ob fun_) with
  | some (i, delay, cop) =>
    let s := unlink s (is_call ob fun_) i cop
    (time_left s i delay, s)
  | none => (-1, s)

def remove_call_out_by_handle (s : call_out_t) (handle : Int) : Int × call_out_t :=
  match locate (has_handle handle) (s.call_list (slot_of handle)) with
  | some (delay, cop) =>
    let s := unlink s (has_handle handle) (slot_of handle) cop
    (time_left s (slot_of handle) delay, s)
  | none => (-1, s)

/-- The calls that `remove_all_call_out` removes. -/
def call_out_t.belongs (s : call_out_t) (obj : Nat) (cop : pending_call_t) : Bool :=
  match cop.function with
  | .s ob _ => ob == obj || s.destructed ob
  | .f _ owner => owner == obj || s.destructed owner

def remove_all_call_out (s : call_out_t) (obj : Nat) : call_out_t :=
  { s with
    call_list := fun i => if i < 32 then removeAll (s.belongs obj) 0 (s.call_list i) else s.call_list i
    removed := (List.range 32).flatMap
      (fun i => ((s.call_list i).map Prod.snd).filter (s.belongs obj)) ++ s.removed }

/-- The delay that `get_all_call_outs` reports: it repeats the sums of `time_left`. -/
def reported_delay (s : call_out_t) (j : Nat) (delay : Int) : Int :=
  let tm : Int := slot_of s.call_out_time
  if j > tm then
    (delay - 1) * CALLOUT_CYCLE_SIZE + (j - tm) + s.call_out_time - s.current_time
  else
    delay * CALLOUT_CYCLE_SIZE + (j - tm) + s.call_out_time - s.current_time

/-- Each pending call whose object is not destructed, with its delay. The array has
the object and the name of the function for the call. -/
def get_all_call_outs (s : call_out_t) : List (pending_call_t × Int) :=
  (List.range 32).flatMap fun j =>
    ((offsets 0 (s.call_list j)).filter fun x => !s.ob_destructed x.2).map fun x =>
      (x.2, reported_delay s j x.1)

/-! ## The wheel and its users -/

inductive CallOutOp
  | new_call_out (fun_ : string_or_func) (delay : Int)
  | remove_call_out (ob fun_ : Nat)
  | remove_call_out_by_handle (handle : Int)
  | remove_all_call_out (obj : Nat)
  | destruct (ob : Nat)
  /-- Some seconds pass. -/
  | advance (seconds : Nat)
  | begin_tick
  | end_callback

def call_out_t.start (now : Int) : call_out_t where
  call_list := fun _ => []
  call_out_time := 0
  current_time := now
  unique := 0
  destructed := fun _ => false
  running := false
  made := []
  fired := []
  removed := []
  dropped := []

def call_out_t.step (s : call_out_t) : CallOutOp → Option call_out_t
  | .new_call_out fun_ delay => some (call_out.new_call_out s fun_ delay).2
  | .remove_call_out ob fun_ => some (call_out.remove_call_out s ob fun_).2
  | .remove_call_out_by_handle handle => some (call_out.remove_call_out_by_handle s handle).2
  | .remove_all_call_out obj => some (call_out.remove_all_call_out s obj)
  | .destruct ob => some { s with destructed := fun o => o == ob || s.destructed o }
  | .advance seconds => some { s with current_time := s.current_time + seconds }
  | .begin_tick => if s.running then none else some (call_out.begin_tick s)
  | .end_callback => if s.running then some (call_out.end_callback s) else none

def call_out_t.pending (s : call_out_t) : List pending_call_t :=
  (List.range 32).flatMap fun i => (s.call_list i).map Prod.snd

/-- The slot is being served: the loop has taken a call out of it whose function runs. -/
def Serving (s : call_out_t) (i : Nat) : Prop :=
  s.running = true ∧ i = slot_of (s.call_out_time + 1)

instance (s : call_out_t) (i : Nat) : Decidable (Serving s i) := inferInstanceAs (Decidable (_ ∧ _))

/-- No call is made from a function that the loop has called for a time that falls into
the slot being served, and no sum with a delay leaves `int`. -/
def NoCallIntoServedSlot (s : call_out_t) : CallOutOp → Prop
  | .new_call_out _ delay =>
    ¬ Serving s (slot_of (s.current_time + max delay 1)) ∧ s.current_time + max delay 1 ≤ INT_MAX
  | _ => True

instance (s : call_out_t) (op : CallOutOp) : Decidable (NoCallIntoServedSlot s op) :=
  match op with
  | .new_call_out _ _ => inferInstanceAs (Decidable (_ ∧ _))
  | .remove_call_out .. | .remove_call_out_by_handle _ | .remove_all_call_out _ | .destruct _
  | .advance _ | .begin_tick | .end_callback => isTrue trivial

/-- What the wheel owes its users: each call is in one place only, a call fires at its
due tick, and none is pending after it. -/
structure OnTime (s : call_out_t) : Prop where
  once : (s.pending ++ s.fired.map Prod.fst ++ s.removed ++ s.dropped).Perm s.made
  distinct : (s.made.map pending_call_t.serial).Nodup
  fired_due : ∀ f ∈ s.fired, f.2 = f.1.due
  not_overdue : ∀ cop ∈ s.pending, s.call_out_time < cop.due
  dropped_destructed : ∀ cop ∈ s.dropped, s.ob_destructed cop = true
  fires_once : ∀ cop ∈ s.made, cop.due ≤ s.call_out_time → cop ∉ s.removed → cop ∉ s.dropped →
    s.fired.count (cop, cop.due) = 1
  removed_silent : ∀ cop ∈ s.removed, cop ∉ s.fired.map Prod.fst

/-- The pending calls with the time that is left for each. -/
def call_out_t.times (s : call_out_t) : List (pending_call_t × Int) :=
  (List.range 32).flatMap fun i =>
    (offsets 0 (s.call_list i)).map fun x => (x.2, time_left s i x.1)

def IsRemoval : CallOutOp → Prop
  | .remove_call_out .. | .remove_call_out_by_handle _ | .remove_all_call_out _ => True
  | _ => False

/-- Each query answers with a time that is `right` for the call it is about, and a
removal changes the answer for no other call. -/
structure QueriesTell (s : call_out_t) (right : pending_call_t → Int → Prop) : Prop where
  by_name : ∀ ob fun_ cop, s.pending.find? (is_call ob fun_) = some cop →
    right cop (find_call_out s ob fun_) ∧ right cop (remove_call_out s ob fun_).1
  by_handle : ∀ handle cop, s.pending.find? (has_handle handle) = some cop →
    right cop (find_call_out_by_handle s handle) ∧
      right cop (remove_call_out_by_handle s handle).1
  all : (get_all_call_outs s).map Prod.fst = s.pending.filter (fun cop => !s.ob_destructed cop) ∧
    ∀ x ∈ get_all_call_outs s, right x.1 x.2
  removal : ∀ op s', IsRemoval op → s.step op = some s' →
    ∃ gone, s'.removed = gone.map Prod.fst ++ s.removed ∧ (gone ++ s'.times).Perm s.times

end mudos.call_out
