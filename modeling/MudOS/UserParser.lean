-- The parser of commands: `user_parser` walks the action sentences of the one
-- who gives the command and calls the functions of those that match, while
-- these add and remove sentences and give commands themselves.
import MudOS.Library.Runs
import Mathlib.Logic.Function.Basic

namespace mudos.user_commands

/-! ## Sentences -/

structure sentence_t where
  ob : Nat
  verb : List UInt8
  function : List UInt8
  V_SHORT : Bool
  V_NOSPACE : Bool
  V_FUNCTION : Bool
deriving DecidableEq

/-- The local variables of a `user_parser` that runs. The sentences that it met at its start
and those that it has called are kept beside them, and whether sentences have been removed
since the function of `s` was called: any, and some of the list that it walks. -/
structure parse where
  save_command_giver : Nat
  buff : List UInt8
  s : Nat
  save_illegal_sentence_action : Nat
  /-- The list is at its end, and `notify_no_command` is called. -/
  notifies : Bool
  first : List Nat
  tried : List Nat
  any : Bool
  own : Bool

/-- A call of `user_parser` that is over. -/
structure result where
  buff : List UInt8
  first : List Nat
  tried : List Nat
  ret : Bool

/-- The driver. A sentence has the number of its allocation; what stands under a number stays
there when it is freed. The parsers that run are listed, the innermost first. For each action
that has returned zero it is noted whether an illegal removal was reported, and whether the
list had lost sentences. -/
structure driver where
  sentences : Nat → sentence_t
  tot_alloc_sentence : Nat
  sent : Nat → List Nat
  illegal_sentence_action : Nat
  parses : List parse
  follows_freed : Bool
  reports : List (Bool × Bool)
  results : List result

/-! ## Matching -/

def strip_spaces (buff : List UInt8) : List UInt8 := (buff.reverse.dropWhile (· = 32)).reverse

def user_verb (buff : List UInt8) : List UInt8 := buff.takeWhile (· ≠ 32)

/-- Shared strings are compared by their pointers. -/
def accepts (buff : List UInt8) (s : sentence_t) : Bool :=
  if s.V_NOSPACE || s.V_SHORT then s.verb.isPrefixOf buff
  else s.verb = [] || s.verb = user_verb buff

/-! ## `user_parser` -/

/-- The loop goes on with the sentences of the list, up to the next call. -/
def walk (l : List Nat) (w : parse) (d : driver) : driver :=
  match l.find? fun s => accepts w.buff (d.sentences s) with
  | some s =>
    { d with
      parses :=
        { w with s, tried := w.tried ++ [s], notifies := false, any := false, own := false } ::
          d.parses }
  | none => { d with parses := { w with notifies := true, any := false, own := false } :: d.parses }

/-- `user_parser`, up to its first call of a function. -/
def user_parser_starts (command_giver : Nat) (buff : List UInt8) (d : driver) : driver :=
  let buff := strip_spaces buff
  if buff = [] then d
  else
    walk (d.sent command_giver)
      { save_command_giver := command_giver
        buff
        s := 0
        save_illegal_sentence_action := d.illegal_sentence_action
        notifies := false
        first := d.sent command_giver
        tried := []
        any := false
        own := false }
      { d with illegal_sentence_action := 0 }

/-- `s->next`, of a sentence in the list. -/
def next (s : Nat) (l : List Nat) : List Nat := (l.dropWhile (· ≠ s)).tail

def finish (w : parse) (ret : Bool) (illegal_sentence_action : Nat) (d : driver) : driver :=
  { d with
    illegal_sentence_action
    results := d.results ++ [⟨w.buff, w.first, w.tried, ret⟩] }

/-- The innermost parser goes on when the function has returned: a value that is not zero, or
zero, or nothing, where there is no function. An error leaves the parser, and `n` others. -/
def action_returns (w : parse) (rest : List parse) (ret : Option Bool) (n : Nat) (d : driver) :
    driver :=
  let d := { d with parses := rest }
  let sent := d.sent w.save_command_giver
  if ret = none ∧ sent.head? = some w.s then { d with parses := rest.drop n }
  else if ret = some true then
    finish w true
      (if d.illegal_sentence_action = 0 then w.save_illegal_sentence_action
        else d.illegal_sentence_action) d
  else
    let d := { d with reports := d.reports ++ [(d.illegal_sentence_action != 0, w.own)] }
    if d.illegal_sentence_action ≠ 0 then { d with parses := rest.drop n }
    else if w.s ∈ sent then walk (next w.s sent) w d
    else { d with follows_freed := true }

/-- From the return of `notify_no_command` on. -/
def notify_returns (w : parse) (rest : List parse) (d : driver) : driver :=
  finish w false w.save_illegal_sentence_action { d with parses := rest }

/-! ## Changes of the lists -/

def add_action (command_giver : Nat) (s : sentence_t) (d : driver) : driver :=
  { d with
    sentences := Function.update d.sentences d.tot_alloc_sentence s
    tot_alloc_sentence := d.tot_alloc_sentence + 1
    sent := Function.update d.sent command_giver
      (d.tot_alloc_sentence :: d.sent command_giver) }

/-- Sentences are removed from the list of the object. -/
def lose (ob : Nat) (l : List Nat) (illegal_sentence_action : Nat) (d : driver) : driver :=
  { d with
    sent := Function.update d.sent ob l
    illegal_sentence_action
    parses := d.parses.map fun w =>
      { w with any := true, own := w.own || w.save_command_giver = ob } }

/-- `remove_action`, from the list of `ob`. -/
def remove_action (ob current_object : Nat) (act verb : List UInt8) (d : driver) : driver :=
  let found := (d.sent ob).find? fun s =>
    (d.sentences s).ob = current_object && !(d.sentences s).V_FUNCTION &&
      (d.sentences s).function = act && (d.sentences s).verb = verb
  match found with
  | none => d
  | some tmp => lose ob ((d.sent ob).erase tmp) 1 d

/-- `remove_sent`, when objects move or are destructed. -/
def remove_sent (ob user : Nat) (d : driver) : driver :=
  if (d.sent user).any fun s => (d.sentences s).ob = ob then
    lose user ((d.sent user).filter fun s => (d.sentences s).ob ≠ ob) 2 d
  else d

/-! ## Runs -/

/-- What code of the mudlib does, in a function that a parser has called or on its own. An
error of its own leaves `n` parsers. -/
inductive action
  | user_parser_starts (command_giver : Nat) (buff : List UInt8)
  | action_returns (ret : Option Bool) (n : Nat)
  | notify_returns
  | error (n : Nat)
  | add_action (command_giver : Nat) (s : sentence_t)
  | remove_action (ob current_object : Nat) (act verb : List UInt8)
  | remove_sent (ob user : Nat)
deriving DecidableEq

def step (d : driver) : action → Option driver
  | .user_parser_starts command_giver buff =>
    some (user_parser_starts command_giver buff d)
  | .action_returns ret n =>
    match d.parses with
    | [] => none
    | w :: rest => if w.notifies then none else some (action_returns w rest ret n d)
  | .notify_returns =>
    match d.parses with
    | [] => none
    | w :: rest => if w.notifies then some (notify_returns w rest d) else none
  | .error n => some { d with parses := d.parses.drop n }
  | .add_action command_giver s => some (add_action command_giver s d)
  | .remove_action ob current_object act verb =>
    some (remove_action ob current_object act verb d)
  | .remove_sent ob user => some (remove_sent ob user d)

def start : driver where
  sentences := fun _ => ⟨0, [], [], false, false, false⟩
  tot_alloc_sentence := 0
  sent := fun _ => []
  illegal_sentence_action := 0
  parses := []
  follows_freed := false
  reports := []
  results := []

end mudos.user_commands
