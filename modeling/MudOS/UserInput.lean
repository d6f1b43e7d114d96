-- The input buffers of `comm.c`: `get_user_data` puts what a user types into
-- the buffer of the connection, and `get_user_command` takes the commands
-- out of the buffers of all users in turn.
import MudOS.Library.Memory
import MudOS.Library.Runs
import MudOS.Telnet

open mudos.memory

namespace mudos.comm

/-! ## The connection -/

abbrev MAX_TEXT : Nat := 2048

structure iflags_t where
  SINGLE_CHAR : Bool
  CLOSING : Bool
  CMD_IN_BUF : Bool
  NET_DEAD : Bool

/-- A connection of type `PORT_TELNET`. -/
structure interactive_t where
  text : Nat → UInt8
  text_end : Nat
  text_start : Nat
  iflags : iflags_t
  telnet : telnet_t

/-- A new connection: `new_user_handler` clears the flags and the cursors. -/
def new_interactive : interactive_t := ⟨fun _ => 0, 0, 0, ⟨false, false, false, false⟩, new_user⟩

/-! ## Commands in the buffer -/

/-- `while (p < end && q (*p)) p++`, with `end - p` the first argument. -/
def advance (q : UInt8 → Bool) (text : Nat → UInt8) : Nat → Nat → Nat
  | 0, p => p
  | n + 1, p => if q (text p) then advance q text n (p + 1) else p

def cmd_in_buf (ip : interactive_t) : Bool :=
  let p := advance (· == 0) ip.text (ip.text_end - ip.text_start) ip.text_start
  if p ≥ ip.text_end then false
  else if ip.iflags.SINGLE_CHAR then true
  else decide (advance (· != 0) ip.text (ip.text_end - p) p < ip.text_end)

/-- The place of the command, if there is one, and the connection after it. -/
def first_cmd_in_buf (ip : interactive_t) : Option Nat × interactive_t :=
  let p := advance (· == 0) ip.text (ip.text_end - ip.text_start) ip.text_start
  let ip := { ip with text_start := p }
  if p ≥ ip.text_end then
    (none, { ip with text_start := 0, text_end := 0, text := store ip.text 0 [0] })
  else if ip.iflags.SINGLE_CHAR then (some p, ip)
  else if advance (· != 0) ip.text (ip.text_end - p) p < ip.text_end then (some p, ip)
  else
    -- a partial command moves to the start of the buffer
    let text_end := ip.text_end - p
    let ip := { ip with
      text := store ip.text 0 (load ip.text p text_end), text_start := 0, text_end }
    if text_end > MAX_TEXT - 2 then
      (some 0, { ip with
        text := store ip.text (text_end - 2) [0, 0], text_end := text_end - 1 })
    else (none, ip)

def next_cmd_in_buf (ip : interactive_t) : interactive_t :=
  let p := advance (· != 0) ip.text (ip.text_end - ip.text_start) ip.text_start
  let p := advance (· == 0) ip.text (ip.text_end - p) p
  if p < ip.text_end then { ip with text_start := p }
  else { ip with text_start := 0, text_end := 0, text := store ip.text 0 [0] }

/-! ## Reading -/

/-- A third of the free space: `copy_chars` may store three bytes for one. -/
def text_space (text_end : Nat) : Nat := (MAX_TEXT - text_end - 1) / 3

/-- The check for more space at the start of `get_user_data`, with the space
that is found. -/
def more_space (ip : interactive_t) : interactive_t × Nat :=
  if text_space ip.text_end < MAX_TEXT / 16 then
    let l := ip.text_end - ip.text_start
    let ip := { ip with
      text := store ip.text 0 (load ip.text ip.text_start (l + 1)), text_start := 0, text_end := l }
    if text_space ip.text_end < MAX_TEXT / 16 then
      ({ ip with text_start := 0, text_end := 0 }, MAX_TEXT / 3)
    else (ip, text_space ip.text_end)
  else (ip, text_space ip.text_end)

/-- The connection after a read of the bytes that have arrived, or `none` when
the user is removed, and how many of the bytes were read. -/
def get_user_data (ip : interactive_t) (arrived : List UInt8) : Option interactive_t × Nat :=
  let (ip, space) := more_space ip
  if arrived = [] then (some ip, 0)    -- EWOULDBLOCK
  else
    let buf := arrived.take space
    if buf = [] then (none, 0)
    else
      let (telnet, out) := copy_chars ip.telnet (buf.map (Prod.mk ip.iflags.SINGLE_CHAR))
      let text_end := ip.text_end + (textOf out).length
      let text := store (store ip.text ip.text_end (textOf out)) text_end [0]
      let ip := { ip with text, text_end, telnet }
      if cmd_in_buf ip then
        (some { ip with iflags := { ip.iflags with CMD_IN_BUF := true } }, buf.length)
      else (some ip, buf.length)

/-- What `process_io` does for a user whose socket can be read. -/
def process_io_user (ip : interactive_t) (arrived : List UInt8) : Option interactive_t × Nat :=
  if ip.iflags.CLOSING || ip.iflags.CMD_IN_BUF then (some ip, 0)
  else if ip.iflags.NET_DEAD then (none, 0)
  else get_user_data ip arrived

/-! ## Taking commands -/

/-- The loop of `telnet_neg`, up to the final zero. -/
def telnet_neg_loop (to_ : List UInt8) : List UInt8 → List UInt8
  | [] => to_
  | ch :: from_ =>
    if ch = 8 ∨ ch = 127 then telnet_neg_loop to_.dropLast from_
    else telnet_neg_loop (to_ ++ [ch]) from_

def telnet_neg (from_ : List UInt8) : List UInt8 := telnet_neg_loop [] from_

/-- The users, with the static `NextCmdGiver`. -/
structure users_t where
  all_users : List (Option interactive_t)
  NextCmdGiver : Nat

def users_t.max_users (s : users_t) : Nat := s.all_users.length

def users_t.user (s : users_t) (i : Nat) : Option interactive_t := (s.all_users[i]?).join

def users_t.set (s : users_t) (i : Nat) (ip : Option interactive_t) : users_t :=
  { s with all_users := s.all_users.set i ip }

/-- `if (NextCmdGiver-- == 0) NextCmdGiver = max_users - 1` -/
def users_t.next (s : users_t) : users_t :=
  { s with NextCmdGiver := if s.NextCmdGiver = 0 then s.max_users - 1 else s.NextCmdGiver - 1 }

/-- The scan of `get_user_command`: the place of a command of `NextCmdGiver`. -/
def scan_users : Nat → users_t → Option Nat × users_t
  | 0, s => (none, s)
  | n + 1, s =>
    match s.user s.NextCmdGiver with
    | some ip =>
      if ip.iflags.CMD_IN_BUF then
        match first_cmd_in_buf ip with
        | (some p, ip) => (some p, s.set s.NextCmdGiver (some ip))
        | (none, ip) =>
          scan_users n (s.set s.NextCmdGiver
            (some { ip with iflags := { ip.iflags with CMD_IN_BUF := false } })).next
      else scan_users n s.next
    | none => scan_users n s.next

/-- The command that the user gives at the place, and the connection after it. -/
def take_command (ip : interactive_t) (p : Nat) : List UInt8 × interactive_t :=
  let buf := telnet_neg (c_string (load ip.text p (MAX_TEXT - p)))
  let ip := next_cmd_in_buf ip
  if cmd_in_buf ip then (buf, ip)
  else (buf, { ip with iflags := { ip.iflags with CMD_IN_BUF := false } })

/-- The user who is made `command_giver`, and the command. -/
def get_user_command (s : users_t) : Option (Nat × List UInt8) × users_t :=
  match scan_users s.max_users s with
  | (none, s) => (none, s)
  | (some p, s) =>
    match s.user s.NextCmdGiver with
    | none => (none, s)
    | some ip =>
      let (buf, ip) := take_command ip p
      (some (s.NextCmdGiver, buf), (s.set s.NextCmdGiver (some ip)).next)

/-! ## Users and what they type -/

/-- The users, with the bytes of each that no read has taken yet, and the
commands of each that `get_user_command` has returned. -/
structure Session where
  users : users_t
  unread : Nat → List UInt8
  given : Nat → List (List UInt8)

inductive InputOp
  /-- The first `n` bytes that are unread have arrived at the socket of the user. -/
  | process_io (i n : Nat)
  | get_user_command

def Session.start (connected : List Bool) (typed : Nat → List UInt8) : Session where
  users := ⟨connected.map fun c => if c then some new_interactive else none, 0⟩
  unread := typed
  given := fun _ => []

def Session.step (s : Session) : InputOp → Option Session
  | .process_io i n =>
    match s.users.user i with
    | none => none
    | some ip =>
      let (ip, k) := process_io_user ip ((s.unread i).take n)
      some { s with
        users := s.users.set i ip
        unread := fun j => if j = i then (s.unread i).drop k else s.unread j }
  | .get_user_command =>
    match comm.get_user_command s.users with
    | (none, users) => some { s with users }
    | (some (i, buf), users) =>
      some { s with users, given := fun j => if j = i then s.given i ++ [buf] else s.given j }

/-- What a line comes to: no carriage return, and each backspace and delete takes
back the byte before it. -/
def edited (line : List UInt8) : List UInt8 :=
  (line.filter (· != 13)).foldl
    (fun line ch => if ch = 8 ∨ ch = 127 then line.dropLast else line ++ [ch]) []

/-- A byte of a line, neither the end of it nor a zero nor a telnet command. -/
def Plain (c : UInt8) : Prop := c ≠ 0 ∧ c ≠ 10 ∧ c ≠ IAC

instance (c : UInt8) : Decidable (Plain c) := inferInstanceAs (Decidable (_ ∧ _ ∧ _))

/-- The bytes of the lines, and of a last line that has not ended. -/
def stream (lines : List (List UInt8)) (rest : List UInt8) : List UInt8 :=
  lines.flatMap (· ++ [10]) ++ rest

end mudos.comm
