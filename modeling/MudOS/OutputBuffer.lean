-- What is written to a user: `add_message` and `add_vmessage` put it in the
-- ring of the connection, and `flush_message` gives the ring to `send`, which
-- takes some of it, or none, or fails.
import MudOS.Library.Runs
import MudOS.Library.Rings

namespace mudos.comm_output

/-! ## The connection -/

/-- The default of `MESSAGE_BUFFER_SIZE`. -/
abbrev MESSAGE_BUF_SIZE : Nat := 4096

abbrev newline : UInt8 := 10

abbrev carriage_return : UInt8 := 13

/-- `sent` is what `send` has taken so far. -/
structure interactive_t where
  message_buf : Nat → UInt8
  message_producer : Nat
  message_consumer : Nat
  message_length : Nat
  NET_DEAD : Bool
  CLOSING : Bool
  sent : List UInt8

/-- What `send` does: it takes `n` bytes, or all when there are fewer, or gives an error. -/
inductive send_t
  | num_bytes (n : Nat)
  | EWOULDBLOCK
  | EINTR
  | error
deriving DecidableEq, Repr

/-! ## `flush_message` -/

/-- The length of one `send`: up to the end of the buffer at most. -/
def send_length (ip : interactive_t) : Nat :=
  if ip.message_consumer < ip.message_producer then ip.message_producer - ip.message_consumer
  else MESSAGE_BUF_SIZE - ip.message_consumer

/-- `send` has taken `n` bytes. -/
def sent_bytes (n : Nat) (ip : interactive_t) : interactive_t :=
  { ip with
    sent := ip.sent ++ (List.range n).map fun i => ip.message_buf (ip.message_consumer + i)
    message_consumer := (ip.message_consumer + n) % MESSAGE_BUF_SIZE
    message_length := ip.message_length - n }

/-- The loop, with what `send` does each time. It gives what `flush_message` returns, and
the rest of the list; there is no result when the list does not get the loop to its end. -/
def flush_loop (ip : interactive_t) : List send_t → Option (Bool × interactive_t × List send_t)
  | [] => if ip.message_length = 0 then some (true, ip, []) else none
  | r :: net =>
    if ip.message_length = 0 then some (true, ip, r :: net)
    else
      match r with
      | .num_bytes n => flush_loop (sent_bytes (min n (send_length ip)) ip) net
      | .EWOULDBLOCK => some (true, ip, net)
      | .EINTR => some (true, ip, net)
      | .error => some (false, { ip with NET_DEAD := true }, net)

def flush_message (ip : interactive_t) (net : List send_t) :
    Option (Bool × interactive_t × List send_t) :=
  if ip.CLOSING then some (false, ip, net) else flush_loop ip net

/-! ## `add_message` -/

/-- `ip->message_buf[ip->message_producer] = c`, and the next place. -/
def put (c : UInt8) (ip : interactive_t) : interactive_t :=
  { ip with
    message_buf := Function.update ip.message_buf ip.message_producer c
    message_producer := (ip.message_producer + 1) % MESSAGE_BUF_SIZE
    message_length := ip.message_length + 1 }

/-- How the loop over the text ends: at the end of the text, with `Broken connection`, or
with no room after a flush. -/
inductive ending
  | done
  | broken
  | full
deriving DecidableEq, Repr

/-- `if (ip->message_length == limit) { if (!flush_message(ip)) return; ... break; }`. The
loop goes on when there is no ending. -/
def make_room (limit : Nat) (ip : interactive_t) (net : List send_t) :
    Option (Option ending × interactive_t × List send_t) :=
  if ip.message_length = limit then
    (flush_message ip net).map fun r =>
      if !r.1 then (some .broken, r.2)
      else if r.2.1.message_length = limit then (some .full, r.2)
      else (none, r.2)
  else some (none, ip, net)

/-- The loop, which tells what it has not taken of the text. -/
def add_loop (ip : interactive_t) (net : List send_t) :
    List UInt8 → Option (ending × List UInt8 × interactive_t × List send_t)
  | [] => some (.done, [], ip, net)
  | c :: cp =>
    match make_room MESSAGE_BUF_SIZE ip net with
    | none => none
    | some (some e, ip, net) => some (e, c :: cp, ip, net)
    | some (none, ip, net) =>
      if c = newline then
        match make_room (MESSAGE_BUF_SIZE - 1) ip net with
        | none => none
        | some (some e, ip, net) => some (e, c :: cp, ip, net)
        | some (none, ip, net) => add_loop (put c (put carriage_return ip)) net cp
      else add_loop (put c ip) net cp

/-- One message, what the loop did not take of it, how the loop ended, and the length of
the ring then. -/
structure entry where
  data : List UInt8
  rest : List UInt8
  ending : ending
  message_length : Nat

/-- A connection and the messages that were added to it. -/
structure output where
  ip : interactive_t
  log : List entry

/-- A connection that is dead or closing gets nothing, and so does one whose message a
shadow has caught. -/
def add_message (data : List UInt8) (caught : Bool) (net : List send_t) (s : output) :
    Option output :=
  if s.ip.NET_DEAD || s.ip.CLOSING || caught then some s
  else
    (add_loop s.ip net data).map fun r =>
      ⟨r.2.2.1, s.log ++ [⟨data, r.2.1, r.1, r.2.2.1.message_length⟩]⟩

/-- The text of `vsprintf`. What fits is flushed at once. -/
def add_vmessage (data : List UInt8) (caught : Bool) (net : List send_t) (s : output) :
    Option output :=
  if s.ip.NET_DEAD || s.ip.CLOSING || caught then some s
  else
    match add_loop s.ip net data with
    | none => none
    | some (e, rest, ip, net) =>
      let log := s.log ++ [⟨data, rest, e, ip.message_length⟩]
      if e = .broken then some ⟨ip, log⟩
      else if ip.message_length ≠ 0 then
        (flush_message ip net).map fun r => ⟨r.2.1, log⟩
      else some ⟨ip, log⟩

/-! ## Runs -/

/-- What can happen to a connection, each time with what `send` does. -/
inductive action
  | add_message (data : List UInt8) (caught : Bool) (net : List send_t)
  | add_vmessage (data : List UInt8) (caught : Bool) (net : List send_t)
  | flush_message (net : List send_t)
  | net_dead
  | closing

def step (s : output) : action → Option output
  | .add_message data caught net => add_message data caught net s
  | .add_vmessage data caught net => add_vmessage data caught net s
  | .flush_message net => (flush_message s.ip net).map fun r => ⟨r.2.1, s.log⟩
  | .net_dead => some { s with ip := { s.ip with NET_DEAD := true } }
  | .closing => some { s with ip := { s.ip with CLOSING := true } }

/-- A new connection. The buffer has what is there. -/
def start (message_buf : Nat → UInt8) : output where
  ip := ⟨message_buf, 0, 0, 0, false, false, []⟩
  log := []

end mudos.comm_output
