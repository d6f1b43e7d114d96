-- Values between two sockets in MUD mode: a header with the length, then the text of the
-- value with its NUL. The kernels take and give as many bytes of the stream as they like.
import MudOS.SavedValues

open mudos.saved_values

namespace mudos.mud_sockets

/-! ## The size of a saved value -/

abbrev MAX_SAVE_SVALUE_DEPTH : Nat := 25

/-- `while (res>9)`, with no more turns than `res`. -/
def more_digits : Nat → Nat → Nat
  | 0, _ => 0
  | turns + 1, res => if res > 9 then more_digits turns (res / 10) + 1 else 0

def number_save_size (number : Int) : Nat :=
  let res := if number < 0 then (-number).toNat % 2147483648 else number.toNat
  (if number < 0 then 3 else 2) + more_digits res res

def string_save_size (s : List UInt8) : Nat :=
  3 + (s.map fun c => if c = 92 ∨ c = 34 then 2 else 1).sum

variable (sprintf : literal → List UInt8)

mutual

/-- The size of the text with its NUL; nothing is `too_deep_save_error()`. -/
def svalue_save_size (save_svalue_depth : Nat) : svalue_t → Option Nat
  | .T_NUMBER number => some (number_save_size number)
  | .T_REAL real => some ((sprintf real).length + 1)
  | .T_STRING _ string => some (string_save_size string)
  | .T_ARRAY _ item =>
    if save_svalue_depth + 1 > MAX_SAVE_SVALUE_DEPTH then none
    else (items_save_size (save_svalue_depth + 1) item).map (· + 5)
  | .T_CLASS _ item =>
    if save_svalue_depth + 1 > MAX_SAVE_SVALUE_DEPTH then none
    else (items_save_size (save_svalue_depth + 1) item).map (· + 5)
  | .T_MAPPING _ node =>
    if save_svalue_depth + 1 > MAX_SAVE_SVALUE_DEPTH then none
    else (nodes_save_size (save_svalue_depth + 1) node).map (· + 5)

def items_save_size (save_svalue_depth : Nat) : List svalue_t → Option Nat
  | [] => some 0
  | v :: item =>
    (svalue_save_size save_svalue_depth v).bind fun n =>
      (items_save_size save_svalue_depth item).map (n + ·)

def nodes_save_size (save_svalue_depth : Nat) : List (svalue_t × svalue_t) → Option Nat
  | [] => some 0
  | (key, value) :: node =>
    (svalue_save_size save_svalue_depth key).bind fun n =>
      (svalue_save_size save_svalue_depth value).bind fun n' =>
        (nodes_save_size save_svalue_depth node).map (n + n' + ·)

end

/-! ## Integers in memory -/

/-- The four bytes of an integer, the low one first. -/
def bytes (n : Nat) : List UInt8 :=
  [n.toUInt8, (n / 256).toUInt8, (n / 65536).toUInt8, (n / 16777216).toUInt8]

def host (l : List UInt8) : Nat := l.foldr (fun b n => b.toNat + 256 * n) 0

def htonl (n : Nat) : Nat := host (bytes n).reverse

def ntohl (n : Nat) : Nat := htonl n

/-- `recv` writes behind the first `r_off` bytes of `r_len`. -/
def store (r_len r_off : Nat) (got : List UInt8) : Nat :=
  host ((bytes r_len).take r_off ++ got ++ (bytes r_len).drop (r_off + got.length))

/-! ## A socket -/

inductive state_t
  | CLOSED
  | FLUSHING
  | DATA_XFER
deriving DecidableEq

/-- A socket in MUD mode. Of `r_buf` there are the bytes that have been written to it. -/
structure lpc_socket_t where
  state : state_t
  S_BLOCKED : Bool
  S_HEADER : Bool
  r_buf : Option (List UInt8)
  r_off : Nat
  r_len : Nat
  w_buf : Option (List UInt8)
  w_off : Nat
  w_len : Nat

/-- A socket after `socket_accept`. -/
def new_socket : lpc_socket_t where
  state := .DATA_XFER
  S_BLOCKED := false
  S_HEADER := true
  r_buf := none
  r_off := 0
  r_len := 0
  w_buf := none
  w_off := 0
  w_len := 0

/-! ## Sending -/

/-- What `send` returns: the kernel takes so many bytes, or it has no room, or there is an error. -/
inductive send_t
  | taken (cc : Nat)
  | would_block
  | failed

/-- What `socket_write` returns, or `error()`. -/
inductive code_t
  | EESUCCESS
  | EECALLBACK
  | EEBADF
  | EEALREADY
  | EEWOULDBLOCK
  | EESEND
  | error
deriving DecidableEq

/-- The code, the socket and the bytes that the kernel has taken. -/
def socket_write (s : lpc_socket_t) (message : svalue_t) (send : send_t) :
    code_t × lpc_socket_t × List UInt8 :=
  if s.state ≠ .DATA_XFER then (.EEBADF, s, [])
  else if s.S_BLOCKED then (.EEALREADY, s, [])
  else
    match svalue_save_size sprintf 0 message with
    | none => (.error, s, [])
    | some len =>
      let buf := bytes (htonl len) ++ save_svalue sprintf message ++ [0]
      let len := len + 4
      match send with
      | .failed => (.EESEND, s, [])
      | .would_block => (.EEWOULDBLOCK, s, [])
      | .taken cc =>
        let off := min cc len
        if off < len then
          (.EECALLBACK, { s with
            S_BLOCKED := true
            w_buf := some buf
            w_off := off
            w_len := len - off }, buf.take off)
        else (.EESUCCESS, s, buf.take off)

def unblock (s : lpc_socket_t) : lpc_socket_t :=
  let s := { s with S_BLOCKED := false }
  if s.state = .FLUSHING then
    { s with
      state := .CLOSED
      r_buf := none
      w_buf := none }
  else s

def socket_write_select_handler (s : lpc_socket_t) (send : send_t) : lpc_socket_t × List UInt8 :=
  if ¬ s.S_BLOCKED then (s, [])
  else
    match s.w_buf with
    | none => (unblock s, [])
    | some buf =>
      match send with
      | .taken cc =>
        let cc := min cc s.w_len
        let out := (buf.drop s.w_off).take cc
        let s := { s with
          w_off := s.w_off + cc
          w_len := s.w_len - cc }
        if s.w_len ≠ 0 then (s, out)
        else (unblock { s with
          w_buf := none
          w_off := 0 }, out)
      | .would_block => (s, [])
      | .failed =>
        -- an error on a socket that is closing
        if s.state = .FLUSHING then (unblock s, []) else (s, [])

/-! ## Receiving -/

/-- The receiver: its socket, the driver that restores values, what is still in the kernels, and the
value that the read callback is applied to. -/
structure reading_t where
  s : lpc_socket_t
  d : driver
  wire : List UInt8
  value : Option svalue_t

def read_svalue (c : config) (p : reading_t) : reading_t :=
  match restore_svalue c (p.s.r_buf.getD [] ++ [0]) const0 p.d with
  | .value (code, v) d =>
    { p with
      s := { p.s with
        S_HEADER := true
        r_buf := none
        r_off := 0
        r_len := 0 }
      d
      value := some (if code = 0 then v else const0) }
  -- the error leaves the handler
  | .error d => { p with d }
  | .rob _ d => { p with d }
  | .fault _ => p

/-- The second `recv`, for the text. -/
def read_text (c : config) (p : reading_t) (cc : Nat) : reading_t :=
  if p.s.r_off < p.s.r_len then
    let got := p.wire.take (min cc (p.s.r_len - p.s.r_off))
    let p := { p with
      s := { p.s with
        r_buf := p.s.r_buf.map (· ++ got)
        r_off := p.s.r_off + got.length }
      wire := p.wire.drop got.length }
    if got = [] then p
    else if p.s.r_off ≠ p.s.r_len then p
    else read_svalue c p
  else read_svalue c p

/-- The first `recv`, for the header. Each call gives no more than there is room for; when it gives
nothing it would have blocked. -/
def socket_read_select_handler (c : config) (MAX_BYTE_TRANSFER : Fin 2147483648) (p : reading_t)
    (cc cc' : Nat) : reading_t :=
  if p.s.state ≠ .DATA_XFER then p
  else if p.s.S_HEADER then
    let got := p.wire.take (min cc (4 - p.s.r_off))
    let p := { p with
      s := { p.s with
        r_len := store p.s.r_len p.s.r_off got
        r_off := p.s.r_off + got.length }
      wire := p.wire.drop got.length }
    if got = [] then p
    else if p.s.r_off ≠ 4 then p
    else
      let r_len := ntohl p.s.r_len
      let s := { p.s with
        S_HEADER := false
        r_off := 0
        r_len }
      if int32 r_len ≤ 0 ∨ int32 r_len > MAX_BYTE_TRANSFER.val then
        { p with s := { s with state := .CLOSED } }
      else read_text c { p with s := { s with r_buf := some [] } } cc'
  else read_text c p cc'

/-! ## The connection -/

structure connection_t where
  sender : lpc_socket_t
  receiver : lpc_socket_t
  restoring : driver
  /-- What the kernels have taken and not yet given. -/
  wire : List UInt8
  /-- The messages of the calls that have succeeded. -/
  sent : List svalue_t
  /-- The values that the read callback has been applied to. -/
  applied : List svalue_t
  /-- The bytes that the receiver has been given. -/
  given : List UInt8

/-- A socket that has made the connection itself is blocked until it may write. -/
def start (blocked : Bool) : connection_t where
  sender := { new_socket with S_BLOCKED := blocked }
  receiver := new_socket
  restoring := saved_values.start
  wire := []
  sent := []
  applied := []
  given := []

inductive event_t
  | socket_write (message : svalue_t) (send : send_t)
  | write_select (send : send_t)
  | read_select (cc cc' : Nat)

/-- The call returns `EESUCCESS` or `EECALLBACK`. -/
def succeeds (s : lpc_socket_t) (message : svalue_t) (send : send_t) : Bool :=
  match (socket_write sprintf s message send).1 with
  | .EESUCCESS => true
  | .EECALLBACK => true
  | _ => false

def step (c : config) (MAX_BYTE_TRANSFER : Fin 2147483648) (t : connection_t) :
    event_t → Option connection_t
  | .socket_write message send =>
    let (_, sender, out) := socket_write sprintf t.sender message send
    some { t with
      sender
      wire := t.wire ++ out
      sent := if succeeds sprintf t.sender message send then t.sent ++ [message] else t.sent }
  | .write_select send =>
    let (sender, out) := socket_write_select_handler t.sender send
    some { t with
      sender
      wire := t.wire ++ out }
  | .read_select cc cc' =>
    let p := socket_read_select_handler c MAX_BYTE_TRANSFER
      ⟨t.receiver, t.restoring, t.wire, none⟩ cc cc'
    some { t with
      receiver := p.s
      restoring := p.d
      wire := p.wire
      applied := t.applied ++ p.value.toList
      given := t.given ++ t.wire.take (t.wire.length - p.wire.length) }

end mudos.mud_sockets
