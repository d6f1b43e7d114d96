-- The table of `socket_efuns.c`: descriptors, callbacks and buffers of the slots, with the
-- callbacks that are running and may do anything to any socket.
import Mathlib.Data.List.Basic

namespace mudos.socket_table

/-! ## Slots -/

inductive socket_mode
  | MUD
  | STREAM
  | DATAGRAM
deriving DecidableEq

inductive socket_state
  | CLOSED
  | FLUSHING
  | UNBOUND
  | BOUND
  | LISTEN
  | DATA_XFER
deriving DecidableEq

/-- The flags that say that a callback is a function pointer. -/
inductive what_t
  | S_READ_FP
  | S_WRITE_FP
  | S_CLOSE_FP
deriving DecidableEq

/-- A reference to a string or a function pointer. Descriptors, buffers and references all have
numbers of their own. -/
structure callback_t where
  id : Nat
  funp : Bool
deriving DecidableEq

structure lpc_socket_t where
  fd : Option Nat
  S_RELEASE : Bool
  S_BLOCKED : Bool
  S_HEADER : Bool
  S_WACCEPT : Bool
  S_BINARY : Bool
  S_FP : what_t → Bool
  mode : socket_mode
  state : socket_state
  owner_ob : Option Nat
  release_ob : Option Nat
  callback : what_t → Option callback_t
  r_buf : Option Nat
  r_off : Nat
  r_len : Int
  w_buf : Option Nat
  w_len : Nat

/-- The numbers that have been given, and those that have been freed or closed. -/
structure ledger where
  next : Nat
  released : List Nat
  /-- A callback has been freed as what it is not. -/
  wrong : Bool

def ledger.free (l : ledger) (n : Option Nat) : ledger :=
  match n with
  | none => l
  | some n => { l with released := n :: l.released }

abbrev slot_t := lpc_socket_t × ledger

/-! ## Callbacks -/

def set {α : Type} (f : what_t → α) (what : what_t) (a : α) : what_t → α :=
  fun w => if w = what then a else f w

/-- `free_funp` or `free_string`, as the flag says. -/
def free_callback (what : what_t) (x : slot_t) : ledger :=
  match x.1.S_FP what, x.1.callback what with
  | true, none => { x.2 with wrong := true }
  | true, some c => { x.2.free (some c.id) with wrong := x.2.wrong || !c.funp }
  | false, none => x.2
  | false, some c => { x.2.free (some c.id) with wrong := x.2.wrong || c.funp }

/-- The callback is none, or a function pointer or string. -/
def set_callback (what : what_t) (cb : Option Bool) (x : slot_t) : slot_t :=
  let l := free_callback what x
  match cb with
  | none =>
    ({ x.1 with
        S_FP := set x.1.S_FP what false
        callback := set x.1.callback what none }, l)
  | some funp =>
    ({ x.1 with
        S_FP := set x.1.S_FP what funp
        callback := set x.1.callback what (some ⟨l.next, funp⟩) }, { l with next := l.next + 1 })

def set_read_callback (cb : Option Bool) : slot_t → slot_t := set_callback .S_READ_FP cb
def set_write_callback (cb : Option Bool) : slot_t → slot_t := set_callback .S_WRITE_FP cb
def set_close_callback (cb : Option Bool) : slot_t → slot_t := set_callback .S_CLOSE_FP cb

def copy_close_callback («from» : lpc_socket_t) (x : slot_t) : slot_t :=
  let l := free_callback .S_CLOSE_FP x
  match «from».callback .S_CLOSE_FP with
  | none =>
    ({ x.1 with
        S_FP := set x.1.S_FP .S_CLOSE_FP («from».S_FP .S_CLOSE_FP)
        callback := set x.1.callback .S_CLOSE_FP none }, l)
  | some c =>
    ({ x.1 with
        S_FP := set x.1.S_FP .S_CLOSE_FP («from».S_FP .S_CLOSE_FP)
        callback := set x.1.callback .S_CLOSE_FP (some ⟨l.next, c.funp⟩) },
      { l with next := l.next + 1 })

def no_callbacks (x : slot_t) : slot_t :=
  set_close_callback none (set_write_callback none (set_read_callback none x))

/-! ## The driver -/

inductive frame
  /-- A read or write callback: nothing comes after it. -/
  | plain
  /-- The close callback of a socket, with its descriptor. -/
  | closing (fd descriptor : Nat)
  /-- The callback of `socket_release`. -/
  | releasing (fd descriptor : Nat)
deriving DecidableEq

structure driver where
  lpc_socks : List lpc_socket_t
  /-- The callbacks that are running, the last first. -/
  frames : List frame
  ledger : ledger
  /-- There is no object at the address. -/
  freed : Nat → Bool
  destructed : Nat → Bool
  O_EFUN_SOCKET : Nat → Bool
  /-- A callback has been applied in an object that has been freed. -/
  dangling : Bool
  /-- An operation has gone on with another socket than it began with. -/
  misdirected : Bool

def driver.put (d : driver) (fd : Nat) (x : slot_t) : driver :=
  { d with
    lpc_socks := d.lpc_socks.set fd x.1
    ledger := x.2 }

def driver.modify (d : driver) (fd : Nat) (f : slot_t → slot_t) : driver :=
  match d.lpc_socks[fd]? with
  | none => d
  | some s => d.put fd (f (s, d.ledger))

def driver.mark (d : driver) (ob : Nat) : driver :=
  { d with O_EFUN_SOCKET := fun o => if o = ob then true else d.O_EFUN_SOCKET o }

/-! ## Closing -/

/-- The end of `socket_close`. -/
def shut (x : slot_t) : slot_t :=
  let (s, l) := no_callbacks x
  if s.S_BLOCKED then ({ s with state := .FLUSHING }, l)
  else ({ s with state := .CLOSED }, ((l.free s.fd).free s.r_buf).free s.w_buf)

def resume (d : driver) : frame → driver
  | .plain => d
  | .closing fd descriptor =>
    match d.lpc_socks[fd]? with
    | none => d
    | some s =>
      { d.put fd (shut (s, d.ledger)) with
        misdirected := d.misdirected || decide (s.fd ≠ some descriptor) }
  | .releasing fd descriptor =>
    match d.lpc_socks[fd]? with
    | none => d
    | some s =>
      if s.S_RELEASE then
        { d.put fd ({ s with
            S_RELEASE := false
            release_ob := none }, d.ledger) with
          misdirected := d.misdirected || decide (s.fd ≠ some descriptor) }
      else d

/-- `safe_apply` looks at the flags of the object. -/
def call_callback (d : driver) (s : lpc_socket_t) (what : what_t) (f : frame) : driver :=
  match s.S_FP what, s.callback what, s.owner_ob with
  | true, _, _ => { d with frames := f :: d.frames }
  | false, none, _ => resume d f
  | false, some _, none => { d with dangling := true }
  | false, some _, some ob =>
    if d.freed ob then { d with dangling := true }
    else if d.destructed ob then resume d f
    else { d with frames := f :: d.frames }

def is_open (s : lpc_socket_t) : Bool := s.state ≠ .CLOSED && s.state ≠ .FLUSHING

/-- `SC_FORCE` -/
def close_forced (d : driver) (fd : Nat) : driver :=
  match d.lpc_socks[fd]? with
  | none => d
  | some s => if is_open s then d.modify fd shut else d

/-- `SC_FORCE | SC_FINAL_CLOSE` -/
def close_final (d : driver) (fd : Nat) : driver :=
  match d.lpc_socks[fd]? with
  | none => d
  | some s => if s.state = .CLOSED then d else d.modify fd shut

/-- `SC_FORCE | SC_DO_CALLBACK` -/
def close_with_callback (d : driver) (fd : Nat) : driver :=
  match d.lpc_socks[fd]? with
  | none => d
  | some s =>
    if is_open s then call_callback d s .S_CLOSE_FP (.closing fd (s.fd.getD 0)) else d

def socket_close (d : driver) (current_object fd : Nat) : driver :=
  match d.lpc_socks[fd]? with
  | none => d
  | some s =>
    if is_open s ∧ s.owner_ob = some current_object then d.modify fd shut else d

def close_referencing_sockets (d : driver) (ob : Nat) : driver :=
  (List.range d.lpc_socks.length).foldl (fun d i =>
    match d.lpc_socks[i]? with
    | none => d
    | some s => if s.owner_ob = some ob then close_forced d i else d) d

/-! ## Opening -/

/-- A slot as `more_lpc_sockets` makes it. -/
def new_slot : lpc_socket_t where
  fd := none
  S_RELEASE := false
  S_BLOCKED := false
  S_HEADER := false
  S_WACCEPT := false
  S_BINARY := false
  S_FP := fun _ => false
  mode := .MUD
  state := .CLOSED
  owner_ob := none
  release_ob := none
  callback := fun _ => none
  r_buf := none
  r_off := 0
  r_len := 0
  w_buf := none
  w_len := 0

def find_new_socket (d : driver) : Nat × driver :=
  match d.lpc_socks.findIdx? fun s => s.state = .CLOSED with
  | some i => (i, d.modify i no_callbacks)
  | none => (d.lpc_socks.length, { d with lpc_socks := d.lpc_socks ++ List.replicate 10 new_slot })

/-- A descriptor in this slot. The flags are set as a whole. -/
def open_slot (binary blocked : Bool) (mode : socket_mode) (state : socket_state) (owner_ob : Nat)
    (x : slot_t) : slot_t :=
  ({ new_slot with
      fd := some x.2.next
      S_BLOCKED := blocked
      S_HEADER := true
      S_BINARY := binary
      mode
      state
      owner_ob := some owner_ob
      callback := x.1.callback }, { x.2 with next := x.2.next + 1 })

/-- What `socket_create` is given. -/
structure create_t where
  mode : socket_mode
  binary : Bool
  read_callback : Option Bool
  close_callback : Option Bool
  /-- `socket`, `setsockopt` and `set_socket_nonblocking` do not fail. -/
  ok : Bool

def socket_create (d : driver) (current_object : Nat) (a : create_t) : driver :=
  let (i, d) := find_new_socket d
  if a.ok then
    (d.modify i fun x =>
      set_close_callback (if a.mode = .DATAGRAM then none else a.close_callback)
        (set_write_callback none (set_read_callback a.read_callback
          (open_slot a.binary false a.mode .UNBOUND current_object x)))).mark current_object
  else d

def socket_bind (d : driver) (current_object fd : Nat) (ok : Bool) : driver :=
  match d.lpc_socks[fd]? with
  | none => d
  | some s =>
    if is_open s ∧ s.owner_ob = some current_object ∧ s.state = .UNBOUND ∧ ok then
      d.put fd ({ s with state := .BOUND }, d.ledger)
    else d

def socket_listen (d : driver) (current_object fd : Nat) (callback ok : Bool) : driver :=
  match d.lpc_socks[fd]? with
  | none => d
  | some s =>
    if is_open s ∧ s.owner_ob = some current_object ∧ s.mode ≠ .DATAGRAM ∧ s.state = .BOUND ∧ ok then
      (d.put fd (set_read_callback (some callback) ({ s with state := .LISTEN }, d.ledger))).mark
        current_object
    else d

/-- The descriptor that `accept` gives may be blocked, or there is none. -/
def socket_accept (d : driver) (current_object fd : Nat) (read_callback write_callback : Bool)
    (accepted : Option Bool) : driver :=
  match d.lpc_socks[fd]? with
  | none => d
  | some s =>
    if is_open s ∧ s.owner_ob = some current_object ∧ s.mode ≠ .DATAGRAM ∧ s.state = .LISTEN then
      let d := d.put fd ({ s with S_WACCEPT := false }, d.ledger)
      match accepted with
      | none => d
      | some blocked =>
        let (i, d) := find_new_socket d
        (d.modify i fun x =>
          copy_close_callback s (set_write_callback (some write_callback)
            (set_read_callback (some read_callback)
              (open_slot s.S_BINARY blocked s.mode .DATA_XFER current_object x)))).mark
          current_object
    else d

def socket_connect (d : driver) (current_object fd : Nat) (read_callback write_callback ok : Bool) :
    driver :=
  match d.lpc_socks[fd]? with
  | none => d
  | some s =>
    if is_open s ∧ s.owner_ob = some current_object ∧ s.mode ≠ .DATAGRAM ∧
        (s.state = .UNBOUND ∨ s.state = .BOUND) then
      let (s, l) := set_write_callback (some write_callback)
        (set_read_callback (some read_callback) (s, d.ledger))
      (d.put fd
        (if ok then
          { s with
            state := .DATA_XFER
            S_BLOCKED := true }
        else s, l)).mark current_object
    else d

/-! ## Writing and reading -/

/-- So many characters of the message could not be written, and are kept. -/
def socket_write (d : driver) (current_object fd : Nat) (rest : Nat) : driver :=
  match d.lpc_socks[fd]? with
  | none => d
  | some s =>
    if is_open s ∧ s.owner_ob = some current_object ∧ s.mode ≠ .DATAGRAM ∧ s.state = .DATA_XFER ∧
        ¬ s.S_BLOCKED ∧ 0 < rest then
      d.put fd
        ({ s with
            S_BLOCKED := true
            w_buf := some d.ledger.next
            w_len := rest }, { d.ledger with next := d.ledger.next + 1 })
    else d

inductive result_t
  | done (cc : Nat)
  | ECONNREFUSED
  | EINTR
  | EWOULDBLOCK
  | failed

def socket_write_select_handler (d : driver) (fd : Nat) (written : result_t) : driver :=
  match d.lpc_socks[fd]? with
  | none => d
  | some s =>
    if s.S_BLOCKED then
      let unblocked (s : lpc_socket_t) (l : ledger) : driver :=
        let s := { s with S_BLOCKED := false }
        let d := d.put fd (s, l)
        if s.state = .FLUSHING then close_final d fd else call_callback d s .S_WRITE_FP .plain
      match s.w_buf with
      | none => unblocked s d.ledger
      | some buf =>
        match written with
        | .done cc =>
          let s := { s with w_len := s.w_len - cc }
          if s.w_len ≠ 0 then d.put fd (s, d.ledger)
          else unblocked { s with w_buf := none } (d.ledger.free (some buf))
        | .EINTR => d
        | _ =>
          if s.state = .FLUSHING then
            close_final (d.put fd ({ s with S_BLOCKED := false }, d.ledger)) fd
          else d
    else d

/-- What comes behind the cases, when nothing has been read. -/
def read_failed (d : driver) (fd : Nat) (s : lpc_socket_t) : result_t → driver
  | .ECONNREFUSED =>
    if s.state = .BOUND ∧ s.mode = .DATAGRAM then d else close_with_callback d fd
  | .EINTR => d
  | .EWOULDBLOCK => d
  | _ => close_with_callback d fd

variable (MAX_BYTE_TRANSFER : Int)

/-- What is read: the rest of the header with the length in it, and of the message. `restore_svalue`
may raise an error. -/
structure read_t where
  header : result_t
  len : Int
  message : result_t
  restored : Bool

/-- The message of a MUD socket, behind its header. -/
def read_message (d : driver) (fd : Nat) (s : lpc_socket_t) (l : ledger) (a : read_t) : driver :=
  let complete (s : lpc_socket_t) : driver :=
    if a.restored then
      let s' := { s with
        S_HEADER := true
        r_buf := none
        r_off := 0
        r_len := 0 }
      call_callback (d.put fd (s', l.free s.r_buf)) s' .S_READ_FP .plain
    else d.put fd (s, l)
  if (s.r_off : Int) < s.r_len then
    match a.message with
    | .done (cc + 1) =>
      let s := { s with r_off := s.r_off + (cc + 1) }
      if (s.r_off : Int) < s.r_len then d.put fd (s, l) else complete s
    | r => read_failed (d.put fd (s, l)) fd s r
  else complete s

def socket_read_select_handler (d : driver) (fd : Nat) (a : read_t) : driver :=
  match d.lpc_socks[fd]? with
  | none => d
  | some s =>
    match s.state, s.mode with
    | .CLOSED, _ => d
    | .FLUSHING, _ => d
    | .UNBOUND, _ => close_with_callback d fd
    | .BOUND, .DATAGRAM =>
      match a.message with
      | .done (_ + 1) => call_callback d s .S_READ_FP .plain
      | r => read_failed d fd s r
    | .BOUND, _ => close_with_callback d fd
    | .LISTEN, _ =>
      let s := { s with S_WACCEPT := true }
      call_callback (d.put fd (s, d.ledger)) s .S_READ_FP .plain
    | .DATA_XFER, .DATAGRAM => close_with_callback d fd
    | .DATA_XFER, .STREAM =>
      match a.message with
      | .done (_ + 1) => call_callback d s .S_READ_FP .plain
      | r => read_failed d fd s r
    | .DATA_XFER, .MUD =>
      if s.S_HEADER then
        match a.header with
        | .done (cc + 1) =>
          let s := { s with r_off := s.r_off + (cc + 1) }
          if s.r_off < 4 then d.put fd (s, d.ledger)
          else
            let s := { s with
              S_HEADER := false
              r_off := 0
              r_len := a.len }
            if a.len ≤ 0 ∨ a.len > MAX_BYTE_TRANSFER then
              close_with_callback (d.put fd (s, d.ledger)) fd
            else
              read_message d fd { s with r_buf := some d.ledger.next }
                { d.ledger with next := d.ledger.next + 1 } a
        | r => read_failed d fd s r
      else read_message d fd s d.ledger a

/-! ## Release -/

/-- The target is gone when `valid_socket` of the master object has destructed it. -/
def socket_release (d : driver) (current_object fd : Nat) (ob : Option Nat) : driver :=
  match d.lpc_socks[fd]? with
  | none => d
  | some s =>
    if is_open s ∧ s.owner_ob = some current_object ∧ ¬ s.S_RELEASE then
      match ob with
      | none => { d with dangling := true }
      | some ob =>
        let d := d.put fd ({ s with
          S_RELEASE := true
          release_ob := some ob }, d.ledger)
        { d with frames := .releasing fd (s.fd.getD 0) :: d.frames }
    else d

def socket_acquire (d : driver) (current_object fd : Nat)
    (read_callback write_callback close_callback : Bool) : driver :=
  match d.lpc_socks[fd]? with
  | none => d
  | some s =>
    if is_open s ∧ s.S_RELEASE ∧ s.release_ob = some current_object then
      d.put fd (set_close_callback (some close_callback) (set_write_callback (some write_callback)
        (set_read_callback (some read_callback)
          ({ s with
              S_RELEASE := false
              owner_ob := some current_object
              release_ob := none }, d.ledger))))
    else d

/-! ## Steps -/

inductive efun_t
  | create (a : create_t)
  | bind (fd : Nat) (ok : Bool)
  | listen (fd : Nat) (callback ok : Bool)
  | accept (fd : Nat) (read_callback write_callback : Bool) (accepted : Option Bool)
  | connect (fd : Nat) (read_callback write_callback ok : Bool)
  | write (fd rest : Nat)
  | close (fd : Nat)
  | release (fd : Nat) (ob : Option Nat)
  | acquire (fd : Nat) (read_callback write_callback close_callback : Bool)

inductive action
  /-- An object that is in memory does this, in a callback or elsewhere. -/
  | efun (current_object : Nat) (a : efun_t)
  /-- The last callback returns, or an error ends it. -/
  | ret
  /-- `select` says that something can be read or written. -/
  | readable (fd : Nat) (a : read_t)
  | writable (fd : Nat) (written : result_t)
  | new_object (ob : Nat)
  | destruct (ob : Nat)
  /-- The last reference to a destructed object is gone. -/
  | dealloc (ob : Nat)

def efun (d : driver) (current_object : Nat) : efun_t → driver
  | .create a => socket_create d current_object a
  | .bind fd ok => socket_bind d current_object fd ok
  | .listen fd callback ok => socket_listen d current_object fd callback ok
  | .accept fd r w accepted => socket_accept d current_object fd r w accepted
  | .connect fd r w ok => socket_connect d current_object fd r w ok
  | .write fd rest => socket_write d current_object fd rest
  | .close fd => socket_close d current_object fd
  | .release fd ob => socket_release d current_object fd ob
  | .acquire fd r w c => socket_acquire d current_object fd r w c

def polls (d : driver) (fd : Nat) : Bool :=
  d.frames.isEmpty && (d.lpc_socks[fd]?).any fun s => s.state ≠ .CLOSED

def step (d : driver) : action → driver
  | .efun current_object a => if d.freed current_object then d else efun d current_object a
  | .ret =>
    match d.frames with
    | [] => d
    | f :: frames => resume { d with frames } f
  | .readable fd a =>
    if polls d fd then socket_read_select_handler MAX_BYTE_TRANSFER d fd a else d
  | .writable fd written => if polls d fd then socket_write_select_handler d fd written else d
  | .new_object ob =>
    if d.freed ob then
      { d with
        freed := fun o => if o = ob then false else d.freed o
        destructed := fun o => if o = ob then false else d.destructed o
        O_EFUN_SOCKET := fun o => if o = ob then false else d.O_EFUN_SOCKET o }
    else d
  | .destruct ob =>
    if d.destructed ob ∨ d.freed ob then d
    else
      let d := if d.O_EFUN_SOCKET ob then close_referencing_sockets d ob else d
      { d with destructed := fun o => if o = ob then true else d.destructed o }
  | .dealloc ob =>
    if d.destructed ob ∧ ¬ d.freed ob then
      let d := if d.O_EFUN_SOCKET ob then close_referencing_sockets d ob else d
      { d with freed := fun o => if o = ob then true else d.freed o }
    else d

def start : driver where
  lpc_socks := []
  frames := []
  ledger := ⟨0, [], false⟩
  freed := fun _ => true
  destructed := fun _ => false
  O_EFUN_SOCKET := fun _ => false
  dangling := false
  misdirected := false

end mudos.socket_table
