-- The address server: `hname_handler` takes what one read gives for one reply,
-- and `got_addr_number` calls those back who asked for its name.
import MudOS.Library.Lines
import MudOS.Library.Runs

namespace mudos.addr_server

/-! ## The driver -/

abbrev HNAME_BUF_SIZE : Nat := 200

abbrev IPSIZE : Nat := 200

abbrev newline : UInt8 := 10

abbrev space : UInt8 := 32

/-- The text `0`, which stands for a failure. -/
abbrev zero : List UInt8 := [48]

structure ipnumberentry_t where
  name : List UInt8
  call_back : List UInt8
  ob_to_call : Nat
  request : Nat

structure ipentry_t where
  addr : Nat
  name : Option (List UInt8)

/-- What the server says: the two texts, and the address where the first one is an address
that has a name. -/
structure reply where
  name : List UInt8
  number : List UInt8
  entry : Option Nat
deriving DecidableEq

/-- A call of `call_back`, with its arguments. -/
structure callback where
  request : Nat
  name : Option (List UInt8)
  number : Option (List UInt8)
  key : Nat
deriving DecidableEq

/-- `got_addr_number` at a place of the table, where it waits for the callback. -/
structure frame where
  i : Nat
  r : reply

/-- The driver, with what it has read and done so far. -/
structure driver where
  addr_server_fd : Bool
  /-- A byte has been stored past the end of `hname_buf`. -/
  overrun : Bool
  ipnumbertable : List (Option ipnumberentry_t)
  iptable : List ipentry_t
  ipcur : Nat
  destructed : Nat → Bool
  waits : Option frame
  read : List UInt8
  answers : List reply
  requests : List (List UInt8)
  callbacks : List callback

/-! ## Parsing -/

def cstr (buf : List UInt8) : List UInt8 := buf.takeWhile (· ≠ 0)

/-- `strchr`: what stands before the character and behind it. -/
def strchr (c : UInt8) (s : List UInt8) : Option (List UInt8 × List UInt8) :=
  if c ∈ s then some (s.takeWhile (· ≠ c), (s.dropWhile (· ≠ c)).drop 1) else none

def isdigit (s : List UInt8) : Bool := s.head?.any fun c => 48 ≤ c && c ≤ 57

/-- What `hname_handler` takes from its buffer. `inet_addr` gives the address at the start of
a text. -/
def parse_reply (inet_addr : List UInt8 → Option Nat) (hname_buf : List UInt8) : Option reply :=
  let str := cstr hname_buf
  if isdigit str then
    (inet_addr str).bind fun laddr =>
      (strchr space str).bind fun (name, pp) =>
        (strchr newline pp).map fun (number, _) =>
          ⟨name, number, if number ≠ zero then some laddr else none⟩
  else
    (strchr space str).map fun (name, pp) =>
      match strchr newline pp with
      | some (number, _) => ⟨name, number, none⟩
      | none => ⟨name, pp, none⟩

/-! ## `got_addr_number` -/

def callback_of (i : Nat) (e : ipnumberentry_t) (r : reply) : callback :=
  let theName := if isdigit e.name then r.number else e.name
  let theNumber := if isdigit e.name then e.name else r.number
  { request := e.request
    name := if theName ≠ zero then some theName else none
    number := if r.number ≠ zero then some theNumber else none
    key := i + 1 }

def asks (name : List UInt8) (slot : Option ipnumberentry_t) : Bool :=
  slot.any fun e => e.name = name

/-- The loop from the place `i` on, up to the next callback. `safe_apply` calls no object that
is destructed. -/
def next_callback (i : Nat) (r : reply) (s : driver) : driver :=
  let j := i + (s.ipnumbertable.drop i).findIdx (asks r.name)
  match s.ipnumbertable[j]? with
  | some (some e) =>
    { s with
      waits := some ⟨j, r⟩
      callbacks :=
        if s.destructed e.ob_to_call then s.callbacks else s.callbacks ++ [callback_of j e r] }
  | _ => { s with waits := none }

def got_addr_number (r : reply) (s : driver) : driver :=
  next_callback 0 r { s with
    ipnumbertable := s.ipnumbertable.map fun slot =>
      slot.filter fun e => !s.destructed e.ob_to_call }

/-- The request is done when the callback comes back. -/
def callback_returns (f : frame) (s : driver) : driver :=
  next_callback (f.i + 1) f.r { s with ipnumbertable := s.ipnumbertable.set f.i none }

/-! ## `hname_handler` -/

def add_ip_entry (addr : Nat) (name : List UInt8) (s : driver) : driver :=
  if s.iptable.any fun e => e.addr = addr then s
  else { s with
    iptable := s.iptable.set s.ipcur ⟨addr, some name⟩
    ipcur := (s.ipcur + 1) % IPSIZE }

/-- `hname_handler` with the bytes that one read gives. -/
def hname_handler (inet_addr : List UInt8 → Option Nat) (hname_buf : List UInt8) (s : driver) :
    driver :=
  let s := { s with
    read := s.read ++ hname_buf
    overrun := s.overrun || HNAME_BUF_SIZE ≤ hname_buf.length }
  match parse_reply inet_addr hname_buf with
  | none => s
  | some r =>
    let s := { s with answers := s.answers ++ [r] }
    got_addr_number r (match r.entry with
      | some laddr => add_ip_entry laddr r.number s
      | none => s)

/-! ## `query_addr_number` -/

inductive written
  | sent
  | EBADF
  | failed

/-- Where the request cannot be sent or kept, its callback is called at once. -/
def query_addr_number (name call_back : List UInt8) (current_object : Nat) (w : written)
    (s : driver) : driver :=
  if !s.addr_server_fd || 100 - (4 + 4 + 4) ≤ name.length then s
  else
    match w with
    | .EBADF => { s with addr_server_fd := false }
    | .failed => s
    | .sent =>
      let i := s.ipnumbertable.findIdx Option.isNone
      if i = IPSIZE then s
      else { s with
        ipnumbertable :=
          s.ipnumbertable.set i (some ⟨name, call_back, current_object, s.requests.length⟩)
        requests := s.requests ++ [name] }

/-! ## Runs -/

/-- The backend reads, and a callback and other code of the mudlib ask for names and destruct
objects. -/
inductive action
  | read (hname_buf : List UInt8)
  | close
  | query_addr_number (name call_back : List UInt8) (current_object : Nat) (w : written)
  | destruct (ob : Nat)
  | callback_returns

def step (inet_addr : List UInt8 → Option Nat) (s : driver) : action → Option driver
  | .read hname_buf =>
    if s.waits.isNone ∧ s.addr_server_fd ∧ hname_buf ≠ [] ∧ hname_buf.length ≤ HNAME_BUF_SIZE then
      some (hname_handler inet_addr hname_buf s)
    else none
  | .close => some { s with addr_server_fd := false }
  | .query_addr_number name call_back current_object w =>
    some (query_addr_number name call_back current_object w s)
  | .destruct ob => some { s with destructed := Function.update s.destructed ob true }
  | .callback_returns =>
    match s.waits with
    | none => none
    | some f => some (callback_returns f s)

def start : driver where
  addr_server_fd := true
  overrun := false
  ipnumbertable := List.replicate IPSIZE none
  iptable := List.replicate IPSIZE ⟨0, none⟩
  ipcur := 0
  destructed := fun _ => false
  waits := none
  read := []
  answers := []
  requests := []
  callbacks := []

end mudos.addr_server
