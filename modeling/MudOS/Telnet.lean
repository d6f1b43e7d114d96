-- The telnet filter of `comm.c`: `copy_chars` takes the bytes of a read one
-- at a time, keeps its place in a telnet command between the reads, and
-- passes the text on.
import MudOS.Library.Transducers

open mudos.transducers

namespace mudos.comm

/-! ## The codes -/

abbrev IAC : UInt8 := 255
abbrev DONT : UInt8 := 254
abbrev DO : UInt8 := 253
abbrev WONT : UInt8 := 252
abbrev WILL : UInt8 := 251
abbrev SB : UInt8 := 250
abbrev AYT : UInt8 := 246
abbrev AO : UInt8 := 245
abbrev IP : UInt8 := 244
abbrev BREAK : UInt8 := 243
abbrev DM : UInt8 := 242
abbrev NOP : UInt8 := 241
abbrev SE : UInt8 := 240

abbrev TELOPT_TM : UInt8 := 6
abbrev TELOPT_TTYPE : UInt8 := 24
abbrev TELOPT_NAWS : UInt8 := 31
abbrev TELQUAL_SEND : UInt8 := 1

abbrev SB_SIZE : Nat := 100

/-- `'I'`, the letter that stands for a zero byte in `sb_buf`. -/
abbrev LETTER_I : UInt8 := 73

def telnet_break_response : List UInt8 := [28, IAC, WILL, TELOPT_TM]
def telnet_interrupt_response : List UInt8 := [127, IAC, WILL, TELOPT_TM]
def telnet_abort_response : List UInt8 := [IAC, DM]
def telnet_do_tm_response : List UInt8 := [IAC, WILL, TELOPT_TM]
def telnet_term_query : List UInt8 := [IAC, SB, TELOPT_TTYPE, TELQUAL_SEND, IAC, SE]

/-- `"\n[-Yes-] \n"` -/
def ayt_response : List UInt8 := [10, 91, 45, 89, 101, 115, 45, 93, 32, 10]

/-! ## The connection -/

inductive ts_state
  | TS_DATA | TS_IAC | TS_WILL | TS_WONT | TS_DO | TS_DONT | TS_SB | TS_SB_IAC
deriving DecidableEq, Repr

/-- What the filter keeps of a connection between the bytes. -/
structure telnet_t where
  state : ts_state
  sb_pos : Nat
  sb_buf : List UInt8
  using_telnet : Bool
  out_of_band : Bool
  /-- Where a byte was stored that is not in `sb_buf`. -/
  stray : List Nat
deriving DecidableEq, Repr

/-- A connection as `new_user_handler` sets it up. -/
def new_user : telnet_t := ⟨.TS_DATA, 0, List.replicate SB_SIZE 0, false, false, []⟩

/-- `sb_buf[i] = b` -/
def sb_store (ip : telnet_t) (i : Nat) (b : UInt8) : telnet_t :=
  if i < SB_SIZE then { ip with sb_buf := ip.sb_buf.set i b }
  else { ip with stray := i :: ip.stray }

/-- What the filter does for a byte, in order: a byte stored through `to`, a
message to the user, or an apply in the user object. -/
inductive Effect
  | text (b : UInt8)
  | add_message (s : List UInt8)
  | flush_message
  | terminal_type (s : List UInt8)
  | window_size (w h : Nat)
  | telnet_suboption (s : List UInt8)
deriving DecidableEq, Repr

def Effect.text? : Effect → Option UInt8
  | .text b => some b
  | _ => none

/-- The bytes that are passed on as text of the user. -/
def textOf (out : List Effect) : List UInt8 := out.filterMap Effect.text?

/-! ## The filter -/

def c_string (s : List UInt8) : List UInt8 := s.takeWhile (· != 0)

def suboption_apply (sb_buf : List UInt8) : Effect :=
  if sb_buf.getD 0 0 = TELOPT_TTYPE ∧ sb_buf.getD 1 0 = LETTER_I then
    .terminal_type (c_string (sb_buf.drop 2))
  else if sb_buf.getD 0 0 = TELOPT_NAWS then
    let c := fun i => (if sb_buf.getD (i + 1) 0 = LETTER_I then 0 else sb_buf.getD (i + 1) 0).toNat
    .window_size (c 0 * 256 + c 1) (c 2 * 256 + c 3)
  else
    .telnet_suboption (c_string sb_buf)

/-- The `case TS_IAC`, which is also where a `TS_SB_IAC` falls through to. -/
def iac_char (ip : telnet_t) (c : UInt8) : telnet_t × List Effect :=
  if c = IAC then ({ ip with state := .TS_DATA }, [.text IAC])
  else if c = DO then ({ ip with state := .TS_DO }, [])
  else if c = DONT then ({ ip with state := .TS_DONT }, [])
  else if c = WILL then ({ ip with state := .TS_WILL }, [])
  else if c = WONT then ({ ip with state := .TS_WONT }, [])
  else if c = BREAK then (ip, [.add_message telnet_break_response, .flush_message])
  else if c = IP then (ip, [.add_message telnet_interrupt_response])
  else if c = AYT then (ip, [.add_message ayt_response])
  else if c = AO then
    ({ ip with out_of_band := true }, [.add_message telnet_abort_response, .flush_message])
  else if c = SB then ({ ip with state := .TS_SB, sb_pos := 0 }, [])
  else ({ ip with state := .TS_DATA }, [])

/-- A byte of text, as it goes into the buffer of the user. -/
def user_text (single_char : Bool) (c : UInt8) : List UInt8 :=
  if c = 13 then (if single_char then [c] else [])
  else if c = 10 then (if single_char then [c] else [32, 8, 0])
  else [c]

/-- One turn of the loop of `copy_chars`. The `SINGLE_CHAR` flag comes with the
byte, as the LPC code that an apply runs may change it between two bytes. -/
def copy_char (ip : telnet_t) : Bool × UInt8 → telnet_t × List Effect
  | (single_char, c) =>
    match ip.state with
    | .TS_DATA =>
      if c = IAC then ({ ip with state := .TS_IAC }, [])
      else (ip, (user_text single_char c).map .text)
    | .TS_SB_IAC =>
      if c = IAC then
        if ip.sb_pos ≥ SB_SIZE then (ip, [])
        else ({ sb_store ip ip.sb_pos IAC with sb_pos := ip.sb_pos + 1, state := .TS_SB }, [])
      else if c = SE then
        let ip := sb_store ip ip.sb_pos 0
        ({ ip with state := .TS_DATA }, [suboption_apply ip.sb_buf])
      else iac_char ip c
    | .TS_IAC => iac_char ip c
    | .TS_DO =>
      ({ ip with state := .TS_DATA },
        if c = TELOPT_TM then [.add_message telnet_do_tm_response, .flush_message] else [])
    | .TS_WILL =>
      ({ ip with using_telnet := true, state := .TS_DATA },
        if c = TELOPT_TTYPE then [.add_message telnet_term_query, .flush_message] else [])
    | .TS_DONT | .TS_WONT => ({ ip with using_telnet := true, state := .TS_DATA }, [])
    | .TS_SB =>
      if c = IAC then ({ ip with state := .TS_SB_IAC }, [])
      else if ip.sb_pos ≥ SB_SIZE then (ip, [])
      else if c ≠ 0 then ({ sb_store ip ip.sb_pos c with sb_pos := ip.sb_pos + 1 }, [])
      else ({ sb_store ip ip.sb_pos LETTER_I with sb_pos := ip.sb_pos + 1 }, [])

def copy_chars (ip : telnet_t) (from_ : List (Bool × UInt8)) : telnet_t × List Effect :=
  feed copy_char ip from_

/-! ## The framing of RFC 854 -/

/-- What a stream is made of. The number with a part of a suboption counts the
bytes that the suboption had before. -/
inductive Frame
  | data (single_char : Bool) (b : UInt8)
  | command (c : UInt8)
  | option (o : UInt8)
  | subByte (n : Nat) (b : UInt8)
  | subQuoted (n : Nat)
  | subEnd (n : Nat)
deriving DecidableEq, Repr

def Frame.text : Frame → List UInt8
  | .data single_char b => user_text single_char b
  | _ => []

mutual

/-- The frames of a stream. When `matching`, a suboption runs up to its `IAC SE`
whatever command stands in it; otherwise any command ends it. -/
def data (matching : Bool) : List (Bool × UInt8) → List Frame
  | [] => []
  | (single_char, c) :: cs =>
    if c = IAC then command matching cs else .data single_char c :: data matching cs

/-- The frames after an `IAC` in data. -/
def command (matching : Bool) : List (Bool × UInt8) → List Frame
  | [] => []
  | (single_char, c) :: cs =>
    if c = IAC then .data single_char IAC :: data matching cs
    else if c = DO ∨ c = DONT ∨ c = WILL ∨ c = WONT then option matching cs
    else if c = SB then suboption matching 0 cs
    else .command c :: data matching cs

/-- The frames after `DO`, `DONT`, `WILL` or `WONT`. -/
def option (matching : Bool) : List (Bool × UInt8) → List Frame
  | [] => []
  | (_, o) :: cs => .option o :: data matching cs

/-- The frames from within a suboption that has `n` bytes. -/
def suboption (matching : Bool) (n : Nat) : List (Bool × UInt8) → List Frame
  | [] => []
  | (_, c) :: cs =>
    if c = IAC then suboption_iac matching n cs
    else .subByte n c :: suboption matching (n + 1) cs

/-- The frames after an `IAC` in a suboption. -/
def suboption_iac (matching : Bool) (n : Nat) : List (Bool × UInt8) → List Frame
  | [] => []
  | (_, c) :: cs =>
    if c = IAC then .subQuoted n :: suboption matching (n + 1) cs
    else if c = SE then .subEnd n :: data matching cs
    else if matching then suboption matching n cs
    else if c = DO ∨ c = DONT ∨ c = WILL ∨ c = WONT then option matching cs
    else if c = SB then suboption matching 0 cs
    else .command c :: data matching cs

end

end mudos.comm
