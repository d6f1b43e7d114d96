-- A connection to a port of the kind `PORT_ASCII`: `get_user_data` reads what
-- has come, and gives the lines of the text buffer to `process_input`. What
-- is read is never put into the text buffer, so that it holds no line.
import MudOS.Library.Lines
import MudOS.UserInput

open mudos.lines mudos.memory mudos.runs mudos.comm

namespace mudos.ascii_port

/-! ## The connection -/

abbrev newline : UInt8 := 10

structure interactive_t where
  text : Nat → UInt8
  text_end : Nat
  text_start : Nat
  CLOSING : Bool
  /-- The flag of the object of the connection. -/
  O_DESTRUCTED : Bool

/-- A connection with its socket, and with the lines that `process_input` was given. -/
structure connection where
  ip : Option interactive_t
  socket : List UInt8
  closed : Bool
  read : List UInt8
  passed : List (List UInt8)

/-- A new connection: `new_user_handler` clears the flags and the cursors. -/
def new_connection : connection where
  ip := some ⟨fun _ => 0, 0, 0, false, false⟩
  socket := []
  closed := false
  read := []
  passed := []

/-! ## `get_user_data` -/

/-- The space for a port that is not of the kind `PORT_TELNET`. -/
abbrev text_space : Nat := MAX_TEXT - 1

/-- The check for more space at the start of `get_user_data`, with the space that is
found. -/
def more_space (ip : interactive_t) : interactive_t × Nat :=
  if text_space < MAX_TEXT / 16 then
    let l := ip.text_end - ip.text_start
    let ip := { ip with
      text := store ip.text 0 (load ip.text ip.text_start (l + 1)), text_start := 0, text_end := l }
    if comm.text_space ip.text_end < MAX_TEXT / 16 then
      ({ ip with text_start := 0, text_end := 0 }, MAX_TEXT / 3)
    else (ip, comm.text_space ip.text_end)
  else (ip, text_space)

/-- What `process_input` may do to the connection, from the lines it was given. -/
structure behaviour where
  /-- The connection is removed. -/
  removes : List (List UInt8) → Bool
  /-- An error goes to the backend. -/
  throws : List (List UInt8) → Bool
  /-- The connection goes to an object that is destructed. -/
  destructed : List (List UInt8) → Bool

/-- The loop for `PORT_ASCII`, from `p` on, which takes a byte at least each time. A
connection that `process_input` removes is freed under the loop. -/
def ascii_loop (lpc : behaviour) :
    Nat → Nat → interactive_t → List (List UInt8) → Option interactive_t × List (List UInt8)
  | 0, _, ip, passed => (some ip, passed)
  | n + 1, p, ip, passed =>
    let left := ip.text_end - ip.text_start
    let nl := advance (· != newline) ip.text left p
    if nl < p + left then
      let str := load ip.text p (nl - p)
      let ip := { ip with text_start := nl + 1, text := store ip.text nl [0] }
      let passed' := if ip.O_DESTRUCTED then passed else passed ++ [str]
      if !ip.O_DESTRUCTED && lpc.removes passed' then (none, passed')
      else if !ip.O_DESTRUCTED && lpc.throws passed' then (some ip, passed')
      else
        let ip := if ip.O_DESTRUCTED then ip else { ip with O_DESTRUCTED := lpc.destructed passed' }
        if ip.text_start = ip.text_end then
          (some { ip with text_start := 0, text_end := 0 }, passed')
        else ascii_loop lpc n (nl + 1) ip passed'
    else (some ip, passed)

/-- `get_user_data` for a connection that can be read. -/
def get_user_data (lpc : behaviour) (c : connection) (ip : interactive_t) : connection :=
  let (ip, space) := more_space ip
  let buf := c.socket.take space
  if buf = [] then
    -- the end of the input, or `EWOULDBLOCK`
    if c.closed then { c with ip := none } else { c with ip := some ip }
  else
    let (ip, passed) := ascii_loop lpc (ip.text_end - ip.text_start) ip.text_start ip c.passed
    { c with ip, passed, socket := c.socket.drop space, read := c.read ++ buf }

/-! ## Runs -/

/-- Bytes arrive, the other side hangs up, the backend reads, and code of the driver or the
mudlib changes the flags or removes the connection. -/
inductive action
  | arrive (bytes : List UInt8)
  | hang_up
  | process_io
  | set_flags (CLOSING O_DESTRUCTED : Bool)
  | remove_interactive

def step (lpc : behaviour) (c : connection) : action → Option connection
  | .arrive bytes => some { c with socket := c.socket ++ bytes }
  | .hang_up => some { c with closed := true }
  | .process_io =>
    match c.ip with
    | none => none
    | some ip => if ip.CLOSING then some c else some (get_user_data lpc c ip)
  | .set_flags CLOSING O_DESTRUCTED =>
    some { c with ip := c.ip.map fun ip => { ip with CLOSING, O_DESTRUCTED } }
  | .remove_interactive => some { c with ip := none }

/-! ## Nothing is passed -/

/-- The lines that are shorter than the text buffer. -/
def short_lines (stream : List UInt8) : List (List UInt8) :=
  (lines newline stream).filter fun line => line.length < MAX_TEXT

/-- The lines that fit are passed, each once, in order and complete. -/
def Delivered (c : connection) : Prop :=
  (c.passed.filter fun line => line.length < MAX_TEXT) = short_lines c.read

/-- The text buffer is empty, and nothing has been passed. -/
structure Silent (c : connection) : Prop where
  empty : ∀ ip ∈ c.ip, ip.text_start = 0 ∧ ip.text_end = 0
  passed : c.passed = []

theorem more_space_eq (ip : interactive_t) : more_space ip = (ip, text_space) := by
  unfold more_space
  rw [if_neg (by decide)]

theorem ascii_loop_empty (lpc : behaviour) (n p : Nat) {ip : interactive_t}
    (hstart : ip.text_start = 0) (hend : ip.text_end = 0) (passed : List (List UInt8)) :
    ascii_loop lpc n p ip passed = (some ip, passed) := by
  cases n with
  | zero => rfl
  | succ n =>
    unfold ascii_loop
    simp [hstart, hend, advance]

theorem silent_get_user_data (lpc : behaviour) {c : connection} (h : Silent c)
    {ip : interactive_t} (hip : c.ip = some ip) : Silent (get_user_data lpc c ip) := by
  obtain ⟨hstart, hend⟩ := h.empty ip (by simp [hip])
  unfold get_user_data
  simp only [more_space_eq, ascii_loop_empty lpc _ _ hstart hend]
  split
  · split
    · exact ⟨by simp, h.passed⟩
    · exact ⟨by simp [hstart, hend], h.passed⟩
  · exact ⟨by simp [hstart, hend], h.passed⟩

theorem silent_step (lpc : behaviour) {c c' : connection} {a : action} (h : Silent c)
    (hs : step lpc c a = some c') : Silent c' := by
  cases a with
  | arrive bytes | hang_up =>
    cases hs
    exact ⟨h.empty, h.passed⟩
  | process_io =>
    simp only [step] at hs
    split at hs
    · cases hs
    · rename_i ip hip
      split at hs
      · cases hs
        exact h
      · cases hs
        exact silent_get_user_data lpc h hip
  | set_flags CLOSING O_DESTRUCTED =>
    cases hs
    refine ⟨fun ip hip => ?_, h.passed⟩
    obtain ⟨ip', hip', rfl⟩ := Option.map_eq_some_iff.mp hip
    exact h.empty ip' hip'
  | remove_interactive =>
    cases hs
    exact ⟨by simp, h.passed⟩

/-- What came is delivered exactly when no line has come that fits into the buffer. -/
theorem a_line_is_never_delivered (lpc : behaviour) {c : connection}
    (h : Reachable new_connection (step lpc) (fun _ _ => True) c) :
    Delivered c ↔ ∀ line ∈ lines newline c.read, MAX_TEXT ≤ line.length := by
  have hsilent : Silent c := by
    apply h.inv
    · exact ⟨by simp [new_connection], rfl⟩
    · exact fun _ _ _ hs _ hstep => silent_step lpc hs hstep
  unfold Delivered short_lines
  rw [hsilent.passed, List.filter_nil, eq_comm, List.filter_eq_nil_iff]
  simp

def idle : behaviour := ⟨fun _ => false, fun _ => false, fun _ => false⟩

/-- Half a line has come. -/
theorem half_a_line_is_kept : ∃ c, run (step idle) new_connection
    [.arrive [108, 111], .process_io] = some c ∧ c.read = [108, 111] ∧ Delivered c := by
  have hrun : (run (step idle) new_connection [.arrive [108, 111], .process_io]).map
      connection.read = some [108, 111] := by decide
  obtain ⟨c, hc, hread⟩ := Option.map_eq_some_iff.mp hrun
  have hreach := Reachable.of_any hc
  refine ⟨c, hc, hread, (a_line_is_never_delivered idle hreach).mpr ?_⟩
  rw [hread]
  decide

/-- The line `lo` has come. -/
theorem a_line_is_lost : ¬ ∀ lpc c,
    Reachable new_connection (step lpc) (fun _ _ => True) c → Delivered c := by
  intro hall
  have hrun : (run (step idle) new_connection [.arrive [108, 111, 10], .process_io]).map
      (fun c => (c.read, c.passed)) = some ([108, 111, 10], []) := by decide
  obtain ⟨c, hc, hvalues⟩ := Option.map_eq_some_iff.mp hrun
  obtain ⟨hread, hpassed⟩ := Prod.mk.inj hvalues
  have hreach := Reachable.of_any hc
  have hdelivered := hall idle c hreach
  unfold Delivered at hdelivered
  rw [hread, hpassed] at hdelivered
  exact absurd hdelivered (by decide)

end mudos.ascii_port
