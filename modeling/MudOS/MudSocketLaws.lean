-- Between two sockets in MUD mode no message is lost, repeated, changed or overtaken,
-- however the kernels cut the stream: what the receiver has been given is the messages
-- that have been applied and the start of the next one.
import MudOS.MudSockets
import MudOS.RoundTripLaws

open mudos.saved_values mudos.runs List

namespace mudos.mud_sockets

variable {v : svalue_t} {part : List UInt8} {rest done : List svalue_t} {t : connection_t}
variable {len : Nat} {l kept : List UInt8} {t' : connection_t}

/-! ## Sizes -/

theorem more_digits_eq (turns : Nat) {res : Nat} (h : res ≤ turns) :
    more_digits turns res + 1 = (Nat.toDigits 10 res).length := by
  induction turns generalizing res with
  | zero =>
    obtain rfl : res = 0 := Nat.le_zero.mp h
    rfl
  | succ turns ih =>
    rw [more_digits]
    split_ifs with hlarge
    · rw [Nat.toDigits_of_base_le (by decide) (by omega : 10 ≤ res), length_append,
        ← ih (by omega)]
      rfl
    · rw [Nat.toDigits_of_lt_base (by omega : res < 10)]
      rfl

theorem number_save_size_eq (n : Int) : number_save_size n = (save_number n).length + 1 := by
  have hdigits := fun res => more_digits_eq res (Nat.le_refl res)
  simp only [number_save_size, save_number, length_append, length_map, ← hdigits]
  split_ifs
  · simp only [length_singleton]
    omega
  · simp only [length_nil]
    omega

theorem string_save_size_eq (s : List UInt8) :
    string_save_size s = (34 :: s.flatMap save_char ++ [34]).length + 1 := by
  have hsum : (s.map fun c => if c = 92 ∨ c = 34 then 2 else 1).sum =
      (s.flatMap save_char).length := by
    induction s with
    | nil => rfl
    | cons c s ih =>
      rw [map_cons, sum_cons, flatMap_cons, length_append, ih]
      congr 1
      unfold save_char
      by_cases hslash : c = 92
      · subst hslash
        rfl
      by_cases hquote : c = 34
      · subst hquote
        rfl
      simp only [hslash, hquote, or_self, if_false]
      split_ifs <;> rfl
  rw [string_save_size, hsum]
  simp only [cons_append, length_cons, length_append, length_nil]
  omega

variable {c : config} {sprintf : literal → List UInt8}

def Sized (sprintf : literal → List UInt8) (v : svalue_t) : Prop :=
  ∀ depth len, svalue_save_size sprintf depth v = some len →
    len = (save_svalue sprintf v).length + 1

theorem items_save_size_eq {item : List svalue_t} (h : ∀ v ∈ item, Sized sprintf v) (depth : Nat)
    (hlen : items_save_size sprintf depth item = some len) :
    len = (save_items sprintf item).length := by
  induction item generalizing len with
  | nil =>
    cases hlen
    rfl
  | cons v item ih =>
    simp only [items_save_size, Option.bind_eq_some_iff, Option.map_eq_some_iff] at hlen
    obtain ⟨n, hn, n', hn', rfl⟩ := hlen
    rw [h v mem_cons_self depth n hn, ih (fun w hw => h w (mem_cons_of_mem v hw)) hn',
      save_items, length_append, length_append, length_singleton]

theorem nodes_save_size_eq {node : List (svalue_t × svalue_t)}
    (hkey : ∀ x ∈ node, Sized sprintf x.1) (hvalue : ∀ x ∈ node, Sized sprintf x.2) (depth : Nat)
    (hlen : nodes_save_size sprintf depth node = some len) :
    len = (save_nodes sprintf node).length := by
  induction node generalizing len with
  | nil =>
    cases hlen
    rfl
  | cons x node ih =>
    obtain ⟨key, value⟩ := x
    simp only [nodes_save_size, Option.bind_eq_some_iff, Option.map_eq_some_iff] at hlen
    obtain ⟨n, hn, n', hn', n'', hn'', rfl⟩ := hlen
    rw [hkey _ mem_cons_self depth n hn, hvalue _ mem_cons_self depth n' hn',
      ih (fun w hw => hkey w (mem_cons_of_mem _ hw))
        (fun w hw => hvalue w (mem_cons_of_mem _ hw)) hn'']
    simp only [save_nodes, length_append, length_singleton]
    omega

theorem sized_of_savable (h : Savable c sprintf v) : Sized sprintf v := by
  induction h with
  | number =>
    intro depth len hlen
    cases hlen
    exact number_save_size_eq _
  | real =>
    intro depth len hlen
    cases hlen
    rfl
  | string =>
    intro depth len hlen
    cases hlen
    exact string_save_size_eq _
  | array _ _ _ ih | class_ _ ih =>
    intro depth len hlen
    simp only [svalue_save_size, Option.ite_none_left_eq_some, Option.map_eq_some_iff] at hlen
    obtain ⟨-, n, hn, rfl⟩ := hlen
    rw [items_save_size_eq ih _ hn]
    simp only [save_svalue, length_append, length_cons, length_nil]
    omega
  | mapping _ _ _ _ ihkey ihvalue =>
    intro depth len hlen
    simp only [svalue_save_size, Option.ite_none_left_eq_some, Option.map_eq_some_iff] at hlen
    obtain ⟨-, n, hn, rfl⟩ := hlen
    rw [nodes_save_size_eq ihkey ihvalue _ hn]
    simp only [save_svalue, length_append, length_cons, length_nil]
    omega

/-! ## Integers in memory -/

theorem host_bytes {n : Nat} (h : n < 4294967296) : host (bytes n) = n := by
  simp only [host, bytes, foldr_cons, foldr_nil, Nat.toUInt8_eq, UInt8.toNat_ofNat']
  omega

theorem bytes_host (h : l.length = 4) : bytes (host l) = l := by
  obtain ⟨a, b, c, d, rfl⟩ : ∃ a b c d, l = [a, b, c, d] := length_eq_four.mp h
  have ha := a.toNat_lt
  have hb := b.toNat_lt
  have hc := c.toNat_lt
  have hd := d.toNat_lt
  simp only [host, bytes, foldr_cons, foldr_nil, Nat.mul_zero, Nat.add_zero,
    cons.injEq, and_true]
  refine ⟨?_, ?_, ?_, ?_⟩ <;> apply UInt8.toNat_inj.mp <;>
    simp only [Nat.toUInt8_eq, UInt8.toNat_ofNat'] <;> omega

theorem length_bytes (n : Nat) : (bytes n).length = 4 := rfl

theorem bytes_htonl (n : Nat) : bytes (htonl n) = (bytes n).reverse :=
  bytes_host (by rw [length_reverse, length_bytes])

theorem ntohl_host (h : l.length = 4) : ntohl (host l) = host l.reverse := by
  rw [ntohl, htonl, bytes_host h]

theorem bytes_store (r_len r_off : Nat) (got : List UInt8) (h : r_off + got.length ≤ 4) :
    (bytes (store r_len r_off got)).take (r_off + got.length) =
      (bytes r_len).take r_off ++ got := by
  have hlength : ((bytes r_len).take r_off ++ got ++
      (bytes r_len).drop (r_off + got.length)).length = 4 := by
    simp only [length_append, length_take, length_drop, length_bytes]
    omega
  have hstart : ((bytes r_len).take r_off ++ got).length = r_off + got.length := by
    simp only [length_append, length_take, length_bytes]
    omega
  rw [store, bytes_host hlength, take_append_of_le_length (by omega), ← hstart, take_length]

theorem host_bytes_store {r_len r_off : Nat} {got : List UInt8} (h : r_off + got.length ≤ 4) :
    host (bytes (store r_len r_off got)) = store r_len r_off got := by
  rw [store, bytes_host]
  simp only [length_append, length_take, length_drop, length_bytes]
  omega

/-! ## Messages as bytes -/

def header (sprintf : literal → List UInt8) (v : svalue_t) : List UInt8 :=
  bytes (htonl ((save_svalue sprintf v).length + 1))

def frame (sprintf : literal → List UInt8) (v : svalue_t) : List UInt8 :=
  header sprintf v ++ save_svalue sprintf v ++ [0]

theorem length_frame (v : svalue_t) : (frame sprintf v).length =
    (save_svalue sprintf v).length + 1 + 4 := by
  simp only [frame, header, length_append, length_bytes, length_singleton]
  omega

def pending (s : lpc_socket_t) : List UInt8 := (s.w_buf.map (·.drop s.w_off)).getD []

/-! ## The sender -/

structure Sending (s : lpc_socket_t) : Prop where
  state : s.state = .DATA_XFER
  blocked : ∀ buf, s.w_buf = some buf → s.S_BLOCKED = true
  length : ∀ buf, s.w_buf = some buf → s.w_off + s.w_len = buf.length

theorem sending_start (blocked : Bool) : Sending { new_socket with S_BLOCKED := blocked } :=
  ⟨rfl, nofun, nofun⟩

theorem Sending.pending_eq {s : lpc_socket_t} (h : Sending s) (hfree : s.S_BLOCKED = false) :
    pending s = [] := by
  have hnone : s.w_buf = none := by
    by_contra hsome
    obtain ⟨buf, hbuf⟩ := Option.ne_none_iff_exists'.mp hsome
    simp [h.blocked buf hbuf] at hfree
  rw [pending, hnone]
  rfl

theorem socket_write_taken {s : lpc_socket_t} (h : Sending s) (hfree : s.S_BLOCKED = false)
    {message : svalue_t} (hsize : svalue_save_size sprintf 0 message = some len)
    (hlen : len = (save_svalue sprintf message).length + 1) (cc : Nat) :
    socket_write sprintf s message (.taken cc) =
      if cc < (frame sprintf message).length then
        (.EECALLBACK, { s with
          S_BLOCKED := true
          w_buf := some (frame sprintf message)
          w_off := cc
          w_len := (frame sprintf message).length - cc }, (frame sprintf message).take cc)
      else (.EESUCCESS, s, frame sprintf message) := by
  have hframe : bytes (htonl len) ++ save_svalue sprintf message ++ [0] = frame sprintf message := by
    rw [hlen, frame, header]
  have hlength : len + 4 = (frame sprintf message).length := by rw [length_frame, hlen]
  simp only [socket_write, h.state, hfree, hsize, hframe, hlength, ne_eq, not_true, if_false,
    Bool.false_eq_true]
  by_cases hpart : cc < (frame sprintf message).length
  · rw [Nat.min_eq_left (by omega), if_pos hpart, if_pos hpart]
  · rw [Nat.min_eq_right (by omega), if_neg (Nat.lt_irrefl _), if_neg hpart, take_length]

theorem socket_write_spec {s : lpc_socket_t} (h : Sending s) {message : svalue_t} (send : send_t)
    (hsized : succeeds sprintf s message send = true → Sized sprintf message) :
    Sending (socket_write sprintf s message send).2.1 ∧
      (pending s ++ if succeeds sprintf s message send then frame sprintf message else []) =
        (socket_write sprintf s message send).2.2 ++
          pending (socket_write sprintf s message send).2.1 := by
  by_cases hblocked : s.S_BLOCKED = true
  · simp [socket_write, succeeds, h.state, hblocked, h]
  have hfree : s.S_BLOCKED = false := Bool.eq_false_iff.mpr hblocked
  have hpending := h.pending_eq hfree
  rcases hsize : svalue_save_size sprintf 0 message with _ | len
  · simp [socket_write, succeeds, h.state, hfree, hsize, h]
  rcases send with cc | _ | _
  · have hsucceeds : succeeds sprintf s message (.taken cc) = true := by
      simp only [succeeds, socket_write, h.state, hfree, hsize, ne_eq, not_true, if_false,
        Bool.false_eq_true]
      split_ifs <;> rfl
    rw [socket_write_taken h hfree hsize (hsized hsucceeds 0 len hsize), hsucceeds, if_pos rfl,
      hpending, nil_append]
    split_ifs with hpart
    · refine ⟨⟨h.state, fun _ _ => rfl, fun buf hbuf => ?_⟩, (take_append_drop cc _).symm⟩
      cases hbuf
      exact Nat.add_sub_of_le (Nat.le_of_lt hpart)
    · exact ⟨h, by rw [hpending, append_nil]⟩
  · simp [socket_write, succeeds, h.state, hfree, hsize, h]
  · simp [socket_write, succeeds, h.state, hfree, hsize, h]

theorem unblock_eq {s : lpc_socket_t} (h : s.state = .DATA_XFER) :
    unblock s = { s with S_BLOCKED := false } := by simp [unblock, h]

theorem write_select_spec {s : lpc_socket_t} (h : Sending s) (send : send_t) :
    Sending (socket_write_select_handler s send).1 ∧
      pending s = (socket_write_select_handler s send).2 ++
        pending (socket_write_select_handler s send).1 := by
  unfold socket_write_select_handler
  by_cases hblocked : s.S_BLOCKED = true
  · rw [if_neg (not_not.mpr hblocked)]
    rcases hbuf : s.w_buf with _ | buf
    · rw [unblock_eq h.state]
      exact ⟨⟨h.state, by simp [hbuf], by simp [hbuf]⟩, by simp [pending, hbuf]⟩
    have hlength := h.length buf hbuf
    rcases send with cc | _ | _
    · have hout : (buf.drop s.w_off).take (min cc s.w_len) ++
          buf.drop (s.w_off + min cc s.w_len) = buf.drop s.w_off := by
        rw [← drop_drop, take_append_drop]
      have hpending : pending s = buf.drop s.w_off := by
        rw [pending, hbuf]
        rfl
      rw [hpending]
      simp only
      split_ifs with hmore
      · refine ⟨⟨h.state, fun _ _ => hblocked, fun buf' hbuf' => ?_⟩, ?_⟩
        · cases hbuf'
          simp only
          omega
        · simp [pending, hout]
      · rw [unblock_eq (by exact h.state)]
        refine ⟨⟨h.state, nofun, nofun⟩, ?_⟩
        have hnil : buf.drop (s.w_off + min cc s.w_len) = [] := drop_eq_nil_of_le (by omega)
        rw [hnil] at hout
        exact hout.symm
    · exact ⟨h, rfl⟩
    · rw [if_neg (by simp [h.state])]
      exact ⟨h, rfl⟩
  · rw [if_pos hblocked]
    exact ⟨h, rfl⟩

theorem take_ne_nil {n : Nat} (hl : l ≠ []) (hn : 0 < n) : l.take n ≠ [] := by
  rw [ne_eq, take_eq_nil_iff, not_or]
  exact ⟨Nat.ne_of_gt hn, hl⟩

theorem write_select_sends {s : lpc_socket_t} (h : Sending s) (hpending : pending s ≠ []) {cc : Nat}
    (hcc : 0 < cc) : (socket_write_select_handler s (.taken cc)).2 ≠ [] := by
  rcases hbuf : s.w_buf with _ | buf
  · rw [pending, hbuf] at hpending
    exact absurd rfl hpending
  have hdrop : buf.drop s.w_off ≠ [] := by
    rwa [pending, hbuf] at hpending
  have hlength := h.length buf hbuf
  have hpos := length_pos_iff.mpr hdrop
  rw [length_drop] at hpos
  unfold socket_write_select_handler
  rw [if_neg (not_not.mpr (h.blocked buf hbuf)), hbuf]
  simp only
  split_ifs
  · exact take_ne_nil hdrop (by omega)
  · exact take_ne_nil hdrop (by omega)

/-! ## The receiver -/

/-- The receiver has the first bytes of the first message that it has not applied. -/
inductive Receiving (sprintf : literal → List UInt8) (s : lpc_socket_t) :
    List UInt8 → List svalue_t → Prop
  | header {rest : List svalue_t} (hstate : s.S_HEADER = true) (hoff : s.r_off < 4) :
      Receiving sprintf s ((bytes s.r_len).take s.r_off) rest
  | text {v : svalue_t} {rest : List svalue_t} {got : List UInt8} (hstate : s.S_HEADER = false)
      (hlen : s.r_len = (save_svalue sprintf v).length + 1) (hbuf : s.r_buf = some got)
      (hoff : s.r_off = got.length) (hmore : got.length < s.r_len) :
      Receiving sprintf s (header sprintf v ++ got) (v :: rest)

structure Message (c : config) (sprintf : literal → List UInt8) (MAX_BYTE_TRANSFER : Fin 2147483648)
    (v : svalue_t) : Prop where
  savable : Savable c sprintf v
  size : (save_svalue sprintf v).length + 1 ≤ MAX_BYTE_TRANSFER.val

structure Awaits (c : config) (sprintf : literal → List UInt8) (MAX_BYTE_TRANSFER : Fin 2147483648)
    (p : reading_t) (kept part : List UInt8) (rest : List svalue_t) : Prop where
  state : p.s.state = .DATA_XFER
  receiving : Receiving sprintf p.s part rest
  fresh : Fresh p.d
  message : ∀ v ∈ rest, Message c sprintf MAX_BYTE_TRANSFER v
  stream : part ++ p.wire ++ kept = rest.flatMap (frame sprintf)

/-- The receiver has taken `got`: that was not the end of a message, or it was and the value has
been applied. -/
inductive Passed (sprintf : literal → List UInt8) (part : List UInt8) (rest : List svalue_t)
    (got : List UInt8) (value : Option svalue_t) : List UInt8 → List svalue_t → Prop
  | waits (hvalue : value = none) : Passed sprintf part rest got value (part ++ got) rest
  | applies {v v' : svalue_t} {rest' : List svalue_t} (hvalue : value = some v') (hsame : Same v v')
      (hrest : rest = v :: rest') (hframe : part ++ got = frame sprintf v) :
      Passed sprintf part rest got value [] rest'

theorem Passed.before {got got' part' : List UInt8} {rest' : List svalue_t}
    {value : Option svalue_t} (h : Passed sprintf (part ++ got) rest got' value part' rest') :
    Passed sprintf part rest (got ++ got') value part' rest' := by
  cases h with
  | waits hvalue =>
    rw [append_assoc]
    exact .waits hvalue
  | applies hvalue hsame hrest hframe =>
    rw [append_assoc] at hframe
    exact .applies hvalue hsame hrest hframe

variable {MAX_BYTE_TRANSFER : Fin 2147483648}

theorem take_length_take (n : Nat) (l : List UInt8) : l = l.take n ++ l.drop (l.take n).length := by
  rw [length_take]
  rcases Nat.le_total n l.length with hle | hle
  · rw [Nat.min_eq_left hle, take_append_drop]
  · rw [Nat.min_eq_right hle, drop_length, append_nil, take_of_length_le hle]

theorem read_svalue_spec (p : reading_t) (hstate : p.s.state = .DATA_XFER)
    (hbuf : p.s.r_buf = some (save_svalue sprintf v ++ [0])) (hfresh : Fresh p.d)
    (hmessage : ∀ w ∈ v :: rest, Message c sprintf MAX_BYTE_TRANSFER w)
    (hstream : p.wire ++ kept = rest.flatMap (frame sprintf)) :
    ∃ v', (read_svalue c p).value = some v' ∧ Same v v' ∧ (read_svalue c p).wire = p.wire ∧
      Awaits c sprintf MAX_BYTE_TRANSFER (read_svalue c p) kept [] rest := by
  obtain ⟨v', d', hrestore, hsame, hfresh'⟩ := restore_svalue_saved
    (hmessage v mem_cons_self).savable const0 hfresh [0]
  have hread : read_svalue c p = { p with
      s := { p.s with
        S_HEADER := true
        r_buf := none
        r_off := 0
        r_len := 0 }
      d := d'
      value := some v' } := by
    rw [read_svalue, hbuf, Option.getD_some, append_assoc, singleton_append, hrestore]
    rfl
  rw [hread]
  exact ⟨v', rfl, hsame, rfl, hstate, .header rfl (Nat.succ_pos 3), hfresh',
    fun w hw => hmessage w (mem_cons_of_mem v hw), hstream⟩

theorem read_text_spec {p : reading_t} (h : Awaits c sprintf MAX_BYTE_TRANSFER p kept part rest)
    (htext : p.s.S_HEADER = false) (hvalue : p.value = none) (cc : Nat) :
    ∃ got part' rest', p.wire = got ++ (read_text c p cc).wire ∧
      (p.wire ≠ [] → 0 < cc → got ≠ []) ∧
      Awaits c sprintf MAX_BYTE_TRANSFER (read_text c p cc) kept part' rest' ∧
      Passed sprintf part rest got (read_text c p cc).value part' rest' := by
  have hreceiving := h.receiving
  have hstream := h.stream
  rcases hreceiving with ⟨hstate, -⟩ | @⟨v, rest, text, -, hlen, hbuf, hoff, hmore⟩
  · simp [htext] at hstate
  have hwire := take_length_take (min cc (p.s.r_len - p.s.r_off)) p.wire
  have hgot : (p.wire.take (min cc (p.s.r_len - p.s.r_off))).length ≤ p.s.r_len - p.s.r_off := by
    rw [length_take]
    omega
  have hsome : p.wire ≠ [] → 0 < cc → p.wire.take (min cc (p.s.r_len - p.s.r_off)) ≠ [] :=
    fun hne hcc => take_ne_nil hne (by omega)
  unfold read_text
  rw [if_pos (by omega)]
  simp only
  generalize p.wire.take (min cc (p.s.r_len - p.s.r_off)) = got at *
  have hstream' : header sprintf v ++ (text ++ got) ++ p.wire.drop got.length ++ kept =
      (v :: rest).flatMap (frame sprintf) := by
    rw [← hstream]
    conv_rhs => rw [hwire]
    simp
  by_cases hend : text.length + got.length = p.s.r_len
  · have hne : got ≠ [] := by
      rintro rfl
      simp only [length_nil] at hend
      omega
    rw [if_neg hne, if_neg (by rw [hoff, hend]; exact not_not.mpr rfl)]
    rw [flatMap_cons, frame] at hstream'
    simp only [append_assoc, append_cancel_left_eq] at hstream'
    have hbody : (text ++ got) ++ (p.wire.drop got.length ++ kept) =
        (save_svalue sprintf v ++ [0]) ++ rest.flatMap (frame sprintf) := by
      simpa only [append_assoc] using hstream'
    have hsplit := append_inj hbody
      (by simp only [length_append, length_singleton]; omega)
    obtain ⟨v', hv', hsame, hwire', hawaits⟩ := read_svalue_spec { p with
        s := { p.s with
          r_buf := p.s.r_buf.map (· ++ got)
          r_off := p.s.r_off + got.length }
        wire := p.wire.drop got.length } h.state (by rw [hbuf, ← hsplit.1]; rfl) h.fresh h.message
      hsplit.2
    refine ⟨got, [], rest, ?_, hsome, hawaits, .applies hv' hsame rfl ?_⟩
    · rwa [hwire']
    · rw [append_assoc, hsplit.1, frame, append_assoc]
  · have hawaits : Awaits c sprintf MAX_BYTE_TRANSFER { p with
        s := { p.s with
          r_buf := p.s.r_buf.map (· ++ got)
          r_off := p.s.r_off + got.length }
        wire := p.wire.drop got.length } kept (header sprintf v ++ (text ++ got)) (v :: rest) := by
      refine ⟨h.state, .text htext hlen (by rw [hbuf]; rfl) ?_ ?_, h.fresh, h.message, hstream'⟩
      · rw [hoff, length_append]
      · simp only [length_append]
        omega
    have hoff' : p.s.r_off + got.length ≠ p.s.r_len := by rwa [hoff]
    rw [if_pos hoff', ite_self]
    refine ⟨got, _, _, hwire, hsome, hawaits, ?_⟩
    rw [← append_assoc]
    exact .waits hvalue

theorem host_header (h : Message c sprintf MAX_BYTE_TRANSFER v) :
    ntohl (host (header sprintf v)) = (save_svalue sprintf v).length + 1 := by
  have hsize := h.size
  rw [ntohl_host rfl, header, bytes_htonl, reverse_reverse, host_bytes (by omega)]

theorem read_select_spec {p : reading_t} (h : Awaits c sprintf MAX_BYTE_TRANSFER p kept part rest)
    (hvalue : p.value = none) (cc cc' : Nat) :
    ∃ got part' rest',
      p.wire = got ++ (socket_read_select_handler c MAX_BYTE_TRANSFER p cc cc').wire ∧
      (p.wire ≠ [] → 0 < cc → 0 < cc' → got ≠ []) ∧
      Awaits c sprintf MAX_BYTE_TRANSFER (socket_read_select_handler c MAX_BYTE_TRANSFER p cc cc')
        kept part' rest' ∧
      Passed sprintf part rest got (socket_read_select_handler c MAX_BYTE_TRANSFER p cc cc').value
        part' rest' := by
  unfold socket_read_select_handler
  rw [if_neg (not_not.mpr h.state)]
  by_cases hheader : p.s.S_HEADER = true
  · have hreceiving := h.receiving
    have hstream := h.stream
    rcases hreceiving with ⟨-, hoff⟩ | ⟨hstate⟩
    swap
    · simp [hheader] at hstate
    rw [if_pos hheader]
    have hwire := take_length_take (min cc (4 - p.s.r_off)) p.wire
    have hgot : (p.wire.take (min cc (4 - p.s.r_off))).length ≤ 4 - p.s.r_off := by
      rw [length_take]
      omega
    have hsome : p.wire ≠ [] → 0 < cc → p.wire.take (min cc (4 - p.s.r_off)) ≠ [] :=
      fun hne hcc => take_ne_nil hne (by omega)
    simp only
    generalize p.wire.take (min cc (4 - p.s.r_off)) = got at *
    have hbytes := bytes_store p.s.r_len p.s.r_off got (by omega)
    have hstream' : (bytes p.s.r_len).take p.s.r_off ++ got ++ p.wire.drop got.length ++ kept =
        rest.flatMap (frame sprintf) := by
      rw [← hstream]
      conv_rhs => rw [hwire]
      simp
    by_cases hend : p.s.r_off + got.length = 4
    · have hne : got ≠ [] := by
        rintro rfl
        simp only [length_nil] at hend
        omega
      rw [hend, take_of_length_le (by rw [length_bytes])] at hbytes
      have hlength : ((bytes p.s.r_len).take p.s.r_off ++ got).length = 4 := by
        rw [← hbytes, length_bytes]
      rcases rest with _ | ⟨v, rest⟩
      · have hnil := congrArg length hstream'
        simp only [length_append, flatMap_nil, length_nil] at hnil hlength
        omega
      rw [flatMap_cons, frame] at hstream'
      have hframe : ((bytes p.s.r_len).take p.s.r_off ++ got) ++ (p.wire.drop got.length ++ kept) =
          header sprintf v ++ (save_svalue sprintf v ++ [0] ++ rest.flatMap (frame sprintf)) := by
        simpa only [append_assoc] using hstream'
      obtain ⟨hpart, hrest⟩ := append_inj hframe (by rw [hlength]; rfl)
      have hmessage := h.message v mem_cons_self
      have hlen : ntohl (store p.s.r_len p.s.r_off got) = (save_svalue sprintf v).length + 1 := by
        rw [← host_header hmessage, ← hpart, ← hbytes, host_bytes_store (by omega)]
      have hint : int32 ((save_svalue sprintf v).length + 1 : Nat) =
          ((save_svalue sprintf v).length + 1 : Nat) := by
        have hsize := hmessage.size
        exact int32_eq (by omega) (by omega)
      have hsize := hmessage.size
      rw [if_neg hne, if_neg (not_not.mpr hend), hlen, hint, if_neg (by omega)]
      have hawaits : Awaits c sprintf MAX_BYTE_TRANSFER { p with
          s := { p.s with
            S_HEADER := false
            r_buf := some []
            r_off := 0
            r_len := (save_svalue sprintf v).length + 1 }
          wire := p.wire.drop got.length } kept (header sprintf v ++ []) (v :: rest) := by
        refine ⟨h.state, .text rfl rfl rfl rfl (Nat.succ_pos _), h.fresh, h.message, ?_⟩
        rw [append_nil, append_assoc, hrest, flatMap_cons, frame, append_assoc,
          append_assoc, append_assoc]
      obtain ⟨got', part', rest', hwire', -, hawaits', hpassed⟩ :=
        read_text_spec hawaits rfl hvalue cc'
      rw [append_nil, ← hpart] at hpassed
      refine ⟨got ++ got', part', rest', ?_, fun _ _ _ => ?_, hawaits', hpassed.before⟩
      · rw [append_assoc, ← hwire']
        exact hwire
      · exact append_ne_nil_of_left_ne_nil hne got'
    · have hawaits : Awaits c sprintf MAX_BYTE_TRANSFER { p with
          s := { p.s with
            r_len := store p.s.r_len p.s.r_off got
            r_off := p.s.r_off + got.length }
          wire := p.wire.drop got.length } kept ((bytes p.s.r_len).take p.s.r_off ++ got) rest := by
        refine ⟨h.state, ?_, h.fresh, h.message, hstream'⟩
        rw [← hbytes]
        exact .header hheader (show p.s.r_off + got.length < 4 by omega)
      rw [if_pos hend, ite_self]
      exact ⟨got, _, _, hwire, fun hne hcc _ => hsome hne hcc, hawaits, .waits hvalue⟩
  · rw [if_neg hheader]
    obtain ⟨got, part', rest', hwire, hsome, hawaits, hpassed⟩ :=
      read_text_spec h (Bool.eq_false_iff.mpr hheader) hvalue cc'
    exact ⟨got, part', rest', hwire, fun hne _ hcc => hsome hne hcc, hawaits, hpassed⟩

/-! ## The connection -/

/-- A call that succeeds has a message that saves as itself, of a size that the receiver takes. -/
def Sendable (c : config) (sprintf : literal → List UInt8) (MAX_BYTE_TRANSFER : Fin 2147483648)
    (t : connection_t) : event_t → Prop
  | .socket_write message send =>
    succeeds sprintf t.sender message send = true → Message c sprintf MAX_BYTE_TRANSFER message
  | .write_select _ => True
  | .read_select _ _ => True

/-- The messages of `done` have been applied, and those of `rest` have not. -/
structure Delivering (c : config) (sprintf : literal → List UInt8)
    (MAX_BYTE_TRANSFER : Fin 2147483648) (t : connection_t) (done rest : List svalue_t)
    (part : List UInt8) : Prop where
  sending : Sending t.sender
  awaits : Awaits c sprintf MAX_BYTE_TRANSFER ⟨t.receiver, t.restoring, t.wire, none⟩
    (pending t.sender) part rest
  sent : t.sent = done ++ rest
  applied : List.Forall₂ Same done t.applied
  given : t.given = done.flatMap (frame sprintf) ++ part

theorem delivering_start (blocked : Bool) :
    Delivering c sprintf MAX_BYTE_TRANSFER (start blocked) [] [] [] :=
  ⟨sending_start blocked, ⟨rfl, .header rfl (Nat.succ_pos 3), fresh_start, nofun, rfl⟩, rfl, .nil, rfl⟩

theorem delivering_socket_write (h : Delivering c sprintf MAX_BYTE_TRANSFER t done rest part)
    {message : svalue_t} {send : send_t}
    (hok : Sendable c sprintf MAX_BYTE_TRANSFER t (.socket_write message send))
    (ht : step sprintf c MAX_BYTE_TRANSFER t (.socket_write message send) = some t') :
    ∃ rest', Delivering c sprintf MAX_BYTE_TRANSFER t' done rest' part := by
  simp only [step, Option.some.injEq] at ht
  subst ht
  obtain ⟨hsending, hout⟩ := socket_write_spec h.sending send
    fun hsucceeds => sized_of_savable (hok hsucceeds).savable
  have hstream := h.awaits.stream
  have hok : succeeds sprintf t.sender message send = true →
    Message c sprintf MAX_BYTE_TRANSFER message := hok
  rcases hsucceeds : succeeds sprintf t.sender message send with _ | _
  · rw [hsucceeds, if_neg Bool.false_ne_true, append_nil] at hout
    refine ⟨rest, hsending, ⟨h.awaits.state, h.awaits.receiving, h.awaits.fresh, h.awaits.message, ?_⟩,
      by simpa using h.sent, h.applied, h.given⟩
    rw [← hstream, hout]
    simp
  · rw [hsucceeds, if_pos rfl] at hout
    refine ⟨rest ++ [message], hsending, ⟨h.awaits.state, ?_, h.awaits.fresh, ?_, ?_⟩, ?_, h.applied,
      h.given⟩
    · have hreceiving := h.awaits.receiving
      cases hreceiving with
      | header hstate hoff => exact .header hstate hoff
      | text hstate hlen hbuf hoff hmore => exact .text hstate hlen hbuf hoff hmore
    · intro v hv
      rcases mem_append.mp hv with hv | hv
      · exact h.awaits.message v hv
      · exact mem_singleton.mp hv ▸ hok hsucceeds
    · rw [flatMap_append, ← hstream, flatMap_singleton]
      simp [hout]
    · simp [h.sent]

theorem delivering_write_select (h : Delivering c sprintf MAX_BYTE_TRANSFER t done rest part)
    {send : send_t} (ht : step sprintf c MAX_BYTE_TRANSFER t (.write_select send) = some t') :
    Delivering c sprintf MAX_BYTE_TRANSFER t' done rest part := by
  simp only [step, Option.some.injEq] at ht
  subst ht
  obtain ⟨hsending, hout⟩ := write_select_spec h.sending send
  refine ⟨hsending, ⟨h.awaits.state, h.awaits.receiving, h.awaits.fresh, h.awaits.message, ?_⟩, h.sent,
    h.applied, h.given⟩
  rw [← h.awaits.stream, hout]
  simp

theorem delivering_read_select (h : Delivering c sprintf MAX_BYTE_TRANSFER t done rest part)
    {cc cc' : Nat} (ht : step sprintf c MAX_BYTE_TRANSFER t (.read_select cc cc') = some t') :
    ∃ done' rest' part', Delivering c sprintf MAX_BYTE_TRANSFER t' done' rest' part' := by
  simp only [step, Option.some.injEq] at ht
  subst ht
  obtain ⟨got, part', rest', hwire, -, hawaits, hpassed⟩ := read_select_spec h.awaits rfl cc cc'
  have hgot : t.wire.take (t.wire.length - (socket_read_select_handler c MAX_BYTE_TRANSFER
      ⟨t.receiver, t.restoring, t.wire, none⟩ cc cc').wire.length) = got := by
    simp only at hwire
    generalize (socket_read_select_handler c MAX_BYTE_TRANSFER
      ⟨t.receiver, t.restoring, t.wire, none⟩ cc cc').wire = wire at *
    rw [hwire, length_append, Nat.add_sub_cancel, take_left]
  have hwaits : ∀ value, Awaits c sprintf MAX_BYTE_TRANSFER
      { socket_read_select_handler c MAX_BYTE_TRANSFER ⟨t.receiver, t.restoring, t.wire, none⟩ cc cc'
        with value } (pending t.sender) part' rest' := fun _ =>
    ⟨hawaits.state, hawaits.receiving, hawaits.fresh, hawaits.message, hawaits.stream⟩
  cases hpassed with
  | waits hvalue =>
    refine ⟨done, rest, part ++ got, h.sending, hwaits none, h.sent, ?_, ?_⟩
    · simpa only [hvalue, Option.toList_none, append_nil] using h.applied
    · simp [hgot, h.given]
  | @applies v v' _ hvalue hsame hrest hframe =>
    refine ⟨done ++ [v], rest', [], h.sending, hwaits none, ?_, ?_, ?_⟩
    · simp [h.sent, hrest]
    · simp only [hvalue, Option.toList_some]
      exact rel_append h.applied (.cons hsame .nil)
    · simp [hgot, h.given, hframe]

theorem delivering_of_reachable {blocked : Bool}
    (h : Reachable (start blocked) (step sprintf c MAX_BYTE_TRANSFER)
      (Sendable c sprintf MAX_BYTE_TRANSFER) t) :
    ∃ done rest part, Delivering c sprintf MAX_BYTE_TRANSFER t done rest part := by
  refine h.inv (I := fun t => ∃ done rest part, Delivering c sprintf MAX_BYTE_TRANSFER t done rest part)
    ⟨[], [], [], delivering_start blocked⟩ ?_
  rintro t e t' ⟨done, rest, part, h⟩ hok ht
  cases e with
  | socket_write message send =>
    obtain ⟨rest', h'⟩ := delivering_socket_write h hok ht
    exact ⟨done, rest', part, h'⟩
  | write_select send => exact ⟨done, rest, part, delivering_write_select h ht⟩
  | read_select cc cc' => exact delivering_read_select h ht

/-- Each message has been applied once, in order and as it was sent, as soon as its bytes had come,
and nothing is lost on the way. -/
structure Delivered (c : config) (sprintf : literal → List UInt8)
    (MAX_BYTE_TRANSFER : Fin 2147483648) (t : connection_t) : Prop where
  applied : ∃ done rest part, t.sent = done ++ rest ∧ List.Forall₂ Same done t.applied ∧
    t.given = done.flatMap (frame sprintf) ++ part ∧ (rest = [] → part = []) ∧
    ∀ v ∈ rest.head?, part.length < (frame sprintf v).length
  bytes : t.given ++ t.wire ++ pending t.sender = t.sent.flatMap (frame sprintf)
  all_applied : t.wire = [] → pending t.sender = [] → List.Forall₂ Same t.sent t.applied
  reads : ∀ cc cc', t.wire ≠ [] → 0 < cc → 0 < cc' →
    ∃ t', step sprintf c MAX_BYTE_TRANSFER t (.read_select cc cc') = some t' ∧
      t'.wire.length < t.wire.length
  writes : ∀ cc, pending t.sender ≠ [] → 0 < cc →
    ∃ t', step sprintf c MAX_BYTE_TRANSFER t (.write_select (.taken cc)) = some t' ∧
      (pending t'.sender).length < (pending t.sender).length

theorem short_of_receiving {s : lpc_socket_t} (h : Receiving sprintf s part (v :: rest)) :
    part.length < (frame sprintf v).length := by
  rw [length_frame]
  cases h with
  | header _ hoff =>
    rw [length_take, length_bytes]
    omega
  | text _ hlen _ _ hmore =>
    rw [length_append, header, length_bytes]
    omega

theorem Delivering.part_eq_nil (h : Delivering c sprintf MAX_BYTE_TRANSFER t done [] part) :
    part = [] := by
  have hstream := h.awaits.stream
  simp only [flatMap_nil, append_eq_nil_iff] at hstream
  exact hstream.1.1

theorem Delivering.delivered (h : Delivering c sprintf MAX_BYTE_TRANSFER t done rest part) :
    Delivered c sprintf MAX_BYTE_TRANSFER t := by
  have hstream := h.awaits.stream
  refine ⟨⟨done, rest, part, h.sent, h.applied, h.given, ?_, ?_⟩, ?_, ?_, ?_, ?_⟩
  · rintro rfl
    exact h.part_eq_nil
  · intro v hv
    cases rest with
    | nil => cases hv
    | cons w rest =>
      cases hv
      exact short_of_receiving h.awaits.receiving
  · rw [h.given, h.sent, flatMap_append, ← hstream]
    simp
  · intro hwire hpending
    rcases rest with _ | ⟨v, rest⟩
    · simpa [h.sent] using h.applied
    · have hshort := short_of_receiving h.awaits.receiving
      have hlength := congrArg length hstream
      simp only [hwire, hpending, append_nil, flatMap_cons, length_append] at hlength
      omega
  · intro cc cc' hne hcc hcc'
    obtain ⟨got, part', rest', hwire, hgot, -⟩ := read_select_spec h.awaits rfl cc cc'
    refine ⟨_, rfl, ?_⟩
    have hpos := length_pos_iff.mpr (hgot hne hcc hcc')
    have hlength := congrArg length hwire
    rw [length_append] at hlength
    simp only at hlength ⊢
    omega
  · intro cc hne hcc
    have hout := congrArg length (write_select_spec h.sending (.taken cc)).2
    have hpos := length_pos_iff.mpr (write_select_sends h.sending hne hcc)
    refine ⟨{ t with
      sender := (socket_write_select_handler t.sender (.taken cc)).1
      wire := t.wire ++ (socket_write_select_handler t.sender (.taken cc)).2 }, rfl, ?_⟩
    rw [length_append] at hout
    simp only
    omega

/-! ## Every run -/

/-- However the kernels cut the stream, the read callback is applied once to each message. -/
theorem every_message_is_applied_once_and_in_order (c : config) (sprintf : literal → List UInt8)
    (MAX_BYTE_TRANSFER : Fin 2147483648) (blocked : Bool) {t : connection_t}
    (h : Reachable (start blocked) (step sprintf c MAX_BYTE_TRANSFER)
      (Sendable c sprintf MAX_BYTE_TRANSFER) t) :
    Delivered c sprintf MAX_BYTE_TRANSFER t :=
  let ⟨_, _, _, h⟩ := delivering_of_reachable h
  h.delivered


/-- A mapping and a string, of which the first is sent in three parts. -/
theorem two_messages_are_applied :
    ∃ t, Delivered ⟨100, 100, fun _ => 0, fun _ => 7⟩ (fun _ => []) 10000 t ∧ t.sent.length = 2 ∧
      t.applied.map (save_svalue fun _ => []) =
        [[40, 91, 55, 58, 45, 49, 44, 93, 41], [34, 97, 13, 92, 34, 34]] := by
  have hmapping : Message ⟨100, 100, fun _ => 0, fun _ => 7⟩ (fun _ => []) 10000
      (.T_MAPPING 5 [(.T_NUMBER 7, .T_NUMBER (-1))]) := by
    refine ⟨.mapping ?_ ?_ (by decide) (by decide), by decide +kernel⟩
    · intro x hx
      cases mem_singleton.mp hx
      exact .number (by decide) (by decide)
    · intro x hx
      cases mem_singleton.mp hx
      exact .number (by decide) (by decide)
  have hstring : Message ⟨100, 100, fun _ => 0, fun _ => 7⟩ (fun _ => []) 10000
      (.T_STRING 1 [97, 10, 34]) := ⟨.string (by decide) (by decide), by decide +kernel⟩
  let events : List event_t := [.socket_write (.T_MAPPING 5 [(.T_NUMBER 7, .T_NUMBER (-1))]) (.taken 6),
    .read_select 3 9, .read_select 1 1, .write_select (.taken 2), .write_select (.taken 100),
    .read_select 1 2, .socket_write (.T_STRING 1 [97, 10, 34]) (.taken 100), .read_select 1 100,
    .read_select 4 2, .read_select 4 100]
  have hrun : ((run (step (fun _ => []) ⟨100, 100, fun _ => 0, fun _ => 7⟩ 10000) (start false)
      events).map fun t => (t.sent.length, t.applied.map (save_svalue fun _ => []))) =
      some (2, [[40, 91, 55, 58, 45, 49, 44, 93, 41], [34, 97, 13, 92, 34, 34]]) := by decide +kernel
  obtain ⟨t, ht, heq⟩ := Option.map_eq_some_iff.mp hrun
  simp only [Prod.mk.injEq] at heq
  have hok : Along (step (fun _ => []) ⟨100, 100, fun _ => 0, fun _ => 7⟩ 10000)
      (Sendable ⟨100, 100, fun _ => 0, fun _ => 7⟩ (fun _ => []) 10000) (start false) events :=
    ⟨fun _ => hmapping, fun _ _ => ⟨trivial, fun _ _ => ⟨trivial, fun _ _ => ⟨trivial, fun _ _ =>
      ⟨trivial, fun _ _ => ⟨trivial, fun _ _ => ⟨fun _ => hstring, fun _ _ => ⟨trivial, fun _ _ =>
        ⟨trivial, fun _ _ => ⟨trivial, fun _ _ => trivial⟩⟩⟩⟩⟩⟩⟩⟩⟩⟩
  exact ⟨t, every_message_is_applied_once_and_in_order _ _ _ false (.of_run .start hok ht), heq.1, heq.2⟩

end mudos.mud_sockets
