-- The laws of the input buffers: what `get_user_command` returns for a user
-- in line mode are the lines that the user typed, in order, none lost and
-- none twice.
import MudOS.TelnetLaws
import MudOS.UserInput

open mudos.memory mudos.runs mudos.transducers List Option

namespace mudos.comm

variable {line q u unread : List UInt8} {pending todo : List (List UInt8)} {ip : interactive_t}
  {s : users_t} {i : Nat}

variable {as : List UInt8} {given : List (List UInt8)}

/-! ## What is in the buffer -/

def interactive_t.window (ip : interactive_t) : List UInt8 :=
  load ip.text ip.text_start (ip.text_end - ip.text_start)

def kept (line : List UInt8) : List UInt8 := line.filter (· != 13)

def stored (line : List UInt8) : List UInt8 := kept line ++ [32, 8, 0]

theorem advance_eq (q : UInt8 → Bool) (text : Nat → UInt8) (n p : Nat) :
    advance q text n p = p + ((load text p n).takeWhile q).length := by
  induction n generalizing p with
  | zero => rfl
  | succ n ih =>
    rw [load_succ, advance, takeWhile_cons]
    split
    · rw [ih, length_cons]
      omega
    · rfl

theorem plain_kept (h : ∀ c ∈ line, Plain c) : ∀ c ∈ kept line, c ≠ 0 :=
  fun c hc => (h c (mem_filter.1 hc).1).1

theorem takeWhile_nonzero {bs : List UInt8} (h : ∀ c ∈ as, c ≠ 0) :
    (as ++ 0 :: bs).takeWhile (· != 0) = as := by
  rw [takeWhile_append_of_pos fun c hc => by simpa using h c hc]
  simp

theorem takeWhile_all (h : ∀ c ∈ as, c ≠ 0) : as.takeWhile (· != 0) = as := by
  have hself : (as ++ []).takeWhile (· != 0) = as ++ [].takeWhile (· != 0) :=
    takeWhile_append_of_pos fun c hc => by simpa using h c hc
  simpa using hself

theorem takeWhile_zero (h : ∀ c, as.head? = some c → c ≠ 0) : as.takeWhile (· == 0) = [] := by
  cases as with
  | nil => rfl
  | cons c as => simp [h c rfl]

theorem stored_cons (line : List UInt8) (pending : List (List UInt8)) (bs : List UInt8) :
    (line :: pending).flatMap stored ++ bs =
      (kept line ++ [32, 8]) ++ 0 :: (pending.flatMap stored ++ bs) := by simp [stored]

theorem plain_command (h : ∀ c ∈ line, Plain c) : ∀ c ∈ kept line ++ [32, 8], c ≠ 0 := by
  intro c hc
  rcases mem_append.1 hc with hc | hc
  · exact plain_kept h c hc
  · rcases (by simpa using hc : c = 32 ∨ c = 8) with rfl | rfl <;> decide

theorem length_command (line : List UInt8) :
    (kept line ++ [32, 8]).length = (kept line).length + 2 := by simp

/-- The commands that are complete in the buffer, and the part of a line after them. -/
structure Holds (ip : interactive_t) (pending : List (List UInt8)) (q : List UInt8) : Prop where
  window : ip.window = pending.flatMap stored ++ kept q
  start_le : ip.text_start ≤ ip.text_end
  end_lt : ip.text_end < MAX_TEXT
  ended : ip.text ip.text_end = 0
  line_mode : ip.iflags.SINGLE_CHAR = false
  pending_plain : ∀ line ∈ pending, ∀ c ∈ line, Plain c
  part_plain : ∀ c ∈ q, Plain c

theorem head_held (hp : ∀ line ∈ pending, ∀ c ∈ line, Plain c) (hq : ∀ c ∈ q, Plain c) :
    ∀ c, (pending.flatMap stored ++ kept q).head? = some c → c ≠ 0 := by
  intro c hc
  cases pending with
  | nil => exact plain_kept hq c (mem_of_mem_head? (by simpa using hc))
  | cons line pending =>
    simp only [flatMap_cons, stored, append_assoc] at hc
    cases hk : kept line with
    | nil =>
      simp only [hk, nil_append, cons_append, head?_cons, some.injEq] at hc
      subst hc
      decide
    | cons d ds =>
      simp only [hk, cons_append, head?_cons, some.injEq] at hc
      subst hc
      exact plain_kept (hp line (by simp)) d (by simp [hk])

theorem Holds.skip (h : Holds ip pending q) :
    advance (· == 0) ip.text (ip.text_end - ip.text_start) ip.text_start = ip.text_start := by
  have hw := h.window
  rw [interactive_t.window] at hw
  rw [advance_eq, hw, takeWhile_zero (head_held h.pending_plain h.part_plain)]
  rfl

theorem window_length (ip : interactive_t) : ip.window.length = ip.text_end - ip.text_start := by
  simp [interactive_t.window]

theorem Holds.advance_part (h : Holds ip [] q) :
    advance (· != 0) ip.text (ip.text_end - ip.text_start) ip.text_start = ip.text_end := by
  have hw := h.window
  have hlen := window_length ip
  have hle := h.start_le
  rw [flatMap_nil, nil_append] at hw
  rw [hw] at hlen
  rw [interactive_t.window] at hw
  rw [advance_eq, hw, takeWhile_all (plain_kept h.part_plain)]
  omega

theorem Holds.advance_command (h : Holds ip (line :: pending) q) :
    advance (· != 0) ip.text (ip.text_end - ip.text_start) ip.text_start =
      ip.text_start + (kept line).length + 2 := by
  have hw := h.window
  rw [interactive_t.window, stored_cons] at hw
  rw [advance_eq, hw, takeWhile_nonzero (plain_command (h.pending_plain line (by simp))),
    length_command, Nat.add_assoc]

theorem Holds.command_lt (h : Holds ip (line :: pending) q) :
    ip.text_start + (kept line).length + 3 +
      (pending.flatMap stored ++ kept q).length = ip.text_end := by
  have hlen := window_length ip
  rw [h.window] at hlen
  simp only [flatMap_cons, stored, length_append, length_cons,
    length_nil] at hlen ⊢
  omega

/-! ## The three looks at the buffer -/

theorem cmd_in_buf_held (h : Holds ip pending q) : cmd_in_buf ip = !pending.isEmpty := by
  simp only [cmd_in_buf, h.skip, h.line_mode, Bool.false_eq_true, if_false]
  cases pending with
  | nil =>
    rw [h.advance_part]
    simp
  | cons line pending =>
    have := h.command_lt
    rw [h.advance_command, if_neg (by omega)]
    simp only [isEmpty_cons, Bool.not_false, decide_eq_true_eq]
    omega

theorem first_cmd_held (h : Holds ip (line :: pending) q) :
    first_cmd_in_buf ip = (some ip.text_start, ip) := by
  have hlt := h.command_lt
  simp only [first_cmd_in_buf, h.skip, h.line_mode, Bool.false_eq_true, if_false]
  rw [if_neg (by omega), h.advance_command, if_pos (by omega)]

theorem command_string (h : Holds ip (line :: pending) q) :
    c_string (load ip.text ip.text_start (MAX_TEXT - ip.text_start)) = kept line ++ [32, 8] := by
  have hw := h.window
  have hle := h.start_le
  have hlt := h.end_lt
  rw [interactive_t.window] at hw
  rw [show MAX_TEXT - ip.text_start =
    (ip.text_end - ip.text_start) + (MAX_TEXT - ip.text_end) by omega, load_append, hw,
    append_assoc, stored_cons, c_string]
  exact takeWhile_nonzero (plain_command (h.pending_plain line (by simp)))

theorem Holds.after_command (h : Holds ip (line :: pending) q) :
    load ip.text (ip.text_start + (kept line).length + 2)
      (ip.text_end - (ip.text_start + (kept line).length + 2)) =
      0 :: (pending.flatMap stored ++ kept q) := by
  have hw := h.window
  rw [interactive_t.window, stored_cons] at hw
  have hsplit := (load_split hw).2
  rw [length_command] at hsplit
  rw [← hsplit]
  congr 1
  omega

theorem next_cmd_held (h : Holds ip (line :: pending) q) :
    Holds (next_cmd_in_buf ip) pending q ∧ (next_cmd_in_buf ip).iflags = ip.iflags ∧
      (next_cmd_in_buf ip).telnet = ip.telnet := by
  have hcount := h.command_lt
  have hafter := h.after_command
  have hpending : ∀ l ∈ pending, ∀ c ∈ l, Plain c := fun l hl => h.pending_plain l (by simp [hl])
  have hzero : advance (· == 0) ip.text (ip.text_end - (ip.text_start + (kept line).length + 2))
      (ip.text_start + (kept line).length + 2) = ip.text_start + (kept line).length + 3 := by
    rw [advance_eq, hafter, takeWhile_cons]
    simp [takeWhile_zero (head_held hpending h.part_plain)]
  have htail : load ip.text (ip.text_start + (kept line).length + 3)
      (ip.text_end - (ip.text_start + (kept line).length + 3)) =
      pending.flatMap stored ++ kept q := by
    rw [show ip.text_end - (ip.text_start + (kept line).length + 2) =
      (ip.text_end - (ip.text_start + (kept line).length + 3)) + 1 by omega, load_succ,
      cons.injEq] at hafter
    exact hafter.2
  simp only [next_cmd_in_buf, h.advance_command, hzero]
  split
  · refine ⟨⟨htail, ?_, h.end_lt, h.ended, h.line_mode, hpending, h.part_plain⟩, rfl, rfl⟩
    simp only
    omega
  · -- that was the last of the buffer
    have hempty : pending.flatMap stored ++ kept q = [] := by
      rw [← length_eq_zero_iff]
      omega
    refine ⟨⟨?_, Nat.le_refl _, by simp, rfl, h.line_mode, hpending, h.part_plain⟩, rfl, rfl⟩
    simp [interactive_t.window, hempty]

theorem telnet_neg_loop_eq (to_ from_ : List UInt8) :
    telnet_neg_loop to_ from_ =
      from_.foldl (fun line ch => if ch = 8 ∨ ch = 127 then line.dropLast else line ++ [ch]) to_ := by
  induction from_ generalizing to_ with
  | nil => rfl
  | cons ch from_ ih =>
    rw [telnet_neg_loop, foldl_cons]
    split <;> exact ih _

theorem telnet_neg_stored (line : List UInt8) : telnet_neg (kept line ++ [32, 8]) = edited line := by
  rw [telnet_neg, telnet_neg_loop_eq, foldl_append]
  simp [edited, kept]

/-! ## Lines in the stream -/

structure Lines (lines : List (List UInt8)) (rest : List UInt8) : Prop where
  short : ∀ line ∈ lines, line.length < 1600
  plain : ∀ line ∈ lines, ∀ c ∈ line, Plain c
  rest_short : rest.length < 1600
  rest_plain : ∀ c ∈ rest, Plain c

theorem stream_cons (line : List UInt8) (lines : List (List UInt8)) (rest : List UInt8) :
    stream (line :: lines) rest = line ++ 10 :: stream lines rest := by simp [stream]

theorem Lines.tail (more : List (List UInt8)) {lines : List (List UInt8)} {rest : List UInt8}
    (h : Lines (more ++ lines) rest) : Lines lines rest :=
  ⟨fun l hl => h.short l (by simp [hl]), fun l hl => h.plain l (by simp [hl]), h.rest_short,
    h.rest_plain⟩

theorem not_plain_end (h : ∀ c ∈ line, Plain c) : (10 : UInt8) ∉ line :=
  fun hm => (h 10 hm).2.1 rfl

theorem part_short {lines : List (List UInt8)} {rest : List UInt8} (hl : Lines lines rest)
    (hq : ∀ c ∈ q, Plain c) (h : q ++ u = stream lines rest) : q.length < 1600 := by
  cases lines with
  | nil =>
    have hlen := congrArg length h
    simp only [stream, flatMap_nil, nil_append, length_append] at hlen
    have := hl.rest_short
    omega
  | cons line lines =>
    rw [stream_cons] at h
    have hshort := hl.short line (by simp)
    by_contra hlong
    -- the part would hold the end of the line
    have hget := congrArg (·[line.length]?) h
    simp only [getElem?_append_right (Nat.le_refl _), Nat.sub_self, getElem?_cons_zero]
      at hget
    rw [getElem?_append_left (by omega)] at hget
    exact not_plain_end hq (mem_of_getElem? hget)

theorem part_ends {lines : List (List UInt8)} {rest : List UInt8} (hl : Lines lines rest)
    (hq : ∀ c ∈ q, Plain c) (h : q ++ 10 :: u = stream lines rest) :
    ∃ more, lines = q :: more ∧ u = stream more rest := by
  cases lines with
  | nil =>
    have hmem : (10 : UInt8) ∈ rest := by
      rw [show rest = q ++ 10 :: u by simpa [stream] using h.symm]
      simp
    exact absurd hmem (not_plain_end hl.rest_plain)
  | cons line lines =>
    rw [stream_cons] at h
    have htake := congrArg (takeWhile (· != 10)) h
    rw [takeWhile_append_of_pos fun c hc => by simpa using (hq c hc).2.1,
      takeWhile_append_of_pos fun c hc => by simpa using (hl.plain line (by simp) c hc).2.1]
      at htake
    simp only [takeWhile_cons, bne_self_eq_false, Bool.false_eq_true, if_false,
      append_nil] at htake
    subst htake
    exact ⟨lines, rfl, by simpa using h⟩

theorem part_plain {lines : List (List UInt8)} {rest : List UInt8} {c : UInt8}
    (hl : Lines lines rest) (h : q ++ c :: u = stream lines rest) (hc : c ≠ 10) : Plain c := by
  have hmem : c ∈ stream lines rest := by simp [← h]
  simp only [stream, mem_append, mem_flatMap, mem_singleton] at hmem
  rcases hmem with ⟨line, hline, hmem | hmem⟩ | hmem
  · exact hl.plain line hline c hmem
  · exact absurd hmem hc
  · exact hl.rest_plain c hmem

theorem read_lines {rest : List UInt8} (buf : List UInt8) (hl : Lines todo rest)
    (hq : ∀ c ∈ q, Plain c) (h : q ++ (buf ++ u) = stream todo rest) :
    ∃ new todo' q', todo = new ++ todo' ∧ q' ++ u = stream todo' rest ∧ (∀ c ∈ q', Plain c) ∧
      kept q ++ buf.flatMap (user_text false) = new.flatMap stored ++ kept q' := by
  induction buf generalizing todo q with
  | nil => exact ⟨[], todo, q, rfl, h, hq, by simp⟩
  | cons c buf ih =>
    by_cases hc : c = 10
    · subst hc
      obtain ⟨more, rfl, hu⟩ := part_ends hl hq h
      obtain ⟨new, todo', q', rfl, hu', hq', hkept⟩ := ih (q := [])
        (hl.tail [q]) (by simp) (by simpa using hu)
      refine ⟨q :: new, todo', q', rfl, hu', hq', ?_⟩
      simp only [kept, filter_nil, nil_append] at hkept
      simp only [flatMap_cons, hkept, stored, user_text, append_assoc]
      rfl
    · have hplain : ∀ d ∈ q ++ [c], Plain d := by
        intro d hd
        rcases mem_append.1 hd with hd | hd
        · exact hq d hd
        · rw [mem_singleton] at hd
          subst hd
          exact part_plain hl h hc
      obtain ⟨new, todo', q', htodo, hu', hq', hkept⟩ := ih (q := q ++ [c]) hl hplain
        (by simpa using h)
      refine ⟨new, todo', q', htodo, hu', hq', ?_⟩
      rw [← hkept, flatMap_cons]
      by_cases h13 : c = 13 <;> simp [kept, user_text, hc, h13]

/-! ## A read -/

theorem length_kept_le (line : List UInt8) : (kept line).length ≤ line.length :=
  length_filter_le _ _

theorem moved_held (h : Holds ip [] q) :
    Holds { ip with
      text := store ip.text 0 (load ip.text ip.text_start (ip.text_end - ip.text_start + 1))
      text_start := 0
      text_end := ip.text_end - ip.text_start } [] q := by
  have hend := h.end_lt
  have hcell : ∀ k, k < ip.text_end - ip.text_start + 1 →
      store ip.text 0 (load ip.text ip.text_start (ip.text_end - ip.text_start + 1)) (0 + k) =
        ip.text (ip.text_start + k) := fun k hk => store_load_cell _ _ _ _ hk
  refine ⟨?_, Nat.zero_le _, ?_, ?_, h.line_mode, h.pending_plain, h.part_plain⟩
  · rw [← h.window]
    exact load_shift fun k hk => hcell k (Nat.lt_succ_of_lt hk)
  · simp only
    omega
  · have hle := h.start_le
    have hlast := hcell _ (Nat.lt_succ_self _)
    rw [Nat.zero_add, show ip.text_start + (ip.text_end - ip.text_start) = ip.text_end by omega,
      h.ended] at hlast
    exact hlast

theorem more_space_held (h : Holds ip [] q) (hq : q.length < 1600) :
    Holds (more_space ip).1 [] q ∧ (more_space ip).1.iflags = ip.iflags ∧
      (more_space ip).1.telnet = ip.telnet ∧ 0 < (more_space ip).2 ∧
      (more_space ip).1.text_end + 3 * (more_space ip).2 < MAX_TEXT := by
  have hmax : MAX_TEXT = 2048 := rfl
  unfold more_space
  by_cases hspace : text_space ip.text_end < MAX_TEXT / 16
  · have hlen := window_length ip
    have hkept := length_kept_le q
    rw [h.window, flatMap_nil, nil_append] at hlen
    have hmove : ¬ text_space (ip.text_end - ip.text_start) < MAX_TEXT / 16 := by
      unfold text_space
      omega
    simp only [hspace, if_true, hmove, if_false]
    refine ⟨moved_held h, trivial, trivial, ?_, ?_⟩ <;> unfold text_space at * <;> omega
  · simp only [hspace, if_false]
    refine ⟨h, trivial, trivial, ?_, ?_⟩ <;> unfold text_space at * <;> omega

theorem copy_chars_plain {t : telnet_t} {single_char : Bool} {buf : List UInt8}
    (ht : t.state = .TS_DATA) (hbuf : ∀ c ∈ buf, c ≠ IAC) :
    copy_chars t (buf.map (Prod.mk single_char)) =
      (t, (buf.flatMap (user_text single_char)).map .text) := by
  unfold copy_chars
  induction buf with
  | nil => rfl
  | cons c buf ih =>
    simp only [mem_cons, forall_eq_or_imp] at hbuf
    have hchar : copy_char t (single_char, c) = (t, (user_text single_char c).map .text) := by
      simp [copy_char, ht, hbuf.1]
    simp [feed_cons, hchar, ih hbuf.2]

theorem length_user_text_le (buf : List UInt8) :
    (buf.flatMap (user_text false)).length ≤ 3 * buf.length := by
  induction buf with
  | nil => simp
  | cons c buf ih =>
    have hc : (user_text false c).length ≤ 3 := by
      unfold user_text
      split
      · simp
      · split <;> simp
    simp only [flatMap_cons, length_append, length_cons]
    omega

theorem held_text (bytes : List UInt8) {q' : List UInt8} {new : List (List UInt8)}
    (h : Holds ip [] q) (hlt : ip.text_end + bytes.length < MAX_TEXT)
    (hkept : kept q ++ bytes = new.flatMap stored ++ kept q')
    (hnew : ∀ line ∈ new, ∀ c ∈ line, Plain c) (hq' : ∀ c ∈ q', Plain c) (telnet : telnet_t) :
    Holds { ip with
      text := store (store ip.text ip.text_end bytes) (ip.text_end + bytes.length) [0]
      text_end := ip.text_end + bytes.length, telnet } new q' := by
  have hle := h.start_le
  refine ⟨?_, ?_, hlt, ?_, h.line_mode, hnew, hq'⟩
  · have hw := h.window
    rw [interactive_t.window, flatMap_nil, nil_append] at hw
    have hload := load_store_end ip.text ip.text_start (ip.text_end - ip.text_start) bytes
    rw [show ip.text_start + (ip.text_end - ip.text_start) = ip.text_end by omega, hw,
      hkept] at hload
    rw [← hload]
    simp only [interactive_t.window]
    rw [show ip.text_end + bytes.length - ip.text_start =
      ip.text_end - ip.text_start + bytes.length by omega]
    exact load_congr fun i _ hi => store_outside (Or.inl (by omega))
  · simp only
    omega
  · have := load_store (store ip.text ip.text_end bytes) (ip.text_end + bytes.length) [] [0] []
    simpa [load_succ] using this

/-! ## A user who types lines -/

/-- A user between two steps: lines that were given, lines that wait in the buffer,
and what is still to come, of which the part `q` has been read. -/
structure Typing (lines : List (List UInt8)) (rest : List UInt8) (ip : interactive_t)
    (unread : List UInt8) (given pending todo : List (List UInt8)) (q : List UInt8) : Prop where
  lines_eq : ∃ returned, lines = returned ++ pending ++ todo ∧ given = returned.map edited
  part : q ++ unread = stream todo rest
  held : Holds ip pending q
  gate : ip.iflags.CMD_IN_BUF = !pending.isEmpty
  open_ : ip.iflags.CLOSING = false ∧ ip.iflags.NET_DEAD = false
  telnet : ip.telnet.state = .TS_DATA

variable {lines : List (List UInt8)} {rest : List UInt8}

theorem process_io_typing (hl : Lines lines rest)
    (h : Typing lines rest ip unread given pending todo q) (n : Nat) :
    ∃ ip' k pending' todo' q', process_io_user ip (unread.take n) = (some ip', k) ∧
      Typing lines rest ip' (unread.drop k) given pending' todo' q' := by
  obtain ⟨⟨returned, hlines, hgiven⟩, hpart, hheld, hgate, ⟨hclosing, hdead⟩, htelnet⟩ := h
  have hltodo : Lines todo rest := (hlines ▸ hl).tail _
  cases pending with
  | cons line pending =>
    -- the gate is closed
    refine ⟨ip, 0, line :: pending, todo, q, ?_, ⟨returned, hlines, hgiven⟩, hpart, hheld, hgate,
      ⟨hclosing, hdead⟩, htelnet⟩
    simp [process_io_user, hgate]
  | nil =>
    obtain ⟨hheld1, hflags, htel, hpos, hroom⟩ :=
      more_space_held hheld (part_short hltodo hheld.part_plain hpart)
    simp only [process_io_user, hclosing, hgate, hdead, isEmpty_nil, Bool.not_true,
      Bool.or_self, Bool.false_eq_true, if_false, get_user_data]
    generalize more_space ip = r at *
    obtain ⟨ip1, space⟩ := r
    simp only at hheld1 hflags htel hpos hroom ⊢
    by_cases harrived : unread.take n = []
    · refine ⟨ip1, 0, [], todo, q, by simp [harrived], ⟨returned, hlines, hgiven⟩, hpart, hheld1,
        by rw [hflags]; exact hgate, by rw [hflags]; exact ⟨hclosing, hdead⟩, by rw [htel, htelnet]⟩
    have hbuf : (unread.take n).take space ≠ [] := by
      rw [Ne, ← length_eq_zero_iff, length_take] at *
      rw [length_take]
      omega
    simp only [harrived, hbuf, if_false]
    generalize hb : (unread.take n).take space = buf at *
    have hunread : buf ++ unread.drop buf.length = unread := by
      have hpre : buf <+: unread := hb ▸ ( take_prefix _ _).trans ( take_prefix _ _)
      obtain ⟨u, rfl⟩ := hpre
      simp
    have hlen : buf.length ≤ space := by
      rw [← hb]
      exact length_take_le _ _
    rw [← hunread] at hpart
    obtain ⟨new, todo', q', rfl, hpart', hq', hkept⟩ :=
      read_lines buf hltodo hheld1.part_plain hpart
    have hiac : ∀ c ∈ buf, c ≠ IAC := by
      intro c hc
      obtain ⟨as, bs, rfl⟩ := append_of_mem hc
      by_cases hten : c = 10
      · rw [hten]; decide
      · refine (part_plain (u := bs ++ unread.drop (as ++ c :: bs).length) (q := q ++ as)
          hltodo ?_ hten).2.2
        simpa using hpart
    rw [copy_chars_plain (htel ▸ htelnet) hiac, hheld1.line_mode]
    simp only [textOf_map_text]
    have hbytes := length_user_text_le buf
    have hnext := held_text (buf.flatMap (user_text false)) hheld1 (by omega) hkept
      (fun line hline => hltodo.plain line (by simp [hline])) hq' ip1.telnet
    have hcmd := cmd_in_buf_held hnext
    rw [hcmd]
    have hlines' : lines = returned ++ new ++ todo' := by simpa using hlines
    cases new with
    | nil =>
      refine ⟨_, _, [], todo', q', rfl, ⟨returned, hlines', hgiven⟩, hpart', hnext, ?_, ?_, ?_⟩
      · simp [hflags, hgate]
      · simp only [hflags]
        exact ⟨hclosing, hdead⟩
      · simp [htel, htelnet]
    | cons line new =>
      refine ⟨_, _, line :: new, todo', q', rfl, ⟨returned, hlines', hgiven⟩, hpart', ?_, ?_, ?_, ?_⟩
      · exact ⟨hnext.window, hnext.start_le, hnext.end_lt, hnext.ended, rfl,
          hnext.pending_plain, hnext.part_plain⟩
      · rfl
      · simp only [hflags]
        exact ⟨hclosing, hdead⟩
      · simp [htel, htelnet]

theorem take_command_typing (h : Typing lines rest ip unread given (line :: pending) todo q) :
    (take_command ip ip.text_start).1 = edited line ∧
      Typing lines rest (take_command ip ip.text_start).2 unread (given ++ [edited line])
        pending todo q := by
  obtain ⟨⟨returned, hlines, hgiven⟩, hpart, hheld, hgate, hopen, htelnet⟩ := h
  obtain ⟨hnext, hflags, htel⟩ := next_cmd_held hheld
  have hcmd := cmd_in_buf_held hnext
  have hlines' : ∃ returned, lines = returned ++ pending ++ todo ∧
      given ++ [edited line] = returned.map edited :=
    ⟨returned ++ [line], by simp [hlines], by simp [hgiven]⟩
  have hcommand : telnet_neg (c_string (load ip.text ip.text_start (MAX_TEXT - ip.text_start))) =
      edited line := by
    rw [command_string hheld, telnet_neg_stored]
  unfold take_command
  simp only [hcommand, hcmd]
  cases pending with
  | nil =>
    refine ⟨rfl, hlines', hpart, ?_, rfl, by rw [← hflags] at hopen; exact hopen, htel ▸ htelnet⟩
    exact ⟨hnext.window, hnext.start_le, hnext.end_lt, hnext.ended, hnext.line_mode,
      hnext.pending_plain, hnext.part_plain⟩
  | cons next pending =>
    exact ⟨rfl, hlines', hpart, hnext, hflags ▸ hgate, hflags ▸ hopen, htel ▸ htelnet⟩

/-! ## The scan of the users -/

@[simp] theorem max_users_set (s : users_t) (i : Nat) (ip : Option interactive_t) :
    (s.set i ip).max_users = s.max_users := by simp [users_t.set, users_t.max_users]

@[simp] theorem max_users_next (s : users_t) : s.next.max_users = s.max_users := rfl

@[simp] theorem user_next (s : users_t) (i : Nat) : s.next.user i = s.user i := rfl

@[simp] theorem giver_set (s : users_t) (i : Nat) (ip : Option interactive_t) :
    (s.set i ip).NextCmdGiver = s.NextCmdGiver := rfl

theorem giver_next (h : s.NextCmdGiver < s.max_users) : s.next.NextCmdGiver < s.max_users := by
  simp only [users_t.next]
  split <;> omega

theorem user_set_ne {j : Nat} (h : i ≠ j) (ip : Option interactive_t) :
    (s.set i ip).user j = s.user j := by simp [users_t.set, users_t.user, getElem?_set_ne h]

theorem user_lt (h : s.user i = some ip) : i < s.max_users := by
  by_contra hn
  rw [users_t.user, getElem?_eq_none (by simpa [users_t.max_users] using hn)] at h
  cases h

theorem user_set_self (h : s.user i = some ip) (u : Option interactive_t) :
    (s.set i u).user i = u := by
  have hi := user_lt h
  simp only [users_t.max_users] at hi
  simp [users_t.set, users_t.user, hi]

def turns (s : users_t) (i : Nat) : Nat :=
  if i ≤ s.NextCmdGiver then s.NextCmdGiver - i else s.NextCmdGiver + s.max_users - i

theorem turns_next (hi : i < s.max_users) (h : i ≠ s.NextCmdGiver) :
    turns s.next i + 1 = turns s i := by
  simp only [turns, users_t.next, users_t.max_users] at *
  split <;> split <;> split <;> omega

/-- The scan does to a user in line mode nothing but stop at the first command of
that user, and it does not pass by a user who has a command. -/
structure Scanned (s : users_t) (i : Nat) (ip : interactive_t) (n : Nat)
    (r : Option Nat × users_t) : Prop where
  user : r.2.user i = some ip
  max_users : r.2.max_users = s.max_users
  place : ∀ p, r.1 = some p → r.2.NextCmdGiver = i →
    ip.iflags.CMD_IN_BUF = true ∧ p = ip.text_start
  found : ip.iflags.CMD_IN_BUF = true → turns s i < n → r.1.isSome
  giver : s.NextCmdGiver < s.max_users → r.2.NextCmdGiver < s.max_users

theorem scan_users_scanned
    (hfirst : ip.iflags.CMD_IN_BUF = true → first_cmd_in_buf ip = (some ip.text_start, ip))
    (n : Nat) (h : s.user i = some ip) : Scanned s i ip n (scan_users n s) := by
  induction n generalizing s with
  | zero => exact ⟨h, rfl, by simp [scan_users], fun _ hn => by omega, id⟩
  | succ n ih =>
    -- what holds of the rest of the scan holds of the scan
    have hskip : ∀ u : users_t, u.max_users = s.max_users → u.NextCmdGiver = s.NextCmdGiver →
        u.user i = some ip → (i = s.NextCmdGiver → ip.iflags.CMD_IN_BUF = false) →
        Scanned s i ip (n + 1) (scan_users n u.next) := by
      intro u hmax hnext hu hno
      obtain ⟨h1, h2, h3, h4, h5⟩ := ih (s := u.next) hu
      refine ⟨h1, h2.trans hmax, h3, fun hcmd hturns => h4 hcmd ?_, fun hlt => ?_⟩
      · have hi : i ≠ u.NextCmdGiver := by
          rintro rfl
          simp [hno hnext] at hcmd
        have hlt := turns_next (user_lt hu) hi
        have hsame : turns u i = turns s i := by simp [turns, hmax, hnext]
        omega
      · rw [← hmax]
        exact h5 (giver_next (by rwa [hnext, hmax]))
    rw [scan_users]
    cases hk : s.user s.NextCmdGiver with
    | none => exact hskip s rfl rfl h fun hi => by rw [← hi, h] at hk; cases hk
    | some other =>
      by_cases hi : i = s.NextCmdGiver
      · rw [← hi, h, some.injEq] at hk
        subst hk
        cases hcmd : ip.iflags.CMD_IN_BUF with
        | true =>
          simp only [hcmd, if_true, hfirst hcmd]
          refine ⟨?_, max_users_set _ _ _, ?_, fun _ _ => rfl, id⟩
          · rw [hi] at h ⊢
            exact user_set_self h _
          · rintro p hp -
            exact ⟨hcmd, by simpa using hp.symm⟩
        | false =>
          simp only [hcmd, Bool.false_eq_true, if_false]
          exact hskip s rfl rfl h fun _ => hcmd
      · simp only
        split
        · split
          · refine ⟨?_, max_users_set _ _ _, ?_, fun _ _ => rfl, id⟩
            · rwa [user_set_ne (Ne.symm hi)]
            · intro p _ hg
              exact absurd hg.symm hi
          · exact hskip _ (max_users_set _ _ _) rfl (by rw [user_set_ne (Ne.symm hi)]; exact h)
              fun hn => absurd hn hi
        · exact hskip s rfl rfl h fun hn => absurd hn hi

theorem scan_users_some (n : Nat) {p : Nat} (h : (scan_users n s).1 = some p) :
    ∃ ip, (scan_users n s).2.user (scan_users n s).2.NextCmdGiver = some ip := by
  induction n generalizing s with
  | zero => cases h
  | succ n ih =>
    rw [scan_users] at h ⊢
    cases hk : s.user s.NextCmdGiver with
    | none =>
      simp only [hk] at h ⊢
      exact ih h
    | some ip =>
      simp only [hk] at h ⊢
      split at h
      · rename_i hcmd
        simp only [hcmd, if_true]
        split at h
        · rename_i ip' _
          exact ⟨ip', user_set_self hk _⟩
        · exact ih h
      · rename_i hcmd
        simp only [hcmd]
        exact ih h

/-! ## The laws -/

/-- The user `i` at any time: some lines were given, some wait, and no byte is lost. -/
def Served (lines : List (List UInt8)) (rest : List UInt8) (i : Nat) (s : Session) : Prop :=
  s.users.NextCmdGiver < s.users.max_users ∧ ∃ ip pending todo q, s.users.user i = some ip ∧
    Typing lines rest ip (s.unread i) (s.given i) pending todo q

theorem Typing.scanned (hu : s.user i = some ip)
    (h : Typing lines rest ip unread given pending todo q) :
    Scanned s i ip s.max_users (scan_users s.max_users s) := by
  apply scan_users_scanned _ _ hu
  intro hcmd
  rw [h.gate] at hcmd
  cases pending with
  | nil => cases hcmd
  | cons line pending => exact first_cmd_held h.held

theorem served_start {connected : List Bool} {typed : Nat → List UInt8}
    (hi : connected[i]? = some true) (ht : typed i = stream lines rest) :
    Served lines rest i (Session.start connected typed) := by
  have hlt : i < connected.length := (List.getElem?_eq_some_iff.1 hi).1
  refine ⟨?_, new_interactive, [], lines, [], ?_, ⟨[], rfl, rfl⟩, ?_, ?_, rfl, ⟨rfl, rfl⟩, rfl⟩
  · simp only [Session.start, users_t.max_users, length_map]
    omega
  · simp [Session.start, users_t.user, hi]
  · simpa [Session.start] using ht
  · exact ⟨rfl, Nat.le_refl _, by decide, rfl, rfl, by simp, by simp⟩

theorem served_process_io {j n : Nat} {s s' : Session} (hl : Lines lines rest)
    (h : Served lines rest i s) (hs : s.step (.process_io j n) = some s') :
    Served lines rest i s' := by
  obtain ⟨hgiver, ip, pending, todo, q, hu, ht⟩ := h
  simp only [Session.step] at hs
  cases hj : s.users.user j with
  | none => simp [hj] at hs
  | some other =>
    simp only [hj, some.injEq] at hs
    subst hs
    refine ⟨by simpa using hgiver, ?_⟩
    by_cases hij : i = j
    · subst hij
      cases hu.symm.trans hj
      obtain ⟨ip', k, pending', todo', q', hio, ht'⟩ := process_io_typing hl ht n
      refine ⟨ip', pending', todo', q', ?_, ?_⟩
      · simp only [hio]
        exact user_set_self hu _
      · simpa only [hio, if_true] using ht'
    · refine ⟨ip, pending, todo, q, ?_, ?_⟩
      · simp [user_set_ne (Ne.symm hij), hu]
      · simpa only [hij, if_false] using ht

theorem served_get_user_command {s s' : Session} (h : Served lines rest i s)
    (hs : s.step .get_user_command = some s') : Served lines rest i s' := by
  obtain ⟨hgiver, ip, pending, todo, q, hu, ht⟩ := h
  obtain ⟨hu', hmax, hplace, -, hgiver'⟩ := ht.scanned hu
  specialize hgiver' hgiver
  simp only [Session.step, get_user_command] at hs
  generalize scan_users s.users.max_users s.users = r at *
  obtain ⟨p, users⟩ := r
  simp only at hu' hmax hplace hgiver' hs
  rw [← hmax] at hgiver'
  cases p with
  | none =>
    simp only [some.injEq] at hs
    subst hs
    exact ⟨hgiver', ip, pending, todo, q, hu', ht⟩
  | some p =>
    cases hk : users.user users.NextCmdGiver with
    | none =>
      simp only [hk, some.injEq] at hs
      subst hs
      exact ⟨hgiver', ip, pending, todo, q, hu', ht⟩
    | some other =>
      simp only [hk, some.injEq] at hs
      subst hs
      refine ⟨giver_next (by simpa using hgiver'), ?_⟩
      by_cases hi : i = users.NextCmdGiver
      · -- it is the turn of this user
        rw [← hi, hu', some.injEq] at hk
        subst hk
        obtain ⟨hcmd, rfl⟩ := hplace p rfl hi.symm
        cases pending with
        | nil => simp [ht.gate] at hcmd
        | cons line pending =>
          obtain ⟨hbuf, ht'⟩ := take_command_typing ht
          refine ⟨(take_command ip ip.text_start).2, pending, todo, q, ?_, ?_⟩
          · rw [user_next, ← hi]
            exact user_set_self hu' _
          · simpa only [← hi, if_true, hbuf] using ht'
      · refine ⟨ip, pending, todo, q, ?_, ?_⟩
        · rwa [user_next, user_set_ne (Ne.symm hi)]
        · simpa only [hi, if_false] using ht

theorem reachable_served {connected : List Bool} {typed : Nat → List UInt8} {s : Session}
    (hi : connected[i]? = some true) (ht : typed i = stream lines rest) (hl : Lines lines rest)
    (h : Reachable (Session.start connected typed) Session.step (fun _ _ => True) s) :
    Served lines rest i s := by
  refine h.inv (served_start hi ht) fun s op s' hserved _ hs => ?_
  cases op with
  | process_io j n => exact served_process_io hl hserved hs
  | get_user_command => exact served_get_user_command hserved hs

theorem count_ends (hl : Lines todo rest) (hq : ∀ c ∈ q, Plain c)
    (h : q ++ unread = stream todo rest) : unread.count 10 = todo.length := by
  have hzero : ∀ line : List UInt8, (∀ c ∈ line, Plain c) → line.count 10 = 0 := fun line hline =>
    count_eq_zero.2 (not_plain_end hline)
  have hstream : (stream todo rest).count 10 = todo.length := by
    clear h
    induction todo with
    | nil => simpa [stream] using hzero rest hl.rest_plain
    | cons line todo ih =>
      rw [stream_cons, count_append, count_cons_self, hzero line (hl.plain line (by simp)),
        ih (hl.tail [line]), length_cons]
      omega
  rw [← h, count_append, hzero q hq] at hstream
  omega

theorem no_command_waits {s : Session} (h : Served lines rest i s)
    (hnone : (get_user_command s.users).1 = none) :
    ∃ ip todo q, Typing lines rest ip (s.unread i) (s.given i) [] todo q := by
  obtain ⟨hgiver, ip, pending, todo, q, hu, ht⟩ := h
  cases pending with
  | nil => exact ⟨ip, todo, q, ht⟩
  | cons line pending =>
    have hturns : turns s.users i < s.users.max_users := by
      have := user_lt hu
      unfold turns
      split <;> omega
    obtain ⟨p, hp⟩ := isSome_iff_exists.1 ((ht.scanned hu).found (by simp [ht.gate]) hturns)
    obtain ⟨other, hother⟩ := scan_users_some _ hp
    unfold get_user_command at hnone
    generalize scan_users s.users.max_users s.users = r at *
    obtain ⟨p', users⟩ := r
    simp only at hp hother
    simp [hp, hother] at hnone

end mudos.comm
