-- The laws of the fields: what a field writes is its text between two parts of
-- the repeated pad string, and the next field starts where its width says.
import MudOS.OutBufferLaws
import MudOS.SprintfPads
import Mathlib.Algebra.BigOperators.Group.List.Basic
import Mathlib.Algebra.Ring.Nat

namespace mudos.sprintf_pads

open ints out_buffers List Option List

variable {cs es : List UInt8} {n : Nat} {len : Int} {b : malloc_block_t} {obuff : outbuffer_t}
variable {c : UInt8} {i : Nat} {bytes : List UInt8}

/-! ## Pads -/

def repeated (cs : List UInt8) (n : Nat) : List UInt8 := (replicate n cs).flatten.take n

theorem length_replicate_flatten (cs : List UInt8) (n : Nat) :
    (replicate n cs).flatten.length = n * cs.length := by
  rw [length_flatten, map_replicate, sum_replicate_nat]

theorem replicate_flatten_take (h : cs ≠ []) {m : Nat} (hle : n ≤ m) :
    (replicate m cs).flatten.take n = repeated cs n := by
  have hpos : 0 < cs.length := length_pos_iff.mpr h
  have hlong : n ≤ (replicate n cs).flatten.length := by
    rw [length_replicate_flatten]
    exact Nat.le_mul_of_pos_right n hpos
  rw [show m = n + (m - n) by omega, ← replicate_append_replicate, flatten_append,
    take_append_of_le_length hlong, repeated]

theorem repeated_length (h : cs ≠ []) (n : Nat) : (repeated cs n).length = n := by
  have hpos : 0 < cs.length := length_pos_iff.mpr h
  rw [repeated, length_take, length_replicate_flatten]
  exact Nat.min_eq_left (Nat.le_mul_of_pos_right n hpos)

theorem repeated_single (c : UInt8) (n : Nat) : repeated [c] n = replicate n c := by
  rw [repeated, flatten_replicate_singleton, take_of_length_le (by simp)]

/-- A pad string and the characters it stands for: a character behind a backslash is itself. -/
inductive Spells : List UInt8 → List UInt8 → Prop
  | nil : Spells [] []
  | plain {c : UInt8} {es cs : List UInt8} : c ≠ 92 → Spells es cs → Spells (c :: es) (c :: cs)
  | escaped {c : UInt8} {es cs : List UInt8} : Spells es cs → Spells (92 :: c :: es) (c :: cs)

theorem Spells.eq_nil (h : Spells es []) : es = [] := by
  cases h
  rfl

theorem quoted_escaped (c : UInt8) (format_str : List UInt8) :
    quoted (92 :: c :: format_str) = (quoted format_str).map (· + 2) := rfl

theorem quoted_plain (h92 : c ≠ 92) (h39 : c ≠ 39) (format_str : List UInt8) :
    quoted (c :: format_str) = (quoted format_str).map (· + 1) := by
  rw [quoted.eq_def]
  simp [if_neg h92, if_neg h39]

theorem map_ok {e : Outcome Nat} {f : Nat → Nat} (h : e.map f = .ok n) :
    ∃ k, e = .ok k ∧ f k = n := by
  cases e with
  | error e => cases h
  | ok k => exact ⟨k, rfl, by simpa [Except.map] using h⟩

theorem quoted_spells {format_str : List UInt8} (h : quoted format_str = .ok n) :
    n ≤ format_str.length ∧ ∃ cs, Spells (format_str.take n) cs := by
  induction format_str using quoted.induct generalizing n with
  | case1 => cases h
  | case2 => cases h
  | case3 c format_str ih =>
    rw [quoted_escaped] at h
    obtain ⟨k, hk, rfl⟩ := map_ok h
    obtain ⟨hle, cs, hcs⟩ := ih hk
    exact ⟨by simp only [length_cons]; omega, c :: cs, .escaped hcs⟩
  | case4 format_str =>
    rw [quoted.eq_def] at h
    simp only [if_neg (show (39 : UInt8) ≠ 92 by decide), if_pos] at h
    cases h
    exact ⟨Nat.zero_le _, [], .nil⟩
  | case5 c format_str h92 h39 ih =>
    rw [quoted_plain h92 h39] at h
    obtain ⟨k, hk, rfl⟩ := map_ok h
    obtain ⟨hle, cs, hcs⟩ := ih hk
    exact ⟨by simp only [length_cons]; omega, c :: cs, .plain h92 hcs⟩

def unescaped : List UInt8 → List UInt8
  | [] => []
  | c :: es =>
    if c = 92 then
      match es with
      | [] => []
      | c :: es => c :: unescaped es
    else c :: unescaped es

theorem Spells.unescaped (h : Spells es cs) : unescaped es = cs := by
  induction h with
  | nil => rfl
  | plain hc _ ih =>
    rw [sprintf_pads.unescaped.eq_def]
    simp [if_neg hc, ih]
  | escaped _ ih =>
    rw [sprintf_pads.unescaped.eq_def]
    simp [ih]

def pad_info_t.chars (pad : pad_info_t) : List UInt8 :=
  if pad.len = 0 then [32] else unescaped (pad.what.take pad.len)

inductive Named : pad_info_t → Prop
  | none : Named no_pad
  | zero : Named zero_pad
  | quoted {format_str : List UInt8} {pad : pad_info_t} : quoted_pad format_str = .ok pad →
      Named pad

theorem quoted_pad_ok {format_str : List UInt8} {pad : pad_info_t}
    (h : quoted_pad format_str = .ok pad) :
    pad.what = format_str ∧ pad.len ≠ 0 ∧ quoted format_str = .ok pad.len := by
  unfold quoted_pad at h
  cases hquoted : quoted format_str with
  | error e =>
    rw [hquoted] at h
    cases h
  | ok n =>
    rw [hquoted] at h
    by_cases hn : n = 0
    · subst hn
      cases h
    · obtain rfl : ⟨format_str, n⟩ = pad := by simpa [bind, Except.bind, hn] using h
      exact ⟨rfl, hn, rfl⟩

theorem Named.spells {pad : pad_info_t} (h : Named pad) :
    pad = no_pad ∨ pad.len ≠ 0 ∧ pad.len = (pad.what.take pad.len).length ∧
      Spells (pad.what.take pad.len) pad.chars := by
  cases h with
  | none => exact .inl rfl
  | zero => exact .inr ⟨by decide, rfl, .plain (by decide) .nil⟩
  | quoted h =>
    obtain ⟨hwhat, hpos, hquoted⟩ := quoted_pad_ok h
    obtain ⟨hle, cs, hcs⟩ := quoted_spells hquoted
    refine .inr ⟨hpos, by rw [length_take, hwhat]; omega, ?_⟩
    rw [← hwhat] at hcs
    rwa [pad_info_t.chars, if_neg hpos, hcs.unescaped]

theorem Named.ne_nil {pad : pad_info_t} (h : Named pad) : pad.chars ≠ [] := by
  obtain rfl | ⟨hpos, hlength, hcs⟩ := h.spells
  · simp [pad_info_t.chars, no_pad]
  · intro hnil
    rw [hnil] at hcs
    rw [hcs.eq_nil] at hlength
    exact hpos hlength

theorem take_one_more {all : List UInt8} (hne : all ≠ []) (cs : List UInt8) (n : Nat) :
    (cs ++ (replicate (n + 1) all).flatten).take n =
      (cs ++ (replicate n all).flatten).take n := by
  rw [take_append, take_append, replicate_flatten_take hne (by omega),
    replicate_flatten_take hne (by omega)]

theorem drop_eq_cons {rest : List UInt8} (h : es.drop i = c :: rest) :
    es[i]? = some c ∧ es.drop (i + 1) = rest ∧ i < es.length := by
  have hlt : i < es.length := by
    have := congrArg length h
    simp only [length_drop, length_cons] at this
    omega
  refine ⟨?_, ?_, hlt⟩
  · rw [← head?_drop, h, head?_cons]
  · rw [← drop_drop, h, drop_one, tail_cons]

theorem getElem_of_prefix {what : List UInt8} (h : es <+: what) (hc : es[i]? = some c) :
    what[i]? = some c := by
  obtain ⟨more, rfl⟩ := h
  obtain ⟨hlt, -⟩ := List.getElem?_eq_some_iff.mp hc
  rw [getElem?_append_left hlt, hc]

theorem pad_chars_spec {what all : List UInt8} (hall : Spells es all) (hne : all ≠ [])
    (hes : es <+: what) (n : Nat) {rest : List UInt8} (hrest : es.drop i = rest)
    (hi : i ≤ es.length) (hcs : Spells rest cs) :
    pad_chars what es.length n i = some ((cs ++ (replicate n all).flatten).take n) := by
  induction n generalizing i rest cs with
  | zero => simp [pad_chars]
  | succ n ih =>
    -- one turn where characters are left
    have turn : ∀ {i : Nat} {rest cs : List UInt8}, es.drop i = rest → Spells rest cs →
        cs ≠ [] → pad_chars what es.length (n + 1) i =
          some ((cs ++ (replicate (n + 1) all).flatten).take (n + 1)) := by
      intro i rest cs hrest hcs hne'
      cases hcs with
      | nil => exact absurd rfl hne'
      | @plain c rest cs hc hcs =>
        obtain ⟨hget, hdrop, hlt⟩ := drop_eq_cons hrest
        simp [pad_chars, if_neg (Nat.ne_of_lt hlt), getElem_of_prefix hes hget, if_neg hc, ih hdrop hlt hcs, take_one_more hne]
      | @escaped c rest cs hcs =>
        obtain ⟨hget, hdrop, hlt⟩ := drop_eq_cons hrest
        obtain ⟨hget', hdrop', hlt'⟩ := drop_eq_cons hdrop
        simp [pad_chars, if_neg (Nat.ne_of_lt hlt), getElem_of_prefix hes hget, getElem_of_prefix hes hget', ih hdrop' hlt' hcs, take_one_more hne]
    by_cases hempty : cs = []
    · subst hempty
      obtain rfl := hcs.eq_nil
      have hlen : i = es.length := by
        have := congrArg length hrest
        simp only [length_drop, length_nil] at this
        omega
      have hback : pad_chars what es.length (n + 1) i = pad_chars what es.length (n + 1) 0 := by
        simp [pad_chars, hlen]
      rw [hback, turn drop_zero hall hne, ← flatten_cons, ← replicate_succ,
        replicate_flatten_take hne (by omega), nil_append]
      rfl
    · exact turn hrest hcs hempty

theorem blanks_spec (h : 0 ≤ len) : blanks len = some (repeated [32] len.toNat) := by
  rw [blanks, if_neg (by omega), repeated_single]

structure Pads (pad : Option pad_info_t) (cs : List UInt8) : Prop where
  ne_nil : cs ≠ []
  text : ∀ len : Int, 0 ≤ len → pad_text pad len = some (repeated cs len.toNat)

theorem Named.pads {pad : pad_info_t} (h : Named pad) : Pads (some pad) pad.chars := by
  refine ⟨h.ne_nil, fun len hlen => ?_⟩
  obtain rfl | ⟨hpos, hlength, hcs⟩ := h.spells
  · exact blanks_spec hlen
  · have hchars := pad_chars_spec hcs h.ne_nil ( take_prefix _ _) len.toNat drop_zero
      (Nat.zero_le _) hcs
    rw [← flatten_cons, ← replicate_succ, replicate_flatten_take h.ne_nil (by omega),
      ← hlength] at hchars
    simpa only [pad_text, if_pos hpos] using hchars

/-! ## The buffer -/

/-- The output buffer holds the text. Its first text can be longer than the stored size says. -/
structure Written (text : List UInt8) (obuff : outbuffer_t) : Prop where
  real_size : obuff.real_size = text.length
  empty : obuff.buffer = none → text = []
  closed : ∀ b, obuff.buffer = some b → Closed text b
  size : ∀ b, obuff.buffer = some b → 0 ≤ b.size ∧ b.size ≤ 65535 ∧ b.size + 1 ≤ b.bytes.length

theorem written_zero : Written [] outbuf_zero :=
  ⟨rfl, fun _ => rfl, by simp [outbuf_zero], by simp [outbuf_zero]⟩

structure Room (text : List UInt8) (len : Int) (b : malloc_block_t) : Prop where
  starts : text <+: b.bytes
  room : text.length + len + 1 ≤ b.bytes.length
  size : 0 ≤ b.size ∧ b.size ≤ 65535 ∧ b.size + 1 ≤ b.bytes.length

theorem extended (fresh : Nat → UInt8) {text : List UInt8} (h : text <+: b.bytes) {l : Int}
    (len : Int) (hl : 0 ≤ l) (hlen : text.length + l ≤ len) (hmax : len ≤ 65535) :
    ∃ b', extend_string fresh b len = some b' ∧ Room text l b' := by
  obtain ⟨b', hext, hb', hsize⟩ := extend_string_spec fresh h (by omega) hmax
  have hallocated := hb'.allocated
  exact ⟨b', hext, hb'.starts, by omega, by omega, by omega, by omega⟩

theorem Written.starts {text : List UInt8} (h : Written text obuff) (hb : obuff.buffer = some b) :
    text <+: b.bytes :=
  (prefix_append _ _).trans (h.closed b hb)

theorem Written.room {text : List UInt8} (h : Written text obuff) (hb : obuff.buffer = some b) :
    text.length + 1 ≤ b.bytes.length := by simpa using (h.closed b hb).length_le

theorem extend_of_fits {fresh : Nat → UInt8} {n : Int}
    (h : grow fresh obuff len len = some (.fits n b)) : extend fresh obuff len = .ok (n, b) := by
  have hextend : outbuf_extend fresh obuff len = some (⟨n, some b⟩, len) := by
    rw [outbuf_extend, h]
    rfl
  rw [extend, hextend]
  simp [inside, bind, Except.bind]

theorem extend_of_short {fresh : Nat → UInt8} {obuff' : outbuffer_t} {n : Int}
    (h : outbuf_extend fresh obuff len = some (obuff', n)) (hn : n ≠ len) :
    extend fresh obuff len = .error .ERR_BUFF_OVERFLOW := by
  rw [extend, h]
  simp [inside, bind, Except.bind, hn]

theorem extend_spec (fresh : Nat → UInt8) {text : List UInt8} (h : Written text obuff)
    (hlen : 0 ≤ len) (hsmall : text.length + len < 1073741824) :
    (extend fresh obuff len = .error .ERR_BUFF_OVERFLOW ∧ 65535 < text.length + len) ∨
      ∃ b, extend fresh obuff len = .ok ((text.length : Int), b) ∧ Room text len b := by
  have hsum : int32 (text.length + len) = text.length + len := int32_eq (by omega) (by omega)
  have hdouble : int32 ((text.length + len) * 2) = (text.length + len) * 2 :=
    int32_eq (by omega) (by omega)
  cases hbuffer : obuff.buffer with
  | none =>
    obtain rfl := h.empty hbuffer
    have hnew : new_string fresh len =
        some ⟨stored_size len, (range (len.toNat + 1)).map fresh⟩ := if_neg (by omega)
    refine .inr ⟨_, extend_of_fits (by rw [grow, hbuffer]; simp only [hnew]; rfl),
      nil_prefix, ?_, ?_⟩
    · simp only [length_nil, length_map, length_range]
      omega
    · simp only [stored_size, USHRT_MAX, length_map, length_range]
      split <;> omega
  | some b =>
    have hroom := h.room hbuffer
    have hsize := h.size b hbuffer
    have hstarts := h.starts hbuffer
    have hgrow : grow fresh obuff len len =
        if text.length + len > b.size then
          if (text.length : Int) = 65535 then some .full
          else if (text.length + len) * 2 > 65535 then
            if text.length + len > 65535 then (extend_string fresh b 65535).map .cut
            else (extend_string fresh b (text.length + len)).map (.fits text.length)
          else (extend_string fresh b ((text.length + len) * 2)).map (.fits text.length)
        else some (.fits text.length b) := by
      rw [grow, hbuffer]
      simp [h.real_size, hsum, hdouble, USHRT_MAX]
    split_ifs at hgrow with hmore hfull htwice hover
    · have hextend : outbuf_extend fresh obuff len = some (obuff, 0) := by
        rw [outbuf_extend, hgrow]
        rfl
      by_cases hzero : len = 0
      · subst hzero
        refine .inr ⟨b, ?_, hstarts, by omega, hsize⟩
        rw [extend, hextend]
        simp [inside, bind, Except.bind, hbuffer, h.real_size]
      · exact .inl ⟨extend_of_short hextend (Ne.symm hzero), by omega⟩
    · have hextend : outbuf_extend fresh obuff len =
          (extend_string fresh b 65535).map fun b' =>
            (⟨text.length, some b'⟩, int32 (65535 - text.length)) := by
        rw [outbuf_extend, hgrow, h.real_size]
        cases extend_string fresh b 65535 <;> rfl
      rw [int32_eq (by omega) (by omega)] at hextend
      exact .inl ⟨extend_of_short hextend (by omega), by omega⟩
    · obtain ⟨b', hext, hb'⟩ := extended fresh hstarts _ hlen (Int.le_refl _) (by omega)
      exact .inr ⟨b', extend_of_fits (by rw [hgrow, hext]; rfl), hb'⟩
    · obtain ⟨b', hext, hb'⟩ := extended fresh hstarts ((text.length + len) * 2) hlen (by omega)
        (by omega)
      exact .inr ⟨b', extend_of_fits (by rw [hgrow, hext]; rfl), hb'⟩
    · exact .inr ⟨b, extend_of_fits hgrow, hstarts, by omega, hsize⟩

theorem write_frame (b : malloc_block_t) (k : Nat) (more : List UInt8)
    (hroom : k + more.length ≤ b.bytes.length) :
    ∃ b', write b k more = some b' ∧ b'.size = b.size ∧ b'.bytes.length = b.bytes.length ∧
      (∀ i, i < k ∨ k + more.length ≤ i → b'.bytes[i]? = b.bytes[i]?) ∧
      ∀ i, i < more.length → b'.bytes[k + i]? = more[i]? := by
  refine ⟨_, if_pos ⟨by omega, by omega⟩, rfl, ?_, ?_, ?_⟩
  · simp only [Int.toNat_natCast, length_append, length_take, length_drop]
    omega
  · rintro i (hi | hi)
    · simp only [Int.toNat_natCast]
      rw [append_assoc, getElem?_append_left (by rw [length_take]; omega),
        getElem?_take_of_lt hi]
    · have hlen : (b.bytes.take k ++ more).length = k + more.length := by
        rw [length_append, length_take]
        omega
      simp only [Int.toNat_natCast]
      rw [getElem?_append_right (by omega), hlen, getElem?_drop]
      congr 1
      omega
  · intro i hi
    simp only [Int.toNat_natCast]
    rw [append_assoc, getElem?_append_right (by rw [length_take]; omega),
      length_take, Nat.min_eq_left (by omega), Nat.add_sub_cancel_left,
      getElem?_append_left hi]

theorem prefix_iff {text : List UInt8} :
    text <+: bytes ↔ ∀ i, i < text.length → bytes[i]? = text[i]? := by
  constructor
  · rintro ⟨more, rfl⟩ i hi
    exact getElem?_append_left hi
  · intro h
    rw [prefix_iff_eq_take]
    apply ext_getElem?
    intro i
    by_cases hi : i < text.length
    · rw [getElem?_take_of_lt hi, h i hi]
    · rw [getElem?_eq_none (by omega), getElem?_eq_none (by rw [length_take]; omega)]

theorem written_some {text : List UInt8} (hclosed : Closed text b)
    (hsize : 0 ≤ b.size ∧ b.size ≤ 65535 ∧ b.size + 1 ≤ b.bytes.length) {n : Int}
    (hn : n = text.length) : Written text ⟨n, some b⟩ := by
  refine ⟨hn, by simp, ?_, ?_⟩
  · rintro _ ⟨⟩
    exact hclosed
  · rintro _ ⟨⟩
    exact hsize

theorem closed_of_writes {text chars : List UInt8} (h : Room text len b)
    (hlen : len = chars.length) :
    ∃ b' b'', write b (text.length + len) [0] = some b' ∧ write b' text.length chars = some b'' ∧
      Closed (text ++ chars) b'' ∧ b''.size = b.size ∧ b''.bytes.length = b.bytes.length := by
  subst hlen
  have hroom := h.room
  obtain ⟨b', hnul, hsize, hlength, hframe, hat⟩ :=
    write_frame b (text.length + chars.length) [0] (by rw [length_singleton]; omega)
  obtain ⟨b'', hchars, hsize', hlength', hframe', hat'⟩ :=
    write_frame b' text.length chars (by omega)
  refine ⟨b', b'', by rw [← hnul, Int.natCast_add], hchars, ?_, hsize'.trans hsize,
    hlength'.trans hlength⟩
  rw [Closed, prefix_iff]
  intro i hi
  rw [length_append, length_append, length_singleton] at hi
  by_cases htext : i < text.length
  · rw [hframe' i (.inl htext), hframe i (.inl (by omega)), append_assoc,
      getElem?_append_left htext]
    exact prefix_iff.mp h.starts i htext
  · obtain ⟨j, rfl⟩ := Nat.exists_eq_add_of_le (by omega : text.length ≤ i)
    rw [append_assoc, getElem?_append_right (by omega), Nat.add_sub_cancel_left]
    by_cases hj : j < chars.length
    · rw [hat' j hj, getElem?_append_left hj]
    · obtain rfl : j = chars.length := by omega
      rw [hframe' _ (.inr (Nat.le_refl _)), getElem?_append_right (Nat.le_refl _)]
      simpa using hat 0 (by simp)

/-! ## What is added to the buffer -/

/-- The function adds the piece to the text of the buffer, or the buffer overflows. -/
def Adds (f : outbuffer_t → Outcome outbuffer_t) (piece : List UInt8) : Prop :=
  ∀ text obuff, Written text obuff → text.length + piece.length < 1073741824 →
    (f obuff = .error .ERR_BUFF_OVERFLOW ∧ 65535 < text.length + piece.length) ∨
      ∃ obuff', f obuff = .ok obuff' ∧ Written (text ++ piece) obuff'

theorem Adds.nothing : Adds .ok [] := fun text obuff h _ =>
  .inr ⟨obuff, rfl, (append_nil text).symm ▸ h⟩

theorem Adds.andThen {f g : outbuffer_t → Outcome outbuffer_t} {p q : List UInt8}
    (hf : Adds f p) (hg : Adds g q) : Adds (fun obuff => f obuff >>= g) (p ++ q) := by
  intro text obuff h hsmall
  beta_reduce
  rw [length_append] at hsmall ⊢
  obtain ⟨herror, hover⟩ | ⟨next, hok, hnext⟩ := hf text obuff h (by omega)
  · exact .inl ⟨by rw [herror]; rfl, by omega⟩
  · obtain ⟨herror, hover⟩ | ⟨obuff', hok', h'⟩ := hg _ next hnext
      (by rw [length_append]; omega)
    · rw [length_append] at hover
      exact .inl ⟨by rw [hok]; exact herror, by omega⟩
    · exact .inr ⟨obuff', by rw [hok]; exact hok', by rwa [append_assoc] at h'⟩

theorem add_pad_adds (fresh : Nat → UInt8) {pad : Option pad_info_t} (hpad : Pads pad cs)
    (hlen : 0 ≤ len) : Adds (fun obuff => add_pad fresh obuff pad len) (repeated cs len.toNat) := by
  intro text obuff h hsmall
  beta_reduce
  have hlength : len = (repeated cs len.toNat).length := by
    rw [repeated_length hpad.ne_nil]
    omega
  obtain ⟨herror, hover⟩ | ⟨b, hok, hb⟩ := extend_spec fresh h hlen (by omega)
  · exact .inl ⟨by rw [add_pad, herror]; rfl, by omega⟩
  · obtain ⟨b', b'', hnul, hchars, hclosed, hsize, hbytes⟩ := closed_of_writes hb hlength
    refine .inr ⟨⟨int32 (text.length + len), some b''⟩, ?_, written_some hclosed ?_ ?_⟩
    · rw [add_pad, hok]
      simp [bind, Except.bind, hnul, inside, hpad.text len hlen, hchars]
    · rw [hsize, hbytes]
      exact hb.size
    · rw [length_append, int32_eq (by omega) (by omega)]
      omega

theorem add_nstr_adds (fresh : Nat → UInt8) {str : List UInt8} (hlen : 0 ≤ len)
    (hstr : len ≤ str.length) :
    Adds (fun obuff => add_nstr fresh obuff str len) (str.take len.toNat) := by
  intro text obuff h hsmall
  beta_reduce
  have hlength : len = (str.take len.toNat).length := by
    rw [length_take]
    omega
  obtain ⟨herror, hover⟩ | ⟨b, hok, hb⟩ := extend_spec fresh h hlen (by omega)
  · exact .inl ⟨by rw [add_nstr, herror]; rfl, by omega⟩
  · have hroom := hb.room
    obtain ⟨b', hchars, hsize, hbytes, hstarts⟩ := write_spec hb.starts (str.take len.toNat)
      (by omega)
    obtain ⟨b'', hnul, hsize', hbytes', hclosed⟩ := write_spec hstarts [0]
      (by rw [length_append, length_singleton]; omega)
    have hsum : int32 (text.length + len) = text.length + len := int32_eq (by omega) (by omega)
    have hend : ((text ++ str.take len.toNat).length : Int) = text.length + len := by
      rw [length_append]
      omega
    refine .inr ⟨⟨text.length + len, some b''⟩, ?_, written_some hclosed ?_ hend.symm⟩
    · rw [hend] at hnul
      rw [add_nstr, hok]
      simp [bind, Except.bind, if_pos (And.intro hlen hstr), inside, hchars, hsum, hnul]
    · rw [hsize', hsize, hbytes', hbytes]
      exact hb.size

/-! ## Fields -/

/-- The pad characters in front of a text that leaves a gap in its field. -/
def before (finfo : UInt32) (gap : Nat) : Nat :=
  if finfo &&& INFO_J = INFO_J_LEFT then 0
  else if finfo &&& INFO_J = INFO_J_CENTRE then gap / 2 + gap % 2
  else gap

def behind (finfo : UInt32) (trailing : Bool) (gap : Nat) : Nat :=
  if finfo &&& INFO_J = INFO_J_LEFT then if trailing then gap else 0
  else if finfo &&& INFO_J = INFO_J_CENTRE then if trailing then gap / 2 else 0
  else 0

def field (cs text : List UInt8) (fs : Int) (finfo : UInt32) (trailing : Bool) : List UInt8 :=
  repeated cs (before finfo (fs - text.length).toNat) ++ text ++
    repeated cs (behind finfo trailing (fs - text.length).toNat)

theorem repeated_zero (cs : List UInt8) : repeated cs 0 = [] := rfl

theorem add_justified_adds (fresh : Nat → UInt8) {pad : Option pad_info_t} (hpad : Pads pad cs)
    {str : List UInt8} {slen fs : Int} (hslen : 0 ≤ slen) (hstr : slen ≤ str.length)
    (hlong : slen < 2147483648) (hfs : 0 ≤ fs) (hfs' : fs < 2147483648) (finfo : UInt32)
    (trailing : Bool) :
    Adds (fun obuff => add_justified fresh obuff str slen pad fs finfo trailing)
      (field cs (str.take slen.toNat) fs finfo trailing) := by
  have hlength : ((str.take slen.toNat).length : Int) = slen := by
    rw [length_take]
    omega
  have hgap : int32 (fs - slen) = fs - slen := int32_eq (by omega) (by omega)
  have htext := add_nstr_adds fresh hslen hstr
  simp only [field, hlength, add_justified, hgap]
  by_cases hfit : fs - slen ≤ 0
  · have hzero : (fs - slen).toNat = 0 := by omega
    simpa [hfit, hzero, before, behind, repeated_zero] using htext
  · obtain ⟨gap, hrest⟩ := Int.eq_ofNat_of_zero_le (by omega : 0 ≤ fs - slen)
    have hfirst : (gap : Int) / 2 + gap % 2 = (gap / 2 + gap % 2 : Nat) := by omega
    have hlast : (gap : Int) - (gap / 2 + gap % 2 : Nat) = (gap / 2 : Nat) := by omega
    have hpadding : ∀ n : Nat, Adds (fun obuff => add_pad fresh obuff pad n) (repeated cs n) :=
      fun n => by simpa using add_pad_adds fresh hpad (Int.natCast_nonneg n)
    rw [hrest] at hfit
    simp only [hrest, if_neg hfit, before, behind, hfirst, hlast, Int.toNat_natCast]
    split_ifs
    · rw [repeated_zero, nil_append]
      exact htext.andThen (hpadding gap)
    · rw [repeated_zero, nil_append]
      exact htext.andThen .nothing
    · rw [append_assoc]
      exact (hpadding _).andThen (htext.andThen (hpadding _))
    · rw [append_assoc]
      exact (hpadding _).andThen (htext.andThen .nothing)
    · rw [repeated_zero, append_nil]
      exact (hpadding gap).andThen htext

theorem before_add_behind (finfo : UInt32) (gap : Nat) :
    before finfo gap + behind finfo true gap = gap := by
  simp only [before, behind, if_pos]
  split_ifs <;> omega

theorem length_field (h : cs ≠ []) (text : List UInt8) (fs : Int) (finfo : UInt32) :
    (field cs text fs finfo true).length = max fs.toNat text.length := by
  have hgap := before_add_behind finfo (fs - text.length).toNat
  rw [field, length_append, length_append, repeated_length h, repeated_length h]
  omega

theorem field_of_le (cs : List UInt8) {text : List UInt8} {fs : Int} (h : fs ≤ text.length)
    (finfo : UInt32) (trailing : Bool) : field cs text fs finfo trailing = text := by
  have hzero : (fs - text.length).toNat = 0 := by omega
  simp [field, hzero, before, behind, repeated_zero]

/-! ## Columns -/

def column (text : List UInt8) : Nat := (text.reverse.takeWhile (· ≠ 10)).length

theorem column_append {text more : List UInt8} (h : 10 ∉ more) :
    column (text ++ more) = column text + more.length := by
  have hall : ∀ c ∈ more.reverse, decide (c ≠ 10) = true := fun c hc =>
    decide_eq_true fun h10 => h (h10 ▸ mem_reverse.mp hc)
  rw [column, reverse_append, takeWhile_append_of_pos hall, length_append,
    length_reverse, column]
  omega

theorem column_newline (text : List UInt8) : column (text ++ [10]) = 0 := by simp [column]

theorem take_succ_of_prefix {text : List UInt8} (h : text <+: bytes) (hn : n < text.length) :
    ∃ c, bytes[n]? = some c ∧ text.take (n + 1) = text.take n ++ [c] := by
  refine ⟨text[n], ?_, take_succ_eq_append_getElem hn⟩
  rw [prefix_iff.mp h n hn, getElem?_eq_getElem hn]

theorem line_break_spec {text : List UInt8} (h : text <+: bytes) (hn : n < text.length) :
    line_break bytes n ≤ n ∧ column (text.take (n + 1)) =
      if bytes[line_break bytes n]? ≠ some 10 then n - line_break bytes n + 1
      else n - line_break bytes n := by
  induction n with
  | zero =>
    obtain ⟨c, hc, htake⟩ := take_succ_of_prefix h hn
    refine ⟨Nat.le_refl _, ?_⟩
    rw [htake, take_zero, line_break, hc]
    by_cases h10 : c = 10
    · subst h10
      simp [column]
    · simp [column, h10]
  | succ n ih =>
    obtain ⟨c, hc, htake⟩ := take_succ_of_prefix h hn
    obtain ⟨hle, hcolumn⟩ := ih (by omega)
    rw [htake]
    by_cases h10 : c = 10
    · subst h10
      have hstop : line_break bytes (n + 1) = n + 1 := by simp [line_break, hc]
      rw [column_newline, hstop, hc]
      simp
    · have hback : line_break bytes (n + 1) = line_break bytes n := by simp [line_break, hc, h10]
      rw [column_append (by simpa using Ne.symm h10), hcolumn, hback, length_singleton]
      refine ⟨by omega, ?_⟩
      split_ifs <;> omega

theorem get_curpos_spec {text : List UInt8} (h : Written text obuff)
    (hsome : obuff.buffer = none ∨ text ≠ []) : get_curpos obuff = some (column text : Int) := by
  unfold get_curpos
  cases hbuffer : obuff.buffer with
  | none =>
    rw [h.empty hbuffer]
    rfl
  | some b =>
    have hpos : 0 < text.length := by
      rcases hsome with hnone | hne
      · simp [hbuffer] at hnone
      · exact length_pos_iff.mpr hne
    obtain ⟨hle, hcolumn⟩ := line_break_spec (h.starts hbuffer) (n := text.length - 1) (by omega)
    rw [show text.length - 1 + 1 = text.length by omega, take_length] at hcolumn
    have hlast : (obuff.real_size - 1).toNat = text.length - 1 := by
      rw [h.real_size]
      omega
    simp only [h.real_size] at hlast ⊢
    simp only [if_neg (show ¬(text.length : Int) - 1 < 0 by omega), hlast]
    split_ifs at hcolumn ⊢ with hten
    · rw [hcolumn]
      congr 1
      omega
    · rw [hcolumn]
      congr 1
      omega

/-! ## The fields of a line -/

structure field_t where
  str : List UInt8
  slen : Int
  pad : pad_info_t
  fs : Int
  finfo : UInt32
  trailing : Bool

namespace field_t

def text (f : field_t) : List UInt8 := f.str.take f.slen.toNat

/-- The length is one of the text and an `int`, and the field width is not negative. -/
structure Valid (f : field_t) : Prop where
  slen : 0 ≤ f.slen ∧ f.slen ≤ f.str.length
  int : f.slen < 2147483648 ∧ f.fs < 2147483648
  fs : 0 ≤ f.fs
  pad : Named f.pad

def written (f : field_t) : List UInt8 := field f.pad.chars f.text f.fs f.finfo f.trailing

def width (f : field_t) : Nat := max f.fs.toNat f.text.length

/-- The text stands between two parts of the repeated pad characters, which fill the field
where the pad behind the text is written, and alone where it is as long as the field. -/
structure Justified (f : field_t) : Prop where
  split : f.written =
    repeated f.pad.chars (before f.finfo (f.fs - f.text.length).toNat) ++ f.text ++
      repeated f.pad.chars (behind f.finfo f.trailing (f.fs - f.text.length).toNat)
  long : f.fs ≤ f.text.length → f.written = f.text
  width : f.trailing = true → f.written.length = f.width

theorem Valid.justified {f : field_t} (h : f.Valid) : f.Justified := by
  refine ⟨rfl, fun hle => field_of_le _ hle _ _, fun htrailing => ?_⟩
  rw [written, htrailing, length_field h.pad.ne_nil, field_t.width]

end field_t

def add_field (fresh : Nat → UInt8) (obuff : outbuffer_t) (f : field_t) : Outcome outbuffer_t :=
  add_justified fresh obuff f.str f.slen (some f.pad) f.fs f.finfo f.trailing

theorem add_field_adds (fresh : Nat → UInt8) {f : field_t} (h : f.Valid) :
    Adds (fun obuff => add_field fresh obuff f) f.written :=
  add_justified_adds fresh h.pad.pads h.slen.1 h.slen.2 h.int.1 h.fs h.int.2 f.finfo f.trailing

def line (fields : List field_t) : List UInt8 := fields.flatMap field_t.written

theorem add_fields_adds (fresh : Nat → UInt8) {fields : List field_t}
    (h : ∀ f ∈ fields, f.Valid) :
    Adds (fun obuff => fields.foldlM (add_field fresh) obuff) (line fields) := by
  induction fields with
  | nil => exact .nothing
  | cons f fields ih =>
    obtain ⟨hf, hfields⟩ := forall_mem_cons.mp h
    simp only [foldlM_cons, line, flatMap_cons]
    exact (add_field_adds fresh hf).andThen (ih hfields)

theorem column_line (text : List UInt8) {fields : List field_t} (h : ∀ f ∈ fields, f.Valid)
    (hline : ∀ f ∈ fields, f.trailing = true ∧ 10 ∉ f.written) :
    column (text ++ line fields) = column text + (fields.map field_t.width).sum := by
  induction fields generalizing text with
  | nil => simp [line]
  | cons f fields ih =>
    obtain ⟨hf, hfields⟩ := forall_mem_cons.mp h
    obtain ⟨⟨htrailing, hten⟩, hline⟩ := forall_mem_cons.mp hline
    have hrest := ih (text ++ f.written) hfields hline
    rw [column_append hten, hf.justified.width htrailing, append_assoc] at hrest
    simpa only [line, flatMap_cons, map_cons, sum_cons, Nat.add_assoc] using hrest

/-- Consecutive fields are written one behind the other, each one justified, and each one
starts at the column that the widths before it add up to; or the buffer overflows. -/
theorem fields_are_padded (fresh : Nat → UInt8) {text : List UInt8} {obuff : outbuffer_t}
    (h : Written text obuff) (fields : List field_t) (hfields : ∀ f ∈ fields, f.Valid)
    (hsmall : text.length + (line fields).length < 1073741824) :
    (fields.foldlM (add_field fresh) obuff = .error .ERR_BUFF_OVERFLOW ∧
        65535 < text.length + (line fields).length) ∨
      ∃ obuff', fields.foldlM (add_field fresh) obuff = .ok obuff' ∧
        Written (text ++ line fields) obuff' ∧
        (obuff'.buffer = none ∨ text ++ line fields ≠ [] →
          get_curpos obuff' = some (column (text ++ line fields) : Int)) ∧
        (∀ f ∈ fields, f.Justified) ∧
        ∀ pre f post, fields = pre ++ f :: post →
          (∀ g ∈ pre, g.trailing = true ∧ 10 ∉ g.written) →
            column (text ++ line pre) = column text + (pre.map field_t.width).sum := by
  obtain herror | ⟨obuff', hok, hwritten⟩ := add_fields_adds fresh hfields text obuff h hsmall
  · exact .inl herror
  · refine .inr ⟨obuff', hok, hwritten, get_curpos_spec hwritten,
      fun f hf => (hfields f hf).justified, ?_⟩
    rintro pre f post rfl hline
    exact column_line text (fun g hg => hfields g (mem_append_left _ hg)) hline

/-- A centred text between two signs of an escaped pad string, and a number behind it. -/
def two_fields : List field_t :=
  [⟨[97, 98], 2, ⟨[92, 42, 45, 39], 3⟩, 7, INFO_J_CENTRE, true⟩,
    ⟨[53], 1, zero_pad, 3, 0, true⟩]

theorem two_fields_valid : ∀ f ∈ two_fields, f.Valid := by
  have hquoted : quoted_pad [92, 42, 45, 39] = .ok ⟨[92, 42, 45, 39], 3⟩ := by decide
  have hcentred : (⟨[97, 98], 2, ⟨[92, 42, 45, 39], 3⟩, 7, INFO_J_CENTRE, true⟩ : field_t).Valid :=
    ⟨by decide, by decide, by decide, .quoted hquoted⟩
  have hnumber : (⟨[53], 1, zero_pad, 3, 0, true⟩ : field_t).Valid :=
    ⟨by decide, by decide, by decide, .zero⟩
  intro f hf
  obtain rfl | rfl : f = _ ∨ f = _ := by simpa [two_fields] using hf
  · exact hcentred
  · exact hnumber

theorem two_fields_are_padded :
    line two_fields = [42, 45, 42, 97, 98, 42, 45, 48, 48, 53] ∧
      ((two_fields.foldlM (add_field fun _ => 7) outbuf_zero = .error .ERR_BUFF_OVERFLOW ∧
          65535 < 0 + (line two_fields).length) ∨
        ∃ obuff', two_fields.foldlM (add_field fun _ => 7) outbuf_zero = .ok obuff' ∧
          Written ([] ++ line two_fields) obuff' ∧
          (obuff'.buffer = none ∨ [] ++ line two_fields ≠ [] →
            get_curpos obuff' = some (column ([] ++ line two_fields) : Int)) ∧
          (∀ f ∈ two_fields, f.Justified) ∧
          ∀ pre f post, two_fields = pre ++ f :: post →
            (∀ g ∈ pre, g.trailing = true ∧ 10 ∉ g.written) →
              column ([] ++ line pre) = column [] + (pre.map field_t.width).sum) :=
  ⟨by decide, fields_are_padded (fun _ => 7) written_zero two_fields two_fields_valid (by decide)⟩

/-- A field of 70000 characters behind a text is an error, and not a field. -/
theorem a_wide_field_is_not_written :
    Written [120] ⟨1, some ⟨1, [120, 0]⟩⟩ ∧
      (⟨[97], 1, no_pad, 70000, 0, true⟩ : field_t).Valid ∧
      ¬∃ obuff', add_field (fun _ => 0) ⟨1, some ⟨1, [120, 0]⟩⟩
          ⟨[97], 1, no_pad, 70000, 0, true⟩ = .ok obuff' := by
  have hclosed : Closed [120] ⟨1, [120, 0]⟩ := prefix_refl _
  refine ⟨written_some hclosed (by decide) rfl, ⟨by decide, by decide, by decide, .none⟩, ?_⟩
  have hextend : outbuf_extend (fun _ => 0) ⟨1, some ⟨1, [120, 0]⟩⟩ 69999 =
      some (⟨1, some ⟨stored_size 65535, (range 65536).map fun i =>
        (([120, 0] : List UInt8)[i]?).getD 0⟩⟩, 65534) := by
    simp only [outbuf_extend, grow, int32, extend_string, USHRT_MAX]
    rfl
  have herror := extend_of_short hextend (by decide)
  rintro ⟨obuff', hok⟩
  have hleft : ¬(0 : UInt32) &&& INFO_J = INFO_J_LEFT := by decide
  have hcentre : ¬(0 : UInt32) &&& INFO_J = INFO_J_CENTRE := by decide
  have hgap : int32 (70000 - 1) = 69999 := by decide
  simp only [add_field, add_justified, if_neg hleft, if_neg hcentre, hgap, add_pad,
    herror] at hok
  cases hok

end mudos.sprintf_pads
