-- The laws of the output buffers: what a buffer holds after any sequence of
-- additions is the first 65535 characters of what was added.
import MudOS.OutBuffers

namespace mudos.out_buffers

open ints runs List Option List

variable {b : malloc_block_t} {more : List UInt8} {outbuf : outbuffer_t}

/-! ## Blocks -/

/-- The block starts with the text, and the stored size says how many bytes it has. -/
structure Block (text : List UInt8) (b : malloc_block_t) : Prop where
  allocated : (b.bytes.length : Int) = b.size + 1
  largest : b.size ≤ 65535
  room : (text.length : Int) ≤ b.size
  starts : text <+: b.bytes

def Closed (text : List UInt8) (b : malloc_block_t) : Prop := text ++ [0] <+: b.bytes

theorem stored_size_eq {len : Int} (h : len ≤ 65535) : stored_size len = len := by
  unfold stored_size USHRT_MAX
  split <;> omega

theorem new_string_spec (fresh : Nat → UInt8) {size : Int} (h : 0 ≤ size) (h' : size ≤ 65535) :
    ∃ b, new_string fresh size = some b ∧ Block [] b ∧ b.size = size := by
  refine ⟨_, if_neg (by omega), ⟨?_, ?_, ?_, nil_prefix⟩, stored_size_eq h'⟩
  · simp only [length_map, length_range, stored_size_eq h']
    omega
  · simp [stored_size_eq h', h']
  · rwa [length_nil, stored_size_eq h']

theorem extend_string_prefix (fresh : Nat → UInt8) {text : List UInt8} (h : text <+: b.bytes)
    {n : Nat} (hn : text.length ≤ n) :
    text <+: (range n).map fun i => (b.bytes[i]?).getD (fresh i) := by
  obtain ⟨rest, hrest⟩ := h
  rw [prefix_iff_eq_take]
  apply ext_getElem (by simp [hn])
  intro i hi _
  simp [← hrest, getElem?_append_left hi, hi]

theorem extend_string_spec (fresh : Nat → UInt8) {text : List UInt8} (h : text <+: b.bytes)
    {len : Int} (hlen : (text.length : Int) ≤ len) (hmax : len ≤ 65535) :
    ∃ b', extend_string fresh b len = some b' ∧ Block text b' ∧ b'.size = len := by
  refine ⟨_, if_neg (by omega), ⟨?_, ?_, ?_, extend_string_prefix fresh h (by omega)⟩,
    stored_size_eq hmax⟩
  · simp only [length_map, length_range, stored_size_eq hmax]
    omega
  · simp [stored_size_eq hmax, hmax]
  · simpa only [stored_size_eq hmax] using hlen

theorem write_spec {text : List UInt8} (h : text <+: b.bytes) (more : List UInt8)
    (hroom : text.length + more.length ≤ b.bytes.length) :
    ∃ b', write b text.length more = some b' ∧ b'.size = b.size ∧
      b'.bytes.length = b.bytes.length ∧ text ++ more <+: b'.bytes := by
  refine ⟨_, if_pos ⟨by omega, by omega⟩, rfl, ?_, ?_⟩
  · simp only [Int.toNat_natCast, length_append, length_take, length_drop]
    omega
  · rw [Int.toNat_natCast, ← prefix_iff_eq_take.mp h]
    exact prefix_append _ _

theorem Block.closed {text : List UInt8} {b' : malloc_block_t} (h : Block text b)
    (hroom : ((text ++ more).length : Int) ≤ b.size) (hsize : b'.size = b.size)
    (hlen : b'.bytes.length = b.bytes.length) (hstarts : text ++ more ++ [0] <+: b'.bytes) :
    Block (text ++ more) b' ∧ Closed (text ++ more) b' :=
  ⟨⟨by rw [hlen, hsize, h.allocated], hsize ▸ h.largest, hsize ▸ hroom,
    (prefix_append _ _).trans hstarts⟩, hstarts⟩

theorem strcpy_spec {text : List UInt8} (h : Block text b)
    (hroom : (text.length : Int) + more.length ≤ b.size) :
    ∃ b', strcpy b text.length more = some b' ∧ Block (text ++ more) b' ∧
      Closed (text ++ more) b' := by
  have hallocated := h.allocated
  obtain ⟨b', hwrite, hsize, hlen, hstarts⟩ :=
    write_spec h.starts (more ++ [0])
      (by rw [length_append, length_singleton]; omega)
  rw [← append_assoc] at hstarts
  exact ⟨b', hwrite, h.closed (by rw [length_append]; omega) hsize hlen hstarts⟩

theorem write_write_spec {text : List UInt8} (h : Block text b) (more : List UInt8)
    (hroom : (text.length : Int) + more.length ≤ b.size) :
    ∃ b' b'', write b text.length more = some b' ∧
      write b' (text.length + more.length : Int) [0] = some b'' ∧ Block (text ++ more) b'' ∧
      Closed (text ++ more) b'' := by
  have hallocated := h.allocated
  obtain ⟨b', hwrite, hsize, hlen, hstarts⟩ := write_spec h.starts more (by omega)
  obtain ⟨b'', hwrite', hsize', hlen', hstarts'⟩ := write_spec hstarts [0]
    (by rw [length_append, length_singleton]; omega)
  rw [length_append, Int.natCast_add] at hwrite'
  exact ⟨b', b'', hwrite, hwrite', h.closed (by rw [length_append]; omega)
    (hsize'.trans hsize) (hlen'.trans hlen) hstarts'⟩

/-! ## The growth -/

/-- The buffer has the text at its start, and a full buffer its NUL. -/
structure Fits (text : List UInt8) (outbuf : outbuffer_t) : Prop where
  real_size : outbuf.real_size = text.length
  short : text.length ≤ 65535
  empty : outbuf.buffer = none → text = []
  block : ∀ b, outbuf.buffer = some b → Block text b
  full : ∀ b, outbuf.buffer = some b → text.length = 65535 → Closed text b

/-- What the growth for `l` characters comes to in a buffer with the text. -/
inductive Grown (text : List UInt8) (l : Int) : room_t → Prop
  | full : text.length = 65535 → Grown text l .full
  | cut {b : malloc_block_t} : Block text b → b.size = 65535 → text.length < 65535 →
      65535 < text.length + l → Grown text l (.cut b)
  | fits {b : malloc_block_t} : Block text b → text.length + l ≤ b.size →
      Grown text l (.fits text.length b)

theorem grow_spec (fresh : Nat → UInt8) {text : List UInt8} (h : Fits text outbuf) (l first : Int)
    (hl : 0 ≤ l) (hshort : l < 1073676289)
    (hfirst : outbuf.buffer = none → l ≤ first ∧ first ≤ 65535) :
    ∃ r, grow fresh outbuf l first = some r ∧ Grown text l r := by
  have hlen := h.short
  unfold grow USHRT_MAX
  cases hbuffer : outbuf.buffer with
  | none =>
    obtain ⟨hroom, hlargest⟩ := hfirst hbuffer
    obtain ⟨b, hnew, hb, hsize⟩ := new_string_spec fresh (Int.le_trans hl hroom) hlargest
    obtain rfl := h.empty hbuffer
    refine ⟨.fits 0 b, by simp only [hnew, map_some], .fits hb ?_⟩
    rw [hsize, length_nil]
    omega
  | some b =>
    have hb := h.block b hbuffer
    have hsum : int32 (text.length + l) = text.length + l := int32_eq (by omega) (by omega)
    have hdouble : int32 ((text.length + l) * 2) = (text.length + l) * 2 :=
      int32_eq (by omega) (by omega)
    simp only [h.real_size, hsum, hdouble]
    split
    · split
      · exact ⟨.full, rfl, .full (by omega)⟩
      · split
        · split
          · obtain ⟨b', hext, hb', hsize⟩ := extend_string_spec fresh hb.starts
              (by omega : (text.length : Int) ≤ 65535) (by omega)
            exact ⟨.cut b', by simp only [hext, map_some],
              .cut hb' hsize (by omega) (by omega)⟩
          · obtain ⟨b', hext, hb', hsize⟩ := extend_string_spec fresh hb.starts
              (by omega : (text.length : Int) ≤ text.length + l) (by omega)
            exact ⟨.fits text.length b', by simp only [hext, map_some],
              .fits hb' (by omega)⟩
        · obtain ⟨b', hext, hb', hsize⟩ := extend_string_spec fresh hb.starts
            (by omega : (text.length : Int) ≤ (text.length + l) * 2) (by omega)
          exact ⟨.fits text.length b', by simp only [hext, map_some],
            .fits hb' (by omega)⟩
    · exact ⟨.fits text.length b, rfl, .fits hb (by omega)⟩

/-! ## The additions -/

def held (text : List UInt8) : List UInt8 := text.take 65535

def Filled (text : List UInt8) (outbuf : outbuffer_t) : Prop :=
  ∃ b, outbuf = ⟨text.length, some b⟩ ∧ Block text b ∧ Closed text b

theorem Filled.fits {text : List UInt8} {outbuf : outbuffer_t} (h : Filled text outbuf)
    (hshort : text.length ≤ 65535) : Fits text outbuf := by
  obtain ⟨b, rfl, hb, hclosed⟩ := h
  refine ⟨rfl, hshort, by simp, ?_, ?_⟩
  · rintro _ ⟨⟩
    exact hb
  · rintro _ ⟨⟩ _
    exact hclosed

theorem take_full {text : List UInt8} (h : text.length = 65535) :
    (text ++ more).take 65535 = text := by rw [← h, take_left]

theorem Fits.filled {text : List UInt8} (h : Fits text outbuf) (hfull : text.length = 65535) :
    Filled (held (text ++ more)) outbuf := by
  rw [held, take_full hfull]
  cases hbuffer : outbuf.buffer with
  | none => simp [h.empty hbuffer] at hfull
  | some b =>
    refine ⟨b, ?_, h.block b hbuffer, h.full b hbuffer hfull⟩
    rw [← h.real_size, ← hbuffer]

theorem outbuf_add_spec (fresh : Nat → UInt8) {text str : List UInt8} (h : Fits text outbuf)
    (hshort : str.length < 1073676289) (hfirst : outbuf.buffer = none → str.length ≤ 65535) :
    ∃ outbuf', outbuf_add fresh outbuf str = some outbuf' ∧
      Filled (held (text ++ str)) outbuf' := by
  have hl : int32 str.length = str.length := int32_eq (by omega) (by omega)
  obtain ⟨r, hgrow, hr⟩ := grow_spec fresh h str.length str.length (by omega)
    (by omega) fun hb => ⟨Int.le_refl _, by have := hfirst hb; omega⟩
  unfold outbuf_add USHRT_MAX
  simp only [hl, hgrow]
  cases hr with
  | full hfull => exact ⟨outbuf, rfl, h.filled hfull⟩
  | @cut b hb hsize _ hover =>
    -- the text fills the block up to its last character
    have hcut : int32 (65535 - text.length) = 65535 - text.length :=
      int32_eq (by omega) (by omega)
    have htaken : (str ++ replicate ((65535 - text.length : Int).toNat - str.length) 0).take
        (65535 - text.length : Int).toNat = str.take (65535 - text.length) := by
      rw [show (65535 - text.length : Int).toNat = 65535 - text.length by omega,
        show 65535 - text.length - str.length = 0 by omega]
      simp
    have htext : held (text ++ str) = text ++ str.take (65535 - text.length) := by
      rw [held, take_append, take_of_length_le h.short]
    have hlength : text.length + (str.take (65535 - text.length)).length = 65535 := by
      rw [length_take]
      omega
    obtain ⟨b', b'', hwrite, hnul, hb'', hclosed⟩ := write_write_spec hb
      (str.take (65535 - text.length)) (by omega)
    rw [show (text.length : Int) + (str.take (65535 - text.length)).length = 65535 by omega]
      at hnul
    rw [htext]
    refine ⟨⟨65535, some b''⟩, ?_, b'', ?_, hb'', hclosed⟩
    · simp only [bind_eq_bind, bind_some, strncpy, h.real_size, hcut, htaken,
        if_neg (show ¬(65535 - text.length : Int) < 0 by omega), hwrite, hnul]
    · rw [length_append, hlength]
      rfl
  | @fits b hb hroom =>
    obtain ⟨b', hcopy, hb', hclosed⟩ := strcpy_spec hb hroom
    have hall : held (text ++ str) = text ++ str := by
      have := hb.largest
      exact take_of_length_le (by rw [length_append]; omega)
    rw [hall]
    refine ⟨⟨text.length + str.length, some b'⟩, ?_, b', ?_, hb', hclosed⟩
    · have := hb.largest
      simp only [bind_eq_bind, bind_some, hcopy]
      rw [int32_eq (by omega) (by omega)]
    · rw [length_append, Int.natCast_add]

theorem outbuf_addchar_spec (fresh : Nat → UInt8) {text : List UInt8} (c : UInt8)
    (h : Fits text outbuf) :
    ∃ outbuf', outbuf_addchar fresh outbuf c = some outbuf' ∧
      Filled (held (text ++ [c])) outbuf' := by
  obtain ⟨r, hgrow, hr⟩ := grow_spec fresh h 1 80 (by omega) (by omega)
    fun _ => ⟨by omega, by omega⟩
  unfold outbuf_addchar
  rw [hgrow]
  cases hr with
  | full hfull => exact ⟨outbuf, rfl, h.filled hfull⟩
  | cut _ _ hless hover => omega
  | @fits b hb hroom =>
    obtain ⟨b', b'', hwrite, hnul, hb'', hclosed⟩ := write_write_spec hb [c]
      (by simpa using hroom)
    have hlargest := hb.largest
    have hall : held (text ++ [c]) = text ++ [c] :=
      take_of_length_le (by rw [length_append, length_singleton]; omega)
    have hone : (text.length : Int) + [c].length = text.length + 1 := rfl
    have hsum : int32 (text.length + 1) = text.length + 1 := int32_eq (by omega) (by omega)
    rw [hone] at hnul
    rw [hall]
    refine ⟨⟨text.length + 1, some b''⟩, ?_, b'', ?_, hb'', hclosed⟩
    · simp [hwrite, hsum, hnul]
    · rw [length_append, Int.natCast_add, hone]

/-- What the additions are made of: C strings that are no larger than an `int` can count, and
that the array of `outbuf_addv` has room for. -/
def addition.Text : addition → Prop
  | .outbuf_add str => 0 ∉ str ∧ str.length < 1073676289
  | .outbuf_addv text => 0 ∉ text ∧ text.length ≤ LARGEST_PRINTABLE_STRING
  | .outbuf_addchar c => c ≠ 0

theorem addition.Text.not_mem {a : addition} (h : a.Text) : 0 ∉ a.text := by
  cases a with
  | outbuf_add str => exact h.1
  | outbuf_addv text => exact h.1
  | outbuf_addchar c =>
    rw [addition.text, mem_singleton]
    exact Ne.symm h

/-- A text that is added without a buffer is its first text, and no part of it is cut. -/
def First (start : outbuffer_t) (adds : List addition) : Prop :=
  start.buffer = none → ∀ str rest, adds = .outbuf_add str :: rest → str.length ≤ 65535

theorem add_spec (fresh : Nat → UInt8) {text : List UInt8} (h : Fits text outbuf) {a : addition}
    (ha : a.Text) (adds : List addition) (hfirst : First outbuf (a :: adds)) :
    ∃ outbuf', add fresh outbuf a = some outbuf' ∧ Filled (held (text ++ a.text)) outbuf' := by
  cases a with
  | outbuf_add str => exact outbuf_add_spec fresh h ha.2 fun hb => hfirst hb str adds rfl
  | outbuf_addv text =>
    have hshort : text.length ≤ 8192 := ha.2
    simp only [add, outbuf_addv, addition.text, LARGEST_PRINTABLE_STRING]
    rw [if_neg (by omega)]
    exact outbuf_add_spec fresh h (by omega) fun _ => by omega
  | outbuf_addchar c => exact outbuf_addchar_spec fresh c h

theorem held_held (text more : List UInt8) : held (held text ++ more) = held (text ++ more) := by
  simp only [held, take_append, take_take, length_take, Nat.min_self]
  by_cases h : text.length ≤ 65535
  · rw [Nat.min_eq_right h]
  · rw [Nat.min_eq_left (by omega), show 65535 - text.length = 65535 - 65535 by omega]

theorem held_length (text : List UInt8) : (held text).length ≤ 65535 := by
  rw [held, length_take]
  exact Nat.min_le_left _ _

def texts (adds : List addition) : List UInt8 := adds.flatMap addition.text

theorem run_filled (fresh : Nat → UInt8) {adds : List addition} (hadds : ∀ a ∈ adds, a.Text)
    {text : List UInt8} (h : Filled (held text) outbuf) :
    ∃ outbuf', run (add fresh) outbuf adds = some outbuf' ∧
      Filled (held (text ++ texts adds)) outbuf' := by
  induction adds generalizing text outbuf with
  | nil => exact ⟨outbuf, rfl, by simpa [texts] using h⟩
  | cons a adds ih =>
    obtain ⟨ha, hadds⟩ := forall_mem_cons.mp hadds
    obtain ⟨next, hadd, hnext⟩ := add_spec fresh (h.fits (held_length text)) ha adds
      (by obtain ⟨b, rfl, -⟩ := h; simp [First])
    rw [held_held] at hnext
    obtain ⟨outbuf', hrun, hfilled⟩ := ih hadds hnext
    refine ⟨outbuf', by rw [run, hadd, bind_some, hrun], ?_⟩
    rwa [append_assoc] at hfilled

/-! ## The start and the end -/

/-- A buffer without a block, or one that room for no character was made in. -/
inductive Start (fresh : Nat → UInt8) : outbuffer_t → Prop
  | zero : Start fresh outbuf_zero
  | created {outbuf : outbuffer_t} :
      outbuf_extend fresh outbuf_zero 0 = some (outbuf, 0) → Start fresh outbuf

theorem created_block {fresh : Nat → UInt8}
    (h : outbuf_extend fresh outbuf_zero 0 = some (outbuf, 0)) :
    ∃ b, outbuf = ⟨0, some b⟩ ∧ Block [] b := by
  obtain ⟨b, hnew, hb, -⟩ := new_string_spec fresh (Int.le_refl 0) (by decide)
  simp only [outbuf_extend, grow, outbuf_zero, hnew] at h
  obtain ⟨rfl, -⟩ := by simpa using h
  exact ⟨b, rfl, hb⟩

theorem Start.zero_fits : Fits [] outbuf_zero :=
  ⟨rfl, by simp, fun _ => rfl, by simp [outbuf_zero], by simp⟩

theorem Start.fits {fresh : Nat → UInt8} {outbuf : outbuffer_t} (h : Start fresh outbuf) :
    Fits [] outbuf := by
  cases h with
  | zero => exact zero_fits
  | created h =>
    obtain ⟨b, rfl, hb⟩ := created_block h
    refine ⟨rfl, by simp, by simp, ?_, by simp⟩
    rintro _ ⟨⟩
    exact hb

def strlen (bytes : List UInt8) : Nat := (bytes.takeWhile (· ≠ 0)).length

/-- The bytes of the block are the text and its NUL, and its stored size is its `strlen`. -/
structure Exact (text : List UInt8) (b : malloc_block_t) : Prop where
  bytes : b.bytes = text ++ [0]
  size : b.size = strlen b.bytes

def string_t.Exact (text : List UInt8) : string_t → Prop
  | .STRING_MALLOC string => out_buffers.Exact text string
  | .STRING_CONSTANT string => string = text

/-- The buffer holds the text, and both ends of its use make a string of it. -/
structure Holds (fresh : Nat → UInt8) (text : List UInt8) (outbuf : outbuffer_t) : Prop where
  buffer : outbuf = outbuf_zero ∧ text = [] ∨ Filled text outbuf
  fixed : ∃ fixed, outbuf_fix fresh outbuf = some fixed ∧ fixed.real_size = text.length ∧
    ∀ b, fixed.buffer = some b → Exact text b
  pushed : ∃ string, outbuf_push fresh outbuf = some string ∧ string.Exact text

theorem strlen_text {text : List UInt8} (h : 0 ∉ text) : strlen (text ++ [0]) = text.length := by
  have hall : ∀ c ∈ text, decide (c ≠ 0) = true := fun c hc => decide_eq_true fun h0 => h (h0 ▸ hc)
  rw [strlen, takeWhile_append_of_pos hall]
  simp

theorem extend_string_exact (fresh : Nat → UInt8) {text : List UInt8} (h : 0 ∉ text)
    (hb : Block text b) (hclosed : Closed text b) :
    ∃ b', extend_string fresh b text.length = some b' ∧ Exact text b' := by
  have hroom := hb.room
  have hlargest := hb.largest
  refine ⟨_, if_neg (by omega), ?_⟩
  have hbytes : (range (text.length + 1)).map (fun i => (b.bytes[i]?).getD (fresh i)) =
      text ++ [0] := by
    have hstarts := extend_string_prefix (n := text.length + 1) fresh hclosed (by simp)
    exact (hstarts.eq_of_length (by simp)).symm
  refine ⟨hbytes, ?_⟩
  simp only [Int.toNat_natCast, hbytes, strlen_text h]
  exact stored_size_eq (by omega)

theorem holds_zero (fresh : Nat → UInt8) : Holds fresh [] outbuf_zero :=
  ⟨.inl ⟨rfl, rfl⟩, ⟨outbuf_zero, rfl, rfl, by simp [outbuf_zero]⟩, ⟨.STRING_CONSTANT [], rfl, rfl⟩⟩

theorem Filled.holds (fresh : Nat → UInt8) {text : List UInt8} (hzero : 0 ∉ text)
    (h : Filled text outbuf) : Holds fresh text outbuf := by
  obtain ⟨b, rfl, hb, hclosed⟩ := h
  obtain ⟨b', hext, hexact⟩ := extend_string_exact fresh hzero hb hclosed
  refine ⟨.inr ⟨b, rfl, hb, hclosed⟩, ⟨⟨text.length, some b'⟩, ?_, rfl, ?_⟩,
    ⟨.STRING_MALLOC b', ?_, hexact⟩⟩
  · simp [outbuf_fix, hext]
  · rintro _ ⟨⟩
    exact hexact
  · simp [outbuf_push, hext]

theorem not_mem_held {adds : List addition} (h : ∀ a ∈ adds, a.Text) : 0 ∉ held (texts adds) := by
  intro h0
  obtain ⟨a, ha, h0⟩ := mem_flatMap.mp (mem_of_mem_take h0)
  exact (h a ha).not_mem h0

/-! ## What a buffer holds -/

/-- Every sequence of additions is done inside the allocated block, and leaves the first 65535
characters of what was added, with their NUL. A buffer that room for no character was made in
has its NUL after the first addition. -/
theorem out_buffers_hold_what_was_added (fresh : Nat → UInt8) (start : outbuffer_t)
    (adds : List addition) (hstart : Start fresh start) (hadds : ∀ a ∈ adds, a.Text)
    (hfirst : First start adds) (hsome : start.buffer = none ∨ adds ≠ []) :
    ∃ outbuf, run (add fresh) start adds = some outbuf ∧
      Holds fresh (held (texts adds)) outbuf := by
  cases adds with
  | nil =>
    cases hstart with
    | zero => exact ⟨outbuf_zero, rfl, holds_zero fresh⟩
    | created h =>
      obtain ⟨b, rfl, -⟩ := created_block h
      simp at hsome
  | cons a adds =>
    have hzero := not_mem_held hadds
    obtain ⟨ha, hadds⟩ := forall_mem_cons.mp hadds
    obtain ⟨next, hadd, hnext⟩ := add_spec fresh hstart.fits ha adds hfirst
    obtain ⟨outbuf, hrun, hfilled⟩ := run_filled fresh hadds hnext
    exact ⟨outbuf, by rw [run, hadd, bind_some, hrun], hfilled.holds fresh hzero⟩

theorem two_texts_are_held : ∃ outbuf,
    run (add fun _ => 7) outbuf_zero [.outbuf_addchar 72, .outbuf_add [105]] = some outbuf ∧
      Holds (fun _ => 7) (held [72, 105]) outbuf :=
  out_buffers_hold_what_was_added (fun _ => 7) outbuf_zero
    [.outbuf_addchar 72, .outbuf_add [105]] .zero
    (by simp [addition.Text]) (by simp [First]) (.inl rfl)

theorem Holds.real_size {fresh : Nat → UInt8} {text : List UInt8} (h : Holds fresh text outbuf) :
    outbuf.real_size = text.length := by
  obtain ⟨rfl, rfl⟩ | ⟨b, rfl, -⟩ := h.buffer
  · rfl
  · rfl

theorem twice_is_full (fresh : Nat → UInt8) {str : List UInt8} (h0 : 0 ∉ str)
    (hlong : 32768 ≤ str.length) (hshort : str.length ≤ 65535) :
    ∃ outbuf, run (add fresh) outbuf_zero [.outbuf_add str, .outbuf_add str] = some outbuf ∧
      outbuf.real_size = 65535 := by
  have hText : (addition.outbuf_add str).Text := ⟨h0, by omega⟩
  have hstart : Fits [] outbuf_zero := Start.zero_fits
  obtain ⟨next, hadd, hnext⟩ := add_spec fresh hstart hText []
    (by rintro _ _ _ ⟨⟩; exact hshort)
  obtain ⟨outbuf, hrun, b, rfl, -⟩ := run_filled fresh
    (forall_mem_singleton.mpr hText) hnext
  refine ⟨_, by rw [run, hadd, bind_some, hrun], ?_⟩
  simp only [held, texts, addition.text, nil_append, flatMap_cons, flatMap_nil,
    append_nil, length_take, length_append]
  omega

/-- `maximum string length` of the configuration files. -/
abbrev MAX_STRING_LENGTH : Nat := 200000

/-- Two texts of 40000 characters are cut where the stored size ends. -/
theorem the_maximum_length_is_not_where_texts_are_cut :
    ∃ outbuf, run (add fun _ => 0) outbuf_zero
        [.outbuf_add (replicate 40000 97), .outbuf_add (replicate 40000 97)] =
          some outbuf ∧
      ¬Holds (fun _ => 0) ((replicate 80000 97).take MAX_STRING_LENGTH) outbuf := by
  have h0 : (0 : UInt8) ∉ replicate 40000 97 := fun h => by
    simpa using eq_of_mem_replicate h
  have hlength : (replicate 40000 (97 : UInt8)).length = 40000 := length_replicate
  obtain ⟨outbuf, hrun, hsize⟩ := twice_is_full (fun _ => 0) h0 (by omega) (by omega)
  refine ⟨outbuf, hrun, fun h => ?_⟩
  have hall := h.real_size
  rw [hsize, length_take, length_replicate, MAX_STRING_LENGTH] at hall
  omega

end mudos.out_buffers
