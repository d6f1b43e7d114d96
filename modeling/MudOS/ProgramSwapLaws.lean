-- The laws of program swapping. In every run in which no program is replaced
-- after it has been swapped out, and no write fails at the wrong place, an
-- object is loaded with the program that was swapped out for it, and what is
-- given back to the swap file is what was taken from it.
import MudOS.ProgramSwap
import MudOS.SwapLaws

open mudos.weights mudos.runs mudos.swap List

namespace mudos.program_swap

variable {p : program_t} {a x : word} {time_to_swap : Int} {io : IoResult} {block : mem_block}
  {info : List UInt8} {i loc : Nat} {o : object_t} {b : prog_block} {d' : driver_t}

variable {n : Nat} {sw : Swapper} {file_info : word}

/-! ## The image of a program -/

theorem get_int_bytes (w : word) (l : List UInt8) : get_int (int_bytes w ++ l) = some (w, l) := by
  have h := word_size_size_word w.toNat w.isLt
  simp only [size_word] at h
  simp [int_bytes, size_word, get_int, h]

theorem get_short_bytes (h : short) (l : List UInt8) :
    get_short (short_bytes h ++ l) = some (h, l) := by
  have he : h.toNat % 256 + h.toNat / 256 % 256 * 256 = h.toNat := by omega
  simp [short_bytes, get_short, he, Nat.reducePow]

theorem get_int_bind {β : Type} (w : word) (l : List UInt8)
    (f : word → StateT (List UInt8) Option β) : (get_int >>= f) (int_bytes w ++ l) = f w l := by
  simp [bind, StateT.bind, get_int_bytes]

theorem get_short_bind {β : Type} (h : short) (l : List UInt8)
    (f : short → StateT (List UInt8) Option β) :
    (get_short >>= f) (short_bytes h ++ l) = f h l := by simp [bind, StateT.bind, get_short_bytes]

theorem of_bytes_bytes (p : program_t) : of_bytes (bytes p) = some p := by
  simp only [of_bytes, bytes, flatten_cons, flatten_nil, append_assoc,
    nil_append, StateT.run, get_program, get_int_bind, get_short_bind]
  rfl

theorem length_bytes (p : program_t) : (bytes p).length = SIZEOF_PROGRAM_T + p.tables.length := by
  have hint : ∀ w, (int_bytes w).length = 4 := fun w => rfl
  have hshort : ∀ w, (short_bytes w).length = 2 := fun w => rfl
  simp only [bytes, length_append, flatten_cons, flatten_nil, hint, hshort,
    length_nil]

theorem image_of_size (hsize : p.total_size.toNat = SIZEOF_PROGRAM_T + p.tables.length)
    (hint : p.total_size.toNat + SIZEOF_INT < 2147483648) :
    ∃ block, image p = some block ∧ block.val = bytes p := by
  have htake : (bytes p).take p.total_size.toNat = bytes p :=
    take_of_length_le (by rw [length_bytes]; omega)
  unfold image
  dsimp only
  rw [dif_pos (by rw [htake, length_bytes, ← hsize]; exact hint)]
  exact ⟨_, rfl, htake⟩

/-! ## Relocation -/

def relocate (shift : word) (p : program_t) : program_t :=
  { p with
    program := p.program + shift
    function_table := p.function_table + shift
    function_flags := p.function_flags + shift
    function_offsets := p.function_offsets + shift
    function_compressed := p.function_compressed + shift
    strings := p.strings + shift
    variable_table := p.variable_table + shift
    variable_types := p.variable_types + shift
    inherit := p.inherit + shift
    classes := p.classes + shift
    class_members := p.class_members + shift
    argument_types := if p.type_start ≠ 0 then p.argument_types + shift else p.argument_types
    type_start := if p.type_start ≠ 0 then p.type_start + shift else p.type_start }

@[simp] theorem relocate_total_size (s : word) (p : program_t) :
    (relocate s p).total_size = p.total_size := rfl

theorem locate_in_eq (b : word) (p : program_t) : locate_in b p = relocate b p := by
  unfold locate_in relocate
  dsimp only
  split
  · rfl
  · rfl

theorem locate_out_eq (a : word) (p : program_t) : locate_out a p = relocate (-a) p := by
  have hsub : ∀ x : word, DIFF x a = x + -a := fun x => BitVec.sub_eq_add_neg x a
  unfold locate_out relocate
  simp only [hsub]
  split
  · rfl
  · rfl

/-- Moving twice is moving once, as long as the first move makes no table of
types look as if it were not there. -/
theorem relocate_relocate {s : word} (h : p.type_start ≠ 0 → p.type_start + s ≠ 0) (t : word) :
    relocate t (relocate s p) = relocate (s + t) p := by
  have hassoc : ∀ x : word, x + s + t = x + (s + t) := fun x => BitVec.add_assoc x s t
  unfold relocate
  by_cases htypes : p.type_start ≠ 0
  · simp only [if_pos htypes, if_pos (h htypes), hassoc]
  · simp only [if_neg htypes, hassoc]

theorem locate_in_locate_out (hp : Placed a p) (b : word) :
    locate_in b (locate_out a p) = relocate (-a + b) p := by
  rw [locate_in_eq, locate_out_eq]
  apply relocate_relocate
  intro htypes hzero
  have hne := (hp.types htypes).1
  bv_omega

/-! ## The swap file -/

theorem out_step {w : Swapper} :
    w.step time_to_swap (.swap_out io block) = some (out time_to_swap io w block none).2.2 := by
  unfold Swapper.step out
  dsimp only
  rcases swap_out time_to_swap io w.state block none with ⟨_ | _, _ | loc, s⟩ <;> rfl

theorem swap_out_last_data (time_to_swap : Int) (io : IoResult) {w : Swapper} (h : swap.Inv w)
    (block : mem_block) (locp : Option Nat) :
    (swap_out time_to_swap io w.state block locp).2.2.last_data ≤
      w.state.last_data + SIZEOF_INT + block.val.length := by
  unfold swap_out
  split
  · dsimp only
    omega
  rcases ho : assert_swap_file io w.state with _ | ⟨f, s⟩
  · dsimp only
    omega
  have hlast : s.last_data ≤ w.state.last_data := by
    unfold assert_swap_file at ho
    split at ho
    · cases ho
      exact Nat.le_refl _
    · split at ho
      · cases ho
        exact Nat.zero_le _
      · cases ho
  obtain ⟨hf, hi⟩ := h.opened ho
  cases locp with
  | some loc =>
    dsimp only
    omega
  | none =>
    have hloc : (alloc_swap s.last_data (block.val.length + SIZEOF_INT) s.swap_free).1 ≤
        s.last_data := by
      by_cases hfit : ∃ b ∈ s.swap_free, block.val.length + SIZEOF_INT ≤ b.length
      · obtain ⟨b, hb, hin⟩ := (alloc_swap_some s.last_data hfit).inside
        have hbelow := hi.free.below b hb
        simp only at hbelow
        omega
      · rw [alloc_swap_none fun b hb => by
          by_contra hn
          exact hfit ⟨b, hb, by omega⟩]
    dsimp only
    split
    · dsimp only
      omega
    · dsimp only
      split <;> omega

/-- What a `swap_out` that meets the condition does, when there is nothing on
file yet: it fails and changes nothing that is held, or one more block is held. -/
structure Written (w : Swapper) (block : mem_block) (r : Bool × Option Nat × Swapper) : Prop where
  inv : swap.Inv r.2.2
  room : r.2.2.state.last_data < 2147483648
  live : r.1 = false ∧ r.2.1 = none ∧ r.2.2.live = w.live ∨
    ∃ loc, r.1 = true ∧ r.2.1 = some loc ∧ r.2.2.live = (loc, block) :: w.live

/-- The write does not fail at the wrong place, and the file has room: its
length is an `int`. -/
def WriteOk (time_to_swap : Int) (w : Swapper) (io : IoResult) (block : mem_block) : Prop :=
  NoCarvedWriteFails time_to_swap w (.swap_out io block) ∧
    w.state.last_data + SIZEOF_INT + block.val.length < 2147483648

theorem out_none {w : Swapper} (h : swap.Inv w) (hok : WriteOk time_to_swap w io block) :
    Written w block (out time_to_swap io w block none) := by
  have hlast := swap_out_last_data time_to_swap io h block none
  refine ⟨inv_step h hok.1 out_step, ?_, ?_⟩
  · refine Nat.lt_of_le_of_lt ?_ hok.2
    refine Nat.le_trans (Nat.le_of_eq ?_) hlast
    unfold out
    rcases swap_out time_to_swap io w.state block none with ⟨_ | _, _ | loc, s⟩ <;> rfl
  · unfold out
    have hshape : ∀ s loc, swap_out time_to_swap io w.state block none ≠ (true, none, s) ∧
        swap_out time_to_swap io w.state block none ≠ (false, some loc, s) := by
      intro s loc
      unfold swap_out
      split
      · simp
      · split
        · simp
        · dsimp only
          split <;> simp
    rcases hs : swap_out time_to_swap io w.state block none with ⟨_ | _, _ | loc, s⟩
    · exact Or.inl ⟨rfl, rfl, rfl⟩
    · exact absurd hs (hshape s loc).2
    · exact absurd hs (hshape s 0).1
    · exact Or.inr ⟨loc, rfl, rfl, rfl⟩

theorem out_writes {w : Swapper} (htime : time_to_swap ≠ 0)
    (hopen : w.state.swap_file.isSome ∨ io.opened = true)
    (hwritten : block.val.length + SIZEOF_INT ≤ io.written) (hne : block.val ≠ []) :
    (out time_to_swap io w block none).1 = true := by
  have hassert : ∃ f s, assert_swap_file io w.state = some (f, s) := by
    unfold assert_swap_file
    cases hfile : w.state.swap_file with
    | some f => exact ⟨f, _, rfl⟩
    | none =>
      rw [hfile] at hopen
      have hio : io.opened = true := hopen.resolve_left (by simp)
      simp [hio]
  obtain ⟨f, s, hassert⟩ := hassert
  have hlength : block.val.length ≠ 0 := fun h => hne (length_eq_zero_iff.mp h)
  unfold out
  rw [swap_out_open htime hassert]
  dsimp only
  rw [if_neg]
  rw [length_append, length_size_word]
  omega

theorem out_some {time_to_swap : Int} {io : IoResult} {w : Swapper} {block : mem_block} {loc : Nat}
    (h : swap.Inv w) (hroom : w.state.last_data < 2147483648) (hmem : (loc, block) ∈ w.live) :
    ∃ w', out time_to_swap io w block (some loc) = (decide (time_to_swap ≠ 0), some loc, w') ∧
      swap.Inv w' ∧ w'.live = w.live ∧ w'.state.last_data < 2147483648 := by
  unfold out swap_out
  by_cases htime : time_to_swap = 0
  · rw [if_pos htime]
    exact ⟨w, by simp [htime], h, rfl, hroom⟩
  · rw [if_neg htime]
    cases hfile : w.state.swap_file with
    | none =>
      simp [(h.closed hfile).1] at hmem
    | some f =>
      refine ⟨w, ?_, h, rfl, hroom⟩
      simp [assert_swap_file, hfile, htime]

theorem held_of_loc {w : Swapper} (h : swap.Inv w) {x held : Nat × mem_block} (hx : x ∈ w.live)
    (hheld : held ∈ w.live) (hloc : x.1 = held.1) : x = held := by
  by_contra hne
  have hperm := ((perm_cons_erase hheld).map heldSpan)
  have hcount := spans.coverCount_perm hperm held.1
  rw [map_cons, spans.coverCount_cons, if_pos (by
    simp only [heldSpan, spans.Span.has, spans.Span.fin, SIZEOF_INT]
    omega)] at hcount
  have hother : 0 < spans.coverCount ((w.live.erase held).map heldSpan) held.1 := by
    apply spans.coverCount_pos_of_mem
      (mem_map_of_mem ((mem_erase_of_ne hne).mpr hx) : heldSpan x ∈ _)
    simp only [heldSpan, spans.Span.has, spans.Span.fin, SIZEOF_INT]
    omega
  have htiles := h.tiles held.1
  simp only [Swapper.liveSpans, spans.coverCount_append] at htiles
  split at htiles <;> omega

theorem eraseP_eq_erase {l : List (Nat × mem_block)} {held : Nat × mem_block} (hmem : held ∈ l)
    (hloc : ∀ x ∈ l, x.1 = held.1 → x = held) :
    l.eraseP (fun x => decide (x.1 = held.1)) = l.erase held := by
  induction l with
  | nil => rfl
  | cons x l ih =>
    by_cases hx : x = held
    · subst hx
      simp
    · have hne : x.1 ≠ held.1 := fun h => hx (hloc x (mem_cons_self ..) h)
      have hmem : held ∈ l := by
        rcases mem_cons.mp hmem with rfl | h
        · exact absurd rfl hx
        · exact h
      rw [eraseP_cons_of_neg (by simpa using hne), erase_cons_tail (by simpa using hx),
        ih hmem fun y hy => hloc y (mem_cons_of_mem x hy)]

theorem free_swap_last_data (s : swap_state) (start length : Nat) :
    (free_swap s start length).last_data ≤ s.last_data := by
  simp only [free_swap]
  split
  · dsimp only
    omega
  · exact Nat.le_refl _

theorem give_back_held {w : Swapper} (h : swap.Inv w) (hroom : w.state.last_data < 2147483648)
    {held : Nat × mem_block} (hmem : held ∈ w.live) :
    swap.Inv (give_back w held.1 held.2.val.length) ∧
      (give_back w held.1 held.2.val.length).live = w.live.erase held ∧
      (give_back w held.1 held.2.val.length).state.last_data < 2147483648 := by
  have hlive : (give_back w held.1 held.2.val.length).live = w.live.erase held :=
    eraseP_eq_erase hmem fun x hx => held_of_loc h hx hmem
  have hstep : w.step 1 (.free_swap held) = some (give_back w held.1 held.2.val.length) := by
    simp only [Swapper.step, if_pos hmem, give_back] at hlive ⊢
    rw [hlive]
  refine ⟨inv_step h (by exact trivial) hstep, hlive, ?_⟩
  exact Nat.lt_of_le_of_lt (free_swap_last_data ..) hroom

/-! ## What is held -/

def normal (p : program_t) : program_t :=
  { p with ref := 1, func_ref := 0, line_info := 0, file_info := 0 }

theorem normal_eq (href : p.ref = 1) (hfunc_ref : p.func_ref = 0) (hline_info : p.line_info = 0)
    (hfile_info : p.file_info = 0) : normal p = p := by
  cases p
  cases href
  cases hfunc_ref
  cases hline_info
  cases hfile_info
  rfl

@[simp] theorem normal_relocate (s : word) (p : program_t) :
    normal (relocate s p) = relocate s (normal p) := rfl

/-- The block of line numbers, with its size in its first short. -/
structure Whole (info : List UInt8) : Prop where
  size : file_info_at info 0 = info.length
  place : 2 * file_info_at info 1 ≤ info.length

theorem Whole.line_block (h : Whole info) : (line_block info).val = info := by
  show info.take (file_info_at info 0) = info
  rw [h.size, take_length]

structure Kept (s : saved_t) : Prop where
  placed : Placed s.start s.prog
  normal : normal s.prog = s.prog
  lines : int_loc s.prog.line_swap_index ≠ none
  whole : Whole s.numbers

def image_held (o : object_t) : Option (Nat × mem_block) :=
  o.swap_num.bind fun loc => o.saved.bind fun s =>
    (image (locate_out s.start s.prog)).map fun block => (loc, block)

def line_held (p : program_t) (numbers : List UInt8) : Option (Nat × mem_block) :=
  (int_loc p.line_swap_index).map fun loc => (loc, line_block numbers)

/-- The block of line numbers of a program that is itself on file. -/
def away_held (o : object_t) : Option (Nat × mem_block) :=
  if o.O_SWAPPED then o.saved.bind fun s => line_held s.prog s.numbers else none

def ob_owns (held : Nat × mem_block) (_ : Nat) (o : object_t) : Nat :=
  tells (image_held o) held + tells (away_held o) held

def prog_owns (held : Nat × mem_block) (_ : word) (b : prog_block) : Nat :=
  tells (line_held b.prog b.numbers) held

def owners (d : driver_t) (held : Nat × mem_block) : Nat :=
  weight (ob_owns held) d.objects + weight (prog_owns held) d.programs

def ob_holds (a : word) (_ : Nat) (o : object_t) : Nat :=
  if o.O_SWAPPED then (o.saved.map fun s => (inherit_progs s.start s.prog).count a).getD 0
  else tells (some o.prog) a

def prog_holds (a start : word) (b : prog_block) : Nat := (inherit_progs start b.prog).count a

def holders (d : driver_t) (a : word) : Nat :=
  weight (ob_holds a) d.objects + weight (prog_holds a) d.programs

/-- Whether the line numbers of the program are in that block of memory. -/
def line_at (x _start : word) (b : prog_block) : Nat :=
  if b.prog.line_info ≠ 0 ∧ b.prog.file_info = x then 1 else 0

/-- What a function in the middle of its work owes: programs that it has yet to
free and to reference, blocks of the swap file and blocks of line numbers. -/
structure Owing where
  freed : List word
  referenced : List word
  blocks : List (Nat × mem_block)
  lines : List (word × List UInt8)

def Owing.nothing : Owing := ⟨[], [], [], []⟩

structure ProgramOk (d : driver_t) (start : word) (b : prog_block) : Prop where
  placed : Placed start b.prog
  whole : Whole b.numbers
  loaded : b.prog.line_info ≠ 0 →
    d.line_blocks.lookup b.prog.file_info = some b.numbers ∧ b.prog.file_info ≠ 0
  away : b.prog.line_info = 0 → b.prog.file_info = 0 ∧ int_loc b.prog.line_swap_index ≠ none

structure ObjectOk (d : driver_t) (o : object_t) : Prop where
  away : o.O_SWAPPED = true → ∃ s loc, o.saved = some s ∧ o.swap_num = some loc ∧ Kept s
  loaded : o.O_SWAPPED = false → ∀ loc, o.swap_num = some loc →
    ∃ s b, o.saved = some s ∧ Kept s ∧ d.programs.lookup o.prog = some b ∧
      normal (locate_out o.prog b.prog) = locate_out s.start s.prog ∧ b.numbers = s.numbers

structure Consistent (d : driver_t) (w : Owing) : Prop where
  swapper : swap.Inv d.swapper
  room : d.swapper.state.last_data < 2147483648
  owned : ∀ held, owners d held + w.blocks.count held ≤ d.swapper.live.count held
  held : ∀ a, 0 < holders d a + w.freed.count a → ∃ b, d.programs.lookup a = some b ∧
    holders d a + w.freed.count a ≤ b.prog.ref.toNat + w.referenced.count a
  lines : ∀ x, weight (line_at x) d.programs + (w.lines.map Prod.fst).count x ≤ 1
  owing : ∀ e ∈ w.lines, d.line_blocks.lookup e.1 = some e.2
  program : ∀ a b, d.programs.lookup a = some b → ProgramOk d a b
  object : ∀ i o, d.objects.lookup i = some o → ObjectOk d o

variable {d : driver_t} {w : Owing}

theorem Consistent.mem_live (h : Consistent d w) {held : Nat × mem_block}
    (hpos : 0 < owners d held + w.blocks.count held) : held ∈ d.swapper.live := by
  apply count_pos_iff.mp
  have := h.owned held
  omega

theorem Consistent.image_live (h : Consistent d w) (ho : d.objects.lookup i = some o)
    {held : Nat × mem_block} (himage : image_held o = some held) : held ∈ d.swapper.live := by
  apply h.mem_live
  have := le_weight (g := ob_owns held) ho
  simp only [owners, ob_owns, himage, tells_self] at this ⊢
  omega

theorem Consistent.line_live (h : Consistent d w) (hb : d.programs.lookup a = some b)
    {held : Nat × mem_block} (hline : line_held b.prog b.numbers = some held) :
    held ∈ d.swapper.live := by
  apply h.mem_live
  have := le_weight (g := prog_owns held) hb
  simp only [owners, prog_owns, hline, tells_self] at this ⊢
  omega

theorem Consistent.exists_of_prog (h : Consistent d w) (ho : d.objects.lookup i = some o)
    (hswapped : o.O_SWAPPED = false) : ∃ b, d.programs.lookup o.prog = some b := by
  have := le_weight (g := ob_holds o.prog) ho
  obtain ⟨b, hb, -⟩ := h.held o.prog (by
    simp only [holders, ob_holds, hswapped, Bool.false_eq_true, if_false, tells_self] at this ⊢
    omega)
  exact ⟨b, hb⟩

/-! ## A program changes -/

theorem holders_update (b' : prog_block) (hobjects : d'.objects = d.objects)
    (hprograms : d'.programs = d.programs.insert a b') (hb : d.programs.lookup a = some b)
    (hinherit : inherit_progs a b'.prog = inherit_progs a b.prog) (x : word) :
    holders d' x = holders d x := by
  have := weight_update (g := prog_holds x) (b := b') hb
  simp only [holders, hobjects, hprograms, prog_holds, hinherit] at this ⊢
  omega

theorem ObjectOk.update (h : ObjectOk d o) (b' : prog_block)
    (hprograms : d'.programs = d.programs.insert a b') (hb : d.programs.lookup a = some b)
    (hnumbers : b'.numbers = b.numbers)
    (hnormal : int_loc b.prog.line_swap_index ≠ none → normal b'.prog = normal b.prog) :
    ObjectOk d' o := by
  refine ⟨h.away, fun hswapped loc hloc => ?_⟩
  obtain ⟨s, c, hs, hkept, hc, hlocate, hnum⟩ := h.loaded hswapped loc hloc
  by_cases ha : o.prog = a
  · subst ha
    cases hb.symm.trans hc
    have hindex : int_loc b.prog.line_swap_index ≠ none := by
      have := congrArg program_t.line_swap_index hlocate
      rw [locate_out_eq, locate_out_eq] at this
      rw [show b.prog.line_swap_index = s.prog.line_swap_index from this]
      exact hkept.lines
    refine ⟨s, b', hs, hkept, by rw [hprograms, AList.lookup_insert], ?_, hnumbers.trans hnum⟩
    rwa [locate_out_eq, normal_relocate, hnormal hindex, ← normal_relocate, ← locate_out_eq]
  · refine ⟨s, c, hs, hkept, ?_, hlocate, hnum⟩
    rw [hprograms, AList.lookup_insert_ne ha, hc]

theorem Consistent.set_refs (h : Consistent d w) (hb : d.programs.lookup a = some b)
    {ref func_ref : short} {w' : Owing} (hblocks : w'.blocks = w.blocks)
    (hlines : w'.lines = w.lines)
    (hself : holders d a + w'.freed.count a ≤ ref.toNat + w'.referenced.count a)
    (hothers : ∀ x, x ≠ a → w'.freed.count x = w.freed.count x ∧
      w'.referenced.count x = w.referenced.count x) :
    Consistent { d with
      programs := d.programs.insert a ⟨{ b.prog with ref, func_ref }, b.numbers⟩ } w' := by
  have hholders : ∀ x, holders { d with
      programs := d.programs.insert a ⟨{ b.prog with ref, func_ref }, b.numbers⟩ } x =
      holders d x :=
    holders_update ⟨{ b.prog with ref, func_ref }, b.numbers⟩ rfl rfl hb rfl
  refine ⟨h.swapper, h.room, fun held => ?_, fun x hx => ?_, fun x => ?_, hlines ▸ h.owing,
    fun x c hc => ?_, fun i o ho => (h.object i o ho).update _ rfl hb rfl fun _ => rfl⟩
  · have := weight_update (g := prog_owns held)
      (b := ⟨{ b.prog with ref, func_ref }, b.numbers⟩) hb
    have hown := h.owned held
    simp only [owners, prog_owns, line_held, hblocks] at this hown ⊢
    omega
  · rw [hholders] at hx ⊢
    by_cases hxa : x = a
    · subst hxa
      exact ⟨_, AList.lookup_insert _, hself⟩
    · obtain ⟨hfreed, href⟩ := hothers x hxa
      rw [hfreed] at hx ⊢
      rw [href]
      dsimp only
      rw [AList.lookup_insert_ne hxa]
      exact h.held x hx
  · have := weight_update (g := line_at x) (b := ⟨{ b.prog with ref, func_ref }, b.numbers⟩) hb
    have hline := h.lines x
    rw [hlines]
    simp only [line_at] at this hline ⊢
    omega
  · by_cases hxa : x = a
    · subst hxa
      rw [AList.lookup_insert, Option.some.injEq] at hc
      subst hc
      have hp := h.program x b hb
      exact ⟨⟨hp.placed.size, hp.placed.int, hp.placed.null, hp.placed.room, hp.placed.types⟩,
        hp.whole, hp.loaded, hp.away⟩
    · rw [AList.lookup_insert_ne hxa] at hc
      exact { h.program x c hc with }

theorem Consistent.reference_prog (h : Consistent d w) (hb : d.programs.lookup a = some b)
    (href : b.prog.ref.toNat < 65535)
    (hheld : holders d a + w.freed.count a ≤ b.prog.ref.toNat + w.referenced.count a) :
    program_swap.reference_prog d a = some { d with
      programs := d.programs.insert a ⟨{ b.prog with ref := b.prog.ref + 1 }, b.numbers⟩ } ∧
    Consistent { d with
      programs := d.programs.insert a ⟨{ b.prog with ref := b.prog.ref + 1 }, b.numbers⟩ }
      { w with freed := a :: w.freed } := by
  refine ⟨by simp [program_swap.reference_prog, hb], h.set_refs hb rfl rfl ?_ fun x hx => ⟨?_, rfl⟩⟩
  · have hadd : (b.prog.ref + 1).toNat = b.prog.ref.toNat + 1 := by bv_omega
    dsimp only
    rw [hadd, count_cons_self]
    omega
  · exact count_cons_of_ne hx.symm

theorem Consistent.settle {freed referenced : List word} {blocks : List (Nat × mem_block)}
    {lines : List (word × List UInt8)}
    (h : Consistent d ⟨a :: freed, a :: referenced, blocks, lines⟩) :
    Consistent d ⟨freed, referenced, blocks, lines⟩ := by
  refine ⟨h.swapper, h.room, h.owned, fun x hx => ?_, h.lines, h.owing, h.program, h.object⟩
  have hheld := h.held x
  dsimp only at hx hheld ⊢
  simp only [count_cons] at hheld
  obtain ⟨b, hb, hle⟩ := hheld (by omega)
  exact ⟨b, hb, by omega⟩

/-! ## A program is freed -/

def lines_of (b : prog_block) : List (word × List UInt8) :=
  if b.prog.line_info ≠ 0 then [(b.prog.file_info, b.numbers)] else []

theorem Consistent.erase_prog {freed l : List word} {blocks : List (Nat × mem_block)}
    {lines : List (word × List UInt8)} (h : Consistent d ⟨freed, [], blocks, lines⟩)
    (hb : d.programs.lookup a = some b) (hzero : holders d a = 0) (hself : l.count a = 0)
    (hothers : ∀ x, x ≠ a → l.count x = freed.count x) :
    Consistent { d with programs := d.programs.erase a }
      ⟨inherit_progs a b.prog ++ l, [], (line_held b.prog b.numbers).toList ++ blocks,
        lines_of b ++ lines⟩ := by
  have hp := h.program a b hb
  refine ⟨h.swapper, h.room, fun held => ?_, fun x hx => ?_, fun x => ?_, fun e he => ?_,
    fun x c hc => ?_, fun i o ho => ?_⟩
  · have hw := weight_lookup (g := prog_owns held) hb
    have hown := h.owned held
    have hcount : (line_held b.prog b.numbers).toList.count held = prog_owns held a b := by
      cases hl : line_held b.prog b.numbers <;> simp [prog_owns, hl, tells, count_cons]
    simp only [owners, count_append, hcount] at hown ⊢
    omega
  · have hw := weight_lookup (g := prog_holds x) hb
    have hold := h.held x
    simp only [holders, prog_holds, count_append] at hw hold hzero hx ⊢
    by_cases hxa : x = a
    · subst hxa
      omega
    · rw [hothers x hxa] at hx ⊢
      rw [AList.lookup_erase_ne hxa]
      obtain ⟨c, hc, hle⟩ := hold (by omega)
      exact ⟨c, hc, by omega⟩
  · have hw := weight_lookup (g := line_at x) hb
    have hline := h.lines x
    have hcount : ((lines_of b).map Prod.fst).count x = line_at x a b := by
      unfold lines_of line_at
      by_cases hinfo : b.prog.line_info ≠ 0
      · by_cases hx : b.prog.file_info = x
        · rw [if_pos hinfo, if_pos ⟨hinfo, hx⟩]
          simp [hx]
        · rw [if_pos hinfo, if_neg fun h => hx h.2]
          simp [hx]
      · rw [if_neg hinfo, if_neg fun h => hinfo h.1]
        rfl
    simp only [map_append, count_append, hcount] at hline ⊢
    omega
  · rcases mem_append.mp he with he | he
    · unfold lines_of at he
      split at he
      · rename_i hinfo
        rw [mem_singleton] at he
        subst he
        exact (hp.loaded hinfo).1
      · cases he
    · exact h.owing e he
  · have hxa : x ≠ a := by
      rintro rfl
      simp at hc
    rw [AList.lookup_erase_ne hxa] at hc
    exact { h.program x c hc with }
  · have ho' := h.object i o ho
    refine ⟨ho'.away, fun hswapped loc hloc => ?_⟩
    obtain ⟨s, c, hs, hkept, hc, hrest⟩ := ho'.loaded hswapped loc hloc
    refine ⟨s, c, hs, hkept, ?_, hrest⟩
    have hne : o.prog ≠ a := by
      rintro rfl
      have := le_weight (g := ob_holds o.prog) ho
      simp only [holders, ob_holds, hswapped, Bool.false_eq_true, if_false, tells_self] at this hzero
      omega
    rw [AList.lookup_erase_ne hne, hc]

theorem Consistent.give_back {freed referenced : List word} {blocks : List (Nat × mem_block)}
    {lines : List (word × List UInt8)} {held : Nat × mem_block}
    (h : Consistent d ⟨freed, referenced, held :: blocks, lines⟩) :
    Consistent { d with swapper := program_swap.give_back d.swapper held.1 held.2.val.length }
      ⟨freed, referenced, blocks, lines⟩ := by
  have hmem : held ∈ d.swapper.live := h.mem_live (by simp only [count_cons_self]; omega)
  obtain ⟨hinv, hlive, hroom⟩ := give_back_held h.swapper h.room hmem
  refine ⟨hinv, hroom, fun x => ?_, h.held, h.lines, h.owing, fun a b hb => ?_, fun i o ho => ?_⟩
  · have hown := h.owned x
    have hcount := perm_iff_count.mp (perm_cons_erase hmem) x
    rw [hlive]
    simp only [owners, count_cons] at hown hcount ⊢
    omega
  · exact { h.program a b hb with }
  · exact ⟨(h.object i o ho).away, (h.object i o ho).loaded⟩

theorem Consistent.free_lines {freed referenced : List word} {blocks : List (Nat × mem_block)}
    {lines : List (word × List UInt8)}
    (h : Consistent d ⟨freed, referenced, blocks, (x, info) :: lines⟩) :
    Consistent { d with line_blocks := d.line_blocks.erase x }
      ⟨freed, referenced, blocks, lines⟩ := by
  have hself := h.lines x
  simp only [map_cons, count_cons_self] at hself
  refine ⟨h.swapper, h.room, h.owned, h.held, fun y => ?_, fun e he => ?_, fun a b hb => ?_,
    fun i o ho => ⟨(h.object i o ho).away, (h.object i o ho).loaded⟩⟩
  · have hline := h.lines y
    simp only [map_cons, count_cons] at hline
    dsimp only
    omega
  · have hne : e.1 ≠ x := by
      rintro rfl
      have hpos : 0 < (lines.map Prod.fst).count e.1 :=
        count_pos_iff.mpr (mem_map_of_mem he)
      omega
    rw [AList.lookup_erase_ne hne]
    exact h.owing e (mem_cons_of_mem _ he)
  · have hp := h.program a b hb
    refine ⟨hp.placed, hp.whole, fun hinfo => ⟨?_, (hp.loaded hinfo).2⟩, hp.away⟩
    have hne : b.prog.file_info ≠ x := by
      rintro rfl
      have := le_weight (g := line_at b.prog.file_info) hb
      simp only [line_at, hinfo, ne_eq, not_false_eq_true, and_self, if_true] at this
      omega
    rw [AList.lookup_erase_ne hne]
    exact (hp.loaded hinfo).1

theorem mem_keys_of_lookup (hb : d.programs.lookup a = some b) : a ∈ d.programs.keys := by
  apply AList.mem_keys.mp
  rw [← AList.lookup_isSome, hb]
  rfl

theorem depth_erase (hb : d.programs.lookup a = some b) :
    (d.programs.erase a).keys.length + 1 = depth d := by
  have hmem := mem_keys_of_lookup hb
  have hpos := length_pos_of_mem hmem
  rw [AList.keys_erase, length_erase_of_mem hmem]
  unfold depth
  omega

theorem depth_insert {b' : prog_block} (hb : d.programs.lookup a = some b) :
    (d.programs.insert a b').keys.length = depth d := by
  have hmem := mem_keys_of_lookup hb
  have hpos := length_pos_of_mem hmem
  rw [AList.keys_insert, length_cons, length_erase_of_mem hmem]
  unfold depth
  omega

theorem line_numbers_on_file {w : Swapper} (h : swap.Inv w) {numbers : List UInt8}
    (hwhole : Whole numbers) (hmem : (loc, line_block numbers) ∈ w.live) :
    swap_in w.state (some loc) = (numbers.length, numbers) := by
  have hcontents := h.contents _ hmem
  rwa [hwhole.line_block] at hcontents

theorem Consistent.remove_line_swap {freed referenced : List word} {blocks : List (Nat × mem_block)}
    {lines : List (word × List UInt8)} (hwhole : Whole b.numbers)
    (h : Consistent d ⟨freed, referenced, (line_held b.prog b.numbers).toList ++ blocks,
      lines_of b ++ lines⟩) :
    ∃ d', program_swap.remove_line_swap d b.prog = some d' ∧
      Consistent d' ⟨freed, referenced, blocks, lines_of b ++ lines⟩ ∧
      d'.programs = d.programs := by
  unfold program_swap.remove_line_swap
  cases hloc : int_loc b.prog.line_swap_index with
  | none =>
    simp only [line_held, hloc, Option.map_none, Option.toList_none, nil_append] at h
    exact ⟨d, rfl, h, rfl⟩
  | some loc =>
    simp only [line_held, hloc, Option.map_some, Option.toList_some, cons_append,
      nil_append] at h
    have hmem : (loc, line_block b.numbers) ∈ d.swapper.live :=
      h.mem_live (by simp only [count_cons_self]; omega)
    have hlines : line_numbers d b.prog = some b.numbers := by
      unfold line_numbers
      by_cases hinfo : b.prog.line_info ≠ 0
      · rw [if_pos hinfo]
        apply h.owing (b.prog.file_info, b.numbers)
        apply mem_append_left
        rw [lines_of, if_pos hinfo]
        exact mem_singleton_self _
      · rw [if_neg hinfo, hloc, Option.map_some, line_numbers_on_file h.swapper hwhole hmem]
    have hsize : file_info_at b.numbers 0 = (line_block b.numbers).val.length := by
      rw [hwhole.line_block, hwhole.size]
    dsimp only
    rw [hlines, Option.map_some, hsize]
    exact ⟨_, rfl, h.give_back, rfl⟩

theorem Consistent.free_all {freed : List word} {blocks : List (Nat × mem_block)}
    {lines : List (word × List UInt8)}
    (hfree : ∀ (d : driver_t) (a : word) (freed : List word), depth d ≤ n →
      Consistent d ⟨a :: freed, [], blocks, lines⟩ →
      ∃ d', free_prog n d a = some d' ∧ Consistent d' ⟨freed, [], blocks, lines⟩ ∧
        depth d' ≤ depth d) (l : List word) (hdepth : depth d ≤ n)
    (h : Consistent d ⟨l ++ freed, [], blocks, lines⟩) :
    ∃ d', l.foldlM (free_prog n) d = some d' ∧ Consistent d' ⟨freed, [], blocks, lines⟩ ∧
      depth d' ≤ depth d := by
  induction l generalizing d with
  | nil => exact ⟨d, rfl, h, Nat.le_refl _⟩
  | cons a l ih =>
    obtain ⟨d1, hd1, h1, hle1⟩ := hfree d a (l ++ freed) hdepth h
    obtain ⟨d2, hd2, h2, hle2⟩ := ih (Nat.le_trans hle1 hdepth) h1
    exact ⟨d2, by rw [foldlM_cons, hd1]; exact hd2, h2, Nat.le_trans hle2 hle1⟩

theorem Consistent.deallocate_program {freed : List word} {blocks : List (Nat × mem_block)}
    {lines : List (word × List UInt8)}
    (hfree : ∀ (d : driver_t) (a : word) (freed : List word) (blocks : List (Nat × mem_block))
      (lines : List (word × List UInt8)), depth d ≤ n →
      Consistent d ⟨a :: freed, [], blocks, lines⟩ →
      ∃ d', free_prog n d a = some d' ∧ Consistent d' ⟨freed, [], blocks, lines⟩ ∧
        depth d' ≤ depth d) (hb : ProgramOk d a b) (hdepth : (d.programs.erase a).keys.length ≤ n)
    (h : Consistent { d with programs := d.programs.erase a }
      ⟨inherit_progs a b.prog ++ freed, [], (line_held b.prog b.numbers).toList ++ blocks,
        lines_of b ++ lines⟩) :
    ∃ d', program_swap.deallocate_program (free_prog n) d a b = some d' ∧
      Consistent d' ⟨freed, [], blocks, lines⟩ ∧
      depth d' ≤ (d.programs.erase a).keys.length := by
  obtain ⟨d1, hd1, h1, hle1⟩ := Consistent.free_all
    (fun d a freed => hfree d a freed _ _) (inherit_progs a b.prog)
    (show depth { d with programs := d.programs.erase a } ≤ n from hdepth) h
  obtain ⟨d2, hd2, h2, hprograms⟩ := h1.remove_line_swap hb.whole
  have hle2 : depth d2 ≤ (d.programs.erase a).keys.length := by
    unfold depth
    rwa [hprograms]
  unfold program_swap.deallocate_program
  rw [hd1, Option.bind_eq_bind, Option.bind_some, hd2, Option.bind_some]
  by_cases hinfo : b.prog.line_info ≠ 0
  · rw [if_pos (hb.loaded hinfo).2]
    rw [lines_of, if_pos hinfo] at h2
    exact ⟨_, rfl, h2.free_lines, hle2⟩
  · rw [if_neg (by simpa using (hb.away (by simpa using hinfo)).1)]
    rw [lines_of, if_neg hinfo] at h2
    exact ⟨_, rfl, h2, hle2⟩

theorem Consistent.free_prog (n : Nat) (d : driver_t) (a : word) (freed : List word)
    (blocks : List (Nat × mem_block)) (lines : List (word × List UInt8)) (hdepth : depth d ≤ n)
    (h : Consistent d ⟨a :: freed, [], blocks, lines⟩) :
    ∃ d', program_swap.free_prog n d a = some d' ∧ Consistent d' ⟨freed, [], blocks, lines⟩ ∧
      depth d' ≤ depth d := by
  induction n generalizing d a freed blocks lines with
  | zero =>
    obtain ⟨b, hb, -⟩ := h.held a (by simp only [count_cons_self]; omega)
    have := length_pos_of_mem (mem_keys_of_lookup hb)
    unfold depth at hdepth
    omega
  | succ n ih =>
    obtain ⟨b, hb, hle⟩ := h.held a (by simp only [count_cons_self]; omega)
    simp only [count_cons_self, count_nil, Nat.add_zero] at hle
    have hsub : (b.prog.ref - 1).toNat = b.prog.ref.toNat - 1 := by bv_omega
    unfold program_swap.free_prog
    rw [hb, Option.bind_eq_bind, Option.bind_some]
    dsimp only
    split
    · refine ⟨_, rfl, h.set_refs hb rfl rfl ?_ fun x hx => ⟨?_, rfl⟩,
        Nat.le_of_eq (depth_insert hb)⟩
      · rw [hsub]
        simp only [count_nil]
        omega
      · exact (count_cons_of_ne hx.symm).symm
    · rename_i hnot
      rw [not_or, not_not] at hnot
      have hone : b.prog.ref.toNat = 1 := by
        have := congrArg BitVec.toNat hnot.1
        rw [hsub] at this
        simp only [BitVec.ofNat_eq_ofNat, BitVec.toNat_ofNat, Nat.zero_mod] at this
        omega
      have herase := h.erase_prog (l := freed) hb (by omega) (by omega) fun x hx =>
        (count_cons_of_ne hx.symm).symm
      have hp := h.program a b hb
      have hlen := depth_erase hb
      obtain ⟨d', hd', hc, hle'⟩ := Consistent.deallocate_program
        (b := ⟨{ b.prog with ref := b.prog.ref - 1 }, b.numbers⟩) ih
        ⟨⟨hp.placed.size, hp.placed.int, hp.placed.null, hp.placed.room, hp.placed.types⟩,
          hp.whole, hp.loaded, hp.away⟩ (by omega) herase
      exact ⟨d', hd', hc, by omega⟩

/-! ## Line numbers come and go -/

theorem Consistent.set_lines (h : Consistent d w) (hb : d.programs.lookup a = some b)
    {blocks : Table word (List UInt8)} {line_info line_swap_index : word}
    (hp : p = { b.prog with line_info, file_info, line_swap_index }) (hinv : swap.Inv sw)
    (hroom : sw.state.last_data < 2147483648)
    (howned : ∀ held, tells (line_held p b.numbers) held + d.swapper.live.count held ≤
      tells (line_held b.prog b.numbers) held + sw.live.count held)
    (hindex : int_loc b.prog.line_swap_index ≠ none → line_swap_index = b.prog.line_swap_index)
    (hlines : ∀ x, line_at x a ⟨p, b.numbers⟩ ≤ line_at x a b ∨
      weight (line_at x) d.programs + (w.lines.map Prod.fst).count x = 0)
    (hkeep : ∀ y info, d.line_blocks.lookup y = some info →
      (b.prog.line_info ≠ 0 → y ≠ b.prog.file_info) → blocks.lookup y = some info)
    (hloaded : line_info ≠ 0 → blocks.lookup file_info = some b.numbers ∧ file_info ≠ 0)
    (haway : line_info = 0 → file_info = 0 ∧ int_loc line_swap_index ≠ none) :
    Consistent { d with
      swapper := sw
      line_blocks := blocks
      programs := d.programs.insert a ⟨p, b.numbers⟩ } w := by
  have hpb := h.program a b hb
  have hinherit : inherit_progs a p = inherit_progs a b.prog := by rw [hp]; rfl
  refine ⟨hinv, hroom, fun held => ?_, fun x hx => ?_, fun x => ?_, fun e he => ?_,
    fun x c hc => ?_, fun i o ho => ?_⟩
  · have hweight := weight_update (g := prog_owns held) (b := ⟨p, b.numbers⟩) hb
    have hown := h.owned held
    have hnew := howned held
    simp only [owners, prog_owns] at hweight hown ⊢
    omega
  · have hweight := weight_update (g := prog_holds x) (b := ⟨p, b.numbers⟩) hb
    have hheld := h.held x
    simp only [prog_holds, hinherit] at hweight
    simp only [holders] at hheld hx ⊢
    obtain ⟨c, hc, hle⟩ := hheld (by omega)
    by_cases hxa : x = a
    · subst hxa
      cases hb.symm.trans hc
      refine ⟨_, AList.lookup_insert _, ?_⟩
      have href : p.ref = b.prog.ref := by rw [hp]
      dsimp only
      rw [href]
      omega
    · refine ⟨c, by rw [AList.lookup_insert_ne hxa, hc], ?_⟩
      omega
  · have hweight := weight_update (g := line_at x) (b := ⟨p, b.numbers⟩) hb
    have hline := h.lines x
    have hone : line_at x a ⟨p, b.numbers⟩ ≤ 1 := by
      unfold line_at
      split <;> omega
    dsimp only
    rcases hlines x with hle | hzero
    · omega
    · omega
  · apply hkeep _ _ (h.owing e he)
    rintro hinfo heq
    have hpos : 0 < (w.lines.map Prod.fst).count e.1 :=
      count_pos_iff.mpr (mem_map_of_mem he)
    have hline := h.lines e.1
    have hle := le_weight (g := line_at e.1) hb
    simp only [line_at, ne_eq, hinfo, not_false_eq_true, heq, and_self, if_true] at hle hline hpos
    omega
  · by_cases hxa : x = a
    · subst hxa
      rw [AList.lookup_insert, Option.some.injEq] at hc
      subst hc hp
      exact ⟨⟨hpb.placed.size, hpb.placed.int, hpb.placed.null, hpb.placed.room,
        hpb.placed.types⟩, hpb.whole, hloaded, haway⟩
    · rw [AList.lookup_insert_ne hxa] at hc
      have hpc := h.program x c hc
      refine ⟨hpc.placed, hpc.whole, fun hinfo => ⟨?_, (hpc.loaded hinfo).2⟩, hpc.away⟩
      apply hkeep _ _ (hpc.loaded hinfo).1
      intro hinfo' heq
      have hpair := pair_le_weight (g := line_at b.prog.file_info) hxa hb hc
      have hline := h.lines b.prog.file_info
      simp only [line_at, ne_eq, hinfo, hinfo', not_false_eq_true, heq, and_self, if_true] at hpair hline
      omega
  · apply (h.object i o ho).update ⟨p, b.numbers⟩ rfl hb rfl
    intro hne
    rw [hp, hindex hne]
    rfl

/-- The write of the line numbers of a program is all right, if there is one. -/
def LinesOk (time_to_swap : Int) (io : IoResult) (d : driver_t) (prog : word) : Prop :=
  ∀ b ∈ d.programs.lookup prog, b.prog.line_info = 0 ∨ int_loc b.prog.line_swap_index ≠ none ∨
    ∀ info ∈ d.line_blocks.lookup b.prog.file_info,
      WriteOk time_to_swap d.swapper io (line_block info)

/-- The line numbers of a program are on file, or the file takes them. -/
def LinesGoOut (io : IoResult) (d : driver_t) (prog : word) : Prop :=
  ∀ b ∈ d.programs.lookup prog, b.prog.line_info = 0 ∨ int_loc b.prog.line_swap_index ≠ none ∨
    ∀ info ∈ d.line_blocks.lookup b.prog.file_info,
      (d.swapper.state.swap_file.isSome ∨ io.opened = true) ∧
        (line_block info).val.length + SIZEOF_INT ≤ io.written ∧ (line_block info).val ≠ []

theorem loc_int_of_int_loc (h : int_loc x = some loc) : loc_int (some loc) = x := by
  unfold int_loc at h
  split at h
  · cases h
  · cases h
    simp [loc_int]

theorem int_loc_loc_int (h : loc < 2147483648) : int_loc (loc_int (some loc)) = some loc := by
  unfold int_loc loc_int
  have hne : (BitVec.ofNat 32 loc) ≠ -1 := by
    intro heq
    have := congrArg BitVec.toNat heq
    simp at this
    omega
  rw [if_neg hne]
  simp
  omega

structure LinesSwapped (d d' : driver_t) (a : word) (b b' : prog_block) : Prop where
  lookup : d'.programs.lookup a = some b'
  others : ∀ x, x ≠ a → d'.programs.lookup x = d.programs.lookup x
  objects : d'.objects = d.objects
  simul : d'.simul_efun_ob = d.simul_efun_ob
  numbers : b'.numbers = b.numbers
  prog : { normal b'.prog with line_swap_index := 0 } = { normal b.prog with line_swap_index := 0 }
  ref : b'.prog.ref = b.prog.ref
  func_ref : b'.prog.func_ref = b.prog.func_ref

theorem loc_lt_of_live {w : Swapper} (h : swap.Inv w) (hroom : w.state.last_data < 2147483648)
    {held : Nat × mem_block} (hmem : held ∈ w.live) : held.1 < 2147483648 := by
  have hle := h.tiles.fin_le (s := heldSpan held) (by
    simp only [Swapper.liveSpans, mem_append]
    exact Or.inl (mem_map_of_mem hmem)) (by simp [heldSpan, SIZEOF_INT])
  simp only [spans.Span.fin, heldSpan] at hle
  omega

theorem Consistent.swap_line_numbers {time_to_swap : Int} {io : IoResult} (h : Consistent d w)
    {a : word} {b : prog_block} (hb : d.programs.lookup a = some b)
    (hok : LinesOk time_to_swap io d a) :
    ∃ d' b', program_swap.swap_line_numbers time_to_swap io d a = some d' ∧ Consistent d' w ∧
      LinesSwapped d d' a b b' ∧
      (LinesGoOut io d a → time_to_swap ≠ 0 → b'.prog.line_info = 0) := by
  have hpb := h.program a b hb
  by_cases hinfo : b.prog.line_info = 0
  · refine ⟨d, b, by simp [program_swap.swap_line_numbers, hb, hinfo], h,
      ⟨hb, fun _ _ => rfl, rfl, rfl, rfl, rfl, rfl, rfl⟩, fun _ _ => hinfo⟩
  obtain ⟨hblock, hfile⟩ := hpb.loaded hinfo
  have hrun : ∀ r, out time_to_swap io d.swapper (line_block b.numbers)
      (int_loc b.prog.line_swap_index) = r →
      program_swap.swap_line_numbers time_to_swap io d a = some (if r.1 then { d with
        swapper := r.2.2
        line_blocks := d.line_blocks.erase b.prog.file_info
        programs := d.programs.insert a ⟨{ b.prog with
          line_swap_index := loc_int r.2.1, file_info := 0, line_info := 0 }, b.numbers⟩ }
      else { d with
        swapper := r.2.2
        programs := d.programs.insert a ⟨{ b.prog with
          line_swap_index := loc_int r.2.1 }, b.numbers⟩ }) := by
    rintro r rfl
    simp only [program_swap.swap_line_numbers, hb, Option.bind_eq_bind, Option.bind_some, hblock,
      if_neg hinfo]
    split <;> rfl
  have hswapped : ∀ {sw : Swapper} {blocks : Table word (List UInt8)}
      {line_info file_info line_swap_index : word},
      LinesSwapped d { d with
        swapper := sw
        line_blocks := blocks
        programs := d.programs.insert a ⟨{ b.prog with
          line_swap_index, file_info, line_info }, b.numbers⟩ } a b
        ⟨{ b.prog with line_swap_index, file_info, line_info }, b.numbers⟩ := fun {_ _ _ _ _} =>
    ⟨AList.lookup_insert _, fun x hx => AList.lookup_insert_ne hx, rfl, rfl, rfl, rfl, rfl, rfl⟩
  have hgone : ∀ x (p : program_t), p.line_info = 0 → line_at x a ⟨p, b.numbers⟩ ≤ line_at x a b :=
    fun x p hp => by simp [line_at, hp]
  have hkeep : ∀ y info, d.line_blocks.lookup y = some info →
      (b.prog.line_info ≠ 0 → y ≠ b.prog.file_info) →
      (d.line_blocks.erase b.prog.file_info).lookup y = some info := fun y info hy hne => by
    rw [AList.lookup_erase_ne (hne hinfo), hy]
  cases hloc : int_loc b.prog.line_swap_index with
  | none =>
    have hwrite := ((hok b hb).resolve_left hinfo).resolve_left (not_not.mpr hloc) _ hblock
    rw [hloc] at hrun
    obtain ⟨hinv, hroom, hlive⟩ := out_none h.swapper hwrite
    have hline : line_held b.prog b.numbers = none := by simp [line_held, hloc]
    rcases hlive with ⟨hfail, hlocp, hlive⟩ | ⟨loc, hdone, hlocp, hlive⟩
    · have hrun := hrun _ rfl
      rw [hfail, if_neg Bool.false_ne_true, hlocp] at hrun
      refine ⟨_, _, hrun, ?_, hswapped, ?_⟩
      · refine h.set_lines hb rfl hinv hroom (fun held => ?_) (fun hne => absurd hloc hne)
          (fun x => Or.inl (Nat.le_refl _)) (fun _ _ hy _ => hy) (fun _ => ⟨hblock, hfile⟩)
          fun h0 => absurd h0 hinfo
        rw [hlive, hline]
        exact Nat.le_refl _
      · intro hgo htime
        obtain ⟨hopen, hwritten, hne⟩ :=
          ((hgo b hb).resolve_left hinfo).resolve_left (not_not.mpr hloc) _ hblock
        simp [out_writes htime hopen hwritten hne] at hfail
    · have hrun := hrun _ rfl
      rw [hdone, if_pos rfl, hlocp] at hrun
      have hlt : loc < 2147483648 :=
        loc_lt_of_live hinv hroom (hlive ▸ mem_cons_self : (loc, line_block b.numbers) ∈ _)
      have hback := int_loc_loc_int hlt
      refine ⟨_, _, hrun, ?_, hswapped, fun _ _ => rfl⟩
      refine h.set_lines hb rfl hinv hroom (fun held => ?_) (fun hne => absurd hloc hne)
        (fun x => Or.inl (hgone x _ rfl)) hkeep (fun h0 => absurd rfl h0)
        fun _ => ⟨rfl, by simp [hback]⟩
      rw [hlive, hline, count_cons_tells]
      simp [line_held, hback]
  | some loc =>
    have hheld : line_held b.prog b.numbers = some (loc, line_block b.numbers) := by
      simp [line_held, hloc]
    obtain ⟨w', hout, hinv, hlive, hroom⟩ := @out_some time_to_swap io _ _ _
      h.swapper h.room (h.line_live hb hheld)
    have hrun := hrun (decide (time_to_swap ≠ 0), some loc, w') (by rw [hloc, hout])
    rw [loc_int_of_int_loc hloc] at hrun
    by_cases htime : time_to_swap = 0
    · rw [if_neg (by simp [htime])] at hrun
      refine ⟨_, _, hrun, ?_, hswapped, fun _ hne => absurd htime hne⟩
      refine h.set_lines hb rfl hinv hroom (fun held => ?_) (fun _ => rfl)
        (fun x => Or.inl (Nat.le_refl _)) (fun _ _ hy _ => hy) (fun _ => ⟨hblock, hfile⟩)
        fun h0 => absurd h0 hinfo
      rw [hlive]
    · rw [if_pos (by simp [htime])] at hrun
      refine ⟨_, _, hrun, ?_, hswapped, fun _ _ => rfl⟩
      refine h.set_lines hb rfl hinv hroom (fun held => ?_) (fun _ => rfl)
        (fun x => Or.inl (hgone x _ rfl)) hkeep (fun h0 => absurd rfl h0)
        fun _ => ⟨rfl, by simp [hloc]⟩
      rw [hlive]
      exact Nat.le_refl _

theorem Consistent.no_line_at (h : Consistent d w) (hx : d.line_blocks.lookup x = none) :
    weight (line_at x) d.programs + (w.lines.map Prod.fst).count x = 0 := by
  rw [Nat.add_eq_zero_iff]
  constructor
  · by_contra hne
    obtain ⟨a, b, hb, hpos⟩ := exists_of_weight_pos (Nat.pos_of_ne_zero hne)
    unfold line_at at hpos
    split at hpos
    · rename_i hat
      have := ((h.program a b hb).loaded hat.1).1
      rw [hat.2, hx] at this
      cases this
    · omega
  · apply count_eq_zero.mpr
    intro hmem
    obtain ⟨e, he, rfl⟩ := mem_map.mp hmem
    simp [h.owing e he] at hx

theorem add_ne_zero {size : Nat} (hx : x ≠ 0) (hn : n ≤ size) (hroom : x.toNat + size < 4294967296) :
    x + .ofNat 32 n ≠ 0 := by
  have hpos : x.toNat ≠ 0 := fun h => hx (BitVec.eq_of_toNat_eq h)
  intro heq
  have := congrArg BitVec.toNat heq
  rw [BitVec.toNat_add, BitVec.toNat_ofNat] at this
  simp only [BitVec.ofNat_eq_ofNat, BitVec.toNat_ofNat, Nat.zero_mod] at this
  omega

theorem Consistent.load_line_numbers (h : Consistent d w)
    (hs : program_swap.load_line_numbers d a x = some d') : Consistent d' w := by
  unfold program_swap.load_line_numbers at hs
  obtain ⟨b, hb, hs⟩ := Option.bind_eq_some_iff.mp hs
  split at hs
  · cases hs
    exact h
  rename_i hinfo
  rw [not_not] at hinfo
  obtain ⟨loc, hloc, hs⟩ := Option.bind_eq_some_iff.mp hs
  have hwhole := (h.program a b hb).whole
  rw [line_numbers_on_file h.swapper hwhole (h.line_live hb (by simp [line_held, hloc]))] at hs
  dsimp only at hs
  split at hs
  · rename_i hfresh
    obtain ⟨hnull, hroom, -, hblock⟩ := hfresh
    cases hs
    have hne := add_ne_zero hnull hwhole.place hroom
    refine h.set_lines hb rfl h.swapper h.room (fun held => Nat.le_refl _) (fun _ => rfl)
      (fun y => ?_) (fun y info hy _ => ?_) (fun _ => ⟨AList.lookup_insert _, hnull⟩)
      fun h0 => absurd h0 hne
    · by_cases hy : x = y
      · subst hy
        exact Or.inr (h.no_line_at hblock)
      · exact Or.inl (by simp [line_at, hy])
    · rw [AList.lookup_insert_ne, hy]
      rintro rfl
      simp [hblock] at hy
  · cases hs

/-! ## Objects come and go -/

@[simp] theorem inherit_progs_relocate (a b : word) (p : program_t) :
    inherit_progs b (relocate (-a + b) p) = inherit_progs a p := by
  have hoffset : p.inherit + (-a + b) - b = p.inherit - a := by bv_omega
  simp [inherit_progs, relocate, hoffset]

theorem Placed.relocate {b : word} (h : Placed a p) (hnull : b ≠ 0)
    (hroom : b.toNat + p.total_size.toNat < 4294967296) :
    Placed b (relocate (-a + b) p) ∧
      (p.type_start ≠ 0 → p.type_start + (-a + b) ≠ 0) := by
  have htypes : p.type_start ≠ 0 → p.type_start + (-a + b) ≠ b ∧
      p.type_start + (-a + b) - b = p.type_start - a := fun hne => by
    have := (h.types hne).1
    constructor <;> bv_omega
  refine ⟨⟨h.size, h.int, hnull, hroom, fun hne => ?_⟩, fun hne heq => ?_⟩
  · by_cases hzero : p.type_start = 0
    · simp [program_swap.relocate, hzero] at hne
    · obtain ⟨h1, h2⟩ := htypes hzero
      simp only [program_swap.relocate, ne_eq, hzero, not_false_eq_true, if_true]
      rw [h2]
      exact ⟨h1, (h.types hzero).2⟩
  · obtain ⟨-, h2⟩ := htypes hne
    have hlt := (h.types hne).2
    rw [← h2, heq] at hlt
    bv_omega

theorem Consistent.image_on_file (h : Consistent d w) (ho : d.objects.lookup i = some o)
    {s : saved_t} (hs : o.saved = some s) (hkept : Kept s) (hloc : o.swap_num = some loc) :
    swap_in d.swapper.state (some loc) =
      (s.prog.total_size.toNat, bytes (locate_out s.start s.prog)) ∧
    ∃ block, image (locate_out s.start s.prog) = some block ∧ (loc, block) ∈ d.swapper.live ∧
      block.val.length = s.prog.total_size.toNat := by
  have hsize := hkept.placed.size
  have hint := hkept.placed.int
  obtain ⟨block, hblock, hval⟩ : ∃ block, image (locate_out s.start s.prog) = some block ∧
      block.val = bytes (locate_out s.start s.prog) := by
    apply image_of_size
    · rwa [locate_out_eq]
    · rwa [locate_out_eq]
  have hlength : block.val.length = s.prog.total_size.toNat := by
    rw [hval, length_bytes, hsize, locate_out_eq]
    rfl
  have hmem : (loc, block) ∈ d.swapper.live :=
    h.image_live ho (by simp [image_held, hloc, hs, hblock])
  refine ⟨?_, block, hblock, hmem, hlength⟩
  rw [h.swapper.contents _ hmem, hlength, hval]

theorem Consistent.set_object (h : Consistent d w) (ho : d.objects.lookup i = some o)
    (o' : object_t) (freed : List word) (blocks : List (Nat × mem_block))
    (howns : ∀ held, ob_owns held i o' + blocks.count held =
      ob_owns held i o + w.blocks.count held)
    (hholds : ∀ a, ob_holds a i o' + freed.count a = ob_holds a i o + w.freed.count a)
    (hok : ObjectOk d o') :
    Consistent { d with objects := d.objects.insert i o' } { w with freed, blocks } := by
  refine ⟨h.swapper, h.room, fun held => ?_, fun a ha => ?_, h.lines, h.owing, fun a b hb => ?_,
    fun j c hc => ?_⟩
  · have hweight := weight_update (g := ob_owns held) (b := o') ho
    have hown := h.owned held
    have := howns held
    simp only [owners] at hown ⊢
    omega
  · have hweight := weight_update (g := ob_holds a) (b := o') ho
    have hheld := h.held a
    have := hholds a
    simp only [holders] at hheld ha ⊢
    obtain ⟨b, hb, hle⟩ := hheld (by omega)
    exact ⟨b, hb, by omega⟩
  · exact { h.program a b hb with }
  · by_cases hj : j = i
    · subst hj
      rw [AList.lookup_insert, Option.some.injEq] at hc
      exact hc ▸ ⟨hok.away, hok.loaded⟩
    · rw [AList.lookup_insert_ne hj] at hc
      exact ⟨(h.object j c hc).away, (h.object j c hc).loaded⟩

theorem Consistent.new_object {freed referenced : List word} {blocks : List (Nat × mem_block)}
    {lines : List (word × List UInt8)} (h : Consistent d ⟨a :: freed, referenced, blocks, lines⟩)
    (hi : d.objects.lookup i = none) (O_CLONE : Bool) :
    Consistent { d with
      objects := d.objects.insert i ⟨a, none, false, false, false, O_CLONE, false, none⟩ }
      ⟨freed, referenced, blocks, lines⟩ := by
  refine ⟨h.swapper, h.room, fun held => ?_, fun x hx => ?_, h.lines, h.owing, fun x b hb => ?_,
    fun j c hc => ?_⟩
  · have hweight := weight_new (g := ob_owns held)
      (b := ⟨a, none, false, false, false, O_CLONE, false, none⟩) hi
    have hown := h.owned held
    simp only [owners, ob_owns, image_held, away_held, Option.bind_none, Bool.false_eq_true,
      if_false, tells_none] at hweight hown ⊢
    omega
  · have hweight := weight_new (g := ob_holds x)
      (b := ⟨a, none, false, false, false, O_CLONE, false, none⟩) hi
    have hheld := h.held x
    simp only [ob_holds, Bool.false_eq_true, if_false] at hweight
    simp only [holders, count_cons_tells] at hheld hx ⊢
    obtain ⟨b, hb, hle⟩ := hheld (by omega)
    exact ⟨b, hb, by omega⟩
  · exact { h.program x b hb with }
  · by_cases hj : j = i
    · subst hj
      rw [AList.lookup_insert, Option.some.injEq] at hc
      subst hc
      exact ⟨fun hs => (nomatch hs), fun _ loc hloc => (nomatch hloc)⟩
    · rw [AList.lookup_insert_ne hj] at hc
      exact ⟨(h.object j c hc).away, (h.object j c hc).loaded⟩

theorem Consistent.erase_object (h : Consistent d w) (ho : d.objects.lookup i = some o)
    (hswapped : o.O_SWAPPED = false) :
    Consistent { d with objects := d.objects.erase i } { w with freed := o.prog :: w.freed } := by
  refine ⟨h.swapper, h.room, fun held => ?_, fun x hx => ?_, h.lines, h.owing, fun x b hb => ?_,
    fun j c hc => ?_⟩
  · have hweight := weight_lookup (g := ob_owns held) ho
    have hown := h.owned held
    simp only [owners] at hown ⊢
    omega
  · have hweight := weight_lookup (g := ob_holds x) ho
    have hheld := h.held x
    have hone : ob_holds x i o = tells (some o.prog) x := by simp [ob_holds, hswapped]
    simp only [holders, count_cons_tells] at hheld hx ⊢
    obtain ⟨b, hb, hle⟩ := hheld (by omega)
    exact ⟨b, hb, by omega⟩
  · exact { h.program x b hb with }
  · have hj : j ≠ i := by
      rintro rfl
      simp at hc
    rw [AList.lookup_erase_ne hj] at hc
    exact ⟨(h.object j c hc).away, (h.object j c hc).loaded⟩

theorem Consistent.set_swapper (h : Consistent d w) (hinv : swap.Inv sw)
    (hroom : sw.state.last_data < 2147483648) (hlive : sw.live = d.swapper.live) :
    Consistent { d with swapper := sw } w := by
  refine ⟨hinv, hroom, fun held => ?_, h.held, h.lines, h.owing, fun a b hb => ?_, fun i o ho => ?_⟩
  · dsimp only
    rw [hlive]
    exact h.owned held
  · exact { h.program a b hb with }
  · exact ⟨(h.object i o ho).away, (h.object i o ho).loaded⟩

/-! ## Swapping out and in -/

/-- The write of a program is all right: its line numbers go out before it, and
it fits where it is written. A program that is on file is not written. -/
def SwapOk (time_to_swap : Int) (io_lines io : IoResult) (d : driver_t) (ob : Nat) : Prop :=
  ∀ o ∈ d.objects.lookup ob, LinesOk time_to_swap io_lines d o.prog ∧
    ∀ b ∈ d.programs.lookup o.prog, Refused o b.prog ∨ LinesGoOut io_lines d o.prog ∧
      (o.swap_num = none →
        ∀ d' ∈ program_swap.swap_line_numbers time_to_swap io_lines d o.prog,
        ∀ b' ∈ d'.programs.lookup o.prog, ∀ block ∈ image (locate_out o.prog b'.prog),
          WriteOk time_to_swap d'.swapper io block)

theorem swap_out_refused {w : Swapper} (locp : Option Nat) :
    out 0 io w block locp = (false, locp, w) := by simp [out, swap_out]

theorem Consistent.put_away (h : Consistent d Owing.nothing) (ho : d.objects.lookup i = some o)
    (hswapped : o.O_SWAPPED = false) (hb : d.programs.lookup o.prog = some b)
    (hnormal : normal b.prog = b.prog) (himage : image (locate_out o.prog b.prog) = some block)
    (hinv : swap.Inv sw) (hroom : sw.state.last_data < 2147483648)
    (hlive : ∀ held, tells (some (loc, block)) held + d.swapper.live.count held ≤
      tells (image_held o) held + sw.live.count held) :
    Consistent { d with
      swapper := sw
      programs := d.programs.erase o.prog
      objects := d.objects.insert i { o with
        prog := 0
        swap_num := some loc
        O_SWAPPED := true
        saved := some ⟨o.prog, b.prog, b.numbers⟩ } } Owing.nothing := by
  have hpb := h.program o.prog b hb
  have hinfo : b.prog.line_info = 0 := by rw [← hnormal]; rfl
  have href : b.prog.ref = 1 := by rw [← hnormal]; rfl
  have hkept : Kept ⟨o.prog, b.prog, b.numbers⟩ :=
    ⟨hpb.placed, hnormal, (hpb.away hinfo).2, hpb.whole⟩
  -- nothing else holds the program
  have hself := le_weight (g := ob_holds o.prog) ho
  have hone : ∀ x, ob_holds x i o = tells (some o.prog) x := fun x => by simp [ob_holds, hswapped]
  obtain ⟨c, hc, hle⟩ := h.held o.prog (by
    simp only [holders, hone, tells_self] at hself ⊢
    omega)
  cases hb.symm.trans hc
  rw [href] at hle
  have hle : holders d o.prog ≤ 1 := hle
  refine ⟨hinv, hroom, fun held => ?_, fun x hx => ?_, fun x => ?_, fun e he => (nomatch he),
    fun x c hc => ?_, fun j c hc => ?_⟩
  · have hobject := weight_update (g := ob_owns held) (b := { o with
      prog := 0
      swap_num := some loc
      O_SWAPPED := true
      saved := some ⟨o.prog, b.prog, b.numbers⟩ }) ho
    have hprogram := weight_lookup (g := prog_owns held) hb
    have hown := h.owned held
    have hnew := hlive held
    simp only [ob_owns, image_held, away_held, hswapped, Option.bind_some, himage, Option.map_some,
      if_true, Bool.false_eq_true, if_false, tells_none] at hobject
    simp only [image_held] at hnew
    simp only [owners, prog_owns] at hprogram hown ⊢
    omega
  · have hobject := weight_update (g := ob_holds x) (b := { o with
      prog := 0
      swap_num := some loc
      O_SWAPPED := true
      saved := some ⟨o.prog, b.prog, b.numbers⟩ }) ho
    have hprogram := weight_lookup (g := prog_holds x) hb
    have hheld := h.held x
    rw [hone] at hobject
    have hnew : ob_holds x i { o with
        prog := 0
        swap_num := some loc
        O_SWAPPED := true
        saved := some ⟨o.prog, b.prog, b.numbers⟩ } = prog_holds x o.prog b := rfl
    rw [hnew] at hobject
    simp only [holders, Owing.nothing, count_nil, Nat.add_zero] at hheld hle hx ⊢
    by_cases hxa : x = o.prog
    · subst hxa
      rw [tells_self] at hobject
      omega
    · have hzero : tells (some o.prog) x = 0 := by
        unfold tells
        rw [if_neg]
        exact fun heq => hxa (Option.some.inj heq).symm
      obtain ⟨c, hc, hle⟩ := hheld (by omega)
      refine ⟨c, ?_, by omega⟩
      rw [AList.lookup_erase_ne hxa, hc]
  · have hprogram := weight_lookup (g := line_at x) hb
    have hline := h.lines x
    simp only [Owing.nothing, map_nil, count_nil] at hline ⊢
    omega
  · have hxa : x ≠ o.prog := by
      rintro rfl
      simp at hc
    rw [AList.lookup_erase_ne hxa] at hc
    exact { h.program x c hc with }
  · by_cases hj : j = i
    · subst hj
      rw [AList.lookup_insert, Option.some.injEq] at hc
      subst hc
      exact ⟨fun _ => ⟨_, loc, rfl, rfl, hkept⟩, fun hs => nomatch hs⟩
    · rw [AList.lookup_insert_ne hj] at hc
      refine ⟨(h.object j c hc).away, fun hs loc hloc => ?_⟩
      obtain ⟨s, e, hs', hk, he, hrest⟩ := (h.object j c hc).loaded hs loc hloc
      refine ⟨s, e, hs', hk, ?_, hrest⟩
      have hne : c.prog ≠ o.prog := by
        intro heq
        have hpair := pair_le_weight (g := ob_holds o.prog) hj ho hc
        have hsecond : ob_holds o.prog j c = 1 := by simp [ob_holds, hs, heq]
        rw [hone, tells_self, hsecond] at hpair
        simp only [holders] at hle
        omega
      rw [AList.lookup_erase_ne hne, he]

/-- A program that is not refused, and has its line numbers on file, has the
fields that a program on file has. -/
theorem Consistent.normal_of_alone (h : Consistent d Owing.nothing)
    (ho : d.objects.lookup i = some o) (hswapped : o.O_SWAPPED = false)
    (hb : d.programs.lookup o.prog = some b) (hrefused : ¬ Refused o b.prog)
    (hinfo : b.prog.line_info = 0) : normal b.prog = b.prog := by
  have hself := le_weight (g := ob_holds o.prog) ho
  have hone : ob_holds o.prog i o = 1 := by simp [ob_holds, hswapped]
  obtain ⟨c, hc, hle⟩ := h.held o.prog (by simp only [holders]; omega)
  cases hb.symm.trans hc
  unfold Refused at hrefused
  simp only [not_or] at hrefused
  obtain ⟨-, ⟨hmany, -⟩, hfunc⟩ := hrefused
  have href : b.prog.ref = 1 := by
    apply BitVec.eq_of_toNat_eq
    simp only [holders, Owing.nothing, count_nil] at hle
    simp
    omega
  have hfunc_ref : b.prog.func_ref = 0 := by
    apply BitVec.eq_of_toNat_eq
    simp
    omega
  have hfile := ((h.program o.prog b hb).away hinfo).1
  exact normal_eq href hfunc_ref hinfo hfile

theorem Consistent.swap {io_lines : IoResult} {ob : Nat} (h : Consistent d Owing.nothing)
    (hok : SwapOk time_to_swap io_lines io d ob)
    (hs : program_swap.swap time_to_swap io_lines io d ob = some d') :
    Consistent d' Owing.nothing := by
  unfold program_swap.swap at hs
  obtain ⟨o, ho, hs⟩ := Option.bind_eq_some_iff.mp hs
  obtain ⟨hlinesok, hwriteok⟩ := hok o ho
  cases hswapped : o.O_SWAPPED with
  | true => simp [hswapped] at hs
  | false =>
    dsimp only at hs
    rw [if_neg (by simp [hswapped])] at hs
    split at hs
    · cases hs
      exact h
    split at hs
    · cases hs
      exact h
    obtain ⟨b, hb⟩ := h.exists_of_prog ho hswapped
    obtain ⟨d1, b1, hrun, h1, hl, hgo⟩ := h.swap_line_numbers hb hlinesok
    rw [hrun, Option.bind_eq_bind, Option.bind_some, hl.lookup, Option.bind_eq_bind,
      Option.bind_some] at hs
    have ho1 : d1.objects.lookup ob = some o := hl.objects ▸ ho
    split at hs
    · cases hs
      exact h1
    rename_i hrefused
    obtain ⟨block, himage, hs⟩ := Option.bind_eq_some_iff.mp hs
    have hrefused' : ¬ Refused o b.prog := by
      unfold Refused at hrefused ⊢
      rwa [hl.ref, hl.func_ref] at hrefused
    obtain ⟨hgoout, hwrite⟩ := (hwriteok b hb).resolve_left hrefused'
    -- a refusal leaves all as it is
    have hstay : ∀ sw : Swapper, swap.Inv sw → sw.state.last_data < 2147483648 →
        sw.live = d1.swapper.live → Consistent { d1 with
          swapper := sw
          objects := d1.objects.insert ob o } Owing.nothing := fun sw hinv hroom hlive =>
      (h1.set_swapper hinv hroom hlive).set_object ho1 o [] [] (fun _ => rfl) (fun _ => rfl)
        ⟨(h1.object ob o ho1).away, (h1.object ob o ho1).loaded⟩
    by_cases htime : time_to_swap = 0
    · rw [htime, swap_out_refused] at hs
      cases hs
      exact hstay d1.swapper h1.swapper h1.room rfl
    have hnormal := h1.normal_of_alone ho1 hswapped hl.lookup hrefused (hgo hgoout htime)
    have hone : b1.prog.ref = 1 := by rw [← hnormal]; rfl
    have href : (locate_out o.prog b1.prog).ref - 1 = 0 := by
      rw [locate_out_eq]
      show b1.prog.ref - 1 = 0
      rw [hone]
      rfl
    cases hnum : o.swap_num with
    | none =>
      rw [hnum] at hs
      have hwritten := out_none h1.swapper (hwrite hnum d1 hrun b1 hl.lookup block himage)
      obtain ⟨hinv, hroom, hlive⟩ := hwritten
      rcases hout : out time_to_swap io d1.swapper block none with ⟨ok, locp, sw⟩
      rw [hout] at hs hinv hroom hlive
      dsimp only at hinv hroom hlive
      rcases hlive with ⟨rfl, rfl, hlive⟩ | ⟨loc, rfl, rfl, hlive⟩
      · cases hs
        rw [← hnum]
        exact hstay sw hinv hroom hlive
      · cases hs
        rw [if_neg (not_not.mpr href)]
        refine h1.put_away ho1 hswapped hl.lookup hnormal himage hinv hroom fun held => ?_
        rw [hlive, count_cons_tells]
        omega
    | some loc =>
      rw [hnum] at hs
      obtain ⟨s, c, hsaved, hkept, hc, hlocate, -⟩ := (h1.object ob o ho1).loaded hswapped loc hnum
      cases hl.lookup.symm.trans hc
      have hsame : locate_out o.prog b1.prog = locate_out s.start s.prog := by
        rw [← hlocate, locate_out_eq, normal_relocate, hnormal]
      have hheld : image_held o = some (loc, block) := by
        simp [image_held, hnum, hsaved, ← hsame, himage]
      obtain ⟨sw, hout, hinv, hlive, hroom⟩ := @out_some time_to_swap io _ _ _
        h1.swapper h1.room (h1.image_live ho1 hheld)
      rw [hout, decide_eq_true htime] at hs
      cases hs
      rw [if_neg (not_not.mpr href)]
      refine h1.put_away ho1 hswapped hl.lookup hnormal himage hinv hroom fun held => ?_
      rw [hlive, hheld]

theorem Consistent.load_eq (h : Consistent d w) (ho : d.objects.lookup i = some o) {s : saved_t}
    (hs : o.saved = some s) (hkept : Kept s) (hloc : o.swap_num = some loc) (start : word) :
    program_swap.load_ob_from_swap d i start =
      if Fresh d start s.prog.total_size.toNat then some { d with
        programs := d.programs.insert start ⟨relocate (-s.start + start) s.prog, s.numbers⟩
        objects := d.objects.insert i { o with prog := start, O_SWAPPED := false } }
      else none := by
  obtain ⟨hread, -⟩ := h.image_on_file ho hs hkept hloc
  unfold program_swap.load_ob_from_swap
  simp only [ho, Option.bind_eq_bind, Option.bind_some, hloc, hread, of_bytes_bytes, hs,
    Option.map_some, Option.getD_some, locate_in_locate_out hkept.placed]
  rfl

theorem Consistent.load_ob_from_swap (h : Consistent d w) (ho : d.objects.lookup i = some o)
    (hswapped : o.O_SWAPPED = true) {start : word}
    (hs : program_swap.load_ob_from_swap d i start = some d') :
    Consistent d' w ∧ d'.objects.lookup i = some { o with prog := start, O_SWAPPED := false } := by
  obtain ⟨s, loc, hsaved, hloc, hkept⟩ := (h.object i o ho).away hswapped
  rw [h.load_eq ho hsaved hkept hloc] at hs
  split at hs
  case isFalse => cases hs
  rename_i hfresh
  obtain ⟨hnull, hroom, hnew, -⟩ := hfresh
  cases hs
  refine ⟨?_, AList.lookup_insert _⟩
  have hnormal := hkept.normal
  have hinfo : s.prog.line_info = 0 := by rw [← hnormal]; rfl
  have hfile : s.prog.file_info = 0 := by rw [← hnormal]; rfl
  have href : s.prog.ref = 1 := by rw [← hnormal]; rfl
  obtain ⟨hplaced, htypes⟩ := hkept.placed.relocate hnull hroom
  have hzero : holders d start + w.freed.count start = 0 := by
    by_contra hne
    obtain ⟨b, hb, -⟩ := h.held start (Nat.pos_of_ne_zero hne)
    simp [hnew] at hb
  have hothers : ∀ x, x ≠ start → tells (some start) x = 0 := fun x hx => by
    unfold tells
    rw [if_neg]
    exact fun heq => hx (Option.some.inj heq).symm
  refine ⟨h.swapper, h.room, fun held => ?_, fun x hx => ?_, fun x => ?_, h.owing,
    fun x c hc => ?_, fun j c hc => ?_⟩
  · have hobject := weight_update (g := ob_owns held)
      (b := { o with prog := start, O_SWAPPED := false }) ho
    have hprogram := weight_new (g := prog_owns held)
      (b := ⟨relocate (-s.start + start) s.prog, s.numbers⟩) hnew
    have hline : prog_owns held start ⟨relocate (-s.start + start) s.prog, s.numbers⟩ =
        tells (line_held s.prog s.numbers) held := rfl
    have hout : ob_owns held i o =
        tells (image_held o) held + tells (line_held s.prog s.numbers) held := by
      simp [ob_owns, away_held, hswapped, hsaved]
    have hin : ob_owns held i { o with prog := start, O_SWAPPED := false } =
        tells (image_held o) held := by
      simp [ob_owns, away_held, image_held]
    have hown := h.owned held
    rw [hout, hin] at hobject
    simp only [owners] at hown ⊢
    omega
  · have hobject := weight_update (g := ob_holds x)
      (b := { o with prog := start, O_SWAPPED := false }) ho
    have hprogram := weight_new (g := prog_holds x)
      (b := ⟨relocate (-s.start + start) s.prog, s.numbers⟩) hnew
    have hout : ob_holds x i o = (inherit_progs s.start s.prog).count x := by
      simp [ob_holds, hswapped, hsaved]
    have hin : ob_holds x i { o with prog := start, O_SWAPPED := false } = tells (some start) x := by
      simp [ob_holds]
    have hrest : prog_holds x start ⟨relocate (-s.start + start) s.prog, s.numbers⟩ =
        (inherit_progs s.start s.prog).count x := by
      simp [prog_holds]
    have hheld := h.held x
    rw [hout, hin] at hobject
    rw [hrest] at hprogram
    simp only [holders] at hheld hzero hx ⊢
    by_cases hxs : x = start
    · subst hxs
      rw [tells_self] at hobject
      refine ⟨_, AList.lookup_insert _, ?_⟩
      show _ ≤ s.prog.ref.toNat + _
      rw [href]
      simp only [BitVec.ofNat_eq_ofNat, BitVec.toNat_ofNat]
      omega
    · have hnone := hothers x hxs
      obtain ⟨b, hb, hle⟩ := hheld (by omega)
      refine ⟨b, ?_, by omega⟩
      rw [AList.lookup_insert_ne hxs, hb]
  · have hprogram := weight_new (g := line_at x)
      (b := ⟨relocate (-s.start + start) s.prog, s.numbers⟩) hnew
    have hline : line_at x start ⟨relocate (-s.start + start) s.prog, s.numbers⟩ = 0 := by
      unfold line_at
      rw [if_neg]
      exact fun hat => hat.1 hinfo
    have := h.lines x
    dsimp only
    omega
  · by_cases hxs : x = start
    · subst hxs
      rw [AList.lookup_insert, Option.some.injEq] at hc
      subst hc
      exact ⟨hplaced, hkept.whole, fun hne => absurd hinfo hne, fun _ => ⟨hfile, hkept.lines⟩⟩
    · rw [AList.lookup_insert_ne hxs] at hc
      exact { h.program x c hc with }
  · by_cases hj : j = i
    · subst hj
      rw [AList.lookup_insert, Option.some.injEq] at hc
      subst hc
      refine ⟨fun hs => (nomatch hs), fun _ loc' hloc' => ?_⟩
      refine ⟨s, _, hsaved, hkept, AList.lookup_insert _, ?_, rfl⟩
      have hback : -s.start + start + -start = -s.start := by bv_omega
      rw [locate_out_eq, relocate_relocate htypes, normal_relocate, hnormal, hback, locate_out_eq]
    · rw [AList.lookup_insert_ne hj] at hc
      refine ⟨(h.object j c hc).away, fun hs loc' hloc' => ?_⟩
      obtain ⟨s', e, hs', hk, he, hrest⟩ := (h.object j c hc).loaded hs loc' hloc'
      refine ⟨s', e, hs', hk, ?_, hrest⟩
      have hne : c.prog ≠ start := by
        rintro heq
        rw [heq, hnew] at he
        cases he
      rw [AList.lookup_insert_ne hne, he]

/-! ## The other steps -/

theorem Consistent.held_le (h : Consistent d w) (hb : d.programs.lookup a = some b) :
    holders d a + w.freed.count a ≤ b.prog.ref.toNat + w.referenced.count a := by
  by_cases hpos : 0 < holders d a + w.freed.count a
  · obtain ⟨c, hc, hle⟩ := h.held a hpos
    rw [hb, Option.some.injEq] at hc
    exact hc ▸ hle
  · omega

theorem reference_prog_eq_some (hs : program_swap.reference_prog d a = some d') :
    ∃ b, d.programs.lookup a = some b := by
  unfold program_swap.reference_prog at hs
  obtain ⟨b, hb, -⟩ := Option.bind_eq_some_iff.mp hs
  exact ⟨b, hb⟩

def RefOk (d : driver_t) (a : word) : Prop := ∀ b ∈ d.programs.lookup a, b.prog.ref.toNat < 65535

theorem Consistent.replace_program (h : Consistent d Owing.nothing)
    (hnum : ∀ o ∈ d.objects.lookup i, o.swap_num = none) (href : RefOk d a)
    (hs : program_swap.replace_program d i a = some d') : Consistent d' Owing.nothing := by
  unfold program_swap.replace_program at hs
  obtain ⟨o, ho, hs⟩ := Option.bind_eq_some_iff.mp hs
  dsimp only at hs
  split at hs
  · cases hs
  rename_i hnot
  rw [not_or, Bool.not_eq_true] at hnot
  obtain ⟨d1, hd1, hs⟩ := Option.bind_eq_some_iff.mp hs
  obtain ⟨b, hb⟩ := reference_prog_eq_some hd1
  obtain ⟨heq, h1⟩ := h.reference_prog hb (href b hb) (h.held_le hb)
  cases heq.symm.trans hd1
  have hone : ∀ x p, ob_holds x i { o with prog := p } = tells (some p) x := fun x p => by
    simp [ob_holds, hnot.1]
  have h2 := h1.set_object ho { o with prog := a } [o.prog] []
    (fun held => rfl) (fun x => by
      rw [hone, show o = { o with prog := o.prog } from rfl, hone, count_cons_tells,
        count_cons_tells]
      simp only [Owing.nothing, count_nil]
      omega)
    ⟨fun hs => absurd hs (by simp [hnot.1]), fun _ loc hloc => by simp [hnum o ho] at hloc⟩
  obtain ⟨d2, hd2, h3, -⟩ := Consistent.free_prog (depth _) _ _ _ _ _ (Nat.le_refl _) h2
  cases hs.symm.trans hd2
  exact h3

theorem Consistent.remove_swap_file (h : Consistent d Owing.nothing) {start : word}
    (hs : program_swap.remove_swap_file d i start = some d') :
    Consistent d' Owing.nothing ∧
      ∃ o, d'.objects.lookup i = some o ∧ o.O_SWAPPED = false ∧ o.swap_num = none := by
  unfold program_swap.remove_swap_file at hs
  obtain ⟨o, ho, hs⟩ := Option.bind_eq_some_iff.mp hs
  obtain ⟨d1, hd1, hs⟩ := Option.bind_eq_some_iff.mp hs
  obtain ⟨h1, o1, ho1, hswapped⟩ : Consistent d1 Owing.nothing ∧
      ∃ o1, d1.objects.lookup i = some o1 ∧ o1.O_SWAPPED = false := by
    cases hswapped : o.O_SWAPPED with
    | false =>
      rw [hswapped, if_neg Bool.false_ne_true] at hd1
      cases hd1
      exact ⟨h, o, ho, hswapped⟩
    | true =>
      rw [hswapped, if_pos rfl] at hd1
      obtain ⟨h1, ho1⟩ := h.load_ob_from_swap ho hswapped hd1
      exact ⟨h1, _, ho1, rfl⟩
  simp only [Option.bind_eq_bind, ho1, Option.bind_some, Option.bind_eq_some_iff] at hs
  obtain ⟨b, hb, loc, hloc, hs⟩ := hs
  obtain ⟨s, c, hsaved, hkept, hc, hlocate, -⟩ := (h1.object i o1 ho1).loaded hswapped loc hloc
  cases hb.symm.trans hc
  obtain ⟨-, block, hblock, -, hlength⟩ := h1.image_on_file ho1 hsaved hkept hloc
  have hsize : b.prog.total_size = s.prog.total_size := by
    have := congrArg program_t.total_size hlocate
    rwa [locate_out_eq, locate_out_eq] at this
  have himage : image_held o1 = some (loc, block) := by
    simp [image_held, hloc, hsaved, hblock]
  have h2 := h1.set_object ho1 { o1 with swap_num := none } [] [(loc, block)] (fun held => by
      have hgone : ob_owns held i { o1 with swap_num := none } = tells (away_held o1) held := by
        simp [ob_owns, image_held, away_held]
      rw [hgone, count_cons_tells, ob_owns, himage]
      simp only [Owing.nothing]
      omega)
    (fun x => rfl) ⟨fun hs => absurd hs (by simp [hswapped]), fun _ loc hloc => by cases hloc⟩
  have h3 := Consistent.give_back h2
  cases hs
  refine ⟨?_, _, AList.lookup_insert _, hswapped, rfl⟩
  rwa [hsize, ← hlength]

theorem Consistent.dealloc_object (h : Consistent d Owing.nothing) {start : word}
    (hs : program_swap.dealloc_object d i start = some d') : Consistent d' Owing.nothing := by
  unfold program_swap.dealloc_object at hs
  rw [Option.bind_eq_bind, Option.bind_eq_some_iff] at hs
  obtain ⟨o, ho, hs⟩ := hs
  dsimp only at hs
  split at hs
  · cases hs
  rw [Option.bind_eq_bind, Option.bind_eq_some_iff] at hs
  obtain ⟨d1, hd1, hs⟩ := hs
  obtain ⟨h1, o1, ho1, hswapped, -⟩ : Consistent d1 Owing.nothing ∧
      ∃ o1, d1.objects.lookup i = some o1 ∧ o1.O_SWAPPED = false ∧ o1.swap_num = none := by
    by_cases hnum : o.swap_num = none
    · rw [if_neg (not_not.mpr hnum)] at hd1
      cases hd1
      refine ⟨h, o, ho, ?_, hnum⟩
      cases hswapped : o.O_SWAPPED with
      | false => rfl
      | true =>
        obtain ⟨s, loc, -, hloc, -⟩ := (h.object i o ho).away hswapped
        simp [hnum] at hloc
    · rw [if_pos hnum] at hd1
      exact h.remove_swap_file hd1
  rw [ho1, Option.bind_some] at hs
  have hgone := h1.erase_object ho1 hswapped
  obtain ⟨d2, hd2, h2, -⟩ := Consistent.free_prog (depth _) _ _ _ _ _ (Nat.le_refl _) hgone
  cases hs.symm.trans hd2
  exact h2

theorem Consistent.reference_all {freed : List word} {blocks : List (Nat × mem_block)}
    {lines : List (word × List UInt8)} (l : List word) (h : Consistent d ⟨freed, l, blocks, lines⟩)
    (href : ∀ x ∈ l, ∃ b, d.programs.lookup x = some b ∧ b.prog.ref.toNat + l.count x < 65536) :
    ∃ d', l.foldlM program_swap.reference_prog d = some d' ∧
      Consistent d' ⟨freed, [], blocks, lines⟩ ∧ d'.objects = d.objects := by
  induction l generalizing d with
  | nil => exact ⟨d, rfl, h, rfl⟩
  | cons a l ih =>
    obtain ⟨b, hb, hlt⟩ := href a mem_cons_self
    rw [count_cons_self] at hlt
    obtain ⟨heq, h1⟩ := h.reference_prog hb (by omega) (h.held_le hb)
    obtain ⟨d', hd', h2, hobjects⟩ := ih h1.settle (fun x hx => by
      by_cases hxa : x = a
      · subst hxa
        have hadd : (b.prog.ref + 1).toNat = b.prog.ref.toNat + 1 := by bv_omega
        refine ⟨_, AList.lookup_insert _, ?_⟩
        dsimp only
        rw [hadd]
        omega
      · obtain ⟨c, hc, hltc⟩ := href x (mem_cons_of_mem a hx)
        rw [count_cons_of_ne (Ne.symm hxa)] at hltc
        exact ⟨c, by rw [AList.lookup_insert_ne hxa, hc], hltc⟩)
    exact ⟨d', by rw [foldlM_cons, heq]; exact hd', h2, hobjects⟩

/-- A new program: its size and its references can be counted, and the write of
its line numbers is all right. -/
def LoadOk (time_to_swap : Int) (io : IoResult) (d : driver_t) (start : word) (p : program_t)
    (info : List UInt8) : Prop :=
  info.length < 65536 ∧ WriteOk time_to_swap d.swapper io (line_block info) ∧
    ∀ x ∈ inherit_progs start p, ∀ b ∈ d.programs.lookup x,
      b.prog.ref.toNat + (inherit_progs start p).count x < 65536

theorem Consistent.new_program (h : Consistent d Owing.nothing) {start : word}
    (hstart : Fresh d start p.total_size.toNat) (hblock : Fresh d file_info info.length)
    (hplaced : Placed start p) (hwhole : Whole info)
    (hinherit : ∀ x ∈ inherit_progs start p, ∃ b, d.programs.lookup x = some b) :
    Consistent { d with
      programs := d.programs.insert start ⟨{ p with
        ref := 1
        func_ref := 0
        line_swap_index := -1
        file_info
        line_info := file_info + .ofNat 32 (2 * file_info_at info 1) }, info⟩
      line_blocks := d.line_blocks.insert file_info info }
      ⟨[start], inherit_progs start p, [], []⟩ := by
  obtain ⟨hnull, hroom, hnew, -⟩ := hstart
  obtain ⟨hblocknull, hblockroom, -, hblocknew⟩ := hblock
  have hinfo := add_ne_zero hblocknull hwhole.place hblockroom
  have hnone := h.no_line_at hblocknew
  have hkeep : ∀ y i, d.line_blocks.lookup y = some i →
      (d.line_blocks.insert file_info info).lookup y = some i := fun y i hy => by
    rw [AList.lookup_insert_ne, hy]
    rintro rfl
    simp [hblocknew] at hy
  generalize hq : ({ p with
    ref := 1
    func_ref := 0
    line_swap_index := -1
    file_info
    line_info := file_info + .ofNat 32 (2 * file_info_at info 1) } : program_t) = q
  have hinheritq : inherit_progs start q = inherit_progs start p := by rw [← hq]; rfl
  have hrefq : q.ref = 1 := by rw [← hq]
  have hself : start ∉ inherit_progs start p := fun hmem => by
    obtain ⟨b, hb⟩ := hinherit start hmem
    simp [hnew] at hb
  refine ⟨h.swapper, h.room, fun held => ?_, fun x hx => ?_, fun x => ?_, fun e he => (nomatch he),
    fun x c hc => ?_, fun j c hc => ?_⟩
  · have hprogram := weight_new (g := prog_owns held) (b := ⟨q, info⟩) hnew
    have hnothing : prog_owns held start ⟨q, info⟩ = 0 := by
      rw [← hq]
      simp [prog_owns, line_held, int_loc]
    have hown := h.owned held
    simp only [owners, Owing.nothing] at hown ⊢
    omega
  · have hprogram := weight_new (g := prog_holds x) (b := ⟨q, info⟩) hnew
    have hcount : prog_holds x start ⟨q, info⟩ = (inherit_progs start p).count x := by
      rw [prog_holds, hinheritq]
    have hheld := h.held x
    rw [hcount] at hprogram
    simp only [holders, Owing.nothing, count_nil, count_cons_tells] at hheld hx ⊢
    by_cases hxs : x = start
    · subst hxs
      refine ⟨_, AList.lookup_insert _, ?_⟩
      have hzero := count_eq_zero.mpr hself
      have hempty : weight (ob_holds x) d.objects + weight (prog_holds x) d.programs = 0 := by
        by_contra hne
        obtain ⟨b, hb, -⟩ := hheld (by omega)
        simp [hnew] at hb
      dsimp only
      rw [hrefq, tells_self]
      simp only [BitVec.ofNat_eq_ofNat, BitVec.toNat_ofNat]
      omega
    · have htells : tells (some start) x = 0 := by
        unfold tells
        rw [if_neg]
        exact fun heq => hxs (Option.some.inj heq).symm
      rw [AList.lookup_insert_ne hxs]
      by_cases hmem : x ∈ inherit_progs start p
      · obtain ⟨b, hb⟩ := hinherit x hmem
        have hle := h.held_le hb
        simp only [holders, Owing.nothing, count_nil] at hle
        exact ⟨b, hb, by omega⟩
      · have hzero := count_eq_zero.mpr hmem
        obtain ⟨b, hb, hle⟩ := hheld (by omega)
        exact ⟨b, hb, by omega⟩
  · have hprogram := weight_new (g := line_at x) (b := ⟨q, info⟩) hnew
    have hline := h.lines x
    simp only [Owing.nothing, map_nil, count_nil] at hline hnone ⊢
    by_cases hx : x = file_info
    · subst hx
      have hone : line_at x start ⟨q, info⟩ ≤ 1 := by
        unfold line_at
        split <;> omega
      omega
    · have hzero : line_at x start ⟨q, info⟩ = 0 := by
        rw [← hq]
        unfold line_at
        rw [if_neg]
        exact fun hat => hx hat.2.symm
      omega
  · by_cases hxs : x = start
    · subst hxs
      rw [AList.lookup_insert, Option.some.injEq] at hc
      subst hc hq
      exact ⟨⟨hplaced.size, hplaced.int, hplaced.null, hplaced.room, hplaced.types⟩, hwhole,
        fun _ => ⟨AList.lookup_insert _, hblocknull⟩, fun h0 => absurd h0 hinfo⟩
    · rw [AList.lookup_insert_ne hxs] at hc
      have hp := h.program x c hc
      exact ⟨hp.placed, hp.whole, fun hne => ⟨hkeep _ _ (hp.loaded hne).1, (hp.loaded hne).2⟩,
        hp.away⟩
  · refine ⟨(h.object j c hc).away, fun hs loc hloc => ?_⟩
    obtain ⟨s, e, hs', hk, he, hrest⟩ := (h.object j c hc).loaded hs loc hloc
    refine ⟨s, e, hs', hk, ?_, hrest⟩
    have hne : c.prog ≠ start := by
      intro heq
      rw [heq, hnew] at he
      cases he
    rw [AList.lookup_insert_ne hne, he]

theorem Consistent.load_object (h : Consistent d Owing.nothing) {start : word}
    (hok : LoadOk time_to_swap io d start p info)
    (hs : program_swap.load_object time_to_swap io d i start p file_info info = some d') :
    Consistent d' Owing.nothing := by
  obtain ⟨hlength, hwrite, hrefs⟩ := hok
  unfold program_swap.load_object at hs
  dsimp only at hs
  split at hs
  · cases hs
  rename_i hi
  rw [Option.not_isSome_iff_eq_none] at hi
  split at hs
  · cases hs
  rename_i hnot
  simp only [not_or, not_not, Bool.not_eq_true, any_eq_false, Option.isNone_iff_eq_none] at hnot
  obtain ⟨hstart, hblock, -, hplaced, hnumbers, hmem⟩ := hnot
  have hinherit : ∀ x ∈ inherit_progs start p, ∃ b, d.programs.lookup x = some b := fun x hx =>
    Option.ne_none_iff_exists'.mp (hmem x hx)
  have hwhole : Whole info := ⟨by rw [hnumbers.1]; exact Nat.mod_eq_of_lt hlength, hnumbers.2⟩
  have h1 := h.new_program hstart hblock hplaced hwhole hinherit
  obtain ⟨d2, b2, hd2, h2, hl, -⟩ := @Consistent.swap_line_numbers _ _ time_to_swap io h1 start _
    (AList.lookup_insert _) (fun b hb => by
      rw [Option.mem_def, AList.lookup_insert, Option.some.injEq] at hb
      subst hb
      refine Or.inr (Or.inr fun info' hinfo => ?_)
      rw [Option.mem_def, AList.lookup_insert, Option.some.injEq] at hinfo
      exact hinfo ▸ hwrite)
  obtain ⟨d3, hd3, h3, hobjects⟩ := h2.reference_all (inherit_progs start p) fun x hx => by
    obtain ⟨b, hb⟩ := hinherit x hx
    have hxs : x ≠ start := by
      rintro rfl
      simp [hstart.2.2.1] at hb
    exact ⟨b, by rw [hl.others x hxs, AList.lookup_insert_ne hxs, hb], hrefs x hx b hb⟩
  have hi3 : d3.objects.lookup i = none := by rw [hobjects, hl.objects, hi]
  rw [hd2, Option.bind_eq_bind, Option.bind_some] at hs
  change ((inherit_progs start p).foldlM program_swap.reference_prog d2).bind _ = some d' at hs
  rw [hd3, Option.bind_some] at hs
  cases hs
  exact h3.new_object hi3 false

theorem Consistent.clone_object (h : Consistent d Owing.nothing) {j : Nat}
    (href : ∀ o ∈ d.objects.lookup i, RefOk d o.prog)
    (hs : program_swap.clone_object d i j = some d') : Consistent d' Owing.nothing := by
  unfold program_swap.clone_object at hs
  obtain ⟨o, ho, hs⟩ := Option.bind_eq_some_iff.mp hs
  dsimp only at hs
  split at hs
  · cases hs
  rename_i hnot
  rw [not_or, Option.not_isSome_iff_eq_none] at hnot
  obtain ⟨d1, hd1, hs⟩ := Option.bind_eq_some_iff.mp hs
  obtain ⟨b, hb⟩ := reference_prog_eq_some hd1
  obtain ⟨heq, h1⟩ := h.reference_prog hb (href o ho b hb) (h.held_le hb)
  cases heq.symm.trans hd1
  cases hs
  exact h1.new_object hnot.2 true

theorem Consistent.make_functional_funp (h : Consistent d Owing.nothing)
    (hs : program_swap.make_functional_funp d a = some d') : Consistent d' Owing.nothing := by
  unfold program_swap.make_functional_funp at hs
  obtain ⟨b, hb, hs⟩ := Option.bind_eq_some_iff.mp hs
  cases hs
  exact h.set_refs hb rfl rfl (h.held_le hb) fun _ _ => ⟨rfl, rfl⟩

theorem Consistent.dealloc_funp (h : Consistent d Owing.nothing)
    (hs : program_swap.dealloc_funp d a = some d') : Consistent d' Owing.nothing := by
  unfold program_swap.dealloc_funp at hs
  obtain ⟨b, hb, hs⟩ := Option.bind_eq_some_iff.mp hs
  dsimp only at hs
  split at hs
  · cases hs
  split at hs
  · rename_i hzero
    have hle := h.held_le hb
    have href : b.prog.ref.toNat = 0 := by rw [hzero.2]; rfl
    simp only [Owing.nothing, count_nil] at hle
    have hp := h.program a b hb
    have herase := Consistent.erase_prog (l := []) h hb (by omega) rfl fun _ _ => rfl
    obtain ⟨d1, hd1, h1, -⟩ := Consistent.deallocate_program
      (b := ⟨{ b.prog with func_ref := b.prog.func_ref - 1 }, b.numbers⟩)
      (Consistent.free_prog (depth d))
      ⟨⟨hp.placed.size, hp.placed.int, hp.placed.null, hp.placed.room, hp.placed.types⟩,
        hp.whole, hp.loaded, hp.away⟩ (Nat.le_of_lt (depth_erase hb ▸ Nat.lt_succ_self _)) herase
    cases hs.symm.trans hd1
    exact h1
  · cases hs
    exact h.set_refs hb rfl rfl (h.held_le hb) fun _ _ => ⟨rfl, rfl⟩

/-! ## The laws -/

/-- The steps that swapping is made for: what is written fits where it is
written, line numbers go out before their program and are counted in a short,
references are counted in a short, and no program is replaced once it is on file. -/
def Orderly (time_to_swap : Int) (d : driver_t) : action_t → Prop
  | .load_object io _ start p _ info => LoadOk time_to_swap io d start p info
  | .clone_object ob _ => ∀ o ∈ d.objects.lookup ob, RefOk d o.prog
  | .swap io_lines io ob => SwapOk time_to_swap io_lines io d ob
  | .replace_program ob new_prog =>
    (∀ o ∈ d.objects.lookup ob, o.swap_num = none) ∧ RefOk d new_prog
  | .swap_line_numbers io prog => LinesOk time_to_swap io d prog
  | _ => True

structure Transparent (d : driver_t) : Prop where
  /-- The program that comes back is the one that went out, moved to its new place. -/
  program : ∀ i o, d.objects.lookup i = some o → o.O_SWAPPED = true →
    ∃ s, o.saved = some s ∧ ∀ start, Fresh d start s.prog.total_size.toNat →
      ∃ d', load_ob_from_swap d i start = some d' ∧
        d'.programs.lookup start = some ⟨relocate (-s.start + start) s.prog, s.numbers⟩
  line_numbers : ∀ a b, d.programs.lookup a = some b →
    line_numbers d b.prog = some b.numbers
  /-- What `remove_swap_file` gives back is what is held. -/
  swap_space : ∀ i o loc, d.objects.lookup i = some o → o.O_SWAPPED = false →
    o.swap_num = some loc → ∃ b block, d.programs.lookup o.prog = some b ∧
      (loc, block) ∈ d.swapper.live ∧ block.val.length = b.prog.total_size.toNat
  /-- What `remove_line_swap` gives back is what is held. -/
  line_space : ∀ a b loc, d.programs.lookup a = some b →
    int_loc b.prog.line_swap_index = some loc → ∃ block, (loc, block) ∈ d.swapper.live ∧
      ∀ info, program_swap.line_numbers d b.prog = some info →
        block.val.length = file_info_at info 0

theorem Consistent.line_numbers (h : Consistent d w) (hb : d.programs.lookup a = some b) :
    program_swap.line_numbers d b.prog = some b.numbers := by
  have hp := h.program a b hb
  unfold program_swap.line_numbers
  by_cases hinfo : b.prog.line_info ≠ 0
  · rw [if_pos hinfo]
    exact (hp.loaded hinfo).1
  · rw [if_neg hinfo]
    obtain ⟨loc, hloc⟩ := Option.ne_none_iff_exists'.mp (hp.away (not_not.mp hinfo)).2
    rw [hloc, Option.map_some, line_numbers_on_file h.swapper hp.whole
      (h.line_live hb (by simp [line_held, hloc]))]

theorem Consistent.transparent (h : Consistent d w) : Transparent d := by
  refine ⟨fun i o ho hswapped => ?_, fun a b hb => h.line_numbers hb,
    fun i o loc ho hswapped hloc => ?_, fun a b loc hb hloc => ?_⟩
  · obtain ⟨s, loc, hs, hloc, hkept⟩ := (h.object i o ho).away hswapped
    refine ⟨s, hs, fun start hfresh => ?_⟩
    rw [h.load_eq ho hs hkept hloc, if_pos hfresh]
    exact ⟨_, rfl, AList.lookup_insert _⟩
  · obtain ⟨s, b, hs, hkept, hb, hlocate, -⟩ := (h.object i o ho).loaded hswapped loc hloc
    obtain ⟨-, block, -, hlive, hlength⟩ := h.image_on_file ho hs hkept hloc
    have hsize : b.prog.total_size = s.prog.total_size := by
      have := congrArg program_t.total_size hlocate
      rwa [locate_out_eq, locate_out_eq] at this
    exact ⟨b, block, hb, hlive, by rw [hsize, hlength]⟩
  · have hwhole := (h.program a b hb).whole
    refine ⟨line_block b.numbers, h.line_live hb (by simp [line_held, hloc]), fun info hinfo => ?_⟩
    rw [h.line_numbers hb, Option.some.injEq] at hinfo
    rw [← hinfo, hwhole.line_block, hwhole.size]

theorem Consistent.step {time_to_swap : Int} (h : Consistent d Owing.nothing) {a : action_t}
    {d' : driver_t} (hok : Orderly time_to_swap d a)
    (hs : program_swap.step time_to_swap d a = some d') : Consistent d' Owing.nothing := by
  cases a with
  | load_object io ob start p file_info info => exact h.load_object hok hs
  | clone_object ob new_ob => exact h.clone_object hok hs
  | swap io_lines io ob => exact h.swap hok hs
  | load_ob_from_swap ob start =>
    simp only [program_swap.step, Option.bind_eq_some_iff] at hs
    obtain ⟨o, ho, hs⟩ := hs
    split at hs
    · rename_i hswapped
      exact (h.load_ob_from_swap ho hswapped hs).1
    · cases hs
  | replace_program ob new_prog => exact h.replace_program hok.1 hok.2 hs
  | swap_line_numbers io prog =>
    have hs' : program_swap.swap_line_numbers time_to_swap io d prog = some d' := hs
    cases hb : d.programs.lookup prog with
    | none => simp [program_swap.swap_line_numbers, hb] at hs'
    | some b =>
      obtain ⟨d1, b1, hd1, h1, -⟩ := h.swap_line_numbers hb hok
      cases hs'.symm.trans hd1
      exact h1
  | load_line_numbers prog file_info => exact h.load_line_numbers hs
  | make_functional_funp prog => exact h.make_functional_funp hs
  | dealloc_funp prog => exact h.dealloc_funp hs
  | destruct_object ob =>
    simp only [program_swap.step, Option.bind_eq_some_iff] at hs
    obtain ⟨o, ho, hs⟩ := hs
    split at hs
    · cases hs
    · cases hs
      exact h.set_object ho _ [] [] (fun _ => rfl) (fun _ => rfl) ⟨(h.object ob o ho).away,
        (h.object ob o ho).loaded⟩
  | dealloc_object ob start => exact h.dealloc_object hs
  | set_flags ob O_HEART_BEAT interactive =>
    simp only [program_swap.step, Option.map_eq_some_iff] at hs
    obtain ⟨o, ho, rfl⟩ := hs
    exact h.set_object ho _ [] [] (fun _ => rfl) (fun _ => rfl) ⟨(h.object ob o ho).away,
      (h.object ob o ho).loaded⟩
  | set_simul_efun ob =>
    cases hs
    exact ⟨h.swapper, h.room, h.owned, h.held, h.lines, h.owing,
      fun a b hb => ⟨(h.program a b hb).placed, (h.program a b hb).whole,
        (h.program a b hb).loaded, (h.program a b hb).away⟩,
      fun i o ho => ⟨(h.object i o ho).away, (h.object i o ho).loaded⟩⟩

theorem consistent_start : Consistent start Owing.nothing := by
  refine ⟨inv_start, by decide, fun held => Nat.zero_le _, fun a ha => absurd ha (Nat.lt_irrefl 0),
    fun x => Nat.zero_le 1, fun e he => (nomatch he), fun a b hb => ?_, fun i o ho => ?_⟩
  · simp [start] at hb
  · simp [start] at ho

/-- In every run of orderly steps, an object is loaded with the program that was
swapped out for it, a program has its own line numbers, and each block of the
swap file is given back as it was taken. -/
theorem swapping_is_transparent {time_to_swap : Int} {d : driver_t}
    (h : Reachable start (step time_to_swap) (Orderly time_to_swap) d) : Transparent d := by
  have hc : Consistent d Owing.nothing :=
    h.inv (I := fun d => Consistent d Owing.nothing) consistent_start
      fun _ _ _ hi hok hs => hi.step hok hs
  exact hc.transparent

instance (time_to_swap : Int) (w : Swapper) (io : IoResult) (block : mem_block) :
    Decidable (WriteOk time_to_swap w io block) := inferInstanceAs (Decidable (_ ∧ _))

instance (time_to_swap : Int) (io : IoResult) (d : driver_t) (prog : word) :
    Decidable (LinesOk time_to_swap io d prog) := by
  unfold LinesOk
  infer_instance

instance (io : IoResult) (d : driver_t) (prog : word) : Decidable (LinesGoOut io d prog) := by
  unfold LinesGoOut
  infer_instance

instance (time_to_swap : Int) (io_lines io : IoResult) (d : driver_t) (ob : Nat) :
    Decidable (SwapOk time_to_swap io_lines io d ob) := by
  unfold SwapOk
  infer_instance

instance (d : driver_t) (a : word) : Decidable (RefOk d a) := by
  unfold RefOk
  infer_instance

instance (time_to_swap : Int) (io : IoResult) (d : driver_t) (start : word) (p : program_t)
    (info : List UInt8) : Decidable (LoadOk time_to_swap io d start p info) :=
  -- over the list, not over all words
  have : Decidable (∀ x ∈ inherit_progs start p, ∀ b ∈ d.programs.lookup x,
      b.prog.ref.toNat + (inherit_progs start p).count x < 65536) := List.decidableBAll _ _
  inferInstanceAs (Decidable (_ ∧ _ ∧ _))

instance (time_to_swap : Int) (d : driver_t) :
    (a : action_t) → Decidable (Orderly time_to_swap d a)
  | .load_object io _ start p _ info =>
    inferInstanceAs (Decidable (LoadOk time_to_swap io d start p info))
  | .clone_object ob _ => inferInstanceAs (Decidable (∀ o ∈ d.objects.lookup ob, RefOk d o.prog))
  | .swap io_lines io ob => inferInstanceAs (Decidable (SwapOk time_to_swap io_lines io d ob))
  | .replace_program ob new_prog => inferInstanceAs (Decidable
      ((∀ o ∈ d.objects.lookup ob, o.swap_num = none) ∧ RefOk d new_prog))
  | .swap_line_numbers io prog => inferInstanceAs (Decidable (LinesOk time_to_swap io d prog))
  | .load_ob_from_swap .. | .load_line_numbers .. | .make_functional_funp _ | .dealloc_funp _ |
    .destruct_object _ | .dealloc_object .. | .set_flags .. | .set_simul_efun _ => isTrue trivial

def small_program (total_size inherit : word) (num_inherited : short) (tables : List UInt8) :
    program_t :=
  ⟨0, 0, 0, 0, 0, 0, 0, 0, 0, 0, 0, 0, 0, 0, 0, 0, 0, 0, inherit, total_size, 0, 0, 0, 0, 0, 0, 0,
    0, 0, 0, num_inherited, tables⟩

/-- An object with line numbers, one that inherits it, and the first one destructed. -/
def an_heir : List action_t :=
  let io : IoResult := ⟨true, 1000⟩
  let info : List UInt8 := [6, 0, 2, 0, 7, 0]
  [.load_object io 1 0x1000 (small_program 104 0 0 []) 0x2000 info,
    .load_object io 2 0x3000 (small_program 116 (0x3000 + 104) 1 [0, 0x10, 0, 0, 0, 0, 0, 0, 0, 0, 0, 0])
      0x4000 info,
    .destruct_object 1, .dealloc_object 1 0x5000]

/-- The heir is swapped out, loaded and swapped out again, with its line numbers
loaded in between. -/
def swap_an_heir : List action_t :=
  let io : IoResult := ⟨true, 1000⟩
  an_heir ++ [.swap io io 2, .load_ob_from_swap 2 0x5000, .load_line_numbers 0x5000 0x6000,
    .swap io io 2]

theorem an_heir_keeps_its_program :
    (run (step 1) start swap_an_heir).map (fun d => (d.objects.lookup 2).map (·.O_SWAPPED)) =
      some (some true) ∧
    ∃ d, run (step 1) start swap_an_heir = some d ∧ Transparent d := by
  refine ⟨by decide +kernel, ?_⟩
  have hsome : (run (step 1) start swap_an_heir).isSome := by decide +kernel
  obtain ⟨d, hd⟩ := Option.isSome_iff_exists.mp hsome
  have hok : Along (step 1) (Orderly 1) start swap_an_heir := by decide +kernel
  exact ⟨d, hd, swapping_is_transparent (.of_run .start hok hd)⟩

/-- The heir is swapped out and loaded, becomes what it inherits, and is swapped out. -/
def replace_an_heir : List action_t :=
  let io : IoResult := ⟨true, 1000⟩
  an_heir ++ [.swap io io 2, .load_ob_from_swap 2 0x5000, .replace_program 2 0x1000, .swap io io 2]

/-- What comes back is the program from before the replacement. -/
theorem a_replaced_program_comes_back :
    ¬ ∀ d, Reachable start (step 1) (fun _ _ => True) d → Transparent d := by
  intro hall
  have hrun : (run (step 1) start replace_an_heir).map (fun d =>
      ((d.objects.lookup 2).map fun o =>
        (o.O_SWAPPED, o.saved.map fun s => s.prog.total_size),
      decide (Fresh d 0x7000 104),
      (load_ob_from_swap d 2 0x7000).map fun d' =>
        (d'.programs.lookup 0x7000).map fun b => b.prog.total_size)) =
      some (some (true, some 104), true, some (some 116)) := by decide +kernel
  obtain ⟨d, hd, hfacts⟩ := Option.map_eq_some_iff.mp hrun
  simp only [Prod.mk.injEq, Option.map_eq_some_iff, decide_eq_true_eq] at hfacts
  obtain ⟨⟨o, ho, hswapped, s, hs, hsize⟩, hfresh, d', hload, b, hb, hback⟩ := hfacts
  have htrans := hall d (.of_any hd)
  obtain ⟨s', hs', hprogram⟩ := htrans.program 2 o ho hswapped
  cases hs.symm.trans hs'
  obtain ⟨d'', hload', hlookup⟩ := hprogram 0x7000 (by rw [hsize]; exact hfresh)
  cases hload.symm.trans hload'
  cases hb.symm.trans hlookup
  -- a program keeps its size when it is moved
  rw [relocate_total_size, hsize] at hback
  revert hback
  decide

end mudos.program_swap
