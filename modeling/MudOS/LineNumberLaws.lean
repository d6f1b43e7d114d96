-- The laws of the line numbers. Each node of the parse tree lies in one run
-- of the table of files, and each instruction in one run of the table of
-- code. `find_line` reads both, so what it tells of an instruction is what
-- the tables say of the node that the code table knows.
import MudOS.LineNumbers

open mudos.run_lengths mudos.runs List Option

namespace mudos.line_numbers

variable {n : parse_node_t} {s s' : compiler_t} {i : instruction_t}
variable {x : Int} {file_id : Nat} {file_info : List (Int × Nat)}

/-! ## Numbers -/

theorem uint16_of_lt (h0 : 0 ≤ x) (h : x ≤ 65535) : uint16 x = x := by
  unfold uint16
  omega

theorem int16_of_le (h0 : 0 ≤ x) (h : x ≤ 32767) : int16 x = x := by
  unfold int16
  omega

theorem int16_neg (h0 : 32767 < x) (h : x ≤ 65535) : int16 x < 0 := by
  unfold int16
  omega

/-! ## The table of files -/

def absolute_line (s : compiler_t) : Int := s.current_line_base + s.current_line

def Located (file_info : List (Int × Nat)) (n : parse_node_t) : Prop :=
  ∃ before lines after, file_info = before ++ (lines, n.file_id) :: after ∧
    total before < n.line ∧ n.line ≤ total before + lines ∧
    n.file_line + n.others = n.line - total before + lines_of before n.file_id

def Pending (s : compiler_t) (n : parse_node_t) : Prop :=
  n.file_id = s.current_file_id ∧ total s.file_info < n.line ∧
    n.file_line + n.others = n.line - total s.file_info + lines_of s.file_info n.file_id

structure LinesKept (s : compiler_t) : Prop where
  nonneg : Nonneg s.file_info
  counted : s.current_line_base + s.current_line_saved = total s.file_info
  saved_nonneg : 0 ≤ s.current_line_saved
  saved_lt : s.current_line_saved < s.current_line
  waiting : ∀ p ∈ s.inctop, 1 ≤ p.line
  placed : ∀ n ∈ s.nodes, Located s.file_info n ∨ Pending s n
  read : ∀ n ∈ s.nodes, n.line ≤ absolute_line s
  first : ∀ n ∈ s.nodes, 1 ≤ n.file_line ∧ 1 ≤ n.line

theorem Located.append (h : Located file_info n) (more : List (Int × Nat)) :
    Located (file_info ++ more) n := by
  obtain ⟨before, lines, after, rfl, hlt, hle, hline⟩ := h
  exact ⟨before, lines, after ++ more, by simp, hlt, hle, hline⟩

theorem located_of_placed {lines : Int} (h : Located s.file_info n ∨ Pending s n)
    (hle : n.line ≤ total s.file_info + lines) :
    Located (s.file_info ++ [(lines, s.current_file_id)]) n := by
  rcases h with h | ⟨hfile, hlt, hline⟩
  · exact h.append _
  · exact ⟨s.file_info, lines, [], by rw [hfile], hlt, hle, hline⟩

theorem LinesKept.total_nonneg (h : LinesKept s) : 0 ≤ total s.file_info :=
  run_lengths.total_nonneg h.nonneg

theorem Nonneg.snoc (h : Nonneg file_info) {lines : Int} (hl : 0 ≤ lines) (file_id : Nat) :
    Nonneg (file_info ++ [(lines, file_id)]) := by
  apply h.append
  intro r hr
  exact mem_singleton.mp hr ▸ hl

theorem linesKept_newline (h : LinesKept s) : LinesKept (newline s) where
  nonneg := h.nonneg
  counted := h.counted
  saved_nonneg := h.saved_nonneg
  saved_lt := by
    have := h.saved_lt
    simp only [newline]
    omega
  waiting := h.waiting
  placed := h.placed
  read := by
    intro n hn
    have := h.read n hn
    simp only [newline, absolute_line] at this ⊢
    omega
  first := h.first

/-- The line of the `#include` belongs to the file that has it, so no node is from the
line that `current_line` is at. -/
theorem linesKept_handle_include (h : LinesKept s) (file_id : Nat)
    (hbefore : ∀ n ∈ s.nodes, n.line < absolute_line s) (ht : absolute_line s ≤ 65535) :
    LinesKept (handle_include s file_id) := by
  have htotal := h.total_nonneg
  have hcounted := h.counted
  have hsaved := h.saved_nonneg
  have hlt := h.saved_lt
  unfold absolute_line at hbefore ht
  have hlines : uint16 (s.current_line - 1 - s.current_line_saved) =
      s.current_line - 1 - s.current_line_saved := uint16_of_lt (by omega) (by omega)
  refine ⟨?_, ?_, Int.le_refl 0, by simp [handle_include, save_file_info], ?_, ?_, ?_, h.first⟩
  · simp only [handle_include, save_file_info, hlines]
    exact Nonneg.snoc h.nonneg (by omega) _
  · simp only [handle_include, save_file_info, hlines, total_append, total_cons, total_nil]
    omega
  · intro p hp
    simp only [handle_include, save_file_info, mem_cons] at hp
    rcases hp with rfl | hp
    · simp only
      omega
    · exact h.waiting p hp
  · intro n hn
    have hline := hbefore n hn
    simp only [handle_include, save_file_info, hlines]
    exact .inl (located_of_placed (h.placed n hn) (by omega))
  · intro n hn
    have hline := hbefore n hn
    simp only [handle_include, save_file_info, absolute_line]
    omega

theorem absolute_line_handle_include (s : compiler_t) (file_id : Nat) :
    absolute_line (handle_include s file_id) = absolute_line s := by
  simp only [handle_include, save_file_info, absolute_line]
  omega

theorem linesKept_end_of_file (h : LinesKept s) (hs : end_of_file s = some s')
    (ht : absolute_line s ≤ 65535) : LinesKept s' := by
  have htotal := h.total_nonneg
  have hcounted := h.counted
  have hlt := h.saved_lt
  unfold absolute_line at ht
  have hlines : uint16 (s.current_line - s.current_line_saved) =
      s.current_line - s.current_line_saved := uint16_of_lt (by omega) (by omega)
  unfold end_of_file at hs
  rcases hp : s.inctop with _ | ⟨p, next⟩
  · simp [hp] at hs
  have hline := h.waiting p (by simp [hp])
  simp only [hp, save_file_info, hlines, some.injEq] at hs
  subst hs
  refine ⟨?_, ?_, ?_, ?_, ?_, ?_, ?_, h.first⟩
  · exact Nonneg.snoc h.nonneg (by omega) _
  · simp only [total_append, total_cons, total_nil]
    omega
  · simp only
    omega
  · simp only
    omega
  · intro q hq
    exact h.waiting q (by simp [hp, hq])
  · intro n hn
    have hread := h.read n hn
    unfold absolute_line at hread
    exact .inl (located_of_placed (h.placed n hn) (by omega))
  · intro n hn
    have hread := h.read n hn
    simp only [absolute_line] at hread ⊢
    omega

theorem linesKept_new_node (h : LinesKept s) : LinesKept (new_node s) := by
  have htotal := h.total_nonneg
  have hcounted := h.counted
  have hsaved := h.saved_nonneg
  have hlt := h.saved_lt
  refine ⟨h.nonneg, h.counted, h.saved_nonneg, h.saved_lt, h.waiting, ?_, ?_, ?_⟩
  · intro n hn
    simp only [new_node, mem_append, mem_singleton] at hn
    rcases hn with hn | rfl
    · exact h.placed n hn
    · refine .inr ⟨rfl, ?_, ?_⟩
      · simp only [new_node]
        omega
      · simp only [new_node]
        omega
  · intro n hn
    simp only [new_node, mem_append, mem_singleton] at hn
    rcases hn with hn | rfl
    · exact h.read n hn
    · exact Int.le_refl _
  · intro n hn
    simp only [new_node, mem_append, mem_singleton] at hn
    rcases hn with hn | rfl
    · exact h.first n hn
    · simp only
      omega

def lines_part (s : compiler_t) :=
  (s.current_line, s.current_line_base, s.current_line_saved, s.current_file_id, s.inctop,
    s.file_info, s.nodes)

theorem LinesKept.of_eq (h : LinesKept s) (heq : lines_part s' = lines_part s) : LinesKept s' := by
  simp only [lines_part, Prod.mk.injEq] at heq
  obtain ⟨hline, hbase, hsaved, hfile, hinc, hinfo, hnodes⟩ := heq
  obtain ⟨h1, h2, h3, h4, h5, h6, h7, h8⟩ := h
  refine ⟨hinfo ▸ h1, ?_, hsaved ▸ h3, ?_, hinc ▸ h5, ?_, ?_, hnodes ▸ h8⟩
  · rwa [hbase, hsaved, hinfo]
  · rwa [hsaved, hline]
  · rw [hnodes, hinfo]
    intro n hn
    refine (h6 n hn).imp_right ?_
    rintro ⟨p1, p2, p3⟩
    exact ⟨hfile ▸ p1, hinfo ▸ p2, hinfo ▸ p3⟩
  · rwa [hnodes, absolute_line, hbase, hline]

/-! ## The table of code -/

/-- The line that the table of code gets for a node, before it is cut to a `short`. -/
def line_told (told : Option parse_node_t) : Int := (told.map parse_node_t.line).getD 0

def Tells (line_info : List (Int × Int)) (address line : Int) : Prop :=
  ∃ before sz rest, seek line_info address = some (before, (sz, int16 line), rest)

theorem Tells.append {line_info : List (Int × Int)} {address line : Int}
    (h : Tells line_info address line) (more : List (Int × Int)) :
    Tells (line_info ++ more) address line := by
  obtain ⟨before, sz, rest, hseek⟩ := h
  exact ⟨before, sz, rest, seek_append_right hseek⟩

section chunks

variable (line : Int)

theorem total_line_chunks (fuel : Nat) (sz : Int) : total (line_chunks line fuel sz) = sz := by
  induction fuel generalizing sz with
  | zero => simp [line_chunks]
  | succ fuel ih =>
    rw [line_chunks]
    split
    · rw [total_cons, ih]
      omega
    · simp

theorem nonneg_line_chunks (fuel : Nat) {sz : Int} (h : 0 ≤ sz) :
    Nonneg (line_chunks line fuel sz) := by
  induction fuel generalizing sz with
  | zero =>
    intro r hr
    rw [line_chunks, mem_singleton] at hr
    exact hr ▸ h
  | succ fuel ih =>
    intro r hr
    rw [line_chunks] at hr
    split at hr
    · rename_i hsz
      rcases mem_cons.mp hr with rfl | hr
      · exact (by decide : (0 : Int) ≤ 255)
      · exact ih (by omega) r hr
    · exact mem_singleton.mp hr ▸ h

theorem line_chunks_tell (fuel : Nat) {sz pos : Int} (hpos : 0 < pos) (hle : pos ≤ sz) :
    Tells (line_chunks line fuel sz) pos line := by
  induction fuel generalizing sz pos with
  | zero =>
    refine ⟨[], sz, pos, ?_⟩
    rw [line_chunks, seek, if_neg (by omega)]
  | succ fuel ih =>
    rw [line_chunks]
    split
    · by_cases hin : pos > 255
      · obtain ⟨before, c, rest, hseek⟩ := ih
          (by omega : 0 < pos - 255) (by omega : pos - 255 ≤ sz - 255)
        refine ⟨(255, int16 line) :: before, c, rest, ?_⟩
        rw [seek, if_pos hin, hseek]
        rfl
      · refine ⟨[], 255, pos, ?_⟩
        rw [seek, if_neg hin]
    · refine ⟨[], sz, pos, ?_⟩
      rw [seek, if_neg (by omega)]

end chunks

/-- What the table of code, which covers `last` bytes, knows of an instruction, or will know
at the next switch. -/
structure Numbered (line_info : List (Int × Int)) (last size line_being_generated : Int)
    (i : instruction_t) : Prop where
  address_pos : 0 < i.address
  address_le : i.address ≤ size
  known : i.address ≤ last → Tells line_info i.address (line_told i.told)
  generated : last < i.address → line_told i.told = line_being_generated

/-- The nodes of an instruction are nodes of the parse tree. The table knows the node of
each instruction of a function. -/
structure FromTree (nodes : List parse_node_t) (i : instruction_t) : Prop where
  node : ∀ n, i.node = some n → n ∈ nodes
  told : ∀ n, i.told = some n → n ∈ nodes
  own : i.block = .A_PROGRAM → i.told = i.node

structure CodeKept (s : compiler_t) : Prop where
  nonneg : Nonneg s.line_info
  covered : total s.line_info = s.last_size_generated
  last_le : s.last_size_generated ≤ s.program.current_size
  being : line_told s.node_of_program = s.line_being_generated
  program : ∀ i ∈ s.program.code,
    Numbered s.line_info s.last_size_generated s.program.current_size s.line_being_generated i ∧
      FromTree s.nodes i
  initializer : ∀ i ∈ s.initializer.code, 0 < i.address ∧
    i.address ≤ s.initializer.current_size ∧ i.block = .A_INITIALIZER ∧ FromTree s.nodes i
  initializer_size : 0 ≤ s.initializer.current_size
  /-- The code generator goes back at most to the first of the pushes. -/
  pushing : s.push_state = 1 → 0 ≤ s.push_start ∧ (current s).current_size ≤ s.push_start + 2
  node_of_program : ∀ n, s.node_of_program = some n → n ∈ s.nodes
  node_of_initializer : ∀ n, s.node_of_initializer = some n → n ∈ s.nodes

theorem CodeKept.last_nonneg (h : CodeKept s) : 0 ≤ s.last_size_generated :=
  h.covered ▸ run_lengths.total_nonneg h.nonneg

def code_part (s : compiler_t) :=
  (s.line_info, s.last_size_generated, s.program, s.initializer, s.node_of_program,
    s.node_of_initializer, s.line_being_generated, s.current_block, s.push_state, s.push_start)

theorem FromTree.mono {nodes nodes' : List parse_node_t} (h : FromTree nodes i)
    (hnodes : ∀ n ∈ nodes, n ∈ nodes') : FromTree nodes' i :=
  ⟨fun n hn => hnodes n (h.node n hn), fun n hn => hnodes n (h.told n hn), h.own⟩

theorem CodeKept.of_eq (h : CodeKept s) (heq : code_part s' = code_part s)
    (hnodes : ∀ n ∈ s.nodes, n ∈ s'.nodes) : CodeKept s' := by
  simp only [code_part, Prod.mk.injEq] at heq
  obtain ⟨hinfo, hlast, hprogram, hinit, hnode, hnodeinit, hbeing, hblock, hpush, hstart⟩ := heq
  have hcurrent : current s' = current s := by
    unfold current
    rw [hblock, hprogram, hinit]
  obtain ⟨h1, h2, h3, h4, h5, h6, h7, h8, h9, h10⟩ := h
  refine ⟨hinfo ▸ h1, ?_, ?_, ?_, ?_, ?_, hinit ▸ h7, ?_, ?_, ?_⟩
  · rwa [hinfo, hlast]
  · rwa [hlast, hprogram]
  · rwa [hnode, hbeing]
  · rw [hprogram]
    intro i hi
    obtain ⟨hn, ht⟩ := h5 i hi
    rw [hinfo, hlast, hbeing]
    exact ⟨hn, ht.mono hnodes⟩
  · rw [hinit]
    intro i hi
    obtain ⟨hpos, hle, hblk, ht⟩ := h6 i hi
    exact ⟨hpos, hle, hblk, ht.mono hnodes⟩
  · rwa [hpush, hstart, hcurrent]
  · rw [hnode]
    exact fun n hn => hnodes n (h9 n hn)
  · rw [hnodeinit]
    exact fun n hn => hnodes n (h10 n hn)

/-! ## The switch to another line -/

/-- The table after a switch covers all code, and knows each instruction. -/
structure Flushed (s : compiler_t) : Prop where
  nonneg : Nonneg s.line_info
  covered : total s.line_info = s.last_size_generated
  all : s.last_size_generated = s.program.current_size
  known : ∀ i ∈ s.program.code, Tells s.line_info i.address (line_told i.told)

theorem flushed_switch_to_line (h : CodeKept s) (hb : s.current_block = .A_PROGRAM) (line : Int) :
    Flushed (switch_to_line s line) := by
  have hlast := h.last_le
  unfold switch_to_line
  simp only [hb]
  split
  · rename_i hsz
    refine ⟨?_, ?_, ?_, ?_⟩
    · exact h.nonneg.append (nonneg_line_chunks _ _ (by omega))
    · simp [total_append, total_line_chunks, h.covered]
    · simp only
      omega
    · intro i hi
      obtain ⟨hn, -⟩ := h.program i hi
      have hle := hn.address_le
      by_cases hold : i.address ≤ s.last_size_generated
      · exact (hn.known hold).append _
      · rw [hn.generated (by omega)]
        obtain ⟨before, sz, rest, hseek⟩ := line_chunks_tell s.line_being_generated
          (s.program.current_size - s.last_size_generated).toNat
          (by omega : 0 < i.address - s.last_size_generated)
          (by omega : i.address - s.last_size_generated ≤
            s.program.current_size - s.last_size_generated)
        refine ⟨s.line_info ++ before, sz, rest, ?_⟩
        simp only
        rw [seek_append h.nonneg (by rw [h.covered]; omega), h.covered, hseek]
        rfl
  · rename_i hsz
    refine ⟨h.nonneg, h.covered, ?_, ?_⟩
    · simp only
      omega
    · intro i hi
      obtain ⟨hn, -⟩ := h.program i hi
      have hle := hn.address_le
      exact hn.known (by omega)

theorem switch_to_line_frame (s : compiler_t) (line : Int) :
    lines_part (switch_to_line s line) = lines_part s ∧
    (switch_to_line s line).program = s.program ∧
    (switch_to_line s line).initializer = s.initializer ∧
    (switch_to_line s line).current_block = s.current_block ∧
    (switch_to_line s line).push_state = s.push_state ∧
    (switch_to_line s line).push_start = s.push_start ∧
    (switch_to_line s line).node_of_program = s.node_of_program ∧
    (switch_to_line s line).node_of_initializer = s.node_of_initializer ∧
    (switch_to_line s line).finished = s.finished := by
  unfold switch_to_line
  rcases hb : s.current_block with _ | _
  · simp only
    split <;> simp [lines_part, hb]
  · simp [hb]

theorem line_being_generated_switch (hb : s.current_block = .A_PROGRAM) (line : Int) :
    (switch_to_line s line).line_being_generated = line := by
  unfold switch_to_line
  simp [hb]

theorem codeKept_i_generate_node (h : CodeKept s) {node : parse_node_t} (hnode : node ∈ s.nodes) :
    CodeKept (i_generate_node s node) := by
  have hsome : ∀ n, some node = some n → n ∈ s.nodes := by
    rintro n hn
    cases hn
    exact hnode
  unfold i_generate_node
  rcases hb : s.current_block with _ | _
  · by_cases hline : node.line ≠ s.line_being_generated
    · have hflush := flushed_switch_to_line h hb node.line
      have hbeing := line_being_generated_switch hb node.line
      obtain ⟨hlines, hprog, hinit, hblock, hpush, hstart, -, hni, -⟩ :=
        switch_to_line_frame s node.line
      have hnodes : (switch_to_line s node.line).nodes = s.nodes := by
        simp only [lines_part, Prod.mk.injEq] at hlines
        exact hlines.2.2.2.2.2.2
      have hcurrent : current (switch_to_line s node.line) = current s := by
        unfold current
        rw [hblock, hprog, hinit]
      simp only [if_pos hline, hblock, hb]
      refine ⟨hflush.nonneg, hflush.covered, Int.le_of_eq hflush.all, hbeing.symm, ?_, ?_, ?_, ?_, ?_, ?_⟩
      · intro i hi
        have hknown := hflush.known i hi
        obtain ⟨hn, ht⟩ := h.program i (hprog ▸ hi)
        have hle : i.address ≤ (switch_to_line s node.line).program.current_size :=
          hprog ▸ hn.address_le
        refine ⟨⟨hn.address_pos, hle, fun _ => hknown, ?_⟩, ht.mono (hnodes ▸ fun _ hx => hx)⟩
        intro hlt
        rw [hflush.all] at hlt
        exact absurd hle (Int.not_le.mpr hlt)
      · intro i hi
        obtain ⟨hpos, hle, hblk, ht⟩ := h.initializer i (hinit ▸ hi)
        exact ⟨hpos, hinit ▸ hle, hblk, ht.mono (hnodes ▸ fun _ hx => hx)⟩
      · exact hinit ▸ h.initializer_size
      · intro hp
        obtain ⟨h0, hle⟩ := h.pushing (hpush ▸ hp)
        refine ⟨hstart ▸ h0, ?_⟩
        have : (current (switch_to_line s node.line)).current_size ≤
          (switch_to_line s node.line).push_start + 2 := by
          rwa [hcurrent, hstart]
        simpa [current, hb, hblock] using this
      · exact hnodes ▸ hsome
      · exact hni ▸ hnodes ▸ h.node_of_initializer
    · rw [ne_eq, not_not] at hline
      simp only [hline, ne_eq, not_true_eq_false, if_false, hb]
      exact ⟨h.nonneg, h.covered, h.last_le, hline, h.program, h.initializer, h.initializer_size,
        by simpa [current, hb] using h.pushing, hsome, h.node_of_initializer⟩
  · have hswitch : switch_to_line s node.line = s := by simp [switch_to_line, hb]
    simp only [hswitch, ite_self, hb]
    exact ⟨h.nonneg, h.covered, h.last_le, h.being, h.program, h.initializer, h.initializer_size,
      by simpa [current, hb] using h.pushing, h.node_of_program, hsome⟩

/-! ## More code -/

theorem CodeKept.current_size_nonneg (h : CodeKept s) : 0 ≤ (current s).current_size := by
  have hlast := h.last_nonneg
  have hle := h.last_le
  unfold current
  rcases s.current_block with _ | _
  · simp only
    omega
  · exact h.initializer_size

theorem codeKept_set_current (h : CodeKept s) {size push_start : Int} {code : List instruction_t}
    {push_state : Nat} (hgrow : (current s).current_size < size)
    (hcode : ∀ i ∈ code, i = instruction s size ∨ i ∈ (current s).code)
    (hpush : push_state = 1 → 0 ≤ push_start ∧ size ≤ push_start + 2) :
    CodeKept { set_current s ⟨size, code⟩ with push_state, push_start } := by
  have hzero := h.current_size_nonneg
  have hle := h.last_le
  unfold current at hgrow hcode hzero
  unfold set_current
  rcases hb : s.current_block with _ | _
  · simp only [hb] at hgrow hcode hzero ⊢
    refine ⟨h.nonneg, h.covered, ?_, h.being, ?_, h.initializer, h.initializer_size, ?_,
      h.node_of_program, h.node_of_initializer⟩
    · simp only
      omega
    · intro i hi
      rcases hcode i hi with rfl | hold
      · refine ⟨⟨?_, ?_, ?_, ?_⟩, ⟨?_, ?_, ?_⟩⟩
        · simp only [instruction]
          omega
        · exact Int.le_refl _
        · intro hknown
          simp only [instruction] at hknown
          omega
        · intro _
          simp only [instruction, hb]
          exact h.being
        · simp only [instruction, hb]
          exact h.node_of_program
        · simp only [instruction, hb]
          exact h.node_of_program
        · intro _
          simp [instruction, hb]
      · obtain ⟨hn, ht⟩ := h.program i hold
        have hadr := hn.address_le
        refine ⟨⟨hn.address_pos, ?_, hn.known, hn.generated⟩, ht⟩
        simp only
        omega
    · simpa [current, hb] using hpush
  · simp only [hb] at hgrow hcode hzero ⊢
    refine ⟨h.nonneg, h.covered, h.last_le, h.being, h.program, ?_, ?_, ?_,
      h.node_of_program, h.node_of_initializer⟩
    · intro i hi
      rcases hcode i hi with rfl | hold
      · refine ⟨?_, Int.le_refl _, hb, ⟨?_, ?_, ?_⟩⟩
        · simp only [instruction]
          omega
        · simp only [instruction, hb]
          exact h.node_of_initializer
        · intro n hn
          simp [instruction, hb] at hn
        · intro hblk
          cases hb.symm.trans hblk
      · obtain ⟨hpos, hadr, hblk, ht⟩ := h.initializer i hold
        refine ⟨hpos, ?_, hblk, ht⟩
        simp only
        omega
    · simp only
      omega
    · simpa [current, hb] using hpush

theorem codeKept_ins_bytes (h : CodeKept s) {sz : Nat} (hsz : sz ≠ 0) (from_node : Bool) :
    CodeKept (ins_bytes s sz from_node) := by
  unfold ins_bytes
  apply codeKept_set_current h
  · omega
  · intro i hi
    split at hi
    · exact mem_cons.mp hi
    · exact .inr hi
  · nofun

theorem codeKept_try_to_push (h : CodeKept s) (constant : Bool) :
    CodeKept (try_to_push s constant) := by
  have hzero := h.current_size_nonneg
  unfold try_to_push
  split
  · apply codeKept_set_current h
    · split <;> omega
    · intro i hi
      exact mem_cons.mp hi
    · intro _
      refine ⟨hzero, ?_⟩
      split <;> omega
  · rename_i hstate
    apply codeKept_set_current h
    · split
      · rename_i hone
        have := (h.pushing hone).2
        omega
      · omega
    · intro i hi
      exact (mem_cons.mp hi).imp_right mem_of_mem_tail
    · intro hone
      split at hone
      · cases hone
      · omega

theorem codeKept_switch_to_block (h : CodeKept s) (hp : s.push_state = 0) (block : block_name) :
    CodeKept (switch_to_block s block) := by
  refine ⟨h.nonneg, h.covered, h.last_le, h.being, h.program, h.initializer, h.initializer_size,
    ?_, h.node_of_program, by simp [switch_to_block]⟩
  intro hone
  simp [switch_to_block, hp] at hone

theorem codeKept_with_initializers (h : CodeKept s) (hp : s.push_state = 0) :
    CodeKept (i_generate___INIT s) := by
  have hlast := h.last_nonneg
  have hle := h.last_le
  have hsize := h.initializer_size
  refine ⟨h.nonneg, h.covered, ?_, h.being, ?_, h.initializer, h.initializer_size, ?_,
    h.node_of_program, h.node_of_initializer⟩
  · simp only [i_generate___INIT]
    omega
  · intro i hi
    simp only [i_generate___INIT, mem_append, List.mem_map] at hi
    rcases hi with ⟨j, hj, rfl⟩ | hi
    · obtain ⟨hpos, hadr, hblk, ht⟩ := h.initializer j hj
      refine ⟨⟨?_, ?_, ?_, ?_⟩, ⟨ht.node, h.node_of_program, fun hp => by cases hblk.symm.trans hp⟩⟩
      · simp only
        omega
      · simp only [i_generate___INIT]
        omega
      · intro hknown
        simp only [i_generate___INIT] at hknown
        omega
      · intro _
        exact h.being
    · obtain ⟨hn, ht⟩ := h.program i hi
      have hadr := hn.address_le
      refine ⟨⟨hn.address_pos, ?_, hn.known, hn.generated⟩, ht⟩
      simp only [i_generate___INIT]
      omega
  · intro hone
    simp [i_generate___INIT, hp] at hone

/-! ## The whole program -/

/-- A program that is done: each node of an instruction is in a run of the table of
files, and each instruction in a run of the table of code. -/
structure ProgramKept (s : compiler_t) : Prop where
  nonneg : Nonneg s.file_info
  nodes : ∀ n ∈ s.nodes, Located s.file_info n ∧ 1 ≤ n.file_line ∧ 1 ≤ n.line ∧
    n.line ≤ absolute_line s
  code : ∀ i ∈ s.program.code, FromTree s.nodes i ∧
    Tells s.line_info i.address (line_told i.told)

/-- The invariant of the compiler, for programs in the range of the tables. -/
def Kept (s : compiler_t) : Prop :=
  absolute_line s ≤ 65535 →
    if s.finished then ProgramKept s else LinesKept s ∧ CodeKept s

theorem programKept_epilog (hl : LinesKept s) (hc : CodeKept s) (hb : s.current_block = .A_PROGRAM)
    (hp : s.push_state = 0) (ht : absolute_line s ≤ 65535) :
    ProgramKept (generate_final_program (i_generate___INIT s)) := by
  have hl1 : LinesKept (i_generate___INIT s) := hl.of_eq rfl
  have hc1 := codeKept_with_initializers hc hp
  have hb1 : (i_generate___INIT s).current_block = .A_PROGRAM := hb
  have ht1 : absolute_line (i_generate___INIT s) ≤ 65535 := ht
  generalize i_generate___INIT s = t at hl1 hc1 hb1 ht1
  have htotal := hl1.total_nonneg
  have hcounted := hl1.counted
  have hlt := hl1.saved_lt
  have hlines : uint16 (t.current_line - t.current_line_saved) =
      t.current_line - t.current_line_saved := by
    unfold absolute_line at ht1
    exact uint16_of_lt (by omega) (by omega)
  have hc2 : CodeKept (save_file_info t t.current_file_id (t.current_line - t.current_line_saved)) :=
    hc1.of_eq rfl fun _ hn => hn
  have hflush := flushed_switch_to_line hc2 hb1 (-1)
  obtain ⟨hpart, hprog, -⟩ := switch_to_line_frame
    (save_file_info t t.current_file_id (t.current_line - t.current_line_saved)) (-1)
  simp only [lines_part, Prod.mk.injEq] at hpart
  obtain ⟨hline, hbase, -, -, -, hinfo, hnodes⟩ := hpart
  refine ⟨?_, ?_, ?_⟩
  · simp only [generate_final_program, hinfo]
    simp only [save_file_info, hlines]
    exact Nonneg.snoc hl1.nonneg (by omega) _
  · intro n hn
    simp only [generate_final_program, hnodes] at hn
    have hread := hl1.read n hn
    obtain ⟨hfile, hpos⟩ := hl1.first n hn
    refine ⟨?_, hfile, hpos, ?_⟩
    · simp only [generate_final_program, hinfo]
      simp only [save_file_info, hlines]
      unfold absolute_line at hread
      exact located_of_placed (hl1.placed n hn) (by omega)
    · simp only [generate_final_program, absolute_line, hline, hbase]
      exact hread
  · intro i hi
    simp only [generate_final_program] at hi
    refine ⟨?_, hflush.known i hi⟩
    rw [hprog] at hi
    simp only [generate_final_program, hnodes]
    exact (hc2.program i hi).2

theorem lines_part_set_current (s : compiler_t) (b : mem_block_t) :
    lines_part (set_current s b) = lines_part s := by
  unfold set_current
  split <;> rfl

theorem lines_part_i_generate_node (s : compiler_t) (node : parse_node_t) :
    lines_part (i_generate_node s node) = lines_part s ∧
      (i_generate_node s node).finished = s.finished := by
  obtain ⟨hpart, -, -, -, -, -, -, -, hfin⟩ := switch_to_line_frame s node.line
  unfold i_generate_node
  by_cases hline : node.line ≠ s.line_being_generated
  · rw [if_pos hline, ← hpart, ← hfin]
    simp only
    split <;> exact ⟨rfl, rfl⟩
  · rw [if_neg hline]
    simp only
    split <;> exact ⟨rfl, rfl⟩

theorem finished_set_current (s : compiler_t) (b : mem_block_t) :
    (set_current s b).finished = s.finished := by
  unfold set_current
  split <;> rfl

structure CodeStep (s s' : compiler_t) : Prop where
  lines : lines_part s' = lines_part s
  finished : s'.finished = s.finished
  code : CodeKept s → CodeKept s'

theorem codeStep_i_generate_node {node : parse_node_t} (hnode : node ∈ s.nodes) :
    CodeStep s (i_generate_node s node) :=
  ⟨(lines_part_i_generate_node s node).1, (lines_part_i_generate_node s node).2,
    fun h => codeKept_i_generate_node h hnode⟩

theorem codeStep_ins_bytes (s : compiler_t) {sz : Nat} (hsz : sz ≠ 0) (from_node : Bool) :
    CodeStep s (ins_bytes s sz from_node) :=
  ⟨lines_part_set_current s _, finished_set_current s _, fun h => codeKept_ins_bytes h hsz from_node⟩

theorem codeStep_try_to_push (s : compiler_t) (constant : Bool) :
    CodeStep s (try_to_push s constant) := by
  refine ⟨?_, ?_, fun h => codeKept_try_to_push h constant⟩
  · unfold try_to_push
    split <;> exact lines_part_set_current s _
  · unfold try_to_push
    split <;> exact finished_set_current s _

theorem codeStep_switch_to_block (hp : s.push_state = 0) (block : block_name) :
    CodeStep s (switch_to_block s block) :=
  ⟨rfl, rfl, fun h => codeKept_switch_to_block h hp block⟩

theorem absolute_line_of_eq (h : lines_part s' = lines_part s) :
    absolute_line s' = absolute_line s := by
  simp only [lines_part, Prod.mk.injEq] at h
  rw [absolute_line, absolute_line, h.1, h.2.1]

theorem end_of_file_frame (hs : end_of_file s = some s') :
    absolute_line s' = absolute_line s + 1 ∧ code_part s' = code_part s ∧
      s'.nodes = s.nodes ∧ s'.finished = s.finished := by
  unfold end_of_file at hs
  rcases hp : s.inctop with _ | ⟨p, next⟩
  · simp [hp] at hs
  · simp only [hp, save_file_info, some.injEq] at hs
    subst hs
    refine ⟨?_, rfl, rfl, rfl⟩
    simp only [absolute_line]
    omega

theorem absolute_line_epilog (s : compiler_t) :
    absolute_line (generate_final_program (i_generate___INIT s)) = absolute_line s := by
  have hframe := switch_to_line_frame (save_file_info (i_generate___INIT s)
    (i_generate___INIT s).current_file_id
    ((i_generate___INIT s).current_line - (i_generate___INIT s).current_line_saved)) (-1)
  have hline := absolute_line_of_eq hframe.1
  exact hline

/-- All that a step can do: the lexer reads on, a node is made, the code generator does
something, or the program is done. -/
theorem step_cases {a : Action} (hs : step s a = some s') :
    s.finished = false ∧
    (s' = newline s ∨
      (∃ file_id, a = .include_file file_id ∧ s' = handle_include (newline s) file_id) ∨
      end_of_file s = some s' ∨ s' = new_node s ∨ CodeStep s s' ∨
      (s.current_block = .A_PROGRAM ∧ s.push_state = 0 ∧
        s' = generate_final_program (i_generate___INIT s))) := by
  unfold step at hs
  by_cases hf : s.finished
  · simp [if_pos hf] at hs
  rw [if_neg hf] at hs
  refine ⟨by simpa using hf, ?_⟩
  cases a with
  | newline => exact .inl (some.inj hs).symm
  | include_file file_id => exact .inr (.inl ⟨file_id, rfl, (some.inj hs).symm⟩)
  | end_of_file => exact .inr (.inr (.inl hs))
  | new_node => exact .inr (.inr (.inr (.inl (some.inj hs).symm)))
  | i_generate_node n =>
    simp only [map_eq_some_iff] at hs
    obtain ⟨node, hn, rfl⟩ := hs
    exact .inr (.inr (.inr (.inr (.inl (codeStep_i_generate_node (mem_of_getElem? hn))))))
  | ins_bytes sz from_node =>
    simp only [ite_none_left_eq_some, some.injEq] at hs
    obtain ⟨hsz, rfl⟩ := hs
    exact .inr (.inr (.inr (.inr (.inl (codeStep_ins_bytes s hsz from_node)))))
  | try_to_push constant =>
    obtain rfl := some.inj hs
    exact .inr (.inr (.inr (.inr (.inl (codeStep_try_to_push s constant)))))
  | switch_to_block block =>
    simp only [ite_none_right_eq_some, some.injEq] at hs
    obtain ⟨hp, rfl⟩ := hs
    exact .inr (.inr (.inr (.inr (.inl (codeStep_switch_to_block hp block)))))
  | epilog =>
    simp only [ite_none_right_eq_some, some.injEq] at hs
    obtain ⟨⟨hb, hp⟩, rfl⟩ := hs
    exact .inr (.inr (.inr (.inr (.inr ⟨hb, hp, rfl⟩))))

theorem kept_step {a : Action} (h : Kept s) (hs : step s a = some s') : Kept s' := by
  obtain ⟨hf, hcases⟩ := step_cases hs
  intro ht
  have hkept : absolute_line s ≤ 65535 → LinesKept s ∧ CodeKept s := by
    intro ht'
    simpa [hf] using h ht'
  rcases hcases with rfl | ⟨file_id, -, rfl⟩ | heof | rfl | hcode | ⟨hb, hp, rfl⟩
  · have hle : absolute_line s ≤ 65535 := by
      simp only [absolute_line, newline] at ht ⊢
      omega
    obtain ⟨hl, hc⟩ := hkept hle
    have hfin : (newline s).finished = false := hf
    rw [hfin]
    exact ⟨linesKept_newline hl, hc.of_eq rfl fun _ hn => hn⟩
  · rw [absolute_line_handle_include] at ht
    have hlt : absolute_line s < absolute_line (newline s) := by
      simp only [absolute_line, newline]
      omega
    obtain ⟨hl, hc⟩ := hkept (by omega)
    have hfin : (handle_include (newline s) file_id).finished = false := hf
    rw [hfin]
    refine ⟨linesKept_handle_include (linesKept_newline hl) file_id ?_ ht,
      hc.of_eq rfl fun _ hn => hn⟩
    intro n hn
    have := hl.read n hn
    omega
  · obtain ⟨hline, hpart, hnodes, hfin⟩ := end_of_file_frame heof
    obtain ⟨hl, hc⟩ := hkept (by omega)
    rw [hfin, hf]
    exact ⟨linesKept_end_of_file hl heof (by omega), hc.of_eq hpart (hnodes ▸ fun _ hn => hn)⟩
  · obtain ⟨hl, hc⟩ := hkept ht
    have hfin : (new_node s).finished = false := hf
    rw [hfin]
    exact ⟨linesKept_new_node hl, hc.of_eq rfl fun _ hn => mem_append_left _ hn⟩
  · rw [absolute_line_of_eq hcode.lines] at ht
    obtain ⟨hl, hc⟩ := hkept ht
    rw [hcode.finished, hf]
    exact ⟨hl.of_eq hcode.lines, hcode.code hc⟩
  · rw [absolute_line_epilog] at ht
    obtain ⟨hl, hc⟩ := hkept ht
    exact programKept_epilog hl hc hb hp ht

theorem kept_start (file_id : Nat) (gifile : Option Nat) : Kept (start file_id gifile) := by
  have hcode : CodeKept (start_new_file file_id) := by
    refine ⟨?_, rfl, Int.le_refl 0, rfl, ?_, ?_, Int.le_refl 0, ?_, ?_, ?_⟩ <;>
      simp [start_new_file, no_code, Nonneg]
  have hlines : LinesKept (start_new_file file_id) := by
    refine ⟨?_, rfl, Int.le_refl 0, ?_, ?_, ?_, ?_, ?_⟩ <;> simp [start_new_file, Nonneg]
  intro ht
  rcases gifile with _ | gifile
  · exact ⟨hlines, hcode⟩
  · refine ⟨linesKept_handle_include hlines gifile ?_ ?_, ?_⟩
    · simp [start_new_file]
    · simp [start_new_file, absolute_line]
    · exact hcode.of_eq rfl fun _ hn => hn

/-! ## The laws -/

theorem translate_located (h : ProgramKept s) {t : parse_node_t} (ht : t ∈ s.nodes)
    (hle : t.line ≤ 32767) : translate_absolute_line (int16 t.line) s.file_info =
      some (t.file_id, t.file_line + t.others) := by
  obtain ⟨⟨before, lines, after, hinfo, hlt, hle', hline⟩, -, hpos, -⟩ := h.nodes t ht
  have hnonneg : Nonneg before := by
    have := h.nonneg
    rw [hinfo] at this
    exact this.left
  rw [int16_of_le (by omega) hle, translate_absolute_line, hinfo, seek_found hnonneg hlt hle']
  simp only [map_some, some.injEq, Prod.mk.injEq, true_and]
  omega

theorem translate_before (h : Nonneg file_info) {abs_line : Int} (hneg : abs_line ≤ 0) {line : Int}
    (htold : translate_absolute_line abs_line file_info = some (file_id, line)) : line ≤ 0 := by
  rcases file_info with _ | ⟨r, file_info⟩
  · cases htold
  · have hr := h r mem_cons_self
    rw [translate_absolute_line, seek, if_neg (by omega)] at htold
    simp only [map_some, some.injEq, Prod.mk.injEq] at htold
    have hnone : lines_of ([] : List (Int × Nat)) r.2 = 0 := rfl
    omega

theorem find_line_eq (h : ProgramKept s) (hi : i ∈ s.program.code) : find_line s i.address =
      translate_absolute_line (int16 (line_told i.told)) s.file_info := by
  obtain ⟨-, before, sz, rest, hseek⟩ := h.code i hi
  rw [find_line, hseek]
  rfl

/-- When the tables have the place of an instruction. In a function, the lines up to its
node are at most 32767, which a `short` holds, and the file of the node was not counted
for another time. In an initializer, the table has the place of the last switch in a
function, which has to be the same one. -/
def TableIsRight (i : instruction_t) (n : parse_node_t) : Prop :=
  match i.block with
  | .A_PROGRAM => n.line ≤ 32767 ∧ n.others = 0
  | .A_INITIALIZER => ∃ t, i.told = some t ∧ t.line ≤ 32767 ∧ t.file_id = n.file_id ∧
      t.file_line + t.others = n.file_line

theorem tableIsRight_iff {nodes : List parse_node_t} (h : FromTree nodes i) (hn : i.node = some n) :
    TableIsRight i n ↔ ∃ t, i.told = some t ∧ t.line ≤ 32767 ∧ t.file_id = n.file_id ∧
      t.file_line + t.others = n.file_line := by
  unfold TableIsRight
  rcases hb : i.block with _ | _
  · have htold := (h.own hb).trans hn
    simp only [htold, some.injEq, exists_eq_left', true_and]
    constructor
    · rintro ⟨hle, hothers⟩
      exact ⟨hle, by omega⟩
    · rintro ⟨hle, hline⟩
      exact ⟨hle, by omega⟩
  · exact Iff.rfl

theorem programKept_of_reachable {gifile : Option Nat}
    (h : Reachable (start file_id gifile) step (fun _ _ => True) s) (hfinished : s.finished = true)
    (ht : absolute_line s ≤ 65535) : ProgramKept s := by
  have hk := h.inv (kept_start file_id gifile) fun _ _ _ hk _ hs => kept_step hk hs
  simpa [hfinished] using hk ht

theorem find_line_iff (h : ProgramKept s) (ht : absolute_line s ≤ 65535) (hi : i ∈ s.program.code)
    (hn : i.node = some n) :
    find_line s i.address = some (n.file_id, n.file_line) ↔ TableIsRight i n := by
  obtain ⟨htree, -⟩ := h.code i hi
  obtain ⟨-, hfirst, -, -⟩ := h.nodes n (htree.node n hn)
  rw [find_line_eq h hi, tableIsRight_iff htree hn]
  rcases htold : i.told with _ | t
  · constructor
    · intro hright
      have := translate_before h.nonneg (by decide) hright
      omega
    · rintro ⟨t, heq, -⟩
      cases heq
  · have hmem := htree.told t htold
    obtain ⟨-, -, -, hread⟩ := h.nodes t hmem
    simp only [line_told, map_some, getD_some]
    by_cases hle : t.line ≤ 32767
    · rw [translate_located h hmem hle]
      simp [hle]
    · constructor
      · intro hright
        have hneg := int16_neg (by omega) (Int.le_trans hread ht)
        have := translate_before h.nonneg (Int.le_of_lt hneg) hright
        omega
      · rintro ⟨t', heq, hle', -⟩
        cases heq
        exact absurd hle' hle

theorem find_line_is_right_iff_the_tables_are (file_id : Nat) (gifile : Option Nat)
    {s : compiler_t} (h : Reachable (start file_id gifile) step (fun _ _ => True) s)
    (hfinished : s.finished = true) (ht : absolute_line s ≤ 65535) :
    ∀ i ∈ s.program.code, ∀ n, i.node = some n →
      (find_line s i.address = some (n.file_id, n.file_line) ↔ TableIsRight i n) := by
  intro i hi n hn
  exact find_line_iff (programKept_of_reachable h hfinished ht) ht hi hn

/-- A file with an include file before its first function, and code for a line of each. -/
def one_include : List Action :=
  [.include_file 2, .newline, .new_node, .newline, .end_of_file, .newline, .new_node,
    .i_generate_node 0, .ins_bytes 300 true, .i_generate_node 1, .try_to_push true,
    .try_to_push false, .ins_bytes 1 true, .epilog]

theorem the_line_of_an_include_file_is_found :
    ∃ s, run step (start 1 none) one_include = some s ∧ find_line s 300 = some (2, 2) := by
  have hrun : (run step (start 1 none) one_include).map
      (fun s => (s.finished, absolute_line s, s.program.code.getLast?)) =
      some (true, 6, some ⟨300, .A_PROGRAM, some ⟨3, 2, 2, 0⟩, some ⟨3, 2, 2, 0⟩⟩) := by decide
  obtain ⟨s, hs, hstate⟩ := map_eq_some_iff.mp hrun
  simp only [Prod.mk.injEq] at hstate
  obtain ⟨hfinished, hline, hcode⟩ := hstate
  have hiff := find_line_is_right_iff_the_tables_are 1 none
    (.of_any hs) hfinished (by omega)
    _ (mem_of_getLast? hcode) _ rfl
  exact ⟨s, hs, hiff.mpr ⟨by decide, rfl⟩⟩

def two_includes : List Action :=
  [.include_file 2, .newline, .end_of_file, .include_file 2, .newline, .new_node, .end_of_file,
    .i_generate_node 0, .ins_bytes 1 true, .epilog]

/-- The lines of the first time are added to the line of the second time. -/
theorem a_file_included_twice_gets_wrong_lines :
    ¬ ∀ file_id gifile s, Reachable (start file_id gifile) step (fun _ _ => True) s →
      s.finished = true → absolute_line s ≤ 65535 →
      ∀ i ∈ s.program.code, ∀ n, i.node = some n →
        find_line s i.address = some (n.file_id, n.file_line) := by
  intro hall
  have hrun : (run step (start 1 none) two_includes).map
      (fun s => (s.finished, absolute_line s, s.program.code, find_line s 1)) =
      some (true, 7, [⟨1, .A_PROGRAM, some ⟨6, 2, 2, 2⟩, some ⟨6, 2, 2, 2⟩⟩], some (2, 4)) := by
    decide
  obtain ⟨s, hs, hstate⟩ := map_eq_some_iff.mp hrun
  simp only [Prod.mk.injEq] at hstate
  obtain ⟨hfinished, hline, hcode, hfound⟩ := hstate
  have hright := hall 1 none s (.of_any hs)
    hfinished (by omega) _ (hcode ▸ mem_singleton_self _) _ rfl
  rw [hfound] at hright
  revert hright
  decide

end mudos.line_numbers
