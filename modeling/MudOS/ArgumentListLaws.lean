-- The laws of argument lists. Code that raises no error while it counts does
-- what the tree says, and comes to every list with a count of 0. An error
-- between an expansion and its call leaves the count to the next call.
import MudOS.ArgumentLists

open mudos.runs List Option

namespace mudos.argument_lists

variable {W : Type}
variable {s : evaluator_t W} {f body f' : Code W} {fin jmp : List svalue_t → Prop}
  {base : List svalue_t}

variable {g : Code W} {o' : Option (Outcome W)}

/-! ## Errors while a count is there -/

/-- Once an error was raised over a count, the run is not clean any more. -/
def Sticky (f : Code W) : Prop :=
  ∀ s x, f s = some x → x.evaluator.clean = true → s.clean = true

theorem raise_clean {kind : error_kind} {err : svalue_t} {x : Outcome W}
    (h : raise s kind err = some x) (hx : x.evaluator.clean = true) :
    s.clean = true ∧ s.num_varargs = 0 := by
  unfold raise at h
  cases h
  simpa [Outcome.evaluator] using hx

theorem sticky_andThen (hf : Sticky f) (hg : Sticky g) : Sticky fun s => andThen (f s) g := by
  intro s x h hx
  simp only [andThen] at h
  split at h
  · rename_i s' hs'
    exact hf s (.finished s') hs' (hg s' x h hx)
  · exact hf s x h hx

theorem sticky_instruction {p : programs_t W} (hf : Sticky f) : Sticky (instruction p f) := by
  intro s x h hx
  unfold instruction at h
  split at h
  · exact (raise_clean h hx).1
  · exact (hf _ x h hx :)

theorem sticky_run_operator (p : programs_t W) (op num : Nat) : Sticky (run_operator p op num) := by
  intro s x h hx
  unfold run_operator at h
  split at h
  · cases h
  · split at h
    · cases h
      exact hx
    · exact (raise_clean h hx).1

theorem sticky_pop_value : Sticky (F_POP_VALUE : Code W) := by
  intro s x h hx
  unfold F_POP_VALUE at h
  split at h
  · cases h
  · cases h
    exact hx

theorem sticky_return : Sticky (F_RETURN : Code W) := by
  intro s x h hx
  unfold F_RETURN at h
  split at h
  · cases h
  · cases h
    exact hx

theorem sticky_jumped (jump : jump_t) :
    Sticky (fun s : evaluator_t W => some (.jumped s jump)) := by
  intro s x h hx
  cases h
  exact hx

theorem sticky_branch (hf : Sticky f) (hg : Sticky g) : Sticky (branch f g) := by
  intro s x h hx
  unfold branch at h
  split at h
  · cases h
  · split at h
    · exact (hg _ x h hx :)
    · exact (hf _ x h hx :)

theorem sticky_land_lor {is_lor : Bool} {r : Code W} (hr : Sticky r) :
    Sticky (land_lor is_lor r) := by
  intro s x h hx
  unfold land_lor at h
  split at h
  · cases h
  · split at h
    · exact (hr _ x h hx :)
    · cases h
      exact hx

theorem sticky_finished : Sticky (fun s : evaluator_t W => some (.finished s)) := by
  intro s x h hx
  cases h
  exact hx

theorem sticky_loop {test inc : Code W} (htest : Sticky test) (hbody : Sticky body)
    (hinc : Sticky inc) (rounds : Nat) : Sticky (loop test body inc rounds) := by
  induction rounds with
  | zero =>
    intro s x h
    cases h
  | succ rounds ih =>
    have hnext := sticky_andThen hinc ih
    apply sticky_andThen htest
    apply sticky_branch
    · intro s x h hx
      simp only at h
      split at h
      · rename_i s' hs'
        exact hbody s _ hs' (hnext s' x h hx)
      · rename_i s' hs'
        exact hbody s _ hs' (hnext s' x h hx)
      · rename_i s' hs'
        cases h
        exact hbody s _ hs' hx
      · exact hbody s x h hx
    · exact sticky_finished

theorem sticky_do_catch (hbody : Sticky body) : Sticky (do_catch body) := by
  intro s x h hx
  unfold do_catch at h
  split at h
  · exact (raise_clean h hx).1
  · split at h
    · rename_i inner hinner
      cases h
      exact (hbody _ _ hinner hx :)
    · rename_i inner kind err hinner
      split at h
      · cases h
        exact (hbody _ _ hinner hx :)
      · exact (hbody _ _ hinner (raise_clean h hx).1 :)
    · cases h

theorem sticky_call_function {run : stmt_t → Code W} (hrun : ∀ body, Sticky (run body))
    (f : function_t) (args : List svalue_t) : Sticky (call_function run f args) := by
  intro s x h hx
  unfold call_function at h
  split at h
  · exact (raise_clean h hx).1
  · split at h
    · rename_i inner sv hinner
      cases h
      exact (hrun _ _ _ hinner hx :)
    · rename_i inner kind err hinner
      cases h
      exact (hrun _ _ _ hinner hx :)
    · cases h

theorem sticky_run_efun {run : stmt_t → Code W} (hrun : ∀ body, Sticky (run body))
    (p : programs_t W) (efun : efun_run W) : Sticky (run_efun run p efun) := by
  induction efun with
  | value world sv =>
    intro s x h hx
    cases h
    exact hx
  | error world err =>
    intro s x h hx
    exact (raise_clean h hx).1
  | apply world index args next ih =>
    intro s x h hx
    rw [run_efun] at h
    split at h
    · exact ih _ _ s x h hx
    · simp only at h
      split at h
      · rename_i inner hinner
        have hclean := ih _ _ _ x h hx
        exact (sticky_call_function hrun _ _ _ _ hinner hclean :)
      · exact (sticky_call_function hrun _ _ _ _ h hx :)
  | safe_apply world index args next ih =>
    intro s x h hx
    rw [run_efun] at h
    split at h
    · exact ih _ _ s x h hx
    · simp only at h
      split at h
      · rename_i inner hinner
        have hclean := ih _ _ _ x h hx
        exact (sticky_call_function hrun _ _ _ _ hinner hclean :)
      · rename_i inner kind err hinner
        have hclean := ih _ _ _ x h hx
        exact (sticky_call_function hrun _ _ _ _ hinner hclean :)
      · exact (sticky_call_function hrun _ _ _ _ h hx :)

theorem sticky_take_arguments {run : stmt_t → Code W} (hrun : ∀ body, Sticky (run body))
    (p : programs_t W) (kind : call_t) (args : List svalue_t) :
    Sticky (take_arguments run p kind args) := by
  intro s x h hx
  simp only [take_arguments] at h
  split at h
  · split at h
    · cases h
    · exact (sticky_call_function hrun _ _ _ x h hx :)
  · split at h
    · cases h
    · exact (sticky_call_function hrun _ _ _ x h hx :)
  · split at h
    · exact (raise_clean h hx).1
    · exact (sticky_call_function hrun _ _ _ x h hx :)
  · exact (sticky_run_efun hrun p _ _ x h hx :)
  · split at h
    · exact (raise_clean h hx).1
    · cases h
      exact hx
  · cases h
    exact hx

theorem sticky_run_call {run : stmt_t → Code W} (hrun : ∀ body, Sticky (run body))
    (p : programs_t W) (kind : call_t) (num : Nat) : Sticky (run_call run p kind num) := by
  apply sticky_instruction
  intro s x h hx
  simp only at h
  split at h
  · exact (raise_clean h hx).1
  · split at h
    · cases h
    · exact (sticky_take_arguments hrun p _ _ _ x h hx :)

theorem sticky_expand (p : programs_t W) (i : Nat) : Sticky (F_EXPAND_VARARGS p i) := by
  apply sticky_instruction
  intro s x h hx
  simp only at h
  split at h
  · cases h
  · split at h
    · cases h
    · cases h
      exact hx
  · exact (raise_clean h hx).1

mutual

theorem sticky_exec_instr {run : stmt_t → Code W} (hrun : ∀ body, Sticky (run body))
    (p : programs_t W) (rounds : Nat) : ∀ i : instr_t, Sticky (exec_instr run p rounds i)
  | .list_begins => by
    intro s x h hx
    cases h
    exact hx
  | .operator op num => sticky_instruction (sticky_run_operator p op num)
  | .F_EXPAND_VARARGS n => sticky_expand p n
  | .call kind num => sticky_run_call hrun p kind num
  | .F_POP_VALUE => sticky_instruction sticky_pop_value
  | .branch then_ else_ =>
    sticky_instruction
      (sticky_branch (sticky_exec hrun p rounds then_) (sticky_exec hrun p rounds else_))
  | .land_lor is_lor r => sticky_instruction (sticky_land_lor (sticky_exec hrun p rounds r))
  | .F_CATCH body => sticky_instruction (sticky_do_catch (sticky_exec hrun p rounds body))
  | .loop test body inc =>
    sticky_loop (sticky_exec hrun p rounds test) (sticky_exec hrun p rounds body)
      (sticky_exec hrun p rounds inc) rounds
  | .F_BREAK => sticky_instruction (sticky_jumped .break_)
  | .F_CONTINUE => sticky_instruction (sticky_jumped .continue_)
  | .F_RETURN => sticky_instruction sticky_return

theorem sticky_exec {run : stmt_t → Code W} (hrun : ∀ body, Sticky (run body))
    (p : programs_t W) (rounds : Nat) : ∀ code : List instr_t, Sticky (exec run p rounds code)
  | [] => sticky_finished
  | i :: code =>
    sticky_andThen (sticky_exec_instr hrun p rounds i) (sticky_exec hrun p rounds code)

end

theorem sticky_run_code (p : programs_t W) (nesting : Nat) :
    ∀ body, Sticky (run_code p nesting body) := by
  induction nesting with
  | zero =>
    intro body s x h
    cases h
  | succ nesting ih =>
    intro body
    exact sticky_exec ih p nesting _

/-! ## Code and trees -/

structure Fresh (s : evaluator_t W) : Prop where
  count : s.num_varargs = 0
  begins : ∀ n, Event.begins n ∈ s.trace → n = 0

theorem fresh_note (h : Fresh s) {event : Event} (hevent : ∀ n, event = .begins n → n = 0) :
    Fresh (note s event) := by
  refine ⟨h.count, ?_⟩
  intro n hn
  rcases mem_append.mp hn with hn | hn
  · exact h.begins n hn
  · exact hevent n (mem_singleton.mp hn).symm

/-- Unless it was not clean, the code came to what the tree says, and with no count. `fin` is
what the stack is then, and `jmp` what it is at a jump. -/
def Sim (o o' : Option (Outcome W)) (fin jmp : List svalue_t → Prop) : Prop :=
  ∀ x, o = some x → x.evaluator.clean = true → o' = some x ∧ Fresh x.evaluator ∧
    (∀ s', x = .finished s' → fin s'.stack) ∧ (∀ s' jump, x = .jumped s' jump → jmp s'.stack)

def Pushed (base : List svalue_t) (n : Nat) (stack : List svalue_t) : Prop :=
  ∃ values, values.length = n ∧ stack = values ++ base

def Never : List svalue_t → Prop := fun _ => False

theorem Sim.weaken {o : Option (Outcome W)} {fin' jmp' : List svalue_t → Prop}
    (h : Sim o o' fin jmp) (hfin : ∀ stack, fin stack → fin' stack)
    (hjmp : ∀ stack, jmp stack → jmp' stack) : Sim o o' fin' jmp' := by
  intro x hx hclean
  obtain ⟨heq, hfresh, hf, hj⟩ := h x hx hclean
  exact ⟨heq, hfresh, fun s' hs' => hfin _ (hf s' hs'), fun s' jump hs' => hjmp _ (hj s' jump hs')⟩

theorem sim_finished (h : Fresh s) (hfin : fin s.stack) :
    Sim (some (.finished s)) (some (.finished s)) fin jmp := by
  intro x hx _
  cases hx
  refine ⟨rfl, h, ?_, ?_⟩
  · intro s' hs'
    cases hs'
    exact hfin
  · intro s' jump hs'
    cases hs'

theorem sim_jumped (h : Fresh s) {jump : jump_t} (hjmp : jmp s.stack) :
    Sim (some (.jumped s jump)) (some (.jumped s jump)) fin jmp := by
  intro x hx _
  cases hx
  refine ⟨rfl, h, ?_, ?_⟩
  · intro s' hs'
    cases hs'
  · intro s' jump hs'
    cases hs'
    exact hjmp

theorem sim_raise (h : Fresh s) (kind : error_kind) (err : svalue_t) :
    Sim (raise s kind err) (raise s kind err) fin jmp := by
  intro x hx _
  refine ⟨hx, ?_, ?_, ?_⟩
  · unfold raise at hx
    cases hx
    exact ⟨h.count, h.begins⟩
  · intro s' hs'
    subst hs'
    cases hx
  · intro s' jump hs'
    subst hs'
    cases hx

theorem sim_none : Sim none o' fin jmp := by
  intro x hx
  cases hx

theorem sim_andThen {o : Option (Outcome W)} {mid : List svalue_t → Prop} (h : Sim o o' mid jmp)
    (hf : Sticky f) (hnext : ∀ s, Fresh s → mid s.stack → Sim (f s) (f' s) fin jmp) :
    Sim (andThen o f) (andThen o' f') fin jmp := by
  intro x hx hclean
  rcases o with _ | o
  · cases hx
  cases o with
  | finished s =>
    obtain ⟨rfl, hfresh, hmid, -⟩ := h _ rfl (hf s x hx hclean)
    exact hnext s hfresh (hmid s rfl) x hx hclean
  | jumped s jump =>
    cases hx
    obtain ⟨rfl, hfresh, -, hj⟩ := h _ rfl hclean
    refine ⟨rfl, hfresh, ?_, hj⟩
    intro s' hs'
    cases hs'
  | failed s kind err =>
    cases hx
    obtain ⟨rfl, hfresh, -, -⟩ := h _ rfl hclean
    refine ⟨rfl, hfresh, ?_, ?_⟩
    · intro s' hs'
      cases hs'
    · intro s' jump hs'
      cases hs'

theorem sim_instruction {p : programs_t W} (h : Fresh s)
    (hf : ∀ s', Fresh s' → s'.stack = s.stack → Sim (f s') (f' s') fin jmp) :
    Sim (instruction p f s) (instruction p f' s) fin jmp := by
  unfold instruction
  split
  · refine sim_raise ?_ _ _
    exact ⟨h.count, h.begins⟩
  · exact hf _ ⟨h.count, h.begins⟩ rfl

theorem sim_jump {p : programs_t W} (h : Fresh s) (jump : jump_t) :
    Sim (instruction p (fun s => some (.jumped s jump)) s)
      (instruction p (fun s => some (.jumped s jump)) s) fin fun stack => stack = s.stack := by
  refine sim_instruction h ?_
  intro s' hs' hstack'
  exact sim_jumped hs' hstack'

theorem sim_run_operator (p : programs_t W) (op num : Nat) (h : Fresh s)
    (hs : Pushed base num s.stack) :
    Sim (run_operator p op num s) (run_operator p op num s) (Pushed base 1) Never := by
  obtain ⟨values, hlen, hstack⟩ := hs
  unfold run_operator
  split
  · exact sim_none
  · split
    · rename_i world locals sv _
      apply sim_finished
      · exact ⟨h.count, h.begins⟩
      · refine ⟨[sv], rfl, ?_⟩
        simp [push, drop, hstack, ← hlen]
    · refine sim_raise ?_ _ _
      exact ⟨h.count, h.begins⟩

theorem sim_branch {g' : Code W} (h : Fresh s) (hs : Pushed base 1 s.stack)
    (hf : ∀ s', Fresh s' → s'.stack = base → Sim (f s') (f' s') fin jmp)
    (hg : ∀ s', Fresh s' → s'.stack = base → Sim (g s') (g' s') fin jmp) :
    Sim (branch f g s) (branch f' g' s) fin jmp := by
  obtain ⟨values, hlen, hstack⟩ := hs
  obtain ⟨sv, rfl⟩ := length_eq_one_iff.mp hlen
  unfold branch
  rw [hstack]
  simp only [singleton_append]
  split
  · exact hg _ ⟨h.count, h.begins⟩ rfl
  · exact hf _ ⟨h.count, h.begins⟩ rfl

theorem sim_land_lor {is_lor : Bool} {r r' : Code W} (h : Fresh s) (hs : Pushed base 1 s.stack)
    (hr : ∀ s', Fresh s' → s'.stack = base → Sim (r s') (r' s') (Pushed base 1) Never) :
    Sim (land_lor is_lor r s) (land_lor is_lor r' s) (Pushed base 1) Never := by
  have hpushed := hs
  obtain ⟨values, hlen, hstack⟩ := hs
  obtain ⟨sv, rfl⟩ := length_eq_one_iff.mp hlen
  unfold land_lor
  split
  · exact sim_none
  · rename_i sv' stack heq
    rw [hstack] at heq
    cases heq
    split
    · exact hr _ ⟨h.count, h.begins⟩ rfl
    · exact sim_finished h hpushed

theorem sim_loop {test test' body' inc inc' : Code W}
    (hsticky : Sticky body ∧ Sticky inc ∧ Sticky test)
    (htest : ∀ s, Fresh s → s.stack = base → Sim (test s) (test' s) (Pushed base 1) Never)
    (hbody : ∀ s, Fresh s → s.stack = base →
      Sim (body s) (body' s) (fun stack => stack = base) fun stack => stack = base)
    (hinc : ∀ s, Fresh s → s.stack = base →
      Sim (inc s) (inc' s) (fun stack => stack = base) fun stack => stack = base) (rounds : Nat) :
    ∀ s, Fresh s → s.stack = base →
      Sim (loop test body inc rounds s) (loop test' body' inc' rounds s)
        (fun stack => stack = base) fun stack => stack = base := by
  obtain ⟨hstickybody, hstickyinc, hstickytest⟩ := hsticky
  induction rounds with
  | zero =>
    intro s _ _
    exact sim_none
  | succ rounds ih =>
    intro s hs hstack
    have hround := sticky_loop hstickytest hstickybody hstickyinc rounds
    have hagain : ∀ s, Fresh s → s.stack = base →
        Sim (andThen (inc s) (loop test body inc rounds))
          (andThen (inc' s) (loop test' body' inc' rounds))
          (fun stack => stack = base) fun stack => stack = base :=
      fun s hs hstack =>
        sim_andThen (hinc s hs hstack) hround fun s' hs' hstack' => ih s' hs' hstack'
    have hnext := sticky_andThen hstickyinc hround
    apply sim_andThen ((htest s hs hstack).weaken (fun _ h => h) fun _ h => h.elim)
    · apply sticky_branch
      · intro s x h hx
        simp only at h
        split at h
        · rename_i s' hs'
          exact hstickybody s _ hs' (hnext s' x h hx)
        · rename_i s' hs'
          exact hstickybody s _ hs' (hnext s' x h hx)
        · rename_i s' hs'
          cases h
          exact hstickybody s _ hs' hx
        · exact hstickybody s x h hx
      · exact sticky_finished
    · intro s' hs' hpushed
      apply sim_branch hs' hpushed
      · intro s'' hs'' hstack''
        have hb := hbody s'' hs'' hstack''
        rcases ho : body s'' with _ | o
        · exact sim_none
        rw [ho] at hb
        cases o with
        | finished t =>
          intro x hx hclean
          obtain ⟨heq, hfresh, hfin, -⟩ := hb _ rfl (hnext t x hx hclean)
          rw [heq]
          exact hagain t hfresh (hfin t rfl) x hx hclean
        | jumped t jump =>
          cases jump with
          | break_ =>
            intro x hx hclean
            cases hx
            obtain ⟨heq, hfresh, -, hj⟩ := hb _ rfl hclean
            rw [heq]
            refine ⟨rfl, hfresh, ?_, ?_⟩
            · intro s' hs'
              cases hs'
              exact hj t _ rfl
            · intro s' jump hs'
              cases hs'
          | continue_ =>
            intro x hx hclean
            obtain ⟨heq, hfresh, -, hj⟩ := hb _ rfl (hnext t x hx hclean)
            rw [heq]
            exact hagain t hfresh (hj t _ rfl) x hx hclean
          | return_ sv =>
            intro x hx hclean
            cases hx
            obtain ⟨heq, hfresh, hf, hj⟩ := hb _ rfl hclean
            rw [heq]
            exact ⟨rfl, hfresh, hf, hj⟩
        | failed t kind err =>
          intro x hx hclean
          cases hx
          obtain ⟨heq, hfresh, hf, hj⟩ := hb _ rfl hclean
          rw [heq]
          exact ⟨rfl, hfresh, hf, hj⟩
      · intro s'' hs'' hstack''
        exact sim_finished hs'' hstack''

theorem sim_do_catch {body' : Code W} (h : Fresh s) (hbody : ∀ s', Fresh s' → s'.stack = s.stack →
      Sim (body s') (body' s') (fun stack => stack = s.stack) fun stack => stack = s.stack) :
    Sim (do_catch body s) (do_catch body' s) (Pushed s.stack 1) Never := by
  unfold do_catch
  split
  · exact sim_raise h _ _
  · have hb := hbody { s with depth := s.depth + 1 } ⟨h.count, h.begins⟩ rfl
    rcases ho : body { s with depth := s.depth + 1 } with _ | o
    · exact sim_none
    rw [ho] at hb
    cases o with
    | finished inner =>
      intro x hx hclean
      cases hx
      obtain ⟨heq, hfresh, -, -⟩ := hb _ rfl hclean
      rw [heq]
      have hdone : Fresh { inner with stack := .T_NUMBER 0 :: s.stack, depth := s.depth } :=
        ⟨hfresh.count, hfresh.begins⟩
      refine sim_finished hdone ?_ _ rfl hclean
      exact ⟨[_], rfl, rfl⟩
    | jumped inner jump => exact sim_none
    | failed inner kind err =>
      simp only
      split
      · rename_i hkind
        intro x hx hclean
        cases hx
        obtain ⟨heq, hfresh, -, -⟩ := hb _ rfl hclean
        rw [heq]
        simp only [if_pos hkind]
        refine ⟨trivial, ⟨hfresh.count, hfresh.begins⟩, ?_, ?_⟩
        · intro s' hs'
          cases hs'
          exact ⟨[_], rfl, rfl⟩
        · intro s' jump hs'
          cases hs'
      · rename_i hkind
        intro x hx hclean
        obtain ⟨heq, hfresh, -, -⟩ := hb _ rfl (raise_clean hx hclean).1
        rw [heq]
        simp only [if_neg hkind]
        have hback : Fresh { inner with depth := s.depth } := ⟨hfresh.count, hfresh.begins⟩
        exact sim_raise hback _ _ x hx hclean

/-! ## Calls -/

def Anything : List svalue_t → Prop := fun _ => True

def Known (p : programs_t W) (f : function_t) : Prop :=
  (∃ index, p.functions index = some f) ∨ ∃ index, p.simul_efuns index = some f

structure Bodies (p : programs_t W) (run run' : stmt_t → Code W) : Prop where
  sticky : ∀ body, Sticky (run body)
  sim : ∀ f, Known p f → ∀ s, Fresh s → Sim (run f.body s) (run' f.body s) Anything Anything

section

variable {p : programs_t W} {run run' : stmt_t → Code W} (hb : Bodies p run run')

include hb

theorem sim_call_function {f : function_t} (hf : Known p f) (args : List svalue_t) (h : Fresh s) :
    Sim (call_function run f args s) (call_function run' f args s) (Pushed s.stack 1) Never := by
  unfold call_function
  split
  · exact sim_raise h _ _
  generalize hstart : ({ s with
    stack := [], locals := setup_variables f args, depth := s.depth + 1 } : evaluator_t W) = start
  have hfresh : Fresh start := by
    rw [← hstart]
    exact ⟨h.count, h.begins⟩
  have hbody := hb.sim f hf start hfresh
  rcases ho : run f.body start with _ | o
  · exact sim_none
  rw [ho] at hbody
  cases o with
  | finished inner => exact sim_none
  | jumped inner jump =>
    cases jump with
    | break_ => exact sim_none
    | continue_ => exact sim_none
    | return_ sv =>
      intro x hx hclean
      cases hx
      obtain ⟨heq, hfresh', -, -⟩ := hbody _ rfl hclean
      rw [heq]
      refine ⟨rfl, ⟨hfresh'.count, hfresh'.begins⟩, ?_, ?_⟩
      · intro s' hs'
        cases hs'
        exact ⟨[sv], rfl, rfl⟩
      · intro s' jump hs'
        cases hs'
  | failed inner kind err =>
    intro x hx hclean
    cases hx
    obtain ⟨heq, hfresh', -, -⟩ := hbody _ rfl hclean
    rw [heq]
    refine ⟨rfl, ⟨hfresh'.count, hfresh'.begins⟩, ?_, ?_⟩
    · intro s' hs'
      cases hs'
    · intro s' jump hs'
      cases hs'

theorem sim_run_efun (efun : efun_run W) : ∀ {s : evaluator_t W}, Fresh s →
    Sim (run_efun run p efun s) (run_efun run' p efun s) (Pushed s.stack 1) Never := by
  induction efun with
  | value world sv =>
    intro s h
    rw [run_efun, run_efun]
    apply sim_finished
    · exact ⟨h.count, h.begins⟩
    · exact ⟨[sv], rfl, rfl⟩
  | error world err =>
    intro s h
    rw [run_efun, run_efun]
    refine sim_raise ?_ _ _
    exact ⟨h.count, h.begins⟩
  | apply world index args next ih | safe_apply world index args next ih =>
    intro s h
    rw [run_efun, run_efun]
    rcases hf : p.functions index with _ | f
    · exact ih _ _ h
    have hworld : Fresh { s with world } := ⟨h.count, h.begins⟩
    have hcall := sim_call_function hb (.inl ⟨index, hf⟩) args hworld
    simp only
    rcases ho : call_function run f args { s with world } with _ | o
    · exact sim_none
    rw [ho] at hcall
    cases o with
    | finished inner =>
      intro x hx hclean
      simp only at hx
      have hsticky := sticky_run_efun hb.sticky p _ _ x hx hclean
      obtain ⟨heq, hfresh, -, -⟩ := hcall _ rfl hsticky
      have hback : Fresh { inner with stack := s.stack } := ⟨hfresh.count, hfresh.begins⟩
      rw [heq]
      exact ih _ _ hback x hx hclean
    | jumped inner jump =>
      intro x hx hclean
      cases hx
      exact ((hcall _ rfl hclean).2.2.2 _ _ rfl).elim
    | failed inner kind err =>
      intro x hx hclean
      -- Only `apply` passes the error on.
      first
      | cases hx
        obtain ⟨heq, hfresh, hfin, hj⟩ := hcall _ rfl hclean
        rw [heq]
        exact ⟨rfl, hfresh, hfin, hj⟩
      | have hsticky := sticky_run_efun hb.sticky p _ _ x hx hclean
        obtain ⟨heq, hfresh, -, -⟩ := hcall _ rfl hsticky
        have hback : Fresh { inner with stack := s.stack } := ⟨hfresh.count, hfresh.begins⟩
        rw [heq]
        exact ih _ _ hback x hx hclean

theorem sim_take_arguments (kind : call_t) (args : List svalue_t) (h : Fresh s) :
    Sim (take_arguments run p kind args s) (take_arguments run' p kind args s)
      (Pushed s.stack 1) Never := by
  have hnoted : Fresh (note s (.called kind args)) :=
    fresh_note h (by intro n hn; cases hn)
  unfold take_arguments
  cases kind with
  | F_CALL_FUNCTION_BY_ADDRESS index | F_CALL_INHERITED index =>
    simp only
    rcases hf : p.functions index with _ | f
    · exact sim_none
    · exact sim_call_function hb (.inl ⟨index, hf⟩) args hnoted
  | F_SIMUL_EFUN index =>
    simp only
    rcases hf : p.simul_efuns index with _ | f
    · exact sim_raise hnoted _ _
    · exact sim_call_function hb (.inr ⟨index, hf⟩) args hnoted
  | F_EFUNV efun => exact sim_run_efun hb _ hnoted
  | F_AGGREGATE =>
    simp only
    split
    · exact sim_raise hnoted _ _
    · apply sim_finished
      · exact ⟨hnoted.count, hnoted.begins⟩
      · exact ⟨[_], rfl, rfl⟩
  | F_AGGREGATE_ASSOC =>
    apply sim_finished
    · exact ⟨hnoted.count, hnoted.begins⟩
    · exact ⟨[_], rfl, rfl⟩

end

/-! ## Lists that fit -/

def near : List Bool → Bool
  | [] => true
  | expand :: rest => (!expand || rest.length ≤ 255) && near rest

def operand_fits (kind : call_t) (num : Nat) : Bool :=
  match kind with
  | .F_AGGREGATE => num ≤ 65535
  | .F_AGGREGATE_ASSOC => num ≤ 65535
  | _ => num ≤ 255

mutual

/-- The operands of all calls hold what the compiler writes to them. -/
def expr_t.fits : expr_t → Bool
  | .operator _ operands => operands.fits
  | .call kind args => operand_fits kind args.length && near args.expands && args.fits
  | .cond test then_ else_ => test.fits && then_.fits && else_.fits
  | .land_lor _ l r => l.fits && r.fits
  | .catch_ body => body.fits

def expr_list_t.fits : expr_list_t → Bool
  | .nil => true
  | .cons expr _ rest => expr.fits && rest.fits

def stmt_t.fits : stmt_t → Bool
  | .expr expr => expr.fits
  | .seq first second => first.fits && second.fits
  | .cond test then_ else_ => test.fits && then_.fits && else_.fits
  | .loop test body inc => test.fits && body.fits && inc.fits
  | .break_ => true
  | .continue_ => true
  | .return_ expr => expr.fits

end

theorem length_expands : ∀ args : expr_list_t, args.expands.length = args.length
  | .nil => rfl
  | .cons _ _ rest => by
    rw [expr_list_t.expands, expr_list_t.length, length_cons, length_expands rest]

/-! ## The expansions and the call -/

theorem andThen_assoc (o : Option (Outcome W)) (f g : Code W) :
    andThen (andThen o f) g = andThen o fun s => andThen (f s) g := by
  rcases o with _ | o
  · rfl
  · cases o <;> rfl

theorem exec_cons (run : stmt_t → Code W) (p : programs_t W) (rounds : Nat) (i : instr_t)
    (code : List instr_t) (s : evaluator_t W) :
    exec run p rounds (i :: code) s =
      andThen (exec_instr run p rounds i s) (exec run p rounds code) := by rw [exec]

theorem exec_append (run : stmt_t → Code W) (p : programs_t W) (rounds : Nat)
    (code code' : List instr_t) (s : evaluator_t W) :
    exec run p rounds (code ++ code') s =
      andThen (exec run p rounds code s) (exec run p rounds code') := by
  induction code generalizing s with
  | nil => rfl
  | cons i code ih =>
    rw [cons_append, exec_cons, exec_cons, andThen_assoc]
    congr 1
    funext s'
    exact ih s'

theorem exec_single (run : stmt_t → Code W) (p : programs_t W) (rounds : Nat) (i : instr_t)
    (s : evaluator_t W) : exec run p rounds [i] s = exec_instr run p rounds i s := by
  rw [exec_cons]
  rcases exec_instr run p rounds i s with _ | o
  · rfl
  · cases o <;> rfl

/-- The evaluator of the tree, which has other values on its stack and no count. -/
def uncounted (s : evaluator_t W) (stack : List svalue_t) : evaluator_t W :=
  { s with stack, num_varargs := 0 }

theorem sim_raise_uncounted {stack : List svalue_t} (h : Fresh (uncounted s stack))
    (kind : error_kind) (err : svalue_t) :
    Sim (raise s kind err) (raise (uncounted s stack) kind err) fin jmp := by
  intro x hx hclean
  have hcount := (raise_clean hx hclean).2
  have heq : raise (uncounted s stack) kind err = raise s kind err := by
    simp [raise, uncounted, hcount]
  exact sim_raise h kind err x (heq.trans hx) hclean |>.imp_left fun _ => heq.trans hx

theorem sim_uncounted_instruction {p : programs_t W} {stack : List svalue_t}
    (h : Fresh (uncounted s stack)) (hf : ∀ s', Fresh (uncounted s' stack) → s'.stack = s.stack →
      s'.num_varargs = s.num_varargs → Sim (f s') (f' (uncounted s' stack)) fin jmp) :
    Sim (instruction p f s) (instruction p f' (uncounted s stack)) fin jmp := by
  have hcost : (uncounted s stack).eval_cost = s.eval_cost := rfl
  unfold instruction
  rw [hcost]
  split
  · have hfull : Fresh (uncounted { s with eval_cost := p.max_cost } stack) :=
      ⟨h.count, h.begins⟩
    exact sim_raise_uncounted hfull _ _
  · have hnext : Fresh (uncounted { s with eval_cost := s.eval_cost - 1 } stack) :=
      ⟨h.count, h.begins⟩
    exact hf _ hnext rfl rfl

/-- The call of the tree when some values of its list are in place. -/
def call_after (run : stmt_t → Code W) (p : programs_t W) (kind : call_t)
    (done : List svalue_t) (own : List (svalue_t × Bool)) (base : List svalue_t) : Code W :=
  instruction p fun s =>
    match before_call p kind s with
    | some error => raise s error (.T_STRING 7)
    | none =>
      match expanded own with
      | none => none
      | some args => take_arguments run p kind (done ++ args) { s with stack := base }

theorem call_after_value (run : stmt_t → Code W) (p : programs_t W) (kind : call_t)
    (done : List svalue_t) (sv : svalue_t) (own : List (svalue_t × Bool)) (base : List svalue_t) :
    call_after run p kind done ((sv, false) :: own) base =
      call_after run p kind (done ++ [sv]) own base := by
  unfold call_after
  congr 1
  funext s
  rw [expanded]
  cases expanded own <;> simp

theorem call_after_array (run : stmt_t → Code W) (p : programs_t W) (kind : call_t)
    (done item : List svalue_t) (own : List (svalue_t × Bool)) (base : List svalue_t) :
    call_after run p kind done ((.T_ARRAY item, true) :: own) base =
      call_after run p kind (done ++ item) own base := by
  unfold call_after
  congr 1
  funext s
  rw [expanded]
  cases expanded own <;> simp

theorem argument_count_eq {kind : call_t} {num n : Nat} {count : Int}
    (hfits : operand_fits kind num = true) (hcount : (num : Int) + count = n)
    (hn : n < 65536) : argument_count kind (call_operand kind num) count = n := by
  cases kind with
  | F_AGGREGATE | F_AGGREGATE_ASSOC
  | F_CALL_FUNCTION_BY_ADDRESS _ | F_CALL_INHERITED _ | F_SIMUL_EFUN _ | F_EFUNV _ =>
    simp only [operand_fits, decide_eq_true_eq] at hfits
    simp only [argument_count, call_operand]
    omega

section

variable {p : programs_t W} {run run' : stmt_t → Code W} (hb : Bodies p run run')

include hb

theorem sim_run_call {kind : call_t} {num : Nat} (hfits : operand_fits kind num = true)
    {done stack : List svalue_t} (h : Fresh (uncounted s stack))
    (hstack : s.stack = done.reverse ++ base) (hcount : (num : Int) + s.num_varargs = done.length)
    (hlt : done.length < 65536) :
    Sim (run_call run p kind (call_operand kind num) s)
      (call_after run' p kind done [] base (uncounted s stack)) (Pushed base 1) Never := by
  refine sim_uncounted_instruction h ?_
  intro s' hs' hstack' hcount'
  have hbefore : before_call p kind (uncounted s' stack) = before_call p kind s' := by
    cases kind <;> rfl
  simp only [hbefore]
  rcases before_call p kind s' with _ | error
  · simp only [argument_count_eq hfits (hcount' ▸ hcount) hlt, expanded, append_nil]
    rw [hstack] at hstack'
    have hlen : ¬ s'.stack.length < done.length := by
      rw [hstack', length_append, length_reverse]
      omega
    have htop : top s' done.length = done := by
      simp only [top, hstack']
      rw [take_left' (length_reverse), reverse_reverse]
    have hdrop : s'.stack.drop done.length = base := by
      rw [hstack', drop_left' (length_reverse)]
    rw [if_neg hlen, htop]
    simp only [drop, hdrop]
    refine sim_take_arguments hb kind done ?_
    exact ⟨rfl, hs'.begins⟩
  · exact sim_raise_uncounted hs' _ _

/-- The expansions and the call, by induction on the values that are not in place yet. The
count is what the values in place are more than their nodes. -/
theorem sim_expansions {kind : call_t} {num : Nat} (hfits : operand_fits kind num = true)
    (rounds : Nat) {base stack : List svalue_t} (own : List (svalue_t × Bool)) :
    ∀ {done : List svalue_t} {s : evaluator_t W}, near (own.map Prod.snd) = true →
      Fresh (uncounted s stack) →
      s.stack = (own.map Prod.fst).reverse ++ (done.reverse ++ base) →
      (num : Int) + s.num_varargs = done.length + own.length →
      done.length + own.length < 65536 →
      Sim (andThen (exec run p rounds (expansions (own.map Prod.snd)) s)
          (run_call run p kind (call_operand kind num)))
        (andThen (expand_own p s.stack.length own (uncounted s stack))
          (call_after run' p kind done own base)) (Pushed base 1) Never := by
  induction own with
  | nil =>
    intro done s _ h hstack hcount hlt
    simp only [map_nil, expansions, exec, expand_own, andThen]
    exact sim_run_call hb hfits h hstack (by simpa using hcount) (by simpa using hlt)
  | cons pair own ih =>
    obtain ⟨sv, expand⟩ := pair
    intro done s hnear h hstack hcount hlt
    simp only [map_cons, near, Bool.and_eq_true, length_map] at hnear
    simp only [map_cons, reverse_cons, append_assoc, singleton_append]
      at hstack
    simp only [length_cons] at hcount hlt
    cases expand with
    | false =>
      rw [call_after_value]
      have hdone : (done ++ [sv]).length = done.length + 1 := by simp
      apply ih hnear.2 h
      · rw [hstack]
        simp
      · rw [hdone]
        omega
      · rw [hdone]
        omega
    | true =>
      have hnear' : own.length ≤ 255 := by simpa using hnear.1
      have hat : (expansions (List.map Prod.snd ((sv, true) :: own))) =
          .F_EXPAND_VARARGS own.length :: expansions (own.map Prod.snd) := by
        simp only [map_cons, expansions, if_true, length_map]
        rw [Nat.mod_eq_of_lt (by omega)]
      rw [hat, exec_cons, exec_instr, andThen_assoc]
      have hlen : (own.map Prod.fst).reverse.length = own.length := by simp
      have hslot : ∀ s' : evaluator_t W, s'.stack = s.stack →
          s'.stack[own.length]? = some sv := by
        intro s' hs'
        rw [hs', hstack, getElem?_append_right (by omega), hlen, Nat.sub_self]
        rfl
      have hcons : ∀ sv', sv = sv' → (∀ item, sv' ≠ .T_ARRAY item) →
          Sim (andThen (F_EXPAND_VARARGS p own.length s) fun s =>
              andThen (exec run p rounds (expansions (own.map Prod.snd)) s)
                (run_call run p kind (call_operand kind num)))
            (andThen (instruction p (fun s => raise s .ordinary (.T_STRING 6))
              (uncounted s stack)) (call_after run' p kind done ((sv, true) :: own) base))
            (Pushed base 1) Never := by
        intro sv' heq hnot
        refine sim_andThen (?_ : Sim _ _ Never _) ?_ ?_
        · refine sim_uncounted_instruction h ?_
          intro s' hs' hstack' _
          rw [hslot s' hstack', heq]
          cases sv' with
          | T_ARRAY item => exact absurd rfl (hnot item)
          | T_NUMBER _ | T_STRING _ | T_MAPPING _ => exact sim_raise_uncounted hs' _ _
        · exact sticky_andThen (sticky_exec hb.sticky p rounds _)
            (sticky_run_call hb.sticky p kind _)
        · intro _ _ hnever
          exact hnever.elim
      cases sv with
      | T_NUMBER number | T_STRING text
      | T_MAPPING item => exact hcons _ rfl (by intro item hitem; cases hitem)
      | T_ARRAY item =>
        rw [call_after_array, expand_own]
        rw [andThen_assoc]
        unfold F_EXPAND_VARARGS instruction
        have hcost : (uncounted s stack).eval_cost = s.eval_cost := rfl
        rw [hcost]
        split
        · intro x hx hclean
          have hfull : Fresh (uncounted { s with eval_cost := p.max_cost } stack) :=
            ⟨h.count, h.begins⟩
          exact sim_raise_uncounted hfull .max_eval (.T_STRING 0) x hx hclean
        · have hitem := hslot { s with eval_cost := s.eval_cost - 1 } rfl
          simp only [hitem]
          by_cases hroom : s.stack.length + item.length > CFG_EVALUATOR_STACK_SIZE
          · rw [if_pos hroom]
            exact sim_none
          rw [if_neg hroom, if_neg hroom]
          simp only [andThen]
          have htotal := congrArg List.length hstack
          simp only [length_append, length_cons, length_reverse,
            length_map] at htotal
          have htake : s.stack.take own.length = (own.map Prod.fst).reverse := by
            rw [hstack, take_left' hlen]
          have hdrop : s.stack.drop (own.length + 1) = done.reverse ++ base := by
            rw [hstack, ← drop_drop, drop_left' hlen]
            rfl
          have hlen' : (s.stack.take own.length ++
              (item.reverse ++ s.stack.drop (own.length + 1))).length =
                s.stack.length + item.length - 1 := by
            rw [htake, hdrop]
            simp only [length_append, length_reverse, length_map]
            omega
          have hnext := @ih (done ++ item)
            { s with
              stack := s.stack.take own.length ++
                (item.reverse ++ s.stack.drop (own.length + 1))
              num_varargs := s.num_varargs + (item.length - 1)
              eval_cost := s.eval_cost - 1 }
            hnear.2 ⟨rfl, h.begins⟩ (by
              simp only [htake, hdrop, reverse_append, append_assoc])
            (by
              simp only [length_append]
              omega)
            (by
              simp only [length_append]
              unfold CFG_EVALUATOR_STACK_SIZE at hroom
              omega)
          simp only [hlen'] at hnext
          exact hnext

/-! ## The whole tree -/

omit hb in
theorem Pushed.trans {stack stack' : List svalue_t} {n m : Nat} (h : Pushed base n stack)
    (h' : Pushed stack m stack') : Pushed base (m + n) stack' := by
  obtain ⟨values, hlen, rfl⟩ := h
  obtain ⟨values', hlen', rfl⟩ := h'
  refine ⟨values' ++ values, ?_, (append_assoc _ _ _).symm⟩
  rw [length_append, hlen, hlen']

omit hb in
theorem uncounted_self (h : Fresh s) : uncounted s s.stack = s := by
  unfold uncounted
  rw [← h.count]

theorem sim_call_code {kind : call_t} {args : expr_list_t} {rounds : Nat}
    (hfits : operand_fits kind args.length = true) (hnear : near args.expands = true)
    {inner : evaluator_t W} (h : Fresh inner) (hpushed : Pushed base args.length inner.stack) :
    Sim (exec run p rounds
          (expansions args.expands ++ [.call kind (call_operand kind args.length)]) inner)
        (andThen (expand_own p inner.stack.length ((top inner args.length).zip args.expands) inner)
          (call_own run' p kind ((top inner args.length).zip args.expands) base))
        (Pushed base 1) Never := by
  obtain ⟨values, hlen, hstack⟩ := hpushed
  have htop : top inner args.length = values.reverse := by
    unfold top
    rw [hstack, take_left' hlen]
  have hlen' : values.reverse.length = args.expands.length := by
    rw [length_reverse, hlen, length_expands]
  have hvalues : ((values.reverse).zip args.expands).map Prod.fst = values.reverse :=
    map_fst_zip (Nat.le_of_eq hlen')
  have hflags : ((values.reverse).zip args.expands).map Prod.snd = args.expands :=
    map_snd_zip (Nat.le_of_eq hlen'.symm)
  have hown : ((values.reverse).zip args.expands).length = args.length := by
    rw [length_zip, hlen', Nat.min_self, length_expands]
  have hlt : args.length < 65536 := by
    cases kind <;> simp [operand_fits] at hfits <;> omega
  have hsim := @sim_expansions _ p run run' hb kind args.length hfits rounds base inner.stack
    ((values.reverse).zip args.expands) [] inner (by rw [hflags]; exact hnear)
    (by rw [uncounted_self h]; exact h)
    (by rw [hvalues, reverse_reverse, hstack]; rfl)
    (by rw [hown, h.count]; simp) (by rw [hown]; simpa using hlt)
  rw [hflags, uncounted_self h] at hsim
  have hcode : exec run p rounds [.call kind (call_operand kind args.length)] =
      run_call run p kind (call_operand kind args.length) := by
    funext s
    exact exec_single run p rounds _ s
  rwa [exec_append, hcode, htop]

mutual

theorem sim_expr (rounds : Nat) : ∀ (e : expr_t), e.fits = true → ∀ {s : evaluator_t W},
    Fresh s → Sim (exec run p rounds (i_generate_node e) s) (eval_expr run' p rounds e s)
      (Pushed s.stack 1) Never
  | .operator op operands, hfits, s, h => by
    rw [expr_t.fits] at hfits
    rw [i_generate_node, eval_expr, exec_append]
    refine sim_andThen (sim_nodes rounds operands hfits h) (sticky_exec hb.sticky p rounds _) ?_
    intro s' hs' hpushed
    rw [exec_single, exec_instr]
    refine sim_instruction hs' ?_
    intro s'' hs'' hstack''
    exact sim_run_operator p op operands.length hs'' (hstack'' ▸ hpushed)
  | .call kind args, hfits, s, h => by
    rw [expr_t.fits, Bool.and_eq_true, Bool.and_eq_true] at hfits
    obtain ⟨⟨hoperand, hnear⟩, hargs⟩ := hfits
    have hbegun : Fresh (note s (.begins 0)) :=
      fresh_note h (by intro n hn; cases hn; rfl)
    have hfirst : exec run p rounds (i_generate_node (.call kind args)) s =
        andThen (exec run p rounds (generate_nodes args) (note s (.begins 0)))
          (exec run p rounds
            (expansions args.expands ++ [.call kind (call_operand kind args.length)])) := by
      have hmark : exec_instr run p rounds .list_begins s =
          some (.finished (note s (.begins 0))) := by
        rw [exec_instr, ← h.count]
      rw [i_generate_node, exec_cons, hmark]
      exact exec_append run p rounds _ _ _
    rw [hfirst, eval_expr]
    refine sim_andThen (sim_nodes rounds args hargs hbegun) (sticky_exec hb.sticky p rounds _) ?_
    intro inner hinner hpushed
    exact sim_call_code hb hoperand hnear hinner hpushed
  | .cond test then_ else_, hfits, s, h => by
    rw [expr_t.fits, Bool.and_eq_true, Bool.and_eq_true] at hfits
    rw [i_generate_node, eval_expr, exec_append]
    refine sim_andThen (sim_expr rounds test hfits.1.1 h) (sticky_exec hb.sticky p rounds _) ?_
    intro s' hs' hpushed
    rw [exec_single, exec_instr]
    refine sim_instruction hs' ?_
    intro s'' hs'' hstack''
    apply sim_branch hs'' (hstack'' ▸ hpushed)
    · intro t ht hstack
      rw [← hstack]
      exact sim_expr rounds then_ hfits.1.2 ht
    · intro t ht hstack
      rw [← hstack]
      exact sim_expr rounds else_ hfits.2 ht
  | .land_lor is_lor l r, hfits, s, h => by
    rw [expr_t.fits, Bool.and_eq_true] at hfits
    rw [i_generate_node, eval_expr, exec_append]
    refine sim_andThen (sim_expr rounds l hfits.1 h) (sticky_exec hb.sticky p rounds _) ?_
    intro s' hs' hpushed
    rw [exec_single, exec_instr]
    refine sim_instruction hs' ?_
    intro s'' hs'' hstack''
    apply sim_land_lor hs'' (hstack'' ▸ hpushed)
    intro t ht hstack
    rw [← hstack]
    exact sim_expr rounds r hfits.2 ht
  | .catch_ body, hfits, s, h => by
    rw [expr_t.fits] at hfits
    rw [i_generate_node, eval_expr, exec_single, exec_instr]
    refine sim_instruction h ?_
    intro s' hs' hstack'
    rw [← hstack']
    apply sim_do_catch hs'
    intro s'' hs'' hstack''
    rw [← hstack'']
    exact sim_stmt rounds body hfits hs''

theorem sim_nodes (rounds : Nat) : ∀ (l : expr_list_t), l.fits = true → ∀ {s : evaluator_t W},
    Fresh s → Sim (exec run p rounds (generate_nodes l) s) (eval_nodes run' p rounds l s)
      (Pushed s.stack l.length) Never
  | .nil, _, s, h => by
    rw [generate_nodes, eval_nodes, exec]
    exact sim_finished h ⟨[], rfl, rfl⟩
  | .cons expr _ rest, hfits, s, h => by
    rw [expr_list_t.fits, Bool.and_eq_true] at hfits
    rw [generate_nodes, eval_nodes, exec_append]
    refine sim_andThen (sim_expr rounds expr hfits.1 h) (sticky_exec hb.sticky p rounds _) ?_
    intro s' hs' hpushed
    exact (sim_nodes rounds rest hfits.2 hs').weaken (fun _ h' => hpushed.trans h') fun _ h' => h'

theorem sim_stmt (rounds : Nat) : ∀ (b : stmt_t), b.fits = true → ∀ {s : evaluator_t W},
    Fresh s → Sim (exec run p rounds (generate_stmt b) s) (eval_stmt run' p rounds b s)
      (fun stack => stack = s.stack) fun stack => stack = s.stack
  | .expr expr, hfits, s, h => by
    rw [stmt_t.fits] at hfits
    rw [generate_stmt, eval_stmt, exec_append]
    refine sim_andThen ((sim_expr rounds expr hfits h).weaken (fun _ h' => h') fun _ h' => h'.elim)
      (sticky_exec hb.sticky p rounds _) ?_
    intro s' hs' hpushed
    rw [exec_single, exec_instr]
    refine sim_instruction hs' ?_
    intro s'' hs'' hstack''
    obtain ⟨values, hlen, hvalues⟩ := hpushed
    obtain ⟨sv, rfl⟩ := length_eq_one_iff.mp hlen
    unfold F_POP_VALUE
    rw [hstack'', hvalues]
    apply sim_finished
    · exact ⟨hs''.count, hs''.begins⟩
    · rfl
  | .seq first second, hfits, s, h => by
    rw [stmt_t.fits, Bool.and_eq_true] at hfits
    rw [generate_stmt, eval_stmt, exec_append]
    refine sim_andThen (sim_stmt rounds first hfits.1 h) (sticky_exec hb.sticky p rounds _) ?_
    intro s' hs' hstack'
    rw [← hstack']
    exact sim_stmt rounds second hfits.2 hs'
  | .cond test then_ else_, hfits, s, h => by
    rw [stmt_t.fits, Bool.and_eq_true, Bool.and_eq_true] at hfits
    rw [generate_stmt, eval_stmt, exec_append]
    refine sim_andThen
      ((sim_expr rounds test hfits.1.1 h).weaken (fun _ h' => h') fun _ h' => h'.elim)
      (sticky_exec hb.sticky p rounds _) ?_
    intro s' hs' hpushed
    rw [exec_single, exec_instr]
    refine sim_instruction hs' ?_
    intro s'' hs'' hstack''
    apply sim_branch hs'' (hstack'' ▸ hpushed)
    · intro t ht hstack
      rw [← hstack]
      exact sim_stmt rounds then_ hfits.1.2 ht
    · intro t ht hstack
      rw [← hstack]
      exact sim_stmt rounds else_ hfits.2 ht
  | .loop test body inc, hfits, s, h => by
    rw [stmt_t.fits, Bool.and_eq_true, Bool.and_eq_true] at hfits
    rw [generate_stmt, eval_stmt, exec_single, exec_instr]
    apply sim_loop ⟨sticky_exec hb.sticky p rounds _, sticky_exec hb.sticky p rounds _,
      sticky_exec hb.sticky p rounds _⟩ _ _ _ rounds s h rfl
    · intro t ht hstack
      rw [← hstack]
      exact sim_expr rounds test hfits.1.1 ht
    · intro t ht hstack
      rw [← hstack]
      exact sim_stmt rounds body hfits.1.2 ht
    · intro t ht hstack
      rw [← hstack]
      exact sim_stmt rounds inc hfits.2 ht
  | .break_, _, s, h => by
    rw [generate_stmt, eval_stmt, exec_single, exec_instr]
    exact sim_jump h .break_
  | .continue_, _, s, h => by
    rw [generate_stmt, eval_stmt, exec_single, exec_instr]
    exact sim_jump h .continue_
  | .return_ expr, hfits, s, h => by
    rw [stmt_t.fits] at hfits
    rw [generate_stmt, eval_stmt, exec_append]
    refine sim_andThen ((sim_expr rounds expr hfits h).weaken (fun _ h' => h') fun _ h' => h'.elim)
      (sticky_exec hb.sticky p rounds _) ?_
    intro s' hs' hpushed
    rw [exec_single, exec_instr]
    refine sim_instruction hs' ?_
    intro s'' hs'' hstack''
    obtain ⟨values, hlen, hvalues⟩ := hpushed
    obtain ⟨sv, rfl⟩ := length_eq_one_iff.mp hlen
    unfold F_RETURN
    rw [hstack'', hvalues]
    apply sim_jumped
    · exact ⟨hs''.count, hs''.begins⟩
    · rfl

end

end

/-! ## Runs -/

def Fits (p : programs_t W) : Prop := ∀ f, Known p f → f.body.fits = true

theorem bodies_agree (hfits : Fits p) (nesting : Nat) :
    Bodies p (run_code p nesting) (run_tree p nesting) := by
  induction nesting with
  | zero =>
    refine ⟨sticky_run_code p 0, ?_⟩
    intro f _ s _
    exact sim_none
  | succ nesting ih =>
    refine ⟨sticky_run_code p (nesting + 1), ?_⟩
    intro f hf s h
    exact (sim_stmt ih nesting f.body (hfits f hf) h).weaken (fun _ _ => trivial)
      fun _ _ => trivial

def clean_step (p : programs_t W) (s : evaluator_t W) : Action W → Prop
  | .apply index args nesting =>
    ∀ o, apply (run_code p) p index args nesting s = some o → o.evaluator.clean = true
  | .other _ => True

theorem sim_apply (hfits : Fits p) (index : Nat) (args : List svalue_t) (nesting : Nat)
    (h : Fresh s) :
    Sim (apply (run_code p) p index args nesting s) (apply (run_tree p) p index args nesting s)
      Anything Never := by
  unfold apply
  rcases hf : p.functions index with _ | f
  · exact sim_none
  have hstart : Fresh { s with stack := [], eval_cost := p.max_cost } := ⟨h.count, h.begins⟩
  exact (sim_call_function (bodies_agree hfits nesting) (.inl ⟨index, hf⟩) args hstart).weaken
    (fun _ _ => trivial) fun _ h' => h'

theorem fresh_of_reachable (hfits : Fits p) {world : W}
    (h : Reachable (start world) (step p) (clean_step p) s) : Fresh s := by
  refine h.inv ⟨rfl, by intro n hn; cases hn⟩ ?_
  intro t a t' ht hclean hs
  cases a with
  | apply index args nesting =>
    rw [step, map_eq_some_iff] at hs
    obtain ⟨o, ho, rfl⟩ := hs
    obtain ⟨-, hfresh, -, -⟩ := sim_apply hfits index args nesting ht o ho (hclean o ho)
    exact ⟨hfresh.count, hfresh.begins⟩
  | other world =>
    cases hs
    exact ⟨ht.count, ht.begins⟩

/-- In a run whose errors leave no count, a call of the driver does what the trees say, where
each call takes the values of its own list, and every list begins with a count of 0. -/
theorem calls_take_their_own_arguments {p : programs_t W} (hfits : Fits p) {world : W}
    {s : evaluator_t W} (h : Reachable (start world) (step p) (clean_step p) s) {index : Nat}
    {args : List svalue_t} {nesting : Nat} {o : Outcome W}
    (ho : apply (run_code p) p index args nesting s = some o) (hclean : o.evaluator.clean = true) :
    apply (run_tree p) p index args nesting s = some o ∧
      ∀ n, Event.begins n ∈ o.evaluator.trace → n = 0 := by
  obtain ⟨heq, hfresh, -, -⟩ :=
    sim_apply hfits index args nesting (fresh_of_reachable hfits h) o ho hclean
  exact ⟨heq, hfresh.begins⟩

def number (n : Nat) : expr_t := .operator n .nil

/-- A program of one function. Operator 0 gives an array of three, and the others give their
number. Efun 0 is an error, and the others give 0. -/
def one_function (body : stmt_t) : programs_t Unit where
  functions := fun index => if index = 0 then some ⟨0, 0, false, body⟩ else none
  simul_efuns := fun _ => none
  operators := fun op world locals _ =>
    (world, locals, .ok
      (if op = 0 then .T_ARRAY [.T_NUMBER 1, .T_NUMBER 2, .T_NUMBER 3] else .T_NUMBER op))
  efuns := fun efun world _ =>
    if efun = 0 then .error world (.T_STRING 9) else .value world (.T_NUMBER 0)
  max_cost := 1000
  max_array_size := 15000

theorem fits_one_function {body : stmt_t} (h : body.fits = true) : Fits (one_function body) := by
  intro f hf
  rcases hf with ⟨index, hf⟩ | ⟨index, hf⟩
  · simp only [one_function, ite_none_right_eq_some, some.injEq] at hf
    rwa [← hf.2]
  · cases hf

/-- The count that an event notes, or how many arguments a call took. -/
def note_of : Event → Int ⊕ Nat
  | .begins num_varargs => .inl num_varargs
  | .called _ args => .inr args.length

/-- `return f(({ 1, 2, 3 })..., 7);` -/
def expands_one : stmt_t :=
  .return_ (.call (.F_EFUNV 1) (.cons (number 0) true (.cons (number 7) false .nil)))

theorem a_call_takes_its_own_four_arguments : ∃ o,
    apply (run_code (one_function expands_one)) (one_function expands_one) 0 [] 1 (start ()) =
        some o ∧
      o.evaluator.trace.map note_of = [.inl 0, .inr 4] ∧
      apply (run_tree (one_function expands_one)) (one_function expands_one) 0 [] 1 (start ()) =
        some o ∧
      ∀ n, Event.begins n ∈ o.evaluator.trace → n = 0 := by
  have hrun : (apply (run_code (one_function expands_one)) (one_function expands_one) 0 [] 1
      (start ())).map (fun o => (o.evaluator.trace.map note_of, o.evaluator.clean)) =
        some ([.inl 0, .inr 4], true) := by decide +kernel
  obtain ⟨o, ho, heq⟩ := map_eq_some_iff.mp hrun
  obtain ⟨htrace, hclean⟩ := Prod.mk.inj heq
  exact ⟨o, ho, htrace, calls_take_their_own_arguments
    (fits_one_function (by decide +kernel)) .start ho hclean⟩

/-- `catch(f(({ 1, 2, 3 })..., 1...));` and then, in a catch, a call of `f` with one argument
in an array that has two values before it. -/
def expands_no_array : stmt_t :=
  .seq
    (.expr (.catch_ (.expr
      (.call (.F_EFUNV 1) (.cons (number 0) true (.cons (number 1) true .nil))))))
    (.seq
      (.expr (.catch_ (.expr (.call .F_AGGREGATE (.cons (number 5) false (.cons (number 6) false
        (.cons (.call (.F_EFUNV 0) (.cons (number 7) false .nil)) false .nil)))))))
      (.return_ (number 1)))

/-- The error in the second expansion leaves a count of 2 to the lists after it. -/
theorem a_caught_error_leaves_its_count : ¬ ∀ (p : programs_t Unit) (s : evaluator_t Unit),
    Fits p → Reachable (start ()) (step p) (fun _ _ => True) s →
      ∀ index args nesting o, apply (run_code p) p index args nesting s = some o →
        apply (run_tree p) p index args nesting s = some o ∧
          ∀ n, Event.begins n ∈ o.evaluator.trace → n = 0 := by
  intro hall
  have hrun : (apply (run_code (one_function expands_no_array)) (one_function expands_no_array) 0
      [] 1 (start ())).map (fun o => o.evaluator.trace.map note_of) =
        some [.inl 0, .inl 2, .inl 2, .inr 3] := by decide +kernel
  obtain ⟨o, ho, htrace⟩ := map_eq_some_iff.mp hrun
  have hzero := (hall _ _ (fits_one_function (by decide +kernel)) .start 0 [] 1 o ho).2
  have hmem : (.inl 2 : Int ⊕ Nat) ∈ o.evaluator.trace.map note_of := by
    rw [htrace]
    simp
  obtain ⟨event, hevent, heq⟩ := mem_map.mp hmem
  cases event with
  | begins n =>
    cases heq
    exact absurd (hzero 2 hevent) (by decide)
  | called kind args => cases heq

end mudos.argument_lists
