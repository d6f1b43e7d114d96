-- A name that is made once stays as it is. Objects have different names where no
-- name is cut off or too long for its buffer, and the name that is given is
-- free.
import MudOS.ObjectNames
import Mathlib.Data.List.DropRight
import Mathlib.Data.List.Nodup
import Mathlib.Data.Nat.Digits.Defs

open mudos.runs Function List Option

namespace mudos.object_names

variable {str : List UInt8} {ob : Nat} {o : outcome}
variable {size : Nat} {s' : driver}

/-! ## `strip_name` -/

def no_double : UInt8 → List UInt8 → Bool
  | _, [] => true
  | last_c, c :: l => !(last_c = slash && c = slash) && no_double c l

theorem copy_name_eq (room : Nat) (last_c : UInt8) (src : List UInt8) :
    copy_name room last_c src =
      if no_double last_c (src.take room) then some (src.take room) else none := by
  induction room generalizing last_c src with
  | zero => rfl
  | succ room ih =>
    cases src with
    | nil => rfl
    | cons c src =>
      simp only [copy_name, take_succ_cons, no_double, ih]
      by_cases h : last_c = slash ∧ c = slash
      · simp [h]
      · rw [if_neg h]
        have hno : (!(decide (last_c = slash) && decide (c = slash))) = true := by
          by_contra hc
          exact h (by simpa using hc)
        rw [hno, Bool.true_and]
        split_ifs <;> rfl

theorem no_double_of_initial {l l' : List UInt8} (h : l' <+: l) {last_c : UInt8}
    (hno : no_double last_c l = true) : no_double last_c l' = true := by
  induction l' generalizing l last_c with
  | nil => rfl
  | cons c l' ih =>
    obtain ⟨r, rfl⟩ := h
    simp only [cons_append, no_double, Bool.and_eq_true] at hno ⊢
    exact ⟨hno.1, ih ⟨r, rfl⟩ hno.2⟩

theorem strip_suffix_suffix (l : List UInt8) : strip_suffix l <:+ l := by
  induction l using strip_suffix.induct with
  | case1 c rest ih =>
    rw [strip_suffix]
    exact ih.trans ⟨[99, 46], rfl⟩
  | case2 l h =>
    unfold strip_suffix
    split
    · exact absurd rfl (h _ _)
    · exact suffix_refl l

theorem strip_suffix_idem (l : List UInt8) : strip_suffix (strip_suffix l) = strip_suffix l := by
  induction l using strip_suffix.induct with
  | case1 c rest ih => simpa [strip_suffix] using ih
  | case2 l h =>
    have hsame : strip_suffix l = l := by
      unfold strip_suffix
      split
      · exact absurd rfl (h _ _)
      · rfl
    rw [hsame, hsame]

structure Canonical (str : List UInt8) : Prop where
  front : str.dropWhile (· = slash) = str
  inside : no_double 0 str = true
  back : strip_suffix str.reverse = str.reverse

theorem dropWhile_of_initial {l l' : List UInt8} (h : l' <+: l)
    (hl : l.dropWhile (· = slash) = l) : l'.dropWhile (· = slash) = l' := by
  cases l' with
  | nil => rfl
  | cons c l' =>
    obtain ⟨r, rfl⟩ := h
    by_cases hc : c = slash
    · have hlen := congrArg List.length hl
      have hle := (dropWhile_suffix (fun x : UInt8 => decide (x = slash))
        (l := l' ++ r)).length_le
      simp [hc] at hlen
      simp at hle
      omega
    · simp [hc]

theorem canonical_strip_name {src : List UInt8} (h : strip_name src size = some str) :
    Canonical str ∧ str.length ≤ size - 1 := by
  simp only [strip_name, map_eq_some_iff, copy_name_eq] at h
  obtain ⟨dest, hdest, rfl⟩ := h
  split_ifs at hdest with hno
  cases hdest
  set dest := (src.dropWhile (· = slash)).take (size - 1) with hd
  have hinit : (strip_suffix dest.reverse).reverse <+: dest := by
    have := reverse_prefix.mpr (strip_suffix_suffix dest.reverse)
    simpa using this
  have hfront : dest.dropWhile (· = slash) = dest := by
    have htake := take_prefix (size - 1) (src.dropWhile (· = slash))
    exact dropWhile_of_initial htake (dropWhile_idempotent _ _)
  refine ⟨⟨dropWhile_of_initial hinit hfront, no_double_of_initial hinit hno, ?_⟩, ?_⟩
  · rw [reverse_reverse, strip_suffix_idem]
  · have hlen := hinit.length_le
    have htake : dest.length ≤ size - 1 := length_take_le _ _
    omega

theorem strip_name_canonical (h : Canonical str) (hsize : str.length ≤ size - 1) :
    strip_name str size = some str := by
  rw [strip_name, h.front, copy_name_eq, take_of_length_le hsize, if_pos h.inside]
  simp [h.back]

theorem strip_name_idem {src : List UInt8} (h : strip_name src size = some str) :
    strip_name str size = some str := by
  obtain ⟨hcanonical, hsize⟩ := canonical_strip_name h
  exact strip_name_canonical hcanonical hsize

/-! ## The table -/

variable {mask : Nat} {s : driver}

/-- The chains hold the live objects, each in the chain of its name, and no two of them have
one name. -/
structure Table (mask : Nat) (s : driver) : Prop where
  home : ∀ h ob, ob ∈ s.obj_table h ↔
    live s ob = true ∧ ∃ str, name s ob = some str ∧ ObjHash mask str = h
  nodup : ∀ h, (s.obj_table h).Nodup
  unique : ∀ ob ob' str, live s ob = true → live s ob' = true → name s ob = some str →
    name s ob' = some str → ob = ob'

theorem Table.perm (h : Table mask s) (hobjects : s'.objects = s.objects)
    (hperm : ∀ i, (s'.obj_table i).Perm (s.obj_table i)) : Table mask s' := by
  have hname : name s' = name s := by
    funext ob
    rw [name, hobjects, name]
  have hlive : live s' = live s := by
    funext ob
    rw [live, hobjects, live]
  refine ⟨fun i ob => ?_, fun i => (hperm i).nodup_iff.mpr (h.nodup i), ?_⟩
  · rw [(hperm i).mem_iff, hname, hlive]
    exact h.home i ob
  · rw [hname, hlive]
    exact h.unique

theorem Table.congr (h : Table mask s) (hobjects : s'.objects = s.objects)
    (htable : s'.obj_table = s.obj_table) : Table mask s' := by
  apply h.perm hobjects
  rw [htable]
  exact fun i => .refl _

theorem find_obj_n_snd (mask : Nat) (str : List UInt8) (s : driver) :
    ∃ obj_table, (find_obj_n mask str s).2 = { s with obj_table } ∧
      ∀ i, (obj_table i).Perm (s.obj_table i) := by
  unfold find_obj_n
  dsimp only
  split
  · exact ⟨s.obj_table, rfl, fun i => .refl _⟩
  · rename_i curr hcurr
    refine ⟨_, rfl, fun i => ?_⟩
    by_cases hi : i = ObjHash mask str
    · subst hi
      rw [update_self]
      exact (perm_cons_erase (mem_of_find?_eq_some hcurr)).symm
    · rw [update_of_ne hi]

theorem find_obj_n_fst (h : Table mask s) (str : List UInt8) (ob : Nat) :
    (find_obj_n mask str s).1 = some ob ↔ live s ob = true ∧ name s ob = some str := by
  unfold find_obj_n
  dsimp only
  split
  · rename_i hnone
    simp only [reduceCtorEq, false_iff, not_and]
    intro hlive hname
    have hmem := (h.home (ObjHash mask str) ob).mpr ⟨hlive, str, hname, rfl⟩
    simpa [hname] using find?_eq_none.mp hnone ob hmem
  · rename_i curr hcurr
    have hfound : name s curr = some str := by simpa using find?_some hcurr
    have hlive := ((h.home _ curr).mp (mem_of_find?_eq_some hcurr)).1
    simp only [some.injEq]
    refine ⟨fun heq => heq ▸ ⟨hlive, hfound⟩, fun hob => ?_⟩
    exact h.unique curr ob str hlive hob.1 hfound hob.2

/-- The chains hold the live objects but one, and no other one has its name. -/
structure Without (mask : Nat) (s : driver) (ob : Nat) (str : List UInt8) : Prop where
  alive : live s ob = true
  named : name s ob = some str
  home : ∀ h a, a ∈ s.obj_table h ↔
    a ≠ ob ∧ live s a = true ∧ ∃ str, name s a = some str ∧ ObjHash mask str = h
  nodup : ∀ h, (s.obj_table h).Nodup
  unique : ∀ a a' str, a ≠ ob → a' ≠ ob → live s a = true → live s a' = true →
    name s a = some str → name s a' = some str → a = a'
  fresh : ∀ a, a ≠ ob → live s a = true → name s a ≠ some str

theorem table_enter_object_hash (h : Without mask s ob str) :
    Table mask (enter_object_hash mask ob s) := by
  obtain ⟨obj_table, heq, hperm⟩ := find_obj_n_snd mask str s
  have hself : enter_object_hash mask ob s =
      set_chain (ObjHash mask str) (ob :: obj_table (ObjHash mask str)) { s with obj_table } := by
    simp [enter_object_hash, h.named, heq]
  rw [hself]
  refine ⟨fun i a => ?_, fun i => ?_, fun a a' t ha ha' ht ht' => ?_⟩
  · show a ∈ update obj_table _ _ i ↔ live s a = true ∧ ∃ str, name s a = some str ∧ _
    by_cases hi : i = ObjHash mask str
    · subst hi
      rw [update_self, mem_cons, (hperm _).mem_iff, h.home]
      refine ⟨?_, fun ha => ?_⟩
      · rintro (rfl | ha)
        · exact ⟨h.alive, str, h.named, rfl⟩
        · exact ha.2
      · by_cases hab : a = ob
        · exact .inl hab
        · exact .inr ⟨hab, ha⟩
    · rw [update_of_ne hi, (hperm i).mem_iff, h.home]
      refine ⟨And.right, fun ha => ⟨?_, ha⟩⟩
      rintro rfl
      obtain ⟨-, t, ht, hti⟩ := ha
      rw [h.named] at ht
      cases ht
      exact hi hti.symm
  · show (update obj_table _ _ i).Nodup
    by_cases hi : i = ObjHash mask str
    · subst hi
      rw [update_self, nodup_cons, (hperm _).mem_iff]
      exact ⟨fun hmem => ((h.home _ ob).mp hmem).1 rfl, (hperm _).nodup_iff.mpr (h.nodup _)⟩
    · rw [update_of_ne hi]
      exact (hperm i).nodup_iff.mpr (h.nodup i)
  · by_cases hab : a = ob <;> by_cases hab' : a' = ob
    · rw [hab, hab']
    · subst hab
      have hta : name s a = some t := ht
      rw [h.named] at hta
      cases hta
      exact absurd ht' (h.fresh a' hab' ha')
    · subst hab'
      have hta : name s a' = some t := ht'
      rw [h.named] at hta
      cases hta
      exact absurd ht (h.fresh a hab ha)
    · exact h.unique a a' t hab hab' ha ha' ht ht'

theorem remove_object_hash_eq (h : Table mask s) (hlive : live s ob = true)
    (hname : name s ob = some str) :
    remove_object_hash mask ob s =
      set_chain (ObjHash mask str) ((s.obj_table (ObjHash mask str)).erase ob) s := by
  have hfirst := (find_obj_n_fst h str ob).mpr ⟨hlive, hname⟩
  simp only [remove_object_hash, hname, getD_some]
  unfold find_obj_n at hfirst ⊢
  dsimp only at hfirst ⊢
  split at hfirst
  · cases hfirst
  · cases hfirst
    simp [set_chain]

theorem table_remove_object_hash (h : Table mask s) (hlive : live s ob = true)
    (hname : name s ob = some str) :
    (∀ i a, a ∈ (remove_object_hash mask ob s).obj_table i ↔
      a ≠ ob ∧ live s a = true ∧ ∃ str, name s a = some str ∧ ObjHash mask str = i) ∧
    (∀ i, ((remove_object_hash mask ob s).obj_table i).Nodup) ∧
    (remove_object_hash mask ob s).objects = s.objects := by
  rw [remove_object_hash_eq h hlive hname]
  refine ⟨fun i a => ?_, fun i => ?_, rfl⟩
  · show a ∈ update s.obj_table _ _ i ↔ _
    by_cases hi : i = ObjHash mask str
    · subst hi
      rw [update_self, (h.nodup _).mem_erase_iff, h.home]
    · rw [update_of_ne hi, h.home]
      refine ⟨fun ha => ⟨?_, ha⟩, And.right⟩
      rintro rfl
      obtain ⟨-, t, ht, hti⟩ := ha
      rw [hname] at ht
      cases ht
      exact hi hti.symm
  · show (update s.obj_table _ _ i).Nodup
    by_cases hi : i = ObjHash mask str
    · subst hi
      rw [update_self]
      exact (h.nodup _).erase ob
    · rw [update_of_ne hi]
      exact h.nodup i

/-! ## The steps -/

def Short (str : List UInt8) : Prop := str.length + 3 ≤ name_size

/-- A frame that will load the name again, or make the object of it. -/
def Ready : frame → Prop
  | .compile_file str | .inherit str => Canonical str ∧ Short str
  | _ => True

structure Sound (mask : Nat) (s : driver) : Prop where
  table : Table mask s
  loads : ∀ load ∈ s.loads, load.2 = strip_name load.1 MAX_OBJECT_NAME_SIZE
  inside : s.overrun = false
  waiting : ∀ f ∈ s.frames, Ready f

def Free (s : driver) (ob : Nat) (str : List UInt8) : Prop :=
  ∀ a, a ≠ ob → live s a = true → name s a ≠ some str

theorem free_of_find_none (h : Table mask s) (str : List UInt8)
    (hnone : (find_obj_n mask str s).1 = none) (ob : Nat) : Free s ob str := by
  intro a _ hlive hname
  simp [(find_obj_n_fst h str a).mpr ⟨hlive, hname⟩] at hnone

theorem free_of_find (h : Table mask s) {ob : Nat} {str : List UInt8}
    (hfind : ∀ a ∈ (find_obj_n mask str s).1, a = ob) : Free s ob str := by
  intro a hne hlive hname
  exact hne (hfind a ((find_obj_n_fst h str a).mpr ⟨hlive, hname⟩))

theorem Sound.push (h : Sound mask s) {f : frame} (hf : Ready f) : Sound mask (push f s) := by
  refine ⟨h.table.congr rfl rfl, h.loads, h.inside, fun g hg => ?_⟩
  rcases mem_cons.mp hg with rfl | hg
  · exact hf
  · exact h.waiting g hg

theorem Sound.with_frames (h : Sound mask s) (frames : List frame)
    (hsub : ∀ f ∈ frames, f ∈ s.frames) : Sound mask { s with frames } :=
  ⟨h.table.congr rfl rfl, h.loads, h.inside, fun f hf => h.waiting f (hsub f hf)⟩

theorem Sound.popped {f : frame} {rest : List frame} (h : Sound mask s)
    (hframes : s.frames = f :: rest) : Sound mask { s with frames := rest } :=
  h.with_frames rest fun _ hf => hframes ▸ List.mem_cons_of_mem _ hf

theorem find_obj_n_frames (h : Table mask s) (str : List UInt8) (frames : List frame) :
    (find_obj_n mask str { s with frames }).1 = (find_obj_n mask str s).1 := by
  have h' : Table mask { s with frames } := h.congr rfl rfl
  apply ext
  intro ob
  exact (find_obj_n_fst h' str ob).trans (find_obj_n_fst h str ob).symm

theorem sound_find_obj_n (h : Sound mask s) (str : List UInt8) :
    Sound mask (find_obj_n mask str s).2 := by
  obtain ⟨obj_table, heq, hperm⟩ := find_obj_n_snd mask str s
  rw [heq]
  exact ⟨h.table.perm rfl hperm, h.loads, h.inside, h.waiting⟩

theorem enter_object_hash_eq (mask ob : Nat) (s : driver) :
    ∃ obj_table, enter_object_hash mask ob s = { s with obj_table } := by
  obtain ⟨obj_table, heq, -⟩ := find_obj_n_snd mask ((name s ob).getD []) s
  simp only [enter_object_hash, heq, set_chain]
  exact ⟨_, rfl⟩

theorem remove_object_hash_fields (mask ob : Nat) (s : driver) :
    ∃ obj_table, remove_object_hash mask ob s = { s with obj_table } := by
  obtain ⟨obj_table, heq, -⟩ := find_obj_n_snd mask ((name s ob).getD []) s
  simp only [remove_object_hash, heq, set_chain]
  exact ⟨_, rfl⟩

theorem sound_enter_object_hash (h : Without mask s ob str)
    (hloads : ∀ load ∈ s.loads, load.2 = strip_name load.1 MAX_OBJECT_NAME_SIZE)
    (hinside : s.overrun = false) (hwaiting : ∀ f ∈ s.frames, Ready f) :
    Sound mask (enter_object_hash mask ob s) := by
  have htable := table_enter_object_hash h
  obtain ⟨obj_table, heq⟩ := enter_object_hash_eq mask ob s
  rw [heq] at htable ⊢
  exact ⟨htable, hloads, hinside, hwaiting⟩

theorem without_set_object (h : Table mask s) {o : object_t} (hnone : s.objects ob = none)
    (ho : o.O_DESTRUCTED = false) (hfree : Free s ob o.name) :
    Without mask (set_object ob o s) ob o.name := by
  have hname : ∀ a, a ≠ ob → name (set_object ob o s) a = name s a := by
    intro a ha
    simp [name, set_object, ha]
  have hlive : ∀ a, a ≠ ob → live (set_object ob o s) a = live s a := by
    intro a ha
    simp [live, set_object, ha]
  have hnot : ∀ i, ob ∉ s.obj_table i := by
    intro i hmem
    have := ((h.home i ob).mp hmem).1
    simp [live, hnone] at this
  refine ⟨by simp [live, set_object, ho], by simp [name, set_object], fun i a => ?_, h.nodup,
    fun a a' t ha ha' => ?_, fun a ha => ?_⟩
  · show a ∈ s.obj_table i ↔ _
    by_cases ha : a = ob
    · subst ha
      simp [hnot i]
    · rw [h.home, hname a ha, hlive a ha]
      simp [ha]
  · rw [hname a ha, hname a' ha', hlive a ha, hlive a' ha']
    exact h.unique a a' t
  · rw [hname a ha, hlive a ha]
    exact hfree a ha

theorem sound_new_object (h : Sound mask s) (ob : Nat) (hfree : Free s ob str) :
    Sound mask (new_object mask ob str s) := by
  unfold new_object
  split_ifs with hob
  · exact h
  · have hnone : s.objects ob = none := by simpa using hob
    have hwithout := without_set_object (o := ⟨str, false, false, false⟩) h.table hnone rfl hfree
    exact (sound_enter_object_hash hwithout h.loads h.inside h.waiting).push trivial

/-! ## Loading -/

def Loads : List UInt8 → outcome → Prop
  | str, .inherits inherit_file next =>
    Short str ∧
      (strip_name inherit_file MAX_OBJECT_NAME_SIZE = none →
        inherit_file.length < MAX_OBJECT_NAME_SIZE) ∧
      ∀ inhbuf ∈ strip_name inherit_file MAX_OBJECT_NAME_SIZE, Loads inhbuf next
  | str, _ => Short str

theorem Loads.short (h : Loads str o) : Short str := by
  cases o with
  | inherits inherit_file next => exact h.1
  | _ => exact h

theorem sound_note_load (h : Sound mask s) {lname : List UInt8} (hc : Canonical lname)
    (hshort : Short lname) :
    strip_name lname name_size = some lname ∧ Sound mask (note_load lname s) := by
  simp only [Short, name_size] at hshort
  have h200 : strip_name lname name_size = some lname :=
    strip_name_canonical hc (by simp only [name_size]; omega)
  have h2048 : strip_name lname MAX_OBJECT_NAME_SIZE = some lname :=
    strip_name_canonical hc (by simp only [MAX_OBJECT_NAME_SIZE]; omega)
  refine ⟨h200, h.table.congr rfl rfl, fun load hload => ?_, ?_, h.waiting⟩
  · rcases mem_append.mp hload with hload | hload
    · exact h.loads load hload
    · rw [mem_singleton.mp hload, h200, h2048]
  · have hroom : ¬ name_size < lname.length + 3 := by
      simp only [name_size]
      omega
    simp [note_load, h.inside, h200, hroom]

theorem sound_load_inherited (h : Sound mask s) {load : List UInt8 → driver → driver}
    {inherit_file : List UInt8} (hready : Ready (.inherit str))
    (hfile : strip_name inherit_file MAX_OBJECT_NAME_SIZE = none →
      inherit_file.length < MAX_OBJECT_NAME_SIZE)
    (hload : ∀ inhbuf s', strip_name inherit_file MAX_OBJECT_NAME_SIZE = some inhbuf →
      Sound mask s' → (∀ ob, Free s' ob inhbuf) → Sound mask (load inhbuf s')) :
    Sound mask (load_inherited mask load str inherit_file s) := by
  unfold load_inherited
  rcases hstrip : strip_name inherit_file MAX_OBJECT_NAME_SIZE with _ | inhbuf
  · refine ⟨h.table.congr rfl rfl, h.loads, ?_, h.waiting⟩
    have := hfile hstrip
    simp only [copy_inherit_file, h.inside, Bool.false_or, decide_eq_false_iff_not]
    omega
  · dsimp only
    split_ifs
    · exact h
    · obtain ⟨obj_table, hsnd, hperm⟩ := find_obj_n_snd mask inhbuf s
      have hfound := sound_find_obj_n h inhbuf
      have hfree := free_of_find_none h.table inhbuf
      rcases hfind : find_obj_n mask inhbuf s with ⟨_ | a, s'⟩
      · rw [hfind] at hsnd hfound hfree
        obtain rfl : s' = _ := hsnd
        apply hload inhbuf _ hstrip (hfound.push hready)
        exact fun ob => hfree rfl ob
      · rwa [hfind] at hfound

theorem sound_int_load_object (h : Sound mask s) {lname : List UInt8} (hc : Canonical lname)
    (hl : Loads lname o) (hfree : ∀ ob, Free s ob lname) :
    Sound mask (int_load_object mask lname o s) := by
  induction o generalizing lname s with
  | missing =>
    obtain ⟨hstrip, hnote⟩ := sound_note_load h hc hl.short
    simp only [int_load_object, hstrip]
    exact hnote.push trivial
  | fails =>
    obtain ⟨hstrip, hnote⟩ := sound_note_load h hc hl.short
    simp only [int_load_object, hstrip]
    exact hnote
  | compiled ob =>
    obtain ⟨hstrip, hnote⟩ := sound_note_load h hc hl.short
    simp only [int_load_object, hstrip]
    exact sound_new_object hnote ob (hfree ob)
  | calls =>
    obtain ⟨hstrip, hnote⟩ := sound_note_load h hc hl.short
    simp only [int_load_object, hstrip]
    split_ifs
    · exact hnote
    · exact hnote.push ⟨hc, hl.short⟩
  | inherits inherit_file next ih =>
    obtain ⟨hstrip, hnote⟩ := sound_note_load h hc hl.short
    unfold int_load_object
    simp only [hstrip]
    obtain ⟨hshort, hfile, hnext⟩ := hl
    apply sound_load_inherited hnote ⟨hc, hshort⟩ hfile
    intro inhbuf s' hinh hs' hfree'
    exact ih hs' (canonical_strip_name hinh).1 (hnext inhbuf hinh) hfree'

theorem sound_find_and_load (h : Sound mask s) (hc : Canonical str)
    (hl : (find_obj_n mask str s).1 = none → Loads str o) :
    Sound mask (inherit_returns mask str o s) := by
  unfold inherit_returns
  obtain ⟨obj_table, hsnd, hperm⟩ := find_obj_n_snd mask str s
  have hfound := sound_find_obj_n h str
  have hfree := free_of_find_none h.table str
  rcases hfind : find_obj_n mask str s with ⟨_ | a, s'⟩
  · rw [hfind] at hsnd hfound hfree
    obtain rfl : s' = _ := hsnd
    rw [hfind] at hl
    exact sound_int_load_object hfound hc (hl rfl) fun ob => hfree rfl ob
  · rwa [hfind] at hfound

/-! ## Renaming -/

theorem name_of_live (h : live s ob = true) : ∃ str, name s ob = some str := by
  unfold live at h
  rcases hob : s.objects ob with _ | o
  · simp [hob] at h
  · exact ⟨o.name, by simp [name, hob]⟩

theorem sound_rename (h : Sound mask s) (hlive : live s ob = true) (hfree : Free s ob str) :
    Sound mask (rename mask ob str s) := by
  obtain ⟨old, hname⟩ := name_of_live hlive
  obtain ⟨hmem, hnodup, -⟩ := table_remove_object_hash h.table hlive hname
  obtain ⟨obj_table, heq⟩ := remove_object_hash_fields mask ob s
  unfold rename
  dsimp only
  rw [heq] at hmem hnodup ⊢
  set s' : driver := { s with
    obj_table
    objects := update s.objects ob
      ((s.objects ob).map fun o => { o with name := str, O_VIRTUAL := true }) } with hs'
  have hother : ∀ a, a ≠ ob → name s' a = name s a ∧ live s' a = live s a := by
    intro a ha
    simp [hs', name, live, ha]
  have hself : name s' ob = some str ∧ live s' ob = true := by
    rcases hob : s.objects ob with _ | o
    · simp [live, hob] at hlive
    · simpa [hs', name, live, hob] using hlive
  have hwithout : Without mask s' ob str := by
    refine ⟨hself.2, hself.1, fun i a => ?_, hnodup, fun a a' t ha ha' => ?_, fun a ha => ?_⟩
    · show a ∈ obj_table i ↔ _
      have hmem' : a ∈ obj_table i ↔ _ := hmem i a
      rw [hmem']
      by_cases hab : a = ob
      · simp [hab]
      · rw [(hother a hab).1, (hother a hab).2]
    · rw [(hother a ha).1, (hother a' ha').1, (hother a ha).2, (hother a' ha').2]
      exact h.table.unique a a' t
    · rw [(hother a ha).1, (hother a ha).2]
      exact hfree a ha
  exact sound_enter_object_hash hwithout h.loads h.inside h.waiting

/-- The name of a clone has room in its buffer, and no object but this one has it. -/
def CanName (mask : Nat) (s : driver) (ob : Nat) (str : List UInt8) : Prop :=
  s.clones < 10 ^ 8 ∧ ∀ a ∈ (find_obj_n mask (make_new_name str s).1 s).1, a = ob

theorem sound_make_new_name (h : Sound mask s) (hcan : CanName mask s ob str) :
    Sound mask (make_new_name str s).2 ∧ Free (make_new_name str s).2 ob (make_new_name str s).1 := by
  obtain ⟨hclones, hfind⟩ := hcan
  refine ⟨⟨h.table.congr rfl rfl, h.loads, ?_, h.waiting⟩, free_of_find h.table hfind⟩
  have hdigits : (Nat.toDigits 10 s.clones).length ≤ 8 :=
    Nat.toDigits_length 10 s.clones 8 (by decide) hclones
  simp only [make_new_name, h.inside, Bool.false_or, decide_eq_false_iff_not, length_append,
    length_cons, length_map]
  omega

theorem sound_clone_virtual (h : Sound mask s) (hlive : live s ob = true)
    (hcan : CanName mask s ob str) : Sound mask (clone_virtual mask ob str s) := by
  obtain ⟨hsound, hfree⟩ := sound_make_new_name h hcan
  exact sound_rename hsound hlive hfree

/-- The name of the clone is free, of a virtual object if it is taken itself. -/
def CanClone (mask : Nat) (s : driver) (str1 : List UInt8) (ob new_ob : Nat) (unused : Bool) :
    Prop :=
  ∀ o ∈ s.objects ob,
    if o.O_CLONE then
      o.O_VIRTUAL = true → 35 ∉ str1 → unused = true → ∀ str ∈ check_name str1, CanName mask s ob str
    else CanName mask s new_ob o.name

theorem sound_clone_object (h : Sound mask s) {str1 : List UInt8} {new_ob : Nat} {unused : Bool}
    (hlive : live s ob = true) (hnew : s.objects new_ob = none)
    (hcan : CanClone mask s str1 ob new_ob unused) :
    Sound mask (clone_object mask str1 ob new_ob unused s) := by
  unfold clone_object
  rcases hob : s.objects ob with _ | o
  · exact h
  · have hcan' := hcan o hob
    dsimp only
    by_cases hclone : o.O_CLONE = true
    · rw [if_pos hclone] at hcan' ⊢
      by_cases hbad : (!o.O_VIRTUAL || decide (35 ∈ str1)) = true
      · rwa [if_pos hbad]
      · rw [if_neg hbad]
        simp only [Bool.or_eq_true, Bool.not_eq_true', decide_eq_true_eq, not_or,
          Bool.not_eq_false] at hbad
        rcases hcheck : check_name str1 with _ | str
        · exact h
        · dsimp only
          split_ifs with hunused
          · exact sound_clone_virtual h hlive (hcan' hbad.1 hbad.2 hunused str hcheck)
          · exact h.push trivial
    · rw [if_neg hclone] at hcan' ⊢
      obtain ⟨hsound, hfree⟩ := sound_make_new_name h hcan'
      have hwithout := without_set_object (o := ⟨(make_new_name o.name s).1, false, true, false⟩)
        hsound.table hnew rfl hfree
      exact sound_enter_object_hash hwithout hsound.loads hsound.inside hsound.waiting

theorem sound_destruct_object (h : Sound mask s) (ob : Nat) :
    Sound mask (destruct_object mask ob s) := by
  unfold destruct_object
  split_ifs with hlive
  · obtain ⟨old, hname⟩ := name_of_live hlive
    obtain ⟨hmem, hnodup, -⟩ := table_remove_object_hash h.table hlive hname
    obtain ⟨obj_table, heq⟩ := remove_object_hash_fields mask ob s
    dsimp only
    rw [heq] at hmem hnodup ⊢
    set s' : driver := { s with
      obj_table
      objects := update s.objects ob
        ((s.objects ob).map fun o => { o with O_DESTRUCTED := true }) } with hs'
    have hother : ∀ a, a ≠ ob → name s' a = name s a ∧ live s' a = live s a := by
      intro a ha
      simp [hs', name, live, ha]
    have hself : live s' ob = false := by
      rcases hob : s.objects ob <;> simp [hs', live, hob]
    refine ⟨⟨fun i a => ?_, hnodup, fun a a' t ha ha' => ?_⟩, h.loads, h.inside, h.waiting⟩
    · show a ∈ obj_table i ↔ _
      have hmem' : a ∈ obj_table i ↔ _ := hmem i a
      rw [hmem']
      by_cases hab : a = ob
      · simp [hab, hself]
      · rw [(hother a hab).1, (hother a hab).2]
        simp [hab]
    · have hab : a ≠ ob := by
        rintro rfl
        simp [hself] at ha
      have hab' : a' ≠ ob := by
        rintro rfl
        simp [hself] at ha'
      rw [(hother a hab).1, (hother a' hab').1]
      rw [(hother a hab).2] at ha
      rw [(hother a' hab').2] at ha'
      exact h.table.unique a a' t ha ha'
  · exact h

/-! ## Runs -/

def Returns (mask : Nat) (s : driver) (str : List UInt8) : outcome → Prop
  | .compiled _ => (find_obj_n mask str s).1 = none
  | .inherits inherit_file next => Loads str (.inherits inherit_file next)
  | _ => True

/-- The names that are loaded have room in their buffers, and a name that is given after code
of the mudlib has run is free. -/
def Careful (mask : Nat) (s : driver) : action → Prop
  | .find_object str o => ∀ tmpbuf ∈ strip_name str MAX_OBJECT_NAME_SIZE,
      (find_obj_n mask tmpbuf s).1 = none → Loads tmpbuf o
  | .compile_returns o =>
    match s.frames with
    | .compile_file str :: _ => Returns mask s str o
    | _ => True
  | .inherit_returns o =>
    match s.frames with
    | .inherit str :: _ => (find_obj_n mask str s).1 = none → Loads str o
    | _ => True
  | .compile_object_returns (some ob) =>
    match s.frames with
    | .compile_object str :: _ => ∀ a ∈ (find_obj_n mask str s).1, a = ob
    | .clone_virtual str :: _ => CanName mask s ob str
    | _ => True
  | .clone_object str1 ob new_ob unused => CanClone mask s str1 ob new_ob unused
  | _ => True

theorem sound_compile_returns (h : Sound mask s) (hready : Ready (.compile_file str))
    (hcare : Returns mask s str o) : Sound mask (compile_returns mask str o s) := by
  cases o with
  | compiled ob => exact sound_new_object h ob (free_of_find_none h.table str hcare ob)
  | inherits inherit_file next =>
    obtain ⟨hshort, hfile, hnext⟩ := hcare
    apply sound_load_inherited h hready hfile
    intro inhbuf s' hinh hs' hfree
    exact sound_int_load_object hs' (canonical_strip_name hinh).1 (hnext inhbuf hinh) hfree
  | _ => exact h

theorem sound_step {a : action} (h : Sound mask s) (hcare : Careful mask s a)
    (hs : step mask s a = some s') : Sound mask s' := by
  cases a with
  | find_object str o =>
    cases hs
    unfold find_object
    rcases hstrip : strip_name str MAX_OBJECT_NAME_SIZE with _ | tmpbuf
    · exact h
    · exact sound_find_and_load h (canonical_strip_name hstrip).1 (hcare tmpbuf hstrip)
  | find_object2 str =>
    cases hs
    unfold find_object2
    rcases strip_name str MAX_OBJECT_NAME_SIZE with _ | p
    · exact h
    · exact sound_find_obj_n h p
  | compile_returns o =>
    simp only [step] at hs
    split at hs
    · rename_i str rest hframes
      cases hs
      simp only [Careful, hframes] at hcare
      have hready := h.waiting (.compile_file str) (by simp [hframes])
      have hpop := h.popped hframes
      apply sound_compile_returns hpop hready
      cases o with
      | compiled ob => exact (find_obj_n_frames h.table str rest).trans hcare
      | _ => exact hcare
    · cases hs
  | inherit_returns o =>
    simp only [step] at hs
    split at hs
    · rename_i str rest hframes
      cases hs
      simp only [Careful, hframes] at hcare
      have hready := h.waiting (.inherit str) (by simp [hframes])
      have hpop := h.popped hframes
      apply sound_find_and_load hpop hready.1
      rwa [find_obj_n_frames h.table]
    · cases hs
  | compile_object_returns ret =>
    simp only [step] at hs
    split_ifs at hs with hret
    split at hs
    · rename_i str rest hframes
      cases hs
      exact h.popped hframes
    · rename_i str rest ob hframes
      cases hs
      simp only [Careful, hframes] at hcare
      have hpop := h.popped hframes
      apply sound_rename hpop hret
      exact free_of_find h.table hcare
    · rename_i str rest hframes
      cases hs
      exact h.popped hframes
    · rename_i str rest ob hframes
      cases hs
      simp only [Careful, hframes] at hcare
      have hpop := h.popped hframes
      apply sound_clone_virtual hpop hret
      refine ⟨hcare.1, fun a ha => hcare.2 a ?_⟩
      rwa [find_obj_n_frames h.table] at ha
    · cases hs
  | valid_object_returns approved =>
    simp only [step] at hs
    split at hs
    · rename_i ob rest hframes
      have hpop := h.popped hframes
      split_ifs at hs
      · cases hs
        exact hpop
      · cases hs
        exact sound_destruct_object hpop ob
    · cases hs
  | clone_object str1 ob new_ob unused =>
    simp only [step] at hs
    split_ifs at hs with hok
    cases hs
    exact sound_clone_object h hok.1 (isNone_iff_eq_none.mp hok.2) hcare
  | destruct_object ob =>
    cases hs
    exact sound_destruct_object h ob
  | error n =>
    cases hs
    exact h.with_frames _ fun f hf => mem_of_mem_drop hf

theorem sound_start : Sound mask start := by
  refine ⟨⟨?_, ?_, ?_⟩, ?_, rfl, ?_⟩ <;> simp [start, live]

/-- Nothing is stored past the end of a buffer, what is loaded for a name has the name that is
looked up for it, and two live objects have two names. -/
structure Named (mask : Nat) (s : driver) : Prop where
  inside : s.overrun = false
  loads : ∀ load ∈ s.loads, load.2 = strip_name load.1 MAX_OBJECT_NAME_SIZE
  unique : ∀ ob ob' str, live s ob = true → live s ob' = true → name s ob = some str →
    name s ob' = some str → ob = ob'
  found : ∀ str ob, (find_obj_n mask str s).1 = some ob ↔
    live s ob = true ∧ name s ob = some str

instance (str : List UInt8) : Decidable (Short str) :=
  inferInstanceAs (Decidable (str.length + 3 ≤ name_size))

instance decidableLoads : (str : List UInt8) → (o : outcome) → Decidable (Loads str o)
  | str, .inherits inherit_file next =>
    match h : strip_name inherit_file MAX_OBJECT_NAME_SIZE with
    | none =>
      decidable_of_iff (Short str ∧ inherit_file.length < MAX_OBJECT_NAME_SIZE)
        (by simp [Loads, h])
    | some inhbuf =>
      have := decidableLoads inhbuf next
      decidable_of_iff (Short str ∧ Loads inhbuf next) (by simp [Loads, h])
  | str, .missing | str, .fails | str, .compiled _ | str, .calls =>
    inferInstanceAs (Decidable (Short str))

instance (s : driver) (ob : Nat) (str : List UInt8) : Decidable (CanName mask s ob str) :=
  inferInstanceAs (Decidable (_ ∧ _))

instance (s : driver) (str1 : List UInt8) (ob new_ob : Nat) (unused : Bool) :
    Decidable (CanClone mask s str1 ob new_ob unused) := by
  unfold CanClone
  infer_instance

instance (s : driver) (str : List UInt8) (o : outcome) : Decidable (Returns mask s str o) := by
  cases o <;> unfold Returns <;> infer_instance

instance (s : driver) (a : action) : Decidable (Careful mask s a) := by
  cases a <;> unfold Careful
  case compile_object_returns ret =>
    cases ret <;> dsimp only
    · exact inferInstanceAs (Decidable True)
    · split <;> infer_instance
  case compile_returns o | inherit_returns o =>
    dsimp only
    split <;> infer_instance
  all_goals infer_instance

/-- An object that inherits another one, a virtual one, and a clone, of which one goes. -/
def three_objects : List action :=
  [.find_object [47, 97, 46, 99] (.inherits [98] (.compiled 1)), .valid_object_returns true,
    .inherit_returns (.compiled 2), .valid_object_returns true, .clone_object [97] 2 3 false,
    .find_object [118] .missing, .compile_object_returns (some 3), .destruct_object 1,
    .find_object [98] (.compiled 4)]

end mudos.object_names
