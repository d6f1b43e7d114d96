-- A name has one record at a time, which is found, and an effective user id comes
-- from the master object alone.
import MudOS.AvlTreeLaws
import MudOS.Uids

open mudos.avltree mudos.runs mudos.sorted_tables

namespace mudos.user_ids

variable {s : registry} {uid name : Nat}

/-! ## The records -/

def name_of (s : registry) (uid : Nat) : Nat := (record s uid).name

structure Sound (s : registry) : Prop where
  balanced : s.uids.Balanced
  sorted : Sorted (name_of s) s.uids.toList
  inside : ∀ uid ∈ s.uids.toList, uid < s.userids.length
  root : ∀ uid ∈ s.root_uid, uid < s.userids.length
  backbone : ∀ uid ∈ s.backbone_uid, uid < s.userids.length

theorem compares_uidcmp {α β : Type*} (f : β → userid_t) (g : α → userid_t) :
    Compares (fun b a => uidcmp (f b) (g a)) (fun b => (f b).name) fun a => (g a).name := by
  constructor <;> intro b a <;> unfold uidcmp <;> grind

theorem search_iff (h : Sound s) :
    search name s = some uid ↔ uid ∈ s.uids.toList ∧ name_of s uid = name := by
  have hc := compares_uidcmp (fun t_uid : userid_t => t_uid) (record s)
  rw [search, tree_srch_eq hc _ h.sorted]
  exact find_iff h.sorted

/-- The record comes in under its name, for the one with this name. -/
theorem enter_spec (h : Sound s) (huid : uid < s.userids.length) :
    ∃ t, enter uid s = some { s with uids := t } ∧ Sound { s with uids := t } ∧
      ∀ m, search m { s with uids := t } = if m = name_of s uid then some uid else search m s := by
  obtain ⟨t, i_balance, he, hg⟩ :=
    sprout_grown (compares_uidcmp (record s) (record s)) uid h.balanced h.sorted
  have hsorted : Sorted (name_of s) t.toList := by
    rw [hg.toList]
    exact h.sorted.put
  have hmem : ∀ v, v ∈ t.toList ↔ v = uid ∨ v ∈ s.uids.toList ∧ name_of s v ≠ name_of s uid := by
    intro v
    rw [hg.toList]
    exact mem_put
  have hinside : ∀ v ∈ t.toList, v < s.userids.length := by
    intro v hv
    rcases (hmem v).mp hv with rfl | ⟨hv, -⟩
    · exact huid
    · exact h.inside v hv
  have hsound : Sound { s with uids := t } := ⟨hg.balanced, hsorted, hinside, h.root, h.backbone⟩
  refine ⟨t, by simp [enter, tree_add, he], hsound, fun m => Option.ext fun v => ?_⟩
  rw [search_iff hsound]
  split_ifs with hm
  · rw [Option.some.injEq, hmem]
    constructor
    · rintro ⟨rfl | ⟨-, hv⟩, hname⟩
      · rfl
      · exact absurd (hname.trans hm) hv
    · rintro rfl
      exact ⟨.inl rfl, hm.symm⟩
  · rw [search_iff h, hmem]
    constructor
    · rintro ⟨rfl | ⟨hv, -⟩, hname⟩
      · exact absurd hname.symm hm
      · exact ⟨hv, hname⟩
    · rintro ⟨hv, rfl⟩
      exact ⟨.inr ⟨hv, hm⟩, rfl⟩

/-- What `add_uid` does: the record is found, or it is a new one. -/
structure Added (name : Nat) (s s' : registry) (uid : Nat) : Prop where
  sound : Sound s'
  found : ∀ m, search m s' = if m = name then some uid else search m s
  old : search name s = some uid ∧ s' = s ∨ search name s = none ∧ uid = s.userids.length ∧
    s' = { s with uids := s'.uids, userids := s.userids ++ [⟨name⟩] }

theorem add_uid_spec (h : Sound s) (name : Nat) :
    ∃ uid s', add_uid name s = some (uid, s') ∧ Added name s s' uid := by
  unfold add_uid
  cases hsearch : search name s with
  | some uid =>
    refine ⟨uid, s, rfl, h, fun m => ?_, .inl ⟨hsearch, rfl⟩⟩
    split_ifs with hm
    · rw [hm, hsearch]
    · rfl
  | none =>
    let s1 : registry := { s with userids := s.userids ++ [⟨name⟩] }
    have hnames : ∀ uid ∈ s.uids.toList, name_of s1 uid = name_of s uid := by
      intro uid huid
      simp [s1, name_of, record, List.getElem?_append_left (h.inside uid huid)]
    have hlast : name_of s1 s.userids.length = name := by simp [s1, name_of, record]
    have hlength : s1.userids.length = s.userids.length + 1 := List.length_append
    have hsound : Sound s1 := by
      refine ⟨h.balanced, h.sorted.congr hnames, ?_, ?_, ?_⟩ <;> intro uid huid <;> rw [hlength]
      · exact Nat.lt_succ_of_lt (h.inside uid huid)
      · exact Nat.lt_succ_of_lt (h.root uid huid)
      · exact Nat.lt_succ_of_lt (h.backbone uid huid)
    have hsame : ∀ m, search m s1 = search m s := by
      refine fun m => Option.ext fun v => ?_
      rw [search_iff hsound, search_iff h]
      exact and_congr_right fun hv => by rw [hnames v hv]
    have hnew : s.userids.length < s1.userids.length := by omega
    obtain ⟨t, he, hsound', hfound⟩ := enter_spec hsound hnew
    simp only [hlast, hsame] at hfound
    exact ⟨_, _, by simp only [s1] at he; simp only [he]; rfl, hsound', hfound,
      .inr ⟨hsearch, rfl, rfl⟩⟩

/-- What a new name does: the record that has been found under the old name is not found. -/
theorem rename_spec (h : Sound s) (huid : uid < s.userids.length) (name : Nat) :
    ∃ s', rename uid name s = some (uid, s') ∧ Sound s' ∧
      ∀ m, search m s' = if m = name then some uid
        else if m = name_of s uid then none else search m s := by
  have hc := compares_uidcmp (record s) (fun t_uid : userid_t => t_uid)
  obtain ⟨t, i_balance, hdelete, hs⟩ := delete_shrunk hc (record s uid) h.balanced h.sorted
  let s1 : registry := { s with uids := t, userids := s.userids.set uid ⟨name⟩ }
  have hmem : ∀ v, v ∈ t.toList ↔ v ∈ s.uids.toList ∧ name_of s v ≠ name_of s uid := by
    intro v
    rw [hs.toList, without, List.mem_filter, decide_eq_true_eq]
    rfl
  have hnames : ∀ v ∈ t.toList, name_of s1 v = name_of s v := by
    intro v hv
    have hne : uid ≠ v := fun heq => ((hmem v).mp hv).2 (heq ▸ rfl)
    simp [s1, name_of, record, List.getElem?_set_ne hne]
  have hnew : name_of s1 uid = name := by simp [s1, name_of, record, huid]
  have hlength : s1.userids.length = s.userids.length := List.length_set
  have hsorted : Sorted (name_of s) t.toList := by
    rw [hs.toList]
    exact h.sorted.filter _
  have hsound : Sound s1 := by
    refine ⟨hs.balanced, hsorted.congr hnames, ?_, ?_, ?_⟩ <;> rw [hlength]
    · exact fun v hv => h.inside v ((hmem v).mp hv).1
    · exact h.root
    · exact h.backbone
  have hsearch : ∀ m, search m s1 = if m = name_of s uid then none else search m s := by
    refine fun m => Option.ext fun v => ?_
    rw [search_iff hsound]
    split_ifs with hm
    · constructor
      · rintro ⟨hv, hname⟩
        exact absurd ((hnames v hv).symm.trans (hname.trans hm)) ((hmem v).mp hv).2
      · intro hnone
        cases hnone
    · rw [search_iff h]
      constructor
      · rintro ⟨hv, hname⟩
        exact ⟨((hmem v).mp hv).1, (hnames v hv).symm.trans hname⟩
      · rintro ⟨hv, rfl⟩
        have hv := (hmem v).mpr ⟨hv, hm⟩
        exact ⟨hv, hnames v hv⟩
  obtain ⟨t', he, hsound', hfound⟩ := enter_spec hsound (hlength ▸ huid)
  simp only [hnew, hsearch] at hfound
  exact ⟨_, by simp only [s1] at he; simp [rename, tree_delete, hdelete, he, s1], hsound', hfound⟩

theorem Added.inside {s' : registry} (h : Added name s s' uid) :
    uid < s'.userids.length ∧ name_of s' uid = name := by
  have huid := (search_iff h.sound).mp ((h.found name).trans (if_pos rfl))
  exact ⟨h.sound.inside uid huid.1, huid.2⟩

theorem set_root_uid_first (h : Sound s) (hroot : s.root_uid = none) (name : Nat) :
    ∃ uid s', set_root_uid name s = some (uid, { s' with root_uid := some uid }) ∧
      Sound { s' with root_uid := some uid } ∧ Added name s s' uid := by
  obtain ⟨uid, s', he, hadd⟩ := add_uid_spec h name
  refine ⟨uid, s', by simp [set_root_uid, hroot, he], ?_, hadd⟩
  exact { hadd.sound with root := fun v hv => Option.some.inj hv ▸ hadd.inside.1 }

theorem set_backbone_uid_first (h : Sound s) (hback : s.backbone_uid = none) (name : Nat) :
    ∃ uid s', set_backbone_uid name s = some (uid, { s' with backbone_uid := some uid }) ∧
      Sound { s' with backbone_uid := some uid } ∧ Added name s s' uid := by
  obtain ⟨uid, s', he, hadd⟩ := add_uid_spec h name
  refine ⟨uid, s', by simp [set_backbone_uid, hback, he], ?_, hadd⟩
  exact { hadd.sound with backbone := fun v hv => Option.some.inj hv ▸ hadd.inside.1 }

theorem sound_call (h : Sound s) (c : call) : ∃ uid s', c.exec s = some (uid, s') ∧ Sound s' := by
  cases c with
  | add_uid name =>
    obtain ⟨uid, s', he, hadd⟩ := add_uid_spec h name
    exact ⟨uid, s', he, hadd.sound⟩
  | set_root_uid name =>
    cases hroot : s.root_uid with
    | none =>
      obtain ⟨uid, s', he, hs, -⟩ := set_root_uid_first h hroot name
      exact ⟨uid, _, he, hs⟩
    | some uid =>
      obtain ⟨s', he, hs, -⟩ := rename_spec h (h.root uid hroot) name
      exact ⟨uid, s', by simp [call.exec, set_root_uid, hroot, he], hs⟩
  | set_backbone_uid name =>
    cases hback : s.backbone_uid with
    | none =>
      obtain ⟨uid, s', he, hs, -⟩ := set_backbone_uid_first h hback name
      exact ⟨uid, _, he, hs⟩
    | some uid =>
      obtain ⟨s', he, hs, -⟩ := rename_spec h (h.backbone uid hback) name
      exact ⟨uid, s', by simp [call.exec, set_backbone_uid, hback, he], hs⟩

theorem sound_no_uids : Sound no_uids :=
  ⟨trivial, List.Pairwise.nil, nofun, nofun, nofun⟩

theorem sound_registry (h : Registry s) : Sound s := by
  refine h.inv sound_no_uids fun s c s' hs _ hstep => ?_
  obtain ⟨uid, t, he, ht⟩ := sound_call hs c
  rw [he] at hstep
  exact Option.some.inj hstep ▸ ht

/-- The tree as a map from names to records: nothing that the code follows is null, and the calls
change what is found as they say. -/
structure Registers (s : registry) : Prop where
  called : ∀ c : call, ∃ uid s', c.exec s = some (uid, s')
  named : ∀ name uid, search name s = some uid → (record s uid).name = name
  added : ∀ name uid s', add_uid name s = some (uid, s') →
    ∀ m, search m s' = if m = name then some uid else search m s
  renamed : ∀ uid name s', s.root_uid = some uid ∨ s.backbone_uid = some uid →
    rename uid name s = some (uid, s') → ∀ m, search m s' = if m = name then some uid
      else if m = (record s uid).name then none else search m s
  shallow : Nat.fib (s.uids.height + 2) ≤ s.userids.length + 1

theorem names_are_registered (h : Registry s) : Registers s := by
  have hs := sound_registry h
  refine ⟨fun c => ?_, fun name uid hu => ((search_iff hs).mp hu).2, ?_, ?_, ?_⟩
  · obtain ⟨uid, s', he, -⟩ := sound_call hs c
    exact ⟨uid, s', he⟩
  · intro name uid s' he
    obtain ⟨uid', t, he', hadd⟩ := add_uid_spec hs name
    cases he.symm.trans he'
    exact hadd.found
  · intro uid name s' hu he
    obtain ⟨t, he', -, hfound⟩ := rename_spec hs (hu.elim (hs.root uid) (hs.backbone uid)) name
    cases he.symm.trans he'
    exact hfound
  · refine (fib_height_le hs.balanced).trans (Nat.succ_le_succ ?_)
    have hnodup : s.uids.toList.Nodup := hs.sorted.imp fun hlt heq => (heq ▸ hlt).false
    have hsub : s.uids.toList ⊆ List.range s.userids.length :=
      fun uid hu => List.mem_range.mpr (hs.inside uid hu)
    simpa using (hnodup.subperm hsub).length_le

theorem a_renamed_root_is_registered : ∃ s,
    run (fun s c => (call.exec s c).map Prod.snd) no_uids
      [.set_root_uid 7, .add_uid 5, .set_root_uid 3] = some s ∧
      search 3 s = some 0 ∧ Registers s := by
  refine (Reachable.of_computed (.of_forall (fun _ _ => trivial) _ _) ?_).imp fun s h =>
    ⟨h.1, h.2.1, names_are_registered h.2.2⟩
  decide

/-! ## The ids of the objects -/

/-- An object is to have an effective user id: the master object has said so, of it or of an
object that has loaded it, or the loader of this one, and so on. -/
inductive Entitled (d : driver) : Nat → Nat → Prop
  | approved {ob name : Nat} : (ob, name) ∈ d.approved → Entitled d ob name
  | loaded {ob loader name : Nat} : d.loaders[ob]? = some loader → Entitled d loader name →
      Entitled d ob name

/-- The ids of an object are there, and it is entitled to the effective one. -/
structure Identified (d : driver) (o : Nat) (ob : object_t) : Prop where
  uid : ∀ uid ∈ ob.uid, uid < d.userids.length
  euid : ∀ uid ∈ ob.euid, uid < d.userids.length ∧ Entitled d o (name_of d.toregistry uid)

/-- Every record is the one that is found under its name. -/
def Complete (s : registry) : Prop :=
  ∀ uid < s.userids.length, search (name_of s uid) s = some uid

/-- No record has gone or has got another name. -/
structure Kept (s s' : registry) : Prop where
  complete : Complete s'
  length : s.userids.length ≤ s'.userids.length
  names : ∀ uid < s.userids.length, name_of s' uid = name_of s uid

theorem Kept.trans {s1 s2 s3 : registry} (h : Kept s1 s2) (h' : Kept s2 s3) : Kept s1 s3 :=
  ⟨h'.complete, h.length.trans h'.length,
    fun uid hu => (h'.names uid (hu.trans_le h.length)).trans (h.names uid hu)⟩

theorem Added.kept {s' : registry} (h : Added name s s' uid) (hc : Complete s) : Kept s s' := by
  rcases h.old with ⟨-, rfl⟩ | ⟨hnone, rfl, hs'⟩
  · exact ⟨hc, le_rfl, fun _ _ => rfl⟩
  · have hlength : s'.userids.length = s.userids.length + 1 := by
      rw [hs']
      exact List.length_append
    have hnames : ∀ v < s.userids.length, name_of s' v = name_of s v := by
      rw [hs']
      exact fun v hv => by simp [name_of, record, List.getElem?_append_left hv]
    refine ⟨fun v hv => ?_, by omega, hnames⟩
    rw [h.found]
    by_cases hlt : v < s.userids.length
    · rw [hnames v hlt, hc v hlt, if_neg]
      intro hname
      rw [← hname, hc v hlt] at hnone
      nomatch hnone
    · rw [show v = s.userids.length by omega, if_pos h.inside.2]

/-- Nothing of what has happened is lost. -/
structure Grows (d d' : driver) : Prop where
  kept : Kept d.toregistry d'.toregistry
  loaders : ∀ (o : Nat) loader, d.loaders[o]? = some loader → d'.loaders[o]? = some loader
  approved : d.approved ⊆ d'.approved

variable {d d' : driver}

theorem Entitled.grows (hg : Grows d d') {o name : Nat} (h : Entitled d o name) :
    Entitled d' o name := by
  induction h with
  | approved h => exact .approved (hg.approved h)
  | loaded h _ ih => exact .loaded (hg.loaders _ _ h) ih

theorem Identified.grows (hg : Grows d d') {o : Nat} {ob : object_t} (h : Identified d o ob) :
    Identified d' o ob := by
  refine ⟨fun uid hu => (h.uid uid hu).trans_le hg.kept.length, fun uid hu => ?_⟩
  obtain ⟨hlt, hent⟩ := h.euid uid hu
  exact ⟨hlt.trans_le hg.kept.length, hg.kept.names uid hlt ▸ hent.grows hg⟩

structure Trusted (d : driver) : Prop where
  sound : Sound d.toregistry
  complete : Complete d.toregistry
  first : d.master_ob = none → d.root_uid = none ∧ d.backbone_uid = none
  later : d.master_ob.isSome → d.backbone_uid.isSome
  loaders : d.loaders.length = d.objects.length
  identified : ∀ o ob, d.objects[o]? = some ob → Identified d o ob

/-- The objects are as they have been, but for some that are as they should be. -/
theorem Trusted.grows (h : Trusted d) (hg : Grows d d') (hs : Sound d'.toregistry)
    (hfirst : d'.master_ob = none → d'.root_uid = none ∧ d'.backbone_uid = none)
    (hlater : d'.master_ob.isSome → d'.backbone_uid.isSome)
    (hloaders : d'.loaders.length = d'.objects.length)
    (hobjects : ∀ (o : Nat) ob, d'.objects[o]? = some ob →
      d.objects[o]? = some ob ∨ Identified d' o ob) : Trusted d' :=
  ⟨hs, hg.kept.complete, hfirst, hlater, hloaders, fun o ob ho =>
    (hobjects o ob ho).elim (fun ho => (h.identified o ob ho).grows hg) id⟩

theorem Added.vital {s' : registry} (h : Added name s s' uid) :
    s'.root_uid = s.root_uid ∧ s'.backbone_uid = s.backbone_uid := by
  rcases h.old with ⟨-, rfl⟩ | ⟨-, -, hs'⟩
  · exact ⟨rfl, rfl⟩
  · rw [hs']
    exact ⟨rfl, rfl⟩

/-- What `give_uid_to_object` does: an object gets a user id of its own, or the ids of its loader. -/
theorem give_uid_cases {current creator : Nat} {ob : object_t}
    (he : give_uid_to_object current creator d = some (ob, d')) :
    (∃ name uid s, add_uid name d.toregistry = some (uid, s) ∧ ob = ⟨some uid, none⟩ ∧
      d' = { d with toregistry := s }) ∨
    d' = d ∧ d.master_ob.isSome ∧ ∃ cur, d.objects[current]? = some cur ∧ ob.euid = cur.euid ∧
      (ob.uid = cur.uid ∨ ob.uid = cur.euid) := by
  unfold give_uid_to_object at he
  cases hmaster : d.master_ob with
  | none =>
    simp only [hmaster, Option.bind_eq_bind, Option.bind_eq_some_iff, Option.some.injEq,
      Prod.mk.injEq] at he
    obtain ⟨⟨uid, s⟩, hs, rfl, rfl⟩ := he
    exact .inl ⟨_, uid, s, hs, rfl, by rw [← hmaster]⟩
  | some master =>
    simp only [hmaster, Option.bind_eq_bind, Option.bind_eq_some_iff] at he
    obtain ⟨cur, hcur, uid, -, backbone_uid, -, he⟩ := he
    split_ifs at he
    · obtain ⟨rfl, rfl⟩ := he
      exact .inr ⟨rfl, rfl, _, hcur, rfl, .inl rfl⟩
    · obtain ⟨rfl, rfl⟩ := he
      exact .inr ⟨rfl, rfl, _, hcur, rfl, .inr rfl⟩
    · simp only [Option.bind_eq_some_iff, Option.some.injEq, Prod.mk.injEq] at he
      obtain ⟨⟨uid, s⟩, hs, rfl, rfl⟩ := he
      exact .inl ⟨_, uid, s, hs, rfl, by rw [← hmaster]⟩

/-- An object that has become another one is as it should be. -/
theorem objects_modify {objects : List object_t} {ob : Nat} {f : object_t → object_t}
    (hf : ∀ o, objects[ob]? = some o → Identified d' ob (f o)) (o : Nat) (x : object_t)
    (hx : (objects.modify ob f)[o]? = some x) : objects[o]? = some x ∨ Identified d' o x := by
  rw [List.getElem?_modify] at hx
  split_ifs at hx with ho
  · obtain ⟨x0, hx0, rfl⟩ := Option.map_eq_some_iff.mp hx
    exact .inr (ho ▸ hf x0 (ho ▸ hx0))
  · exact .inl (by simpa using hx)

theorem Trusted.init_object (h : Trusted d) {current creator : Nat}
    (hstep : step d (.init_object current creator) = some d') : Trusted d' := by
  simp only [step, Option.bind_eq_bind, Option.bind_eq_some_iff, Option.some.injEq] at hstep
  obtain ⟨⟨ob, d1⟩, he, rfl⟩ := hstep
  have hmade : ∃ s, d1 = { d with toregistry := s } ∧ Sound s ∧ Kept d.toregistry s ∧
      (s.root_uid = d.root_uid ∧ s.backbone_uid = d.backbone_uid) ∧
      (∀ uid ∈ ob.uid, uid < s.userids.length) ∧
      ∀ uid ∈ ob.euid, ∃ cur, d.objects[current]? = some cur ∧ cur.euid = some uid := by
    rcases give_uid_cases he with ⟨name, uid, s, hs, rfl, rfl⟩ | ⟨rfl, -, cur, hcur, heuid, huid⟩
    · obtain ⟨uid', s', hs', hadd⟩ := add_uid_spec h.sound name
      cases hs.symm.trans hs'
      exact ⟨s, rfl, hadd.sound, hadd.kept h.complete, hadd.vital,
        fun v hv => Option.some.inj hv ▸ hadd.inside.1, nofun⟩
    · have hid := h.identified current cur hcur
      refine ⟨_, rfl, h.sound, ⟨h.complete, le_rfl, fun _ _ => rfl⟩, ⟨rfl, rfl⟩, ?_,
        fun v hv => ⟨cur, hcur, heuid ▸ hv⟩⟩
      rcases huid with huid | huid <;> rw [huid]
      · exact hid.uid
      · exact fun v hv => (hid.euid v hv).1
  obtain ⟨s, rfl, hs, hkept, hvital, huid, heuid⟩ := hmade
  have hg : Grows d { d with
      toregistry := s
      objects := d.objects ++ [ob]
      loaders := d.loaders ++ [current] } :=
    ⟨hkept, fun o loader ho => List.getElem?_append_left
      (List.getElem?_eq_some_iff.mp ho).1 ▸ ho, List.Subset.refl _⟩
  refine h.grows hg hs (by simpa [hvital] using h.first) (by simpa [hvital] using h.later)
    (by simp [h.loaders]) fun o x hx => ?_
  rcases Nat.lt_trichotomy o d.objects.length with ho | rfl | ho
  · rw [List.getElem?_append_left ho] at hx
    exact .inl hx
  · rw [List.getElem?_concat_length, Option.some.injEq] at hx
    subst hx
    refine .inr ⟨huid, fun uid hu => ?_⟩
    obtain ⟨cur, hcur, hce⟩ := heuid uid hu
    have hent := ((h.identified current cur hcur).grows hg).euid uid hce
    exact ⟨hent.1, .loaded (by simp [← h.loaders]) hent.2⟩
  · have hlt := (List.getElem?_eq_some_iff.mp hx).1
    simp at hlt
    omega

theorem Trusted.set_euid (h : Trusted d) {ob : Nat} {euid : Option Nat}
    (heuid : ∀ uid ∈ euid, uid < d.userids.length ∧ Entitled d ob (name_of d.toregistry uid)) :
    Trusted (set_euid ob euid d) := by
  have hg : Grows d (user_ids.set_euid ob euid d) :=
    ⟨⟨h.complete, le_rfl, fun _ _ => rfl⟩, fun _ _ => id, List.Subset.refl _⟩
  have hident : ∀ o, d.objects[ob]? = some o →
      Identified (user_ids.set_euid ob euid d) ob { o with euid := euid } := by
    refine fun o ho => ⟨(h.identified ob o ho).uid, fun uid hu => ?_⟩
    exact ⟨(heuid uid hu).1, (heuid uid hu).2.grows hg⟩
  exact h.grows hg h.sound h.first h.later (by simp [user_ids.set_euid, h.loaders])
    (objects_modify hident)

theorem Trusted.set_master (h : Trusted d) {ob root_name backbone_name : Nat}
    (hstep : step d (.set_master ob root_name backbone_name) = some d') : Trusted d' := by
  have hmade : ∃ uid s, d' = { d with
        toregistry := s
        objects := d.objects.modify ob fun _ => ⟨some uid, some uid⟩
        master_ob := some ob
        approved := (ob, root_name) :: d.approved } ∧
      Sound s ∧ Kept d.toregistry s ∧ s.backbone_uid.isSome ∧ uid < s.userids.length ∧
      name_of s uid = root_name := by
    cases hmaster : d.master_ob with
    | none =>
      obtain ⟨hroot, hback⟩ := h.first hmaster
      obtain ⟨uid, s1, he1, hs1, hadd1⟩ := set_root_uid_first h.sound hroot root_name
      obtain ⟨uid2, s2, he2, hs2, hadd2⟩ :=
        set_backbone_uid_first hs1 (hadd1.vital.2.trans hback) backbone_name
      have hk1 := hadd1.kept h.complete
      have hk2 := hadd2.kept (s := { s1 with root_uid := some uid }) hk1.complete
      simp [step, hmaster, he1, he2] at hstep
      subst hstep
      refine ⟨uid, _, rfl, hs2, ?_, rfl, hadd1.inside.1.trans_le hk2.length, ?_⟩
      · have hk2 : Kept s1 { s2 with backbone_uid := some uid2 } :=
          ⟨hk2.complete, hk2.length, hk2.names⟩
        exact hk1.trans hk2
      · exact (hk2.names uid hadd1.inside.1).trans hadd1.inside.2
    | some master =>
      obtain ⟨uid, s, he, hadd⟩ := add_uid_spec h.sound root_name
      simp [step, hmaster, he] at hstep
      subst hstep
      refine ⟨uid, s, rfl, hadd.sound, hadd.kept h.complete, ?_, hadd.inside⟩
      rw [hadd.vital.2]
      exact h.later (by simp [hmaster])
  obtain ⟨uid, s, rfl, hs, hkept, hback, hinside, hname⟩ := hmade
  refine h.grows ⟨hkept, fun _ _ => id, List.subset_cons_self _ _⟩ hs nofun (fun _ => hback)
    (by simp [h.loaders]) (objects_modify fun o _ => ⟨?_, ?_⟩)
  · exact fun v hv => Option.some.inj hv ▸ hinside
  · rintro v hv
    obtain rfl := Option.some.inj hv
    exact ⟨hinside, .approved (hname ▸ List.mem_cons_self ..)⟩

theorem trusted_step (h : Trusted d) {a : action} (hstep : step d a = some d') : Trusted d' := by
  cases a with
  | init_object current creator => exact h.init_object hstep
  | set_master ob root_name backbone_name => exact h.set_master hstep
  | f_seteuid current name approved =>
    cases approved with
    | false => exact Option.some.inj hstep ▸ h
    | true =>
      obtain ⟨uid, s, he, hadd⟩ := add_uid_spec h.sound name
      simp only [step, if_true, he, Option.bind_eq_bind, Option.bind_some,
        Option.some.injEq] at hstep
      subst hstep
      have hg : Grows d { d with toregistry := s, approved := (current, name) :: d.approved } :=
        ⟨hadd.kept h.complete, fun _ _ => id, List.subset_cons_self _ _⟩
      have ht := h.grows hg hadd.sound (by simpa [hadd.vital] using h.first)
        (by simpa [hadd.vital] using h.later) h.loaders fun _ _ ho => .inl ho
      refine ht.set_euid fun v hv => ?_
      obtain rfl := Option.some.inj hv
      exact ⟨hadd.inside.1, .approved (hadd.inside.2 ▸ List.mem_cons_self ..)⟩
  | f_seteuid_0 current => exact Option.some.inj hstep ▸ h.set_euid nofun
  | f_export_uid current ob =>
    simp only [step, Option.bind_eq_bind, Option.bind_eq_some_iff] at hstep
    obtain ⟨cur, hcur, hstep⟩ := hstep
    cases heuid : cur.euid with
    | none =>
      rw [heuid] at hstep
      exact Option.some.inj hstep ▸ h
    | some euid =>
      simp only [heuid, Option.some.injEq] at hstep
      subst hstep
      have hg : Grows d { d with objects := d.objects.modify ob fun o =>
          if o.euid.isSome then o else { o with uid := some euid } } :=
        ⟨⟨h.complete, le_rfl, fun _ _ => rfl⟩, fun _ _ => id, List.Subset.refl _⟩
      refine h.grows hg h.sound h.first h.later (by simp [h.loaders]) (objects_modify fun o ho => ?_)
      have hid := (h.identified ob o ho).grows hg
      split_ifs
      · exact hid
      · exact ⟨fun v hv => Option.some.inj hv ▸ ((h.identified current cur hcur).euid _ heuid).1,
          hid.euid⟩
  | reload_object ob => exact Option.some.inj hstep ▸ h.set_euid nofun

theorem trusted_start : Trusted start :=
  ⟨sound_no_uids, nofun, fun _ => ⟨rfl, rfl⟩, nofun, rfl, nofun⟩

theorem trusted_reachable {ok : driver → action → Prop} (h : Reachable start step ok d) :
    Trusted d :=
  h.inv trusted_start fun _ _ _ hs _ hstep => trusted_step hs hstep

/-- The loader still has the effective user id that it has had when it asked for the object. -/
def loader_has_euid (d : driver) : action → Bool
  | .init_object current_object _ =>
    d.master_ob.isNone || (d.objects[current_object]?.bind object_t.euid).isSome
  | _ => true

theorem uid_kept {objects : List object_t} (h : ∀ ob ∈ objects, ob.uid.isSome) {ob : Nat}
    {f : object_t → object_t} (hf : ∀ o, o.uid.isSome → (f o).uid.isSome) :
    ∀ o ∈ objects.modify ob f, o.uid.isSome := by
  intro o ho
  obtain ⟨i, hi⟩ := List.mem_iff_getElem?.mp ho
  rw [List.getElem?_modify] at hi
  obtain ⟨x, hx, rfl⟩ := Option.map_eq_some_iff.mp hi
  have hsome := h x (List.mem_of_getElem? hx)
  split_ifs
  · exact hf x hsome
  · exact hsome

theorem uid_step (h : ∀ ob ∈ d.objects, ob.uid.isSome) {a : action} (hok : loader_has_euid d a)
    (hstep : step d a = some d') : ∀ ob ∈ d'.objects, ob.uid.isSome := by
  cases a with
  | init_object current creator =>
    simp only [step, Option.bind_eq_bind, Option.bind_eq_some_iff, Option.some.injEq] at hstep
    obtain ⟨⟨ob, d1⟩, he, rfl⟩ := hstep
    have hnew : d1.objects = d.objects ∧ ob.uid.isSome := by
      rcases give_uid_cases he with ⟨name, uid, s, -, rfl, rfl⟩ | ⟨rfl, hmaster, cur, hcur, -, huid⟩
      · exact ⟨rfl, rfl⟩
      · obtain ⟨master, hmaster⟩ := Option.isSome_iff_exists.mp hmaster
        refine ⟨rfl, ?_⟩
        rcases huid with huid | huid <;> rw [huid]
        · exact h cur (List.mem_of_getElem? hcur)
        · simpa [loader_has_euid, hmaster, hcur] using hok
    intro o ho
    rw [List.mem_append, List.mem_singleton, hnew.1] at ho
    rcases ho with ho | rfl
    · exact h o ho
    · exact hnew.2
  | set_master ob root_name backbone_name =>
    simp only [step, Option.bind_eq_bind, Option.bind_eq_some_iff, Option.some.injEq] at hstep
    obtain ⟨⟨uid, s⟩, -, s2, -, rfl⟩ := hstep
    exact uid_kept h fun _ _ => rfl
  | f_seteuid current name approved =>
    cases approved with
    | false => exact Option.some.inj hstep ▸ h
    | true =>
      simp only [step, if_true, Option.bind_eq_bind, Option.bind_eq_some_iff,
        Option.some.injEq] at hstep
      obtain ⟨⟨uid, s⟩, -, rfl⟩ := hstep
      exact uid_kept h fun _ => id
  | f_seteuid_0 current => exact Option.some.inj hstep ▸ uid_kept h fun _ => id
  | f_export_uid current ob =>
    simp only [step, Option.bind_eq_bind, Option.bind_eq_some_iff] at hstep
    obtain ⟨cur, hcur, hstep⟩ := hstep
    cases heuid : cur.euid with
    | none =>
      rw [heuid] at hstep
      exact Option.some.inj hstep ▸ h
    | some euid =>
      simp only [heuid, Option.some.injEq] at hstep
      subst hstep
      refine uid_kept h fun o ho => ?_
      split_ifs
      · exact ho
      · rfl
  | reload_object ob => exact Option.some.inj hstep ▸ uid_kept h fun _ => id

end mudos.user_ids
