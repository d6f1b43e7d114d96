-- Two users are linked in both directions or in none, and no user gets what
-- is written to him through the ones who snoop him.
import MudOS.Snooping

open mudos.runs mudos.chains Option List

namespace mudos.snooping

variable {s : driver}
variable {s' : driver} {i : interactive_t}

/-! ## The invariant -/

structure Linked (s : driver) : Prop where
  inverse : ∀ a b, s.snoop_on a = some b ↔ s.snoop_by b = some a
  live : ∀ a b, s.snoop_on a = some b → (s.ips a).isSome ∧ (s.ips b).isSome
  acyclic : ∀ a, ¬ Relation.TransGen (Tells s.snoop_by) a a

structure Connected (s : driver) : Prop where
  ob : ∀ ip i, s.ips ip = some i → interactive s i.ob = some ip
  ip : ∀ ob ip, interactive s ob = some ip → ∃ i, s.ips ip = some i ∧ i.ob = ob
  removing : ∀ r ∈ s.removing, ∃ i, s.ips r.2 = some i ∧ i.ob = r.1 ∧ i.CLOSING = true
  once : (s.removing.map Prod.snd).Nodup
  top : ∀ ip, (s.ips ip).isSome → ip < s.top

structure Sound (s : driver) : Prop where
  linked : Linked s
  connected : Connected s

/-! ## The links -/

theorem linked_stop_on (h : Linked s) (a : Nat) : Linked (stop_on a s) := by
  unfold stop_on
  rcases hon : s.snoop_on a with _ | b
  · exact h
  · have hby := (h.inverse a b).mp hon
    refine ⟨fun c d => ?_, fun c d hcd => ?_, fun c => no_cycle_none h.acyclic b c⟩
    · have hcd := h.inverse c d
      simp only [Function.update_apply]
      grind
    · apply h.live c d
      by_cases hc : c = a
      · simp [hc] at hcd
      · simpa [Function.update_apply, hc] using hcd

theorem linked_stop_by (h : Linked s) (b : Nat) : Linked (stop_by b s) := by
  unfold stop_by
  rcases hby : s.snoop_by b with _ | a
  · exact h
  · have hon := (h.inverse a b).mpr hby
    refine ⟨fun c d => ?_, fun c d hcd => ?_, fun c => no_cycle_none h.acyclic b c⟩
    · have hcd := h.inverse c d
      simp only [Function.update_apply]
      grind
    · apply h.live c d
      by_cases hc : c = a
      · simp [hc] at hcd
      · simpa [Function.update_apply, hc] using hcd

theorem stop_on_same (a : Nat) (s : driver) :
    (stop_on a s).ips = s.ips ∧ (stop_on a s).objects = s.objects ∧
      (stop_on a s).removing = s.removing ∧ (stop_on a s).top = s.top := by
  unfold stop_on
  split <;> exact ⟨rfl, rfl, rfl, rfl⟩

theorem stop_by_same (b : Nat) (s : driver) :
    (stop_by b s).ips = s.ips ∧ (stop_by b s).objects = s.objects ∧
      (stop_by b s).removing = s.removing ∧ (stop_by b s).top = s.top := by
  unfold stop_by
  split <;> exact ⟨rfl, rfl, rfl, rfl⟩

theorem stopped (h : Linked s) (a b : Nat) :
    (stop_by b (stop_on a s)).snoop_on a = none ∧ (stop_by b (stop_on a s)).snoop_by b = none ∧
      ∀ c d, (stop_by b (stop_on a s)).snoop_by c = some d → s.snoop_by c = some d := by
  unfold stop_by stop_on
  rcases hon : s.snoop_on a with _ | b'
  · rcases hby : s.snoop_by b with _ | a'
    · simp [hon, hby]
    · simp only
      grind [Function.update_apply]
  · have hb' := (h.inverse a b').mp hon
    dsimp only
    rcases hby : Function.update s.snoop_by b' none b with _ | a'
    · simp only [hby]
      grind [Function.update_apply]
    · simp only
      grind [Function.update_apply]

theorem leads_flip (h : Linked s) {a b : Nat} (hab : Relation.ReflTransGen (Tells s.snoop_by) a b) :
    Relation.ReflTransGen (Tells s.snoop_on) b a := by
  induction hab with
  | refl => exact .refl
  | tail _ hcd ih => exact .head ((h.inverse _ _).mpr hcd) ih

theorem acyclic_on (h : Linked s) (a : Nat) : ¬ Relation.TransGen (Tells s.snoop_on) a a := by
  intro haa
  apply h.acyclic a
  rw [← Relation.transGen_swap]
  refine Relation.TransGen.mono ?_ _ _ haa
  exact fun b c hbc => (h.inverse b c).mp hbc

theorem loops_of_leads (h : Sound s) {by_ on : Nat} (hon : (s.ips on).isSome)
    (hl : Relation.ReflTransGen (Tells s.snoop_on) on by_) : loops by_ on s = true := by
  have hbound : ∀ a b, s.snoop_on a = some b → b < s.top := fun a b hab =>
    h.connected.top b (h.linked.live a b hab).2
  have hlt := h.connected.top on hon
  obtain ⟨l, hchain⟩ := chain_of_no_cycle hbound (acyclic_on h.linked) hlt
  have hlen := hchain.length_le (hchain.bounded hbound hlt)
  unfold loops
  rw [hchain.walk (by omega)]
  simpa using hchain.mem_of_leads hl

theorem linked_link (h : Linked s) {by_ on : Nat} (hon : s.snoop_on by_ = none)
    (hby : s.snoop_by on = none) (hlive : (s.ips by_).isSome ∧ (s.ips on).isSome)
    (hloop : ¬ Relation.ReflTransGen (Tells s.snoop_by) by_ on) : Linked (link by_ on s) := by
  refine ⟨fun c d => ?_, fun c d hcd => ?_, no_cycle_update h.acyclic hloop⟩
  · have h1 := h.inverse c d
    simp only [link, Function.update_apply]
    grind
  · by_cases hc : c = by_
    · subst hc
      obtain rfl : on = d := by simpa [link] using hcd
      exact hlive
    · exact h.live c d (by simpa [link, Function.update_apply, hc] using hcd)

theorem sound_snoop {me : Nat} {you : Option Nat} {ret : Nat} (h : Sound s)
    (hs : new_set_snoop me you s = .ok (ret, s')) : Sound s' := by
  unfold new_set_snoop at hs
  rcases hme : s.objects me with _ | o
  · simp only [hme] at hs
    cases hs
    exact h
  simp only [hme] at hs
  split_ifs at hs
  · cases hs
    exact h
  rcases ho : o.interactive with _ | by_
  · simp [ho, reduceCtorEq] at hs
  have hby : interactive s me = some by_ := by simp [interactive, hme, ho]
  simp only [ho] at hs
  rcases you with _ | you
  · cases hs
    obtain ⟨h1, h2, h3, h4⟩ := stop_on_same by_ s
    refine ⟨linked_stop_on h.linked by_, ?_⟩
    obtain ⟨c1, c2, c3, c4, c5⟩ := h.connected
    exact ⟨by simpa [interactive, h1, h2] using c1, by simpa [interactive, h1, h2] using c2,
      by simpa [h1, h3] using c3, by simpa [h3] using c4, by simpa [h1, h4] using c5⟩
  rcases hon : interactive s you with _ | on
  · simp [hon, reduceCtorEq] at hs
  simp only [hon] at hs
  split_ifs at hs with hloop
  · cases hs
    exact h
  · cases hs
    obtain ⟨i, hi, -⟩ := h.connected.ip me by_ hby
    obtain ⟨j, hj, -⟩ := h.connected.ip you on hon
    obtain ⟨a1, a2, a3, a4⟩ := stop_on_same by_ s
    obtain ⟨b1, b2, b3, b4⟩ := stop_by_same on (stop_on by_ s)
    obtain ⟨hs1, hs2, hs3⟩ := stopped h.linked by_ on
    have hno : ¬ Relation.ReflTransGen (Tells (stop_by on (stop_on by_ s)).snoop_by) by_ on := by
      intro hlead
      apply hloop
      apply loops_of_leads h (by simp [hj])
      apply leads_flip h.linked
      exact Relation.ReflTransGen.mono (fun c d hcd => hs3 c d hcd) _ _ hlead
    refine ⟨linked_link (linked_stop_by (linked_stop_on h.linked by_) on) hs1 hs2
      (by simp [b1, a1, hi, hj]) hno, ?_⟩
    obtain ⟨c1, c2, c3, c4, c5⟩ := h.connected
    refine ⟨?_, ?_, ?_, ?_, ?_⟩
    · simpa [link, interactive, a1, a2, b1, b2] using c1
    · simpa [link, interactive, a1, a2, b1, b2] using c2
    · simpa [link, a1, a3, b1, b3] using c3
    · simpa [link, a3, b3] using c4
    · simpa [link, a1, a4, b1, b4] using c5

/-! ## Connections -/

theorem interactive_set_interactive (s : driver) (a ob : Nat) (p : Option Nat) :
    interactive (set_interactive ob p s) a =
      if a = ob ∧ (s.objects ob).isSome then p else interactive s a := by
  unfold interactive set_interactive
  by_cases ha : a = ob
  · subst ha
    rcases s.objects a with _ | o <;> simp
  · simp [ha]

theorem sound_set_closing (h : Sound s) (ip : Nat) : Sound (set_closing ip s) := by
  obtain ⟨⟨l1, l2, l3⟩, ⟨c1, c2, c3, c4, c5⟩⟩ := h
  have hip : ∀ a, (set_closing ip s).ips a =
      (s.ips a).map fun i => if a = ip then { i with CLOSING := true } else i := by
    intro a
    by_cases ha : a = ip
    · subst ha
      simp [set_closing]
    · rcases hs : s.ips a <;> simp [set_closing, ha, hs]
  refine ⟨⟨l1, fun a b hab => ?_, l3⟩, ⟨fun a i hi => ?_, fun ob a ha => ?_, fun r hr => ?_, c4, ?_⟩⟩
  · simpa [hip] using l2 a b hab
  · rw [hip] at hi
    obtain ⟨j, hj, rfl⟩ := map_eq_some_iff.mp hi
    have hob := c1 a j hj
    split_ifs
    · exact hob
    · exact hob
  · obtain ⟨i, hi, hob⟩ := c2 ob a ha
    refine ⟨_, by rw [hip, hi]; rfl, ?_⟩
    split_ifs <;> exact hob
  · obtain ⟨i, hi, hob, hclosing⟩ := c3 r hr
    refine ⟨_, by rw [hip, hi]; rfl, ?_⟩
    split_ifs <;> exact ⟨hob, by simp [hclosing]⟩
  · intro a ha
    apply c5 a
    simpa [hip] using ha

theorem sound_end_removal (h : Sound s) {ob ip : Nat} (hi : s.ips ip = some i) (hob : i.ob = ob)
    (removing : List (Nat × Nat)) (hsub : ∀ r ∈ removing, r ∈ s.removing ∧ r.2 ≠ ip)
    (honce : (removing.map Prod.snd).Nodup) :
    Sound { end_removal ob ip s with removing := removing } := by
  obtain ⟨b1, b2, b3, b4⟩ := stop_by_same ip s
  obtain ⟨a1, a2, a3, a4⟩ := stop_on_same ip (stop_by ip s)
  have hl := linked_stop_on (linked_stop_by h.linked ip) ip
  have hon : (stop_on ip (stop_by ip s)).snoop_on ip = none := by
    unfold stop_on
    rcases hn : (stop_by ip s).snoop_on ip with _ | b
    · exact hn
    · simp
  have hby : (stop_on ip (stop_by ip s)).snoop_by ip = none := by
    have hby' : (stop_by ip s).snoop_by ip = none := by
      unfold stop_by
      rcases hn : s.snoop_by ip with _ | a
      · exact hn
      · simp
    unfold stop_on
    rcases hn : (stop_by ip s).snoop_on ip with _ | b
    · exact hby'
    · simp only [Function.update_apply]
      split_ifs
      · rfl
      · exact hby'
  obtain ⟨c1, c2, c3, c4, c5⟩ := h.connected
  have howner : interactive s ob = some ip := hob ▸ c1 ip i hi
  have hobj : (s.objects ob).isSome := by
    rcases ho : s.objects ob with _ | o
    · simp [interactive, ho] at howner
    · rfl
  have hint : ∀ a, interactive { end_removal ob ip s with removing := removing } a =
      if a = ob then none else interactive s a := by
    intro a
    have := interactive_set_interactive (stop_on ip (stop_by ip s)) a ob none
    simp only [a2, b2, hobj, and_true] at this
    simpa [end_removal, interactive, a2, b2] using this
  have hips : ∀ a, { end_removal ob ip s with removing := removing }.ips a =
      if a = ip then none else s.ips a := by
    intro a
    simp [end_removal, a1, b1, Function.update_apply]
  refine ⟨⟨hl.inverse, fun a b hab => ?_, hl.acyclic⟩, ⟨fun a j hj => ?_, fun x a ha => ?_,
    fun r hr => ?_, honce, fun a ha => ?_⟩⟩
  · have hlive := hl.live a b hab
    have ha : a ≠ ip := by
      rintro rfl
      exact absurd (hon.symm.trans hab) (by simp)
    have hb : b ≠ ip := by
      rintro rfl
      exact absurd (hby.symm.trans ((hl.inverse a b).mp hab)) (by simp)
    rw [hips, hips, if_neg ha, if_neg hb]
    simpa [a1, b1] using hlive
  · rw [hips] at hj
    split_ifs at hj with ha
    rw [hint, if_neg]
    · exact c1 a j hj
    · intro hjob
      have := c1 a j hj
      rw [hjob, howner] at this
      exact ha (some.inj this).symm
  · rw [hint] at ha
    split_ifs at ha with hx
    obtain ⟨j, hj, hjob⟩ := c2 x a ha
    have hne : a ≠ ip := by
      rintro rfl
      rw [hi] at hj
      cases hj
      exact hx (hjob.symm.trans hob)
    exact ⟨j, by rw [hips, if_neg hne, hj], hjob⟩
  · obtain ⟨hr, hne⟩ := hsub r hr
    obtain ⟨j, hj, hrest⟩ := c3 r hr
    exact ⟨j, by rw [hips, if_neg hne, hj], hrest⟩
  · rw [hips] at ha
    split_ifs at ha
    · simp at ha
    have htop := c5 a ha
    simpa [end_removal, set_interactive, a4, b4] using htop

theorem sound_connect {ob ip : Nat} (h : Sound s) (hc : connect ob ip s = some s') : Sound s' := by
  simp only [connect, ite_none_right_eq_some, some.injEq] at hc
  obtain ⟨⟨hob, hnone, hfree⟩, rfl⟩ := hc
  have hfree : s.ips ip = none := isNone_iff_eq_none.mp hfree
  have hnone : interactive s ob = none := isNone_iff_eq_none.mp hnone
  obtain ⟨⟨l1, l2, l3⟩, ⟨c1, c2, c3, c4, c5⟩⟩ := h
  have hon : s.snoop_on ip = none := by
    rcases hn : s.snoop_on ip with _ | b
    · rfl
    · simpa [hfree] using (l2 ip b hn).1
  have hby : s.snoop_by ip = none := by
    rcases hn : s.snoop_by ip with _ | a
    · rfl
    · simpa [hfree] using (l2 a ip ((l1 a ip).mpr hn)).2
  have hon' : Function.update s.snoop_on ip none = s.snoop_on := by
    rw [← hon, Function.update_eq_self]
  have hby' : Function.update s.snoop_by ip none = s.snoop_by := by
    rw [← hby, Function.update_eq_self]
  have hint : ∀ a, interactive { set_interactive ob (some ip) s with
      ips := Function.update s.ips ip (some ⟨ob, false⟩)
      snoop_on := Function.update s.snoop_on ip none
      snoop_by := Function.update s.snoop_by ip none
      top := max s.top (ip + 1) } a = if a = ob then some ip else interactive s a := by
    intro a
    have := interactive_set_interactive s a ob (some ip)
    simp only [hob, and_true] at this
    exact this
  refine ⟨⟨?_, fun a b hab => ?_, ?_⟩, ⟨fun a j hj => ?_, fun x a ha => ?_, fun r hr => ?_, c4,
    fun a ha => ?_⟩⟩
  · simpa only [hon', hby'] using l1
  · simp only [hon'] at hab
    obtain ⟨ha, hb⟩ := l2 a b hab
    simp only [Function.update_apply]
    constructor <;> split_ifs <;> simp_all
  · simpa only [hby'] using l3
  · rw [hint]
    simp only [Function.update_apply] at hj
    split_ifs at hj with ha
    · cases hj
      rw [if_pos rfl, ha]
    · rw [if_neg]
      · exact c1 a j hj
      · intro hjob
        have := c1 a j hj
        simp [hjob, hnone] at this
  · rw [hint] at ha
    split_ifs at ha with hx
    · cases ha
      exact ⟨⟨ob, false⟩, by simp, hx.symm⟩
    · obtain ⟨j, hj, hjob⟩ := c2 x a ha
      have hne : a ≠ ip := by
        rintro rfl
        simp [hfree] at hj
      exact ⟨j, by simp [hne, hj], hjob⟩
  · obtain ⟨j, hj, hrest⟩ := c3 r hr
    have hne : r.2 ≠ ip := by
      intro hr2
      simp [hr2, hfree] at hj
    exact ⟨j, by simp [hne, hj], hrest⟩
  · simp only [Function.update_apply] at ha
    dsimp only
    split_ifs at ha with hip
    · omega
    · have := c5 a ha
      omega

theorem start_removal_some {ob ip : Nat} (h : start_removal ob s = some ip) :
    interactive s ob = some ip ∧ ∃ i, s.ips ip = some i ∧ i.CLOSING = false := by
  simp only [start_removal, bind_eq_some_iff] at h
  obtain ⟨a, ha, i, hi, hc⟩ := h
  split_ifs at hc with hclosing
  cases hc
  exact ⟨ha, i, hi, by simpa using hclosing⟩

theorem not_removing (h : Sound s) {ip : Nat} (hi : s.ips ip = some i) (hc : i.CLOSING = false) :
    ∀ r ∈ s.removing, r.2 ≠ ip := by
  intro r hr hrip
  obtain ⟨j, hj, -, hclosing⟩ := h.connected.removing r hr
  rw [hrip, hi] at hj
  cases hj
  rw [hc] at hclosing
  cases hclosing

theorem ip_of_set_closing {ip : Nat} (hi : s.ips ip = some i) :
    (set_closing ip s).ips ip = some { i with CLOSING := true } := by simp [set_closing, hi]

theorem sound_remove_dested (h : Sound s) (ob : Nat) : Sound (remove_dested ob s) := by
  unfold remove_dested
  rcases hr : start_removal ob s with _ | ip
  · exact h
  · obtain ⟨hob, i, hi, hclosing⟩ := start_removal_some hr
    have howner : i.ob = ob := by
      obtain ⟨j, hj, hjob⟩ := h.connected.ip ob ip hob
      rw [hi] at hj
      cases hj
      exact hjob
    have hs := sound_set_closing h ip
    have hne := not_removing h hi hclosing
    have := sound_end_removal hs (ip_of_set_closing hi) howner s.removing
      (fun r hr => ⟨hr, hne r hr⟩) hs.connected.once
    have heq : (end_removal ob ip (set_closing ip s)).removing = s.removing := by
      obtain ⟨-, -, b3, -⟩ := stop_by_same ip (set_closing ip s)
      obtain ⟨-, -, a3, -⟩ := stop_on_same ip (stop_by ip (set_closing ip s))
      simp only [end_removal, set_interactive, a3, b3]
      rfl
    rwa [← heq] at this

theorem interactive_set_destructed (ob : Nat) (s : driver) (a : Nat) :
    interactive (set_destructed ob s) a = interactive s a := by
  unfold interactive set_destructed
  by_cases ha : a = ob
  · subst ha
    rcases s.objects a with _ | o <;> simp
  · simp [ha]

/-! ## Runs -/

theorem sound_start : Sound start where
  linked := by
    refine ⟨by simp [start], by simp [start], fun a haa => ?_⟩
    obtain ⟨b, hab, -⟩ := Relation.TransGen.head'_iff.mp haa
    simp [start, Tells] at hab
  connected := by refine ⟨?_, ?_, ?_, ?_, ?_⟩ <;> simp [start, interactive]

theorem sound_step {a : action} (h : Sound s) (hstep : step s a = some s') : Sound s' := by
  cases a with
  | load ob =>
    simp only [step, ite_none_right_eq_some, some.injEq] at hstep
    obtain ⟨hnone, rfl⟩ := hstep
    have hnone : s.objects ob = none := isNone_iff_eq_none.mp hnone
    have hint : ∀ a, interactive { s with
        objects := Function.update s.objects ob (some ⟨none, false⟩) } a = interactive s a := by
      intro a
      by_cases ha : a = ob
      · subst ha
        simp [interactive, hnone]
      · simp [interactive, ha]
    obtain ⟨hl, ⟨c1, c2, c3, c4, c5⟩⟩ := h
    refine ⟨⟨hl.inverse, hl.live, hl.acyclic⟩, ⟨?_, ?_, c3, c4, c5⟩⟩
    · simpa only [hint] using c1
    · simpa only [hint] using c2
  | connect ob ip => exact sound_connect h hstep
  | snoop me you =>
    rcases hs : new_set_snoop me you s with e | ⟨ret, s''⟩
    · simp only [step, hs] at hstep
      cases hstep
      exact h
    · simp only [step, hs] at hstep
      cases hstep
      exact sound_snoop h hs
  | remove_interactive ob =>
    rcases hr : start_removal ob s with _ | ip
    · simp only [step, hr] at hstep
      cases hstep
      exact h
    · simp only [step, hr] at hstep
      cases hstep
      obtain ⟨hob, i, hi, hclosing⟩ := start_removal_some hr
      obtain ⟨hl, ⟨c1, c2, c3, c4, c5⟩⟩ := sound_set_closing h ip
      refine ⟨⟨hl.inverse, hl.live, hl.acyclic⟩, ⟨c1, c2, ?_, ?_, c5⟩⟩
      · intro r hr
        rcases mem_cons.mp hr with rfl | hr
        · obtain ⟨j, hj, hjob⟩ := h.connected.ip ob ip hob
          exact ⟨_, ip_of_set_closing hj, hjob, rfl⟩
        · exact c3 r hr
      · rw [map_cons, nodup_cons]
        refine ⟨fun hmem => ?_, h.connected.once⟩
        obtain ⟨r, hr, hrip⟩ := mem_map.mp hmem
        exact not_removing h hi hclosing r hr hrip
  | net_dead_returns =>
    rcases hr : s.removing with _ | ⟨⟨ob, ip⟩, rest⟩
    · simp [step, hr, reduceCtorEq] at hstep
    · simp only [step, hr] at hstep
      cases hstep
      obtain ⟨i, hi, hob, -⟩ := h.connected.removing (ob, ip) (by simp [hr])
      have honce := h.connected.once
      rw [hr, map_cons, nodup_cons] at honce
      apply sound_end_removal h hi hob rest
      · intro r hrest
        refine ⟨by simp [hr, hrest], fun hrip => honce.1 ?_⟩
        exact mem_map.mpr ⟨r, hrest, hrip⟩
      · exact honce.2
  | destruct ob =>
    cases hstep
    obtain ⟨hl, ⟨c1, c2, c3, c4, c5⟩⟩ := sound_remove_dested h ob
    refine ⟨⟨hl.inverse, hl.live, hl.acyclic⟩, ⟨?_, ?_, c3, c4, c5⟩⟩
    · simp only [interactive_set_destructed]
      exact c1
    · simp only [interactive_set_destructed]
      exact c2

/-- In every run a user snoops another one if and only if that one is snooped by him, no
user is behind himself, and what is written to a connection gets to the end of those who
snoop it. -/
theorem the_snoopers_are_chains {s : driver} (h : Reachable start step (fun _ _ => True) s) :
    (∀ u v, query_snooping u s = some v ↔ query_snoop v s = some u) ∧
      (∀ ip, ¬ Relation.TransGen (Tells s.snoop_by) ip ip) ∧
      ∀ ip, (s.ips ip).isSome → ∃ snoopers, Chain s.snoop_by (some ip) snoopers := by
  have hs : Sound s := h.inv sound_start fun _ _ _ hs _ hstep => sound_step hs hstep
  have hbound : ∀ a b, s.snoop_by a = some b → b < s.top := fun a b hab =>
    hs.connected.top b (hs.linked.live b a ((hs.linked.inverse b a).mpr hab)).1
  refine ⟨fun u v => ⟨fun huv => ?_, fun hvu => ?_⟩, hs.linked.acyclic, fun ip hip => ?_⟩
  · simp only [query_snooping, bind_eq_some_iff, map_eq_some_iff] at huv
    obtain ⟨ip, hu, on, hon, i, hi, rfl⟩ := huv
    obtain ⟨j, hj, hjob⟩ := hs.connected.ip u ip hu
    simp [query_snoop, hs.connected.ob on i hi, (hs.linked.inverse ip on).mp hon, hj, hjob]
  · simp only [query_snoop, bind_eq_some_iff, map_eq_some_iff] at hvu
    obtain ⟨ip, hv, by_, hby, i, hi, rfl⟩ := hvu
    obtain ⟨j, hj, hjob⟩ := hs.connected.ip v ip hv
    simp [query_snooping, hs.connected.ob by_ i hi, (hs.linked.inverse by_ ip).mpr hby, hj, hjob]
  · exact chain_of_no_cycle hbound hs.linked.acyclic (hs.connected.top ip hip)

/-- Three users snoop one another in a row, and the one in the middle leaves. -/
theorem the_middle_leaves : ∃ s, run step start
    [.load 1, .load 2, .load 3, .connect 1 11, .connect 2 12, .connect 3 13, .snoop 1 (some 2),
      .snoop 2 (some 3), .snoop 3 (some 1), .remove_interactive 2, .net_dead_returns] = some s ∧
      query_snoop 3 s = none ∧
      ∀ u v, query_snooping u s = some v ↔ query_snoop v s = some u := by
  exact (Reachable.of_computed (.of_forall (fun _ _ => trivial) _ _) (by decide)).imp fun s h =>
    ⟨h.1, h.2.1, (the_snoopers_are_chains h.2.2).1⟩

end mudos.snooping
