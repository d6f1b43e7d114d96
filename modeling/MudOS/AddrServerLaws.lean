-- Where every read gives one whole reply that leaves room for the final zero,
-- every reply is processed once and whole. A request is called back at most
-- once in any case.
import MudOS.AddrServer

open mudos.lines mudos.runs List Option

namespace mudos.addr_server

variable {inet_addr : List UInt8 → Option Nat}
variable {s : driver}
variable {r : reply} {s' : driver}

/-! ## The requests -/

def Own (s : driver) (c : callback) : Prop :=
  ∃ r ∈ s.answers, ∃ i e, e.name = r.name ∧ s.requests[e.request]? = some r.name ∧
    c = callback_of i e r

/-- No two places of the table hold one request, and a request that was called back is in
the table only while its callback runs. -/
structure Pending (s : driver) : Prop where
  names : ∀ (j : Nat) e, s.ipnumbertable[j]? = some (some e) →
    s.requests[e.request]? = some e.name
  distinct : ∀ (j k : Nat) e e', s.ipnumbertable[j]? = some (some e) →
    s.ipnumbertable[k]? = some (some e') → e.request = e'.request → j = k
  apart : ∀ (j : Nat) e, s.ipnumbertable[j]? = some (some e) →
    (∀ f ∈ s.waits, f.i ≠ j) → e.request ∉ s.callbacks.map callback.request
  once : (s.callbacks.map callback.request).Nodup
  known : ∀ c ∈ s.callbacks, c.request < s.requests.length
  own : ∀ c ∈ s.callbacks, Own s c
  answered : ∀ f ∈ s.waits, f.r ∈ s.answers

theorem request_lt (h : Pending s) {j : Nat} {e : ipnumberentry_t}
    (he : s.ipnumbertable[j]? = some (some e)) : e.request < s.requests.length :=
  (List.getElem?_eq_some_iff.mp (h.names j e he)).1

theorem Pending.free (h : Pending s) {table : List (Option ipnumberentry_t)}
    (hold : ∀ (j : Nat) e, table[j]? = some (some e) →
      s.ipnumbertable[j]? = some (some e) ∧ ∀ f ∈ s.waits, f.i ≠ j) :
    Pending { s with ipnumbertable := table, waits := none } where
  names j e he := h.names j e (hold j e he).1
  distinct j k e e' he he' := h.distinct j k e e' (hold j e he).1 (hold k e' he').1
  apart j e he _ := h.apart j e (hold j e he).1 (hold j e he).2
  once := h.once
  known := h.known
  own := h.own
  answered := by simp

theorem next_callback_found {i j : Nat} {e : ipnumberentry_t}
    (hj : j = i + (s.ipnumbertable.drop i).findIdx (asks r.name))
    (he : s.ipnumbertable[j]? = some (some e)) : e.name = r.name := by
  subst hj
  rw [← getElem?_drop] at he
  obtain ⟨hlt, hget⟩ := List.getElem?_eq_some_iff.mp he
  have hasks := findIdx_getElem (w := hlt)
  rw [hget] at hasks
  simpa [asks] using hasks

theorem pending_next_callback (i : Nat) (hr : r ∈ s.answers) (h : Pending { s with waits := none }) :
    Pending (next_callback i r s) := by
  unfold next_callback
  dsimp only
  split
  · rename_i e he
    set j := i + (s.ipnumbertable.drop i).findIdx (asks r.name) with hj
    have hname := next_callback_found hj he
    have hnew : e.request ∉ s.callbacks.map callback.request := h.apart j e he (by simp)
    have hreq : s.requests[e.request]? = some e.name := h.names j e he
    refine ⟨h.names, h.distinct, fun k e' he' hk => ?_, ?_, fun c hc => ?_, fun c hc => ?_, ?_⟩
    · have hold : e'.request ∉ s.callbacks.map callback.request := h.apart k e' he' (by simp)
      have hne : e'.request ≠ e.request := fun heq =>
        hk ⟨j, r⟩ rfl (h.distinct j k e e' he he' heq.symm)
      dsimp only
      split_ifs
      · exact hold
      · simp [callback_of, hold, hne]
    · dsimp only
      split_ifs
      · exact h.once
      · rw [map_append, map_singleton, nodup_append]
        refine ⟨h.once, by simp, ?_⟩
        intro a ha b hb heq
        rw [mem_singleton] at hb
        subst heq hb
        exact hnew ha
    · dsimp only at hc
      split_ifs at hc
      · exact h.known c hc
      · rcases mem_append.mp hc with hc | hc
        · exact h.known c hc
        · rw [mem_singleton.mp hc]
          exact request_lt h he
    · dsimp only at hc
      split_ifs at hc
      · exact h.own c hc
      · rcases mem_append.mp hc with hc | hc
        · exact h.own c hc
        · exact ⟨r, hr, j, e, hname, hname ▸ hreq, mem_singleton.mp hc⟩
    · intro f hf
      cases hf
      exact hr
  · exact h

theorem pending_got_addr_number (hr : r ∈ s.answers) (hwaits : s.waits = none) (h : Pending s) :
    Pending (got_addr_number r s) := by
  unfold got_addr_number
  refine pending_next_callback (s := { s with ipnumbertable := _ }) 0 hr (h.free ?_)
  intro j e he
  rw [getElem?_map, map_eq_some_iff] at he
  obtain ⟨slot, hslot, hfilter⟩ := he
  obtain ⟨hmem, -⟩ := filter_eq_some_iff.mp hfilter
  refine ⟨by rw [hslot, hmem], ?_⟩
  rw [hwaits]
  simp

theorem pending_callback_returns {f : frame} (hf : s.waits = some f) (h : Pending s) :
    Pending (callback_returns f s) := by
  unfold callback_returns
  refine pending_next_callback (s := { s with ipnumbertable := _ }) (f.i + 1) (h.answered f hf)
    (h.free ?_)
  intro j e he
  have hne : f.i ≠ j := by
    rintro rfl
    rw [getElem?_set_self'] at he
    simp at he
  rw [getElem?_set_ne hne] at he
  refine ⟨he, fun g hg => ?_⟩
  rw [hf] at hg
  cases hg
  exact hne

theorem Pending.answer (h : Pending s) (r : reply) :
    Pending { s with answers := s.answers ++ [r] } where
  names := h.names
  distinct := h.distinct
  apart := h.apart
  once := h.once
  known := h.known
  own c hc := by
    obtain ⟨r', hr', hown⟩ := h.own c hc
    exact ⟨r', mem_append_left _ hr', hown⟩
  answered f hf := mem_append_left _ (h.answered f hf)

theorem add_ip_entry_eq (addr : Nat) (name : List UInt8) (s : driver) :
    ∃ iptable ipcur, add_ip_entry addr name s = { s with iptable, ipcur } := by
  unfold add_ip_entry
  split_ifs
  · exact ⟨s.iptable, s.ipcur, rfl⟩
  · exact ⟨_, _, rfl⟩

theorem pending_add_ip_entry (h : Pending s) (addr : Nat) (name : List UInt8) :
    Pending (add_ip_entry addr name s) := by
  obtain ⟨iptable, ipcur, heq⟩ := add_ip_entry_eq addr name s
  rw [heq]
  exact ⟨h.names, h.distinct, h.apart, h.once, h.known, h.own, h.answered⟩

theorem pending_hname_handler (h : Pending s) (hwaits : s.waits = none) (hname_buf : List UInt8) :
    Pending (hname_handler inet_addr hname_buf s) := by
  have hread : Pending { s with
      read := s.read ++ hname_buf
      overrun := s.overrun || HNAME_BUF_SIZE ≤ hname_buf.length } :=
    ⟨h.names, h.distinct, h.apart, h.once, h.known, h.own, h.answered⟩
  unfold hname_handler
  dsimp only
  split
  · exact hread
  · rename_i r hr
    have hanswer := hread.answer r
    split
    · rename_i laddr hentry
      obtain ⟨iptable, ipcur, heq⟩ := add_ip_entry_eq laddr r.number { s with
        read := s.read ++ hname_buf
        overrun := s.overrun || HNAME_BUF_SIZE ≤ hname_buf.length
        answers := s.answers ++ [r] }
      have hadd := pending_add_ip_entry hanswer laddr r.number
      rw [heq] at hadd ⊢
      exact pending_got_addr_number (by simp) hwaits hadd
    · exact pending_got_addr_number (by simp) hwaits hanswer

theorem pending_query_addr_number (h : Pending s) (name call_back : List UInt8)
    (current_object : Nat) (w : written) :
    Pending (query_addr_number name call_back current_object w s) := by
  unfold query_addr_number
  split_ifs
  · exact h
  · cases w with
    | EBADF => exact ⟨h.names, h.distinct, h.apart, h.once, h.known, h.own, h.answered⟩
    | failed => exact h
    | sent =>
      dsimp only
      split_ifs
      · exact h
      · set i := s.ipnumbertable.findIdx isNone with hi
        set new : ipnumberentry_t := ⟨name, call_back, current_object, s.requests.length⟩ with hn
        have hentry : ∀ (j : Nat) e, (s.ipnumbertable.set i (some new))[j]? = some (some e) →
            (j = i ∧ e = new) ∨ (j ≠ i ∧ s.ipnumbertable[j]? = some (some e)) := by
          intro j e he
          by_cases hj : i = j
          · subst hj
            rw [getElem?_set_self'] at he
            obtain ⟨_, _, heq⟩ := map_eq_some_iff.mp he
            exact .inl ⟨rfl, (some.inj heq).symm⟩
          · rw [getElem?_set_ne hj] at he
            exact .inr ⟨fun heq => hj heq.symm, he⟩
        refine ⟨fun j e he => ?_, fun j k e e' he he' heq => ?_, fun j e he hj => ?_, h.once,
          fun c hc => ?_, fun c hc => ?_, h.answered⟩
        · rcases hentry j e he with ⟨-, rfl⟩ | ⟨-, hold⟩
          · simp [hn]
          · rw [getElem?_append_left (request_lt h hold)]
            exact h.names j e hold
        · rcases hentry j e he with ⟨rfl, rfl⟩ | ⟨-, hold⟩ <;>
            rcases hentry k e' he' with ⟨rfl, rfl⟩ | ⟨-, hold'⟩
          · rfl
          · have := request_lt h hold'
            rw [← heq, hn] at this
            exact absurd this (Nat.lt_irrefl _)
          · have := request_lt h hold
            rw [heq, hn] at this
            exact absurd this (Nat.lt_irrefl _)
          · exact h.distinct j k e e' hold hold' heq
        · rcases hentry j e he with ⟨-, rfl⟩ | ⟨-, hold⟩
          · intro hmem
            obtain ⟨c, hc, heq⟩ := mem_map.mp hmem
            have := h.known c hc
            rw [heq, hn] at this
            exact Nat.lt_irrefl _ this
          · exact h.apart j e hold hj
        · have := h.known c hc
          simp only [length_append, length_singleton]
          omega
        · obtain ⟨r, hr, k, e, hname, hreq, heq⟩ := h.own c hc
          refine ⟨r, hr, k, e, hname, ?_, heq⟩
          rwa [getElem?_append_left (List.getElem?_eq_some_iff.mp hreq).1]

theorem pending_step {a : action} (h : Pending s) (hs : step inet_addr s a = some s') :
    Pending s' := by
  cases a with
  | read hname_buf =>
    simp only [step] at hs
    split_ifs at hs with hok
    cases hs
    exact pending_hname_handler h (isNone_iff_eq_none.mp hok.1) hname_buf
  | close | destruct ob =>
    cases hs
    exact ⟨h.names, h.distinct, h.apart, h.once, h.known, h.own, h.answered⟩
  | query_addr_number name call_back current_object w =>
    cases hs
    exact pending_query_addr_number h name call_back current_object w
  | callback_returns =>
    simp only [step] at hs
    split at hs
    · cases hs
    · rename_i f hf
      cases hs
      exact pending_callback_returns hf h

theorem pending_start : Pending start where
  names j e he := by simp [start, getElem?_replicate] at he
  distinct j k e e' he := by simp [start, getElem?_replicate] at he
  apart j e he := by simp [start, getElem?_replicate] at he
  once := by simp [start]
  known := by simp [start]
  own := by simp [start]
  answered := by simp [start]

/-! ## The replies -/

/-- The read gives one whole reply, which leaves room for the zero. -/
def Whole : action → Prop
  | .read hname_buf =>
    newline ∉ hname_buf.dropLast ∧ hname_buf.dropLast ++ [newline] = hname_buf ∧
      hname_buf.length < HNAME_BUF_SIZE
  | _ => True

/-- What has come was processed by the reply, within the buffer. -/
structure Framed (inet_addr : List UInt8 → Option Nat) (s : driver) : Prop where
  inside : s.overrun = false
  whole : s.answers = (lines newline s.read).filterMap fun line =>
    parse_reply inet_addr (line ++ [newline])
  complete : rest newline s.read = []

theorem next_callback_frame (i : Nat) (r : reply) (s : driver) :
    (next_callback i r s).overrun = s.overrun ∧ (next_callback i r s).answers = s.answers ∧
      (next_callback i r s).read = s.read := by
  unfold next_callback
  dsimp only
  split <;> exact ⟨rfl, rfl, rfl⟩

theorem hname_handler_frame (inet_addr : List UInt8 → Option Nat) (hname_buf : List UInt8)
    (s : driver) :
    (hname_handler inet_addr hname_buf s).overrun =
        (s.overrun || decide (HNAME_BUF_SIZE ≤ hname_buf.length)) ∧
      (hname_handler inet_addr hname_buf s).answers =
        s.answers ++ (parse_reply inet_addr hname_buf).toList ∧
      (hname_handler inet_addr hname_buf s).read = s.read ++ hname_buf := by
  unfold hname_handler
  dsimp only
  rcases hparse : parse_reply inet_addr hname_buf with _ | r
  · simp
  · dsimp only
    rcases r.entry with _ | laddr
    · exact next_callback_frame _ _ _
    · obtain ⟨iptable, ipcur, heq⟩ := add_ip_entry_eq laddr r.number { s with
        read := s.read ++ hname_buf
        overrun := s.overrun || HNAME_BUF_SIZE ≤ hname_buf.length
        answers := s.answers ++ [r] }
      dsimp only
      rw [heq]
      exact next_callback_frame _ _ _

theorem Framed.congr (h : Framed inet_addr s) (hoverrun : s'.overrun = s.overrun)
    (hanswers : s'.answers = s.answers) (hread : s'.read = s.read) : Framed inet_addr s' := by
  refine ⟨hoverrun.trans h.inside, ?_, ?_⟩
  · rw [hanswers, hread]
    exact h.whole
  · rw [hread]
    exact h.complete

theorem framed_hname_handler (h : Framed inet_addr s) {hname_buf : List UInt8}
    (hwhole : Whole (.read hname_buf)) :
    Framed inet_addr (hname_handler inet_addr hname_buf s) := by
  obtain ⟨hnot, hlast, hroom⟩ := hwhole
  obtain ⟨hoverrun, hanswers, hread⟩ := hname_handler_frame inet_addr hname_buf s
  obtain ⟨hlines, hrest⟩ := lines_append_line h.complete hnot
  rw [hlast] at hlines hrest
  refine ⟨?_, ?_, ?_⟩
  · rw [hoverrun, h.inside]
    simp
    omega
  · rw [hanswers, hread, hlines, h.whole, filterMap_append]
    simp only [filterMap_cons, filterMap_nil, hlast]
    rcases parse_reply inet_addr hname_buf <;> rfl
  · rwa [hread]

theorem framed_step {a : action} (h : Framed inet_addr s) (hwhole : Whole a)
    (hs : step inet_addr s a = some s') : Framed inet_addr s' := by
  cases a with
  | read hname_buf =>
    simp only [step] at hs
    split_ifs at hs
    cases hs
    exact framed_hname_handler h hwhole
  | close | destruct ob =>
    cases hs
    exact h.congr rfl rfl rfl
  | query_addr_number name call_back current_object w =>
    cases hs
    unfold query_addr_number
    split_ifs
    · exact h
    · cases w with
      | EBADF => exact h.congr rfl rfl rfl
      | failed => exact h
      | sent =>
        dsimp only
        split_ifs
        · exact h
        · exact h.congr rfl rfl rfl
  | callback_returns =>
    simp only [step] at hs
    split at hs
    · cases hs
    · rename_i f hf
      cases hs
      obtain ⟨hoverrun, hanswers, hread⟩ := next_callback_frame (f.i + 1) f.r
        { s with ipnumbertable := s.ipnumbertable.set f.i none }
      exact h.congr hoverrun hanswers hread

/-- Nothing is stored past the end of the buffer, each reply that has come is processed
once, in order and whole, and a request is called back at most once, with an answer to its
name. -/
structure Answered (inet_addr : List UInt8 → Option Nat) (s : driver) : Prop where
  inside : s.overrun = false
  whole : s.answers = (lines newline s.read).filterMap fun line =>
    parse_reply inet_addr (line ++ [newline])
  once : (s.callbacks.map callback.request).Nodup
  own : ∀ c ∈ s.callbacks, Own s c

/-- As long as each read gives one whole reply that is shorter than the buffer, the replies
are answers. -/
theorem whole_replies_are_answered {s : driver}
    (h : Reachable start (step inet_addr) (fun _ a => Whole a) s) : Answered inet_addr s := by
  have hpending : Pending s := h.inv pending_start fun _ _ _ hs _ hstep => pending_step hs hstep
  have hframed : Framed inet_addr s :=
    h.inv ⟨rfl, rfl, rfl⟩ fun _ _ _ hs hwhole hstep => framed_step hs hwhole hstep
  exact ⟨hframed.inside, hframed.whole, hpending.once, hpending.own⟩

instance : (a : action) → Decidable (Whole a)
  | .read hname_buf =>
    inferInstanceAs (Decidable (newline ∉ hname_buf.dropLast ∧
      hname_buf.dropLast ++ [newline] = hname_buf ∧ hname_buf.length < HNAME_BUF_SIZE))
  | .close | .query_addr_number .. | .destruct _ | .callback_returns => isTrue trivial

def two_requests : List action :=
  [.query_addr_number [97] [] 1 .sent, .query_addr_number [97] [] 2 .sent,
    .read [97, 32, 49, 10], .callback_returns, .callback_returns]

theorem two_requests_are_answered : ∃ s, run (step fun _ => none) start two_requests = some s ∧
    s.callbacks = [⟨0, some [97], some [49], 1⟩, ⟨1, some [97], some [49], 2⟩] ∧
      Answered (fun _ => none) s := by
  refine (Reachable.of_computed ?_ ?_).imp fun s h =>
    ⟨h.1, h.2.1, whole_replies_are_answered h.2.2⟩ <;> decide +kernel

/-- The replies `a 1` and `b 2` come in one read. -/
theorem the_second_reply_is_lost : ¬ ∀ inet_addr s,
    Reachable start (step inet_addr) (fun _ _ => True) s → Answered inet_addr s := by
  intro hall
  have hrun : (run (step fun _ => none) start [.read [97, 32, 49, 10, 98, 32, 50, 10]]).map
      (fun s => (s.answers, s.read)) =
      some ([⟨[97], [49], none⟩], [97, 32, 49, 10, 98, 32, 50, 10]) := by decide +kernel
  obtain ⟨s, hs, hvalues⟩ := map_eq_some_iff.mp hrun
  obtain ⟨hanswers, hread⟩ := Prod.mk.inj hvalues
  have hreach := Reachable.of_any hs
  have hwhole := (hall _ s hreach).whole
  rw [hanswers, hread] at hwhole
  exact absurd hwhole (by decide)

end mudos.addr_server
