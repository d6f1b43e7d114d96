-- The bytes that were sent and the ones in the ring are the messages, with
-- each newline as CR LF. A message is whole but for its end, when it had no
-- room after a flush or the connection broke.
import MudOS.OutputBuffer

open mudos.runs mudos.rings Option List

namespace mudos.comm_output

variable {ip ip' : interactive_t} {net : List send_t}
variable {rest : List send_t} {s : output}

/-! ## The ring -/

def interactive_t.ring (ip : interactive_t) : RingBuffer UInt8 where
  cells := ip.message_buf
  producer := ip.message_producer
  consumer := ip.message_consumer
  length := ip.message_length

abbrev Sound (ip : interactive_t) : Prop := ip.ring.Good MESSAGE_BUF_SIZE

def stream (ip : interactive_t) : List UInt8 := ip.sent ++ ip.ring.contents MESSAGE_BUF_SIZE

def Dead (ip : interactive_t) : Prop := ip.NET_DEAD = true ∨ ip.CLOSING = true

theorem sound_put (h : Sound ip) (hlt : ip.message_length < MESSAGE_BUF_SIZE) (c : UInt8) :
    Sound (put c ip) ∧ stream (put c ip) = stream ip ++ [c] := by
  have hp := contents_push h hlt c
  refine ⟨h.push hlt c, ?_⟩
  unfold stream
  rw [append_assoc]
  exact congrArg (ip.sent ++ ·) hp

theorem send_length_fits (h : Sound ip) (hne : ip.message_length ≠ 0) :
    0 < send_length ip ∧ send_length ip ≤ ip.message_length ∧
      ip.message_consumer + send_length ip ≤ MESSAGE_BUF_SIZE := by
  obtain ⟨hc, hl, hp⟩ := h
  simp only [interactive_t.ring] at hc hl hp
  unfold send_length
  rcases Nat.lt_or_ge (ip.message_consumer + ip.message_length) MESSAGE_BUF_SIZE with hlt | hge
  · rw [Nat.mod_eq_of_lt hlt] at hp
    rw [if_pos (by omega)]
    omega
  · have hwrap : ip.message_producer =
        ip.message_consumer + ip.message_length - MESSAGE_BUF_SIZE := by
      rw [hp, Nat.mod_eq_sub_mod hge, Nat.mod_eq_of_lt (by omega)]
    rw [if_neg (by omega)]
    omega

theorem sound_sent_bytes (h : Sound ip) (hne : ip.message_length ≠ 0) {n : Nat}
    (hn : n ≤ send_length ip) : Sound (sent_bytes n ip) ∧ stream (sent_bytes n ip) = stream ip := by
  obtain ⟨-, hl, hc⟩ := send_length_fits h hne
  have hnl : n ≤ ip.ring.length := hn.trans hl
  refine ⟨h.drop hnl, ?_⟩
  have htake := contents_take (n := MESSAGE_BUF_SIZE) hnl
    (show ip.ring.consumer + n ≤ MESSAGE_BUF_SIZE by simp only [interactive_t.ring]; omega)
  have hdrop := contents_drop (n := MESSAGE_BUF_SIZE) ip.ring n
  calc stream (sent_bytes n ip)
      = ip.sent ++ (range n).map (fun i => ip.message_buf (ip.message_consumer + i)) ++
          (ip.ring.drop MESSAGE_BUF_SIZE n).contents MESSAGE_BUF_SIZE := rfl
    _ = ip.sent ++ ((ip.ring.contents MESSAGE_BUF_SIZE).take n ++
          (ip.ring.contents MESSAGE_BUF_SIZE).drop n) := by
        rw [htake, hdrop, append_assoc]
        rfl
    _ = stream ip := by
        rw [take_append_drop]
        rfl

/-! ## The flush -/

theorem flush_loop_stream {ret : Bool} (hf : flush_loop ip net = some (ret, ip', rest))
    (h : Sound ip) :
    Sound ip' ∧ stream ip' = stream ip ∧ ip'.message_length ≤ ip.message_length ∧
      (ret = false → Dead ip') ∧ (Dead ip → Dead ip') := by
  induction net generalizing ip with
  | nil =>
    rw [flush_loop] at hf
    split_ifs at hf
    cases hf
    exact ⟨h, rfl, le_refl _, by simp, id⟩
  | cons r net ih =>
    unfold flush_loop at hf
    split_ifs at hf with hzero
    · cases hf
      exact ⟨h, rfl, le_refl _, by simp, id⟩
    · cases r with
      | num_bytes n =>
        obtain ⟨hs, hstream⟩ := sound_sent_bytes h hzero (Nat.min_le_right n (send_length ip))
        obtain ⟨h1, h2, h3, h4, h5⟩ := ih hf hs
        refine ⟨h1, h2.trans hstream, h3.trans ?_, h4, h5⟩
        simp only [sent_bytes]
        omega
      | EWOULDBLOCK | EINTR =>
        cases hf
        exact ⟨h, rfl, le_refl _, by simp, id⟩
      | error =>
        cases hf
        exact ⟨h, rfl, le_refl _, fun _ => .inl rfl, fun _ => .inl rfl⟩

theorem flush_message_stream {ret : Bool} (hf : flush_message ip net = some (ret, ip', rest))
    (h : Sound ip) :
    Sound ip' ∧ stream ip' = stream ip ∧ ip'.message_length ≤ ip.message_length ∧
      (ret = false → Dead ip') ∧ (Dead ip → Dead ip') := by
  unfold flush_message at hf
  split_ifs at hf with hclosing
  · cases hf
    exact ⟨h, rfl, le_refl _, fun _ => .inr hclosing, id⟩
  · exact flush_loop_stream hf h

/-! ## The loop over a message -/

def expand (data : List UInt8) : List UInt8 :=
  data.flatMap fun c => if c = newline then [carriage_return, newline] else [c]

theorem make_room_stream {limit : Nat} {e : Option ending}
    (hf : make_room limit ip net = some (e, ip', rest)) (h : Sound ip) :
    Sound ip' ∧ stream ip' = stream ip ∧ ip'.message_length ≤ ip.message_length ∧
      (Dead ip → Dead ip') ∧ (e = none → ip'.message_length ≠ limit) ∧ e ≠ some .done ∧
      (e = some .broken → Dead ip') ∧ (e = some .full → ip'.message_length = limit) := by
  unfold make_room at hf
  split_ifs at hf with hlimit
  · obtain ⟨⟨ret, ip₁, net₁⟩, hflush, hr⟩ := map_eq_some_iff.mp hf
    obtain ⟨h1, h2, h3, h4, h5⟩ := flush_message_stream hflush h
    dsimp only at hr
    split_ifs at hr with hret hfull <;> cases hr
    · exact ⟨h1, h2, h3, h5, by simp, by simp, fun _ => h4 (by simpa using hret), by simp⟩
    · exact ⟨h1, h2, h3, h5, by simp, by simp, by simp, fun _ => hfull⟩
    · exact ⟨h1, h2, h3, h5, fun _ => hfull, by simp, by simp, by simp⟩
  · cases hf
    exact ⟨h, rfl, le_refl _, id, fun _ => hlimit, by simp, by simp, by simp⟩

def NoRoom (message_length : Nat) (rest : List UInt8) : Prop :=
  ∃ c cp, rest = c :: cp ∧ MESSAGE_BUF_SIZE < message_length + (expand [c]).length

theorem expand_cons (c : UInt8) (data : List UInt8) :
    expand (c :: data) = expand [c] ++ expand data := by simp [expand]

theorem add_loop_stream {data rest : List UInt8} {net' : List send_t} {e : ending}
    (hf : add_loop ip net data = some (e, rest, ip', net')) (h : Sound ip) :
    Sound ip' ∧ (Dead ip → Dead ip') ∧
      ∃ taken, data = taken ++ rest ∧ stream ip' = stream ip ++ expand taken ∧
        (e = .done → rest = []) ∧ (e = .broken → Dead ip') ∧
        (e = .full → NoRoom ip'.message_length rest) := by
  induction data generalizing ip net with
  | nil =>
    rw [add_loop] at hf
    cases hf
    exact ⟨h, id, [], rfl, by simp [expand], by simp, by simp, by simp⟩
  | cons c cp ih =>
    rw [add_loop] at hf
    rcases hr₁ : make_room MESSAGE_BUF_SIZE ip net with _ | ⟨e₁, ip₁, net₁⟩
    · simp [hr₁, reduceCtorEq] at hf
    obtain ⟨h1, hs1, hl1, hd1, hn1, hne1, hb1, hf1⟩ := make_room_stream hr₁ h
    rcases e₁ with _ | e₁
    · have hlt : ip₁.message_length < MESSAGE_BUF_SIZE := by
        have hle := h1.length
        have hne := hn1 rfl
        simp only [interactive_t.ring] at hle
        omega
      simp only [hr₁] at hf
      split_ifs at hf with hc
      · rcases hr₂ : make_room (MESSAGE_BUF_SIZE - 1) ip₁ net₁ with _ | ⟨e₂, ip₂, net₂⟩
        · simp only [hr₂, reduceCtorEq] at hf
        obtain ⟨h2, hs2, hl2, hd2, hn2, hne2, hb2, hf2⟩ := make_room_stream hr₂ h1
        rcases e₂ with _ | e₂
        · -- the two bytes of a newline fit
          have hne := hn2 rfl
          obtain ⟨h3, hs3⟩ := sound_put h2 (by omega) carriage_return
          obtain ⟨h4, hs4⟩ := sound_put h3 (by simp only [put]; omega) c
          simp only [hr₂] at hf
          obtain ⟨h5, hd5, taken, hdata, hs5, hends⟩ := ih hf h4
          refine ⟨h5, fun hd => hd5 (hd2 (hd1 hd)), c :: taken, by rw [hdata, cons_append],
            ?_, hends⟩
          rw [hs5, hs4, hs3, hs2, hs1, expand_cons, hc]
          simp [expand]
        · simp only [hr₂, some.injEq, Prod.mk.injEq] at hf
          obtain ⟨rfl, rfl, rfl, rfl⟩ := hf
          refine ⟨h2, fun hd => hd2 (hd1 hd), [], rfl, by simp [expand, hs2, hs1], ?_, ?_, ?_⟩
          · rintro rfl
            exact absurd rfl hne2
          · rintro rfl
            exact hb2 rfl
          · rintro rfl
            refine ⟨c, cp, rfl, ?_⟩
            rw [hf2 rfl]
            simp [expand, hc]
      · obtain ⟨h2, hs2⟩ := sound_put h1 hlt c
        obtain ⟨h3, hd3, taken, hdata, hs3, hends⟩ := ih hf h2
        refine ⟨h3, fun hd => hd3 (hd1 hd), c :: taken, by rw [hdata, cons_append], ?_, hends⟩
        rw [hs3, hs2, hs1, expand_cons]
        simp [expand, hc]
    · simp only [hr₁, some.injEq, Prod.mk.injEq] at hf
      obtain ⟨rfl, rfl, rfl, rfl⟩ := hf
      refine ⟨h1, hd1, [], rfl, by simp [expand, hs1], ?_, ?_, ?_⟩
      · rintro rfl
        exact absurd rfl hne1
      · rintro rfl
        exact hb1 rfl
      · rintro rfl
        refine ⟨c, cp, rfl, ?_⟩
        rw [hf1 rfl]
        by_cases hc : c = newline <;> simp [expand, hc]

/-! ## Runs -/

/-- A message is whole, or cut to the prefix `t`, and then the connection broke, or there
was no room after a flush. -/
structure Cut (ip : interactive_t) (t : List UInt8) (e : entry) : Prop where
  data : e.data = t ++ e.rest
  done : e.ending = .done → e.rest = []
  broken : e.ending = .broken → Dead ip
  full : e.ending = .full → NoRoom e.message_length e.rest

structure Faithful (s : output) : Prop where
  sound : Sound s.ip
  stream : ∃ taken : List (List UInt8), taken.length = s.log.length ∧
    stream s.ip = (taken.map expand).flatten ∧
    ∀ (k : Nat) t e, taken[k]? = some t → s.log[k]? = some e → Cut s.ip t e

theorem faithful_start (message_buf : Nat → UInt8) : Faithful (start message_buf) where
  sound := ⟨by simp [start, interactive_t.ring], by simp [start, interactive_t.ring],
    by simp [start, interactive_t.ring]⟩
  stream := ⟨[], rfl, rfl, by simp⟩

theorem Cut.mono {t : List UInt8} {e : entry} (h : Cut ip t e) (hd : Dead ip → Dead ip') :
    Cut ip' t e :=
  ⟨h.data, h.done, fun hb => hd (h.broken hb), h.full⟩

theorem Faithful.same (h : Faithful s) (hs : Sound ip)
    (heq : comm_output.stream ip = comm_output.stream s.ip) (hd : Dead s.ip → Dead ip) :
    Faithful { s with ip := ip } := by
  obtain ⟨taken, hlen, hstream, hall⟩ := h.stream
  exact ⟨hs, taken, hlen, heq.trans hstream, fun k t e ht he => (hall k t e ht he).mono hd⟩

theorem Faithful.add (h : Faithful s) {data rest : List UInt8} {net' : List send_t} {e : ending}
    (hf : add_loop s.ip net data = some (e, rest, ip, net')) :
    Faithful ⟨ip, s.log ++ [⟨data, rest, e, ip.message_length⟩]⟩ := by
  obtain ⟨hs, hdead, t, hdata, hstream, hdone, hbroken, hfull⟩ := add_loop_stream hf h.sound
  obtain ⟨taken, hlen, hold, hall⟩ := h.stream
  refine ⟨hs, taken ++ [t], by simp [hlen], ?_, ?_⟩
  · rw [hstream, hold]
    simp
  · intro k t' e' ht he
    rcases Nat.lt_or_ge k taken.length with hk | hk
    · rw [getElem?_append_left hk] at ht
      rw [getElem?_append_left (hlen ▸ hk)] at he
      exact (hall k t' e' ht he).mono hdead
    · rw [getElem?_append_right hk, getElem?_singleton] at ht
      rw [getElem?_append_right (hlen ▸ hk), getElem?_singleton] at he
      split_ifs at ht
      split_ifs at he
      cases ht
      cases he
      exact ⟨hdata, hdone, hbroken, hfull⟩

theorem faithful_step {s' : output} {a : action} (h : Faithful s) (hstep : step s a = some s') :
    Faithful s' := by
  cases a with
  | add_message data caught net =>
    simp only [step, add_message] at hstep
    split_ifs at hstep
    · cases hstep
      exact h
    · obtain ⟨⟨e, rest, ip, net'⟩, hloop, rfl⟩ := map_eq_some_iff.mp hstep
      exact h.add hloop
  | add_vmessage data caught net =>
    simp only [step, add_vmessage] at hstep
    split_ifs at hstep
    · cases hstep
      exact h
    · rcases hloop : add_loop s.ip net data with _ | ⟨e, rest, ip, net'⟩
      · simp [hloop, reduceCtorEq] at hstep
      · have hadd := h.add hloop
        simp only [hloop] at hstep
        split_ifs at hstep
        · cases hstep
          exact hadd
        · obtain ⟨⟨ret, ip', net''⟩, hflush, rfl⟩ := map_eq_some_iff.mp hstep
          obtain ⟨h1, h2, -, -, h5⟩ := flush_message_stream hflush hadd.sound
          exact hadd.same h1 h2 h5
        · cases hstep
          exact hadd
  | flush_message net =>
    obtain ⟨⟨ret, ip, net'⟩, hflush, rfl⟩ := map_eq_some_iff.mp hstep
    obtain ⟨h1, h2, -, -, h5⟩ := flush_message_stream hflush h.sound
    exact h.same h1 h2 h5
  | net_dead =>
    cases hstep
    exact h.same h.sound rfl fun _ => .inl rfl
  | closing =>
    cases hstep
    exact h.same h.sound rfl fun _ => .inr rfl

end mudos.comm_output
