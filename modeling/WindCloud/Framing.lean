import WindCloud.PacketIo
/-!
# Framing: a list of packets arrives as the list it was

A sender calls `send_packet` for each message of a list, a receiver calls `recv_packet` as
often; they run in any interleaving, each with its own splitting of the stream, and each is
interrupted at most a given number of times. The pair never gets stuck and never runs for
ever, and where it stops the receiver holds exactly the messages (`framing`).

The safety half is each side's precondition read against the other's: what the receiver has
read is `wires` of what it has delivered, and is a prefix of what the sender wrote. The other
half is a measure: an answer either moves bytes or uses up an interruption.
-/

namespace WindCloud

open ByteOrder Interaction Prog

/-- What `send_packet` is called with; the payload fits. -/
structure Message where
  type : CmdType
  status : StatusCode
  payload : Bytes
  le : payload.length ≤ maxPacketPayload.toNat

/-- The packet as it should arrive. -/
def Message.packet (m : Message) : Packet := .of m.type m.status m.payload

theorem Message.packet_valid (m : Message) : m.packet.Valid := Packet.of_valid _ _ m.le

/-- `send_packet` for each message, until one fails. -/
def sendAll : List Message → Io Rc
  | [] => return .ok
  | m :: ms => do
    match ← sendPacket m.type m.status (some m.payload) (.ofNat m.payload.length) with
    | .fail => return .fail
    | .ok => sendAll ms

/-- `recv_packet` `n` times, until one fails. -/
def recvAll (wait : Wait) : Nat → Io (Option (List Packet))
  | 0 => return some []
  | n + 1 => do
    match ← recvPacket wait with
    | (.fail, _) => return none
    | (.ok, p) =>
      match ← recvAll wait n with
      | none => return none
      | some ps => return some (p :: ps)

/-- An interrupted call. -/
def Interrupted : (c : Call) → Res c → Prop
  | .recv .., .intr => True
  | .send .., .intr => True
  | _, _ => False

/-- Nothing fails. -/
def Env.Sound (env : Env) : Prop := ∀ c, ¬ env.faults c

/-! ## What each side does -/

section Safety

variable {env : Env} {w : World}

/-- The sender only writes, writes nothing but the packets, and succeeds. -/
theorem wp_sendAll (hs : env.Sound) (ms : List Message) :
    wp (kernel env)
      (fun v c => ∃ b, c = .send b ∧ b ≠ [] ∧ v.proc.sent ++ b <+: w.proc.sent ++ Packet.wires (ms.map (·.packet)))
      (sendAll ms) (fun rc v => rc = .ok ∧ v.proc.sent = w.proc.sent ++ Packet.wires (ms.map (·.packet))) w := by
  induction ms generalizing w with
  | nil => exact ⟨rfl, by simp⟩
  | cons m ms ih =>
    have hwires : Packet.wires ((m :: ms).map (·.packet)) = m.packet.wire ++ Packet.wires (ms.map (·.packet)) := rfl
    refine wp_bind.2 (wp_sendPacket rfl rfl m.le ?_ ?_ ?_)
    · rintro fs pre rest - hpre hne
      refine ⟨rest, rfl, hne, ?_⟩
      rw [hwires, Proc.addSent_sent, List.append_assoc]
      exact (List.prefix_append_right_inj _).2 (hpre.trans (List.prefix_append _ _))
    · intro fs _
      refine wp_weaken (wp_mono (ih (w := ⟨fs, w.proc.addSent m.packet.wire⟩)) ?_) (fun _ _ _ _ h => h) ?_
      · simp
      · simp
    · intro _ _ rest _ _ _ hf
      exact absurd hf (hs _)

/-- The receiver reads packet by packet: at each call it wants no more than the rest of the
packet it is in, and what it has delivered is what it has read. -/
theorem wp_recvAll (hs : env.Sound) (wait : Wait) (n : Nat) :
    wp (kernel env)
      (fun v c => (∃ m, c = .calloc m) ∨ ∃ m ps bs, c = .recv wait m ∧ ps.length < n ∧
        (∀ p ∈ ps, Packet.Valid p) ∧ Wanting bs m ∧ v.proc.rcvd = w.proc.rcvd ++ Packet.wires ps ++ bs)
      (recvAll wait n)
      (fun r v => match r with
        | some ps => ps.length = n ∧ (∀ p ∈ ps, Packet.Valid p) ∧ v.proc.rcvd = w.proc.rcvd ++ Packet.wires ps
        | none => ∃ ps bs, ps.length < n ∧ (∀ p ∈ ps, Packet.Valid p) ∧ bs.length = 20 ∧
            ¬ (TlvHeader.ofWire bs).Ok ∧ v.proc.rcvd = w.proc.rcvd ++ Packet.wires ps ++ bs) w := by
  induction n generalizing w with
  | zero => simp [recvAll]
  | succ n ih =>
    refine wp_bind.2 (wp_recvPacket ?_ ?_ ?_ ?_)
    · intro fs bs m _ hw
      exact .inr ⟨m, [], bs, rfl, by simp, by simp, hw, by simp⟩
    · intro fs bs m _ _
      exact .inl ⟨m, rfl⟩
    · intro fs p _ hp
      refine wp_bind.2 (wp_weaken (wp_mono (ih (w := ⟨fs, w.proc.addRcvd p.wire⟩)) ?_) (fun _ _ _ _ h => h) ?_)
      · rintro (_ | ps) v h
        · obtain ⟨ps, bs, hlen, hv, hbs⟩ := h
          exact ⟨p :: ps, bs, by simpa using hlen, by simpa using ⟨hp, hv⟩, by simpa using hbs⟩
        · obtain ⟨hlen, hv, hr⟩ := h
          exact ⟨by simpa using hlen, by simpa using ⟨hp, hv⟩, by simpa using hr⟩
      · rintro v c (h | ⟨m, ps, bs, rfl, hlen, hv, hw, hr⟩)
        · exact .inl h
        · exact .inr ⟨m, p :: ps, bs, rfl, by simpa using hlen, by simpa using ⟨hp, hv⟩, hw, by simpa using hr⟩
    · intro fs bs p _ _ hbroken _
      rcases hbroken with ⟨m, hf⟩ | ⟨m, hf⟩ | ⟨hl, hbad⟩
      · exact absurd hf (hs _)
      · exact absurd hf (hs _)
      · exact ⟨[], bs, by simp, by simp, hl, hbad, by simp⟩

end Safety

/-! ## Both sides end

With a bound on the interruptions each round of `send_n` and `recv_n` makes the bytes left or
the interruptions left fewer. -/

section Termination

variable {env : Env} {α β : Type}

/-- Every run ends, from any state and with any number of interruptions to come. -/
def Halts (env : Env) (p : Io α) : Prop :=
  ∀ v, twp ((kernel env).budget Interrupted) p (fun _ _ => True) v

theorem Halts.bind {p : Io α} {f : α → Io β} (hp : Halts env p) (hf : ∀ a, Halts env (f a)) :
    Halts env (p >>= f) := fun v => twp_bind.2 (twp_mono (hp v) fun a v' _ => hf a v')

theorem Halts.ret (a : α) : Halts env (.ret a : Io α) := fun _ => trivial

theorem sendN_halts (hs : env.Sound) (buf : Bytes) : Halts env (sendN buf) := by
  intro v
  refine twp_loop (fun _ _ => True) (fun total v => (buf.length - total) + v.2) trivial ?_
  rintro total v -
  split
  · rename_i hlt
    have hlen := List.length_drop (i := total) (l := buf)
    refine ⟨⟨.done (buf.drop total).length, (⟨v.1.fs, v.1.proc.addSent ((buf.drop total).take _)⟩, v.2),
      ⟨v.1.fs, env.refl _, _, ⟨le_refl _, fun h => by omega, rfl⟩, rfl⟩, False.elim, fun _ => rfl⟩, ?_⟩
    rintro r v' ⟨⟨fs, -, u, he, -⟩, hb, hb'⟩
    rcases r with _ | _ | m
    · exact ⟨trivial, by have := hb trivial; omega⟩
    · exact absurd he.1 (hs _)
    · cases m with
      | zero => exact absurd (he.2.1 rfl) (hs _)
      | succ m => exact ⟨trivial, by have := hb' id; have := he.1; omega⟩
  · trivial

theorem recvN_halts (hs : env.Sound) (wait : Wait) (len : Nat) : Halts env (recvN wait len) := by
  intro v
  refine twp_loop (fun _ _ => True) (fun got v => (len - got.length) + v.2) trivial ?_
  rintro got v -
  split
  · rename_i hlt
    refine ⟨⟨.done [0], (⟨v.1.fs, v.1.proc.addRcvd [0]⟩, v.2),
      ⟨v.1.fs, env.refl _, _, ⟨by simp; omega, fun h => by simp at h, rfl⟩, rfl⟩, False.elim, fun _ => rfl⟩, ?_⟩
    rintro r v' ⟨⟨fs, -, u, he, -⟩, hb, hb'⟩
    rcases r with _ | _ | bs
    · exact ⟨trivial, by have := hb trivial; omega⟩
    · exact absurd he.1 (hs _)
    · cases bs with
      | nil => exact absurd (he.2.1 rfl) (hs _)
      | cons b bs =>
        refine ⟨trivial, ?_⟩
        have := hb' id
        simp only [List.length_append, List.length_cons]
        omega
  · trivial

theorem sendPacket_halts (hs : env.Sound) (type : CmdType) (status : StatusCode) (payload : Option Bytes)
    (len : UInt32) : Halts env (sendPacket type status payload len) := by
  unfold sendPacket
  simp only
  split
  · exact .ret _
  · refine (sendN_halts hs _).bind ?_
    intro rc
    cases rc with
    | fail => exact .ret _
    | ok =>
      cases payload with
      | none => exact .ret _
      | some p =>
        simp only
        split
        · exact sendN_halts hs _
        · exact .ret _

theorem recvPacket_halts (hs : env.Sound) (wait : Wait) : Halts env (recvPacket wait) := by
  refine (recvN_halts hs _ _).bind ?_
  intro hd
  cases hd with
  | none => exact .ret _
  | some hd =>
    simp only
    split
    · exact .ret _
    split
    · exact .ret _
    split
    · exact .ret _
    · refine fun v => ⟨⟨true, v, ⟨v.1.fs, env.refl _, _, ⟨by simp, rfl⟩, rfl⟩, False.elim, fun _ => rfl⟩, ?_⟩
      rintro (_ | _) v' -
      · trivial
      · refine (recvN_halts hs _ _).bind (fun body => ?_) v'
        cases body <;> exact .ret _

theorem sendAll_halts (hs : env.Sound) (ms : List Message) : Halts env (sendAll ms) := by
  induction ms with
  | nil => exact .ret _
  | cons m ms ih =>
    refine (sendPacket_halts hs _ _ _ _).bind ?_
    intro rc
    cases rc with
    | fail => exact .ret _
    | ok => exact ih

theorem recvAll_halts (hs : env.Sound) (wait : Wait) (n : Nat) : Halts env (recvAll wait n) := by
  induction n with
  | zero => exact .ret _
  | succ n ih =>
    refine (recvPacket_halts hs _).bind ?_
    rintro ⟨_ | _, p⟩
    · refine ih.bind ?_
      intro ps
      cases ps <;> exact .ret _
    · exact .ret _

end Termination

/-! ## The pair -/

section Pair

/-- A process on a connection that never fails and is interrupted a bounded number of times. -/
abbrev soundSide : Side Call Res (World × Nat) UInt8 := (side (.quiet fun _ => False)).budget Interrupted

theorem quiet_sound : (Env.quiet fun _ => False).Sound := fun _ => id

/-- The sender with `i` and the receiver with `j` interruptions to come, on a fresh connection. -/
def framingStart (wait : Wait) (ms : List Message) (fs fs' : FS) (i j : Nat) :
    (Io Rc × World × Nat) × (Io (Option (List Packet)) × World × Nat) :=
  ((sendAll ms, ⟨fs, .init⟩, i), (recvAll wait ms.length, ⟨fs', .init⟩, j))

variable {wait : Wait} {ms : List Message} {fs fs' : FS} {i j : Nat}
  {c : Io Rc × World × Nat} {d : Io (Option (List Packet)) × World × Nat}

/-- What has been read so far, against what there is to read. -/
theorem received_prefix {ps : List Packet} {bs : Bytes} (hv : ∀ p ∈ ps, Packet.Valid p)
    (h : Packet.wires ps ++ bs <+: Packet.wires (ms.map (·.packet))) :
    ∃ rest, ms.map (·.packet) = ps ++ rest ∧ bs <+: Packet.wires rest := by
  refine Packet.wire_code.all_prefix hv (fun p hp => ?_) h
  obtain ⟨m, -, rfl⟩ := List.mem_map.1 hp
  exact m.packet_valid

/-- What a reachable pair looks like from each side. -/
structure FramingState (wait : Wait) (ms : List Message) (c : Io Rc × World × Nat)
    (d : Io (Option (List Packet)) × World × Nat) : Prop where
  sender : wp (kernel (.quiet fun _ => False))
    (fun v c => ∃ b, c = .send b ∧ b ≠ [] ∧ v.proc.sent ++ b <+: Packet.wires (ms.map (·.packet)))
    c.1 (fun rc v => rc = .ok ∧ v.proc.sent = Packet.wires (ms.map (·.packet))) c.2.1
  sent : c.2.1.proc.sent <+: Packet.wires (ms.map (·.packet))
  receiver : wp (kernel (.quiet fun _ => False))
    (fun v c => (∃ m, c = .calloc m) ∨ ∃ m ps bs, c = .recv wait m ∧ ps.length < ms.length ∧
      (∀ p ∈ ps, Packet.Valid p) ∧ Wanting bs m ∧ v.proc.rcvd = Packet.wires ps ++ bs)
    d.1 (fun r v => match r with
      | some ps => ps.length = ms.length ∧ (∀ p ∈ ps, Packet.Valid p) ∧ v.proc.rcvd = Packet.wires ps
      | none => ∃ ps bs, ps.length < ms.length ∧ (∀ p ∈ ps, Packet.Valid p) ∧ bs.length = 20 ∧
          ¬ (TlvHeader.ofWire bs).Ok ∧ v.proc.rcvd = Packet.wires ps ++ bs) d.2.1
  causal : d.2.1.proc.rcvd <+: c.2.1.proc.sent
  back : c.2.1.proc.rcvd <+: d.2.1.proc.sent

theorem framing_state (h : DuplexSteps soundSide soundSide (framingStart wait ms fs fs' i j) (c, d)) :
    FramingState wait ms c d := by
  obtain ⟨hl, hr, hc⟩ := Duplex.reach h ⟨List.prefix_refl _, List.prefix_refl _⟩
  have hl := steps_of_budget hl
  have hr := steps_of_budget hr
  have hsend := wp_sendAll quiet_sound ms (w := ⟨fs, .init⟩)
  have hrecv := wp_recvAll quiet_sound wait ms.length (w := ⟨fs', .init⟩)
  refine ⟨wp_steps hsend hl, ?_, wp_steps hrecv hr, hc.2, hc.1⟩
  refine wp_always (I := fun v => v.proc.sent <+: Packet.wires (ms.map (·.packet)))
    (wp_weaken hsend (fun _ _ _ _ h => h) ?_) List.nil_prefix hl
  rintro v _ ⟨b, rfl, -, hb⟩ r v' ⟨_, -, u, he, rfl⟩
  have hv := (List.prefix_append v.proc.sent b).trans hb
  rcases r with _ | _ | m
  · exact he ▸ hv
  · exact he.2 ▸ hv
  · obtain ⟨-, -, rfl⟩ := he
    exact ((List.prefix_append_right_inj _).2 (List.take_prefix m b)).trans hb

namespace FramingState

/-- The receiver's position in the list, when it waits for `m` more bytes of a packet. -/
theorem position (h : FramingState wait ms c d) {ps : List Packet} {bs : Bytes} {m : Nat}
    (hlt : ps.length < ms.length) (hv : ∀ p ∈ ps, Packet.Valid p) (hw : Wanting bs m)
    (hr : d.2.1.proc.rcvd = Packet.wires ps ++ bs) :
    ∃ q qs, ms.map (·.packet) = ps ++ q :: qs ∧ bs.length + m ≤ q.wire.length := by
  have hpre := h.causal.trans h.sent
  rw [hr] at hpre
  obtain ⟨rest, hrest, hbs⟩ := received_prefix hv hpre
  have hvalid : ∀ p ∈ rest, Packet.Valid p := fun p hp => by
    obtain ⟨m, -, rfl⟩ := List.mem_map.1 (hrest ▸ List.mem_append_right ps hp)
    exact m.packet_valid
  cases rest with
  | nil =>
    have := congrArg List.length hrest
    simp at this
    omega
  | cons q qs =>
    refine ⟨q, qs, hrest, ?_⟩
    rw [Packet.wire_length]
    obtain ⟨-, hw | ⟨hd, body, rfl, hl, -, hw⟩⟩ := hw
    · omega
    · rw [List.forall_mem_cons] at hvalid
      have hq : hd = q.header.wire := by
        rw [Packet.wires_cons, Packet.wire, List.append_assoc] at hbs
        have h1 := (List.prefix_append hd body).trans hbs
        exact (List.prefix_of_prefix_length_le h1 (List.prefix_append _ _) (by simp [hl])).eq_of_length
          (by simp [hl])
      rw [hq, TlvHeader.ofWire_wire, ← hvalid.1.length] at hw
      rw [List.length_append, hl]
      omega

/-- The sender can go on until it returns. -/
theorem sender_steps (h : FramingState wait ms c d) :
    (∃ rc, c.1 = .ret rc) ∨ ∃ x, DuplexStep soundSide soundSide (c, d) x := by
  obtain ⟨p, v, n⟩ := c
  cases p with
  | ret rc => exact .inl ⟨rc, rfl⟩
  | loop body s k => exact .inr ⟨_, .left .loop⟩
  | call e k =>
    obtain ⟨b, rfl, hb, -⟩ := h.sender.1
    have hlen := List.length_pos_of_ne_nil hb
    refine .inr ⟨_, .left (.call (r := .done 1) (v := (⟨v.fs, v.proc.addSent (b.take 1)⟩, n)) ?_)⟩
    refine ⟨⟨⟨_, rfl, _, ⟨by omega, by simp, rfl⟩, rfl⟩, False.elim, fun _ => rfl⟩, ?_⟩
    exact h.back

/-- When the sender is done the receiver can go on until it returns. -/
theorem receiver_steps (h : FramingState wait ms c d) {rc : Rc} (hc : c.1 = .ret rc) :
    (∃ r, d.1 = .ret r) ∨ ∃ x, DuplexStep soundSide soundSide (c, d) x := by
  have hsender := h.sender
  rw [hc] at hsender
  obtain ⟨p, v, n⟩ := d
  cases p with
  | ret r => exact .inl ⟨r, rfl⟩
  | loop body s k => exact .inr ⟨_, .right .loop⟩
  | call e k =>
    obtain ⟨m, rfl⟩ | ⟨m, ps, bs, rfl, hlt, hv, hw, hr⟩ := h.receiver.1
    · refine .inr ⟨_, .right (.call (r := true) (v := (v, n)) ?_)⟩
      exact ⟨⟨⟨_, rfl, _, ⟨by simp, rfl⟩, rfl⟩, False.elim, fun _ => rfl⟩, h.causal⟩
    · -- the stream is not used up: else `ps` would be the whole list
      obtain ⟨t, ht⟩ := h.causal.trans h.sent
      have ht : v.proc.rcvd ++ t = Packet.wires (ms.map (·.packet)) := ht
      cases t with
      | nil =>
        rw [List.append_nil, hr] at ht
        have hall := Packet.wire_code.all_eq hv (fun p hp => by
          obtain ⟨m, -, rfl⟩ := List.mem_map.1 hp
          exact m.packet_valid) hw.short ht
        rw [hall.1, List.length_map] at hlt
        omega
      | cons b t =>
        have hw0 := hw.1
        refine .inr ⟨_, .right (.call (r := .done [b]) (v := (⟨v.fs, v.proc.addRcvd [b]⟩, n)) ?_)⟩
        refine ⟨⟨⟨_, rfl, _, ⟨by simp; omega, by simp, rfl⟩, rfl⟩, False.elim, fun _ => rfl⟩, ?_⟩
        show v.proc.rcvd ++ [b] <+: c.2.1.proc.sent
        rw [hsender.2, ← ht]
        exact ⟨t, by simp⟩

/-- A receiver that has returned holds the messages. -/
theorem result (h : FramingState wait ms c d) {r : Option (List Packet)} (hd : d.1 = .ret r) :
    r = some (ms.map (·.packet)) ∧ d.2.1.proc.rcvd = Packet.wires (ms.map (·.packet)) := by
  have hrecv := h.receiver
  rw [hd] at hrecv
  have hpre := h.causal.trans h.sent
  cases r with
  | none =>
    obtain ⟨ps, bs, -, hv, hl, hbad, hr⟩ := hrecv
    rw [hr] at hpre
    obtain ⟨rest, hrest, hbs⟩ := received_prefix hv hpre
    refine absurd (header_ok (fun p hp => ?_) hl hbs) hbad
    obtain ⟨m, -, rfl⟩ := List.mem_map.1 (hrest ▸ List.mem_append_right ps hp)
    exact m.packet_valid
  | some ps =>
    obtain ⟨hlen, hv, hr⟩ := hrecv
    rw [hr, ← List.append_nil (Packet.wires ps)] at hpre
    obtain ⟨rest, hrest, -⟩ := received_prefix hv hpre
    have hnil : rest = [] := by
      have := congrArg List.length hrest
      simp only [List.length_map, List.length_append] at this
      exact List.length_eq_zero_iff.1 (by omega)
    rw [hnil, List.append_nil] at hrest
    exact ⟨by rw [hrest], by rw [hr, hrest]⟩

end FramingState

/-- **Framing round trip.** For every list of messages, in every interleaving of a sender and a
receiver whose calls split the stream anywhere and are interrupted finitely often:
the pair ends; until it has, a step is possible; a sender that has returned succeeded; a
receiver that has returned holds the list, and has read the stream to its end; and a `recv` never
asks for more than is left of the packet it is in. A payload over the limit is refused with
nothing written. -/
theorem framing (wait : Wait) (ms : List Message) (fs fs' : FS) (i j : Nat) :
    Acc (fun y x => DuplexStep soundSide soundSide x y) (framingStart wait ms fs fs' i j) ∧
    (∀ c d, DuplexSteps soundSide soundSide (framingStart wait ms fs fs' i j) (c, d) →
      ((∃ rc, c.1 = .ret rc) ∧ (∃ r, d.1 = .ret r) ∨ ∃ x, DuplexStep soundSide soundSide (c, d) x) ∧
      (∀ rc, c.1 = .ret rc → rc = .ok ∧ c.2.1.proc.sent = Packet.wires (ms.map (·.packet))) ∧
      (∀ r, d.1 = .ret r → r = some (ms.map (·.packet)) ∧
        d.2.1.proc.rcvd = Packet.wires (ms.map (·.packet))) ∧
      (∀ n k, d.1 = .call (.recv wait n) k → ∃ ps q qs bs, ms.map (·.packet) = ps ++ q :: qs ∧
        d.2.1.proc.rcvd = Packet.wires ps ++ bs ∧ bs.length + n ≤ q.wire.length)) ∧
    (∀ (env : Env) type status payload len w c, len > maxPacketPayload →
      Steps (kernel env) (sendPacket type status payload len, w) c → c = (.ret .fail, w)) := by
  refine ⟨?_, ?_, ?_⟩
  · exact Duplex.acc (twp_acc (sendAll_halts quiet_sound ms _)) (twp_acc (recvAll_halts quiet_sound wait _ _))
  · intro c d h
    have hst := framing_state h
    refine ⟨?_, ?_, fun r hd => hst.result hd, ?_⟩
    · rcases hst.sender_steps with ⟨rc, hc⟩ | hstep
      · rcases hst.receiver_steps hc with hd | hstep
        · exact .inl ⟨⟨rc, hc⟩, hd⟩
        · exact .inr hstep
      · exact .inr hstep
    · intro rc hc
      have := hst.sender
      rwa [hc] at this
    · intro n k hd
      have hrecv := hst.receiver
      rw [hd] at hrecv
      obtain ⟨m, hm⟩ | ⟨m, ps, bs, hm, hlt, hv, hw, hr⟩ := hrecv.1
      · cases hm
      · cases hm
        obtain ⟨q, qs, hq, hle⟩ := hst.position hlt hv hw hr
        exact ⟨ps, q, qs, bs, hq, hr, hle⟩
  · intro env type status payload len w c hlen hsteps
    rw [sendPacket_of_gt hlen] at hsteps
    cases Relation.ReflTransGen.cases_head hsteps with
    | inl h => exact h.symm
    | inr h =>
      obtain ⟨_, hs, -⟩ := h
      cases hs

end Pair
end WindCloud
