import WindCloud.Server
/-!
# Following the two streams of the server

An exchange is what passes for one command; the server's last packet in it is an `ACK`, an
`ERROR` or a `FILE_END`. `Follows` says of a call that after it the streams are still those of
the exchange (`M`), and that the last packet is not out before it.
-/

namespace WindCloud

open Interaction Prog

/-- The server sends nothing after it in an exchange. -/
def Packet.Final (p : Packet) : Prop := p.Is .ack ∨ p.Is .error ∨ p.Is .fileEnd

@[simp] theorem Packet.of_final {type : CmdType} {status : StatusCode} {data : Bytes} :
    (Packet.of type status data).Final ↔ type = .ack ∨ type = .error ∨ type = .fileEnd := by
  simp [Packet.Final]

namespace Server

/-- `s` ends with the last packet of an exchange. -/
def Ended (s : Bytes) : Prop := ∃ ps q, s = Packet.wires (ps ++ [q]) ∧ (∀ p ∈ ps ++ [q], Packet.Valid p) ∧ q.Final

theorem not_ended_nil : ¬ Ended [] := by
  rintro ⟨ps, q, h, -⟩
  simp [q.wire_ne_nil] at h

/-- The last packet is the last to be sent. -/
theorem not_ended (ps : List Packet) {e : Packet} {s rest : Bytes} (h : s ++ rest <+: Packet.wires (ps ++ [e]))
    (hne : rest ≠ []) (hv : ∀ p ∈ ps ++ [e], Packet.Valid p) (hps : ∀ p ∈ ps, ¬ p.Final) : ¬ Ended s := by
  rintro ⟨qs, q, rfl, hqs, hq⟩
  obtain ⟨cs, hcs, hrest⟩ := Packet.wire_code.all_prefix hqs hv h
  -- `q` is not among `ps`, so it is `e`, and nothing is left
  have hlast : cs = [] := by
    by_contra hc
    obtain ⟨ds, d, rfl⟩ := List.eq_nil_or_concat cs |>.resolve_left hc
    rw [List.concat_eq_append, ← List.append_assoc] at hcs
    have hmem : q ∈ ps := by
      rw [(List.append_inj' hcs rfl).1]
      simp
    exact hps q hmem hq
  subst hlast
  exact hne (List.prefix_nil.1 hrest)

theorem not_ended_wires (ps : List Packet) {s : Bytes} (h : s <+: Packet.wires ps) (hv : ∀ p ∈ ps, Packet.Valid p)
    (hps : ∀ p ∈ ps, ¬ p.Final) : ¬ Ended s := by
  rintro ⟨qs, q, rfl, hqs, hq⟩
  rw [← List.append_nil (Packet.wires _)] at h
  obtain ⟨cs, rfl, -⟩ := Packet.wire_code.all_prefix hqs hv h
  exact hps q (by simp) hq

/-- The streams after the call, and before it. -/
structure Follows (env : Env) (b : Proc) (M : Bytes → Bytes → Prop) (v : World) (c : Call) : Prop where
  after : ∀ x v', kernel env v c x v' → ∃ r s, b.Since r s v'.proc ∧ M r s
  going : ∃ r s, b.Since r s v.proc ∧ ¬ Ended s

/-- How a handler returns: with a path that still fits, and if it goes on it has served its command. -/
structure Finishes (b : Proc) (session : Session) (W : Bytes → Bytes → Prop) (x : Rc × Session) (v : World) :
    Prop where
  short : session.currentPath.length < pathMax → x.2.currentPath.length < pathMax
  served : x.1 = .ok → x.2.shouldClose = false → ∃ r s, b.Since r s v.proc ∧ W r s

theorem Finishes.mono {b : Proc} {session : Session} {W W' : Bytes → Bytes → Prop} {x : Rc × Session} {v : World}
    (h : Finishes b session W x v) (hW : ∀ r s, W r s → W' r s) : Finishes b session W' x v where
  short := h.short
  served hok hopen := by
    obtain ⟨r, s, hs, hw⟩ := h.served hok hopen
    exact ⟨r, s, hs, hW r s hw⟩

theorem Finishes.failed {b : Proc} {session session' : Session} {W : Bytes → Bytes → Prop} {v : World}
    (h : session'.currentPath = session.currentPath) : Finishes b session W (.fail, session') v where
  short := by simp [h]
  served := by simp

theorem Follows.mono {env : Env} {b : Proc} {M M' : Bytes → Bytes → Prop} {v : World} {c : Call}
    (h : Follows env b M v c) (hM : ∀ r s, M r s → M' r s) : Follows env b M' v c where
  after x v' hk := by
    obtain ⟨r, s, hs, hm⟩ := h.after x v' hk
    exact ⟨r, s, hs, hM r s hm⟩
  going := h.going

section Rules

variable {env : Env} {b : Proc} {M : Bytes → Bytes → Prop} {v w : World} {c : Call} {r s rest : Bytes}
  {session : Session} {ps : List Packet}

theorem Follows.idle (h : b.Since r s v.proc) (hM : M r s) (hs : ¬ Ended s) (hc : c.sends = some [])
    (hr : ∀ wait n, c ≠ .recv wait n) : Follows env b M v c where
  after x v' hk := by
    obtain ⟨s', h', hpre⟩ := h.wrote hk hc hr
    obtain rfl := List.prefix_nil.1 hpre
    exact ⟨r, s, by simpa using h', hM⟩
  going := ⟨r, s, h, hs⟩

theorem Follows.send (h : b.Since r s v.proc) (hM : ∀ s', s' <+: rest → M r (s ++ s')) (hs : ¬ Ended s) :
    Follows env b M v (.send rest) where
  after x v' hk := by
    obtain ⟨s', h', hpre⟩ := h.wrote hk rfl (by simp)
    exact ⟨r, _, h', hM s' hpre⟩
  going := ⟨r, s, h, hs⟩

theorem Follows.recv {wait : Wait} {n : Nat} (h : b.Since r s v.proc) (hM : ∀ r', M (r ++ r') s) (hs : ¬ Ended s) :
    Follows env b M v (.recv wait n) where
  after x v' hk := by
    obtain ⟨r', s', h', hpre⟩ := h.step hk rfl
    obtain rfl := List.prefix_nil.1 hpre
    exact ⟨_, s, by simpa using h', hM r'⟩
  going := ⟨r, s, h, hs⟩

theorem Follows.sendfile {fd n : Nat} {off : Int} {f : OpenFile} (h : b.Since r s v.proc)
    (hfd : v.proc.fds fd = some f) (hM : ∀ fs d, env.rely v.fs fs → d.length ≤ n →
      (∀ b, fs.Has f.path b → d <+: b.drop off.toNat) → M r (s ++ d)) (hs : ¬ Ended s) :
    Follows env b M v (.sendfile fd off n) where
  after x v' hk := by
    obtain ⟨fs, hr, u, he, rfl⟩ := hk
    have h0 : M r s := by simpa using hM fs [] hr (by simp) (by simp)
    rcases x with _ | _ | m
    · obtain rfl := he
      exact ⟨r, s, h.note, h0⟩
    · obtain ⟨-, rfl⟩ := he
      exact ⟨r, s, h.note, h0⟩
    · obtain ⟨f', d, hf', -, -, rfl, hn, hd, rfl⟩ := he
      obtain rfl : f = f' := Option.some.inj (hfd.symm.trans hf')
      exact ⟨r, s ++ d, h.addSent.note, hM fs d hr hn fun b hb => (hd b hb).1⟩
  going := ⟨r, s, h, hs⟩

theorem since_addPacket {p : Proc} (h : b.Since r (Packet.wires ps) p) (e : Packet) :
    b.Since r (Packet.wires (ps ++ [e])) (p.addSent e.wire) := by
  have h' : b.Since r _ (p.addSent e.wire) := h.addSent
  simpa using h'

/-- A packet that follows `ps`. -/
theorem wp_followPacket {type : CmdType} {status : StatusCode} {payload : Option Bytes} {len : UInt32}
    (data : Bytes) {Q : Rc → World → Prop} (hs : b.Since r (Packet.wires ps) w.proc)
    (hv : ∀ p ∈ ps, Packet.Valid p) (hps : ∀ p ∈ ps, ¬ p.Final) (hp : payload.getD [] = data)
    (hlen : len = .ofNat data.length) (hmax : data.length ≤ maxPacketPayload.toNat)
    (hM : ∀ s', s' <+: Packet.wires (ps ++ [.of type status data]) → M r s')
    (ok : ∀ fs, env.rely w.fs fs → Q .ok ⟨fs, w.proc.addSent (Packet.of type status data).wire⟩)
    (fail : ∀ fs pre rest, env.rely w.fs fs → pre ++ rest <+: (Packet.of type status data).wire →
      env.faults (.send rest) → Q .fail ⟨fs, w.proc.addSent pre⟩) :
    wp (kernel env) (Follows env b M) (sendPacket type status payload len) Q w := by
  have hv' : ∀ p ∈ ps ++ [Packet.of type status data], Packet.Valid p :=
    forall_mem_snoc hv (Packet.of_valid _ _ hmax)
  refine wp_sendPacket hp hlen hmax ?_ ok fun fs pre rest hr hpre _ hf => fail fs pre rest hr hpre hf
  intro fs pre rest _ hpre hne
  have hall : Packet.wires ps ++ (pre ++ rest) <+: Packet.wires (ps ++ [.of type status data]) := by
    rw [Packet.wires_append]
    exact (List.prefix_append_right_inj _).2 (by simpa using hpre)
  refine .send hs.addSent (fun s' hs' => hM _ (.trans ?_ hall)) (not_ended ps ?_ hne hv' hps)
  · rw [List.append_assoc, List.prefix_append_right_inj, List.prefix_append_right_inj]
    exact hs'
  · rwa [List.append_assoc]

/-- The last reply. -/
theorem wp_followReply {type : CmdType} {status : StatusCode} {msg : Bytes} {Q : Rc × Session → World → Prop}
    (hs : b.Since r (Packet.wires ps) w.proc) (hv : ∀ p ∈ ps, Packet.Valid p) (hps : ∀ p ∈ ps, ¬ p.Final)
    (hlen : msg.length < maxPacketPayload.toNat)
    (hM : ∀ s', s' <+: Packet.wires (ps ++ [textPacket type status msg]) → M r s')
    (ok : ∀ fs, env.rely w.fs fs → Q (.ok, session) ⟨fs, w.proc.addSent (textPacket type status msg).wire⟩)
    (fail : ∀ fs pre rest, env.rely w.fs fs → pre ++ rest <+: (textPacket type status msg).wire →
      env.faults (.send rest) → Q (.fail, session) ⟨fs, w.proc.addSent pre⟩) :
    wp (kernel env) (Follows env b M) (reply session type status msg) Q w := by
  have hmax : (msg ++ [0]).length ≤ maxPacketPayload.toNat := by rw [List.length_append]; exact hlen
  rw [reply, sendTextReply_some]
  exact wp_bind.2 (wp_followPacket _ hs hv hps rfl rfl hmax hM ok fail)

/-- A reply that ends the command. -/
theorem wp_lastReply {type : CmdType} {status : StatusCode} {msg : Bytes} {W : Bytes → Bytes → Prop}
    (hs : b.Since r (Packet.wires ps) w.proc) (hv : ∀ p ∈ ps, Packet.Valid p) (hps : ∀ p ∈ ps, ¬ p.Final)
    (hlen : msg.length < maxPacketPayload.toNat)
    (hM : ∀ s', s' <+: Packet.wires (ps ++ [textPacket type status msg]) → M r s')
    (hW : W r (Packet.wires (ps ++ [textPacket type status msg]))) :
    wp (kernel env) (Follows env b M) (reply session type status msg) (Finishes b session W) w := by
  refine wp_followReply hs hv hps hlen hM ?_ fun _ _ _ _ _ _ => .failed rfl
  intro fs _
  exact ⟨id, fun _ _ => ⟨r, _, since_addPacket hs _, hW⟩⟩

/-- A follow-up packet. -/
theorem wp_followRecv {Q : Rc × Session × Packet → World → Prop} (hs : b.Since r s w.proc)
    (hM : ∀ r', M (r ++ r') s) (hend : ¬ Ended s)
    (ok : ∀ fs p, env.rely w.fs fs → Packet.Valid p → Q (.ok, session, p) ⟨fs, w.proc.addRcvd p.wire⟩)
    (fail : ∀ fs bs p, env.rely w.fs fs → Q (.fail, session.closing, p) ⟨fs, w.proc.addRcvd bs⟩) :
    wp (kernel env) (Follows env b M) (recvFollowPacket session) Q w := by
  refine wp_recvFollowPacket ?_ ?_ ok fun fs bs p hr _ _ => fail fs bs p hr
  · intro fs bs n _ _
    exact .recv hs.addRcvd (fun r' => by rw [List.append_assoc]; exact hM _) hend
  · intro fs bs n _ _
    exact .idle hs.addRcvd (hM bs) hend rfl (by simp)

/-- The streams at any moment of a run. -/
theorem Follows.steps {α : Type} {p q : Io α} {Q : α → World → Prop} {w' : World}
    (h : wp (kernel env) (Follows env b M) p Q w) (h0 : ∃ r s, b.Since r s w.proc ∧ M r s)
    (hrun : Steps (kernel env) (p, w) (q, w')) : ∃ r s, b.Since r s w'.proc ∧ M r s :=
  wp_always (I := fun v => ∃ r s, b.Since r s v.proc ∧ M r s)
    (wp_weaken h (fun _ _ _ _ hs => hs) fun _ _ hf => hf.after) h0 hrun

/-- While a packet comes in nothing is sent. -/
theorem recvPacket_sends {wait : Wait} {q : Io (Rc × Packet)} {w' : World}
    (hrun : Steps (kernel env) (recvPacket wait, w) (q, w')) : ∃ r, w.proc.Since r [] w'.proc := by
  refine wp_always (Q := fun _ _ => True) (I := fun v => ∃ r, w.proc.Since r [] v.proc) ?_ ⟨[], .refl _⟩ hrun
  have hquiet {v : World} {c : Call} {bs : Bytes} (hs : w.proc.Since bs [] v.proc) (hc : c.sends = some []) :
      ∀ x v', kernel env v c x v' → ∃ r, w.proc.Since r [] v'.proc := by
    intro x v' hk
    obtain ⟨r', s', hs', hpre⟩ := hs.step hk hc
    obtain rfl := List.prefix_nil.1 hpre
    exact ⟨_, hs'⟩
  refine wp_recvPacket ?_ ?_ (fun _ _ _ _ => trivial) fun _ _ _ _ _ _ _ => trivial
  · intro fs bs n _ _
    exact hquiet (Proc.Since.refl _).addRcvd rfl
  · intro fs bs n _ _
    exact hquiet (Proc.Since.refl _).addRcvd rfl

/-- A round has sent nothing yet, or has received its request and is serving it. -/
theorem round_cases {w' : World} {q : Io (Session ⊕ Rc)} (hopen : session.shouldClose = false)
    (hrun : Steps (kernel env) (handleRequestRound session, w) (q, w')) :
    (∃ r, w.proc.Since r [] w'.proc) ∨ ∃ fs p q', env.rely w.fs fs ∧ Packet.Valid p ∧
      Steps (kernel env) (dispatchCommand session p, ⟨fs, w.proc.addRcvd p.wire⟩) (q', w') := by
  rw [handleRequestRound_of_open hopen] at hrun
  rcases steps_bind_cases hrun with ⟨p', -, hrecv⟩ | ⟨⟨rc, p⟩, v, hrecv, hrest⟩
  · exact .inl (recvPacket_sends hrecv)
  · have hwp : wp (kernel env) (fun _ _ => True) (recvPacket .request) (fun x v => x.1 = .ok →
        ∃ fs, env.rely w.fs fs ∧ x.2.Valid ∧ v = ⟨fs, w.proc.addRcvd x.2.wire⟩) w :=
      wp_recvPacket (fun _ _ _ _ _ => trivial) (fun _ _ _ _ _ => trivial) (fun fs p hr hp _ => ⟨fs, hr, hp, rfl⟩)
        fun _ _ _ _ _ _ _ h => by simp at h
    cases rc with
    | fail =>
      obtain rfl : v = w' := (congrArg Prod.snd (steps_ret hrest)).symm
      exact .inl (recvPacket_sends hrecv)
    | ok =>
      obtain ⟨fs, hr, hp, rfl⟩ := wp_result hwp hrecv rfl
      refine .inr ?_
      rcases steps_bind_cases hrest with ⟨q', -, hserve⟩ | ⟨x, v, hserve, hafter⟩
      · exact ⟨fs, p, q', hr, hp, hserve⟩
      · obtain rfl : v = w' := by
          unfold afterCommand at hafter
          split at hafter <;> exact (congrArg Prod.snd (steps_ret hafter)).symm
        exact ⟨fs, p, _, hr, hp, hserve⟩

end Rules
end Server
end WindCloud
