import WindCloud.Kernel
/-!
# Sending and receiving packets

| here | there |
| --- | --- |
| `sendN`, `recvN`           | `send_n`, `recv_n` (`protocol.c:232`, `:283`) |
| `sendPacket`, `recvPacket` | `send_packet`, `recv_packet` (`protocol.c:320`, `:370`) |

The socket is the process's connection, so no descriptor is passed. Each function has one
rule: whatever `write` and `recv` do, `sendPacket` has put the packet's wire bytes on the
connection or has failed inside them, and `recvPacket` has taken exactly one valid packet off
it or has failed with less than one.
-/

namespace WindCloud

open ByteOrder Interaction Prog

/-- The `int` most functions return: `0` or `-1`. -/
inductive Rc where
  | ok | fail
deriving DecidableEq, Repr

/-- `send_n`: write until everything is written. The state is `total`. -/
def sendN (buf : Bytes) : Io Rc :=
  .iter (fun total : Nat =>
    if total < buf.length then do
      match ← Sys.send (buf.drop total) with
      | .intr => return .inl total
      | .fail => return .inr .fail
      | .done 0 => return .inr .fail
      | .done sent => return .inl (total + sent)
    else return .inr .ok) 0

/-- `recv_n`: read until `len` bytes are there. The state is what has been read. -/
def recvN (wait : Wait) (len : Nat) : Io (Option Bytes) :=
  .iter (fun got : Bytes =>
    if got.length < len then do
      match ← Sys.recv wait (len - got.length) with
      | .intr => return .inl got
      | .fail => return .inr none
      | .done [] => return .inr none
      | .done bs => return .inl (got ++ bs)
    else return .inr (some got)) []

/-- `send_packet`. -/
def sendPacket (type : CmdType) (status : StatusCode) (payload : Option Bytes) (payloadLen : UInt32) :
    Io Rc := do
  let header := (TlvHeader.of type status payloadLen).hton host
  if payloadLen > maxPacketPayload then
    return .fail
  else
    match ← sendN (header.bytes host) with
    | .fail => return .fail
    | .ok =>
      match payload with
      | some p => if payloadLen > 0 then sendN (p.take payloadLen.toNat) else return .ok
      | none => return .ok

/-- `recv_packet`; the packet is what is left in `*packet`. -/
def recvPacket (wait : Wait) : Io (Rc × Packet) := do
  match ← recvN wait 20 with
  | none => return (.fail, .zero)
  | some wireHeader =>
    let header := (TlvHeader.load host wireHeader).ntoh host
    if header.magic ≠ tlvMagic ∨ header.version ≠ tlvVersion then
      return (.fail, ⟨header, none⟩)
    else if header.dataLen > maxPacketPayload then
      return (.fail, ⟨header, none⟩)
    else if header.dataLen = 0 then
      return (.ok, ⟨header, none⟩)
    else
      match ← Sys.calloc header.dataLen.toNat with
      | false => return (.fail, ⟨header, none⟩)
      | true =>
        match ← recvN wait header.dataLen.toNat with
        | none => return (.fail, .zero)
        | some payload => return (.ok, ⟨header, some payload⟩)

/-! ## The calls made -/

/-- What sending a packet does, and what receiving one does. -/
def Call.ToPeer : Call → Prop
  | .send _ => True
  | _ => False

def Call.FromPeer : Call → Prop
  | .recv .. | .calloc _ => True
  | _ => False

theorem sendN_calls (buf : Bytes) : every Call.ToPeer (sendN buf) fun _ => True := by
  refine every_iter (fun _ => True) trivial ?_
  intro total _
  split
  · apply every_perform trivial
    rintro (_ | _ | _ | m) <;> trivial
  · trivial

theorem recvN_calls (wait : Wait) (len : Nat) : every Call.FromPeer (recvN wait len) fun _ => True := by
  refine every_iter (fun _ => True) trivial ?_
  intro got _
  split
  · apply every_perform trivial
    rintro (_ | _ | _ | _) <;> trivial
  · trivial

theorem sendPacket_calls (type : CmdType) (status : StatusCode) (payload : Option Bytes) (len : UInt32) :
    every Call.ToPeer (sendPacket type status payload len) fun _ => True := by
  unfold sendPacket
  simp only
  split
  · trivial
  · refine every_bind (sendN_calls _) ?_
    intro rc _
    cases rc with
    | fail => trivial
    | ok =>
      cases payload with
      | none => trivial
      | some p =>
        simp only
        split
        · exact sendN_calls _
        · trivial

theorem recvPacket_calls (wait : Wait) : every Call.FromPeer (recvPacket wait) fun _ => True := by
  refine every_bind (recvN_calls _ _) ?_
  intro hd _
  cases hd with
  | none => trivial
  | some hd =>
    simp only
    split
    · trivial
    split
    · trivial
    split
    · trivial
    · refine every_perform trivial ?_
      intro ok
      cases ok with
      | false => trivial
      | true =>
        refine every_bind (recvN_calls _ _) ?_
        intro body _
        cases body <;> trivial

section Rules

variable {env : Env} {P : World → Call → Prop} {w : World}

/-! ## Sending -/

theorem wp_sendN {buf : Bytes} {Q : Rc → World → Prop}
    (check : ∀ fs pre rest, env.rely w.fs fs → pre ++ rest = buf → rest ≠ [] →
      P ⟨fs, w.proc.addSent pre⟩ (.send rest))
    (ok : ∀ fs, env.rely w.fs fs → Q .ok ⟨fs, w.proc.addSent buf⟩)
    (fail : ∀ fs pre rest, env.rely w.fs fs → pre ++ rest = buf → rest ≠ [] →
      env.faults (.send rest) → Q .fail ⟨fs, w.proc.addSent pre⟩) :
    wp (kernel env) P (sendN buf) Q w := by
  refine wp_loop (fun total v => total ≤ buf.length ∧
    ∃ fs, env.rely w.fs fs ∧ v = ⟨fs, w.proc.addSent (buf.take total)⟩)
    ⟨by omega, w.fs, env.refl _, by simp⟩ ?_
  rintro total _ ⟨hle, fs, hr, rfl⟩
  split
  · rename_i hlt
    have hrest : buf.drop total ≠ [] := by simpa using hlt
    have hcut : buf.take total ++ buf.drop total = buf := List.take_append_drop ..
    refine wp_send (check _ _ _ hr hcut hrest) ?_ ?_ ?_
    · intro fs' hr'
      exact ⟨hle, fs', env.trans hr hr', rfl⟩
    · intro fs' hr' hf
      exact fail _ _ _ (env.trans hr hr') hcut hrest hf
    · intro fs' m hr' hm h0
      cases m with
      | zero =>
        rw [List.take_zero, Proc.addSent_nil]
        exact fail _ _ _ (env.trans hr hr') hcut hrest (h0 rfl)
      | succ m =>
        rw [List.length_drop] at hm
        refine ⟨by omega, fs', env.trans hr hr', ?_⟩
        rw [Proc.addSent_addSent, ← List.take_add]
  · obtain rfl : total = buf.length := by omega
    simpa using ok fs hr

/-- The bytes that `sendPacket` writes when the buffer holds what its length says. -/
theorem wp_sendPacket {type : CmdType} {status : StatusCode} {payload : Option Bytes} {len : UInt32}
    {data : Bytes} {Q : Rc → World → Prop} (hp : payload.getD [] = data) (hlen : len = .ofNat data.length)
    (hmax : data.length ≤ maxPacketPayload.toNat)
    (check : ∀ fs pre rest, env.rely w.fs fs → pre ++ rest <+: (Packet.of type status data).wire →
      rest ≠ [] → P ⟨fs, w.proc.addSent pre⟩ (.send rest))
    (ok : ∀ fs, env.rely w.fs fs → Q .ok ⟨fs, w.proc.addSent (Packet.of type status data).wire⟩)
    (fail : ∀ fs pre rest, env.rely w.fs fs → pre ++ rest <+: (Packet.of type status data).wire →
      rest ≠ [] → env.faults (.send rest) → Q .fail ⟨fs, w.proc.addSent pre⟩) :
    wp (kernel env) P (sendPacket type status payload len) Q w := by
  have hw : (Packet.of type status data).wire = (TlvHeader.of type status len).wire ++ data := by
    simp [Packet.wire, hlen]
  have hnat : len.toNat = data.length := by rw [hlen, Packet.toNat_len hmax]
  have hle : ¬ len > maxPacketPayload := by
    rw [gt_iff_lt, UInt32.lt_iff_toNat_lt]
    omega
  rw [hw] at check ok fail
  simp only [sendPacket, if_neg hle, TlvHeader.bytes_hton]
  refine wp_bind.2 (wp_sendN ?_ ?_ ?_)
  · intro fs pre rest hr hcut hne
    exact check fs pre rest hr (hcut ▸ List.prefix_append _ _) hne
  · intro fs hr
    rcases payload with _ | p
    · obtain rfl : data = [] := by simpa using hp.symm
      simpa using ok fs hr
    · obtain rfl : p = data := by simpa using hp
      have htake : p.take len.toNat = p := by rw [hnat, List.take_length]
      simp only [htake]
      split
      · refine wp_sendN ?_ ?_ ?_
        · intro fs' pre rest hr' hcut hne
          rw [Proc.addSent_addSent]
          exact check fs' _ _ (env.trans hr hr') (by simp [hcut]) hne
        · intro fs' hr'
          simpa using ok fs' (env.trans hr hr')
        · intro fs' pre rest hr' hcut hne hf
          rw [Proc.addSent_addSent]
          exact fail fs' _ _ (env.trans hr hr') (by simp [hcut]) hne hf
      · rename_i h0
        have : p = [] := by
          rw [gt_iff_lt, UInt32.lt_iff_toNat_lt, hnat] at h0
          exact List.length_eq_zero_iff.1 (by simpa using h0)
        subst this
        simpa using ok fs hr
  · intro fs pre rest hr hcut hne hf
    exact fail fs pre rest hr (hcut ▸ List.prefix_append _ _) hne hf

/-- A payload over the limit is refused before anything is written. -/
theorem sendPacket_of_gt {type : CmdType} {status : StatusCode} {payload : Option Bytes} {len : UInt32}
    (h : len > maxPacketPayload) : sendPacket type status payload len = .ret .fail := by
  simp [sendPacket, h]

/-! ## Receiving -/

theorem wp_recvN {wait : Wait} {len : Nat} {Q : Option Bytes → World → Prop}
    (check : ∀ fs bs, env.rely w.fs fs → bs.length < len →
      P ⟨fs, w.proc.addRcvd bs⟩ (.recv wait (len - bs.length)))
    (ok : ∀ fs bs, env.rely w.fs fs → bs.length = len → Q (some bs) ⟨fs, w.proc.addRcvd bs⟩)
    (fail : ∀ fs bs, env.rely w.fs fs → bs.length < len → env.faults (.recv wait (len - bs.length)) →
      Q none ⟨fs, w.proc.addRcvd bs⟩) :
    wp (kernel env) P (recvN wait len) Q w := by
  refine wp_loop (fun got v => got.length ≤ len ∧
    ∃ fs, env.rely w.fs fs ∧ v = ⟨fs, w.proc.addRcvd got⟩)
    ⟨by simp, w.fs, env.refl _, by simp⟩ ?_
  rintro got _ ⟨hle, fs, hr, rfl⟩
  split
  · rename_i hlt
    refine wp_recv (check _ _ hr hlt) ?_ ?_ ?_
    · intro fs' hr'
      exact ⟨hle, fs', env.trans hr hr', rfl⟩
    · intro fs' hr' hf
      exact fail _ _ (env.trans hr hr') hlt hf
    · intro fs' bs hr' hbs h0
      cases bs with
      | nil =>
        rw [Proc.addRcvd_nil]
        exact fail _ _ (env.trans hr hr') hlt (h0 rfl)
      | cons b bs =>
        refine ⟨?_, fs', env.trans hr hr', by simp⟩
        rw [List.length_append]
        omega
  · exact ok fs got hr (by omega)

/-- After the bytes `bs` of a packet `recvPacket` asks for `n` more. -/
def Wanting (bs : Bytes) (n : Nat) : Prop :=
  0 < n ∧ (bs.length + n = 20 ∨ ∃ hd body, bs = hd ++ body ∧ hd.length = 20 ∧
    (TlvHeader.ofWire hd).Ok ∧ body.length + n = (TlvHeader.ofWire hd).dataLen.toNat)

/-- Why `recvPacket` failed after the bytes `bs`. -/
def Broken (env : Env) (wait : Wait) (bs : Bytes) : Prop :=
  (∃ n, env.faults (.recv wait n)) ∨ (∃ n, env.faults (.calloc n)) ∨
    bs.length = 20 ∧ ¬ (TlvHeader.ofWire bs).Ok

/-- No valid packet starts `bs`. -/
abbrev Partial (bs : Bytes) : Prop := Incomplete Packet.wire Packet.Valid bs

theorem partial_of_lt {bs : Bytes} (h : bs.length < 20) : Partial bs := fun p _ hp => by
  have := hp.length_le
  rw [Packet.wire_length] at this
  omega

theorem partial_of_header {hd body : Bytes} (hl : hd.length = 20)
    (h : (TlvHeader.ofWire hd).Ok → body.length < (TlvHeader.ofWire hd).dataLen.toNat) :
    Partial (hd ++ body) := fun p hv hp => by
  obtain ⟨z, hz⟩ := hp
  rw [Packet.wire, List.append_assoc] at hz
  obtain ⟨rfl, hb⟩ := List.append_inj hz (by simp [hl])
  rw [TlvHeader.ofWire_wire] at h
  have hlt := h hv.header
  rw [← hb, List.length_append, hv.length] at hlt
  omega

theorem Wanting.short {bs : Bytes} {n : Nat} (h : Wanting bs n) : Partial bs := by
  obtain ⟨hn, h | ⟨hd, body, rfl, hl, -, h⟩⟩ := h
  · exact partial_of_lt (by omega)
  · exact partial_of_header hl fun _ => by omega

theorem wp_recvPacket {wait : Wait} {Q : Rc × Packet → World → Prop}
    (check : ∀ fs bs n, env.rely w.fs fs → Wanting bs n → P ⟨fs, w.proc.addRcvd bs⟩ (.recv wait n))
    (alloc : ∀ fs bs n, env.rely w.fs fs → Wanting bs n → P ⟨fs, w.proc.addRcvd bs⟩ (.calloc n))
    (ok : ∀ fs p, env.rely w.fs fs → Packet.Valid p → Q (.ok, p) ⟨fs, w.proc.addRcvd p.wire⟩)
    (fail : ∀ fs bs p, env.rely w.fs fs → Partial bs → Broken env wait bs → p.payload = none →
      Q (.fail, p) ⟨fs, w.proc.addRcvd bs⟩) :
    wp (kernel env) P (recvPacket wait) Q w := by
  refine wp_bind.2 (wp_recvN ?_ ?_ ?_)
  · intro fs bs hr hlt
    exact check fs bs _ hr ⟨by omega, .inl (by omega)⟩
  · intro fs hd hr hl
    simp only [TlvHeader.ntoh_load host hl]
    generalize hh : TlvHeader.ofWire hd = header
    have bad (hbad : ¬ header.Ok) : Q (.fail, ⟨header, none⟩) ⟨fs, w.proc.addRcvd hd⟩ := by
      refine fail fs hd _ hr ?_ (.inr (.inr ⟨hl, hh ▸ hbad⟩)) rfl
      rw [← List.append_nil hd]
      exact partial_of_header hl fun h => absurd (hh ▸ h) hbad
    split
    · rename_i h
      exact bad fun hok => h.elim (· hok.1) (· hok.2.1)
    split
    · rename_i h
      exact bad fun hok => absurd hok.2.2 (UInt32.not_le.2 h)
    rename_i hmv hlen
    rw [not_or, not_not, not_not] at hmv
    have hok : header.Ok := ⟨hmv.1, hmv.2, UInt32.not_lt.1 hlen⟩
    have hwire : header.wire = hd := by rw [← hh, TlvHeader.wire_ofWire hl]
    split
    · rename_i h0
      have := ok fs ⟨header, none⟩ hr ⟨hok, by simp [Packet.data, h0], by simp [h0]⟩
      simpa [Packet.wire, Packet.data, hwire] using this
    · rename_i h0
      have hpos : 0 < header.dataLen.toNat := by
        rw [Nat.pos_iff_ne_zero, ne_eq, ← UInt32.toNat_zero, UInt32.toNat_inj]
        exact h0
      have hwant (body : Bytes) (hb : body.length < header.dataLen.toNat) :
          Wanting (hd ++ body) (header.dataLen.toNat - body.length) :=
        ⟨by omega, .inr ⟨hd, body, rfl, hl, hh ▸ hok, by rw [hh]; omega⟩⟩
      have hw0 := hwant [] hpos
      rw [List.append_nil] at hw0
      refine wp_calloc (alloc fs hd _ hr hw0) ?_ ?_
      · intro fs' hr' hf
        exact fail fs' hd _ (env.trans hr hr') hw0.short (.inr (.inl ⟨_, hf⟩)) rfl
      · intro fs' hr'
        refine wp_bind.2 (wp_recvN ?_ ?_ ?_)
        · intro fs'' body hr'' hlt
          simpa using check fs'' _ _ (env.trans (env.trans hr hr') hr'') (hwant body hlt)
        · intro fs'' body hr'' hbl
          have := ok fs'' ⟨header, some body⟩ (env.trans (env.trans hr hr') hr'')
            ⟨hok, hbl, by simp [h0]⟩
          simpa [Packet.wire, Packet.data, hwire] using this
        · intro fs'' body hr'' hlt hf
          simpa using fail fs'' (hd ++ body) .zero (env.trans (env.trans hr hr') hr'')
            (hwant body hlt).short (.inl ⟨_, hf⟩) rfl
  · intro fs bs hr hlt hf
    exact fail fs bs _ hr (partial_of_lt hlt) (.inl ⟨_, hf⟩) rfl

end Rules
end WindCloud
