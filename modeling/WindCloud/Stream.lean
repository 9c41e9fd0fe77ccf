import WindCloud.Framing
/-!
# A byte stream that ends

`streamed env avail` is a process to which the bytes `avail` come, cut up in any way, and then
nothing: only when it has read them all does `recv` fail or say that the stream has ended. What
`recv_packet` returns is then a function of the bytes (`recvPacket_exact`): they start with a
packet (`Framed`), which is returned and is all that is read, or it fails.

| here | there |
| --- | --- |
| `Packet.encode`    | the header and the payload as `send_packet` writes them (`protocol.c:321-355`), any `cmd_type` |
| `Framed`           | the checks of `recv_packet` (`protocol.c:403-415`) and its two `recv_n` |
-/

namespace WindCloud

open ByteOrder Interaction Prog

/-- `recv` fails, or says that the stream has ended. -/
def Dry : (c : Call) → Res c → Prop
  | .recv .., .fail | .recv .., .done [] => True
  | _, _ => False

/-- `recv` may fail. -/
def Env.ending (env : Env) : Env := { env with faults := fun c => env.faults c ∨ ∃ wait n, c = .recv wait n }

/-- `recv` does not fail. -/
def Env.unbroken (env : Env) : Env := { env with faults := fun c => env.faults c ∧ ∀ wait n, c ≠ .recv wait n }

/-- A process to which `avail` comes, and then nothing. -/
def streamed (env : Env) (avail : Bytes) : Sem Call Res World := fun w c r w' =>
  kernel env.ending w c r w' ∧ w'.proc.rcvd <+: avail ∧ (Dry c r → w.proc.rcvd = avail)

section Streamed

variable {env : Env} {avail : Bytes} {α : Type} {w w' : World} {c : Call} {r : Res c} {x y : Io α × World}

/-- An answer depends only on whether the call itself may fail. -/
theorem effect_faults {faults faults' : Call → Prop} (h : Effect faults w c r w') (hf : faults c → faults' c) :
    Effect faults' w c r w' := by
  unfold Effect at h ⊢
  split at h <;> grind

/-- An answer that is not the end of the stream does not need `recv` to fail. -/
theorem kernel_unbroken (h : kernel env.ending w c r w') (hdry : ¬ Dry c r) : kernel env.unbroken w c r w' := by
  obtain ⟨fs, hr, v, he, rfl⟩ := h
  refine ⟨fs, hr, v, ?_, rfl⟩
  by_cases hc : ∃ wait n, c = .recv wait n
  · obtain ⟨wait, n, rfl⟩ := hc
    rcases r with _ | _ | _ | ⟨b, bs⟩
    · exact he
    · exact absurd trivial hdry
    · exact absurd trivial hdry
    · exact ⟨he.1, by simp, he.2.2⟩
  · refine effect_faults he ?_
    intro hf
    rcases hf with hf | hf
    · exact ⟨hf, fun wait n h => hc ⟨wait, n, h⟩⟩
    · exact absurd hf hc

theorem streamed_steps (h : Steps (streamed env avail) x y) : Steps (kernel env.ending) x y :=
  steps_mono (fun _ _ _ _ hs => hs.1) h

theorem streamed_prefix (h : Steps (streamed env avail) x y) (h0 : x.2.proc.rcvd <+: avail) :
    y.2.proc.rcvd <+: avail := by
  induction h with
  | refl => exact h0
  | tail _ hs ih =>
    cases hs with
    | call hs => exact hs.2.1
    | loop => exact ih

/-- A run has not come to the end of the stream, or has read it all. -/
theorem streamed_cases (h : Steps (streamed env avail) x y) :
    Steps (kernel env.unbroken) x y ∨ y.2.proc.rcvd = avail := by
  induction h with
  | refl => exact .inl .refl
  | @tail y z _ hs ih =>
    rcases ih with ih | ih
    · cases hs with
      | @call _ e k v v' r hs =>
        by_cases hdry : Dry e r
        · refine .inr (hs.2.1.eq_of_length_le ?_)
          rw [← hs.2.2 hdry]
          exact (kernel_grows hs.1).1.length_le
        · exact .inl (ih.tail (.call (kernel_unbroken hs.1 hdry)))
      | loop => exact .inl (ih.tail .loop)
    · cases hs with
      | call hs =>
        refine .inr (hs.2.1.eq_of_length_le ?_)
        rw [← ih]
        exact (kernel_grows hs.1).1.length_le
      | loop => exact .inr ih

end Streamed

/-! ## `recv_n` on such a stream -/

section Receiving

variable {env : Env} {avail rest : Bytes} {w : World} {j : Nat}

/-- With a bounded number of interruptions. -/
abbrev delivered (env : Env) (avail : Bytes) : Sem Call Res (World × Nat) := (streamed env avail).budget Interrupted

theorem delivered_steps {α : Type} {x y : Io α × World × Nat} (h : Steps (delivered env avail) x y) :
    Steps (kernel env.ending) (x.1, x.2.1) (y.1, y.2.1) := streamed_steps (steps_of_budget h)

/-- `recv_n` returns the next `len` bytes, or has read too few. -/
theorem twp_recvN {wait : Wait} {len : Nat} (havail : w.proc.rcvd ++ rest = avail) :
    twp (delivered env avail) (recvN wait len) (fun r v => ∃ fs, env.rely w.fs fs ∧
      if len ≤ rest.length then r = some (rest.take len) ∧ v.1 = ⟨fs, w.proc.addRcvd (rest.take len)⟩
      else r = none ∧ v.1 = ⟨fs, w.proc.addRcvd rest⟩) (w, j) := by
  refine twp_loop (fun got v => got.length ≤ len ∧ got <+: rest ∧ ∃ fs, env.rely w.fs fs ∧ v.1 = ⟨fs, w.proc.addRcvd got⟩)
    (fun got v => len - got.length + v.2) ⟨by simp, List.nil_prefix, w.fs, env.refl _, by simp⟩ ?_
  rintro got ⟨_, j⟩ ⟨hle, hgot, fs, hr, rfl⟩
  split
  · rename_i hlt
    obtain ⟨rest', rfl⟩ := hgot
    refine twp_perform ?_ ?_
    · -- there is something left to deliver, or the stream has ended
      rcases rest' with _ | ⟨b, rest'⟩
      · refine ⟨.fail, (⟨fs, w.proc.addRcvd got⟩, j), ⟨⟨fs, env.refl _, _, ⟨.inr ⟨_, _, rfl⟩, rfl⟩, rfl⟩, ?_, fun _ => ?_⟩,
          False.elim, fun _ => rfl⟩
        · rw [← havail]
          simp
        · rw [← havail]
          simp
      · refine ⟨.done [b], (⟨fs, w.proc.addRcvd (got ++ [b])⟩, j), ⟨⟨fs, env.refl _, _, ⟨by simp; omega, by simp, rfl⟩,
          by simp [Call.traced]⟩, ?_, False.elim⟩, False.elim, fun _ => rfl⟩
        rw [← havail]
        exact ⟨rest', by simp⟩
    · rintro r ⟨v, j'⟩ ⟨⟨⟨fs', hr', u, he, rfl⟩, hin, hdry⟩, hb, hb'⟩
      rcases r with _ | _ | bs
      · obtain rfl := he
        exact ⟨⟨hle, List.prefix_append _ _, fs', env.trans hr hr', rfl⟩, by have := hb trivial; simp at this ⊢; omega⟩
      · obtain ⟨-, rfl⟩ := he
        obtain rfl : rest' = [] := by
          have := hdry trivial
          rw [← havail] at this
          simpa using this
        exact ⟨fs', env.trans hr hr', by simp [Nat.not_le.2 hlt]⟩
      · obtain ⟨hbs, -, rfl⟩ := he
        rcases bs with _ | ⟨b, bs⟩
        · obtain rfl : rest' = [] := by
            have := hdry trivial
            rw [← havail] at this
            simpa using this
          exact ⟨fs', env.trans hr hr', by simp [Nat.not_le.2 hlt]⟩
        · refine ⟨⟨?_, ?_, fs', env.trans hr hr', by simp⟩, ?_⟩
          · rw [List.length_append]
            omega
          · rw [← havail] at hin
            simpa [Call.traced] using hin
          · have := hb' id
            simp only [List.length_append, List.length_cons] at this ⊢
            omega
  · obtain rfl : len = got.length := by omega
    refine ⟨fs, hr, ?_⟩
    rw [if_pos hgot.length_le, ← List.prefix_iff_eq_take.1 hgot]
    exact ⟨rfl, rfl⟩

end Receiving

/-! ## `recv_packet` on such a stream -/

/-- The bytes that `send_packet` writes for this header and payload. -/
def Packet.encode (e : Endian) (p : Packet) : Bytes :=
  (p.header.hton e).bytes e ++ match p.payload with
    | some payload => if p.header.dataLen > 0 then payload.take p.header.dataLen.toNat else []
    | none => []

/-- Of a packet that `recv_packet` delivers these are its bytes on the connection. -/
theorem Packet.Valid.encode {p : Packet} (hp : p.Valid) (e : Endian) : p.encode e = p.wire := by
  obtain ⟨header, payload⟩ := p
  have hlen := hp.length
  rw [Packet.encode, TlvHeader.bytes_hton, Packet.wire]
  congr 1
  cases payload with
  | none => rfl
  | some payload =>
    have h0 : header.dataLen ≠ 0 := fun h => by simpa using hp.null.2 h
    have htake : payload.take header.dataLen.toNat = payload := by rw [← hlen]; exact List.take_length
    simp only [if_pos (UInt32.pos_iff_ne_zero.2 h0), htake]
    rfl

/-- The header at the start of `bs`. -/
def headerOf (bs : Bytes) : TlvHeader := .ofWire (bs.take 20)

/-- The length of the packet that `bs` start with, if its header is right. -/
def frameSize (bs : Bytes) : Nat := 20 + (headerOf bs).dataLen.toNat

/-- `bs` starts with a packet. -/
def Framed (bs : Bytes) : Prop := 20 ≤ bs.length ∧ (headerOf bs).Ok ∧ frameSize bs ≤ bs.length

instance (bs : Bytes) : Decidable (Framed bs) := inferInstanceAs (Decidable (_ ∧ _ ∧ _))

/-- What `recv_packet` returns, and what it has read, when `bs` is all that comes. -/
structure Receives (bs : Bytes) (b : Proc) (x : Rc × Packet) (p : Proc) : Prop where
  accepts : x.1 = .ok ↔ Framed bs
  header : x.1 = .ok → x.2.header = headerOf bs
  rcvd : x.1 = .ok → p.rcvd = b.rcvd ++ bs.take (frameSize bs)
  encode : x.1 = .ok → x.2.encode host = bs.take (frameSize bs)
  owns : x.1 = .fail → x.2.payload = none
  refused : 20 ≤ bs.length → ¬ (headerOf bs).Ok → p.rcvd = b.rcvd ++ bs.take 20

section Receiving

variable {env : Env} {bs : Bytes} {w : World} {j : Nat}

theorem Receives.failed {b : Proc} {p : Packet} {q : Proc} (hframed : ¬ Framed bs) (hp : p.payload = none)
    (hread : 20 ≤ bs.length → ¬ (headerOf bs).Ok → q.rcvd = b.rcvd ++ bs.take 20) : Receives bs b (.fail, p) q where
  accepts := by simpa using hframed
  header := by simp
  rcvd := by simp
  encode := by simp
  owns _ := hp
  refused := hread

theorem Receives.ok {b : Proc} {p : Packet} {q : Proc} (hframed : Framed bs) (hheader : p.header = headerOf bs)
    (hrcvd : q.rcvd = b.rcvd ++ bs.take (frameSize bs)) (hencode : p.encode host = bs.take (frameSize bs)) :
    Receives bs b (.ok, p) q where
  accepts := by simpa using hframed
  header _ := hheader
  rcvd _ := hrcvd
  encode _ := hencode
  owns := by simp
  refused _ hbad := absurd hframed.2.1 hbad

theorem ntoh_headerOf (h : 20 ≤ bs.length) : (TlvHeader.load host (bs.take 20)).ntoh host = headerOf bs :=
  TlvHeader.ntoh_load host (by rw [List.length_take]; omega)

theorem wire_headerOf (h : 20 ≤ bs.length) : (headerOf bs).wire = bs.take 20 :=
  TlvHeader.wire_ofWire (by rw [List.length_take]; omega)

/-- The total correctness of `recv_packet`. -/
theorem twp_recvPacket (hcalloc : ∀ n, ¬ env.faults (.calloc n)) (wait : Wait) :
    twp (delivered env (w.proc.rcvd ++ bs)) (recvPacket wait) (fun x v => Receives bs w.proc x v.1.proc) (w, j) := by
  refine twp_bind.2 (twp_mono (twp_recvN rfl) ?_)
  rintro hd ⟨v, j⟩ ⟨fs, hr, hv⟩
  split at hv
  · rename_i hlen
    obtain ⟨rfl, rfl⟩ := hv
    simp only [ntoh_headerOf hlen]
    split
    · rename_i hbad
      refine .failed (fun h => ?_) rfl fun _ _ => rfl
      exact hbad.elim (· h.2.1.1) (· h.2.1.2.1)
    split
    · rename_i hbad
      exact .failed (fun h => absurd h.2.1.2.2 (UInt32.not_le.2 hbad)) rfl fun _ _ => rfl
    rename_i hmv hdl
    rw [not_or, not_not, not_not] at hmv
    have hok : (headerOf bs).Ok := ⟨hmv.1, hmv.2, UInt32.not_lt.1 hdl⟩
    have hwire := wire_headerOf hlen
    split
    · rename_i h0
      have hsize : frameSize bs = 20 := by simp [frameSize, h0]
      refine .ok ⟨hlen, hok, hsize ▸ hlen⟩ rfl (by rw [hsize]; rfl) ?_
      rw [hsize, Packet.encode, TlvHeader.bytes_hton, hwire, List.append_nil]
    · rename_i h0
      refine twp_perform ⟨true, (⟨fs, w.proc.addRcvd (bs.take 20)⟩, j),
        ⟨⟨fs, env.refl _, _, ⟨by simp, rfl⟩, rfl⟩, ?_, False.elim⟩,
        False.elim, fun _ => rfl⟩ ?_
      · show (w.proc.addRcvd (bs.take 20)).rcvd <+: w.proc.rcvd ++ bs
        exact (List.prefix_append_right_inj _).2 (List.take_prefix _ _)
      · rintro ok ⟨v, j'⟩ ⟨⟨⟨fs', hr', u, ⟨hcall, rfl⟩, rfl⟩, -, -⟩, -, -⟩
        cases ok with
        | false => exact absurd (hcall rfl) (by simpa [Env.ending] using hcalloc _)
        | true =>
          have hcut : w.proc.rcvd ++ bs.take 20 ++ bs.drop 20 = w.proc.rcvd ++ bs := by
            rw [List.append_assoc, List.take_append_drop]
          refine twp_bind.2 (twp_mono (twp_recvN (w := ⟨fs', w.proc.addRcvd (bs.take 20)⟩) hcut) ?_)
          rintro body ⟨v, j''⟩ ⟨fs'', hr'', hv⟩
          split at hv
          · rename_i hbody
            obtain ⟨rfl, rfl⟩ := hv
            rw [List.length_drop] at hbody
            have htake : bs.take 20 ++ (bs.drop 20).take (headerOf bs).dataLen.toNat = bs.take (frameSize bs) := by
              rw [frameSize, List.take_add]
            refine .ok ⟨hlen, hok, by rw [frameSize]; omega⟩ rfl ?_ ?_
            · simp [← htake]
            · have hpos : (headerOf bs).dataLen > 0 := UInt32.pos_iff_ne_zero.2 h0
              simp only [Packet.encode, TlvHeader.bytes_hton, hwire, if_pos hpos, ← htake, List.take_take, Nat.min_self]
          · rename_i hbody
            obtain ⟨rfl, rfl⟩ := hv
            rw [List.length_drop] at hbody
            exact .failed (fun h => hbody (by have := h.2.2; rw [frameSize] at this; omega)) rfl fun _ h => absurd hok h
  · rename_i hlen
    obtain ⟨rfl, rfl⟩ := hv
    exact .failed (fun h => hlen h.1) rfl fun h => absurd h hlen

/-- What is wanted next of a packet at the start of `bs`, when `read` of it is there. -/
theorem Wanting.le {read : Bytes} {n : Nat} (h : Wanting read n) (hread : read <+: bs) :
    read.length + n ≤ frameSize bs ∧ (20 < read.length + n → 20 ≤ bs.length ∧ (headerOf bs).Ok) := by
  obtain ⟨-, h | ⟨hd, body, rfl, hl, hok, h⟩⟩ := h
  · exact ⟨by rw [frameSize]; omega, fun hlt => by omega⟩
  · have hpre : hd <+: bs := (List.prefix_append hd body).trans hread
    have hhd : headerOf bs = .ofWire hd := by rw [headerOf, ← hl, ← List.prefix_iff_eq_take.1 hpre]
    rw [frameSize, hhd, List.length_append]
    exact ⟨by omega, fun _ => ⟨hl ▸ hpre.length_le, hok⟩⟩

/-- **`recv_packet` accepts exactly the wire format.** On every stream, cut up in any way and interrupted
a bounded number of times, it returns: with the packet at the start of the stream and nothing else
read, or, if there is none, without a payload, and behind a bad header nothing is read. No call asks for
more than the packet. -/
theorem recvPacket_exact (hcalloc : ∀ n, ¬ env.faults (.calloc n)) (wait : Wait) (bs : Bytes) (w : World) (j : Nat) :
    twp (delivered env (w.proc.rcvd ++ bs)) (recvPacket wait) (fun x v => Receives bs w.proc x v.1.proc) (w, j) ∧
    ∀ (wait' : Wait) (n : Nat) (k : IoRes Bytes → Io (Rc × Packet)) (v : World × Nat),
      Steps (delivered env (w.proc.rcvd ++ bs)) (recvPacket wait, w, j) (.call (.recv wait' n) k, v) →
      ∃ read, v.1.proc.rcvd = w.proc.rcvd ++ read ∧ read.length + n ≤ frameSize bs ∧
        (20 < read.length + n → 20 ≤ bs.length ∧ (headerOf bs).Ok) := by
  refine ⟨twp_recvPacket hcalloc wait, fun wait' n k v hrun => ?_⟩
  have hwp : wp (kernel env.ending) (fun v c => ∀ wait n, c = .recv wait n →
      ∃ read, v.proc.rcvd = w.proc.rcvd ++ read ∧ Wanting read n) (recvPacket wait) (fun _ _ => True) w := by
    refine wp_recvPacket ?_ ?_ (fun _ _ _ _ => trivial) fun _ _ _ _ _ _ _ => trivial
    · rintro fs read n - hw _ _ ⟨⟩
      exact ⟨read, rfl, hw⟩
    · rintro fs read n - - wait n hc
      cases hc
  obtain ⟨read, hread, hw⟩ := wp_check hwp (delivered_steps hrun) wait' n rfl
  have hin : v.1.proc.rcvd <+: w.proc.rcvd ++ bs := streamed_prefix (steps_of_budget hrun) (List.prefix_append _ _)
  rw [hread, List.prefix_append_right_inj] at hin
  exact ⟨read, hread, hw.le hin⟩

/-- A `FILE_END` with a byte after it. -/
theorem recvPacket_exact_end : ∃ (p : Packet) (v : World × Nat),
    Steps (delivered (.quiet fun _ => False) (endPacket.wire ++ [7]))
      (recvPacket .reply, ⟨fun _ => none, .init⟩, 1) (.ret (.ok, p), v) ∧
    p.encode host = endPacket.wire ∧ v.1.proc.rcvd = endPacket.wire := by
  have hcalloc : ∀ n, ¬ (Env.quiet fun _ => False).faults (.calloc n) := fun _ => id
  obtain ⟨⟨rc, p⟩, v, hrun, h⟩ :=
    twp_returns (recvPacket_exact hcalloc .reply (endPacket.wire ++ [7]) ⟨fun _ => none, .init⟩ 1).1
  have hframed : Framed (endPacket.wire ++ [7]) := by decide
  obtain rfl : rc = .ok := h.accepts.2 hframed
  have htake : (endPacket.wire ++ [7]).take (frameSize (endPacket.wire ++ [7])) = endPacket.wire := by decide
  exact ⟨p, v, hrun, (h.encode rfl).trans htake, (h.rcvd rfl).trans htake⟩

end Receiving
end WindCloud
