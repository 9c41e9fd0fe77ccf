import WindCloud.Client
import WindCloud.Lib.Par
/-!
# Building runs

A statement that something can happen is proved by giving a run. `Backward` predicates are what
a run is built under: a run of one program, of a pair or of many threads is traced back from
its end, and one lemma a function says what a smooth pass through it does: every `send` takes
all, every `recv` gets all it asks for.
-/

namespace WindCloud

open ByteOrder Interaction Prog FileImage

/-- A process to which all of `avail` was written. -/
abbrev fed (env : Env) (avail : Bytes) : Sem Call Res World := (side env).given avail

section Runs

variable {env : Env} {avail : Bytes} {α : Type} {R : Io α × World → Prop} {w : World}

/-- One call. -/
theorem run_call (hR : Backward (fed env avail) R) {c : Call} {k : Res c → Io α} {r : Res c} {v : World}
    (he : Effect env.faults w c r v) (hin : v.proc.rcvd <+: avail)
    (h : R (k r, if c.traced then ⟨v.fs, v.proc.note c r⟩ else v)) : R (.call c k, w) := by
  refine hR.call ⟨⟨w.fs, env.refl _, v, he, rfl⟩, ?_⟩ h
  show (World.proc (if c.traced then _ else _)).rcvd <+: avail
  split <;> exact hin

theorem run_sendN (hR : Backward (fed env avail) R) {buf : Bytes} {k : Rc → Io α}
    (hin : w.proc.rcvd <+: avail) (h : R (k .ok, ⟨w.fs, w.proc.addSent buf⟩)) : R (sendN buf >>= k, w) := by
  apply hR.iter
  by_cases hlen : 0 < buf.length
  · simp only [if_pos hlen, perform_bind, call_bind]
    refine run_call hR (r := .done buf.length) (v := ⟨w.fs, w.proc.addSent (buf.take buf.length)⟩)
      ⟨le_refl _, fun h0 => absurd h0 hlen.ne', rfl⟩ hin ?_
    obtain ⟨n, hn⟩ : ∃ n, buf.length = n + 1 := ⟨buf.length - 1, by omega⟩
    rw [List.take_length]
    simp only [hn, pure_eq, ret_bind, unroll]
    apply hR.loop
    simpa [hn, unroll, Call.traced] using h
  · have h0 : buf = [] := List.length_eq_zero_iff.1 (by omega)
    subst h0
    simpa [unroll] using h

/-- A write that takes the first `m` bytes, and is followed by one of the rest. -/
theorem run_sendPart (hR : Backward (fed env avail) R) {buf : Bytes} {m : Nat} {k : Rc → Io α} (hin : w.proc.rcvd <+: avail)
    (hpos : 0 < m) (hlt : m < buf.length)
    (h : ∀ k', R (.call (.send (buf.drop m)) k', ⟨w.fs, w.proc.addSent (buf.take m)⟩)) : R (sendN buf >>= k, w) := by
  apply hR.iter
  simp only [if_pos (hpos.trans hlt), perform_bind, call_bind, List.drop_zero]
  refine run_call hR (r := .done m) (v := ⟨w.fs, w.proc.addSent (buf.take m)⟩)
    ⟨hlt.le, fun h0 => absurd h0 hpos.ne', rfl⟩ hin ?_
  obtain ⟨n, rfl⟩ : ∃ n, m = n + 1 := ⟨m - 1, by omega⟩
  simp only [pure_eq, ret_bind, unroll, Nat.zero_add]
  apply hR.loop
  simp only [if_pos hlt, call_bind]
  exact h _

theorem run_recvN (hR : Backward (fed env avail) R) {wait : Wait} {bs : Bytes} {k : Option Bytes → Io α}
    (hin : w.proc.rcvd ++ bs <+: avail) (h : R (k (some bs), ⟨w.fs, w.proc.addRcvd bs⟩)) :
    R (recvN wait bs.length >>= k, w) := by
  apply hR.iter
  by_cases hlen : 0 < bs.length
  · simp only [List.length_nil, if_pos hlen, perform_bind, call_bind]
    refine run_call hR (r := .done bs) (v := ⟨w.fs, w.proc.addRcvd bs⟩)
      ⟨le_refl _, fun h0 => by simp [h0] at hlen, rfl⟩ hin ?_
    obtain ⟨b, bs', rfl⟩ : ∃ b bs', bs = b :: bs' := List.exists_cons_of_length_pos hlen
    simp only [pure_eq, ret_bind, unroll, List.nil_append]
    apply hR.loop
    simpa [unroll, Call.traced] using h
  · have h0 : bs = [] := List.length_eq_zero_iff.1 (by omega)
    subst h0
    simpa [unroll] using h

/-- The connection is cut. -/
theorem run_recvN_fail (hR : Backward (fed env avail) R) {wait : Wait} {n : Nat} {k : Option Bytes → Io α}
    (hin : w.proc.rcvd <+: avail) (hn : 0 < n) (hf : env.faults (.recv wait n)) (h : R (k none, w)) :
    R (recvN wait n >>= k, w) := by
  apply hR.iter
  simp only [List.length_nil, if_pos hn, perform_bind, call_bind]
  refine run_call hR (r := .fail) (v := w) ⟨hf, rfl⟩ hin ?_
  simpa [unroll, Call.traced] using h

theorem run_sendPacket (data : Bytes) (hR : Backward (fed env avail) R) {type : CmdType} {status : StatusCode}
    {payload : Option Bytes} {len : UInt32} {k : Rc → Io α} (hp : payload.getD [] = data)
    (hlen : len = .ofNat data.length) (hmax : data.length ≤ maxPacketPayload.toNat)
    (hin : w.proc.rcvd <+: avail)
    (h : R (k .ok, ⟨w.fs, w.proc.addSent (Packet.of type status data).wire⟩)) :
    R (sendPacket type status payload len >>= k, w) := by
  have hw : (Packet.of type status data).wire = (TlvHeader.of type status len).wire ++ data := by
    simp [Packet.wire, hlen]
  have hnat : len.toNat = data.length := by rw [hlen, Packet.toNat_len hmax]
  have hle : ¬ len > maxPacketPayload := by
    rw [gt_iff_lt, UInt32.lt_iff_toNat_lt]
    omega
  simp only [sendPacket, if_neg hle, TlvHeader.bytes_hton]
  rw [bind_assoc]
  apply run_sendN hR hin
  rw [hw] at h
  rcases payload with _ | p
  · obtain rfl : data = [] := by simpa using hp.symm
    simpa using h
  · obtain rfl : p = data := by simpa using hp
    simp only [hnat, List.take_length]
    split
    · refine run_sendN hR hin ?_
      simpa using h
    · rename_i h0
      have : p = [] := by
        rw [gt_iff_lt, UInt32.lt_iff_toNat_lt, hnat] at h0
        exact List.length_eq_zero_iff.1 (by simpa using h0)
      subst this
      simpa using h

theorem run_recvPacket (hR : Backward (fed env avail) R) {wait : Wait} {p : Packet} {k : Rc × Packet → Io α}
    (hp : p.Valid) (hin : w.proc.rcvd ++ p.wire <+: avail)
    (h : R (k (.ok, p), ⟨w.fs, w.proc.addRcvd p.wire⟩)) : R (recvPacket wait >>= k, w) := by
  have hin₁ : w.proc.rcvd ++ p.header.wire <+: avail := by
    refine .trans ?_ hin
    rw [Packet.wire, ← List.append_assoc]
    exact List.prefix_append _ _
  rw [recvPacket, bind_assoc, ← TlvHeader.length_wire p.header]
  apply run_recvN hR hin₁
  have hhd : (TlvHeader.load host p.header.wire).ntoh host = p.header := by
    rw [TlvHeader.ntoh_load host (by simp), TlvHeader.ofWire_wire]
  have hmv : ¬ (p.header.magic ≠ tlvMagic ∨ p.header.version ≠ tlvVersion) := by
    simp [hp.header.1, hp.header.2.1]
  have hle : ¬ p.header.dataLen > maxPacketPayload := UInt32.not_lt.2 hp.header.2.2
  simp only [hhd, if_neg hmv, if_neg hle]
  split
  · rename_i h0
    have hnull := hp.null.2 h0
    obtain ⟨header, payload⟩ := p
    obtain rfl : payload = none := hnull
    simpa [Packet.wire, Packet.data] using h
  · rename_i h0
    obtain ⟨body, hbody⟩ := Option.ne_none_iff_exists'.1 fun hn => h0 (hp.null.1 hn)
    have hdata : p.data = body := by simp [Packet.data, hbody]
    have hlen : p.header.dataLen.toNat = body.length := by rw [← hp.length, hdata]
    simp only [perform_bind, call_bind]
    refine run_call hR (r := true) (v := ⟨w.fs, w.proc.addRcvd p.header.wire⟩) ⟨by simp, rfl⟩ hin₁ ?_
    simp only [hlen, Call.traced]
    rw [bind_assoc]
    have hw : p.wire = p.header.wire ++ body := by rw [Packet.wire, hdata]
    refine run_recvN hR ?_ ?_
    · simpa [hw] using hin
    · have hpk : (⟨p.header, some body⟩ : Packet) = p := by
        rw [← hbody]
      simpa [hpk, hw] using h

/-- The connection is cut before the packet. -/
theorem run_recvPacket_fail (hR : Backward (fed env avail) R) {wait : Wait} {k : Rc × Packet → Io α}
    (hin : w.proc.rcvd <+: avail) (hf : env.faults (.recv wait 20)) (h : R (k (.fail, .zero), w)) :
    R (recvPacket wait >>= k, w) := by
  rw [recvPacket, bind_assoc]
  exact run_recvN_fail hR hin (by decide) hf (by simpa using h)

/-! ## Calls on files -/

section Files

variable {fs : FS} {path : Bytes} {c d : Content} {p : Proc} {fd : Nat} {f : OpenFile}

/-- Opening a file that is not there. -/
theorem run_create (hR : Backward (fed env avail) R) {k : Option Nat → Io α} (hin : p.rcvd <+: avail) (fd : Nat)
    (hpath : fs path = none) (hfd : p.fds fd = none)
    (h : R (k (some fd), ⟨fs.put path .empty,
      (p.setFd fd (some ⟨path, 0⟩)).note (.openFile path .rdwrCreat) (some fd)⟩)) :
    R (Sys.openFile path .rdwrCreat >>= k, ⟨fs, p⟩) :=
  run_call hR (r := some fd) (v := ⟨fs.put path .empty, p.setFd fd (some ⟨path, 0⟩)⟩)
    ⟨by simp [hpath], hfd, by simp [hpath, FS.put]⟩ hin h

/-- Opening one that is. -/
theorem run_open (hR : Backward (fed env avail) R) {k : Option Nat → Io α} (hin : p.rcvd <+: avail) (fd : Nat)
    (hfd : p.fds fd = none)
    (h : R (k (some fd), ⟨fs.put path c,
      (p.setFd fd (some ⟨path, 0⟩)).note (.openFile path .rdwrCreat) (some fd)⟩)) :
    R (Sys.openFile path .rdwrCreat >>= k, ⟨fs.put path c, p⟩) :=
  run_call hR (r := some fd) (v := ⟨fs.put path c, p.setFd fd (some ⟨path, 0⟩)⟩)
    ⟨by simp, hfd, by simp [FS.put]⟩ hin h

theorem run_openRead (hR : Backward (fed env avail) R) {k : Option Nat → Io α} (hin : p.rcvd <+: avail) (fd : Nat)
    (hpath : fs path ≠ none) (hfd : p.fds fd = none)
    (h : R (k (some fd), ⟨fs, (p.setFd fd (some ⟨path, 0⟩)).note (.openFile path .rdonly) (some fd)⟩)) :
    R (Sys.openFile path .rdonly >>= k, ⟨fs, p⟩) :=
  run_call hR (r := some fd) (v := ⟨fs, p.setFd fd (some ⟨path, 0⟩)⟩) ⟨hpath, hfd, rfl⟩ hin h

theorem run_close (hR : Backward (fed env avail) R) {k : Unit → Io α} (hin : p.rcvd <+: avail)
    (h : R (k (), ⟨fs, (p.setFd fd none).note (.close fd) ()⟩)) : R (Sys.close fd >>= k, ⟨fs, p⟩) :=
  run_call hR (r := ()) (v := ⟨fs, p.setFd fd none⟩) rfl hin h

theorem run_fstat (hR : Backward (fed env avail) R) {k : Option Nat → Io α} (hin : p.rcvd <+: avail)
    (hfd : p.fds fd = some f) (hpath : f.path = path)
    (h : R (k (some c.bytes.length), ⟨fs.put path c, p.note (.fstat fd) (some c.bytes.length)⟩)) :
    R (Sys.fstat fd >>= k, ⟨fs.put path c, p⟩) := by
  refine run_call hR (r := some c.bytes.length) (v := ⟨fs.put path c, p⟩) ⟨f, hfd, c.lt, fun b hb => ?_, rfl⟩ hin h
  rw [(fs.put_has path c).unique (hpath ▸ hb)]

theorem run_ftruncate (hR : Backward (fed env avail) R) {k : Bool → Io α} {len : Int} {why : Resize}
    (hin : p.rcvd <+: avail) (hfd : p.fds fd = some f) (hpath : f.path = path) (hlen : 0 ≤ len)
    (hc : d.bytes = resize 0 len.toNat c.bytes)
    (h : R (k true, ⟨fs.put path d, p.note (.ftruncate fd len why) true⟩)) :
    R (Sys.ftruncate fd len why >>= k, ⟨fs.put path c, p⟩) :=
  run_call hR (r := true) (v := ⟨fs.put path d, p⟩)
    ⟨f, _, hfd, hlen, hpath ▸ FS.modify_put fs path hc, rfl⟩ hin h

theorem run_ftruncate_fail (hR : Backward (fed env avail) R) {k : Bool → Io α} {len : Int} {why : Resize}
    (hin : p.rcvd <+: avail) (hf : env.faults (.ftruncate fd len why))
    (h : R (k false, ⟨fs, p.note (.ftruncate fd len why) false⟩)) : R (Sys.ftruncate fd len why >>= k, ⟨fs, p⟩) :=
  run_call hR (r := false) (v := ⟨fs, p⟩) ⟨hf, rfl⟩ hin h

theorem run_mmap (hR : Backward (fed env avail) R) {k : Option Nat → Io α} {len : Nat} (hin : p.rcvd <+: avail)
    (m : Nat) (hfd : p.fds fd = some f) (hm : p.maps m = none)
    (h : R (k (some m), ⟨fs, (p.setMap m (some ⟨f.path, len⟩)).note (.mmap fd len) (some m)⟩)) :
    R (Sys.mmap fd len >>= k, ⟨fs, p⟩) :=
  run_call hR (r := some m) (v := ⟨fs, p.setMap m (some ⟨f.path, len⟩)⟩) ⟨f, hfd, hm, rfl⟩ hin h

theorem run_memcpy (hR : Backward (fed env avail) R) {k : Unit → Io α} {m off : Nat} {data : Bytes} {mp : Mapping}
    (hin : p.rcvd <+: avail) (hm : p.maps m = some mp) (hpath : mp.path = path)
    (hc : d.bytes = store c.bytes off data)
    (h : R (k (), ⟨fs.put path d, p.note (.memcpy m off data) ()⟩)) :
    R (Sys.memcpy m off data >>= k, ⟨fs.put path c, p⟩) :=
  run_call hR (r := ()) (v := ⟨fs.put path d, p⟩) ⟨mp, _, hm, hpath ▸ FS.modify_put fs path hc, rfl⟩ hin h

theorem run_munmap (hR : Backward (fed env avail) R) {k : Unit → Io α} {m : Nat} (hin : p.rcvd <+: avail)
    (h : R (k (), ⟨fs, (p.setMap m none).note (.munmap m) ()⟩)) : R (Sys.munmap m >>= k, ⟨fs, p⟩) :=
  run_call hR (r := ()) (v := ⟨fs, p.setMap m none⟩) rfl hin h

theorem run_lseek (hR : Backward (fed env avail) R) {k : Bool → Io α} {off : Int} (hin : p.rcvd <+: avail)
    (hfd : p.fds fd = some f) (hoff : 0 ≤ off)
    (h : R (k true, ⟨fs, (p.setFd fd (some ⟨f.path, off.toNat⟩)).note (.lseek fd off) true⟩)) :
    R (Sys.lseek fd off >>= k, ⟨fs, p⟩) :=
  run_call hR (r := true) (v := ⟨fs, p.setFd fd (some ⟨f.path, off.toNat⟩)⟩) ⟨f, hfd, hoff, rfl⟩ hin h

/-- A read may give any piece of what is left of a file. -/
theorem effect_read {faults : Call → Prop} {n : Nat} {bs : Bytes} (hfd : p.fds fd = some f) (hpath : f.path = path)
    (hbs : bs <+: c.bytes.drop f.pos) (hne : bs ≠ []) (hlen : bs.length ≤ n) :
    Effect faults ⟨fs.put path c, p⟩ (.read fd n) (.done bs)
      ⟨fs.put path c, p.setFd fd (some ⟨f.path, f.pos + bs.length⟩)⟩ := by
  refine ⟨f, hfd, by simp [hpath], hlen, fun b hb => ?_, rfl⟩
  obtain rfl := (fs.put_has path c).unique (hpath ▸ hb)
  exact ⟨hbs, fun h0 => absurd h0 hne⟩

theorem run_read (hR : Backward (fed env avail) R) {k : IoRes Bytes → Io α} {n : Nat} {bs : Bytes}
    (hin : p.rcvd <+: avail) (hfd : p.fds fd = some f) (hpath : f.path = path) (hbs : bs <+: c.bytes.drop f.pos)
    (hne : bs ≠ []) (hlen : bs.length ≤ n)
    (h : R (k (.done bs), ⟨fs.put path c, (p.setFd fd (some ⟨f.path, f.pos + bs.length⟩)).note (.read fd n)
      (.done bs)⟩)) :
    R (Sys.read fd n >>= k, ⟨fs.put path c, p⟩) :=
  run_call hR (effect_read hfd hpath hbs hne hlen) hin h

/-- A read that fails. -/
theorem run_read_fail (hR : Backward (fed env avail) R) {k : IoRes Bytes → Io α} {n : Nat} (hin : p.rcvd <+: avail)
    (hf : env.faults (.read fd n)) (h : R (k .fail, ⟨fs, p.note (.read fd n) .fail⟩)) :
    R (Sys.read fd n >>= k, ⟨fs, p⟩) :=
  run_call hR (r := .fail) (v := ⟨fs, p⟩) ⟨hf, rfl⟩ hin h

/-- A write of the first `m` bytes. -/
theorem run_write (hR : Backward (fed env avail) R) {k : IoRes Nat → Io α} {buf : Bytes} {m : Nat} (hin : p.rcvd <+: avail)
    (hfd : p.fds fd = some f) (hpath : f.path = path) (hpos : 0 < m) (hle : m ≤ buf.length)
    (hd : d.bytes = patch 0 c.bytes f.pos (buf.take m))
    (h : R (k (.done m), ⟨fs.put path d, (p.setFd fd (some ⟨f.path, f.pos + m⟩)).note (.write fd buf) (.done m)⟩)) :
    R (Sys.write fd buf >>= k, ⟨fs.put path c, p⟩) :=
  run_call hR (r := .done m) (v := ⟨fs.put path d, p.setFd fd (some ⟨f.path, f.pos + m⟩)⟩)
    ⟨f, _, hfd, hle, fun h0 => absurd h0 hpos.ne', hpath ▸ FS.modify_put fs path hd, rfl⟩ hin h

/-- A `sendfile` of all that is left of a file. -/
theorem run_sendfile (hR : Backward (fed env avail) R) {k : IoRes Nat → Io α} {n off : Nat} (hin : p.rcvd <+: avail)
    (hfd : p.fds fd = some f) (hpath : f.path = path) (hlen : (c.bytes.drop off).length = n) (hpos : 0 < n)
    (h : R (k (.done n), ⟨fs.put path c, (p.addSent (c.bytes.drop off)).note (.sendfile fd off n) (.done n)⟩)) :
    R (Sys.sendfile fd off n >>= k, ⟨fs.put path c, p⟩) := by
  refine run_call hR (r := .done n) (v := ⟨fs.put path c, p.addSent (c.bytes.drop off)⟩)
    ⟨f, c.bytes.drop off, hfd, by simp [hpath], by omega, hlen, le_refl _, fun b hb => ?_, rfl⟩ hin h
  obtain rfl := (fs.put_has path c).unique (hpath ▸ hb)
  refine ⟨by simp, fun h0 => ?_⟩
  rw [h0] at hlen
  simp at hlen
  omega

end Files

section Server

open Server

variable {session : Session}

/-- A reply begins with its header. -/
theorem reply_eq_header (session : Session) (type : CmdType) (status : StatusCode) {msg : Bytes}
    (hlen : msg.length < maxPacketPayload.toNat) :
    ∃ k, reply session type status msg = sendN (textPacket type status msg).header.wire >>= k := by
  have hmax : (msg ++ [0]).length ≤ maxPacketPayload.toNat := by rw [List.length_append]; exact hlen
  have hle : ¬ UInt32.ofNat (msg ++ [0]).length > maxPacketPayload := by
    rw [gt_iff_lt, UInt32.lt_iff_toNat_lt, Packet.toNat_len hmax]
    omega
  rw [reply, sendTextReply_some]
  simp only [sendPacket, if_neg hle, TlvHeader.bytes_hton]
  rw [bind_assoc]
  exact ⟨_, rfl⟩

theorem run_reply (hR : Backward (fed env avail) R) {type : CmdType} {status : StatusCode} {msg : Bytes}
    {k : Rc × Session → Io α} (hlen : msg.length < maxPacketPayload.toNat) (hin : w.proc.rcvd <+: avail)
    (h : R (k (.ok, session), ⟨w.fs, w.proc.addSent (textPacket type status msg).wire⟩)) :
    R (reply session type status msg >>= k, w) := by
  rw [reply, sendTextReply_some, bind_assoc]
  have hmax : (msg ++ [0]).length ≤ maxPacketPayload.toNat := by rw [List.length_append]; exact hlen
  refine run_sendPacket _ hR rfl rfl hmax hin ?_
  simpa [textPacket] using h

theorem run_sendResumePacket (hR : Backward (fed env avail) R) {type : CmdType} {offset : UInt64}
    {k : Rc → Io α} (hin : w.proc.rcvd <+: avail)
    (h : R (k .ok, ⟨w.fs, w.proc.addSent (resumePacket type offset).wire⟩)) :
    R (sendResumePacket type .ok offset >>= k, w) := by
  have hp : (some (resumePayload offset)).getD [] = resumePayload offset := rfl
  exact run_sendPacket _ hR hp (by simp) (by rw [length_resumePayload]; decide) hin h

theorem run_recvFollowPacket (hR : Backward (fed env avail) R) {p : Packet}
    {k : Rc × Session × Packet → Io α} (hp : p.Valid) (hin : w.proc.rcvd ++ p.wire <+: avail)
    (h : R (k (.ok, session, p), ⟨w.fs, w.proc.addRcvd p.wire⟩)) : R (recvFollowPacket session >>= k, w) := by
  rw [recvFollowPacket, bind_assoc]
  exact run_recvPacket hR hp hin h

/-- A request arrives and is dispatched. -/
theorem run_request (hR : Backward (fed env avail) R) {p : Packet} {k : Session ⊕ Rc → Io α}
    (hopen : session.shouldClose = false) (hp : p.Valid) (hin : w.proc.rcvd ++ p.wire <+: avail)
    (h : R (dispatchCommand session p >>= fun x => afterCommand x >>= k, ⟨w.fs, w.proc.addRcvd p.wire⟩)) :
    R (handleRequestRound session >>= k, w) := by
  rw [handleRequestRound_of_open hopen, bind_assoc]
  apply run_recvPacket hR hp hin
  rwa [← bind_assoc] at h

end Server

/-- A run of one process to `Q`, whatever its peer wrote. -/
theorem backward_kernel (Q : Io α × World → Prop) :
    Backward (fed env avail) fun c => ∃ c', Steps (kernel env) c c' ∧ Q c' :=
  (backward_steps Q).mono fun _ _ _ _ h => h.1

/-- A run of one of many processes to `d`, while the others wait. -/
theorem runs_alone {ι : Type} [DecidableEq ι] {c : Threads Call Res FS Proc ι α} {ok : StepOk Call Res FS Proc ι α} {i : ι}
    {q : Io α} {fs : FS} {p : Proc} {d : Io α × World} (hprog : c.prog i = q) (hfs : c.shared = fs) (hloc : c.loc i = p)
    (hok : ∀ {s l e k r v}, Steps (kernel env) (q, ⟨fs, p⟩) (.call e k, ⟨s, l⟩) → kernel env ⟨s, l⟩ e r v →
      Steps (kernel env) (k r, v) d → ok (c.put i s (.call e k) l) i e r)
    (h : Steps (kernel env) (q, ⟨fs, p⟩) d) : ParSteps (kernel env) World.mk ok c (c.put i d.2.fs d.1 d.2.proc) := by
  subst hprog hfs hloc
  obtain ⟨_, _, hw, hrun⟩ := Par.run (fun w => ⟨w.fs, w.proc, rfl⟩) (fun hr hs hrest => ⟨hs, hok hr hs hrest⟩) h
  rwa [← hw]

end Runs

end WindCloud
