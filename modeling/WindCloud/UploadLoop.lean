import WindCloud.Locality
import WindCloud.Visible
import WindCloud.Acknowledged
import WindCloud.Termination
import WindCloud.UploadRun
/-!
# What the receive loop of an upload takes

`taking` is the receive loop (`handle.c:673-719`) as a function of the packets that come: it takes the
`FILE_DATA` packets up to the first packet that is something else or would pass the announced size.
`handlePuts_exact` says that `handle_puts` is no more than that, for every stream of bytes from the client:
the target is left as it was up to the resume point, followed by what was taken.

| here | there |
| --- | --- |
| `taking`    | the branches of the loop (`handle.c:681-718`) |
| `resumeLen` | `write_offset` before the loop (`handle.c:604-621`) |
-/

namespace WindCloud

open Interaction Prog FileImage

/-- Only sending, allocating and an extension to a negative length fail. -/
def Env.Steady (env : Env) : Prop := ∀ c, env.faults c → (∃ buf, c = .send buf) ∨ (∃ n, c = .calloc n) ∨
  ∃ fd n, c = .ftruncate fd n .extend ∧ n < 0

section Steady

variable {env : Env} {path : Bytes}

theorem Env.Steady.stat (h : env.Steady) (fd : Nat) : ¬ env.faults (.fstat fd) := fun hf => by
  rcases h _ hf with ⟨_, h⟩ | ⟨_, h⟩ | ⟨_, _, h, -⟩ <;> cases h

theorem Env.Steady.open (h : env.Steady) : ¬ env.faults (.openFile path .rdwrCreat) := fun hf => by
  rcases h _ hf with ⟨_, h⟩ | ⟨_, h⟩ | ⟨_, _, h, -⟩ <;> cases h

theorem Env.Steady.reset (h : env.Steady) (fd : Nat) : ¬ env.faults (.ftruncate fd 0 .reset) := fun hf => by
  rcases h _ hf with ⟨_, h⟩ | ⟨_, h⟩ | ⟨_, _, h, -⟩ <;> cases h

end Steady

namespace Server

/-- What the loop takes of the packets when `write_offset` is `off`, and whether it ends on `FILE_END`. -/
def taking (total : UInt64) : Nat → List Packet → List Packet × Bool
  | _, [] => ([], false)
  | off, p :: ps =>
    if p.Is .fileEnd then ([], true)
    else if p.Is .fileData ∧ off + p.data.length ≤ total.toNat then
      let (qs, ended) := taking total (off + p.data.length) ps
      (p :: qs, ended)
    else ([], false)

/-- Where an upload to the contents `C` resumes. -/
def resumeLen (total : UInt64) (C : Bytes) : Nat := if C.length ≤ total.toNat then C.length else 0

/-! ## The loop as a function -/

section Taking

variable {total : UInt64} {off : Nat} {p : Packet} {ps qs : List Packet}

theorem taking_end (h : p.Is .fileEnd) : taking total off (p :: ps) = ([], true) := by
  rw [taking, if_pos h]

theorem taking_refused (h : ¬ p.Is .fileEnd) (h' : p.Is .fileData → total.toNat < off + p.data.length) :
    taking total off (p :: ps) = ([], false) := by
  rw [taking, if_neg h, if_neg fun ⟨hd, hle⟩ => by have := h' hd; omega]

theorem not_end_of_data (h : p.Is .fileData) : ¬ p.Is .fileEnd := fun h' => by
  have := h.symm.trans h'
  simp at this

theorem taking_data (h : p.Is .fileData) (hle : off + p.data.length ≤ total.toNat) :
    taking total off (p :: ps) =
      (p :: (taking total (off + p.data.length) ps).1, (taking total (off + p.data.length) ps).2) := by
  rw [taking, if_neg (not_end_of_data h), if_pos ⟨h, hle⟩]

/-- Blocks that fit are all taken. -/
theorem taking_append (hqs : ∀ p ∈ qs, p.Is .fileData) (hle : off + (payloads qs).length ≤ total.toNat) :
    taking total off (qs ++ ps) =
      (qs ++ (taking total (off + (payloads qs).length) ps).1, (taking total (off + (payloads qs).length) ps).2) := by
  induction qs generalizing off with
  | nil => rfl
  | cons q qs ih =>
    rw [List.forall_mem_cons] at hqs
    rw [payloads_cons, List.length_append] at hle
    rw [List.cons_append, taking_data hqs.1 (by omega), ih hqs.2 (by omega), payloads_cons, List.length_append,
      Nat.add_assoc]
    rfl

/-- What is taken fits, and is nothing but blocks. -/
theorem taking_fits (hoff : off ≤ total.toNat) : off + (payloads (taking total off ps).1).length ≤ total.toNat ∧
    (∀ p ∈ (taking total off ps).1, p.Is .fileData) ∧ (taking total off ps).1 <+: ps := by
  induction ps generalizing off with
  | nil => simpa [taking] using hoff
  | cons p ps ih =>
    unfold taking
    split
    · simpa using hoff
    split
    · rename_i h
      obtain ⟨hlen, hdata, hpre⟩ := ih h.2
      simp only [payloads_cons, List.length_append, List.forall_mem_cons]
      exact ⟨by omega, ⟨h.1, hdata⟩, (List.prefix_cons_inj p).2 hpre⟩
    · simpa using hoff

/-- `write_offset + data_len` does not wrap, whatever packet comes next. -/
theorem no_wrap (hp : p.Valid) (hsmall : total.toNat < 2 ^ 63) (hoff : off ≤ total.toNat) :
    (UInt64.ofNat off + p.header.dataLen.toUInt64).toNat = off + p.data.length := by
  have hlen := hp.data_le
  have hmax : maxPacketPayload.toNat = 65536 := rfl
  rw [UInt64.toNat_add, UInt32.toNat_toUInt64, ← hp.length, UInt64.toNat_ofNat_of_lt' (by show _ < 2 ^ 64; omega)]
  exact Nat.mod_eq_of_lt (by omega)

end Taking

/-- The upload works on its target. -/
theorem PutsPoint.onFile {env : Env} {b q : Proc} {path : Bytes} {total : UInt64} {c : Call}
    (hp : PutsPoint env b path total q c) : OnFile path q c := by
  cases hp with
  | openFile => rfl
  | fstat | reset | extend | cut =>
    intro f hf
    have : ⟨path, 0⟩ = f := by simpa using hf
    exact this ▸ rfl
  | memcpy _ hm =>
    intro mp hmp
    have := (Progress.proc_maps _ hm).symm.trans hmp
    exact Option.some.inj this ▸ rfl
  | _ => trivial

/-! ## Alone with the target -/

/-- `PUTS_RESP` could not be sent. -/
def Unsent (b : Proc) (x : Rc × Session) (p : Proc) : Prop := x.1 = .fail ∧ ∃ offset pre rest,
  p.sent = b.sent ++ pre ∧ pre ++ rest <+: (resumePacket .putsResp offset).wire ∧ rest ≠ []

/-- What `handle_puts` has done when it returns, if `ps` is what came and `C` is what the target held. -/
structure Uploaded (env : Env) (path : Bytes) (total : UInt64) (C : Bytes) (b : Proc) (ps : List Packet)
    (x : Rc × Session) (w : World) : Prop where
  file : w.fs.Has path (C.take (resumeLen total C) ++ payloads (taking total (resumeLen total C) ps).1)
  reply : ∃ pre, w.proc.sent = b.sent ++ (resumePacket .putsResp (.ofNat (resumeLen total C))).wire ++ pre ∧
    Sent env (putsReply ((taking total (resumeLen total C) ps).2 &&
      resumeLen total C + (payloads (taking total (resumeLen total C) ps).1).length == total.toNat)) x.1 pre
  closes : x.2.shouldClose = !(taking total (resumeLen total C) ps).2

section Alone

variable {env : Env} {faults : Call → Prop} {b : Proc} {path C : Bytes} {total : UInt64} {session session' : Session}
  {packet : Packet} {ps : List Packet} {tail bs : Bytes} {fs : FS} {v : World}

theorem toNat_startOffset (hC : C.length < 2 ^ 63) : (startOffset total (some C.length)).toNat = resumeLen total C := by
  have hst : ∀ n, some C.length = some n → n = C.length := by simp
  rcases resume_cases total hst hC with ⟨h, -⟩ | ⟨-, hle, -, h⟩ | ⟨-, hlt, -, h⟩
  · cases h
  · rw [h, resumeLen, if_pos hle]
  · rw [h, resumeLen, if_neg (by omega)]
    rfl

theorem startOffset_eq (hC : C.length < 2 ^ 63) : startOffset total (some C.length) = .ofNat (resumeLen total C) := by
  rw [← toNat_startOffset hC, UInt64.ofNat_toNat]

theorem resumed_eq (hC : C.length < 2 ^ 63) : resumed total (some C.length) C = C.take (resumeLen total C) := by
  rw [resumed, toNat_startOffset hC, resumeLen]
  have hst : ∀ n, some C.length = some n → n = C.length := by simp
  rcases resume_cases total hst hC with ⟨h, -⟩ | ⟨-, hle, hk, -⟩ | ⟨-, hlt, hk, -⟩
  · cases h
  · rw [hk]
  · rw [hk, if_neg (by omega)]
    simp

theorem resumeLen_le (total : UInt64) (C : Bytes) : resumeLen total C ≤ total.toNat := by
  unfold resumeLen
  split <;> omega

/-- A size that `off_t` cannot hold: no call changes the target. -/
theorem Gauged.refuses (hg : Gauged b path C v) (hbig : 2 ^ 63 ≤ total.toNat) (hC : C.length < 2 ^ 63) {c : Call}
    {r : Res c} {v' : World} (hp : PutsPoint env b path total v.proc c) (hk : kernel (.quiet faults) v c r v') :
    v'.fs.bytes path = v.fs.bytes path := by
  obtain ⟨t, htrace, -, hst⟩ := hg
  obtain ⟨fs, q⟩ := v
  change q.trace = _ at htrace
  change PutsPoint env b path total q c at hp
  by_cases hc : c.Changes
  · cases hp with
    | openFile =>
      rcases kernel_create hk with ⟨-, hfs⟩ | ⟨fd, -, hfile⟩
      · rw [hfs]
      · exact hfile.bytes
    | @reset fd st hfd hover =>
      obtain rfl : _ = t := List.append_cancel_left htrace
      obtain rfl := hst fd st (by simp)
      rw [gt_iff_lt, UInt64.lt_iff_toNat_lt, toNat_resumePoint (by omega)] at hover
      omega
    | extend =>
      rcases kernel_ftruncate hk (show _ = some (⟨path, 0⟩ : OpenFile) by simp) with ⟨-, hfs⟩ | ⟨-, hn, -⟩
      · rw [hfs]
      · have := offT_nonneg.1 hn
        omega
    | memcpy hu =>
      have := hu.lt
      omega
    | cut hu =>
      have := hu.lt
      omega
    | _ => exact hc.elim
  · rw [kernel_still hk (Env.quiet_quiet _) hc]

/-- Such an upload is refused, and the loop is not entered. -/
theorem handlePuts_refuses {q : Io (Rc × Session)} (ht : uploadTarget session packet = some (path, total))
    (hstat : ∀ fd, ¬ faults (.fstat fd)) (hbig : 2 ^ 63 ≤ total.toNat)
    (hrun : Steps (kernel (.quiet faults)) (handlePuts session packet, ⟨fs, b⟩) (q, v)) :
    v.fs.bytes path = fs.bytes path ∧ ∀ n k, q ≠ .call (.recv .follow n) k := by
  have hwp : wp (kernel (.quiet faults)) (fun v c => PutsPoint (.quiet faults) b path total v.proc c)
      (handlePuts session packet) (PutsEnd (.quiet faults) b path total session (fs.bytes path)) ⟨fs, b⟩ := wp_handlePuts ht
  have hkeep : Gauged b path (fs.bytes path) v ∧ v.fs.bytes path = fs.bytes path := by
    refine wp_keeps (I := fun v => Gauged b path (fs.bytes path) v ∧ v.fs.bytes path = fs.bytes path) hwp ?_
      ⟨.start, rfl⟩ hrun
    rintro v e r v' hp hk ⟨hg, hv⟩
    exact ⟨hg.step hstat hp hk, (hg.refuses hbig (fs.bytes_lt path) hp hk).trans hv⟩
  refine ⟨hkeep.2, ?_⟩
  rintro n k rfl
  have hp := wp_check hwp hrun
  generalize v.proc = q at hp
  cases hp with
  | recv hu =>
    have := hu.lt
    omega

/-- The copies go into the mapping, behind the resume point. -/
theorem handlePuts_copies {m off : Nat} {data : Bytes} {k : Unit → Io (Rc × Session)}
    (ht : uploadTarget session packet = some (path, total)) (hstat : ∀ fd, ¬ faults (.fstat fd))
    (hrun : Steps (kernel (.quiet faults)) (handlePuts session packet, ⟨fs, b⟩) (.call (.memcpy m off data) k, v)) :
    resumeLen total (fs.bytes path) ≤ off ∧ off + data.length ≤ total.toNat ∧
      v.proc.maps m = some ⟨path, total.toNat⟩ := by
  obtain ⟨t, htrace, -, hst⟩ := handlePuts_gauged ht hstat hrun
  have hp := wp_check (wp_handlePuts ht) hrun
  generalize v.proc = q at hp htrace
  cases hp with
  | @memcpy u p _ hu hm =>
    rw [Progress.proc_trace] at htrace
    obtain rfl : _ = t := List.append_cancel_left htrace
    have hst : u.st = some (fs.bytes path).length := hst u.fd u.st (by simp [Progress.trace, fstat_mem_measured])
    have hfits := hu.fits
    rw [Progress.add_offset] at hfits
    refine ⟨?_, hfits, Progress.proc_maps _ hm⟩
    rw [← toNat_startOffset (fs.bytes_lt path), ← hst]
    exact Nat.le_add_right _ _

/-- If the target is opened and reset, `PUTS_RESP` is sent or fails. -/
theorem wp_handlePuts_resp (ht : uploadTarget session packet = some (path, total))
    (hopen : ¬ env.faults (.openFile path .rdwrCreat)) (hreset : ∀ fd, ¬ env.faults (.ftruncate fd 0 .reset)) :
    wp (kernel env) (fun _ _ => True) (handlePuts session packet) (fun x v => Unsent b x v.proc ∨
      ∃ st, b.sent ++ (putsResp total st).wire <+: v.proc.sent) ⟨fs, b⟩ := by
  obtain ⟨fileName, virtualPath, hinfo, hname, hpath⟩ := uploadTarget_eq_some.1 ht
  unfold handlePuts
  simp only [hinfo, hpath, if_neg hname]
  refine wp_openCreat trivial (fun _ _ hf => absurd hf hopen) ?_
  intro fs₁ fs₂ fd _ _ _ _
  have hfrom {w : World} (st : Option Nat) (hw : w.proc.sent = b.sent) :
      wp (kernel env) (fun _ _ => True) (uploadFrom session fd total (startOffset total st)) (fun x v => Unsent b x v.proc ∨
        ∃ st, b.sent ++ (putsResp total st).wire <+: v.proc.sent) w := by
    refine wp_bind.2 (wp_sendResumePacket (fun _ _ _ _ _ _ => trivial) ?_ ?_)
    · intro fs₃ _
      have hgrow : wp (kernel env) (fun _ _ => True) (uploadMapped session fd total (startOffset total st))
          (fun _ v => b.sent ++ (putsResp total st).wire <+: v.proc.sent)
          ⟨fs₃, w.proc.addSent (putsResp total st).wire⟩ :=
        wp_stable (fun _ _ _ _ hk h => h.trans (kernel_grows hk).2) (by simp [hw])
      exact wp_mono hgrow fun _ _ h => .inr ⟨st, h⟩
    · intro fs₃ pre rest _ hpre hne _
      rw [← bind_ret (Sys.close fd)]
      exact wp_close trivial fun _ _ => .inl ⟨rfl, _, pre, rest, by simp [hw], hpre, hne⟩
  have hst {w : World} (st : Option Nat) (hw : w.proc.sent = b.sent) :
      wp (kernel env) (fun _ _ => True) (uploadMeasured session fd total st) (fun x v => Unsent b x v.proc ∨
        ∃ st, b.sent ++ (putsResp total st).wire <+: v.proc.sent) w := by
    unfold uploadMeasured
    split
    · rename_i hover
      refine wp_ftruncate trivial (fun _ _ hf => absurd hf (hreset fd)) fun _ _ _ _ _ _ _ => ?_
      have hstart : startOffset total st = 0 := if_pos hover
      rw [← hstart]
      exact hfrom st hw
    · rename_i hover
      have hstart : startOffset total st = resumePoint st := if_neg hover
      rw [← hstart]
      exact hfrom st hw
  exact wp_fstat trivial (fun _ _ _ => hst none rfl) fun _ n _ _ _ _ _ => hst (some n) rfl

/-- Why the loop stopped, told from the packets that came. -/
theorem Stop.taking {off : Nat} {success : Bool} {unallocated : Prop} (hs : Stop env session total off bs session' success)
    (hopen : session.shouldClose = false) (hps : ∀ p ∈ ps, p.Valid) (htail : Partial tail)
    (hpre : bs <+: Packet.wires ps ++ tail)
    (hbroken : Partial bs → Broken env .follow bs → ps = [] ∨ unallocated) :
    ∃ qs, qs <+: ps ∧ (qs = ps ∨ unallocated) ∧ (Server.taking total off qs).1 = [] ∧
      session'.shouldClose = !(Server.taking total off qs).2 ∧
      success = ((Server.taking total off qs).2 && off == total.toNat) := by
  -- a whole packet at the start of what came is the first of `ps`
  have hfirst {p : Packet} (hp : p.Valid) (hpre : p.wire <+: Packet.wires ps ++ tail) : ∃ rest, ps = p :: rest := by
    cases ps with
    | nil => exact absurd hpre (htail p hp)
    | cons q rest =>
      rw [Packet.wires_cons, List.append_assoc] at hpre
      rw [Packet.wire_code.word_prefix hp (hps q (by simp)) hpre]
      exact ⟨rest, rfl⟩
  cases hs with
  | fileEnd hp hend =>
    obtain ⟨rest, rfl⟩ := hfirst hp hpre
    exact ⟨_, List.prefix_refl _, .inl rfl, by simp [taking_end hend, hopen]⟩
  | refused hp hend hover =>
    obtain ⟨rest, rfl⟩ := hfirst hp hpre
    exact ⟨_, List.prefix_refl _, .inl rfl, by simp [taking_refused hend hover, Session.closing]⟩
  | broken hpart hb =>
    rcases hbroken hpart hb with rfl | hcalloc
    · exact ⟨[], List.prefix_refl _, .inl rfl, by simp [Server.taking, Session.closing]⟩
    · exact ⟨[], List.nil_prefix, .inr hcalloc, by simp [Server.taking, Session.closing]⟩

/-- An upload whose `PUTS_RESP` went out was not refused before it. -/
theorem Sent.not_resp {e : Packet} {rc : Rc} {pre : Bytes} {st : Option Nat} (hs : Sent env e rc pre) (hv : e.Valid)
    (he : e.Is .error) : ¬ (putsResp total st).wire <+: pre := fun h => by
  have hword : (putsResp total st).wire <+: e.wire ++ [] := by simpa using h.trans hs.starts
  rw [← Packet.wire_code.word_prefix (putsResp_valid st) hv hword, putsResp_is] at he
  cases he

theorem length_putsResp (st : Option Nat) : (putsResp total st).wire.length = 28 := by
  rw [Packet.wire_length, putsResp, resumePacket, Packet.data_of, length_resumePayload]
  rfl

theorem Sent.not_whole {pre : Bytes} {st st' : Option Nat} (hs : Sent env (putsResp total st) .fail pre) :
    ¬ (putsResp total st').wire <+: pre := fun h => by
  rcases hs with ⟨h, -⟩ | ⟨-, rest, hpre, hne, -⟩
  · cases h
  · have hlen := hpre.length_le
    have hlen' := h.length_le
    rw [length_putsResp] at hlen hlen'
    rw [List.length_append] at hlen
    exact hne (List.length_eq_zero_iff.1 (by omega))

/-- What is left to come when the loop stops without a packet. -/
theorem Broken.rest (h : Broken env .follow bs) (hrecv : ∀ n, ¬ env.faults (.recv .follow n))
    (hps : ∀ p ∈ ps, p.Valid) (hpre : bs <+: Packet.wires ps ++ tail) : ps = [] ∨ ∃ n, env.faults (.calloc n) := by
  rcases h with ⟨n, hn⟩ | hcalloc | ⟨hlen, hbad⟩
  · exact absurd hn (hrecv n)
  · exact .inr hcalloc
  · -- a bad header starts no packet
    refine .inl ?_
    cases ps with
    | nil => rfl
    | cons p rest =>
      rw [Packet.wires_cons, Packet.wire, List.append_assoc, List.append_assoc] at hpre
      have hhd : bs <+: p.header.wire :=
        List.prefix_of_prefix_length_le hpre (List.prefix_append _ _) (by simp [hlen])
      rw [hhd.eq_of_length (by simp [hlen]), TlvHeader.ofWire_wire] at hbad
      exact absurd (hps p (by simp)).header hbad

/-- The return of an upload; `hbroken` says when `recv_packet` fails. -/
theorem PutsEnd.uploaded {envE : Env} {x : Rc × Session} (hend : PutsEnd envE b path total session C x v)
    (hfaults : ∀ c, envE.faults c → env.faults c ∨ ∃ wait n, c = .recv wait n) (hsteady : env.Steady) (hq : envE.Quiet)
    (hC : C.length < 2 ^ 63) (hsmall : total.toNat < 2 ^ 63) (hopen : session.shouldClose = false)
    (hps : ∀ p ∈ ps, p.Valid) (htail : Partial tail) (hin : v.proc.rcvd <+: b.rcvd ++ (Packet.wires ps ++ tail))
    (hresp : ∃ st, b.sent ++ (putsResp total st).wire <+: v.proc.sent)
    (hbroken : ∀ qs rest bs, ps = qs ++ rest → v.proc.rcvd = b.rcvd ++ (Packet.wires qs ++ bs) → Partial bs →
      Broken envE .follow bs → rest = [] ∨ ∃ n, env.faults (.calloc n)) :
    ∃ qs, qs <+: ps ∧ (qs = ps ∨ ∃ n, env.faults (.calloc n)) ∧ Uploaded env path total C b qs x v := by
  have hfault (c : Call) (h : envE.faults c) : (∃ buf, c = .send buf) ∨ (∃ n, c = .calloc n) ∨
      (∃ fd n, c = .ftruncate fd n .extend ∧ n < 0) ∨ ∃ wait n, c = .recv wait n := by
    rcases hfaults c h with h | h
    · rcases hsteady c h with h | h | h
      · exact .inl h
      · exact .inr (.inl h)
      · exact .inr (.inr (.inl h))
    · exact .inr (.inr (.inr h))
  obtain ⟨st₀, hresp⟩ := hresp
  cases hend with
  | refused hv he hs =>
    exact absurd ((List.prefix_append_right_inj _).1 hresp) (hs.not_resp hv he)
  | @unsent fs fd st pre hs =>
    exact absurd ((List.prefix_append_right_inj _).1 hresp) hs.not_whole
  | extendFailed hf =>
    rcases hfault _ hf with ⟨_, h⟩ | ⟨_, h⟩ | ⟨_, _, h, hn⟩ | ⟨_, _, h⟩
    · cases h
    · cases h
    · cases h
      rw [offT_of_lt hsmall] at hn
      omega
    · cases h
  | mapFailed hf =>
    rcases hfault _ hf with ⟨_, h⟩ | ⟨_, h⟩ | ⟨_, _, h, -⟩ | ⟨_, _, h⟩ <;> cases h
  | @done fs u bs session' success cut rc pre hu hstop hcut hs hst hheld =>
    have hcut : cut = true := by
      by_contra hf
      obtain ⟨fd, n, h⟩ := hcut (by simpa using hf)
      rcases hfault _ h with ⟨_, h⟩ | ⟨_, h⟩ | ⟨_, _, h, -⟩ | ⟨_, _, h⟩ <;> cases h
    have hmeasured : u.st = some C.length := by
      rcases hst' : u.st with _ | n
      · obtain ⟨fd, h⟩ := hst.fault hst'
        rcases hfault _ h with ⟨_, h⟩ | ⟨_, h⟩ | ⟨_, _, h, -⟩ | ⟨_, _, h⟩ <;> cases h
      · rw [hst.size hq n hst']
    subst hcut
    have hoff : u.offset total = resumeLen total C + (payloads u.pkts).length := by
      rw [Progress.offset, hmeasured, toNat_startOffset hC]
      rfl
    -- the packets received are the first of those that came
    have hpre : Packet.wires u.pkts ++ bs <+: Packet.wires ps ++ tail := (List.prefix_append_right_inj _).1 hin
    obtain ⟨rest, rfl, hbs⟩ := Packet.wire_code.all_prefix_append (fun p hp => (hu.blocks p hp).1) hps htail hpre
    obtain ⟨qs, hqs, hall, htaken, hclose, hsuccess⟩ := hstop.taking hopen (fun p hp => hps p (by simp [hp])) htail hbs
      fun hpart hb => hbroken _ _ _ rfl rfl hpart hb
    have htaking : taking total (resumeLen total C) (u.pkts ++ qs) =
        (u.pkts, (taking total (u.offset total) qs).2) := by
      rw [taking_append (fun p hp => (hu.blocks p hp).2) (hoff ▸ hu.fits), ← hoff, htaken, List.append_nil]
    refine ⟨u.pkts ++ qs, (List.prefix_append_right_inj _).2 hqs, ?_, ?_⟩
    · rcases hall with rfl | h
      · exact .inl rfl
      · exact .inr h
    · refine ⟨?_, ⟨pre, ?_, ?_⟩, ?_⟩
      · rw [htaking, ← resumed_eq hC, ← hmeasured]
        rcases final_file hu hstop (hst.size hq) hC with h | ⟨h, -⟩
        · have := hheld hq
          rwa [h] at this
        · rw [hmeasured] at h
          cases h
      · simp [putsResp, hmeasured, startOffset_eq hC]
      · rw [htaking]
        simp only
        rw [← hoff, ← hsuccess]
        exact hs.mono fun buf h => (hfaults _ h).resolve_right (by simp)
      · rw [htaking]
        exact hclose

/-- The return of an upload that is alone with the target. -/
theorem handlePuts_returned {x : Rc × Session} (ht : uploadTarget session packet = some (path, total))
    (hopen : session.shouldClose = false) (hsteady : (Env.quiet faults).Steady) (hps : ∀ p ∈ ps, p.Valid)
    (htail : Partial tail) (hsmall : total.toNat < 2 ^ 63)
    (hrun : Steps (streamed (.quiet faults) (b.rcvd ++ (Packet.wires ps ++ tail))) (handlePuts session packet, ⟨fs, b⟩)
      (.ret x, v)) :
    Unsent b x v.proc ∨ ∃ qs, qs <+: ps ∧ (qs = ps ∨ ∃ n, faults (.calloc n)) ∧
      Uploaded (.quiet faults) path total (fs.bytes path) b qs x v := by
  have hC := fs.bytes_lt path
  have hin : v.proc.rcvd <+: b.rcvd ++ (Packet.wires ps ++ tail) := streamed_prefix hrun (List.prefix_append _ _)
  have hno {c : Call} (hc : ¬ faults c) (hrecv : ∀ wait n, c ≠ .recv wait n) : ¬ (Env.quiet faults).ending.faults c := by
    rintro (h | ⟨wait, n, h⟩)
    · exact hc h
    · exact hrecv wait n h
  have hresp :=
    wp_result (wp_handlePuts_resp ht (hno hsteady.open (by simp)) fun fd => hno (hsteady.reset fd) (by simp))
      (streamed_steps hrun)
  refine hresp.imp_right ?_
  intro hresp
  rcases streamed_cases hrun with hun | hall
  · -- the stream has not ended
    have hend : PutsEnd (Env.quiet faults).unbroken b path total session (fs.bytes path) x v :=
      wp_result (wp_handlePuts ht) hun
    refine hend.uploaded (fun c h => .inl h.1) hsteady (fun h => h) hC hsmall hopen hps htail hin hresp ?_
    rintro qs rest bs rfl hrcvd - hb
    have hpre : bs <+: Packet.wires rest ++ tail := by
      rw [hrcvd, List.prefix_append_right_inj, Packet.wires_append, List.append_assoc, List.prefix_append_right_inj] at hin
      exact hin
    refine (Broken.rest hb (fun n h => h.2 _ _ rfl) (fun p hp => hps p (by simp [hp])) hpre).imp_right ?_
    exact fun ⟨n, h⟩ => ⟨n, h.1⟩
  · -- it has been read to its end
    have hend : PutsEnd (Env.quiet faults).ending b path total session (fs.bytes path) x v :=
      wp_result (wp_handlePuts ht) (streamed_steps hrun)
    refine hend.uploaded (fun c h => h) hsteady (fun h => h) hC hsmall hopen hps htail hin hresp ?_
    rintro qs rest bs rfl hrcvd hpart -
    have hrest : Packet.wires rest ++ tail = bs := by
      have := hall.symm.trans hrcvd
      rw [Packet.wires_append, List.append_assoc] at this
      exact List.append_cancel_left (List.append_cancel_left this)
    refine .inl ?_
    cases rest with
    | nil => rfl
    | cons p rest =>
      refine absurd ?_ (hpart p (hps p (by simp)))
      rw [← hrest, Packet.wires_cons, List.append_assoc]
      exact List.prefix_append _ _

end Alone

/-! ## Any client -/

section Client

variable {env : Env} {path avail : Bytes} {total : UInt64} {session : Session} {packet : Packet} {ps : List Packet}
  {tail : Bytes} {w : World} {c : Call} {r : Res c}

/-- **What the receive loop stores.** One session runs `handle_puts`, nobody else uses its target, and only sending,
allocating and an extension to a negative length may fail. The client sends any bytes and no more, the whole
packets in them being `ps`. The run ends. An announced size that `off_t` cannot hold is refused before the loop and
the target stays as it was. Otherwise `write_offset + data_len` does not wrap, the copies go into the mapping behind
the resume point, and when `handle_puts` returns, the target is what was kept and what `taking` takes of the
packets received, the upload is acknowledged if and only if the loop ended on `FILE_END` at the announced size,
and the session is closed if and only if it did not end on `FILE_END`. -/
theorem handlePuts_exact (ht : uploadTarget session packet = some (path, total)) (hopen : session.shouldClose = false)
    (hown : env.Leaves path) (hsteady : env.Steady) (hps : ∀ p ∈ ps, p.Valid) (htail : Partial tail) (w : World) (j : Nat) :
    Acc (fun c' c => Step ((streamed env (w.proc.rcvd ++ (Packet.wires ps ++ tail))).budget Stalled) c c')
      (handlePuts session packet, w, j) ∧
    (2 ^ 63 ≤ total.toNat → ∀ q v,
      Steps (streamed env (w.proc.rcvd ++ (Packet.wires ps ++ tail))) (handlePuts session packet, w) (q, v) →
      v.fs.bytes path = w.fs.bytes path ∧ ∀ n k, q ≠ .call (.recv .follow n) k) ∧
    (total.toNat < 2 ^ 63 →
      (∀ qs p rest, ps = qs ++ p :: rest → taking total (resumeLen total (w.fs.bytes path)) qs = (qs, false) →
        (UInt64.ofNat (resumeLen total (w.fs.bytes path) + (payloads qs).length) + p.header.dataLen.toUInt64).toNat =
          resumeLen total (w.fs.bytes path) + (payloads qs).length + p.data.length) ∧
      (∀ m off data k v, Steps (streamed env (w.proc.rcvd ++ (Packet.wires ps ++ tail)))
          (handlePuts session packet, w) (.call (.memcpy m off data) k, v) →
        resumeLen total (w.fs.bytes path) ≤ off ∧ off + data.length ≤ total.toNat ∧
          v.proc.maps m = some ⟨path, total.toNat⟩) ∧
      ∀ x v, Steps (streamed env (w.proc.rcvd ++ (Packet.wires ps ++ tail))) (handlePuts session packet, w) (.ret x, v) →
        Unsent w.proc x v.proc ∨ ∃ qs, qs <+: ps ∧ (qs = ps ∨ ∃ n, env.faults (.calloc n)) ∧
          Uploaded env path total (w.fs.bytes path) w.proc qs x v) := by
  obtain ⟨fs₀, b⟩ := w
  have hquiet {q : Io (Rc × Session)} {v : World}
      (h : Steps (streamed env (b.rcvd ++ (Packet.wires ps ++ tail))) (handlePuts session packet, ⟨fs₀, b⟩) (q, v)) :
      ∃ fs, Steps (streamed (.quiet env.faults) (b.rcvd ++ (Packet.wires ps ++ tail)))
        (handlePuts session packet, ⟨fs₀, b⟩) (q, ⟨fs, v.proc⟩) ∧ v.fs path = fs path :=
    steps_onFile hown (wp_mono (wp_weaken (wp_handlePuts ht) (fun _ _ _ _ => id) fun _ _ => PutsPoint.onFile)
      fun _ _ h => h) h
  have hstat (fd : Nat) : ¬ (Env.quiet env.faults).ending.faults (.fstat fd) := by
    rintro (h | ⟨_, _, h⟩)
    · exact hsteady.stat fd h
    · cases h
  refine ⟨(handlePuts_concludes fun _ => trivial).acc (fun _ _ _ _ => streamed_failing) (List.prefix_append _ _) j,
    fun hbig q v hrun => ?_, fun hsmall => ⟨?_, ?_, ?_⟩⟩
  · obtain ⟨fs, hrun', hfs⟩ := hquiet hrun
    have h := handlePuts_refuses ht hstat hbig (streamed_steps hrun')
    rwa [FS.bytes, hfs]
  · rintro qs p rest rfl htaken
    have hfits : _ + (payloads (taking total _ qs).1).length ≤ total.toNat :=
      (taking_fits (resumeLen_le total (fs₀.bytes path))).1
    rw [htaken] at hfits
    exact no_wrap (hps p (by simp)) hsmall hfits
  · intro m off data k v hrun
    obtain ⟨fs, hrun', -⟩ := hquiet hrun
    exact handlePuts_copies (v := ⟨fs, v.proc⟩) ht hstat (streamed_steps hrun')
  · intro x v hrun
    obtain ⟨fs, hrun', hfs⟩ := hquiet hrun
    refine (handlePuts_returned ht hopen hsteady hps htail hsmall hrun').imp_right ?_
    rintro ⟨qs, hqs, hall, hfile, hreply, hclose⟩
    exact ⟨qs, hqs, hall, (FS.Has.congr hfs).2 hfile, hreply, hclose⟩

/-! ### A resumed upload -/

/-- Where `recv` does not fail, the stream does not end. -/
theorem fed_streamed {v : World} (hrecv : ∀ wait n, ¬ env.faults (.recv wait n)) (h : fed env avail w c r v) :
    streamed env avail w c r v := by
  obtain ⟨⟨fs, hr, u, he, hv⟩, hin⟩ := h
  refine ⟨⟨fs, hr, u, effect_faults he .inl, hv⟩, hin, fun hdry => ?_⟩
  cases c with
  | recv wait n =>
    rcases r with _ | _ | _ | ⟨b, bs⟩
    · exact hdry.elim
    · exact absurd he.1 (hrecv wait n)
    · exact absurd (he.2.1 rfl) (hrecv wait n)
    · exact hdry.elim
  | _ => exact hdry.elim

/-- The second byte of a file of two. -/
def secondByte : List Packet := dataPackets (oneBlock [8]) ++ [endPacket]

theorem resumed_run : ∃ c, Steps (streamed (.quiet fun _ => False) (Packet.wires secondByte))
      (handlePuts .start (requestF 2), ⟨FS.put (fun _ => none) (lit "../tests/f") (byteFile 7), .init⟩) c ∧
    c.1 = .ret (.ok, .start) := by
  obtain ⟨fileName, virtualPath, hinfo, hname, hpath⟩ := uploadTarget_eq_some.1 (uploadTarget_requestF 2)
  unfold handlePuts
  simp only [hinfo, hpath, if_neg hname]
  have hR : Backward (fed (.quiet fun _ => False) (Packet.wires secondByte)) fun c => _ :=
    (backward_steps fun c : Io (Rc × Session) × World => c.1 = .ret (.ok, .start)).mono fun _ _ _ _ h =>
      fed_streamed (fun _ _ => id) h
  have hin : ([] : Bytes) <+: Packet.wires secondByte := List.nil_prefix
  apply run_open hR hin 0 rfl
  refine run_fstat hR hin (by simp [Proc.init]; rfl) rfl ?_
  apply run_sendResumePacket hR hin
  simp only
  rw [← bind_ret (uploadMapped ..)]
  refine run_uploadMapped (d := ⟨[7, 8], by decide⟩) hR (List.prefix_refl _) (by simp [Proc.init]; rfl) rfl rfl (by decide)
    (by decide) rfl rfl rfl fun p' _ _ => ?_
  exact ⟨_, .refl, rfl⟩

/-- The byte is stored behind the one that was there. -/
theorem handlePuts_exact_resumed : ∃ v : World,
    Steps (streamed (.quiet fun _ => False) (Packet.wires secondByte))
      (handlePuts .start (requestF 2), ⟨FS.put (fun _ => none) (lit "../tests/f") (byteFile 7), .init⟩)
      (.ret (.ok, .start), v) ∧ v.fs.Has (lit "../tests/f") [7, 8] := by
  obtain ⟨⟨_, v⟩, hrun, rfl⟩ := resumed_run
  have hvalid : ∀ p ∈ secondByte, p.Valid := by
    intro p hp
    rcases List.mem_append.1 hp with hp | hp
    · rw [show dataPackets (oneBlock [8]) = [Packet.of .fileData .ok [8]] from rfl, List.mem_singleton] at hp
      exact hp ▸ Packet.of_valid _ _ (by decide)
    · exact List.mem_singleton.1 hp ▸ endPacket_valid
  have hrun' : Steps (streamed (.quiet fun _ => False) (Proc.init.rcvd ++ (Packet.wires secondByte ++ [])))
      (handlePuts .start (requestF 2), ⟨FS.put (fun _ => none) (lit "../tests/f") (byteFile 7), .init⟩)
      (.ret (.ok, .start), v) := by simpa [Proc.init] using hrun
  have hleaves : (Env.quiet fun _ => False).Leaves (lit "../tests/f") := fun h => congrFun h _
  have hexact := handlePuts_exact (uploadTarget_requestF 2) rfl hleaves (fun _ => False.elim) hvalid
    Packet.wire_code.incomplete_nil ⟨FS.put (fun _ => none) (lit "../tests/f") (byteFile 7), .init⟩ 0
  rcases (hexact.2.2 (by decide)).2.2 _ v hrun' with ⟨h, -⟩ | ⟨qs, -, hall, hup⟩
  · cases h
  · obtain rfl := hall.resolve_right (by simp [Env.quiet])
    have hfile := hup.file
    simp only [FS.bytes_put, byteFile_bytes] at hfile
    exact ⟨v, hrun, hfile⟩

end Client

end Server
end WindCloud
