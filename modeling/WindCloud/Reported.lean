import WindCloud.ServerStream
import WindCloud.UploadRun
/-!
# When the client reports an upload

The client takes any `ACK` or `ERROR` for the final reply, so it reports success after some
uploads that failed on the server (`upload_reportsError`). It is right about those during which
the server prepares the target and receives without failing and the local file keeps its length
(`upload_reported`): both files may change otherwise, and anything else may fail.
-/

namespace WindCloud

open Interaction Prog Server

/-- What the server does between `PUTS_RESP` and the final reply, and can fail at. -/
def Call.Receives : Call → Prop
  | .ftruncate _ _ .extend | .mmap .. | .recv .follow _ | .calloc _ => True
  | _ => False

/-- The file at `path` has the length `n`. -/
def HasLength (path : Bytes) (n : Nat) (fs : FS) : Prop := ∃ b, fs.Has path b ∧ b.length = n

section Matching

variable {env : Env} {total : UInt64} {r s tail : Bytes} {p q : Packet} {arg : Bytes} {n size off : Nat}
  {chunks : List Bytes} {ps : List Packet}

theorem Call.not_mapFaults (h : ∀ c, env.faults c → ¬ c.Receives) : ¬ MapFaults env total := by
  rintro ⟨fd, c, hf, rfl | rfl⟩ <;> exact h _ hf trivial

/-- A client that has read two packets has read `PUTS_RESP` and the final reply. -/
theorem Server.Putting.answered (h : Putting env total r s) (hmap : ¬ MapFaults env total) (hp : p.Valid) (hq : q.Valid)
    (hs : p.wire ++ q.wire <+: s) : ∃ st pkts off tail session session' success, p = putsResp total st ∧
      q = putsReply success ∧ s = p.wire ++ q.wire ∧ r = Packet.wires pkts ++ tail ∧ Taken total st pkts off ∧
      Stop env session total off tail session' success := by
  have hread (es : List Packet) (h : s <+: Packet.wires es) (hv : ∀ e ∈ es, Packet.Valid e) : ∃ cs, es = p :: q :: cs := by
    have hpre : Packet.wires [p, q] ++ [] <+: Packet.wires es := by simpa using hs.trans h
    obtain ⟨cs, hcs, -⟩ := Packet.wire_code.all_prefix (by simp [hp, hq]) hv hpre
    exact ⟨cs, hcs⟩
  cases h with
  | @refusing e _ hv _ h =>
    obtain ⟨cs, hcs⟩ := hread [e] (by simpa using h) (by simpa using hv)
    simp at hcs
  | @answering st _ h =>
    obtain ⟨cs, hcs⟩ := hread [putsResp total st] (by simpa using h) (by simpa using putsResp_valid st)
    simp at hcs
  | @receiving st =>
    obtain ⟨cs, hcs⟩ := hread [putsResp total st] (by simp) (by simpa using putsResp_valid st)
    simp at hcs
  | failing hf => exact absurd hf hmap
  | @stopped st pkts off tail s session session' success ht hstop h =>
    obtain ⟨cs, hcs⟩ := hread [putsResp total st, putsReply success] (by simpa using h)
      (by simp [putsResp_valid, putsReply_valid])
    obtain ⟨rfl, rfl, rfl⟩ : putsResp total st = p ∧ putsReply success = q ∧ cs = [] := by simpa using hcs
    have hall : s = (putsResp total st).wire ++ (putsReply success).wire := h.eq_of_length_le hs.length_le
    exact ⟨st, pkts, off, tail, session, session', success, rfl, rfl, hall, rfl, ht, hstop⟩

/-- The blocks of a file that keeps its length stay inside it. -/
theorem Client.Fed.length_le (h : Fed (HasLength arg n) arg size off chunks) (hoff : off ≤ n) :
    off + chunks.flatten.length ≤ n := by
  induction h with
  | nil => simpa using hoff
  | @snoc chunks chunk _ _ _ _ hread ih =>
    obtain ⟨fs, ⟨b, hb, rfl⟩, hpre⟩ := hread
    have hlen := (hpre b hb).length_le
    rw [List.length_drop] at hlen
    rw [List.flatten_append, List.flatten_singleton, List.length_append]
    omega

/-- A server that receives without failing takes a whole upload to its end. -/
theorem Server.Stop.whole {pkts : List Packet} {session session' : Session} {success : Bool} {start : Nat}
    (h : Stop env session total off tail session' success) (hfaults : ∀ c, env.faults c → ¬ c.Receives)
    (hpkts : ∀ p ∈ pkts, Packet.Valid p ∧ p.Is .fileData) (hdata : ∀ p ∈ dataPackets chunks, p.Valid ∧ p.Is .fileData)
    (hsent : Packet.wires pkts ++ tail <+: Packet.wires (dataPackets chunks ++ [endPacket]))
    (hoff : off = start + (payloads pkts).length) (hall : start + chunks.flatten.length = total.toNat) :
    pkts = dataPackets chunks ∧ tail = endPacket.wire ∧ success = true := by
  have hv : ∀ p ∈ dataPackets chunks ++ [endPacket], Packet.Valid p :=
    forall_mem_snoc (fun p hp => (hdata p hp).1) endPacket_valid
  obtain ⟨cs, hcs, htail⟩ := Packet.wire_code.all_prefix (fun p hp => (hpkts p hp).1) hv hsent
  -- the end is not among the blocks
  have hne : cs ≠ [] := by
    rintro rfl
    have hmem : endPacket ∈ pkts := by
      rw [List.append_nil] at hcs
      rw [← hcs]
      simp
    have := (hpkts _ hmem).2
    simp at this
  obtain ⟨ds, e, rfl⟩ := (List.eq_nil_or_concat cs).resolve_left hne
  rw [List.concat_eq_append, ← List.append_assoc] at hcs
  obtain ⟨hblocks, he⟩ := List.append_inj' hcs rfl
  obtain rfl : endPacket = e := by simpa using he
  rw [List.concat_eq_append] at htail
  have hdv : ∀ p ∈ ds ++ [endPacket], Packet.Valid p := fun p hp => hv p (by
    rw [hcs, List.append_assoc]
    exact List.mem_append_right _ hp)
  have hlen : (payloads pkts).length + (payloads ds).length = chunks.flatten.length := by
    rw [← payloads_dataPackets, hblocks, payloads_append, List.length_append]
  -- the packet at which the loop stops
  have hfirst {p : Packet} (hp : p.Valid) (h : p.wire <+: Packet.wires (ds ++ [endPacket])) :
      ds = [] ∧ p = endPacket ∨ ∃ ds', ds = p :: ds' := by
    rcases ds with _ | ⟨d, ds⟩
    · exact .inl ⟨rfl, Packet.wire_code.word_prefix hp endPacket_valid h⟩
    · obtain rfl := Packet.wire_code.word_prefix hp (hdv d (by simp)) h
      exact .inr ⟨ds, rfl⟩
  have hdata' {p : Packet} {ds' : List Packet} (h : ds = p :: ds') : p.Is .fileData :=
    (hdata p (by rw [hblocks, h]; simp)).2
  cases h with
  | @fileEnd p hp hend =>
    rcases hfirst hp htail with ⟨rfl, rfl⟩ | ⟨ds', hds⟩
    · refine ⟨by simpa using hblocks.symm, rfl, ?_⟩
      rw [beq_iff_eq, hoff]
      simp only [payloads_nil, List.length_nil] at hlen
      omega
    · have := (hdata' hds).symm.trans hend
      simp at this
  | @refused p hp hend hover =>
    rcases hfirst hp htail with ⟨-, rfl⟩ | ⟨ds', hds⟩
    · exact absurd (endPacket_is.2 rfl) hend
    · have := hover (hdata' hds)
      rw [hds, payloads_cons, List.length_append] at hlen
      omega
  | broken hpart hbroken =>
    rcases hbroken with ⟨n, hf⟩ | ⟨n, hf⟩ | ⟨hl, hbad⟩
    · exact absurd trivial (hfaults _ hf)
    · exact absurd trivial (hfaults _ hf)
    · exact absurd (header_ok hdv hl htail) hbad

end Matching

section Reported

variable {envC envS : Env} {req : CommandRequest} {session : Session} {wc ws wc' ws' : World} {n : Nat}
  {q : Io (Session ⊕ Rc)}

/-- **A reported upload is a stored upload**, if the server prepares the target and receives without failing
and the local file keeps its length. -/
theorem upload_reported (hfaults : ∀ c, envS.faults c → ¬ c.Receives)
    (hkeep : ∀ {fs fs'}, envC.rely fs fs' → HasLength req.arg n fs → HasLength req.arg n fs')
    (hfile : HasLength req.arg n wc.fs) (hopen : session.shouldClose = false)
    (hsync : wc.proc.sent = ws.proc.rcvd ∧ ws.proc.sent = wc.proc.rcvd)
    (hrun : DuplexSteps (side envC) (side envS) ((Client.handlePuts req, wc), (handleRequestRound session, ws))
      ((.ret .ok, wc'), (q, ws'))) :
    ∃ st pkts, (∀ p ∈ pkts, Packet.Valid p ∧ p.Is .fileData) ∧
      (startOffset (.ofNat n) st).toNat + (payloads pkts).length = n ∧
      ws'.proc.rcvd = ws.proc.rcvd ++ Packet.wires (Client.uploadRequest req.arg n :: (pkts ++ [endPacket])) ∧
      ws'.proc.sent = ws.proc.sent ++ Packet.wires [putsResp (.ofNat n) st, putsReply true] := by
  obtain ⟨hclient, hserver, rc, sc, rs, ss, hsinceC, hsinceS, hrs, hrc, hfeeds⟩ :=
    upload_streams hkeep hfile hsync hrun
  -- the client has sent everything and read two packets
  obtain ⟨rc', sc', hsince', -, hend⟩ := wp_result (Client.wp_handlePuts hkeep hfile) hclient
  obtain rfl : rc = rc' := List.append_cancel_left (hsinceC.rcvd.symm.trans hsince'.rcvd)
  obtain rfl : sc = sc' := List.append_cancel_left (hsinceC.sent.symm.trans hsince'.sent)
  generalize hok : Rc.ok = rcode at hend
  cases hend with
  | unopened => simp at hok
  | refused => simp at hok
  | odd => simp at hok
  | broken => simp at hok
  | garbled => simp at hok
  | @done size p q' chunks hup hfin hq =>
    obtain ⟨hlt, fs, ⟨F, hF, rfl⟩, hsize⟩ := hup.sized
    obtain rfl := hsize F hF
    have htotal : (UInt64.ofNat F.length).toNat = F.length := toNat_size (by omega)
    -- so the server has received the request
    rcases round_cases hopen hserver with ⟨r, hs⟩ | ⟨fs₁, p₁, q₁, -, hp₁, hserve⟩
    · have hnil : ss = [] := List.append_cancel_left (hsinceS.sent.symm.trans hs.sent)
      rw [hnil] at hrc
      simp [p.wire_ne_nil] at hrc
    obtain ⟨r₀, hr₀⟩ := (steps_grow hserve).1
    simp only [Proc.addRcvd_rcvd, hsinceS.rcvd, List.append_assoc] at hr₀
    obtain rfl := List.append_cancel_left hr₀
    obtain ⟨size, rfl, -, fs₂, ⟨F₂, hF₂, hlen₂⟩, hsize₂⟩ := request_eq hfeeds hp₁ ((List.prefix_append _ _).trans hrs)
    obtain rfl : size = F.length := (hsize₂ F₂ hF₂).trans hlen₂
    have hload : UInt64.ofNat F.length = loadU64 ((Client.uploadRequest req.arg F.length).data.drop pathMax) := by
      simp [Client.uploadRequest, fileInfoPacket, loadU64_fileInfoPayload]
    rw [dispatchCommand_puts (Client.uploadRequest_is _ _)] at hserve
    obtain ⟨r₁, s₁, hs₁, hput⟩ := (Follows.steps (wp_putsStreams hload)
      ⟨[], [], .refl _, .start⟩ hserve)
    have hr₁ : r₀ = r₁ := by
      have := hs₁.rcvd
      simp only [Proc.addRcvd_rcvd, hsinceS.rcvd, List.append_assoc] at this
      exact List.append_cancel_left (List.append_cancel_left this)
    have hss : ss = s₁ := List.append_cancel_left (hsinceS.sent.symm.trans hs₁.sent)
    subst hr₁ hss
    obtain ⟨st, pkts, off, tail, session₁, session', success, rfl, rfl, rfl, rfl, htaken, hstop⟩ :=
      hput.answered (Call.not_mapFaults hfaults) hup.valid hq hrc
    -- what it has taken is what the client has sent
    have hsent := hrs
    rw [Packet.wires_cons, List.prefix_append_right_inj] at hsent
    have hstart : (Client.resumeOf F.length (putsResp (.ofNat F.length) st)).toNat =
        (startOffset (.ofNat F.length) st).toNat := by rw [Client.resumeOf_putsResp]
    have hle := startOffset_le (.ofNat F.length) st
    rw [htotal] at hle
    have hfit := hup.fed.length_le (hstart.trans_le hle)
    have hall : (startOffset (.ofNat F.length) st).toNat + chunks.flatten.length = (UInt64.ofNat F.length).toNat := by
      rw [htotal, ← hstart]
      rcases hfin with h | ⟨fs₃, ⟨F₃, hF₃, hlen₃⟩, h⟩
      · omega
      · have := h F₃ hF₃
        omega
    obtain ⟨rfl, rfl, rfl⟩ := hstop.whole hfaults htaken.blocks hup.fed.valid hsent htaken.offset hall
    refine ⟨st, _, hup.fed.valid, ?_, ?_, ?_⟩
    · rw [payloads_dataPackets, hall, htotal]
    · rw [hsinceS.rcvd]
      simp
    · rw [hsinceS.sent]
      simp

theorem upload_reported_one : ∃ (ws' : World) (st : Option Nat) (pkts : List Packet),
    (startOffset 1 st).toNat + (payloads pkts).length = 1 ∧
      ws'.proc.sent = Packet.wires [putsResp 1 st, putsReply true] := by
  obtain ⟨wc', ws', hrun, -⟩ := upload_runs (F := one) (C := noBytes) (.quiet fun _ => False) (.quiet fun _ => False)
    (fun _ => none) (fun _ => none) (by decide) (by decide) (by decide)
  have hkeep : ∀ {fs fs' : FS}, (Env.quiet fun _ => False).rely fs fs' → HasLength putsF.arg 1 fs →
      HasLength putsF.arg 1 fs' := by
    rintro fs _ rfl h
    exact h
  obtain ⟨st, pkts, -, hlen, -, hsent⟩ := upload_reported (by simp [Env.quiet]) hkeep ⟨_, FS.put_has .., rfl⟩ rfl
    ⟨rfl, rfl⟩ hrun
  exact ⟨ws', st, pkts, hlen, hsent⟩

/-- The server cannot extend the target, and the client reports success all the same. -/
theorem upload_reportsError : ∃ wc' ws',
    DuplexSteps (side (.quiet fun _ => False)) (side (.quiet fun c => ∃ fd n, c = .ftruncate fd n .extend))
      ((Client.handlePuts putsF, ⟨FS.put (fun _ => none) putsF.arg one, .init⟩),
        (handleRequestRound .start, ⟨FS.put (fun _ => none) targetF noBytes, .init⟩))
      ((.ret .ok, wc'), (.ret (.inl .start), ws')) ∧
      ¬ Acked ws'.proc.sent ∧ ¬ ws'.fs.Has targetF [1] := by
  suffices h : ∃ x, DuplexSteps (side (.quiet fun _ => False)) (side (.quiet fun c => ∃ fd n, c = .ftruncate fd n .extend))
      ((Client.handlePuts putsF, ⟨FS.put (fun _ => none) putsF.arg one, .init⟩),
        (handleRequestRound .start, ⟨FS.put (fun _ => none) targetF noBytes, .init⟩)) x ∧
      (x.1.1 = .ret .ok ∧ x.2.1 = .ret (.inl .start) ∧ ¬ Acked x.2.2.proc.sent ∧ ¬ x.2.2.fs.Has targetF [1]) by
    obtain ⟨⟨⟨_, wc'⟩, _, ws'⟩, hrun, rfl, rfl, h⟩ := h
    exact ⟨wc', ws', hrun, h⟩
  refine upload_opens (F := one) (C := noBytes) (by decide) ?_
  intro pc ps hrc hrs hsc hss hfc hfs hmap
  have hread : pc.rcvd <+: ps.sent := by rw [hrc]
  rw [← bind_ret (Client.uploadFrom _ _ _)]
  refine Client.run_uploadFrom (Duplex.backward_left _) hread hfc rfl (by decide) (by decide) ?_
  intro pc' hrc' hsc'
  -- the extension fails
  have hin : ps.rcvd <+: pc'.sent := by
    rw [hsc', hrs]
    exact List.prefix_append _ _
  rw [uploadMapped, if_pos (by decide), bind_assoc]
  refine run_ftruncate_fail (Duplex.backward_right _) hin ⟨_, _, rfl⟩ ?_
  simp only
  rw [bind_assoc]
  apply run_close (Duplex.backward_right _) hin
  apply run_reply (Duplex.backward_right _) (by decide) hin
  have hafter : afterCommand (.ok, .start) = .ret (.inl .start) := rfl
  rw [hafter]
  have hv : (textPacket .error .ioError (lit "服务端预分配文件失败")).Valid := textPacket_valid (by decide)
  have he : (textPacket .error .ioError (lit "服务端预分配文件失败")).Is .error := Packet.of_is.2 rfl
  refine Client.run_recvTextResponse (Duplex.backward_left _) hv (.inr he) ?_ ⟨_, .refl, rfl, rfl, ?_, ?_⟩
  · rw [hrc', hrc]
    exact List.prefix_refl _
  · refine not_acked_of_forall [putsResp 1 (some 0), textPacket .error .ioError (lit "服务端预分配文件失败")] ?_ ?_ ?_
    · simp [hss, one, noBytes, Content.empty]
    · simp [putsResp_valid, hv]
    · simpa using not_ack_of_error he
  · intro h
    have := (FS.put_has _ targetF noBytes).unique h
    simp [noBytes, Content.empty] at this

end Reported
end WindCloud
