import WindCloud.Download
import WindCloud.UploadRun
/-!
# A download that nobody interrupts goes through

The two sides traced from their end: the server sends what the client lacks in one block, the client
writes it and reports success (`download_runs`).
-/

namespace WindCloud

open ByteOrder Interaction Prog FileImage Resumable

section Runs

variable {env : Env} {avail : Bytes} {α : Type} {R : Io α × World → Prop} {fs : FS} {path : Bytes} {p : Proc}
  {fd : Nat} {F C : Content}

namespace Client

theorem run_writeN (hR : Backward (fed env avail) R) {k : Rc → Io α} {f : OpenFile} {buf : Bytes} {d : Content}
    (hin : p.rcvd <+: avail) (hfd : p.fds fd = some f) (hpath : f.path = path) (hne : buf ≠ [])
    (hd : d.bytes = patch 0 C.bytes f.pos buf)
    (h : ∀ p' : Proc, p'.rcvd = p.rcvd → p'.sent = p.sent → R (k .ok, ⟨fs.put path d, p'⟩)) :
    R (writeN fd buf >>= k, ⟨fs.put path C, p⟩) := by
  have hlen : 0 < buf.length := List.length_pos_iff.2 hne
  apply hR.iter
  rw [if_pos hlen, bind_assoc, List.drop_zero]
  refine run_write (m := buf.length) (d := d) hR hin hfd hpath hlen (le_refl _) (by rwa [List.take_length]) ?_
  obtain ⟨n, hn⟩ : ∃ n, buf.length = n + 1 := ⟨buf.length - 1, by omega⟩
  simp only [hn, pure_eq, ret_bind, unroll]
  apply hR.loop
  rw [if_neg (by omega)]
  exact h _ rfl rfl

/-- The loop takes a block, writes it and goes on with the next. -/
theorem run_receiveBlock (hR : Backward (fed env avail) R) {k : Rc → Io α} {D : Bytes} {localSize : UInt64}
    (hin : p.rcvd ++ (dataPacket D).wire <+: avail) (hD : D.length ≤ fileBlockSize)
    (h : ∀ k' : Rc → Io α, (∀ v, R (receiveBlocks fd (localSize + (dataPacket D).header.dataLen.toUInt64) >>= k, v) →
        R (k' .ok, v)) → R (writeN fd D >>= k', ⟨fs, p.addRcvd (dataPacket D).wire⟩)) :
    R (receiveBlocks fd localSize >>= k, ⟨fs, p⟩) := by
  have hv := dataPacket_valid hD
  have hlen : (dataPacket D).data.take (dataPacket D).header.dataLen.toNat = D := by
    rw [← hv.length, List.take_length]
    simp [dataPacket]
  apply hR.iter
  rw [bind_assoc]
  apply run_recvPacket hR hv hin
  simp only [hlen]
  rw [if_neg (by simp), if_neg (by simp), if_neg (by simp), bind_assoc]
  exact h _ fun _ hv => hv

/-- The loop takes a block and the end. -/
theorem run_receiveBlocks (hR : Backward (fed env avail) R) {k : Rc → Io α} {f : OpenFile} {D : Bytes} {d : Content}
    {localSize : UInt64} (hin : p.rcvd ++ Packet.wires [dataPacket D, endPacket] <+: avail) (hfd : p.fds fd = some f)
    (hpath : f.path = path) (hne : D ≠ []) (hD : D.length ≤ fileBlockSize) (hd : d.bytes = patch 0 C.bytes f.pos D)
    (h : ∀ p' : Proc, p'.rcvd = p.rcvd ++ Packet.wires [dataPacket D, endPacket] → p'.sent = p.sent →
      R (k .ok, ⟨fs.put path d, p'⟩)) :
    R (receiveBlocks fd localSize >>= k, ⟨fs.put path C, p⟩) := by
  have hin₁ : p.rcvd ++ (dataPacket D).wire <+: avail := by
    refine .trans ?_ hin
    rw [Packet.wires_cons, ← List.append_assoc]
    exact List.prefix_append _ _
  refine run_receiveBlock hR hin₁ hD fun k' hk' => ?_
  refine run_writeN (d := d) hR hin₁ hfd hpath hne hd fun p' hr hs => hk' _ ?_
  have hin₂ : p'.rcvd ++ endPacket.wire <+: avail := by simpa [hr] using hin
  apply hR.iter
  rw [bind_assoc]
  apply run_recvPacket hR endPacket_valid hin₂
  simp only
  rw [if_pos (by simp)]
  exact h _ (by simp [hr]) (by simpa using hs)

end Client

namespace Server

theorem run_sendFileDataPacket (hR : Backward (fed env avail) R) {k : Rc × Int → Io α} {f : OpenFile} {n off : Nat}
    (hin : p.rcvd <+: avail) (hfd : p.fds fd = some f) (hpath : f.path = path) (hlen : (F.bytes.drop off).length = n)
    (hpos : 0 < n) (h : ∀ p' : Proc, p'.rcvd = p.rcvd → p'.sent = p.sent ++ (dataPacket (F.bytes.drop off)).wire →
      p'.fds = p.fds → R (k (.ok, off + n), ⟨fs.put path F, p'⟩)) :
    R (sendFileDataPacket fd off n >>= k, ⟨fs.put path F, p⟩) := by
  rw [sendFileDataPacket, bind_assoc, TlvHeader.bytes_hton]
  apply run_sendN hR hin
  simp only [iter_bind]
  apply hR.loop
  rw [if_pos hpos, bind_assoc]
  have hoff : (off : Int) + (0 : Nat) = off := by simp
  rw [hoff, Nat.sub_zero]
  refine run_sendfile hR hin hfd hpath hlen hpos ?_
  obtain ⟨m, rfl⟩ : ∃ m, n = m + 1 := ⟨n - 1, by omega⟩
  simp only [pure_eq, ret_bind, unroll]
  apply hR.loop
  rw [if_neg (by omega)]
  simp only [ret_bind, unroll, Nat.zero_add]
  refine h _ rfl ?_ rfl
  simp [wire_dataPacket, hlen]

/-- One block and the end. -/
theorem run_downloadFrom (hR : Backward (fed env avail) R) {k : Rc × Session → Io α} {f : OpenFile} {off : UInt64}
    {session : Session} (hin : p.rcvd <+: avail) (hfd : p.fds fd = some f) (hpath : f.path = path)
    (hlt : off.toNat < F.bytes.length) (hone : F.bytes.length ≤ off.toNat + fileBlockSize)
    (h : ∀ p' : Proc, p'.rcvd = p.rcvd →
      p'.sent = p.sent ++ Packet.wires [dataPacket (F.bytes.drop off.toNat), endPacket] →
      R (k (.ok, session), ⟨fs.put path F, p'⟩)) :
    R (downloadFrom session fd (.ofNat F.bytes.length) off >>= k, ⟨fs.put path F, p⟩) := by
  have hF := F.lt
  have hpos : offT off = off.toNat := offT_of_lt (by omega)
  have htotal : (UInt64.ofNat F.bytes.length).toNat = F.bytes.length := toNat_size F.lt
  have hlen : (F.bytes.drop off.toNat).length = F.bytes.length - off.toNat := List.length_drop
  have hu64 {n : Nat} (hn : n ≤ F.bytes.length) : (offU64 n).toNat = n := offU64_natCast (by omega)
  have hmore : offU64 (off.toNat : Int) < .ofNat F.bytes.length := by
    rw [UInt64.lt_iff_toNat_lt, hu64 hlt.le, htotal]
    exact hlt
  have hchunk : (UInt64.ofNat F.bytes.length - offU64 (off.toNat : Int)).toNat = F.bytes.length - off.toNat := by
    rw [UInt64.toNat_sub_of_le _ _ (UInt64.le_of_lt hmore), hu64 hlt.le, htotal]
  rw [downloadFrom, bind_assoc, hpos]
  apply hR.iter
  rw [if_pos hmore]
  simp only [hchunk]
  rw [if_neg (by omega), bind_assoc]
  refine run_sendFileDataPacket hR hin hfd hpath hlen (by omega) ?_
  intro p' hr hs hfds
  have hend : (off.toNat : Int) + ((F.bytes.length - off.toNat : Nat) : Int) = (F.bytes.length : Nat) := by omega
  simp only [pure_eq, ret_bind, unroll, hend]
  apply hR.loop
  rw [if_neg (by rw [UInt64.lt_iff_toNat_lt, hu64 (le_refl _), htotal]; omega)]
  simp only [ret_bind, unroll]
  rw [bind_assoc]
  apply run_close hR (by rwa [hr])
  rw [bind_assoc]
  apply run_sendPacket [] hR rfl rfl (by decide) (by simpa [hr] using hin)
  apply h _ (by simp [hr])
  simp [hs, endPacket]

end Server
end Runs

/-! ## The pair -/

section Whole

open Server

variable {envC envS : Env} {fsC fsS : FS} {F C : Content}

/-- The command `gets f`. -/
def getsF : CommandRequest := ⟨.getsReq, lit "f"⟩

theorem setup_getsF {wc ws : World} (hfile : ws.fs.Has targetF F.bytes)
    (hsync : wc.proc.sent = ws.proc.rcvd ∧ ws.proc.sent = wc.proc.rcvd) :
    DownloadSetup getsF .start targetF F.bytes wc ws where
  file := hfile
  arg := by decide
  nonempty := by decide
  short := by decide
  isOpen := rfl
  target := by
    have h : resolveTargetPath Session.start.currentPath getsF.arg pathMax pathMax = some (lit "/f", targetF) := by
      decide
    rintro v p hp
    exact (Prod.mk.inj (Option.some.inj (h.symm.trans hp))).2.symm
  inStep := hsync

/-- The request, the size and the offset pass. -/
theorem download_opens {Q : (Io Rc × World) × (Io (Session ⊕ Rc) × World) → Prop} (hle : C.bytes.length ≤ F.bytes.length)
    (h : ∀ pc ps : Proc, pc.rcvd = ps.sent → ps.rcvd = pc.sent → pc.fds 0 = some ⟨getsF.arg, C.bytes.length⟩ →
      ps.fds 0 = some ⟨targetF, 0⟩ →
      ∃ x, DuplexSteps (side envC) (side envS)
        ((Client.receiveBlocks 0 (.ofNat C.bytes.length) >>= fun rc => Sys.close 0 >>= fun _ => pure rc,
            ⟨fsC.put getsF.arg C, pc⟩),
          (downloadFrom .start 0 (.ofNat F.bytes.length) (.ofNat C.bytes.length) >>= afterCommand,
            ⟨fsS.put targetF F, ps⟩)) x ∧ Q x) :
    ∃ x, DuplexSteps (side envC) (side envS) ((Client.handleGets getsF, ⟨fsC.put getsF.arg C, .init⟩),
      (handleRequestRound .start, ⟨fsS.put targetF F, .init⟩)) x ∧ Q x := by
  have hnil : ([] : Bytes) <+: [] := List.prefix_refl _
  obtain ⟨hpoint, hover⟩ := resumePoint_length hle
  -- the client asks
  rw [Client.handleGets]
  apply run_sendPacket (getsF.arg ++ [0]) (Duplex.backward_left _) rfl (by decide) (by decide) hnil
  -- the server announces the size
  have hreq : (Client.downloadRequest getsF.arg).Valid := Client.downloadRequest_valid (by decide)
  rw [← bind_ret (handleRequestRound _)]
  apply run_request (Duplex.backward_right _) rfl hreq (List.prefix_refl _)
  have hin : (Client.downloadRequest getsF.arg).wire <+: (Client.downloadRequest getsF.arg).wire := List.prefix_refl _
  have hpath : resolveTargetPath Session.start.currentPath getsF.arg pathMax pathMax = some (lit "/f", targetF) := by
    decide
  rw [dispatchCommand_gets (by decide) (by decide) (by decide), handleGets]
  simp only [hpath]
  rw [bind_assoc]
  apply run_openRead (Duplex.backward_right _) hin 0 (by simp) rfl
  simp only
  rw [bind_assoc]
  refine run_fstat (Duplex.backward_right _) hin (by simp [Proc.init]; rfl) rfl ?_
  simp only
  rw [bind_assoc, sendFileInfoPacket]
  refine run_sendPacket (fileInfoPayload getsF.arg (.ofNat F.bytes.length)) (Duplex.backward_right _) rfl (by simp)
    (by rw [length_fileInfoPayload]; decide) hin ?_
  -- the client says where to resume
  have hresp : (getsResp getsF.arg (.ofNat F.bytes.length)).Valid := getsResp_valid _ _
  refine run_recvPacket (p := getsResp getsF.arg (.ofNat F.bytes.length)) (Duplex.backward_left _) hresp
    (List.prefix_refl _) ?_
  have herr : ¬ (getsResp getsF.arg (.ofNat F.bytes.length)).Is .error := by simp [getsResp, fileInfoPacket]
  have hok : ¬ (¬ (getsResp getsF.arg (.ofNat F.bytes.length)).Is .getsResp ∨
      (getsResp getsF.arg (.ofNat F.bytes.length)).header.dataLen ≠ .ofNat fileInfoSize) := by
    rintro (h | h)
    · exact h (Packet.of_is.2 rfl)
    · exact h (fileInfoPacket_dataLen _ _ _)
  have hload : loadU64 ((getsResp getsF.arg (.ofNat F.bytes.length)).data.drop pathMax) = .ofNat F.bytes.length := by
    rw [getsResp, fileInfoPacket, Packet.data_of, loadU64_fileInfoPayload]
  simp only [if_neg herr, if_neg hok, hload]
  have hread : (getsResp getsF.arg (.ofNat F.bytes.length)).wire <+:
      (getsResp getsF.arg (.ofNat F.bytes.length)).wire := List.prefix_refl _
  apply run_open (Duplex.backward_left _) hread 0 rfl
  simp only
  refine run_fstat (Duplex.backward_left _) hread (by simp [Proc.init]; rfl) rfl ?_
  have hoff : offT (.ofNat C.bytes.length) = C.bytes.length := by
    rw [offT_of_lt] <;> rw [toNat_size C.lt]
    exact C.lt
  simp only [hpoint, if_neg hover]
  rw [Client.downloadTo, hoff]
  apply run_lseek (Duplex.backward_left _) hread (by simp; rfl) (by omega)
  simp only
  refine run_sendPacket (resumePayload (.ofNat C.bytes.length)) (Duplex.backward_left _) rfl (by simp)
    (by rw [length_resumePayload]; decide) hread ?_
  -- the server takes it
  simp only
  rw [bind_assoc]
  refine run_recvFollowPacket (p := resumePacket .resumePos (.ofNat C.bytes.length)) (Duplex.backward_right _)
    (resumePacket_valid _ _) (List.prefix_refl _) ?_
  have his : (resumePacket .resumePos (.ofNat C.bytes.length)).Is .resumePos := Packet.of_is.2 rfl
  simp only [if_neg (not_not.2 his), extractResumeOffset_resumePacket, if_neg hover, bind_ret]
  exact h _ _ (by simp [Proc.init, getsResp, fileInfoPacket]) (by simp [Proc.init, Client.downloadRequest, resumePacket])
    (by simp) (by simp)

/-- **A download that lacks at most a block goes through**: the client reports success, and has appended what
it lacked. -/
theorem download_runs (envC envS : Env) (fsC fsS : FS) (hlt : C.bytes.length < F.bytes.length)
    (hone : F.bytes.length ≤ C.bytes.length + fileBlockSize) :
    ∃ wc' ws', DuplexSteps (side envC) (side envS)
      ((Client.handleGets getsF, ⟨fsC.put getsF.arg C, .init⟩), (handleRequestRound .start, ⟨fsS.put targetF F, .init⟩))
      ((.ret .ok, wc'), (.ret (.inl .start), ws')) ∧ wc'.fs.Has getsF.arg (C.bytes ++ F.bytes.drop C.bytes.length) := by
  have hF := F.lt
  suffices h : ∃ x, DuplexSteps (side envC) (side envS)
      ((Client.handleGets getsF, ⟨fsC.put getsF.arg C, .init⟩),
        (handleRequestRound .start, ⟨fsS.put targetF F, .init⟩)) x ∧
      (x.1.1 = .ret .ok ∧ x.2.1 = .ret (.inl .start) ∧
        x.1.2.fs.Has getsF.arg (C.bytes ++ F.bytes.drop C.bytes.length)) by
    obtain ⟨⟨⟨_, wc'⟩, _, ws'⟩, hrun, rfl, rfl, h⟩ := h
    exact ⟨wc', ws', hrun, h⟩
  refine download_opens hlt.le fun pc ps hrc hrs hfc hfs => ?_
  -- the server sends the rest
  have hnat : (UInt64.ofNat C.bytes.length).toNat = C.bytes.length := toNat_size C.lt
  have hin : ps.rcvd <+: pc.sent := hrs ▸ List.prefix_refl _
  refine run_downloadFrom (Duplex.backward_right _) hin hfs rfl (by rwa [hnat]) (by rwa [hnat]) fun ps' _ hss => ?_
  rw [hnat, ← hrc] at hss
  have hafter : afterCommand (.ok, .start) = .ret (.inl .start) := rfl
  rw [hafter]
  -- the client writes it
  have hlen : (C.bytes ++ F.bytes.drop C.bytes.length).length < 2 ^ 63 := by
    rw [List.length_append, List.length_drop]
    omega
  have hblock : (F.bytes.drop C.bytes.length).length ≤ fileBlockSize := by
    rw [List.length_drop]
    omega
  have hread : pc.rcvd ++ Packet.wires [dataPacket (F.bytes.drop C.bytes.length), endPacket] <+: ps'.sent := by rw [hss]
  refine Client.run_receiveBlocks (d := ⟨C.bytes ++ F.bytes.drop C.bytes.length, hlen⟩) (Duplex.backward_left _) hread
    hfc rfl (by simpa using hlt) hblock patch_length.symm fun pc' hrc' _ => ?_
  exact run_close (Duplex.backward_left _) (by rwa [hrc']) ⟨_, .refl, rfl, rfl, FS.put_has ..⟩

/-- The server has sent both bytes of a file, and the client has written one. -/
theorem download_half : ∃ wc' p' q' ws', DuplexSteps (side (.quiet fun _ => False)) (side (.quiet fun _ => False))
    ((Client.handleGets getsF, ⟨FS.put (fun _ => none) getsF.arg noBytes, .init⟩),
      (handleRequestRound .start, ⟨FS.put (fun _ => none) targetF oneTwo, .init⟩)) ((p', wc'), (q', ws')) ∧
    wc'.fs.Has getsF.arg one.bytes := by
  suffices h : ∃ x, DuplexSteps (side (.quiet fun _ => False)) (side (.quiet fun _ => False))
      ((Client.handleGets getsF, ⟨FS.put (fun _ => none) getsF.arg noBytes, .init⟩),
        (handleRequestRound .start, ⟨FS.put (fun _ => none) targetF oneTwo, .init⟩)) x ∧ x.1.2.fs.Has getsF.arg one.bytes by
    obtain ⟨⟨⟨p', wc'⟩, q', ws'⟩, hrun, h⟩ := h
    exact ⟨wc', p', q', ws', hrun, h⟩
  refine download_opens (F := oneTwo) (C := noBytes) (by decide) fun pc ps hrc hrs hfc hfs => ?_
  have hin : ps.rcvd <+: pc.sent := hrs ▸ List.prefix_refl _
  refine run_downloadFrom (F := oneTwo) (Duplex.backward_right _) hin hfs rfl (by decide) (by decide) fun ps' _ hss => ?_
  have hread : pc.rcvd ++ (dataPacket [1, 2]).wire <+: ps'.sent := by
    rw [hss, hrc, Packet.wires_cons, ← List.append_assoc]
    exact List.prefix_append _ _
  refine Client.run_receiveBlock (Duplex.backward_left _) hread (by decide) fun k' _ => ?_
  apply (Duplex.backward_left _).iter
  rw [if_pos (by decide), Prog.bind_assoc]
  refine run_write (m := 1) (d := one) (Duplex.backward_left _) hread hfc rfl (by decide) (by decide) (by decide) ?_
  exact ⟨_, .refl, FS.put_has ..⟩

end Whole
end WindCloud
