import WindCloud.Upload
/-!
# An upload that nobody interrupts goes through

The two sides traced from their end (`Run`): the client sends what the target lacks in one block,
the server stores it and acknowledges, the client reports success (`upload_runs`). `upload_opens`
is the part up to the server's answer, which every upload shares.
-/

namespace WindCloud

open ByteOrder Interaction Prog FileImage Resumable

/-! ## The two sides -/

section Runs

variable {env : Env} {avail : Bytes} {α : Type} {R : Io α × World → Prop} {fs : FS} {path : Bytes} {p : Proc}
  {fd : Nat} {F C : Content}

/-- The blocks of a piece that fits in one. -/
def oneBlock (bs : Bytes) : List Bytes := if bs = [] then [] else [bs]

@[simp] theorem flatten_oneBlock (bs : Bytes) : (oneBlock bs).flatten = bs := by
  unfold oneBlock
  split <;> simp_all

namespace Client

theorem toNat_offset {off : Nat} (hoff : off ≤ F.bytes.length) : (UInt64.ofNat off).toNat = off :=
  toNat_size (hoff.trans_lt F.lt)

theorem offset_lt {off : Nat} (hoff : off ≤ F.bytes.length) :
    UInt64.ofNat off < .ofNat F.bytes.length ↔ off < F.bytes.length := by
  rw [UInt64.lt_iff_toNat_lt, toNat_offset hoff, toNat_offset (le_refl _)]

/-- The block loop reads a piece and sends it. -/
theorem run_sendBlock (hR : Backward (fed env avail) R) {k : Rc → Io α} {off : Nat} {D : Bytes}
    (hin : p.rcvd <+: avail) (hfd : p.fds fd = some ⟨path, off⟩) (hpiece : D <+: F.bytes.drop off) (hne : D ≠ [])
    (hmax : D.length ≤ fileBlockSize)
    (h : ∀ p' : Proc, p'.rcvd = p.rcvd → p'.sent = p.sent ++ (dataPacket D).wire →
      p'.fds fd = some ⟨path, off + D.length⟩ →
      R (sendBlocks fd (.ofNat F.bytes.length) (.ofNat (off + D.length)) >>= k, ⟨fs.put path F, p'⟩)) :
    R (sendBlocks fd (.ofNat F.bytes.length) (.ofNat off) >>= k, ⟨fs.put path F, p⟩) := by
  have hlen := hpiece.length_le
  rw [List.length_drop] at hlen
  have hpos := List.length_pos_iff.2 hne
  have hpacket : D.length ≤ maxPacketPayload.toNat := hmax.trans (by decide)
  have hnext : UInt64.ofNat off + .ofNat D.length = .ofNat (off + D.length) := (UInt64.ofNat_add ..).symm
  apply hR.iter
  rw [if_pos ((offset_lt (by omega)).2 (by omega)), bind_assoc]
  refine run_read hR hin hfd rfl hpiece hne hmax ?_
  obtain ⟨x, xs, rfl⟩ := List.exists_cons_of_ne_nil hne
  change R ((sendPacket .fileData .ok (some (x :: xs)) (.ofNat (x :: xs).length) >>= _) >>= _, _)
  generalize x :: xs = buf at *
  rw [bind_assoc]
  refine run_sendPacket _ hR rfl rfl hpacket hin ?_
  simp only [hnext, pure_eq, ret_bind, unroll]
  exact h _ (by simp) (by simp [dataPacket]) (by simp)

/-- It stops at the end of the file. -/
theorem run_sendNoBlock (hR : Backward (fed env avail) R) {k : Rc → Io α}
    (h : R (k .ok, ⟨fs.put path F, p⟩)) :
    R (sendBlocks fd (.ofNat F.bytes.length) (.ofNat F.bytes.length) >>= k, ⟨fs.put path F, p⟩) := by
  apply hR.iter
  rwa [if_neg (UInt64.lt_irrefl _)]

/-- The block loop sends what is left. -/
theorem run_sendBlocks (hR : Backward (fed env avail) R) {k : Rc → Io α} {off : Nat} (hin : p.rcvd <+: avail)
    (hfd : p.fds fd = some ⟨path, off⟩) (hoff : off ≤ F.bytes.length) (hone : F.bytes.length ≤ off + fileBlockSize)
    (h : ∀ p' : Proc, p'.rcvd = p.rcvd → p'.sent = p.sent ++ Packet.wires (dataPackets (oneBlock (F.bytes.drop off))) →
      R (k .ok, ⟨fs.put path F, p'⟩)) :
    R (sendBlocks fd (.ofNat F.bytes.length) (.ofNat off) >>= k, ⟨fs.put path F, p⟩) := by
  by_cases hmore : off < F.bytes.length
  · have hne : F.bytes.drop off ≠ [] := by simpa using hmore
    have hblock : oneBlock (F.bytes.drop off) = [F.bytes.drop off] := if_neg hne
    have hend : off + (F.bytes.drop off).length = F.bytes.length := by rw [List.length_drop]; omega
    refine run_sendBlock hR hin hfd (List.prefix_refl _) hne (by omega) fun p' hr hs _ => ?_
    rw [hend]
    exact run_sendNoBlock hR (h p' hr (by simp [hs, hblock, dataPackets]))
  · obtain rfl : off = F.bytes.length := by omega
    exact run_sendNoBlock hR (h p rfl (by simp [oneBlock, dataPackets]))

/-- From `lseek` to the final reply. -/
theorem run_uploadFrom (hR : Backward (fed env avail) R) {k : Rc → Io α} {f : OpenFile} {off : UInt64}
    (hin : p.rcvd <+: avail) (hfd : p.fds fd = some f) (hpath : f.path = path) (hoff : off.toNat ≤ F.bytes.length)
    (hone : F.bytes.length ≤ off.toNat + fileBlockSize)
    (h : ∀ p' : Proc, p'.rcvd = p.rcvd → p'.sent = p.sent ++
        Packet.wires (dataPackets (oneBlock (F.bytes.drop off.toNat)) ++ [endPacket]) →
      R (recvTextResponse >>= k, ⟨fs.put path F, p'⟩)) :
    R (uploadFrom fd (.ofNat F.bytes.length) off >>= k, ⟨fs.put path F, p⟩) := by
  subst hpath
  have hF := F.lt
  have hpos : offT off = off.toNat := offT_of_lt (by omega)
  rw [uploadFrom, bind_assoc, hpos]
  apply run_lseek hR hin hfd (by omega)
  simp only
  rw [bind_assoc, Int.toNat_natCast]
  have hself : off = .ofNat off.toNat := by simp
  rw [hself]
  refine run_sendBlocks hR hin (by simp) (by simpa using hoff) (by simpa using hone) ?_
  intro p' hr hs
  simp only
  rw [bind_assoc]
  apply run_close hR (by rwa [hr])
  rw [bind_assoc]
  apply run_sendPacket [] hR rfl rfl (by decide) (by simpa [hr] using hin)
  apply h _ (by simp [hr])
  simp [hs, endPacket]

/-- The final reply, whatever it says. -/
theorem run_recvTextResponse (hR : Backward (fed env avail) R) {k : Rc → Io α} {w : World} {q : Packet}
    (hv : q.Valid) (hq : q.Is .ack ∨ q.Is .error) (hin : w.proc.rcvd ++ q.wire <+: avail)
    (h : R (k .ok, ⟨w.fs, w.proc.addRcvd q.wire⟩)) : R (recvTextResponse >>= k, w) := by
  rw [recvTextResponse, bind_assoc]
  apply run_recvPacket hR hv hin
  simp only
  rwa [if_neg (by tauto)]

end Client

namespace Server

/-- The end packet, and the success branch. -/
theorem run_finish (hR : Backward (fed env avail) R) {k : Rc × Session → Io α} {session : Session} {m : Nat}
    {total : UInt64} {w : World} (hin : w.proc.rcvd ++ endPacket.wire <+: avail)
    (h : ∀ p' : Proc, p'.rcvd = w.proc.rcvd ++ endPacket.wire →
      p'.sent = w.proc.sent ++ (putsReply true).wire → R (k (.ok, session), ⟨w.fs, p'⟩)) :
    R (uploadReceive session fd total (some m) total >>= k, w) := by
  rw [uploadReceive, bind_assoc]
  apply hR.iter
  rw [bind_assoc]
  apply run_recvFollowPacket hR endPacket_valid hin
  have hend : endPacket.Is .fileEnd := Packet.of_is.2 rfl
  simp only [if_pos hend, beq_self_eq_true, pure_eq, ret_bind, unroll]
  rw [uploadFinish, bind_assoc, unmap]
  apply run_munmap hR (by simpa using hin)
  rw [if_pos rfl, bind_assoc]
  apply run_close hR (by simpa using hin)
  refine run_reply hR (by decide) (by simpa using hin) (h _ (by simp) ?_)
  simp [putsReply]

/-- The receive loop takes a block. -/
theorem run_takeBlock (hR : Backward (fed env avail) R) {k : Rc × Session → Io α} {session : Session} {m : Nat}
    (mp : Mapping) {total off : UInt64} {D : Bytes} {d : Content} (hin : p.rcvd ++ (dataPacket D).wire <+: avail)
    (hm : p.maps m = some mp) (hpath : mp.path = path) (hne : D ≠ []) (hD : D.length ≤ fileBlockSize)
    (hfit : off.toNat + D.length ≤ total.toNat) (hC : d.bytes = store C.bytes off.toNat D)
    (h : ∀ p' : Proc, p'.rcvd = p.rcvd ++ (dataPacket D).wire → p'.sent = p.sent → p'.fds = p.fds →
      p'.trace = p.trace ++ [⟨.memcpy m off.toNat D, ()⟩] →
      R (uploadReceive session fd total (some m) (off + .ofNat D.length) >>= k, ⟨fs.put path d, p'⟩)) :
    R (uploadReceive session fd total (some m) off >>= k, ⟨fs.put path C, p⟩) := by
  have hmax : D.length ≤ maxPacketPayload.toNat := hD.trans (by decide)
  have hv : (dataPacket D).Valid := Packet.of_valid _ _ hmax
  have hdata : (dataPacket D).Is .fileData := Packet.of_is.2 rfl
  have hend : ¬ (dataPacket D).Is .fileEnd := by simp
  have hlen : (dataPacket D).header.dataLen.toNat = D.length := by rw [← hv.length, dataPacket, Packet.data_of]
  have hlen64 : (dataPacket D).header.dataLen.toUInt64 = .ofNat D.length := by
    have h32 := (dataPacket D).header.dataLen.toNat_lt
    rw [← UInt64.toNat_inj, UInt32.toNat_toUInt64, hlen, UInt64.toNat_ofNat', Nat.mod_eq_of_lt (by omega)]
  have hnot : ¬ off + .ofNat D.length > total := by
    have hsum := total.toNat_lt
    rw [gt_iff_lt, UInt64.lt_iff_toNat_lt, ← hlen64, UInt64.toNat_add, UInt32.toNat_toUInt64, hlen,
      Nat.mod_eq_of_lt (by omega)]
    omega
  have hpos : (dataPacket D).header.dataLen > 0 := by
    rw [gt_iff_lt, UInt32.lt_iff_toNat_lt, hlen]
    exact List.length_pos_iff.2 hne
  have htake : (dataPacket D).data.take (dataPacket D).header.dataLen.toNat = D := by
    rw [hlen, dataPacket, Packet.data_of, List.take_length]
  rw [uploadReceive, bind_assoc]
  apply hR.iter
  rw [bind_assoc]
  apply run_recvFollowPacket hR hv hin
  simp only [if_neg hend, if_neg (not_not.2 hdata), hlen64, if_neg hnot, copyBlock, if_pos hpos, htake]
  rw [bind_assoc]
  refine run_memcpy (d := d) hR hin hm hpath hC ?_
  have hnext := h ((p.addRcvd (dataPacket D).wire).note (.memcpy m off.toNat D) ()) rfl rfl rfl rfl
  rw [uploadReceive, bind_assoc] at hnext
  exact hnext

/-- The connection is lost: the file is cut back to what has come. -/
theorem run_uploadCut (hR : Backward (fed env avail) R) {k : Rc × Session → Io α} {session : Session} {m : Nat}
    {f : OpenFile} {total off : UInt64} {d : Content} (hin : p.rcvd <+: avail) (hrecv : env.faults (.recv .follow 20))
    (hfd : p.fds fd = some f) (hpath : f.path = path) (hoff : off.toNat < 2 ^ 63)
    (hd : d.bytes = resize 0 off.toNat C.bytes)
    (h : ∀ p' : Proc, R (k (.ok, session.closing), ⟨fs.put path d, p'⟩)) :
    R (uploadReceive session fd total (some m) off >>= k, ⟨fs.put path C, p⟩) := by
  rw [uploadReceive, bind_assoc]
  apply hR.iter
  rw [bind_assoc, recvFollowPacket, bind_assoc]
  apply run_recvPacket_fail hR hin hrecv
  simp only [pure_eq, ret_bind, unroll]
  rw [uploadFinish, bind_assoc, unmap]
  apply run_munmap hR hin
  rw [if_neg (by decide), bind_assoc]
  refine run_ftruncate (d := d) hR (by simpa using hin) (by simpa using hfd) hpath ?_ ?_ ?_
  · rw [offT_of_lt hoff]
    omega
  · rw [offT_of_lt hoff, Int.toNat_natCast, hd]
  rw [bind_assoc]
  apply run_close hR (by simpa using hin)
  exact run_reply hR (by decide) (by simpa using hin) (h _)

/-- The receive loop takes what the client sends, and the upload succeeds. -/
theorem run_uploadReceive (hR : Backward (fed env avail) R) {k : Rc × Session → Io α} {session : Session} {m : Nat}
    (mp : Mapping) {total off : UInt64} {D : Bytes} {d : Content}
    (hin : p.rcvd ++ Packet.wires (dataPackets (oneBlock D) ++ [endPacket]) <+: avail)
    (hm : p.maps m = some mp) (hpath : mp.path = path) (hD : D.length ≤ fileBlockSize)
    (htotal : total.toNat = off.toNat + D.length) (hC : d.bytes = store C.bytes off.toNat D)
    (h : ∀ p' : Proc, p'.rcvd = p.rcvd ++ Packet.wires (dataPackets (oneBlock D) ++ [endPacket]) →
      p'.sent = p.sent ++ (putsReply true).wire → R (k (.ok, session), ⟨fs.put path d, p'⟩)) :
    R (uploadReceive session fd total (some m) off >>= k, ⟨fs.put path C, p⟩) := by
  by_cases hne : D = []
  · subst hne
    obtain rfl : d = C := by
      obtain ⟨bytes, _⟩ := d
      obtain ⟨bytes', _⟩ := C
      obtain rfl : bytes = bytes' := by simpa using hC
      rfl
    obtain rfl : total = off := by rw [← UInt64.toNat_inj, htotal]; simp
    exact run_finish hR (by simpa [oneBlock, dataPackets] using hin)
      fun p' hr hs => h p' (by simpa [oneBlock, dataPackets] using hr) hs
  · have hblock : oneBlock D = [D] := if_neg hne
    simp only [hblock, dataPackets, List.map_cons, List.map_nil, List.cons_append, List.nil_append, Packet.wires_cons,
      Packet.wires_nil, List.append_nil] at hin h
    rw [← List.append_assoc] at hin
    have hnext : off + .ofNat D.length = total := by
      have := total.toNat_lt
      rw [← UInt64.toNat_inj, UInt64.toNat_add, UInt64.toNat_ofNat', Nat.mod_eq_of_lt (a := D.length) (by omega), htotal,
        Nat.mod_eq_of_lt (by omega)]
    refine run_takeBlock (d := d) hR mp ((List.prefix_append _ _).trans hin) hm hpath hne hD htotal.ge hC
      fun p' hr hs _ _ => ?_
    rw [hnext]
    exact run_finish hR (by simpa [hr] using hin) fun p'' hr' hs' => h p'' (by simp [hr', hr]) (by simp [hs', hs])

/-- The extension and the mapping. -/
theorem run_uploadExtended (hR : Backward (fed env avail) R) {k : Rc × Session → Io α} {session : Session}
    {f : OpenFile} {total off : UInt64} {d : Content} (hin : p.rcvd <+: avail) (hfd : p.fds fd = some f)
    (hpath : f.path = path) (hmap : p.maps 0 = none) (hpos : 0 < total) (htotal : total.toNat < 2 ^ 63)
    (hd : d.bytes = resize 0 total.toNat C.bytes)
    (h : ∀ p' : Proc, p'.rcvd = p.rcvd → p'.sent = p.sent → p'.fds = p.fds →
      p'.maps 0 = some ⟨path, total.toNat⟩ →
      R (uploadReceive session fd total (some 0) off >>= k, ⟨fs.put path d, p'⟩)) :
    R (uploadMapped session fd total off >>= k, ⟨fs.put path C, p⟩) := by
  subst hpath
  rw [uploadMapped, if_pos hpos, bind_assoc]
  refine run_ftruncate (d := d) hR hin hfd rfl ?_ ?_ ?_
  · rw [offT_of_lt htotal]
    omega
  · rw [offT_of_lt htotal, Int.toNat_natCast, hd]
  simp only
  rw [bind_assoc]
  refine run_mmap hR hin 0 hfd hmap ?_
  exact h _ rfl rfl rfl (by simp)

/-- The extension, the mapping and the rest. -/
theorem run_uploadMapped (hR : Backward (fed env avail) R) {k : Rc × Session → Io α} {session : Session}
    {f : OpenFile} {total off : UInt64} {D : Bytes} {d : Content}
    (hin : p.rcvd ++ Packet.wires (dataPackets (oneBlock D) ++ [endPacket]) <+: avail)
    (hfd : p.fds fd = some f) (hpath : f.path = path) (hmap : p.maps 0 = none) (hD : D.length ≤ fileBlockSize)
    (hpos : 0 < total) (hoff : off.toNat = C.bytes.length) (htotal : total.toNat = off.toNat + D.length)
    (hC : d.bytes = C.bytes ++ D)
    (h : ∀ p' : Proc, p'.rcvd = p.rcvd ++ Packet.wires (dataPackets (oneBlock D) ++ [endPacket]) →
      p'.sent = p.sent ++ (putsReply true).wire → R (k (.ok, session), ⟨fs.put path d, p'⟩)) :
    R (uploadMapped session fd total off >>= k, ⟨fs.put path C, p⟩) := by
  have hlt := d.lt
  have hlen : total.toNat = d.bytes.length := by rw [hC, List.length_append, htotal, hoff]
  have hgrow : (resize 0 total.toNat C.bytes).length < 2 ^ 63 := by rw [length_resize]; omega
  refine run_uploadExtended (d := ⟨resize 0 total.toNat C.bytes, hgrow⟩) hR ((List.prefix_append _ _).trans hin) hfd hpath
    hmap hpos (by omega) rfl fun p₁ hr hs _ hm => ?_
  refine run_uploadReceive (d := d) hR _ (by rwa [hr]) hm rfl hD htotal ?_
    fun p' hr' hs' => h p' (by rw [hr', hr]) (by rw [hs', hs])
  have hpatch := patch_length (z := (0 : UInt8)) (l := C.bytes) (d := D)
  rw [patch, Nat.max_eq_right (by omega), ← hoff, ← htotal] at hpatch
  rw [hC, hpatch]

end Server
end Runs

/-! ## The pair -/

section Whole

open Server

variable {envC envS : Env} {fsC fsS : FS} {F C : Content}
  {Q : (Io Rc × World) × (Io (Session ⊕ Rc) × World) → Prop}

def noBytes : Content := .empty
def one : Content := ⟨[1], by decide⟩
def two : Content := ⟨[2], by decide⟩
def oneTwo : Content := ⟨[1, 2], by decide⟩

/-- The command `puts f`. -/
def putsF : CommandRequest := ⟨.putsReq, lit "f"⟩

/-- Where it goes. -/
def targetF : Bytes := lit "../tests/f"

theorem uploadRequest_putsF (n : Nat) : Client.uploadRequest putsF.arg n = requestF (.ofNat n) := by
  have : Client.safeBasename putsF.arg pathMax = lit "f" := by decide
  rw [Client.uploadRequest, this, requestF]

theorem setup_putsF {wc ws : World} (hfile : wc.fs.Has putsF.arg F.bytes)
    (hsync : wc.proc.sent = ws.proc.rcvd ∧ ws.proc.sent = wc.proc.rcvd) :
    UploadSetup putsF .start targetF F.bytes wc ws where
  file := hfile
  arg := by decide
  isOpen := rfl
  target := ⟨lit "/f", by decide⟩
  inStep := hsync

theorem resumePoint_length (hle : C.bytes.length ≤ F.bytes.length) :
    resumePoint (some C.bytes.length) = .ofNat C.bytes.length ∧
      ¬ UInt64.ofNat C.bytes.length > .ofNat F.bytes.length := by
  have hF := F.lt
  have hnat {n : Nat} (hn : n ≤ F.bytes.length) : (UInt64.ofNat n).toNat = n := toNat_size (hn.trans_lt hF)
  rw [← UInt64.toNat_inj, toNat_resumePoint (by omega), gt_iff_lt, UInt64.lt_iff_toNat_lt, hnat hle,
    hnat (le_refl _)]
  omega

/-- The request and the answer pass. -/
theorem upload_opens (hle : C.bytes.length ≤ F.bytes.length)
    (h : ∀ pc ps : Proc, pc.rcvd = ps.sent → ps.rcvd = pc.sent →
      pc.sent = (Client.uploadRequest putsF.arg F.bytes.length).wire →
      ps.sent = (putsResp (.ofNat F.bytes.length) (some C.bytes.length)).wire →
      pc.fds 0 = some ⟨putsF.arg, 0⟩ → ps.fds 0 = some ⟨targetF, 0⟩ → ps.maps 0 = none →
      ∃ x, DuplexSteps (side envC) (side envS)
        ((Client.uploadFrom 0 (.ofNat F.bytes.length) (.ofNat C.bytes.length), ⟨fsC.put putsF.arg F, pc⟩),
          (uploadMapped .start 0 (.ofNat F.bytes.length) (.ofNat C.bytes.length) >>= afterCommand,
            ⟨fsS.put targetF C, ps⟩)) x ∧ Q x) :
    ∃ x, DuplexSteps (side envC) (side envS) ((Client.handlePuts putsF, ⟨fsC.put putsF.arg F, .init⟩),
      (handleRequestRound .start, ⟨fsS.put targetF C, .init⟩)) x ∧ Q x := by
  have hnil : ([] : Bytes) <+: [] := List.prefix_refl _
  obtain ⟨hpoint, hover⟩ := resumePoint_length hle
  have hname : Client.safeBasename putsF.arg pathMax = lit "f" := by decide
  have hresp : (putsResp (.ofNat F.bytes.length) (some C.bytes.length)) =
      resumePacket .putsResp (.ofNat C.bytes.length) := by
    rw [putsResp, startOffset, hpoint, if_neg hover]
  -- the client, to the request
  have hR₁ := Duplex.backward_left (l := side envC) (r := side envS)
    (d := (handleRequestRound .start, ⟨fsS.put targetF C, .init⟩)) Q
  rw [Client.handlePuts]
  apply run_openRead hR₁ hnil 0 (by simp) rfl
  refine run_fstat hR₁ hnil (by simp [Proc.init]; rfl) rfl ?_
  simp only
  rw [Client.requestUpload, hname]
  refine run_sendPacket (fileInfoPayload (lit "f") (.ofNat F.bytes.length)) hR₁ rfl (by simp)
    (by rw [length_fileInfoPayload]; decide) hnil ?_
  -- the server, to its answer
  obtain ⟨fileName, virtualPath, hinfo, hne, hpath⟩ := uploadTarget_eq_some.1 (uploadTarget_requestF (.ofNat F.bytes.length))
  rw [← bind_ret (handleRequestRound _)]
  have hreq : (requestF (.ofNat F.bytes.length)).Valid := fileInfoPacket_valid _ _ _
  apply run_request (Duplex.backward_right Q) rfl hreq (List.prefix_refl _)
  have his : (requestF (.ofNat F.bytes.length)).Is .putsReq := Packet.of_is.2 rfl
  rw [dispatchCommand_puts his, handlePuts]
  simp only [hinfo, hpath, if_neg hne]
  have hin : (requestF (.ofNat F.bytes.length)).wire <+: (requestF (.ofNat F.bytes.length)).wire := List.prefix_refl _
  rw [bind_assoc]
  apply run_open (Duplex.backward_right Q) hin 0 rfl
  simp only
  rw [bind_assoc]
  refine run_fstat (Duplex.backward_right Q) hin (by simp [Proc.init]; rfl) rfl ?_
  simp only [hpoint, if_neg hover]
  rw [Server.uploadFrom, bind_assoc]
  apply run_sendResumePacket (Duplex.backward_right Q) hin
  simp only [bind_ret]
  -- the client reads it
  refine run_recvPacket (p := resumePacket .putsResp (.ofNat C.bytes.length)) (Duplex.backward_left Q)
    (resumePacket_valid _ _) (List.prefix_refl _) ?_
  have herr : ¬ (resumePacket .putsResp (.ofNat C.bytes.length)).Is .error := by simp [resumePacket]
  have hok : ¬ (¬ (resumePacket .putsResp (.ofNat C.bytes.length)).Is .putsResp ∨
      (resumePacket .putsResp (.ofNat C.bytes.length)).header.dataLen ≠ .ofNat resumeSize) := by
    rintro (h | h)
    · exact h (Packet.of_is.2 rfl)
    · exact h (resumePacket_dataLen _ _)
  have hload : loadU64 (resumePacket .putsResp (.ofNat C.bytes.length)).data = .ofNat C.bytes.length := by
    simp [resumePacket]
  simp only [if_neg herr, if_neg hok, hload, if_neg hover]
  refine h _ _ ?_ ?_ ?_ ?_ ?_ ?_ ?_
  · simp [Proc.init]
  · simp [Proc.init, requestF, fileInfoPacket]
  · simp [Proc.init, uploadRequest_putsF, requestF, fileInfoPacket]
  · simp [Proc.init, hresp]
  · simp
  · simp [targetF]
  · simp [Proc.init]

/-- **An upload that fits in a block goes through**: the client reports success, the server acknowledges. -/
theorem upload_runs (envC envS : Env) (fsC fsS : FS) (hpos : 0 < F.bytes.length) (hle : C.bytes.length ≤ F.bytes.length)
    (hone : F.bytes.length ≤ C.bytes.length + fileBlockSize) :
    ∃ wc' ws', DuplexSteps (side envC) (side envS)
      ((Client.handlePuts putsF, ⟨fsC.put putsF.arg F, .init⟩),
        (handleRequestRound .start, ⟨fsS.put targetF C, .init⟩))
      ((.ret .ok, wc'), (.ret (.inl .start), ws')) ∧
      Acked ws'.proc.sent ∧ ws'.fs.Has targetF (result F.bytes C.bytes) ∧
      wc'.proc.sent = ws'.proc.rcvd ∧ ws'.proc.sent = wc'.proc.rcvd := by
  have hF := F.lt
  have hnat {n : Nat} (hn : n ≤ F.bytes.length) : (UInt64.ofNat n).toNat = n := toNat_size (hn.trans_lt hF)
  have hlen : (C.bytes ++ F.bytes.drop C.bytes.length).length = F.bytes.length := by
    rw [List.length_append, List.length_drop]
    omega
  suffices h : ∃ x, DuplexSteps (side envC) (side envS)
      ((Client.handlePuts putsF, ⟨fsC.put putsF.arg F, .init⟩),
        (handleRequestRound .start, ⟨fsS.put targetF C, .init⟩)) x ∧
      (x.1.1 = .ret .ok ∧ x.2.1 = .ret (.inl .start) ∧ Acked x.2.2.proc.sent ∧
        x.2.2.fs.Has targetF (result F.bytes C.bytes) ∧ x.1.2.proc.sent = x.2.2.proc.rcvd ∧
        x.2.2.proc.sent = x.1.2.proc.rcvd) by
    obtain ⟨⟨⟨_, wc'⟩, _, ws'⟩, hrun, rfl, rfl, h⟩ := h
    exact ⟨wc', ws', hrun, h⟩
  refine upload_opens hle ?_
  intro pc ps hrc hrs hsc hss hfc hfs hmap
  -- the client sends what is left, the server takes it, the client reads the reply
  have hread : pc.rcvd <+: ps.sent := by rw [hrc]
  have hoff := hnat hle
  rw [← bind_ret (Client.uploadFrom _ _ _)]
  refine Client.run_uploadFrom (Duplex.backward_left _) hread hfc rfl (by rwa [hoff]) (by rwa [hoff])
    fun pc' hrc' hsc' => ?_
  rw [hoff] at hsc'
  have htake : ps.rcvd ++ Packet.wires (dataPackets (oneBlock (F.bytes.drop C.bytes.length)) ++
      [endPacket]) <+: pc'.sent := by rw [hsc', hrs]
  refine run_uploadMapped (d := ⟨C.bytes ++ F.bytes.drop C.bytes.length, by omega⟩) (Duplex.backward_right _)
    htake hfs rfl hmap (by rw [List.length_drop]; omega) ?_ hoff ?_ rfl fun ps' hrs' hss' => ?_
  · rw [UInt64.lt_iff_toNat_lt, hnat (le_refl _)]
    exact hpos
  · rw [hoff, hnat (le_refl _), List.length_drop]
    omega
  have hafter : afterCommand (.ok, .start) = .ret (.inl .start) := rfl
  have hreply : pc'.rcvd ++ (putsReply true).wire <+: ps'.sent := by rw [hrc', hrc, hss']
  rw [hafter]
  refine Client.run_recvTextResponse (Duplex.backward_left _) (putsReply_valid true) (.inl (by simp)) hreply
    ⟨_, .refl, rfl, rfl, ?_, ?_, ?_, ?_⟩
  · refine ⟨[putsResp (.ofNat F.bytes.length) (some C.bytes.length), putsReply true], [], ?_, ?_, putsReply true, ?_⟩
    · simp [hss', hss]
    · simp [putsResp_valid, putsReply_valid]
    · simp
  · rw [result, base_of_le hle]
    exact FS.put_has ..
  · show pc'.sent = ps'.rcvd
    rw [hsc', hrs', hrs]
  · show ps'.sent = pc'.rcvd ++ (putsReply true).wire
    rw [hss', hrc', hrc]

end Whole
end WindCloud
