import WindCloud.ClientUpload
import WindCloud.Lib.Resumable
/-!
# Uploads: the two sides together

The client's `handle_puts` and the server's round of `handle_request` run in any interleaving
over a connection that may be cut anywhere. What the server stores is what the client read:
the request fixes the size, the answer fixes the offset, and the packets are the client's
blocks in order (`Feeds.matched`). So an upload is a transfer resumed by length
(`upload_resumed`), which gives the convergence of repeated attempts and says exactly when an
acknowledged upload has stored the file.
-/

namespace WindCloud

open Interaction Prog FileImage Resumable

/-! ## The server's round -/

namespace Server

variable {env : Env} {w w' : World} {session : Session}

theorem recvPacket_result {wait : Wait} {rc : Rc} {p : Packet}
    (h : Steps (kernel env) (recvPacket wait, w) (.ret (rc, p), w')) :
    (∃ fs, env.rely w.fs fs ∧ rc = .ok ∧ p.Valid ∧ w' = ⟨fs, w.proc.addRcvd p.wire⟩) ∨
      ∃ fs bs, env.rely w.fs fs ∧ rc = .fail ∧ Partial bs ∧ Broken env wait bs ∧ w' = ⟨fs, w.proc.addRcvd bs⟩ :=
  wp_result (P := fun _ _ => True)
    (Q := fun (x : Rc × Packet) v => (∃ fs, env.rely w.fs fs ∧ x.1 = .ok ∧ x.2.Valid ∧ v = ⟨fs, w.proc.addRcvd x.2.wire⟩) ∨
      ∃ fs bs, env.rely w.fs fs ∧ x.1 = .fail ∧ Partial bs ∧ Broken env wait bs ∧ v = ⟨fs, w.proc.addRcvd bs⟩)
    (wp_recvPacket (fun _ _ _ _ _ => trivial) (fun _ _ _ _ _ => trivial)
      (fun fs _ hr hp => .inl ⟨fs, hr, rfl, hp, rfl⟩)
      (fun fs bs _ hr hp hb _ => .inr ⟨fs, bs, hr, rfl, hp, hb, rfl⟩)) h

/-- A round that has returned received no request, or has served one. -/
theorem handleRequestRound_result {r : Session ⊕ Rc} (hopen : session.shouldClose = false)
    (h : Steps (kernel env) (handleRequestRound session, w) (.ret r, w')) :
    (∃ fs bs, env.rely w.fs fs ∧ Partial bs ∧ w' = ⟨fs, w.proc.addRcvd bs⟩) ∨
      ∃ fs p x, env.rely w.fs fs ∧ Packet.Valid p ∧
        Steps (kernel env) (dispatchCommand session p, ⟨fs, w.proc.addRcvd p.wire⟩) (.ret x, w') := by
  rw [handleRequestRound_of_open hopen] at h
  obtain ⟨⟨rc, p⟩, v, hrecv, hrest⟩ := steps_bind_ret h
  rcases recvPacket_result hrecv with ⟨fs, hr, rfl, hp, rfl⟩ | ⟨fs, bs, hr, rfl, hpart, -, rfl⟩
  · obtain ⟨x, v, hd, hafter⟩ := steps_bind_ret hrest
    have hv : v = w' := by
      unfold afterCommand at hafter
      split at hafter <;> exact (congrArg Prod.snd (steps_ret hafter)).symm
    exact .inr ⟨fs, p, x, hr, hp, hv ▸ hd⟩
  · exact .inl ⟨fs, bs, hr, hpart, congrArg Prod.snd (steps_ret hrest)⟩

end Server

/-! ## What the server receives is what the client read -/

namespace Client

section Name

variable {arg : Bytes}

theorem zero_notMem_basename (h : 0 ∉ arg) : 0 ∉ basename arg := by
  unfold basename
  simp only
  split
  · decide
  split
  · decide
  · intro hm
    have hm := (List.takeWhile_sublist _).subset (List.mem_reverse.1 hm)
    exact h (List.mem_reverse.1 ((List.dropWhile_sublist _).subset hm))

theorem basename_ne_nil (arg : Bytes) : basename arg ≠ [] := by
  unfold basename
  simp only
  split
  · decide
  split
  · decide
  · rename_i h
    rcases hr : arg.reverse.dropWhile (· == slash) with _ | ⟨b, t⟩
    · exact absurd hr h
    · have hb : (b == slash) = false := by
        have := List.head?_dropWhile_not (· == slash) arg.reverse
        simpa [hr] using this
      have hb' : (b != slash) = true := by simp [bne, hb]
      simp [hb']

theorem safeBasename_ok (h : 0 ∉ arg) : 0 ∉ safeBasename arg pathMax ∧
    (safeBasename arg pathMax).length < pathMax ∧ safeBasename arg pathMax ≠ [] := by
  refine ⟨zero_notMem_truncate (zero_notMem_basename (zero_notMem_truncate h)), ?_, ?_⟩
  · have : 0 < pathMax := by decide
    simp only [safeBasename, truncate, List.length_take]
    omega
  · have hpos := List.length_pos_of_ne_nil (basename_ne_nil (truncate pathMax arg))
    apply List.ne_nil_of_length_pos
    have : pathMax - 1 = 4095 := rfl
    simp only [safeBasename, truncate, List.length_take] at hpos ⊢
    omega

/-- The server finds the target of the client's request. -/
theorem uploadTarget_uploadRequest {session : Session} {virtualPath path : Bytes} {size : Nat} (h0 : 0 ∉ arg)
    (hpath : resolveTargetPath session.currentPath (safeBasename arg pathMax) pathMax pathMax =
      some (virtualPath, path)) :
    Server.uploadTarget session (uploadRequest arg size) = some (path, .ofNat size) := by
  obtain ⟨hzero, hlen, hne⟩ := safeBasename_ok h0
  exact Server.uploadTarget_eq_some.2 ⟨_, _, extractFileInfo_fileInfoPacket .putsReq _ hzero hlen, hne, hpath⟩

theorem uploadRequest_inj {size size' : Nat} (h : uploadRequest arg size = uploadRequest arg size')
    (hs : size < 2 ^ 63) (hs' : size' < 2 ^ 63) : size = size' := by
  have hp := congrArg Packet.payload h
  simp only [uploadRequest, fileInfoPacket_payload, Option.some.injEq] at hp
  have hv := congrArg (fun bs => (loadU64 (List.drop pathMax bs)).toNat) hp
  simp only [loadU64_fileInfoPayload] at hv
  rwa [toNat_size (by omega), toNat_size (by omega)] at hv

end Name

section Matched

variable {I : FS → Prop} {arg r s tail : Bytes} {size : Nat} {pkts rest : List Packet}

/-- The client resumes where the server says. -/
theorem resumeOf_putsResp (st : Option Nat) :
    resumeOf size (Server.putsResp (.ofNat size) st) = Server.startOffset (.ofNat size) st := by
  have hle := Server.startOffset_le (.ofNat size) st
  have hload : loadU64 (Server.putsResp (.ofNat size) st).data = Server.startOffset (.ofNat size) st := by
    simp [Server.putsResp, resumePacket]
  rw [resumeOf, hload, if_neg (by rw [gt_iff_lt, UInt64.lt_iff_toNat_lt]; omega)]

/-- A request and packets in the client's stream are packets of its upload. -/
theorem Feeds.matched (h : Feeds I arg r s) (hv : ∀ p ∈ pkts, Packet.Valid p)
    (hpre : (uploadRequest arg size).wire ++ (Packet.wires pkts ++ tail) <+: s) :
    ∃ rest, Feed I arg r (uploadRequest arg size :: (pkts ++ rest)) ∧ tail <+: Packet.wires rest := by
  rcases h with rfl | ⟨ps, hf, hs⟩
  · have := List.prefix_nil.1 hpre
    simp [Packet.wire_ne_nil] at this
  · have hpre := hpre.trans hs
    rw [← List.append_assoc, ← Packet.wires_cons] at hpre
    obtain ⟨rest, rfl, htail⟩ := Packet.wire_code.all_prefix
      (List.forall_mem_cons.2 ⟨uploadRequest_valid arg size, hv⟩) hf.valid hpre
    exact ⟨rest, hf, htail⟩

/-- The data packets of an upload are its first blocks. -/
theorem Feed.blocks_of (h : Feed I arg r (uploadRequest arg size :: (pkts ++ rest))) (hs : size < 2 ^ 63)
    (hd : ∀ p ∈ pkts, p.Is .fileData) :
    pkts = [] ∨ ∃ p chunks, Uploading I arg r size p chunks ∧ pkts <+: dataPackets chunks := by
  generalize hq : uploadRequest arg size = q at h
  generalize hps : pkts ++ rest = ps at h
  cases h with
  | request h => exact .inl (List.append_eq_nil_iff.1 hps).1
  | blocks h => exact .inr ⟨_, _, uploadRequest_inj hq hs h.sized.1 ▸ h, hps ▸ List.prefix_append _ _⟩
  | whole h _ =>
    refine .inr ⟨_, _, uploadRequest_inj hq hs h.sized.1 ▸ h, ?_⟩
    have hpre : pkts <+: _ ++ [endPacket] := hps ▸ List.prefix_append pkts rest
    rcases List.prefix_concat_iff.1 hpre with rfl | h
    · have := hd endPacket (by simp)
      simp [endPacket] at this
    · exact h

/-- Blocks of a file that stays `F` are a piece of `F`. -/
theorem Fed.flatten_prefix {F : Bytes} {off : Nat} {chunks : List Bytes}
    (h : Fed (fun fs => fs.Has arg F) arg size off chunks) : chunks.flatten <+: F.drop off := by
  induction h with
  | nil => exact List.nil_prefix
  | @snoc chunks chunk _ _ _ _ hread ih =>
    obtain ⟨fs, hfs, hpre⟩ := hread
    rw [List.flatten_append, List.flatten_singleton]
    apply append_start ih
    rw [List.drop_drop]
    exact hpre F hfs

end Matched
end Client

/-! ## An upload is a resumed transfer -/

/-- The calls on the connection and on memory. -/
def Call.Net : Call → Prop
  | .recv .. | .send _ | .calloc _ => True
  | _ => False

/-- The client asks for an upload of the file `req.arg`, which holds `F`; `path` is where the server
in `session` puts it; neither side has anything of the other's still to read. -/
structure UploadSetup (req : CommandRequest) (session : Session) (path F : Bytes) (wc ws : World) : Prop where
  file : wc.fs.Has req.arg F
  arg : 0 ∉ req.arg
  isOpen : session.shouldClose = false
  target : ∃ virtualPath, resolveTargetPath session.currentPath (Client.safeBasename req.arg pathMax) pathMax pathMax =
    some (virtualPath, path)
  inStep : wc.proc.sent = ws.proc.rcvd ∧ ws.proc.sent = wc.proc.rcvd

section Composed

open Server

variable {envC : Env} {faultsC faultsS : Call → Prop} {req : CommandRequest} {session : Session} {path F : Bytes}
  {wc ws wc' ws' : World} {p : Io Rc} {q : Io (Session ⊕ Rc)} {I : FS → Prop}

/-- Both sides of a run, from where they were in step. -/
theorem upload_streams {envS : Env} (hI : ∀ {fs fs'}, envC.rely fs fs' → I fs → I fs') (hw : I wc.fs)
    (hsync : wc.proc.sent = ws.proc.rcvd ∧ ws.proc.sent = wc.proc.rcvd)
    (hrun : DuplexSteps (side envC) (side envS) ((Client.handlePuts req, wc), (handleRequestRound session, ws))
      ((p, wc'), (q, ws'))) :
    Steps (kernel envC) (Client.handlePuts req, wc) (p, wc') ∧
      Steps (kernel envS) (handleRequestRound session, ws) (q, ws') ∧
      ∃ rc sc rs ss, wc.proc.Since rc sc wc'.proc ∧ ws.proc.Since rs ss ws'.proc ∧ rs <+: sc ∧ rc <+: ss ∧
        Client.Feeds I req.arg rc sc := by
  obtain ⟨hc, hs, rc, sc, rs, ss, hsinceC, hsinceS, hrs, hrc⟩ := duplex_streams hsync hrun
  obtain ⟨r, s, hsince, hfeeds⟩ := Client.feeds_of_steps hI hw hc
  obtain rfl : rc = r := List.append_cancel_left (hsinceC.rcvd.symm.trans hsince.rcvd)
  obtain rfl : sc = s := List.append_cancel_left (hsinceC.sent.symm.trans hsince.sent)
  exact ⟨hc, hs, rc, sc, rs, ss, hsince, hsinceS, hrs, hrc, hfeeds⟩

/-- The request a server has received is the client's. -/
theorem request_eq {rc sc : Bytes} {p : Packet} (hf : Client.Feeds I req.arg rc sc) (hp : p.Valid)
    (hpre : p.wire <+: sc) : ∃ size, p = Client.uploadRequest req.arg size ∧ Sized I req.arg size := by
  rcases hf with rfl | ⟨ps, hf, hs⟩
  · exact absurd (List.prefix_nil.1 hpre) p.wire_ne_nil
  · obtain ⟨size, chunks, tail, hsized, rfl, -, -⟩ := hf.shape
    have hreq : (Client.uploadRequest req.arg size).Valid := Client.uploadRequest_valid _ _
    exact ⟨size, Packet.wire_code.word_prefix hp hreq (hpre.trans hs), hsized⟩

/-- A measured target is resumed at what a resumed transfer keeps. -/
theorem resumed_eq_base {total : UInt64} {st : Option Nat} {C : Bytes} (hst : ∀ n, st = some n → n = C.length)
    (hC : C.length < 2 ^ 63) (hne : st ≠ none) (htotal : total.toNat = F.length) :
    kept total st C = base F C ∧ resumed total st C = base F C ∧
      (startOffset total st).toNat = (base F C).length := by
  unfold resumed
  rcases resume_cases total hst hC with ⟨hn, -, -⟩ | ⟨-, hle, hk, h⟩ | ⟨-, hlt, hk, h⟩
  · exact absurd hn hne
  · rw [hk, h, List.take_length, base_of_le (by omega)]
    exact ⟨rfl, rfl, rfl⟩
  · rw [hk, h, base_of_gt (by omega)]
    exact ⟨rfl, rfl, rfl⟩

/-- The blocks a server took from the client are a piece of the client's file. -/
theorem blocks_prefix {rc sc tail pre : Bytes} {st : Option Nat} {pkts : List Packet}
    (hfeeds : Client.Feeds (fun fs => fs.Has req.arg F) req.arg rc sc) (hF : F.length < 2 ^ 63)
    (hv : ∀ p ∈ pkts, Packet.Valid p ∧ p.Is .fileData)
    (hrs : (Client.uploadRequest req.arg F.length).wire ++ (Packet.wires pkts ++ tail) <+: sc)
    (hrc : rc <+: (putsResp (.ofNat F.length) st).wire ++ pre) :
    payloads pkts <+: F.drop (startOffset (.ofNat F.length) st).toNat := by
  obtain ⟨rest, hfeed, -⟩ := hfeeds.matched (fun p hp => (hv p hp).1) hrs
  rcases hfeed.blocks_of hF fun p hp => (hv p hp).2 with rfl | ⟨p, chunks, hup, ⟨rest', hrest⟩⟩
  · exact List.nil_prefix
  · obtain rfl := Packet.wire_code.word_prefix hup.valid (putsResp_valid st) (hup.read.trans hrc)
    have hflat := hup.fed.flatten_prefix
    rw [Client.resumeOf_putsResp, ← payloads_dataPackets, ← hrest, payloads_append] at hflat
    exact (List.prefix_append _ _).trans hflat

/-- The server's side: if the blocks it takes are a piece of `F`, the upload is a resumed transfer. -/
theorem Server.PutsEnd.resumed {b : Proc} {C : Bytes} {total : UInt64} {x : Rc × Session} (hnet : ∀ c, faultsS c → c.Net)
    (hend : PutsEnd (.quiet faultsS) b path total session C x ws') (htotal : total.toNat = F.length)
    (hC : C.length < 2 ^ 63)
    (hdata : ∀ st pkts tail pre, ws'.proc.rcvd = b.rcvd ++ (Packet.wires pkts ++ tail) →
      ws'.proc.sent = b.sent ++ ((putsResp total st).wire ++ pre) → (∀ p ∈ pkts, Packet.Valid p ∧ p.Is .fileData) →
      payloads pkts <+: F.drop (startOffset total st).toNat) :
    ∃ s, ws'.proc.sent = b.sent ++ s ∧ Resumed F C (ws'.fs.bytes path) (Acked s) ∧
      (Acked s → ws'.fs.Has path (result F C)) := by
  have hq : (Env.quiet faultsS).Quiet := Env.quiet_quiet faultsS
  have hmeasured {st : Option Nat} (h : Measured (.quiet faultsS) st C) : st ≠ none := fun hn => by
    obtain ⟨fd, hf⟩ := h.fault hn
    exact hnet _ hf
  cases hend with
  | @refused _ t e _ pre hv he hs hfs ht =>
    have hnot : ¬ Acked pre := not_acked_of_forall [e] (by simpa using hs.starts) (by simpa using hv)
      (by simpa using not_ack_of_error he)
    exact ⟨pre, rfl, ⟨.inl (hfs hq), fun hack => absurd hack hnot⟩, fun hack => absurd hack hnot⟩
  | @unsent _ fd st pre hs hst hheld =>
    obtain ⟨hk, -, -⟩ := resumed_eq_base (hst.size hq) hC (hmeasured hst) htotal
    have hnot : ¬ Acked pre := not_acked_of_forall [putsResp total st] (by simpa using hs.starts)
      (by simpa using putsResp_valid st) (by simp)
    refine ⟨pre, rfl, ⟨.inr ⟨[], List.nil_prefix, ?_⟩, fun hack => absurd hack hnot⟩, fun hack => absurd hack hnot⟩
    rw [(hheld hq).bytes, hk, List.append_nil]
  | extendFailed hf => exact absurd (hnet _ hf) id
  | mapFailed hf => exact absurd (hnet _ hf) id
  | @done fs u tail _ success cut _ pre hu hstop hcut hs hst hheld =>
    obtain rfl : cut = true := by
      by_contra hf
      obtain ⟨fd, n, h⟩ := hcut (by simpa using hf)
      exact hnet _ h
    obtain ⟨-, hbase, hstart⟩ := resumed_eq_base (hst.size hq) hC (hmeasured hst) htotal
    have hpre : u.data <+: F.drop (base F C).length := hstart ▸ hdata u.st u.pkts tail pre rfl rfl hu.blocks
    have hfile : fs.Has path (base F C ++ u.data) := by
      have hhas := hheld hq
      rcases final_file hu hstop (hst.size hq) hC with h | ⟨hn, -, -⟩
      · rwa [h, Progress.stored, hbase] at hhas
      · exact absurd hn (hmeasured hst)
    suffices hfull : Acked ((putsResp total u.st).wire ++ pre) → base F C ++ u.data = result F C from
      ⟨_, rfl, ⟨.inr ⟨u.data, hpre, hfile.bytes⟩, fun hack => hfile.bytes.trans (hfull hack)⟩,
        fun hack => hfull hack ▸ hfile⟩
    -- only a full upload is acknowledged
    intro hack
    obtain rfl : success = true := by
      by_contra hf
      obtain rfl : success = false := by simpa using hf
      refine hs.not_acked [putsResp total u.st] ?_ ?_ (by simpa using hack)
      · simp [putsResp_valid, putsReply_valid]
      · simp
    have hlen : (base F C).length + u.data.length = F.length := by
      rw [← hstart, ← htotal, ← hstop.full, Progress.offset]
    rw [result, hpre.eq_of_length (by rw [List.length_drop]; omega)]

/-- What an upload to the end of the server's round leaves: nobody but the network fails on the
server, nobody else touches either file. -/
theorem upload_resumed (hnet : ∀ c, faultsS c → c.Net) (hset : UploadSetup req session path F wc ws)
    {r : Session ⊕ Rc}
    (hrun : DuplexSteps (side (.quiet faultsC)) (side (.quiet faultsS))
      ((Client.handlePuts req, wc), (handleRequestRound session, ws)) ((p, wc'), (.ret r, ws'))) :
    ∃ s, ws'.proc.sent = ws.proc.sent ++ s ∧ Resumed F (ws.fs.bytes path) (ws'.fs.bytes path) (Acked s) ∧
      (Acked s → ws'.fs.Has path (result F (ws.fs.bytes path))) := by
  have hI : ∀ {fs fs' : FS}, (Env.quiet faultsC).rely fs fs' → fs.Has req.arg F → fs'.Has req.arg F := by
    rintro fs _ rfl h
    exact h
  obtain ⟨-, hserver, rc, sc, rs, ss, -, hsince, hrs, hrc, hfeeds⟩ :=
    upload_streams (I := fun fs => fs.Has req.arg F) hI hset.file hset.inStep hrun
  rcases handleRequestRound_result hset.isOpen hserver with ⟨fs, bs, hr, -, rfl⟩ | ⟨fs, p, x, hr, hp, hround⟩
  · -- no request arrived
    obtain rfl : fs = ws.fs := hr
    have hnot : ¬ Acked [] := not_acked_of_forall [] (by simp) (by simp) (by simp)
    exact ⟨[], by simp, ⟨.inl rfl, fun hack => absurd hack hnot⟩, fun hack => absurd hack hnot⟩
  · obtain rfl : fs = ws.fs := hr
    have hpre : p.wire <+: rs := by
      have := (steps_grow hround).1
      simp only [Proc.addRcvd_rcvd, hsince.rcvd] at this
      exact (List.prefix_append_right_inj _).1 this
    obtain ⟨size, rfl, -, fs, hfs, hsize⟩ := request_eq hfeeds hp (hpre.trans hrs)
    obtain rfl := hsize F hfs
    have htotal : (UInt64.ofNat F.length).toNat = F.length := toNat_size hfs.lt
    obtain ⟨virtualPath, hpath⟩ := hset.target
    rw [dispatchCommand_puts (Client.uploadRequest_is _ _)] at hround
    have hend := wp_result (wp_handlePuts (Client.uploadTarget_uploadRequest hset.arg hpath)) hround
    have hdata (st : Option Nat) (pkts : List Packet) (tail pre : Bytes)
        (hrcvd : ws'.proc.rcvd = ws.proc.rcvd ++ (Client.uploadRequest req.arg F.length).wire ++
          (Packet.wires pkts ++ tail))
        (hsent : ws'.proc.sent = ws.proc.sent ++ ((putsResp (.ofNat F.length) st).wire ++ pre))
        (hv : ∀ p ∈ pkts, Packet.Valid p ∧ p.Is .fileData) :
        payloads pkts <+: F.drop (startOffset (.ofNat F.length) st).toNat := by
      rw [hsince.rcvd, List.append_assoc] at hrcvd
      rw [hsince.sent] at hsent
      obtain rfl := List.append_cancel_left hrcvd
      obtain rfl := List.append_cancel_left hsent
      exact blocks_prefix hfeeds hfs.lt hv hrs hrc
    obtain ⟨s, hs, hres, hhas⟩ := hend.resumed hnet htotal (ws.fs.bytes_lt path) hdata
    exact ⟨s, hs, hres, hhas⟩

end Composed
end WindCloud
