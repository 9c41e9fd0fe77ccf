import WindCloud.ClientDownload
import WindCloud.ServerDownload
import WindCloud.Upload
import Mathlib.Data.List.TakeWhile
/-!
# Downloads: the two sides together

The client's `handle_gets` and the server's round of `handle_request` run in any interleaving over a
connection that may be cut anywhere, or stop at any step. The file on the server stays `S`; the local
one is touched by nobody else. The client writes what the server read (`Getting.blocks`), at the place
it was read from, so a download is a transfer resumed by length, at every moment (`download_resumed`).
-/

namespace WindCloud

open Interaction Prog FileImage Resumable Server

/-! ## What the client receives is what the server read -/

namespace Server

/-- Blocks of `S` are a piece of it. -/
theorem Cut.flatten_prefix {S : Bytes} {total off : Nat} {blocks : List Bytes} (h : Cut (FileBlock S) total off blocks) :
    blocks.flatten <+: S.drop off := by
  induction h with
  | nil => exact List.nil_prefix
  | snoc _ _ hblock ih =>
    obtain rfl := hblock
    rw [List.flatten_append, List.flatten_singleton]
    apply append_start ih
    rw [List.drop_drop]
    exact List.take_prefix _ _

/-- The request is served by `handle_gets`. -/
theorem dispatchCommand_gets {session : Session} {arg : Bytes} (h0 : 0 ∉ arg) (hne : arg ≠ []) (hshort : arg.length < pathMax) :
    dispatchCommand session (Client.downloadRequest arg) = handleGets session arg := by
  have hcopy : copyStringPayload (Client.downloadRequest arg) pathMax false = some arg :=
    copyStringPayload_of .getsReq h0 hne hshort
  have his : (Client.downloadRequest arg).Is .getsReq := Packet.of_is.2 rfl
  rw [dispatchCommand, ofCode_of_is his]
  simp only [withArg, hcopy]

section Matching

variable {I : FS → Prop} {B : Nat → Bytes → Prop} {path arg r s tail : Bytes} {total : UInt64} {p : Packet} {pkts : List Packet}

/-- A client that has taken data packets has taken the server's first blocks. -/
theorem Getting.blocks (hB : Blocks I path total.toNat B) (h : Getting B arg total r s) (hp : p.Valid)
    (hresp : p.Is .getsResp) (hpkts : ∀ q ∈ pkts, Packet.Valid q ∧ q.Is .fileData)
    (hs : p.wire ++ (Packet.wires pkts ++ tail) <+: s) : p = getsResp arg total ∧
      (pkts = [] ∨ ∃ q blocks, r = q.wire ∧ Resuming B total q blocks ∧ pkts <+: dataPackets blocks) := by
  have hread (es : List Packet) (h : s <+: Packet.wires es) (hv : ∀ e ∈ es, Packet.Valid e) :
      ∃ cs, es = p :: (pkts ++ cs) := by
    have hpre : Packet.wires (p :: pkts) ++ tail <+: Packet.wires es := by simpa using hs.trans h
    obtain ⟨cs, rfl, -⟩ := Packet.wire_code.all_prefix (List.forall_mem_cons.2 ⟨hp, fun q hq => (hpkts q hq).1⟩) hv hpre
    exact ⟨cs, rfl⟩
  cases h with
  | @refusing e _ hv he h =>
    obtain ⟨cs, hcs⟩ := hread [e] (by simpa using h) (by simpa using hv)
    obtain ⟨rfl, -⟩ : e = p ∧ _ := by simpa using hcs
    have := he.symm.trans hresp
    simp at this
  | answering h =>
    obtain ⟨cs, hcs⟩ := hread [getsResp arg total] (by simpa using h) (by simpa using getsResp_valid arg total)
    obtain ⟨rfl, hnil⟩ : getsResp arg total = p ∧ _ := by simpa using hcs
    exact ⟨rfl, .inl (by simpa using hnil.1)⟩
  | @sending q blocks _ hup h =>
    obtain ⟨cs, hcs⟩ := hread _ h (hup.packets arg hB).1
    obtain ⟨rfl, hblocks⟩ := List.cons.inj hcs
    exact ⟨rfl, .inr ⟨q, blocks, rfl, hup, hblocks ▸ List.prefix_append _ _⟩⟩
  | @ending q blocks _ hup hle h =>
    obtain ⟨hv, -⟩ := hup.packets arg hB
    obtain ⟨cs, hcs⟩ := hread _ h (forall_mem_snoc hv endPacket_valid)
    obtain ⟨rfl, hblocks⟩ := List.cons.inj hcs
    have hpre : pkts <+: dataPackets blocks ++ [endPacket] := ⟨cs, hblocks.symm⟩
    refine ⟨rfl, .inr ⟨q, blocks, rfl, hup, ?_⟩⟩
    -- the end is no block
    rcases List.prefix_concat_iff.1 hpre with rfl | h
    · have := (hpkts endPacket (by simp)).2
      simp at this
    · exact h

/-- One that has taken the end has taken them all. -/
theorem Getting.ended {e : Packet} (hB : Blocks I path total.toNat B) (h : Getting B arg total r s) (hp : p.Valid)
    (hresp : p.Is .getsResp) (hpkts : ∀ q ∈ pkts, Packet.Valid q ∧ q.Is .fileData) (he : e.Valid)
    (hend : e.Is .fileEnd) (hs : Packet.wires (p :: (pkts ++ [e])) <+: s) : p = getsResp arg total ∧
      ∃ q blocks, r = q.wire ∧ Resuming B total q blocks ∧ total.toNat ≤ position total q blocks ∧
        pkts = dataPackets blocks ∧ e = endPacket ∧ s = Packet.wires (p :: (pkts ++ [e])) := by
  have hread (es : List Packet) (h : s <+: Packet.wires es) (hv : ∀ e ∈ es, Packet.Valid e) :
      ∃ cs, es = p :: (pkts ++ e :: cs) := by
    have hpre : Packet.wires (p :: (pkts ++ [e])) ++ [] <+: Packet.wires es := by simpa using hs.trans h
    have hv' : ∀ q ∈ p :: (pkts ++ [e]), Packet.Valid q := by
      intro q hq
      simp only [List.mem_cons, List.mem_append, List.not_mem_nil, or_false] at hq
      rcases hq with rfl | hq | rfl
      · exact hp
      · exact (hpkts q hq).1
      · exact he
    obtain ⟨cs, rfl, -⟩ := Packet.wire_code.all_prefix hv' hv hpre
    exact ⟨cs, by simp⟩
  cases h with
  | @refusing e' _ hv _ h =>
    obtain ⟨cs, hcs⟩ := hread [e'] (by simpa using h) (by simpa using hv)
    simp at hcs
  | answering h =>
    obtain ⟨cs, hcs⟩ := hread [getsResp arg total] (by simpa using h) (by simpa using getsResp_valid arg total)
    simp at hcs
  | @sending q blocks _ hup h =>
    obtain ⟨cs, hcs⟩ := hread _ h (hup.packets arg hB).1
    have hmem : e ∈ dataPackets blocks := by
      rw [(List.cons.inj hcs).2]
      simp
    obtain ⟨block, -, rfl⟩ := List.mem_map.1 hmem
    simp at hend
  | @ending q blocks _ hup hle h =>
    obtain ⟨hv, -⟩ := hup.packets arg hB
    obtain ⟨cs, hcs⟩ := hread _ h (forall_mem_snoc hv endPacket_valid)
    obtain ⟨rfl, hblocks⟩ := List.cons.inj hcs
    -- the end is no block
    have hlast : e ∉ dataPackets blocks := by
      intro hmem
      obtain ⟨block, -, rfl⟩ := List.mem_map.1 hmem
      simp at hend
    obtain ⟨rfl, rfl, rfl⟩ := eq_of_last hblocks hlast
    exact ⟨rfl, q, blocks, rfl, hup, hle, rfl, rfl, h.eq_of_length_le hs.length_le⟩

end Matching
end Server

/-! ## A download is a resumed transfer -/

/-- The client asks for the file `req.arg`, which is `S` at `path` on the server in `session`; neither
side has anything of the other's still to read. -/
structure DownloadSetup (req : CommandRequest) (session : Session) (path S : Bytes) (wc ws : World) : Prop where
  file : ws.fs.Has path S
  arg : 0 ∉ req.arg
  nonempty : req.arg ≠ []
  short : req.arg.length < pathMax
  isOpen : session.shouldClose = false
  target : ∀ v p, resolveTargetPath session.currentPath req.arg pathMax pathMax = some (v, p) → p = path
  inStep : wc.proc.sent = ws.proc.rcvd ∧ ws.proc.sent = wc.proc.rcvd

/-- The server has sent nothing, or is serving the download of `path`. -/
def Serves (path S arg rs ss : Bytes) : Prop :=
  ss = [] ∨ ∃ r, rs = (Client.downloadRequest arg).wire ++ r ∧
    GettingOf (fun fs => fs.Has path S) (fun _ => FileBlock S) path arg r ss

section Streams

variable {env : Env} {arg path L S rc sc rs ss tail : Bytes} {p e : Packet} {st : Option Nat} {pkts : List Packet}

theorem blocks_of_sized (n : Nat) (h : Sized (fun fs => fs.Has path S) path n) :
    Blocks (fun fs => fs.Has path S) path n (FileBlock S) := by
  obtain ⟨-, fs, hfs, hn⟩ := h
  rw [hn S hfs]
  exact blocks_of_file

/-- The offset at which the server starts is the client's. -/
theorem sendOffset_asked {q : Packet} (hq : q.Valid) (hrs : (Client.downloadRequest arg).wire ++ q.wire <+: sc)
    (hsc : sc <+: Packet.wires (Client.asked arg p st)) :
    sendOffset (Client.announced p) q = (startOffset (Client.announced p) st).toNat := by
  have hpre := hrs.trans hsc
  simp only [Client.asked, Packet.wires_cons, Packet.wires_nil] at hpre
  rw [List.prefix_append_right_inj] at hpre
  obtain rfl := Packet.wire_code.word_prefix hq (resumePacket_valid _ _) hpre
  have hle := startOffset_le (Client.announced p) st
  rw [sendOffset, extractResumeOffset_resumePacket]
  simp only
  rw [if_neg (by rw [gt_iff_lt, UInt64.lt_iff_toNat_lt]; omega)]

/-- The client and the server agree on where the download starts. -/
theorem located_start (hl : Client.Located env L p st) (ha : Client.Alone env) (hL : L.length < 2 ^ 63)
    (hS : S.length < 2 ^ 63) (hp : p = getsResp arg (.ofNat S.length)) :
    Client.announced p = .ofNat S.length ∧ kept (Client.announced p) st L = base S L ∧
      (startOffset (Client.announced p) st).toNat = start S L := by
  have hann : Client.announced p = .ofNat S.length := by
    rw [hp, Client.announced, getsResp, fileInfoPacket, Packet.data_of, loadU64_fileInfoPayload]
  have htotal : (UInt64.ofNat S.length).toNat = S.length := toNat_size (by omega)
  have hne : st ≠ none := fun hn => by
    obtain ⟨fd, hf⟩ := hl.measured.fault hn
    exact ha.2 fd hf
  obtain ⟨hk, -, hstart⟩ := resumed_eq_base (hl.measured.size ha.1) hL hne htotal
  rw [hann, hk, hstart, length_base]
  exact ⟨rfl, rfl, rfl⟩

/-- What the client has taken is a piece of the server's file, from where the download starts. -/
theorem Serves.takes (h : Serves path S arg rs ss) (hl : Client.Located env L p st) (ha : Client.Alone env)
    (hL : L.length < 2 ^ 63) (hrs : rs <+: sc) (hsc : sc <+: Packet.wires (Client.asked arg p st))
    (hpkts : ∀ q ∈ pkts, Packet.Valid q ∧ q.Is .fileData) (hrc : p.wire ++ (Packet.wires pkts ++ tail) <+: ss) :
    kept (Client.announced p) st L = base S L ∧ payloads pkts <+: S.drop (start S L) := by
  rcases h with rfl | ⟨r, rfl, n, hsized, hget⟩
  · simp [p.wire_ne_nil] at hrc
  obtain ⟨hlt, fs, hfs, hn⟩ := id hsized
  obtain rfl := hn S hfs
  have htotal : (UInt64.ofNat S.length).toNat = S.length := toNat_size (by omega)
  have hB : Blocks (fun fs => fs.Has path S) path S.length (FileBlock S) := blocks_of_sized _ hsized
  rw [← htotal] at hB
  obtain ⟨hp, hcases⟩ := hget.blocks hB hl.valid hl.resp hpkts hrc
  obtain ⟨hann, hkept, hstart⟩ := located_start hl ha hL hlt hp
  refine ⟨hkept, ?_⟩
  rcases hcases with rfl | ⟨q, blocks, rfl, hup, hpre⟩
  · exact List.nil_prefix
  · have hflat := hup.cut.flatten_prefix
    rw [← hann, sendOffset_asked hup.valid hrs hsc, hstart] at hflat
    obtain ⟨rest, hrest⟩ := hpre
    rw [← payloads_dataPackets, ← hrest, payloads_append] at hflat
    exact (List.prefix_append _ _).trans hflat

/-- And when it has taken the end, it has taken everything. -/
theorem Serves.takes_all (h : Serves path S arg rs ss) (hl : Client.Located env L p st) (ha : Client.Alone env)
    (hL : L.length < 2 ^ 63) (hrs : rs <+: sc) (hsc : sc <+: Packet.wires (Client.asked arg p st))
    (hpkts : ∀ q ∈ pkts, Packet.Valid q ∧ q.Is .fileData) (he : e.Valid) (hend : e.Is .fileEnd)
    (hrc : Packet.wires (p :: (pkts ++ [e])) <+: ss) :
    kept (Client.announced p) st L = base S L ∧ payloads pkts = S.drop (start S L) := by
  have hrc' : p.wire ++ (Packet.wires pkts ++ e.wire) <+: ss := by simpa using hrc
  obtain ⟨hkept, hpre⟩ := h.takes hl ha hL hrs hsc hpkts hrc'
  refine ⟨hkept, hpre.eq_of_length_le ?_⟩
  rcases h with rfl | ⟨r, rfl, n, hsized, hget⟩
  · simp [p.wire_ne_nil] at hrc
  obtain ⟨hlt, fs, hfs, hn⟩ := id hsized
  obtain rfl := hn S hfs
  have htotal : (UInt64.ofNat S.length).toNat = S.length := toNat_size (by omega)
  have hB : Blocks (fun fs => fs.Has path S) path S.length (FileBlock S) := blocks_of_sized _ hsized
  rw [← htotal] at hB
  obtain ⟨hp, q, blocks, rfl, hup, hle, rfl, -, -⟩ := hget.ended hB hl.valid hl.resp hpkts he hend hrc
  obtain ⟨hann, -, hstart⟩ := located_start hl ha hL hlt hp
  rw [← hann] at hle
  rw [position, sendOffset_asked hup.valid hrs hsc, hstart, hann, htotal] at hle
  rw [List.length_drop, payloads_dataPackets]
  omega

end Streams

section Composed

variable {faultsC : Call → Prop} {envS : Env} {req : CommandRequest} {session : Session} {path S rs ss sc : Bytes}
  {wc ws wc' ws' : World} {p : Io Rc} {q : Io (Session ⊕ Rc)}

theorem Client.Fetching.sent {env : Env} {arg L r s : Bytes} {fs : FS} (h : Client.Fetching env arg L r s fs) :
    ∃ offset, s <+: Packet.wires [Client.downloadRequest arg, resumePacket .resumePos offset] := by
  cases h with
  | asking hs => exact ⟨0, hs.trans (by simp)⟩
  | resuming _ hs => exact ⟨_, hs⟩
  | storing => exact ⟨_, List.prefix_refl _⟩

/-- What the server does at any moment, against a client that asks for its file. -/
theorem serves_of_steps {offset : UInt64} (hkeep : ∀ {fs fs'}, envS.rely fs fs' → fs.Has path S → fs'.Has path S)
    (hset : DownloadSetup req session path S wc ws) (hrun : Steps (kernel envS) (handleRequestRound session, ws) (q, ws'))
    (hsince : ws.proc.Since rs ss ws'.proc) (hrs : rs <+: sc)
    (hsc : sc <+: Packet.wires [Client.downloadRequest req.arg, resumePacket .resumePos offset]) :
    Serves path S req.arg rs ss := by
  rcases round_cases hset.isOpen hrun with ⟨r, hs⟩ | ⟨fs, p, q', hr, hp, hserve⟩
  · exact .inl (List.append_cancel_left (hsince.sent.symm.trans hs.sent))
  obtain ⟨r, hr₀⟩ := (steps_grow hserve).1
  simp only [Proc.addRcvd_rcvd, hsince.rcvd, List.append_assoc] at hr₀
  obtain rfl := List.append_cancel_left hr₀
  obtain rfl := Packet.wire_code.word_prefix hp (Client.downloadRequest_valid hset.short)
    ((List.prefix_append _ _).trans (hrs.trans hsc))
  rw [dispatchCommand_gets hset.arg hset.nonempty hset.short] at hserve
  have hwp : wp (kernel envS) _ (handleGets session req.arg) _
      ⟨fs, ws.proc.addRcvd (Client.downloadRequest req.arg).wire⟩ :=
    wp_handleGets blocks_of_sized hkeep (hkeep hr hset.file) (.refl _) hset.target
  have hstart : GettingOf (fun fs => fs.Has path S) (fun _ => FileBlock S) path req.arg [] [] :=
    ⟨S.length, ⟨hset.file.lt, ws.fs, hset.file, fun b hb => by rw [hset.file.unique hb]⟩, .answering List.nil_prefix⟩
  obtain ⟨r', s', hs', hget⟩ := Follows.steps hwp ⟨[], [], .refl _, hstart⟩ hserve
  have hr' : r = r' := by
    have := hs'.rcvd
    simp only [Proc.addRcvd_rcvd, hsince.rcvd, List.append_assoc] at this
    exact List.append_cancel_left (List.append_cancel_left this)
  obtain rfl : ss = s' := List.append_cancel_left (hsince.sent.symm.trans hs'.sent)
  exact .inr ⟨r, rfl, hr' ▸ hget⟩

/-- **A download is a resumed transfer** at every moment, done when the client reports success. -/
theorem download_resumed (hfstat : ∀ fd, ¬ faultsC (.fstat fd))
    (hkeep : ∀ {fs fs'}, envS.rely fs fs' → fs.Has path S → fs'.Has path S)
    (hset : DownloadSetup req session path S wc ws)
    (hrun : DuplexSteps (side (.quiet faultsC)) (side envS)
      ((Client.handleGets req, wc), (handleRequestRound session, ws)) ((p, wc'), (q, ws'))) :
    Resumed S (wc.fs.bytes req.arg) (wc'.fs.bytes req.arg) (p = .ret .ok) ∧
      (p = .ret .ok → wc'.fs.Has req.arg (result S (wc.fs.bytes req.arg))) ∧
      (Client.Positioned wc.proc req.arg wc'.proc → ∃ Y, Y <+: S.drop (start S (wc.fs.bytes req.arg)) ∧
        wc'.fs.Has req.arg (base S (wc.fs.bytes req.arg) ++ Y)) := by
  have ha : Client.Alone (.quiet faultsC) := ⟨Env.quiet_quiet _, hfstat⟩
  have hL := wc.fs.bytes_lt req.arg
  obtain ⟨hclient, hserver, rc, sc, rs, ss, hsinceC, hsinceS, hrs, hrc⟩ := duplex_streams hset.inStep hrun
  have hwp : wp (kernel (.quiet faultsC)) _ (Client.handleGets req) _ wc := Client.wp_handleGets hset.short
  -- the client at any moment
  have hfetch : Client.Fetching (.quiet faultsC) req.arg (wc.fs.bytes req.arg) rc sc wc'.fs := by
    obtain ⟨r, s, hs, hf⟩ := wp_always (I := fun v => ∃ r s, wc.proc.Since r s v.proc ∧
      Client.Fetching (.quiet faultsC) req.arg (wc.fs.bytes req.arg) r s v.fs)
      (wp_weaken hwp (fun _ _ _ _ h => h) fun _ _ h => h.after)
      ⟨[], [], .refl _, .asking List.nil_prefix fun _ => rfl⟩ hclient
    obtain rfl : rc = r := List.append_cancel_left (hsinceC.rcvd.symm.trans hs.rcvd)
    obtain rfl : sc = s := List.append_cancel_left (hsinceC.sent.symm.trans hs.sent)
    exact hf
  obtain ⟨offset, hsc⟩ := hfetch.sent
  have hserves := serves_of_steps hkeep hset hserver hsinceS hrs hsc
  have hall (hret : p = .ret .ok) : wc'.fs.Has req.arg (result S (wc.fs.bytes req.arg)) := by
    subst hret
    obtain ⟨r, s, hs, -, hend⟩ := wp_result hwp hclient
    obtain rfl : rc = r := List.append_cancel_left (hsinceC.rcvd.symm.trans hs.rcvd)
    obtain rfl : sc = s := List.append_cancel_left (hsinceC.sent.symm.trans hs.sent)
    cases hend with
    | done hl hpkts he hend hfile =>
      obtain ⟨hkept, hpay⟩ := hserves.takes_all hl ha hL hrs (List.prefix_refl _) hpkts he hend hrc
      have h := hfile ha
      rwa [hkept, hpay, ← length_base] at h
  have hstored {Y : Bytes} (hY : Y <+: S.drop (start S (wc.fs.bytes req.arg)))
      (hfile : wc'.fs.Has req.arg (base S (wc.fs.bytes req.arg) ++ Y)) :
      Resumed S (wc.fs.bytes req.arg) (wc'.fs.bytes req.arg) (p = .ret .ok) ∧
      (p = .ret .ok → wc'.fs.Has req.arg (result S (wc.fs.bytes req.arg))) ∧
      (Client.Positioned wc.proc req.arg wc'.proc → ∃ Y, Y <+: S.drop (start S (wc.fs.bytes req.arg)) ∧
        wc'.fs.Has req.arg (base S (wc.fs.bytes req.arg) ++ Y)) := by
    rw [← length_base] at hY
    refine ⟨⟨.inr ⟨Y, hY, hfile.bytes⟩, fun h => (hall h).bytes⟩, hall, fun _ => ⟨Y, ?_, hfile⟩⟩
    rwa [← length_base]
  cases hfetch with
  | asking hs hfile =>
    refine ⟨⟨.inl (hfile ha), fun h => (hall h).bytes⟩, hall, ?_⟩
    rintro ⟨r, offset, h⟩
    obtain rfl := List.append_cancel_left (hsinceC.sent.symm.trans h.sent)
    have := hs.length_le
    simp [Packet.wire_length] at this
  | @resuming resp st _ _ hl hs hfile =>
    have hrc' : resp.wire ++ (Packet.wires [] ++ []) <+: ss := by simpa using hrc
    obtain ⟨hkept, -⟩ := hserves.takes hl ha hL hrs hs (by simp) hrc'
    exact hstored List.nil_prefix (by simpa [hkept] using hfile ha)
  | storing hl hpkts hY hfile =>
    obtain ⟨hkept, hpre⟩ := hserves.takes hl ha hL hrs (List.prefix_refl _) hpkts hrc
    exact hstored (hY.trans hpre) (hkept ▸ hfile ha)

end Composed
end WindCloud
