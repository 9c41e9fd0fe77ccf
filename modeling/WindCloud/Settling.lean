import WindCloud.Download
import WindCloud.OutputStream
import WindCloud.Replies
import WindCloud.Reported
import WindCloud.Waiting
/-!
# How an exchange is settled

The client has come to the end of a command, and none of the calls has failed that can end one in the middle. Then
the two streams say that the server has come to the end of it too (`Settles`): a reply of one packet is the last one
(`Settles.single`), and what follows `PUTS_RESP` and `GETS_RESP` is taken to its end by both sides.
-/

namespace WindCloud

open Interaction Prog Server

/-- A start of complete packets. -/
def WellFramed (s : Bytes) : Prop := ∃ ps : List Packet, (∀ p ∈ ps, p.Valid) ∧ s <+: Packet.wires ps

theorem WellFramed.header {ps : List Packet} {bs s : Bytes} (h : WellFramed s) (hv : ∀ p ∈ ps, Packet.Valid p)
    (hl : bs.length = 20) (hs : Packet.wires ps ++ bs <+: s) : (TlvHeader.ofWire bs).Ok := by
  obtain ⟨qs, hqs, hpre⟩ := h
  obtain ⟨cs, rfl, hcs⟩ := Packet.wire_code.all_prefix hv hqs (hs.trans hpre)
  exact header_ok (fun p hp => hqs p (List.mem_append_right _ hp)) hl hcs

namespace Server

/-- What the server writes is well framed. -/
theorem around_framed {env : Env} {session : Session} {v w : World} {q : Io Rc} {r s : Bytes}
    (h : Around (kernel env) (handleRequest session, v) (q, w)) (hs : v.proc.Since r s w.proc) : WellFramed s := by
  rcases h with ⟨-, hw⟩ | hrun
  · obtain rfl : w = v := hw
    obtain rfl : s = [] := by simpa using hs.sent
    exact ⟨[], by simp, List.nil_prefix⟩
  · obtain ⟨l, hline, hsent⟩ := handleRequest_line hrun
    obtain rfl : s = l.out := List.append_cancel_left (hs.sent.symm.trans hsent)
    exact (handleRequest_fits hline).start

/-! ## The server's side of uploads and downloads -/

section Streams

variable {env : Env} {I : FS → Prop} {B : Nat → Bytes → Prop} {path arg r s : Bytes} {total : UInt64} {p : Packet}

theorem Put.putting (h : Put env total r s) : Putting env total r s := by
  cases h with
  | refused hv he => exact .refusing hv he (List.prefix_refl _)
  | failed hf hv he => exact .failing hf hv he (List.prefix_refl _)
  | @ended st pkts off e ht hv he =>
    have hstop : Stop env .start total off e.wire .start (off == total.toNat) := .fileEnd hv he
    exact .stopped ht hstop (List.prefix_refl _)

theorem Gotten.getting (h : Gotten B arg total r s) : Getting B arg total r s := by
  cases h with
  | refused hv he => exact .refusing hv he (List.prefix_refl _)
  | whole hup hle => exact .ending hup hle (List.prefix_refl _)

theorem putsReply_final (success : Bool) : (putsReply success).Final := by
  cases success
  · exact .inr (.inl (putsReply_is.2 rfl))
  · exact .inl (putsReply_is.2 rfl)

/-- The first packet of an upload is an error, and the only one, or `PUTS_RESP`. -/
theorem Putting.first (h : Putting env total r s) (hmap : ¬ MapFaults env total) (hp : p.Valid) (hs : p.wire <+: s) :
    (p.Is .error ∧ r = [] ∧ s = p.wire) ∨ ∃ st, p = putsResp total st := by
  cases h with
  | @refusing e _ hv he h =>
    obtain rfl := hp.eq_of_prefix hv (hs.trans h)
    exact .inl ⟨he, rfl, h.eq_of_length_le hs.length_le⟩
  | @answering st _ h =>
    exact .inr ⟨st, hp.eq_of_prefix (putsResp_valid st) (hs.trans h)⟩
  | @receiving st => exact .inr ⟨st, hp.eq_of_prefix (putsResp_valid st) hs⟩
  | failing hf => exact absurd hf hmap
  | @stopped st pkts off tail _ session session' success _ _ h =>
    exact .inr ⟨st, Packet.wire_code.word_prefix hp (putsResp_valid st) (hs.trans h)⟩

/-- A download is an error, or `GETS_RESP`, blocks and perhaps the end. -/
theorem Getting.stream (hB : Blocks I path total.toNat B) (h : Getting B arg total r s) :
    (∃ e : Packet, e.Valid ∧ e.Is .error ∧ r = [] ∧ s <+: e.wire) ∨
      ∃ es, s <+: Packet.wires (getsResp arg total :: es) ∧ ∀ e ∈ es, Packet.Valid e ∧ (e.Is .fileData ∨ e.Is .fileEnd) := by
  have hdata {q : Packet} {blocks : List Bytes} (hup : Resuming B total q blocks) :
      ∀ e ∈ dataPackets blocks, Packet.Valid e ∧ (e.Is .fileData ∨ e.Is .fileEnd) := by
    intro e he
    refine ⟨(hup.packets arg hB).1 e (List.mem_cons_of_mem _ he), .inl ?_⟩
    obtain ⟨block, -, rfl⟩ := List.mem_map.1 he
    exact Packet.of_is.2 rfl
  cases h with
  | refusing hv he h => exact .inl ⟨_, hv, he, rfl, h⟩
  | answering h => exact .inr ⟨[], by simpa using h, by simp⟩
  | sending hup h => exact .inr ⟨_, h, hdata hup⟩
  | @ending q blocks _ hup _ h =>
    refine .inr ⟨dataPackets blocks ++ [endPacket], h, forall_mem_snoc (hdata hup) ?_⟩
    exact ⟨endPacket_valid, .inr (endPacket_is.2 rfl)⟩

/-- Its first packet. -/
theorem Getting.first (hB : Blocks I path total.toNat B) (h : Getting B arg total r s) (hp : p.Valid) (hs : p.wire <+: s) :
    (p.Is .error ∧ r = [] ∧ s = p.wire) ∨ p = getsResp arg total := by
  rcases h.stream hB with ⟨e, hv, he, hr, h⟩ | ⟨es, h, -⟩
  · obtain rfl := hp.eq_of_prefix hv (hs.trans h)
    exact .inl ⟨he, hr, h.eq_of_length_le hs.length_le⟩
  · exact .inr (Packet.wire_code.word_prefix hp (getsResp_valid arg total) (hs.trans h))

variable {C : Nat → Nat → Bytes → Prop}

theorem GottenOf.getting (h : GottenOf I C path arg r s) : GettingOf I C path arg r s := by
  obtain ⟨n, hsized, h⟩ := h
  exact ⟨n, hsized, h.getting⟩

theorem GettingOf.start (fs : FS) (hI : I fs) : GettingOf I C path arg [] [] :=
  ⟨_, FS.sized_bytes hI path, .answering List.nil_prefix⟩

/-- Blocks of which only the length is known. -/
theorem blocks_of_length (path : Bytes) (total : Nat) : Blocks (fun _ => True) path total fun pos block =>
    block.length = blockSize total pos where
  len := id
  start _ := ⟨List.replicate (blockSize total _) 0, List.length_replicate⟩
  read := by
    intro pos block bs d fs _ _ _ hlen _
    refine ⟨bs ++ d ++ List.replicate (blockSize total pos - (bs.length + d.length)) 0, ?_, List.prefix_append _ _⟩
    simp only [List.length_append, List.length_replicate]
    omega

/-- The blocks of a download of any size. -/
theorem blocks_sized (hC : ∀ n, Sized I path n → Blocks I path n (C n)) {n : Nat} (hsized : Sized I path n) :
    Blocks I path (UInt64.ofNat n).toNat (C n) := by
  rw [toNat_size hsized.1]
  exact hC n hsized

end Streams
end Server

/-! ## Settled -/

section Settled

variable {env envS : Env} {M W : Bytes → Bytes → Prop} {P p : Packet} {rc sc rs ss : Bytes} {rcode : Rc}

/-- A request that is answered with one packet. -/
theorem Server.Settles.single (hP : P.Valid) (hp : p.Valid) (hrs : rs <+: P.wire) (hrc : p.wire <+: ss)
    (hlast : ∀ s, M [] s → p.wire <+: s → s = p.wire ∧ p.Final) (hWM : ∀ r s, W r s → M r s) :
    Settles M W P p.wire P.wire rs ss where
  answered := p.wire_ne_nil
  first _ hv h := hv.eq_of_prefix hP h
  during r hm hr := by
    obtain rfl : r = [] := by simpa [hr] using hrs.length_le
    obtain ⟨rfl, hfinal⟩ := hlast ss hm hrc
    exact ⟨[], p, by simp, by simpa using hp, hfinal⟩
  past r s r' s' hw hr hs hidle := by
    obtain ⟨rfl, rfl⟩ : r = [] ∧ r' = [] := by
      have := hrs.length_le
      rw [hr] at this
      simp only [List.length_append] at this
      exact ⟨List.eq_nil_of_length_eq_zero (by omega), List.eq_nil_of_length_eq_zero (by omega)⟩
    rw [hidle rfl, List.append_nil] at hs
    obtain ⟨hsp, -⟩ := hlast s (hWM _ _ hw) (hs ▸ hrc)
    exact ⟨(List.append_nil _).symm, hsp.symm⟩

/-- A text command. -/
theorem Client.TextEnd.settles {req : CommandRequest} (h : TextEnd env req rc sc) (hlen : req.arg.length < pathMax)
    (hsound : ∀ c, Breaks c → ¬ env.faults c) (hframe : WellFramed ss) (hrs : rs <+: sc) (hrc : rc <+: ss) :
    Settles Replying Replied (simpleRequest req) rc sc rs ss := by
  cases h with
  | done hq =>
    refine .single (simpleRequest_valid hlen) hq hrs hrc ?_ fun _ _ hw => hw.replying
    rintro s ⟨-, e, hv, he, hs⟩ hqs
    obtain rfl := hq.eq_of_prefix hv (hqs.trans hs)
    exact ⟨hs.eq_of_length_le hqs.length_le, he⟩
  | broken hf hb => exact absurd hf (hsound _ hb)
  | garbled hl hbad =>
    rw [← List.nil_append rc, ← Packet.wires_nil] at hrc
    exact absurd (hframe.header (by simp) hl hrc) hbad

/-- An upload. -/
theorem Client.UploadEnd.settles {I : FS → Prop} {arg : Bytes} (h : UploadEnd env I arg rcode rc sc)
    (hsound : ∀ c, Breaks c → ¬ env.faults c) (hmap : ∀ total, ¬ MapFaults envS total) (hframe : WellFramed ss)
    (hrs : rs <+: sc) (hrc : rc <+: ss) : (rc = [] ∧ sc = []) ∨
      ∃ size, Settles (Putting envS (.ofNat size)) (Put envS (.ofNat size)) (uploadRequest arg size) rc sc rs ss := by
  cases h with
  | unopened => exact .inl ⟨rfl, rfl⟩
  | @refused size p _ hp he =>
    refine .inr ⟨size, .single (uploadRequest_valid _ _) hp hrs hrc ?_ fun _ _ hw => hw.putting⟩
    intro s hm hps
    rcases hm.first (hmap _) hp hps with ⟨he, -, hs⟩ | ⟨st, rfl⟩
    · exact ⟨hs, .inr (.inl he)⟩
    · simp [putsResp, resumePacket] at he
  | @odd size p _ hp hne hbad =>
    refine .inr ⟨size, .single (uploadRequest_valid _ _) hp hrs hrc ?_ fun _ _ hw => hw.putting⟩
    intro s hm hps
    rcases hm.first (hmap _) hp hps with ⟨he, -, -⟩ | ⟨st, rfl⟩
    · exact absurd he hne
    · exact absurd ⟨Packet.of_is.2 rfl, by simp [putsResp, resumePacket, TlvHeader.of]⟩ hbad
  | @done size p q chunks hup hfin hq =>
    have hlast {e : Packet} (he : e.Is .fileEnd) : e ∉ dataPackets chunks := fun hmem => by
      have := he.symm.trans (hup.fed.valid e hmem).2
      simp at this
    refine .inr ⟨size, ?_, ?_, ?_, ?_⟩
    · simp [p.wire_ne_nil]
    · intro packet hv hpre
      exact Packet.wire_code.word_prefix hv (uploadRequest_valid _ _) hpre
    · intro r hm _
      obtain ⟨st, _, _, _, _, _, success, -, hq', hs, -⟩ := hm.answered (hmap _) hup.valid hq hrc
      exact ⟨[p], q, by simpa using hs, by simp [hup.valid, hq], hq' ▸ putsReply_final success⟩
    · intro r s r' s' hw hr hs hidle
      cases hw with
      | @refused e hv he =>
        rw [hs] at hrc
        obtain ⟨rfl, -⟩ := Packet.wire_code.cons_prefix hup.valid hv hrc
        have := he.symm.trans hup.resp
        simp at this
      | failed hf => exact absurd hf (hmap _)
      | @ended st pkts off e ht hv he =>
        -- the server has read all that the client has written
        rw [hr, Packet.wires_cons, List.append_assoc, List.prefix_append_right_inj] at hrs
        have hsent : ∀ p ∈ dataPackets chunks ++ [endPacket], Packet.Valid p :=
          forall_mem_snoc (fun p hp => (hup.fed.valid p hp).1) endPacket_valid
        have hread : ∀ p ∈ pkts ++ [e], Packet.Valid p := forall_mem_snoc (fun p hp => (ht.blocks p hp).1) hv
        obtain ⟨cs, hcs, hrest⟩ := Packet.wire_code.all_prefix hread hsent (by simpa using! hrs)
        rw [List.append_assoc, List.singleton_append] at hcs
        obtain ⟨rfl, rfl, rfl⟩ := eq_of_last hcs (hlast he)
        obtain rfl := List.prefix_nil.1 hrest
        rw [hidle rfl, List.append_nil] at hs
        rw [hs] at hrc
        obtain ⟨rfl, hreply⟩ := Packet.wire_code.cons_prefix hup.valid (putsResp_valid st) hrc
        obtain rfl := hq.eq_of_prefix (putsReply_valid _) hreply
        exact ⟨by simp, rfl⟩
  | broken hf hb => exact absurd hf (hsound _ hb)
  | garbled hv hl hbad => exact absurd (hframe.header hv hl hrc) hbad

/-- A download from the offset the client asked for. -/
theorem Server.Settles.resumed {I : FS → Prop} {B : Nat → Nat → Bytes → Prop} {path arg : Bytes} {offset : UInt64}
    (hP : P.Valid) (hp : p.Valid) (hresp : p.Is .getsResp) (hrs : rs <+: Packet.wires [P, resumePacket .resumePos offset])
    (hstart : p.wire <+: rc) (hrc : rc <+: ss)
    (hlast : ∀ r s, GettingOf I B path arg r s → rc <+: s → s = rc ∧ Ended s) :
    Settles (GettingOf I B path arg) (GottenOf I B path arg) P rc (Packet.wires [P, resumePacket .resumePos offset]) rs
      ss where
  answered := fun h => p.wire_ne_nil (List.prefix_nil.1 (h ▸ hstart))
  first _ hv h := Packet.wire_code.word_prefix hv hP h
  during r hm _ := (hlast r ss hm hrc).2
  past r s r' s' hw hr hs hidle := by
    have hps : p.wire <+: s ++ s' := hs ▸ hstart.trans hrc
    have hlast' := hlast r s hw.getting
    obtain ⟨n, -, hw⟩ := hw
    rw [hr, List.append_assoc, Packet.wires_cons, List.prefix_append_right_inj] at hrs
    cases hw with
    | refused hv he =>
      obtain rfl := Packet.wire_code.word_prefix hp hv hps
      have := he.symm.trans hresp
      simp at this
    | @whole q blocks hup hle =>
      -- the server has read all that the client has written
      obtain ⟨rfl, hr'⟩ := Packet.wire_code.cons_prefix hup.valid (resumePacket_valid _ _) hrs
      rw [hidle (List.prefix_nil.1 hr'), List.append_nil] at hs
      exact ⟨by simp, (hlast' (hs ▸ hrc)).1.symm⟩

/-- A download. -/
theorem Client.DownloadEnd.settles {I : FS → Prop} {B : Nat → Nat → Bytes → Prop} {path arg arg' L : Bytes} {fs : FS}
    (h : DownloadEnd env arg L rcode rc sc fs) (hlen : arg.length < pathMax) (hsound : ∀ c, Stops c → ¬ env.faults c)
    (hB : ∀ n, Sized I path n → Blocks I path n (B n)) (hframe : WellFramed ss) (hrs : rs <+: sc) (hrc : rc <+: ss) :
    Settles (GettingOf I B path arg') (GottenOf I B path arg') (downloadRequest arg) rc sc rs ss := by
  have hreq := downloadRequest_valid hlen
  cases h with
  | @refused p _ hp he =>
    refine .single hreq hp hrs hrc ?_ fun _ _ hw => hw.getting
    rintro s ⟨n, hsized, hm⟩ hps
    rcases hm.first (blocks_sized hB hsized) hp hps with ⟨he, -, hs⟩ | rfl
    · exact ⟨hs, .inr (.inl he)⟩
    · simp [getsResp, fileInfoPacket] at he
  | @odd p _ hp hne hbad =>
    refine .single hreq hp hrs hrc ?_ fun _ _ hw => hw.getting
    rintro s ⟨n, hsized, hm⟩ hps
    rcases hm.first (blocks_sized hB hsized) hp hps with ⟨he, -, -⟩ | rfl
    · exact absurd he hne
    · exact absurd ⟨Packet.of_is.2 rfl, by simp [getsResp, fileInfoPacket, TlvHeader.of]⟩ hbad
  | @done p e st pkts _ hl hpkts hv he _ =>
    refine .resumed hreq hl.valid hl.resp hrs (List.prefix_append _ _) hrc ?_
    rintro r s ⟨n, hsized, hm⟩ hps
    obtain ⟨-, _, _, -, -, -, -, -, hs⟩ := hm.ended (blocks_sized hB hsized) hl.valid hl.resp hpkts hv he hps
    refine ⟨hs, p :: pkts, e, hs, ?_, .inr (.inr he)⟩
    intro q hq
    simp only [List.cons_append, List.mem_cons, List.mem_append, List.not_mem_nil, or_false] at hq
    rcases hq with rfl | hq | rfl
    · exact hl.valid
    · exact (hpkts q hq).1
    · exact hv
  | @stopped p e st pkts _ hl hpkts hv hend hdata =>
    refine .resumed hreq hl.valid hl.resp hrs (List.prefix_append _ _) hrc ?_
    rintro r s ⟨n, hsized, hm⟩ hps
    -- the server sends no such packet
    have hp := (List.prefix_append p.wire _).trans hps
    rcases hm.stream (blocks_sized hB hsized) with ⟨e', hv', he', -, hs⟩ | ⟨es, hs, hes⟩
    · obtain rfl := hl.valid.eq_of_prefix hv' (hp.trans hs)
      have := he'.symm.trans hl.resp
      simp at this
    · have hread : ∀ q ∈ pkts ++ [e], Packet.Valid q := forall_mem_snoc (fun q hq => (hpkts q hq).1) hv
      have hpre := hps.trans hs
      rw [Packet.wires_cons, Packet.wires_cons] at hpre
      obtain ⟨-, hpre⟩ := Packet.wire_code.cons_prefix hl.valid (getsResp_valid _ _) hpre
      rw [← List.append_nil (Packet.wires _)] at hpre
      obtain ⟨cs, rfl, -⟩ := Packet.wire_code.all_prefix hread (fun q hq => (hes q hq).1) hpre
      rcases (hes e (by simp)).2 with h | h
      · exact absurd h hdata
      · exact absurd h hend
  | broken hf hb => exact absurd hf (hsound _ hb)
  | garbled hv hl hbad => exact absurd (hframe.header hv hl hrc) hbad

end Settled
end WindCloud
