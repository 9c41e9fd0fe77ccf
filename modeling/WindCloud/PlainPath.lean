import WindCloud.DownloadRun
import WindCloud.Termination
import WindCloud.Tree
/-!
# The `sendfile` path of a download

`send_file_data_packet` writes the header of a block itself and lets the kernel copy the block.
`plainDownload` is what it stands for: every block read into memory and given to `send_packet`.
`handleGets_plain` says that the two write the same bytes, whatever `sendfile` takes at a time.

| here | there |
| --- | --- |
| `blocksFrom`    | the blocks of the loop (`handle.c:823-840`) |
| `plainDownload` | `send_packet(CMD_FILE_DATA, ..)` a block, `send_packet(CMD_FILE_END, ..)` (`protocol.c:320`) |
| `resumeFrom`    | the check of the offset (`handle.c:819`) |
-/

namespace WindCloud

open Interaction Prog

/-- Writing to the connection may fail. -/
def Env.Cuts (env : Env) : Prop := (∃ buf, env.faults (.send buf)) ∨ ∃ fd off n, env.faults (.sendfile fd off n)

/-- What was to be written is cut off. -/
def CutOff (env : Env) (b v : Proc) (wire : Bytes) : Prop :=
  env.Cuts ∧ v.rcvd = b.rcvd ∧ ∃ out, v.sent = b.sent ++ out ∧ out <+: wire

namespace Server

/-- The consecutive blocks of `S` from `pos` on. -/
def blocksFrom (S : Bytes) (pos : Nat) : List Bytes :=
  (List.range ((S.length - pos + (fileBlockSize - 1)) / fileBlockSize)).map fun i =>
    (S.drop (pos + i * fileBlockSize)).take fileBlockSize

/-- The download by `send_packet` alone. -/
def plainDownload : List Bytes → Io Rc
  | [] => sendPacket .fileEnd .ok none 0
  | block :: blocks => do
    match ← sendPacket .fileData .ok (some block) (.ofNat block.length) with
    | .fail => return .fail
    | .ok => plainDownload blocks

/-- Where a download of `S` starts when the client asks for `offset`. -/
def resumeFrom (S : Bytes) (offset : UInt64) : Nat := if offset.toNat ≤ S.length then offset.toNat else 0

section Blocks

variable {S : Bytes} {pos : Nat}

theorem blocksFrom_of_le (h : S.length ≤ pos) : blocksFrom S pos = [] := by
  rw [blocksFrom, Nat.sub_eq_zero_of_le h]
  rfl

theorem blocksFrom_of_lt (h : pos < S.length) :
    blocksFrom S pos = (S.drop pos).take fileBlockSize :: blocksFrom S (pos + fileBlockSize) := by
  have hcount : (S.length - pos + (fileBlockSize - 1)) / fileBlockSize =
      (S.length - (pos + fileBlockSize) + (fileBlockSize - 1)) / fileBlockSize + 1 := by
    simp only [fileBlockSize]
    omega
  rw [blocksFrom, hcount, List.range_succ_eq_map, List.map_cons, List.map_map, blocksFrom]
  congr 1
  apply List.map_congr_left
  intro i _
  simp only [Function.comp_apply, Nat.succ_eq_add_one, Nat.add_mul, Nat.one_mul]
  congr 2
  omega

theorem length_blocksFrom {block : Bytes} (h : block ∈ blocksFrom S pos) : block.length ≤ fileBlockSize := by
  obtain ⟨i, -, rfl⟩ := List.mem_map.1 h
  exact List.length_take_le _ _

theorem resumeFrom_le (S : Bytes) (offset : UInt64) : resumeFrom S offset ≤ S.length := by
  unfold resumeFrom
  split <;> omega

theorem toNat_resume (hS : S.length < 2 ^ 63) (offset : UInt64) :
    (if offset > .ofNat S.length then 0 else offset).toNat = resumeFrom S offset := by
  have htotal : (UInt64.ofNat S.length).toNat = S.length := toNat_size hS
  have hgt : offset > .ofNat S.length ↔ S.length < offset.toNat := by
    rw [gt_iff_lt, UInt64.lt_iff_toNat_lt, htotal]
  by_cases h : offset > .ofNat S.length
  · rw [if_pos h, resumeFrom, if_neg (Nat.not_le.2 (hgt.1 h))]
    rfl
  · rw [if_neg h, resumeFrom, if_pos (Nat.not_lt.1 fun h' => h (hgt.2 h'))]

end Blocks

section Rules

variable {env : Env} {path S : Bytes} {w : World} {fd off n : Nat}

/-- What `send_packet` writes, block by block. -/
theorem wp_plainDownload {blocks : List Bytes} (hsend : ∀ buf, ¬ env.faults (.send buf))
    (hlen : ∀ block ∈ blocks, block.length ≤ fileBlockSize) :
    wp (kernel env) (fun _ _ => True) (plainDownload blocks) (fun rc v => rc = .ok ∧
      v.proc.sent = w.proc.sent ++ Packet.wires (dataPackets blocks ++ [endPacket])) w := by
  induction blocks generalizing w with
  | nil =>
    have hnone : (none : Option Bytes).getD [] = [] := rfl
    refine wp_sendPacket hnone rfl (by simp) (fun _ _ _ _ _ _ => trivial) ?_ ?_
    · intro fs _
      exact ⟨rfl, by simp [dataPackets, endPacket]⟩
    · intro fs pre rest _ _ _ hf
      exact absurd hf (hsend _)
  | cons block blocks ih =>
    rw [List.forall_mem_cons] at hlen
    have hmax : block.length ≤ maxPacketPayload.toNat := hlen.1.trans (by decide)
    refine wp_bind.2 (wp_sendPacket rfl rfl hmax (fun _ _ _ _ _ _ => trivial) ?_ ?_)
    · intro fs _
      apply wp_mono (ih hlen.2)
      rintro rc v ⟨rfl, hs⟩
      exact ⟨rfl, by simp [hs, dataPackets, dataPacket]⟩
    · intro fs pre rest _ _ _ hf
      exact absurd hf (hsend _)

/-- One block by `sendfile`, whatever it takes at a time. -/
theorem wp_sendFileDataPacket_plain (hkeep : ∀ {fs fs'}, env.rely fs fs' → fs.Has path S → fs'.Has path S)
    (hw : w.fs.Has path S) (hfd : w.proc.fds fd = some ⟨path, 0⟩) (hn : off + n ≤ S.length) :
    wp (kernel env) Allows (sendFileDataPacket fd off n) (fun x v => (x = (.ok, ((off + n : Nat) : Int)) ∧
      v.fs.Has path S ∧ v.proc.fds fd = some ⟨path, 0⟩ ∧ v.proc.rcvd = w.proc.rcvd ∧
      v.proc.sent = w.proc.sent ++ (dataPacket ((S.drop off).take n)).wire) ∨
      x.1 = .fail ∧ CutOff env w.proc v.proc (dataPacket ((S.drop off).take n)).wire) w := by
  have hlen : ((S.drop off).take n).length = n := by
    rw [List.length_take, List.length_drop]
    omega
  simp only [sendFileDataPacket, TlvHeader.bytes_hton, wire_dataPacket, hlen]
  generalize (TlvHeader.of .fileData .ok (.ofNat n)).wire = header
  refine wp_bind.2 (wp_sendN (fun _ _ _ _ _ _ => trivial) ?_ ?_)
  rotate_left
  · intro fs pre rest _ hcut _ hf
    exact .inr ⟨rfl, .inl ⟨_, hf⟩, rfl, pre, rfl, hcut ▸ (List.prefix_append pre rest).trans (List.prefix_append _ _)⟩
  intro fs hr
  refine wp_loop (fun (sentTotal : Nat) v => sentTotal ≤ n ∧ v.fs.Has path S ∧ v.proc.fds fd = some ⟨path, 0⟩ ∧
    v.proc.rcvd = w.proc.rcvd ∧ v.proc.sent = w.proc.sent ++ (header ++ (S.drop off).take sentTotal))
    ⟨Nat.zero_le _, hkeep hr hw, hfd, rfl, by simp⟩ ?_
  rintro sentTotal v ⟨hle, hv, hfd, hrcvd, hsent⟩
  split
  · rename_i hmore
    have hoff : ((off : Int) + (sentTotal : Int)).toNat = off + sentTotal := by omega
    have hcut (c : Call) (x : Res c) (hf : ∃ fd off n, env.faults (.sendfile fd off n)) :
        CutOff env w.proc (v.proc.note c x) (header ++ (S.drop off).take n) := by
      refine ⟨.inr hf, hrcvd, _, hsent, ?_⟩
      rw [List.prefix_append_right_inj]
      exact List.take_prefix_take_left hle
    have hallows : Allows v (.sendfile fd ((off : Int) + (sentTotal : Int)) (n - sentTotal)) := by
      refine ⟨by omega, fun f hf => ?_⟩
      obtain rfl : f = ⟨path, 0⟩ := Option.some.inj (hf.symm.trans hfd)
      obtain ⟨c, hc, -⟩ := hv
      simp [hc]
    refine wp_sendfile hallows ?_ (fun _ _ hf => .inr ⟨rfl, hcut _ _ ⟨_, _, _, hf⟩⟩) ?_
    · intro fs' hr'
      exact ⟨hle, hkeep hr' hv, hfd, hrcvd, hsent⟩
    · intro fs' bs f hr' hf _ hbs hfile
      obtain rfl : f = ⟨path, 0⟩ := Option.some.inj (hf.symm.trans hfd)
      obtain ⟨hpre, hempty⟩ := hfile S (hkeep hr' hv)
      rw [hoff] at hpre
      rcases bs with _ | ⟨x, xs⟩
      · -- the file does not end before the block
        rcases hempty rfl with h | h
        · omega
        · rw [Proc.addSent_nil]
          exact .inr ⟨rfl, hcut _ _ ⟨_, _, _, h⟩⟩
      · refine ⟨?_, hkeep hr' hv, hfd, hrcvd, ?_⟩
        · simp only [List.length_cons] at hbs ⊢
          omega
        · have htake : ((S.drop off).drop sentTotal).take (x :: xs).length = x :: xs := by
            rw [List.drop_drop]
            exact (List.prefix_iff_eq_take.1 hpre).symm
          show v.proc.sent ++ (x :: xs) = w.proc.sent ++ (header ++ (S.drop off).take (sentTotal + (x :: xs).length))
          rw [List.take_add, htake, hsent, List.append_assoc, List.append_assoc]
  · rename_i hdone
    obtain rfl : sentTotal = n := by omega
    exact .inl ⟨by simp, hv, hfd, hrcvd, hsent⟩

/-- The block loop and the end packet. -/
theorem wp_downloadFrom_plain {session : Session} {offset : UInt64}
    (hkeep : ∀ {fs fs'}, env.rely fs fs' → fs.Has path S → fs'.Has path S) (hw : w.fs.Has path S)
    (hfd : w.proc.fds fd = some ⟨path, 0⟩) (hoffset : offset.toNat ≤ S.length) :
    wp (kernel env) Allows (downloadFrom session fd (.ofNat S.length) offset) (fun x v =>
      (x = (.ok, session) ∧ v.proc.rcvd = w.proc.rcvd ∧
        v.proc.sent = w.proc.sent ++ Packet.wires (dataPackets (blocksFrom S offset.toNat) ++ [endPacket])) ∨
      (x = (.fail, session) ∨ x = (.fail, session.closing)) ∧
        CutOff env w.proc v.proc (Packet.wires (dataPackets (blocksFrom S offset.toNat) ++ [endPacket]))) w := by
  have hS := hw.lt
  have htotal : (UInt64.ofNat S.length).toNat = S.length := toNat_size hS
  rw [downloadFrom, offT_of_lt (by omega)]
  refine wp_loop (fun (off : Int) v => ∃ (pos : Nat) (done : Bytes), off = pos ∧ pos ≤ S.length ∧ v.fs.Has path S ∧
    v.proc.fds fd = some ⟨path, 0⟩ ∧ v.proc.rcvd = w.proc.rcvd ∧ v.proc.sent = w.proc.sent ++ done ∧
    done ++ Packet.wires (dataPackets (blocksFrom S pos)) = Packet.wires (dataPackets (blocksFrom S offset.toNat)))
    ⟨offset.toNat, [], rfl, hoffset, hw, hfd, rfl, by simp, rfl⟩ ?_
  rintro _ v ⟨pos, done, rfl, hpos, hv, hfd, hrcvd, hsent, hdone⟩
  have hu64 : (offU64 (pos : Int)).toNat = pos := offU64_natCast (by omega)
  rw [Packet.wires_append, ← hdone]
  split
  · rename_i hlt
    rw [UInt64.lt_iff_toNat_lt, hu64, htotal] at hlt
    have hle : offU64 (pos : Int) ≤ .ofNat S.length := by
      rw [UInt64.le_iff_toNat_le, hu64, htotal]
      omega
    simp only [UInt64.toNat_sub_of_le _ _ hle, hu64, htotal]
    generalize hn : (if S.length - pos > fileBlockSize then fileBlockSize else S.length - pos) = n
    have hsize : n = min fileBlockSize (S.length - pos) := by
      rw [← hn]
      split <;> omega
    have hblock : (S.drop pos).take n = (S.drop pos).take fileBlockSize := by
      rw [hsize, ← List.length_drop, List.take_eq_take_iff]
      omega
    have hnext : blocksFrom S (pos + n) = blocksFrom S (pos + fileBlockSize) := by
      by_cases hlast : fileBlockSize ≤ S.length - pos
      · rw [hsize, Nat.min_eq_left hlast]
      · rw [blocksFrom_of_le (by omega), blocksFrom_of_le (by omega)]
    have hcons : dataPackets (blocksFrom S pos) =
        dataPacket ((S.drop pos).take n) :: dataPackets (blocksFrom S (pos + n)) := by
      rw [blocksFrom_of_lt hlt, hnext, hblock, dataPackets, List.map_cons, dataPackets]
    refine wp_bind.2 (wp_mono (wp_sendFileDataPacket_plain hkeep hv hfd (by omega)) ?_)
    rintro x v' (⟨rfl, hv', hfd', hrcvd', hsent'⟩ | ⟨hfail, hcuts, hrcvd', out, hsent', hout⟩)
    · refine ⟨pos + n, done ++ (dataPacket ((S.drop pos).take n)).wire, by simp, by omega, hv', hfd',
        hrcvd'.trans hrcvd, ?_, ?_⟩
      · rw [hsent', hsent, List.append_assoc]
      · rw [hcons, Packet.wires_cons, List.append_assoc]
    · obtain ⟨rc, off⟩ := x
      obtain rfl : rc = .fail := hfail
      refine wp_close trivial fun fs _ => .inr ⟨.inr rfl, hcuts, hrcvd'.trans hrcvd, done ++ out, ?_, ?_⟩
      · show v'.proc.sent = _
        rw [hsent', hsent, List.append_assoc]
      · rw [hcons, Packet.wires_cons, List.append_assoc, List.append_assoc, List.prefix_append_right_inj]
        exact hout.trans (List.prefix_append _ _)
  · rename_i hge
    rw [UInt64.lt_iff_toNat_lt, hu64, htotal] at hge
    have hlast : Packet.wires (dataPackets (blocksFrom S pos)) = [] := by
      rw [blocksFrom_of_le (by omega)]
      rfl
    rw [hlast, List.append_nil]
    have hend : Packet.wires [endPacket] = endPacket.wire := by simp
    refine wp_close trivial fun fs _ => wp_bind.2 ?_
    have hnone : (none : Option Bytes).getD [] = [] := rfl
    refine wp_sendPacket hnone rfl (by simp) (fun _ _ _ _ _ _ => trivial) ?_ ?_
    · intro fs' _
      refine .inl ⟨rfl, hrcvd, ?_⟩
      show v.proc.sent ++ endPacket.wire = _
      rw [hsent, hend, List.append_assoc]
    · intro fs' pre rest _ hpre _ hf
      refine .inr ⟨.inl rfl, .inl ⟨_, hf⟩, hrcvd, done ++ pre, ?_, ?_⟩
      · show v.proc.sent ++ pre = _
        rw [hsent, List.append_assoc]
      · rw [hend, List.prefix_append_right_inj]
        exact (List.prefix_append pre rest).trans hpre

/-- What a download of `S` has sent when the client has answered with `RESUME_POS`. -/
def PlainServed (b : Proc) (S arg : Bytes) (x : Rc × Session) (v : World) : Prop := ∀ p offset, Packet.Valid p →
  p.Is .resumePos → extractResumeOffset p = some offset → v.proc.rcvd = b.rcvd ++ p.wire →
  x.1 = .ok ∧ v.proc.sent = b.sent ++ (getsResp arg (.ofNat S.length)).wire ++
    Packet.wires (dataPackets (blocksFrom S (resumeFrom S offset)) ++ [endPacket])

/-- The client has answered with something else, or not at all. -/
theorem PlainServed.other {b : Proc} {arg bs : Bytes} {x : Rc × Session} {v : World} (hrcvd : v.proc.rcvd = b.rcvd ++ bs)
    (h : ∀ p, Packet.Valid p → p.Is .resumePos → bs = p.wire → extractResumeOffset p = none) : PlainServed b S arg x v := by
  intro p offset hp his hoff hr
  have hnone := h p hp his (List.append_cancel_left (hrcvd.symm.trans hr))
  rw [hnone] at hoff
  cases hoff

theorem wp_handleGets_plain {session : Session} {arg virtualPath : Bytes}
    (hpath : resolveTargetPath session.currentPath arg pathMax pathMax = some (virtualPath, path))
    (hsend : ∀ buf, ¬ env.faults (.send buf)) (hsendfile : ∀ fd off n, ¬ env.faults (.sendfile fd off n))
    (hkeep : ∀ {fs fs'}, env.rely fs fs' → fs.Has path S → fs'.Has path S) (hw : w.fs.Has path S) :
    wp (kernel env) (fun _ _ => True) (handleGets session arg) (PlainServed w.proc S arg) w := by
  -- nothing has been received
  have hearly {x : Rc × Session} {v : World} (h : v.proc.rcvd = w.proc.rcvd) : PlainServed w.proc S arg x v :=
    .other (by rw [h, List.append_nil]) fun p _ _ h => absurd h.symm p.wire_ne_nil
  have hreply {session' : Session} {status : StatusCode} {msg : Bytes} {v : World} (hlen : msg.length < maxPacketPayload.toNat)
      (h : v.proc.rcvd = w.proc.rcvd) :
      wp (kernel env) (fun _ _ => True) (reply session' .error status msg) (PlainServed w.proc S arg) v :=
    wp_reply hlen (fun _ _ _ _ _ _ => trivial) (fun _ _ => hearly h) fun _ _ _ _ _ _ _ => hearly h
  unfold handleGets
  simp only [hpath]
  refine wp_openRead trivial (fun _ _ _ => hreply (by decide) rfl) ?_
  intro fs fd hr _ _
  refine wp_fstat trivial (fun _ _ _ => wp_close trivial fun _ _ => hreply (by decide) rfl) fun fs₁ n f hr₁ hf _ hn => ?_
  obtain rfl : f = ⟨path, 0⟩ := by simpa using hf.symm
  have hfs₁ : fs₁.Has path S := hkeep hr₁ (hkeep hr hw)
  obtain rfl : n = S.length := hn S hfs₁
  have hlt := hfs₁.lt
  have hclose {x : Rc × Session} {v : World} {bs : Bytes} (hrcvd : v.proc.rcvd = w.proc.rcvd ++ bs)
      (h : ∀ p, Packet.Valid p → p.Is .resumePos → bs = p.wire → extractResumeOffset p = none) :
      wp (kernel env) (fun _ _ => True) (do Sys.close fd; return x) (PlainServed w.proc S arg) v :=
    wp_close trivial fun _ _ => .other hrcvd h
  have hinfo : (some (fileInfoPayload arg (.ofNat S.length))).getD [] = fileInfoPayload arg (.ofNat S.length) := rfl
  refine wp_bind.2 (wp_sendPacket hinfo (by simp) (by rw [length_fileInfoPayload]; decide)
    (fun _ _ _ _ _ _ => trivial) ?_ ?_)
  · intro fs₂ hr₂
    have hfs₂ : fs₂.Has path S := hkeep hr₂ hfs₁
    refine wp_bind.2 (wp_recvFollowPacket (fun _ _ _ _ _ => trivial) (fun _ _ _ _ _ => trivial) ?_ ?_)
    · intro fs₃ q hr₃ hq
      have heq {p : Packet} (hp : p.Valid) (h : q.wire = p.wire) : q = p :=
        Packet.wire_code.inj (x := []) (y := []) hq hp (by rw [h])
      simp only
      split
      · rename_i his
        refine hclose rfl ?_
        intro p hp his' h
        rw [heq hp h] at his
        exact absurd his' his
      · split
        · rename_i hoff
          refine hclose rfl ?_
          intro p hp _ h
          rwa [heq hp h] at hoff
        · rename_i offset hoff
          have hstart := toNat_resume hlt offset
          refine wp_weaken (wp_mono (wp_downloadFrom_plain hkeep (hkeep hr₃ hfs₂) (by simp)
            (hstart ▸ resumeFrom_le S offset)) ?_) (fun _ _ _ _ => id) fun _ _ _ => trivial
          rintro x v (⟨rfl, hrcvd, hsent⟩ | ⟨-, hcuts, -⟩) p offset' hp - hoff' hr'
          swap
          · exact absurd hcuts (by simp [Env.Cuts, hsend, hsendfile])
          have hwire : q.wire = p.wire := List.append_cancel_left (hrcvd.symm.trans hr')
          obtain rfl := heq hp hwire
          obtain rfl : offset = offset' := Option.some.inj (hoff.symm.trans hoff')
          rw [hstart] at hsent
          exact ⟨rfl, hsent⟩
    · intro fs₃ bs q hr₃ hpart _
      refine hclose rfl ?_
      intro p hp _ h
      exact absurd (h ▸ List.prefix_refl _) (hpart p hp)
  · intro fs₂ pre rest _ _ _ hf
    exact absurd hf (hsend _)

/-- **The `sendfile` path is the packet path.** The target holds `S` and nobody changes that, and the connection does
not fail. The run of `handle_gets` ends. If it has received `RESUME_POS` with `offset`, it has succeeded, and after
`GETS_RESP` it has written what any run of `plainDownload` writes for the blocks of `S` from the resume point on,
however little `sendfile` took at a time. -/
theorem handleGets_plain {session : Session} {arg virtualPath avail : Bytes}
    (hpath : resolveTargetPath session.currentPath arg pathMax pathMax = some (virtualPath, path))
    (hsend : ∀ buf, ¬ env.faults (.send buf)) (hsendfile : ∀ fd off n, ¬ env.faults (.sendfile fd off n))
    (hkeep : ∀ {fs fs'}, env.rely fs fs' → fs.Has path S → fs'.Has path S) (hw : w.fs.Has path S)
    (hin : w.proc.rcvd <+: avail) (j : Nat) :
    Acc (fun c' c => Step (limited env avail) c c') (handleGets session arg, w, j) ∧
    ∀ x v p offset, Steps (kernel env) (handleGets session arg, w) (.ret x, v) → Packet.Valid p → p.Is .resumePos →
      extractResumeOffset p = some offset → v.proc.rcvd = w.proc.rcvd ++ p.wire →
      x.1 = .ok ∧ ∃ bytes, v.proc.sent = w.proc.sent ++ (getsResp arg (.ofNat S.length)).wire ++ bytes ∧
        bytes = Packet.wires (dataPackets (blocksFrom S (resumeFrom S offset)) ++ [endPacket]) ∧
        ∀ env' u rc u', (∀ buf, ¬ Env.faults env' (.send buf)) →
          Steps (kernel env') (plainDownload (blocksFrom S (resumeFrom S offset)), u) (.ret rc, u') →
          rc = .ok ∧ u'.proc.sent = u.proc.sent ++ bytes := by
  refine ⟨(handleGets_concludes (fun _ => trivial) arg).acc (fun _ _ _ _ => fed_failing) hin j, ?_⟩
  intro x v p offset hrun hp his hoff hrcvd
  have hserved : PlainServed w.proc S arg x v := wp_result (wp_handleGets_plain hpath hsend hsendfile hkeep hw) hrun
  obtain ⟨hok, hsent⟩ := hserved p offset hp his hoff hrcvd
  refine ⟨hok, _, hsent, rfl, fun env' u rc u' hsend' hrun' => ?_⟩
  have hplain := wp_result (wp_plainDownload hsend' fun block => length_blocksFrom) hrun'
  exact hplain

end Rules

/-! ### A resumed download -/

/-- The client has the first byte of two. -/
theorem resumedDownload_run (F : Content) (hlen : F.bytes.length = 2) : ∃ c, Steps (kernel (.quiet fun _ => False))
      (handleGets .start getsF.arg, ⟨FS.put (fun _ => none) targetF F, .init⟩) c ∧
    c.1 = .ret (.ok, .start) ∧ c.2.proc.rcvd = (resumePacket .resumePos 1).wire := by
  have hpath : resolveTargetPath Session.start.currentPath getsF.arg pathMax pathMax = some (lit "/f", targetF) := by
    decide
  have his : (resumePacket .resumePos 1).Is .resumePos := Packet.of_is.2 rfl
  have hR : Backward (fed (.quiet fun _ => False) (resumePacket .resumePos 1).wire) fun c => _ :=
    backward_kernel fun c : Io (Rc × Session) × World =>
      c.1 = .ret (.ok, .start) ∧ c.2.proc.rcvd = (resumePacket .resumePos 1).wire
  have hin : ([] : Bytes) <+: (resumePacket .resumePos 1).wire := List.nil_prefix
  have hover : ¬ (1 : UInt64) > .ofNat F.bytes.length := by rw [hlen]; decide
  unfold handleGets
  simp only [hpath]
  apply run_openRead hR hin 0 (by simp) rfl
  refine run_fstat hR hin (by simp [Proc.init]; rfl) rfl ?_
  simp only
  rw [sendFileInfoPacket]
  refine run_sendPacket (fileInfoPayload getsF.arg (.ofNat F.bytes.length)) hR rfl (by simp)
    (by rw [length_fileInfoPayload]; decide) hin ?_
  apply run_recvFollowPacket hR (resumePacket_valid _ _) (List.prefix_refl _)
  simp only [if_neg (not_not.2 his), extractResumeOffset_resumePacket, if_neg hover]
  rw [← bind_ret (downloadFrom ..)]
  have hone : (1 : UInt64).toNat = 1 := rfl
  refine run_downloadFrom hR (List.prefix_refl _) (by simp [Proc.init]; rfl) rfl (by omega)
    (by simp only [fileBlockSize]; omega) fun p' hr _ => ?_
  exact ⟨_, .refl, rfl, by simp [hr, Proc.init]⟩

/-- It is sent the second one. -/
theorem handleGets_plain_resumed : ∃ v : World, Steps (kernel (.quiet fun _ => False))
      (handleGets .start getsF.arg, ⟨FS.put (fun _ => none) targetF ⟨[7, 8], by decide⟩, .init⟩) (.ret (.ok, .start), v) ∧
    ∃ s, v.proc.sent = s ++ Packet.wires [dataPacket [8], endPacket] := by
  obtain ⟨⟨_, v⟩, hrun, rfl, hrcvd⟩ := resumedDownload_run ⟨[7, 8], by decide⟩ rfl
  have hpath : resolveTargetPath Session.start.currentPath getsF.arg pathMax pathMax = some (lit "/f", targetF) := by
    decide
  have hkeep {fs fs' : FS} (h : (Env.quiet fun _ => False).rely fs fs') (hfs : fs.Has targetF [7, 8]) :
      fs'.Has targetF [7, 8] := (h : fs' = fs) ▸ hfs
  have hhas : (World.mk (FS.put (fun _ => none) targetF ⟨[7, 8], by decide⟩) .init).fs.Has targetF [7, 8] := FS.put_has ..
  have hplain := handleGets_plain hpath (fun _ => id) (fun _ _ _ => id) hkeep hhas (List.prefix_refl _) 0
  obtain ⟨-, bytes, hsent, hbytes, -⟩ := hplain.2 _ v _ 1 hrun (resumePacket_valid _ _) (Packet.of_is.2 rfl)
    (extractResumeOffset_resumePacket _ _) hrcvd
  have hblocks : blocksFrom [7, 8] (resumeFrom [7, 8] 1) = [[8]] := by decide
  rw [hbytes, hblocks] at hsent
  exact ⟨v, hrun, _, hsent⟩

end Server
end WindCloud
