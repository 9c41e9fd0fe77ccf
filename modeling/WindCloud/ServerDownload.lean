import WindCloud.Exchange
/-!
# What the server's `handle_gets` can send

`Getting` is what `handle_gets` has received and sent at any moment, `GetsEnd` how it returns.
What the blocks hold is a parameter: `B pos block` says that `block` may be the one sent at the
offset `pos`. `Blocks` lists what the proof asks of it, and `blocks_of_file` is the case of a file
that stays as it is.
-/

namespace WindCloud

open Interaction Prog ByteOrder

namespace Server

/-- The length of the block at `pos`. -/
def blockSize (total pos : Nat) : Nat := min (total - pos) fileBlockSize

/-- `B` may be the blocks sent of the file `path` while `I` holds of the file system: a block that
has been sent in part can be completed whatever the file gives next. -/
structure Blocks (I : FS → Prop) (path : Bytes) (total : Nat) (B : Nat → Bytes → Prop) : Prop where
  len : ∀ {pos block}, B pos block → block.length = blockSize total pos
  start : ∀ {pos}, pos < total → ∃ block, B pos block
  read : ∀ {pos block bs d fs}, B pos block → bs <+: block → I fs → bs.length + d.length ≤ blockSize total pos →
    (∀ b, fs.Has path b → d <+: b.drop (pos + bs.length)) → ∃ block', B pos block' ∧ bs ++ d <+: block'

/-- The block of `S` at `pos`. -/
def FileBlock (S : Bytes) (pos : Nat) (block : Bytes) : Prop := block = (S.drop pos).take fileBlockSize

/-- The blocks of a file that stays `S`. -/
theorem blocks_of_file {path S : Bytes} : Blocks (fun fs => fs.Has path S) path S.length (FileBlock S) where
  len := by
    rintro pos _ rfl
    rw [List.length_take, List.length_drop, blockSize, Nat.min_comm]
  start _ := ⟨_, rfl⟩
  read := by
    rintro pos _ bs d fs rfl hbs hfs hlen hd
    refine ⟨_, rfl, ?_⟩
    have hd := hd S hfs
    rw [List.prefix_take_iff] at hbs ⊢
    rw [← List.drop_drop] at hd
    obtain ⟨t, ht⟩ := hbs.1
    rw [← ht, List.drop_left] at hd
    refine ⟨?_, by rw [List.length_append]; exact hlen.trans (Nat.min_le_right _ _)⟩
    rw [← ht]
    exact (List.prefix_append_right_inj bs).2 hd

/-- Blocks one after the other from the offset `off` on. -/
inductive Cut (B : Nat → Bytes → Prop) (total off : Nat) : List Bytes → Prop
  | nil : Cut B total off []
  | snoc {blocks : List Bytes} {block : Bytes} : Cut B total off blocks → off + blocks.flatten.length < total →
      B (off + blocks.flatten.length) block → Cut B total off (blocks ++ [block])

/-- The answer to the download request. -/
def getsResp (arg : Bytes) (total : UInt64) : Packet := fileInfoPacket .getsResp arg total

/-- Where the blocks start, from what `RESUME_POS` says. -/
def sendOffset (total : UInt64) (p : Packet) : Nat :=
  match extractResumeOffset p with
  | some offset => (if offset > total then 0 else offset).toNat
  | none => 0

/-- A download in its block loop: the packet that resumed it, and the blocks so far. -/
structure Resuming (B : Nat → Bytes → Prop) (total : UInt64) (p : Packet) (blocks : List Bytes) : Prop where
  valid : p.Valid
  is : p.Is .resumePos
  cut : Cut B total.toNat (sendOffset total p) blocks

/-- The position it has come to. -/
def position (total : UInt64) (p : Packet) (blocks : List Bytes) : Nat := sendOffset total p + blocks.flatten.length

/-- `handle_gets` may have received `r` and sent `s`. -/
inductive Getting (B : Nat → Bytes → Prop) (arg : Bytes) (total : UInt64) : Bytes → Bytes → Prop
  | refusing {e : Packet} {s : Bytes} : e.Valid → e.Is .error → s <+: e.wire → Getting B arg total [] s
  | answering {r s : Bytes} : s <+: (getsResp arg total).wire → Getting B arg total r s
  | sending {p : Packet} {blocks : List Bytes} {s : Bytes} : Resuming B total p blocks →
      s <+: Packet.wires (getsResp arg total :: dataPackets blocks) → Getting B arg total p.wire s
  | ending {p : Packet} {blocks : List Bytes} {s : Bytes} : Resuming B total p blocks →
      total.toNat ≤ position total p blocks →
      s <+: Packet.wires (getsResp arg total :: dataPackets blocks ++ [endPacket]) → Getting B arg total p.wire s

/-- A download that was served to its end. -/
inductive Gotten (B : Nat → Bytes → Prop) (arg : Bytes) (total : UInt64) : Bytes → Bytes → Prop
  | refused {e : Packet} : e.Valid → e.Is .error → Gotten B arg total [] e.wire
  | whole {p : Packet} {blocks : List Bytes} : Resuming B total p blocks → total.toNat ≤ position total p blocks →
      Gotten B arg total p.wire (Packet.wires (getsResp arg total :: dataPackets blocks ++ [endPacket]))

section Rules

variable {env : Env} {I : FS → Prop} {B : Nat → Bytes → Prop} {b : Proc} {arg path : Bytes} {total : UInt64}
  {w : World} {p : Packet} {blocks : List Bytes} {fd : Nat} {f : OpenFile} {session : Session}

theorem getsResp_valid (arg : Bytes) (total : UInt64) : (getsResp arg total).Valid := fileInfoPacket_valid _ _ _

theorem Cut.lengths (hB : Blocks I path total.toNat B) {off : Nat} (h : Cut B total.toNat off blocks) :
    ∀ block ∈ blocks, block.length ≤ fileBlockSize := by
  induction h with
  | nil => simp
  | snoc _ _ hblock ih =>
    refine forall_mem_snoc ih ?_
    rw [hB.len hblock]
    exact Nat.min_le_right _ _

/-- The packets of a download before its end. -/
theorem Resuming.packets (arg : Bytes) (hB : Blocks I path total.toNat B) (h : Resuming B total p blocks) :
    (∀ q ∈ getsResp arg total :: dataPackets blocks, q.Valid) ∧
      ∀ q ∈ getsResp arg total :: dataPackets blocks, ¬ q.Final := by
  simp only [List.forall_mem_cons, dataPackets, List.forall_mem_map]
  refine ⟨⟨getsResp_valid _ _, fun block hblock => dataPacket_valid (h.cut.lengths hB block hblock)⟩, ?_, ?_⟩
  · simp [getsResp, fileInfoPacket]
  · simp [Packet.Final]

@[simp] theorem position_snoc (block : Bytes) :
    position total p (blocks ++ [block]) = position total p blocks + block.length := by
  simp [position, Nat.add_assoc]

theorem wire_dataPacket (block : Bytes) :
    (dataPacket block).wire = (TlvHeader.of .fileData .ok (.ofNat block.length)).wire ++ block := by
  simp [Packet.wire, dataPacket]

/-- One block. -/
theorem wp_sendFileDataPacket {Q : Rc × Int → World → Prop} (hB : Blocks I path total.toNat B)
    (hI : ∀ {fs fs'}, env.rely fs fs' → I fs → I fs') (hw : I w.fs) (hup : Resuming B total p blocks)
    (hlt : position total p blocks < total.toNat)
    (hs : b.Since p.wire (Packet.wires (getsResp arg total :: dataPackets blocks)) w.proc)
    (hfd : w.proc.fds fd = some ⟨path, 0⟩)
    (ok : ∀ v block, I v.fs → Resuming B total p (blocks ++ [block]) →
      b.Since p.wire (Packet.wires (getsResp arg total :: dataPackets (blocks ++ [block]))) v.proc →
      v.proc.fds fd = some ⟨path, 0⟩ → Q (.ok, position total p (blocks ++ [block])) v)
    (fail : ∀ v off s, b.Since p.wire s v.proc → Getting B arg total p.wire s → ¬ Ended s → Q (.fail, off) v) :
    wp (kernel env) (Follows env b (Getting B arg total))
      (sendFileDataPacket fd (position total p blocks) (blockSize total.toNat (position total p blocks))) Q w := by
  obtain ⟨hvalid, hopen⟩ := hup.packets arg hB
  have hsnoc (block : Bytes) : Packet.wires (getsResp arg total :: dataPackets (blocks ++ [block])) =
      Packet.wires (getsResp arg total :: dataPackets blocks) ++ (dataPacket block).wire := by
    simp [dataPackets]
  -- a part of the packet of a block that may come now
  have hstream {block s : Bytes} (hblock : B (position total p blocks) block) (h : s <+: (dataPacket block).wire) :
      Getting B arg total p.wire (Packet.wires (getsResp arg total :: dataPackets blocks) ++ s) := by
    refine .sending ⟨hup.valid, hup.is, .snoc hup.cut hlt hblock⟩ ?_
    rw [hsnoc]
    exact (List.prefix_append_right_inj _).2 h
  have hgoing {block s rest : Bytes} (hblock : B (position total p blocks) block) (hne : rest ≠ [])
      (h : s ++ rest <+: (dataPacket block).wire) :
      ¬ Ended (Packet.wires (getsResp arg total :: dataPackets blocks) ++ s) := by
    have hall : Packet.wires (getsResp arg total :: dataPackets blocks) ++ s ++ rest <+:
        Packet.wires (getsResp arg total :: dataPackets blocks ++ [dataPacket block]) := by
      rw [Packet.wires_append, List.append_assoc, List.prefix_append_right_inj]
      simpa using h
    refine not_ended (getsResp arg total :: dataPackets blocks) hall hne ?_ hopen
    · refine forall_mem_snoc hvalid (dataPacket_valid ?_)
      rw [hB.len hblock]
      exact Nat.min_le_right _ _
  have hheader {block : Bytes} (hblock : B (position total p blocks) block) : (dataPacket block).wire =
      (TlvHeader.of .fileData .ok (.ofNat (blockSize total.toNat (position total p blocks)))).wire ++ block := by
    rw [wire_dataPacket, hB.len hblock]
  obtain ⟨block₀, hblock₀⟩ := hB.start hlt
  simp only [sendFileDataPacket, TlvHeader.bytes_hton]
  generalize hn : blockSize total.toNat (position total p blocks) = n at hheader ⊢
  generalize (TlvHeader.of .fileData .ok (.ofNat n)).wire = header at hheader ⊢
  have hcutoff {pre rest : Bytes} (hcut : pre ++ rest = header) : pre ++ rest <+: (dataPacket block₀).wire := by
    rw [hheader hblock₀, hcut]
    exact List.prefix_append _ _
  refine wp_bind.2 (wp_sendN ?_ ?_ ?_)
  · intro fs pre rest _ hcut hne
    have hpre := hcutoff hcut
    refine .send hs.addSent (fun s' hs' => ?_) (hgoing hblock₀ hne hpre)
    rw [List.append_assoc]
    exact hstream hblock₀ (((List.prefix_append_right_inj pre).2 hs').trans hpre)
  · intro fs hr
    refine wp_loop (fun (sentTotal : Nat) v => ∃ block bs, B (position total p blocks) block ∧ bs <+: block ∧
      bs.length = sentTotal ∧ I v.fs ∧
      b.Since p.wire (Packet.wires (getsResp arg total :: dataPackets blocks) ++ (header ++ bs)) v.proc ∧
      v.proc.fds fd = some ⟨path, 0⟩) ⟨block₀, [], hblock₀, List.nil_prefix, rfl, hI hr hw, by simpa using hs.addSent, hfd⟩ ?_
    rintro _ v ⟨block, bs, hblock, hbs, rfl, hv, hsince, hfd⟩
    have hlen := hB.len hblock
    rw [hn] at hlen
    have hdata {fs : FS} {d : Bytes} (hfs : I fs) (hd : d.length ≤ n - bs.length) (hle : bs.length < n)
        (hfile : ∀ b, fs.Has path b → d <+: b.drop (position total p blocks + bs.length)) :
        ∃ block', B (position total p blocks) block' ∧ bs ++ d <+: block' :=
      hB.read hblock hbs hfs (by omega) hfile
    split
    · rename_i hmore
      have hoff : ((position total p blocks : Int) + (bs.length : Int)).toNat = position total p blocks + bs.length := by
        omega
      obtain ⟨rest, hrest⟩ := hbs
      have hne : rest ≠ [] := by
        rintro rfl
        rw [← hrest, List.append_nil] at hlen
        omega
      have hpre : header ++ bs ++ rest <+: (dataPacket block).wire := by
        rw [hheader hblock, List.append_assoc, hrest]
      refine wp_sendfile (.sendfile hsince hfd (fun fs' d hr' hd hfile => ?_) (hgoing hblock hne hpre)) ?_ ?_ ?_
      · rw [hoff] at hfile
        obtain ⟨block', hblock', hpre'⟩ := hdata (hI hr' hv) hd hmore hfile
        rw [List.append_assoc, List.append_assoc]
        apply hstream hblock'
        rw [hheader hblock']
        exact (List.prefix_append_right_inj header).2 hpre'
      · intro fs' hr'
        exact ⟨block, bs, hblock, ⟨rest, hrest⟩, rfl, hI hr' hv, hsince.note, hfd⟩
      · intro fs' _ _
        exact fail _ _ _ hsince.note (hstream hblock ((List.prefix_append _ _).trans hpre)) (hgoing hblock hne hpre)
      · intro fs' d f hr' hf _ hd hfile
        obtain rfl : f = ⟨path, 0⟩ := by rw [hfd] at hf; exact (Option.some.inj hf).symm
        rcases d with _ | ⟨x, xs⟩
        · rw [Proc.addSent_nil]
          exact fail _ _ _ hsince.note (hstream hblock ((List.prefix_append _ _).trans hpre)) (hgoing hblock hne hpre)
        · obtain ⟨block', hblock', hpre'⟩ := hdata (hI hr' hv) hd hmore fun b' hb => hoff ▸ (hfile b' hb).1
          refine ⟨block', bs ++ x :: xs, hblock', hpre', by simp, hI hr' hv, ?_, hfd⟩
          have h : b.Since _ _ (v.proc.addSent (x :: xs)) := hsince.addSent
          exact ⟨by simpa using h.rcvd, by simpa using h.sent⟩
    · rename_i hdone
      obtain rfl : bs = block := hbs.eq_of_length (by have := hbs.length_le; omega)
      have hend : ((position total p blocks : Int) + (bs.length : Int)) = position total p (blocks ++ [bs]) := by
        rw [position_snoc]
        omega
      have := ok v bs hv ⟨hup.valid, hup.is, .snoc hup.cut hlt hblock⟩ (by rw [hsnoc, hheader hblock]; exact hsince) hfd
      rwa [← hend] at this
  · intro fs pre rest _ hcut hne _
    have hpre := hcutoff hcut
    exact fail _ _ _ hs.addSent (hstream hblock₀ ((List.prefix_append _ _).trans hpre)) (hgoing hblock₀ hne hpre)

theorem sendOffset_le (total : UInt64) (p : Packet) : sendOffset total p ≤ total.toNat := by
  unfold sendOffset
  split
  · split
    · simp
    · rename_i h
      exact UInt64.le_iff_toNat_le.1 (UInt64.not_lt.1 h)
  · simp

/-- The block loop never runs past the end. -/
theorem Resuming.position_le (hB : Blocks I path total.toNat B) (h : Resuming B total p blocks) :
    position total p blocks ≤ total.toNat := by
  have hcut := h.cut
  unfold position
  induction hcut with
  | nil => simpa using sendOffset_le total p
  | @snoc blocks block hcut hlt hblock ih =>
    have hlen := hB.len hblock
    rw [List.flatten_append, List.flatten_singleton, List.length_append, hlen, blockSize]
    omega

/-- The blocks and the end packet. -/
theorem wp_downloadFrom {offset : UInt64} (hB : Blocks I path total.toNat B) (htotal : total.toNat < 2 ^ 63)
    (hI : ∀ {fs fs'}, env.rely fs fs' → I fs → I fs') (hw : I w.fs) (hup : Resuming B total p [])
    (hoff : offset.toNat = sendOffset total p)
    (hs : b.Since p.wire (getsResp arg total).wire w.proc) (hfd : w.proc.fds fd = some ⟨path, 0⟩) :
    wp (kernel env) (Follows env b (Getting B arg total)) (downloadFrom session fd total offset)
      (Finishes b session (Gotten B arg total)) w := by
  have hle := sendOffset_le total p
  have hpos : offT offset = position total p [] := by
    rw [offT_of_lt (by omega), hoff]
    simp [position]
  rw [downloadFrom, hpos]
  refine wp_loop (fun off v => ∃ blocks, Resuming B total p blocks ∧ off = position total p blocks ∧ I v.fs ∧
    b.Since p.wire (Packet.wires (getsResp arg total :: dataPackets blocks)) v.proc ∧
    v.proc.fds fd = some ⟨path, 0⟩) ⟨[], hup, rfl, hw, by simpa [dataPackets] using hs, hfd⟩ ?_
  rintro _ v ⟨blocks, hup, rfl, hv, hsince, hfd⟩
  obtain ⟨hvalid, hopen⟩ := hup.packets arg hB
  have hpos := hup.position_le hB
  have hu64 : (offU64 (position total p blocks)).toNat = position total p blocks := offU64_natCast (by omega)
  split
  · rename_i hlt
    rw [UInt64.lt_iff_toNat_lt, hu64] at hlt
    have hchunk : (if (total - offU64 (position total p blocks)).toNat > fileBlockSize then fileBlockSize
        else (total - offU64 (position total p blocks)).toNat) = blockSize total.toNat (position total p blocks) := by
      have hle' : offU64 (position total p blocks) ≤ total := by
        rw [UInt64.le_iff_toNat_le, hu64]
        omega
      rw [UInt64.toNat_sub_of_le _ _ hle', hu64, blockSize]
      split <;> omega
    simp only [hchunk]
    refine wp_bind.2 (wp_sendFileDataPacket hB hI hv hup hlt hsince hfd ?_ ?_)
    · intro v' block hv' hup' hsince' hfd'
      exact ⟨blocks ++ [block], hup', rfl, hv', hsince', hfd'⟩
    · intro v' off s hsince' hm hopen'
      exact wp_close (.idle hsince' hm hopen' rfl (by simp)) fun _ _ => .failed rfl
  · rename_i hge
    rw [UInt64.lt_iff_toNat_lt, hu64, not_lt] at hge
    have hm : Getting B arg total p.wire (Packet.wires (getsResp arg total :: dataPackets blocks)) :=
      .sending hup (List.prefix_refl _)
    refine wp_close (.idle hsince hm (not_ended_wires _ (List.prefix_refl _) hvalid hopen) rfl (by simp)) ?_
    intro fs hr
    refine wp_bind.2 (wp_followPacket [] hsince.setFd hvalid hopen rfl rfl (by decide) (fun s' hs' => .ending hup hge hs')
      ?_ ?_)
    · intro fs' _
      exact ⟨id, fun _ _ => ⟨_, _, since_addPacket hsince.setFd endPacket, .whole hup hge⟩⟩
    · intro fs' pre rest _ _ _
      exact .failed rfl

/-- The announced size is one the file may have. -/
def GettingOf (I : FS → Prop) (B : Nat → Nat → Bytes → Prop) (path arg r s : Bytes) : Prop :=
  ∃ n, Sized I path n ∧ Getting (B n) arg (.ofNat n) r s

def GottenOf (I : FS → Prop) (B : Nat → Nat → Bytes → Prop) (path arg r s : Bytes) : Prop :=
  ∃ n, Sized I path n ∧ Gotten (B n) arg (.ofNat n) r s

theorem FS.sized_bytes {I : FS → Prop} {fs : FS} (h : I fs) (path : Bytes) : Sized I path (fs.bytes path).length :=
  ⟨fs.bytes_lt path, fs, h, fun _ hb => by rw [hb.bytes]⟩

/-- An error instead of `GETS_RESP`. -/
theorem wp_getsError {B : Nat → Nat → Bytes → Prop} {n : Nat} {status : StatusCode} {msg : Bytes} (hsized : Sized I path n)
    (hs : b.Since [] [] w.proc) (hlen : msg.length < maxPacketPayload.toNat) :
    wp (kernel env) (Follows env b (GettingOf I B path arg)) (reply session .error status msg)
      (Finishes b session (GottenOf I B path arg)) w := by
  have hv : (textPacket .error status msg).Valid := textPacket_valid hlen
  have he : (textPacket .error status msg).Is .error := Packet.of_is.2 rfl
  have hs₀ : b.Since [] (Packet.wires []) w.proc := hs
  refine wp_lastReply hs₀ (by simp) (by simp) hlen (fun s' hs' => ⟨_, hsized, .refusing hv he (by simpa using hs')⟩)
    ⟨_, hsized, ?_⟩
  simpa using Gotten.refused hv he

/-- **The streams of `handle_gets`.** -/
theorem wp_handleGets {B : Nat → Nat → Bytes → Prop} (hB : ∀ n, Sized I path n → Blocks I path n (B n))
    (hI : ∀ {fs fs'}, env.rely fs fs' → I fs → I fs') (hw : I w.fs) (hs : b.Since [] [] w.proc)
    (hpath : ∀ v p, resolveTargetPath session.currentPath arg pathMax pathMax = some (v, p) → p = path) :
    wp (kernel env) (Follows env b (GettingOf I B path arg)) (handleGets session arg)
      (Finishes b session (GottenOf I B path arg)) w := by
  have hn₀ := FS.sized_bytes hw path
  have hs₀ {v : Proc} (h : b.Since [] [] v) : b.Since [] (Packet.wires []) v := h
  have hidle {v : World} {c : Call} (hs : b.Since [] [] v.proc) (hc : c.sends = some [])
      (hr : ∀ wait n, c ≠ .recv wait n) : Follows env b (GettingOf I B path arg) v c :=
    .idle hs ⟨_, hn₀, .answering List.nil_prefix⟩ not_ended_nil hc hr
  unfold handleGets
  split
  · exact wp_getsError hn₀ hs (by decide)
  · rename_i v p hres
    obtain rfl := hpath v p hres
    refine wp_openRead (hidle hs rfl (by simp)) ?_ ?_
    · intro fs hr _
      exact wp_getsError hn₀ hs.note (by decide)
    · intro fs fd hr _ hfree
      refine wp_fstat (hidle hs.setFd rfl (by simp)) ?_ ?_
      · intro fs₁ hr₁ _
        exact wp_close (hidle hs.setFd.note rfl (by simp)) fun fs₂ hr₂ =>
          wp_getsError hn₀ hs.setFd.note.setFd (by decide)
      · intro fs₁ n f hr₁ hf hlt hn
        obtain rfl : f = ⟨p, 0⟩ := by simpa using hf.symm
        have hfs₁ : I fs₁ := hI hr₁ (hI hr hw)
        have hsized : Sized I p n := ⟨hlt, fs₁, hfs₁, hn⟩
        have htotal : (UInt64.ofNat n).toNat = n := toNat_size hlt
        have hresp : getsResp arg (.ofNat n) = .of .getsResp .ok (fileInfoPayload arg (.ofNat n)) := rfl
        have hs₁ := @Proc.Since.setFd _ _ _ _ fd (some ⟨p, 0⟩) (.openFile p .rdonly) (some fd) hs
        have hgoing {s : Bytes} (h : s <+: (getsResp arg (.ofNat n)).wire) : ¬ Ended s :=
          not_ended_wires [getsResp arg (.ofNat n)] (by simpa using h) (by simpa using getsResp_valid _ _)
            (by simp [getsResp, fileInfoPacket])
        -- whatever fails from here on closes the connection
        have hclose {v : World} {r s : Bytes} {session' : Session} (hs : b.Since r s v.proc)
            (hm : GettingOf I B p arg r s) (hend : ¬ Ended s)
            (hpath : session'.currentPath = session.currentPath) :
            wp (kernel env) (Follows env b (GettingOf I B p arg)) (do Sys.close fd; return (.fail, session'))
              (Finishes b session (GottenOf I B p arg)) v :=
          wp_close (.idle hs hm hend rfl (by simp)) fun _ _ => .failed hpath
        refine wp_bind.2 (wp_followPacket (fileInfoPayload arg (.ofNat n)) (hs₀ hs₁.note) (by simp) (by simp) rfl
          (by simp) (by rw [length_fileInfoPayload]; decide)
          (fun s' hs' => ⟨n, hsized, .answering (by simpa [hresp] using hs')⟩) ?_ ?_)
        · intro fs₂ hr₂
          have hs₂ : b.Since [] ([] ++ (getsResp arg (.ofNat n)).wire) ((_ : Proc).addSent (getsResp arg (.ofNat n)).wire) :=
            (hs₁.note (c := .fstat fd) (x := some n)).addSent
          rw [List.nil_append] at hs₂
          have hm (r : Bytes) : GettingOf I B p arg r (getsResp arg (.ofNat n)).wire :=
            ⟨n, hsized, .answering (List.prefix_refl _)⟩
          have hopen := hgoing (List.prefix_refl _)
          refine wp_bind.2 (wp_followRecv hs₂ (fun r' => hm r') hopen ?_ ?_)
          · intro fs₃ q hr₃ hq
            have hs₃ : b.Since q.wire (getsResp arg (.ofNat n)).wire _ := hs₂.addRcvd
            simp only
            split
            · exact hclose hs₃ (hm _) hopen rfl
            · rename_i his
              rw [not_not] at his
              split
              · exact hclose hs₃ (hm _) hopen rfl
              · rename_i offset hoff
                have hup : Resuming (B n) (.ofNat n) q [] := ⟨hq, his, .nil⟩
                have hoffset : (if offset > .ofNat n then 0 else offset).toNat = sendOffset (.ofNat n) q := by
                  rw [sendOffset, hoff]
                have hBn : Blocks I p (UInt64.ofNat n).toNat (B n) := by rw [htotal]; exact hB n hsized
                refine wp_mono (wp_weaken (wp_downloadFrom hBn (by rw [htotal]; exact hlt) hI
                  (hI hr₃ (hI hr₂ hfs₁)) hup hoffset hs₃ (by simp)) (fun _ _ _ _ h => h) ?_) ?_
                · intro v c h
                  exact h.mono fun r s hm => ⟨n, hsized, hm⟩
                · intro x v h
                  exact h.mono fun r s hm => ⟨n, hsized, hm⟩
          · intro fs₃ bs q hr₃
            exact hclose hs₂.addRcvd (hm _) hopen rfl
        · intro fs₂ pre rest _ hpre _
          have hpre' : pre <+: (getsResp arg (.ofNat n)).wire := (List.prefix_append _ _).trans hpre
          exact hclose hs₁.note.addSent ⟨n, hsized, .answering hpre'⟩ (hgoing hpre') rfl

end Rules

end Server
end WindCloud
