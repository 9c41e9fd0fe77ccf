import WindCloud.ShellText
import WindCloud.UploadSafety
/-!
# The commands that move files

`handle_gets` and `handle_puts` in the tree: once the file is open, what is received and written and what the file holds
after it are as `Gives` and `Takes` say.

| here | there |
| --- | --- |
| `wp_streamed`     | the block loop of `handle_gets`, on a file and on a directory (`handle.c:823-849`) |
| `handleGets_told` | `handle_gets` (`handle.c:761-850`) |
| `handlePuts_told` | `handle_puts` (`handle.c:568-748`) |

A run of `handle_puts` in the tree is one of the kernel in which the extension to a length that is no `off_t` fails, so
that `PutsEnd` lists its returns.
-/

namespace WindCloud

open Interaction Prog FileImage

section Nodes

variable {fs : FS} {path S : Bytes} {node : Node} {n : Nat}

theorem Node.Shows.lt (h : node.Shows S) : S.length < 2 ^ 63 := by
  cases node with
  | reg c => exact (show S = c.bytes from h) ▸ c.lt
  | dir => exact h

/-- What `fstat` says is the length of what the node shows. -/
theorem Node.shows_of_size (hnode : fs path = some node) (hn : n < 2 ^ 63)
    (h : ∀ b, fs.Has path b → n = b.length) : ∃ S, node.Shows S ∧ S.length = n := by
  cases node with
  | reg c => exact ⟨c.bytes, rfl, (h _ ⟨c, hnode, rfl⟩).symm⟩
  | dir => exact ⟨List.replicate n 0, by simpa [Node.Shows] using hn, List.length_replicate⟩

end Nodes

namespace Server

/-! ## Downloads -/

section Downloads

variable {faults : Call → Prop} {session : Session} {packet : Packet} {dir : VPath} {w : World} {arg path S : Bytes}
  {node : Node} {fd : Nat}

/-- The blocks and the end packet, written since `w`. -/
def Streamed (faults : Call → Prop) (w : World) (node : Node) (blocks : List Bytes) (x : Rc × Session) (v : World) : Prop :=
  ∃ out, w.proc.Since [] out v.proc ∧ Streams faults node blocks out (x.2.shouldClose || x.1 == .fail)

/-- A download of `node` since `w`. -/
def Given (faults : Call → Prop) (w : World) (node : Node) (arg : Bytes) (x : Rc × Session) (v : World) : Prop :=
  ∃ rcvd out, w.proc.Since rcvd out v.proc ∧ Gives faults node arg rcvd out (x.2.shouldClose || x.1 == .fail)

/-- A directory cannot be read: the header is written, and no more. -/
theorem wp_sendFileDataPacket_dir {off n : Nat} (hn : 0 < n) (hw : w.fs path = some .dir)
    (hfd : w.proc.fds fd = some ⟨path, 0⟩) :
    wp (tree faults) (fun _ _ => True) (sendFileDataPacket fd off n) (fun x v => x.1 = .fail ∧ ∃ out,
      w.proc.Since [] out v.proc ∧ out <+: (TlvHeader.of .fileData .ok (.ofNat n)).wire ∧
        (out ≠ (TlvHeader.of .fileData .ok (.ofNat n)).wire → ∃ buf, faults (.send buf))) w := by
  simp only [sendFileDataPacket, TlvHeader.bytes_hton]
  generalize (TlvHeader.of .fileData .ok (.ofNat n)).wire = header
  have hheader : wp (kernel (.quiet faults)) Allows (sendN header) (fun rc v => v.fs = w.fs ∧ v.proc.fds = w.proc.fds ∧
      ∃ out, w.proc.Since [] out v.proc ∧ (rc = .ok ∧ out = header ∨ rc = .fail ∧ out <+: header ∧
        ∃ buf, faults (.send buf))) w := by
    refine wp_sendN ?_ ?_ ?_
    · exact fun _ _ _ _ _ _ => trivial
    · rintro _ rfl
      exact ⟨rfl, rfl, header, (Proc.Since.refl _).addSent, .inl ⟨rfl, rfl⟩⟩
    · rintro _ pre rest rfl rfl - hf
      exact ⟨rfl, rfl, pre, (Proc.Since.refl _).addSent, .inr ⟨rfl, List.prefix_append _ _, _, hf⟩⟩
  refine wp_bind.2 (wp_mono (wp_tree hheader (fun _ => id) fun _ _ => .inl) ?_)
  rintro rc v ⟨hfs, hfds, out, hsince, ⟨rfl, rfl⟩ | ⟨rfl, hout, hf⟩⟩
  · refine wp_loop (fun (sentTotal : Nat) u => sentTotal = 0 ∧ u.fs = w.fs ∧ u.proc.fds = w.proc.fds ∧
      w.proc.Since [] out u.proc) ⟨rfl, hfs, hfds, hsince⟩ ?_
    rintro _ u ⟨rfl, hfs, hfds, hsince⟩
    rw [if_pos hn]
    refine wp_treeCall ?_
    rintro (_ | _ | m) v' he - -
    · obtain rfl := he
      exact ⟨rfl, hfs, hfds, hsince.note⟩
    · obtain ⟨-, rfl⟩ := he
      exact ⟨rfl, out, hsince.note, List.prefix_refl _, fun hne => absurd rfl hne⟩
    · obtain ⟨f, bs, hf, hdir, -⟩ := he
      obtain rfl : f = ⟨path, 0⟩ := Option.some.inj (hf.symm.trans (hfds ▸ hfd))
      exact absurd (hfs ▸ hw) hdir
  · exact ⟨rfl, out, hsince, hout, fun _ => hf⟩

/-- The blocks of a directory. -/
theorem wp_streamedDir {offset : UInt64} (hS : S.length < 2 ^ 63) (hw : w.fs path = some .dir)
    (hfd : w.proc.fds fd = some ⟨path, 0⟩) (hoffset : offset.toNat ≤ S.length) (hopen : session.shouldClose = false) :
    wp (tree faults) (fun _ _ => True) (downloadFrom session fd (.ofNat S.length) offset)
      (Streamed faults w .dir (blocksFrom S offset.toNat)) w := by
  have htotal : (UInt64.ofNat S.length).toNat = S.length := toNat_size hS
  have hu64 : (offU64 (offset.toNat : Int)).toNat = offset.toNat := offU64_natCast (by omega)
  rw [downloadFrom, offT_of_lt (by omega)]
  refine wp_loop (fun (off : Int) v => off = offset.toNat ∧ v = w) ⟨rfl, rfl⟩ ?_
  rintro _ _ ⟨rfl, rfl⟩
  split
  · rename_i hlt
    rw [UInt64.lt_iff_toNat_lt, hu64, htotal] at hlt
    have hle : offU64 (offset.toNat : Int) ≤ .ofNat S.length := by
      rw [UInt64.le_iff_toNat_le, hu64, htotal]
      omega
    simp only [UInt64.toNat_sub_of_le _ _ hle, hu64, htotal]
    generalize hn : (if S.length - offset.toNat > fileBlockSize then fileBlockSize else S.length - offset.toNat) = n
    have hsize : n = ((S.drop offset.toNat).take fileBlockSize).length := by
      rw [← hn, List.length_take, List.length_drop]
      split <;> omega
    have hpos : 0 < n := by
      rw [← hn]
      split
      · decide
      · omega
    refine wp_bind.2 (wp_mono (wp_sendFileDataPacket_dir hpos hw hfd) ?_)
    rintro ⟨rc, off⟩ v ⟨rfl, out, hsince, hout, hf⟩
    refine wp_treeCall ?_
    rintro _ v' he - -
    obtain rfl := he
    rw [hsize] at hout hf
    exact ⟨out, hsince.setFd, .unreadable rfl (blocksFrom_of_lt hlt) hout hf⟩
  · rename_i hge
    rw [UInt64.lt_iff_toNat_lt, hu64, htotal] at hge
    rw [blocksFrom_of_le (by omega)]
    refine wp_treeCall ?_
    rintro _ v' he - -
    obtain rfl := he
    have hnone : (none : Option Bytes).getD [] = [] := rfl
    refine wp_bind.2 (wp_treePacket hnone rfl (by simp) ?_)
    have hend : Packet.wires (dataPackets [] ++ [endPacket]) = endPacket.wire := by simp [dataPackets]
    rintro rc out hs
    refine ⟨out, (Proc.Since.refl _).setFd.addSent, ?_⟩
    show Streams _ _ _ _ (session.shouldClose || rc == .fail)
    rw [hopen]
    rcases hs with ⟨rfl, rfl⟩ | ⟨rfl, rest, hpre, -, hf⟩
    · exact hend ▸ .whole (.inr rfl)
    · exact .cut (.inr rfl) (hend ▸ (List.prefix_append out rest).trans hpre) (.inl ⟨_, hf⟩)

/-- The blocks of what is open. -/
theorem wp_streamed {offset : UInt64} (hS : node.Shows S) (hw : w.fs path = some node)
    (hfd : w.proc.fds fd = some ⟨path, 0⟩) (hoffset : offset.toNat ≤ S.length) (hopen : session.shouldClose = false) :
    wp (tree faults) (fun _ _ => True) (downloadFrom session fd (.ofNat S.length) offset)
      (Streamed faults w node (blocksFrom S offset.toNat)) w := by
  cases node with
  | dir => exact wp_streamedDir hS hw hfd hoffset hopen
  | reg c =>
    obtain rfl : S = c.bytes := hS
    have hkeep {fs fs' : FS} (hr : (Env.quiet faults).rely fs fs') (h : fs.Has path c.bytes) : fs'.Has path c.bytes :=
      (hr : fs' = fs) ▸ h
    have hblocks : wp (kernel (.quiet faults)) Allows (downloadFrom session fd _ offset) _ w :=
      wp_downloadFrom_plain hkeep ⟨c, hw, rfl⟩ hfd hoffset
    refine wp_mono (wp_tree hblocks (fun _ => id) fun _ _ => .inl) ?_
    rintro x v (⟨rfl, hrcvd, hsent⟩ | ⟨hx, hcuts, hrcvd, out, hsent, hout⟩)
    · refine ⟨_, ⟨by rw [hrcvd, List.append_nil], hsent⟩, ?_⟩
      show Streams _ _ _ _ (session.shouldClose || _)
      rw [hopen]
      exact .whole (.inl fun h => by cases h)
    · refine ⟨out, ⟨by rw [hrcvd, List.append_nil], hsent⟩, ?_⟩
      have hcloses : (x.2.shouldClose || x.1 == .fail) = true := by
        rcases hx with rfl | rfl <;> simp
      rw [hcloses]
      exact .cut (.inl fun h => by cases h) hout hcuts

/-- A follow-up packet in the tree. -/
theorem wp_treeFollow {Q : Rc × Session × Packet → World → Prop}
    (ok : ∀ p, Packet.Valid p → Q (.ok, session, p) ⟨w.fs, w.proc.addRcvd p.wire⟩)
    (fail : ∀ bs p, Partial bs → Broken (.quiet faults) .follow bs →
      Q (.fail, session.closing, p) ⟨w.fs, w.proc.addRcvd bs⟩) :
    wp (tree faults) (fun _ _ => True) (recvFollowPacket session) Q w := by
  have hrecv : wp (kernel (.quiet faults)) Allows (recvFollowPacket session) Q w := by
    refine wp_recvFollowPacket ?_ ?_ ?_ ?_
    · exact fun _ _ _ _ _ => trivial
    · exact fun _ _ _ _ _ => trivial
    · rintro _ p rfl hp
      exact ok p hp
    · rintro _ bs p rfl hpart hbroken
      exact fail bs p hpart hbroken
  exact wp_tree hrecv (fun _ => id) fun _ _ => .inl

theorem wp_treeClose {α : Type} {k : Unit → Io α} {Q : α → World → Prop}
    (h : wp (tree faults) (fun _ _ => True) (k ()) Q ⟨w.fs, (w.proc.setFd fd none).note (.close fd) ()⟩) :
    wp (tree faults) (fun _ _ => True) (Sys.close fd >>= k) Q w := by
  refine wp_treeCall ?_
  rintro _ v he - -
  obtain rfl := he
  exact h

/-- `handle_gets` from the open file on. -/
def downloadOpened (session : Session) (arg : Bytes) (fd : Nat) : Io (Rc × Session) := do
  match ← Sys.fstat fd with
  | none =>
    Sys.close fd
    reply session .error .ioError (lit "读取文件信息失败")
  | some size =>
    match ← sendFileInfoPacket .getsResp .ok arg (.ofNat size) with
    | .fail =>
      Sys.close fd
      return (.fail, session.closing)
    | .ok =>
      match ← recvFollowPacket session with
      | (.fail, session, _) =>
        Sys.close fd
        return (.fail, session)
      | (.ok, session, resumePacket) =>
        if ¬ resumePacket.Is .resumePos then
          Sys.close fd
          return (.fail, session.closing)
        else match extractResumeOffset resumePacket with
        | none =>
          Sys.close fd
          return (.fail, session.closing)
        | some resumeOffset =>
          downloadFrom session fd (.ofNat size) (if resumeOffset > .ofNat size then 0 else resumeOffset)

theorem wp_given (hw : w.fs path = some node) (hfd : w.proc.fds fd = some ⟨path, 0⟩) (hopen : session.shouldClose = false) :
    wp (tree faults) (fun _ _ => True) (downloadOpened session arg fd) (Given faults w node arg) w := by
  refine wp_treeCall ?_
  rintro (_ | n) v he - -
  · obtain ⟨hf, rfl⟩ := he
    refine wp_treeClose (wp_treeReply (by decide) fun rc out hs => ?_)
    refine ⟨[], out, (Proc.Since.refl _).note.setFd.addSent, ?_⟩
    show Gives _ _ _ _ _ (session.shouldClose || rc == .fail)
    rw [hopen]
    exact .unmeasured ⟨fd, hf.resolve_right fun h => h trivial⟩ hs
  obtain ⟨f, hf, hn, hsize, rfl⟩ := he
  obtain rfl : f = ⟨path, 0⟩ := Option.some.inj (hf.symm.trans hfd)
  obtain ⟨S, hS, rfl⟩ := Node.shows_of_size hw hn hsize
  have hmeasured : v.proc.Since [] [] (v.proc.note (.fstat fd) (some S.length)) := (Proc.Since.refl _).note
  have hinfo : (some (fileInfoPayload arg (.ofNat S.length))).getD [] = fileInfoPayload arg (.ofNat S.length) := rfl
  refine wp_bind.2 (wp_treePacket hinfo (by simp) (by rw [length_fileInfoPayload]; decide) ?_)
  rintro rc out hs
  have hresp : v.proc.Since [] out _ := hmeasured.addSent
  rcases hs with ⟨rfl, rfl⟩ | ⟨rfl, hcut⟩
  · have hstop {bs : Bytes} {u : Proc} (hu : v.proc.Since bs (getsResp arg (.ofNat S.length)).wire u)
        (h : Unanswered faults bs) : Given faults v node arg (.fail, session.closing) ⟨v.fs, (u.setFd fd none).note (.close fd) ()⟩ :=
      ⟨bs, _, hu.setFd, .unanswered hS h⟩
    refine wp_bind.2 (wp_treeFollow ?_ ?_)
    · intro q hq
      have hasked : v.proc.Since q.wire _ _ := hresp.addRcvd
      simp only
      split
      · rename_i his
        exact wp_treeClose (hstop hasked (.other hq fun h => absurd h his))
      · rename_i his
        rcases hoff : extractResumeOffset q with _ | offset
        · exact wp_treeClose (hstop hasked (.other hq fun _ => hoff))
        · have hstart := toNat_resume hS.lt offset
          refine wp_mono (wp_streamed hS hw hfd (hstart ▸ resumeFrom_le S offset) hopen) ?_
          rintro x u ⟨out, hsince, hstreams⟩
          rw [hstart] at hstreams
          refine ⟨_, _, ?_, .blocks hS hq (not_not.1 his) hoff hstreams⟩
          have hboth := hasked.trans hsince
          rwa [List.append_nil] at hboth
    · intro bs p hpart hbroken
      exact wp_treeClose (hstop hresp.addRcvd (.broken hpart hbroken))
  · exact wp_treeClose ⟨[], out, hresp.setFd, .unannounced hS (.inr ⟨rfl, hcut⟩)⟩

/-- `handle_gets`, whatever its argument names. -/
theorem wp_handleGets_told (hat : session.At dir) (hopen : session.shouldClose = false) (hroot : w.fs dotdot = some .dir)
    (hask : ask packet = .gets arg) : wp (tree faults) (fun _ _ => True) (handleGets session arg)
      (fun x v => v.fs = w.fs → x.2.At dir → Told faults w dir packet x v) w := by
  unfold handleGets
  split
  · rename_i hres
    have htarget : (Shell.of w.fs dir false).target (.gets arg) = none := hat.target_none hres
    exact wp_mono (wp_unnamed hat hopen hask rfl (by decide) htarget) fun _ _ h _ _ => h
  · rename_i hres
    obtain rfl := hat.real hres
    have htarget : (Shell.of w.fs dir false).target (.gets arg) = some (dir.walk arg) := hat.target hres
    refine wp_treeCall ?_
    rintro (_ | fd) v he hallowed -
    · obtain ⟨hf, rfl⟩ := he
      exact wp_mono (wp_failed hat hopen hroot hask rfl (by decide) htarget hf ⟨rfl, rfl, rfl⟩) fun _ _ h _ _ => h
    · obtain ⟨hne, -, rfl⟩ := he
      obtain ⟨node, hnode⟩ := Option.ne_none_iff_exists'.1 hne
      have hworks := works_of_allows (a := .gets arg) rfl htarget hroot (hallowed trivial)
      refine wp_mono (wp_given hnode (Function.update_self ..) hopen) ?_
      rintro x v ⟨rcvd, out, hsince, hgives⟩ hfs hat'
      refine ⟨rcvd, out, dir, hat', hsince.rcvd, hsince.sent, ?_⟩
      rw [hfs]
      exact .gets hask hworks hnode hgives

/-! ## The tree after a handler -/

/-- A handler changes nothing but its target. -/
theorem elsewhere_of_steps {p q : Io (Rc × Session)} {target : Option Bytes} {type : Option CmdType} {v : World}
    (hminds : Minds target type p) (hbare : w.proc.handles = ∅)
    (h : Steps (kernel (.quiet faults)) (p, w) (q, v)) (hne : v.fs path ≠ w.fs path) :
    target = some path ∧ type ≠ none := by
  have hwp : wp (kernel (.quiet faults)) (fun _ => Attends target type) p (fun _ _ => True) w :=
    wp_mono (every_wp (I := fun _ => True) hminds trivial (fun _ _ hc _ => hc) fun _ _ _ _ _ _ _ => trivial)
      fun _ _ _ => trivial
  have hkeep := wp_keeps (I := fun u => OnlyIn {q | target = some q} u.proc ∧
    (u.fs path ≠ w.fs path → target = some path ∧ type ≠ none)) hwp ?_ ⟨.of_bare hbare, fun hw => absurd rfl hw⟩ h
  · exact hkeep.2 hne
  · rintro u c r u' hc hk ⟨honly, hu⟩
    refine ⟨honly.kernel hk hc.names, fun hu' => ?_⟩
    by_cases hstep : u'.fs path = u.fs path
    · exact hu (hstep ▸ hu')
    · obtain ⟨t, ht, -⟩ := kernel_changed hk hstep
      exact ⟨honly.touches hc.names (kernel_elsewhere hk hstep).1, by simp [hc.change t ht]⟩

theorem handleGets_told {x : Rc × Session} {v : World} (hat : session.At dir) (hopen : session.shouldClose = false)
    (hroot : w.fs dotdot = some .dir) (hbare : w.proc.handles = ∅) (hask : ask packet = .gets arg)
    (h : Steps (tree faults) (handleGets session arg, w) (.ret x, v)) : Told faults w dir packet x v := by
  have hpath := every_result (handleGets_stays hat.path) h
  refine wp_result (wp_handleGets_told hat hopen hroot hask) h ?_ ⟨hpath, hat.room⟩
  by_contra hne
  obtain ⟨path, hne⟩ := Function.ne_iff.1 hne
  exact (elsewhere_of_steps (handleGets_minds arg) hbare (steps_mono (fun _ _ _ _ => TreeCall.quiet) h) hne).2 rfl

end Downloads

/-! ## Uploads -/

section Uploads

variable {faults : Call → Prop} {session session' : Session} {packet : Packet} {dir : VPath} {b : Proc} {w v : World}
  {path C : Bytes} {total : UInt64} {x : Rc × Session}

/-- The calls of an upload that fail in the tree: those that `faults` lets fail, the opening, and an extension to a
length that is no `off_t`. -/
def lax (faults : Call → Prop) (c : Call) : Prop :=
  faults c ∨ (∃ path, c = .openFile path .rdwrCreat) ∨ ∃ fd len, c = .ftruncate fd len .extend ∧ len < 0

/-- What the tree rules out of the calls of `handle_puts`, `lax` lets fail. -/
theorem PutsPoint.lax {env : Env} {p : Proc} {c : Call} (h : PutsPoint env b path total p c) (fs : FS) :
    Allows ⟨fs, p⟩ c ∨ Server.lax faults c := by
  cases h with
  | openFile => exact .inr (.inr (.inl ⟨_, rfl⟩))
  | reset => exact .inl (le_refl (0 : Int))
  | extend =>
    rcases lt_or_ge (offT total) 0 with hneg | hpos
    · exact .inr (.inr (.inr ⟨_, _, rfl, hneg⟩))
    · exact .inl hpos
  | @cut u tail session session' hu =>
    refine .inl ?_
    show 0 ≤ offT (.ofNat (u.offset total))
    rw [offT_nonneg, hu.toNat_offset]
    exact hu.block_lt
  | _ => exact .inl trivial

theorem Sent.strict {e : Packet} {rc : Rc} {out : Bytes} (h : Sent (.quiet (lax faults)) e rc out) :
    Sent (.quiet faults) e rc out := h.mono fun buf hf => by simpa [Env.quiet, lax] using hf

theorem Measured.resumes {st : Option Nat} (h : Measured (.quiet (lax faults)) st C) (hC : C.length < 2 ^ 63) :
    Resumes faults C total (startOffset total st).toNat (kept total st C) := by
  rcases resume_cases total (h.size (Env.quiet_quiet _)) hC with ⟨rfl, hk, hs⟩ | ⟨rfl, hle, hk, hs⟩ | ⟨rfl, hlt, hk, hs⟩
  · obtain ⟨fd, hf⟩ := h.fault rfl
    rw [hk, hs]
    exact .unmeasured ⟨fd, by simpa [Env.quiet, lax] using hf⟩
  · rw [hk, hs]
    exact .fits hle
  · rw [hk, hs]
    exact .reset hlt

theorem Measured.over {env : Env} {st : Option Nat} (h : Measured env st C) (hq : env.Quiet) (hC : C.length < 2 ^ 63)
    (hover : resumePoint st > total) : total.toNat < C.length := by
  cases st with
  | none => simp [resumePoint] at hover
  | some n =>
    obtain rfl := h.size hq n rfl
    rwa [gt_iff_lt, UInt64.lt_iff_toNat_lt, toNat_resumePoint (by omega)] at hover

theorem Stop.stops {off : Nat} {tail : Bytes} {success : Bool}
    (h : Stop (.quiet (lax faults)) session total off tail session' success) (hfits : off ≤ total.toNat)
    (hopen : session.shouldClose = false) : ∃ ended, Stops faults (total.toNat - off) tail ended ∧
      session'.shouldClose = !ended ∧ success = (ended && off == total.toNat) := by
  cases h with
  | fileEnd hp hend => exact ⟨true, .fileEnd hp hend, hopen, (Bool.true_and _).symm⟩
  | refused hp hend hover =>
    refine ⟨false, .refused hp hend fun hd => ?_, rfl, rfl⟩
    have := hover hd
    omega
  | broken hpart hbroken =>
    exact ⟨false, .broken hpart (by simpa [Broken, Env.quiet, lax] using hbroken), rfl, rfl⟩

theorem Progress.Ok.laid {u : Progress} (hu : u.Ok b total) :
    u.file total C = WindCloud.laid total (kept total u.st C) (startOffset total u.st).toNat (payloads u.pkts) := by
  unfold WindCloud.laid Progress.file
  rcases hm : u.map with _ | m
  · rw [if_pos (hu.mapped.1 hm)]
  · rw [if_neg fun h0 => by simp [hu.mapped.2 h0] at hm]
    rfl

/-- The returns of `handle_puts` that come after the opening are the shell's. -/
theorem PutsEnd.takes {fd : Nat} (hend : PutsEnd (.quiet (lax faults)) b path total session C x v) (hC : C.length < 2 ^ 63)
    (hopen : session.shouldClose = false) (hopened : b.trace ++ openedEvents path fd <+: v.proc.trace) :
    ∃ rcvd out file, b.Since rcvd out v.proc ∧ v.fs.Has path file ∧
      Takes faults C total rcvd out file (x.2.shouldClose || x.1 == .fail) := by
  have hquiet : (Env.quiet (lax faults)).Quiet := Env.quiet_quiet _
  have hresp (st : Option Nat) : putsResp total st = resumePacket .putsResp (.ofNat (startOffset total st).toNat) := by
    rw [UInt64.ofNat_toNat]
    rfl
  have hsince (r s : Bytes) (t : List Event) : b.Since r s (b.ran r s t) := ⟨rfl, rfl⟩
  cases hend with
  | @refused fs t e rc pre hv he hs hbytes ht hwhy =>
    cases hwhy with
    | unopened => simp [openedEvents] at hopened
    | unreset _ hover hf hst hheld =>
      refine ⟨_, _, _, hsince .., hheld hquiet, ?_⟩
      simp only [hopen, Bool.false_or]
      exact .unreset (hst.over hquiet hC hover) ⟨_, by simpa [Env.quiet, lax] using hf⟩ hs.strict
  | unsent hs hst hheld =>
    rw [hresp] at hs
    exact ⟨_, _, _, hsince .., hheld hquiet, .unsent (hst.resumes hC) hs.strict⟩
  | extendFailed hf hpos _ _ hs hst hheld he =>
    subst he
    refine ⟨_, _, _, hsince .., hheld hquiet, ?_⟩
    simp only [hopen, Bool.false_or, hresp]
    refine .unextended (hst.resumes hC) hpos ?_ hs.strict
    rcases hf with hf | ⟨_, hf⟩ | ⟨_, _, heq, hneg⟩
    · exact .inr ⟨_, hf⟩
    · cases hf
    · cases heq
      refine .inl (not_lt.1 fun hlt => ?_)
      rw [← offT_nonneg] at hlt
      omega
  | mapFailed hf hpos hlt _ _ hs hst hheld he =>
    subst he
    refine ⟨_, _, _, hsince .., hheld hquiet, ?_⟩
    simp only [hopen, Bool.false_or, hresp]
    exact .unmapped (hst.resumes hC) hpos hlt ⟨_, by simpa [Env.quiet, lax] using hf⟩ hs.strict
  | @done fs u tail session' success cut rc pre hu hs hcut hsent hst hheld =>
    obtain ⟨ended, hstops, hcloses, hdone⟩ := hs.stops hu.fits hopen
    refine ⟨_, _, _, hsince .., hheld hquiet, ?_⟩
    simp only [hcloses, hresp]
    refine .received (hst.resumes hC) hu.lt hu.blocks hu.fits hstops hdone ?_ hsent.strict
    rw [hu.laid]
    cases success with
    | true => exact .inl ⟨by simp, fun h => by cases h⟩
    | false =>
      cases cut with
      | true => exact .inr ⟨rfl, by simp [Progress.offset, Progress.data]⟩
      | false =>
        obtain ⟨fd, n, hf⟩ := hcut rfl
        exact .inl ⟨by simp, fun _ => ⟨fd, n, by simpa [Env.quiet, lax] using hf⟩⟩

/-- An upload whose target is known: refused at the opening, or taken. -/
theorem handlePuts_resolved {name virtualPath : Bytes} (hat : session.At dir) (hopen : session.shouldClose = false)
    (hroot : w.fs dotdot = some .dir) (hbare : w.proc.handles = ∅) (hask : ask packet = .puts name total)
    (hinfo : extractFileInfo packet pathMax = some (name, total)) (hname : name ≠ [])
    (hres : resolveTargetPath session.currentPath name pathMax pathMax = some (virtualPath, path))
    (h : Steps (tree faults) (handlePuts session packet, w) (.ret x, v)) : Told faults w dir packet x v := by
  have htarget : (Shell.of w.fs dir false).target (.puts name total) = some (dir.walk name) := hat.target hres
  obtain rfl := hat.real hres
  have ht : uploadTarget session packet = some ((dir.walk name).real, total) :=
    uploadTarget_eq_some.2 ⟨name, virtualPath, hinfo, hname, hres⟩
  have hputs : wp (kernel (.quiet (lax faults))) _ (handlePuts session packet) _ w := wp_handlePuts ht
  have hend := wp_result (wp_tree hputs (fun _ => .inl) fun u c hc => hc.lax u.fs) h
  have hframe (q : Bytes) (hq : q ≠ (dir.walk name).real) : v.fs q = w.fs q := by
    by_contra hne
    have htouched := (elsewhere_of_steps handlePuts_minds hbare (steps_mono (fun _ _ _ _ => TreeCall.quiet) h) hne).1
    rw [ht] at htouched
    exact hq (Option.some.inj htouched).symm
  have hpath := every_result (handlePuts_stays hat.path) h
  have hat' : x.2.At dir := ⟨hpath, hat.room⟩
  -- what the opening says
  rw [handlePuts, hinfo] at h
  simp only [if_neg hname, hres] at h
  obtain ⟨r, u, hcall, h⟩ := steps_call_ret h
  obtain ⟨⟨_, rfl, u', he, rfl⟩, hallowed, -⟩ := id hcall
  cases r with
  | none =>
    obtain ⟨hf, rfl⟩ := he
    have hlen : (lit "服务端无法创建文件").length < maxPacketPayload.toNat := by decide
    replace h : Steps (tree faults) (reply session .error .ioError (lit "服务端无法创建文件"), _) (.ret x, v) := h
    exact wp_result (wp_failed hat hopen hroot hask rfl hlen htarget hf (by exact ⟨rfl, rfl, rfl⟩)) h
  | some fd =>
    have hworks := works_of_allows (a := .puts name total) rfl htarget hroot (hallowed trivial)
    have hopened : w.proc.trace ++ openedEvents (dir.walk name).real fd <+: v.proc.trace := by
      obtain ⟨events, hev⟩ := trace_grows (steps_mono (fun _ _ _ _ => TreeCall.quiet) h)
      have hcalled := kernel_traces hcall.quiet
      exact ⟨events, by rw [hev, hcalled]; rfl⟩
    obtain ⟨rcvd, out, file, hsince, ⟨c, hc, rfl⟩, htakes⟩ := hend.takes (FS.bytes_lt _ _) hopen hopened
    refine ⟨rcvd, out, dir, hat', hsince.rcvd, hsince.sent, ?_⟩
    have htree : Shell.of v.fs dir false = (Shell.of w.fs dir false).put (dir.walk name) (some (.reg c)) := by
      rw [Shell.of_put hframe, hc]
    show Shell.Serves _ _ _ { Shell.of v.fs dir false with closed := x.2.shouldClose || x.1 == .fail }
    rw [htree]
    exact .puts hask hworks htakes

theorem handlePuts_told (hat : session.At dir) (hopen : session.shouldClose = false) (hroot : w.fs dotdot = some .dir)
    (hbare : w.proc.handles = ∅) (htype : CmdType.ofCode packet.header.cmdType = some .putsReq)
    (h : Steps (tree faults) (handlePuts session packet, w) (.ret x, v)) : Told faults w dir packet x v := by
  have hmalformed (hask : ask packet = .malformed (lit "puts 请求格式错误"))
      (hputs : handlePuts session packet = reply session .error .badRequest (lit "puts 请求格式错误")) :
      Told faults w dir packet x v := by
    rw [hputs] at h
    refine wp_result (wp_refused (by decide) ⟨rfl, rfl, rfl⟩ hat hopen ?_) h
    rw [hask]
    exact .malformed
  rcases hinfo : extractFileInfo packet pathMax with _ | ⟨name, total⟩
  · refine hmalformed ?_ ?_
    · rw [ask, htype]
      simp only [hinfo]
    · rw [handlePuts, hinfo]
  by_cases hname : name = []
  · refine hmalformed ?_ ?_
    · rw [ask, htype]
      simp only [hinfo, if_pos hname]
    · rw [handlePuts, hinfo]
      exact if_pos hname
  have hask : ask packet = .puts name total := by
    rw [ask, htype]
    simp only [hinfo, if_neg hname]
  rcases hres : resolveTargetPath session.currentPath name pathMax pathMax with _ | ⟨virtualPath, path⟩
  · have hputs : handlePuts session packet = reply session .error .badRequest (lit "上传文件名非法") := by
      rw [handlePuts, hinfo]
      simp only [if_neg hname, hres]
    have htarget : (Shell.of w.fs dir false).target (.puts name total) = none := hat.target_none hres
    rw [hputs] at h
    exact wp_result (wp_unnamed hat hopen hask rfl (by decide) htarget) h
  · exact handlePuts_resolved hat hopen hroot hbare hask hinfo hname hres h

end Uploads
end Server
end WindCloud
