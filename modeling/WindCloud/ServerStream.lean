import WindCloud.Exchange
import WindCloud.ServerUpload
/-!
# What the server has received and sent

The server's side of a command, said of its two streams alone, at any moment: `Putting` for an
upload. Nothing is said of files: the server's file system may fail and change in any way.
-/

namespace WindCloud

open Interaction Prog

namespace Server

/-! ## Uploads -/

/-- The blocks of an upload that have been stored, up to the offset `off`. -/
structure Taken (total : UInt64) (st : Option Nat) (pkts : List Packet) (off : Nat) : Prop where
  blocks : ∀ p ∈ pkts, p.Valid ∧ p.Is .fileData
  offset : off = (startOffset total st).toNat + (payloads pkts).length
  fits : off ≤ total.toNat

/-- The extension or the mapping of the target may fail. -/
def MapFaults (env : Env) (total : UInt64) : Prop :=
  ∃ fd c, env.faults c ∧ (c = .ftruncate fd (offT total) .extend ∨ c = .mmap fd total.toNat)

/-- `handle_puts` may have received `r` and sent `s`. -/
inductive Putting (env : Env) (total : UInt64) : Bytes → Bytes → Prop
  /-- An error before the answer. -/
  | refusing {e : Packet} {s : Bytes} : e.Valid → e.Is .error → s <+: e.wire → Putting env total [] s
  | answering {st : Option Nat} {s : Bytes} : s <+: (putsResp total st).wire → Putting env total [] s
  | receiving {st : Option Nat} {r : Bytes} : Putting env total r (putsResp total st).wire
  | failing {st : Option Nat} {e : Packet} {s : Bytes} : MapFaults env total → e.Valid → e.Is .error →
      s <+: (putsResp total st).wire ++ e.wire → Putting env total [] s
  | stopped {st : Option Nat} {pkts : List Packet} {off : Nat} {tail s : Bytes} {session session' : Session}
      {success : Bool} : Taken total st pkts off → Stop env session total off tail session' success →
      s <+: (putsResp total st).wire ++ (putsReply success).wire → Putting env total (Packet.wires pkts ++ tail) s

section Uploads

variable {env : Env} {b p : Proc} {path : Bytes} {total : UInt64} {v v' : World} {c : Call} {x : Res c}

theorem Putting.start : Putting env total [] [] := .answering (List.nil_prefix (l := (putsResp total none).wire))

theorem Progress.Ok.taken {u : Progress} (h : u.Ok b total) : Taken total u.st u.pkts (u.offset total) :=
  ⟨h.blocks, rfl, h.fits⟩

theorem Progress.since (b : Proc) (path : Bytes) (total : UInt64) (u : Progress) (r : Bytes) :
    b.Since r (putsResp total u.st).wire (u.proc b path total r) := by
  constructor <;> simp [Progress.proc]

/-- `PUTS_RESP` and a start of the reply. -/
theorem not_ended_putsResp (total : UInt64) (st : Option Nat) {e : Packet} {pre rest : Bytes} (he : e.Valid)
    (h : pre ++ rest <+: e.wire) (hne : rest ≠ []) : ¬ Ended ((putsResp total st).wire ++ pre) := by
  refine not_ended [putsResp total st] (e := e) ?_ hne ?_ ?_
  · simpa using h
  · simp [putsResp_valid, he]
  · simp [Packet.Final]

/-- The streams at a call of an upload: what holds after it, and that the reply is not yet out. -/
theorem PutsPoint.stream (h : PutsPoint env b path total p c) : ∃ r s t, b.Since r s p ∧ c.sends = some t ∧
    (∀ r' s', r' = [] ∨ (∃ n, c = .recv .follow n) → s' <+: t → Putting env total (r ++ r') (s ++ s')) ∧
    ¬ Ended s := by
  have hresp (st : Option Nat) : ¬ Ended (putsResp total st).wire := by
    have hpre : [] ++ (putsReply true).wire <+: (putsReply true).wire := by simp
    have h := not_ended_putsResp total st (putsReply_valid true) hpre (Packet.wire_ne_nil _)
    rwa [List.append_nil] at h
  have idle {r s : Bytes} (h : Putting env total r s) (hc : ∀ n, c ≠ .recv .follow n) :
      ∀ r' s', r' = [] ∨ (∃ n, c = .recv .follow n) → s' <+: [] → Putting env total (r ++ r') (s ++ s') := by
    rintro r' s' (rfl | ⟨n, hn⟩) hs
    · obtain rfl := List.prefix_nil.1 hs
      simpa using h
    · exact absurd hn (hc n)
  have more {r t pre rest : Bytes} {e : Packet} (hc : ∀ n, c ≠ .recv .follow n) (hpre : pre ++ rest <+: e.wire)
      (h : ∀ s', s' <+: e.wire → Putting env total r (t ++ s')) :
      ∀ r' s', r' = [] ∨ (∃ n, c = .recv .follow n) → s' <+: rest → Putting env total (r ++ r') (t ++ pre ++ s') := by
    rintro r' s' (rfl | ⟨n, hn⟩) hs
    · rw [List.append_nil, List.append_assoc]
      exact h _ (((List.prefix_append_right_inj pre).2 hs).trans hpre)
    · exact absurd hn (hc n)
  cases h with
  | openFile => exact ⟨[], [], [], ⟨by simp, by simp⟩, rfl, idle .start (by simp), not_ended_nil⟩
  | fstat => exact ⟨[], [], [], ⟨rfl, rfl⟩, rfl, idle .start (by simp), not_ended_nil⟩
  | reset => exact ⟨[], [], [], ⟨rfl, rfl⟩, rfl, idle .start (by simp), not_ended_nil⟩
  | @resume fd st pre rest _ hpre hne =>
    refine ⟨[], pre, rest, ⟨rfl, rfl⟩, rfl, more (t := []) (by simp) hpre fun s' hs => .answering hs, ?_⟩
    exact not_ended [] (by simpa using hpre) hne (by simpa using putsResp_valid st) (by simp)
  | @extend fd st => exact ⟨[], _, [], ⟨rfl, rfl⟩, rfl, idle .receiving (by simp), hresp st⟩
  | @mmap fd st => exact ⟨[], _, [], ⟨rfl, rfl⟩, rfl, idle .receiving (by simp), hresp st⟩
  | @recv u bs n hu =>
    refine ⟨_, _, [], u.since .., rfl, fun r' s' _ hs => ?_, hresp u.st⟩
    obtain rfl := List.prefix_nil.1 hs
    rw [List.append_nil]
    exact .receiving
  | @calloc u => exact ⟨_, _, [], u.since .., rfl, idle .receiving (by simp), hresp u.st⟩
  | @memcpy u => exact ⟨_, _, [], u.since .., rfl, idle .receiving (by simp), hresp u.st⟩
  | @munmap u => exact ⟨_, _, [], u.since .., rfl, idle .receiving (by simp), hresp u.st⟩
  | @cut u => exact ⟨_, _, [], ⟨rfl, rfl⟩, rfl, idle .receiving (by simp), hresp u.st⟩
  | @closeEnd u => exact ⟨_, _, [], ⟨rfl, rfl⟩, rfl, idle .receiving (by simp), hresp u.st⟩
  | @replyEnd u tail session session' success cut pre rest hu hs hpre hne =>
    refine ⟨_, _, rest, ⟨rfl, rfl⟩, rfl, more (by simp) hpre fun s' hs' => ?_, ?_⟩
    · exact .stopped hu.taken hs ((List.prefix_append_right_inj _).2 hs')
    · exact not_ended_putsResp total u.st (putsReply_valid success) hpre hne
  | closeEarly => exact ⟨[], [], [], ⟨rfl, rfl⟩, rfl, idle .start (by simp), not_ended_nil⟩
  | @replyEarly t e pre rest hv he hpre hne =>
    refine ⟨[], pre, rest, ⟨rfl, rfl⟩, rfl, more (t := []) (by simp) hpre fun s' hs => .refusing hv he hs, ?_⟩
    exact not_ended [] (by simpa using hpre) hne (by simpa using hv) (by simp)
  | @closeUnsent fd st pre rest t hpre hne hf =>
    refine ⟨[], pre, [], ⟨rfl, rfl⟩, rfl, idle (.answering ((List.prefix_append _ _).trans hpre)) (by simp), ?_⟩
    exact not_ended [] (by simpa using hpre) hne (by simpa using putsResp_valid st) (by simp)
  | @closeLate fd st => exact ⟨[], _, [], ⟨rfl, rfl⟩, rfl, idle .receiving (by simp), hresp st⟩
  | @replyLate fd st c t e pre rest hf hc hv he hpre hne =>
    refine ⟨[], _, rest, ⟨rfl, rfl⟩, rfl, more (by simp) hpre fun s' hs => ?_, not_ended_putsResp total st hv hpre hne⟩
    exact .failing ⟨fd, c, hf, hc⟩ hv he ((List.prefix_append_right_inj _).2 hs)

theorem PutsPoint.follows {v : World} (h : PutsPoint env b path total v.proc c) :
    Follows env b (Putting env total) v c := by
  obtain ⟨r, s, t, hs, hc, hM, hend⟩ := h.stream
  have hwait : (∀ wait n, c ≠ .recv wait n) ∨ ∃ n, c = .recv .follow n := by
    generalize v.proc = p at h
    cases h <;> first | exact .inr ⟨_, rfl⟩ | exact .inl (by simp)
  refine ⟨fun x v' hk => ?_, r, s, hs, hend⟩
  rcases hwait with hwait | hwait
  · obtain ⟨s', hs', hpre⟩ := hs.wrote hk hc hwait
    exact ⟨r, _, hs', by simpa using hM [] s' (.inl rfl) hpre⟩
  · obtain ⟨r', s', hs', hpre⟩ := hs.step hk hc
    exact ⟨_, _, hs', hM r' s' (.inr hwait) hpre⟩

/-- An upload that was served to its end. -/
inductive Put (env : Env) (total : UInt64) : Bytes → Bytes → Prop
  | refused {e : Packet} : e.Valid → e.Is .error → Put env total [] e.wire
  | failed {st : Option Nat} {e : Packet} : MapFaults env total → e.Valid → e.Is .error →
      Put env total [] ((putsResp total st).wire ++ e.wire)
  | ended {st : Option Nat} {pkts : List Packet} {off : Nat} {e : Packet} : Taken total st pkts off → e.Valid →
      e.Is .fileEnd → Put env total (Packet.wires pkts ++ e.wire)
        ((putsResp total st).wire ++ (putsReply (off == total.toNat)).wire)

/-- One that goes on has sent its last reply. -/
theorem PutsEnd.finishes {session : Session} {C : Bytes} {y : Rc × Session} {v : World}
    (h : PutsEnd env b path total session C y v) : Finishes b session (Put env total) y v := by
  have hwhole {e : Packet} {rc : Rc} {pre : Bytes} (h : Sent env e rc pre) (hrc : rc = .ok) : pre = e.wire := by
    rcases h with ⟨-, h⟩ | ⟨h, -⟩
    · exact h
    · exact absurd (h ▸ hrc) (by simp)
  cases h with
  | refused hv he hs =>
    refine ⟨id, fun hok _ => ⟨[], _, ⟨rfl, rfl⟩, ?_⟩⟩
    rw [hwhole hs hok]
    exact .refused hv he
  | unsent => exact .failed rfl
  | @extendFailed _ fd _ _ _ _ hf _ hv he hs =>
    refine ⟨id, fun hok _ => ⟨[], _, ⟨rfl, rfl⟩, ?_⟩⟩
    rw [hwhole hs hok]
    exact .failed ⟨fd, _, hf, .inl rfl⟩ hv he
  | @mapFailed _ fd _ _ _ _ hf _ _ hv he hs =>
    refine ⟨id, fun hok _ => ⟨[], _, ⟨rfl, rfl⟩, ?_⟩⟩
    rw [hwhole hs hok]
    exact .failed ⟨fd, _, hf, .inr rfl⟩ hv he
  | @done _ u tail session' success cut rc pre hu hstop _ hs =>
    refine ⟨?_, fun hok hopen => ⟨_, _, ⟨rfl, rfl⟩, ?_⟩⟩
    · cases hstop <;> exact id
    · rw [hwhole hs hok]
      cases hstop with
      | fileEnd hv he => exact .ended hu.taken hv he
      | refused => simp [Session.closing] at hopen
      | broken => simp [Session.closing] at hopen

/-- A request that names no target is refused. -/
theorem handlePuts_refused {session : Session} {packet : Packet} (h : uploadTarget session packet = none) :
    ∃ msg, msg.length < maxPacketPayload.toNat ∧ handlePuts session packet = reply session .error .badRequest msg := by
  unfold uploadTarget at h
  unfold handlePuts
  rcases hinfo : extractFileInfo packet pathMax with _ | ⟨fileName, total⟩
  · exact ⟨_, by decide, rfl⟩
  · by_cases hn : fileName = []
    · simp only [if_pos hn]
      exact ⟨_, by decide, rfl⟩
    · simp only [hinfo, if_neg hn, Option.map_eq_none_iff] at h
      simp only [if_neg hn, h]
      exact ⟨_, by decide, rfl⟩

theorem uploadTarget_total {session : Session} {packet : Packet} (h : uploadTarget session packet = some (path, total)) :
    total = loadU64 (packet.data.drop pathMax) := by
  obtain ⟨fileName, -, hinfo, -⟩ := uploadTarget_eq_some.1 h
  unfold extractFileInfo at hinfo
  split at hinfo
  · simp at hinfo
  · rename_i payload hp
    split at hinfo
    · simp at hinfo
    · simp only [Option.some.injEq, Prod.mk.injEq] at hinfo
      rw [Packet.data, hp, Option.getD_some, hinfo.2]

/-- **The streams of `handle_puts`.** -/
theorem wp_putsStreams {session : Session} {packet : Packet} {w : World}
    (ht : total = loadU64 (packet.data.drop pathMax)) :
    wp (kernel env) (Follows env w.proc (Putting env total)) (handlePuts session packet)
      (Finishes w.proc session (Put env total)) w := by
  rcases htarget : uploadTarget session packet with _ | ⟨path, total'⟩
  · obtain ⟨msg, hlen, hreply⟩ := handlePuts_refused htarget
    rw [hreply]
    have hv : (textPacket .error .badRequest msg).Valid := textPacket_valid hlen
    have he : (textPacket .error .badRequest msg).Is .error := Packet.of_is.2 rfl
    have hs : w.proc.Since [] (Packet.wires []) w.proc := .refl _
    refine wp_lastReply hs (by simp) (by simp) hlen (fun s' hs' => .refusing hv he (by simpa using hs')) ?_
    simpa using Put.refused hv he
  · obtain rfl : total' = total := (uploadTarget_total htarget).trans ht.symm
    exact wp_mono (wp_weaken (wp_handlePuts htarget) (fun _ _ _ _ h => h) fun _ _ h => h.follows) fun _ _ h => h.finishes

end Uploads
end Server
end WindCloud
