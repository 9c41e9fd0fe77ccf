import WindCloud.Run
import WindCloud.ServerUpload
/-!
# What an upload leaves in the target

In an environment where nobody else touches the target, `fstat` gives the length of its
contents `C` (or fails), and the upload resumes there, at zero, or at zero after a reset
(`resume_cases`). The blocks are then stored from there on, and the cut leaves what was kept
and what was received (`resize_file`).

The extension before the mapping is undone by the cut, which every way out of the receive loop
goes through. The way out when `mmap` fails does not: `handlePuts_leavesData` says exactly when
a failed upload leaves only data that somebody sent.
-/

namespace WindCloud

open Interaction Prog FileImage

/-- The bytes `s` hold complete packets from their start on, one of them an `ACK`. -/
def Acked (s : Bytes) : Prop := ∃ pkts rest,
  s = Packet.wires pkts ++ rest ∧ (∀ p ∈ pkts, Packet.Valid p) ∧ ∃ p ∈ pkts, p.Is .ack

/-- What is written of `ps` acknowledges only by an `ACK` in `ps`. -/
theorem Acked.mem {s : Bytes} {ps : List Packet} (h : Acked s) (hs : s <+: Packet.wires ps)
    (hv : ∀ p ∈ ps, Packet.Valid p) : ∃ p ∈ ps, p.Is .ack := by
  obtain ⟨pkts, rest, rfl, hpkts, p, hp, hack⟩ := h
  obtain ⟨qs, rfl, -⟩ := Packet.wire_code.all_prefix hpkts hv hs
  exact ⟨p, List.mem_append_left _ hp, hack⟩

theorem not_acked_of_forall {s : Bytes} (ps : List Packet) (hs : s <+: Packet.wires ps) (hv : ∀ p ∈ ps, Packet.Valid p)
    (hn : ∀ p ∈ ps, ¬ p.Is .ack) : ¬ Acked s := fun h => by
  obtain ⟨p, hp, hack⟩ := h.mem hs hv
  exact hn p hp hack

namespace Server

/-! ## Where an upload resumes -/

section Resume

variable {total : UInt64} {st : Option Nat} {C : Bytes}

theorem toNat_resumePoint {n : Nat} (h : n < 2 ^ 64) : (resumePoint (some n)).toNat = n := by
  rcases Nat.eq_zero_or_pos n with rfl | hn
  · rfl
  · rw [resumePoint, if_pos hn]
    exact UInt64.toNat_ofNat_of_lt' h

/-- The three ways an upload starts: the size is not known; it is at most the announced one; the
file was longer and has been reset. -/
theorem resume_cases (total : UInt64) (hst : ∀ n, st = some n → n = C.length) (hC : C.length < 2 ^ 63) :
    st = none ∧ kept total st C = C ∧ startOffset total st = 0 ∨
    st = some C.length ∧ C.length ≤ total.toNat ∧ kept total st C = C ∧
      (startOffset total st).toNat = C.length ∨
    st = some C.length ∧ total.toNat < C.length ∧ kept total st C = [] ∧ startOffset total st = 0 := by
  rcases st with _ | n
  · have h0 : ¬ resumePoint none > total := by simp [resumePoint]
    exact .inl ⟨rfl, if_neg h0, if_neg h0⟩
  · obtain rfl := hst n rfl
    have hnat := toNat_resumePoint (n := C.length) (by omega)
    by_cases hover : resumePoint (some C.length) > total
    · refine .inr (.inr ⟨rfl, ?_, if_pos hover, if_pos hover⟩)
      rwa [gt_iff_lt, UInt64.lt_iff_toNat_lt, hnat] at hover
    · refine .inr (.inl ⟨rfl, ?_, if_neg hover, by rw [startOffset, if_neg hover, hnat]⟩)
      rw [gt_iff_lt, UInt64.lt_iff_toNat_lt, hnat] at hover
      omega

/-- What the blocks are appended to. -/
def resumed (total : UInt64) (st : Option Nat) (C : Bytes) : Bytes :=
  (kept total st C).take (startOffset total st).toNat

theorem length_resumed (total : UInt64) (hst : ∀ n, st = some n → n = C.length) (hC : C.length < 2 ^ 63) :
    (resumed total st C).length = (startOffset total st).toNat := by
  unfold resumed
  rcases resume_cases total hst hC with ⟨-, -, h⟩ | ⟨-, -, hk, h⟩ | ⟨-, -, -, h⟩
  · simp [h]
  · simp [hk, h]
  · simp [h]

namespace Progress

variable {b : Proc} {u : Progress}

/-- What the upload has stored: all of this was kept or sent. -/
def stored (total : UInt64) (u : Progress) (C : Bytes) : Bytes := resumed total u.st C ++ u.data

theorem length_stored (total : UInt64) (hst : ∀ n, u.st = some n → n = C.length) (hC : C.length < 2 ^ 63) :
    (u.stored total C).length = u.offset total := by
  rw [stored, List.length_append, length_resumed total hst hC, offset]

/-- **The cut leaves what was stored.** -/
theorem resize_file (hu : u.Ok b total) (hst : ∀ n, u.st = some n → n = C.length) (hC : C.length < 2 ^ 63) :
    resize 0 (u.offset total) (u.file total C) = u.stored total C := by
  have hfits := hu.fits
  rcases hm : u.map with _ | m
  · -- nothing was mapped: the size is zero, and so is the offset
    have h0 : u.offset total = 0 := by
      rw [hu.mapped.1 hm] at hfits ⊢
      simpa using hfits
    have hlen := length_stored total hst hC
    rw [h0] at hlen ⊢
    rw [resize_zero, List.length_eq_zero_iff.1 hlen]
  · have hkept := length_resumed total hst hC
    rw [resumed, List.length_take] at hkept
    have hle : (startOffset total u.st).toNat ≤ total.toNat := startOffset_le total u.st
    have hfile : u.file total C =
        store (resize 0 total.toNat (kept total u.st C)) (startOffset total u.st).toNat u.data := by
      rw [file, hm]
    rw [resize_of_le (by rw [hfile]; simpa using hfits), hfile, offset, take_store (by simpa [offset] using hfits),
      take_resize hle, resize_of_le (by omega), stored, resumed]

/-- A complete upload needs no cut. -/
theorem file_of_full (hu : u.Ok b total) (hst : ∀ n, u.st = some n → n = C.length) (hC : C.length < 2 ^ 63)
    (hfull : u.offset total = total.toNat) {m : Nat} (hm : u.map = some m) :
    u.file total C = u.stored total C := by
  have h := resize_file hu hst hC
  have hlen : (u.file total C).length = u.offset total := by rw [file, hm]; simp [hfull]
  rwa [← hlen, resize_length] at h

/-- An upload of nothing leaves the target as it is, or empty. -/
theorem file_of_unmapped (hm : u.map = none) : u.file total C = kept total u.st C := by rw [file, hm]

end Progress
end Resume

/-! ## The calls of an upload that are recorded -/

section Events

variable {b : Proc} {path : Bytes} {total : UInt64} {u : Progress}

/-- A call that an upload has made by the end of its receive loop; it extends its target only for a mapping. -/
inductive Recorded (path : Bytes) (total : UInt64) (map : Option Nat) : Event → Prop
  | openFile {fd : Nat} : Recorded path total map ⟨.openFile path .rdwrCreat, some fd⟩
  | fstat {fd : Nat} {st : Option Nat} : Recorded path total map ⟨.fstat fd, st⟩
  | reset {fd : Nat} : Recorded path total map ⟨.ftruncate fd 0 .reset, true⟩
  | extend {fd : Nat} : map ≠ none → Recorded path total map ⟨.ftruncate fd (offT total) .extend, true⟩
  | mmap {fd m : Nat} : Recorded path total map ⟨.mmap fd total.toNat, some m⟩
  | memcpy {m off : Nat} {data : Bytes} : Recorded path total map ⟨.memcpy m off data, ()⟩

theorem mem_measured {e : Event} {fd : Nat} {st map : Option Nat} (h : e ∈ measuredEvents path total fd st) :
    Recorded path total map e := by
  rcases List.mem_append.1 h with h | h
  · simp only [openedEvents, List.cons_append, List.nil_append, List.mem_cons, List.not_mem_nil, or_false] at h
    rcases h with rfl | rfl
    · exact .openFile
    · exact .fstat
  · split at h
    · exact List.mem_singleton.1 h ▸ .reset
    · cases h

theorem mem_copyEvents {e : Event} {map : Option Nat} {off : Nat} {pkts : List Packet}
    (h : e ∈ copyEvents map off pkts) : Recorded path total map e := by
  induction pkts generalizing off with
  | nil => simp [copyEvents] at h
  | cons p ps ih =>
    rcases List.mem_append.1 h with h | h
    · rcases map with _ | m
      · cases h
      · by_cases hp : p.data = []
        · simp [hp] at h
        · obtain rfl : e = ⟨.memcpy m off p.data, ()⟩ := by simpa [hp] using h
          exact .memcpy
    · exact ih h

theorem Progress.mem_trace {e : Event} (h : e ∈ u.trace path total) : Recorded path total u.map e := by
  simp only [Progress.trace, List.mem_append] at h
  rcases h with (h | h) | h
  · exact mem_measured h
  · rcases hm : u.map with _ | m
    · simp [hm, mappedEvents] at h
    · simp only [hm, mappedEvents, List.mem_cons, List.not_mem_nil, or_false] at h
      rcases h with rfl | rfl
      · exact .extend (by simp)
      · exact .mmap
  · exact mem_copyEvents h

theorem mmap_notMem_measured {fd fd' n : Nat} {st : Option Nat} :
    (⟨.mmap fd' n, none⟩ : Event) ∉ measuredEvents path total fd st := fun h => by
  cases (mem_measured h : Recorded path total none _)

theorem mmap_notMem_done {fd n : Nat} {success cut : Bool} :
    (⟨.mmap fd n, none⟩ : Event) ∉ u.trace path total ++ closedEvents total u success cut := by
  have hclosed : (⟨.mmap fd n, none⟩ : Event) ∉ closedEvents total u success cut := by
    rcases hm : u.map with _ | m <;> cases success <;> simp [closedEvents, unmappedEvents, hm]
  rw [List.mem_append, not_or]
  exact ⟨fun h => (by cases Progress.mem_trace h), hclosed⟩

theorem fstat_mem_measured {fd : Nat} {st : Option Nat} :
    (⟨.fstat fd, st⟩ : Event) ∈ measuredEvents path total fd st := by
  simp [measuredEvents]

end Events

/-! ## A failed upload -/

/-- The target holds what it held, or its old contents (nothing of them, if it was reset or could
not be measured) followed by exactly the payloads of the `FILE_DATA` packets that were received
one after the other and fitted in; `r` is what was received and `t` what was called. -/
def LeavesData (total : UInt64) (C r : Bytes) (t : List Event) (file : Bytes) : Prop :=
  file = C ∨ ∃ old pkts tail,
    (old = C ∨ old = [] ∧ (total.toNat < C.length ∨ ∃ fd, (⟨.fstat fd, none⟩ : Event) ∈ t)) ∧
    r = Packet.wires pkts ++ tail ∧ (∀ p ∈ pkts, Packet.Valid p ∧ p.Is .fileData) ∧
    (∀ p, Packet.Valid p → p.Is .fileData → p.wire <+: tail →
      total.toNat < old.length + (payloads pkts).length + p.data.length) ∧
    file = old ++ payloads pkts

section Failed

variable {env : Env} {b : Proc} {path C : Bytes} {total : UInt64} {session session' : Session}
  {r : Bytes} {t : List Event}

theorem LeavesData.of_kept {st : Option Nat} (hst : ∀ n, st = some n → n = C.length) (hC : C.length < 2 ^ 63) :
    LeavesData total C [] t (kept total st C) := by
  rcases resume_cases total hst hC with ⟨-, hk, -⟩ | ⟨-, -, hk, -⟩ | ⟨-, hlt, hk, -⟩
  · exact .inl hk
  · exact .inl hk
  · refine .inr ⟨[], [], [], .inr ⟨rfl, .inl hlt⟩, by simp, by simp, fun p _ _ hp => ?_, by simp [hk]⟩
    exact absurd (List.prefix_nil.1 hp) p.wire_ne_nil

/-- No `FILE_DATA` packet that fits is left at the end of what was received. -/
theorem Stop.rejects {off : Nat} {tail : Bytes} {success : Bool}
    (hs : Stop env session total off tail session' success) {p : Packet} (hp : p.Valid) (hd : p.Is .fileData)
    (hpre : p.wire <+: tail) : total.toNat < off + p.data.length := by
  have heq {q : Packet} (hq : q.Valid) (h : p.wire <+: q.wire) : p = q :=
    Packet.wire_code.word_prefix (y := []) hp hq (by simpa using h)
  cases hs with
  | fileEnd hq hend =>
    obtain rfl := heq hq hpre
    exact absurd (hd.symm.trans hend) (by decide)
  | refused hq hend hover =>
    obtain rfl := heq hq hpre
    exact hover hd
  | broken hpart => exact absurd hpre (hpart p hp)

/-- What the receive loop and the cut leave. -/
theorem LeavesData.of_stored {u : Progress} {tail : Bytes} {success : Bool} (hu : u.Ok b total)
    (hs : Stop env session total (u.offset total) tail session' success)
    (hst : ∀ n, u.st = some n → n = C.length) (hC : C.length < 2 ^ 63)
    (ht : (⟨.fstat u.fd, u.st⟩ : Event) ∈ t) :
    LeavesData total C (Packet.wires u.pkts ++ tail) t (u.stored total C) := by
  have hlen := Progress.length_stored total hst hC
  refine .inr ⟨resumed total u.st C, u.pkts, tail, ?_, rfl, hu.blocks, fun p hp hd hpre => ?_, rfl⟩
  · unfold resumed
    rcases resume_cases total hst hC with ⟨hn, hk, h⟩ | ⟨-, -, hk, h⟩ | ⟨-, hlt, -, h⟩
    · exact .inr ⟨by simp [h], .inr ⟨u.fd, hn ▸ ht⟩⟩
    · exact .inl (by rw [hk, h, List.take_length])
    · exact .inr ⟨by simp [h], .inl hlt⟩
  · have := hs.rejects hp hd hpre
    rw [← hlen, Progress.stored, List.length_append] at this
    exact this

theorem Stop.full {off : Nat} {tail : Bytes} (hs : Stop env session total off tail session' true) :
    off = total.toNat := by
  generalize hb : true = success at hs
  cases hs with
  | fileEnd => simpa using hb.symm
  | refused => cases hb
  | broken => cases hb

/-- The target at the end: what was stored, except that an upload of nothing to a file that could
not be measured leaves it alone. -/
theorem final_file {u : Progress} {tail : Bytes} {success : Bool} (hu : u.Ok b total)
    (hs : Stop env session total (u.offset total) tail session' success)
    (hst : ∀ n, u.st = some n → n = C.length) (hC : C.length < 2 ^ 63) :
    (if ¬ success ∧ true then resize 0 (u.offset total) (u.file total C) else u.file total C) =
        u.stored total C ∨
      u.st = none ∧ total = 0 ∧
        (if ¬ success ∧ true then resize 0 (u.offset total) (u.file total C) else u.file total C) = C := by
  cases success with
  | false => exact .inl (by simpa using Progress.resize_file hu hst hC)
  | true =>
    rcases hm : u.map with _ | m
    · have h0 := hu.mapped.1 hm
      have hnil : u.stored total C = [] := by
        rw [← List.length_eq_zero_iff, Progress.length_stored total hst hC, hs.full, h0]
        rfl
      simp only [not_true_eq_false, false_and, if_false, Progress.file_of_unmapped hm, hnil]
      rcases resume_cases total hst hC with ⟨hn, hk, -⟩ | ⟨-, hle, hk, -⟩ | ⟨-, -, hk, -⟩
      · exact .inr ⟨hn, h0, hk⟩
      · rw [h0] at hle
        exact .inl (by rw [hk]; exact List.length_eq_zero_iff.1 (by simpa using hle))
      · exact .inl hk
    · exact .inl (by simpa using Progress.file_of_full hu hst hC hs.full hm)

theorem Sent.not_acked {e : Packet} {rc : Rc} {pre : Bytes} (ps : List Packet) (h : Sent env e rc pre)
    (hv : ∀ p ∈ ps ++ [e], Packet.Valid p) (hn : ∀ p ∈ ps ++ [e], ¬ p.Is .ack) :
    ¬ Acked (Packet.wires ps ++ pre) := by
  refine not_acked_of_forall _ ?_ hv hn
  rw [Packet.wires_append]
  exact (List.prefix_append_right_inj _).2 (by simpa using h.starts)

theorem not_ack_of_error {p : Packet} (h : p.Is .error) : ¬ p.Is .ack := fun h' => by
  have := h.symm.trans h'
  simp at this

/-- Extended and not cut back, the target is no data that somebody sent. -/
theorem leavesData_resize {st : Option Nat} (hst : ∀ n, st = some n → n = C.length) (hC : C.length < 2 ^ 63)
    (hpos : 0 < total) :
    LeavesData total C [] t (resize 0 total.toNat (kept total st C)) ↔ C.length = total.toNat := by
  have hpos : 0 < total.toNat := UInt64.lt_iff_toNat_lt.1 hpos
  constructor
  · rintro (h | ⟨old, pkts, tail, hold, hr, -, -, h⟩)
    · rw [← h, length_resize]
    · have hpkts : pkts = [] := by
        cases pkts with
        | nil => rfl
        | cons p ps => simp [p.wire_ne_nil] at hr
      rw [hpkts, payloads_nil, List.append_nil] at h
      have hlen := congrArg List.length h
      rw [length_resize] at hlen
      rcases hold with rfl | ⟨rfl, -⟩
      · exact hlen.symm
      · simp at hlen
        omega
  · intro h
    rcases resume_cases total hst hC with ⟨-, hk, -⟩ | ⟨-, -, hk, -⟩ | ⟨-, hlt, -, -⟩
    · exact .inl (by rw [hk, ← h, resize_length])
    · exact .inl (by rw [hk, ← h, resize_length])
    · omega

/-- **What a failed upload leaves.** `handle_puts` is called for the target `path` with the announced
size `total`; any call but the final cut may fail. If it returns without having acknowledged the
upload, the target holds what it held, or its old contents and the data received: if and only if
no `mmap` failed, or the target had the announced size from the start. -/
theorem handlePuts_leavesData {faults : Call → Prop} (hcut : ∀ fd n, ¬ faults (.ftruncate fd n .cut))
    {packet : Packet} {fs : FS} {rc : Rc} {w' : World} (ht : uploadTarget session packet = some (path, total))
    (hrun : Steps (kernel (.quiet faults)) (handlePuts session packet, ⟨fs, b⟩) (.ret (rc, session'), w')) :
    ∃ r s t, w'.proc.rcvd = b.rcvd ++ r ∧ w'.proc.sent = b.sent ++ s ∧ w'.proc.trace = b.trace ++ t ∧
      ((¬ Acked s → LeavesData total (fs.bytes path) r t (w'.fs.bytes path)) ↔
        ((∃ fd n, (⟨.mmap fd n, none⟩ : Event) ∈ t) → (fs.bytes path).length = total.toNat)) := by
  have hC := fs.bytes_lt path
  have hq : (Env.quiet faults).Quiet := Env.quiet_quiet faults
  generalize hc : fs.bytes path = C at hC ⊢
  have hend : PutsEnd (.quiet faults) b path total session C (rc, session') w' :=
    hc ▸ wp_result (wp_handlePuts ht) hrun
  cases hend with
  | @refused _ t e _ pre _ _ _ hfs ht =>
    refine ⟨[], pre, t, rfl, rfl, rfl, iff_of_true (fun _ => .inl (hfs hq)) ?_⟩
    rintro ⟨fd, n, h⟩
    exact absurd h (ht fd n)
  | @unsent _ fd st pre _ hst hheld =>
    refine ⟨[], pre, _, rfl, rfl, rfl, iff_of_true (fun _ => ?_) ?_⟩
    · rw [(hheld hq).bytes]
      exact .of_kept (hst.size hq) hC
    · rintro ⟨fd, n, h⟩
      simp [mmap_notMem_measured] at h
  | @extendFailed _ fd st e _ pre _ _ hv he hs hst hheld =>
    refine ⟨[], _, _, rfl, rfl, rfl, iff_of_true (fun _ => ?_) ?_⟩
    · rw [(hheld hq).bytes]
      exact .of_kept (hst.size hq) hC
    · rintro ⟨fd, n, h⟩
      simp [mmap_notMem_measured] at h
  | @mapFailed _ fd st e _ pre _ hpos hlt hv he hs hst hheld =>
    refine ⟨[], _, _, rfl, rfl, rfl, ?_⟩
    have hack : ¬ Acked ((putsResp total st).wire ++ pre) := by
      rw [← List.append_nil (Packet.wire _), ← Packet.wires_nil, ← Packet.wires_cons]
      apply hs.not_acked _ (by simp [hv, putsResp_valid])
      simp only [List.cons_append, List.nil_append, List.forall_mem_cons]
      simp [not_ack_of_error he]
    rw [(hheld hq).bytes, imp_iff_right hack, imp_iff_right ⟨fd, total.toNat, by simp⟩]
    exact leavesData_resize (hst.size hq) hC hpos
  | @done _ u tail _ success cut _ pre hu hstop hcut' hs hst hheld =>
    refine ⟨_, _, _, rfl, rfl, rfl, iff_of_true (fun hack => ?_) ?_⟩
    · obtain rfl : cut = true := by
        by_contra hf
        obtain ⟨fd, n, h⟩ := hcut' (by simpa using hf)
        exact hcut fd n h
      have hmem : (⟨.fstat u.fd, u.st⟩ : Event) ∈ u.trace path total ++ closedEvents total u success true := by
        simp [Progress.trace, fstat_mem_measured]
      have hstored := LeavesData.of_stored hu hstop (hst.size hq) hC hmem
      rw [(hheld hq).bytes]
      rcases final_file hu hstop (hst.size hq) hC with h | ⟨-, -, h⟩
      · rw [h]
        exact hstored
      · exact .inl h
    · rintro ⟨fd, n, h⟩
      exact absurd h mmap_notMem_done

/-! ### A run in which the mapping fails -/

/-- A request that names a file in the current directory by one letter. -/
def requestF (total : UInt64) : Packet := fileInfoPacket .putsReq (lit "f") total

theorem uploadTarget_requestF (total : UInt64) :
    uploadTarget .start (requestF total) = some (lit "../tests/f", total) := by
  refine uploadTarget_eq_some.2 ⟨lit "f", lit "/f", ?_, by decide, by decide⟩
  exact extractFileInfo_fileInfoPacket .putsReq total (by decide) (by decide)

/-- The target is created, extended to one byte and left so. -/
theorem mapFails_run (faults : Call → Prop) (hf : faults (.mmap 0 1)) :
    ∃ c, Steps (kernel (.quiet faults)) (handlePuts .start (requestF 1), ⟨fun _ => none, .init⟩) c ∧
      c.1 = .ret (.ok, .start) ∧ c.2.proc.rcvd = [] ∧
      c.2.proc.sent = (putsResp 1 (some 0)).wire ++ (textPacket .error .ioError (lit "服务端映射文件失败")).wire ∧
      (⟨.mmap 0 1, none⟩ : Event) ∈ c.2.proc.trace ∧ c.2.fs.bytes (lit "../tests/f") = [0] := by
  obtain ⟨fileName, virtualPath, hinfo, hname, hpath⟩ := uploadTarget_eq_some.1 (uploadTarget_requestF 1)
  unfold handlePuts
  simp only [hinfo, hpath, if_neg hname]
  have hR : Backward (fed (.quiet faults) []) fun c => _ := backward_kernel fun c : Io (Rc × Session) × World =>
    c.1 = .ret (.ok, .start) ∧ c.2.proc.rcvd = [] ∧
      c.2.proc.sent = (putsResp 1 (some 0)).wire ++ (textPacket .error .ioError (lit "服务端映射文件失败")).wire ∧
      (⟨.mmap 0 1, none⟩ : Event) ∈ c.2.proc.trace ∧ c.2.fs.bytes (lit "../tests/f") = [0]
  have hin : ([] : Bytes) <+: [] := List.prefix_refl _
  have h0 : startOffset 1 (some 0) = 0 := rfl
  have h1 : resumePoint (some Content.empty.bytes.length) = 0 := rfl
  apply run_create hR hin 0 rfl rfl
  refine run_fstat hR hin (by simp [Proc.init]; rfl) rfl ?_
  apply run_sendResumePacket hR hin
  refine run_ftruncate (c := .empty) (d := ⟨[0], by decide⟩) hR hin (by simp [Proc.init]; rfl) rfl (by decide) rfl ?_
  refine run_call hR (r := none) (v := ⟨_, _⟩) ⟨hf, rfl⟩ hin ?_
  apply run_close hR hin
  rw [← bind_ret (reply _ _ _ _)]
  refine run_reply hR (by decide) hin ⟨_, .refl, rfl, ?_⟩
  simp [putsResp, h0, h1, Proc.init]

/-- The data directory: the target is a byte long and nobody sent a byte. -/
theorem handlePuts_leavesZero :
    ∃ w', Steps (kernel (.quiet fun c => c = .mmap 0 1)) (handlePuts .start (requestF 1), ⟨fun _ => none, .init⟩)
        (.ret (.ok, .start), w') ∧
      ¬ Acked w'.proc.sent ∧
      ¬ LeavesData 1 [] w'.proc.rcvd w'.proc.trace (w'.fs.bytes (lit "../tests/f")) := by
  obtain ⟨⟨_, w'⟩, hrun, rfl, hrcvd, hsent, -, hfile⟩ := mapFails_run (fun c => c = .mmap 0 1) rfl
  have hmsg : (textPacket .error .ioError (lit "服务端映射文件失败")).Valid := textPacket_valid (by decide)
  have hsent' : w'.proc.sent <+:
      Packet.wires [putsResp 1 (some 0), textPacket .error .ioError (lit "服务端映射文件失败")] := by
    have : w'.proc.sent = _ := hsent
    simp [this]
  refine ⟨w', hrun, not_acked_of_forall _ hsent' (by simp [hmsg, putsResp_valid]) ?_, fun h => ?_⟩
  · simp only [List.forall_mem_cons]
    exact ⟨by simp, not_ack_of_error (Packet.of_is.2 rfl), by simp⟩
  · have : w'.proc.rcvd = [] := hrcvd
    rw [this, hfile] at h
    have hst : ∀ n, some 0 = some n → n = ([] : Bytes).length := by simp
    exact absurd ((leavesData_resize hst (by decide) (by decide)).1 h) (by decide)

/-- The equivalence at that run: both sides fail. -/
theorem handlePuts_leavesData_mapFails :
    ∃ r s t, (⟨.mmap 0 1, none⟩ : Event) ∈ t ∧ ∃ w' : World, w'.fs.bytes (lit "../tests/f") = [0] ∧
      ((¬ Acked s → LeavesData 1 [] r t (w'.fs.bytes (lit "../tests/f"))) ↔
        ((∃ fd n, (⟨.mmap fd n, none⟩ : Event) ∈ t) → ([] : Bytes).length = (1 : UInt64).toNat)) := by
  obtain ⟨⟨_, w'⟩, hrun, rfl, -, -, htrace, hfile⟩ := mapFails_run (fun c => c = .mmap 0 1) rfl
  obtain ⟨r, s, t, -, -, ht, h⟩ := handlePuts_leavesData (by simp) (uploadTarget_requestF 1) hrun
  refine ⟨r, s, t, ?_, w', hfile, h⟩
  simpa [ht, Proc.init] using htrace

end Failed

end Server
end WindCloud
