import WindCloud.Run
import WindCloud.Stream
/-!
# A finite client never keeps a worker

The client writes finitely many bytes and no more. Every call may fail at any time, and a `recv` at
the end of the stream does; others may do anything to the file system that `env` allows. With a
bound on the interruptions the worker's run is finite and is never stuck (`Concludes`): the request loop and
the receive loop of an upload go on only with a packet, which takes bytes off the stream, the block
loop of a download with a block, a listing with an entry, and `send_n`, `recv_n` and `sendfile` with bytes.

A packet is 20 bytes at least, so `recv_packet` hands over no more than the input has room for,
wherever it is called (`Delivered`).
-/

namespace WindCloud

open Interaction Prog FileImage

/-- A call that a signal interrupted. -/
def Stalled : (c : Call) → Res c → Prop
  | .recv .., .intr | .send .., .intr | .read .., .intr | .write .., .intr | .sendfile .., .intr => True
  | _, _ => False

/-- A process to which `avail` is all that is ever written, and whose calls are interrupted at most
as often as the budget says. -/
abbrev limited (env : Env) (avail : Bytes) : Sem Call Res (World × Nat) := (fed env avail).budget Stalled

section Calls

variable {env : Env} {avail : Bytes} {v v' : World × Nat} {c : Call} {r : Res c}

/-- Where a call may fail, it can be answered. -/
theorem limited_fails (hfail : ∀ c, env.faults c) (hin : v.1.proc.rcvd <+: avail)
    (hc : ∀ m off data, c ≠ .memcpy m off data) : ∃ r v', limited env avail v c r v' := by
  have answer (r : Res c) (p : Proc) (hs : ¬ Stalled c r) (hp : p.rcvd = v.1.proc.rcvd)
      (he : Effect env.faults v.1 c r ⟨v.1.fs, p⟩) : ∃ r v', limited env avail v c r v' := by
    refine ⟨r, (if c.traced then ⟨v.1.fs, p.note c r⟩ else ⟨v.1.fs, p⟩, v.2),
      ⟨⟨v.1.fs, env.refl _, ⟨v.1.fs, p⟩, he, rfl⟩, ?_⟩, fun h => absurd h hs, fun _ => rfl⟩
    show (World.proc (if c.traced then _ else _)).rcvd <+: avail
    split <;> exact hp ▸ hin
  cases c with
  | recv wait n => exact answer .fail v.1.proc id rfl ⟨hfail _, rfl⟩
  | send buf => exact answer .fail v.1.proc id rfl ⟨hfail _, rfl⟩
  | calloc n => exact answer false v.1.proc id rfl ⟨fun _ => hfail _, rfl⟩
  | opendir path => exact answer none v.1.proc id rfl ⟨hfail _, rfl⟩
  | readdir d => exact answer none v.1.proc id rfl ⟨.inr (hfail _), rfl⟩
  | closedir d => exact answer () (v.1.proc.setDir d none) id rfl rfl
  | remove path => exact answer false v.1.proc id rfl ⟨hfail _, rfl⟩
  | mkdir path => exact answer false v.1.proc id rfl ⟨hfail _, rfl⟩
  | openFile path mode => exact answer none v.1.proc id rfl ⟨hfail _, rfl⟩
  | close fd => exact answer () (v.1.proc.setFd fd none) id rfl rfl
  | fstat fd => exact answer none v.1.proc id rfl ⟨hfail _, rfl⟩
  | ftruncate fd len why => exact answer false v.1.proc id rfl ⟨hfail _, rfl⟩
  | lseek fd off => exact answer false v.1.proc id rfl ⟨hfail _, rfl⟩
  | read fd n => exact answer .fail v.1.proc id rfl ⟨hfail _, rfl⟩
  | write fd buf => exact answer .fail v.1.proc id rfl ⟨hfail _, rfl⟩
  | sendfile fd off n => exact answer .fail v.1.proc id rfl ⟨hfail _, rfl⟩
  | mmap fd len => exact answer none v.1.proc id rfl ⟨hfail _, rfl⟩
  | memcpy m off data => exact absurd rfl (hc m off data)
  | munmap m => exact answer () (v.1.proc.setMap m none) id rfl rfl

/-- A copy into a mapping that is there goes through. -/
theorem limited_memcpy {m off : Nat} {data : Bytes} (hin : v.1.proc.rcvd <+: avail) (hm : v.1.proc.maps m ≠ none) :
    ∃ r v', limited env avail v (.memcpy m off data) r v' := by
  obtain ⟨mp, hmp⟩ := Option.ne_none_iff_exists'.1 hm
  obtain ⟨fs, hfs⟩ := v.1.fs.modify_exists mp.path (g := (store · off data)) fun b => length_store.le
  exact ⟨(), (⟨fs, v.1.proc.note (.memcpy m off data) ()⟩, v.2),
    ⟨⟨v.1.fs, env.refl _, ⟨fs, v.1.proc⟩, ⟨mp, fs, hmp, hfs, rfl⟩, rfl⟩, hin⟩, False.elim, fun _ => rfl⟩

/-- What a run leaves of the input. -/
structure Onward (avail : Bytes) (v v' : World × Nat) : Prop where
  inp : v'.1.proc.rcvd <+: avail
  grows : v.1.proc.rcvd.length ≤ v'.1.proc.rcvd.length

theorem Onward.refl (h : v.1.proc.rcvd <+: avail) : Onward avail v v := ⟨h, Nat.le_refl _⟩

theorem Onward.trans {v'' : World × Nat} (h : Onward avail v v') (h' : Onward avail v' v'') : Onward avail v v'' :=
  ⟨h'.inp, h.grows.trans h'.grows⟩

theorem limited_onward (h : limited env avail v c r v') : Onward avail v v' :=
  ⟨h.1.2, (kernel_grows h.1.1).1.length_le⟩

/-- An answer moves on, or uses up an interruption. -/
theorem limited_stalled (h : limited env avail v c r v') :
    (Stalled c r → v'.2 < v.2) ∧ (¬ Stalled c r → v'.2 = v.2) :=
  ⟨fun hs => by have := h.2.1 hs; omega, h.2.2⟩

end Calls

/-! ## Programs that end -/

section Programs

variable {env : Env} {avail : Bytes} {α β : Type}

/-- From any state every run of `p` ends, none is stuck, and the input is not given back. -/
def Concludes (env : Env) (avail : Bytes) (p : Io α) : Prop :=
  ∀ v : World × Nat, v.1.proc.rcvd <+: avail → twp (limited env avail) p (fun _ v' => Onward avail v v') v

/-- The environment in which every call may fail. -/
def Env.failing (env : Env) : Env := { env with faults := fun _ => True }

/-- A program that ends where every call may fail, ends. -/
theorem Concludes.acc {sem : Sem Call Res World} {p : Io α} {w : World} (h : Concludes env.failing avail p)
    (hsem : ∀ v e r v', sem v e r v' → fed env.failing avail v e r v') (hin : w.proc.rcvd <+: avail) (j : Nat) :
    Acc (fun c' c => Step (sem.budget Stalled) c c') (p, w, j) := by
  have hle {c c' : Io α × World × Nat} (hs : Step (sem.budget Stalled) c c') : Step (limited env.failing avail) c c' :=
    step_mono (fun v e r v' h => ⟨hsem _ _ _ _ h.1, h.2⟩) hs
  exact Subrelation.accessible (fun hs => hle hs) (twp_acc (h (w, j) hin))

theorem fed_failing {v v' : World} {c : Call} {r : Res c} (h : fed env avail v c r v') : fed env.failing avail v c r v' := by
  obtain ⟨⟨fs, hr, u, he, hv⟩, hin⟩ := h
  exact ⟨⟨fs, hr, u, effect_faults he fun _ => trivial, hv⟩, hin⟩

theorem streamed_failing {v v' : World} {c : Call} {r : Res c} (h : streamed env avail v c r v') :
    fed env.failing avail v c r v' := by
  obtain ⟨⟨fs, hr, u, he, hv⟩, hin, -⟩ := h
  exact ⟨⟨fs, hr, u, effect_faults he fun _ => trivial, hv⟩, hin⟩

theorem Concludes.ret (a : α) : Concludes env avail (.ret a : Io α) := fun _ hin => .refl hin

theorem Concludes.bind {p : Io α} {f : α → Io β} (hp : Concludes env avail p) (hf : ∀ a, Concludes env avail (f a)) :
    Concludes env avail (p >>= f) := by
  intro v hin
  refine twp_bind.2 (twp_mono (hp v hin) fun a v' h => ?_)
  exact twp_mono (hf a v' h.inp) fun _ _ h' => h.trans h'

theorem concludes_call (hfail : ∀ c, env.faults c) {c : Call} {k : Res c → Io α}
    (hc : ∀ m off data, c ≠ .memcpy m off data) (hk : ∀ r, Concludes env avail (k r)) :
    Concludes env avail (perform c >>= k) := by
  intro v hin
  refine twp_perform (limited_fails hfail hin hc) ?_
  intro r v' hs
  have h := limited_onward hs
  exact twp_mono (hk r v' h.inp) fun _ _ h' => h.trans h'

theorem sendN_concludes (hfail : ∀ c, env.faults c) (buf : Bytes) : Concludes env avail (sendN buf) := by
  intro v hin
  refine twp_loop (fun _ v' => Onward avail v v') (fun total v => buf.length - total + v.2) (.refl hin) ?_
  rintro total v' hv
  split
  · rename_i hlt
    refine twp_perform (limited_fails hfail hv.inp (by simp)) ?_
    intro r v'' hs
    have hv'' := hv.trans (limited_onward hs)
    rcases r with _ | _ | _ | m
    · exact ⟨hv'', by have := (limited_stalled hs).1 trivial; omega⟩
    · exact hv''
    · exact hv''
    · exact ⟨hv'', by have := (limited_stalled hs).2 id; omega⟩
  · exact hv

/-- `recv_n` returns with all it was asked for, or with nothing. -/
theorem recvN_concludes (hfail : ∀ c, env.faults c) (wait : Wait) (len : Nat) (v : World × Nat)
    (hin : v.1.proc.rcvd <+: avail) :
    twp (limited env avail) (recvN wait len) (fun r v' => Onward avail v v' ∧ v'.1.proc.maps = v.1.proc.maps ∧
      ∀ bs, r = some bs → v.1.proc.rcvd.length + len ≤ v'.1.proc.rcvd.length) v := by
  refine twp_loop (fun got v' => Onward avail v v' ∧ v'.1.proc.maps = v.1.proc.maps ∧
      v.1.proc.rcvd.length + got.length ≤ v'.1.proc.rcvd.length)
    (fun got v => len - got.length + v.2) ⟨.refl hin, rfl, by simp⟩ ?_
  rintro got v' ⟨hv, hmaps, hgot⟩
  split
  · rename_i hlt
    refine twp_perform (limited_fails hfail hv.inp (by simp)) ?_
    intro r v'' hs
    have hon := limited_onward hs
    have hv'' := hv.trans hon
    obtain ⟨⟨⟨fs, -, u, he, hu⟩, -⟩, -⟩ := id hs
    have hmaps' : v''.1.proc.maps = v.1.proc.maps := by
      rw [hu, ← hmaps]
      rcases r with _ | _ | bs
      · rw [show u = _ from he]; rfl
      · rw [he.2]; rfl
      · rw [he.2.2]; rfl
    rcases r with _ | _ | bs
    · exact ⟨⟨hv'', hmaps', hgot.trans hon.grows⟩, by have := (limited_stalled hs).1 trivial; omega⟩
    · exact ⟨hv'', hmaps', fun _ h => by cases h⟩
    · cases bs with
      | nil => exact ⟨hv'', hmaps', fun _ h => by cases h⟩
      | cons b bs =>
        have hlen : v''.1.proc.rcvd.length = v'.1.proc.rcvd.length + (b :: bs).length := by
          rw [hu, he.2.2]
          simp [Call.traced]
        refine ⟨⟨hv'', hmaps', ?_⟩, ?_⟩
        · rw [List.length_append]
          omega
        · have := (limited_stalled hs).2 id
          rw [List.length_append, List.length_cons]
          omega
  · refine ⟨hv, hmaps, ?_⟩
    rintro _ ⟨⟩
    omega

theorem sendPacket_concludes (hfail : ∀ c, env.faults c) (type : CmdType) (status : StatusCode) (payload : Option Bytes)
    (len : UInt32) : Concludes env avail (sendPacket type status payload len) := by
  unfold sendPacket
  simp only
  split
  · exact .ret _
  · refine (sendN_concludes hfail _).bind ?_
    intro rc
    cases rc with
    | fail => exact .ret _
    | ok =>
      cases payload with
      | none => exact .ret _
      | some p =>
        simp only
        split
        · exact sendN_concludes hfail _
        · exact .ret _

/-- A packet is 20 bytes at least. -/
theorem recvPacket_concludes (hfail : ∀ c, env.faults c) (wait : Wait) (v : World × Nat) (hin : v.1.proc.rcvd <+: avail) :
    twp (limited env avail) (recvPacket wait) (fun r v' => Onward avail v v' ∧ v'.1.proc.maps = v.1.proc.maps ∧
      (r.1 = .ok → v.1.proc.rcvd.length + 20 ≤ v'.1.proc.rcvd.length)) v := by
  refine twp_bind.2 (twp_mono (recvN_concludes hfail wait 20 v hin) ?_)
  rintro (_ | hd) v₁ ⟨hv₁, hmaps₁, hlen⟩
  · exact ⟨hv₁, hmaps₁, fun h => by cases h⟩
  · have hlen := hlen hd rfl
    simp only
    split
    · exact ⟨hv₁, hmaps₁, fun h => by cases h⟩
    split
    · exact ⟨hv₁, hmaps₁, fun h => by cases h⟩
    split
    · exact ⟨hv₁, hmaps₁, fun _ => hlen⟩
    · refine twp_perform (limited_fails hfail hv₁.inp (by simp)) ?_
      intro r v₂ hs
      have hv₂ := hv₁.trans (limited_onward hs)
      have hmaps₂ : v₂.1.proc.maps = v.1.proc.maps := by
        obtain ⟨⟨⟨fs, -, u, he, hu⟩, -⟩, -⟩ := hs
        rw [hu, ← hmaps₁, he.2]
        rfl
      cases r with
      | false => exact ⟨hv₂, hmaps₂, fun h => by cases h⟩
      | true =>
        refine twp_bind.2 (twp_mono (recvN_concludes hfail wait _ v₂ hv₂.inp) ?_)
        rintro (_ | body) v₃ ⟨hv₃, hmaps₃, -⟩
        · exact ⟨hv₂.trans hv₃, hmaps₃.trans hmaps₂, fun h => by cases h⟩
        · refine ⟨hv₂.trans hv₃, hmaps₃.trans hmaps₂, fun _ => ?_⟩
          exact hlen.trans ((limited_onward hs).grows.trans hv₃.grows)

end Programs

/-! ## The handlers -/

namespace Server

section Handlers

variable {env : Env} {avail : Bytes} {session : Session}

theorem reply_concludes (hfail : ∀ c, env.faults c) {type : CmdType} {status : StatusCode} {msg : Bytes} :
    Concludes env avail (reply session type status msg) := by
  rw [reply, sendTextReply_some]
  exact .bind (sendPacket_concludes hfail _ _ _ _) fun _ => .ret _

theorem recvFollowPacket_concludes (hfail : ∀ c, env.faults c) (v : World × Nat) (hin : v.1.proc.rcvd <+: avail) :
    twp (limited env avail) (recvFollowPacket session) (fun r v' => Onward avail v v' ∧
      v'.1.proc.maps = v.1.proc.maps ∧ (r.1 = .ok → v.1.proc.rcvd.length + 20 ≤ v'.1.proc.rcvd.length)) v := by
  refine twp_bind.2 (twp_mono (recvPacket_concludes hfail .follow v hin) ?_)
  rintro ⟨_ | _, packet⟩ v' h <;> exact h

theorem handleCd_concludes (hfail : ∀ c, env.faults c) (arg : Bytes) : Concludes env avail (handleCd session arg) := by
  unfold handleCd
  split
  · exact reply_concludes hfail
  · refine concludes_call hfail (by simp) ?_
    intro dir
    cases dir with
    | none => exact reply_concludes hfail
    | some d => exact concludes_call hfail (by simp) fun _ => reply_concludes hfail

/-- A listing ends with the entries of the directory. -/
theorem handleLs_concludes (hfail : ∀ c, env.faults c) : Concludes env avail (handleLs session) := by
  unfold handleLs
  split
  · exact reply_concludes hfail
  · refine concludes_call hfail (by simp) ?_
    intro dir
    cases dir with
    | none => exact reply_concludes hfail
    | some d =>
      refine Concludes.bind (fun v hin => ?_) fun l => ?_
      · refine twp_loop (fun _ v' => Onward avail v v') (fun _ v => ((v.1.proc.dirs d).getD []).length) (.refl hin) ?_
        intro l v' hv
        refine twp_perform (limited_fails hfail hv.inp (by simp)) ?_
        intro r v'' hs
        have hv'' := hv.trans (limited_onward hs)
        cases r with
        | none => exact hv''
        | some name =>
          obtain ⟨⟨⟨fs, -, u, ⟨names, hnames, rfl⟩, hu⟩, -⟩, -⟩ := hs
          cases hl : l.add name with
          | none =>
            simp only [hl]
            exact hv''
          | some l' =>
            simp only [hl]
            refine ⟨hv'', ?_⟩
            have hnow : v''.1.proc.dirs d = some names := by rw [hu]; simp [Call.traced]
            have hbefore : v'.1.proc.dirs d = some (name :: names) := hnames
            simp [hnow, hbefore]
      · cases l <;> exact concludes_call hfail (by simp) fun _ => reply_concludes hfail

theorem handleRm_concludes (hfail : ∀ c, env.faults c) (arg : Bytes) : Concludes env avail (handleRm session arg) := by
  unfold handleRm
  split
  · exact reply_concludes hfail
  · refine concludes_call hfail (by simp) ?_
    intro ok
    cases ok <;> exact reply_concludes hfail

theorem handleMkdir_concludes (hfail : ∀ c, env.faults c) (arg : Bytes) :
    Concludes env avail (handleMkdir session arg) := by
  unfold handleMkdir
  split
  · exact reply_concludes hfail
  · refine concludes_call hfail (by simp) ?_
    intro ok
    cases ok <;> exact reply_concludes hfail

theorem uploadFinish_concludes (hfail : ∀ c, env.faults c) {fd : Nat} {map : Option Nat} {writeOffset : UInt64}
    {success : Bool} : Concludes env avail (uploadFinish session fd map writeOffset success) := by
  have hmap : Concludes env avail (unmap map) := by
    cases map with
    | none => exact .ret _
    | some m => exact concludes_call (c := .munmap m) (k := .ret) hfail (by simp) fun _ => .ret _
  refine hmap.bind fun _ => ?_
  cases success with
  | true => exact concludes_call hfail (by simp) fun _ => reply_concludes hfail
  | false =>
    exact concludes_call hfail (by simp) fun _ => concludes_call hfail (by simp) fun _ => reply_concludes hfail

/-- The receive loop goes on only with a packet; the mapping stays while it runs. -/
theorem receiveLoop_concludes (hfail : ∀ c, env.faults c) {totalSize writeOffset : UInt64} {map : Option Nat}
    (v : World × Nat) (hin : v.1.proc.rcvd <+: avail) (hmap : ∀ m, map = some m → v.1.proc.maps m ≠ none) :
    twp (limited env avail) (receiveLoop session totalSize map writeOffset) (fun _ v' => Onward avail v v') v := by
  refine twp_loop (fun _ v' => Onward avail v v' ∧ v'.1.proc.maps = v.1.proc.maps)
    (fun _ v => avail.length - v.1.proc.rcvd.length) ⟨.refl hin, rfl⟩ ?_
  rintro off v₁ ⟨hv₁, hmaps₁⟩
  refine twp_bind.2 (twp_mono (recvFollowPacket_concludes hfail v₁ hv₁.inp) ?_)
  rintro ⟨_ | _, session', packet⟩ v₂ ⟨hv₂, hmaps₂, hlen⟩
  · have hlen := hlen rfl
    have hless (v₃ : World × Nat) (h : Onward avail v₂ v₃) :
        avail.length - v₃.1.proc.rcvd.length < avail.length - v₁.1.proc.rcvd.length := by
      have := h.grows
      have := h.inp.length_le
      omega
    have hv := hv₁.trans hv₂
    simp only
    split
    · exact hv
    split
    · exact hv
    split
    · exact hv
    · unfold copyBlock
      split
      · rename_i m
        split
        · refine twp_perform (limited_memcpy hv₂.inp ?_) fun r v₃ hs => ?_
          · rw [hmaps₂, hmaps₁]
            exact hmap m rfl
          · have hv₃ := limited_onward hs
            refine ⟨⟨hv.trans hv₃, ?_⟩, hless v₃ hv₃⟩
            obtain ⟨⟨⟨fs, -, u, ⟨mp, fs', -, -, rfl⟩, hu⟩, -⟩, -⟩ := hs
            rw [hu]
            exact hmaps₂.trans hmaps₁
        · exact ⟨⟨hv, hmaps₂.trans hmaps₁⟩, hless v₂ (.refl hv₂.inp)⟩
      · exact ⟨⟨hv, hmaps₂.trans hmaps₁⟩, hless v₂ (.refl hv₂.inp)⟩
  · exact hv₁.trans hv₂

theorem uploadReceive_concludes (hfail : ∀ c, env.faults c) {fd : Nat} {totalSize writeOffset : UInt64}
    {map : Option Nat} (v : World × Nat) (hin : v.1.proc.rcvd <+: avail)
    (hmap : ∀ m, map = some m → v.1.proc.maps m ≠ none) :
    twp (limited env avail) (uploadReceive session fd totalSize map writeOffset) (fun _ v' => Onward avail v v') v := by
  refine twp_bind.2 (twp_mono (receiveLoop_concludes hfail v hin hmap) fun r v' hv => ?_)
  exact twp_mono (uploadFinish_concludes hfail v' hv.inp) fun _ _ h => hv.trans h

theorem uploadMapped_concludes (hfail : ∀ c, env.faults c) {fd : Nat} {totalSize writeOffset : UInt64} :
    Concludes env avail (uploadMapped session fd totalSize writeOffset) := by
  unfold uploadMapped
  split
  · refine concludes_call hfail (by simp) ?_
    intro ok
    cases ok with
    | false => exact concludes_call hfail (by simp) fun _ => reply_concludes hfail
    | true =>
      intro v hin
      refine twp_perform (limited_fails hfail hin (by simp)) ?_
      intro r v' hs
      have hv := limited_onward hs
      cases r with
      | none =>
        have hclose : Concludes env avail (Sys.close fd >>= fun _ =>
            reply session .error .ioError (lit "服务端映射文件失败")) :=
          concludes_call hfail (by simp) fun _ => reply_concludes hfail
        exact twp_mono (hclose v' hv.inp) fun _ _ h => hv.trans h
      | some m =>
        have hm : v'.1.proc.maps m ≠ none := by
          obtain ⟨⟨⟨fs, -, u, ⟨f, -, -, rfl⟩, hu⟩, -⟩, -⟩ := hs
          rw [hu]
          simp [Call.traced]
        refine twp_mono (uploadReceive_concludes hfail v' hv.inp ?_) fun _ _ h => hv.trans h
        rintro _ ⟨⟩
        exact hm
  · intro v hin
    exact uploadReceive_concludes hfail v hin fun m h => by cases h

theorem uploadFrom_concludes (hfail : ∀ c, env.faults c) {fd : Nat} {totalSize writeOffset : UInt64} :
    Concludes env avail (uploadFrom session fd totalSize writeOffset) := by
  refine .bind (sendPacket_concludes hfail _ _ _ _) ?_
  intro rc
  cases rc with
  | fail => exact concludes_call hfail (by simp) fun _ => .ret _
  | ok => exact uploadMapped_concludes hfail

theorem handlePuts_concludes (hfail : ∀ c, env.faults c) {packet : Packet} :
    Concludes env avail (handlePuts session packet) := by
  unfold handlePuts
  split
  · exact reply_concludes hfail
  split
  · exact reply_concludes hfail
  split
  · exact reply_concludes hfail
  · refine concludes_call hfail (by simp) ?_
    intro fd
    cases fd with
    | none => exact reply_concludes hfail
    | some fd =>
      refine concludes_call hfail (by simp) ?_
      intro st
      simp only
      split
      · refine concludes_call hfail (by simp) ?_
        intro ok
        cases ok with
        | false => exact concludes_call hfail (by simp) fun _ => reply_concludes hfail
        | true => exact uploadFrom_concludes hfail
      · exact uploadFrom_concludes hfail

/-- A block that is sent moves the offset by its size. -/
theorem sendFileDataPacket_concludes (hfail : ∀ c, env.faults c) {fd chunkSize : Nat} {offset : Int} (v : World × Nat)
    (hin : v.1.proc.rcvd <+: avail) :
    twp (limited env avail) (sendFileDataPacket fd offset chunkSize)
      (fun r v' => Onward avail v v' ∧ (r.1 = .ok → r.2 = offset + chunkSize)) v := by
  refine twp_bind.2 (twp_mono (sendN_concludes hfail _ v hin) ?_)
  rintro (_ | _) v₁ hv₁
  · refine twp_loop (fun sentTotal v' => Onward avail v v' ∧ sentTotal ≤ chunkSize)
      (fun sentTotal v => chunkSize - sentTotal + v.2) ⟨hv₁, Nat.zero_le _⟩ ?_
    rintro sentTotal v' ⟨hv, hle⟩
    split
    · refine twp_perform (limited_fails hfail hv.inp (by simp)) ?_
      intro r v'' hs
      have hv'' := hv.trans (limited_onward hs)
      rcases r with _ | _ | _ | m
      · exact ⟨⟨hv'', hle⟩, by have := (limited_stalled hs).1 trivial; omega⟩
      · exact ⟨hv'', fun h => by cases h⟩
      · exact ⟨hv'', fun h => by cases h⟩
      · have hm : m + 1 ≤ chunkSize - sentTotal := by
          obtain ⟨⟨⟨fs, -, u, ⟨f, bs, -, -, -, -, hm, -⟩, hu⟩, -⟩, -⟩ := hs
          exact hm
        exact ⟨⟨hv'', by omega⟩, by have := (limited_stalled hs).2 id; omega⟩
    · refine ⟨hv, fun _ => ?_⟩
      show offset + (sentTotal : Int) = offset + chunkSize
      omega
  · exact ⟨hv₁, fun h => by cases h⟩

theorem offU64_add {off : Int} {n : Nat} (h : (offU64 off).toNat + n < 2 ^ 64) :
    (offU64 (off + n)).toNat = (offU64 off).toNat + n := by
  have hlt (x : Int) : (x % 2 ^ 64).toNat < 2 ^ 64 := by omega
  have hoff (x : Int) : (offU64 x).toNat = (x % 2 ^ 64).toNat := UInt64.toNat_ofNat_of_lt' (hlt x)
  rw [hoff] at h ⊢
  rw [hoff]
  omega

/-- The block loop ends with the file. -/
theorem downloadFrom_concludes (hfail : ∀ c, env.faults c) {fd : Nat} {totalSize resumeOffset : UInt64} :
    Concludes env avail (downloadFrom session fd totalSize resumeOffset) := by
  refine Concludes.bind (fun v hin => ?_) fun rc => ?_
  · refine twp_loop (fun _ v' => Onward avail v v') (fun off _ => totalSize.toNat - (offU64 off).toNat) (.refl hin) ?_
    intro off v₁ hv₁
    split
    · rename_i hlt
      rw [UInt64.lt_iff_toNat_lt] at hlt
      have hrest : (totalSize - offU64 off).toNat = totalSize.toNat - (offU64 off).toNat :=
        UInt64.toNat_sub_of_le _ _ (UInt64.le_iff_toNat_le.2 hlt.le)
      have htotal := totalSize.toNat_lt
      refine twp_bind.2 (twp_mono (sendFileDataPacket_concludes hfail v₁ hv₁.inp) ?_)
      rintro ⟨_ | _, off'⟩ v₂ ⟨hv₂, hoff⟩
      · obtain rfl := hoff rfl
        refine ⟨hv₁.trans hv₂, ?_⟩
        have hblock : 0 < fileBlockSize := by decide
        rw [offU64_add]
        · split <;> omega
        · split <;> omega
      · exact hv₁.trans hv₂
    · exact hv₁
  · cases rc with
    | fail => exact concludes_call hfail (by simp) fun _ => .ret _
    | ok =>
      refine concludes_call hfail (by simp) fun _ => ?_
      exact .bind (sendPacket_concludes hfail _ _ _ _) fun _ => .ret _

theorem handleGets_concludes (hfail : ∀ c, env.faults c) (arg : Bytes) : Concludes env avail (handleGets session arg) := by
  unfold handleGets
  split
  · exact reply_concludes hfail
  · refine concludes_call hfail (by simp) ?_
    intro fd
    cases fd with
    | none => exact reply_concludes hfail
    | some fd =>
      refine concludes_call hfail (by simp) ?_
      intro size
      cases size with
      | none => exact concludes_call hfail (by simp) fun _ => reply_concludes hfail
      | some size =>
        refine .bind (sendPacket_concludes hfail _ _ _ _) ?_
        intro rc
        cases rc with
        | fail => exact concludes_call hfail (by simp) fun _ => .ret _
        | ok =>
          have hrecv : Concludes env avail (recvFollowPacket session) :=
            fun v hin => twp_mono (recvFollowPacket_concludes hfail v hin) fun _ _ h => h.1
          apply hrecv.bind
          rintro ⟨_ | _, session', packet⟩
          · simp only
            split
            · exact concludes_call hfail (by simp) fun _ => .ret _
            split
            · exact concludes_call hfail (by simp) fun _ => .ret _
            · exact downloadFrom_concludes hfail
          · exact concludes_call hfail (by simp) fun _ => .ret _

theorem withArg_concludes (hfail : ∀ c, env.faults c) {packet : Packet} {missing : Bytes}
    {handler : Session → Bytes → Io (Rc × Session)} (hh : ∀ arg, Concludes env avail (handler session arg)) :
    Concludes env avail (withArg session packet missing handler) := by
  unfold withArg
  split
  · exact reply_concludes hfail
  · exact hh _

theorem dispatchCommand_concludes (hfail : ∀ c, env.faults c) {packet : Packet} :
    Concludes env avail (dispatchCommand session packet) := by
  unfold dispatchCommand
  split
  · exact reply_concludes hfail
  · exact handleLs_concludes hfail
  · exact withArg_concludes hfail (handleCd_concludes hfail)
  · exact withArg_concludes hfail (handleRm_concludes hfail)
  · exact withArg_concludes hfail (handleMkdir_concludes hfail)
  · exact handlePuts_concludes hfail
  · exact withArg_concludes hfail (handleGets_concludes hfail)
  · exact reply_concludes hfail

/-- The request loop goes on only with a packet. -/
theorem handleRequest_concludes (hfail : ∀ c, env.faults c) : Concludes env avail (handleRequest session) := by
  intro v hin
  refine twp_loop (fun _ v' => Onward avail v v') (fun _ v => avail.length - v.1.proc.rcvd.length) (.refl hin) ?_
  intro session v₁ hv₁
  unfold handleRequestRound
  split
  · exact hv₁
  · refine twp_bind.2 (twp_mono (recvPacket_concludes hfail .request v₁ hv₁.inp) ?_)
    rintro ⟨_ | _, packet⟩ v₂ ⟨hv₂, -, hlen⟩
    · have hlen := hlen rfl
      refine twp_bind.2 (twp_mono (dispatchCommand_concludes hfail v₂ hv₂.inp) ?_)
      rintro ⟨rc, session'⟩ v₃ hv₃
      have hv := hv₁.trans (hv₂.trans hv₃)
      simp only
      split
      · exact hv
      · refine ⟨hv, ?_⟩
        have := hv₃.grows
        have := hv₃.inp.length_le
        omega
    · exact hv₁.trans hv₂

end Handlers

end Server

/-! ## The packets handed over -/

/-- A run from `c` to `d` in the course of which `recv_packet`, wherever it was called, has handed over
the packets `ps`. -/
inductive Delivered (sem : Sem Call Res (World × Nat)) : {α : Type} → Io α × World × Nat → List Packet →
    Io α × World × Nat → Prop
  | refl {α : Type} (c : Io α × World × Nat) : Delivered sem c [] c
  | step {α : Type} {c c' d : Io α × World × Nat} {ps : List Packet} (h : Prog.Step sem c c')
      (hrest : Delivered sem c' ps d) : Delivered sem c ps d
  | packet {α : Type} {wait : Wait} {f : Rc × Packet → Io α} {v v' : World × Nat} {p : Packet} {ps : List Packet}
      {d : Io α × World × Nat} (h : Steps sem (recvPacket wait, v) (.ret (.ok, p), v'))
      (hrest : Delivered sem (f (.ok, p), v') ps d) : Delivered sem (recvPacket wait >>= f, v) (p :: ps) d

section Delivery

variable {env : Env} {avail : Bytes} {α : Type}

/-- Each packet took its bytes. -/
theorem Delivered.length_le (hfail : ∀ c, env.faults c) {c d : Io α × World × Nat} {ps : List Packet}
    (h : Delivered (limited env avail) c ps d) (hin : c.2.1.proc.rcvd <+: avail) :
    c.2.1.proc.rcvd.length + 20 * ps.length ≤ avail.length := by
  induction h with
  | refl c => simpa using hin.length_le
  | step h hrest ih =>
    cases h with
    | call hs => exact (Nat.add_le_add_right (limited_onward hs).grows _).trans (ih hs.1.2)
    | loop => exact ih hin
  | packet h hrest ih =>
    obtain ⟨hon, -, hread⟩ := twp_result (recvPacket_concludes hfail _ _ hin) h
    have hread := hread rfl
    have hrest := ih hon.inp
    rw [List.length_cons]
    simp only at hrest hread ⊢
    omega

end Delivery

/-- **A finite client never keeps a worker.** Let all that the client ever writes be `input`, let calls be
interrupted at most `n` times in all, and let any call fail at any time. Then the worker has no infinite run,
a run that has not returned can go on, and in none have more than one packet per 20 bytes been read. -/
theorem Server.handleRequest_returns {env : Env} (hfail : ∀ c, env.faults c) (session : Session) (w : World)
    (input : Bytes) (n : Nat) :
    let sem := limited env (w.proc.rcvd ++ input)
    let start := (handleRequest session, w, n)
    Acc (fun d c => Prog.Step sem c d) start ∧
      (∀ q v, Steps sem start (q, v) → (∃ rc, q = .ret rc) ∨ ∃ d, Prog.Step sem (q, v) d) ∧
      ∀ ps d, Delivered sem start ps d → ps.length ≤ input.length / 20 := by
  intro sem start
  have hin : w.proc.rcvd <+: w.proc.rcvd ++ input := List.prefix_append _ _
  have hconcludes : Concludes env (w.proc.rcvd ++ input) (handleRequest session) := handleRequest_concludes hfail
  have hends := hconcludes (w, n) hin
  refine ⟨twp_acc hends, ?_, ?_⟩
  · intro q v hrun
    rcases twp_progress (twp_steps hends hrun) with ⟨rc, rfl, -⟩ | hgo
    · exact .inl ⟨rc, rfl⟩
    · exact .inr hgo
  · intro ps d hps
    have hlen : w.proc.rcvd.length + 20 * ps.length ≤ (w.proc.rcvd ++ input).length := hps.length_le hfail hin
    rw [List.length_append] at hlen
    omega

/-- Others may do anything to the files, and the client sends a `pwd` and half a header. -/
theorem Server.handleRequest_returns_pwd :
    let input := (textPacket .pwd .ok []).wire ++ List.replicate 10 0
    let sem := limited (.busy fun _ => True) input
    let start := (handleRequest .start, (⟨fun _ => none, .init⟩ : World), 3)
    Acc (fun d c => Prog.Step sem c d) start ∧
      (∀ q v, Steps sem start (q, v) → (∃ rc, q = .ret rc) ∨ ∃ d, Prog.Step sem (q, v) d) ∧
      ∀ ps d, Delivered sem start ps d → ps.length ≤ 1 :=
  @handleRequest_returns (.busy fun _ => True) (fun _ => trivial) .start ⟨fun _ => none, .init⟩ _ 3

end WindCloud
