import WindCloud.UploadSafety
/-!
# The steps of an upload on its target

| here | there |
| --- | --- |
| `TargetStep.opened`  | `open` with `O_CREAT` (`handle.c:594`) |
| `TargetStep.resized` | the reset (`handle.c:616`), the extension (`:646`) and the cut (`:734`) |
| `TargetStep.stored`  | the `memcpy` of a block (`handle.c:713`) |
| `TargetStep.still`   | every other call, and those that fail |

Of a session that is not at a call only its trace is known: `Opened`, `Extended`, `Live` are read off it.
-/

namespace WindCloud

open Interaction Prog FileImage

/-! ## The calls that change the target -/

section Kernel

variable {faults : Call → Prop} {path : Bytes} {v v' : World}

theorem kernel_create {r : Option Nat} (hk : kernel (.quiet faults) v (.openFile path .rdwrCreat) r v') :
    r = none ∧ v'.fs = v.fs ∨ ∃ fd, r = some fd ∧ v'.fs.Has path (v.fs.bytes path) := by
  obtain ⟨fs, hr, u, he, rfl⟩ := hk
  obtain rfl : fs = v.fs := hr
  rcases r with _ | fd
  · obtain ⟨-, rfl⟩ := he
    exact .inl ⟨rfl, rfl⟩
  · obtain ⟨hdir, -, rfl⟩ := he
    exact .inr ⟨fd, rfl, FS.has_create hdir⟩

/-- A resize of the open target. -/
theorem kernel_ftruncate {fd : Nat} {n : Int} {why : Resize} {ok : Bool}
    (hk : kernel (.quiet faults) v (.ftruncate fd n why) ok v') (hfd : v.proc.fds fd = some ⟨path, 0⟩) :
    ok = false ∧ v'.fs = v.fs ∨ ok = true ∧ 0 ≤ n ∧ v.fs.Modify path (resize 0 n.toNat) v'.fs := by
  obtain ⟨fs, hr, u, he, rfl⟩ := hk
  obtain rfl : fs = v.fs := hr
  cases ok with
  | false =>
    obtain ⟨-, rfl⟩ := he
    exact .inl ⟨rfl, rfl⟩
  | true =>
    obtain ⟨f, fs', hf, hn, hm, rfl⟩ := he
    obtain rfl : f = ⟨path, 0⟩ := Option.some.inj (hf.symm.trans hfd)
    exact .inr ⟨rfl, hn, hm⟩

theorem kernel_memcpy {m off : Nat} {data : Bytes} {mp : Mapping} {r : Unit}
    (hk : kernel (.quiet faults) v (.memcpy m off data) r v') (hm : v.proc.maps m = some mp) :
    v.fs.Modify mp.path (store · off data) v'.fs := by
  obtain ⟨fs, hr, u, ⟨mp', fs', hmp, hst, rfl⟩, rfl⟩ := hk
  obtain rfl : fs = v.fs := hr
  obtain rfl : mp' = mp := Option.some.inj (hmp.symm.trans hm)
  exact hst

end Kernel

/-- The events that change a file. -/
def Event.Acts : Event → Prop
  | ⟨.openFile _ .rdwrCreat, some _⟩ | ⟨.ftruncate .., true⟩ | ⟨.memcpy .., _⟩ => True
  | _ => False

namespace Server

/-- What a step of `handle_puts` does to the target. -/
inductive TargetStep (path : Bytes) (total : UInt64) (fs fs' : FS) : Event → Prop
  | opened {fd : Nat} : fs'.Has path (fs.bytes path) →
      TargetStep path total fs fs' ⟨.openFile path .rdwrCreat, some fd⟩
  | resized {fd : Nat} {n : Int} {why : Resize} : 0 ≤ n → n ≤ total.toNat → fs.Modify path (resize 0 n.toNat) fs' →
      TargetStep path total fs fs' ⟨.ftruncate fd n why, true⟩
  | stored {m off : Nat} {data : Bytes} : fs.Modify path (store · off data) fs' →
      TargetStep path total fs fs' ⟨.memcpy m off data, ()⟩
  | still {e : Event} : ¬ e.Acts → fs' = fs → TargetStep path total fs fs' e

section Steps

variable {env : Env} {faults : Call → Prop} {b q : Proc} {path : Bytes} {total : UInt64} {fs : FS} {c : Call} {r : Res c}
  {v' : World} {t : List Event}

theorem TargetStep.of_resize {fd : Nat} {n : Int} {why : Resize} {ok : Bool}
    (hk : kernel (.quiet faults) ⟨fs, q⟩ (.ftruncate fd n why) ok v') (hfd : q.fds fd = some ⟨path, 0⟩)
    (hn : 0 ≤ n → n ≤ total.toNat) : TargetStep path total fs v'.fs ⟨.ftruncate fd n why, ok⟩ := by
  rcases kernel_ftruncate hk hfd with ⟨rfl, hfs⟩ | ⟨rfl, h0, hm⟩
  · exact .still (by simp [Event.Acts]) hfs
  · exact .resized h0 (hn h0) hm

theorem targetStep (hp : PutsPoint env b path total q c) (hk : kernel (.quiet faults) ⟨fs, q⟩ c r v') :
    TargetStep path total fs v'.fs ⟨c, r⟩ := by
  cases hp with
  | openFile =>
    rcases kernel_create hk with ⟨rfl, hfs⟩ | ⟨fd, rfl, hhas⟩
    · exact .still (by simp [Event.Acts]) hfs
    · exact .opened hhas
  | reset => exact .of_resize hk (by simp) (by simp)
  | extend =>
    refine .of_resize hk (by simp) ?_
    intro hn
    rw [offT_of_lt (offT_nonneg.1 hn)]
  | @cut u _ _ _ hu _ =>
    refine .of_resize hk (by simp) ?_
    intro hn
    rw [offT_of_lt (offT_nonneg.1 hn), hu.toNat_offset]
    exact Int.ofNat_le.2 hu.fits
  | memcpy _ hm _ => exact .stored (kernel_memcpy hk (Progress.proc_maps _ hm))
  | _ => exact .still (by simp [Event.Acts]) (kernel_still hk (Env.quiet_quiet _) (by simp [Call.Changes]))

theorem TargetStep.has {fs' : FS} {e : Event} (h : TargetStep path total fs fs' e)
    (hfs : fs.Has path (fs.bytes path) ∨ ∃ fd, e = ⟨.openFile path .rdwrCreat, some fd⟩) :
    fs'.Has path (fs'.bytes path) := by
  cases h with
  | opened hhas => exact hhas.self
  | resized _ _ hm =>
    obtain hfs | ⟨fd, he⟩ := hfs
    · exact (hfs.modify hm).self
    · cases he
  | stored hm =>
    obtain hfs | ⟨fd, he⟩ := hfs
    · exact (hfs.modify hm).self
    · cases he
  | still hacts heq =>
    obtain hfs | ⟨fd, rfl⟩ := hfs
    · rwa [heq]
    · exact absurd trivial hacts

/-- Only a resize makes the target shorter. -/
theorem TargetStep.length_le {fs' : FS} {e : Event} {k : Nat} (h : TargetStep path total fs fs' e)
    (hfs : fs.Has path (fs.bytes path)) (hk : k ≤ (fs.bytes path).length)
    (hcut : ∀ fd n why, e = ⟨.ftruncate fd n why, true⟩ → (k : Int) ≤ n) : k ≤ (fs'.bytes path).length := by
  cases h with
  | opened hhas => rwa [hhas.bytes]
  | @resized fd n why _ _ hm =>
    have := hcut fd n why rfl
    rw [(hfs.modify hm).bytes, length_resize]
    omega
  | stored hm => rwa [(hfs.modify hm).bytes, length_store]
  | still _ heq => rwa [heq]

/-- No step makes it longer than announced. -/
theorem TargetStep.length_le_size {fs' : FS} {k : Nat} (h : TargetStep path total fs fs' ⟨c, r⟩)
    (hk : total.toNat ≤ k) (hlen : (fs.bytes path).length ≤ k)
    (hhas : c.Changes → c ≠ .openFile path .rdwrCreat → fs.Has path (fs.bytes path)) : (fs'.bytes path).length ≤ k := by
  cases h with
  | opened hfs => rwa [hfs.bytes]
  | resized h0 hle hm =>
    rw [((hhas trivial (by simp)).modify hm).bytes, length_resize]
    omega
  | stored hm => rwa [((hhas trivial (by simp)).modify hm).bytes, length_store]
  | still _ heq => rwa [heq]

theorem TargetStep.nonneg {fs' : FS} {fd : Nat} {n : Int} {why : Resize}
    (h : TargetStep path total fs fs' ⟨.ftruncate fd n why, true⟩) : 0 ≤ n := by
  cases h with
  | resized h0 => exact h0
  | still hacts => exact absurd trivial hacts

/-! ## What the trace says -/

/-- The target has been opened, and so it is there. -/
def Opened (path : Bytes) (t : List Event) : Prop := ∃ fd, (⟨.openFile path .rdwrCreat, some fd⟩ : Event) ∈ t

/-- It has been extended and not been cut, so that it has the announced size. -/
def Extended (t : List Event) : Prop :=
  (∃ fd n, (⟨.ftruncate fd n .extend, true⟩ : Event) ∈ t) ∧ ∀ fd n r, (⟨.ftruncate fd n .cut, r⟩ : Event) ∉ t

/-- The target is mapped: extended, and neither unmapped nor closed. -/
def Live (t : List Event) : Prop :=
  (∃ fd n, (⟨.ftruncate fd n .extend, true⟩ : Event) ∈ t) ∧ (∀ m, (⟨.munmap m, ()⟩ : Event) ∉ t) ∧
    ∀ fd, (⟨.close fd, ()⟩ : Event) ∉ t

theorem mem_noted {e : Event} (h : e ∈ t ++ if c.traced then [⟨c, r⟩] else []) : e ∈ t ∨ e = ⟨c, r⟩ := by
  rcases List.mem_append.1 h with h | h
  · exact .inl h
  · split at h
    · exact .inr (List.mem_singleton.1 h)
    · cases h

theorem opened_noted (h : Opened path (t ++ if c.traced then [⟨c, r⟩] else [])) :
    Opened path t ∨ ∃ fd, (⟨.openFile path .rdwrCreat, some fd⟩ : Event) = ⟨c, r⟩ := by
  obtain ⟨fd, h⟩ := h
  rcases mem_noted h with h | h
  · exact .inl ⟨fd, h⟩
  · exact .inr ⟨fd, h⟩

theorem extended_noted (h : Extended (t ++ if c.traced then [⟨c, r⟩] else [])) :
    Extended t ∨ ∃ fd n, (⟨.ftruncate fd n .extend, true⟩ : Event) = ⟨c, r⟩ := by
  obtain ⟨⟨fd, n, h⟩, hcut⟩ := h
  rcases mem_noted h with h | h
  · exact .inl ⟨⟨fd, n, h⟩, fun fd n r hmem => hcut fd n r (List.mem_append_left _ hmem)⟩
  · exact .inr ⟨fd, n, h⟩

theorem live_noted (h : Live (t ++ if c.traced then [⟨c, r⟩] else [])) :
    Live t ∨ ∃ fd n, (⟨.ftruncate fd n .extend, true⟩ : Event) = ⟨c, r⟩ := by
  obtain ⟨⟨fd, n, h⟩, hmap, hclose⟩ := h
  rcases mem_noted h with h | h
  · exact .inl ⟨⟨fd, n, h⟩, fun m hmem => hmap m (List.mem_append_left _ hmem),
      fun fd hmem => hclose fd (List.mem_append_left _ hmem)⟩
  · exact .inr ⟨fd, n, h⟩

theorem open_mem_measured {fd : Nat} {st : Option Nat} :
    (⟨.openFile path .rdwrCreat, some fd⟩ : Event) ∈ measuredEvents path total fd st := by
  simp [measuredEvents, openedEvents]

/-- Until it has been resized or stored to, the target holds what it held. -/
theorem handlePuts_unacted {session : Session} {packet : Packet} {q : Io (Rc × Session)} {v : World}
    (ht : uploadTarget session packet = some (path, total))
    (hrun : Steps (kernel (.quiet faults)) (handlePuts session packet, ⟨fs, b⟩) (q, v)) :
    ∃ t, v.proc.trace = b.trace ++ t ∧
      ((∀ e ∈ t, e.Acts → ∃ fd, e = ⟨.openFile path .rdwrCreat, some fd⟩) → v.fs.bytes path = fs.bytes path) := by
  refine wp_keeps (I := fun v => ∃ t, v.proc.trace = b.trace ++ t ∧
    ((∀ e ∈ t, e.Acts → ∃ fd, e = ⟨.openFile path .rdwrCreat, some fd⟩) → v.fs.bytes path = fs.bytes path))
    (wp_handlePuts ht) ?_ ⟨[], (List.append_nil _).symm, fun _ => rfl⟩ hrun
  rintro ⟨fs₁, q₁⟩ c r v' hp hk ⟨t, htrace, hsame⟩
  refine ⟨t ++ if c.traced then [⟨c, r⟩] else [], by rw [kernel_traces hk, htrace, List.append_assoc], fun hno => ?_⟩
  have hbytes := hsame fun e he => hno e (List.mem_append_left _ he)
  have hlast (htraced : c.traced = true) (hacts : Event.Acts ⟨c, r⟩) := hno ⟨c, r⟩ (by simp [htraced]) hacts
  generalize he : (⟨c, r⟩ : Event) = e at hlast
  have hstep := targetStep hp hk
  rw [he] at hstep
  cases hstep with
  | opened hhas => rw [hhas.bytes, hbytes]
  | resized | stored =>
    cases he
    obtain ⟨_, h⟩ := hlast rfl trivial
    cases h
  | still _ hfs => rwa [hfs]

end Steps

/-! ### Runs to the extension -/

/-- A file of one byte. -/
def byteFile (x : UInt8) : Content := ⟨[x], by simp⟩

@[simp] theorem byteFile_bytes (x : UInt8) : (byteFile x).bytes = [x] := rfl

/-- No byte of the upload has been received. -/
theorem extends_run (faults : Call → Prop) :
    ∃ c, Steps (kernel (.quiet faults)) (handlePuts .start (requestF 1), ⟨fun _ => none, .init⟩) c ∧
      c.2.proc.rcvd = [] ∧ c.2.fs = FS.put (fun _ => none) (lit "../tests/f") (byteFile 0) := by
  obtain ⟨fileName, virtualPath, hinfo, hname, hpath⟩ := uploadTarget_eq_some.1 (uploadTarget_requestF 1)
  unfold handlePuts
  simp only [hinfo, hpath, if_neg hname]
  have hR : Backward (fed (.quiet faults) []) fun c => _ := backward_kernel fun c : Io (Rc × Session) × World =>
    c.2.proc.rcvd = [] ∧ c.2.fs = FS.put (fun _ => none) (lit "../tests/f") (byteFile 0)
  have hin : ([] : Bytes) <+: [] := List.prefix_refl _
  apply run_create hR hin 0 rfl rfl
  refine run_fstat hR hin (by simp [Proc.init]; rfl) rfl ?_
  apply run_sendResumePacket hR hin
  refine run_ftruncate (c := .empty) (d := byteFile 0) hR hin (by simp [Proc.init]; rfl) rfl (by decide) rfl ?_
  exact ⟨_, .refl, by simp [Proc.init], by simp⟩

/-- The calls of an upload to the target that is there. -/
def extendsThere : List Event :=
  [⟨.openFile (lit "../tests/f") .rdwrCreat, some 0⟩, ⟨.fstat 0, some 1⟩, ⟨.ftruncate 0 1 .extend, true⟩]

/-- Its extension comes last. -/
theorem before_extension {t events : List Event} {fd : Nat} {n : Int}
    (h : extendsThere = t ++ ⟨.ftruncate fd n .extend, true⟩ :: events) : t = extendsThere.take 2 ∧ n = 1 := by
  rcases t with _ | ⟨a, _ | ⟨b, _ | ⟨c, t⟩⟩⟩ <;> simp [extendsThere] at h
  obtain ⟨rfl, rfl, ⟨-, rfl⟩, -⟩ := h
  exact ⟨rfl, rfl⟩

/-- The target has the announced size, and keeps it. -/
theorem extendsThere_run (faults : Call → Prop) (x : UInt8) :
    ∃ c, Steps (kernel (.quiet faults))
        (handlePuts .start (requestF 1), ⟨FS.put (fun _ => none) (lit "../tests/f") (byteFile x), .init⟩) c ∧
      c.2.proc.trace = extendsThere ∧ c.2.fs = FS.put (fun _ => none) (lit "../tests/f") (byteFile x) := by
  obtain ⟨fileName, virtualPath, hinfo, hname, hpath⟩ := uploadTarget_eq_some.1 (uploadTarget_requestF 1)
  unfold handlePuts
  simp only [hinfo, hpath, if_neg hname]
  have hR : Backward (fed (.quiet faults) []) fun c => _ := backward_kernel fun c : Io (Rc × Session) × World =>
    c.2.proc.trace = extendsThere ∧ c.2.fs = FS.put (fun _ => none) (lit "../tests/f") (byteFile x)
  have hin : ([] : Bytes) <+: [] := List.prefix_refl _
  apply run_open hR hin 0 rfl
  refine run_fstat hR hin (by simp [Proc.init]; rfl) rfl ?_
  apply run_sendResumePacket hR hin
  refine run_ftruncate (d := byteFile x) hR hin (by simp [Proc.init]; rfl) rfl (by decide) rfl ?_
  exact ⟨_, .refl, by simp [Proc.init, extendsThere, offT], rfl⟩

end Server
end WindCloud
