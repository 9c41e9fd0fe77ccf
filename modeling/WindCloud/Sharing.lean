import WindCloud.Lib.Par
import WindCloud.Run
import WindCloud.UploadSteps
/-!
# Uploads that share a target

Any number of sessions run `handle_puts` on one path. Nothing keeps them apart: each measures the file, resizes it
and writes through a mapping of its own while the others do the same. What a session relies on is read off
the calls it has made (`calls`), so that the run lemmas speak of sessions that are at no call.

| here | there |
| --- | --- |
| `Roomy`, `roomLeft` | a live mapping lies inside the file: no `ftruncate` (`handle.c:616`, `:646`, `:734`) may cut into one |
-/

namespace WindCloud

open Interaction Prog FileImage

namespace Server

section Sharing

variable {ι : Type} [DecidableEq ι] {faults : Call → Prop} {path : Bytes} {total : ι → UInt64}
  {c₀ c : Threads Call Res FS Proc ι (Rc × Session)} {ok : StepOk Call Res FS Proc ι (Rc × Session)}
  {i j : ι} {e : Call} {r : Res e} {k : Res e → Io (Rc × Session)} {s : FS} {l : Proc} {p : Io (Rc × Session)}

/-- Every session uploads to `path`, session `i` a file of `total i` bytes. -/
def Uploading (path : Bytes) (total : ι → UInt64) (c₀ : Threads Call Res FS Proc ι (Rc × Session)) : Prop :=
  ∀ i, ∃ session packet, uploadTarget session packet = some (path, total i) ∧ c₀.prog i = handlePuts session packet

/-- Where a session stands when it makes a call. -/
theorem Uploading.point (h : Uploading path total c₀) (hrun : ParSteps (kernel (.quiet faults)) World.mk ok c₀ c)
    (hp : c.prog i = .call e k) : PutsPoint (.busy faults) (c₀.loc i) path (total i) (c.loc i) e := by
  obtain ⟨session, packet, ht, hprog⟩ := h i
  obtain ⟨fs, hsteps⟩ :
      ∃ s, Steps (kernel (.busy faults)) (c₀.prog i, ⟨c₀.shared, c₀.loc i⟩) (c.prog i, ⟨s, c.loc i⟩) := by
    refine Par.thread ?_ hrun i
    rintro s s₁ l e r w ⟨fs, -, v, he, rfl⟩
    exact ⟨fs, trivial, v, he, rfl⟩
  rw [hprog, hp] at hsteps
  exact (wp_steps (wp_handlePuts ht) hsteps).1

/-- The calls on files of session `i` in a run from `c₀`. -/
def calls (c₀ c : Threads Call Res FS Proc ι (Rc × Session)) (i : ι) : List Event :=
  (c.loc i).trace.drop (c₀.loc i).trace.length

omit [DecidableEq ι] in
theorem calls_self : calls c c i = [] := by simp [calls]

theorem calls_ne (hi : i ≠ j) : calls c₀ (c.put j s p l) i = calls c₀ c i := by simp [calls, Threads.put_loc_ne hi]

theorem calls_loop : calls c₀ (c.put j s p (c.loc j)) i = calls c₀ c i := by
  by_cases hi : i = j
  · subst hi
    simp [calls]
  · exact calls_ne hi

theorem trace_eq (hrun : ParSteps (kernel (.quiet faults)) World.mk ok c₀ c) (i : ι) :
    (c.loc i).trace = (c₀.loc i).trace ++ calls c₀ c i := by
  have hpre : (c₀.loc i).trace <+: (c.loc i).trace := by
    refine Par.keeps (I := fun c => (c₀.loc i).trace <+: (c.loc i).trace) (List.prefix_refl _) ?_ ?_ hrun
    · intro c₁ j e k r s l _ _ hs _ hpre
      by_cases hi : i = j
      · subst hi
        have ht : l.trace = _ := kernel_traces hs
        rw [Threads.put_loc_self, ht]
        exact hpre.trans (List.prefix_append _ _)
      · rwa [Threads.put_loc_ne hi]
    · intro c₁ j p _ hpre
      by_cases hi : i = j
      · subst hi
        rwa [Threads.put_loc_self]
      · rwa [Threads.put_loc_ne hi]
  obtain ⟨t, ht⟩ := hpre
  simp [calls, ← ht]

theorem calls_noted (hrun : ParSteps (kernel (.quiet faults)) World.mk ok c₀ c)
    (hs : kernel (.quiet faults) ⟨c.shared, c.loc j⟩ e r ⟨s, l⟩) :
    calls c₀ (c.put j s p l) j = calls c₀ c j ++ if e.traced then [⟨e, r⟩] else [] := by
  have ht : l.trace = (c.loc j).trace ++ _ := kernel_traces hs
  rw [calls, Threads.put_loc_self, ht, trace_eq hrun, List.append_assoc, List.drop_left]

/-- Once a session has opened the target it stays there. -/
theorem opened_next {n : UInt64} (hrun : ParSteps (kernel (.quiet faults)) World.mk ok c₀ c)
    (hs : kernel (.quiet faults) ⟨c.shared, c.loc j⟩ e r ⟨s, l⟩) (hstep : TargetStep path n c.shared s ⟨e, r⟩)
    (h : ∀ i, Opened path (calls c₀ c i) → c.shared.Has path (c.shared.bytes path)) (i : ι)
    (ho : Opened path (calls c₀ (c.put j s p l) i)) : s.Has path (s.bytes path) := by
  by_cases hi : i = j
  · subst hi
    rw [calls_noted hrun hs] at ho
    rcases opened_noted ho with ho | ⟨fd, he⟩
    · exact hstep.has (.inl (h i ho))
    · exact hstep.has (.inr ⟨fd, he.symm⟩)
  · rw [calls_ne hi] at ho
    exact hstep.has (.inl (h i ho))

/-! ## Mapped writes -/

/-- Steps that leave every other mapping its announced size. -/
def roomLeft (total : ι → UInt64) (c₀ : Threads Call Res FS Proc ι (Rc × Session)) :
    StepOk Call Res FS Proc ι (Rc × Session) := fun c j e r =>
  ∀ fd n why, (⟨.ftruncate fd n why, true⟩ : Event) = ⟨e, r⟩ → ∀ i, i ≠ j → Live (calls c₀ c i) → (total i).toNat ≤ n

/-- An open target is there, and as long as every live mapping. -/
structure Roomy (path : Bytes) (total : ι → UInt64) (c₀ c : Threads Call Res FS Proc ι (Rc × Session)) : Prop where
  opened : ∀ i, Opened path (calls c₀ c i) → c.shared.Has path (c.shared.bytes path)
  room : ∀ i, Live (calls c₀ c i) →
    c.shared.Has path (c.shared.bytes path) ∧ (total i).toNat ≤ (c.shared.bytes path).length

omit [DecidableEq ι] in
theorem Roomy.start : Roomy path total c₀ c₀ where
  opened i h := by simp [calls_self, Opened] at h
  room i h := by simp [calls_self, Live] at h

section Points

variable {env : Env} {b q : Proc} {total : UInt64} {t : List Event} {fd : Nat} {n : Int} {why : Resize}

/-- Without a mapping the target has not been extended. -/
theorem Recorded.not_extend {ok : Bool} (h : Recorded path total none ⟨.ftruncate fd n .extend, ok⟩) : False := by
  cases h with
  | extend h => exact h rfl

theorem PutsPoint.extends (hp : PutsPoint env b path total q (.ftruncate fd n .extend)) (ht : q.trace = b.trace ++ t) :
    Opened path t ∧ n = offT total := by
  cases hp with
  | extend =>
    obtain rfl : _ = t := List.append_cancel_left ht
    exact ⟨⟨fd, open_mem_measured⟩, rfl⟩

/-- The session has no mapping yet where it resets the target, and none any more where it cuts it. -/
theorem PutsPoint.not_live (hp : PutsPoint env b path total q (.ftruncate fd n why)) (ht : q.trace = b.trace ++ t) :
    ¬ Live t := by
  rintro ⟨⟨fd', n', h⟩, hmap, -⟩
  cases hp with
  | extend =>
    obtain rfl : _ = t := List.append_cancel_left ht
    exact (mem_measured h).not_extend
  | reset =>
    obtain rfl : _ = t := List.append_cancel_left ht
    simp [openedEvents] at h
  | @cut u =>
    obtain rfl : _ = t := List.append_cancel_left ht
    rcases hm : u.map with _ | m
    · simp only [hm, unmappedEvents, List.append_nil] at h
      exact (hm ▸ Progress.mem_trace h : Recorded path total none _).not_extend
    · exact hmap m (by simp [unmappedEvents, hm])

/-- In its receive loop a session has the target mapped. -/
theorem live_trace {u : Progress} {m : Nat} (hm : u.map = some m) : Live (u.trace path total) := by
  refine ⟨⟨u.fd, offT total, by simp [Progress.trace, mappedEvents, hm]⟩, fun m' h => ?_, fun fd h => ?_⟩
  · cases Progress.mem_trace h
  · cases Progress.mem_trace h

end Points

/-- What a step of one of the uploads keeps. -/
theorem Roomy.next (hup : Uploading path total c₀) (hrun : ParSteps (kernel (.quiet faults)) World.mk ok c₀ c)
    (hp : c.prog j = .call e k) (hs : kernel (.quiet faults) ⟨c.shared, c.loc j⟩ e r ⟨s, l⟩)
    (hok : roomLeft total c₀ c j e r) (h : Roomy path total c₀ c) : Roomy path total c₀ (c.put j s p l) := by
  have hpoint := hup.point hrun hp
  have hstep : TargetStep path (total j) c.shared s ⟨e, r⟩ := targetStep hpoint hs
  have hcalls : calls c₀ (c.put j s p l) j = _ := calls_noted hrun hs
  refine ⟨opened_next hrun hs hstep h.opened, fun i hl => ?_⟩
  · rw [Threads.put_shared]
    by_cases hi : i = j
    · subst hi
      rw [hcalls] at hl
      rcases live_noted hl with hlive | ⟨fd, n, he⟩
      · obtain ⟨hhas, hlen⟩ := h.room i hlive
        refine ⟨hstep.has (.inl hhas), hstep.length_le hhas hlen fun fd n why he => ?_⟩
        cases he
        exact absurd hlive (hpoint.not_live (trace_eq hrun i))
      · cases he
        obtain ⟨ho, hn⟩ := hpoint.extends (trace_eq hrun i)
        have hhas := h.opened i ho
        cases hstep with
        | resized h0 _ hm =>
          have hto := hhas.modify hm
          subst hn
          rw [offT_of_lt (offT_nonneg.1 h0), Int.toNat_natCast] at hto
          exact ⟨hto.self, by rw [hto.bytes, length_resize]⟩
        | still hacts => exact absurd trivial hacts
    · rw [calls_ne hi] at hl
      obtain ⟨hhas, hlen⟩ := h.room i hl
      exact ⟨hstep.has (.inl hhas), hstep.length_le hhas hlen fun fd n why he => hok fd n why he.symm i hi hl⟩

/-- **Mapped writes stay inside the file**, whatever the announced sizes and the order of the steps, if no `ftruncate`
cuts into the mapping of another session. -/
theorem handlePuts_copiesInside (hup : Uploading path total c₀)
    (hrun : ParSteps (kernel (.quiet faults)) World.mk (roomLeft total c₀) c₀ c) {m off : Nat} {data : Bytes}
    {k : Unit → Io (Rc × Session)} (hp : c.prog i = .call (.memcpy m off data) k) :
    ∃ file, (c.loc i).maps m = some ⟨path, (total i).toNat⟩ ∧ c.shared.Has path file ∧
      off + data.length ≤ file.length := by
  have hroomy : Roomy path total c₀ c := by
    refine Par.keeps .start ?_ ?_ hrun
    · intro c₁ j e k r s l hrun₁ hp₁ hs hok h
      exact h.next hup hrun₁ hp₁ hs hok
    · intro c₁ j p _ h
      exact ⟨fun i ho => h.opened i (by rwa [calls_loop] at ho), fun i hl => h.room i (by rwa [calls_loop] at hl)⟩
  have hpoint := hup.point hrun hp
  have htrace := trace_eq hrun i
  generalize c.loc i = q at hpoint htrace ⊢
  cases hpoint with
  | @memcpy u p m hu hm hne =>
    obtain hcalls : u.trace path (total i) = calls c₀ c i :=
      List.append_cancel_left ((Progress.proc_trace _).symm.trans htrace)
    have hlive : Live (calls c₀ c i) := hcalls ▸ live_trace hm
    obtain ⟨hhas, hlen⟩ := hroomy.room i hlive
    have hfits := hu.fits
    rw [Progress.add_offset] at hfits
    exact ⟨_, Progress.proc_maps _ hm, hhas, hfits.trans hlen⟩

end Sharing

/-! ### Runs of two uploads -/

section Runs

variable {ι : Type}

/-- The file has been extended to its one byte, which has arrived. -/
theorem copies_run (faults : Call → Prop) :
    ∃ c, Steps (kernel (.quiet faults)) (handlePuts .start (requestF 1), ⟨fun _ => none, .init⟩) c ∧
      (∃ k, c.1 = .call (.memcpy 0 0 [1]) k) ∧
      c.2.fs = FS.put (fun _ => none) (lit "../tests/f") (byteFile 0) := by
  obtain ⟨fileName, virtualPath, hinfo, hname, hpath⟩ := uploadTarget_eq_some.1 (uploadTarget_requestF 1)
  unfold handlePuts
  simp only [hinfo, hpath, if_neg hname]
  have hR : Backward (fed (.quiet faults) (Packet.of .fileData .ok [1]).wire) fun c => _ :=
    backward_kernel fun c : Io (Rc × Session) × World => (∃ k, c.1 = .call (.memcpy 0 0 [1]) k) ∧
      c.2.fs = FS.put (fun _ => none) (lit "../tests/f") (byteFile 0)
  have hin : ([] : Bytes) <+: (Packet.of .fileData .ok [1]).wire := List.nil_prefix
  have hv : (Packet.of .fileData .ok [1]).Valid := Packet.of_valid _ _ (by decide)
  apply run_create hR hin 0 rfl rfl
  refine run_fstat hR hin (by simp [Proc.init]; rfl) rfl ?_
  apply run_sendResumePacket hR hin
  refine run_ftruncate (c := .empty) (d := byteFile 0) hR hin (by simp [Proc.init]; rfl) rfl (by decide) rfl ?_
  apply run_mmap hR hin 0 (by simp [Proc.init]; rfl) (by simp [Proc.init])
  apply hR.iter
  rw [bind_assoc]
  apply run_recvFollowPacket hR hv (by simp [Proc.init])
  exact ⟨_, .refl, ⟨_, rfl⟩, by simp⟩

/-- Another session empties it. -/
theorem resets_run (faults : Call → Prop) :
    ∃ c, Steps (kernel (.quiet faults))
        (handlePuts .start (requestF 0), ⟨FS.put (fun _ => none) (lit "../tests/f") (byteFile 0), .init⟩) c ∧
      c.2.fs.bytes (lit "../tests/f") = [] := by
  obtain ⟨fileName, virtualPath, hinfo, hname, hpath⟩ := uploadTarget_eq_some.1 (uploadTarget_requestF 0)
  unfold handlePuts
  simp only [hinfo, hpath, if_neg hname]
  have hR : Backward (fed (.quiet faults) []) fun c => _ :=
    backward_kernel fun c : Io (Rc × Session) × World => c.2.fs.bytes (lit "../tests/f") = []
  have hin : ([] : Bytes) <+: [] := List.prefix_refl _
  apply run_open hR hin 0 rfl
  refine run_fstat hR hin (by simp [Proc.init]; rfl) rfl ?_
  refine run_ftruncate (d := .empty) hR hin (by simp [Proc.init]; rfl) rfl (by decide) rfl ?_
  exact ⟨_, .refl, by simp [Content.empty]⟩

/-- Sessions that upload to one file. -/
def uploadsF (fs : FS) (size : ι → UInt64) : Threads Call Res FS Proc ι (Rc × Session) where
  shared := fs
  prog i := handlePuts .start (requestF (size i))
  loc _ := .init

theorem uploadsF_prog {fs : FS} {size : ι → UInt64} {n : UInt64} {i : ι} (h : size i = n) :
    (uploadsF fs size).prog i = handlePuts .start (requestF n) := by
  rw [← h, uploadsF]

/-- While one of them has made steps the others are where they were. -/
theorem uploadsF_others [DecidableEq ι] {fs fs' : FS} {size : ι → UInt64} {n : UInt64} {i j : ι}
    {p : Io (Rc × Session)} {l : Proc} (hij : j ≠ i) (h : size j = n) :
    ((uploadsF fs size).put i fs' p l).prog j = handlePuts .start (requestF n) ∧
      ((uploadsF fs size).put i fs' p l).loc j = .init :=
  ⟨(Threads.put_prog_ne hij).trans (uploadsF_prog h), Threads.put_loc_ne hij⟩

theorem uploading_uploadsF (fs : FS) (size : ι → UInt64) : Uploading (lit "../tests/f") size (uploadsF fs size) := fun i =>
  ⟨.start, requestF (size i), uploadTarget_requestF _, uploadsF_prog rfl⟩

def sizes (n m : UInt64) (i : Bool) : UInt64 := if i then n else m

/-- A block is about to be copied into a file that has become empty. -/
theorem handlePuts_copiesOutside :
    Uploading (lit "../tests/f") (sizes 1 0) (uploadsF (fun _ => none) (sizes 1 0)) ∧ ∃ c,
      ParSteps (kernel (.quiet fun _ => False)) World.mk (fun _ _ _ _ => True) (uploadsF (fun _ => none) (sizes 1 0)) c ∧
      (∃ k, c.prog true = .call (.memcpy 0 0 [1]) k) ∧
      ¬ ∃ file, c.shared.Has (lit "../tests/f") file ∧ 0 + [1].length ≤ file.length := by
  obtain ⟨⟨p, w⟩, hcopies, ⟨k, rfl⟩, hfs⟩ := copies_run fun _ => False
  obtain ⟨⟨p', w'⟩, hresets, hempty⟩ := resets_run fun _ => False
  let c₁ := (uploadsF (fun _ => none) (sizes 1 0)).put true w.fs (.call (.memcpy 0 0 [1]) k) w.proc
  have h₁ : ParSteps (kernel (.quiet fun _ => False)) World.mk (fun _ _ _ _ => True)
      (uploadsF (fun _ => none) (sizes 1 0)) c₁ :=
    runs_alone (uploadsF_prog (by rfl)) rfl rfl (fun _ _ _ => trivial) hcopies
  obtain ⟨hprog, hloc⟩ : c₁.prog false = handlePuts .start (requestF 0) ∧ c₁.loc false = .init :=
    uploadsF_others (by simp) (by rfl)
  have h₂ : ParSteps (kernel (.quiet fun _ => False)) World.mk (fun _ _ _ _ => True) c₁ (c₁.put false w'.fs p' w'.proc) :=
    runs_alone hprog hfs hloc (fun _ _ _ => trivial) hresets
  refine ⟨uploading_uploadsF _ _, _, h₁.trans h₂, ⟨k, ?_⟩, ?_⟩
  · rw [Threads.put_prog_ne (by simp), Threads.put_prog_self]
  · rintro ⟨file, hfile, hlen⟩
    obtain rfl : [] = file := hempty.symm.trans hfile.bytes
    simp at hlen

/-- Two sessions upload a byte each. While the first one has the target mapped the second one extends it to the same
size. -/
theorem handlePuts_copiesInside_both : ∃ c : Threads Call Res FS Proc Bool (Rc × Session), ∃ file,
    (c.loc false).trace = extendsThere ∧ (c.loc true).maps 0 = some ⟨lit "../tests/f", 1⟩ ∧
      c.shared.Has (lit "../tests/f") file ∧ 0 + [1].length ≤ file.length := by
  obtain ⟨⟨p, w⟩, hcopies, ⟨k, rfl⟩, hfs⟩ := copies_run fun _ => False
  obtain ⟨⟨p', w'⟩, hextends, htrace, -⟩ := extendsThere_run (fun _ => False) 0
  let c₀ := uploadsF (fun _ => none) fun _ : Bool => 1
  let c₁ := c₀.put true w.fs (.call (.memcpy 0 0 [1]) k) w.proc
  have hprog₀ : c₀.prog true = handlePuts .start (requestF 1) := uploadsF_prog rfl
  have h₁ : ParSteps (kernel (.quiet fun _ => False)) World.mk (roomLeft (fun _ => 1) c₀) c₀ c₁ := by
    refine runs_alone hprog₀ rfl rfl ?_ hcopies
    intro s l e k r v _ _ _ fd n why _ i hi hlive
    have hnone : calls c₀ (c₀.put true s (.call e k) l) i = [] := (calls_ne hi).trans calls_self
    rw [hnone] at hlive
    simp [Live] at hlive
  obtain ⟨hprog, hloc⟩ : c₁.prog false = handlePuts .start (requestF 1) ∧ c₁.loc false = .init :=
    uploadsF_others (by simp) rfl
  have h₂ : ParSteps (kernel (.quiet fun _ => False)) World.mk (roomLeft (fun _ => 1) c₀) c₁
      (c₁.put false w'.fs p' w'.proc) := by
    refine runs_alone hprog hfs hloc ?_ hextends
    rintro s l e k r v - hs hrest fd n why ⟨⟩ i - -
    have hmem := mem_through hs rfl hrest
    rw [htrace] at hmem
    obtain ⟨-, rfl, -⟩ : fd = 0 ∧ n = 1 ∧ why = .extend := by simpa [extendsThere] using hmem
    exact le_refl 1
  have hmemcpy : (c₁.put false w'.fs p' w'.proc).prog true = .call (.memcpy 0 0 [1]) k := by
    rw [Threads.put_prog_ne (by simp), Threads.put_prog_self]
  obtain ⟨file, h⟩ := handlePuts_copiesInside (uploading_uploadsF _ _) (h₁.trans h₂) hmemcpy
  exact ⟨_, file, by rw [Threads.put_loc_self, htrace], h⟩

end Runs

end Server
end WindCloud
