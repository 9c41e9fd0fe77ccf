import WindCloud.Stream
/-!
# Programs that work on one file

A call on the file at `path` (`OnFile`) depends on nothing else of the file system and shows
nowhere else (`effect_at`). So where others leave that file alone, a program that makes only such
calls runs as if it had the file system to itself (`steps_onFile`).
-/

namespace WindCloud

open Interaction Prog FileImage

/-- The call reads and changes no file but the one at `path`. -/
def OnFile (path : Bytes) (p : Proc) : Call → Prop
  | .opendir q | .remove q | .mkdir q | .openFile q _ => q = path
  | .fstat fd | .ftruncate fd .. | .read fd _ | .write fd _ | .sendfile fd .. => ∀ f, p.fds fd = some f → f.path = path
  | .memcpy m .. => ∀ mp, p.maps m = some mp → mp.path = path
  | _ => True

/-- Others leave the file at `path` alone. -/
def Env.Leaves (env : Env) (path : Bytes) : Prop := ∀ {fs fs'}, env.rely fs fs' → fs' path = fs path

section OnFile

variable {env : Env} {faults : Call → Prop} {path : Bytes} {fs fs' : FS} {p : Proc} {c : Call} {r : Res c} {u : World}

theorem FS.Has.congr {b : Bytes} (h : fs path = fs' path) : fs.Has path b ↔ fs'.Has path b := by
  simp only [FS.Has, h]

theorem FS.Modify.at {g : Bytes → Bytes} {fs₁ : FS} (hm : fs.Modify path g fs₁) (h : fs path = fs' path) :
    ∃ fs₁', fs'.Modify path g fs₁' ∧ fs₁' path = fs₁ path := by
  unfold FS.Modify at hm ⊢
  rw [← h]
  split at hm
  · obtain ⟨c, hc, rfl⟩ := hm
    exact ⟨_, ⟨c, hc, rfl⟩, by simp⟩
  · exact ⟨fs', rfl, by rw [hm, h]⟩

/-- What such a call answers and does, it can answer and do in any file system with the same file. -/
theorem effect_at (he : Effect faults ⟨fs, p⟩ c r u) (hc : OnFile path p c) (h : fs path = fs' path) :
    ∃ u', Effect faults ⟨fs', p⟩ c r u' ∧ u.proc = u'.proc ∧ u.fs path = u'.fs path := by
  -- the answers that leave the file system are given in the other one too
  have keep (hfs : u.fs = fs) (he' : Effect faults ⟨fs', p⟩ c r ⟨fs', u.proc⟩) :
      ∃ u', Effect faults ⟨fs', p⟩ c r u' ∧ u.proc = u'.proc ∧ u.fs path = u'.fs path :=
    ⟨_, he', rfl, by rw [hfs, h]⟩
  have hhas {q b : Bytes} (hq : q = path) : fs'.Has q b ↔ fs.Has q b := hq ▸ FS.Has.congr h.symm
  cases c with
  | openFile q mode =>
    obtain rfl : q = path := hc
    cases mode with
    | rdonly =>
      cases r with
      | none => exact keep (by rw [he.2]) ⟨he.1, by rw [he.2]⟩
      | some fd => exact keep (by rw [he.2.2]) ⟨show fs' q ≠ none from h ▸ he.1, he.2.1, by rw [he.2.2]⟩
    | rdwrCreat =>
      cases r with
      | none => exact keep (by rw [he.2]) ⟨he.1, by rw [he.2]⟩
      | some fd =>
        obtain ⟨hdir, hfd, rfl⟩ := he
        exact ⟨_, ⟨show fs' q ≠ some .dir from h ▸ hdir, hfd, rfl⟩, rfl, by simp [h]⟩
  | opendir q =>
    obtain rfl : q = path := hc
    cases r with
    | none => exact keep (by rw [he.2]) ⟨he.1, by rw [he.2]⟩
    | some d =>
      obtain ⟨names, hdir, hd, rfl⟩ := he
      exact keep rfl ⟨names, show fs' q = some .dir from h ▸ hdir, hd, rfl⟩
  | remove q =>
    obtain rfl : q = path := hc
    cases r with
    | false => exact keep (by rw [he.2]) ⟨he.1, by rw [he.2]⟩
    | true =>
      obtain ⟨hne, rfl⟩ := he
      exact ⟨_, ⟨show fs' q ≠ none from h ▸ hne, rfl⟩, rfl, by simp⟩
  | mkdir q =>
    obtain rfl : q = path := hc
    cases r with
    | false => exact keep (by rw [he.2]) ⟨he.1, by rw [he.2]⟩
    | true =>
      obtain ⟨hnone, rfl⟩ := he
      exact ⟨_, ⟨show fs' q = none from h ▸ hnone, rfl⟩, rfl, by simp⟩
  | fstat fd =>
    cases r with
    | none => exact keep (by rw [he.2]) ⟨he.1, by rw [he.2]⟩
    | some n =>
      obtain ⟨f, hf, hn, hb, rfl⟩ := he
      exact keep rfl ⟨f, hf, hn, fun b hb' => hb b ((hhas (hc f hf)).1 hb'), rfl⟩
  | ftruncate fd len why =>
    cases r with
    | false => exact keep (by rw [he.2]) ⟨he.1, by rw [he.2]⟩
    | true =>
      obtain ⟨f, fs₁, hf, hlen, hm, rfl⟩ := he
      obtain rfl := hc f hf
      obtain ⟨fs₁', hm', heq⟩ := hm.at h
      exact ⟨_, ⟨f, fs₁', hf, hlen, hm', rfl⟩, rfl, heq.symm⟩
  | read fd n =>
    rcases r with _ | _ | bs
    · exact keep (by rw [he]) (by rw [he]; rfl)
    · exact keep (by rw [he.2]) ⟨he.1, by rw [he.2]⟩
    · obtain ⟨f, hf, hdir, hlen, hb, rfl⟩ := he
      have hdir' : fs' f.path ≠ some .dir := (hc f hf ▸ h : fs f.path = fs' f.path) ▸ hdir
      exact keep rfl ⟨f, hf, hdir', hlen, fun b hb' => hb b ((hhas (hc f hf)).1 hb'), rfl⟩
  | write fd buf =>
    rcases r with _ | _ | m
    · exact keep (by rw [he]) (by rw [he]; rfl)
    · exact keep (by rw [he.2]) ⟨he.1, by rw [he.2]⟩
    · obtain ⟨f, fs₁, hf, hlen, h0, hm, rfl⟩ := he
      obtain rfl := hc f hf
      obtain ⟨fs₁', hm', heq⟩ := hm.at h
      exact ⟨_, ⟨f, fs₁', hf, hlen, h0, hm', rfl⟩, rfl, heq.symm⟩
  | sendfile fd off n =>
    rcases r with _ | _ | m
    · exact keep (by rw [he]) (by rw [he]; rfl)
    · exact keep (by rw [he.2]) ⟨he.1, by rw [he.2]⟩
    · obtain ⟨f, bs, hf, hdir, hoff, hlen, hn, hb, rfl⟩ := he
      have hdir' : fs' f.path ≠ some .dir := (hc f hf ▸ h : fs f.path = fs' f.path) ▸ hdir
      exact keep rfl ⟨f, bs, hf, hdir', hoff, hlen, hn, fun b hb' => hb b ((hhas (hc f hf)).1 hb'), rfl⟩
  | memcpy m off data =>
    obtain ⟨mp, fs₁, hmp, hm, rfl⟩ := he
    obtain rfl := hc mp hmp
    obtain ⟨fs₁', hm', heq⟩ := hm.at h
    exact ⟨_, ⟨mp, fs₁', hmp, hm', rfl⟩, rfl, heq.symm⟩
  | recv wait n =>
    rcases r with _ | _ | bs
    · exact keep (by rw [he]) (by rw [he]; rfl)
    · exact keep (by rw [he.2]) ⟨he.1, by rw [he.2]⟩
    · exact keep (by rw [he.2.2]) ⟨he.1, he.2.1, by rw [he.2.2]⟩
  | send buf =>
    rcases r with _ | _ | m
    · exact keep (by rw [he]) (by rw [he]; rfl)
    · exact keep (by rw [he.2]) ⟨he.1, by rw [he.2]⟩
    · exact keep (by rw [he.2.2]) ⟨he.1, he.2.1, by rw [he.2.2]⟩
  | calloc n => exact keep (by rw [he.2]) ⟨he.1, by rw [he.2]⟩
  | readdir d =>
    cases r with
    | none => exact keep (by rw [he.2]) ⟨he.1, by rw [he.2]⟩
    | some name =>
      obtain ⟨names, hd, rfl⟩ := he
      exact keep rfl ⟨names, hd, rfl⟩
  | closedir d | close fd | munmap m =>
    obtain rfl := he
    exact keep rfl rfl
  | lseek fd off =>
    cases r with
    | false => exact keep (by rw [he.2]) ⟨he.1, by rw [he.2]⟩
    | true =>
      obtain ⟨f, hf, hoff, rfl⟩ := he
      exact keep rfl ⟨f, hf, hoff, rfl⟩
  | mmap fd len =>
    cases r with
    | none => exact keep (by rw [he.2]) ⟨he.1, by rw [he.2]⟩
    | some m =>
      obtain ⟨f, hf, hm, rfl⟩ := he
      exact keep rfl ⟨f, hf, hm, rfl⟩

theorem kernel_at {w w' v : World} (hown : env.Leaves path) (hk : kernel env w c r w') (hc : OnFile path w.proc c)
    (hp : w.proc = v.proc) (h : w.fs path = v.fs path) :
    ∃ v', kernel (.quiet env.faults) v c r v' ∧ w'.proc = v'.proc ∧ w'.fs path = v'.fs path := by
  obtain ⟨fs₁, hr, u, he, rfl⟩ := hk
  obtain ⟨u', he', hproc, hfile⟩ := effect_at he hc ((hown hr).trans h)
  rw [hp] at he'
  refine ⟨_, ⟨v.fs, rfl, u', he', rfl⟩, ?_⟩
  split
  · exact ⟨by rw [hproc], hfile⟩
  · exact ⟨hproc, hfile⟩

/-- **Locality**: a program that makes only such calls runs as if nobody else used the file system. -/
theorem steps_onFile {α : Type} {p p' : Io α} {Q : α → World → Prop} {w w' : World} {avail : Bytes}
    (hown : env.Leaves path) (hwp : wp (kernel env.ending) (fun v c => OnFile path v.proc c) p Q w)
    (hs : Steps (streamed env avail) (p, w) (p', w')) :
    ∃ fs, Steps (streamed (.quiet env.faults) avail) (p, w) (p', ⟨fs, w'.proc⟩) ∧ w'.fs path = fs path := by
  have hwp' : wp (streamed env avail) (fun v c => OnFile path v.proc c) p Q w :=
    wp_weaken hwp (fun _ _ _ _ h => h.1) fun _ _ => id
  have hstep (u : World) (c : Call) (r : Res c) (u' v : World) (hc : OnFile path u.proc c)
      (hk : streamed env avail u c r u') (h : u.proc = v.proc ∧ u.fs path = v.fs path) :
      ∃ v', streamed (.quiet env.faults) avail v c r v' ∧ u'.proc = v'.proc ∧ u'.fs path = v'.fs path := by
    obtain ⟨hk, hin, hdry⟩ := hk
    have hown' : env.ending.Leaves path := hown
    obtain ⟨v', hk', hp', hfile⟩ := kernel_at hown' hk hc h.1 h.2
    exact ⟨v', ⟨hk', hp' ▸ hin, h.1 ▸ hdry⟩, hp', hfile⟩
  obtain ⟨v', hrun, hproc, hfile⟩ := wp_sim hwp' hstep hs ⟨rfl, rfl⟩
  exact ⟨v'.fs, by rw [hproc]; exact hrun, hfile⟩

end OnFile
end WindCloud
