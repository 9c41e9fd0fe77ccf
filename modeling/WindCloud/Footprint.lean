import Mathlib.Data.Set.BooleanAlgebra
import Mathlib.Order.CompletePartialOrder
import WindCloud.PathJail
import WindCloud.Locality
import WindCloud.Handles
import WindCloud.Lib.Par
/-!
# What a call touches

A call touches at most one path (`Call.touches`): the one it is given, or that of the file behind its handle. It
shows nowhere else (`effect_elsewhere`), and what it answers depends on nothing else (`effect_touches`).

A path is named once, by `opendir`, `remove`, `mkdir` or `open`; all that follows goes by handles, which keep it
(`OnlyIn`).
-/

namespace WindCloud

open Interaction Prog FileImage

/-- The path whose file a call reads or changes. -/
def Call.touches (p : Proc) : Call → Option Bytes
  | .opendir q | .remove q | .mkdir q | .openFile q _ => some q
  | .fstat fd | .ftruncate fd .. | .read fd _ | .write fd _ | .sendfile fd .. => (p.fds fd).map OpenFile.path
  | .memcpy m .. => (p.maps m).map Mapping.path
  | _ => none

/-- A call that names paths of `zone` only. -/
def Call.Names (zone : Set Bytes) (c : Call) : Prop := ∀ q, c.path? = some q → q ∈ zone

/-- All open files and all mappings are of files in `zone`. -/
structure OnlyIn (zone : Set Bytes) (p : Proc) : Prop where
  fds : ∀ fd f, p.fds fd = some f → f.path ∈ zone
  maps : ∀ m mp, p.maps m = some mp → mp.path ∈ zone

section Effects

variable {env : Env} {faults : Call → Prop} {zone : Set Bytes} {path q : Bytes} {fs fs' : FS} {w w' : World}
  {p : Proc} {c : Call} {r : Res c}

/-- A process that has just begun holds nothing. -/
theorem init_handles : Proc.init.handles = ∅ := by
  ext h
  cases h <;> simp [mem_handles, Handle.IsOpen, Proc.init]

theorem OnlyIn.of_bare (h : p.handles = ∅) : OnlyIn zone p where
  fds fd f hf := by
    have hmem : Handle.file fd ∈ p.handles := by simp [mem_handles, Handle.IsOpen, hf]
    simp [h] at hmem
  maps m mp hm := by
    have hmem : Handle.map m ∈ p.handles := by simp [mem_handles, Handle.IsOpen, hm]
    simp [h] at hmem

theorem fds_setFd (p : Proc) (fd fd' : Nat) (f : Option OpenFile) :
    (p.setFd fd f).fds fd' = if fd' = fd then f else p.fds fd' := Function.update_apply ..

theorem maps_setMap (p : Proc) (m m' : Nat) (mp : Option Mapping) :
    (p.setMap m mp).maps m' = if m' = m then mp else p.maps m' := Function.update_apply ..

/-- An open file was open before under its path, or is opened under it now. -/
theorem effect_fds (he : Effect faults w c r w') {fd : Nat} {f : OpenFile} (hf : w'.proc.fds fd = some f) :
    (∃ g, w.proc.fds fd = some g ∧ g.path = f.path) ∨ c.path? = some f.path := by
  unfold Effect at he
  split at he <;> grind [fds_setFd, Proc.setDir, Proc.setMap, Proc.addRcvd, Proc.addSent, Call.path?]

/-- A mapping is of a file that was mapped or open before. -/
theorem effect_maps (he : Effect faults w c r w') {m : Nat} {mp : Mapping} (hm : w'.proc.maps m = some mp) :
    w.proc.maps m = some mp ∨ ∃ fd f, w.proc.fds fd = some f ∧ f.path = mp.path := by
  unfold Effect at he
  split at he <;> grind [Proc.setFd, Proc.setDir, maps_setMap, Proc.addRcvd, Proc.addSent]

/-- Nothing else is opened by a call that names nothing else. -/
theorem OnlyIn.effect (h : OnlyIn zone w.proc) (he : Effect faults w c r w') (hc : c.Names zone) :
    OnlyIn zone w'.proc where
  fds fd f hf := by
    rcases effect_fds he hf with ⟨g, hg, hpath⟩ | hnamed
    · exact hpath ▸ h.fds fd g hg
    · exact hc _ hnamed
  maps m mp hm := by
    rcases effect_maps he hm with hmap | ⟨fd, f, hf, hpath⟩
    · exact h.maps m mp hmap
    · exact hpath ▸ h.fds fd f hf

theorem OnlyIn.kernel (h : OnlyIn zone w.proc) (hk : kernel env w c r w') (hc : c.Names zone) : OnlyIn zone w'.proc := by
  obtain ⟨fs, -, v, he, rfl⟩ := hk
  have hw : OnlyIn zone (World.mk fs w.proc).proc := h
  have hv : OnlyIn zone v.proc := hw.effect he hc
  split
  · exact ⟨hv.fds, hv.maps⟩
  · exact hv

theorem OnlyIn.touches (h : OnlyIn zone p) (hc : c.Names zone) (hq : c.touches p = some q) : q ∈ zone := by
  cases c with
  | opendir | remove | mkdir | openFile => exact hc q hq
  | fstat fd | ftruncate fd | read fd | write fd | sendfile fd =>
    obtain ⟨f, hf, rfl⟩ := Option.map_eq_some_iff.1 hq
    exact h.fds fd f hf
  | memcpy m =>
    obtain ⟨mp, hm, rfl⟩ := Option.map_eq_some_iff.1 hq
    exact h.maps m mp hm
  | _ => cases hq

/-! ## Nothing else is changed, or looked at -/

theorem FS.Modify.elsewhere {g : Bytes → Bytes} (h : fs.Modify path g fs') (hq : q ≠ path) : fs' q = fs q := by
  unfold FS.Modify at h
  split at h
  · obtain ⟨c, -, rfl⟩ := h
    exact Function.update_of_ne hq ..
  · rw [h]

theorem effect_elsewhere (he : Effect faults w c r w') (hq : c.touches w.proc ≠ some q) : w'.fs q = w.fs q := by
  have henv : Effect (Env.quiet faults).faults w c r w' := he
  by_cases hch : c.Changes
  · cases c with
    | remove p | mkdir p =>
      have hp : q ≠ p := fun h => hq (h ▸ rfl)
      cases r with
      | false => rw [he.2]
      | true => simp only [he.2, Function.update_of_ne hp]
    | openFile p mode =>
      have hp : q ≠ p := fun h => hq (h ▸ rfl)
      cases mode with
      | rdonly => cases hch
      | rdwrCreat =>
        cases r with
        | none => rw [he.2]
        | some fd => simp only [he.2.2, Function.update_of_ne hp]
    | ftruncate fd len why =>
      cases r with
      | false => rw [he.2]
      | true =>
        obtain ⟨f, fs, hf, -, hm, rfl⟩ := he
        exact hm.elsewhere fun h => hq (by simp [Call.touches, hf, h])
    | write fd buf =>
      rcases r with _ | _ | m
      · rw [he]
      · rw [he.2]
      · obtain ⟨f, fs, hf, -, -, hm, rfl⟩ := he
        exact hm.elsewhere fun h => hq (by simp [Call.touches, hf, h])
    | memcpy m off data =>
      obtain ⟨mp, fs, hmp, hm, rfl⟩ := he
      exact hm.elsewhere fun h => hq (by simp [Call.touches, hmp, h])
    | _ => cases hch
  · rw [effect_still henv hch]

theorem kernel_elsewhere (hk : kernel (.quiet faults) w c r w') (hq : w'.fs q ≠ w.fs q) :
    c.touches w.proc = some q ∧ c.Changes := by
  refine ⟨?_, ?_⟩
  · by_contra hne
    obtain ⟨fs, hr, v, he, rfl⟩ := hk
    obtain rfl : fs = w.fs := hr
    have hv : v.fs q = w.fs q := effect_elsewhere he hne
    split at hq <;> exact hq hv
  · by_contra hch
    exact hq (by rw [kernel_still hk (Env.quiet_quiet _) hch])

/-- A call that touches no path works in every file system. -/
theorem effect_untouched (he : Effect faults w c r w') (hc : c.touches w.proc = none) :
    Effect faults ⟨fs, w.proc⟩ c r ⟨fs, w'.proc⟩ := by
  unfold Effect at he ⊢
  split at he <;> grind [Call.touches, World]

theorem onFile_of_touches (h : c.touches p = some path) : OnFile path p c := by
  cases c with
  | opendir | remove | mkdir | openFile => exact Option.some.inj h
  | fstat fd | ftruncate fd | read fd | write fd | sendfile fd =>
    intro f hf
    simpa [Call.touches, hf] using h
  | memcpy m =>
    intro mp hm
    simpa [Call.touches, hm] using h
  | _ => trivial

/-- What a call answers and does, it can answer and do wherever what it touches is the same. -/
theorem effect_touches (he : Effect faults ⟨fs, p⟩ c r w') (h : ∀ q, c.touches p = some q → fs q = fs' q) :
    ∃ v, Effect faults ⟨fs', p⟩ c r v ∧ w'.proc = v.proc ∧ ∀ q, fs q = fs' q → w'.fs q = v.fs q := by
  rcases ht : c.touches p with _ | path
  · have hstill (q : Bytes) : w'.fs q = fs q := effect_elsewhere he (by simp [ht])
    exact ⟨_, effect_untouched he ht, rfl, fun q hq => (hstill q).trans hq⟩
  · obtain ⟨v, hv, hproc, hpath⟩ := effect_at he (onFile_of_touches ht) (h path ht)
    refine ⟨v, hv, hproc, fun q hq => ?_⟩
    by_cases hqp : q = path
    · rw [hqp, hpath]
    · have hne : c.touches p ≠ some q := by simpa [ht] using Ne.symm hqp
      exact (effect_elsewhere he hne).trans (hq.trans (effect_elsewhere hv hne).symm)

end Effects

end WindCloud
