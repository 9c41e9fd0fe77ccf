import WindCloud.Footprint
import WindCloud.Stream
import WindCloud.Run
/-!
# Directories

`Effect` keeps files under their paths and knows no more of a directory than that it is one. `tree` is the same semantics
with what a directory is for: a name is found, made or removed only in a directory that is there, a directory that holds
something is not removed, and `opendir` delivers what the directory holds. A call that this rules out fails, and no
other call fails unless `faults` lets it. There are no links and no mounts.

| here | there |
| --- | --- |
| `Allows`, `.opendir`    | `ENOENT`, `ENOTDIR` of `opendir` (`handle.c:442`, `:470`) |
| `Allows`, `.remove`     | `ENOENT`, `ENOTEMPTY` of `remove` (`handle.c:523`) |
| `Allows`, `.mkdir`      | `ENOENT`, `EEXIST` of `mkdir` (`handle.c:544`) |
| `Allows`, `.openFile`   | `ENOENT`, `EISDIR` of `open` (`handle.c:594`, `:775`) |
| `Allows`, the others    | `EISDIR` of `read`, `EINVAL` of `sendfile`, `ftruncate` and `lseek` |

A call depends on the path it touches, on the directory that is in and on the names in it (`tree_touches`). So threads
do not notice each other if no path of one is a path of another, or below one (`isolated`).
-/

namespace WindCloud

open Interaction Prog FileImage

/-- The path without its last name. -/
def parent (path : Bytes) : Bytes := path.take ((strrchr slash path).getD 0)

theorem parent_append (path : Bytes) {name : Bytes} (h : slash ∉ name) : parent (path ++ slash :: name) = path := by
  rw [parent, strrchr_append _ h, Option.getD_some, List.take_left]

theorem strrchr_eq_none {c : UInt8} {s : Bytes} : strrchr c s = none ↔ c ∉ s := by
  induction s with
  | nil => simp [strrchr]
  | cons b s ih =>
    rw [List.mem_cons, not_or, ← ih, strrchr]
    split
    · rename_i hi
      simp [hi]
    · rename_i hi
      simp [hi, eq_comm]

theorem parent_of_notMem {path : Bytes} (h : slash ∉ path) : parent path = [] := by
  rw [parent, strrchr_eq_none.2 h, Option.getD_none, List.take_zero]

/-- A slash stands behind the parent, where there is one. -/
theorem parent_append_slash {path : Bytes} (h : slash ∈ path) : parent path ++ [slash] <+: path := by
  induction path with
  | nil => cases h
  | cons b path ih =>
    by_cases hin : slash ∈ path
    · obtain ⟨i, hi⟩ := Option.ne_none_iff_exists'.1 (mt strrchr_eq_none.1 (not_not.2 hin))
      have hpar : parent (b :: path) = b :: parent path := by simp [parent, strrchr, hi]
      rw [hpar, List.cons_append]
      exact (List.prefix_cons_inj b).2 (ih hin)
    · obtain rfl : slash = b := by simpa [hin] using h
      have hpar : parent (slash :: path) = [] := parent_append [] hin
      rw [hpar]
      exact List.prefix_append [slash] path

namespace FS

variable (fs : FS) (path : Bytes)

/-- There is a directory to find `path` in. -/
def Under : Prop := fs (parent path) = some .dir

/-- `name` is in the directory at `path`. -/
def Holds (name : Bytes) : Prop := IsName name ∧ fs (path ++ slash :: name) ≠ none

/-- What `readdir` delivers of the directory at `path`, in some order. -/
structure Lists (names : List Bytes) : Prop where
  nodup : names.Nodup
  mem : ∀ name, name ∈ names ↔ name = dot ∨ name = dotdot ∨ fs.Holds path name

end FS

/-- What the tree asks of a call. -/
def Allows (w : World) : Call → Prop
  | .opendir path => w.fs.Under path ∧ w.fs path = some .dir
  | .remove path => w.fs.Under path ∧ w.fs path ≠ none ∧ ∀ name, ¬ w.fs.Holds path name
  | .mkdir path => w.fs.Under path ∧ w.fs path = none
  | .openFile path .rdonly => w.fs.Under path ∧ w.fs path ≠ none
  | .openFile path .rdwrCreat => w.fs.Under path ∧ w.fs path ≠ some .dir
  | .read fd _ => ∀ f, w.proc.fds fd = some f → w.fs f.path ≠ some .dir
  | .sendfile fd off _ => 0 ≤ off ∧ ∀ f, w.proc.fds fd = some f → w.fs f.path ≠ some .dir
  | .ftruncate _ len _ => 0 ≤ len
  | .lseek _ off => 0 ≤ off
  | _ => True

/-- The answers of a call that has worked. -/
def Works : (c : Call) → Res c → Prop
  | .opendir _, some _ | .openFile .., some _ | .remove _, true | .mkdir _, true | .ftruncate .., true
  | .lseek .., true | .read .., .done _ | .sendfile .., .done _ => True
  | _, _ => False

/-- A call in a tree that nobody else changes. -/
structure TreeCall (faults : Call → Prop) (w : World) (c : Call) (r : Res c) (w' : World) : Prop where
  step : kernel (.quiet fun c => faults c ∨ ¬ Allows w c) w c r w'
  allowed : Works c r → Allows w c
  lists : ∀ path d, (⟨c, r⟩ : Event) = ⟨.opendir path, some d⟩ →
    ∃ names, w'.proc.dirs d = some names ∧ w.fs.Lists path names

abbrev tree (faults : Call → Prop) : Sem Call Res World := TreeCall faults

section Tree

variable {faults faults' : Call → Prop} {fs fs' : FS} {p : Proc} {w w' : World} {c : Call} {r : Res c} {path : Bytes}

theorem kernel_faults (h : kernel (.quiet faults) w c r w') (hf : faults c → faults' c) : kernel (.quiet faults') w c r w' := by
  obtain ⟨fs, hr, v, he, rfl⟩ := h
  exact ⟨fs, hr, v, effect_faults he hf, rfl⟩

/-- The tree only narrows what a call may do. -/
theorem TreeCall.kernel (h : tree faults w c r w') (hf : faults c → faults' c) (hd : ¬ Allows w c → faults' c) :
    kernel (.quiet faults') w c r w' :=
  kernel_faults h.step fun hor => hor.elim hf hd

theorem TreeCall.quiet (h : tree faults w c r w') : WindCloud.kernel (.quiet fun _ => True) w c r w' :=
  h.kernel (fun _ => trivial) fun _ => trivial

/-- A call on no path is as it was. -/
theorem tree_of_kernel (h : kernel (.quiet faults) w c r w') (hc : c.touches w.proc = none) (hallows : Allows w c)
    (hopen : c.path? = none) : tree faults w c r w' where
  step := kernel_faults h .inl
  allowed _ := hallows
  lists path d heq := by cases heq; cases hopen

/-- One call in the tree: what it answers, and that it was allowed to if it worked. -/
theorem wp_treeCall {α : Type} {k : Res c → Io α} {Q : α → World → Prop}
    (h : ∀ r v, Effect (fun c => faults c ∨ ¬ Allows w c) w c r v → (Works c r → Allows w c) →
      (∀ path d, (⟨c, r⟩ : Event) = ⟨.opendir path, some d⟩ → ∃ names, v.proc.dirs d = some names ∧ w.fs.Lists path names) →
      wp (tree faults) (fun _ _ => True) (k r) Q (if c.traced then ⟨v.fs, v.proc.note c r⟩ else v)) :
    wp (tree faults) (fun _ _ => True) (Prog.perform c >>= k) Q w := by
  refine wp_call.2 ⟨trivial, ?_⟩
  rintro r w' ⟨⟨_, rfl, v, he, rfl⟩, hallowed, hlists⟩
  refine h r v he hallowed fun path d heq => ?_
  obtain ⟨names, hdirs, hnames⟩ := hlists path d heq
  refine ⟨names, ?_, hnames⟩
  split at hdirs <;> exact hdirs

/-- A program all of whose calls are allowed runs in the tree as it does elsewhere. -/
theorem wp_tree {α : Type} {q : Io α} {Q : α → World → Prop} {P : World → Call → Prop}
    (h : wp (WindCloud.kernel (.quiet faults')) P q Q w) (hf : ∀ c, faults c → faults' c)
    (hP : ∀ w c, P w c → Allows w c ∨ faults' c) : wp (tree faults) (fun _ _ => True) q Q w :=
  wp_narrow h (fun _ _ _ _ hc hs => hs.kernel (hf _) (hP _ _ hc).resolve_left) fun _ _ _ => trivial

/-- A program on the connection alone runs in the tree as it does elsewhere. -/
theorem tree_of_peer {α : Type} {q q' : Io α} {avail : Bytes} (hq : every (fun c => c.FromPeer ∨ c.ToPeer) q fun _ => True)
    (h : Steps (fed (.quiet faults) avail) (q, w) (q', w')) :
    Steps (fun w c r w' => tree faults w c r w' ∧ w'.proc.rcvd <+: avail) (q, w) (q', w') := by
  have hwp : wp (fed (.quiet faults) avail) (fun _ c => c.FromPeer ∨ c.ToPeer) q (fun _ _ => True) w :=
    wp_mono (every_wp (I := fun _ => True) hq trivial (fun _ _ hc _ => hc) fun _ _ _ _ _ _ _ => trivial) fun _ _ _ => trivial
  have hstep (u : World) (c : Call) (r : Res c) (u' v : World) (hc : c.FromPeer ∨ c.ToPeer)
      (hk : fed (.quiet faults) avail u c r u') (huv : u = v) :
      ∃ v', (tree faults v c r v' ∧ v'.proc.rcvd <+: avail) ∧ u' = v' := by
    obtain rfl := huv
    have hquiet : c.touches u.proc = none ∧ Allows u c ∧ c.path? = none := by
      cases c <;> first | exact ⟨rfl, trivial, rfl⟩ | exact (hc.elim id id).elim
    exact ⟨u', ⟨tree_of_kernel hk.1 hquiet.1 hquiet.2.1 hquiet.2.2, hk.2⟩, rfl⟩
  obtain ⟨v, hrun, rfl⟩ := wp_sim hwp hstep h rfl
  exact hrun

/-- A packet is read in the tree. -/
theorem tree_reads {wait : Wait} {packet : Packet} (hp : packet.Valid) :
    Steps (fun u c r u' => tree faults u c r u' ∧ u'.proc.rcvd <+: w.proc.rcvd ++ packet.wire) (recvPacket wait, w)
      (.ret (.ok, packet), ⟨w.fs, w.proc.addRcvd packet.wire⟩) := by
  have hR : Backward (fed (.quiet faults) (w.proc.rcvd ++ packet.wire)) fun c => _ :=
    backward_steps fun c : Io (Rc × Packet) × World => c = (.ret (.ok, packet), ⟨w.fs, w.proc.addRcvd packet.wire⟩)
  obtain ⟨_, h, rfl⟩ : ∃ c, Steps (fed (.quiet faults) (w.proc.rcvd ++ packet.wire)) (recvPacket wait >>= .ret, w) c ∧
      c = (.ret (.ok, packet), ⟨w.fs, w.proc.addRcvd packet.wire⟩) :=
    run_recvPacket hR hp (List.prefix_refl _) ⟨_, .refl, rfl⟩
  rw [bind_ret] at h
  exact tree_of_peer (every_mono (recvPacket_calls _) (fun _ => .inl) fun _ => id) h

theorem Allows.congr (h : ∀ q, c.touches p = some q → fs q = fs' q ∧ fs (parent q) = fs' (parent q) ∧
    ∀ name, slash ∉ name → fs (q ++ slash :: name) = fs' (q ++ slash :: name)) :
    Allows ⟨fs, p⟩ c ↔ Allows ⟨fs', p⟩ c := by
  have hfd (fd : Nat) (hc : c.touches p = (p.fds fd).map OpenFile.path) :
      (∀ f, p.fds fd = some f → fs f.path ≠ some .dir) ↔ ∀ f, p.fds fd = some f → fs' f.path ≠ some .dir := by
    refine forall₂_congr fun f hf => ?_
    rw [(h f.path (by rw [hc, hf]; rfl)).1]
  have hholds (q name : Bytes) (hq : c.touches p = some q) : fs.Holds q name ↔ fs'.Holds q name := by
    refine and_congr_right fun hn => ?_
    rw [(h q hq).2.2 name hn.2.1]
  cases c with
  | opendir q | mkdir q => simp only [Allows, FS.Under, (h q rfl).1, (h q rfl).2.1]
  | remove q => simp only [Allows, FS.Under, (h q rfl).1, (h q rfl).2.1, hholds q _ rfl]
  | openFile q mode => cases mode <;> simp only [Allows, FS.Under, (h q rfl).1, (h q rfl).2.1]
  | read fd n => exact hfd fd rfl
  | sendfile fd off n => exact and_congr_right fun _ => hfd fd rfl
  | _ => exact Iff.rfl

/-- What a call answers and does, it can answer and do wherever what it touches, what that is in and what is in that are
the same. -/
theorem tree_touches (hk : tree faults ⟨fs, p⟩ c r w') (h : ∀ q, c.touches p = some q → fs q = fs' q ∧
    fs (parent q) = fs' (parent q) ∧ ∀ name, slash ∉ name → fs (q ++ slash :: name) = fs' (q ++ slash :: name)) :
    ∃ v, tree faults ⟨fs', p⟩ c r v ∧ w'.proc = v.proc ∧ ∀ q, fs q = fs' q → w'.fs q = v.fs q := by
  have hallows := Allows.congr h
  obtain ⟨⟨fs₁, hfs, u, he, hw⟩, hallowed, hlists⟩ := hk
  obtain rfl : fs₁ = fs := hfs
  obtain ⟨v, hv, hproc, hsame⟩ := effect_touches he fun q hq => (h q hq).1
  have hw' : w'.proc = (if c.traced then ⟨v.fs, v.proc.note c r⟩ else v : World).proc := by
    rw [hw]
    split <;> simp [hproc]
  refine ⟨_, ⟨⟨fs', rfl, v, effect_faults hv (Or.imp_right fun hn => hallows.not.1 hn), rfl⟩, fun hr => hallows.1 (hallowed hr),
    fun path d heq => ?_⟩, hw', fun q hq => ?_⟩
  · cases heq
    obtain ⟨names, hdirs, hnodup, hmem⟩ := hlists path d rfl
    refine ⟨names, hw' ▸ hdirs, hnodup, fun name => ?_⟩
    have hholds : fs₁.Holds path name ↔ fs'.Holds path name := by
      refine and_congr_right fun hn => ?_
      rw [(h path rfl).2.2 name hn.2.1]
    exact (hmem name).trans (by rw [hholds])
  · rw [hw]
    split <;> exact hsame q hq

/-- The server's directory, with nothing in it. -/
def bareTree : FS := fun path => if path = dotdot ∨ path = serverBaseDir then some .dir else none

end Tree

/-! ## Threads that touch disjoint parts -/

section Isolation

variable {ι α : Type} [DecidableEq ι] {faults : Call → Prop} {zone : ι → Set Bytes} {c c' : Threads Call Res FS Proc ι α}

/-- Every thread touches paths of its own zone only. -/
def inZones (zone : ι → Set Bytes) : StepOk Call Res FS Proc ι α := fun c i e _ =>
  ∀ q, e.touches (c.loc i) = some q → q ∈ zone i

/-- With a directory all that is in it. -/
def Closed (zone : Set Bytes) : Prop := ∀ q, parent q ∈ zone → q ∈ zone

/-- **Isolation**: threads whose zones do not meet run as if each were alone. Whatever a thread has been answered and
has done, it could have been answered and done with nobody else there, and its zone would look the same. -/
theorem isolated (hzone : Pairwise fun i j => Disjoint (zone i) (zone j)) (hclosed : ∀ i, Closed (zone i))
    (hrun : ParSteps (tree faults) World.mk (inZones zone) c c') (i : ι) :
    ∃ fs, Steps (tree faults) (c.prog i, ⟨c.shared, c.loc i⟩) (c'.prog i, ⟨fs, c'.loc i⟩) ∧
      ∀ q ∈ zone i, c'.shared q = fs q := by
  -- what the thread can see: its zone, and the directories that is in
  suffices h : ∃ fs, Steps (tree faults) (c.prog i, ⟨c.shared, c.loc i⟩) (c'.prog i, ⟨fs, c'.loc i⟩) ∧
      ∀ q ∈ zone i, c'.shared q = fs q ∧ c'.shared (parent q) = fs (parent q) by
    obtain ⟨fs, hsteps, hsame⟩ := h
    exact ⟨fs, hsteps, fun q hq => (hsame q hq).1⟩
  refine Par.alone (R := fun fs fs' => ∀ q ∈ zone i, fs q = fs' q ∧ fs (parent q) = fs' (parent q)) ?_ ?_
    (fun _ _ => ⟨rfl, rfl⟩) hrun
  · rintro c₁ e r s l t - hok hk ht
    obtain ⟨⟨fs', p'⟩, hv, hproc, hsame⟩ := tree_touches hk fun q hq =>
      ⟨(ht q (hok q hq)).1, (ht q (hok q hq)).2, fun name hname =>
        (ht _ (hclosed i _ (by rw [parent_append q hname]; exact hok q hq))).1⟩
    obtain rfl : l = p' := hproc
    exact ⟨fs', hv, fun q hq => ⟨hsame q (ht q hq).1, hsame _ (ht q hq).2⟩⟩
  · rintro c₁ j e k r s l t hj - hok hk ht q hq
    -- where another thread is at work, nothing of this one is, nor above it
    have hstill {q : Bytes} (hq : q ∉ zone j) : s q = c₁.shared q := by
      by_contra hch
      exact hq (hok q (kernel_elsewhere hk.step hch).1)
    have hnot : q ∉ zone j := fun h => Set.disjoint_left.1 (hzone hj) h hq
    have hnot' : parent q ∉ zone j := fun h => hnot (hclosed j q h)
    exact ⟨(hstill hnot).trans (ht q hq).1, (hstill hnot').trans (ht q hq).2⟩

end Isolation
end WindCloud
