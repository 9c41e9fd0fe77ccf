import WindCloud.Lib.Acts
import WindCloud.Frame
import WindCloud.Tree
import WindCloud.Listing
import WindCloud.PlainPath
/-!
# What the server is for: a remote shell

A `Shell` is a place in a tree of nodes. `Shell.Serves` says what a request does to it and what is answered, to the byte:
a command is carried out and acknowledged, or refused, and it is refused only if its argument names nothing, the tree
does not allow it, or a call fails. `ShellRun.lean` proves that a connection is a run of such a shell.

| here | there |
| --- | --- |
| `Ask`, `ask`       | `dispatch_command` (`handle.c:859-903`) |
| `Ask.verb`         | the calls and texts of the handlers (`handle.c:435-550`, `:585-598`, `:771-779`) |
| `Shell.Does`       | `handle_pwd` .. `handle_mkdir` (`handle.c:417-551`) |
| `Gives`, `Streams` | `handle_gets` from the open file on (`handle.c:781-849`) |
| `Takes`, `Resumes` | `handle_puts` from the open file on (`handle.c:604-748`) |

The names on the left of the tree are stacks (`VPath`), so no two of them mean one file (`real_injective`).
-/

namespace WindCloud

open Interaction Prog FileImage Server

/-! ## Requests -/

/-- What a client may ask for. -/
inductive Ask where
  | pwd | ls
  | cd (arg : Bytes)
  | rm (arg : Bytes)
  | mkdir (arg : Bytes)
  | gets (arg : Bytes)
  | puts (name : Bytes) (total : UInt64)
  /-- A command without its argument, and what is said of that. -/
  | malformed (msg : Bytes)
  | unknown

/-- What a packet asks for. -/
def Server.ask (packet : Packet) : Ask :=
  let withArg (make : Bytes → Ask) (missing : Bytes) : Ask :=
    match copyStringPayload packet pathMax false with
    | some arg => make arg
    | none => .malformed missing
  match CmdType.ofCode packet.header.cmdType with
  | some .pwd => .pwd
  | some .ls => .ls
  | some .cd => withArg .cd (lit "cd 缺少目录参数")
  | some .rm => withArg .rm (lit "rm 缺少文件名")
  | some .mkdir => withArg .mkdir (lit "mkdir 缺少目录名")
  | some .getsReq => withArg .gets (lit "gets 缺少文件名")
  | some .putsReq =>
    match extractFileInfo packet pathMax with
    | some (name, total) => if name = [] then .malformed (lit "puts 请求格式错误") else .puts name total
    | none => .malformed (lit "puts 请求格式错误")
  | _ => .unknown

/-- A command on a node: the call it is, and what is said when its argument names nothing and when the call fails. -/
structure Verb where
  call : Bytes → Call
  unnamed : Bytes
  status : StatusCode
  failed : Bytes

def Ask.verb : Ask → Option Verb
  | .ls => some ⟨.opendir, lit "当前路径过长", .ioError, lit "目录打开失败"⟩
  | .cd _ => some ⟨.opendir, lit "cd 参数非法", .notFound, lit "目录不存在"⟩
  | .rm _ => some ⟨.remove, lit "rm 参数非法", .ioError, lit "删除失败"⟩
  | .mkdir _ => some ⟨.mkdir, lit "mkdir 参数非法", .ioError, lit "创建文件夹失败"⟩
  | .gets _ => some ⟨(.openFile · .rdonly), lit "下载文件名非法", .notFound, lit "服务端文件不存在"⟩
  | .puts .. => some ⟨(.openFile · .rdwrCreat), lit "上传文件名非法", .ioError, lit "服务端无法创建文件"⟩
  | _ => none

/-! ## The tree -/

/-- A place in a tree; `closed` when the connection is over. -/
structure Shell where
  dir : VPath
  tree : VPath → Option Node
  closed : Bool

instance : DecidableEq VPath := fun u v =>
  decidable_of_iff (u.names = v.names) ⟨fun h => by cases u; cases v; simpa using h, congrArg VPath.names⟩

/-- The path of a stack of names. -/
def VPath.real (v : VPath) : Bytes := serverBaseDir ++ v.tail

namespace Shell

variable (s : Shell)

/-- The shell with another node, or none, at `v`. -/
def put (v : VPath) (node : Option Node) : Shell := { s with tree := Function.update s.tree v node }

/-- The node a command is about; none if its path is malformed or too long. -/
def target : Ask → Option VPath
  | .ls => (buildRealPath s.dir.render pathMax).map fun _ => s.dir
  | .cd arg | .rm arg | .mkdir arg | .gets arg | .puts arg _ =>
    (resolveTargetPath s.dir.render arg pathMax pathMax).map fun _ => s.dir.walk arg
  | _ => none

/-- There is a directory to find `v` in; the root has one outside the tree. -/
def Under (v : VPath) : Prop := v.names = [] ∨ s.tree v.pop = some .dir

/-- `name` is in the directory at `v`. -/
def Holds (v : VPath) (name : Bytes) : Prop := ∃ h : IsName name, s.tree (v.push name h) ≠ none

/-- The entries of the directory at `v`, in some order. -/
structure Lists (v : VPath) (names : List Bytes) : Prop where
  nodup : names.Nodup
  mem : ∀ name, name ∈ names ↔ name = dot ∨ name = dotdot ∨ s.Holds v name

/-- The bytes of the file at `v`; an absent one counts as empty. -/
def bytes (v : VPath) : Bytes :=
  match s.tree v with
  | some (.reg c) => c.bytes
  | _ => []

/-- The tree allows the command on `v`. -/
def Allows (v : VPath) : Ask → Prop
  | .ls | .cd _ => s.Under v ∧ s.tree v = some .dir
  | .rm _ => s.Under v ∧ s.tree v ≠ none ∧ ∀ name, ¬ s.Holds v name
  | .mkdir _ => s.Under v ∧ s.tree v = none
  | .gets _ => s.Under v ∧ s.tree v ≠ none
  | .puts .. => s.Under v ∧ s.tree v ≠ some .dir
  | _ => True

/-- The command is about `v`, and the tree allows it. -/
structure Works (a : Ask) (v : VPath) : Prop where
  target : s.target a = some v
  allows : s.Allows v a

end Shell

section Answers

variable (faults : Call → Prop)

/-! ## Commands with a text reply -/

/-- A command, its answer, and the shell after it. Only what works changes the shell. -/
inductive Shell.Does (s : Shell) : Ask → CmdType → StatusCode → Bytes → Shell → Prop
  | pwd : Does s .pwd .ack .ok s.dir.render s
  /-- If `readdir` fails the list stops there, and the client is not told. -/
  | ls {names read : List Bytes} {text : Bytes} (h : s.Works .ls s.dir) (hn : s.Lists s.dir names) (hr : read <+: names)
      (hall : read ≠ names → ∃ d, faults (.readdir d)) (ht : lsText read = some text) : Does s .ls .ack .ok text s
  | long {names : List Bytes} (h : s.Works .ls s.dir) (hn : s.Lists s.dir names) (ht : lsText names = none) :
      Does s .ls .error .ioError (lit "目录内容过长") s
  | cd {arg : Bytes} {v : VPath} (h : s.Works (.cd arg) v) :
      Does s (.cd arg) .ack .ok (lit "进入目录成功") { s with dir := v }
  | rm {arg : Bytes} {v : VPath} (h : s.Works (.rm arg) v) : Does s (.rm arg) .ack .ok (lit "删除成功") (s.put v none)
  | mkdir {arg : Bytes} {v : VPath} (h : s.Works (.mkdir arg) v) :
      Does s (.mkdir arg) .ack .ok (lit "创建文件夹成功") (s.put v (some .dir))
  | unnamed {a : Ask} {verb : Verb} (ha : a.verb = some verb) (h : s.target a = none) :
      Does s a .error .badRequest verb.unnamed s
  | failed {a : Ask} {verb : Verb} {v : VPath} (ha : a.verb = some verb) (hv : s.target a = some v)
      (h : ¬ s.Allows v a ∨ faults (verb.call v.real)) : Does s a .error verb.status verb.failed s
  | malformed {msg : Bytes} : Does s (.malformed msg) .error .badRequest msg s

/-! ## Downloads -/

/-- What the file system shows of a node: the bytes of a file, of a directory only that it has some length. -/
def Node.Shows : Node → Bytes → Prop
  | .reg c, S => S = c.bytes
  | .dir, S => S.length < 2 ^ 63

/-- The blocks of a download and the end packet. A directory has a length and no bytes: the header of its first block
is written, and no more. -/
inductive Streams (node : Node) (blocks : List Bytes) : Bytes → Bool → Prop
  | whole (h : node ≠ .dir ∨ blocks = []) : Streams node blocks (Packet.wires (dataPackets blocks ++ [endPacket])) false
  | cut {out : Bytes} (h : node ≠ .dir ∨ blocks = []) (hout : out <+: Packet.wires (dataPackets blocks ++ [endPacket]))
      (hf : (Env.quiet faults).Cuts) : Streams node blocks out true
  | unreadable {block out : Bytes} {rest : List Bytes} (h : node = .dir) (hblocks : blocks = block :: rest)
      (hout : out <+: (TlvHeader.of .fileData .ok (.ofNat block.length)).wire)
      (hf : out ≠ (TlvHeader.of .fileData .ok (.ofNat block.length)).wire → ∃ buf, faults (.send buf)) :
      Streams node blocks out true

/-- What comes instead of `RESUME_POS`. -/
inductive Unanswered : Bytes → Prop
  | other {p : Packet} (hp : p.Valid) (h : p.Is .resumePos → extractResumeOffset p = none) : Unanswered p.wire
  | broken {bs : Bytes} (hp : Partial bs) (h : Broken (.quiet faults) .follow bs) : Unanswered bs

/-- A download of `node` as `arg`, once it is open: what comes, what is written, and whether the connection is over. -/
inductive Gives (node : Node) (arg : Bytes) : Bytes → Bytes → Bool → Prop
  | unmeasured {rc : Rc} {out : Bytes} (hf : ∃ fd, faults (.fstat fd))
      (h : Sent (.quiet faults) (textPacket .error .ioError (lit "读取文件信息失败")) rc out) :
      Gives node arg [] out (rc == .fail)
  | unannounced {S out : Bytes} (hS : node.Shows S) (h : Sent (.quiet faults) (getsResp arg (.ofNat S.length)) .fail out) :
      Gives node arg [] out true
  | unanswered {S bs : Bytes} (hS : node.Shows S) (h : Unanswered faults bs) :
      Gives node arg bs (getsResp arg (.ofNat S.length)).wire true
  | blocks {S out : Bytes} {p : Packet} {offset : UInt64} {closes : Bool} (hS : node.Shows S) (hp : p.Valid)
      (his : p.Is .resumePos) (ho : extractResumeOffset p = some offset)
      (h : Streams faults node (blocksFrom S (resumeFrom S offset)) out closes) :
      Gives node arg p.wire ((getsResp arg (.ofNat S.length)).wire ++ out) closes

/-! ## Uploads -/

/-- Where an upload of `total` bytes to a file of `C` resumes, and what it keeps of `C`. -/
inductive Resumes (C : Bytes) (total : UInt64) : Nat → Bytes → Prop
  | fits (h : C.length ≤ total.toNat) : Resumes C total C.length C
  | reset (h : total.toNat < C.length) : Resumes C total 0 []
  | unmeasured (hf : ∃ fd, faults (.fstat fd)) : Resumes C total 0 C

/-- How the blocks of an upload end when there is `room` left, and whether they end on `FILE_END`. -/
inductive Stops (room : Nat) : Bytes → Bool → Prop
  | fileEnd {p : Packet} (hp : p.Valid) (h : p.Is .fileEnd) : Stops room p.wire true
  | refused {p : Packet} (hp : p.Valid) (h : ¬ p.Is .fileEnd) (hover : p.Is .fileData → room < p.data.length) :
      Stops room p.wire false
  | broken {bs : Bytes} (hp : Partial bs) (h : Broken (.quiet faults) .follow bs) : Stops room bs false

/-- The kept bytes `K` at the announced length, with `data` at `k`; a file announced as empty is left. -/
def laid (total : UInt64) (K : Bytes) (k : Nat) (data : Bytes) : Bytes :=
  if total = 0 then K else store (resize 0 total.toNat K) k data

/-- An upload of `total` bytes to a file of `C`, once it is open: what comes, what is written, what the file holds
after it, and whether the connection is over. -/
inductive Takes (C : Bytes) (total : UInt64) : Bytes → Bytes → Bytes → Bool → Prop
  | unreset {rc : Rc} {out : Bytes} (h : total.toNat < C.length) (hf : ∃ fd, faults (.ftruncate fd 0 .reset))
      (hs : Sent (.quiet faults) (textPacket .error .ioError (lit "服务端重置文件失败")) rc out) :
      Takes C total [] out C (rc == .fail)
  | unsent {k : Nat} {K out : Bytes} (hk : Resumes faults C total k K)
      (hs : Sent (.quiet faults) (resumePacket .putsResp (.ofNat k)) .fail out) : Takes C total [] out K true
  | unextended {k : Nat} {K out : Bytes} {rc : Rc} (hk : Resumes faults C total k K) (hpos : 0 < total)
      (h : 2 ^ 63 ≤ total.toNat ∨ ∃ fd, faults (.ftruncate fd (offT total) .extend))
      (hs : Sent (.quiet faults) (textPacket .error .ioError (lit "服务端预分配文件失败")) rc out) :
      Takes C total [] ((resumePacket .putsResp (.ofNat k)).wire ++ out) K (rc == .fail)
  | unmapped {k : Nat} {K out : Bytes} {rc : Rc} (hk : Resumes faults C total k K) (hpos : 0 < total)
      (hlt : total.toNat < 2 ^ 63) (hf : ∃ fd, faults (.mmap fd total.toNat))
      (hs : Sent (.quiet faults) (textPacket .error .ioError (lit "服务端映射文件失败")) rc out) :
      Takes C total [] ((resumePacket .putsResp (.ofNat k)).wire ++ out) (resize 0 total.toNat K) (rc == .fail)
  /-- The blocks are stored. All is well if they end on `FILE_END` at the announced size; if not, the file is cut
  back to them, unless that fails. -/
  | received {k : Nat} {K tail out file : Bytes} {ps : List Packet} {ended done : Bool} {rc : Rc}
      (hk : Resumes faults C total k K) (hlt : total.toNat < 2 ^ 63) (hps : ∀ p ∈ ps, p.Valid ∧ p.Is .fileData)
      (hfits : k + (payloads ps).length ≤ total.toNat)
      (hstop : Stops faults (total.toNat - (k + (payloads ps).length)) tail ended)
      (hdone : done = (ended && k + (payloads ps).length == total.toNat))
      (hfile : file = laid total K k (payloads ps) ∧ (done = false → ∃ fd n, faults (.ftruncate fd n .cut)) ∨
        done = false ∧ file = resize 0 (k + (payloads ps).length) (laid total K k (payloads ps)))
      (hs : Sent (.quiet faults) (putsReply done) rc out) :
      Takes C total (Packet.wires ps ++ tail) ((resumePacket .putsResp (.ofNat k)).wire ++ out) file
        (!ended || rc == .fail)

/-! ## All requests -/

/-- A request: its packet, what was received while it was served, and what was written. -/
structure Talk where
  packet : Packet
  rcvd : Bytes
  sent : Bytes

/-- A request of an open shell, and the shell after it. -/
inductive Shell.Serves (s : Shell) : Talk → Shell → Prop
  | text {packet : Packet} {type : CmdType} {status : StatusCode} {msg out : Bytes} {rc : Rc} {s' : Shell}
      (h : s.Does faults (ask packet) type status msg s') (hs : Sent (.quiet faults) (textPacket type status msg) rc out) :
      Serves s ⟨packet, [], out⟩ { s' with closed := rc == .fail }
  | unknown {packet : Packet} {out : Bytes} {rc : Rc} (ha : ask packet = .unknown)
      (hs : Sent (.quiet faults) (textPacket .error .protocolError (lit "未知命令类型")) rc out) :
      Serves s ⟨packet, [], out⟩ { s with closed := true }
  | gets {packet : Packet} {arg rcvd out : Bytes} {v : VPath} {node : Node} {closes : Bool} (ha : ask packet = .gets arg)
      (hv : s.Works (.gets arg) v) (hnode : s.tree v = some node) (h : Gives faults node arg rcvd out closes) :
      Serves s ⟨packet, rcvd, out⟩ { s with closed := closes }
  | puts {packet : Packet} {name rcvd out : Bytes} {total : UInt64} {v : VPath} {c : Content} {closes : Bool}
      (ha : ask packet = .puts name total) (hv : s.Works (.puts name total) v)
      (h : Takes faults (s.bytes v) total rcvd out c.bytes closes) :
      Serves s ⟨packet, rcvd, out⟩ { s.put v (some (.reg c)) with closed := closes }

/-- A closed shell serves no more. -/
structure ShellStep (s : Shell) (t : Talk) (s' : Shell) : Prop where
  isOpen : s.closed = false
  serves : s.Serves faults t s'

end Answers

/-! ## Stacks and paths -/

theorem VPath.tail_injective : Function.Injective VPath.tail := by
  intro u v h
  rw [← VPath.walk_tail u, ← VPath.walk_tail v, h]

theorem VPath.real_injective : Function.Injective VPath.real := fun _ _ h =>
  tail_injective (List.append_cancel_left h)

theorem VPath.real_push (v : VPath) (name : Bytes) (h : IsName name) : (v.push name h).real = v.real ++ slash :: name := by
  rw [VPath.real, VPath.tail_push, VPath.real, List.append_assoc]

theorem VPath.real_ne_dotdot (u : VPath) : u.real ≠ dotdot := fun h => by
  have hlen := congrArg List.length h
  rw [VPath.real, List.length_append] at hlen
  have hbase : serverBaseDir.length = 8 := by decide
  have hdots : dotdot.length = 2 := rfl
  omega

theorem VPath.names_eq_nil {v : VPath} (h : v.names = []) : v = .root := by
  cases v
  exact (VPath.mk.injEq ..).mpr h

/-- What the file system shows of itself to a session in `dir`. -/
def Shell.of (fs : FS) (dir : VPath) (closed : Bool) : Shell := ⟨dir, fun v => fs v.real, closed⟩

section Of

variable {fs fs' : FS} {dir v : VPath} {closed : Bool} {w : World} {session : Session} {a : Ask} {verb : Verb}

/-- Two trees that differ at `v` only. -/
theorem Shell.of_put (h : ∀ q, q ≠ v.real → fs' q = fs q) :
    Shell.of fs' dir closed = (Shell.of fs dir closed).put v (fs' v.real) := by
  refine congrArg (Shell.mk dir · closed) (funext fun u => ?_)
  by_cases hu : u = v
  · subst hu
    rw [Function.update_self]
  · rw [Function.update_of_ne hu]
    exact h _ (VPath.real_injective.ne hu)

theorem Shell.of_update (node : Option Node) :
    Shell.of (Function.update fs v.real node) dir closed = (Shell.of fs dir closed).put v node := by
  rw [Shell.of_put fun q hq => Function.update_of_ne hq .., Function.update_self]

theorem Shell.of_under (hroot : fs dotdot = some .dir) : (Shell.of fs dir closed).Under v ↔ fs.Under v.real := by
  rcases v.eq_root_or_push with hv | ⟨u, t, ht, rfl⟩
  · obtain rfl := VPath.names_eq_nil hv
    have hpar : parent VPath.root.real = dotdot := by decide
    exact iff_of_true (.inl rfl) (by rw [FS.Under, hpar, hroot])
  · have hpar : parent (u.push t ht).real = u.real := by rw [VPath.real_push, parent_append _ ht.2.1]
    have hne : (u.push t ht).names ≠ [] := by simp [VPath.push]
    rw [FS.Under, hpar, Shell.Under, or_iff_right hne, VPath.pop_push]
    exact Iff.rfl

theorem Shell.of_holds (name : Bytes) : (Shell.of fs dir closed).Holds v name ↔ fs.Holds v.real name := by
  constructor
  · rintro ⟨h, hne⟩
    exact ⟨h, by rw [← VPath.real_push _ _ h]; exact hne⟩
  · rintro ⟨h, hne⟩
    refine ⟨h, ?_⟩
    rw [← VPath.real_push _ _ h] at hne
    exact hne

/-- The shell allows what the tree allows. -/
theorem Shell.of_allows (hroot : w.fs dotdot = some .dir) (ha : a.verb = some verb) :
    (Shell.of w.fs dir closed).Allows v a ↔ WindCloud.Allows w (verb.call v.real) := by
  have hunder : (Shell.of w.fs dir closed).Under v ↔ w.fs.Under v.real := Shell.of_under hroot
  cases a with
  | rm arg =>
    cases ha
    exact and_congr hunder (and_congr_right fun _ => forall_congr' fun name => not_congr (Shell.of_holds name))
  | ls | cd | mkdir | gets | puts =>
    cases ha
    exact and_congr_left fun _ => hunder
  | _ => cases ha

theorem Shell.of_lists {names : List Bytes} (h : w.fs.Lists v.real names) : (Shell.of w.fs dir closed).Lists v names :=
  ⟨h.nodup, fun name => by rw [h.mem, Shell.of_holds]⟩

/-- An argument that resolves names the file the shell means by it. -/
theorem Session.At.real {arg virtualPath realPath : Bytes} (h : session.At dir)
    (hres : resolveTargetPath session.currentPath arg pathMax pathMax = some (virtualPath, realPath)) :
    realPath = (dir.walk arg).real := by
  unfold resolveTargetPath at hres
  split at hres
  · cases hres
  rename_i hn
  split at hres
  · cases hres
  rename_i hb
  obtain ⟨rfl, rfl⟩ := Prod.mk.inj (Option.some.inj hres)
  rw [h.path] at hn
  obtain ⟨rfl, -⟩ := normalizeVirtualPath_walk hn
  exact buildRealPath_render hb

/-- An argument that resolves, and one that does not. -/
theorem Session.At.target {arg virtualPath realPath : Bytes} (hat : session.At dir)
    (hres : resolveTargetPath session.currentPath arg pathMax pathMax = some (virtualPath, realPath)) :
    (resolveTargetPath dir.render arg pathMax pathMax).map (fun _ => dir.walk arg) = some (dir.walk arg) := by
  rw [← hat.path, hres]
  rfl

theorem Session.At.target_none {arg : Bytes} (hat : session.At dir)
    (hres : resolveTargetPath session.currentPath arg pathMax pathMax = none) :
    (resolveTargetPath dir.render arg pathMax pathMax).map (fun _ => dir.walk arg) = none := by
  rw [← hat.path, hres]
  rfl

end Of

end WindCloud
