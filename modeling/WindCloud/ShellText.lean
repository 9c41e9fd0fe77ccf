import WindCloud.Shell
/-!
# The commands with a text reply

`Told` says of a handler that what it did, received and wrote is what the shell does. The handlers of `pwd`, `ls`, `cd`,
`rm` and `mkdir` (`handle.c:417-551`) make one call on a node, `Verb.call`, and answer at once.
-/

namespace WindCloud

open Interaction Prog FileImage

namespace Server

/-- From `w` a handler has come to `v`: what it received and wrote, and what it left, are the shell's. -/
def Told (faults : Call → Prop) (w : World) (dir : VPath) (packet : Packet) (x : Rc × Session) (v : World) : Prop :=
  ∃ rcvd out next, x.2.At next ∧ v.proc.rcvd = w.proc.rcvd ++ rcvd ∧ v.proc.sent = w.proc.sent ++ out ∧
    (Shell.of w.fs dir false).Serves faults ⟨packet, rcvd, out⟩
      (Shell.of v.fs next (x.2.shouldClose || x.1 == .fail))

section Handlers

variable {faults : Call → Prop} {session : Session} {packet : Packet} {dir : VPath} {w : World} {arg : Bytes}

/-- A packet in the tree, which is sent or cut. -/
theorem wp_treePacket {type : CmdType} {status : StatusCode} {payload : Option Bytes} {len : UInt32} {data : Bytes}
    {Q : Rc → World → Prop} (hp : payload.getD [] = data) (hlen : len = .ofNat data.length)
    (hmax : data.length ≤ maxPacketPayload.toNat)
    (h : ∀ rc out, Sent (.quiet faults) (.of type status data) rc out → Q rc ⟨w.fs, w.proc.addSent out⟩) :
    wp (tree faults) (fun _ _ => True) (sendPacket type status payload len) Q w := by
  have hsend : wp (kernel (.quiet faults)) Allows (sendPacket type status payload len) Q w := by
    refine wp_sendPacket hp hlen hmax ?_ ?_ ?_
    · exact fun _ _ _ _ _ _ => trivial
    · rintro _ rfl
      exact h _ _ (.inl ⟨rfl, rfl⟩)
    · rintro _ pre rest rfl hpre hne hf
      exact h _ _ (.inr ⟨rfl, rest, hpre, hne, hf⟩)
  exact wp_tree hsend (fun _ => id) fun _ _ => .inl

theorem wp_treeReply {type : CmdType} {status : StatusCode} {msg : Bytes} {Q : Rc × Session → World → Prop}
    (hlen : msg.length < maxPacketPayload.toNat)
    (h : ∀ rc out, Sent (.quiet faults) (textPacket type status msg) rc out → Q (rc, session) ⟨w.fs, w.proc.addSent out⟩) :
    wp (tree faults) (fun _ _ => True) (reply session type status msg) Q w := by
  have hmax : (msg ++ [0]).length ≤ maxPacketPayload.toNat := by
    rw [List.length_append]
    exact hlen
  rw [reply, sendTextReply_some]
  exact wp_bind.2 (wp_treePacket rfl rfl hmax h)

/-- The answer, once the work is done. -/
theorem wp_told {u : World} {next : VPath} {type : CmdType} {status : StatusCode} {msg : Bytes}
    (hlen : msg.length < maxPacketPayload.toNat) (hrcvd : u.proc.rcvd = w.proc.rcvd) (hsent : u.proc.sent = w.proc.sent)
    (hat : session.At next) (hopen : session.shouldClose = false)
    (hdoes : (Shell.of w.fs dir false).Does faults (ask packet) type status msg (Shell.of u.fs next false)) :
    wp (tree faults) (fun _ _ => True) (reply session type status msg) (Told faults w dir packet) u := by
  refine wp_treeReply hlen fun rc out hs => ⟨[], out, next, hat, by simp [hrcvd], by simp [hsent], ?_⟩
  show Shell.Serves _ _ _ (Shell.of u.fs next (session.shouldClose || rc == .fail))
  rw [hopen, Bool.false_or]
  exact .text hdoes hs

/-- A refusal: the tree and the directory are as they were. -/
theorem wp_refused {u : World} {status : StatusCode} {msg : Bytes} (hlen : msg.length < maxPacketPayload.toNat)
    (hu : u.fs = w.fs ∧ u.proc.rcvd = w.proc.rcvd ∧ u.proc.sent = w.proc.sent) (hat : session.At dir)
    (hopen : session.shouldClose = false)
    (hdoes : (Shell.of w.fs dir false).Does faults (ask packet) .error status msg (Shell.of w.fs dir false)) :
    wp (tree faults) (fun _ _ => True) (reply session .error status msg) (Told faults w dir packet) u :=
  wp_told hlen hu.2.1 hu.2.2 hat hopen (by rwa [hu.1])

section Verb

variable {a : Ask} {verb : Verb} {v : VPath} {closed : Bool}

theorem works_of_allows (ha : a.verb = some verb) (hv : (Shell.of w.fs dir closed).target a = some v)
    (hroot : w.fs dotdot = some .dir) (h : Allows w (verb.call v.real)) : (Shell.of w.fs dir closed).Works a v :=
  ⟨hv, (Shell.of_allows hroot ha).2 h⟩

/-- The argument names nothing, and that is what is said. -/
theorem wp_unnamed {call : Bytes → Call} {unnamed failed : Bytes} {status : StatusCode} (hat : session.At dir)
    (hopen : session.shouldClose = false) (hask : ask packet = a) (ha : a.verb = some ⟨call, unnamed, status, failed⟩)
    (hlen : unnamed.length < maxPacketPayload.toNat) (htarget : (Shell.of w.fs dir false).target a = none) :
    wp (tree faults) (fun _ _ => True) (reply session .error .badRequest unnamed) (Told faults w dir packet) w := by
  refine wp_refused hlen ⟨rfl, rfl, rfl⟩ hat hopen ?_
  rw [hask]
  exact .unnamed ha htarget

/-- The call has failed, on its own or because the tree does not allow it. -/
theorem wp_failed {u : World} {call : Bytes → Call} {unnamed failed : Bytes} {status : StatusCode} (hat : session.At dir)
    (hopen : session.shouldClose = false) (hroot : w.fs dotdot = some .dir) (hask : ask packet = a)
    (ha : a.verb = some ⟨call, unnamed, status, failed⟩) (hlen : failed.length < maxPacketPayload.toNat)
    (htarget : (Shell.of w.fs dir false).target a = some v) (hf : faults (call v.real) ∨ ¬ Allows w (call v.real))
    (hu : u.fs = w.fs ∧ u.proc.rcvd = w.proc.rcvd ∧ u.proc.sent = w.proc.sent) :
    wp (tree faults) (fun _ _ => True) (reply session .error status failed) (Told faults w dir packet) u := by
  refine wp_refused hlen hu hat hopen ?_
  rw [hask]
  exact .failed ha htarget (hf.symm.imp_left (mt (Shell.of_allows hroot ha).1))

end Verb

/-! ## The handlers -/

theorem handlePwd_told (hat : session.At dir) (hopen : session.shouldClose = false) (hask : ask packet = .pwd) :
    wp (tree faults) (fun _ _ => True) (handlePwd session) (Told faults w dir packet) w := by
  have hlen : session.currentPath.length < maxPacketPayload.toNat := by
    rw [hat.path]
    exact hat.room.trans (by decide)
  refine wp_told hlen rfl rfl hat hopen ?_
  rw [hat.path, hask]
  exact .pwd

theorem handleCd_told (hat : session.At dir) (hopen : session.shouldClose = false) (hroot : w.fs dotdot = some .dir)
    (hask : ask packet = .cd arg) :
    wp (tree faults) (fun _ _ => True) (handleCd session arg) (Told faults w dir packet) w := by
  unfold handleCd
  split
  · rename_i hres
    have htarget : (Shell.of w.fs dir false).target (.cd arg) = none := hat.target_none hres
    exact wp_unnamed hat hopen hask rfl (by decide) htarget
  · rename_i nextVirtual realPath hres
    obtain rfl := hat.real hres
    have htarget : (Shell.of w.fs dir false).target (.cd arg) = some (dir.walk arg) := hat.target hres
    refine wp_treeCall ?_
    rintro (_ | d) v he hallowed -
    · obtain ⟨hf, rfl⟩ := he
      exact wp_failed hat hopen hroot hask rfl (by decide) htarget hf ⟨rfl, rfl, rfl⟩
    · obtain ⟨names, -, -, rfl⟩ := he
      refine wp_treeCall ?_
      rintro _ v he - -
      obtain rfl := he
      refine wp_told (by decide) rfl rfl (hat.resolve hres) hopen ?_
      rw [hask]
      exact .cd (works_of_allows rfl htarget hroot (hallowed trivial))

theorem handleRm_told (hat : session.At dir) (hopen : session.shouldClose = false) (hroot : w.fs dotdot = some .dir)
    (hask : ask packet = .rm arg) :
    wp (tree faults) (fun _ _ => True) (handleRm session arg) (Told faults w dir packet) w := by
  unfold handleRm
  split
  · rename_i hres
    have htarget : (Shell.of w.fs dir false).target (.rm arg) = none := hat.target_none hres
    exact wp_unnamed hat hopen hask rfl (by decide) htarget
  · rename_i hres
    obtain rfl := hat.real hres
    have htarget : (Shell.of w.fs dir false).target (.rm arg) = some (dir.walk arg) := hat.target hres
    refine wp_treeCall ?_
    rintro (_ | _) v he hallowed -
    · obtain ⟨hf, rfl⟩ := he
      exact wp_failed hat hopen hroot hask rfl (by decide) htarget hf ⟨rfl, rfl, rfl⟩
    · obtain ⟨-, rfl⟩ := he
      refine wp_told (by decide) rfl rfl hat hopen ?_
      show Shell.Does _ _ _ _ _ _ (Shell.of (Function.update w.fs _ none) dir false)
      rw [hask, Shell.of_update]
      exact .rm (works_of_allows rfl htarget hroot (hallowed trivial))

theorem handleMkdir_told (hat : session.At dir) (hopen : session.shouldClose = false) (hroot : w.fs dotdot = some .dir)
    (hask : ask packet = .mkdir arg) :
    wp (tree faults) (fun _ _ => True) (handleMkdir session arg) (Told faults w dir packet) w := by
  unfold handleMkdir
  split
  · rename_i hres
    have htarget : (Shell.of w.fs dir false).target (.mkdir arg) = none := hat.target_none hres
    exact wp_unnamed hat hopen hask rfl (by decide) htarget
  · rename_i hres
    obtain rfl := hat.real hres
    have htarget : (Shell.of w.fs dir false).target (.mkdir arg) = some (dir.walk arg) := hat.target hres
    refine wp_treeCall ?_
    rintro (_ | _) v he hallowed -
    · obtain ⟨hf, rfl⟩ := he
      exact wp_failed hat hopen hroot hask rfl (by decide) htarget hf ⟨rfl, rfl, rfl⟩
    · obtain ⟨-, rfl⟩ := he
      refine wp_told (by decide) rfl rfl hat hopen ?_
      show Shell.Does _ _ _ _ _ _ (Shell.of (Function.update w.fs _ (some .dir)) dir false)
      rw [hask, Shell.of_update]
      exact .mkdir (works_of_allows rfl htarget hroot (hallowed trivial))

/-- The state of the loop of `handle_ls` is what it makes of the names read. -/
theorem handleLs_told (hat : session.At dir) (hopen : session.shouldClose = false) (hroot : w.fs dotdot = some .dir)
    (hask : ask packet = .ls) :
    wp (tree faults) (fun _ _ => True) (handleLs session) (Told faults w dir packet) w := by
  unfold handleLs
  have hpath := hat.path
  split
  · rename_i hreal
    have htarget : (Shell.of w.fs dir false).target .ls = none := by
      show (buildRealPath dir.render pathMax).map _ = _
      rw [← hpath, hreal]
      rfl
    exact wp_unnamed hat hopen hask rfl (by decide) htarget
  · rename_i realPath hreal
    rw [hpath] at hreal
    have htarget : (Shell.of w.fs dir false).target .ls = some dir := by
      show (buildRealPath dir.render pathMax).map _ = _
      rw [hreal]
      rfl
    obtain rfl : realPath = dir.real := buildRealPath_render hreal
    refine wp_treeCall ?_
    rintro (_ | d) v he hallowed hlists
    · obtain ⟨hf, rfl⟩ := he
      exact wp_failed hat hopen hroot hask rfl (by decide) htarget hf ⟨rfl, rfl, rfl⟩
    · obtain ⟨names, hdirs, hnames⟩ := hlists _ _ rfl
      obtain ⟨_, _, _, rfl⟩ := he
      have hworks := works_of_allows (a := .ls) rfl htarget hroot (hallowed trivial)
      have hlists : (Shell.of w.fs dir false).Lists dir names := Shell.of_lists hnames
      refine wp_loop (fun l u => ∃ read rest, names = read ++ rest ∧ u.proc.dirs d = some rest ∧
          read.foldlM Listing.add ⟨List.replicate maxTextPayload 0, 0⟩ = some l ∧ u.fs = w.fs ∧
          u.proc.rcvd = w.proc.rcvd ∧ u.proc.sent = w.proc.sent)
        ⟨[], names, rfl, hdirs, rfl, rfl, rfl, rfl⟩ ?_
      rintro l u ⟨read, rest, rfl, hrest, hl, hfs, hrcvd, hsent⟩
      refine wp_treeCall ?_
      rintro (_ | name) v he - -
      · obtain ⟨hend, rfl⟩ := he
        refine wp_treeCall ?_
        rintro _ v he - -
        obtain rfl := he
        have htext : lsText read = some (if l.used = 0 then lit "(empty)" else cstr l.result) := by
          rw [lsText, hl]
          rfl
        refine wp_told (lsText_short htext) hrcvd hsent hat hopen ?_
        show Shell.Does _ _ _ _ _ _ (Shell.of (World.fs _) dir false)
        rw [hask, hfs]
        refine .ls hworks hlists (List.prefix_append _ _) (fun hne => ?_) htext
        rcases hend with hend | hf | hf
        · obtain rfl : rest = [] := Option.some.inj (hrest.symm.trans hend)
          exact absurd (List.append_nil _).symm hne
        · exact ⟨d, hf⟩
        · exact absurd trivial hf
      · obtain ⟨names', hnames', rfl⟩ := he
        obtain rfl : rest = name :: names' := Option.some.inj (hrest.symm.trans hnames')
        rcases hadd : l.add name with _ | l'
        · simp only [hadd]
          refine wp_treeCall ?_
          rintro _ v he - -
          obtain rfl := he
          refine wp_refused (by decide) ⟨hfs, hrcvd, hsent⟩ hat hopen ?_
          rw [hask]
          refine .long hworks hlists ?_
          rw [lsText, List.foldlM_append, hl]
          simp [hadd]
        · simp only [hadd]
          refine ⟨read ++ [name], names', by simp, Function.update_self .., ?_, hfs, hrcvd, hsent⟩
          rw [List.foldlM_append, hl]
          simp [hadd]

end Handlers
end Server
end WindCloud
