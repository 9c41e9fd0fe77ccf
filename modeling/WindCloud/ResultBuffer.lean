import WindCloud.Listing
/-!
# The buffer of `handle_ls`

The room that `handle_ls` gives `snprintf` is `sizeof(result) - used`, an unsigned subtraction (`handle.c:487`), and
the newline is stored without `snprintf` (`handle.c:495-498`). What keeps both inside is that `used` is the length of
the string in `result` and less than its size at the head of every iteration (`Listing.Inside`): a name that fits
leaves its NUL inside, and a newline is stored only when one more byte follows it.

| here | there |
| --- | --- |
| `Listing.writes` | what one iteration stores in `result`, and what `snprintf` stores after the last (`handle.c:487-505`) |
| `lsRound`, `lsAnswer` | an iteration, and what follows the loop |
-/

namespace WindCloud

open Interaction Prog FileImage

namespace Server

/-- The head of an iteration: `used` is where the string in the buffer ends. -/
structure Listing.Inside (l : Listing) : Prop where
  size : l.result.length = maxTextPayload
  room : l.used < maxTextPayload
  ended : l.result[l.used]? = some 0
  first : ∀ i < l.used, l.result[i]? ≠ some 0

/-- The stores into `result` when `readdir` gives this answer, each an offset and its bytes. -/
def Listing.writes (l : Listing) : Option Bytes → List (Nat × Bytes)
  | none => if l.used = 0 then [(0, truncate maxTextPayload (lit "(empty)") ++ [0])] else []
  | some name =>
    if name = dot ∨ name = dotdot then []
    else
      let room := maxTextPayload - l.used
      (l.used, truncate room name ++ [0]) ::
        if name.length ≥ room then []
        else
          let used := l.used + name.length
          if used + 2 < maxTextPayload then [(used, [10]), (used + 1, [0])] else []

/-- What follows the loop. -/
def lsAnswer (session : Session) (dir : Nat) : Option Listing → Io (Rc × Session)
  | none => Sys.closedir dir >>= fun _ => reply session .error .ioError (lit "目录内容过长")
  | some l => Sys.closedir dir >>= fun _ =>
      reply session .ack .ok (if l.used = 0 then lit "(empty)" else cstr l.result)

/-! ## One iteration -/

/-- The buffer that an iteration leaves is made by its stores. -/
theorem Listing.add_writes {l l' : Listing} {name : Bytes} (h : l.add name = some l') :
    l'.result = (l.writes (some name)).foldl (fun result x => store result x.1 x.2) l.result := by
  unfold Listing.add at h
  rw [Listing.writes]
  split at h
  · rename_i hdot
    rw [if_pos hdot, ← Option.some.inj h]
    rfl
  rename_i hdot
  simp only at h ⊢
  rw [if_neg hdot, List.foldl_cons]
  split at h
  · cases h
  rename_i hfits
  rw [if_neg hfits]
  split at h
  · rename_i hroom
    rw [if_pos hroom, ← Option.some.inj h]
    rfl
  · rename_i hroom
    rw [if_neg hroom, ← Option.some.inj h]
    rfl

/-- Every store lands inside. -/
theorem Listing.Inside.writes {l : Listing} (h : l.Inside) (answer : Option Bytes) :
    ∀ x ∈ l.writes answer, x.1 + x.2.length ≤ maxTextPayload := by
  have hroom := h.room
  have hcut (size : Nat) (s : Bytes) (hpos : 0 < size) : (truncate size s ++ [0]).length ≤ size := by
    rw [List.length_append, truncate, List.length_take, List.length_singleton]
    omega
  cases answer with
  | none =>
    rw [Listing.writes]
    split
    · intro x hx
      obtain rfl := List.mem_singleton.1 hx
      rw [Nat.zero_add]
      exact hcut maxTextPayload _ (by decide)
    · simp
  | some name =>
    rw [Listing.writes]
    split
    · simp
    rw [List.forall_mem_cons]
    constructor
    · have := hcut (maxTextPayload - l.used) name (by omega)
      simp only
      omega
    split
    · simp
    simp only
    split
    · rename_i hnl
      simp only [List.forall_mem_cons, List.length_singleton]
      exact ⟨by omega, by omega, by simp⟩
    · simp

/-- A buffer with a text in it that fits. -/
theorem Listing.inside_of {text : Bytes} (h0 : 0 ∉ text) (hlen : text.length < maxTextPayload) : (of text).Inside where
  size := by
    rw [of, List.length_append, List.length_replicate]
    omega
  room := hlen
  ended := by
    rw [of_used, of, List.getElem?_append_right (le_refl _), Nat.sub_self, List.getElem?_replicate_of_lt (by omega)]
  first := by
    intro i hi hzero
    rw [of_used] at hi
    rw [of, List.getElem?_append_left hi] at hzero
    exact h0 (List.mem_of_getElem? hzero)

/-- After any names that fit. -/
theorem Listing.inside_of_fold {names : List Bytes} {l : Listing} (hzero : ∀ name ∈ names, 0 ∉ name)
    (h : names.foldlM Listing.add ⟨List.replicate maxTextPayload 0, 0⟩ = some l) : l.Inside := by
  have hempty : ([] : Bytes).length < maxTextPayload := by decide
  have hfold : names.foldlM Listing.add (of []) = _ := foldlM_add hempty
  rw [show of [] = ⟨List.replicate maxTextPayload 0, 0⟩ from rfl, h] at hfold
  obtain ⟨text, htext, rfl⟩ := Option.map_eq_some_iff.1 hfold.symm
  exact inside_of (foldlM_append_zero (by simp) (fun name hname => hzero name (List.mem_of_mem_filter hname)) htext)
    (foldlM_append_length hempty htext)

/-! ## The text that is sent -/

/-- Replies that fit, with their NUL, when the names are strings. -/
def FitsText (names : List Bytes) (_ : CmdType) (msg : Bytes) : Prop :=
  (∀ name ∈ names, 0 ∉ name) → (msg ++ [0]).length ≤ maxTextPayload

theorem lsText_fits {names : List Bytes} {text : Bytes} (hzero : ∀ name ∈ names, 0 ∉ name)
    (h : lsText names = some text) : (text ++ [0]).length ≤ maxTextPayload := by
  obtain ⟨l, hfold, rfl⟩ := Option.map_eq_some_iff.1 h
  have hin := Listing.inside_of_fold hzero hfold
  split
  · decide
  have hend : 0 ∈ l.result := List.mem_of_getElem? hin.ended
  have hlt := length_cstr_lt hend
  rw [hin.size] at hlt
  rw [List.length_append]
  exact hlt

theorem lsReplies_fits : LsReplies FitsText where
  path _ := by decide
  opendir _ := by decide
  long _ _ := by decide
  text h hzero := lsText_fits hzero h

/-! ## Runs -/

section Runs

variable {env : Env} {session : Session} {w v : World} {d dir : Nat} {l l' : Listing} {q : Io (Rc × Session)}
  {k : Option Bytes → Io (Rc × Session)}

theorem reply_no_readdir {type : CmdType} {status : StatusCode} {msg : Bytes} (hlen : msg.length < maxPacketPayload.toNat) :
    wp (kernel env) (fun _ c => ∀ d, c ≠ .readdir d) (reply session type status msg) (fun _ _ => True) w :=
  wp_reply hlen (fun _ _ _ _ _ _ _ => nofun) (fun _ _ => trivial) fun _ _ _ _ _ _ _ => trivial

/-- What follows the loop reads no names. -/
theorem lsAnswer_no_readdir {b : Option Listing} (hlen : ∀ l, b = some l → l.result.length = maxTextPayload) :
    wp (kernel env) (fun _ c => ∀ d, c ≠ .readdir d) (lsAnswer session dir b) (fun _ _ => True) w := by
  cases b with
  | none => exact wp_closedir (fun _ => nofun) fun _ _ => reply_no_readdir (by decide)
  | some l =>
    refine wp_closedir (fun _ => nofun) fun _ _ => reply_no_readdir ?_
    have hmax : maxTextPayload < maxPacketPayload.toNat := by decide
    have hcstr : (cstr l.result).length ≤ l.result.length := (List.takeWhile_prefix _).length_le
    rw [hlen l rfl] at hcstr
    split
    · decide
    · omega

/-- What a round makes of the answer. -/
def lsNext (l : Listing) : Option Bytes → Listing ⊕ Option Listing
  | none => .inr (some l)
  | some name =>
    match l.add name with
    | none => .inr none
    | some l => .inl l

theorem lsRound_eq (d : Nat) (l : Listing) : lsRound d l = .call (.readdir d) fun r => .ret (lsNext l r) := by
  show Prog.call _ _ = _
  congr 1
  funext r
  cases r with
  | none => rfl
  | some name =>
    show (match l.add name with
      | none => (.ret (.inr none) : Io (Listing ⊕ Option Listing))
      | some l => .ret (.inl l)) = _
    rw [lsNext]
    rcases l.add name with _ | l'
    · rfl
    · rfl

theorem round_ret {x : Listing ⊕ Option Listing} (hrun : Steps (kernel env) (lsRound d l, w) (.ret x, v)) :
    ∃ r, x = lsNext l r ∧ v.proc.trace = w.proc.trace ++ [⟨.readdir d, r⟩] := by
  rw [lsRound_eq] at hrun
  rcases Relation.ReflTransGen.cases_head hrun with heq | ⟨_, hstep, hrest⟩
  · cases heq
  · cases hstep with
    | @call _ _ _ _ _ r hk =>
      obtain ⟨hx, rfl⟩ := Prod.mk.inj (steps_ret hrest)
      exact ⟨r, Prog.ret.inj hx, kernel_traces hk⟩

/-- A round that goes on has put a name on the text. -/
theorem lsNext_eq_inl {r : Option Bytes} (h : .inl l' = lsNext l r) : ∃ name, r = some name ∧ l.add name = some l' := by
  cases r with
  | none => cases h
  | some name =>
    rw [lsNext] at h
    rcases hadd : l.add name with _ | l₁
    · rw [hadd] at h
      cases h
    · rw [hadd] at h
      obtain rfl := Sum.inl.inj h
      exact ⟨name, rfl, hadd⟩

/-- The last round leaves the state. -/
theorem lsNext_eq_inr {r : Option Bytes} (h : .inr (some l') = lsNext l r) : l' = l := by
  cases r with
  | none => exact Option.some.inj (Sum.inr.inj h)
  | some name =>
    rw [lsNext] at h
    rcases hadd : l.add name with _ | l₁
    · rw [hadd] at h
      cases h
    · rw [hadd] at h
      cases h

/-- By induction on the rounds: the state is what the loop makes of the names read. -/
theorem rounds_fold {x : Listing × World} (h : Rounds (kernel env) (lsRound d) (l, w) x) :
    ∃ t, x.2.proc.trace = w.proc.trace ++ t ∧ (namesRead t).foldlM Listing.add l = some x.1 := by
  induction h with
  | refl => exact ⟨[], by simp, rfl⟩
  | tail _ hround ih =>
    obtain ⟨t, ht, hfold⟩ := ih
    obtain ⟨r, hnext, htrace⟩ := round_ret hround
    obtain ⟨name, rfl, hadd⟩ := lsNext_eq_inl hnext
    refine ⟨t ++ [⟨.readdir d, some name⟩], by rw [htrace, ht, List.append_assoc], ?_⟩
    rw [namesRead_append, namesRead_readdir, List.foldlM_append, hfold]
    simp [hadd]

/-- The loop reads a name at the head of a round only. -/
theorem loop_head (hl : l.result.length = maxTextPayload)
    (hrun : Steps (kernel env) (.loop (lsRound dir) l (lsAnswer session dir), w) (.call (.readdir d) k, v)) :
    ∃ l', Rounds (kernel env) (lsRound dir) (l, w) (l', v) ∧
      .call (.readdir d) k = lsRound dir l' >>= unroll (lsRound dir) (lsAnswer session dir) := by
  obtain ⟨l', u, hrounds, ⟨hq, -⟩ | ⟨p, hp, hq⟩ | ⟨b, u', hb, hafter⟩⟩ := steps_loop_cases hrun
  · cases hq
  · rw [lsRound_eq] at hp
    rcases Relation.ReflTransGen.cases_head hp with heq | ⟨_, hstep, hrest⟩
    · obtain ⟨rfl, rfl⟩ := Prod.mk.inj heq
      exact ⟨l', hrounds, by rw [hq, lsRound_eq]⟩
    · -- the name has been read, and the round has returned
      exfalso
      cases hstep with
      | @call _ _ _ _ _ r _ =>
        obtain ⟨rfl, rfl⟩ := Prod.mk.inj (steps_ret hrest)
        rcases hnext : lsNext l' r with l₁ | _ | l₁
        all_goals
          rw [hnext] at hq
          cases hq
  · exfalso
    have hlen : ∀ l₁, b = some l₁ → l₁.result.length = maxTextPayload := by
      rintro l₁ rfl
      obtain ⟨r, hnext, -⟩ := round_ret hb
      obtain ⟨t, -, hfold⟩ := rounds_fold hrounds
      rw [lsNext_eq_inr hnext, length_foldlM_add hfold, hl]
    exact wp_check (lsAnswer_no_readdir hlen) hafter d rfl

/-- A head of the loop in a run of `handle_ls`. -/
theorem handleLs_head (hrun : Steps (kernel env) (handleLs session, w) (.call (.readdir d) k, v)) :
    ∃ t l, v.proc.trace = w.proc.trace ++ t ∧
      (namesRead t).foldlM Listing.add ⟨List.replicate maxTextPayload 0, 0⟩ = some l ∧
      .call (.readdir d) k = lsRound d l >>= unroll (lsRound d) (lsAnswer session d) := by
  rcases hpath : buildRealPath session.currentPath pathMax with _ | realPath
  · have hreply : handleLs session = reply session .error .badRequest (lit "当前路径过长") := by
      unfold handleLs
      simp only [hpath]
    rw [hreply] at hrun
    exact absurd rfl (wp_check (reply_no_readdir (by decide)) hrun d)
  rw [handleLs_eq hpath] at hrun
  rcases Relation.ReflTransGen.cases_head hrun with heq | ⟨_, hstep, hrest⟩
  · cases heq
  cases hstep with
  | @call _ _ _ _ u r hk =>
    cases r with
    | none => exact absurd rfl (wp_check (reply_no_readdir (by decide)) hrest d)
    | some dir =>
      obtain ⟨l, hrounds, hq⟩ := loop_head List.length_replicate hrest
      obtain ⟨t, ht, hfold⟩ := rounds_fold hrounds
      have hdir : d = dir := (Call.readdir.inj (Prog.call.inj hq).1)
      subst hdir
      have hopen : u.proc.trace = w.proc.trace ++ [⟨.opendir realPath, some d⟩] := kernel_traces hk
      refine ⟨[⟨.opendir realPath, some d⟩] ++ t, l, ?_, ?_, hq⟩
      · rw [ht, hopen, List.append_assoc]
      · rwa [namesRead_append, namesRead_opendir, List.nil_append]

/-- **`handle_ls` never leaves its buffer.** In every run, while the names read are strings: wherever the next one is
about to be read, the program is at the head of an iteration whose `used` is inside the buffer, at its first NUL, and
whatever the answer, the stores of that iteration land inside. What has been written to the client is the start of a
text reply that fits, with its NUL. -/
theorem handleLs_inside (hrun : Steps (kernel env) (handleLs session, w) (q, v)) :
    ∃ t, v.proc.trace = w.proc.trace ++ t ∧ ((∀ name ∈ namesRead t, 0 ∉ name) →
      (∀ d k, q = .call (.readdir d) k → ∃ l : Listing, l.Inside ∧
        q = lsRound d l >>= unroll (lsRound d) (lsAnswer session d) ∧
        ∀ answer, ∀ x ∈ l.writes answer, x.1 + x.2.length ≤ maxTextPayload) ∧
      ∃ type status msg, (msg ++ [0]).length ≤ maxTextPayload ∧
        v.proc.sent <+: w.proc.sent ++ (textPacket type status msg).wire) := by
  have hsaid : Said FitsText w v := wp_always (wp_handleLs lsReplies_fits) ⟨[], by simp, .inl rfl⟩ hrun
  obtain ⟨t, ht, hsent⟩ := hsaid
  refine ⟨t, ht, fun hzero => ⟨?_, ?_⟩⟩
  · rintro d k rfl
    obtain ⟨t', l, ht', hfold, hq⟩ := handleLs_head hrun
    obtain rfl : t' = t := List.append_cancel_left (ht'.symm.trans ht)
    have hin := Listing.inside_of_fold hzero hfold
    exact ⟨l, hin, hq, hin.writes⟩
  · rcases hsent with hsent | ⟨type, status, msg, hfits, hsent⟩
    · exact ⟨.ack, .ok, [], by decide, hsent ▸ List.prefix_append _ _⟩
    · exact ⟨type, status, msg, hfits hzero, hsent⟩

/-- The second name of a directory with one file is about to be read. -/
theorem handleLs_inside_one : ∃ (l : Listing) (k : Option Bytes → Io (Rc × Session)) (v : World),
    Steps (kernel (.quiet fun _ => False)) (handleLs .start, lsWorld) (.call (.readdir 0) k, v) ∧
      namesRead v.proc.trace = [lit "a"] ∧ l.Inside ∧
      .call (.readdir 0) k = lsRound 0 l >>= unroll (lsRound 0) (lsAnswer .start 0) := by
  have hpath : buildRealPath Session.start.currentPath pathMax = some serverBaseDir := by decide
  have hdir : lsWorld.fs serverBaseDir = some .dir := by simp [lsWorld]
  let l : Listing := ⟨lit "a\n" ++ List.replicate (maxTextPayload - 2) 0, 2⟩
  let k := fun r => (Prog.ret (lsNext l r) : Io (Listing ⊕ Option Listing)) >>= unroll (lsRound 0) (lsAnswer .start 0)
  let p := (Proc.init.setDir 0 (some [lit "a"])).note (.opendir serverBaseDir) (some 0)
  let v : World := ⟨lsWorld.fs, (p.setDir 0 (some [])).note (.readdir 0) (some (lit "a"))⟩
  have hadd : Listing.add ⟨List.replicate maxTextPayload 0, 0⟩ (lit "a") = some l := by
    have hof : Listing.add (.of []) (lit "a") = _ := Listing.add_of (by decide) (by decide)
    exact hof
  have hopen : kernel (.quiet fun _ => False) lsWorld (.opendir serverBaseDir) (some 0) ⟨lsWorld.fs, p⟩ :=
    ⟨_, rfl, ⟨lsWorld.fs, Proc.init.setDir 0 (some [lit "a"])⟩, ⟨_, hdir, rfl, rfl⟩, rfl⟩
  have hname : kernel (.quiet fun _ => False) ⟨lsWorld.fs, p⟩ (.readdir 0) (some (lit "a")) v :=
    ⟨_, rfl, ⟨lsWorld.fs, p.setDir 0 (some [])⟩, ⟨_, by simp [p], rfl⟩, rfl⟩
  have hround : Steps (kernel (.quiet fun _ => False)) (lsRound 0 ⟨List.replicate maxTextPayload 0, 0⟩, ⟨lsWorld.fs, p⟩)
      (.ret (.inl l), v) := by
    rw [lsRound_eq]
    apply steps_call hname
    rw [lsNext, hadd]
  have hrun : Steps (kernel (.quiet fun _ => False)) (handleLs .start, lsWorld) (.call (.readdir 0) k, v) := by
    rw [handleLs_eq hpath]
    refine steps_call hopen (steps_loop_inl hround (.head .loop ?_))
    rw [lsRound_eq]
    exact .refl
  obtain ⟨t, ht, hin⟩ := handleLs_inside hrun
  have hread : namesRead t = [lit "a"] := by
    rw [← show v.proc.trace = t from ht]
    rfl
  obtain ⟨l', hl', hq, -⟩ := (hin (by rw [hread]; decide)).1 0 k rfl
  exact ⟨l', k, v, hrun, by rw [show v.proc.trace = t from ht, hread], hl', hq⟩

end Runs
end Server
end WindCloud
