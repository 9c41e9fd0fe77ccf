import WindCloud.Run
/-!
# What `ls` lists

`handle_ls` puts the names into a buffer of 4096 bytes. A name is refused when it does not fit with a NUL
(`handle.c:487`), but its newline is left out when that would not fit with another byte (`handle.c:495`), and the
next name, of one byte, still fits then. So the text lists the directory unless it ends in two names that have no
newline between them (`Merged`); everything longer is refused.

| here | there |
| --- | --- |
| `namesRead`         | the answers of `readdir` (`handle.c:476`) |
| `Listing.append`    | one entry on the text so far (`handle.c:487-498`) |
| `lines`, `listed`   | what a reader of the text sees |
-/

namespace WindCloud

open Interaction Prog FileImage

/-- The non-empty pieces between newlines. -/
def lines (text : Bytes) : List Bytes := (text.splitOn newline).filter (· ≠ [])

/-- Names with a newline each. -/
def joined (names : List Bytes) : Bytes := names.flatMap (· ++ [newline])

@[simp] theorem joined_nil : joined [] = [] := rfl
@[simp] theorem joined_append (ns ms : List Bytes) : joined (ns ++ ms) = joined ns ++ joined ms :=
  List.flatMap_append
@[simp] theorem joined_singleton (name : Bytes) : joined [name] = name ++ [newline] := by simp [joined]
@[simp] theorem joined_cons (name : Bytes) (names : List Bytes) :
    joined (name :: names) = name ++ newline :: joined names := by simp [joined]

/-! ## Lines -/

@[simp] theorem lines_nil : lines [] = [] := rfl

theorem lines_of_notMem {s : Bytes} (hne : s ≠ []) (h : newline ∉ s) : lines s = [s] := by
  rw [lines, List.splitOn_eq_singleton h, List.filter_cons_of_pos (by simpa using hne), List.filter_nil]

theorem lines_append {name : Bytes} (hne : name ≠ []) (h : newline ∉ name) (text : Bytes) :
    lines (name ++ newline :: text) = name :: lines text := by
  rw [lines, List.splitOn_append_cons_self_of_not_mem h, List.filter_cons_of_pos (by simpa using hne)]
  rfl

theorem lines_joined {names : List Bytes} (h : ∀ name ∈ names, name ≠ [] ∧ newline ∉ name) (text : Bytes) :
    lines (joined names ++ text) = names ++ lines text := by
  induction names with
  | nil => rfl
  | cons name names ih =>
    rw [List.forall_mem_cons] at h
    rw [joined_cons, List.append_assoc, List.cons_append, lines_append h.1.1 h.1.2, ih h.2]
    rfl

/-- What every step of a fold that may stop keeps, the fold keeps. -/
theorem foldlM_keeps {α β : Type} {step : β → α → Option β} (I : List α → β → Prop) {r as : List α} {b b' : β}
    (hstep : ∀ read a b b', a ∈ as → I read b → step b a = some b' → I (read ++ [a]) b') (h0 : I r b)
    (h : as.foldlM step b = some b') : I (r ++ as) b' := by
  induction as generalizing r b with
  | nil =>
    obtain rfl := Option.some.inj h
    rwa [List.append_nil]
  | cons a as ih =>
    rw [List.foldlM_cons] at h
    obtain ⟨b₁, hb, h⟩ := Option.bind_eq_some_iff.1 h
    have hkeep : I ((r ++ [a]) ++ as) b' :=
      ih (fun read c b b' hc => hstep read c b b' (List.mem_cons_of_mem _ hc))
        (hstep r a b b₁ List.mem_cons_self h0 hb) h
    rwa [List.append_assoc, List.singleton_append] at hkeep

namespace Server

/-! ## The loop on the text -/

/-- The answers of `readdir`. -/
def namesRead (trace : List Event) : List Bytes :=
  trace.filterMap fun
    | ⟨.readdir _, some name⟩ => some name
    | _ => none

/-- The entries that are listed. -/
def entries (names : List Bytes) : List Bytes := names.filter fun name => name ≠ dot ∧ name ≠ dotdot

/-- A name as a file system has them. -/
structure Entry (name : Bytes) : Prop where
  ne_nil : name ≠ []
  short : name.length ≤ 255
  noSlash : slash ∉ name
  noZero : 0 ∉ name
  noNewline : newline ∉ name

/-- The buffer with a text in it. -/
def Listing.of (text : Bytes) : Listing := ⟨text ++ List.replicate (maxTextPayload - text.length) 0, text.length⟩

/-- One name on the text; `none` when it does not fit. -/
def Listing.append (text name : Bytes) : Option Bytes :=
  if maxTextPayload ≤ (text ++ name).length then none
  else if (text ++ name).length + 2 < maxTextPayload then some (text ++ name ++ [newline])
  else some (text ++ name)

@[simp] theorem Listing.of_used (text : Bytes) : (Listing.of text).used = text.length := rfl

/-- The text that the loop makes of the names; `none` is the answer that they are too long. -/
def lsText (names : List Bytes) : Option Bytes :=
  (names.foldlM Listing.add ⟨List.replicate maxTextPayload 0, 0⟩).map fun l =>
    if l.used = 0 then lit "(empty)" else cstr l.result

/-- The names that a text lists. -/
def listed (text : Bytes) : List Bytes := if text = lit "(empty)" then [] else lines text

/-- The last two names have no newline between them. -/
def Merged (names : List Bytes) : Prop :=
  ∃ init x y, entries names = init ++ [x, y] ∧ (joined init ++ x).length + 2 = maxTextPayload ∧ y.length = 1

/-- Storing a string behind the text, with its NUL. -/
theorem store_of {text s : Bytes} (h : (text ++ s).length < maxTextPayload) :
    store (Listing.of text).result text.length (s ++ [0]) = (Listing.of (text ++ s)).result := by
  rw [List.length_append] at h
  have hroom : maxTextPayload - text.length = (s.length + 1) + (maxTextPayload - (text.length + s.length) - 1) := by omega
  have hrest : maxTextPayload - (text.length + s.length) = 1 + (maxTextPayload - (text.length + s.length) - 1) := by omega
  have hdrop : (Listing.of text).result.drop (text.length + (s ++ [0]).length) =
      List.replicate (maxTextPayload - (text.length + s.length) - 1) 0 := by
    rw [Listing.of, ← List.drop_drop, List.drop_left, List.drop_replicate, hroom, List.length_append, List.length_singleton,
      Nat.add_sub_cancel_left]
  have htake : (Listing.of text).result.take text.length = text := List.take_left
  have hall : text ++ (s ++ [0]) ++ List.replicate (maxTextPayload - (text.length + s.length) - 1) 0 =
      (Listing.of (text ++ s)).result := by
    rw [Listing.of, List.length_append, hrest, List.replicate_add]
    simp
  rw [store, htake, hdrop, hall]
  apply List.take_of_length_le
  simp only [Listing.of, List.length_append, List.length_replicate]
  omega

/-- The loop body does to the buffer what `append` does to the text. -/
theorem Listing.add_of {text name : Bytes} (hname : name ≠ dot ∧ name ≠ dotdot) (htext : text.length < maxTextPayload) :
    (Listing.of text).add name = (Listing.append text name).map Listing.of := by
  have hlen : (text ++ name).length = text.length + name.length := List.length_append
  have hused : (Listing.of text).used = text.length := rfl
  rw [Listing.add, if_neg (not_or.2 hname), Listing.append]
  by_cases hfull : maxTextPayload ≤ (text ++ name).length
  · rw [if_pos hfull]
    exact if_pos (by omega)
  rw [if_neg hfull]
  refine (if_neg (by omega)).trans ?_
  rw [hused, truncate_eq (by omega), store_of (Nat.not_le.1 hfull), ← hlen]
  by_cases hroom : (text ++ name).length + 2 < maxTextPayload
  · have hone : ([10] : Bytes).length = 1 := rfl
    have hnl : (text ++ name ++ [newline]).length = (text ++ name).length + 1 := List.length_append
    have hstore : store (Listing.of (text ++ name)).result (text ++ name).length ([newline] ++ [0]) = _ :=
      store_of (by omega)
    rw [if_pos hroom, if_pos hroom, ← hone, store_store, hone, ← hnl]
    exact congrArg (fun result => some (Listing.mk result (text ++ name ++ [newline]).length)) hstore
  · rw [if_neg hroom, if_neg hroom]
    rfl

theorem Listing.append_eq_some {text text' name : Bytes} : Listing.append text name = some text' ↔
    (text ++ name).length + 2 < maxTextPayload ∧ text' = text ++ name ++ [newline] ∨
      (text ++ name).length < maxTextPayload ∧ maxTextPayload ≤ (text ++ name).length + 2 ∧ text' = text ++ name := by
  unfold Listing.append
  split
  · rename_i hfull
    refine ⟨nofun, ?_⟩
    rintro (⟨h, -⟩ | ⟨h, -, -⟩) <;> omega
  rename_i hfull
  split
  · rename_i hroom
    rw [Option.some.injEq]
    constructor
    · rintro rfl
      exact .inl ⟨hroom, rfl⟩
    · rintro (⟨-, rfl⟩ | ⟨-, h, -⟩)
      · rfl
      · omega
  · rename_i hroom
    rw [Option.some.injEq]
    constructor
    · rintro rfl
      exact .inr ⟨Nat.not_le.1 hfull, Nat.not_lt.1 hroom, rfl⟩
    · rintro (⟨h, -⟩ | ⟨-, -, rfl⟩)
      · omega
      · rfl

theorem Listing.append_length {text text' name : Bytes} (h : Listing.append text name = some text') :
    text'.length < maxTextPayload := by
  rcases Listing.append_eq_some.1 h with ⟨hlen, rfl⟩ | ⟨hlen, -, rfl⟩
  · rw [List.length_append, List.length_singleton]
    omega
  · exact hlen

/-- As does the whole loop: the dots leave the text alone. -/
theorem foldlM_add {names : List Bytes} {text : Bytes} (htext : text.length < maxTextPayload) :
    names.foldlM Listing.add (Listing.of text) = ((entries names).foldlM Listing.append text).map Listing.of := by
  induction names generalizing text with
  | nil => rfl
  | cons name names ih =>
    rw [List.foldlM_cons]
    by_cases hname : name ≠ dot ∧ name ≠ dotdot
    · rw [entries, List.filter_cons_of_pos (by simpa using hname), List.foldlM_cons, Listing.add_of hname htext]
      rcases happ : Listing.append text name with _ | text'
      · rfl
      · exact ih (Listing.append_length happ)
    · have hskip : (Listing.of text).add name = some (Listing.of text) := if_pos (by tauto)
      rw [entries, List.filter_cons_of_neg (by simpa using hname), hskip]
      exact ih htext

/-! ## What the text looks like -/

/-- Every name has its newline, or the last has not, or the last two have not. -/
inductive Listing.Shape : List Bytes → Bytes → Prop
  | ended (names : List Bytes) : Shape names (joined names)
  | unended (names : List Bytes) (x : Bytes) : maxTextPayload ≤ (joined names ++ x).length + 2 →
      Shape (names ++ [x]) (joined names ++ x)
  | merged (names : List Bytes) (x y : Bytes) : (joined names ++ x).length + 2 = maxTextPayload → y.length = 1 →
      Shape (names ++ [x, y]) (joined names ++ x ++ y)

theorem Listing.Shape.append {names : List Bytes} {text text' name : Bytes} (h : Shape names text) (hne : name ≠ [])
    (happ : Listing.append text name = some text') : Shape (names ++ [name]) text' := by
  have hpos : 0 < name.length := List.length_pos_iff.2 hne
  have happ := Listing.append_eq_some.1 happ
  rw [List.length_append] at happ
  cases h with
  | ended =>
    rcases happ with ⟨-, rfl⟩ | ⟨-, hlen, rfl⟩
    · rw [List.append_assoc, ← joined_singleton, ← joined_append]
      exact .ended _
    · exact .unended names name (by rwa [List.length_append])
  | unended names x hx =>
    rcases happ with ⟨hlen, -⟩ | ⟨hlen, -, rfl⟩
    · omega
    · -- one byte is left, and the name takes it
      rw [List.append_assoc]
      exact .merged names x name (by omega) (by omega)
  | merged names x y hx hy =>
    rw [List.length_append] at happ
    rcases happ with ⟨hlen, -⟩ | ⟨hlen, -⟩ <;> omega

theorem Listing.Shape.foldlM {names read : List Bytes} {text text' : Bytes} (h : Shape read text)
    (hne : ∀ name ∈ names, name ≠ []) (hfold : names.foldlM Listing.append text = some text') :
    Shape (read ++ names) text' :=
  foldlM_keeps Shape (fun _ name _ _ hname h happ => h.append (hne name hname) happ) h hfold

/-- Names that leave room get their newlines. -/
theorem foldlM_append_joined {names : List Bytes} {text : Bytes} (h : (text ++ joined names).length + 2 ≤ maxTextPayload) :
    names.foldlM Listing.append text = some (text ++ joined names) := by
  induction names generalizing text with
  | nil => simp
  | cons name names ih =>
    have hlen : (text ++ joined (name :: names)).length = (text ++ name).length + 1 + (joined names).length := by
      simp only [joined_cons, List.length_append, List.length_cons]
      omega
    have hstep : Listing.append text name = some (text ++ name ++ [newline]) :=
      Listing.append_eq_some.2 (.inl ⟨by omega, rfl⟩)
    have heq : text ++ name ++ [newline] ++ joined names = text ++ joined (name :: names) := by simp
    rw [List.foldlM_cons, hstep, ← heq]
    apply ih
    rw [heq]
    exact h

/-! ## The text lists the names, or merges two -/

section Names

variable {names : List Bytes}

theorem Entry.line {name : Bytes} (h : Entry name) : name ≠ [] ∧ newline ∉ name := ⟨h.ne_nil, h.noNewline⟩

theorem entries_entry (h : ∀ name ∈ names, Entry name) : ∀ name ∈ entries names, Entry name :=
  fun name hname => h name (List.mem_of_mem_filter hname)

theorem foldlM_append_zero {text text' : Bytes} (h0 : 0 ∉ text) (hzero : ∀ name ∈ names, 0 ∉ name)
    (h : names.foldlM Listing.append text = some text') : 0 ∉ text' := by
  refine foldlM_keeps (r := []) (fun _ text => 0 ∉ text) (fun _ name text _ hname h0 happ => ?_) h0 h
  have hall : 0 ∉ text ++ name := fun h => (List.mem_append.1 h).elim h0 (hzero name hname)
  rcases Listing.append_eq_some.1 happ with ⟨-, rfl⟩ | ⟨-, -, rfl⟩
  · intro h
    exact (List.mem_append.1 h).elim hall (by decide)
  · exact hall

theorem foldlM_append_length {text text' : Bytes} (htext : text.length < maxTextPayload)
    (h : names.foldlM Listing.append text = some text') : text'.length < maxTextPayload :=
  foldlM_keeps (r := []) (fun _ text => text.length < maxTextPayload)
    (fun _ _ _ _ _ _ happ => Listing.append_length happ) htext h

/-- The text that is sent is the one that `append` makes, or stands for none. -/
theorem lsText_eq (hnames : ∀ name ∈ names, Entry name) : lsText names =
    ((entries names).foldlM Listing.append []).map fun text => if text = [] then lit "(empty)" else text := by
  have hempty : ([] : Bytes).length < maxTextPayload := by decide
  have hloop : names.foldlM Listing.add (Listing.of []) = _ := foldlM_add hempty
  have hzero : ∀ name ∈ entries names, 0 ∉ name := fun name hname => (entries_entry hnames name hname).noZero
  rw [lsText]
  refine (congrArg (Option.map _) hloop).trans ?_
  rcases hfold : (entries names).foldlM Listing.append [] with _ | text
  · rfl
  have h0 : 0 ∉ text := foldlM_append_zero (by simp) hzero hfold
  obtain ⟨n, hn⟩ : ∃ n, maxTextPayload - text.length = n + 1 :=
    ⟨maxTextPayload - text.length - 1, by have := foldlM_append_length hempty hfold; omega⟩
  have hcstr : cstr (Listing.of text).result = text := by
    rw [Listing.of, hn, List.replicate_succ]
    exact cstr_append_zero h0
  simp only [Option.map_some, Listing.of_used, List.length_eq_zero_iff, hcstr]

/-- With room for their newlines the names before the last two leave one byte, and no room for a newline. -/
theorem foldlM_append_merged {init : List Bytes} {x y : Bytes} (hx : x ≠ [])
    (hlen : (joined init ++ x).length + 2 = maxTextPayload) (hy : y.length = 1) :
    (init ++ [x, y]).foldlM Listing.append [] = some (joined init ++ x ++ y) := by
  have hpos : 0 < x.length := List.length_pos_iff.2 hx
  have hlen' : (joined init ++ x ++ y).length = (joined init ++ x).length + y.length := List.length_append
  have hinit : init.foldlM Listing.append [] = some (joined init) :=
    foldlM_append_joined (by rw [List.nil_append]; rw [List.length_append] at hlen; omega)
  have hfirst : Listing.append (joined init) x = some (joined init ++ x) :=
    Listing.append_eq_some.2 (.inr ⟨by omega, by omega, rfl⟩)
  have hsecond : Listing.append (joined init ++ x) y = some (joined init ++ x ++ y) :=
    Listing.append_eq_some.2 (.inr ⟨by omega, by omega, rfl⟩)
  rw [List.foldlM_append, hinit]
  simp [hfirst, hsecond]

/-- The text for no names is no line of a directory. -/
theorem listed_shown {read : List Bytes} {body : Bytes} (h : Listing.Shape read body) :
    listed (if body = [] then lit "(empty)" else body) = lines body := by
  by_cases hbody : body = []
  · rw [if_pos hbody, hbody]
    rfl
  rw [if_neg hbody]
  apply if_neg
  rintro rfl
  have hlen : (lit "(empty)").length = 7 := rfl
  have hmax : maxTextPayload = 4096 := rfl
  generalize hb : lit "(empty)" = body at h hlen
  cases h with
  | ended =>
    cases read with
    | nil => cases hlen
    | cons name names =>
      have hmem : newline ∈ joined (name :: names) := by simp
      rw [← hb] at hmem
      exact absurd hmem (by decide)
  | unended names x hx => omega
  | merged names x y hx hy =>
    rw [List.length_append] at hlen
    omega

theorem lines_merged {init : List Bytes} {x y : Bytes} (h : ∀ name ∈ init ++ [x, y], Entry name) :
    lines (joined init ++ x ++ y) = init ++ [x ++ y] := by
  have hinit : ∀ name ∈ init, name ≠ [] ∧ newline ∉ name := fun name hname => (h name (by simp [hname])).line
  have hx := h x (by simp)
  have hy := h y (by simp)
  rw [List.append_assoc, lines_joined hinit, lines_of_notMem (by simp [hx.ne_nil])]
  intro hmem
  exact (List.mem_append.1 hmem).elim hx.noNewline hy.noNewline

/-- **The text lists exactly the entries, unless the last two of them are merged.** -/
theorem listed_lsText (hnames : ∀ name ∈ names, Entry name) {text : Bytes} (h : lsText names = some text) :
    listed text = entries names ↔ ¬ Merged names := by
  have hentry := entries_entry hnames
  rw [lsText_eq hnames, Option.map_eq_some_iff] at h
  obtain ⟨body, hfold, rfl⟩ := h
  have hshape := (Listing.Shape.ended []).foldlM (fun name hname => (hentry name hname).ne_nil) hfold
  rw [List.nil_append] at hshape
  rw [listed_shown hshape]
  constructor
  · rintro hlisted ⟨init, x, y, heq, hlen, hy⟩
    rw [heq] at hfold hlisted hentry
    rw [foldlM_append_merged (hentry x (by simp)).ne_nil hlen hy, Option.some.injEq] at hfold
    rw [← hfold, lines_merged hentry] at hlisted
    simpa using congrArg List.length hlisted
  · intro hnot
    generalize hes : entries names = es at hshape hentry
    cases hshape with
    | ended =>
      have hlines := lines_joined (fun name hname => (hentry name hname).line) []
      rwa [List.append_nil, lines_nil, List.append_nil] at hlines
    | unended init x hx =>
      have hlast := hentry x (by simp)
      rw [lines_joined fun name hname => (hentry name (by simp [hname])).line, lines_of_notMem hlast.ne_nil hlast.noNewline]
    | merged init x y hx hy => exact absurd ⟨init, x, y, hes, hx, hy⟩ hnot

/-- A listing that merges is sent, not refused. -/
theorem lsText_merged (hnames : ∀ name ∈ names, Entry name) (h : Merged names) : lsText names ≠ none := by
  obtain ⟨init, x, y, heq, hlen, hy⟩ := h
  have hx : x ≠ [] := (entries_entry hnames x (by simp [heq])).ne_nil
  rw [lsText_eq hnames, heq, foldlM_append_merged hx hlen hy]
  simp

end Names

/-! ## The handler -/

@[simp] theorem namesRead_nil : namesRead [] = [] := rfl
@[simp] theorem namesRead_append (s t : List Event) : namesRead (s ++ t) = namesRead s ++ namesRead t :=
  List.filterMap_append
@[simp] theorem namesRead_opendir (path : Bytes) (r : Option Nat) : namesRead [⟨.opendir path, r⟩] = [] := rfl
@[simp] theorem namesRead_readdir (d : Nat) (name : Bytes) : namesRead [⟨.readdir d, some name⟩] = [name] := rfl
@[simp] theorem namesRead_stop (d : Nat) : namesRead [⟨.readdir d, none⟩] = [] := rfl
@[simp] theorem namesRead_closedir (d : Nat) : namesRead [⟨.closedir d, ()⟩] = [] := rfl

theorem length_foldlM_add {names : List Bytes} {l l' : Listing} (h : names.foldlM Listing.add l = some l') :
    l'.result.length = l.result.length :=
  foldlM_keeps (r := []) (fun _ l' => l'.result.length = l.result.length)
    (fun _ _ _ _ _ hl hadd => (Listing.length_add hadd).trans hl) rfl h

theorem lsText_short {names : List Bytes} {text : Bytes} (h : lsText names = some text) :
    text.length < maxPacketPayload.toNat := by
  obtain ⟨l, hfold, rfl⟩ := Option.map_eq_some_iff.1 h
  have hcstr : (cstr l.result).length ≤ l.result.length := (List.takeWhile_prefix _).length_le
  have hmax : maxTextPayload < maxPacketPayload.toNat := by decide
  rw [length_foldlM_add hfold, List.length_replicate] at hcstr
  split
  · decide
  · omega

section Runs

variable {env : Env} {session : Session} {w : World}

/-- The answer that a run gives, which is cut off when the connection breaks. -/
def Answered (w v : World) (rc : Rc) (type : CmdType) (msg : Bytes) : Prop :=
  ∃ status, v.proc.sent <+: w.proc.sent ++ (textPacket type status msg).wire ∧
    (rc = .ok → v.proc.sent = w.proc.sent ++ (textPacket type status msg).wire)

/-- What `handle_ls` says about the names it has read: that they are too long, or that it could not open the
directory, or the text. -/
def LsSays (names : List Bytes) (type : CmdType) (msg : Bytes) : Prop :=
  type = .error ∧ (lsText names = none ∨ names = []) ∨ type = .ack ∧ lsText names = some msg

/-- What `handle_ls` can say, one field a reply. -/
structure LsReplies (S : List Bytes → CmdType → Bytes → Prop) : Prop where
  path : S [] .error (lit "当前路径过长")
  opendir : S [] .error (lit "目录打开失败")
  long : ∀ {names}, lsText names = none → S names .error (lit "目录内容过长")
  text : ∀ {names msg}, lsText names = some msg → S names .ack msg

/-- Nothing has been written, or the start of a reply in `S`. -/
def Said (S : List Bytes → CmdType → Bytes → Prop) (w v : World) : Prop :=
  ∃ t, v.proc.trace = w.proc.trace ++ t ∧ (v.proc.sent = w.proc.sent ∨
    ∃ type status msg, S (namesRead t) type msg ∧ v.proc.sent <+: w.proc.sent ++ (textPacket type status msg).wire)

variable {S : List Bytes → CmdType → Bytes → Prop}

theorem lsReplies_says : LsReplies LsSays where
  path := .inl ⟨rfl, .inr rfl⟩
  opendir := .inl ⟨rfl, .inr rfl⟩
  long h := .inl ⟨rfl, .inl h⟩
  text h := .inr ⟨rfl, h⟩

/-- A call that does not write. -/
theorem said_silent {v v' : World} {t : List Event} {c : Call} {r : Res c} (ht : v.proc.trace = w.proc.trace ++ t)
    (hs : v.proc.sent = w.proc.sent) (hc : c.sends = some []) (hk : kernel env v c r v') : Said S w v' := by
  obtain ⟨bs, hbs, hle⟩ := kernel_sends hk hc
  rw [List.prefix_nil.1 hle, List.append_nil] at hbs
  refine ⟨t ++ if c.traced then [⟨c, r⟩] else [], ?_, .inl (hbs.trans hs)⟩
  rw [kernel_traces hk, ht, List.append_assoc]

theorem wp_reply_sent {type : CmdType} {status : StatusCode} {msg : Bytes} {v : World} {t : List Event}
    (hlen : msg.length < maxPacketPayload.toNat) (ht : v.proc.trace = w.proc.trace ++ t)
    (hs : v.proc.sent = w.proc.sent) (hmsg : S (namesRead t) type msg) :
    wp (kernel env) (fun v c => ∀ r v', kernel env v c r v' → Said S w v') (reply session type status msg) (fun r v =>
      ∃ t type msg, v.proc.trace = w.proc.trace ++ t ∧ Answered w v r.1 type msg ∧ S (namesRead t) type msg) v := by
  refine wp_reply hlen ?_ ?_ ?_
  · intro fs pre rest _ hpre _ r v' hk
    obtain ⟨bs, hbs, hle⟩ := kernel_sends hk rfl
    have htrace : v'.proc.trace = v.proc.trace ++ [] := kernel_traces hk
    refine ⟨t, by rw [htrace, List.append_nil, ht], .inr ⟨type, status, msg, hmsg, ?_⟩⟩
    rw [hbs]
    show v.proc.sent ++ pre ++ bs <+: _
    rw [hs, List.append_assoc, List.prefix_append_right_inj]
    exact ((List.prefix_append_right_inj pre).2 hle).trans hpre
  · intro fs _
    have hsent : v.proc.sent ++ (textPacket type status msg).wire = w.proc.sent ++ (textPacket type status msg).wire := by
      rw [hs]
    exact ⟨t, type, msg, ht, ⟨status, hsent ▸ List.prefix_refl _, fun _ => hsent⟩, hmsg⟩
  · intro fs pre rest _ hpre _ _
    refine ⟨t, type, msg, ht, ⟨status, ?_, nofun⟩, hmsg⟩
    show v.proc.sent ++ pre <+: _
    rw [hs, List.prefix_append_right_inj]
    exact (List.prefix_append pre rest).trans hpre

/-- The state of the loop is what it makes of the names read. -/
theorem wp_handleLs (hS : LsReplies S) : wp (kernel env) (fun v c => ∀ r v', kernel env v c r v' → Said S w v')
    (handleLs session) (fun r v => ∃ t type msg,
      v.proc.trace = w.proc.trace ++ t ∧ Answered w v r.1 type msg ∧ S (namesRead t) type msg) w := by
  unfold handleLs
  split
  · exact wp_reply_sent (t := []) (by decide) (by simp) rfl hS.path
  · rename_i realPath hpath
    refine wp_opendir (fun r v' => said_silent (t := []) (by simp) rfl rfl) ?_ ?_
    · intro fs _ _
      exact wp_reply_sent (by decide) rfl rfl hS.opendir
    · intro fs d names _ _
      refine wp_loop (fun l v => ∃ t, v.proc.trace = w.proc.trace ++ t ∧ v.proc.sent = w.proc.sent ∧
        (namesRead t).foldlM Listing.add ⟨List.replicate maxTextPayload 0, 0⟩ = some l)
        ⟨_, rfl, rfl, rfl⟩ ?_
      rintro l v ⟨t, ht, hs, hl⟩
      refine wp_readdir (fun r v' => said_silent ht hs rfl) ?_ ?_
      · intro fs' _ _
        refine wp_closedir (fun r v' => said_silent (t := t ++ [⟨.readdir d, none⟩]) ?_ hs rfl) ?_
        · show v.proc.trace ++ [_] = _
          rw [ht, List.append_assoc]
        intro fs'' _
        have hread : namesRead (t ++ [⟨.readdir d, none⟩] ++ [⟨.closedir d, ()⟩]) = namesRead t := by
          rw [namesRead_append, namesRead_append, namesRead_stop, namesRead_closedir, List.append_nil, List.append_nil]
        have htext : lsText (namesRead t) = some (if l.used = 0 then lit "(empty)" else cstr l.result) := by
          rw [lsText, hl]
          rfl
        refine wp_reply_sent (t := t ++ [⟨.readdir d, none⟩] ++ [⟨.closedir d, ()⟩]) (lsText_short htext) ?_ hs
          (hS.text (hread ▸ htext))
        show v.proc.trace ++ [_] ++ [_] = _
        rw [ht]
        simp only [List.append_assoc]
      · intro fs' name names' _ _
        have hread : namesRead (t ++ [⟨.readdir d, some name⟩]) = namesRead t ++ [name] := by simp
        have htrace : (v.proc.trace ++ [⟨Call.readdir d, some name⟩] : List Event) =
            w.proc.trace ++ (t ++ [⟨.readdir d, some name⟩]) := by rw [ht, List.append_assoc]
        rcases hadd : l.add name with _ | l'
        · simp only [hadd]
          refine wp_closedir (fun r v' => said_silent htrace hs rfl) ?_
          intro fs'' _
          refine wp_reply_sent (t := t ++ [⟨.readdir d, some name⟩] ++ [⟨.closedir d, ()⟩]) (by decide) ?_ hs (hS.long ?_)
          · show v.proc.trace ++ [_] ++ [_] = _
            rw [htrace]
            simp only [List.append_assoc]
          · rw [namesRead_append, hread, namesRead_closedir, List.append_nil, lsText, List.foldlM_append, hl]
            simp [hadd]
        · simp only [hadd]
          refine ⟨_, htrace, hs, ?_⟩
          rw [hread, List.foldlM_append, hl]
          simp [hadd]

/-- **`ls` lists exactly the directory, unless its text merges the last two names.** In every run, whatever `readdir`
returns: the answer is an error, or a text that lists the entries, exactly when the names read do not end at the
byte where the buffer has room for one more name but not for the newline before it. -/
theorem handleLs_lists {session' : Session} {rc : Rc} {v : World}
    (hrun : Steps (kernel env) (handleLs session, w) (.ret (rc, session'), v)) :
    ∃ t type msg, v.proc.trace = w.proc.trace ++ t ∧ Answered w v rc type msg ∧
      ((∀ name ∈ namesRead t, Entry name) →
        ((type = .error ∨ type = .ack ∧ listed msg = entries (namesRead t)) ↔ ¬ Merged (namesRead t))) := by
  obtain ⟨t, type, msg, ht, hanswered, hmsg⟩ := wp_result (wp_handleLs lsReplies_says) hrun
  refine ⟨t, type, msg, ht, hanswered, fun hnames => ?_⟩
  rcases hmsg with ⟨rfl, hnone⟩ | ⟨rfl, htext⟩
  · refine iff_of_true (.inl rfl) ?_
    intro hmerged
    rcases hnone with hnone | hempty
    · exact lsText_merged hnames hmerged hnone
    · obtain ⟨init, x, y, heq, -⟩ := hmerged
      rw [hempty] at heq
      simp [entries] at heq
  · rw [← listed_lsText hnames htext]
    simp

/-! ## Runs that read given names -/

variable {avail : Bytes} {R : Io (Rc × Session) × World → Prop} {names : List Bytes}

/-- One round of the loop of `handle_ls`. -/
def lsRound (dir : Nat) (l : Listing) : Io (Listing ⊕ Option Listing) := do
  match ← Sys.readdir dir with
  | none => return .inr (some l)
  | some name =>
    match l.add name with
    | none => return .inr none
    | some l => return .inl l

theorem handleLs_eq {realPath : Bytes} (hpath : buildRealPath session.currentPath pathMax = some realPath) :
    handleLs session = Sys.opendir realPath >>= fun dir => match dir with
      | none => reply session .error .ioError (lit "目录打开失败")
      | some dir => .loop (lsRound dir) ⟨List.replicate maxTextPayload 0, 0⟩ fun listing => match listing with
        | none => Sys.closedir dir >>= fun _ => reply session .error .ioError (lit "目录内容过长")
        | some l => Sys.closedir dir >>= fun _ =>
            reply session .ack .ok (if l.used = 0 then lit "(empty)" else cstr l.result) := by
  unfold handleLs
  simp only [hpath]
  rfl

/-- The loop reads the names that the directory has. -/
theorem run_readdirs (hR : Backward (fed env avail) R) {l l' : Listing} (hin : w.proc.rcvd <+: avail)
    {d : Nat} {k : Option Listing → Io (Rc × Session)} (hdir : w.proc.dirs d = some names)
    (hfold : names.foldlM Listing.add l = some l')
    (h : ∀ p t, p.trace = w.proc.trace ++ t → namesRead t = names → p.sent = w.proc.sent → p.rcvd = w.proc.rcvd →
      R (k (some l'), ⟨w.fs, p⟩)) : R (.loop (lsRound d) l k, w) := by
  induction names generalizing w l with
  | nil =>
    obtain rfl := Option.some.inj hfold
    refine hR.loop (run_call hR (r := none) (v := w) ⟨.inl hdir, rfl⟩ hin ?_)
    exact h (w.proc.note (.readdir d) none) [⟨.readdir d, none⟩] rfl rfl rfl rfl
  | cons name names ih =>
    rw [List.foldlM_cons] at hfold
    rcases hadd : l.add name with _ | l₁
    · rw [hadd] at hfold
      cases hfold
    rw [hadd] at hfold
    refine hR.loop (run_call hR (r := some name) (v := ⟨w.fs, w.proc.setDir d (some names)⟩) ⟨names, hdir, rfl⟩ hin ?_)
    show R ((match l.add name with
      | none => .ret (.inr none)
      | some l => .ret (.inl l)) >>= unroll (lsRound d) k, _)
    rw [hadd]
    refine ih (w := ⟨w.fs, (w.proc.setDir d (some names)).note (.readdir d) (some name)⟩) hin (by simp) hfold ?_
    intro p t ht hread hsent hrcvd
    refine h p (⟨.readdir d, some name⟩ :: t) (ht.trans ?_) ?_ hsent hrcvd
    · show w.proc.trace ++ [_] ++ t = _
      rw [List.append_assoc]
      rfl
    · rw [← hread]
      rfl

theorem run_handleLs (hR : Backward (fed env avail) R) (hin : w.proc.rcvd <+: avail) {realPath text : Bytes}
    (hpath : buildRealPath session.currentPath pathMax = some realPath) (hdir : w.fs realPath = some .dir)
    (hfree : w.proc.dirs 0 = none) (htext : lsText names = some text)
    (h : ∀ p t, p.trace = w.proc.trace ++ t → namesRead t = names →
      p.sent = w.proc.sent ++ (textPacket .ack .ok text).wire → R (.ret (.ok, session), ⟨w.fs, p⟩)) :
    R (handleLs session, w) := by
  have hshort := lsText_short htext
  rw [lsText, Option.map_eq_some_iff] at htext
  obtain ⟨l, hfold, rfl⟩ := htext
  rw [handleLs_eq hpath]
  refine run_call hR (r := some 0) (v := ⟨w.fs, w.proc.setDir 0 (some names)⟩) ⟨names, hdir, hfree, rfl⟩ hin ?_
  refine run_readdirs hR (w := ⟨w.fs, (w.proc.setDir 0 (some names)).note (.opendir realPath) (some 0)⟩) hin (by simp)
    hfold ?_
  intro p t ht hread hsent hrcvd
  refine run_call hR (r := ()) (v := ⟨w.fs, p.setDir 0 none⟩) rfl (by rw [Proc.setDir_rcvd, hrcvd]; exact hin) ?_
  show R (reply .., ⟨w.fs, (p.setDir 0 none).note (.closedir 0) ()⟩)
  rw [← bind_ret (reply ..)]
  apply run_reply hR hshort (by simp [hrcvd]; exact hin)
  refine h _ ([⟨.opendir realPath, some 0⟩] ++ t ++ [⟨.closedir 0, ()⟩]) ?_ ?_ ?_
  · show p.trace ++ [_] = _
    rw [ht]
    simp
  · rw [namesRead_append, namesRead_append, hread, namesRead_opendir, namesRead_closedir, List.nil_append, List.append_nil]
  · show p.sent ++ _ = _
    rw [hsent]
    rfl

end Runs

/-! ## Two directories -/

/-- An empty file system but for the served directory. -/
def lsWorld : World := ⟨Function.update (fun _ => none) serverBaseDir (some .dir), .init⟩

/-- A run that reads given names. -/
theorem lsWorld_run {names : List Bytes} {text : Bytes} (h : lsText names = some text) :
    ∃ c, Steps (kernel (.quiet fun _ => False)) (handleLs .start, lsWorld) c ∧ c.1 = .ret (.ok, .start) ∧
      namesRead c.2.proc.trace = names ∧ c.2.proc.sent = (textPacket .ack .ok text).wire := by
  have hpath : buildRealPath Session.start.currentPath pathMax = some serverBaseDir := by decide
  have hR : Backward (fed (.quiet fun _ => False) []) fun c => _ := backward_kernel fun c : Io (Rc × Session) × World =>
    c.1 = .ret (.ok, .start) ∧ namesRead c.2.proc.trace = names ∧ c.2.proc.sent = (textPacket .ack .ok text).wire
  refine run_handleLs hR (List.prefix_refl _) hpath (by simp [lsWorld]) rfl h ?_
  intro p t ht hread hsent
  exact ⟨_, .refl, rfl, by rw [ht]; exact hread, hsent⟩

theorem entry_replicate {b : UInt8} {n : Nat} (hb : b ≠ slash ∧ b ≠ 0 ∧ b ≠ newline) (hn : 0 < n ∧ n ≤ 255) :
    Entry (List.replicate n b) where
  ne_nil := List.ne_nil_of_length_pos (by rw [List.length_replicate]; exact hn.1)
  short := by rw [List.length_replicate]; exact hn.2
  noSlash h := hb.1 (List.mem_replicate.1 h).2.symm
  noZero h := hb.2.1 (List.mem_replicate.1 h).2.symm
  noNewline h := hb.2.2 (List.mem_replicate.1 h).2.symm

/-- A directory with one file. -/
theorem handleLs_lists_one : ∃ v type msg,
    Steps (kernel (.quiet fun _ => False)) (handleLs .start, lsWorld) (.ret (.ok, .start), v) ∧
    namesRead v.proc.trace = [lit ".", lit "a"] ∧ Answered lsWorld v .ok type msg ∧
      (type = .error ∨ type = .ack ∧ listed msg = [lit "a"]) := by
  have hentry : ∀ name ∈ [lit ".", lit "a"], Entry name := by
    simp only [List.forall_mem_cons]
    exact ⟨entry_replicate (n := 1) (b := 46) (by decide) (by decide),
      entry_replicate (n := 1) (b := 97) (by decide) (by decide), by simp⟩
  have htext : lsText [lit ".", lit "a"] = some (lit "a\n") := by
    rw [lsText_eq hentry]
    decide
  obtain ⟨⟨_, v⟩, hrun, rfl, hread, -⟩ := lsWorld_run htext
  obtain ⟨t, type, msg, ht, hanswered, hlists⟩ := handleLs_lists hrun
  rw [show v.proc.trace = t from ht] at hread
  have hone : entries [lit ".", lit "a"] = [lit "a"] := by decide
  have hmerged : ¬ Merged [lit ".", lit "a"] := by
    rintro ⟨init, x, y, heq, -⟩
    rw [hone] at heq
    simpa using congrArg List.length heq
  rw [hread, hone] at hlists
  exact ⟨v, type, msg, hrun, (congrArg namesRead ht).trans hread, hanswered, (hlists hentry).2 hmerged⟩

/-- Fifteen names of 255 bytes, one of 254 and one of one byte. -/
def fullNames : List Bytes :=
  [97, 98, 99, 100, 101, 102, 103, 104, 105, 106, 107, 108, 109, 110, 111].map (List.replicate 255)

def mergedNames : List Bytes := fullNames ++ [List.replicate 254 112, List.replicate 1 113]

theorem length_joined {names : List Bytes} {n : Nat} (h : ∀ name ∈ names, name.length = n) :
    (joined names).length = names.length * (n + 1) := by
  induction names with
  | nil => simp
  | cons name names ih =>
    rw [List.forall_mem_cons] at h
    rw [joined_cons, List.length_append, List.length_cons, ih h.2, h.1, List.length_cons, Nat.succ_mul]
    omega

theorem mergedNames_entry : ∀ name ∈ mergedNames, Entry name := by
  have hfull : ∀ name ∈ fullNames, Entry name := by
    rw [fullNames, List.forall_mem_map]
    intro b hb
    have hall : [97, 98, 99, 100, 101, 102, 103, 104, 105, 106, 107, 108, 109, 110, 111].all
        (fun b : UInt8 => decide (b ≠ slash ∧ b ≠ 0 ∧ b ≠ newline)) = true := by decide
    exact entry_replicate (of_decide_eq_true (List.all_eq_true.1 hall b hb)) (by decide)
  rw [mergedNames, List.forall_mem_append]
  refine ⟨hfull, ?_⟩
  simp only [List.forall_mem_cons]
  exact ⟨entry_replicate (by decide) (by decide), entry_replicate (by decide) (by decide), by simp⟩

theorem mergedNames_merged : Merged mergedNames := by
  refine ⟨fullNames, List.replicate 254 112, List.replicate 1 113, ?_, ?_, rfl⟩
  · exact List.filter_eq_self.2 (by decide)
  · have hfull : (joined fullNames).length = 15 * (255 + 1) := by
      apply length_joined
      rw [fullNames, List.forall_mem_map]
      intro b _
      exact List.length_replicate
    rw [List.length_append, hfull, List.length_replicate]
    rfl

/-- It is answered with a text that lists one name less. -/
theorem handleLs_merges : (∀ name ∈ mergedNames, Entry name) ∧ ∃ v msg,
    Steps (kernel (.quiet fun _ => False)) (handleLs .start, lsWorld) (.ret (.ok, .start), v) ∧
    namesRead v.proc.trace = mergedNames ∧ v.proc.sent = (textPacket .ack .ok msg).wire ∧
    listed msg ≠ entries mergedNames := by
  obtain ⟨msg, hmsg⟩ := Option.ne_none_iff_exists'.1 (lsText_merged mergedNames_entry mergedNames_merged)
  obtain ⟨⟨_, v⟩, hrun, rfl, hread, hsent⟩ := lsWorld_run hmsg
  exact ⟨mergedNames_entry, v, msg, hrun, hread, hsent, fun h =>
    (listed_lsText mergedNames_entry hmsg).1 h mergedNames_merged⟩

end Server
end WindCloud
