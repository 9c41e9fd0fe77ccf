import WindCloud.Protocol
/-!
# Virtual paths

| here | there |
| --- | --- |
| `popOneLevel`          | `pop_one_level` (`handle.c:99`) |
| `normalizeVirtualPath` | `normalize_virtual_path` (`handle.c:138`); `normalizeToken` is one round of its loop |
| `buildRealPath`        | `build_real_path` (`handle.c:233`) |
| `resolveTargetPath`    | `resolve_target_path` (`handle.c:262`) |

The source works on strings. `VPath` is what the strings stand for: a stack of names. The
functions are followed on rendered stacks: `popOneLevel` pops, a token steps
(`normalizeToken_render`), and so every path the server resolves is the rendering of a stack
(`normalizeVirtualPath_render`).
-/

namespace WindCloud

def slash : UInt8 := 47
def dot : Bytes := lit "."
def dotdot : Bytes := lit ".."
def rootPath : Bytes := [slash]
/-- `SERVER_BASE_DIR` (`handle.c:24`). -/
def serverBaseDir : Bytes := lit "../tests"

/-- `strrchr`, as an index. -/
def strrchr (c : UInt8) : Bytes → Option Nat
  | [] => none
  | b :: s =>
    match strrchr c s with
    | some i => some (i + 1)
    | none => if b = c then some 0 else none

/-- The pieces between slashes, empty ones included. -/
def pieces : Bytes → List Bytes
  | [] => [[]]
  | b :: s =>
    if b = slash then [] :: pieces s
    else match pieces s with
      | [] => [[b]]
      | p :: ps => (b :: p) :: ps

/-- What `strtok_r(.., "/", ..)` delivers: the non-empty pieces. -/
def tokens (s : Bytes) : List Bytes := (pieces s).filter (· ≠ [])

def popOneLevel (path : Bytes) : Option Bytes :=
  if path = rootPath then some path
  else match strrchr slash path with
    | none => none
    | some 0 => some (path.take 1)
    | some i => some (path.take i)

/-- One round of the token loop (`handle.c:182-215`). -/
def normalizeToken (normalized token : Bytes) : Option Bytes :=
  if token = dot ∨ token = [] then some normalized
  else if token = dotdot then popOneLevel normalized
  else
    let candidate := if normalized = rootPath then slash :: token else normalized ++ slash :: token
    if candidate.length ≥ pathMax then none else some (truncate pathMax candidate)

def normalizeVirtualPath (currentPath arg : Bytes) (outSz : Nat) : Option Bytes :=
  if arg = [] then none
  else if arg.head? = some slash then none
  else
    let merged := if currentPath = rootPath then arg else currentPath.drop 1 ++ slash :: arg
    if merged.length ≥ pathMax then none
    else
      let work := truncate pathMax merged
      ((tokens work).foldlM normalizeToken rootPath).map (truncate outSz)

def buildRealPath (virtualPath : Bytes) (realSz : Nat) : Option Bytes :=
  let path := if virtualPath = rootPath then serverBaseDir else serverBaseDir ++ virtualPath
  if path.length ≥ realSz then none else some (truncate realSz path)

/-- The virtual and the real path of a request's argument. -/
def resolveTargetPath (currentPath arg : Bytes) (virtualSz realSz : Nat) : Option (Bytes × Bytes) :=
  match normalizeVirtualPath currentPath arg virtualSz with
  | none => none
  | some virtualPath =>
    match buildRealPath virtualPath realSz with
    | none => none
    | some realPath => some (virtualPath, realPath)

/-! ## Stacks of names -/

/-- A name that may stand in a normalised path. -/
def IsName (c : Bytes) : Prop := c ≠ [] ∧ slash ∉ c ∧ c ≠ dot ∧ c ≠ dotdot

theorem IsName.of_not {c : Bytes} (h0 : ¬ (c = dot ∨ c = [])) (h1 : c ≠ dotdot) (h2 : slash ∉ c) :
    IsName c := ⟨fun h => h0 (.inr h), h2, fun h => h0 (.inl h), h1⟩

/-- A normalised virtual path: the names from the root down. -/
structure VPath where
  names : List Bytes
  ok : ∀ c ∈ names, IsName c

namespace VPath

def root : VPath := ⟨[], by simp⟩

/-- `/c₁/…/cₙ`, without the root's own slash. -/
def tail (v : VPath) : Bytes := v.names.flatMap (slash :: ·)

def render (v : VPath) : Bytes := if v.names = [] then rootPath else v.tail

def pop (v : VPath) : VPath := ⟨v.names.dropLast, fun c hc => v.ok c (List.mem_of_mem_dropLast hc)⟩

def push (v : VPath) (t : Bytes) (h : IsName t) : VPath :=
  ⟨v.names ++ [t], by simpa [or_imp, forall_and] using ⟨v.ok, h⟩⟩

/-- What a component does: nothing, up, or down. -/
def step (v : VPath) (t : Bytes) : VPath :=
  if h0 : t = dot ∨ t = [] then v
  else if h1 : t = dotdot then v.pop
  else if h2 : slash ∈ t then v
  else v.push t (.of_not h0 h1 h2)

@[simp] theorem render_root : root.render = rootPath := rfl

theorem tail_push (v : VPath) (t : Bytes) (h : IsName t) : (v.push t h).tail = v.tail ++ slash :: t := by
  simp [tail, push]

theorem render_push (v : VPath) (t : Bytes) (h : IsName t) :
    (v.push t h).render = v.tail ++ slash :: t := by
  rw [render, if_neg (by simp [push]), tail_push]

/-- A path other than the root ends in a name. -/
theorem eq_root_or_push (v : VPath) : v.names = [] ∨ ∃ u t h, v = push u t h := by
  obtain ⟨ns, hns⟩ := v
  rcases List.eq_nil_or_concat ns with rfl | ⟨us, t, rfl⟩
  · exact .inl rfl
  · have hus : ∀ c ∈ us, IsName c := fun c hc => hns c (by simp [hc])
    exact .inr ⟨⟨us, hus⟩, t, hns t (by simp), by simp [push]⟩

@[simp] theorem pop_push (v : VPath) (t : Bytes) (h : IsName t) : (v.push t h).pop = v := by
  simp [pop, push]

theorem render_ne_root {v : VPath} (h : v.names ≠ []) : v.render = v.tail ∧ v.tail ≠ rootPath := by
  refine ⟨if_neg h, ?_⟩
  rcases v.eq_root_or_push with hv | ⟨u, t, ht, rfl⟩
  · exact absurd hv h
  · rw [tail_push]
    intro he
    have hlen := congrArg List.length he
    have := List.length_pos_of_ne_nil ht.1
    simp [rootPath] at hlen
    omega

theorem render_eq_root {v : VPath} : v.render = rootPath ↔ v.names = [] := by
  constructor
  · intro he
    by_contra h
    have := render_ne_root h
    exact this.2 (this.1 ▸ he)
  · intro h
    rw [render, if_pos h]

end VPath

/-! ## The functions on rendered stacks -/

theorem strrchr_append {c : UInt8} (s : Bytes) {t : Bytes} (h : c ∉ t) :
    strrchr c (s ++ c :: t) = some s.length := by
  have hn : strrchr c t = none := by
    induction t with
    | nil => rfl
    | cons b t ih =>
      rw [List.mem_cons, not_or] at h
      simp [strrchr, ih h.2, Ne.symm h.1]
  induction s with
  | nil => simp [strrchr, hn]
  | cons b s ih => simp [strrchr, ih]

theorem popOneLevel_render (v : VPath) : popOneLevel v.render = some v.pop.render := by
  rcases v.eq_root_or_push with hv | ⟨u, t, ht, rfl⟩
  · have hp : v.pop.names = [] := by simp [VPath.pop, hv]
    rw [VPath.render_eq_root.2 hv, VPath.render_eq_root.2 hp]
    rfl
  · have hne : (u.push t ht).render ≠ rootPath := by simp [VPath.render_eq_root, VPath.push]
    rw [popOneLevel, if_neg hne, VPath.render_push, strrchr_append _ ht.2.1, VPath.pop_push]
    rcases u.eq_root_or_push with hu | ⟨u', t', ht', rfl⟩
    · have htail : u.tail = [] := by simp [VPath.tail, hu]
      rw [htail, VPath.render_eq_root.2 hu]
      rfl
    · have hr : (u'.push t' ht').render = (u'.push t' ht').tail := by
        rw [VPath.render_push, VPath.tail_push]
      obtain ⟨n, hn⟩ : ∃ n, (u'.push t' ht').tail.length = n + 1 :=
        ⟨u'.tail.length + t'.length, by simp [VPath.tail_push]; omega⟩
      have htake : ((u'.push t' ht').tail ++ slash :: t).take (n + 1) = (u'.push t' ht').tail := by
        rw [← hn, List.take_left']
        rfl
      simp only [hr, hn, htake]

theorem candidate_render (v : VPath) (t : Bytes) :
    (if v.render = rootPath then slash :: t else v.render ++ slash :: t) = v.tail ++ slash :: t := by
  by_cases hn : v.names = []
  · rw [if_pos (VPath.render_eq_root.2 hn)]
    simp [VPath.tail, hn]
  · rw [if_neg (mt VPath.render_eq_root.1 hn), (VPath.render_ne_root hn).1]

theorem normalizeToken_render (v : VPath) {t : Bytes} (hs : slash ∉ t) {out : Bytes}
    (h : normalizeToken v.render t = some out) (hv : v.render.length < pathMax) :
    out = (v.step t).render ∧ out.length < pathMax := by
  unfold normalizeToken at h
  unfold VPath.step
  split at h
  · rename_i h0
    obtain rfl := Option.some.inj h
    rw [dif_pos h0]
    exact ⟨rfl, hv⟩
  split at h
  · rename_i h0 h1
    rw [popOneLevel_render] at h
    obtain rfl := Option.some.inj h
    rw [dif_neg h0, dif_pos h1]
    refine ⟨rfl, ?_⟩
    rcases v.eq_root_or_push with hv' | ⟨u, t', ht, rfl⟩
    · have : v.pop.names = [] := by simp [VPath.pop, hv']
      rw [VPath.render_eq_root.2 this]
      decide
    · rw [VPath.render_push] at hv
      rw [VPath.pop_push, VPath.render]
      split
      · decide
      · simp at hv
        omega
  · rename_i h0 h1
    rw [dif_neg h0, dif_neg h1, dif_neg hs, VPath.render_push]
    simp only [candidate_render] at h
    split at h
    · cases h
    · rename_i hlt
      rw [not_le] at hlt
      rw [truncate_eq hlt] at h
      obtain rfl := Option.some.inj h
      exact ⟨rfl, hlt⟩

theorem slash_notMem_pieces (s : Bytes) : ∀ p ∈ pieces s, slash ∉ p := by
  induction s with
  | nil => simp [pieces]
  | cons b s ih =>
    rw [pieces]
    split
    · simpa using ih
    · rename_i hb
      split
      · simpa using fun h => hb h.symm
      · rename_i p ps hp
        rw [hp] at ih
        simp only [List.forall_mem_cons] at ih ⊢
        exact ⟨by simpa [ih.1] using fun h => hb h.symm, ih.2⟩

/-- The whole token loop. -/
theorem foldlM_normalizeToken {ts : List Bytes} (hts : ∀ t ∈ ts, slash ∉ t) (v : VPath) {out : Bytes}
    (h : ts.foldlM normalizeToken v.render = some out) (hv : v.render.length < pathMax) :
    out = (ts.foldl VPath.step v).render ∧ out.length < pathMax := by
  induction ts generalizing v with
  | nil =>
    obtain rfl := Option.some.inj h
    exact ⟨rfl, hv⟩
  | cons t ts ih =>
    rw [List.forall_mem_cons] at hts
    rw [List.foldlM_cons] at h
    obtain ⟨mid, hmid, h⟩ := Option.bind_eq_some_iff.1 h
    obtain ⟨rfl, hlen⟩ := normalizeToken_render v hts.1 hmid hv
    exact ih hts.2 _ h hlen

/-- A resolved virtual path is the rendering of a stack, and fits its buffer. -/
theorem normalizeVirtualPath_render {currentPath arg out : Bytes}
    (h : normalizeVirtualPath currentPath arg pathMax = some out) :
    ∃ v : VPath, out = v.render ∧ out.length < pathMax := by
  unfold normalizeVirtualPath at h
  split at h
  · cases h
  split at h
  · cases h
  simp only at h
  generalize (if currentPath = rootPath then arg else currentPath.drop 1 ++ slash :: arg) = merged at h
  split at h
  · cases h
  · obtain ⟨out', hfold, rfl⟩ := Option.map_eq_some_iff.1 h
    obtain ⟨rfl, hlen⟩ := foldlM_normalizeToken
      (fun t ht => slash_notMem_pieces _ t (List.mem_of_mem_filter ht)) VPath.root hfold (by decide)
    rw [truncate_eq hlen]
    exact ⟨_, rfl, hlen⟩

/-! ## What an argument does to a stack -/

/-- The components of an argument, one after the other. -/
def VPath.walk (v : VPath) (arg : Bytes) : VPath := (pieces arg).foldl VPath.step v

theorem pieces_ne_nil (s : Bytes) : pieces s ≠ [] := by
  cases s with
  | nil => simp [pieces]
  | cons b s =>
    rw [pieces]
    split
    · simp
    · split <;> simp

theorem pieces_append_slash (a b : Bytes) : pieces (a ++ slash :: b) = pieces a ++ pieces b := by
  induction a with
  | nil => simp [pieces]
  | cons c a ih =>
    rw [List.cons_append, pieces, pieces, ih]
    by_cases hc : c = slash
    · simp [hc]
    · rw [if_neg hc, if_neg hc]
      obtain ⟨p, ps, hp⟩ := List.exists_cons_of_ne_nil (pieces_ne_nil a)
      simp [hp]

theorem pieces_of_notMem {s : Bytes} (h : slash ∉ s) : pieces s = [s] := by
  induction s with
  | nil => rfl
  | cons b s ih =>
    rw [List.mem_cons, not_or] at h
    rw [pieces, if_neg (Ne.symm h.1), ih h.2]

/-- Empty pieces do nothing. -/
theorem foldl_tokens (s : Bytes) (v : VPath) : (tokens s).foldl VPath.step v = v.walk s := by
  rw [tokens, VPath.walk]
  induction pieces s generalizing v with
  | nil => rfl
  | cons p ps ih =>
    by_cases hp : p = []
    · have hskip : v.step p = v := by rw [hp]; exact dif_pos (.inr rfl)
      rw [List.filter_cons_of_neg (by simpa using hp), List.foldl_cons, hskip, ih]
    · rw [List.filter_cons_of_pos (by simpa using hp), List.foldl_cons, List.foldl_cons, ih]

namespace VPath

theorem walk_append_slash (v : VPath) (a b : Bytes) : v.walk (a ++ slash :: b) = (v.walk a).walk b := by
  rw [walk, pieces_append_slash, List.foldl_append]
  rfl

theorem walk_slash (v : VPath) (s : Bytes) : v.walk (slash :: s) = v.walk s := by
  have h := v.walk_append_slash [] s
  have h0 : v.walk [] = v := by
    show v.step [] = v
    exact dif_pos (.inr rfl)
  rwa [List.nil_append, h0] at h

theorem walk_name (v : VPath) {t : Bytes} (h : IsName t) : v.walk t = v.push t h := by
  rw [walk, pieces_of_notMem h.2.1, List.foldl_cons, List.foldl_nil, step, dif_neg (not_or.2 ⟨h.2.2.1, h.1⟩),
    dif_neg h.2.2.2, dif_neg h.2.1]

/-- Printing a stack and walking down it again. -/
theorem walk_tail (v : VPath) : root.walk v.tail = v := by
  obtain ⟨n, hn⟩ : ∃ n, v.names.length = n := ⟨_, rfl⟩
  induction n generalizing v with
  | zero =>
    obtain ⟨names, ok⟩ := v
    obtain rfl : names = [] := List.length_eq_zero_iff.1 hn
    rfl
  | succ n ih =>
    rcases v.eq_root_or_push with hv | ⟨u, t, ht, rfl⟩
    · simp [hv] at hn
    · have hu : u.names.length = n := by simpa [push] using hn
      rw [tail_push, walk_append_slash, ih u hu, walk_name]

end VPath

/-- The path that is resolved is the current one, followed by the argument. -/
theorem normalizeVirtualPath_walk {v : VPath} {arg out : Bytes} (h : normalizeVirtualPath v.render arg pathMax = some out) :
    out = (v.walk arg).render ∧ out.length < pathMax := by
  have hmerged : VPath.root.walk (if v.render = rootPath then arg else v.render.drop 1 ++ slash :: arg) = v.walk arg := by
    by_cases hn : v.names = []
    · rw [if_pos (VPath.render_eq_root.2 hn)]
      obtain ⟨names, ok⟩ := v
      obtain rfl : names = [] := hn
      rfl
    · rw [if_neg (mt VPath.render_eq_root.1 hn), (VPath.render_ne_root hn).1]
      obtain ⟨t, ht⟩ : ∃ t, v.tail = slash :: t := by
        obtain ⟨c, cs, hc⟩ := List.exists_cons_of_ne_nil hn
        exact ⟨c ++ cs.flatMap (slash :: ·), by simp [VPath.tail, hc]⟩
      rw [ht, List.drop_one, List.tail_cons, ← VPath.walk_slash, ← List.cons_append, ← ht, VPath.walk_append_slash,
        VPath.walk_tail]
  unfold normalizeVirtualPath at h
  split at h
  · cases h
  split at h
  · cases h
  simp only at h
  generalize (if v.render = rootPath then arg else v.render.drop 1 ++ slash :: arg) = merged at h hmerged
  split at h
  · cases h
  · rename_i hlt
    rw [not_le] at hlt
    rw [truncate_eq hlt] at h
    obtain ⟨out', hfold, rfl⟩ := Option.map_eq_some_iff.1 h
    have hts : ∀ t ∈ tokens merged, slash ∉ t := fun t ht => slash_notMem_pieces _ t (List.mem_of_mem_filter ht)
    obtain ⟨rfl, hlen⟩ := foldlM_normalizeToken hts VPath.root hfold (by decide)
    rw [truncate_eq hlen, foldl_tokens, hmerged]
    rw [foldl_tokens, hmerged] at hlen
    exact ⟨rfl, hlen⟩

theorem buildRealPath_render {v : VPath} {realSz : Nat} {path : Bytes}
    (h : buildRealPath v.render realSz = some path) : path = serverBaseDir ++ v.tail := by
  have hp : (if v.render = rootPath then serverBaseDir else serverBaseDir ++ v.render) =
      serverBaseDir ++ v.tail := by
    by_cases hn : v.names = []
    · rw [if_pos (VPath.render_eq_root.2 hn)]
      simp [VPath.tail, hn]
    · rw [if_neg (mt VPath.render_eq_root.1 hn), (VPath.render_ne_root hn).1]
  simp only [buildRealPath, hp] at h
  split at h
  · cases h
  · rename_i hlt
    rw [not_le] at hlt
    rw [truncate_eq hlt] at h
    exact (Option.some.inj h).symm

/-- **Resolution**: both paths come from one stack. -/
theorem resolveTargetPath_render {currentPath arg virtualPath realPath : Bytes} {realSz : Nat}
    (h : resolveTargetPath currentPath arg pathMax realSz = some (virtualPath, realPath)) :
    ∃ v : VPath, virtualPath = v.render ∧ virtualPath.length < pathMax ∧
      realPath = serverBaseDir ++ v.tail := by
  unfold resolveTargetPath at h
  split at h
  · cases h
  rename_i vp hn
  split at h
  · cases h
  rename_i rp hb
  obtain ⟨rfl, rfl⟩ := Prod.mk.inj (Option.some.inj h)
  obtain ⟨v, rfl, hlen⟩ := normalizeVirtualPath_render hn
  exact ⟨v, rfl, hlen, buildRealPath_render hb⟩

example : resolveTargetPath (lit "/demo") (lit "a/..//./../b") pathMax pathMax =
    some (lit "/b", lit "../tests/b") := by decide

end WindCloud
