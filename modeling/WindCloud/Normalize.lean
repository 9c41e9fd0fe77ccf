import WindCloud.Path
/-!
# Which arguments `normalize_virtual_path` refuses

The token loop refuses a path only when a rendered prefix of it does not fit (`handle.c:209`). A prefix is never
longer than what it was made from, a component with its slash (`weight`), so this can happen in one
place only: the merged path has 4095 bytes, which is the most that `merged` takes, every component of it is a
name, and the slash in front makes it one byte too long (`foldlM_boundary`).

| here | there |
| --- | --- |
| `merged`      | `merged` (`handle.c:166-172`) |
| `VPath.names` | the directories from the root down, as in `normalized` |
-/

namespace WindCloud

/-- The current path and the argument put together. -/
def merged (currentPath arg : Bytes) : Bytes :=
  if currentPath = rootPath then arg else currentPath.drop 1 ++ slash :: arg

/-- The length of components with a slash each. -/
def weight (ts : List Bytes) : Nat := (ts.map (·.length + 1)).sum

@[simp] theorem weight_nil : weight [] = 0 := rfl
@[simp] theorem weight_cons (t : Bytes) (ts : List Bytes) : weight (t :: ts) = t.length + 1 + weight ts := rfl

theorem weight_pieces (s : Bytes) : weight (pieces s) = s.length + 1 := by
  induction s with
  | nil => rfl
  | cons b s ih =>
    rw [pieces]
    split
    · simp [ih]
      omega
    · obtain ⟨p, ps, hp⟩ := List.exists_cons_of_ne_nil (pieces_ne_nil s)
      rw [hp, weight_cons] at ih
      simp only [hp, weight_cons, List.length_cons]
      omega

/-! ## One component -/

namespace VPath

variable {v : VPath} {t : Bytes}

theorem length_tail_pop (v : VPath) : v.pop.tail.length ≤ v.tail.length := by
  rcases v.eq_root_or_push with hv | ⟨u, t, ht, rfl⟩
  · simp [pop, tail, hv]
  · rw [pop_push, tail_push, List.length_append]
    omega

theorem step_of_name (h : IsName t) : v.step t = v.push t h := by
  rw [step, dif_neg (not_or.2 ⟨h.2.2.1, h.1⟩), dif_neg h.2.2.2, dif_neg h.2.1]

/-- A component that is no name does not make the path longer. -/
theorem length_tail_step (h : ¬ IsName t) : (v.step t).tail.length ≤ v.tail.length := by
  unfold step
  split
  · exact le_refl _
  split
  · exact length_tail_pop v
  split
  · exact le_refl _
  · rename_i h0 h1 h2
    exact absurd (.of_not h0 h1 h2) h

/-- `/` and the names with slashes between them. -/
theorem render_eq (v : VPath) : v.render = slash :: [slash].intercalate v.names := by
  rw [render]
  split
  · rename_i h
    rw [h]
    rfl
  · rename_i h
    rw [tail]
    generalize v.names = ns at h
    induction ns with
    | nil => exact absurd rfl h
    | cons c cs ih =>
      cases cs with
      | nil => simp [List.intercalate]
      | cons d ds =>
        rw [List.flatMap_cons, ih (by simp)]
        simp [List.intercalate]

end VPath

section Token

variable {v : VPath} {t : Bytes} {ts : List Bytes}

/-- A name, which fits or not. -/
theorem normalizeToken_name (h : IsName t) : normalizeToken v.render t =
    if v.tail.length + (t.length + 1) < pathMax then some (v.step t).render else none := by
  have hlen : (v.tail ++ slash :: t).length = v.tail.length + (t.length + 1) := by simp
  rw [normalizeToken, if_neg (not_or.2 ⟨h.2.2.1, h.1⟩), if_neg h.2.2.2, VPath.step_of_name h, VPath.render_push]
  simp only [candidate_render, hlen, ge_iff_le]
  by_cases hroom : v.tail.length + (t.length + 1) < pathMax
  · rw [if_neg (Nat.not_le.2 hroom), if_pos hroom, truncate_eq (by omega)]
  · rw [if_pos (Nat.not_lt.1 hroom), if_neg hroom]

/-- A component that is no name needs no room. -/
theorem normalizeToken_of_not_name (hs : slash ∉ t) (h : ¬ IsName t) :
    normalizeToken v.render t = some (v.step t).render := by
  unfold normalizeToken VPath.step
  by_cases h0 : t = dot ∨ t = []
  · rw [if_pos h0, dif_pos h0]
  · by_cases h1 : t = dotdot
    · rw [if_neg h0, if_pos h1, dif_neg h0, dif_pos h1]
      exact popOneLevel_render v
    · exact absurd (.of_not h0 h1 hs) h

/-- After a component the path has room for what is left. -/
theorem length_tail_step_le (t : Bytes) : (v.step t).tail.length ≤ v.tail.length + (t.length + 1) := by
  by_cases h : IsName t
  · rw [VPath.step_of_name h, VPath.tail_push]
    simp
  · have := VPath.length_tail_step (v := v) h
    omega

/-! ## The loop -/

/-- The loop may as well see the empty components. -/
theorem foldlM_tokens (s normalized : Bytes) :
    (tokens s).foldlM normalizeToken normalized = (pieces s).foldlM normalizeToken normalized := by
  rw [tokens]
  induction pieces s generalizing normalized with
  | nil => rfl
  | cons p ps ih =>
    by_cases hp : p = []
    · have hskip : normalizeToken normalized p = some normalized := if_pos (.inr hp)
      rw [List.filter_cons_of_neg (by simpa using hp), List.foldlM_cons, hskip, ih]
      rfl
    · rw [List.filter_cons_of_pos (by simpa using hp), List.foldlM_cons, List.foldlM_cons]
      congr 1
      funext normalized'
      exact ih normalized'

/-- With room for every component the loop succeeds. -/
theorem foldlM_room (hs : ∀ t ∈ ts, slash ∉ t) (hroom : v.tail.length + weight ts < pathMax) :
    ts.foldlM normalizeToken v.render = some (ts.foldl VPath.step v).render := by
  induction ts generalizing v with
  | nil => rfl
  | cons t ts ih =>
    rw [List.forall_mem_cons] at hs
    rw [weight_cons] at hroom
    have hstep : normalizeToken v.render t = some (v.step t).render := by
      by_cases h : IsName t
      · rw [normalizeToken_name h, if_pos (by omega)]
      · exact normalizeToken_of_not_name hs.1 h
    have hle := length_tail_step_le (v := v) t
    rw [List.foldlM_cons, hstep, List.foldl_cons]
    exact ih hs.2 (by omega)

/-- One byte short, it succeeds exactly when some component is no name. -/
theorem foldlM_boundary (hs : ∀ t ∈ ts, slash ∉ t) (hne : ts ≠ []) (hroom : v.tail.length + weight ts = pathMax) :
    (∀ t ∈ ts, IsName t) ∧ ts.foldlM normalizeToken v.render = none ∨
      (¬ ∀ t ∈ ts, IsName t) ∧ ts.foldlM normalizeToken v.render = some (ts.foldl VPath.step v).render := by
  induction ts generalizing v with
  | nil => exact absurd rfl hne
  | cons t ts ih =>
    rw [List.forall_mem_cons] at hs
    rw [weight_cons] at hroom
    simp only [List.forall_mem_cons, List.foldlM_cons, List.foldl_cons]
    by_cases h : IsName t
    · by_cases hlast : ts = []
      · subst hlast
        rw [weight_nil] at hroom
        rw [normalizeToken_name h, if_neg (by omega)]
        exact .inl ⟨⟨h, by simp⟩, rfl⟩
      · have hpos : 0 < weight ts := by
          obtain ⟨t', ts', rfl⟩ := List.exists_cons_of_ne_nil hlast
          rw [weight_cons]
          omega
        have hlen : (v.step t).tail.length = v.tail.length + (t.length + 1) := by
          rw [VPath.step_of_name h, VPath.tail_push]
          simp
        rw [normalizeToken_name h, if_pos (by omega)]
        rcases ih hs.2 hlast (v := v.step t) (by omega) with ⟨hall, hnone⟩ | ⟨hall, hsome⟩
        · exact .inl ⟨⟨h, hall⟩, hnone⟩
        · exact .inr ⟨fun hall' => hall hall'.2, hsome⟩
    · -- from here on there is a byte to spare
      have hle := VPath.length_tail_step (v := v) h
      rw [normalizeToken_of_not_name hs.1 h]
      exact .inr ⟨fun hall => h hall.1, foldlM_room hs.2 (by omega)⟩

end Token

/-- **What `normalize_virtual_path` refuses and what it returns.** From a canonical path, on any argument: it fails
exactly when the argument is empty or absolute, when the merged path does not fit, or when that has the greatest
length that fits and every component of it is a name. Otherwise it returns the whole rendering of the stack that
the components make, and `pop_one_level` never fails on the way. -/
theorem normalizeVirtualPath_exact (v : VPath) (arg : Bytes) :
    (normalizeVirtualPath v.render arg pathMax = none ↔ arg = [] ∨ arg.head? = some slash ∨
      pathMax ≤ (merged v.render arg).length ∨
      (merged v.render arg).length = pathMax - 1 ∧ ∀ c ∈ pieces (merged v.render arg), IsName c) ∧
    (∀ out, normalizeVirtualPath v.render arg pathMax = some out → out.length < pathMax ∧
      out = ((pieces (merged v.render arg)).foldl VPath.step .root).render ∧
      out = slash :: [slash].intercalate ((pieces (merged v.render arg)).foldl VPath.step .root).names) ∧
    ∀ ts normalized, ts <+: tokens (merged v.render arg) → ts.foldlM normalizeToken rootPath = some normalized →
      popOneLevel normalized ≠ none := by
  generalize hm : merged v.render arg = m
  have hm' : (if v.render = rootPath then arg else v.render.drop 1 ++ slash :: arg) = m := hm
  have hs : ∀ c ∈ pieces m, slash ∉ c := slash_notMem_pieces m
  have hroot : VPath.root.tail.length = 0 := rfl
  have hweight := weight_pieces m
  -- what is refused before the loop
  have hrefused (h : arg = [] ∨ arg.head? = some slash ∨ pathMax ≤ m.length) :
      normalizeVirtualPath v.render arg pathMax = none := by
    unfold normalizeVirtualPath
    by_cases h0 : arg = []
    · exact if_pos h0
    · by_cases h1 : arg.head? = some slash
      · rw [if_neg h0, if_pos h1]
      · rw [if_neg h0, if_neg h1, hm', if_pos ((h.resolve_left h0).resolve_left h1)]
  have hloop (h : ¬ (arg = [] ∨ arg.head? = some slash ∨ pathMax ≤ m.length)) :
      normalizeVirtualPath v.render arg pathMax =
        ((pieces m).foldlM normalizeToken VPath.root.render).map (truncate pathMax) := by
    rw [not_or, not_or, not_le] at h
    simp only [normalizeVirtualPath, if_neg h.1, if_neg h.2.1, hm', if_neg (Nat.not_le.2 h.2.2), truncate_eq h.2.2,
      foldlM_tokens]
    rfl
  have hpop (ts : List Bytes) (normalized : Bytes) (hts : ts <+: tokens m)
      (h : ts.foldlM normalizeToken rootPath = some normalized) : popOneLevel normalized ≠ none := by
    have hts' : ∀ t ∈ ts, slash ∉ t := fun t ht => hs t (List.mem_of_mem_filter (hts.subset ht))
    obtain ⟨rfl, -⟩ := foldlM_normalizeToken hts' .root h (by decide)
    rw [popOneLevel_render]
    simp
  refine ⟨?_, fun out h => ?_, hpop⟩
  · by_cases hearly : arg = [] ∨ arg.head? = some slash ∨ pathMax ≤ m.length
    · apply iff_of_true (hrefused hearly)
      rcases hearly with h | h | h
      · exact .inl h
      · exact .inr (.inl h)
      · exact .inr (.inr (.inl h))
    · rw [hloop hearly, Option.map_eq_none_iff]
      rw [not_or, not_or, not_le] at hearly
      constructor
      · intro hnone
        refine .inr (.inr (.inr ?_))
        by_cases hlen : m.length = pathMax - 1
        · refine ⟨hlen, ?_⟩
          rcases foldlM_boundary hs (pieces_ne_nil m) (v := .root) (by rw [hroot, hweight, hlen]; rfl) with
            ⟨hall, -⟩ | ⟨-, hsome⟩
          · exact hall
          · rw [hsome] at hnone
            cases hnone
        · rw [foldlM_room hs (v := .root) (by omega)] at hnone
          cases hnone
      · rintro (h | h | h | ⟨hlen, hall⟩)
        · exact absurd h hearly.1
        · exact absurd h hearly.2.1
        · exact absurd h (Nat.not_le.2 hearly.2.2)
        · rcases foldlM_boundary hs (pieces_ne_nil m) (v := .root) (by rw [hroot, hweight, hlen]; rfl) with
            ⟨-, hnone⟩ | ⟨hall', -⟩
          · exact hnone
          · exact absurd hall hall'
  · have hearly : ¬ (arg = [] ∨ arg.head? = some slash ∨ pathMax ≤ m.length) := fun hearly => by
      rw [hrefused hearly] at h
      cases h
    rw [hloop hearly, Option.map_eq_some_iff] at h
    obtain ⟨normalized, hfold, rfl⟩ := h
    obtain ⟨rfl, hlen⟩ := foldlM_normalizeToken hs .root hfold (by decide)
    rw [truncate_eq hlen]
    exact ⟨hlen, rfl, VPath.render_eq _⟩

end WindCloud
