import WindCloud.CommandLoop
/-!
# The configuration file

`get_target` reads the file with `fgets` and a buffer of 100 bytes, and splits what it gets with `strtok`
(`config.c:36-81`). `fgets` takes 99 bytes of a line at most, so a longer line comes in pieces, and each is read as
a line. `strtok` skips the `=` signs in front of the key and behind it, and ends the value at the next one. So a
value with an `=` sign is not read as it stands, and a setting can be found behind `=` signs or in the middle of a
long line, a comment too (`readsLines_iff`).

| here | there |
| --- | --- |
| `stripLine`, `Comment`    | `config.c:43`, `:54` |
| `strtok`                  | `strtok(.., "=")`: the token, and where the next call goes on |
| `lineValue`               | the body of the loop (`config.c:43-80`) |
| `readTarget`, `getTarget` | `get_target` (`config.c:20`); `none` is `-1` |
| `loadValueOrDefault`      | `load_value_or_default` (`server.c:49`, `client.c:28`) |
-/

namespace WindCloud

open Client

def equals : UInt8 := 61
def carriageReturn : UInt8 := 13

def stripLine (buf : Bytes) : Bytes := (cstr buf).takeWhile fun b => b != carriageReturn && b != newline

def Comment (line : Bytes) : Prop := line.head? = some 35 ∨ line.head? = some 59

instance (line : Bytes) : Decidable (Comment line) := inferInstanceAs (Decidable (_ ∨ _))

def strtok (s : Bytes) : Option (Bytes × Bytes) :=
  let s := s.dropWhile (· == equals)
  if s = [] then none else some (s.takeWhile (· != equals), (s.dropWhile (· != equals)).drop 1)

def lineValue (key line : Bytes) : Option Bytes :=
  if line = [] then none
  else if Comment line then none
  else match strtok line with
  | none => none
  | some (lineKey, rest) => if key = lineKey then (strtok rest).map Prod.fst else none

/-- `sizeof(line)`. -/
def configLine : Nat := 100

/-- The value, and what is left of the file when it is closed. -/
def readTarget (key file : Bytes) : Option (Bytes × Bytes) :=
  match _h : fgets configLine file with
  | none => none
  | some (buf, rest) =>
    match lineValue key (stripLine buf) with
    | some value => some (value, rest)
    | none => readTarget key rest
termination_by file.length
decreasing_by exact fgets_lt (by decide) _h

/-- `config` is what the file holds, if it can be opened. -/
def getTarget (key : Bytes) (config : Option Bytes) : Option Bytes :=
  config.bind fun file => (readTarget key file).map Prod.fst

def loadValueOrDefault (config : Option Bytes) (key : Bytes) (valueSz : Nat) (defaultValue : Bytes) : Bytes :=
  match getTarget key config with
  | some tmp => truncate valueSz tmp
  | none => truncate valueSz defaultValue

/-! ## What is a setting -/

/-- The lines of the file. -/
def fileLines (text : Bytes) : List Bytes := text.splitOn newline

/-- A line up to its line end. -/
def lineText (line : Bytes) : Bytes := line.takeWhile (· != carriageReturn)

/-- The line sets `key`. -/
def Setting (key line value : Bytes) : Prop := lineText line = key ++ equals :: value ∧ value ≠ [] ∧ ¬ Comment line

instance (key line value : Bytes) : Decidable (Setting key line value) := inferInstanceAs (Decidable (_ ∧ _ ∧ _))

/-- The number of the line that the last bytes read before `rest` are in. -/
def lineNumber (text rest : Bytes) : Nat := ((text.take (text.length - rest.length)).dropLast).count newline

/-- `get_target` finds the first line that sets `key`, and takes what it sets from that line. -/
structure ReadsLines (key text : Bytes) : Prop where
  returns : (getTarget key (some text)).isSome ↔ ∃ line ∈ fileLines text, ∃ value, Setting key line value
  value : ∀ value rest, readTarget key text = some (value, rest) → ∃ before line after,
    fileLines text = before ++ line :: after ∧ before.length = lineNumber text rest ∧
      (∀ l ∈ before, ∀ v, ¬ Setting key l v) ∧ Setting key line value

/-- The part of the line that is read at `99 * k`. -/
def piece (line : Bytes) (k : Nat) : Bytes := (line.drop (99 * k)).take 99

/-- Some piece of the line would set the key, but for `=` signs in front of the key or more than one behind it. -/
def Misread (key line : Bytes) : Prop := ∃ (k m n : Nat) (b : UInt8) (s : Bytes), b ≠ equals ∧ ¬ Comment (piece line k) ∧
  lineText (piece line k) = List.replicate m equals ++ (key ++ (List.replicate (n + 1) equals ++ b :: s))

/-- Up to the first line that sets `key` no line is misread, and that one fits, with no `=` sign in the value. -/
def Clear (key text : Bytes) : Prop :=
  ∀ before line after, fileLines text = before ++ line :: after → (∀ l ∈ before, ∀ v, ¬ Setting key l v) →
    (∀ v, Setting key line v → equals ∉ v ∧ key.length + 1 + v.length ≤ 99) ∧
      ((∀ v, ¬ Setting key line v) → ¬ Misread key line)

/-! ## One line -/

section Line

variable {key line value s : Bytes}

theorem lineText_take (line : Bytes) (n : Nat) : lineText (line.take n) = (lineText line).take n :=
  List.take_takeWhile.symm

theorem stripLine_eq (h0 : 0 ∉ line) (h : newline ∉ line) : stripLine line = lineText line := by
  rw [stripLine, cstr_eq_self h0, lineText]
  induction line with
  | nil => rfl
  | cons b line ih =>
    rw [List.mem_cons, not_or] at h0 h
    have hb : (b != newline) = true := by simpa using Ne.symm h.1
    rw [List.takeWhile_cons, List.takeWhile_cons, ih h0.2 h.2, hb, Bool.and_true]

theorem stripLine_newline (h0 : 0 ∉ line) (h : newline ∉ line) : stripLine (line ++ [newline]) = lineText line := by
  have hz : 0 ∉ line ++ [newline] := fun hmem => (List.mem_append.1 hmem).elim h0 (by decide)
  rw [← stripLine_eq h0 h, stripLine, stripLine, cstr_eq_self hz, cstr_eq_self h0, List.takeWhile_append]
  split
  · rw [List.takeWhile_cons_of_neg (by decide), List.append_nil]
    rename_i hall
    exact ((List.takeWhile_prefix _).eq_of_length hall).symm
  · rfl

theorem comment_lineText : Comment (lineText line) ↔ Comment line := by
  rw [Comment, Comment, lineText, List.head?_takeWhile, Option.filter_eq_some_iff, Option.filter_eq_some_iff]
  simp [carriageReturn]

/-- Any string is `=` signs and then one that does not start with one. -/
theorem exists_equals (s : Bytes) : ∃ m t, s = List.replicate m equals ++ t ∧ t.head? ≠ some equals := by
  induction s with
  | nil => exact ⟨0, [], rfl, nofun⟩
  | cons b s ih =>
    by_cases hb : b = equals
    · obtain ⟨m, t, rfl, ht⟩ := ih
      exact ⟨m + 1, t, by rw [hb, List.replicate_succ, List.cons_append], ht⟩
    · exact ⟨0, b :: s, rfl, by simpa using hb⟩

theorem strtok_replicate (m : Nat) (hs : s.head? ≠ some equals) : strtok (List.replicate m equals ++ s) =
    if s = [] then none else some (s.takeWhile (· != equals), (s.dropWhile (· != equals)).drop 1) := by
  have hdrop : (List.replicate m equals ++ s).dropWhile (· == equals) = s := by
    rw [List.dropWhile_append_of_pos (fun b hb => by simpa using (List.mem_replicate.1 hb).2)]
    cases s with
    | nil => rfl
    | cons b s => exact List.dropWhile_cons_of_neg (by simpa using hs)
  rw [strtok, hdrop]

theorem lineValue_eq_some (hkey : key ≠ []) (heq : equals ∉ key) : lineValue key line = some value ↔
    ¬ Comment line ∧ ∃ m n rest, line = List.replicate m equals ++ (key ++ (List.replicate (n + 1) equals ++ rest)) ∧
      rest.head? ≠ some equals ∧ rest ≠ [] ∧ value = rest.takeWhile (· != equals) := by
  have hall : ∀ b ∈ key, (b != equals) = true := fun b hb => by simpa using fun h : b = equals => heq (h ▸ hb)
  constructor
  · intro h
    rw [lineValue] at h
    split at h
    · cases h
    split at h
    · cases h
    rename_i hne hcomment
    refine ⟨hcomment, ?_⟩
    obtain ⟨m, t, rfl, ht⟩ := exists_equals line
    rw [strtok_replicate m ht] at h
    by_cases htne : t = []
    · rw [if_pos htne] at h
      cases h
    simp only [if_neg htne] at h
    split at h
    · rename_i hk
      -- behind the key there is nothing, or an `=` sign
      have htk : key ++ t.dropWhile (· != equals) = t := by rw [hk, List.takeWhile_append_dropWhile]
      rcases hd : t.dropWhile (· != equals) with _ | ⟨b, r⟩
      · rw [hd] at h
        cases h
      have hb : b = equals := by
        have hnot := List.head?_dropWhile_not (· != equals) t
        rw [hd] at hnot
        simpa using hnot
      obtain ⟨n, rest, rfl, hrest⟩ := exists_equals r
      rw [hd, List.drop_one, List.tail_cons, strtok_replicate n hrest] at h
      by_cases hrne : rest = []
      · rw [if_pos hrne] at h
        cases h
      rw [if_neg hrne] at h
      refine ⟨m, n, rest, ?_, hrest, hrne, (Option.some.inj h).symm⟩
      rw [hd, hb] at htk
      rw [List.replicate_succ, List.cons_append, htk]
    · cases h
  · rintro ⟨hcomment, m, n, rest, rfl, hrest, hrne, rfl⟩
    have hhead : (key ++ (List.replicate (n + 1) equals ++ rest)).head? ≠ some equals := by
      cases key with
      | nil => exact absurd rfl hkey
      | cons b key =>
        intro h
        exact heq (by simp [Option.some.inj h])
    have hne : key ++ (List.replicate (n + 1) equals ++ rest) ≠ [] := List.append_ne_nil_of_left_ne_nil hkey _
    have htake : (key ++ (List.replicate (n + 1) equals ++ rest)).takeWhile (· != equals) = key := by
      rw [List.takeWhile_append_of_pos hall, List.replicate_succ, List.cons_append, List.takeWhile_cons_of_neg (by simp),
        List.append_nil]
    have hdrop : (key ++ (List.replicate (n + 1) equals ++ rest)).dropWhile (· != equals) =
        equals :: (List.replicate n equals ++ rest) := by
      rw [List.dropWhile_append_of_pos hall, List.replicate_succ, List.cons_append, List.dropWhile_cons_of_neg (by simp)]
    rw [lineValue, if_neg (List.append_ne_nil_of_right_ne_nil _ hne), if_neg hcomment, strtok_replicate m hhead]
    simp only [if_neg hne, htake, if_true, hdrop, List.drop_one, List.tail_cons, strtok_replicate n hrest, if_neg hrne,
      Option.map_some]

/-- What is taken from a line, piece by piece. -/
def hit (key line : Bytes) : Option Bytes :=
  if 99 ≤ line.length then
    match lineValue key (lineText (line.take 99)) with
    | some value => some value
    | none => hit key (line.drop 99)
  else lineValue key (lineText line)
termination_by line.length
decreasing_by
  rw [List.length_drop]
  omega

theorem piece_zero (line : Bytes) : piece line 0 = line.take 99 := rfl

theorem piece_succ (line : Bytes) (k : Nat) : piece line (k + 1) = piece (line.drop 99) k := by
  rw [piece, piece, List.drop_drop, Nat.mul_succ, Nat.add_comm]

theorem piece_of_lt (h : line.length < 99) (k : Nat) : lineValue key (lineText (piece line (k + 1))) = none := by
  have hnil : line.drop 99 = [] := List.drop_eq_nil_of_le h.le
  rw [piece_succ, hnil, piece, List.drop_nil, List.take_nil]
  rfl

theorem hit_eq_none : hit key line = none ↔ ∀ k, lineValue key (lineText (piece line k)) = none := by
  induction line using hit.induct key with
  | case1 line hlen value hvalue =>
    rw [hit, if_pos hlen, hvalue]
    refine iff_of_false nofun fun h => ?_
    have hzero := h 0
    rw [piece_zero, hvalue] at hzero
    cases hzero
  | case2 line hlen hnone ih =>
    rw [hit, if_pos hlen, hnone]
    refine ih.trans ⟨fun h k => ?_, fun h k => ?_⟩
    · cases k with
      | zero => exact hnone
      | succ k => exact piece_succ line k ▸ h k
    · exact piece_succ line k ▸ h (k + 1)
  | case3 line hlen =>
    rw [hit, if_neg hlen]
    have hzero : piece line 0 = line := (piece_zero line).trans (List.take_of_length_le (by omega))
    refine ⟨fun h k => ?_, fun h => by rw [← h 0, hzero]⟩
    cases k with
    | zero => rw [hzero, h]
    | succ k => exact piece_of_lt (by omega) k

theorem exists_piece (h : hit key line = some value) : ∃ k, lineValue key (lineText (piece line k)) = some value := by
  induction line using hit.induct key with
  | case1 line hlen value' hvalue =>
    rw [hit, if_pos hlen, hvalue] at h
    exact ⟨0, hvalue.trans h⟩
  | case2 line hlen hnone ih =>
    rw [hit, if_pos hlen, hnone] at h
    obtain ⟨k, hk⟩ := ih h
    exact ⟨k + 1, by rw [piece_succ, hk]⟩
  | case3 line hlen =>
    rw [hit, if_neg hlen] at h
    have hzero : piece line 0 = line := (piece_zero line).trans (List.take_of_length_le (by omega))
    exact ⟨0, by rw [hzero, h]⟩

theorem misread_iff (hkey : key ≠ []) (heq : equals ∉ key) : Misread key line ↔ hit key line ≠ none := by
  rw [ne_eq, hit_eq_none, not_forall]
  refine exists_congr fun k => ?_
  rw [← ne_eq, Option.ne_none_iff_exists']
  constructor
  · rintro ⟨m, n, b, s, hb, hcomment, htext⟩
    refine ⟨_, (lineValue_eq_some hkey heq).2 ⟨comment_lineText.not.2 hcomment, m, n, b :: s, htext, ?_, by simp, rfl⟩⟩
    simpa using hb
  · rintro ⟨value, hvalue⟩
    obtain ⟨hcomment, m, n, rest, htext, hhead, hne, -⟩ := (lineValue_eq_some hkey heq).1 hvalue
    obtain ⟨b, s, rfl⟩ := List.exists_cons_of_ne_nil hne
    exact ⟨m, n, b, s, by simpa using hhead, comment_lineText.not.1 hcomment, htext⟩

/-- A line that sets `key` is read right when it fits and its value has no `=` sign, and not otherwise. -/
theorem Setting.hit_iff (hkey : key ≠ []) (heq : equals ∉ key) (h : Setting key line value) :
    hit key line = some value ↔ equals ∉ value ∧ key.length + 1 + value.length ≤ 99 := by
  obtain ⟨htext, hne, hcomment⟩ := h
  constructor
  · intro hhit
    obtain ⟨k, hk⟩ := exists_piece hhit
    obtain ⟨-, m, n, rest, hpiece, -, -, rfl⟩ := (lineValue_eq_some hkey heq).1 hk
    refine ⟨fun hmem => by simpa using List.mem_takeWhile_imp hmem, ?_⟩
    have hlen : (lineText (piece line k)).length ≤ 99 :=
      (List.takeWhile_prefix _).length_le.trans (List.length_take_le _ _)
    have hpre : (rest.takeWhile (· != equals)).length ≤ rest.length := (List.takeWhile_prefix _).length_le
    rw [hpiece] at hlen
    simp only [List.length_append, List.length_replicate] at hlen
    omega
  · rintro ⟨hvalue, hlen⟩
    have hall : ∀ b ∈ value, (b != equals) = true := fun b hb => by simpa using fun h : b = equals => hvalue (h ▸ hb)
    have hhead : value.head? ≠ some equals := fun h => hvalue (List.mem_of_head? h)
    have hwhole : lineValue key (lineText line) = some value := (lineValue_eq_some hkey heq).2
      ⟨comment_lineText.not.2 hcomment, 0, 0, value, by rw [htext]; rfl, hhead, hne, (List.takeWhile_eq_self_iff.2 hall).symm⟩
    rw [hit]
    split
    · have hfits : (lineText line).take 99 = lineText line := by
        rw [htext]
        apply List.take_of_length_le
        rw [List.length_append, List.length_cons]
        omega
      rw [lineText_take, hfits, hwhole]
    · exact hwhole

/-- A line sets a key to one value. -/
theorem Setting.unique {value' : Bytes} (h : Setting key line value) (h' : Setting key line value') : value = value' := by
  have heq := h.1.symm.trans h'.1
  exact (List.cons.inj (List.append_cancel_left heq)).2

end Line

/-! ## The text -/

section Text

variable {key text file rest buf line value : Bytes}

theorem fgets_append (h : fgets configLine file = some (buf, rest)) : buf ≠ [] ∧ file = buf ++ rest := by
  have hlt := fgets_lt (by decide) h
  have happ : buf ++ rest = file := by
    have hfile := takeLine_append (configLine - 1) file
    rwa [(fgets_eq_some.1 h).2] at hfile
  refine ⟨?_, happ.symm⟩
  rintro rfl
  rw [← happ, List.nil_append] at hlt
  exact lt_irrefl _ hlt

/-- One call of `fgets`. -/
theorem readTarget_step (h : fgets configLine file = some (buf, rest)) : readTarget key file =
    match lineValue key (stripLine buf) with
    | some value => some (value, rest)
    | none => readTarget key rest := by
  rw [readTarget, h]

theorem readTarget_nil : readTarget key [] = none := by
  rw [readTarget]
  rfl

/-- Something has been read before what is left. -/
theorem readTarget_append (h : readTarget key file = some (value, rest)) : ∃ u, u ≠ [] ∧ file = u ++ rest := by
  induction file using readTarget.induct key with
  | case1 file hget =>
    rw [readTarget, hget] at h
    cases h
  | case2 file buf rest' hget value' hvalue =>
    simp only [readTarget_step hget, hvalue, Option.some.injEq, Prod.mk.injEq] at h
    obtain ⟨-, rfl⟩ := h
    exact ⟨buf, fgets_append hget⟩
  | case3 file buf rest' hget hnone ih =>
    simp only [readTarget_step hget, hnone] at h
    obtain ⟨u, -, rfl⟩ := ih h
    obtain ⟨hbuf, rfl⟩ := fgets_append hget
    exact ⟨buf ++ u, List.append_ne_nil_of_left_ne_nil hbuf u, by rw [List.append_assoc]⟩

/-- The number of the line, and the value. -/
def located (key file : Bytes) : Option (Nat × Bytes) :=
  (readTarget key file).map fun x => (lineNumber file x.2, x.1)

theorem lineNumber_append (u rest : Bytes) : lineNumber (u ++ rest) rest = u.dropLast.count newline := by
  rw [lineNumber, List.length_append, Nat.add_sub_cancel, List.take_left]

theorem located_step (h : fgets configLine file = some (buf, rest)) : located key file =
    match lineValue key (stripLine buf) with
    | some value => some (buf.dropLast.count newline, value)
    | none => (located key rest).map fun x => (buf.count newline + x.1, x.2) := by
  obtain ⟨-, rfl⟩ := fgets_append h
  rw [located, readTarget_step h]
  rcases lineValue key (stripLine buf) with _ | value
  · simp only [located, Option.map_map]
    rcases hread : readTarget key rest with _ | ⟨value, rest'⟩
    · rfl
    obtain ⟨u, hu, rfl⟩ := readTarget_append hread
    simp only [Option.map_some, Function.comp_apply, Option.some.injEq, Prod.mk.injEq, and_true]
    rw [lineNumber_append, ← List.append_assoc, lineNumber_append, List.dropLast_append_of_ne_nil hu, List.count_append]
  · simp only [Option.map_some, lineNumber_append]

/-- The first piece of a line that does not fit, whatever follows the line. -/
theorem located_full (h0 : 0 ∉ line) (h : newline ∉ line) (hlen : 99 ≤ line.length) (tail : Bytes) :
    located key (line ++ tail) = match lineValue key (lineText (line.take 99)) with
      | some value => some (0, value)
      | none => located key (line.drop 99 ++ tail) := by
  have htake : (line.take 99).length = 99 := List.length_take_of_le hlen
  have hnl : newline ∉ line.take 99 := fun hmem => h (List.mem_of_mem_take hmem)
  have hz : 0 ∉ line.take 99 := fun hmem => h0 (List.mem_of_mem_take hmem)
  have hfull : takeLine (line.take 99).length (line.take 99 ++ (line.drop 99 ++ tail)) =
      (line.take 99, line.drop 99 ++ tail) := takeLine_full hnl
  rw [htake, ← List.append_assoc, List.take_append_drop] at hfull
  have hne : line ++ tail ≠ [] := List.append_ne_nil_of_left_ne_nil (List.ne_nil_of_length_pos (by omega)) _
  have hinit : newline ∉ (line.take 99).dropLast := fun hmem => hnl (List.mem_of_mem_dropLast hmem)
  rw [located_step (fgets_eq_some.2 ⟨hne, hfull⟩), stripLine_eq hz hnl, List.count_eq_zero.2 hnl, List.count_eq_zero.2 hinit]
  simp only [Nat.zero_add, Option.map_id']

/-- A line with its newline. -/
theorem located_line (h0 : 0 ∉ line) (h : newline ∉ line) : located key (line ++ newline :: rest) =
    match hit key line with
    | some value => some (0, value)
    | none => (located key rest).map fun x => (1 + x.1, x.2) := by
  induction line using hit.induct key with
  | case1 line hlen value hvalue => rw [located_full h0 h hlen, hit, if_pos hlen, hvalue]
  | case2 line hlen hnone ih =>
    rw [located_full h0 h hlen, hit, if_pos hlen, hnone]
    exact ih (fun hmem => h0 (List.mem_of_mem_drop hmem)) fun hmem => h (List.mem_of_mem_drop hmem)
  | case3 line hlen =>
    have hget : fgets configLine (line ++ newline :: rest) = some (line ++ [newline], rest) :=
      fgets_eq_some.2 ⟨by simp, takeLine_line h (Nat.not_le.1 hlen)⟩
    rw [located_step hget, stripLine_newline h0 h, List.dropLast_concat, List.count_append, List.count_eq_zero.2 h, hit,
      if_neg hlen]
    rfl

/-- The last line. -/
theorem located_last (h0 : 0 ∉ line) (h : newline ∉ line) : located key line = (hit key line).map fun value => (0, value) := by
  have hnil : located key [] = none := by rw [located, readTarget_nil, Option.map_none]
  induction line using hit.induct key with
  | case1 line hlen value hvalue =>
    have hfull : located key (line ++ []) = _ := located_full h0 h hlen []
    rw [List.append_nil, hvalue] at hfull
    rw [hfull, hit, if_pos hlen, hvalue, Option.map_some]
  | case2 line hlen hnone ih =>
    have hfull : located key (line ++ []) = _ := located_full h0 h hlen []
    rw [List.append_nil, List.append_nil, hnone] at hfull
    rw [hfull, hit, if_pos hlen, hnone]
    exact ih (fun hmem => h0 (List.mem_of_mem_drop hmem)) fun hmem => h (List.mem_of_mem_drop hmem)
  | case3 line hlen =>
    rw [hit, if_neg hlen]
    by_cases hne : line = []
    · subst hne
      exact hnil
    have hinit : newline ∉ line.dropLast := fun hmem => h (List.mem_of_mem_dropLast hmem)
    rw [located_step (fgets_eq_some.2 ⟨hne, takeLine_last h (Nat.le_of_not_le hlen)⟩), stripLine_eq h0 h, List.count_eq_zero.2 hinit, hnil]
    rcases lineValue key (lineText line) with _ | value
    · rfl
    · rfl

/-- The first of several lines, or the last one. -/
theorem located_first {ls : List Bytes} (h0 : 0 ∉ line) (h : newline ∉ line) :
    located key ([newline].intercalate (line :: ls)) = match hit key line with
      | some value => some (0, value)
      | none => (located key ([newline].intercalate ls)).map fun x => (1 + x.1, x.2) := by
  cases ls with
  | nil =>
    rw [List.intercalate_singleton, List.intercalate_nil, located_last h0 h, located, readTarget_nil]
    rcases hit key line with _ | value
    · rfl
    · rfl
  | cons line' ls =>
    rw [List.intercalate_cons_cons, List.append_assoc]
    exact located_line h0 h

/-- By induction on the lines: the first one with something to take. -/
theorem located_lines {ls : List Bytes} {n : Nat} (hls : ∀ line ∈ ls, 0 ∉ line ∧ newline ∉ line) :
    located key ([newline].intercalate ls) = some (n, value) ↔ ∃ before line after, ls = before ++ line :: after ∧
      before.length = n ∧ (∀ l ∈ before, hit key l = none) ∧ hit key line = some value := by
  induction ls generalizing n with
  | nil =>
    rw [List.intercalate_nil, located, readTarget_nil]
    refine iff_of_false nofun ?_
    rintro ⟨before, line, after, heq, -⟩
    simp at heq
  | cons line ls ih =>
    rw [List.forall_mem_cons] at hls
    rw [located_first hls.1.1 hls.1.2]
    rcases hhit : hit key line with _ | value'
    · simp only [Option.map_eq_some_iff, Prod.mk.injEq, Prod.exists]
      constructor
      · rintro ⟨m, value', hloc, rfl, rfl⟩
        obtain ⟨before, line', after, rfl, rfl, hbefore, hline'⟩ := (ih hls.2).1 hloc
        exact ⟨line :: before, line', after, rfl, by rw [List.length_cons, Nat.add_comm],
          List.forall_mem_cons.2 ⟨hhit, hbefore⟩, hline'⟩
      · rintro ⟨before, line', after, heq, rfl, hbefore, hline'⟩
        cases before with
        | nil =>
          obtain ⟨rfl, -⟩ := List.cons.inj heq
          rw [hhit] at hline'
          cases hline'
        | cons l before =>
          obtain ⟨-, rfl⟩ := List.cons.inj heq
          rw [List.forall_mem_cons] at hbefore
          exact ⟨_, _, (ih hls.2).2 ⟨before, line', after, rfl, rfl, hbefore.2, hline'⟩, Nat.add_comm .., rfl⟩
    · simp only [Option.some.injEq, Prod.mk.injEq]
      constructor
      · rintro ⟨rfl, rfl⟩
        exact ⟨[], line, ls, rfl, rfl, by simp, hhit⟩
      · rintro ⟨before, line', after, heq, rfl, hbefore, hline'⟩
        cases before with
        | nil =>
          obtain ⟨rfl, -⟩ := List.cons.inj heq
          exact ⟨rfl, Option.some.inj (hhit.symm.trans hline')⟩
        | cons l before =>
          obtain ⟨rfl, -⟩ := List.cons.inj heq
          rw [hbefore line List.mem_cons_self] at hhit
          cases hhit

theorem located_text {n : Nat} (h0 : 0 ∉ text) : located key text = some (n, value) ↔ ∃ before line after,
    fileLines text = before ++ line :: after ∧ before.length = n ∧ (∀ l ∈ before, hit key l = none) ∧
      hit key line = some value := by
  have hls : ∀ line ∈ fileLines text, 0 ∉ line ∧ newline ∉ line := fun line hline =>
    ⟨fun hz => h0 ((mem_splitOn hline).2 0 hz), (mem_splitOn hline).1⟩
  have hmain : located key ([newline].intercalate (fileLines text)) = some (n, value) ↔ _ := located_lines hls
  rwa [fileLines, List.intercalate_splitOn] at hmain

theorem exists_first {α : Type} {ls : List α} {P : α → Prop} (h : ∃ line ∈ ls, P line) :
    ∃ before line after, ls = before ++ line :: after ∧ (∀ l ∈ before, ¬ P l) ∧ P line := by
  classical
  have hsome : (ls.find? fun l => decide (P l)).isSome := List.find?_isSome.2 (by simpa using h)
  obtain ⟨line, hfind⟩ := Option.isSome_iff_exists.1 hsome
  obtain ⟨hline, before, after, heq, hbefore⟩ := List.find?_eq_some_iff_append.1 hfind
  exact ⟨before, line, after, heq, fun l hl => by simpa using hbefore l hl, by simpa using hline⟩

theorem first_unique {α : Type} {P : α → Prop} {before before' after after' : List α} {line line' : α}
    (heq : before ++ line :: after = before' ++ line' :: after') (hbefore : ∀ l ∈ before, ¬ P l) (hline : P line)
    (hbefore' : ∀ l ∈ before', ¬ P l) (hline' : P line') : line = line' := by
  classical
  have hfind : (before ++ line :: after).find? (fun l => decide (P l)) = some line :=
    List.find?_eq_some_iff_append.2 ⟨by simpa using hline, before, after, rfl, fun l hl => by simpa using hbefore l hl⟩
  have hfind' : (before ++ line :: after).find? (fun l => decide (P l)) = some line' :=
    List.find?_eq_some_iff_append.2 ⟨by simpa using hline', before', after', heq, fun l hl => by simpa using hbefore' l hl⟩
  exact Option.some.inj (hfind.symm.trans hfind')

/-! ## When the file is read line by line -/

theorem getTarget_isSome : (getTarget key (some text)).isSome ↔ ∃ n value, located key text = some (n, value) := by
  rw [getTarget, Option.bind_some, Option.isSome_map, located]
  rcases readTarget key text with _ | ⟨value, rest⟩
  · simp
  · simp

theorem readsLines_clear (hkey : key ≠ []) (heq : equals ∉ key) (h0 : 0 ∉ text) (h : ReadsLines key text) : Clear key text := by
  -- what is taken is taken from a setting
  have hsets {b a : List Bytes} {l v : Bytes} (hls : fileLines text = b ++ l :: a) (hb : ∀ l ∈ b, hit key l = none)
      (hl : hit key l = some v) : (∀ l ∈ b, ∀ v, ¬ Setting key l v) ∧ Setting key l v := by
    have hloc := (located_text h0).2 ⟨b, l, a, hls, rfl, hb, hl⟩
    obtain ⟨⟨value, rest⟩, hread, hx⟩ := Option.map_eq_some_iff.1 hloc
    obtain ⟨hn, rfl⟩ := Prod.mk.inj hx
    obtain ⟨before, line, after, hls', hlen, hbefore, hline⟩ := h.value _ _ hread
    obtain ⟨rfl, htail⟩ := List.append_inj (hls.symm.trans hls') (hn.symm.trans hlen.symm)
    obtain ⟨rfl, -⟩ := List.cons.inj htail
    exact ⟨hbefore, hline⟩
  intro before line after hls hbefore
  constructor
  · intro v hv
    obtain ⟨n, value, hloc⟩ := getTarget_isSome.1 (h.returns.2 ⟨line, by rw [hls]; simp, v, hv⟩)
    obtain ⟨b, l, a, hls', -, hb, hl⟩ := (located_text h0).1 hloc
    obtain ⟨hbset, hlset⟩ := hsets hls' hb hl
    have hsame : l = line := first_unique (P := fun l => ∃ v, Setting key l v) (hls'.symm.trans hls)
      (fun l hl hex => hex.elim (hbset l hl)) ⟨value, hlset⟩ (fun l hl hex => hex.elim (hbefore l hl)) ⟨v, hv⟩
    subst hsame
    obtain rfl := hlset.unique hv
    exact (hv.hit_iff hkey heq).1 hl
  · intro hnone hmisread
    have hhit := (misread_iff hkey heq).1 hmisread
    obtain ⟨b, l, a, hba, hb, hl⟩ := exists_first (P := fun l => hit key l ≠ none) ⟨line, List.mem_append_right before
      (List.mem_singleton_self line), hhit⟩
    obtain ⟨v, hv⟩ := Option.ne_none_iff_exists'.1 hl
    have hls' : fileLines text = b ++ l :: (a ++ after) := by
      rw [hls, List.append_cons, hba, List.append_assoc, List.cons_append]
    have hset := (hsets hls' (fun l hl => not_not.1 (hb l hl)) hv).2
    have hmem : l ∈ before ++ [line] := by rw [hba]; simp
    rcases List.mem_append.1 hmem with hmem | hmem
    · exact hbefore l hmem v hset
    · exact hnone v (List.mem_singleton.1 hmem ▸ hset)

theorem clear_readsLines (hkey : key ≠ []) (heq : equals ∉ key) (h0 : 0 ∉ text) (h : Clear key text) : ReadsLines key text := by
  -- the first line with something to take is the first setting
  have hsets {b a : List Bytes} {l v : Bytes} (hls : fileLines text = b ++ l :: a) (hb : ∀ l ∈ b, hit key l = none)
      (hl : hit key l = some v) : (∀ l ∈ b, ∀ v, ¬ Setting key l v) ∧ Setting key l v := by
    have hbset : ∀ l ∈ b, ∀ v, ¬ Setting key l v := by
      by_contra hex
      push Not at hex
      obtain ⟨b', l', a', rfl, hb', v', hv'⟩ := exists_first (P := fun l => ∃ v, Setting key l v) hex
      have hgood := (h b' l' (a' ++ l :: a) (by simpa using hls) fun l hl v hv => hb' l hl ⟨v, hv⟩).1 v' hv'
      have hhit := (hv'.hit_iff hkey heq).2 hgood
      rw [hb l' (by simp)] at hhit
      cases hhit
    refine ⟨hbset, ?_⟩
    obtain ⟨hgood, hclear⟩ := h b l a hls hbset
    by_cases hset : ∃ v, Setting key l v
    · obtain ⟨v', hv'⟩ := hset
      have hhit := (hv'.hit_iff hkey heq).2 (hgood v' hv')
      obtain rfl := Option.some.inj (hl.symm.trans hhit)
      exact hv'
    · refine absurd ((misread_iff hkey heq).2 ?_) (hclear fun v hv => hset ⟨v, hv⟩)
      rw [hl]
      exact Option.some_ne_none v
  constructor
  · rw [getTarget_isSome]
    constructor
    · rintro ⟨n, value, hloc⟩
      obtain ⟨b, l, a, hls, -, hb, hl⟩ := (located_text h0).1 hloc
      exact ⟨l, by rw [hls]; simp, value, (hsets hls hb hl).2⟩
    · intro hex
      obtain ⟨before, line, after, hls, hbefore, v, hv⟩ := exists_first hex
      have hgood := (h before line after hls fun l hl v hv => hbefore l hl ⟨v, hv⟩).1 v hv
      have hhit := (hv.hit_iff hkey heq).2 hgood
      have htaken : ∃ l ∈ fileLines text, hit key l ≠ none :=
        ⟨line, by rw [hls]; simp, by rw [hhit]; exact Option.some_ne_none v⟩
      obtain ⟨b, l, a, hls', hb, hl⟩ := exists_first htaken
      obtain ⟨v', hv'⟩ := Option.ne_none_iff_exists'.1 hl
      exact ⟨b.length, v', (located_text h0).2 ⟨b, l, a, hls', rfl, fun l hl => not_not.1 (hb l hl), hv'⟩⟩
  · intro value rest hread
    have hloc : located key text = some (lineNumber text rest, value) := by rw [located, hread, Option.map_some]
    obtain ⟨b, l, a, hls, hlen, hb, hl⟩ := (located_text h0).1 hloc
    exact ⟨b, l, a, hls, hlen, (hsets hls hb hl).1, (hsets hls hb hl).2⟩

/-- **The configuration is read line by line exactly when** no line before the first setting of the key is misread, and
that one fits into a piece, with no `=` sign in its value. -/
theorem readsLines_iff (hkey : key ≠ []) (heq : equals ∉ key) (h0 : 0 ∉ text) : ReadsLines key text ↔ Clear key text :=
  ⟨readsLines_clear hkey heq h0, clear_readsLines hkey heq h0⟩

/-- Short lines with one `=` sign at most are read right, whatever the key. -/
theorem clear_of_plain (h : ∀ line ∈ fileLines text, line.length ≤ 99 ∧ line.count equals ≤ 1) : Clear key text := by
  intro before line after hls _
  obtain ⟨hlen, hcount⟩ := h line (by rw [hls]; simp)
  have htext : (lineText line).length ≤ line.length := (List.takeWhile_prefix _).length_le
  have htextcount : (lineText line).count equals ≤ line.count equals := (List.takeWhile_prefix _).sublist.count_le _
  constructor
  · rintro v ⟨hv, -, -⟩
    rw [hv, List.length_append, List.length_cons] at htext
    rw [hv, List.count_append, List.count_cons_self] at htextcount
    exact ⟨List.count_eq_zero.1 (by omega), by omega⟩
  · rintro hnone ⟨k, m, n, b, s, hb, hcomment, heq⟩
    cases k with
    | zero =>
      have hwhole : piece line 0 = line := (piece_zero line).trans (List.take_of_length_le hlen)
      rw [hwhole] at hcomment heq
      rw [heq] at htextcount
      simp only [List.count_append, List.count_replicate_self] at htextcount
      obtain ⟨rfl, rfl⟩ : m = 0 ∧ n = 0 := by omega
      exact hnone (b :: s) ⟨heq, List.cons_ne_nil _ _, hcomment⟩
    | succ k =>
      have hnil : line.drop 99 = [] := List.drop_eq_nil_of_le hlen
      rw [piece_succ, hnil, piece, List.drop_nil, List.take_nil] at heq
      have hempty := congrArg List.length heq
      rw [show lineText [] = [] from rfl, List.length_nil, List.length_append, List.length_append, List.length_append,
        List.length_cons] at hempty
      omega

theorem getTarget_eq : getTarget key (some text) = (located key text).map Prod.snd := by
  rw [getTarget, Option.bind_some, located, Option.map_map]
  rfl

theorem readsLines_port : ReadsLines (lit "port") (lit "ip=127.0.0.1\nport=9090\nlog=INFO\n") :=
  (readsLines_iff (by decide) (by decide) (by decide)).2 (clear_of_plain (by decide))

/-- A comment, as long as a piece, and a setting in it. -/
def longComment : Bytes := 35 :: List.replicate 98 32 ++ lit "k=v"

/-- A value with an `=` sign is cut, and a comment can set a key. -/
theorem readsLines_fails : getTarget (lit "k") (some (lit "k=a=b")) = some (lit "a") ∧ ¬ ReadsLines (lit "k") (lit "k=a=b") ∧
    getTarget (lit "k") (some longComment) = some (lit "v") := by
  refine ⟨?_, ?_, ?_⟩
  · rw [getTarget_eq, located_last (by decide) (by decide), hit]
    decide
  · intro h
    have hclear := readsLines_clear (by decide) (by decide) (by decide) h
    have hset : Setting (lit "k") (lit "k=a=b") (lit "a=b") := by decide
    have hbad := (hclear [] (lit "k=a=b") [] (by decide) (by simp)).1 _ hset
    exact absurd hbad.1 (by decide)
  · have hdrop : longComment.drop 99 = lit "k=v" := by decide
    have hcomment : lineValue (lit "k") (lineText (longComment.take 99)) = none := by decide
    rw [getTarget_eq, located_last (by decide) (by decide), hit, if_pos (by decide), hcomment, hdrop, hit]
    decide

/-! ## What the programs use -/

theorem length_strtok {s token tail : Bytes} (h : strtok s = some (token, tail)) :
    token.length ≤ s.length ∧ tail.length ≤ s.length := by
  rw [strtok] at h
  split at h
  · cases h
  obtain ⟨rfl, rfl⟩ := Prod.mk.inj (Option.some.inj h)
  have hskip := (List.dropWhile_suffix (l := s) (· == equals)).length_le
  refine ⟨(List.takeWhile_prefix _).length_le.trans hskip, ?_⟩
  rw [List.length_drop]
  exact (Nat.sub_le _ _).trans ((List.dropWhile_suffix _).length_le.trans hskip)

theorem length_lineValue (h : lineValue key line = some value) : value.length ≤ line.length := by
  rw [lineValue] at h
  split at h
  · cases h
  split at h
  · cases h
  split at h
  · cases h
  rename_i token tail htoken
  split at h
  · obtain ⟨⟨value', tail'⟩, hvalue, rfl⟩ := Option.map_eq_some_iff.1 h
    exact (length_strtok hvalue).1.trans (length_strtok htoken).2
  · cases h

/-- What `strcpy` puts into the 256 bytes of `tmp` (`server.c:50`) fits. -/
theorem length_getTarget {config : Option Bytes} (h : getTarget key config = some value) : value.length ≤ 99 := by
  obtain ⟨file, rfl, hfile⟩ := Option.bind_eq_some_iff.1 h
  obtain ⟨⟨value, rest⟩, hread, rfl⟩ := Option.map_eq_some_iff.1 hfile
  clear h hfile
  induction file using readTarget.induct key with
  | case1 file hget =>
    rw [readTarget, hget] at hread
    cases hread
  | case2 file buf rest' hget value' hvalue =>
    simp only [readTarget_step hget, hvalue, Option.some.injEq, Prod.mk.injEq] at hread
    obtain ⟨rfl, -⟩ := hread
    have hline : (stripLine buf).length ≤ buf.length :=
      (List.takeWhile_prefix _).length_le.trans (List.takeWhile_prefix _).length_le
    have hlen : buf.length ≤ 99 := by
      have htake := length_takeLine_fst (configLine - 1) file
      rwa [(fgets_eq_some.1 hget).2] at htake
    exact (length_lineValue hvalue).trans (hline.trans hlen)
  | case3 file buf rest' hget hnone ih =>
    simp only [readTarget_step hget, hnone] at hread
    exact ih hread

/-- The value of the first setting of a key that is read right, or else the default. -/
theorem loadValueOrDefault_eq (h : ReadsLines key text) (valueSz : Nat) (defaultValue : Bytes) :
    (∃ before line after value, fileLines text = before ++ line :: after ∧ (∀ l ∈ before, ∀ v, ¬ Setting key l v) ∧
      Setting key line value ∧ loadValueOrDefault (some text) key valueSz defaultValue = truncate valueSz value) ∨
    (∀ line ∈ fileLines text, ∀ value, ¬ Setting key line value) ∧
      loadValueOrDefault (some text) key valueSz defaultValue = truncate valueSz defaultValue := by
  rcases hget : getTarget key (some text) with _ | value
  · refine .inr ⟨fun line hline value hvalue => ?_, by rw [loadValueOrDefault, hget]⟩
    have hsome := h.returns.2 ⟨line, hline, value, hvalue⟩
    rw [hget] at hsome
    cases hsome
  · have hfile := hget
    rw [getTarget, Option.bind_some] at hfile
    obtain ⟨⟨_, rest⟩, hread, rfl⟩ := Option.map_eq_some_iff.1 hfile
    obtain ⟨before, line, after, hls, -, hbefore, hset⟩ := h.value _ _ hread
    exact .inl ⟨before, line, after, _, hls, hbefore, hset, by rw [loadValueOrDefault, hget]⟩

end Text

end WindCloud
