import WindCloud.Client
/-!
# The client's command loop

`main` reads its commands with `fgets` and a buffer of 512 bytes (`client.c:85`), which takes 511 bytes of a line
at most. A longer line comes in pieces, and every piece is a command of its own. A line of 511 bytes is still one
command: its newline is left for the next call, which then has an empty line.

| here | there |
| --- | --- |
| `fgets`, `takeLine`   | `fgets` on what is left of the standard input |
| `stripNewline`        | `input[strcspn(input, "\n")] = '\0'` (`client.c:106`) |
| `commandLoop`         | the loop (`client.c:87-124`); its state is the standard input |
| `commands`            | the strings it hands to `process_command`, in order |
-/

namespace WindCloud
namespace Client

open Interaction Prog

/-- The size of `input` (`client.c:85`), which is `MAX_COMMAND_INPUT`. -/
def maxCommandInput : Nat := 512

/-- At most `n` bytes, up to a newline and with it; then the rest. -/
def takeLine : Nat → Bytes → Bytes × Bytes
  | 0, stdin => ([], stdin)
  | _ + 1, [] => ([], [])
  | n + 1, b :: stdin =>
    if b = newline then ([b], stdin) else (b :: (takeLine n stdin).1, (takeLine n stdin).2)

/-- `none` is the end of the input. -/
def fgets (size : Nat) (stdin : Bytes) : Option (Bytes × Bytes) :=
  if stdin = [] then none else some (takeLine (size - 1) stdin)

def stripNewline (buf : Bytes) : Bytes := (cstr buf).takeWhile (· != newline)

/-- The user leaves. -/
def Quits (input : Bytes) : Prop := input = lit "quit" ∨ input = lit "exit"

instance (input : Bytes) : Decidable (Quits input) := inferInstanceAs (Decidable (_ ∨ _))

/-- One round. -/
def commandRound (stdin : Bytes) : Io (Bytes ⊕ Unit) :=
  match fgets maxCommandInput stdin with
  | none => return .inr ()
  | some (buf, stdin) =>
    let input := stripNewline buf
    if Quits input then return .inr ()
    else if input = [] then return .inl stdin
    else do
      let _ ← processCommand input
      return .inl stdin

def commandLoop (stdin : Bytes) : Io Unit := .iter commandRound stdin

theorem length_takeLine (n : Nat) (stdin : Bytes) : (takeLine n stdin).2.length ≤ stdin.length := by
  induction n generalizing stdin with
  | zero => exact le_refl _
  | succ n ih =>
    cases stdin with
    | nil => exact le_refl _
    | cons b stdin =>
      rw [takeLine]
      split
      · exact Nat.le_succ _
      · exact (ih stdin).trans (Nat.le_succ _)

/-- Every call takes something. -/
theorem fgets_lt {size : Nat} {stdin rest buf : Bytes} (hsize : 1 < size) (h : fgets size stdin = some (buf, rest)) :
    rest.length < stdin.length := by
  unfold fgets at h
  obtain ⟨n, hn⟩ : ∃ n, size - 1 = n + 1 := ⟨size - 2, by omega⟩
  cases stdin with
  | nil => cases h
  | cons b stdin =>
    have hrest : (takeLine (size - 1) (b :: stdin)).2 = rest := congrArg Prod.snd (Option.some.inj h)
    rw [hn, takeLine] at hrest
    split at hrest
    · rw [← hrest]
      exact Nat.lt_succ_self _
    · rw [← hrest]
      exact Nat.lt_succ_of_le (length_takeLine n stdin)

theorem takeLine_append (n : Nat) (stdin : Bytes) : (takeLine n stdin).1 ++ (takeLine n stdin).2 = stdin := by
  induction n generalizing stdin with
  | zero => rfl
  | succ n ih =>
    cases stdin with
    | nil => rfl
    | cons b stdin =>
      rw [takeLine]
      split
      · rfl
      · exact congrArg (b :: ·) (ih stdin)

theorem length_takeLine_fst (n : Nat) (stdin : Bytes) : (takeLine n stdin).1.length ≤ n := by
  induction n generalizing stdin with
  | zero => exact le_refl _
  | succ n ih =>
    cases stdin with
    | nil => exact Nat.zero_le _
    | cons b stdin =>
      rw [takeLine]
      split
      · exact Nat.succ_le_succ (Nat.zero_le n)
      · exact Nat.succ_le_succ (ih stdin)

theorem fgets_eq_some {size : Nat} {stdin buf rest : Bytes} :
    fgets size stdin = some (buf, rest) ↔ stdin ≠ [] ∧ takeLine (size - 1) stdin = (buf, rest) := by
  rw [fgets]
  split
  · rename_i hnil
    exact iff_of_false nofun fun h => h.1 hnil
  · rename_i hne
    rw [Option.some.injEq, and_iff_right hne]

/-- What the loop hands to `process_command`. -/
def commands (stdin : Bytes) : List Bytes :=
  match _h : fgets maxCommandInput stdin with
  | none => []
  | some (buf, rest) =>
    if Quits (stripNewline buf) then []
    else if stripNewline buf = [] then commands rest
    else stripNewline buf :: commands rest
termination_by stdin.length
decreasing_by all_goals exact fgets_lt (by decide) _h

/-- The commands one after the other. -/
def runCommands : List Bytes → Io Unit
  | [] => return ()
  | input :: inputs => do
    let _ ← processCommand input
    runCommands inputs

/-! ## The loop runs the commands -/

/-- **The loop hands `commands` to `process_command`**: its complete runs are those of the commands. -/
theorem steps_commandLoop {sem : Sem Call Res World} {stdin : Bytes} {w v : World} :
    Steps sem (commandLoop stdin, w) (.ret (), v) ↔ Steps sem (runCommands (commands stdin), w) (.ret (), v) := by
  rw [commandLoop, iter]
  induction stdin using commands.induct generalizing w with
  | case1 stdin h =>
    rw [steps_loop_iff, commandRound, commands, h]
    exact Iff.rfl
  | case2 stdin buf rest h hquits =>
    rw [steps_loop_iff, commandRound, commands, h]
    simp only [if_pos hquits]
    exact Iff.rfl
  | case3 stdin buf rest h hquits hempty ih =>
    rw [steps_loop_iff, commandRound, commands, h]
    simp only [if_neg hquits, if_pos hempty]
    exact ih
  | case4 stdin buf rest h hquits hempty ih =>
    rw [steps_loop_iff, commandRound, commands, h]
    simp only [if_neg hquits, if_neg hempty, runCommands]
    constructor
    · intro hrun
      rw [bind_assoc] at hrun
      obtain ⟨rc, u, hcommand, hrest⟩ := steps_bind_ret hrun
      exact steps_trans_bind hcommand (ih.1 hrest)
    · intro hrun
      rw [bind_assoc]
      obtain ⟨rc, u, hcommand, hrest⟩ := steps_bind_ret hrun
      exact steps_trans_bind hcommand (ih.2 hrest)

/-! ## One line -/

section Lines

variable {line rest stdin buf : Bytes} {n : Nat}

theorem takeLine_line (h : newline ∉ line) (hlen : line.length < n) :
    takeLine n (line ++ newline :: rest) = (line ++ [newline], rest) := by
  induction line generalizing n with
  | nil =>
    cases n with
    | zero => cases hlen
    | succ n => rfl
  | cons b line ih =>
    rw [List.mem_cons, not_or] at h
    cases n with
    | zero => cases hlen
    | succ n => simp [takeLine, Ne.symm h.1, ih h.2 (Nat.lt_of_succ_lt_succ hlen)]

theorem takeLine_full (h : newline ∉ line) : takeLine line.length (line ++ rest) = (line, rest) := by
  induction line with
  | nil => rfl
  | cons b line ih =>
    rw [List.mem_cons, not_or] at h
    simp [takeLine, Ne.symm h.1, ih h.2]

theorem takeLine_last (h : newline ∉ line) (hlen : line.length ≤ n) : takeLine n line = (line, []) := by
  induction line generalizing n with
  | nil => cases n <;> rfl
  | cons b line ih =>
    rw [List.mem_cons, not_or] at h
    cases n with
    | zero => cases hlen
    | succ n => simp [takeLine, Ne.symm h.1, ih h.2 (Nat.le_of_succ_le_succ hlen)]

theorem stripNewline_eq_self (h0 : 0 ∉ line) (h : newline ∉ line) : stripNewline line = line := by
  rw [stripNewline, cstr_eq_self h0]
  exact List.takeWhile_eq_self_iff.2 fun b hb => by simpa using fun hn : b = newline => h (hn ▸ hb)

theorem stripNewline_line (h0 : 0 ∉ line) (h : newline ∉ line) : stripNewline (line ++ [newline]) = line := by
  have hz : 0 ∉ line ++ [newline] := fun hmem => (List.mem_append.1 hmem).elim h0 (by decide)
  have hall : ∀ b ∈ line, (b != newline) = true := fun b hb => by simpa using fun hn : b = newline => h (hn ▸ hb)
  rw [stripNewline, cstr_eq_self hz, List.takeWhile_append_of_pos hall]
  simp

theorem not_quits_of_long (h : 4 < line.length) : ¬ Quits line := by
  rintro (rfl | rfl) <;> exact absurd h (by decide)

theorem commands_nil : commands [] = [] := by rw [commands]; rfl

/-- One call of `fgets`. -/
theorem commands_step (hne : stdin ≠ []) (h : takeLine 511 stdin = (buf, rest)) : commands stdin =
    if Quits (stripNewline buf) then [] else if stripNewline buf = [] then commands rest
    else stripNewline buf :: commands rest := by
  have hget : fgets maxCommandInput stdin = some (buf, rest) := fgets_eq_some.2 ⟨hne, h⟩
  rw [commands, hget]

/-- A line that fits is one command. -/
theorem commands_line (h0 : 0 ∉ line) (h : newline ∉ line) (hlen : line.length ≤ 511) : commands (line ++ newline :: rest) =
    if Quits line then [] else if line = [] then commands rest else line :: commands rest := by
  have hne : line ++ newline :: rest ≠ [] := by simp
  rcases Nat.lt_or_eq_of_le hlen with hlt | heq
  · rw [commands_step hne (takeLine_line h hlt), stripNewline_line h0 h]
  · -- the newline is left over, and is an empty line
    have hempty : commands (newline :: rest) = commands rest := by
      have hone : takeLine 511 (newline :: rest) = ([newline], rest) := rfl
      rw [commands_step (List.cons_ne_nil _ _) hone]
      rfl
    have hfull : takeLine line.length (line ++ newline :: rest) = (line, newline :: rest) := takeLine_full h
    rw [heq] at hfull
    rw [commands_step hne hfull, stripNewline_eq_self h0 h, hempty]

/-- As is the last line, without a newline. -/
theorem commands_last (h0 : 0 ∉ line) (h : newline ∉ line) (hlen : line.length ≤ 511) : commands line =
    if Quits line then [] else if line = [] then [] else [line] := by
  by_cases hne : line = []
  · rw [hne, commands_nil]
    decide
  · rw [commands_step hne (takeLine_last h hlen), stripNewline_eq_self h0 h, commands_nil]

/-- A line that does not fit is cut. -/
theorem commands_long (h0 : 0 ∉ line) (h : newline ∉ line) (hlen : 511 < line.length) :
    commands (line ++ rest) = line.take 511 :: commands (line.drop 511 ++ rest) := by
  have htake : (line.take 511).length = 511 := List.length_take_of_le hlen.le
  have hnl : newline ∉ line.take 511 := fun hmem => h (List.mem_of_mem_take hmem)
  have hz : 0 ∉ line.take 511 := fun hmem => h0 (List.mem_of_mem_take hmem)
  have hfull : takeLine (line.take 511).length (line.take 511 ++ (line.drop 511 ++ rest)) =
      (line.take 511, line.drop 511 ++ rest) := takeLine_full hnl
  rw [htake, ← List.append_assoc, List.take_append_drop] at hfull
  have hne : line ++ rest ≠ [] := List.append_ne_nil_of_left_ne_nil (List.ne_nil_of_length_pos (by omega)) _
  have hempty : line.take 511 ≠ [] := List.ne_nil_of_length_pos (by omega)
  rw [commands_step hne hfull, stripNewline_eq_self hz hnl, if_neg (not_quits_of_long (by omega)), if_neg hempty]

end Lines

/-! ## The text -/

/-- The lines before the first one that leaves. -/
def served (text : Bytes) : List Bytes := (text.splitOn newline).takeWhile (¬ Quits ·)

/-- A command for every line that is not empty. -/
def lineCommands (text : Bytes) : List Bytes := (served text).filter (· ≠ [])

/-- A line has no newline, and only bytes of the text. -/
theorem mem_splitOn {text line : Bytes} (h : line ∈ text.splitOn newline) : newline ∉ line ∧ ∀ b ∈ line, b ∈ text := by
  induction text generalizing line with
  | nil =>
    obtain rfl := List.mem_singleton.1 h
    simp
  | cons b text ih =>
    rw [List.splitOn_cons_eq_if_modifyHead] at h
    split at h
    · rcases List.mem_cons.1 h with rfl | h
      · simp
      · exact ⟨(ih h).1, fun c hc => List.mem_cons_of_mem b ((ih h).2 c hc)⟩
    · rename_i hb
      obtain ⟨first, others, hsplit⟩ := List.exists_cons_of_ne_nil (List.splitOn_ne_nil newline text)
      rw [hsplit, List.modifyHead_cons] at h
      rw [hsplit] at ih
      rcases List.mem_cons.1 h with rfl | h
      · obtain ⟨hnl, hmem⟩ := ih List.mem_cons_self
        constructor
        · rintro (_ | ⟨_, hmem'⟩)
          · simp at hb
          · exact hnl hmem'
        · intro c hc
          exact List.mem_cons.2 ((List.mem_cons.1 hc).imp_right (hmem c))
      · obtain ⟨hnl, hmem⟩ := ih (List.mem_cons_of_mem first h)
        exact ⟨hnl, fun c hc => List.mem_cons_of_mem b (hmem c hc)⟩

/-- The first of several lines, or the last one. -/
theorem commands_first {line : Bytes} {ls : List Bytes} (h0 : 0 ∉ line) (h : newline ∉ line) (hlen : line.length ≤ 511) :
    commands ([newline].intercalate (line :: ls)) = if Quits line then [] else
      if line = [] then commands ([newline].intercalate ls) else line :: commands ([newline].intercalate ls) := by
  cases ls with
  | nil =>
    rw [List.intercalate_singleton, List.intercalate_nil, commands_nil]
    exact commands_last h0 h hlen
  | cons line' ls =>
    rw [List.intercalate_cons_cons, List.append_assoc]
    exact commands_line h0 h hlen

/-- By induction on the lines: the first one that does not fit shows as a command that is no line. -/
theorem commands_lines {ls : List Bytes} (hls : ∀ line ∈ ls, 0 ∉ line ∧ newline ∉ line) :
    commands ([newline].intercalate ls) = (ls.takeWhile (¬ Quits ·)).filter (· ≠ []) ↔
      ∀ line ∈ ls.takeWhile (¬ Quits ·), line.length ≤ 511 := by
  induction ls with
  | nil => simp [commands_nil]
  | cons line ls ih =>
    rw [List.forall_mem_cons] at hls
    obtain ⟨⟨h0, hnl⟩, hls⟩ := hls
    by_cases hquits : Quits line
    · have hlen : line.length ≤ 511 := by
        rcases hquits with rfl | rfl <;> decide
      rw [commands_first h0 hnl hlen, if_pos hquits, List.takeWhile_cons_of_neg (by simpa using hquits)]
      simp
    rw [List.takeWhile_cons_of_pos (by simpa using hquits), List.forall_mem_cons]
    by_cases hlen : line.length ≤ 511
    · rw [commands_first h0 hnl hlen, if_neg hquits, and_iff_right hlen, ← ih hls]
      by_cases hempty : line = []
      · rw [if_pos hempty, List.filter_cons_of_neg (by simpa using hempty)]
      · rw [if_neg hempty, List.filter_cons_of_pos (by simpa using hempty), List.cons_inj_right]
    · refine iff_of_false (fun heq => ?_) fun h => hlen h.1
      have hempty : line ≠ [] := List.ne_nil_of_length_pos (by omega)
      obtain ⟨rest, hrest⟩ : ∃ rest, [newline].intercalate (line :: ls) = line ++ rest := by
        cases ls with
        | nil => exact ⟨[], by simp⟩
        | cons line' ls => exact ⟨_, by rw [List.intercalate_cons_cons, List.append_assoc]⟩
      rw [hrest, commands_long h0 hnl (Nat.not_le.1 hlen), List.filter_cons_of_pos (by simpa using hempty)] at heq
      have hcut := congrArg List.length (List.cons.inj heq).1
      rw [List.length_take] at hcut
      omega

/-- **One line is one command exactly when the lines fit**, those before the first one that leaves. -/
theorem commands_eq_lineCommands {text : Bytes} (h0 : 0 ∉ text) :
    commands text = lineCommands text ↔ ∀ line ∈ served text, line.length ≤ 511 := by
  have hls : ∀ line ∈ text.splitOn newline, 0 ∉ line ∧ newline ∉ line := fun line hline =>
    ⟨fun hz => h0 ((mem_splitOn hline).2 0 hz), (mem_splitOn hline).1⟩
  have hmain := commands_lines hls
  rwa [List.intercalate_splitOn] at hmain

theorem commands_eq_lineCommands_pwd : commands (lit "pwd\n\nrm a b\nquit\nls") = [lit "pwd", lit "rm a b"] :=
  ((commands_eq_lineCommands (by decide)).2 (by decide)).trans (by decide)

/-- 511 bytes, which is what `fgets` takes. -/
def longCd : Bytes := lit "cd " ++ List.replicate 508 97

/-- A line with a longer path. -/
def longLine : Bytes := longCd ++ lit "rm x"

/-- Its end is a command. -/
theorem commands_longLine : 0 ∉ longLine ++ [newline] ∧ lineCommands (longLine ++ [newline]) = [longLine] ∧
    commands (longLine ++ [newline]) = [longCd, lit "rm x"] := by
  have hlen : longCd.length = 511 := by
    rw [longCd, List.length_append, List.length_replicate]
    rfl
  have hmem {b : UInt8} (hb : b ≠ 97 ∧ b ∉ lit "cd rm x") : b ∉ longLine := by
    have hcd : b ∉ lit "cd " := fun h => hb.2 (List.mem_append_left (lit "rm x") h)
    have hrm : b ∉ lit "rm x" := fun h => hb.2 (List.mem_append_right (lit "cd ") h)
    rw [longLine, longCd, List.mem_append, List.mem_append, List.mem_replicate]
    intro h
    exact h.elim (fun h => h.elim hcd fun h => hb.1 h.2) hrm
  have h0 : 0 ∉ longLine := hmem (by decide)
  have hnl : newline ∉ longLine := hmem (by decide)
  have hlong : longLine.length = 515 := by
    rw [longLine, List.length_append, hlen]
    rfl
  have htake : longLine.take 511 = longCd := hlen ▸ List.take_left
  have hdrop : longLine.drop 511 = lit "rm x" := hlen ▸ List.drop_left
  refine ⟨fun h => (List.mem_append.1 h).elim h0 (by decide), ?_, ?_⟩
  · have hquits : ¬ Quits longLine := not_quits_of_long (by omega)
    have hempty : longLine ≠ [] := List.ne_nil_of_length_pos (by omega)
    rw [lineCommands, served, List.splitOn_append_cons_self_of_not_mem hnl, List.takeWhile_cons_of_pos (by simpa using hquits),
      List.filter_cons_of_pos (by simpa using hempty)]
    apply congrArg (longLine :: ·)
    decide
  · rw [commands_long h0 hnl (by omega), htake, hdrop, commands_line (by decide) (by decide) (by decide), commands_nil]
    apply congrArg (longCd :: ·)
    decide

end Client
end WindCloud
