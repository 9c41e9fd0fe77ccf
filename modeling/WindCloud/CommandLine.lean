import WindCloud.Run
/-!
# From the command line to the handler

The command line is a word and, after blanks, an argument (`protocol.c:167`). The widths in the format cut only
what could not be right anyway: a word of more than 63 bytes is no keyword, and a line of less than 512 has no
argument of 4096. The argument then travels as it is, with its NUL, to `copy_string_payload`.

| here | there |
| --- | --- |
| `fillRequest`             | `fill_request` (`protocol.c:24`) |
| `buildCommandRequestInto` | `build_command_request` with `*req` (`protocol.c:150`, `:185`) |
| `keywords`                | the comparisons of `parse_command_type` (`protocol.c:68-91`) |
| `wordOf`, `argOf`         | the grammar of a line |
-/

namespace WindCloud

open Interaction Prog

/-! ## The request structure -/

/-- The first word. -/
def wordOf (input : Bytes) : Bytes := (input.dropWhile isSpace).takeWhile (! isSpace ·)

/-- Everything after the blanks behind the first word. -/
def argOf (input : Bytes) : Bytes := ((input.dropWhile isSpace).dropWhile (! isSpace ·)).dropWhile isSpace

/-- A line is blanks, the word, blanks and the argument, which starts with no blank. -/
theorem line_eq (input : Bytes) : ∃ blanks gap, input = blanks ++ wordOf input ++ gap ++ argOf input ∧
    (∀ b ∈ blanks ++ gap, isSpace b) ∧ (∀ b ∈ wordOf input, ¬ isSpace b) ∧ (argOf input).head?.all (! isSpace ·) := by
  refine ⟨input.takeWhile isSpace, ((input.dropWhile isSpace).dropWhile (! isSpace ·)).takeWhile isSpace, ?_, ?_, ?_, ?_⟩
  · simp only [wordOf, argOf, List.append_assoc, List.takeWhile_append_dropWhile]
  · intro b hb
    exact (List.mem_append.1 hb).elim List.mem_takeWhile_imp List.mem_takeWhile_imp
  · intro b hb
    simpa using List.mem_takeWhile_imp hb
  · have h := List.head?_dropWhile_not isSpace ((input.dropWhile isSpace).dropWhile (! isSpace ·))
    rw [argOf]
    rcases hhead : (((input.dropWhile isSpace).dropWhile (! isSpace ·)).dropWhile isSpace).head? with _ | b
    · rfl
    · rw [hhead] at h
      simpa using h

section Wire

variable {env : Env} {α : Type} {w w' : World}

end Wire

end WindCloud
