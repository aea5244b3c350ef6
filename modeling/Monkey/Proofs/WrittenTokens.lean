import Monkey.Proofs.Slices

/-!
# Tokens that are written out are read again

A token is written as its literal, and a string as its literal between quotes. A token that was read
from some source is read again from what is written for it, at the end of a text and before a blank,
whatever it stood before when it was read first: that may be cut off (`Token.Reads.written`), and a
blank does not go on with the token (`Token.Reads.written_before_blank`). A string that was left
open has its second quote now, but the same literal. So tokens from any sources that are written one
after another, with blanks between them, are the tokens of the text (`terminals_join_written`).
-/

namespace Monkey

/-- How a terminal is written: as its literal, and a string as its literal between quotes. -/
def Terminal.written (t : Terminal) : Text :=
  if t.kind = .str then 0x22 :: (t.literal ++ [0x22]) else t.literal

/-- The terminals of a source, written one after another with a single blank between any two. -/
def writtenOut (source : Text) : Text :=
  Text.join (text " ") ((terminals source).map Terminal.written)

/-! ## One token -/

namespace Token.Reads

variable {t : Token} {bytes rest : Text}

/-- A token that was read somewhere is read from what is written for it. -/
theorem written (h : t.Reads bytes rest) : t.Reads t.terminal.written [] := by
  by_cases hkind : t.terminal.kind = .str
  · -- whether or not it was closed before, it is now
    have hcontent := all_isUnquoted_iff.mpr (h.spelt.string_cases hkind).1
    have hread : Lexeme.read 0x22 (t.literal ++ [0x22])
        = ⟨.str, t.literal, t.literal.length + 1 + 1⟩ := by
      rw [Lexeme.read, if_pos rfl]
      exact string_closed hcontent []
    have hlength : (0x22 :: (t.literal ++ [0x22])).length = t.literal.length + 1 + 1 := by
      rw [List.length_cons, List.length_append, List.length_singleton]
    rw [Terminal.written, if_pos hkind]
    refine ⟨0x22, t.literal ++ [0x22], rfl, List.append_nil _, ?_, ?_⟩
    · rw [hread]
      exact congrArg (Terminal.mk · t.literal) hkind
    · rw [hread]
      exact (List.take_of_length_le (Nat.le_of_eq hlength)).symm
  · have hcut : t.Reads bytes ([] ++ rest) := h
    rw [Terminal.written, if_neg hkind, h.spelt.literal_eq hkind]
    exact hcut.cut

theorem written_before_blank (h : t.Reads bytes rest) (after : Text) :
    t.Reads t.terminal.written (0x20 :: after) :=
  h.written.before_blank (fun hkind => if_pos hkind) rfl after

end Token.Reads

/-! ## Many tokens -/

/-- Tokens that were read somewhere, written with blanks between them, are the tokens of the
text. -/
theorem terminals_join_written {ts : List Token} (h : ∀ t ∈ ts, ∃ bytes rest, t.Reads bytes rest) :
    terminals (Text.join (text " ") ((ts.map Token.terminal).map Terminal.written))
      = ts.map Token.terminal := by
  induction ts with
  | nil => rfl
  | cons t ts ih =>
      obtain ⟨⟨bytes, rest, hreads⟩, hts⟩ := List.forall_mem_cons.mp h
      cases ts with
      | nil =>
          have hlast := hreads.written.terminals_eq
          rwa [List.append_nil] at hlast
      | cons u ts =>
          have hjoin :
              Text.join (text " ") (((t :: u :: ts).map Token.terminal).map Terminal.written)
              = t.terminal.written ++ 0x20 ::
                Text.join (text " ") (((u :: ts).map Token.terminal).map Terminal.written) :=
            List.append_assoc _ _ _
          rw [hjoin, (hreads.written_before_blank _).terminals_eq, terminals_blank rfl, ih hts]
          rfl

/-! ## Sources -/

theorem terminals_writtenOut (source : Text) :
    terminals (writtenOut source) = terminals source := by
  obtain ⟨inner, htokens, hinner⟩ := (tiling_tokenize source).ends
  have hterminals : terminals source = inner.map Token.terminal := by
    rw [terminals, htokens, List.dropLast_concat]
  rw [writtenOut, hterminals]
  refine terminals_join_written fun t ht => ?_
  have hmem : t ∈ tokenize source := by
    rw [htokens]
    exact List.mem_append_left _ ht
  obtain ⟨_, bytes, rest, _, hreads, _⟩ := reads_of_mem_tokenize hmem (hinner t ht)
  exact ⟨bytes, rest, hreads⟩

/-- Kinds and literals of all tokens: those of the terminals, and the end. -/
theorem map_terminal_tokenize (source : Text) :
    (tokenize source).map Token.terminal = terminals source ++ [⟨.eof, []⟩] := by
  obtain ⟨inner, htokens, -⟩ := (tiling_tokenize source).ends
  rw [terminals, htokens, List.dropLast_concat, List.map_append]
  rfl

/-- **Tokens that are written out are read again.** The tokens of every source before the end token,
each written as its literal, and a string as its literal between quotes, one after another with
single blanks between them: the tokens of that text have the same kinds and literals, in the same
order. -/
theorem written_tokens_read_back (source : Text) :
    (tokenize (writtenOut source)).map Token.terminal = (tokenize source).map Token.terminal := by
  rw [map_terminal_tokenize, map_terminal_tokenize, terminals_writtenOut]

/-- Operators that run together, a character that is cut short, and a string that is left open. -/
example : writtenOut (text "===1a" ++ [0xe2, 0x82] ++ text "\"=")
    = text "== = 1 a " ++ [0xe2, 0x20, 0x82] ++ text " \"=\"" := by
  decide +kernel

end Monkey
