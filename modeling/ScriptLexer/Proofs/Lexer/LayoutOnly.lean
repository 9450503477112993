import ScriptLexer.Proofs.Lexeme.Skipping
import ScriptLexer.Proofs.Lexer.End
import ScriptLexer.Proofs.Lexer.Report

/-!
# Scripts of layout only

A script that is nothing but layout has no tokens: blanks, joined line ends and block comments in
any order and number, with a comment behind them or none. The first call skips all of it, and the
end of the script is all that is ever answered.

## Main results

* `Lexer.layout_has_no_tokens` — nothing but the end is read, and nothing is reported
-/

namespace ScriptLexer

/-- No end marker is honoured where nothing is left. -/
theorem Tape.honourEndMarker_of_nil {t : Tape} (h : t.rest = []) : t.honourEndMarker = t := by
  have hmarker : Line.isEndMarker [] = false := by decide
  rw [honourEndMarker, h, hmarker, Bool.and_false, if_neg Bool.false_ne_true]

namespace Lexer

variable {source : List Byte}

/-- The first call settles at the end of a script of layout. -/
theorem settle_of_layout (h : Layout [] source []) :
    (ofBytes source).settle.tape.rest = [] ∧ (ofBytes source).settle.tape.beyond = [] := by
  have hrest := Tape.rest_skipLayout (t := .ofBytes source) Lookback.fresh h
  obtain ⟨n, hmove, -⟩ := Tape.exists_skipLayout Lookback.fresh (.ofBytes source)
  have hholds : (ofBytes source).stack.top.region.holdsStatements := rfl
  rw [settle_of_holdsStatements hholds]
  have hsettled := Tape.honourEndMarker_of_nil hrest
  exact ⟨(congrArg Tape.rest hsettled).trans hrest,
    (congrArg Tape.beyond hsettled).trans (hmove ⟨0, 0⟩).beyond⟩

/-- The first call comes to the end of a script of layout. -/
theorem next_of_layout (h : Layout [] source []) :
    ∃ l, (ofBytes source).next = .ok (.bare source.length .endOfInput, l) ∧ l.Ended
      ∧ l.pos = source.length ∧ l.depth = 1 ∧ l.diagnostic = none ∧ l.tape.buffer = source := by
  obtain ⟨hrest, hbeyond⟩ := settle_of_layout h
  obtain ⟨hreads, -, -, hbuffer, -⟩ := (reads_ofBytes source).settle
  obtain ⟨lookback, hstack⟩ := exists_settle_stack (ofBytes source)
  have hdepth : (ofBytes source).settle.depth = 1 := by
    rw [depth, hstack]
    rfl
  have hended : (ofBytes source).settle.Ended :=
    ⟨hrest, fun hopen => absurd hopen (by rw [hdepth]; exact Nat.lt_irrefl 1)⟩
  have hpos : (ofBytes source).settle.pos = source.length := by
    have hahead := hreads.tape.ahead
    rw [hrest, hbeyond, List.append_nil, eq_comm, List.drop_eq_nil_iff] at hahead
    exact Nat.le_antisymm hreads.tape.pos_le hahead
  refine ⟨_, ?_, hended, hpos, hdepth, diagnostic_settle _, ?_⟩
  · rw [next, step, hrest, hended.finish_eq, hpos]
  · rw [hbuffer]
    exact List.append_nil source

/-- **A script that is nothing but layout has no tokens.** However often the lexer is called, it
answers with the end at the length of the script, nothing is open, and nothing has been reported. -/
theorem layout_has_no_tokens (h : Layout [] source []) :
    (∀ n, ∃ l, calls next n (ofBytes source)
        = .ok (List.replicate n (.bare source.length .endOfInput), l)
      ∧ l.depth = 1 ∧ l.diagnostic = none)
    ∧ lexBytes source = .ok ⟨[.bare source.length .endOfInput], source, none⟩ := by
  obtain ⟨l, hnext, hended, hpos, hdepth, hdiagnostic, hbuffer⟩ := next_of_layout h
  have hstays := hended.next_eq
  rw [hpos] at hstays
  constructor
  · intro n
    cases n with
    | zero => exact ⟨ofBytes source, rfl, rfl, rfl⟩
    | succ n => exact ⟨l, calls_cons hnext (calls_of_fixed hstays n), hdepth, hdiagnostic⟩
  · refine lexBytes_eq_ok_iff.mpr
      ⟨1, [], _, l, calls_cons hnext rfl, List.forall_mem_nil _, rfl, ?_⟩
    rw [hdiagnostic, hbuffer]
    rfl

/-- A script with layout of every sort: a blank, joined lines, two block comments, of which one
begins in the first line that is not joined to another, and a comment. -/
def layoutScript : List Byte :=
  Byte.ofString "\t\\\n=begin x\n=ending\n =end\n=end y\n=begin\n=end\n\\\r\n# z"

/-- Words that only begin with the closing word, and indented ones, do not close a comment. -/
theorem layout_has_no_tokens_commented :
    Layout [] layoutScript []
      ∧ lexBytes layoutScript = .ok ⟨[.bare 51 .endOfInput], layoutScript, none⟩ := by
  have hbehind : ClosingLines (Byte.ofString "=ending\n =end\n=end y\n")
      (Byte.ofString "=begin\n=end\n\\\r\n# z") :=
    @ClosingLines.more (Byte.ofString "=ending") _ _ (by decide) (by decide)
      (@ClosingLines.more (Byte.ofString " =end") _ _ (by decide) (by decide)
        (@ClosingLines.last (Byte.ofString "=end y") _ (by decide) (by decide)))
  have hlast : ClosingLines (Byte.ofString "=end\n") (Byte.ofString "\\\r\n# z") :=
    @ClosingLines.last (Byte.ofString "=end") _ (by decide) (by decide)
  have hlayout : Layout [] layoutScript [] :=
    @Layout.cons [] (Byte.ofString "\t") _ _ (.blank rfl)
      (.cons .joinedLine
        (.cons (@LayoutPiece.block _ (Byte.ofString "=begin x") _ _ rfl (by decide) (by decide)
            hbehind)
          (.cons (@LayoutPiece.block _ (Byte.ofString "=begin") _ _ rfl (by decide) (by decide)
              hlast)
            (.cons .joinedReturn
              (.cons (@LayoutPiece.comment _ (Byte.ofString " z") _ (by decide) (.inl rfl))
                .nil)))))
  exact ⟨hlayout, (layout_has_no_tokens hlayout).2⟩

end Lexer

end ScriptLexer
