import ScriptLexer.Proofs.Lexer.Calls

/-!
# Tokens tile the script

Between the place where one call leaves the lexer and the place where the next token begins there
is layout, and nothing else. A token that does not stand for the end of the script has bytes, and
its literal lies in them. So the tokens and the layout between them make up the script, and as the
script has finitely many bytes, its end comes.

The end is where the bytes end, or where an end marker stands on a line of its own.

## Main results

* `Lexer.tokens_tile` — each call skips layout and reads bytes, and the end comes
-/

namespace ScriptLexer.Lexer

variable {source : List Byte} {l l' : Lexer} {token : Token}

/-- As long as no token stands for the end, every call has read a byte. -/
def ReadsAByteEach (tokens : List Token) (l : Lexer) : Prop :=
  (∀ token ∈ tokens, token.kind ≠ .endOfInput) → tokens.length ≤ l.pos

theorem ReadsAByteEach.step {tokens : List Token} (h : ReadsAByteEach tokens l)
    (hmoves : Moves source l token l') : ReadsAByteEach (tokens ++ [token]) l' := by
  intro hkinds
  rw [List.forall_mem_append, List.forall_mem_singleton] at hkinds
  have hle := h hkinds.1
  have hbegins := hmoves.begins
  have hadvances := hmoves.advances hkinds.2
  rw [List.length_append, List.length_singleton]
  omega

/-- In front of the end of a script there are no more tokens than bytes. -/
theorem length_le_of_calls {tokens : List Token} {n : Nat}
    (hcalls : calls next n (ofBytes source) = .ok (tokens, l))
    (hkinds : ∀ token ∈ tokens, token.kind ≠ .endOfInput) : tokens.length ≤ source.length := by
  have hstart : ReadsAByteEach [] (ofBytes source) := fun _ => Nat.zero_le _
  obtain ⟨tokens', l', hcalls', hl', hbytes⟩ := (reads_ofBytes source).calls_next hstart
    (fun _ hP hmoves => hP.step hmoves) n
  rw [hcalls] at hcalls'
  cases hcalls'
  exact Nat.le_trans (hbytes hkinds) hl'.tape.pos_le

/-- **The end of a script comes,** within one call more than the script has bytes. -/
theorem exists_endOfInput (source : List Byte) :
    ∃ tokens l, calls next (source.length + 1) (ofBytes source) = .ok (tokens, l)
      ∧ ∃ token ∈ tokens, token.kind = .endOfInput := by
  obtain ⟨tokens, l, hcalls, -⟩ := exists_calls source (source.length + 1)
  refine ⟨tokens, l, hcalls, ?_⟩
  by_contra hnone
  have hle := length_le_of_calls hcalls fun token ht hkind => hnone ⟨token, ht, hkind⟩
  rw [length_of_calls hcalls] at hle
  exact Nat.not_succ_le_self _ hle

/-- **Tokens tile the script.** Whatever the number of calls before, the next one answers with a
token that begins behind layout and, unless it stands for the end, has bytes of the script, in which
its literal lies; and the end comes within one call more than the script has bytes. -/
theorem tokens_tile (source : List Byte) :
    (∀ n, ∃ tokens l token l', calls next n (ofBytes source) = .ok (tokens, l)
      ∧ l.next = .ok (token, l')
      ∧ l.pos ≤ token.pos ∧ LayoutBetween source l.pos token.pos
      ∧ token.kind ≠ .continuation
      ∧ (token.kind ≠ .endOfInput →
        token.pos < l'.pos ∧ l'.pos ≤ source.length
          ∧ ∀ s, token.literal = some s →
            token.pos ≤ s.start ∧ s.start ≤ s.stop ∧ s.stop ≤ l'.pos)
      ∧ (token.kind = .endOfInput → token.pos = source.length ∨ EndMarkerAt source token.pos))
    ∧ ∃ tokens l, calls next (source.length + 1) (ofBytes source) = .ok (tokens, l)
      ∧ ∃ token ∈ tokens, token.kind = .endOfInput := by
  refine ⟨fun n => ?_, exists_endOfInput source⟩
  obtain ⟨tokens, l, hcalls, hl⟩ := exists_calls source n
  obtain ⟨token, l', hnext, hmoves⟩ := exists_next hl
  refine ⟨tokens, l, token, l', hcalls, hnext, hmoves.begins, hmoves.gap, hmoves.kind, ?_,
    hmoves.ends⟩
  intro hkind
  exact ⟨hmoves.advances hkind, hmoves.reads.tape.pos_le, hmoves.literal⟩

end ScriptLexer.Lexer
