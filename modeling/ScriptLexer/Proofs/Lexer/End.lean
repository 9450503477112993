import ScriptLexer.Lexer.Run
import ScriptLexer.Proofs.Lexer.Append

/-!
# The end of a script

The end of a script is come to in two ways: the bytes are all read, or an end marker makes the rest
of them unreachable, wherever statements are read. Either way nothing is unread from then on, and
that is all a call looks at: there is no layout to settle behind, in no region anything to read, and
what is missing has been reported. So a lexer that has answered with the end once stays as it is.

## Main definitions

* `Lexer.Ended` — the lexer has come to the end, and has said so

## Main results

* `Lexer.Ended.next_eq` — a call at the end answers with the end, and changes nothing
* `Lexer.end_stays` — behind the first token that stands for the end nothing changes any more
-/

namespace ScriptLexer.Lexer

variable {source : List Byte} {l l' : Lexer} {token : Token}

/-- Nothing is unread, and if a construct is open, something has been reported. -/
structure Ended (l : Lexer) : Prop where
  rest : l.tape.rest = []
  reported : 1 < l.depth → l.diagnostic.isSome

/-- The call that answers with the end leaves a lexer that has come to the end, where the token
stands. -/
theorem ended_of_next (h : l.Reads source) (hnext : l.next = .ok (token, l'))
    (hkind : token.kind = .endOfInput) : l'.Ended ∧ token = .bare l'.pos .endOfInput := by
  rcases next_cases hnext with ⟨hrest, rfl, rfl⟩ | ⟨b, rest, r, hrest, hr, rfl, -⟩
  · rw [finish]
    split
    · refine ⟨⟨?_, fun _ => ?_⟩, ?_⟩
      · rw [Tape.rest_noteAt, hrest]
      · rw [diagnostic, Tape.noteAt_eq_keep, Tape.keep, Option.isSome_or]
        exact Bool.or_true _
      · rw [pos, pos, Tape.pos_noteAt]
    · rename_i hdepth
      exact ⟨⟨hrest, fun h => absurd h hdepth⟩, rfl⟩
  · -- No reading of bytes gives a token that stands for the end.
    obtain ⟨r', n, hr', -, hlawful⟩ := exists_read hrest (h.settle.1.named _ List.mem_cons_self)
    rw [hr] at hr'
    cases hr'
    exact absurd hkind hlawful.kind.2

namespace Ended

/-- The end is reported once. -/
theorem finish_eq (h : l.Ended) : l.finish = (.bare l.pos .endOfInput, l) := by
  rw [finish]
  split
  · rename_i hdepth
    obtain ⟨d, hd⟩ := Option.isSome_iff_exists.mp (h.reported hdepth)
    have hkept : l.tape.keep (some ⟨l.pos, missing l.stack⟩) = l.tape := by
      rw [diagnostic] at hd
      rw [Tape.keep, hd, Option.some_or, ← hd]
    rw [Tape.noteAt_eq_keep, hkept]
  · rfl

/-- **A call at the end answers with the end,** and changes nothing. -/
theorem next_eq (h : l.Ended) : l.next = .ok (.bare l.pos .endOfInput, l) := by
  rw [next, settle_of_rest_eq_nil h.rest, step, h.rest, ← h.finish_eq]

theorem scan_eq (h : l.Ended) : l.scan = .ok ((.bare l.pos .endOfInput, none), l) := by
  rw [scan, h.next_eq]
  rfl

theorem next?_eq (h : l.Ended) : l.next? = .ok (none, l) := by
  rw [next?, h.next_eq]
  rfl

end Ended

/-- A call that changes nothing goes on answering alike. -/
theorem calls_of_fixed {α : Type} {call : Lexer → Except Misuse (α × Lexer)} {x : α}
    (h : call l = .ok (x, l)) (n : Nat) : calls call n l = .ok (List.replicate n x, l) := by
  induction n with
  | zero => rfl
  | succ n ih => exact calls_cons h ih

/-- **The end of a script stays.** Every script has a first token that stands for its end. It has no
literal and stands at the reading offset, and however often the lexer is then called, for the next
token, for the next token and its literal, or for the next token in front of the end, it answers
with that same token, or with none, and is not changed by it. -/
theorem end_stays (source : List Byte) :
    ∃ init l, calls next (init.length + 1) (ofBytes source)
        = .ok (init ++ [.bare l.pos .endOfInput], l)
      ∧ (∀ token ∈ init, token.kind ≠ .endOfInput)
      ∧ ∀ n, calls next n l = .ok (List.replicate n (.bare l.pos .endOfInput), l)
        ∧ calls scan n l = .ok (List.replicate n (.bare l.pos .endOfInput, none), l)
        ∧ calls next? n l = .ok (List.replicate n none, l) := by
  obtain ⟨init, eoi, l, -, hcalls, -, hinit, heoi⟩ := run_eq_calls source
  obtain ⟨m, hbefore, hlast⟩ := exists_of_calls_append hcalls
  have hm : m.Reads source := ((sound_ofBytes source).of_calls hbefore).reads
  obtain ⟨hended, rfl⟩ := ended_of_next hm (call_of_calls_singleton hlast) heoi
  refine ⟨init, l, hcalls, hinit, fun n => ?_⟩
  exact ⟨calls_of_fixed hended.next_eq n, calls_of_fixed hended.scan_eq n,
    calls_of_fixed hended.next?_eq n⟩

/-- Whatever the number of calls before, a token that does not stand for the end is one of the
divided script. -/
theorem mem_tokens_of_next {lexed : Lexed} {n : Nat} {tokens : List Token}
    (hlexed : lexBytes source = .ok lexed) (hcalls : calls next n (ofBytes source) = .ok (tokens, l))
    (hnext : l.next = .ok (token, l')) (hkind : token.kind ≠ .endOfInput) :
    token ∈ lexed.tokens := by
  obtain ⟨k, init, eoi, m, hall, -, heoi, rfl⟩ := lexBytes_eq_ok_iff.mp hlexed
  have hk : k = init.length + 1 := by
    rw [← length_of_calls hall, List.length_append, List.length_singleton]
  obtain ⟨m', hbefore, hlast⟩ := exists_of_calls_append hall
  obtain ⟨hended, -⟩ := ended_of_next ((sound_ofBytes source).of_calls hbefore).reads
    (call_of_calls_singleton hlast) heoi
  by_cases hlt : n < k
  · obtain ⟨later, m'', hlater, -⟩ := (((sound_ofBytes source).of_calls hcalls).of_next
      hnext).reads.calls_next (P := fun _ _ => True) trivial (fun _ _ _ => trivial) (k - (n + 1))
    have hwhole := calls_append (calls_snoc hcalls hnext) hlater
    rw [Nat.add_sub_of_le hlt, hall] at hwhole
    have hsplit : init ++ [eoi] = tokens ++ [token] ++ later :=
      congrArg Prod.fst (Except.ok.inj hwhole)
    rw [hsplit]
    exact List.mem_append_left _ (List.mem_append_right _ List.mem_cons_self)
  · -- The lexer has come to the end before, and stays there.
    have hwhole := calls_append (hk ▸ hall) (calls_of_fixed hended.next_eq (n - (init.length + 1)))
    rw [Nat.add_sub_of_le (by omega), hcalls] at hwhole
    have hsame : l = m := congrArg Prod.snd (Except.ok.inj hwhole)
    rw [hsame, hended.next_eq] at hnext
    cases hnext
    exact absurd rfl hkind

end ScriptLexer.Lexer
