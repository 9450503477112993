import ScriptLexer.Proofs.Lexeme.Name
import ScriptLexer.Proofs.Lexer.Scanning

/-!
# The tokens of names

Wherever statements are scanned and a letter or an underscore stands, a name is read, unless the
end marker stands there. The token takes in the name with its suffix, as `Name.Division` divides it
from what is behind. If a kind of reserved word has this text as its lexeme, the token is of that
kind and has no literal; otherwise the text is its literal, and the first byte and the suffix tell
its kind.

## Main results

* `Lexer.names_divide` — the token of a name
-/

namespace ScriptLexer.Lexer

variable {source : List Byte} {m : Lexer} {first : Byte} {rest : List Byte}

/-- The call where a name stands, by the lookup of its text. -/
theorem Facing.exists_name (h : m.Facing source first rest) (hfirst : first.isIdentStart) :
    ∃ run suffix behind,
      Name.Division m.stack.top.lookback.defining first (first :: rest) run suffix behind
        ∧ ((∃ k l', Keyword.ofBytes? (run ++ suffix) = some k
            ∧ m.next = .ok (.bare m.pos (.keyword k), l')
            ∧ m.Takes (.bare m.pos (.keyword k)) (run ++ suffix).length l')
          ∨ ∃ token l', Keyword.ofBytes? (run ++ suffix) = none ∧ m.next = .ok (token, l')
            ∧ m.Takes token (run ++ suffix).length l' ∧ token.kind = Name.unreserved first suffix
            ∧ l'.literal token = .ok (some (run ++ suffix))) := by
  have hgap := h.gap?_of_ne_equals (Byte.isBlank_of_isIdentStart hfirst)
    (Byte.ne_of_isIdentStart hfirst rfl) (Byte.ne_of_isIdentStart hfirst rfl)
    (Byte.ne_of_isIdentStart hfirst rfl)
  have hregion : m.stack.top.region.ReadsStatement first :=
    .of_ne (Byte.ne_of_isIdentStart hfirst (by decide)) (Byte.ne_of_isIdentStart hfirst (by decide))
      h.holds
  obtain ⟨run, suffix, behind, hdivision, hlexeme⟩ := Lexeme.read_division m.stack.top.lookback
    (Line.startsBehind (source.take m.pos)) hfirst rest
  refine ⟨run, suffix, behind, hdivision, ?_⟩
  cases hfound : Keyword.ofBytes? (run ++ suffix) with
  | some k =>
    rw [hfound] at hlexeme
    obtain ⟨l', hnext, htakes⟩ := h.next_bare hgap hregion hlexeme
    exact .inl ⟨k, l', rfl, hnext, htakes⟩
  | none =>
    rw [hfound] at hlexeme
    obtain ⟨l', hnext, htakes, hliteral⟩ := h.next_spelled hgap hregion hlexeme
    rw [hdivision.take_eq] at hliteral
    exact .inr ⟨_, l', rfl, hnext, htakes, rfl, hliteral⟩

/-- **The token of a name.** Wherever statements are scanned and a letter or an underscore stands
that does not begin the end marker, the bytes begin with a name, and the token takes in the name and
no more. If its text is the lexeme of a kind of reserved word, the token is of that kind and has no
literal. Otherwise its text is its literal, and its kind is that of a constant, of a method or of a
local variable. -/
theorem names_divide (source : List Byte) (n : Nat) :
    ∃ tokens l, calls next n (ofBytes source) = .ok (tokens, l)
      ∧ ∀ m first rest, l.Scans m → source.drop m.pos = first :: rest → first.isIdentStart →
          ¬ EndMarkerAt source m.pos →
          ∃ run suffix behind token l',
            Name.Division m.stack.top.lookback.defining first (first :: rest) run suffix behind
              ∧ l.next = .ok (token, l') ∧ m.Takes token (run ++ suffix).length l'
              ∧ (∀ k : Kind, k.isKeyword → k.lexeme?.map Byte.ofString = some (run ++ suffix) →
                  token = .bare m.pos k)
              ∧ ((∀ k : Kind, k.isKeyword →
                    k.lexeme?.map Byte.ofString ≠ some (run ++ suffix)) →
                  token.kind = Name.unreserved first suffix
                    ∧ l'.literal token = .ok (some (run ++ suffix))) := by
  obtain ⟨tokens, l, hcalls, -⟩ := exists_calls source n
  have hsound := (sound_ofBytes source).of_calls hcalls
  refine ⟨tokens, l, hcalls, ?_⟩
  intro m first rest hscans hsource hfirst hmarker
  obtain ⟨run, suffix, behind, hdivision, hname⟩ :=
    (hscans.facing hsound hsource hmarker).exists_name hfirst
  refine ⟨run, suffix, behind, ?_⟩
  rw [hscans.next_eq]
  rcases hname with ⟨word, l', hfound, hnext, htakes⟩
    | ⟨token, l', hfound, hnext, htakes, hkind, hliteral⟩
  · refine ⟨_, l', hdivision, hnext, htakes, fun k hk htext => ?_, fun hnone => ?_⟩
    · obtain ⟨word', hfound', rfl⟩ := (Kind.lexeme?_eq_some_iff hk).mp htext
      rw [hfound] at hfound'
      cases hfound'
      rfl
    · have hkeyword : (Kind.keyword word).isKeyword := rfl
      exact absurd ((Kind.lexeme?_eq_some_iff hkeyword).mpr ⟨word, hfound, rfl⟩)
        (hnone _ hkeyword)
  · refine ⟨token, l', hdivision, hnext, htakes, fun k hk htext => ?_, fun _ => ⟨hkind, hliteral⟩⟩
    obtain ⟨word, hword, -⟩ := (Kind.lexeme?_eq_some_iff hk).mp htext
    rw [hfound] at hword
    cases hword

end ScriptLexer.Lexer
