import ScriptLexer.Token.Kind

/-!
# Looking up reserved words

The text of a reserved word is written down twice: in the table of the texts, from which a kind
reports its lexeme, and in the table by length, in which names are looked up. Here the two are shown
to be inverse to each other, on all bytes there are.

## Main results

* `Keyword.ofBytes?_eq_some_iff` — the lookup finds a word exactly by its text
* `Kind.lexeme?_eq_some_iff` — so it finds the one kind of reserved word with a lexeme
-/

namespace ScriptLexer

namespace Keyword

variable {name : List Byte} {k : Keyword}

/-- The table by length has the texts of the table of texts. -/
theorem text_of_mem_ofLength {length : Nat} {entry : String × Keyword}
    (h : entry ∈ ofLength length) : entry.1 = entry.2.text := by
  have hall : ∀ entry ∈ ofLength length, entry.1 = entry.2.text := by
    rw [ofLength.eq_def]
    split <;> decide
  exact hall entry h

/-- What is found has the text that was looked up. -/
theorem bytes_of_ofBytes? (h : ofBytes? name = some k) : k.bytes = name := by
  obtain ⟨entry, hfound, rfl⟩ := Option.map_eq_some_iff.mp h
  rw [bytes, ← text_of_mem_ofLength (List.mem_of_find?_eq_some hfound)]
  exact eq_of_beq (List.find?_some hfound :)

/-- Every reserved word is found by its text. -/
theorem ofBytes?_bytes (k : Keyword) : ofBytes? k.bytes = some k := by
  cases k <;> decide

/-- **The lookup finds a word exactly by its text.** -/
theorem ofBytes?_eq_some_iff : ofBytes? name = some k ↔ k.bytes = name := by
  refine ⟨bytes_of_ofBytes?, ?_⟩
  rintro rfl
  exact ofBytes?_bytes k

end Keyword

/-- **The kinds of reserved words are told by their lexemes,** and the lookup finds them. -/
theorem Kind.lexeme?_eq_some_iff {kind : Kind} {name : List Byte} (hkind : kind.isKeyword) :
    kind.lexeme?.map Byte.ofString = some name
      ↔ ∃ k, Keyword.ofBytes? name = some k ∧ kind = .keyword k := by
  cases kind with
  | keyword k =>
    have hlexeme : (Kind.keyword k).lexeme?.map Byte.ofString = some k.bytes := rfl
    simp [hlexeme, Keyword.ofBytes?_eq_some_iff]
  | _ => cases hkind

end ScriptLexer
