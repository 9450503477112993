import ScriptLexer.Proofs.Lexer.Calls

/-!
# What becomes of the buffer

Literals are decoded in the buffer that holds the script, and later calls go on rewriting it. Two
things have to be known for that to be harmless. Nothing is rewritten but the bytes of literals that
have been returned, so what is still to be read is the script's; and a literal that has been
returned is never rewritten again, so it reads the same whenever it is looked up.

Both follow from where literals lie. A token's literal begins no earlier than the token, and the
token no earlier than the reading offset; everything returned before ends there.

## Main results

* `Lexer.buffer_after_calls` — the buffer differs from the script under returned literals only
* `Lexer.literals_stay` — a literal reads the same at its call, after any more, and in the list of
  all tokens
-/

namespace ScriptLexer

/-- What a token may have rewritten is its literal, and its kind says so. -/
theorem Token.rewritten_cases {token : Token} {i : Nat} (hstart : token.rewritten.start ≤ i)
    (hstop : i < token.rewritten.stop) :
    token.kind.isRewritten ∧ ∃ s, token.literal = some s ∧ s.start ≤ i ∧ i < s.stop := by
  rw [rewritten] at hstart hstop
  split at hstart
  · rename_i hkind
    rw [if_pos hkind] at hstop
    cases hliteral : token.literal with
    | none =>
      rw [hliteral] at hstart hstop
      exact absurd hstart (Nat.not_le.mpr hstop)
    | some s =>
      rw [hliteral] at hstart hstop
      exact ⟨hkind, s, rfl, hstart, hstop⟩
  · rename_i hkind
    rw [if_neg hkind] at hstop
    exact absurd hstart (Nat.not_le.mpr hstop)

theorem Kind.isRewritten_iff_mem (kind : Kind) :
    kind.isRewritten ↔
      kind ∈ [Kind.string, .stringPart, .heredocPart, .heredocEnd, .illegal] := by
  cases kind <;> simp [isRewritten]

/-- Buffers that agree under a span have the same bytes there. -/
theorem Span.slice?_congr {α : Type} {s : Span} {buffer buffer' : List α}
    (hlength : buffer.length = buffer'.length)
    (h : ∀ i, s.start ≤ i → i < s.stop → buffer[i]? = buffer'[i]?) :
    s.slice? buffer = s.slice? buffer' := by
  rw [slice?, slice?, hlength]
  split
  · rename_i hbounds
    refine congrArg some (List.ext_getElem? fun i => ?_)
    rw [List.getElem?_take, List.getElem?_take, List.getElem?_drop, List.getElem?_drop]
    split
    · rename_i hi
      rw [length] at hi
      exact h _ (Nat.le_add_right _ i) (by omega)
    · rfl
  · rfl

/-- What has been read can be sliced. -/
theorem Tape.Reads.exists_slice {source : List Byte} {t : Tape} {s : Span} (h : t.Reads source)
    (hle : s.start ≤ s.stop) (hstop : s.stop ≤ t.pos) :
    ∃ bytes, s.slice? t.buffer = some bytes := by
  have hsize : s.stop ≤ t.buffer.length := by
    rw [h.length_buffer]
    exact Nat.le_trans hstop h.pos_le
  exact ⟨_, if_pos ⟨hle, hsize⟩⟩

namespace Lexer

variable {source : List Byte} {l l' : Lexer} {token : Token} {s : Span} {n : Nat}

/-! ### The frame of a call -/

/-- A call rewrites nothing in front of where it begins. -/
theorem Moves.buffer_before (h : Moves source l token l') {i : Nat} (hi : i < l.pos) :
    l'.tape.buffer[i]? = l.tape.buffer[i]? := by
  refine h.frame i fun hunder => ?_
  obtain ⟨-, span, hspan, hle, -⟩ := Token.rewritten_cases hunder.1 hunder.2
  have hbegins := h.begins
  have hliteral := (h.literal span hspan).1
  omega

/-! ### The buffer differs under literals -/

/-- The buffer differs from the script under literals of `tokens` only, and only if the kind of the
token is one of text or `illegal`. -/
def DiffersUnder (source : List Byte) (tokens : List Token) (l : Lexer) : Prop :=
  ∀ i, l.tape.buffer[i]? ≠ source[i]? →
    ∃ token ∈ tokens,
      token.kind ∈ [Kind.string, .stringPart, .heredocPart, .heredocEnd, .illegal]
        ∧ ∃ s, token.literal = some s ∧ s.start ≤ i ∧ i < s.stop

theorem DiffersUnder.step {tokens : List Token} (h : DiffersUnder source tokens l)
    (hmoves : Moves source l token l') : DiffersUnder source (tokens ++ [token]) l' := by
  intro i hi
  by_cases hspan : token.rewritten.start ≤ i ∧ i < token.rewritten.stop
  · obtain ⟨hkind, hliteral⟩ := Token.rewritten_cases hspan.1 hspan.2
    rw [Kind.isRewritten_iff_mem] at hkind
    exact ⟨token, List.mem_append_right _ List.mem_cons_self, hkind, hliteral⟩
  · rw [hmoves.frame i hspan] at hi
    obtain ⟨t, ht, hdiffers⟩ := h i hi
    exact ⟨t, List.mem_append_left _ ht, hdiffers⟩

/-- **The buffer differs from the script under returned literals only.** It is as long as the
script, and from the reading offset on it is the script. -/
theorem buffer_after_calls (source : List Byte) (n : Nat) :
    ∃ tokens l, calls next n (ofBytes source) = .ok (tokens, l)
      ∧ l.tape.buffer.length = source.length
      ∧ (∀ i, l.pos ≤ i → l.tape.buffer[i]? = source[i]?)
      ∧ ∀ i, l.tape.buffer[i]? ≠ source[i]? →
        ∃ token ∈ tokens,
          token.kind ∈ [Kind.string, .stringPart, .heredocPart, .heredocEnd, .illegal]
            ∧ ∃ s, token.literal = some s ∧ s.start ≤ i ∧ i < s.stop := by
  have hstart : DiffersUnder source [] (ofBytes source) := by
    intro i hi
    exact absurd ((reads_ofBytes source).tape.buffer_eq (Nat.zero_le i)) hi
  obtain ⟨tokens, l, hcalls, hl, hdiffers⟩ := (reads_ofBytes source).calls_next hstart
    (fun _ hP hmoves => hP.step hmoves) n
  exact ⟨tokens, l, hcalls, hl.tape.length_buffer, fun i hi => hl.tape.buffer_eq hi, hdiffers⟩

/-! ### Literals stay -/

/-- A span ends in front of the reading offset, its bytes are as they were, and all literals of
`later` begin behind it. -/
structure Kept (s : Span) (bytes : Option (List Byte)) (later : List Token) (l : Lexer) : Prop where
  pos : s.stop ≤ l.pos
  bytes : s.slice? l.tape.buffer = bytes
  later : ∀ token ∈ later, ∀ s', token.literal = some s' → s.stop ≤ s'.start

theorem Kept.step {bytes : Option (List Byte)} {later : List Token} (hl : l.Reads source)
    (h : Kept s bytes later l) (hmoves : Moves source l token l') :
    Kept s bytes (later ++ [token]) l' where
  pos := Nat.le_trans h.pos (Nat.le_trans hmoves.begins hmoves.stops)
  bytes := by
    rw [← h.bytes]
    refine Span.slice?_congr ?_ fun i _ hi => ?_
    · rw [hmoves.reads.tape.length_buffer, hl.tape.length_buffer]
    · exact hmoves.buffer_before (Nat.lt_of_lt_of_le hi h.pos)
  later := by
    intro t ht s' hs'
    rcases List.mem_append.mp ht with ht | ht
    · exact h.later t ht s' hs'
    · obtain rfl := List.mem_singleton.mp ht
      exact Nat.le_trans h.pos (Nat.le_trans hmoves.begins (hmoves.literal s' hs').1)

/-- **What has been read is never rewritten.** -/
theorem Reads.kept (h : l.Reads source) (hs : s.stop ≤ l.pos) (n : Nat) :
    ∃ later l', calls next n l = .ok (later, l') ∧ Kept s (s.slice? l.tape.buffer) later l' := by
  have hstart : Kept s (s.slice? l.tape.buffer) [] l := ⟨hs, rfl, List.forall_mem_nil _⟩
  obtain ⟨later, l', hcalls, -, hkept⟩ := h.calls_next hstart
    (fun hm hP hmoves => hP.step hm hmoves) n
  exact ⟨later, l', hcalls, hkept⟩

theorem Reads.kept_of_calls (h : l.Reads source) (hs : s.stop ≤ l.pos) {later : List Token}
    (hcalls : calls next n l = .ok (later, l')) : Kept s (s.slice? l.tape.buffer) later l' := by
  obtain ⟨later', m, hcalls', hkept⟩ := h.kept hs n
  rw [hcalls] at hcalls'
  cases hcalls'
  exact hkept

/-- A token's literal can be read where the token is returned. -/
theorem Moves.exists_literal (h : Moves source l token l') (hs : token.literal = some s) :
    ∃ bytes, s.slice? l'.tape.buffer = some bytes ∧ l'.literal token = .ok (some bytes) := by
  obtain ⟨-, hle, hstop⟩ := h.literal s hs
  obtain ⟨bytes, hslice⟩ := h.reads.tape.exists_slice hle hstop
  refine ⟨bytes, hslice, ?_⟩
  rw [Lexer.literal, hs]
  show (l'.tape.slice s).map some = _
  rw [Tape.slice_eq_ok_iff.mpr hslice]
  rfl

/-- A call shows what the buffer holds under the token's literal, if it has one. -/
theorem Moves.scan_eq (h : Moves source l token l') (hnext : l.next = .ok (token, l')) :
    l.scan = .ok ((token, token.literal.bind (·.slice? l'.tape.buffer)), l') := by
  rw [scan, hnext]
  cases hs : token.literal with
  | none =>
    simp only [bind, Except.bind, Lexer.literal, hs]
    rfl
  | some s =>
    obtain ⟨bytes, hslice, hliteral⟩ := h.exists_literal hs
    simp only [bind, Except.bind, hliteral, Option.bind, hslice]
    rfl

/-- **What the calls show one after another is what the last buffer holds.** -/
theorem Reads.calls_scan (h : l.Reads source) {tokens : List Token}
    (hcalls : calls next n l = .ok (tokens, l')) :
    let shown := tokens.map fun token => (token, token.literal.bind (·.slice? l'.tape.buffer))
    calls scan n l = .ok (shown, l') := by
  induction n generalizing l tokens with
  | zero =>
    cases hcalls
    rfl
  | succ n ih =>
    obtain ⟨token, m, later, hnext, hmoves, hlater, rfl⟩ := h.exists_of_calls_succ hcalls
    have hscan := calls_cons (hmoves.scan_eq hnext) (ih hmoves.reads hlater)
    have hkept : token.literal.bind (·.slice? m.tape.buffer)
        = token.literal.bind (·.slice? l'.tape.buffer) := by
      cases hs : token.literal with
      | none => rfl
      | some s => exact (hmoves.reads.kept_of_calls (hmoves.literal s hs).2.2 hlater).bytes.symm
    intro shown
    rw [hscan, hkept]
    rfl

/-- The literals that have been returned lie in what has been read. -/
theorem Reads.literals_read (h : l.Reads source) {tokens : List Token}
    (hcalls : calls next n l = .ok (tokens, l')) :
    ∀ token ∈ tokens, ∀ s, token.literal = some s → s.start ≤ s.stop ∧ s.stop ≤ l'.pos := by
  induction n generalizing l tokens with
  | zero =>
    cases hcalls
    exact List.forall_mem_nil _
  | succ n ih =>
    obtain ⟨token, m, later, hnext, hmoves, hlater, rfl⟩ := h.exists_of_calls_succ hcalls
    refine List.forall_mem_cons.mpr ⟨fun s hs => ?_, ih hmoves.reads hlater⟩
    obtain ⟨-, hle, hstop⟩ := hmoves.literal s hs
    exact ⟨hle, (hmoves.reads.kept_of_calls hstop hlater).pos⟩

/-- **Literals stay.** A literal lies in the buffer and reads the same at its call and after any
number of further calls, whose literals share no byte with it. So the list of all tokens of a text
has the tokens that the calls answer with, and shows of each what its call showed. -/
theorem literals_stay :
    (∀ (source : List Byte) (n : Nat),
      ∃ tokens l token l', calls next n (ofBytes source) = .ok (tokens, l)
        ∧ l.next = .ok (token, l')
        ∧ ∀ s, token.literal = some s →
          s.start ≤ s.stop ∧ s.stop ≤ l'.tape.buffer.length
            ∧ ∃ bytes, l'.literal token = .ok (some bytes)
              ∧ ∀ m, ∃ later l'', calls next m l' = .ok (later, l'')
                ∧ l''.literal token = .ok (some bytes)
                ∧ ∀ token' ∈ later, ∀ s', token'.literal = some s' → s.stop ≤ s'.start)
    ∧ ∀ text : String, ∃ lexed init eoi l,
      lex text = .ok lexed ∧ lexed.tokens = init ++ [eoi]
        ∧ (∀ token ∈ init, token.kind ≠ .endOfInput) ∧ eoi.kind = .endOfInput
        ∧ calls next (init.length + 1) (ofBytes text.toUTF8.data.toList) = .ok (lexed.tokens, l)
        ∧ calls scan (init.length + 1) (ofBytes text.toUTF8.data.toList)
          = .ok (lexed.tokens.map fun token => (token, lexed.literal? token), l)
        ∧ ∀ token ∈ lexed.tokens, (lexed.literal? token).isSome = token.literal.isSome := by
  constructor
  · intro source n
    obtain ⟨tokens, l, hcalls, hl⟩ := exists_calls source n
    obtain ⟨token, l', hnext, hmoves⟩ := exists_next hl
    refine ⟨tokens, l, token, l', hcalls, hnext, fun s hs => ?_⟩
    obtain ⟨-, hle, hstop⟩ := hmoves.literal s hs
    obtain ⟨bytes, hslice, hliteral⟩ := hmoves.exists_literal hs
    refine ⟨hle, ?_, bytes, hliteral, fun m => ?_⟩
    · rw [hmoves.reads.tape.length_buffer]
      exact Nat.le_trans hstop hmoves.reads.tape.pos_le
    · obtain ⟨later, l'', hlater, hkept⟩ := hmoves.reads.kept hstop m
      refine ⟨later, l'', hlater, ?_, hkept.later⟩
      rw [literal, hs]
      show (l''.tape.slice s).map some = _
      rw [Tape.slice_eq_ok_iff.mpr (hkept.bytes.trans hslice)]
      rfl
  · intro text
    have h := reads_ofBytes text.toUTF8.data.toList
    obtain ⟨init, eoi, l, hrun, hcalls, hl, hinit, heoi⟩ := run_eq_calls text.toUTF8.data.toList
    refine ⟨⟨init ++ [eoi], l.tape.buffer, l.diagnostic⟩, init, eoi, l, ?_, rfl, hinit, heoi,
      hcalls, h.calls_scan hcalls, fun token ht => ?_⟩
    · rw [lex, lexBytes, hrun]
      rfl
    · rw [Lexed.literal?]
      cases hs : token.literal with
      | none => rfl
      | some s =>
        obtain ⟨hle, hstop⟩ := h.literals_read hcalls token ht s hs
        obtain ⟨bytes, hslice⟩ := hl.tape.exists_slice hle hstop
        show (s.slice? l.tape.buffer).isSome = true
        rw [hslice]
        rfl

end Lexer

end ScriptLexer
