import ScriptLexer.Lexer.Run
import ScriptLexer.Proofs.Lexer.Literals
import ScriptLexer.Proofs.Word.Next

/-!
# Sessions without a fault

A session is a lexer that is called in any order: for the next token, for a token together with its
literal, for an item of the tokens up to the end, for the first diagnostic, for the number of open
constructs, and for the literal of any token that was returned before. The same calls can be made of
the lexer on numbers, where only a contract can be broken, and of the lexer on machine words, where
arithmetic may overflow and a byte may be missing as well.

Neither ever stops. What carries the argument from call to call is an invariant of three parts: the
tape reads the script and every open heredoc has been named, what is counted is no more than the
bytes read, and the literals that were returned lie in front of the reading offset.

## Main definitions

* `Call`, `Answer` — what can be asked of a lexer, and what it answers
* `Session.run` — a sequence of calls, of either lexer
* `Session.Sound` — the invariant

## Main results

* `Session.Sound.call` — one call answers, on numbers and on words alike, and keeps the invariant
* `Session.run_without_fault` — any sequence of calls answers, if the bytes of the script are fewer
  than the values of an offset
-/

namespace ScriptLexer

/-! ### Calls on machine words -/

namespace Word

/-- The decoded bytes of a token's literal. -/
def literal (token : Token) (l : Lexer) : Except Fault (Option (List Byte)) :=
  match token.literal with
  | none => .ok none
  | some span => do
    let bytes ← slice span l.tape
    return some bytes

/-- Reads the next token, and its literal as it is then. -/
def scan (l : Lexer) : Except Fault ((Token × Option (List Byte)) × Lexer) := do
  let (token, l) ← next l
  let bytes ← literal token l
  return ((token, bytes), l)

/-- Reads the next token, unless the script is at its end. -/
def next? (l : Lexer) : Except Fault (Option Token × Lexer) := do
  let (token, l) ← next l
  return (if token.kind = .endOfInput then none else some token, l)

end Word

/-! ### Sessions -/

/-- What can be asked of a lexer. -/
inductive Call where
  /-- The next token. -/
  | next
  /-- The next token and its literal. -/
  | scan
  /-- The next token, if it does not stand for the end. -/
  | iterate
  /-- The first diagnostic. -/
  | diagnostic
  /-- The number of open constructs. -/
  | depth
  /-- The literal of the token that was returned `index` tokens behind the first. -/
  | literal (index : Nat)
  deriving DecidableEq, Repr

/-- What a lexer answers. -/
inductive Answer where
  | token (token : Token)
  | scanned (token : Token) (bytes : Option (List Byte))
  | item (token : Option Token)
  | diagnostic (first : Option Diagnostic)
  | depth (constructs : Nat)
  | literal (bytes : Option (List Byte))
  deriving DecidableEq, Repr

/-- A lexer by the calls that read its tape or its stack, each of which may stop for an `ε`. -/
structure Interface (ε : Type) where
  next : Lexer → Except ε (Token × Lexer)
  scan : Lexer → Except ε ((Token × Option (List Byte)) × Lexer)
  next? : Lexer → Except ε (Option Token × Lexer)
  depth : Lexer → Except ε Nat
  literal : Token → Lexer → Except ε (Option (List Byte))

/-- The calls of the lexer. -/
def Lexer.interface : Interface Misuse :=
  ⟨next, scan, next?, fun l => .ok l.depth, literal⟩

/-- The calls of the lexer on machine words. -/
def Word.interface : Interface Fault :=
  ⟨next, scan, next?, fun l => depth l.stack, literal⟩

/-- A lexer and the tokens that it has returned. -/
structure Session where
  lexer : Lexer
  returned : List Token
  deriving DecidableEq, Repr

namespace Session

/-- The session with a script of which nothing has been read. -/
def start (source : List Byte) : Session :=
  ⟨.ofBytes source, []⟩

section Run

variable {ε : Type} (i : Interface ε)

/-- Makes one call. Nothing is asked of a token that was not returned. -/
def call (c : Call) (s : Session) : Except ε (Answer × Session) :=
  match c with
  | .next => do
    let (token, l) ← i.next s.lexer
    return (.token token, ⟨l, s.returned ++ [token]⟩)
  | .scan => do
    let ((token, bytes), l) ← i.scan s.lexer
    return (.scanned token bytes, ⟨l, s.returned ++ [token]⟩)
  | .iterate => do
    let (token, l) ← i.next? s.lexer
    return (.item token, ⟨l, s.returned ++ token.toList⟩)
  | .diagnostic => .ok (.diagnostic s.lexer.diagnostic, s)
  | .depth => do
    let constructs ← i.depth s.lexer
    return (.depth constructs, s)
  | .literal index =>
    match s.returned[index]? with
    | none => .ok (.literal none, s)
    | some token => do
      let bytes ← i.literal token s.lexer
      return (.literal bytes, s)

/-- Makes calls one after the other. -/
def run : List Call → Session → Except ε (List Answer × Session)
  | [], s => .ok ([], s)
  | c :: calls, s => do
    let (answer, s) ← call i c s
    let (answers, s) ← run calls s
    return (answer :: answers, s)

end Run

/-- What holds of a session with the script `source` between two calls. -/
structure Sound (source : List Byte) (s : Session) : Prop where
  reads : s.lexer.Reads source
  bounded : s.lexer.Bounded
  /-- The literals that were returned lie in front of the reading offset. -/
  returned : ∀ token ∈ s.returned, ∀ span, token.literal = some span →
    span.start ≤ span.stop ∧ span.stop ≤ s.lexer.pos

variable {source : List Byte} {s : Session}

theorem sound_start (source : List Byte) : (start source).Sound source where
  reads := Lexer.reads_ofBytes source
  bounded := Lexer.bounded_ofBytes source
  returned := List.forall_mem_nil _

/-! ### One call -/

/-- The literals that were returned lie in front of the reading offset, that of the last token
included. -/
theorem Sound.returned_behind (h : s.Sound source) {token : Token} {l : Lexer}
    (hmoves : Lexer.Moves source s.lexer token l) {tokens : List Token}
    (htokens : ∀ t ∈ tokens, t = token) :
    ∀ t ∈ s.returned ++ tokens, ∀ span, t.literal = some span →
      span.start ≤ span.stop ∧ span.stop ≤ l.pos := by
  intro t ht span hspan
  rcases List.mem_append.mp ht with ht | ht
  · obtain ⟨hle, hstop⟩ := h.returned t ht span hspan
    exact ⟨hle, Nat.le_trans hstop (Nat.le_trans hmoves.begins hmoves.stops)⟩
  · obtain rfl := htokens t ht
    exact (hmoves.literal span hspan).2

/-- **A token is returned without a fault,** and the session stays sound whether or not the token
is kept. -/
theorem Sound.next (h : s.Sound source) (hsource : source.length < Word.offsets) :
    ∃ token l, s.lexer.next = .ok (token, l) ∧ Word.next s.lexer = .ok (token, l)
      ∧ (∃ bytes, l.literal token = .ok bytes)
      ∧ ∀ tokens, (∀ t ∈ tokens, t = token) → Sound source ⟨l, s.returned ++ tokens⟩ := by
  obtain ⟨token, l, hnext, hmoves⟩ := Lexer.exists_next h.reads
  refine ⟨token, l, hnext, ?_, ?_, fun tokens htokens => ?_⟩
  · rw [Word.next_eq h.reads h.bounded hsource, hnext]
    rfl
  · cases hliteral : token.literal with
    | none => exact ⟨none, by rw [Lexer.literal, hliteral]⟩
    | some span =>
      obtain ⟨bytes, -, hbytes⟩ := hmoves.exists_literal hliteral
      exact ⟨some bytes, hbytes⟩
  · exact ⟨hmoves.reads, h.bounded.next h.reads hnext, h.returned_behind hmoves htokens⟩

/-- A literal is looked up without a fault of its own. -/
theorem literal_eq (token : Token) (l : Lexer) :
    Word.literal token l = Word.lift (l.literal token) := by
  rw [Word.literal, Lexer.literal]
  cases token.literal with
  | none => rfl
  | some span =>
    simp only [Word.slice]
    cases l.tape.slice span <;> rfl

/-- A literal that was returned can be looked up. -/
theorem Sound.exists_literal (h : s.Sound source) {token : Token} (htoken : token ∈ s.returned) :
    ∃ bytes, s.lexer.literal token = .ok bytes := by
  rw [Lexer.literal]
  cases hliteral : token.literal with
  | none => exact ⟨none, rfl⟩
  | some span =>
    obtain ⟨hle, hstop⟩ := h.returned token htoken span hliteral
    obtain ⟨bytes, hslice⟩ := h.reads.tape.exists_slice hle hstop
    refine ⟨some bytes, ?_⟩
    simp only [Tape.slice_eq_ok_iff.mpr hslice]
    rfl

/-- **One call answers,** on numbers and on words alike, and the session stays sound. -/
theorem Sound.call (h : s.Sound source) (hsource : source.length < Word.offsets) (c : Call) :
    ∃ answer s', Session.call Lexer.interface c s = .ok (answer, s')
      ∧ Session.call Word.interface c s = .ok (answer, s') ∧ s'.Sound source := by
  obtain ⟨token, l, hnext, hword, ⟨bytes, hbytes⟩, hsound⟩ := h.next hsource
  cases c with
  | next =>
    refine ⟨.token token, ⟨l, s.returned ++ [token]⟩, ?_, ?_, hsound [token] (by simp)⟩
    · simp only [Session.call, Lexer.interface, hnext]
      rfl
    · simp only [Session.call, Word.interface, hword]
      rfl
  | scan =>
    refine ⟨.scanned token bytes, ⟨l, s.returned ++ [token]⟩, ?_, ?_, hsound [token] (by simp)⟩
    · simp only [Session.call, Lexer.interface, Lexer.scan, hnext, bind, Except.bind, hbytes]
      rfl
    · simp only [Session.call, Word.interface, Word.scan, hword, bind, Except.bind, literal_eq,
        hbytes]
      rfl
  | iterate =>
    refine ⟨.item (if token.kind = .endOfInput then none else some token), _, ?_, ?_,
      hsound (if token.kind = .endOfInput then none else some token).toList ?_⟩
    · simp only [Session.call, Lexer.interface, Lexer.next?, hnext]
      rfl
    · simp only [Session.call, Word.interface, Word.next?, hword]
      rfl
    · split <;> simp
  | diagnostic => exact ⟨_, s, rfl, rfl, h⟩
  | depth =>
    have hdepth : s.lexer.stack.below.length < Word.offsets :=
      Nat.lt_of_le_of_lt (Nat.le_trans h.bounded.depth h.reads.tape.pos_le) hsource
    refine ⟨.depth s.lexer.depth, s, rfl, ?_, h⟩
    simp only [Session.call, Word.interface, Word.depth_eq hdepth]
    rfl
  | literal index =>
    simp only [Session.call, Lexer.interface, Word.interface]
    cases hreturned : s.returned[index]? with
    | none => exact ⟨_, s, rfl, rfl, h⟩
    | some token =>
      obtain ⟨bytes, hbytes⟩ := h.exists_literal (List.mem_of_getElem? hreturned)
      refine ⟨.literal bytes, s, ?_, ?_, h⟩
      · simp only [hbytes]
        rfl
      · simp only [literal_eq, hbytes]
        rfl

/-! ### Any number of calls -/

theorem Sound.run (h : s.Sound source) (hsource : source.length < Word.offsets)
    (calls : List Call) :
    ∃ answers s', Session.run Lexer.interface calls s = .ok (answers, s')
      ∧ Session.run Word.interface calls s = .ok (answers, s') ∧ s'.Sound source := by
  induction calls generalizing s with
  | nil => exact ⟨[], s, rfl, rfl, h⟩
  | cons c calls ih =>
    obtain ⟨answer, s', hcall, hcall', hs'⟩ := h.call hsource c
    obtain ⟨answers, s'', hrun, hrun', hs''⟩ := ih hs'
    refine ⟨answer :: answers, s'', ?_, ?_, hs''⟩
    · simp only [Session.run, hcall, bind, Except.bind, hrun]
      rfl
    · simp only [Session.run, hcall', bind, Except.bind, hrun']
      rfl

/-- **No sequence of calls has a fault.** Whatever the bytes of a script are, if they are fewer than
the values of an offset, any calls in any order are answered, and no contract is broken on the way.
On machine words they are answered alike: no sum and no product overflows, no difference is
negative, and every byte that is looked up is there. -/
theorem run_without_fault (source : List Byte) (hsource : source.length < 2 ^ 32)
    (calls : List Call) :
    ∃ answers s, run Lexer.interface calls (start source) = .ok (answers, s)
      ∧ run Word.interface calls (start source) = .ok (answers, s) := by
  obtain ⟨answers, s, hrun, hrun', -⟩ := (sound_start source).run hsource calls
  exact ⟨answers, s, hrun, hrun'⟩

/-- A script that ends within an escape, behind a literal with a shielded backslash. -/
def cutOffScript : List Byte :=
  Byte.ofString "'a\\\\' \"\\x"

/-- Calls in no particular order, one of them for a literal that was returned before. -/
def someCalls : List Call :=
  [.scan, .next, .literal 0, .diagnostic, .depth, .iterate]

theorem run_without_fault_cut_off :
    cutOffScript.length < 2 ^ 32
      ∧ ∃ answers s, run Lexer.interface someCalls (start cutOffScript) = .ok (answers, s)
        ∧ run Word.interface someCalls (start cutOffScript) = .ok (answers, s) :=
  have hsource : cutOffScript.length < 2 ^ 32 := by decide +kernel
  ⟨hsource, run_without_fault cutOffScript hsource someCalls⟩

example : (run Word.interface someCalls (start cutOffScript)).map (·.1)
    = .ok [.scanned ⟨0, .string, some ⟨1, 3⟩⟩ (some (Byte.ofString "a\\")),
      .token ⟨6, .illegal, some ⟨7, 7⟩⟩, .literal (some (Byte.ofString "a\\")),
      .diagnostic (some ⟨7, .invalidHexEscape⟩), .depth 1, .item none] := by
  decide +kernel

end Session

end ScriptLexer
