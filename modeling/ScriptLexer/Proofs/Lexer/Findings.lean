import ScriptLexer.Proofs.Lexer.Answers
import ScriptLexer.Proofs.Lexer.Append

/-!
# What calls find

A number of calls, one after another, find what the outlooks along the way say. `Outlook.findings`
lists it, with the offsets at which the tokens begin, and a script that is divided into tokens shows
the list: its tokens have these offsets, kinds and literals, and the first report in the list is the
report of the script. Two scripts whose calls find the same kinds therefore have equally many
tokens, and what else their lists have in common the two divided scripts have in common.

## Main definitions

* `Outlook.findings` — what a number of calls find
* `Lexed.Shows` — a divided script shows what was found

## Main results

* `Lexer.Sound.calls_findings` — what calls answer is what is found
* `lexBytes_of_kinds` — two scripts of the same kinds
-/

namespace ScriptLexer

/-- What a call finds, and where. -/
structure Finding where
  pos : Nat
  length : Nat
  kind : Kind
  literal : Option (List Byte)
  diagnostic : Option Diagnostic
  deriving DecidableEq, Repr

namespace Outlook

/-- The outlook on a script of which nothing has been read. -/
def start (source : List Byte) : Outlook :=
  ⟨source, true, .enter .statements, []⟩

/-- The outlook behind a number of tokens. -/
def after : (n : Nat) → Outlook → Outlook
  | 0, o => o
  | n + 1, o => o.next.2.after n

/-- What the next call finds, if the bytes ahead begin at an offset. -/
def find (pos : Nat) (o : Outlook) : Finding :=
  ⟨pos + o.gap, o.next.1.length, o.next.1.kind, o.next.1.literal,
    o.next.1.fault.map (·.shift (pos + o.gap))⟩

/-- What a number of calls find, if the bytes ahead begin at an offset. -/
def findings : (n : Nat) → (pos : Nat) → Outlook → List Finding
  | 0, _, _ => []
  | n + 1, pos, o => o.find pos :: o.next.2.findings n ((o.find pos).pos + (o.find pos).length)

end Outlook

/-- A divided script shows what was found. -/
structure Lexed.Shows (found : List Finding) (l : Lexed) : Prop where
  tokens : (l.tokens.map fun token => (token.pos, token.kind, l.literal? token))
    = found.map fun f => (f.pos, f.kind, f.literal)
  diagnostic : l.diagnostic = found.findSome? (·.diagnostic)

theorem Lexed.Shows.kinds {found : List Finding} {l : Lexed} (h : l.Shows found) :
    l.kinds = found.map (·.kind) := by
  have hkinds := congrArg (List.map (·.2.1)) h.tokens
  rw [List.map_map, List.map_map] at hkinds
  exact hkinds

namespace Lexer

variable {source : List Byte} {l l' : Lexer} {n : Nat} {tokens : List Token}

theorem outlook_ofBytes (source : List Byte) : (ofBytes source).outlook source = .start source :=
  rfl

/-- A call ends where what it finds ends. -/
theorem Answers.ends_eq {token : Token} (h : Answers source l token l') :
    l'.pos = ((l.outlook source).find l.pos).pos + ((l.outlook source).find l.pos).length := by
  rw [h.ends, h.begins]
  rfl

/-- The outlook behind a number of calls. -/
theorem Sound.outlook_of_calls (h : Sound source l) (hcalls : calls next n l = .ok (tokens, l')) :
    l'.outlook source = (l.outlook source).after n := by
  induction n generalizing l tokens with
  | zero =>
    cases hcalls
    rfl
  | succ n ih =>
    obtain ⟨token, m, later, hnext, hlater, -⟩ := exists_of_calls_succ hcalls
    rw [Outlook.after, ← (h.answers hnext).outlook]
    exact ih (h.of_next hnext) hlater

/-- **What calls answer is what is found.** -/
theorem Sound.calls_findings (h : Sound source l) (hcalls : calls next n l = .ok (tokens, l')) :
    let found := (l.outlook source).findings n l.pos
    (tokens.map fun token =>
        (token.pos, token.kind, token.literal.bind (·.slice? l'.tape.buffer)))
        = found.map (fun f => (f.pos, f.kind, f.literal))
      ∧ l'.diagnostic = l.diagnostic.or (found.findSome? (·.diagnostic)) := by
  induction n generalizing l tokens with
  | zero =>
    cases hcalls
    exact ⟨rfl, Option.or_none.symm⟩
  | succ n ih =>
    obtain ⟨token, m, later, hnext, hmoves, hlater, rfl⟩ := h.reads.exists_of_calls_succ hcalls
    have hanswers := h.answers hnext
    obtain ⟨htokens, hdiagnostic⟩ := ih (h.of_next hnext) hlater
    have hkept : token.literal.bind (·.slice? m.tape.buffer)
        = token.literal.bind (·.slice? l'.tape.buffer) := by
      cases hs : token.literal with
      | none => rfl
      | some s => exact (hmoves.reads.kept_of_calls (hmoves.literal s hs).2.2 hlater).bytes.symm
    rw [hanswers.outlook, hanswers.ends_eq] at htokens hdiagnostic
    simp only [Outlook.findings, List.map_cons, List.findSome?_cons]
    refine ⟨?_, ?_⟩
    · rw [htokens, ← hkept, hanswers.literal, hanswers.kind, hanswers.begins]
      rfl
    · rw [hdiagnostic, hanswers.diagnostic, hanswers.begins, Option.or_assoc]
      refine congrArg (l.diagnostic.or ·) ?_
      show (Outlook.find l.pos _).diagnostic.or _ = _
      cases (Outlook.find l.pos (outlook source l)).diagnostic <;> rfl

/-- What is found, a call answers. -/
theorem Sound.call_of_finding (h : Sound source l) {f : Finding}
    (hf : f ∈ (l.outlook source).findings n l.pos) :
    ∃ k tokens m token m', calls next k l = .ok (tokens, m) ∧ m.next = .ok (token, m')
      ∧ token.pos = f.pos ∧ token.kind = f.kind ∧ m'.pos = f.pos + f.length := by
  induction n generalizing l with
  | zero => cases hf
  | succ n ih =>
    obtain ⟨token, l', hnext, -⟩ := exists_next h.reads
    have hanswers := h.answers hnext
    rcases List.mem_cons.mp hf with rfl | hlater
    · exact ⟨0, [], l, token, l', rfl, hnext, hanswers.begins, hanswers.kind, hanswers.ends_eq⟩
    · rw [← hanswers.outlook, ← hanswers.ends_eq] at hlater
      obtain ⟨k, tokens, m, token', m', hcalls, hm, hfound⟩ := ih (h.of_next hnext) hlater
      exact ⟨k + 1, token :: tokens, m, token', m', calls_cons hnext hcalls, hm, hfound⟩

/-- Calls on a script show what is found. -/
theorem shows_of_calls (hcalls : calls next n (ofBytes source) = .ok (tokens, l)) :
    (Lexed.mk tokens l.tape.buffer l.diagnostic).Shows ((Outlook.start source).findings n 0) := by
  obtain ⟨htokens, hdiagnostic⟩ := (sound_ofBytes source).calls_findings hcalls
  exact ⟨htokens, hdiagnostic⟩

end Lexer

/-- **Two scripts whose calls find the same kinds** are divided into equally many tokens, which show
what is found in each. -/
theorem lexBytes_of_kinds {x y : List Byte}
    (h : ∀ n, ((Outlook.start y).findings n 0).map (·.kind)
      = ((Outlook.start x).findings n 0).map (·.kind)) :
    ∃ a b n, lexBytes x = .ok a ∧ lexBytes y = .ok b ∧ a.Shows ((Outlook.start x).findings n 0)
      ∧ b.Shows ((Outlook.start y).findings n 0) := by
  obtain ⟨init, eoi, l, -, hcalls, -, hinit, heoi⟩ := Lexer.run_eq_calls x
  obtain ⟨tokens, m, hcalls', -⟩ := Lexer.exists_calls y (init.length + 1)
  have hx := Lexer.shows_of_calls hcalls
  have hy := Lexer.shows_of_calls hcalls'
  have hkinds : tokens.map (·.kind) = init.map (·.kind) ++ [eoi.kind] := by
    rw [← List.map_singleton, ← List.map_append]
    exact (hy.kinds.trans (h _)).trans hx.kinds.symm
  -- The last of the tokens stands for the end, and it alone does.
  obtain ⟨init', last, rfl, hinit', hlast⟩ := List.map_eq_append_iff.mp hkinds
  obtain ⟨eoi', rfl, heoi'⟩ := List.map_eq_singleton_iff.mp hlast
  refine ⟨_, _, init.length + 1, lexBytes_eq_ok_iff.mpr ⟨_, init, eoi, l, hcalls, hinit, heoi, rfl⟩,
    lexBytes_eq_ok_iff.mpr ⟨_, init', eoi', m, hcalls', ?_, heoi'.trans heoi, rfl⟩, hx, hy⟩
  intro token htoken
  have hmem : token.kind ∈ init.map (·.kind) := hinit' ▸ List.mem_map_of_mem htoken
  obtain ⟨token', htoken', hkind⟩ := List.mem_map.mp hmem
  exact hkind ▸ hinit token' htoken'

end ScriptLexer
