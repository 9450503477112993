import ScriptLexer.Proofs.Lexeme.Name
import ScriptLexer.Proofs.Lexer.Sightings
import ScriptLexer.Proofs.Lexer.Statement

/-!
# The names of setters

The equals sign that ends the name of a setter is part of the name only where the method is being
defined: `def x=` has one token for the name, `x=` has two. Whether a method is being defined is a
bit of the construct, set by the word that begins a definition and kept by what may name its
receiver. So the bit is set exactly if the word, and then any number of such tokens, were returned
last; they all stand in one construct, with nothing but layout between them.

A receiver is written `self.` or with a constant and a dot, but the tokens behind the word may come
in any order and number. In `def Foo x=1`, which defines a method with a default value, the constant
is the name of the method, and yet the name behind it is read as that of a setter.

## Main definitions

* `AtDefinedName` — the word that begins a definition, and parts of a receiver, come last
* `Name.IsSetter` — a name that may take an equals sign

## Main results

* `Lookback.defining_behind_iff` — the bit, by what was seen
* `Lexer.setter_names` — where a name takes an equals sign, and that it does so there
* `Lexer.setter_behind_constant` — it need not be the name of the method
-/

namespace ScriptLexer

/-! ### Where a method is being defined -/

/-- Whether a token of the kind may be part of the receiver in a definition. -/
def Kind.isReceiver : Kind → Bool
  | keyword .selfWord | punctuator .dot | constant => true
  | _ => false

/-- No part of a definition, up to the name, is text or opens or closes anything. -/
theorem Kind.needsNoLexeme_of_definition {k : Kind} (h : k = .keyword .defWord ∨ k.isReceiver) :
    k.needsNoLexeme = false ∧ k.delimits = false := by
  rcases h with rfl | h
  · exact ⟨rfl, rfl⟩
  rw [isReceiver.eq_def] at h
  split at h
  · exact ⟨rfl, rfl⟩
  · exact ⟨rfl, rfl⟩
  · exact ⟨rfl, rfl⟩
  · cases h

/-- The word that begins a definition, and then parts of a receiver, were seen last. -/
def Defines (seen : List Sighting) : Prop :=
  ∃ before d receiver, seen = before ++ d :: receiver ∧ d.token.kind = .keyword .defWord
    ∧ ∀ s ∈ receiver, s.token.kind.isReceiver

/-- The word that begins a definition, and then parts of a receiver, were seen last in front of the
offset `p`, in one construct and with nothing but layout between them. -/
def AtDefinedName (source : List Byte) (seen : List Sighting) (p : Nat) : Prop :=
  ∃ before d receiver, seen = before ++ d :: receiver ∧ d.token.kind = .keyword .defWord
    ∧ (∀ s ∈ receiver, s.token.kind.isReceiver) ∧ (∀ s ∈ d :: receiver, s.change = .stays)
    ∧ (d :: receiver).IsChain (fun s s' => LayoutBetween source s.stop s'.token.pos)
    ∧ ∀ s ∈ (d :: receiver).getLast?, LayoutBetween source s.stop p

theorem AtDefinedName.defines {source : List Byte} {seen : List Sighting} {p : Nat}
    (h : AtDefinedName source seen p) : Defines seen := by
  obtain ⟨before, d, receiver, hseen, hd, hreceiver, -⟩ := h
  exact ⟨before, d, receiver, hseen, hd, hreceiver⟩

/-- The last of them is the word or a part of the receiver. -/
theorem Defines.last {seen : List Sighting} (h : Defines seen) :
    ∃ s ∈ seen.getLast?, s.token.kind = .keyword .defWord ∨ s.token.kind.isReceiver := by
  obtain ⟨before, d, receiver, rfl, hd, hreceiver⟩ := h
  obtain ⟨s, hs⟩ : ∃ s, s ∈ (d :: receiver).getLast? :=
    ⟨_, List.getLast?_eq_some_getLast (List.cons_ne_nil d receiver)⟩
  refine ⟨s, by rw [List.getLast?_append, hs]; rfl, ?_⟩
  rcases List.mem_cons.mp (List.mem_of_getLast? hs) with rfl | hs
  · exact .inl hd
  · exact .inr (hreceiver s hs)

namespace Lookback

variable {seen : List Sighting} {s : Sighting}

theorem definingAfter_eq (kind : Kind) (defining : Bool) :
    definingAfter kind defining = (kind == .keyword .defWord || (kind.isReceiver && defining)) := by
  cases kind with
  | keyword k => cases k <;> rfl
  | punctuator p => cases p <;> rfl
  | _ => rfl

theorem not_defines_nil : ¬ Defines [] := by
  rintro ⟨before, d, receiver, hseen, -⟩
  cases before <;> cases hseen

theorem defines_snoc :
    Defines (seen ++ [s])
      ↔ s.token.kind = .keyword .defWord ∨ (s.token.kind.isReceiver ∧ Defines seen) := by
  constructor
  · rintro ⟨before, d, receiver, hseen, hd, hreceiver⟩
    rcases List.eq_nil_or_concat receiver with rfl | ⟨receiver, s', rfl⟩
    · obtain ⟨-, hs⟩ := List.append_inj' hseen rfl
      cases hs
      exact .inl hd
    · rw [List.concat_eq_append, ← List.cons_append, ← List.append_assoc] at hseen
      obtain ⟨hfront, hs⟩ := List.append_inj' hseen rfl
      cases hs
      rw [List.concat_eq_append, List.forall_mem_append, List.forall_mem_singleton] at hreceiver
      exact .inr ⟨hreceiver.2, before, d, receiver, hfront, hd, hreceiver.1⟩
  · rintro (hd | ⟨hs, before, d, receiver, rfl, hd, hreceiver⟩)
    · exact ⟨seen, s, [], rfl, hd, List.forall_mem_nil _⟩
    · refine ⟨before, d, receiver ++ [s], by rw [List.append_assoc, List.cons_append], hd, ?_⟩
      rw [List.forall_mem_append, List.forall_mem_singleton]
      exact ⟨hreceiver, hs⟩

/-- **A method is being defined exactly if its word, and then parts of a receiver, were seen
last.** -/
theorem defining_behind_iff (hchanges : ∀ s ∈ seen, s.change.Of s.token.kind) :
    (behind seen).defining ↔ Defines seen := by
  induction seen using List.reverseRecOn with
  | nil => exact iff_of_false Bool.false_ne_true not_defines_nil
  | append_singleton seen s ih =>
    rw [List.forall_mem_append, List.forall_mem_singleton] at hchanges
    have ih := ih hchanges.1
    have hchange := hchanges.2
    rw [behind_snoc, follow, defines_snoc, ← ih]
    cases hs : s.change with
    | stays | closes =>
      show definingAfter _ _ = true ↔ _
      rw [definingAfter_eq]
      simp
    | opens | turns =>
      -- No part of a definition opens a construct or turns one into text.
      refine iff_of_false Bool.false_ne_true ?_
      rw [hs, Change.Of] at hchange
      rintro (hkind | ⟨hkind, -⟩)
      · simp [hkind] at hchange
      · revert hkind hchange
        cases s.token.kind <;> simp [Kind.isReceiver]

end Lookback

/-! ### Names -/

namespace Name

/-- A name that begins in lower case or with an underscore, up to its last byte. -/
structure IsSetter (name : List Byte) : Prop where
  first : ∃ b ∈ name.head?, b.isLowercase ∨ b = Byte.ofChar '_'
  continues : ∀ b ∈ name, b.isIdentContinue

variable {name rest bytes : List Byte} {defining : Bool} {n : Nat}

theorem IsSetter.takeWhile (h : IsSetter name) (rest : List Byte) :
    (name ++ Byte.ofChar '=' :: rest).takeWhile Byte.isIdentContinue = name := by
  rw [List.takeWhile_append_of_pos h.continues]
  have hequals : (Byte.ofChar '=' :: rest).takeWhile Byte.isIdentContinue = [] :=
    List.takeWhile_cons_of_neg (by decide)
  rw [hequals, List.append_nil]

theorem IsSetter.exists_cons (h : IsSetter name) :
    ∃ b tail, name = b :: tail ∧ b.isIdentStart ∧ b.isUppercase = false := by
  obtain ⟨b, hb, hlower⟩ := h.first
  obtain ⟨tail, rfl⟩ := List.head?_eq_some_iff.mp hb
  have hstart : b.isIdentStart := by
    rcases hlower with hlower | rfl
    · simp [Byte.isIdentStart, Byte.isLetter, hlower]
    · rfl
  exact ⟨b, tail, rfl, hstart, (Byte.isUppercase_eq_false_iff hstart).mpr hlower⟩

/-- No reserved word ends with an equals sign. -/
theorem ofBytes?_of_equals (name : List Byte) :
    Keyword.ofBytes? (name ++ [Byte.ofChar '=']) = none := by
  refine Option.eq_none_iff_forall_ne_some.mpr fun k hk => ?_
  have hlast := congrArg List.getLast? (Keyword.bytes_of_ofBytes? hk)
  rw [List.getLast?_concat] at hlast
  revert hlast
  cases k <;> decide

/-- **Where a method is being defined a name takes the equals sign behind it,** unless the sign
begins an operator. -/
theorem IsSetter.read_eq (h : IsSetter name) (hrest : continuesOperator rest = false) :
    read true (name ++ Byte.ofChar '=' :: rest) = (.methodName, name.length + 1) := by
  obtain ⟨b, tail, hname, -, hupper⟩ := h.exists_cons
  have hrun : run (name ++ Byte.ofChar '=' :: rest) = name.length := by
    rw [run, h.takeWhile]
  have hhead : (name ++ Byte.ofChar '=' :: rest).head?.any Byte.isUppercase = false := by
    rw [hname]
    exact hupper
  have hsuffix : hasSuffix true (Byte.ofChar '=' :: rest) = true := by
    simp [hasSuffix, hrest, Byte.ofChar]
  have htake : (name ++ Byte.ofChar '=' :: rest).take (name.length + 1)
      = name ++ [Byte.ofChar '='] := by
    rw [List.take_length_add_append]
    rfl
  have hshape : shape true (name ++ Byte.ofChar '=' :: rest) = (.methodName, name.length + 1) := by
    rw [shape, hhead, hrun, List.drop_left, hsuffix]
    rfl
  rw [read, hshape]
  simp only [htake, ofBytes?_of_equals]

/-- **A name takes an equals sign only where a method is being defined.** -/
theorem defining_of_read (h : read defining bytes = (.methodName, n))
    (hname : bytes.take n = name ++ [Byte.ofChar '=']) : defining := by
  simp only [read] at h
  split at h
  · cases h
  · rw [shape] at h
    split at h
    · cases h
    split at h
    · rename_i hsuffix
      cases h
      rw [List.take_add] at hname
      cases hbehind : bytes.drop (run bytes) with
      | nil =>
        rw [hbehind] at hsuffix
        cases hsuffix
      | cons b behind =>
        rw [hbehind] at hname hsuffix
        obtain ⟨-, hlast⟩ := List.append_inj' hname rfl
        cases hlast
        have hboth : defining = true ∧ continuesOperator behind = false := by
          simpa [hasSuffix, Byte.ofChar] using hsuffix
        exact hboth.1
    · cases h

end Name

/-- An end marker is not followed by an equals sign. -/
theorem Name.IsSetter.not_endMarkerAt {source name rest : List Byte} {p : Nat} (h : IsSetter name)
    (hsource : source.drop p = name ++ Byte.ofChar '=' :: rest) : ¬ EndMarkerAt source p := by
  rintro ⟨-, behind, hmarker, hends⟩
  have hcontinues : ∀ b ∈ Line.endMarker, b.isIdentContinue := List.all_eq_true.mp rfl
  rw [hsource] at hmarker
  have hrun := h.takeWhile rest
  rw [hmarker, List.takeWhile_append_of_pos hcontinues] at hrun
  rw [← hrun, List.append_assoc, List.append_cancel_left_eq] at hmarker
  rw [Line.endsHere.eq_def] at hends
  split at hends
  · simp at hmarker
  · rw [List.takeWhile_cons_of_neg (by decide)] at hmarker
    exact absurd (List.cons.inj hmarker).1 (by decide)
  · rw [List.takeWhile_cons_of_neg (by decide)] at hmarker
    exact absurd (List.cons.inj hmarker).1 (by decide)
  · cases hends

/-! ### Calls -/

namespace Lexer

variable {source : List Byte} {l l' : Lexer} {token : Token} {seen : List Sighting}

/-- Where a method is being defined, its word and the parts of a receiver stand in one construct. -/
theorem Remembers.atDefinedName (h : Remembers source seen l) (hdefines : Defines seen) {p : Nat}
    (hgap : LayoutBetween source l.pos p) : AtDefinedName source seen p := by
  obtain ⟨before, d, receiver, rfl, hd, hreceiver⟩ := hdefines
  have hchanges := fun s hs => h.changes s (List.mem_append_right before hs)
  refine ⟨before, d, receiver, rfl, hd, hreceiver, fun s hs => ?_,
    (List.isChain_append.mp h.gaps).2.1, fun s hs => ?_⟩
  · have hkind : s.token.kind = .keyword .defWord ∨ s.token.kind.isReceiver := by
      rcases List.mem_cons.mp hs with rfl | hs
      · exact .inl hd
      · exact .inr (hreceiver s hs)
    obtain ⟨hneeds, hdelimits⟩ := Kind.needsNoLexeme_of_definition hkind
    refine (hchanges s hs).eq_stays hdelimits fun hline => ?_
    rw [hline] at hneeds
    cases hneeds
  · have hlast : s ∈ (before ++ d :: receiver).getLast? := by
      rw [List.getLast?_append]
      exact hs ▸ rfl
    rw [h.last s hlast]
    exact hgap

/-- Where a method is being defined statements go on. -/
theorem Remembers.holdsStatements_of_defines (h : Remembers source seen l)
    (hdefines : Defines seen) (hrest : l.tape.rest ≠ []) :
    l.stack.top.region.holdsStatements := by
  obtain ⟨s, hlast, hkind⟩ := hdefines.last
  obtain ⟨hneeds, hdelimits⟩ := Kind.needsNoLexeme_of_definition hkind
  exact h.statements hrest s hlast hneeds hdelimits

/-- **A setter's name is read where a method is being defined.** -/
theorem Remembers.next_setter (h : Remembers source seen l) (hnext : l.next = .ok (token, l'))
    (hdefines : Defines seen) {name rest : List Byte} (hname : Name.IsSetter name)
    (hsource : source.drop token.pos = name ++ Byte.ofChar '=' :: rest)
    (hrest : Name.continuesOperator rest = false) :
    token = .withLiteral token.pos .methodName ⟨token.pos, token.pos + (name.length + 1)⟩
      ∧ l'.pos = token.pos + (name.length + 1)
      ∧ l'.literal token = .ok (some (name ++ [Byte.ofChar '='])) := by
  have hmoves := h.sound.reads.moves hnext
  obtain ⟨b, tail, hcons, hstart, -⟩ := hname.exists_cons
  have hkind : token.kind ≠ .endOfInput := by
    intro hend
    rcases hmoves.ends hend with hlength | hmarker
    · rw [hlength, List.drop_length] at hsource
      simp at hsource
    · exact hname.not_endMarkerAt hsource hmarker
  have hbytes : source.drop token.pos = b :: (tail ++ Byte.ofChar '=' :: rest) := by
    rw [hsource, hcons, List.cons_append]
  obtain ⟨hsettled, -⟩ := h.sound.settle_rest hnext hkind hbytes
  have hnil : l.settle.tape.rest ≠ [] := by
    rw [hsettled]
    exact List.cons_ne_nil _ _
  have hholds := h.holdsStatements_of_defines hdefines (rest_ne_nil_of_settle hnil)
  have hregion : l.stack.top.region.ReadsStatement b :=
    .of_ne (Byte.ne_of_isIdentStart hstart rfl) (Byte.ne_of_isIdentStart hstart rfl) hholds
  have hdefining : l.settle.stack.top.lookback.defining = true := by
    rw [(h.kept_settle hnil).2]
    exact (Lookback.defining_behind_iff h.changes).mpr hdefines
  have hlexeme : l.lexeme b (tail ++ Byte.ofChar '=' :: rest)
      = .spelled .methodName (name.length + 1) := by
    rw [lexeme, Lexeme.read.eq_def, if_pos hstart, Lexeme.name, hdefining, ← List.cons_append,
      ← hcons, hname.read_eq hrest]
  have hspelled := h.sound.next_spelled hnext hkind hbytes hregion hlexeme
  rw [← hbytes, hsource, List.take_length_add_append] at hspelled
  exact hspelled

/-- **Where the name of a setter was read, a method is being defined.** -/
theorem Remembers.defines_of_next (h : Remembers source seen l) (hnext : l.next = .ok (token, l'))
    (hkind : token.kind = .methodName) {name : List Byte}
    (hliteral : l'.literal token = .ok (some (name ++ [Byte.ofChar '=']))) : Defines seen := by
  obtain ⟨b, rest, n, hsource, hregion, hlexeme⟩ :=
    h.sound.exists_spelled hnext (by rw [hkind]; exact ⟨rfl, rfl⟩) (by rw [hkind]; rfl)
  have hend : token.kind ≠ .endOfInput := by simp [hkind]
  obtain ⟨hrest, -⟩ := h.sound.settle_rest hnext hend hsource
  have htext := (h.sound.next_spelled hnext hend hsource hregion hlexeme).2.2
  rw [hliteral, Except.ok.injEq, Option.some.injEq] at htext
  have hform := l.form_lexeme b rest
  rw [hlexeme, hkind] at hform
  have hread := hform.read_name (by simp [Number.kinds]) rfl
  have hdefining := Name.defining_of_read hread htext.symm
  rw [(h.kept_settle (by rw [hrest]; exact List.cons_ne_nil b rest)).2] at hdefining
  exact (Lookback.defining_behind_iff h.changes).mp hdefining

/-- **Where a name takes an equals sign.** Only behind the word that begins a definition, with
nothing but parts of a receiver between; and there every name takes it that may, unless the sign
begins an operator. -/
theorem setter_names (source : List Byte) (n : Nat) :
    ∃ seen l token l', calls sight n (ofBytes source) = .ok (seen, l)
      ∧ l.next = .ok (token, l')
      ∧ (∀ name, token.kind = .methodName →
          l'.literal token = .ok (some (name ++ [Byte.ofChar '='])) →
          AtDefinedName source seen token.pos)
      ∧ ∀ name rest, AtDefinedName source seen token.pos →
          source.drop token.pos = name ++ Byte.ofChar '=' :: rest → Name.IsSetter name →
          (∀ b ∈ rest.head?, b ≠ Byte.ofChar '=' ∧ b ≠ Byte.ofChar '~' ∧ b ≠ Byte.ofChar '>') →
          token.kind = .methodName
            ∧ l'.literal token = .ok (some (name ++ [Byte.ofChar '=']))
            ∧ l'.pos = token.pos + (name.length + 1) := by
  obtain ⟨seen, l, hcalls, hl⟩ := exists_remembers source n
  obtain ⟨token, l', hnext, hmoves⟩ := exists_next hl.sound.reads
  refine ⟨seen, l, token, l', hcalls, hnext, fun name hkind hliteral => ?_,
    fun name rest hdefined hsource hname hrest => ?_⟩
  · exact hl.atDefinedName (hl.defines_of_next hnext hkind hliteral) hmoves.gap
  · have hoperator : Name.continuesOperator rest = false := by
      cases rest with
      | nil => rfl
      | cons b rest => simp [Name.continuesOperator, hrest b rfl]
    obtain ⟨htoken, hstop, hliteral⟩ :=
      hl.next_setter hnext hdefined.defines hname hsource hoperator
    exact ⟨by rw [htoken]; rfl, hliteral, hstop⟩

/-- A script in which a method is named by a constant and takes an argument with a default. -/
def defaultArgumentScript : List Byte :=
  Byte.ofString "def Foo x=1"

/-- **A name may take an equals sign where it is not the name of the method.** The parts of a
receiver are not asked to make one up. -/
theorem setter_behind_constant :
    ¬ ∀ (source : List Byte) (n : Nat),
      ∃ seen l token l', calls sight n (ofBytes source) = .ok (seen, l)
        ∧ l.next = .ok (token, l')
        ∧ ∀ name, token.kind = .methodName →
          l'.literal token = .ok (some (name ++ [Byte.ofChar '='])) →
          ∃ before d receiver, seen = before ++ d :: receiver
            ∧ d.token.kind = .keyword .defWord
            ∧ receiver.map (·.token.kind) ∈
              [[], [.keyword .selfWord, .punctuator .dot], [.constant, .punctuator .dot]] := by
  intro h
  obtain ⟨seen, l, token, l', hcalls, hnext, hrule⟩ := h defaultArgumentScript 2
  have hseen : (calls sight 3 (ofBytes defaultArgumentScript)).toOption.map
        (fun (seen, l') => (seen, seen.getLast?.map fun s => (l'.literal s.token).toOption))
      = some ([⟨.bare 0 (.keyword .defWord), 3, .stays⟩,
          ⟨.withLiteral 4 .constant ⟨4, 7⟩, 7, .stays⟩]
        ++ [⟨.withLiteral 8 .methodName ⟨8, 10⟩, 10, .stays⟩],
        some (some (some (Byte.ofString "x=")))) := by
    decide +kernel
  rw [calls_snoc hcalls (sight_eq hnext)] at hseen
  obtain ⟨hlist, hlast⟩ := Prod.mk.inj (Option.some.inj hseen)
  obtain ⟨rfl, htail⟩ := List.append_inj' hlist rfl
  obtain ⟨rfl, -⟩ := Sighting.mk.inj (List.head_eq_of_cons_eq htail)
  have hliteral : l'.literal (.withLiteral 8 .methodName ⟨8, 10⟩)
      = .ok (some (Byte.ofString "x" ++ [Byte.ofChar '='])) := by
    have hread : (l'.literal (.withLiteral 8 .methodName ⟨8, 10⟩)).toOption
        = some (some (Byte.ofString "x=")) := Option.some.inj hlast
    cases hresult : l'.literal (.withLiteral 8 .methodName ⟨8, 10⟩) with
    | error misuse =>
      rw [hresult] at hread
      cases hread
    | ok literal =>
      rw [hresult] at hread
      exact congrArg Except.ok (Option.some.inj hread)
  -- The only definition seen is the first token, and behind it stands a constant without a dot.
  obtain ⟨before, d, receiver, hsplit, hd, hreceiver⟩ := hrule _ rfl hliteral
  rcases before with _ | ⟨s, _ | ⟨s', before⟩⟩
  · obtain ⟨-, rfl⟩ := List.cons.inj hsplit
    revert hreceiver
    decide
  · obtain ⟨rfl, -⟩ := List.cons.inj (List.cons.inj hsplit).2
    cases hd
  · simp at hsplit

end Lexer

end ScriptLexer
