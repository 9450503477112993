import ScriptLexer.Lexeme
import ScriptLexer.Proofs.Lexeme.Line

/-!
# What a word decides

The scanners of numbers, names, variables, delimiters and punctuators look ahead, but none looks
past a blank, a line feed, or the end of the script, and none tells these apart. `SameWord x y` says
that two lists of bytes agree up to where a word ends in both; each of these scanners then answers
alike on both.

A script that goes on behind a blank has the same words up to there, whatever it goes on with, and
so has one whose lines end in another way. The one lexeme that a word does not decide is a heredoc's
opener, which may have blanks between its quotes.

## Main definitions

* `SameWord` — two lists of bytes agree up to the end of a word
* `Byte.Stops` — a property that no byte has that ends a word

## Main results

* `Lexeme.read_sameWord` — the lexeme that is read at a byte is decided by the word
-/

namespace ScriptLexer

/-- No byte that ends a word has the property. -/
def Byte.Stops (p : Byte → Bool) : Prop :=
  p 0x0A = false ∧ p 0x09 = false ∧ p 0x0B = false ∧ p 0x0C = false ∧ p 0x0D = false
    ∧ p 0x20 = false

instance (p : Byte → Bool) : Decidable (Byte.Stops p) :=
  inferInstanceAs (Decidable (_ ∧ _))

namespace Line

/-- A word ends at the end of the script, at a line feed, or at one of five blanks. -/
theorem endsWord_cases {motive : List Byte → Prop} (nil : motive [])
    (cons : ∀ rest, motive (0x0A :: rest) ∧ motive (0x09 :: rest) ∧ motive (0x0B :: rest)
      ∧ motive (0x0C :: rest) ∧ motive (0x0D :: rest) ∧ motive (0x20 :: rest))
    {x : List Byte} (h : endsWord x) : motive x := by
  cases x with
  | nil => exact nil
  | cons b rest =>
    obtain ⟨h0, h1, h2, h3, h4, h5⟩ := cons rest
    simp only [endsWord, Byte.isBlank, Bool.or_eq_true, beq_iff_eq] at h
    rcases h with rfl | (((rfl | rfl) | rfl) | rfl) | rfl
    · exact h0
    · exact h1
    · exact h2
    · exact h3
    · exact h4
    · exact h5

/-- What does not tell the ends of words apart answers alike on all of them. -/
theorem congr_of_endsWord {α : Type} {f : List Byte → α}
    (hf : ∀ rest, f (0x0A :: rest) = f [] ∧ f (0x09 :: rest) = f [] ∧ f (0x0B :: rest) = f []
      ∧ f (0x0C :: rest) = f [] ∧ f (0x0D :: rest) = f [] ∧ f (0x20 :: rest) = f [])
    {x y : List Byte} (hx : endsWord x) (hy : endsWord y) : f x = f y := by
  have hnil : ∀ {z}, endsWord z → f z = f [] := endsWord_cases (motive := fun z => f z = f []) rfl hf
  rw [hnil hx, hnil hy]

theorem eq_false_of_endsWord {p : Byte → Bool} (hp : Byte.Stops p) {b : Byte} {rest : List Byte}
    (h : endsWord (b :: rest)) : p b = false := by
  have hhead : ∀ c ∈ (b :: rest).head?, p c = false := by
    refine endsWord_cases (motive := fun x => ∀ c ∈ x.head?, p c = false) ?_ (fun rest => ?_) h
    · exact fun c hc => by cases hc
    · simpa [Byte.Stops] using hp
  exact hhead b rfl

end Line

/-- Two lists of bytes have the same bytes up to where a word ends in both. -/
inductive SameWord : List Byte → List Byte → Prop
  | ends {x y : List Byte} (hx : Line.endsWord x) (hy : Line.endsWord y) : SameWord x y
  | cons (b : Byte) {x y : List Byte} (h : SameWord x y) : SameWord (b :: x) (b :: y)

namespace SameWord

variable {x y : List Byte} {p : Byte → Bool}

theorem refl (x : List Byte) : SameWord x x := by
  induction x with
  | nil => exact .ends rfl rfl
  | cons b x ih => exact ih.cons b

/-- What stands behind a word does not matter. -/
theorem append (front : List Byte) (hx : Line.endsWord x) (hy : Line.endsWord y) :
    SameWord (front ++ x) (front ++ y) := by
  induction front with
  | nil => exact .ends hx hy
  | cons b front ih => exact ih.cons b

theorem head?_any (hp : Byte.Stops p) (h : SameWord x y) : x.head?.any p = y.head?.any p := by
  cases h with
  | ends hx hy =>
    refine Line.congr_of_endsWord (f := fun z => z.head?.any p) (fun rest => ?_) hx hy
    simpa [Byte.Stops] using hp
  | cons b h => rfl

theorem head?_bne_equals (h : SameWord x y) :
    (x.head? != some (Byte.ofChar '=')) = (y.head? != some (Byte.ofChar '=')) := by
  cases h with
  | ends hx hy =>
    exact Line.congr_of_endsWord (f := fun z => z.head? != some (Byte.ofChar '='))
      (fun _ => ⟨rfl, rfl, rfl, rfl, rfl, rfl⟩) hx hy
  | cons b h => rfl

/-! ### Runs -/

theorem takeWhile_of_endsWord (hp : Byte.Stops p) (h : Line.endsWord x) : x.takeWhile p = [] := by
  cases x with
  | nil => rfl
  | cons b x => rw [List.takeWhile_cons, Line.eq_false_of_endsWord hp h]; rfl

theorem takeWhile (hp : Byte.Stops p) (h : SameWord x y) : x.takeWhile p = y.takeWhile p := by
  induction h with
  | ends hx hy => rw [takeWhile_of_endsWord hp hx, takeWhile_of_endsWord hp hy]
  | cons b h ih => simp [List.takeWhile_cons, ih]

theorem drop_takeWhile (hp : Byte.Stops p) (h : SameWord x y) :
    SameWord (x.drop (x.takeWhile p).length) (y.drop (x.takeWhile p).length) := by
  induction h with
  | ends hx hy =>
    rw [takeWhile_of_endsWord hp hx]
    exact .ends hx hy
  | @cons b x y h ih =>
    by_cases hb : p b
    · simpa [hb] using ih
    · simpa [hb] using h.cons b

end SameWord

variable {x y : List Byte}

/-! ### Words of comments -/

namespace Line

theorem endsWord_congr (h : SameWord x y) : endsWord x = endsWord y := by
  cases h with
  | ends hx hy => rw [hx, hy]
  | cons b h => rfl

theorem hasWord_congr {word : List Byte} (hword : (word.any fun b => endsWord [b]) = false)
    (h : SameWord x y) : hasWord word x = hasWord word y := by
  induction word generalizing x y with
  | nil =>
    rw [hasWord, hasWord, behind?, behind?]
    exact endsWord_congr h
  | cons m word ih =>
    rw [List.any_cons, Bool.or_eq_false_iff] at hword
    cases h with
    | ends hx hy =>
      -- The word begins with no byte that ends one.
      have hnone : ∀ {z}, endsWord z → hasWord (m :: word) z = false := by
        intro z hz
        cases z with
        | nil => rfl
        | cons b z =>
          have hne : (m == b) = false := by
            rw [beq_eq_false_iff_ne]
            rintro rfl
            have hm : endsWord (m :: z) = false := hword.1
            rw [hm] at hz
            cases hz
          rw [hasWord, behind?, hne]
          rfl
      rw [hnone hx, hnone hy]
    | cons b h =>
      have hrest := ih hword.2 h
      rw [hasWord, hasWord] at hrest
      rw [hasWord, hasWord, behind?, behind?]
      split
      · exact hrest
      · rfl

end Line

theorem BlockComment.opensAt_congr (lineStart : Bool) (h : SameWord x y) :
    opensAt lineStart x = opensAt lineStart y := by
  rw [opensAt, opensAt, Line.hasWord_congr (by decide) h]

theorem BlockComment.head_of_opensAt {lineStart : Bool} {b : Byte} {rest : List Byte}
    (hopen : opensAt lineStart (b :: rest)) : b = 0x3D := by
  rw [opensAt, Bool.and_eq_true] at hopen
  obtain ⟨tail, htail, -⟩ := (Option.any_eq_true ..).mp hopen.2
  exact (List.cons.inj (Line.eq_append_of_behind? htail)).1

/-! ### Numbers -/

namespace Number

theorem startsWithDigit_congr (h : SameWord x y) : startsWithDigit x = startsWithDigit y := by
  cases h with
  | ends hx hy => exact Line.congr_of_endsWord (fun _ => ⟨rfl, rfl, rfl, rfl, rfl, rfl⟩) hx hy
  | cons b h => rfl

theorem digits_congr (isDigit : Byte → Bool) (hdigit : Byte.Stops isDigit) (h : SameWord x y) :
    digits isDigit x = digits isDigit y := by
  obtain ⟨h0, h1, h2, h3, h4, h5⟩ := hdigit
  refine congrArg List.length (h.takeWhile ⟨?_, ?_, ?_, ?_, ?_, ?_⟩) <;> simp [*] <;> decide

/-- Behind a sign stands the rest of the word. -/
theorem sign_congr (h : SameWord x y) :
    sign x = sign y ∧ SameWord (x.drop (sign x)) (y.drop (sign x)) := by
  cases h with
  | ends hx hy =>
    have hzero : ∀ {z}, Line.endsWord z → sign z = 0 :=
      fun hz => Line.congr_of_endsWord (y := []) (fun _ => ⟨rfl, rfl, rfl, rfl, rfl, rfl⟩) hz rfl
    rw [hzero hx, hzero hy]
    exact ⟨rfl, .ends hx hy⟩
  | @cons b x y h =>
    by_cases hplus : b = 0x2B
    · subst hplus
      exact ⟨rfl, h⟩
    by_cases hminus : b = 0x2D
    · subst hminus
      exact ⟨rfl, h⟩
    · have hsign : ∀ z, sign (b :: z) = 0 := fun z => by simp [sign, hplus, hminus]
      rw [hsign, hsign]
      exact ⟨rfl, h.cons b⟩

theorem exponent_congr (h : SameWord x y) : exponent x = exponent y := by
  cases h with
  | ends hx hy => exact Line.congr_of_endsWord (fun _ => ⟨rfl, rfl, rfl, rfl, rfl, rfl⟩) hx hy
  | cons b h =>
    obtain ⟨hsign, hmantissa⟩ := sign_congr h
    simp only [exponent, ← hsign, startsWithDigit_congr hmantissa,
      digits_congr Byte.isDecimal (by decide) hmantissa]

/-- Behind a fraction stands the rest of the word. -/
theorem fraction_congr (h : SameWord x y) :
    fraction x = fraction y ∧ SameWord (x.drop (fraction x)) (y.drop (fraction x)) := by
  cases h with
  | ends hx hy =>
    have hzero : ∀ {z}, Line.endsWord z → fraction z = 0 :=
      fun hz => Line.congr_of_endsWord (y := []) (fun _ => ⟨rfl, rfl, rfl, rfl, rfl, rfl⟩) hz rfl
    rw [hzero hx, hzero hy]
    exact ⟨rfl, .ends hx hy⟩
  | @cons b x y h =>
    by_cases hpoint : b = 0x2E
    · subst hpoint
      have hdigits : digits Byte.isDecimal x = digits Byte.isDecimal y :=
        digits_congr _ (by decide) h
      rw [fraction, fraction, startsWithDigit_congr h, hdigits]
      split
      · refine ⟨rfl, ?_⟩
        rw [← hdigits, Nat.add_comm, List.drop_succ_cons, List.drop_succ_cons]
        exact h.drop_takeWhile (by decide)
      · exact ⟨rfl, h.cons _⟩
    · have hfraction : ∀ z, fraction (b :: z) = 0 := fun z => by simp [fraction, hpoint]
      rw [hfraction, hfraction]
      exact ⟨rfl, h.cons b⟩

theorem tail_congr (h : SameWord x y) : tail x = tail y := by
  obtain ⟨hfraction, hbehind⟩ := fraction_congr h
  rw [tail, tail, ← hfraction, exponent_congr hbehind]

theorem afterZero_congr (h : SameWord x y) : afterZero x = afterZero y := by
  cases h with
  | ends hx hy => exact Line.congr_of_endsWord (fun _ => ⟨rfl, rfl, rfl, rfl, rfl, rfl⟩) hx hy
  | cons b h =>
    rw [afterZero, afterZero, tail_congr (h.cons b), digits_congr Byte.isDecimal (by decide) h,
      digits_congr Byte.isBinary (by decide) h, digits_congr Byte.isOctal (by decide) h,
      digits_congr Byte.isHexadecimal (by decide) h]

theorem afterNonzero_congr (h : SameWord x y) : afterNonzero x = afterNonzero y := by
  have hdigits : digits Byte.isDecimal x = digits Byte.isDecimal y := digits_congr _ (by decide) h
  have hbehind : SameWord (x.drop (digits Byte.isDecimal x)) (y.drop (digits Byte.isDecimal x)) :=
    h.drop_takeWhile (by decide)
  rw [afterNonzero, afterNonzero, ← hdigits, tail_congr hbehind]

theorem read_congr (b : Byte) (h : SameWord x y) : read (b :: x) = read (b :: y) := by
  rw [read, read, afterZero_congr h, afterNonzero_congr h]

end Number

/-! ### Names and variables -/

namespace Name

theorem startsHere_congr (h : SameWord x y) : startsHere x = startsHere y := by
  cases h with
  | ends hx hy => exact Line.congr_of_endsWord (fun _ => ⟨rfl, rfl, rfl, rfl, rfl, rfl⟩) hx hy
  | cons b h => rfl

theorem continuesOperator_congr (h : SameWord x y) :
    continuesOperator x = continuesOperator y := by
  cases h with
  | ends hx hy => exact Line.congr_of_endsWord (fun _ => ⟨rfl, rfl, rfl, rfl, rfl, rfl⟩) hx hy
  | cons b h => rfl

theorem run_congr (h : SameWord x y) :
    run x = run y ∧ x.take (run x) = y.take (run y)
      ∧ SameWord (x.drop (run x)) (y.drop (run y)) := by
  have htake : x.takeWhile Byte.isIdentContinue = y.takeWhile Byte.isIdentContinue :=
    h.takeWhile (by decide)
  have hrun : run x = run y := congrArg List.length htake
  have hname : ∀ z : List Byte, z.take (run z) = z.takeWhile Byte.isIdentContinue :=
    fun z => (List.prefix_iff_eq_take.mp (List.takeWhile_prefix _)).symm
  refine ⟨hrun, by rw [hname, hname, htake], ?_⟩
  rw [← hrun]
  exact h.drop_takeWhile (by decide)

/-- A suffix is the same, and so is its byte. -/
theorem hasSuffix_congr (defining : Bool) (h : SameWord x y) :
    hasSuffix defining x = hasSuffix defining y
      ∧ (hasSuffix defining x → x.take 1 = y.take 1) := by
  cases h with
  | ends hx hy =>
    have hnone : ∀ {z}, Line.endsWord z → hasSuffix defining z = false :=
      fun hz => Line.congr_of_endsWord (y := []) (fun _ => ⟨rfl, rfl, rfl, rfl, rfl, rfl⟩) hz rfl
    rw [hnone hx, hnone hy]
    exact ⟨rfl, fun hsuffix => by cases hsuffix⟩
  | cons b h =>
    refine ⟨?_, fun _ => rfl⟩
    rw [hasSuffix, hasSuffix, h.head?_bne_equals, continuesOperator_congr h]

theorem shape_congr (defining : Bool) (h : SameWord x y) :
    shape defining x = shape defining y
      ∧ x.take (shape defining x).2 = y.take (shape defining x).2 := by
  obtain ⟨hrun, htake, hbehind⟩ := run_congr h
  obtain ⟨hsuffix, hbyte⟩ := hasSuffix_congr defining hbehind
  have hupper : x.head?.any Byte.isUppercase = y.head?.any Byte.isUppercase :=
    h.head?_any (by decide)
  have hshape : shape defining x = shape defining y := by
    rw [shape, shape, hupper, hsuffix, hrun]
  refine ⟨hshape, ?_⟩
  rw [shape]
  split
  · rw [htake, hrun]
  split
  · rename_i hsuffixed
    simp only [List.take_add]
    rw [htake, hbyte hsuffixed, hrun]
  · rw [htake, hrun]

theorem read_congr (defining : Bool) (h : SameWord x y) : read defining x = read defining y := by
  obtain ⟨hshape, htake⟩ := shape_congr defining h
  rw [hshape] at htake
  simp only [read, hshape, htake]

end Name

theorem Variable.ofSigil_congr (sigil : String) (n : Nat) (kind : Kind) (h : SameWord x y) :
    ofSigil sigil n kind x = ofSigil sigil n kind y := by
  rw [ofSigil, ofSigil, Name.startsHere_congr h, (Name.run_congr h).1]

theorem Variable.read?_congr (h : SameWord x y) : read? x = read? y := by
  cases h with
  | ends hx hy => exact Line.congr_of_endsWord (fun _ => ⟨rfl, rfl, rfl, rfl, rfl, rfl⟩) hx hy
  | @cons b x y h =>
    by_cases hdollar : b = 0x24
    · subst hdollar
      exact congrArg some (ofSigil_congr _ _ _ h)
    by_cases hat : b = 0x40
    · subst hat
      cases h with
      | ends hx hy =>
        exact Line.congr_of_endsWord (f := fun z => read? (0x40 :: z))
          (fun _ => ⟨rfl, rfl, rfl, rfl, rfl, rfl⟩) hx hy
      | @cons c x y h =>
        by_cases hc : c = 0x40
        · subst hc
          exact congrArg some (ofSigil_congr _ _ _ h)
        · have hread : ∀ z, read? (0x40 :: c :: z)
              = some (ofSigil "@" 1 .instanceVariable (c :: z)) := fun z => by simp [read?, hc]
          rw [hread, hread, ofSigil_congr _ _ _ (h.cons c)]
    · have hread : ∀ z, read? (b :: z) = none := fun z => by simp [read?, hdollar, hat]
      rw [hread, hread]

theorem Introducer.read?_congr (h : SameWord x y) : read? x = read? y := by
  cases h with
  | ends hx hy => exact Line.congr_of_endsWord (fun _ => ⟨rfl, rfl, rfl, rfl, rfl, rfl⟩) hx hy
  | @cons b x y h =>
    by_cases hhash : b = 0x23
    · subst hhash
      cases h with
      | ends hx hy =>
        exact Line.congr_of_endsWord (f := fun z => read? (0x23 :: z))
          (fun _ => ⟨rfl, rfl, rfl, rfl, rfl, rfl⟩) hx hy
      | @cons c x y h =>
        by_cases hc : c = 0x7B
        · subst hc
          rfl
        · simp [read?, hc, Variable.read?_congr (h.cons c)]
    · simp [read?, hhash]

/-! ### Openers -/

namespace Delimiter

theorem ofPunctuation?_congr (verbatim : Bool) (letters : Nat) (h : SameWord x y) :
    ofPunctuation? verbatim letters x = ofPunctuation? verbatim letters y := by
  cases h with
  | ends hx hy => exact Line.congr_of_endsWord (fun _ => ⟨rfl, rfl, rfl, rfl, rfl, rfl⟩) hx hy
  | cons b h => rfl

theorem read?_congr (h : SameWord x y) : read? x = read? y := by
  cases h with
  | ends hx hy => exact Line.congr_of_endsWord (fun _ => ⟨rfl, rfl, rfl, rfl, rfl, rfl⟩) hx hy
  | @cons b x y h =>
    by_cases hdecoded : b = 0x51
    · subst hdecoded
      exact ofPunctuation?_congr _ _ h
    by_cases hverbatim : b = 0x71
    · subst hverbatim
      exact ofPunctuation?_congr _ _ h
    · have hread : ∀ z, read? (b :: z) = ofPunctuation? false 0 (b :: z) :=
        fun z => by simp [read?, hdecoded, hverbatim]
      rw [hread, hread, ofPunctuation?_congr _ _ (h.cons b)]

end Delimiter

/-! ### Punctuators -/

namespace Punctuator

theorem withAssign_congr (plain assigning : Punctuator) (h : SameWord x y) :
    withAssign plain assigning x = withAssign plain assigning y := by
  cases h with
  | ends hx hy => exact Line.congr_of_endsWord (fun _ => ⟨rfl, rfl, rfl, rfl, rfl, rfl⟩) hx hy
  | cons b h =>
    by_cases hb : b = 0x3D
    · subst hb
      rfl
    · simp [withAssign, hb]

theorem doubled_congr {c : Byte} (hc : Line.endsWord [c] = false) (p q r s : Punctuator)
    (h : SameWord x y) : doubled c p q r s x = doubled c p q r s y := by
  cases h with
  | ends hx hy =>
    have hsingle : ∀ {z}, Line.endsWord z → doubled c p q r s z = p := by
      intro z hz
      cases z with
      | nil => rfl
      | cons b z =>
        have hne : (b == c) = false := by
          rw [beq_eq_false_iff_ne]
          rintro rfl
          have hb : Line.endsWord (b :: z) = false := hc
          rw [hb] at hz
          cases hz
        rw [doubled, hne]
        exact Line.congr_of_endsWord (f := withAssign p q) (y := [])
          (fun _ => ⟨rfl, rfl, rfl, rfl, rfl, rfl⟩) hz rfl
    rw [hsingle hx, hsingle hy]
  | cons b h => rw [doubled, doubled, withAssign_congr _ _ h, withAssign_congr _ _ (h.cons b)]

theorem signed_congr (plain unary assigning : Punctuator) (h : SameWord x y) :
    signed plain unary assigning x = signed plain unary assigning y := by
  cases h with
  | ends hx hy => exact Line.congr_of_endsWord (fun _ => ⟨rfl, rfl, rfl, rfl, rfl, rfl⟩) hx hy
  | cons b h =>
    by_cases hb : b = 0x40
    · subst hb
      rfl
    · simp [signed, hb, withAssign_congr _ _ (h.cons b)]

theorem afterBang_congr (h : SameWord x y) : afterBang x = afterBang y := by
  cases h with
  | ends hx hy => exact Line.congr_of_endsWord (fun _ => ⟨rfl, rfl, rfl, rfl, rfl, rfl⟩) hx hy
  | cons b h =>
    by_cases hequal : b = 0x3D
    · subst hequal
      rfl
    by_cases htilde : b = 0x7E
    · subst htilde
      rfl
    · simp [afterBang, hequal, htilde]

theorem afterDot_congr (h : SameWord x y) : afterDot x = afterDot y := by
  cases h with
  | ends hx hy => exact Line.congr_of_endsWord (fun _ => ⟨rfl, rfl, rfl, rfl, rfl, rfl⟩) hx hy
  | cons b h =>
    by_cases hb : b = 0x2E
    · subst hb
      cases h with
      | ends hx hy =>
        exact Line.congr_of_endsWord (f := fun z => afterDot (0x2E :: z))
          (fun _ => ⟨rfl, rfl, rfl, rfl, rfl, rfl⟩) hx hy
      | cons c h =>
        by_cases hc : c = 0x2E
        · subst hc
          rfl
        · simp [afterDot, hc]
    · simp [afterDot, hb]

theorem afterColon_congr (h : SameWord x y) : afterColon x = afterColon y := by
  cases h with
  | ends hx hy => exact Line.congr_of_endsWord (fun _ => ⟨rfl, rfl, rfl, rfl, rfl, rfl⟩) hx hy
  | cons b h =>
    by_cases hb : b = 0x3A
    · subst hb
      rfl
    · simp [afterColon, hb]

theorem afterLess_congr (h : SameWord x y) : afterLess x = afterLess y := by
  cases h with
  | ends hx hy => exact Line.congr_of_endsWord (fun _ => ⟨rfl, rfl, rfl, rfl, rfl, rfl⟩) hx hy
  | cons b h =>
    by_cases hless : b = 0x3C
    · subst hless
      exact withAssign_congr _ _ h
    by_cases hequal : b = 0x3D
    · subst hequal
      cases h with
      | ends hx hy =>
        exact Line.congr_of_endsWord (f := fun z => afterLess (0x3D :: z))
          (fun _ => ⟨rfl, rfl, rfl, rfl, rfl, rfl⟩) hx hy
      | cons c h =>
        by_cases hc : c = 0x3E
        · subst hc
          rfl
        · simp [afterLess, hc]
    · simp [afterLess, hless, hequal]

theorem afterEqual_congr (h : SameWord x y) : afterEqual x = afterEqual y := by
  cases h with
  | ends hx hy => exact Line.congr_of_endsWord (fun _ => ⟨rfl, rfl, rfl, rfl, rfl, rfl⟩) hx hy
  | cons b h =>
    by_cases hequal : b = 0x3D
    · subst hequal
      cases h with
      | ends hx hy =>
        exact Line.congr_of_endsWord (f := fun z => afterEqual (0x3D :: z))
          (fun _ => ⟨rfl, rfl, rfl, rfl, rfl, rfl⟩) hx hy
      | cons c h =>
        by_cases hc : c = 0x3D
        · subst hc
          rfl
        · simp [afterEqual, hc]
    by_cases hgreater : b = 0x3E
    · subst hgreater
      rfl
    by_cases htilde : b = 0x7E
    · subst htilde
      rfl
    · simp [afterEqual, hequal, hgreater, htilde]

theorem afterGreater_congr (h : SameWord x y) : afterGreater x = afterGreater y := by
  cases h with
  | ends hx hy => exact Line.congr_of_endsWord (fun _ => ⟨rfl, rfl, rfl, rfl, rfl, rfl⟩) hx hy
  | cons b h =>
    by_cases hb : b = 0x3E
    · subst hb
      exact withAssign_congr _ _ h
    · simp [afterGreater, hb, withAssign_congr _ _ (h.cons b)]

theorem afterLeftBracket_congr (h : SameWord x y) : afterLeftBracket x = afterLeftBracket y := by
  cases h with
  | ends hx hy => exact Line.congr_of_endsWord (fun _ => ⟨rfl, rfl, rfl, rfl, rfl, rfl⟩) hx hy
  | cons b h =>
    by_cases hb : b = 0x5D
    · subst hb
      exact withAssign_congr _ _ h
    · simp [afterLeftBracket, hb]

theorem read?_congr (h : SameWord x y) : read? x = read? y := by
  cases h with
  | ends hx hy => exact Line.congr_of_endsWord (fun _ => ⟨rfl, rfl, rfl, rfl, rfl, rfl⟩) hx hy
  | @cons b x y h =>
    by_cases hb : Line.endsWord [b]
    · exact Line.congr_of_endsWord (f := read?) (fun _ => ⟨rfl, rfl, rfl, rfl, rfl, rfl⟩) hb hb
    · simp only [read?, afterBang_congr h, withAssign_congr _ _ h,
        doubled_congr (eq_false_of_ne_true hb) _ _ _ _ h, signed_congr _ _ _ h, afterDot_congr h,
        afterColon_congr h, afterLess_congr h, afterEqual_congr h, afterGreater_congr h,
        afterLeftBracket_congr h]

end Punctuator

/-! ### Lexemes -/

namespace Lexeme

variable (l : Lookback)

theorem punctuation_congr (b : Byte) (h : SameWord x y) : punctuation b x = punctuation b y := by
  rw [punctuation, punctuation, Punctuator.read?_congr (h.cons b)]

theorem signed_congr (sign : Byte) (h : SameWord x y) : signed l sign x = signed l sign y := by
  rw [signed, signed, punctuation_congr sign h, Number.startsWithDigit_congr h]
  split
  · rename_i hdigit
    cases h with
    | ends hx hy =>
      have hnone : Number.startsWithDigit y = false :=
        Line.congr_of_endsWord (y := []) (fun _ => ⟨rfl, rfl, rfl, rfl, rfl, rfl⟩) hy rfl
      rw [hnone] at hdigit
      cases hdigit
    | cons b h => rw [Number.read_congr b h]
  · rfl

theorem percent_congr (h : SameWord x y) : percent l x = percent l y := by
  rw [percent, percent, h.head?_bne_equals, Delimiter.read?_congr h, punctuation_congr _ h]

theorem variableName_congr (sigil : Byte) (h : SameWord x y) :
    variableName sigil x = variableName sigil y := by
  rw [variableName, variableName, Variable.read?_congr (h.cons _), punctuation_congr _ h]

theorem name_congr (h : SameWord x y) : name l x = name l y := by
  rw [name, name, Name.read_congr l.defining h]

/-- A block comment is read as a lexeme only if it is not closed. -/
theorem read_of_opensAt {l : Lookback} {lineStart : Bool} {b : Byte} {rest : List Byte}
    (hopen : BlockComment.opensAt lineStart (b :: rest)) :
    read l lineStart b rest = .malformed .unterminatedComment (rest.length + 1) false := by
  obtain rfl := BlockComment.head_of_opensAt hopen
  show equals lineStart rest = _
  rw [equals, if_pos hopen]

/-- **What is read at a byte is decided by its word,** unless a block comment opens there, or a
heredoc whose identifier may hold the ends of words. -/
theorem read_sameWord (lineStart : Bool) {b : Byte} (h : SameWord x y)
    (hopen : BlockComment.opensAt lineStart (b :: x) = false)
    (hless : b = 0x3C → less l x = less l y) :
    read l lineStart b x = read l lineStart b y := by
  have hequals : b = 0x3D → equals lineStart x = equals lineStart y := by
    rintro rfl
    rw [equals, equals, ← BlockComment.opensAt_congr lineStart (h.cons _), hopen,
      punctuation_congr _ h]
    rfl
  rw [read.eq_def, read.eq_def, name_congr l (h.cons b), Number.read_congr b h]
  split
  · rfl
  split
  · rfl
  split
  · rfl
  · rfl
  · rfl
  · rfl
  · exact variableName_congr _ h
  · exact variableName_congr _ h
  · exact percent_congr l h
  · exact signed_congr l _ h
  · exact signed_congr l _ h
  · exact hless rfl
  · exact hequals rfl
  · rfl
  · exact punctuation_congr b h

end Lexeme

end ScriptLexer
