import ScriptLexer.Proofs.Text.Stop

/-!
# Verbatim quoted text

In verbatim quoted text a backslash means something only in front of another backslash or of the
closing byte, and then it stands for nothing and that byte for itself. Here the same is said without
reading byte by byte. A byte is shielded if an odd number of backslashes stands directly in front of
it; the text is closed by the first closing byte that is not shielded; and what it stands for is
what is left of its bytes when the backslashes that shield are taken out.

Counting backslashes is enough because nothing else shields: behind bytes that shield nothing, the
text goes on as if it began there (`Reference.closesAt_append`). That is what a piece is, so the
proof is an induction over the pieces.

Any bytes can be quoted, by a backslash in front of each backslash and each closing byte.

## Main definitions

* `Reference.ClosesAt` — a closing byte that is not shielded
* `Reference.unshield` — what verbatim bytes stand for
* `Reference.shield` — bytes quoted

## Main results

* `Style.passage_verbatim` — a verbatim text ends at the first closing byte that is not shielded
* `Style.passage_shield` — quoted bytes are read as what was quoted
-/

namespace ScriptLexer

namespace Reference

/-- Whether the byte behind some bytes is shielded: they end with an odd number of backslashes. -/
def shields (front : List Byte) : Bool :=
  (front.reverse.takeWhile (· == Byte.ofChar '\\')).length % 2 == 1

/-- Verbatim text is closed at an offset: the closing byte stands there, and it is not shielded. -/
def ClosesAt (close : Byte) (bytes : List Byte) (n : Nat) : Prop :=
  bytes[n]? = some close ∧ ¬ shields (bytes.take n)

/-- What verbatim bytes stand for: every backslash in front of a backslash or of the closing byte is
left out, where pairs are taken from left to right. -/
def unshield (close : Byte) : List Byte → List Byte
  | [] => []
  | [b] => [b]
  | b :: c :: rest =>
    if b = Byte.ofChar '\\' ∧ (c = Byte.ofChar '\\' ∨ c = close) then c :: unshield close rest
    else b :: unshield close (c :: rest)

/-- Bytes quoted: a backslash stands in front of every backslash and every closing byte. -/
def shield (close : Byte) (bytes : List Byte) : List Byte :=
  bytes.flatMap fun b =>
    if b = Byte.ofChar '\\' ∨ b = close then [Byte.ofChar '\\', b] else [b]

variable {close b c : Byte} {front bytes rest : List Byte} {n : Nat}

/-! ### Shields -/

/-- Bytes that shield nothing make no difference to what is shielded behind them. -/
theorem shields_append (hfront : ¬ shields front) (bytes : List Byte) :
    shields (front ++ bytes) = shields bytes := by
  rw [shields, beq_iff_eq] at hfront
  rw [shields, shields, List.reverse_append, List.takeWhile_append]
  split
  · rename_i hall
    rw [List.length_append, List.length_reverse, hall, List.length_reverse, Nat.add_mod,
      Nat.mod_two_ne_one.mp hfront, Nat.add_zero, Nat.mod_mod]
  · rfl

/-- A byte that is no backslash shields nothing, whatever stands in front of it. -/
theorem not_shields_snoc (hc : c ≠ Byte.ofChar '\\') (front : List Byte) :
    ¬ shields (front ++ [c]) := by
  simp [shields, hc]

/-- **Behind bytes that shield nothing the text goes on as if it began there.** -/
theorem closesAt_append (hfront : ¬ shields front) :
    ClosesAt close (front ++ bytes) (n + front.length) ↔ ClosesAt close bytes n := by
  rw [Nat.add_comm, ClosesAt, ClosesAt, List.getElem?_append_right (Nat.le_add_right _ _),
    Nat.add_sub_cancel_left, List.take_length_add_append, shields_append hfront]

theorem not_closesAt_zero (hb : b ≠ close) : ¬ ClosesAt close (b :: rest) 0 := by
  rintro ⟨hclose, -⟩
  exact hb (Option.some.inj hclose)

/-- A shielded pair closes nothing, and the text goes on behind it. -/
theorem closesAt_pair (hclose : close ≠ Byte.ofChar '\\')
    (hc : c = Byte.ofChar '\\' ∨ c = close) :
    ClosesAt close (Byte.ofChar '\\' :: c :: rest) n
      ↔ ∃ m, n = m + 2 ∧ ClosesAt close rest m := by
  have hpair : ¬ shields [Byte.ofChar '\\', c] := by
    rcases hc with rfl | rfl
    · decide
    · exact not_shields_snoc hclose [Byte.ofChar '\\']
  have happend : ∀ m, ClosesAt close (Byte.ofChar '\\' :: c :: rest) (m + 2)
      ↔ ClosesAt close rest m := fun m => closesAt_append hpair
  constructor
  · intro h
    rcases n with _ | _ | m
    · exact absurd h (not_closesAt_zero (Ne.symm hclose))
    · exact absurd rfl h.2
    · exact ⟨m, rfl, (happend m).mp h⟩
  · rintro ⟨m, rfl, h⟩
    exact (happend m).mpr h

/-- A byte that stands for itself closes nothing, and the text goes on behind it. -/
theorem closesAt_plain (hb : b ≠ close)
    (hplain : b = Byte.ofChar '\\' → ∀ c ∈ rest.head?, c ≠ Byte.ofChar '\\' ∧ c ≠ close) :
    ClosesAt close (b :: rest) n ↔ ∃ m, n = m + 1 ∧ ClosesAt close rest m := by
  have happend : ∀ m, ClosesAt close (b :: rest) (m + 1) ↔ ClosesAt close rest m := by
    intro m
    by_cases hbackslash : b = Byte.ofChar '\\'
    · -- The backslash shields nothing, since another byte stands between it and what follows.
      have hplain := hplain hbackslash
      cases rest with
      | nil => simp [ClosesAt]
      | cons c rest =>
        obtain ⟨hc, hclose⟩ := hplain c rfl
        cases m with
        | zero =>
          refine iff_of_false ?_ (not_closesAt_zero hclose)
          rintro ⟨h, -⟩
          exact hclose (Option.some.inj h)
        | succ m =>
          have hone : ClosesAt close (c :: rest) (m + 1) ↔ ClosesAt close rest m :=
            closesAt_append (not_shields_snoc hc [])
          have htwo : ClosesAt close (b :: c :: rest) (m + 2) ↔ ClosesAt close rest m :=
            closesAt_append (not_shields_snoc hc [b])
          exact htwo.trans hone.symm
    · exact closesAt_append (not_shields_snoc hbackslash [])
  constructor
  · intro h
    cases n with
    | zero => exact absurd h (not_closesAt_zero hb)
    | succ m => exact ⟨m, rfl, (happend m).mp h⟩
  · rintro ⟨m, rfl, h⟩
    exact (happend m).mpr h

/-! ### What is left of the bytes -/

theorem unshield_pair (hc : c = Byte.ofChar '\\' ∨ c = close) (rest : List Byte) :
    unshield close (Byte.ofChar '\\' :: c :: rest) = c :: unshield close rest := by
  rw [unshield, if_pos ⟨rfl, hc⟩]

theorem unshield_plain
    (hplain : b = Byte.ofChar '\\' → ∀ c ∈ rest.head?, c ≠ Byte.ofChar '\\' ∧ c ≠ close) :
    unshield close (b :: rest) = b :: unshield close rest := by
  cases rest with
  | nil => rfl
  | cons c rest =>
    rw [unshield, if_neg]
    rintro ⟨hb, hc⟩
    obtain ⟨hbackslash, hclose⟩ := hplain hb c rfl
    exact hc.elim hbackslash hclose

end Reference

/-! ### Passages -/

/-- A passage of verbatim text: it ends at the first closing byte that is not shielded, or with the
bytes, and it stands for its bytes without the backslashes that shield. -/
structure Passage.UpToClose (close : Byte) (bytes : List Byte) (p : Passage) : Prop where
  text : p.text = Reference.unshield close (bytes.take p.length)
  fault : p.fault = none
  before : ∀ n < p.length, ¬ Reference.ClosesAt close bytes n
  stop : p.stop = .closed 1 ∧ Reference.ClosesAt close bytes p.length
    ∨ p.stop = .endOfInput ∧ p.length = bytes.length

/-- A piece that closes nothing goes in front. -/
theorem Passage.UpToClose.behind {close v : Byte} {rest : List Byte} {more : Nat} {p : Passage}
    (h : p.UpToClose close rest) (front : List Byte) (hlength : front.length = more + 1)
    (hcloses : ∀ n, Reference.ClosesAt close (front ++ rest) n
      ↔ ∃ m, n = m + front.length ∧ Reference.ClosesAt close rest m)
    (htext : ∀ k, Reference.unshield close (front ++ rest.take k)
      = v :: Reference.unshield close (rest.take k)) :
    (p.behind (.coded more v)).UpToClose close (front ++ rest) := by
  have hbehind : (p.behind (.coded more v)).length = front.length + p.length := by
    rw [hlength]
    rfl
  constructor
  · rw [hbehind, List.take_length_add_append, htext, ← h.text]
    rfl
  · simp [Passage.behind, Piece.coded, h.fault]
  · intro n hn
    rw [hcloses]
    rintro ⟨m, rfl, hm⟩
    exact h.before m (by omega) hm
  · rw [hbehind, hcloses, List.length_append]
    refine h.stop.imp (fun hclosed => ⟨hclosed.1, p.length, Nat.add_comm .., hclosed.2⟩) ?_
    exact fun hend => ⟨hend.1, congrArg (front.length + ·) hend.2⟩

namespace Style

variable {close b : Byte} {bytes rest : List Byte} {lineStart : Bool}

/-- What a piece of verbatim text can be: a shielded pair, or a byte that stands for itself. -/
theorem piece_verbatim_cases (close b : Byte) (rest : List Byte) :
    (∃ c tail, b = Byte.ofChar '\\' ∧ (c = Byte.ofChar '\\' ∨ c = close) ∧ rest = c :: tail
        ∧ (verbatim close).piece b rest = .coded 1 c)
      ∨ (b = Byte.ofChar '\\' → ∀ c ∈ rest.head?, c ≠ Byte.ofChar '\\' ∧ c ≠ close)
        ∧ (verbatim close).piece b rest = .coded 0 b := by
  cases rest with
  | nil => exact .inr ⟨fun _ c hc => (by cases hc), rfl⟩
  | cons c tail =>
    by_cases hpair : b = Byte.ofChar '\\' ∧ (c = Byte.ofChar '\\' ∨ c = close)
    · refine .inl ⟨c, tail, hpair.1, hpair.2, rfl, ?_⟩
      simp [piece, shielded, hpair]
    · refine .inr ⟨fun hb c' hc' => ?_, ?_⟩
      · obtain rfl : c = c' := Option.some.inj hc'
        exact not_or.mp fun hc => hpair ⟨hb, hc⟩
      · simp [piece, shielded, hpair, Piece.plain, Piece.coded]

theorem stop?_verbatim (close : Byte) (lineStart : Bool) (bytes : List Byte) :
    (verbatim close).stop? lineStart bytes
      = if bytes.head? = some close then some (.closed 1) else none := by
  by_cases hhead : bytes.head? = some close <;> simp [stop?, close?, decodes, hhead]

/-- **Where verbatim text ends, and what it stands for.** -/
theorem passage_verbatim (close : Byte) (lineStart : Bool) (bytes : List Byte) :
    ((verbatim close).passage lineStart bytes).UpToClose close bytes := by
  induction lineStart, bytes using passage_induction (verbatim close) with
  | @stops lineStart bytes stop h =>
    rw [stop?_verbatim] at h
    split at h
    · rename_i hhead
      cases h
      refine ⟨rfl, rfl, fun n hn => absurd hn (Nat.not_lt_zero n), .inl ⟨rfl, ?_, nofun⟩⟩
      rw [← hhead, List.head?_eq_getElem?]
      rfl
    · cases h
  | ends h => exact ⟨rfl, rfl, fun n hn => absurd hn (Nat.not_lt_zero n), .inr ⟨rfl, rfl⟩⟩
  | @step lineStart b rest h ih =>
    have hb : b ≠ close := by
      rintro rfl
      simp [stop?_verbatim] at h
    rcases piece_verbatim_cases close b rest with ⟨c, tail, rfl, hc, rfl, hpiece⟩ | ⟨hplain, hpiece⟩
    · rw [hpiece] at ih ⊢
      exact ih.behind [Byte.ofChar '\\', c] rfl
        (fun n => Reference.closesAt_pair hb.symm hc) (fun k => Reference.unshield_pair hc _)
    · rw [hpiece] at ih ⊢
      have hhead : ∀ k, ∀ c ∈ (rest.take k).head?, c ∈ rest.head? := by
        intro k c hc
        rw [List.head?_take] at hc
        split at hc
        · cases hc
        · exact hc
      exact ih.behind [b] rfl (fun n => Reference.closesAt_plain hb hplain) fun k =>
        Reference.unshield_plain fun hbackslash c hc => hplain hbackslash c (hhead k c hc)

/-- **Quoted bytes are read as what was quoted,** up to the closing byte behind them. -/
theorem passage_shield (hclose : close ≠ Byte.ofChar '\\') (lineStart : Bool)
    (bytes rest : List Byte) :
    (verbatim close).passage lineStart (Reference.shield close bytes ++ close :: rest)
      = ⟨bytes, (Reference.shield close bytes).length, .closed 1, none⟩ := by
  induction bytes generalizing lineStart with
  | nil =>
    refine passage_of_stop ?_
    rw [stop?_verbatim]
    exact if_pos rfl
  | cons b bytes ih =>
    have hopen : ∀ {c : Byte} {tail : List Byte}, c ≠ close →
        (verbatim close).stop? lineStart (c :: tail) = none := by
      intro c tail hc
      rw [stop?_verbatim, if_neg]
      exact fun hhead => hc (Option.some.inj hhead)
    let behind := Reference.shield close bytes ++ close :: rest
    by_cases hb : b = Byte.ofChar '\\' ∨ b = close
    · have hshield : Reference.shield close (b :: bytes)
          = Byte.ofChar '\\' :: b :: Reference.shield close bytes := by
        simp [Reference.shield, hb]
      have hpiece : (verbatim close).piece (Byte.ofChar '\\') (b :: behind) = .coded 1 b := by
        simp [piece, shielded, hb]
      rw [hshield, List.cons_append, List.cons_append, passage_cons (hopen hclose.symm), hpiece]
      show ((verbatim close).passage _ behind).behind _ = _
      rw [ih]
      simp [Passage.behind, Piece.coded, Piece.length]
      omega
    · rw [not_or] at hb
      have hshield : Reference.shield close (b :: bytes) = b :: Reference.shield close bytes := by
        simp [Reference.shield, hb]
      have hpiece : (verbatim close).piece b behind = .plain b := by
        cases behind <;> simp [piece, shielded, hb]
      rw [hshield, List.cons_append, passage_cons (hopen hb.2), hpiece]
      show ((verbatim close).passage _ behind).behind _ = _
      rw [ih]
      simp [Passage.behind, Piece.plain, Piece.length]
      omega

end Style

end ScriptLexer
