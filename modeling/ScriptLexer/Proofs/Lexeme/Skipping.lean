import ScriptLexer.Proofs.Lexer.Settle

/-!
# Layout is skipped

What is read as a piece of layout is layout (`layout_of_read?`). Here is the other direction: bytes
that are nothing but layout are skipped, whatever its pieces are. The two do not divide the bytes
alike. Blanks are layout one by one, and are read as one run; so what is carried from piece to piece
is only that layout is ahead, up to the end of the script.

The search for the end of a block comment is shown to find the end that `ClosingLines` writes out.

## Main results

* `Layout.exists_read?` — where layout is ahead a piece of it is read, and layout is ahead again
* `Tape.rest_skipLayout` — nothing is left where layout was all there was
-/

namespace ScriptLexer

variable {before gap behind rest line lines : List Byte} {b : Byte}

/-! ### The end of a block comment -/

namespace BlockComment

/-- The closing word is only looked for behind a line feed. -/
theorem length?_line (hline : Byte.newline ∉ line) (rest : List Byte) :
    length? (line ++ rest) = (length? rest).map (line.length + ·) := by
  induction line with
  | nil => simp
  | cons b line ih =>
    rw [List.mem_cons, not_or] at hline
    have hb : (b == Byte.newline) = false := beq_eq_false_iff_ne.mpr (Ne.symm hline.1)
    rw [List.cons_append, length?, hb, Bool.false_and, if_neg Bool.false_ne_true, ih hline.2,
      Option.map_map, List.length_cons]
    congr 1
    funext n
    rw [Function.comp_apply]
    omega

/-- What is searched behind a line feed, if the closing word stands there. -/
theorem length?_newline (hword : Line.hasWord closer rest) :
    length? (Byte.newline :: rest) = some (1 + Line.lengthWithEnd rest) := by
  rw [length?, hword]
  rfl

/-- **The search finds the closing lines.** -/
theorem length?_closingLines (hline : Byte.newline ∉ line) (h : ClosingLines lines behind) :
    length? (line ++ Byte.newline :: (lines ++ behind))
      = some (line.length + (1 + lines.length)) := by
  induction h generalizing line with
  | @last last behind hlast hword =>
    have hclosed : Line.hasWord closer (last ++ Byte.newline :: behind) := by
      rwa [Line.hasWord_line (by decide)]
    rw [length?_line hline, List.append_assoc, List.singleton_append, length?_newline hclosed,
      Line.lengthWithEnd_line hlast]
    simp
  | @lastOfAll last hlast hword =>
    have hall : Line.length last = last.length := by
      rw [Line.length, List.takeWhile_eq_self_iff.mpr]
      intro b hb
      exact bne_iff_ne.mpr fun h => hlast (h ▸ hb)
    rw [length?_line hline, List.append_nil, length?_newline hword, Line.lengthWithEnd, hall,
      Nat.min_eq_right (Nat.le_succ _)]
    rfl
  | @more next lines behind hnext hword _ ih =>
    have hopen : Line.hasWord closer (next ++ Byte.newline :: (lines ++ behind)) = false := by
      rw [Line.hasWord_line (by decide)]
      exact Bool.eq_false_iff.mpr hword
    rw [length?_line hline, List.append_assoc, List.cons_append, length?, hopen, Bool.and_false,
      if_neg Bool.false_ne_true, ih hnext, Option.map_some]
    rw [List.length_append, List.length_cons, Option.map_some, Nat.add_comm 1 lines.length]

end BlockComment

/-! ### Pieces of layout -/

/-- A line that begins with the opening word begins with an equals sign. -/
theorem Line.exists_of_hasWord_opener (h : hasWord BlockComment.opener line) :
    ∃ tail, line = Byte.ofChar '=' :: tail := by
  obtain ⟨behind, rfl, -⟩ := (hasWord_iff _ _).mp h
  exact ⟨_, rfl⟩

namespace Layout

/-- A blank in front of layout may be taken away. -/
theorem tail (h : Layout before (b :: gap) behind) (hb : b.isBlank) :
    Layout (before ++ [b]) gap behind := by
  have hne : ∀ {c : Byte} {x y : List Byte}, c.isBlank = false → c :: x ≠ b :: y := by
    rintro c x y hc hcons
    rw [(List.cons.inj hcons).1, hb] at hc
    cases hc
  generalize hall : b :: gap = all at h
  cases h with
  | nil => cases hall
  | cons hpiece hgap =>
    cases hpiece with
    | blank hblank =>
      cases hall
      exact hgap
    | joinedLine => exact absurd hall.symm (hne rfl)
    | joinedReturn => exact absurd hall.symm (hne rfl)
    | comment htext hbehind => exact absurd hall.symm (hne rfl)
    | block hbefore hfirst hword hlines =>
      obtain ⟨tail, rfl⟩ := Line.exists_of_hasWord_opener hword
      exact absurd hall.symm (hne rfl)

/-- A run of blanks in front of layout may be taken away. -/
theorem dropBlanks (h : Layout before gap behind) :
    Layout (before ++ gap.take (gap.takeWhile Byte.isBlank).length)
      (gap.drop (gap.takeWhile Byte.isBlank).length) behind := by
  induction gap generalizing before with
  | nil =>
    rw [List.takeWhile_nil, List.take_nil, List.append_nil, List.drop_nil]
    exact h
  | cons b gap ih =>
    by_cases hb : b.isBlank
    · have hgap := ih (h.tail hb)
      rw [List.append_assoc, List.singleton_append] at hgap
      rwa [List.takeWhile_cons_of_pos hb, List.length_cons, List.take_succ_cons,
        List.drop_succ_cons]
    · rw [List.takeWhile_cons_of_neg hb, List.length_nil, List.take_zero, List.append_nil,
        List.drop_zero]
      exact h

/-- A piece that is read whole leaves the layout behind it. -/
theorem of_piece {piece : List Byte} {g : Gap} (hlength : g.length = piece.length)
    (h : Layout (before ++ piece) gap behind) :
    Layout (before ++ (piece ++ gap).take g.length) ((piece ++ gap).drop g.length) behind := by
  rwa [hlength, List.take_left, List.drop_left]

/-- **Where layout is ahead a piece of it is read, and layout is ahead again.** -/
theorem exists_read? (h : Layout before gap []) (hne : gap ≠ []) :
    ∃ g, Gap.read? (Line.startsBehind before) gap = some g
      ∧ Layout (before ++ gap.take g.length) (gap.drop g.length) [] := by
  cases h with
  | nil => exact absurd rfl hne
  | @cons _ _ gap _ hpiece hgap =>
    rw [List.append_nil] at hpiece
    cases hpiece with
    | @blank b _ hb =>
      -- The blanks behind this one are read with it.
      refine ⟨Gap.blanks gap, if_pos hb, ?_⟩
      have hgap := hgap.dropBlanks
      rw [List.append_assoc, List.singleton_append] at hgap
      exact hgap
    | joinedLine => exact ⟨⟨1, true⟩, rfl, of_piece rfl hgap⟩
    | joinedReturn => exact ⟨⟨2, true⟩, rfl, of_piece rfl hgap⟩
    | @comment text _ htext hbehind =>
      have hline : Line.length (text ++ gap) = text.length := by
        have hall : ∀ b ∈ text, (b != Byte.newline) = true := fun b hb =>
          bne_iff_ne.mpr fun h => htext (h ▸ hb)
        rw [Line.length, List.takeWhile_append_of_pos hall, List.length_append]
        rcases hbehind with rfl | hhead
        · rfl
        · obtain ⟨rest, rfl⟩ := List.head?_eq_some_iff.mp hhead
          rfl
      refine ⟨Gap.comment (text ++ gap), rfl, of_piece ?_ hgap⟩
      rw [Gap.comment, Gap.length, hline, List.length_cons]
    | @block first lines _ hbefore hfirst hword hlines =>
      have hopens : BlockComment.opensAt (Line.startsBehind before)
          (first ++ Byte.newline :: (lines ++ gap)) := by
        rw [BlockComment.opensAt, hbefore, Line.hasWord_line (by decide), hword]
        rfl
      obtain ⟨tail, rfl⟩ := Line.exists_of_hasWord_opener hword
      rw [List.cons_append] at hopens
      have htail : Byte.newline ∉ tail := fun hmem => hfirst (List.mem_cons_of_mem _ hmem)
      have hbytes : Byte.ofChar '=' :: tail ++ Byte.newline :: lines ++ gap
          = Byte.ofChar '=' :: (tail ++ Byte.newline :: (lines ++ gap)) := by
        rw [List.append_assoc, List.cons_append, List.cons_append]
      refine ⟨⟨tail.length + (1 + lines.length), false⟩, ?_, of_piece ?_ hgap⟩
      · rw [hbytes, Gap.read?, if_neg (by decide), if_neg (by decide), if_neg (by decide),
          if_pos hopens, Gap.blockComment?, BlockComment.length?_closingLines htail hlines]
        rfl
      · show tail.length + (1 + lines.length) + 1 = _
        rw [List.length_append, List.length_cons, List.length_cons]
        omega

end Layout

/-! ### Skipping -/

/-- **Nothing is left where layout was all there was.** -/
theorem Tape.rest_skipLayout (l : Lookback) {t : Tape} (h : Layout t.past.toList t.rest []) :
    (t.skipLayout l).1.rest = [] := by
  induction l, t using skipLayout.induct with
  | case1 l t hnone =>
    rw [skipLayout_of_none hnone]
    by_contra hne
    obtain ⟨g, hg, -⟩ := h.exists_read? hne
    rw [isLineStart_pos, hg] at hnone
    cases hnone
  | case2 l t g hg ih =>
    rw [skipLayout_of_some hg]
    refine ih ?_
    rw [isLineStart_pos] at hg
    obtain ⟨g', hg', hgap⟩ := h.exists_read? fun hnil => by rw [hnil] at hg; cases hg
    rw [hg] at hg'
    cases hg'
    rwa [advanceBy, Array.toList_appendList]

end ScriptLexer
