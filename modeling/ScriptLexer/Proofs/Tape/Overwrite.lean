import ScriptLexer.Text.Piece

/-!
# Overwriting what has been read

Decoding in place interleaves reading and writing, byte by byte, and the place of a write is found
by counting back from the reading offset. What it amounts to is one thing: a number of bytes are
read, and a text that is no longer than they are is written over the first of them.
`Tape.overwrite` says that in one step.

The equations below are all about a tape `t.overwrite text n`, which is halfway through such a
literal: `t` is the tape at the literal's beginning. They say what one more step of decoding does to
`text` and `n`, so that the distance to the place of the next write is always `n - text.length`.

## Main results

* `Tape.compact_overwrite` — a write lengthens the text by the byte written
* `Tape.write_overwrite` — reading a piece lengthens the text by what the piece stands for
-/

namespace ScriptLexer

/-- A diagnostic whose offset is counted from `k` places further back. -/
def Diagnostic.shift (k : Nat) (d : Diagnostic) : Diagnostic :=
  ⟨k + d.pos, d.cause⟩

theorem Diagnostic.shift_shift (j k : Nat) (d : Diagnostic) :
    (d.shift k).shift j = d.shift (j + k) := by
  simp [shift, Nat.add_assoc]

namespace Tape

variable {t : Tape} {text : List Byte} {n : Nat}

/-- Two tapes with the same bytes in their parts are the same. -/
theorem ext_parts {t t' : Tape} (hp : t.past.toList = t'.past.toList) (hr : t.rest = t'.rest)
    (hb : t.beyond = t'.beyond) (hd : t.diagnostic = t'.diagnostic) : t = t' := by
  cases t
  cases t'
  simp only [mk.injEq]
  exact ⟨Array.toList_inj.mp hp, hr, hb, hd⟩

/-! ### Keeping a diagnostic -/

/-- The tape with a diagnostic, if there is one, unless an earlier one is kept already. -/
def keep (d : Option Diagnostic) (t : Tape) : Tape :=
  { t with diagnostic := t.diagnostic.or d }

theorem noteAt_eq_keep (p : Nat) (cause : Malformation) (t : Tape) :
    t.noteAt p cause = t.keep (some ⟨p, cause⟩) := by
  cases h : t.diagnostic with
  | none => simp [noteAt, reportAt, keep, h]
  | some d =>
    simp only [noteAt, reportAt, keep, h, Option.some_or]
    rw [← h]

@[simp] theorem keep_none (t : Tape) : t.keep none = t := by
  simp [keep]

theorem keep_keep (d e : Option Diagnostic) (t : Tape) : (t.keep d).keep e = t.keep (d.or e) := by
  simp [keep, Option.or_assoc]

@[simp] theorem rest_keep (d : Option Diagnostic) (t : Tape) : (t.keep d).rest = t.rest := rfl

@[simp] theorem past_keep (d : Option Diagnostic) (t : Tape) : (t.keep d).past = t.past := rfl

@[simp] theorem pos_keep (d : Option Diagnostic) (t : Tape) : (t.keep d).pos = t.pos := rfl

@[simp] theorem beyond_keep (d : Option Diagnostic) (t : Tape) : (t.keep d).beyond = t.beyond := rfl

@[simp] theorem buffer_keep (d : Option Diagnostic) (t : Tape) : (t.keep d).buffer = t.buffer := rfl

/-- What is wrong with a piece is kept at the offset where the piece begins. -/
theorem noteIn_eq_keep (p : Piece) (t : Tape) :
    t.noteIn p = t.keep (p.malformation.map fun cause => ⟨t.pos, cause⟩) := by
  rw [noteIn]
  split
  · rename_i h
    rw [noteAt_eq_keep, h, Option.map_some]
  · rename_i h
    rw [h, Option.map_none, keep_none]

/-! ### Overwriting -/

/-- The tape after the next `n` bytes have been read and `text` has been written over the first of
them. -/
def overwrite (text : List Byte) (n : Nat) (t : Tape) : Tape :=
  { t with
    past := t.past ++ (text ++ (t.rest.take n).drop text.length)
    rest := t.rest.drop n }

theorem past_overwrite (text : List Byte) (n : Nat) (t : Tape) :
    (t.overwrite text n).past.toList
      = t.past.toList ++ (text ++ (t.rest.take n).drop text.length) := by
  simp [overwrite]

@[simp] theorem rest_overwrite (text : List Byte) (n : Nat) (t : Tape) :
    (t.overwrite text n).rest = t.rest.drop n := rfl

@[simp] theorem beyond_overwrite (text : List Byte) (n : Nat) (t : Tape) :
    (t.overwrite text n).beyond = t.beyond := rfl

theorem keep_overwrite (d : Option Diagnostic) (text : List Byte) (n : Nat) (t : Tape) :
    (t.overwrite text n).keep d = (t.keep d).overwrite text n := rfl

@[simp] theorem overwrite_nil_zero (t : Tape) : t.overwrite [] 0 = t :=
  ext_parts (by simp [past_overwrite]) (by simp) rfl rfl

/-- The text is no longer than what has been read, so the reading offset is that of reading. -/
theorem pos_overwrite (htext : text.length ≤ n) (hn : n ≤ t.rest.length) :
    (t.overwrite text n).pos = t.pos + n := by
  rw [pos, ← Array.length_toList, past_overwrite]
  simp only [List.length_append, List.length_drop, List.length_take, Array.length_toList, pos]
  omega

/-- Reading on leaves the text as it is. -/
theorem advanceBy_overwrite (m : Nat) (htext : text.length ≤ n) (hn : n ≤ t.rest.length) :
    (t.overwrite text n).advanceBy m = t.overwrite text (n + m) := by
  refine ext_parts ?_ ?_ rfl rfl
  · have hdrop : text.length - (t.rest.take n).length = 0 := by
      rw [List.length_take]
      omega
    rw [advanceBy, Array.toList_appendList, past_overwrite, past_overwrite, rest_overwrite,
      List.take_add, List.drop_append, hdrop, List.drop_zero]
    simp only [List.append_assoc]
  · rw [rest_advanceBy, rest_overwrite, rest_overwrite, List.drop_drop]

/-- **Writing lengthens the text.** The distance from the reading offset back to the place of the
write is what decoding has elided so far. -/
theorem compact_overwrite (b : Byte) (htext : text.length ≤ n) (hn : n < t.rest.length) :
    (t.overwrite text n).compact (n - text.length) b = .ok (t.overwrite (text ++ [b]) (n + 1)) := by
  obtain ⟨c, rest, hrest⟩ := List.exists_cons_of_ne_nil
    (List.ne_nil_of_length_pos (show 0 < (t.rest.drop n).length by rw [List.length_drop]; omega))
  have hpos : (t.overwrite text n).pos = t.pos + n := pos_overwrite htext (Nat.le_of_lt hn)
  have hplace : t.pos + n - (n - text.length) = (t.past.toList ++ text).length := by
    simp only [List.length_append, Array.length_toList, pos]
    omega
  have htake : t.rest.take (n + 1) = t.rest.take n ++ [c] := by
    rw [List.take_add, hrest]
    rfl
  have hstale : (t.rest.take n).drop text.length ++ [c]
      = (t.rest.take (n + 1)).drop text.length := by
    rw [htake, List.drop_append, show text.length - (t.rest.take n).length = 0 by
      rw [List.length_take]; omega, List.drop_zero]
  rw [compact, if_pos (by rw [hpos]; omega)]
  simp only [rest_overwrite, hrest]
  refine congrArg Except.ok (ext_parts ?_ ?_ rfl rfl)
  · -- The written byte replaces the first stale one, or the byte just read if none is stale.
    rw [Array.toList_setIfInBounds, Array.toList_push, past_overwrite, past_overwrite, hpos, hplace,
      ← List.append_assoc, List.append_assoc _ _ [c], hstale,
      List.set_append_right _ _ (Nat.le_refl _), Nat.sub_self, List.set_eq_take_append_cons_drop]
    have hlen : 0 < ((t.rest.take (n + 1)).drop text.length).length := by
      simp only [List.length_drop, List.length_take]
      omega
    rw [if_pos hlen, List.drop_drop, List.length_append, List.length_singleton]
    simp only [List.take_zero, List.nil_append, List.append_assoc, List.cons_append]
  · rw [rest_overwrite, ← List.tail_drop, hrest, List.tail_cons]

/-- **Reading a piece lengthens the text by what the piece stands for.** -/
theorem write_overwrite {p : Piece} (htext : text.length ≤ n) (hn : n + p.length ≤ t.rest.length) :
    (t.overwrite text n).write (n - text.length) p
      = .ok (((t.keep (p.malformation.map fun cause => ⟨t.pos + n, cause⟩)).overwrite
            (text ++ p.value.toList) (n + p.length)),
          n + p.length - (text ++ p.value.toList).length) := by
  have hle : n ≤ t.rest.length := by omega
  rw [write, noteIn_eq_keep, pos_overwrite htext hle, keep_overwrite]
  generalize hu : t.keep (p.malformation.map fun cause => ⟨t.pos + n, cause⟩) = u
  have hrest : u.rest = t.rest := by rw [← hu, rest_keep]
  rw [← hrest] at hle hn
  cases hv : p.value with
  | none =>
    simp only [Option.toList_none, List.append_nil]
    rw [advanceBy_overwrite _ htext hle, Nat.sub_add_comm htext]
  | some b =>
    have hskip : n - text.length + p.more = n + p.more - text.length := by omega
    have hmore : n + p.more < u.rest.length := by rw [Piece.length] at hn; omega
    simp only [Option.toList_some]
    rw [advanceBy_overwrite _ htext hle, hskip,
      compact_overwrite b (Nat.le_trans htext (Nat.le_add_right _ _)) hmore]
    rw [List.length_append, List.length_singleton, show n + p.length = n + p.more + 1 from rfl,
      Nat.add_sub_add_right]

end Tape

end ScriptLexer
