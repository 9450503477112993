import ScriptLexer.Token.Punctuator

/-!
# The text of a punctuator

A punctuator that is read stands in front of the bytes it is read from. The functions that carry the
patterns shared by the operators are described once, in terms of the texts of the punctuators they
choose from.

## Main results

* `Punctuator.bytes_prefix_of_read?` — the punctuator that is read begins the bytes
-/

namespace ScriptLexer.Punctuator

theorem length_bytes_pos (p : Punctuator) : 0 < p.bytes.length := by
  cases p <;> decide

/-! ### Shared patterns -/

theorem bytes_withAssign {w : List Byte} {plain assigning : Punctuator} (hp : plain.bytes = w)
    (ha : assigning.bytes = w ++ [0x3D]) (rest : List Byte) :
    (withAssign plain assigning rest).bytes <+: w ++ rest := by
  rw [withAssign.eq_def]
  split
  · rw [ha]
    exact ⟨_, List.append_assoc ..⟩
  · rw [hp]
    exact List.prefix_append ..

theorem bytes_doubled {x : Byte} {single singleAssign double doubleAssign : Punctuator}
    (hs : single.bytes = [x]) (hsa : singleAssign.bytes = [x, 0x3D]) (hd : double.bytes = [x, x])
    (hda : doubleAssign.bytes = [x, x, 0x3D]) (rest : List Byte) :
    (doubled x single singleAssign double doubleAssign rest).bytes <+: x :: rest := by
  cases rest with
  | nil =>
    have hsingle : single.bytes <+: [x] := by simp [hs]
    exact hsingle
  | cons b rest =>
    rw [doubled]
    split
    · rename_i hb
      rw [beq_iff_eq] at hb
      subst hb
      exact bytes_withAssign hd hda rest
    · exact bytes_withAssign hs hsa (b :: rest)

theorem bytes_signed {x : Byte} {plain unary assigning : Punctuator} (hp : plain.bytes = [x])
    (hu : unary.bytes = [x, 0x40]) (ha : assigning.bytes = [x, 0x3D]) (rest : List Byte) :
    (signed plain unary assigning rest).bytes <+: x :: rest := by
  rw [signed.eq_def]
  split
  · rw [hu]
    exact List.prefix_append [x, 0x40] _
  · exact bytes_withAssign hp ha rest

/-! ### Single operators -/

theorem bytes_afterBang (rest : List Byte) : (afterBang rest).bytes <+: 0x21 :: rest := by
  rw [afterBang.eq_def]
  split
  · exact List.prefix_append [0x21, 0x3D] _
  · exact List.prefix_append [0x21, 0x7E] _
  · exact List.prefix_append [0x21] _

theorem bytes_afterDot (rest : List Byte) : (afterDot rest).bytes <+: 0x2E :: rest := by
  rw [afterDot.eq_def]
  split
  · exact List.prefix_append [0x2E, 0x2E, 0x2E] _
  · exact List.prefix_append [0x2E, 0x2E] _
  · exact List.prefix_append [0x2E] _

theorem bytes_afterColon (rest : List Byte) : (afterColon rest).bytes <+: 0x3A :: rest := by
  rw [afterColon.eq_def]
  split
  · exact List.prefix_append [0x3A, 0x3A] _
  · exact List.prefix_append [0x3A] _

theorem bytes_afterLess (rest : List Byte) : (afterLess rest).bytes <+: 0x3C :: rest := by
  rw [afterLess.eq_def]
  split
  · exact bytes_withAssign (w := [0x3C, 0x3C]) rfl rfl _
  · exact List.prefix_append [0x3C, 0x3D, 0x3E] _
  · exact List.prefix_append [0x3C, 0x3D] _
  · exact List.prefix_append [0x3C] _

theorem bytes_afterEqual (rest : List Byte) : (afterEqual rest).bytes <+: 0x3D :: rest := by
  rw [afterEqual.eq_def]
  split
  · exact List.prefix_append [0x3D, 0x3D, 0x3D] _
  · exact List.prefix_append [0x3D, 0x3D] _
  · exact List.prefix_append [0x3D, 0x3E] _
  · exact List.prefix_append [0x3D, 0x7E] _
  · exact List.prefix_append [0x3D] _

theorem bytes_afterGreater (rest : List Byte) : (afterGreater rest).bytes <+: 0x3E :: rest := by
  rw [afterGreater.eq_def]
  split
  · exact bytes_withAssign (w := [0x3E, 0x3E]) rfl rfl _
  · exact bytes_withAssign (w := [0x3E]) rfl rfl _

theorem bytes_afterLeftBracket (rest : List Byte) :
    (afterLeftBracket rest).bytes <+: 0x5B :: rest := by
  rw [afterLeftBracket.eq_def]
  split
  · exact bytes_withAssign (w := [0x5B, 0x5D]) rfl rfl _
  · exact List.prefix_append [0x5B] _

/-- **The punctuator that is read begins the bytes.** -/
theorem bytes_prefix_of_read? {bytes : List Byte} {p : Punctuator} (h : read? bytes = some p) :
    p.bytes <+: bytes := by
  rw [read?.eq_def] at h
  split at h
  · cases h
  · rename_i b rest
    split at h <;> cases h
    · exact bytes_afterBang rest
    · exact bytes_withAssign (w := [0x25]) rfl rfl rest
    · exact bytes_doubled rfl rfl rfl rfl rest
    · exact List.prefix_append [0x28] rest
    · exact List.prefix_append [0x29] rest
    · exact bytes_doubled rfl rfl rfl rfl rest
    · exact bytes_signed rfl rfl rfl rest
    · exact List.prefix_append [0x2C] rest
    · exact bytes_signed rfl rfl rfl rest
    · exact bytes_afterDot rest
    · exact bytes_withAssign (w := [0x2F]) rfl rfl rest
    · exact bytes_afterColon rest
    · exact bytes_afterLess rest
    · exact bytes_afterEqual rest
    · exact bytes_afterGreater rest
    · exact List.prefix_append [0x3F] rest
    · exact bytes_afterLeftBracket rest
    · exact List.prefix_append [0x5D] rest
    · exact bytes_withAssign (w := [0x5E]) rfl rfl rest
    · exact List.prefix_append [0x7B] rest
    · exact bytes_doubled rfl rfl rfl rfl rest
    · exact List.prefix_append [0x7D] rest
    · exact List.prefix_append [0x7E] rest

end ScriptLexer.Punctuator
