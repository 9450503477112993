import ScriptLexer.Token.Kind

/-!
# Brackets

Some tokens come in pairs, an opener and a closer. A list of kinds is balanced for a pair if no
prefix of it has more closers than openers, and the whole has as many of each. That is said by
counting, and found by walking along the list with the number of brackets that are open.

## Main definitions

* `Bracket`, `Bracket.Balanced` — pairs of kinds that belong together, and lists with as many of
  each
* `Bracket.level` — the number of brackets that are open behind a list
* `outside` — the kinds that stand outside of brackets

## Main results

* `Bracket.balanced_iff_level` — a list is balanced if nothing is open behind it
-/

namespace ScriptLexer

/-- Two kinds of tokens that belong together. -/
structure Bracket where
  opener : Kind
  closer : Kind

namespace Bracket

/-- No prefix has more closers than openers, and the whole has as many of each. -/
structure Balanced (b : Bracket) (kinds : List Kind) : Prop where
  prefixes : ∀ n, (kinds.take n).count b.closer ≤ (kinds.take n).count b.opener
  total : kinds.count b.closer = kinds.count b.opener

/-- The number of brackets that are open behind the kinds, if `n` are open in front of them and none
is closed that is not open. -/
def level (b : Bracket) : (n : Nat) → List Kind → Option Nat
  | n, [] => some n
  | n, k :: ks =>
    if k = b.opener then level b (n + 1) ks
    else if k = b.closer then
      if n = 0 then none else level b (n - 1) ks
    else level b n ks

variable {b : Bracket} {n m : Nat} {k : Kind} {ks : List Kind}

theorem level_opener (b : Bracket) (n : Nat) (ks : List Kind) :
    b.level n (b.opener :: ks) = b.level (n + 1) ks :=
  if_pos rfl

theorem level_other (n : Nat) (ks : List Kind) (ho : k ≠ b.opener) (hc : k ≠ b.closer) :
    b.level n (k :: ks) = b.level n ks := by
  rw [level, if_neg ho, if_neg hc]

theorem level_closer (hb : b.opener ≠ b.closer) (n : Nat) (ks : List Kind) :
    b.level n (b.closer :: ks) = if n = 0 then none else b.level (n - 1) ks := by
  rw [level, if_neg (Ne.symm hb), if_pos rfl]

/-- What holds of every prefix of a list holds of the empty one and of those with the head. -/
theorem forall_take_cons {P : List Kind → Prop} :
    (∀ j, P ((k :: ks).take j)) ↔ P [] ∧ ∀ j, P (k :: ks.take j) := by
  refine ⟨fun h => ⟨h 0, fun j => h (j + 1)⟩, fun h j => ?_⟩
  cases j with
  | zero => exact h.1
  | succ j => exact h.2 j

/-- The number of open brackets is what the counts say. -/
theorem level_eq_some_iff (hb : b.opener ≠ b.closer) :
    b.level n ks = some m ↔
      (∀ j, (ks.take j).count b.closer ≤ n + (ks.take j).count b.opener)
        ∧ n + ks.count b.opener = m + ks.count b.closer := by
  induction ks generalizing n with
  | nil => simp [level]
  | cons k ks ih =>
    rw [forall_take_cons (P := fun ks => ks.count b.closer ≤ n + ks.count b.opener)]
    by_cases ho : k = b.opener
    · subst ho
      rw [level_opener, ih]
      simp only [List.count_nil, List.count_cons_self, List.count_cons_of_ne hb]
      refine and_congr ?_ (by omega)
      simp only [Nat.zero_le, true_and]
      exact forall_congr' fun j => by omega
    by_cases hc : k = b.closer
    · subst hc
      rw [level_closer hb]
      simp only [List.count_nil, List.count_cons_self, List.count_cons_of_ne ho]
      by_cases hn : n = 0
      · rw [if_pos hn]
        simp only [reduceCtorEq, false_iff]
        rintro ⟨⟨-, hpositive⟩, -⟩
        simpa [hn] using hpositive 0
      · rw [if_neg hn, ih]
        refine and_congr ?_ (by omega)
        simp only [Nat.zero_le, true_and]
        exact forall_congr' fun j => by omega
    · rw [level_other n ks ho hc, ih]
      simp only [List.count_nil, List.count_cons_of_ne ho, List.count_cons_of_ne hc]
      simp

/-- A list is balanced if nothing is open behind it. -/
theorem balanced_iff_level (hb : b.opener ≠ b.closer) : b.Balanced ks ↔ b.level 0 ks = some 0 := by
  rw [level_eq_some_iff hb]
  simp only [Nat.zero_add]
  exact ⟨fun h => ⟨h.prefixes, h.total.symm⟩, fun h => ⟨h.1, h.2.symm⟩⟩

end Bracket

/-- The kinds that stand outside of brackets, if `depth` brackets are open in front of them. -/
def outside (brackets : List Bracket) : (depth : Nat) → List Kind → List Kind
  | _, [] => []
  | depth, k :: ks =>
    if brackets.any (k = ·.opener) then outside brackets (depth + 1) ks
    else if brackets.any (k = ·.closer) then outside brackets (depth - 1) ks
    else if depth = 0 then k :: outside brackets 0 ks
    else outside brackets depth ks

end ScriptLexer
