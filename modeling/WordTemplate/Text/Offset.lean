/-!
# Byte offsets

Positions in text are counted in bytes of its UTF-8 form. A position is valid when it lies
between two characters, so a text is cut by `splitAtByte?`, which fails inside a character
and past the end.
-/

namespace WordTemplate.Text

/-- The number of bytes in the UTF-8 form of `chars`. -/
def byteLength : List Char → Nat
  | [] => 0
  | char :: rest => char.utf8Size + byteLength rest

/-- Cuts `chars` after `count` bytes, if that position lies between two characters. -/
def splitAtByte? : Nat → List Char → Option (List Char × List Char)
  | 0, chars => some ([], chars)
  | _ + 1, [] => none
  | count + 1, char :: rest =>
      if char.utf8Size ≤ count + 1 then
        (splitAtByte? (count + 1 - char.utf8Size) rest).map fun (before, after) =>
          (char :: before, after)
      else
        none

@[simp]
theorem byteLength_nil : byteLength [] = 0 := rfl

@[simp]
theorem byteLength_cons (char : Char) (rest : List Char) :
    byteLength (char :: rest) = char.utf8Size + byteLength rest := rfl

@[simp]
theorem byteLength_append (left right : List Char) :
    byteLength (left ++ right) = byteLength left + byteLength right := by
  induction left with
  | nil => simp
  | cons char rest ih => simp [ih, Nat.add_assoc]

/-- Every character takes at least one byte. -/
theorem byteLength_eq_zero_iff {chars : List Char} : byteLength chars = 0 ↔ chars = [] := by
  cases chars with
  | nil => simp
  | cons char rest =>
      have positive := char.utf8Size_pos
      simp only [byteLength_cons, reduceCtorEq, iff_false]
      omega

/-- A cut loses nothing, and its first part has the requested length. -/
theorem append_eq_of_splitAtByte? {count : Nat} {chars before after : List Char}
    (cut : splitAtByte? count chars = some (before, after)) :
    before ++ after = chars ∧ byteLength before = count := by
  induction chars generalizing count before with
  | nil =>
    cases count with
    | zero => simp_all [splitAtByte?]
    | succ count => simp [splitAtByte?] at cut
  | cons char rest ih =>
    cases count with
    | zero => simp_all [splitAtByte?]
    | succ count =>
      simp only [splitAtByte?] at cut
      split at cut
      · rename_i fits
        simp only [Option.map_eq_some_iff, Prod.exists, Prod.mk.injEq] at cut
        rcases cut with ⟨before', after', inner, rfl, rfl⟩
        obtain ⟨joined, length⟩ := ih inner
        refine ⟨by simp [joined], ?_⟩
        simp only [byteLength_cons, length]
        omega
      · simp at cut

/-- Every position between two characters can be cut at. -/
theorem splitAtByte?_byteLength_append (before after : List Char) :
    splitAtByte? (byteLength before) (before ++ after) = some (before, after) := by
  induction before with
  | nil => simp [splitAtByte?]
  | cons char rest ih =>
    have positive := char.utf8Size_pos
    obtain ⟨size, isSize⟩ : ∃ size, char.utf8Size = size + 1 := ⟨char.utf8Size - 1, by omega⟩
    have step : byteLength (char :: rest) = (size + byteLength rest) + 1 := by
      simp only [byteLength_cons, isSize]
      omega
    rw [step, List.cons_append, splitAtByte?]
    have remaining : size + byteLength rest + 1 - char.utf8Size = byteLength rest := by omega
    rw [remaining, ih, if_pos (by omega)]
    rfl

end WordTemplate.Text
