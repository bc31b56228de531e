import Mathlib.Data.List.Induction
import WordTemplate.Data.Value

/-!
# Named entries

`Data.Fields` keep their entries in ascending order of the keys, so they are determined by what is
found under each key. `Fields.Collects` says what the fields made of a list of pairs hold: under
each key the value of its last pair.
-/

namespace WordTemplate.Data.Fields

variable {α : Type} {fields fields' : Fields α} {pairs : List (String × α)} {key other : String}
  {value : α}

/-- The keys ascend, so that none occurs twice. -/
def Ascending (fields : Fields α) : Prop := (fields.map Prod.fst).Pairwise (· < ·)

/-- The fields hold the pairs, and of several pairs with one key the last. -/
structure Collects (pairs : List (String × α)) (fields : Fields α) : Prop where
  ascending : Ascending fields
  find?_eq : ∀ key, find? fields key = pairs.reverse.lookup key

theorem find?_cons (held : α) :
    find? ((key, held) :: fields) other =
      if other = key then some held else find? fields other := by
  rw [find?, List.lookup_cons]
  by_cases same : other = key
  · simp [same]
  · simp [beq_eq_false_iff_ne.mpr same, same, find?]

theorem find?_insert :
    find? (insert fields key value) other =
      if other = key then some value else find? fields other := by
  induction fields with
  | nil => rw [insert, find?_cons]
  | cons entry rest inductionHypothesis =>
      rcases entry with ⟨first, held⟩
      rw [insert]
      split
      · rw [find?_cons]
      · split
        · next same =>
            subst same
            rw [find?_cons, find?_cons]
            split <;> rfl
        · next differ =>
            rw [find?_cons, find?_cons, inductionHypothesis]
            by_cases isKey : other = key
            · simp [isKey, differ]
            · simp [isKey]

theorem mem_keys_insert :
    other ∈ (insert fields key value).map Prod.fst ↔ other = key ∨ other ∈ fields.map Prod.fst := by
  induction fields with
  | nil => simp [insert]
  | cons entry rest inductionHypothesis =>
      rcases entry with ⟨first, held⟩
      rw [insert]
      split
      · simp
      · split
        · next same => simp [same]
        · rw [List.map_cons, List.map_cons, List.mem_cons, List.mem_cons, inductionHypothesis]
          exact or_left_comm

theorem Ascending.insert (ascending : Ascending fields) (key : String) (value : α) :
    Ascending (insert fields key value) := by
  induction fields with
  | nil => simp [Fields.insert, Ascending]
  | cons entry rest inductionHypothesis =>
      rcases entry with ⟨first, held⟩
      rcases List.pairwise_cons.mp ascending with ⟨firstLeast, restAscending⟩
      rw [Fields.insert]
      split
      · next less =>
          refine List.pairwise_cons.mpr ⟨fun later isLater => ?_, ascending⟩
          rcases List.mem_cons.mp isLater with rfl | further
          · exact less
          · exact String.lt_trans less (firstLeast later further)
      · next notLess =>
          split
          · next same =>
              subst same
              exact ascending
          · next differ =>
              have greater : first < key := by
                rcases String.le_total key first with below | above
                · exact absurd (String.le_antisymm below (String.not_lt.mp notLess)) differ
                · exact String.not_le.mp fun below => differ (String.le_antisymm below above)
              refine List.pairwise_cons.mpr
                ⟨fun later isLater => ?_, inductionHypothesis restAscending⟩
              rcases mem_keys_insert.mp isLater with rfl | further
              · exact greater
              · exact firstLeast later further

theorem find?_eq_none (absent : key ∉ fields.map Prod.fst) : find? fields key = none := by
  rw [find?, List.lookup_eq_none_iff]
  intro entry isMember
  rw [bne_iff_ne]
  rintro rfl
  exact absent (List.mem_map_of_mem isMember)

/-- The first entry of ascending fields has the least key at which anything is found. -/
theorem Ascending.le_of_find? (ascending : Ascending ((key, value) :: fields))
    (found : find? ((key, value) :: fields) other ≠ none) : key ≤ other := by
  refine Decidable.by_contra fun notBelow => ?_
  have less := String.not_le.mp notBelow
  refine found (find?_eq_none fun isMember => ?_)
  rcases List.mem_cons.mp isMember with rfl | further
  · exact String.lt_irrefl _ less
  · exact String.lt_irrefl _ (String.lt_trans less ((List.pairwise_cons.mp ascending).1 _ further))

/-- Ascending fields are determined by what is found in them. -/
theorem Ascending.ext (ascending : Ascending fields) (ascending' : Ascending fields')
    (same : ∀ key, find? fields key = find? fields' key) : fields = fields' := by
  induction fields generalizing fields' with
  | nil =>
      rcases fields' with _ | ⟨⟨key, value⟩, rest⟩
      · rfl
      · have found := same key
        rw [find?_cons, if_pos rfl] at found
        simp [find?] at found
  | cons entry rest inductionHypothesis =>
      rcases entry with ⟨key, value⟩
      rcases fields' with _ | ⟨⟨key', value'⟩, rest'⟩
      · have found := same key
        rw [find?_cons, if_pos rfl] at found
        simp [find?] at found
      · have here : find? ((key, value) :: rest) key = some value := by rw [find?_cons, if_pos rfl]
        have there : find? ((key', value') :: rest') key' = some value' := by
          rw [find?_cons, if_pos rfl]
        have sameKey : key = key' :=
          String.le_antisymm (ascending.le_of_find? (by simp [same, there]))
            (ascending'.le_of_find? (by simp [← same, here]))
        subst sameKey
        have sameValue : value = value' := by
          have found := same key
          rwa [here, there, Option.some.injEq] at found
        subst sameValue
        have parts := List.pairwise_cons.mp ascending
        have parts' := List.pairwise_cons.mp ascending'
        rw [inductionHypothesis parts.2 parts'.2 fun other => ?_]
        by_cases isKey : other = key
        · subst isKey
          rw [find?_eq_none fun isMember => String.lt_irrefl _ (parts.1 _ isMember),
            find?_eq_none fun isMember => String.lt_irrefl _ (parts'.1 _ isMember)]
        · have found := same other
          rwa [find?_cons, find?_cons, if_neg isKey, if_neg isKey] at found

theorem ofPairs_concat (pairs : List (String × α)) (pair : String × α) :
    ofPairs (pairs ++ [pair]) = insert (ofPairs pairs) pair.1 pair.2 := by
  simp [ofPairs]

theorem collects_ofPairs (pairs : List (String × α)) : Collects pairs (ofPairs pairs) := by
  induction pairs using List.reverseRecOn with
  | nil => exact ⟨List.Pairwise.nil, fun key => rfl⟩
  | append_singleton pairs pair inductionHypothesis =>
      rcases pair with ⟨first, held⟩
      rw [ofPairs_concat]
      refine ⟨inductionHypothesis.ascending.insert _ _, fun key => ?_⟩
      rw [find?_insert, inductionHypothesis.find?_eq, List.reverse_append, List.reverse_singleton,
        List.singleton_append]
      exact (find?_cons held).symm

/-- The fields made of a list of pairs are the only ones that hold them. -/
theorem collects_iff : Collects pairs fields ↔ fields = ofPairs pairs := by
  have made := collects_ofPairs pairs
  constructor
  · intro collects
    refine collects.ascending.ext made.ascending fun key => ?_
    rw [collects.find?_eq, made.find?_eq]
  · rintro rfl
    exact made

end WordTemplate.Data.Fields
