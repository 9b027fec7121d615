/-!
# Lists in order

Levels are put in order of depth and members in order of their sort keys. The sort is by insertion from the back of the list, so
entries that neither of them must precede stay in the order they had.
-/

namespace CubeAxes

/-- Puts an entry in front of the first that it may precede. -/
def insertBy {α : Type} (le : α → α → Bool) (a : α) : List α → List α
  | [] => [a]
  | b :: bs => if le a b then a :: b :: bs else b :: insertBy le a bs

/-- The entries of a list in an order, those that are equal in it as they were. -/
def sortBy {α : Type} (le : α → α → Bool) : List α → List α
  | [] => []
  | a :: as => insertBy le a (sortBy le as)

/-- Inserting adds the entry and nothing else. -/
theorem insertBy_perm {α : Type} (le : α → α → Bool) (a : α) (l : List α) : (insertBy le a l).Perm (a :: l) := by
  induction l with
  | nil => exact List.Perm.refl _
  | cons b l ih =>
    rw [insertBy]
    split
    · exact List.Perm.refl _
    · exact (ih.cons b).trans (List.Perm.swap a b l)

/-- Sorting neither adds nor loses an entry. -/
theorem sortBy_perm {α : Type} (le : α → α → Bool) (l : List α) : (sortBy le l).Perm l := by
  induction l with
  | nil => exact List.Perm.refl _
  | cons a l ih => exact (insertBy_perm le a _).trans (ih.cons a)

/-- Inserting into a list in order leaves it in order. -/
theorem insertBy_pairwise {α : Type} {le : α → α → Bool} (trans : ∀ a b c, le a b → le b c → le a c)
    (total : ∀ a b, le a b || le b a) (a : α) {l : List α} (h : l.Pairwise fun a b => le a b) :
    (insertBy le a l).Pairwise fun a b => le a b := by
  induction l with
  | nil => exact List.pairwise_singleton _ a
  | cons b l ih =>
    rw [insertBy]
    obtain ⟨hb, hl⟩ := List.pairwise_cons.1 h
    split
    · next hab =>
      refine List.pairwise_cons.2 ⟨fun c hc => ?_, h⟩
      rcases List.mem_cons.1 hc with rfl | hc
      · exact hab
      · exact trans a b c hab (hb c hc)
    · next hab =>
      refine List.pairwise_cons.2 ⟨fun c hc => ?_, ih hl⟩
      rcases List.mem_cons.1 ((insertBy_perm le a l).mem_iff.1 hc) with rfl | hc
      · simpa [hab] using total c b
      · exact hb c hc

/-- A sorted list is in order. -/
theorem sortBy_pairwise {α : Type} {le : α → α → Bool} (trans : ∀ a b c, le a b → le b c → le a c)
    (total : ∀ a b, le a b || le b a) (l : List α) : (sortBy le l).Pairwise fun a b => le a b := by
  induction l with
  | nil => exact List.Pairwise.nil
  | cons a l ih => exact insertBy_pairwise trans total a ih

/-- Sorting keeps the entries. -/
theorem mem_sortBy {α : Type} {le : α → α → Bool} {l : List α} {a : α} : a ∈ sortBy le l ↔ a ∈ l :=
  (sortBy_perm le l).mem_iff

/-- An entry that may precede all of a list stands in front of it. -/
theorem insertBy_of_forall {α : Type} {le : α → α → Bool} {a : α} {l : List α} (h : ∀ b ∈ l, le a b) :
    insertBy le a l = a :: l := by
  cases l with
  | nil => rfl
  | cons b l => exact if_pos (h b List.mem_cons_self)

/-- A list in order is sorted already. -/
theorem sortBy_of_pairwise {α : Type} {le : α → α → Bool} {l : List α} (h : l.Pairwise fun a b => le a b) : sortBy le l = l := by
  induction l with
  | nil => rfl
  | cons a l ih =>
    obtain ⟨ha, hl⟩ := List.pairwise_cons.1 h
    rw [sortBy, ih hl, insertBy_of_forall ha]

/-- The order in which entries were does not matter, where no two of them may each precede the other. -/
theorem sortBy_eq_of_perm {α : Type} {le : α → α → Bool} (trans : ∀ a b c, le a b → le b c → le a c)
    (total : ∀ a b, le a b || le b a) {l l' : List α} (anti : ∀ a ∈ l, ∀ b ∈ l, le a b → le b a → a = b) (h : l.Perm l') :
    sortBy le l = sortBy le l' := by
  have hp : (sortBy le l).Perm (sortBy le l') := (sortBy_perm le l).trans (h.trans (sortBy_perm le l').symm)
  refine hp.eq_of_pairwise ?_ (sortBy_pairwise trans total l) (sortBy_pairwise trans total l')
  intro a b ha hb hab hba
  exact anti a (mem_sortBy.1 ha) b (h.mem_iff.2 (mem_sortBy.1 hb)) hab hba

/-- Inserting does not depend on what entries carry besides what they are compared by. -/
theorem map_insertBy {α β : Type} {le : α → α → Bool} {le' : β → β → Bool} {f : α → β} (h : ∀ a b, le' (f a) (f b) = le a b)
    (a : α) (l : List α) : (insertBy le a l).map f = insertBy le' (f a) (l.map f) := by
  induction l with
  | nil => rfl
  | cons b l ih =>
    rw [insertBy, List.map_cons, insertBy, h]
    split
    · rfl
    · rw [List.map_cons, ih]

/-- Nor does sorting. -/
theorem map_sortBy {α β : Type} (le : α → α → Bool) (le' : β → β → Bool) (f : α → β) (h : ∀ a b, le' (f a) (f b) = le a b)
    (l : List α) : (sortBy le l).map f = sortBy le' (l.map f) := by
  induction l with
  | nil => rfl
  | cons a l ih => rw [sortBy, map_insertBy h, ih, List.map_cons, sortBy]

end CubeAxes
