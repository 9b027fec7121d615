import Std.Data.TreeSet

/-!
# Lists without repetition

Hierarchies, members and levels all have a key that says which of them are the same. `distinctOn` keeps the first of each. It
looks a key up in the set of those it has seen, and what it keeps can be read off the list alone (`distinctOn_cons`).
-/

namespace CubeAxes

variable {α κ : Type} [Ord κ]

/-- The entries of a list whose key is neither among those seen nor that of an earlier entry, in their order. -/
def distinctFrom (key : α → κ) (seen : Std.TreeSet κ) : List α → List α
  | [] => []
  | a :: as =>
    if seen.contains (key a) then distinctFrom key seen as
    else a :: distinctFrom key (seen.insert (key a)) as

/-- The entries of a list whose key no earlier entry has, in their order. -/
def distinctOn (key : α → κ) (l : List α) : List α := distinctFrom key {} l

/-- Nothing is kept of nothing. -/
theorem distinctOn_nil (key : α → κ) : distinctOn key [] = [] := rfl

section Keys

variable [Std.TransOrd κ] [Std.LawfulEqOrd κ]

/-- When more keys have been seen, the entries that have one of these are left out. -/
theorem distinctFrom_eq_filter (key : α → κ) (more : κ → Bool) {seen seen' : Std.TreeSet κ}
    (h : ∀ k, seen'.contains k = (seen.contains k || more k)) (l : List α) :
    distinctFrom key seen' l = (distinctFrom key seen l).filter fun a => !more (key a) := by
  induction l generalizing seen seen' with
  | nil => rfl
  | cons a as ih =>
    have insert : ∀ s : Std.TreeSet κ, ∀ k, (s.insert (key a)).contains k = (compare (key a) k == .eq || s.contains k) :=
      fun s k => Std.TreeSet.contains_insert
    rw [distinctFrom, distinctFrom, h]
    cases hs : seen.contains (key a) with
    | true => simpa using ih h
    | false =>
      cases hm : more (key a) with
      | true =>
        simp only [Bool.false_or, reduceIte, Bool.false_eq_true, List.filter_cons, hm, Bool.not_true]
        refine ih fun k => ?_
        rw [h, insert]
        cases hk : compare (key a) k == .eq with
        | true =>
          have : key a = k := Std.LawfulEqOrd.eq_of_compare (by simpa using hk)
          simp [← this, hm]
        | false => simp
      | false =>
        simp only [Bool.false_or, Bool.false_eq_true, reduceIte, List.filter_cons, hm, Bool.not_false]
        congr 1
        refine ih fun k => ?_
        rw [insert, insert, h, Bool.or_assoc]

/-- The first entry is kept, and of the others those that are kept without it and have another key. -/
theorem distinctOn_cons [DecidableEq κ] (key : α → κ) (a : α) (as : List α) :
    distinctOn key (a :: as) = a :: (distinctOn key as).filter fun b => decide (key b ≠ key a) := by
  have one (k : κ) :
      (({} : Std.TreeSet κ).insert (key a)).contains k = (({} : Std.TreeSet κ).contains k || decide (k = key a)) := by
    rw [Std.TreeSet.contains_insert, Std.TreeSet.contains_emptyc, Bool.or_false, Bool.false_or, Bool.eq_iff_iff, beq_iff_eq,
      Std.LawfulEqOrd.compare_eq_iff_eq, decide_eq_true_iff]
    exact eq_comm
  rw [distinctOn, distinctFrom, if_neg (by simp), distinctFrom_eq_filter key _ one]
  simp [distinctOn]

/-- What is kept was there. -/
theorem mem_of_mem_distinctOn {key : α → κ} {l : List α} {a : α} (h : a ∈ distinctOn key l) : a ∈ l := by
  classical
  induction l with
  | nil => exact h
  | cons b l ih =>
    rw [distinctOn_cons] at h
    rcases List.mem_cons.1 h with rfl | h
    · exact List.mem_cons_self
    · exact List.mem_cons_of_mem _ (ih (List.mem_filter.1 h).1)

/-- Every key is kept. -/
theorem exists_mem_distinctOn (key : α → κ) {l : List α} {a : α} (h : a ∈ l) : ∃ b ∈ distinctOn key l, key b = key a := by
  classical
  induction l with
  | nil => exact absurd h List.not_mem_nil
  | cons c l ih =>
    rw [distinctOn_cons]
    by_cases hc : key c = key a
    · exact ⟨c, List.mem_cons_self, hc⟩
    · rcases List.mem_cons.1 h with rfl | h
      · exact absurd rfl hc
      · obtain ⟨b, hb, hk⟩ := ih h
        refine ⟨b, List.mem_cons_of_mem _ (List.mem_filter.2 ⟨hb, ?_⟩), hk⟩
        simpa [hk] using fun h => hc h.symm

/-- No key is kept twice. -/
theorem nodup_map_distinctOn (key : α → κ) (l : List α) : ((distinctOn key l).map key).Nodup := by
  classical
  induction l with
  | nil => exact List.nodup_nil
  | cons a l ih =>
    rw [distinctOn_cons, List.map_cons, List.nodup_cons]
    refine ⟨fun h => ?_, (List.filter_sublist.map key).nodup ih⟩
    obtain ⟨b, hb, hk⟩ := List.mem_map.1 h
    exact absurd hk (by simpa using (List.mem_filter.1 hb).2)

/-- What is kept stands as it stood. -/
theorem distinctOn_sublist (key : α → κ) (l : List α) : (distinctOn key l).Sublist l := by
  classical
  induction l with
  | nil => exact List.Sublist.refl []
  | cons a l ih =>
    rw [distinctOn_cons]
    exact (List.filter_sublist.trans ih).cons_cons a

/-- When no key is repeated, every entry is kept. -/
theorem distinctOn_of_nodup {key : α → κ} {l : List α} (h : (l.map key).Nodup) : distinctOn key l = l := by
  classical
  induction l with
  | nil => rfl
  | cons a l ih =>
    obtain ⟨ha, hl⟩ := List.nodup_cons.1 h
    rw [distinctOn_cons, ih hl, List.filter_eq_self.2]
    intro b hb
    have hne : key b ≠ key a := fun hk => ha (hk ▸ List.mem_map_of_mem hb)
    exact decide_eq_true hne

/-- Where the key tells entries apart, all that was there is kept. -/
theorem mem_distinctOn_iff {key : α → κ} {l : List α} (inj : ∀ a ∈ l, ∀ b ∈ l, key a = key b → a = b) {a : α} :
    a ∈ distinctOn key l ↔ a ∈ l := by
  refine ⟨mem_of_mem_distinctOn, fun h => ?_⟩
  obtain ⟨b, hb, hk⟩ := exists_mem_distinctOn key h
  have hba : b = a := inj b (mem_of_mem_distinctOn hb) a h hk
  exact hba ▸ hb

/-- Where entries are their own keys, all of them are kept. -/
theorem mem_distinctOn_id {l : List κ} {a : κ} : a ∈ distinctOn id l ↔ a ∈ l :=
  mem_distinctOn_iff fun _ _ _ _ h => h

/-- What is kept of keys themselves is without repetition. -/
theorem nodup_distinctOn_id (l : List κ) : (distinctOn id l).Nodup := by
  have h := nodup_map_distinctOn id l
  rwa [List.map_id] at h

/-- What is kept stands in the order in which it first occurs. -/
theorem pairwise_idxOf_distinctOn [DecidableEq κ] (l : List κ) :
    (distinctOn id l).Pairwise fun a b => l.idxOf a < l.idxOf b := by
  induction l with
  | nil => exact List.Pairwise.nil
  | cons c l ih =>
    rw [distinctOn_cons, List.pairwise_cons]
    refine ⟨fun b hb => ?_, ((List.pairwise_filter.2 (ih.imp fun h _ _ => h))).imp_of_mem fun {a b} ha hb hlt => ?_⟩
    · have hne : b ≠ c := of_decide_eq_true (List.mem_filter.1 hb).2
      rw [List.idxOf_cons, List.idxOf_cons, BEq.rfl, beq_false_of_ne hne.symm]
      exact Nat.succ_pos _
    · have hac : a ≠ c := of_decide_eq_true (List.mem_filter.1 ha).2
      have hbc : b ≠ c := of_decide_eq_true (List.mem_filter.1 hb).2
      rw [List.idxOf_cons, List.idxOf_cons, beq_false_of_ne hac.symm, beq_false_of_ne hbc.symm]
      exact Nat.succ_lt_succ hlt

/-- Of two lists together, the first keeps what it keeps alone, and the second what it keeps alone and the first has no key of. -/
theorem distinctOn_append [DecidableEq κ] (key : α → κ) (l l' : List α) :
    distinctOn key (l ++ l') = distinctOn key l ++ (distinctOn key l').filter fun b => decide (key b ∉ l.map key) := by
  induction l with
  | nil => exact (List.filter_eq_self.2 fun _ _ => decide_eq_true List.not_mem_nil).symm
  | cons a l ih =>
    rw [List.cons_append, distinctOn_cons, distinctOn_cons, ih, List.filter_append, List.filter_filter, List.cons_append]
    congr 2
    refine List.filter_congr fun b _ => ?_
    simp only [List.map_cons, List.mem_cons, not_or, Bool.decide_and]

/-- One more entry is kept unless its key is there already. -/
theorem distinctOn_append_singleton [DecidableEq κ] (key : α → κ) (l : List α) (a : α) :
    distinctOn key (l ++ [a]) = distinctOn key l ++ if key a ∈ l.map key then [] else [a] := by
  have hone : distinctOn key [a] = [a] := by
    rw [distinctOn_cons, distinctOn_nil, List.filter_nil]
  rw [distinctOn_append, hone]
  by_cases h : key a ∈ l.map key
  · rw [if_pos h, List.filter_cons_of_neg (by simpa using h), List.filter_nil]
  · rw [if_neg h, List.filter_cons_of_pos (by simpa using h), List.filter_nil]

/-- What is kept of a list of one key, if there is anything, is the key once. -/
theorem distinctOn_id_of_forall_eq [DecidableEq κ] {l : List κ} {a : κ} (h : ∀ b ∈ l, b = a) :
    distinctOn id l = if l = [] then [] else [a] := by
  induction l with
  | nil => rfl
  | cons b l ih =>
    obtain rfl := h b List.mem_cons_self
    rw [distinctOn_cons, ih fun c hc => h c (List.mem_cons_of_mem b hc)]
    by_cases hl : l = [] <;> simp [hl]

/-- Of parts that each have entries of one key, no two of the same, the keys are met in turn, where there are entries. -/
theorem distinctOn_map_flatMap [DecidableEq κ] {β : Type} (name : β → κ) (part : β → List α) (key : α → κ) {l : List β}
    (own : ∀ b ∈ l, ∀ a ∈ part b, key a = name b) (hl : (l.map name).Nodup) :
    distinctOn id ((l.flatMap part).map key) = (l.filter fun b => decide (part b ≠ [])).map name := by
  induction l with
  | nil => rfl
  | cons b l ih =>
    rw [List.map_cons, List.nodup_cons] at hl
    obtain ⟨hn, hl'⟩ := hl
    have hown : ∀ k ∈ (part b).map key, k = name b := by
      intro k hk
      obtain ⟨a, ha, rfl⟩ := List.mem_map.1 hk
      exact own b List.mem_cons_self a ha
    rw [List.flatMap_cons, List.map_append, distinctOn_append, ih (fun c hc => own c (List.mem_cons_of_mem b hc)) hl',
      distinctOn_id_of_forall_eq hown, List.filter_eq_self.2]
    · by_cases he : part b = [] <;> simp [he]
    · -- no later key is that of the first part
      intro k hk
      obtain ⟨c, hc, rfl⟩ := List.mem_map.1 hk
      refine decide_eq_true fun hin => hn ?_
      rw [List.map_id, id] at hin
      exact List.mem_map.2 ⟨c, (List.mem_filter.1 hc).1, hown _ hin⟩

end Keys

end CubeAxes
