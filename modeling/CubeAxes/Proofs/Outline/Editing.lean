import CubeAxes.Outline.Edit
import CubeAxes.Proofs.Outline.Descent

/-!
# Outlines under every sequence of edits

Edits can be made in any order and with any arguments: a hierarchy declared again, a member added again or under a parent of another
hierarchy. Whatever they are, the outline stays rooted (`Outline.rooted_editAll`): a member is stored under its unique name, which is the
text of two names more than the member is deep, it stands where it was placed, and it is listed there. A member that replaces another has
the same names, so it stands at the same depth under the same parent, and the members below it stand as they stood.
-/

namespace CubeAxes

namespace Outline

/-- Every member stands where its names say. It is stored under its unique name, placed and listed, and no name is listed that none is
stored under; no member is deeper than there are others. -/
structure Rooted (o : Outline) : Prop where
  key : ∀ u m, o.member? u = some m → m.uniqueName = u
  named : ∀ m, o.Holds m → MemberPath.text ⟨m.segments⟩ = m.uniqueName ∧ m.segments.length = m.depth + 2
  placed : ∀ m, o.Holds m → o.Placed m
  stored : ∀ m, o.Holds m → (o.names m.hierarchy m.depth)[m.ordinal]? = some m.uniqueName
  listed : ∀ hierarchy depth u, u ∈ o.names hierarchy depth → ∃ m, o.Holds m ∧ m.uniqueName = u
  height : ∀ m, o.Holds m → m.depth < o.members.size

variable {o o' : Outline} {m n : Member}

/-- A member stored under a name is held. -/
theorem Rooted.holds (h : o.Rooted) {u : String} (hm : o.member? u = some m) : o.Holds m := by
  rw [Holds, h.key u m hm]
  exact hm

/-- A member without a parent is at the top, and its names are those of its hierarchy and its own. -/
theorem Rooted.top (h : o.Rooted) (hm : o.Holds m) (hpar : m.parent = none) :
    m.depth = 0 ∧ m.segments = [m.hierarchy, m.name] := by
  rcases h.placed m hm with ⟨-, hd, hu⟩ | ⟨p, -, hp, -⟩
  · exact ⟨hd, Member.segments_eq_of_text (List.cons_ne_nil _ _) hu.symm⟩
  · rw [hpar] at hp
    nomatch hp

/-- The names of a member one level below a stored one are those of that one and its own. -/
theorem Rooted.segments_of_text_eq (h : o.Rooted) {pm : Member} (hpm : o.Holds pm)
    (hu : m.uniqueName = pm.uniqueName ++ "." ++ bracketed m.name) :
    m.segments = pm.segments ++ [m.name] ∧ MemberPath.text ⟨m.segments⟩ = m.uniqueName := by
  obtain ⟨ht, hlength⟩ := h.named pm hpm
  have hne : pm.segments ≠ [] := List.ne_nil_of_length_pos (by omega)
  have htext : MemberPath.text ⟨pm.segments ++ [m.name]⟩ = m.uniqueName := by rw [text_snoc hne, ht, hu]
  have hsegments := Member.segments_eq_of_text (by simp) htext
  exact ⟨hsegments, hsegments ▸ htext⟩

/-- A parent that is given is stored, one level above, and its names are those of the member but the last. -/
theorem Rooted.above (h : o.Rooted) (hm : o.Holds m) {p : String} (hpar : m.parent = some p) :
    ∃ pm, o.Holds pm ∧ pm.uniqueName = p ∧ m.depth = pm.depth + 1 ∧ m.segments = pm.segments ++ [m.name] := by
  rcases h.placed m hm with ⟨htop, -⟩ | ⟨q, pm, hq, hpm, hd, hu⟩
  · rw [hpar] at htop
    nomatch htop
  · obtain rfl : p = q := Option.some.inj (hpar.symm.trans hq)
    have hheld := h.holds hpm
    have hkey := h.key p pm hpm
    rw [← hkey] at hu
    exact ⟨pm, hheld, hkey, hd, (h.segments_of_text_eq hheld hu).1⟩

/-! ## What one edit keeps -/

/-- The empty outline is rooted. -/
theorem Rooted.empty : Rooted {} := by
  have hnone : ∀ u, ({} : Outline).member? u = none := fun u => by simp [member?]
  have hheld : ∀ m, ¬Holds {} m := fun m hm => by
    rw [Holds, hnone] at hm
    cases hm
  refine ⟨fun u m hm => ?_, fun m hm => absurd hm (hheld m), fun m hm => absurd hm (hheld m), fun m hm => absurd hm (hheld m), ?_,
    fun m hm => absurd hm (hheld m)⟩
  · rw [hnone] at hm
    cases hm
  · intro hierarchy depth u hu
    simp [names, table?, hierarchy?] at hu

/-- Being rooted can be read off the two views. -/
theorem Rooted.congr (h : o.Rooted) (hm : o'.members = o.members) (hn : ∀ n d, o'.names n d = o.names n d) : o'.Rooted := by
  have hq : o'.member? = o.member? := funext fun u => by rw [member?, member?, hm]
  have hH : ∀ m, o'.Holds m ↔ o.Holds m := fun m => by rw [Holds, Holds, hq]
  refine ⟨?_, ?_, ?_, ?_, ?_, ?_⟩
  · rw [hq]
    exact h.key
  · exact fun m hm => h.named m ((hH m).1 hm)
  · intro m hm
    rw [Placed, hq]
    exact h.placed m ((hH m).1 hm)
  · intro m hm
    rw [hn]
    exact h.stored m ((hH m).1 hm)
  · intro hierarchy depth u hu
    rw [hn] at hu
    obtain ⟨m, hm, hrest⟩ := h.listed hierarchy depth u hu
    exact ⟨m, (hH m).2 hm, hrest⟩
  · rw [hm]
    exact fun m hm => h.height m ((hH m).1 hm)

/-- A member that is placed has as many names as it is deep and two more, and its unique name is their text. -/
theorem Rooted.named_of_placed (h : o.Rooted) (hm : o.Placed m) :
    MemberPath.text ⟨m.segments⟩ = m.uniqueName ∧ m.segments.length = m.depth + 2 := by
  rcases hm with ⟨-, hd, hu⟩ | ⟨p, pm, -, hpm, hd, hu⟩
  · rw [Member.segments_eq_of_text (List.cons_ne_nil _ _) hu.symm, hd]
    exact ⟨hu.symm, rfl⟩
  · have hheld := h.holds hpm
    rw [← h.key p pm hpm] at hu
    obtain ⟨hsegments, ht⟩ := h.segments_of_text_eq hheld hu
    refine ⟨ht, ?_⟩
    rw [hsegments, List.length_append, (h.named pm hheld).2, hd]
    rfl

/-- A stored member of the unique name of one that is placed is as deep as that one: their names are the same. -/
theorem Rooted.depth_eq (h : o.Rooted) (hm : o.Placed m) (hn : o.Holds n) (hu : n.uniqueName = m.uniqueName) : n.depth = m.depth := by
  have hsegments : n.segments = m.segments := by rw [Member.segments, Member.segments, hu]
  have hlength := (h.named n hn).2
  rw [hsegments, (h.named_of_placed hm).2] at hlength
  omega

/-- Where a member is placed does not change when one that is placed is stored, also in place of its parent. -/
theorem Rooted.placed_of_stores (h : o.Rooted) (hs : o.Stores m o') (hm : o.Placed m) (hn : o.Placed n) : o'.Placed n := by
  rcases hn with htop | ⟨p, pm, hpar, hp, hd, hu⟩
  · exact Or.inl htop
  · by_cases hpu : m.uniqueName = p
    · -- the parent is replaced by a member of the same names, hence of the same depth
      have hdepth := h.depth_eq hm (h.holds hp) ((h.key p pm hp).trans hpu.symm)
      refine Or.inr ⟨p, m, hpar, ?_, by rw [hd, hdepth], hu⟩
      rw [hs.member, if_pos hpu]
    · refine Or.inr ⟨p, pm, hpar, ?_, hd, hu⟩
      rw [hs.member, if_neg hpu, hp]

/-- Storing a member that is placed keeps an outline rooted. -/
theorem Rooted.stores (h : o.Rooted) (hs : o.Stores m o') (hm : o.Placed m) : o'.Rooted := by
  have hplaced : ∀ n, o'.Holds n → o.Placed n := by
    intro n hn
    rcases hs.eq_or_holds hn with rfl | ⟨hn, -⟩
    · exact hm
    · exact h.placed n hn
  refine ⟨?_, fun n hn => h.named_of_placed (hplaced n hn), fun n hn => h.placed_of_stores hs hm (hplaced n hn), ?_, ?_, ?_⟩
  · intro u n hn
    rw [hs.member] at hn
    split at hn
    · next hu =>
      obtain rfl := Option.some.inj hn
      exact hu
    · exact h.key u n hn
  · intro n hn
    rcases hs.eq_or_holds hn with rfl | ⟨hn, -⟩
    · rw [hs.names, if_pos ⟨rfl, rfl⟩, hs.ordinal, List.getElem?_concat_length]
    · exact hs.listed_of (h.stored n hn)
  · intro hierarchy depth u hu
    obtain ⟨i, hi⟩ := List.getElem?_of_mem hu
    by_cases hmu : m.uniqueName = u
    · exact ⟨m, hs.holds_new, hmu⟩
    · rcases hs.listed_cases hi with ⟨-, -, -, rfl⟩ | hold
      · exact absurd rfl hmu
      · obtain ⟨n, hn, rfl⟩ := h.listed hierarchy depth u (List.mem_of_getElem? hold)
        exact ⟨n, hs.holds_of hn (Ne.symm hmu), rfl⟩
  · intro n hn
    have hsize := hs.size
    rcases hs.eq_or_holds hn with rfl | ⟨hn, -⟩
    · cases hold : o.member? n.uniqueName with
      | some m₀ =>
        rw [hold, if_neg (by simp)] at hsize
        have := h.height m₀ (h.holds hold)
        have := h.depth_eq hm (h.holds hold) (h.key _ m₀ hold)
        omega
      | none =>
        rw [hold, if_pos rfl] at hsize
        rcases hm with ⟨-, hd, -⟩ | ⟨p, pm, -, hpm, hd, -⟩
        · omega
        · have := h.height pm (h.holds hpm)
          omega
    · have := h.height n hn
      split at hsize <;> omega

/-- Every edit keeps an outline rooted. -/
theorem Rooted.edit (h : o.Rooted) (e : OutlineEdit) : (o.edit e).Rooted := by
  cases e with
  | addHierarchy name levels => exact h.congr rfl (o.names_addHierarchy name levels)
  | addMember hierarchy parent name =>
    rw [Outline.edit, run_addMemberInPlace]
    cases ha : o.addMember hierarchy parent name with
    | error _ => exact h
    | ok added =>
      obtain ⟨m, hstores, hplaced, -⟩ := exists_stores ha
      exact h.stores hstores hplaced
  | setLevelVisible hierarchy level visible =>
    rw [Outline.edit, run_setLevelVisibleInPlace]
    cases hs : o.setLevelVisible hierarchy level visible with
    | error _ => exact h
    | ok o' => exact h.congr (views_setLevelVisible hs).1 (views_setLevelVisible hs).2

/-- Any edits keep an outline rooted. -/
theorem Rooted.editAll (h : o.Rooted) (es : List OutlineEdit) : (o.editAll es).Rooted := by
  induction es generalizing o with
  | nil => exact h
  | cons e es ih => exact ih (h.edit e)

/-- An outline that is built by edits is rooted. -/
theorem rooted_editAll (es : List OutlineEdit) : (({} : Outline).editAll es).Rooted := Rooted.empty.editAll es

end Outline

end CubeAxes
