import CubeAxes.Proofs.Outline.Rows

/-!
# Ancestors in a consistent outline

The ancestor of a member at a depth is found by going up its parents; in a consistent outline it is held, of the same hierarchy,
and at that depth (`Consistent.holds_ancestor`, `Consistent.depth_ancestor`). Climbing through the catalog and the catalog's own
search for members below another both come to it (`Consistent.ancestorAt_eq`, `Consistent.isBelow_iff`), although the one looks
names up and the other follows stored links, each with a bound of its own on the steps.
-/

namespace CubeAxes

namespace Outline

variable {o : Outline}

/-- The member so many steps above a member, or the last one on the way. -/
def above (o : Outline) : Nat → Member → Member
  | 0, m => m
  | n + 1, m =>
    match m.parent.bind o.member? with
    | some p => o.above n p
    | none => m

/-- The ancestor of a member at a depth, which at its own depth is the member itself. -/
def ancestor (o : Outline) (m : Member) (depth : Nat) : Member := o.above (m.depth - depth) m

/-- What holds of the members at the top, and of a member when it holds of its parent, holds of every member. -/
theorem Consistent.induction (hc : Consistent o) {P : ∀ m, o.Holds m → Prop}
    (top : ∀ m (hm : o.Holds m), m.parent = none → m.depth = 0 → P m hm)
    (below : ∀ p m (hp : o.Holds p) (hm : o.Holds m), m.parent = some p.uniqueName → m.hierarchy = p.hierarchy →
      m.depth = p.depth + 1 → P p hp → P m hm) (m : Member) (hm : o.Holds m) : P m hm := by
  generalize hd : m.depth = d
  induction d generalizing m with
  | zero =>
    cases hp : m.parent with
    | none => exact top m hm hp hd
    | some u =>
      obtain ⟨p, -, -, -, hdepth⟩ := hc.above m u hm hp
      omega
  | succ d ih =>
    cases hp : m.parent with
    | none =>
      have := hc.top m hm hp
      omega
    | some u =>
      obtain ⟨p, hpm, rfl, hh, hdepth⟩ := hc.above m u hm hp
      exact below p m hpm hm hp hh.symm hdepth (ih p hpm (by omega))

/-- At its own depth a member is its ancestor. -/
@[simp] theorem ancestor_self (o : Outline) (m : Member) : o.ancestor m m.depth = m := by
  rw [ancestor, Nat.sub_self, above]

/-- Above a member its ancestors are those of its parent. -/
theorem ancestor_of_parent {p m : Member} (hp : o.Holds p) (hpar : m.parent = some p.uniqueName) (hd : m.depth = p.depth + 1)
    {d : Nat} (h : d ≤ p.depth) : o.ancestor m d = o.ancestor p d := by
  have hstep : m.depth - d = (p.depth - d) + 1 := by omega
  have hup : m.parent.bind o.member? = some p := by rw [hpar]; exact hp
  rw [ancestor, hstep, above, hup, ancestor]

/-- Every ancestor of a member is held, of its hierarchy, and at the depth asked for. -/
theorem Consistent.ancestor_spec (hc : Consistent o) {m : Member} (hm : o.Holds m) {d : Nat} (hd : d ≤ m.depth) :
    o.Holds (o.ancestor m d) ∧ (o.ancestor m d).hierarchy = m.hierarchy ∧ (o.ancestor m d).depth = d := by
  induction m, hm using hc.induction with
  | top m hm _ hz =>
    obtain rfl : d = m.depth := by omega
    rw [ancestor_self]
    exact ⟨hm, rfl, rfl⟩
  | below p m hp hm hpar hh hdepth ih =>
    by_cases hlast : d = m.depth
    · subst hlast
      rw [ancestor_self]
      exact ⟨hm, rfl, rfl⟩
    · have hle : d ≤ p.depth := by omega
      rw [ancestor_of_parent hp hpar hdepth hle, hh]
      exact ih hle

/-- Every ancestor of a member is held. -/
theorem Consistent.holds_ancestor (hc : Consistent o) {m : Member} (hm : o.Holds m) {d : Nat} (hd : d ≤ m.depth) :
    o.Holds (o.ancestor m d) := (hc.ancestor_spec hm hd).1

/-- Every ancestor of a member is of its hierarchy. -/
theorem Consistent.hierarchy_ancestor (hc : Consistent o) {m : Member} (hm : o.Holds m) {d : Nat} (hd : d ≤ m.depth) :
    (o.ancestor m d).hierarchy = m.hierarchy := (hc.ancestor_spec hm hd).2.1

/-- The ancestor at a depth is at that depth. -/
theorem Consistent.depth_ancestor (hc : Consistent o) {m : Member} (hm : o.Holds m) {d : Nat} (hd : d ≤ m.depth) :
    (o.ancestor m d).depth = d := (hc.ancestor_spec hm hd).2.2

/-- An ancestor of an ancestor is the ancestor at the same depth. -/
theorem Consistent.ancestor_ancestor (hc : Consistent o) {m : Member} (hm : o.Holds m) {d e : Nat} (hde : d ≤ e)
    (he : e ≤ m.depth) : o.ancestor (o.ancestor m e) d = o.ancestor m d := by
  induction m, hm using hc.induction with
  | top m hm _ hz =>
    obtain rfl : e = m.depth := by omega
    rw [ancestor_self]
  | below p m hp hm hpar _ hdepth ih =>
    by_cases hlast : e = m.depth
    · subst hlast
      rw [ancestor_self]
    · have hle : e ≤ p.depth := by omega
      rw [ancestor_of_parent hp hpar hdepth hle, ancestor_of_parent hp hpar hdepth (Nat.le_trans hde hle), ih hle]

/-! ## Two ways to the ancestor -/

/-- The parent of a member that is held one level above is looked up. -/
theorem Holds.parentOf {p m : Member} (hp : o.Holds p) (hpar : m.parent = some p.uniqueName) :
    o.catalog.parentOf m = .ok p := by
  rw [Catalog.parentOf, hpar]
  exact hp.lookup

/-- Climbing with enough steps comes to the ancestor. -/
theorem Consistent.climb_eq (hc : Consistent o) {m : Member} (hm : o.Holds m) {d : Nat} (hd : d ≤ m.depth) {n : Nat}
    (hn : m.depth ≤ d + n) : o.catalog.climb d n m = .ok (o.ancestor m d) := by
  induction m, hm using hc.induction generalizing n with
  | top m hm _ hz =>
    obtain rfl : d = m.depth := by omega
    rw [ancestor_self]
    cases n <;> rw [Catalog.climb, if_pos (Nat.le_refl _)]
  | below p m hp hm hpar _ hdepth ih =>
    by_cases hlast : d = m.depth
    · subst hlast
      rw [ancestor_self]
      cases n <;> rw [Catalog.climb, if_pos (Nat.le_refl _)]
    · have hle : d ≤ p.depth := by omega
      cases n with
      | zero => omega
      | succ n =>
        rw [Catalog.climb, if_neg (by omega), hp.parentOf hpar, ok_bind, ancestor_of_parent hp hpar hdepth hle]
        exact ih hle (by omega)

/-- The catalog gives the ancestor at every depth down to the member's own. -/
theorem Consistent.ancestorAt_eq (hc : Consistent o) {m : Member} (hm : o.Holds m) (d : Nat) :
    o.catalog.ancestorAt m d = .ok (if m.depth < d then none else some (o.ancestor m d)) := by
  rw [Catalog.ancestorAt]
  by_cases h : m.depth < d
  · rw [if_pos h, if_pos h]
  · have hheight : m.depth < o.catalog.height := Nat.lt_succ_of_lt (hc.height m hm)
    rw [if_neg h, if_neg h, hc.climb_eq hm (by omega) (by omega)]
    rfl

/-- Following the links of a member reaches a name when it is that of an ancestor above the member. -/
theorem Consistent.reaches_iff (hc : Consistent o) {m a : Member} (hm : o.Holds m) (ha : o.Holds a) {n : Nat}
    (hn : m.depth ≤ n) : o.reaches a.uniqueName n m.parent = true ↔ a.depth < m.depth ∧ o.ancestor m a.depth = a := by
  induction m, hm using hc.induction generalizing n with
  | top m hm hpar hz =>
    rw [hpar, reaches]
    constructor
    · intro h
      nomatch h
    · rintro ⟨hlt, -⟩
      omega
  | below p m hp hm hpar _ hdepth ih =>
    cases n with
    | zero => omega
    | succ n =>
      have hup : (o.member? p.uniqueName).bind (·.parent) = p.parent := by
        rw [hp]
        rfl
      rw [hpar, reaches, hup, Bool.or_eq_true, beq_iff_eq, ih (by omega)]
      constructor
      · rintro (hname | ⟨hlt, hanc⟩)
        · obtain rfl := hp.eq_of_uniqueName ha hname
          exact ⟨by omega, by rw [ancestor_of_parent hp hpar hdepth (Nat.le_refl _), ancestor_self]⟩
        · exact ⟨by omega, by rw [ancestor_of_parent hp hpar hdepth (Nat.le_of_lt hlt), hanc]⟩
      · rintro ⟨hlt, hanc⟩
        rw [ancestor_of_parent hp hpar hdepth (by omega)] at hanc
        by_cases hlast : a.depth = p.depth
        · rw [hlast, ancestor_self] at hanc
          exact Or.inl (congrArg Member.uniqueName hanc)
        · exact Or.inr ⟨by omega, hanc⟩

/-- A member is below another when that is its ancestor and not at its own depth. -/
theorem Consistent.isBelow_iff (hc : Consistent o) {m a : Member} (hm : o.Holds m) (ha : o.Holds a) :
    o.isBelow m a.uniqueName = true ↔ a.depth < m.depth ∧ o.ancestor m a.depth = a :=
  hc.reaches_iff hm ha (Nat.le_of_lt (hc.height m hm))

end Outline

end CubeAxes
