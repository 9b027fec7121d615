import CubeAxes.Proofs.Resolution.Sound
import CubeAxes.Proofs.TupleSet.Shape

/-!
# Which sets resolve to well-typed axes

A set expression has a shape when it can be typed from its references and calls alone: the operands of a join have no hierarchy in
common, and the arguments of a union, and the tuples in braces, have the same shape. Resolution checks the members in braces and the
hierarchies of each tuple, but neither the operands of a join that is a call nor the branches of a union. So what it resolves to is
well typed just when the expression has a shape, which then is that of the axis (`Outline.Consistent.hasShape_iff`).
-/

namespace CubeAxes

/-- A set expression is typed from its references and calls. Its shape is the hierarchies in the tuples that it selects; a set that
selects nothing has the empty one. -/
inductive SetExpr.HasShape (cat : Catalog) : SetExpr → Set String → Prop
  | reference {r : Reference} {ms : List Member} : cat.referenced r = .ok ms → HasShape cat (.reference r) (hierarchiesOf ms)
  | members {elements : List SetElement} {mss : List (List Member)} : elements.filterMap SetElement.tuple? = [] →
      (elements.filterMap SetElement.reference?).mapM cat.referenced = .ok mss →
      HasShape cat (.braced elements) (hierarchiesOf mss.flatten)
  | tuples {elements : List SetElement} {mss : List (List Member)} {s : Set String} : elements.filterMap SetElement.tuple? ≠ [] →
      (elements.filterMap SetElement.tuple?).mapM (cat.tupleMembers []) = .ok mss → (∀ ms ∈ mss, hierarchiesOf ms = s) →
      HasShape cat (.braced elements) s
  | hierarchize {arg : SetExpr} {s : Set String} : HasShape cat arg s → HasShape cat (.call .hierarchize [arg]) s
  | crossJoin {args : List SetExpr} {ss : List (Set String)} : List.Forall₂ (HasShape cat) args ss → ss.Pairwise Disjoint →
      HasShape cat (.call .crossJoin args) (unite ss)
  | union {args : List SetExpr} {ss : List (Set String)} : List.Forall₂ (HasShape cat) args ss →
      (∀ s ∈ ss, ∀ s' ∈ ss, s ≠ ∅ → s' ≠ ∅ → s = s') → HasShape cat (.call .union args) (unite ss)

namespace Catalog

variable {cat : Catalog}

/-- The operands of a join are resolved as the branches of a union are. -/
theorem resolveAll_of_resolveOperands {position : Nat} {args : List SetExpr} {ts : List TupleSet}
    (h : cat.resolveOperands position args = .ok ts) : cat.resolveAll args = .ok ts := by
  induction args generalizing position ts with
  | nil =>
    rw [resolveOperands] at h
    rw [resolveAll, h]
  | cons arg args ih =>
    rw [resolveOperands] at h
    obtain ⟨t, ht, h⟩ := bind_eq_ok h
    split at h
    · cases h
    · obtain ⟨us, hus, h⟩ := bind_eq_ok h
      obtain rfl := Except.ok.inj h
      rw [resolveAll, ht, ok_bind, ih hus]
      rfl

/-- Tuples are resolved by looking their members up and joining them. -/
theorem exists_of_mapM_resolveTuple {tuples : List (List MemberPath)} {ts : List TupleSet}
    (h : tuples.mapM cat.resolveTuple = .ok ts) :
    ∃ mss, tuples.mapM (cat.tupleMembers []) = .ok mss ∧
      List.Forall₂ (fun ms t => TupleSet.chain .tuple (ms.map fun m => .members [m]) = some t) mss ts := by
  induction tuples generalizing ts with
  | nil =>
    obtain rfl := Except.ok.inj h
    exact ⟨[], rfl, .nil⟩
  | cons paths tuples ih =>
    rw [List.mapM_cons] at h
    obtain ⟨t, ht, h⟩ := bind_eq_ok h
    obtain ⟨us, hus, h⟩ := bind_eq_ok h
    obtain rfl := Except.ok.inj h
    obtain ⟨mss, hmss, hchains⟩ := ih hus
    obtain ⟨ms, hms, ht⟩ := bind_eq_ok ht
    split at ht
    · next t' hchain =>
      obtain rfl := Except.ok.inj ht
      refine ⟨ms :: mss, ?_, .cons hchain hchains⟩
      rw [List.mapM_cons, hms, hmss]
      rfl
    · cases ht

/-- A set can be put on an axis. -/
def Accepts (cat : Catalog) (set : SetExpr) : Prop := ∃ axis, cat.resolveAxis set = .ok axis

/-- A set can be put on an axis when it resolves. -/
theorem accepts_iff {set : SetExpr} : cat.Accepts set ↔ ∃ t, cat.resolve set = .ok t := by
  constructor
  · rintro ⟨axis, h⟩
    obtain ⟨t, ht, -⟩ := bind_eq_ok h
    exact ⟨t, ht⟩
  · rintro ⟨t, ht⟩
    refine ⟨.ofTuples t set.isHierarchized, ?_⟩
    rw [resolveAxis, ht]
    rfl

/-- One reference to a member. -/
theorem mapM_referenced_single {p : MemberPath} {m : Member} (h : cat.lookup p.text = .ok m) :
    [Reference.member p].mapM cat.referenced = .ok [[m]] := by
  rw [List.mapM_cons, referenced, h]
  rfl

/-- One member in braces. -/
theorem resolve_single {p : MemberPath} {m : Member} (h : cat.lookup p.text = .ok m) :
    cat.resolve (.braced [.reference (.member p)]) = .ok (.members [m]) := by
  have hdistinct : distinctOn Member.uniqueName [m] = [m] := distinctOn_of_nodup (List.nodup_singleton _)
  rw [resolve, resolveBraced]
  simp only [List.filterMap_cons, List.filterMap_nil, SetElement.tuple?, SetElement.reference?, if_true, resolveMembers,
    mapM_referenced_single h, ok_bind, List.flatten_singleton, distinctMembers, hdistinct]
  rfl

/-- The shape of one member in braces. -/
theorem hasShape_single {p : MemberPath} {m : Member} (h : cat.lookup p.text = .ok m) :
    SetExpr.HasShape cat (.braced [.reference (.member p)]) {m.hierarchy} := by
  rw [← hierarchiesOf_singleton, ← List.flatten_singleton (l := [m])]
  exact .members rfl (mapM_referenced_single h)

/-- Empty braces have the empty shape. -/
theorem hasShape_empty (cat : Catalog) : SetExpr.HasShape cat (.braced []) ∅ := by
  have hnone : ([] : List Reference).mapM cat.referenced = .ok [] := rfl
  have hflat : ([] : List (List Member)).flatten = [] := rfl
  rw [← hierarchiesOf_eq_empty_iff.2 hflat]
  exact .members rfl hnone

/-- A join of two single members is accepted, whatever their hierarchies. -/
theorem accepts_join {p p' : MemberPath} {m m' : Member} (h : cat.lookup p.text = .ok m) (h' : cat.lookup p'.text = .ok m') :
    cat.Accepts (.call .crossJoin [.braced [.reference (.member p)], .braced [.reference (.member p')]]) := by
  refine accepts_iff.2 ⟨.join .call (.members [m]) (.members [m']), ?_⟩
  rw [resolve, resolveOperands, resolve_single h, resolveOperands, resolve_single h', resolveOperands]
  rfl

/-- A tuple of two members is accepted when they are of different hierarchies. -/
theorem accepts_tuple_iff {p p' : MemberPath} {m m' : Member} (h : cat.lookup p.text = .ok m) (h' : cat.lookup p'.text = .ok m') :
    cat.Accepts (.braced [.tuple [p, p']]) ↔ m.hierarchy ≠ m'.hierarchy := by
  have hresolve : cat.resolve (.braced [.tuple [p, p']]) = (cat.resolveTuple [p, p']).bind fun t => .ok t := by
    rw [resolve, resolveBraced]
    simp only [List.filterMap_cons, List.filterMap_nil, SetElement.tuple?, List.cons_ne_nil, if_false, List.length_cons,
      resolveTuples, List.mapM_cons, List.mapM_nil]
    cases cat.resolveTuple [p, p'] <;> rfl
  have htuple : cat.tupleMembers [] [p, p'] = if m'.hierarchy ∈ [m.hierarchy] then
      .error (.malformedSet (.repeatedHierarchy m'.hierarchy)) else .ok [m, m'] := by
    rw [tupleMembers, h, ok_bind, if_neg List.not_mem_nil, tupleMembers, h', ok_bind]
    split <;> rfl
  rw [accepts_iff, hresolve, resolveTuple, htuple]
  constructor
  · rintro ⟨t, ht⟩ he
    rw [if_pos (List.mem_singleton.2 he.symm)] at ht
    cases ht
  · intro hne
    rw [if_neg fun hin => hne (List.mem_singleton.1 hin).symm]
    exact ⟨_, rfl⟩

end Catalog

namespace TupleSet

/-- The shapes of tuples of single members are the hierarchies of these. -/
theorem map_shape_of_singles {form : JoinForm} {mss : List (List Member)} {ts : List TupleSet}
    (h : List.Forall₂ (fun ms t => chain form (ms.map fun m => .members [m]) = some t) mss ts) :
    ts.map shape = mss.map hierarchiesOf := by
  induction h with
  | nil => rfl
  | cons hchain _ ih => rw [List.map_cons, List.map_cons, ih, shape, flatten_memberSets_of_singles hchain]

/-- A tuple of members of different hierarchies is well typed. -/
theorem wellTyped_of_singles {form : JoinForm} {ms : List Member} {t : TupleSet}
    (h : chain form (ms.map fun m => .members [m]) = some t) (hnodup : (ms.map (·.hierarchy)).Nodup) : t.WellTyped := by
  refine (wellTyped_chain_iff h).2 ⟨fun u hu => ?_, ?_⟩
  · obtain ⟨m, -, rfl⟩ := List.mem_map.1 hu
    exact wellTyped_members_iff.2 ⟨m.hierarchy, fun n hn => congrArg _ (List.mem_singleton.1 hn)⟩
  · rw [List.pairwise_map]
    refine (List.pairwise_map.1 hnodup).imp fun {m n} hne k hk l hl => ?_
    obtain rfl := List.mem_singleton.1 hk
    obtain rfl := List.mem_singleton.1 hl
    exact hne

end TupleSet

namespace Outline

variable {o : Outline}

/-! ## What resolution checks -/

/-- A sound set has tuples when its shape is not empty. -/
theorem Sound.selectsNothing_iff_shape {t : TupleSet} (h : o.Sound t) : t.selectsNothing = false ↔ t.shape ≠ ∅ := by
  rw [h.selectsNothing_iff, TupleSet.shape, ne_eq, ne_eq, hierarchiesOf_eq_empty_iff]

/-- In a sound set each set of members has one hierarchy, and no hierarchy is on both sides of a tuple. -/
theorem Sound.parts {t : TupleSet} (h : o.Sound t) :
    (∀ ms, .members ms ∈ t.parts → ∃ hierarchy, ∀ m ∈ ms, m.hierarchy = hierarchy) ∧
      ∀ left right, .join .tuple left right ∈ t.parts → left.Apart right := by
  induction h with
  | @members hierarchy ms hms _ =>
    have hwell := TupleSet.wellTyped_members_iff.2 ⟨hierarchy, fun m hm => (hms m hm).2⟩
    exact ⟨hwell.members, hwell.joins .tuple⟩
  | join _ _ _ _ ihl ihr =>
    refine ⟨fun ms hin => ?_, fun l r hin => ?_⟩
    · rcases TupleSet.mem_parts_join_iff.1 hin with he | hin | hin
      · cases he
      · exact ihl.1 ms hin
      · exact ihr.1 ms hin
    · rcases TupleSet.mem_parts_join_iff.1 hin with he | hin | hin
      · cases he
      · exact ihl.2 l r hin
      · exact ihr.2 l r hin
  | tuple _ hnodup ht =>
    have hwell := TupleSet.wellTyped_of_singles ht hnodup
    exact ⟨hwell.members, hwell.joins .tuple⟩
  | union _ ih =>
    refine ⟨fun ms hin => ?_, fun l r hin => ?_⟩
    · rcases TupleSet.mem_parts_union_iff.1 hin with he | ⟨t, ht, hin⟩
      · cases he
      · exact (ih t ht).1 ms hin
    · rcases TupleSet.mem_parts_union_iff.1 hin with he | ⟨t, ht, hin⟩
      · cases he
      · exact (ih t ht).2 l r hin

/-! ## Typing what is resolved -/

/-- Members in braces have the shape of what they resolve to. -/
theorem Consistent.hasShape_members_iff (hc : Consistent o) {elements : List SetElement} {t : TupleSet} {s : Set String}
    (hno : elements.filterMap SetElement.tuple? = [])
    (h : o.catalog.resolveMembers (elements.filterMap SetElement.reference?) = .ok t) :
    (SetExpr.braced elements).HasShape o.catalog s ↔ t.WellTyped ∧ s = t.shape := by
  obtain ⟨mss, hmss, h⟩ := bind_eq_ok h
  simp only at h
  split at h
  · cases h
  · next hmix =>
    obtain rfl := Except.ok.inj h
    have hwell := TupleSet.wellTyped_members_iff.2 (exists_hierarchy_of_mixture? hmix)
    have hheld : ∀ m ∈ mss.flatten, o.Holds m := by
      intro m hm
      obtain ⟨ms, hms, hm⟩ := List.mem_flatten.1 hm
      obtain ⟨r, -, hr⟩ := forall_of_mapM_eq_ok hmss ms hms
      obtain ⟨⟨_, hall⟩, -⟩ := hc.spec_of_referenced hr
      exact (hall m hm).1
    -- members that are the same by name are the same, so none is lost when repetitions are
    have hmem : ∀ m, m ∈ distinctMembers mss.flatten ↔ m ∈ mss.flatten :=
      fun m => mem_distinctOn_iff fun a ha b hb he => (hheld a ha).eq_of_uniqueName (hheld b hb) he
    have hshape : hierarchiesOf (distinctMembers mss.flatten) = hierarchiesOf mss.flatten := by
      simp only [hierarchiesOf, hmem]
    rw [TupleSet.shape_members, hshape]
    constructor
    · intro htyped
      cases htyped with
      | members _ hmss' =>
        obtain rfl := Except.ok.inj (hmss.symm.trans hmss')
        exact ⟨hwell, rfl⟩
      | tuples hsome _ _ => exact absurd hno hsome
    · rintro ⟨-, rfl⟩
      exact .members hno hmss

/-- A tuple resolves to a well-typed set that selects something. -/
theorem Consistent.wellTyped_of_resolveTuple (hc : Consistent o) {paths : List MemberPath} {t : TupleSet}
    (h : o.catalog.resolveTuple paths = .ok t) : t.WellTyped ∧ t.selectsNothing = false := by
  obtain ⟨ms, hms, h⟩ := bind_eq_ok h
  split at h
  · next hchain =>
    obtain rfl := Except.ok.inj h
    exact ⟨TupleSet.wellTyped_of_singles hchain (hc.spec_of_tupleMembers hms).2, TupleSet.selectsNothing_of_singles hchain⟩
  · cases h

/-- Tuples in braces have the shape of what they resolve to, if that is well typed. -/
theorem Consistent.hasShape_tuples_iff (hc : Consistent o) {elements : List SetElement} {t : TupleSet} {s : Set String}
    (hsome : elements.filterMap SetElement.tuple? ≠ [])
    (h : o.catalog.resolveTuples (elements.filterMap SetElement.tuple?) = .ok t) :
    (SetExpr.braced elements).HasShape o.catalog s ↔ t.WellTyped ∧ s = t.shape := by
  obtain ⟨ts, hts, h⟩ := bind_eq_ok h
  obtain ⟨mss, hmss, hchains⟩ := Catalog.exists_of_mapM_resolveTuple hts
  have htuple : ∀ u ∈ ts, u.WellTyped ∧ u.selectsNothing = false := by
    intro u hu
    obtain ⟨paths, -, hpaths⟩ := forall_of_mapM_eq_ok hts u hu
    exact hc.wellTyped_of_resolveTuple hpaths
  have hne : ts ≠ [] := by
    rintro rfl
    obtain ⟨paths, hpaths⟩ := List.exists_mem_of_ne_nil _ hsome
    obtain ⟨u, hu, -⟩ := exists_of_mapM_eq_ok hts paths hpaths
    exact absurd hu List.not_mem_nil
  -- a single tuple is no union, but has the shape of one
  have hwhole : t.shape = unite (ts.map TupleSet.shape) ∧ (t.WellTyped ↔ TupleSet.SameShaped ts) := by
    split at h
    · next u =>
      obtain rfl := Except.ok.inj h
      refine ⟨(unite_eq_of_forall_eq (by simp) (by simp)).symm, iff_of_true (htuple _ List.mem_cons_self).1 ?_⟩
      intro u hu w hw _ _
      rw [List.mem_singleton.1 hu, List.mem_singleton.1 hw]
    · obtain rfl := Except.ok.inj h
      exact ⟨TupleSet.shape_union ts, TupleSet.wellTyped_union_iff.trans (and_iff_right fun u hu => (htuple u hu).1)⟩
  have hnonempty : ts.map TupleSet.shape ≠ [] := fun hnil => hne (List.map_eq_nil_iff.1 hnil)
  rw [hwhole.2, TupleSet.sameShaped_iff hne fun u hu => (htuple u hu).2, hwhole.1]
  have hshapes := TupleSet.map_shape_of_singles hchains
  constructor
  · intro htyped
    cases htyped with
    | members hno _ => exact absurd hno hsome
    | tuples _ hmss' hall =>
      obtain rfl := Except.ok.inj (hmss.symm.trans hmss')
      have hall' : ∀ s' ∈ ts.map TupleSet.shape, s' = s := by
        rw [hshapes]
        exact List.forall_mem_map.2 hall
      exact ⟨⟨s, hall'⟩, (unite_eq_of_forall_eq hnonempty hall').symm⟩
  · rintro ⟨⟨s, hall⟩, rfl⟩
    rw [unite_eq_of_forall_eq hnonempty hall]
    rw [hshapes] at hall
    exact .tuples hsome hmss (List.forall_mem_map.1 hall)

/-- The operands of a join that is a call are typed as the join is. -/
theorem hasShape_crossJoin_iff {args : List SetExpr} {ts : List TupleSet} {t : TupleSet} {s : Set String}
    (hargs : ∀ ss, List.Forall₂ (SetExpr.HasShape o.catalog) args ss ↔ (∀ u ∈ ts, u.WellTyped) ∧ ss = ts.map TupleSet.shape)
    (ht : TupleSet.chain .call ts = some t) :
    (SetExpr.call .crossJoin args).HasShape o.catalog s ↔ t.WellTyped ∧ s = t.shape := by
  have hpairs : (ts.map TupleSet.shape).Pairwise Disjoint ↔ ts.Pairwise TupleSet.Apart := by
    rw [List.pairwise_map]
    exact ⟨fun h => h.imp TupleSet.apart_iff_disjoint.2, fun h => h.imp TupleSet.apart_iff_disjoint.1⟩
  rw [TupleSet.wellTyped_chain_iff ht, TupleSet.shape_chain ht, ← hpairs]
  constructor
  · intro htyped
    cases htyped with
    | crossJoin hss hdisjoint =>
      obtain ⟨hall, rfl⟩ := (hargs _).1 hss
      exact ⟨⟨hall, hdisjoint⟩, rfl⟩
  · rintro ⟨⟨hall, hdisjoint⟩, rfl⟩
    exact .crossJoin ((hargs _).2 ⟨hall, rfl⟩) hdisjoint

/-- The arguments of a union are typed as the union is. -/
theorem hasShape_union_iff {args : List SetExpr} {ts : List TupleSet} {s : Set String}
    (hargs : ∀ ss, List.Forall₂ (SetExpr.HasShape o.catalog) args ss ↔ (∀ u ∈ ts, u.WellTyped) ∧ ss = ts.map TupleSet.shape)
    (hsound : ∀ u ∈ ts, o.Sound u) :
    (SetExpr.call .union args).HasShape o.catalog s ↔ (TupleSet.union ts).WellTyped ∧ s = (TupleSet.union ts).shape := by
  have hsame : (∀ s ∈ ts.map TupleSet.shape, ∀ s' ∈ ts.map TupleSet.shape, s ≠ ∅ → s' ≠ ∅ → s = s') ↔ TupleSet.SameShaped ts := by
    simp only [List.forall_mem_map]
    constructor
    · intro h u hu w hw hsu hsw
      exact h u hu w hw ((hsound u hu).selectsNothing_iff_shape.1 hsu) ((hsound w hw).selectsNothing_iff_shape.1 hsw)
    · intro h u hu w hw hsu hsw
      exact h u hu w hw ((hsound u hu).selectsNothing_iff_shape.2 hsu) ((hsound w hw).selectsNothing_iff_shape.2 hsw)
  rw [TupleSet.wellTyped_union_iff, TupleSet.shape_union, ← hsame]
  constructor
  · intro htyped
    cases htyped with
    | union hss hsame =>
      obtain ⟨hall, rfl⟩ := (hargs _).1 hss
      exact ⟨⟨hall, hsame⟩, rfl⟩
  · rintro ⟨⟨hall, hsame⟩, rfl⟩
    exact .union ((hargs _).2 ⟨hall, rfl⟩) hsame

mutual

/-- A set expression that resolves has a shape when what it resolves to is well typed, and then its shape is that of the set. -/
theorem Consistent.hasShape_iff (hc : Consistent o) : (e : SetExpr) → {t : TupleSet} → o.catalog.resolve e = .ok t →
    (s : Set String) → (e.HasShape o.catalog s ↔ t.WellTyped ∧ s = t.shape)
  | .reference r, t, h, s => by
    rw [Catalog.resolve] at h
    obtain ⟨ms, hms, h⟩ := bind_eq_ok h
    obtain rfl := Except.ok.inj h
    obtain ⟨⟨hierarchy, hheld⟩, -⟩ := hc.spec_of_referenced hms
    have hwell := TupleSet.wellTyped_members_iff.2 ⟨hierarchy, fun m hm => (hheld m hm).2⟩
    rw [TupleSet.shape_members]
    constructor
    · intro htyped
      cases htyped with
      | reference hms' =>
        obtain rfl := Except.ok.inj (hms.symm.trans hms')
        exact ⟨hwell, rfl⟩
    · rintro ⟨-, rfl⟩
      exact .reference hms
  | .braced elements, t, h, s => by
    rw [Catalog.resolve] at h
    unfold Catalog.resolveBraced at h
    simp only at h
    split at h
    · next hno => exact hc.hasShape_members_iff hno h
    · next hsome =>
      split at h
      · exact hc.hasShape_tuples_iff hsome h
      · cases h
  | .call .hierarchize args, t, h, s => by
    rw [Catalog.resolve] at h
    exact hc.hasShape_hierarchize_iff args h s
  | .call .crossJoin args, t, h, s => by
    rw [Catalog.resolve] at h
    obtain ⟨ts, hts, h⟩ := bind_eq_ok h
    split at h
    · next t' ht =>
      obtain rfl := Except.ok.inj h
      exact hasShape_crossJoin_iff (hc.forall₂_hasShape_iff args (Catalog.resolveAll_of_resolveOperands hts)) ht
    · cases h
  | .call .union args, t, h, s => by
    rw [Catalog.resolve] at h
    obtain ⟨ts, hts, h⟩ := bind_eq_ok h
    obtain rfl := Except.ok.inj h
    exact hasShape_union_iff (hc.forall₂_hasShape_iff args hts) (hc.closed_sound.resolveAll args hts)

/-- The same for the only set of a call that hierarchizes it. -/
theorem Consistent.hasShape_hierarchize_iff (hc : Consistent o) : (args : List SetExpr) → {t : TupleSet} →
    o.catalog.resolveOnly args = .ok t → (s : Set String) →
    ((SetExpr.call .hierarchize args).HasShape o.catalog s ↔ t.WellTyped ∧ s = t.shape)
  | [], t, h, s => by
    rw [Catalog.resolveOnly] at h
    · cases h
    · exact fun _ e => nomatch e
  | [arg], t, h, s => by
    rw [Catalog.resolveOnly] at h
    rw [← hc.hasShape_iff arg h s]
    constructor
    · intro htyped
      cases htyped with
      | hierarchize harg => exact harg
    · exact .hierarchize
  | arg :: arg' :: args, t, h, s => by
    rw [Catalog.resolveOnly] at h
    · cases h
    · exact fun _ e => nomatch e

/-- The same for several sets, each with its shape. -/
theorem Consistent.forall₂_hasShape_iff (hc : Consistent o) : (args : List SetExpr) → {ts : List TupleSet} →
    o.catalog.resolveAll args = .ok ts → (ss : List (Set String)) →
    (List.Forall₂ (SetExpr.HasShape o.catalog) args ss ↔ (∀ t ∈ ts, t.WellTyped) ∧ ss = ts.map TupleSet.shape)
  | [], ts, h, ss => by
    rw [Catalog.resolveAll] at h
    obtain rfl := Except.ok.inj h
    simp
  | arg :: args, ts, h, ss => by
    rw [Catalog.resolveAll] at h
    obtain ⟨t, ht, h⟩ := bind_eq_ok h
    obtain ⟨us, hus, h⟩ := bind_eq_ok h
    obtain rfl := Except.ok.inj h
    have hfirst := hc.hasShape_iff arg ht
    have hrest := hc.forall₂_hasShape_iff args hus
    rw [List.forall₂_cons_left_iff, List.forall_mem_cons, List.map_cons]
    constructor
    · rintro ⟨s, ss', hs, hss', rfl⟩
      obtain ⟨hwell, rfl⟩ := (hfirst s).1 hs
      obtain ⟨hall, rfl⟩ := (hrest ss').1 hss'
      exact ⟨⟨hwell, hall⟩, rfl⟩
    · rintro ⟨⟨hwell, hall⟩, rfl⟩
      exact ⟨_, _, (hfirst _).2 ⟨hwell, rfl⟩, (hrest _).2 ⟨hall, rfl⟩, rfl⟩

end

/-- Over an orderly outline, let a set be put on an axis. Each set of members on the axis has one hierarchy at most, and no hierarchy
is on both sides of a tuple. All of the axis is well typed, joins that are calls and unions included, just when the set has a shape,
which then is the hierarchies of the axis. Of two spellings of a tuple, the one in braces is accepted when its members are of
different hierarchies, and the join of two sets always. -/
theorem Orderly.wellTyped_resolveAxis (ho : Orderly o) :
    (∀ set axis, o.catalog.resolveAxis set = .ok axis → ∃ t, axis.tuples? = some t ∧
      (∀ ms, .members ms ∈ t.parts → ∃ hierarchy, ∀ m ∈ ms, m.hierarchy = hierarchy) ∧
      (∀ left right, .join .tuple left right ∈ t.parts → left.Apart right) ∧
      (t.WellTyped ↔ ∃ s, set.HasShape o.catalog s) ∧
      ∀ s, set.HasShape o.catalog s → ∀ hierarchy, hierarchy ∈ axis.hierarchies ↔ hierarchy ∈ s) ∧
    ∀ p p' m m', o.catalog.lookup p.text = .ok m → o.catalog.lookup p'.text = .ok m' →
      (o.catalog.Accepts (.braced [.tuple [p, p']]) ↔ m.hierarchy ≠ m'.hierarchy) ∧
      o.catalog.Accepts (.call .crossJoin [.braced [.reference (.member p)], .braced [.reference (.member p')]]) := by
  have hc := ho.consistent
  refine ⟨fun set axis h => ?_, fun p p' m m' hm hm' => ⟨Catalog.accepts_tuple_iff hm hm', Catalog.accepts_join hm hm'⟩⟩
  obtain ⟨t, ht, h⟩ := bind_eq_ok h
  obtain rfl := Except.ok.inj h
  have htuples := Axis.tuples?_ofTuples t set.isHierarchized
  obtain ⟨hmembers, hjoins⟩ := (hc.sound_of_resolve set ht).parts
  refine ⟨t, htuples, hmembers, hjoins, ⟨fun hwell => ⟨t.shape, (hc.hasShape_iff set ht _).2 ⟨hwell, rfl⟩⟩, ?_⟩, ?_⟩
  · rintro ⟨s, hs⟩
    exact ((hc.hasShape_iff set ht s).1 hs).1
  · intro s hs hierarchy
    rw [((hc.hasShape_iff set ht s).1 hs).2, Axis.mem_hierarchies, Axis.members, Axis.memberSets_of_tuples? htuples]
    exact Iff.rfl

/-- Two hierarchies of one level each, the first with two members. -/
def sampleTwins : Outline :=
  (((({} : Outline).addHierarchy "A" ["L"]).addHierarchy "B" ["M"]).addMembers?
    [("A", none, "a"), ("A", none, "b"), ("B", none, "x")]).getD {}

/-- It is built in order. -/
theorem orderly_sampleTwins : Orderly sampleTwins := by
  have hsome : ((({} : Outline).addHierarchy "A" ["L"]).addHierarchy "B" ["M"] |>.addMembers?
      [("A", none, "a"), ("A", none, "b"), ("B", none, "x")]).isSome = true := by decide +kernel
  obtain ⟨o, ho⟩ := Option.isSome_iff_exists.1 hsome
  rw [sampleTwins, ho]
  exact ((Orderly.empty.addHierarchy _ rfl).addHierarchy _ rfl).addMembers? ho

/-- One of its members in braces. -/
def sampleTwin (path : MemberPath) : SetExpr := .braced [.reference (.member path)]

/-- A join of members of both hierarchies, united with a set of nothing, is put on a well-typed axis; of two members of the first
hierarchy only the join is accepted, and no tuple. -/
theorem sampleTwins_wellTyped :
    ∃ axis t, sampleTwins.catalog.resolveAxis (.call .union [.call .crossJoin [sampleTwin ⟨["A", "b"]⟩, sampleTwin ⟨["B", "x"]⟩],
        .braced []]) = .ok axis ∧ axis.tuples? = some t ∧ t.WellTyped ∧
      sampleTwins.catalog.Accepts (.call .crossJoin [sampleTwin ⟨["A", "a"]⟩, sampleTwin ⟨["A", "b"]⟩]) ∧
      ¬sampleTwins.catalog.Accepts (.braced [.tuple [⟨["A", "a"]⟩, ⟨["A", "b"]⟩]]) := by
  have hlookup : ∀ path hierarchy, (sampleTwins.catalog.lookup (MemberPath.text path)).toOption.any
      (fun m => decide (m.hierarchy = hierarchy)) = true →
      ∃ m, sampleTwins.catalog.lookup path.text = .ok m ∧ m.hierarchy = hierarchy := by
    intro path hierarchy h
    obtain ⟨m, hm, hh⟩ := exists_of_any_toOption h
    exact ⟨m, hm, of_decide_eq_true hh⟩
  obtain ⟨a, ha, haA⟩ := hlookup ⟨["A", "a"]⟩ "A" (by decide +kernel)
  obtain ⟨b, hb, hbA⟩ := hlookup ⟨["A", "b"]⟩ "A" (by decide +kernel)
  obtain ⟨x, hx, hxB⟩ := hlookup ⟨["B", "x"]⟩ "B" (by decide +kernel)
  have hjoin : SetExpr.HasShape sampleTwins.catalog (.call .crossJoin [sampleTwin ⟨["A", "b"]⟩, sampleTwin ⟨["B", "x"]⟩])
      (unite [{b.hierarchy}, {x.hierarchy}]) :=
    .crossJoin (.cons (Catalog.hasShape_single hb) (.cons (Catalog.hasShape_single hx) .nil)) (by simp [hbA, hxB])
  have hshape : SetExpr.HasShape sampleTwins.catalog (.call .union
      [.call .crossJoin [sampleTwin ⟨["A", "b"]⟩, sampleTwin ⟨["B", "x"]⟩], .braced []]) _ :=
    .union (.cons hjoin (.cons (Catalog.hasShape_empty _) .nil)) (by simp)
  have hresolves : (sampleTwins.catalog.resolveAxis (.call .union
      [.call .crossJoin [sampleTwin ⟨["A", "b"]⟩, sampleTwin ⟨["B", "x"]⟩], .braced []])).toOption.any (fun _ => true) = true := by
    decide +kernel
  obtain ⟨axis, haxis, -⟩ := exists_of_any_toOption hresolves
  obtain ⟨haxes, hpairs⟩ := orderly_sampleTwins.wellTyped_resolveAxis
  obtain ⟨t, ht, -, -, hwell, -⟩ := haxes _ axis haxis
  obtain ⟨htuple, hcall⟩ := hpairs ⟨["A", "a"]⟩ ⟨["A", "b"]⟩ a b ha hb
  exact ⟨axis, t, haxis, ht, hwell.2 ⟨_, hshape⟩, hcall, fun hin => htuple.1 hin (haA.trans hbA.symm)⟩

/-- The root of an axis is a join of two sets that have a hierarchy in common, or a union of branches of different shapes. -/
def mixesAtRoot (axis : Axis) : Bool :=
  match axis.tuples? with
  | some (.join _ left right) => !decide (left.Apart right)
  | some (.union [.members [m], .members [m']]) => decide (m.hierarchy ≠ m'.hierarchy)
  | _ => false

/-- What is on such an axis is not well typed. -/
theorem not_wellTyped_of_mixesAtRoot {axis : Axis} (h : mixesAtRoot axis = true) :
    ∃ t, axis.tuples? = some t ∧ ¬t.WellTyped := by
  unfold mixesAtRoot at h
  split at h
  · next left right ht =>
    refine ⟨_, ht, fun hwell => ?_⟩
    have hapart := (TupleSet.wellTyped_join_iff.1 hwell).2.2
    simp [hapart] at h
  · next m m' ht =>
    refine ⟨_, ht, fun hwell => of_decide_eq_true h ?_⟩
    have hshape := (TupleSet.wellTyped_union_iff.1 hwell).2 _ List.mem_cons_self _ (List.mem_cons_of_mem _ List.mem_cons_self) rfl rfl
    rw [TupleSet.shape_members, TupleSet.shape_members, hierarchiesOf_singleton, hierarchiesOf_singleton] at hshape
    exact Set.singleton_injective hshape
  · cases h

/-- Neither the operands of a join that is a call nor the branches of a union are checked: members of one hierarchy are joined, the
tuple of which is refused, and members of different hierarchies are united. What is on the axes is not well typed. -/
theorem sampleTwins_not_wellTyped :
    Orderly sampleTwins ∧
      (∃ axis t, sampleTwins.catalog.resolveAxis (.call .crossJoin [sampleTwin ⟨["A", "a"]⟩, sampleTwin ⟨["A", "b"]⟩]) = .ok axis ∧
        axis.tuples? = some t ∧ ¬t.WellTyped) ∧
      ¬sampleTwins.catalog.Accepts (.braced [.tuple [⟨["A", "a"]⟩, ⟨["A", "b"]⟩]]) ∧
      ∃ axis t, sampleTwins.catalog.resolveAxis (.call .union [sampleTwin ⟨["A", "a"]⟩, sampleTwin ⟨["B", "x"]⟩]) = .ok axis ∧
        axis.tuples? = some t ∧ ¬t.WellTyped := by
  have hmixed : ∀ set, (sampleTwins.catalog.resolveAxis set).toOption.any mixesAtRoot = true →
      ∃ axis t, sampleTwins.catalog.resolveAxis set = .ok axis ∧ axis.tuples? = some t ∧ ¬t.WellTyped := by
    intro set h
    obtain ⟨axis, haxis, hmixes⟩ := exists_of_any_toOption h
    obtain ⟨t, ht, hwell⟩ := not_wellTyped_of_mixesAtRoot hmixes
    exact ⟨axis, t, haxis, ht, hwell⟩
  have hrefused : (sampleTwins.catalog.resolveAxis (.braced [.tuple [⟨["A", "a"]⟩, ⟨["A", "b"]⟩]])).toOption = none := by
    decide +kernel
  refine ⟨orderly_sampleTwins, hmixed _ (by decide +kernel), ?_, hmixed _ (by decide +kernel)⟩
  rintro ⟨axis, haxis⟩
  rw [haxis] at hrefused
  cases hrefused

end Outline

end CubeAxes
