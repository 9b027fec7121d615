import CubeAxes.Resolution
import CubeAxes.Proofs.Arena.Operands
import CubeAxes.Proofs.Axis.Visible

/-!
# Sets that stand for tuples of an outline

A property of sets that every step of resolution keeps holds of whatever a set expression resolves to (`Catalog.Closed.resolve`). One such
property is soundness. A set is sound in an outline when it is put together as resolution puts sets together: the members in braces are held,
of one hierarchy and distinct, no side of a join that is a call is without tuples, and a tuple holds one member of each of several
hierarchies. What a set expression resolves to is sound (`Outline.Consistent.sound_of_resolve`), whatever names it used.
-/

namespace CubeAxes

/-- Members none of which differs from the first in its hierarchy are all of that hierarchy. -/
theorem exists_hierarchy_of_mixture? {ms : List Member} (h : mixture? ms = none) :
    ∃ hierarchy, ∀ m ∈ ms, m.hierarchy = hierarchy := by
  cases ms with
  | nil => exact ⟨"", fun m hm => absurd hm List.not_mem_nil⟩
  | cons m ms =>
    refine ⟨m.hierarchy, fun n hn => ?_⟩
    rcases List.mem_cons.1 hn with rfl | hn
    · rfl
    · have hnone := List.find?_eq_none.1 (Option.map_eq_none_iff.1 h) n hn
      simpa using hnone

namespace Catalog

variable {cat : Catalog} {P : TupleSet → Prop}

/-- A property of sets that every step of resolution keeps. -/
structure Closed (cat : Catalog) (P : TupleSet → Prop) : Prop where
  reference {r : Reference} {ms : List Member} : cat.referenced r = .ok ms → P (.members ms)
  members {rs : List Reference} {t : TupleSet} : cat.resolveMembers rs = .ok t → P t
  tuple {paths : List MemberPath} {t : TupleSet} : cat.resolveTuple paths = .ok t → P t
  join {ts : List TupleSet} {t : TupleSet} :
    TupleSet.chain .call ts = some t → (∀ u ∈ ts, P u ∧ u.selectsNothing = false) → P t
  union {ts : List TupleSet} : (∀ u ∈ ts, P u) → P (.union ts)

/-- Tuples in braces resolve to a set that has it. -/
theorem Closed.resolveTuples (h : cat.Closed P) {tuples : List (List MemberPath)} {t : TupleSet}
    (ht : cat.resolveTuples tuples = .ok t) : P t := by
  obtain ⟨ts, hts, ht⟩ := bind_eq_ok ht
  have hall : ∀ u ∈ ts, P u := by
    intro u hu
    obtain ⟨paths, -, hpaths⟩ := forall_of_mapM_eq_ok hts u hu
    exact h.tuple hpaths
  split at ht
  · obtain rfl := Except.ok.inj ht
    exact hall _ List.mem_cons_self
  · obtain rfl := Except.ok.inj ht
    exact h.union hall

/-- A set in braces resolves to a set that has it. -/
theorem Closed.resolveBraced (h : cat.Closed P) {elements : List SetElement} {t : TupleSet}
    (ht : cat.resolveBraced elements = .ok t) : P t := by
  unfold Catalog.resolveBraced at ht
  simp only at ht
  split at ht
  · exact h.members ht
  · split at ht
    · exact h.resolveTuples ht
    · nomatch ht

mutual

/-- What a set expression resolves to has a property that every step keeps. -/
theorem Closed.resolve (h : cat.Closed P) : (e : SetExpr) → {t : TupleSet} → cat.resolve e = .ok t → P t
  | .reference r, t, ht => by
    rw [Catalog.resolve] at ht
    obtain ⟨ms, hms, ht⟩ := bind_eq_ok ht
    obtain rfl := Except.ok.inj ht
    exact h.reference hms
  | .braced elements, t, ht => by
    rw [Catalog.resolve] at ht
    exact h.resolveBraced ht
  | .call .hierarchize args, t, ht => by
    rw [Catalog.resolve] at ht
    exact h.resolveOnly args ht
  | .call .crossJoin args, t, ht => by
    rw [Catalog.resolve] at ht
    obtain ⟨ts, hts, ht⟩ := bind_eq_ok ht
    split at ht
    · next t' hchain =>
      obtain rfl := Except.ok.inj ht
      exact h.join hchain (h.resolveOperands args hts)
    · nomatch ht
  | .call .union args, t, ht => by
    rw [Catalog.resolve] at ht
    obtain ⟨ts, hts, ht⟩ := bind_eq_ok ht
    obtain rfl := Except.ok.inj ht
    exact h.union (h.resolveAll args hts)

/-- The only set of a call resolves to a set that has it. -/
theorem Closed.resolveOnly (h : cat.Closed P) : (args : List SetExpr) → {t : TupleSet} → cat.resolveOnly args = .ok t → P t
  | [], t, ht => by
    rw [Catalog.resolveOnly] at ht
    · nomatch ht
    · exact fun _ e => nomatch e
  | [arg], t, ht => by
    rw [Catalog.resolveOnly] at ht
    exact h.resolve arg ht
  | arg :: arg' :: args, t, ht => by
    rw [Catalog.resolveOnly] at ht
    · nomatch ht
    · exact fun _ e => nomatch e

/-- The operands of a join resolve to sets that have it and that have tuples. -/
theorem Closed.resolveOperands (h : cat.Closed P) : (args : List SetExpr) → {position : Nat} → {ts : List TupleSet} →
    cat.resolveOperands position args = .ok ts → ∀ u ∈ ts, P u ∧ u.selectsNothing = false
  | [], position, ts, hts => by
    rw [Catalog.resolveOperands] at hts
    obtain rfl := Except.ok.inj hts
    exact fun u hu => absurd hu List.not_mem_nil
  | arg :: args, position, ts, hts => by
    rw [Catalog.resolveOperands] at hts
    obtain ⟨t, ht, hts⟩ := bind_eq_ok hts
    split at hts
    · nomatch hts
    · next hsome =>
      obtain ⟨us, hus, hts⟩ := bind_eq_ok hts
      obtain rfl := Except.ok.inj hts
      exact List.forall_mem_cons.2 ⟨⟨h.resolve arg ht, Bool.eq_false_iff.2 hsome⟩, h.resolveOperands args hus⟩

/-- The branches of a union resolve to sets that have it. -/
theorem Closed.resolveAll (h : cat.Closed P) : (args : List SetExpr) → {ts : List TupleSet} →
    cat.resolveAll args = .ok ts → ∀ u ∈ ts, P u
  | [], ts, hts => by
    rw [Catalog.resolveAll] at hts
    obtain rfl := Except.ok.inj hts
    exact fun u hu => absurd hu List.not_mem_nil
  | arg :: args, ts, hts => by
    rw [Catalog.resolveAll] at hts
    obtain ⟨t, ht, hts⟩ := bind_eq_ok hts
    obtain ⟨us, hus, hts⟩ := bind_eq_ok hts
    obtain rfl := Except.ok.inj hts
    exact List.forall_mem_cons.2 ⟨h.resolve arg ht, h.resolveAll args hus⟩

end

end Catalog

namespace TupleSet

/-- A tuple of single members holds these members. -/
theorem flatten_memberSets_of_singles {form : JoinForm} {ms : List Member} {t : TupleSet}
    (h : chain form (ms.map fun m => .members [m]) = some t) : t.memberSets.flatten = ms := by
  have hsets : (ms.map fun m => TupleSet.members [m]).flatMap memberSets = ms.map fun m => [m] := by
    rw [List.flatMap_map, List.map_eq_flatMap]
    rfl
  rw [memberSets_chain h, hsets, ← List.flatMap_def]
  exact List.flatMap_singleton' ms

/-- A tuple of single members selects something. -/
theorem selectsNothing_of_singles {form : JoinForm} {ms : List Member} {t : TupleSet}
    (h : chain form (ms.map fun m => .members [m]) = some t) : t.selectsNothing = false :=
  (selectsNothing_chain_iff h).2 (List.forall_mem_map.2 fun _ _ => rfl)

end TupleSet

namespace Outline

/-- The sets that stand for tuples of an outline. -/
inductive Sound (o : Outline) : TupleSet → Prop
  | members {hierarchy : String} {ms : List Member} :
      o.HoldsAll hierarchy ms → (ms.map (·.uniqueName)).Nodup → Sound o (.members ms)
  | join {left right : TupleSet} :
      Sound o left → Sound o right → left.selectsNothing = false → right.selectsNothing = false →
      Sound o (.join .call left right)
  | tuple {ms : List Member} {t : TupleSet} :
      (∀ m ∈ ms, o.Holds m) → (ms.map (·.hierarchy)).Nodup →
      TupleSet.chain .tuple (ms.map fun m => .members [m]) = some t → Sound o t
  | union {branches : List TupleSet} : (∀ t ∈ branches, Sound o t) → Sound o (.union branches)

variable {o : Outline}

/-- A sound set holds members of the outline only. -/
theorem Sound.holds {t : TupleSet} (h : o.Sound t) : ∀ m ∈ t.memberSets.flatten, o.Holds m := by
  induction h with
  | members hms _ =>
    rw [TupleSet.memberSets, List.flatten_singleton]
    exact fun m hm => (hms m hm).1
  | join _ _ _ _ ihl ihr =>
    rw [TupleSet.memberSets, List.flatten_append]
    intro m hm
    rcases List.mem_append.1 hm with hm | hm
    · exact ihl m hm
    · exact ihr m hm
  | tuple hms _ ht =>
    rw [TupleSet.flatten_memberSets_of_singles ht]
    exact hms
  | union _ ih =>
    rw [TupleSet.memberSets, TupleSet.memberSetsAll_eq]
    intro m hm
    obtain ⟨ms, hms, hm⟩ := List.mem_flatten.1 hm
    obtain ⟨t, ht, hms⟩ := List.mem_flatMap.1 hms
    exact ih t ht m (List.mem_flatten.2 ⟨ms, hms, hm⟩)

/-- A sound set is filled. -/
theorem Sound.filled {t : TupleSet} (h : o.Sound t) : t.Filled := by
  induction h with
  | members _ _ => exact .members _
  | join _ _ hleft hright ihl ihr => exact .join ihl ihr hleft hright
  | tuple _ _ ht => exact TupleSet.filled_of_singles ht
  | union _ ih => exact .union ih

/-- A sound set has tuples when it has members. -/
theorem Sound.selectsNothing_iff {t : TupleSet} (h : o.Sound t) : t.selectsNothing = false ↔ t.memberSets.flatten ≠ [] :=
  h.filled.selectsNothing_iff

/-- Sound sets that have tuples are joined to a sound set. -/
theorem Sound.chain {ts : List TupleSet} {t : TupleSet} (h : TupleSet.chain .call ts = some t)
    (hts : ∀ u ∈ ts, o.Sound u ∧ u.selectsNothing = false) : o.Sound t := by
  induction ts generalizing t with
  | nil => nomatch h
  | cons u us ih =>
    obtain ⟨hu, hsome⟩ := hts u List.mem_cons_self
    have hus : ∀ w ∈ us, o.Sound w ∧ w.selectsNothing = false := fun w hw => hts w (List.mem_cons_of_mem u hw)
    cases us with
    | nil =>
      obtain rfl := Option.some.inj h
      exact hu
    | cons v vs =>
      obtain ⟨t', ht', rfl⟩ := Option.map_eq_some_iff.1 h
      exact .join hu (ih ht' hus) hsome ((TupleSet.selectsNothing_chain_iff ht').2 fun w hw => (hus w hw).2)

/-! ## Looking members up -/

/-- A member that is looked up is held. -/
theorem Consistent.holds_of_lookup (hc : Consistent o) {name : String} {m : Member} (h : o.catalog.lookup name = .ok m) :
    o.Holds m := by
  obtain ⟨u, hu⟩ := exists_member?_of_lookup h
  exact hc.holds hu

/-- A reference names members of one hierarchy, each once. -/
theorem Consistent.spec_of_referenced (hc : Consistent o) {r : Reference} {ms : List Member}
    (h : o.catalog.referenced r = .ok ms) : (∃ hierarchy, o.HoldsAll hierarchy ms) ∧ (ms.map (·.uniqueName)).Nodup := by
  cases r with
  | member p =>
    obtain ⟨m, hm, h⟩ := bind_eq_ok h
    obtain rfl := Except.ok.inj h
    refine ⟨⟨m.hierarchy, fun n hn => ?_⟩, List.nodup_singleton _⟩
    obtain rfl := List.mem_singleton.1 hn
    exact ⟨hc.holds_of_lookup hm, rfl⟩
  | children p =>
    obtain ⟨parent, -, h⟩ := bind_eq_ok h
    obtain ⟨levels, hlevels, h⟩ := bind_eq_ok h
    cases hl : levels[parent.depth + 1]? with
    | none =>
      rw [hl] at h
      obtain rfl := Except.ok.inj h
      exact ⟨⟨parent.hierarchy, fun m hm => absurd hm List.not_mem_nil⟩, List.nodup_nil⟩
    | some l =>
      rw [hl] at h
      obtain ⟨hlevel, -, -⟩ := spec_of_getElem?_levelsOf (of_asked_eq_ok hlevels) hl
      obtain ⟨t, ht⟩ := hlevel.hasTable
      simp only [membersOf_some ht, asked_ok] at h
      obtain rfl := Except.ok.inj h
      have hheld : o.HoldsAll l.hierarchy ((o.rows l.hierarchy l.depth).filter fun m => o.isBelow m parent.uniqueName) :=
        fun m hm => hc.holdsAll_rows l.hierarchy l.depth m (List.mem_filter.1 hm).1
      exact ⟨⟨l.hierarchy, hheld⟩, nodup_map_uniqueName (fun m hm => (hheld m hm).1) ((hc.nodup_rows _ _).filter _)⟩

/-- The members of a tuple are held, and no two are of one hierarchy, nor is one of a hierarchy that was used. -/
theorem Consistent.spec_of_tupleMembers (hc : Consistent o) {used : List String} {paths : List MemberPath} {ms : List Member}
    (h : o.catalog.tupleMembers used paths = .ok ms) :
    (∀ m ∈ ms, o.Holds m ∧ m.hierarchy ∉ used) ∧ (ms.map (·.hierarchy)).Nodup := by
  induction paths generalizing used ms with
  | nil =>
    obtain rfl := Except.ok.inj h
    exact ⟨fun m hm => absurd hm List.not_mem_nil, List.nodup_nil⟩
  | cons p ps ih =>
    obtain ⟨m, hm, h⟩ := bind_eq_ok h
    split at h
    · nomatch h
    · next hused =>
      obtain ⟨ms', hms', h⟩ := bind_eq_ok h
      obtain rfl := Except.ok.inj h
      obtain ⟨hheld, hnodup⟩ := ih hms'
      constructor
      · intro n hn
        rcases List.mem_cons.1 hn with rfl | hn
        · exact ⟨hc.holds_of_lookup hm, hused⟩
        · exact ⟨(hheld n hn).1, fun hin => (hheld n hn).2 (List.mem_cons_of_mem _ hin)⟩
      · rw [List.map_cons, List.nodup_cons]
        refine ⟨fun hin => ?_, hnodup⟩
        obtain ⟨n, hn, he⟩ := List.mem_map.1 hin
        exact (hheld n hn).2 (he ▸ List.mem_cons_self)

/-! ## Resolving -/

/-- A tuple resolves to a sound set. -/
theorem Consistent.sound_of_resolveTuple (hc : Consistent o) {paths : List MemberPath} {t : TupleSet}
    (h : o.catalog.resolveTuple paths = .ok t) : o.Sound t := by
  obtain ⟨ms, hms, h⟩ := bind_eq_ok h
  obtain ⟨hheld, hnodup⟩ := hc.spec_of_tupleMembers hms
  split at h
  · next t' ht =>
    obtain rfl := Except.ok.inj h
    exact .tuple (fun m hm => (hheld m hm).1) hnodup ht
  · cases h

/-- Members in braces resolve to a sound set. -/
theorem Consistent.sound_of_resolveMembers (hc : Consistent o) {rs : List Reference} {t : TupleSet}
    (h : o.catalog.resolveMembers rs = .ok t) : o.Sound t := by
  obtain ⟨mss, hmss, h⟩ := bind_eq_ok h
  simp only at h
  split at h
  · nomatch h
  · next hmix =>
    obtain rfl := Except.ok.inj h
    obtain ⟨hierarchy, hh⟩ := exists_hierarchy_of_mixture? hmix
    have hheld : o.HoldsAll hierarchy (distinctMembers mss.flatten) := by
      intro m hm
      obtain ⟨ms, hms, hmem⟩ := List.mem_flatten.1 (mem_of_mem_distinctOn hm)
      obtain ⟨r, -, hr⟩ := forall_of_mapM_eq_ok hmss ms hms
      obtain ⟨⟨_, hall⟩, -⟩ := hc.spec_of_referenced hr
      exact ⟨(hall m hmem).1, hh m hm⟩
    exact .members hheld (nodup_map_distinctOn _ _)

/-- Resolution puts sound sets together from sound sets. -/
theorem Consistent.closed_sound (hc : Consistent o) : o.catalog.Closed o.Sound where
  reference h := by
    obtain ⟨⟨_, hheld⟩, hnodup⟩ := hc.spec_of_referenced h
    exact .members hheld hnodup
  members := hc.sound_of_resolveMembers
  tuple := hc.sound_of_resolveTuple
  join := Sound.chain
  union := .union

/-- What a set expression resolves to is sound. -/
theorem Consistent.sound_of_resolve (hc : Consistent o) (e : SetExpr) {t : TupleSet} (h : o.catalog.resolve e = .ok t) : o.Sound t :=
  hc.closed_sound.resolve e h

end Outline

end CubeAxes
