import Mathlib.Logic.Function.Basic
import CubeAxes.TupleSet

/-!
# The tuples of a set

A tuple assigns members to some hierarchies. A set of members has a tuple for each of them, a join puts every tuple of its left side
together with every one of its right side, and a union has the tuples of all its branches. A product is a set without unions in which
each hierarchy stands in one place only; its tuples, if it selects something, are all the ways to pick one member of each hierarchy
in it (`TupleSet.Product.denotes_iff`).
-/

namespace CubeAxes

/-- A tuple: a member for each of some hierarchies. -/
abbrev Tuple := String → Option Member

namespace Tuple

/-- The tuple of one member. -/
def single (m : Member) : Tuple := Function.update (fun _ => none) m.hierarchy (some m)

/-- Two tuples put together; of a hierarchy to which both assign a member, that of the first is kept. -/
def join (s s' : Tuple) : Tuple := fun hierarchy => (s hierarchy).or (s' hierarchy)

/-- A tuple has the members of another, and maybe more. -/
def Extends (s' s : Tuple) : Prop := ∀ hierarchy m, s hierarchy = some m → s' hierarchy = some m

/-- The members of a tuple are among some members, each assigned to its hierarchy. -/
def Among (s : Tuple) (ms : List Member) : Prop := ∀ hierarchy m, s hierarchy = some m → m ∈ ms ∧ m.hierarchy = hierarchy

/-- A tuple picks one of some members for each hierarchy that they have. -/
structure Picks (s : Tuple) (ms : List Member) : Prop where
  among : s.Among ms
  isSome : ∀ m ∈ ms, (s m.hierarchy).isSome

/-- What a tuple of one member assigns. -/
theorem single_eq_some {m n : Member} {hierarchy : String} : single m hierarchy = some n ↔ n = m ∧ m.hierarchy = hierarchy := by
  by_cases he : hierarchy = m.hierarchy
  · subst he
    simp [single, eq_comm]
  · simp [single, he, Ne.symm he]

/-- Picking from members of one hierarchy is picking one of them. -/
theorem picks_iff_single {hierarchy : String} {ms : List Member} (hms : ∀ m ∈ ms, m.hierarchy = hierarchy) (hne : ms ≠ [])
    (s : Tuple) : s.Picks ms ↔ ∃ m ∈ ms, s = single m := by
  constructor
  · intro hs
    obtain ⟨n, hn⟩ := List.exists_mem_of_ne_nil ms hne
    obtain ⟨m, hm⟩ := Option.isSome_iff_exists.1 (hs.isSome n hn)
    obtain ⟨hmem, hmn⟩ := hs.among n.hierarchy m hm
    refine ⟨m, hmem, funext fun other => Option.ext fun k => ?_⟩
    rw [single_eq_some]
    constructor
    · intro hk
      obtain ⟨hkmem, hkh⟩ := hs.among other k hk
      have hother : n.hierarchy = other := (hms n hn).trans ((hms k hkmem).symm.trans hkh)
      rw [← hother, hm] at hk
      exact ⟨(Option.some.inj hk).symm, hmn.trans hother⟩
    · rintro ⟨rfl, rfl⟩
      rwa [hmn]
  · rintro ⟨m, hm, rfl⟩
    refine ⟨fun other n hn => ?_, fun n hn => ?_⟩
    · obtain ⟨rfl, hh⟩ := single_eq_some.1 hn
      exact ⟨hm, hh⟩
    · exact Option.isSome_of_mem (single_eq_some.2 ⟨rfl, (hms m hm).trans (hms n hn).symm⟩)

/-- Picking from members of different hierarchies is picking from each part. -/
theorem picks_append_iff {ms ns : List Member} (hne : ∀ m ∈ ms, ∀ n ∈ ns, m.hierarchy ≠ n.hierarchy) (s : Tuple) :
    s.Picks (ms ++ ns) ↔ ∃ left right : Tuple, left.Picks ms ∧ right.Picks ns ∧ s = left.join right := by
  constructor
  · intro hs
    -- each side is what the tuple has of the members of that side
    have hpart : ∀ part ⊆ ms ++ ns, (∀ m ∈ part, ∀ n ∈ ms ++ ns, m.hierarchy = n.hierarchy → n ∈ part) →
        Picks (fun hierarchy => (s hierarchy).filter fun m => decide (m ∈ part)) part := by
      intro part hsub hclosed
      refine ⟨fun hierarchy m hm => ?_, fun m hm => ?_⟩
      · obtain ⟨hm, hpart⟩ := Option.filter_eq_some_iff.1 hm
        exact ⟨of_decide_eq_true hpart, (hs.among hierarchy m hm).2⟩
      · obtain ⟨n, hn⟩ := Option.isSome_iff_exists.1 (hs.isSome m (hsub hm))
        obtain ⟨hmem, hmn⟩ := hs.among m.hierarchy n hn
        exact Option.isSome_of_mem (Option.filter_eq_some_iff.2 ⟨hn, decide_eq_true (hclosed m hm n hmem hmn.symm)⟩)
    refine ⟨_, _, hpart ms (List.subset_append_left ms ns) ?_, hpart ns (List.subset_append_right ms ns) ?_, ?_⟩
    · intro m hm n hn he
      exact (List.mem_append.1 hn).resolve_right fun hn => hne m hm n hn he
    · intro m hm n hn he
      exact (List.mem_append.1 hn).resolve_left fun hn => hne n hn m hm he.symm
    · funext hierarchy
      cases hm : s hierarchy with
      | none => simp [join, hm]
      | some m =>
        have hmem := (hs.among hierarchy m hm).1
        by_cases hleft : m ∈ ms
        · simp [join, hm, Option.filter_some, hleft]
        · simp [join, hm, Option.filter_some, hleft, (List.mem_append.1 hmem).resolve_left hleft]
  · rintro ⟨left, right, hleft, hright, rfl⟩
    refine ⟨fun hierarchy m hm => ?_, fun m hm => ?_⟩
    · rcases Option.or_eq_some_iff.1 hm with hm | ⟨-, hm⟩
      · exact ⟨List.mem_append_left ns (hleft.among hierarchy m hm).1, (hleft.among hierarchy m hm).2⟩
      · exact ⟨List.mem_append_right ms (hright.among hierarchy m hm).1, (hright.among hierarchy m hm).2⟩
    · rw [join, Option.isSome_or, Bool.or_eq_true]
      exact (List.mem_append.1 hm).imp (hleft.isSome m) (hright.isSome m)

/-- A tuple of some members can be extended to one that picks from them. -/
theorem Among.exists_picks {s : Tuple} {ms : List Member} (h : s.Among ms) : ∃ s' : Tuple, s'.Picks ms ∧ s'.Extends s := by
  refine ⟨s.join fun hierarchy => ms.find? fun m => decide (m.hierarchy = hierarchy), ⟨fun hierarchy m hm => ?_, fun m hm => ?_⟩,
    fun hierarchy m hm => ?_⟩
  · rcases Option.or_eq_some_iff.1 hm with hm | ⟨-, hm⟩
    · exact h hierarchy m hm
    · exact ⟨List.mem_of_find?_eq_some hm, by simpa using List.find?_some hm⟩
  · rw [join, Option.isSome_or, Bool.or_eq_true]
    exact Or.inr (List.find?_isSome.2 ⟨m, hm, decide_eq_true rfl⟩)
  · rw [join, hm, Option.some_or]

/-- Assigning one of some members to its hierarchy keeps a tuple among them. -/
theorem Among.update {s : Tuple} {ms : List Member} (h : s.Among ms) {m : Member} (hm : m ∈ ms) :
    Among (Function.update s m.hierarchy (some m)) ms := by
  intro hierarchy n hn
  by_cases he : hierarchy = m.hierarchy
  · subst he
    rw [Function.update_self] at hn
    obtain rfl := Option.some.inj hn
    exact ⟨hm, rfl⟩
  · rw [Function.update_of_ne he] at hn
    exact h hierarchy n hn

/-- When members of one hierarchy are added, and there is one of it then, the tuples that pick are those that picked before, each with
any member of the hierarchy in its place. -/
theorem picks_iff_update {ms ms' : List Member} {hierarchy : String} (hsub : ms ⊆ ms')
    (hother : ∀ m ∈ ms', m.hierarchy ≠ hierarchy → m ∈ ms) (s' : Tuple) :
    ((∃ m ∈ ms', m.hierarchy = hierarchy) ∧ s'.Picks ms') ↔
      ∃ s m, Picks s ms ∧ m ∈ ms' ∧ m.hierarchy = hierarchy ∧ s' = Function.update s hierarchy (some m) := by
  constructor
  · rintro ⟨⟨n, hn, rfl⟩, hs⟩
    obtain ⟨m, hm⟩ := Option.isSome_iff_exists.1 (hs.isSome n hn)
    obtain ⟨hmem, hmh⟩ := hs.among n.hierarchy m hm
    -- before, the tuple had any member of the hierarchy there was
    refine ⟨Function.update s' n.hierarchy (ms.find? fun k => decide (k.hierarchy = n.hierarchy)), m, ⟨?_, ?_⟩, hmem, hmh, ?_⟩
    · intro other k hk
      by_cases he : other = n.hierarchy
      · subst he
        rw [Function.update_self] at hk
        exact ⟨List.mem_of_find?_eq_some hk, by simpa using List.find?_some hk⟩
      · rw [Function.update_of_ne he] at hk
        obtain ⟨hkmem, hkh⟩ := hs.among other k hk
        exact ⟨hother k hkmem (hkh ▸ he), hkh⟩
    · intro k hk
      by_cases he : k.hierarchy = n.hierarchy
      · rw [he, Function.update_self]
        exact List.find?_isSome.2 ⟨k, hk, decide_eq_true he⟩
      · rw [Function.update_of_ne he]
        exact hs.isSome k (hsub hk)
    · rw [Function.update_idem, ← hm, Function.update_eq_self]
  · rintro ⟨s, m, hs, hm, rfl, rfl⟩
    refine ⟨⟨m, hm, rfl⟩, Among.update (fun n k hk => ⟨hsub (hs.among n k hk).1, (hs.among n k hk).2⟩) hm, fun n hn => ?_⟩
    by_cases he : n.hierarchy = m.hierarchy
    · rw [he, Function.update_self]
      rfl
    · rw [Function.update_of_ne he]
      exact hs.isSome n (hother n hn he)

end Tuple

namespace TupleSet

/-- The tuples of a set. -/
inductive Denotes : TupleSet → Tuple → Prop
  | members {ms : List Member} {m : Member} : m ∈ ms → Denotes (.members ms) (.single m)
  | join {form : JoinForm} {left right : TupleSet} {s s' : Tuple} :
      Denotes left s → Denotes right s' → Denotes (.join form left right) (s.join s')
  | union {branches : List TupleSet} {t : TupleSet} {s : Tuple} : t ∈ branches → Denotes t s → Denotes (.union branches) s

/-- There is no union in a set. -/
inductive UnionFree : TupleSet → Prop
  | members (ms : List Member) : UnionFree (.members ms)
  | join {form : JoinForm} {left right : TupleSet} : UnionFree left → UnionFree right → UnionFree (.join form left right)

/-- Two sets have no members of one hierarchy. -/
def Apart (left right : TupleSet) : Prop :=
  ∀ m ∈ left.memberSets.flatten, ∀ n ∈ right.memberSets.flatten, m.hierarchy ≠ n.hierarchy

instance (left right : TupleSet) : Decidable (left.Apart right) :=
  inferInstanceAs (Decidable (∀ m ∈ left.memberSets.flatten, ∀ n ∈ right.memberSets.flatten, m.hierarchy ≠ n.hierarchy))

/-- In a set no hierarchy stands on both sides of a join. -/
inductive Separated : TupleSet → Prop
  | members (ms : List Member) : Separated (.members ms)
  | join {form : JoinForm} {left right : TupleSet} :
      Separated left → Separated right → left.Apart right → Separated (.join form left right)
  | union {branches : List TupleSet} : (∀ t ∈ branches, Separated t) → Separated (.union branches)

/-- The sets without unions in which each hierarchy stands in one place only. -/
inductive Product : TupleSet → Prop
  | members {hierarchy : String} {ms : List Member} : (∀ m ∈ ms, m.hierarchy = hierarchy) → Product (.members ms)
  | join {form : JoinForm} {left right : TupleSet} :
      Product left → Product right → left.Apart right → Product (.join form left right)

/-- The members of the tuples of a set are those in it. -/
theorem Denotes.among {t : TupleSet} {s : Tuple} (h : t.Denotes s) : s.Among t.memberSets.flatten := by
  induction h with
  | members hm =>
    intro hierarchy n hn
    obtain ⟨rfl, hh⟩ := Tuple.single_eq_some.1 hn
    exact ⟨by simpa [memberSets] using hm, hh⟩
  | join _ _ ihl ihr =>
    intro hierarchy m hm
    rw [memberSets, List.flatten_append, List.mem_append]
    rcases Option.or_eq_some_iff.1 hm with hm | ⟨-, hm⟩
    · exact ⟨Or.inl (ihl hierarchy m hm).1, (ihl hierarchy m hm).2⟩
    · exact ⟨Or.inr (ihr hierarchy m hm).1, (ihr hierarchy m hm).2⟩
  | union ht _ ih =>
    intro hierarchy m hm
    obtain ⟨hmem, hh⟩ := ih hierarchy m hm
    obtain ⟨ms, hms, hmem⟩ := List.mem_flatten.1 hmem
    rw [memberSets, memberSetsAll_eq]
    exact ⟨List.mem_flatten.2 ⟨ms, List.mem_flatMap.2 ⟨_, ht, hms⟩, hmem⟩, hh⟩

/-- The tuples of a product that selects something are the ways to pick from its members; one that selects nothing has none. -/
theorem Product.denotes_iff {t : TupleSet} (h : t.Product) (s : Tuple) :
    t.Denotes s ↔ t.selectsNothing = false ∧ s.Picks t.memberSets.flatten := by
  induction h generalizing s with
  | @members hierarchy ms hms =>
    rw [selectsNothing, memberSets, List.flatten_singleton, List.isEmpty_eq_false_iff]
    constructor
    · rintro ⟨hm⟩
      have hne := List.ne_nil_of_mem hm
      exact ⟨hne, (Tuple.picks_iff_single hms hne _).2 ⟨_, hm, rfl⟩⟩
    · rintro ⟨hne, hs⟩
      obtain ⟨m, hm, rfl⟩ := (Tuple.picks_iff_single hms hne s).1 hs
      exact .members hm
  | join _ _ hapart ihl ihr =>
    rw [selectsNothing, Bool.or_eq_false_iff, memberSets, List.flatten_append, Tuple.picks_append_iff hapart]
    constructor
    · rintro (_ | ⟨hl, hr⟩)
      obtain ⟨hleft, hpl⟩ := (ihl _).1 hl
      obtain ⟨hright, hpr⟩ := (ihr _).1 hr
      exact ⟨⟨hleft, hright⟩, _, _, hpl, hpr, rfl⟩
    · rintro ⟨⟨hleft, hright⟩, sl, sr, hpl, hpr, rfl⟩
      exact .join ((ihl sl).2 ⟨hleft, hpl⟩) ((ihr sr).2 ⟨hright, hpr⟩)

end TupleSet

end CubeAxes
