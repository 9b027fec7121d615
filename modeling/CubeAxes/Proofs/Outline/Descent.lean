import Mathlib.Data.List.Nodup
import CubeAxes.Proofs.Outline.Ancestors
import CubeAxes.Proofs.Token.Spacing

/-!
# Descent

A member descends from another when the catalog gives it below that one, when climbing from it comes to that one, and when the names of
that one start its own. The names of a member are what its unique name reads as (`Member.segments`): in an orderly outline they are the
name of the hierarchy and those of the members from the top down to the member (`Outline.Orderly.segments_top`,
`Outline.Orderly.segments_below`), so the names of an ancestor are the first of them (`Outline.Orderly.segments_ancestor`). The three
agree, and by descent the members at a depth divide those of every deeper one (`Outline.Orderly.descendants_agree`).
-/

namespace CubeAxes

/-! ## The names of a member -/

/-- The names of the path that the unique name of a member reads as. -/
def Member.segments (m : Member) : List String :=
  match SetExpr.ofText m.uniqueName with
  | .ok (.reference (.member p)) => p.segments
  | _ => []

/-- A member whose unique name is the text of a path has the names of the path. -/
theorem Member.segments_eq_of_text {m : Member} {segments : List String} (hne : segments ≠ [])
    (h : MemberPath.text ⟨segments⟩ = m.uniqueName) : m.segments = segments := by
  rw [Member.segments, ← h, MemberPath.ofText_text hne]

namespace Outline

variable {o : Outline}

/-- Where a member stands does not change when another one is added. -/
theorem Adds.placed {o' : Outline} {m n : Member} (h : o.Adds m o') (hn : o.Placed n) : o'.Placed n := by
  rcases hn with htop | ⟨p, pm, hpar, hp, hrest⟩
  · exact Or.inl htop
  · have hne : m.uniqueName ≠ p := by
      rintro rfl
      rw [h.new] at hp
      nomatch hp
    refine Or.inr ⟨p, pm, hpar, ?_, hrest⟩
    rw [h.member, if_neg hne, hp]

/-- Every member of an orderly outline stands where it was added. -/
theorem Orderly.placed (ho : Orderly o) {m : Member} (hm : o.Holds m) : o.Placed m := by
  induction ho with
  | empty => simp [Holds, member?] at hm
  | addHierarchy _ _ _ ih => exact ih hm
  | @setLevelVisible o o' _ _ _ _ hs ih =>
    have hq : ∀ u, o'.member? u = o.member? u := fun u => by rw [member?, member?, (views_setLevelVisible hs).1]
    simp only [Holds, Placed, hq] at hm ih ⊢
    exact ih hm
  | addMember _ ha hu _ ih =>
    obtain ⟨n, hadds, hplaced, -⟩ := exists_adds ha hu
    rcases hadds.eq_or_holds hm with rfl | hold
    · exact hadds.placed hplaced
    · exact hadds.placed (ih hold)

/-- The names of a member that is held are those of a path, whose text is the unique name. -/
theorem Consistent.segments_spec (hc : Consistent o) {m : Member} (hm : o.Holds m) :
    m.segments ≠ [] ∧ MemberPath.text ⟨m.segments⟩ = m.uniqueName := by
  obtain ⟨p, hne, ht⟩ := hc.path m hm
  rw [Member.segments_eq_of_text hne ht]
  exact ⟨hne, ht⟩

/-- Members that are held are told apart by their names. -/
theorem Consistent.eq_of_segments (hc : Consistent o) {m n : Member} (hm : o.Holds m) (hn : o.Holds n)
    (h : m.segments = n.segments) : m = n := by
  refine hm.eq_of_uniqueName hn ?_
  rw [← (hc.segments_spec hm).2, h, (hc.segments_spec hn).2]

/-- At the top the names of a member are those of its hierarchy and its own. -/
theorem Orderly.segments_top (ho : Orderly o) {m : Member} (hm : o.Holds m) (hpar : m.parent = none) :
    m.segments = [m.hierarchy, m.name] := by
  rcases ho.placed hm with ⟨-, -, hu⟩ | ⟨p, -, hp, -⟩
  · exact Member.segments_eq_of_text (List.cons_ne_nil _ _) hu.symm
  · rw [hpar] at hp
    nomatch hp

/-- Below the top the names of a member are those of its parent and its own. -/
theorem Orderly.segments_below (ho : Orderly o) {p m : Member} (hp : o.Holds p) (hm : o.Holds m)
    (hpar : m.parent = some p.uniqueName) : m.segments = p.segments ++ [m.name] := by
  obtain ⟨hne, ht⟩ := ho.consistent.segments_spec hp
  rcases ho.placed hm with ⟨htop, -⟩ | ⟨u, -, hu, -, -, hname⟩
  · rw [hpar] at htop
    nomatch htop
  · obtain rfl : p.uniqueName = u := Option.some.inj (hpar.symm.trans hu)
    refine Member.segments_eq_of_text (by simp) ?_
    rw [text_snoc hne, ht, hname]

/-- A member has two names more than its depth: that of its hierarchy, and one for each depth from the top down to its own. -/
theorem Orderly.length_segments (ho : Orderly o) {m : Member} (hm : o.Holds m) : m.segments.length = m.depth + 2 := by
  induction m, hm using ho.consistent.induction with
  | top m hm hpar hz =>
    rw [ho.segments_top hm hpar, hz]
    rfl
  | below p m hp hm hpar _ hdepth ih =>
    rw [ho.segments_below hp hm hpar, List.length_append, ih, hdepth]
    rfl

/-- The names of an ancestor are the first of a member's. -/
theorem Orderly.segments_ancestor (ho : Orderly o) {m : Member} (hm : o.Holds m) {d : Nat} (hd : d ≤ m.depth) :
    (o.ancestor m d).segments = m.segments.take (d + 2) := by
  induction m, hm using ho.consistent.induction with
  | top m hm _ hz =>
    obtain rfl : d = m.depth := by omega
    rw [ancestor_self, List.take_of_length_le (Nat.le_of_eq (ho.length_segments hm))]
  | below p m hp hm hpar _ hdepth ih =>
    by_cases hlast : d = m.depth
    · subst hlast
      rw [ancestor_self, List.take_of_length_le (Nat.le_of_eq (ho.length_segments hm))]
    · have hle : d ≤ p.depth := by omega
      rw [ancestor_of_parent hp hpar hdepth hle, ih hle, ho.segments_below hp hm hpar, List.take_append_of_le_length]
      rw [ho.length_segments hp]
      omega

/-- The names of a member start those of the members of which it is the ancestor. -/
theorem Orderly.prefix_segments_iff (ho : Orderly o) {a m : Member} (ha : o.Holds a) (hm : o.Holds m) :
    a.segments <+: m.segments ↔ a.depth ≤ m.depth ∧ o.ancestor m a.depth = a := by
  constructor
  · intro h
    have hle : a.depth ≤ m.depth := by
      have := h.length_le
      rw [ho.length_segments ha, ho.length_segments hm] at this
      omega
    refine ⟨hle, ho.consistent.eq_of_segments (ho.consistent.holds_ancestor hm hle) ha ?_⟩
    rw [ho.segments_ancestor hm hle, List.prefix_iff_eq_take.1 h, ho.length_segments ha]
  · rintro ⟨hle, hanc⟩
    have hnames := ho.segments_ancestor hm hle
    rw [hanc] at hnames
    rw [hnames]
    exact List.take_prefix _ _

/-- A member lies below another when the names of that one start its own and are not all of them. -/
theorem Orderly.isBelow_iff_segments (ho : Orderly o) {a m : Member} (ha : o.Holds a) (hm : o.Holds m) :
    o.isBelow m a.uniqueName = true ↔ a.segments <+: m.segments ∧ a.segments ≠ m.segments := by
  rw [ho.consistent.isBelow_iff hm ha, ho.prefix_segments_iff ha hm]
  constructor
  · rintro ⟨hlt, hanc⟩
    refine ⟨⟨Nat.le_of_lt hlt, hanc⟩, fun h => ?_⟩
    have := congrArg List.length h
    rw [ho.length_segments ha, ho.length_segments hm] at this
    omega
  · rintro ⟨⟨hle, hanc⟩, hne⟩
    refine ⟨Nat.lt_of_le_of_ne hle fun hd => hne ?_, hanc⟩
    rw [hd, ancestor_self] at hanc
    rw [hanc]

/-! ## What is below the members at a depth -/

/-- Lists of members divide one more among several members that each have one of them: no member is in two of the lists, each keeps the
order of the whole, and what is in the whole is in the lists as often. -/
structure Divides (tops : List Member) (below : Member → List Member) (all : List Member) : Prop where
  disjoint : tops.Pairwise fun a b => (below a).Disjoint (below b)
  ordered : ∀ a ∈ tops, (below a).Sublist all
  covering : (tops.flatMap below).Perm all

/-- The members at a depth divide those at a deeper one among them, each having those that lie below it. -/
theorem Consistent.divides_rows (hc : Consistent o) (hierarchy : String) {d e : Nat} (hde : d < e) :
    Divides (o.rows hierarchy d) (fun a => (o.rows hierarchy e).filter fun m => o.isBelow m a.uniqueName) (o.rows hierarchy e) := by
  have hbelow : ∀ a ∈ o.rows hierarchy d, ∀ m ∈ o.rows hierarchy e, o.isBelow m a.uniqueName = true ↔ o.ancestor m d = a := by
    intro a ha m hm
    obtain ⟨hah, -, rfl⟩ := hc.mem_rows.1 ha
    obtain ⟨hmh, -, rfl⟩ := hc.mem_rows.1 hm
    rw [hc.isBelow_iff hmh hah]
    exact and_iff_right hde
  have hdisjoint : (o.rows hierarchy d).Pairwise fun a b => ((o.rows hierarchy e).filter fun m => o.isBelow m a.uniqueName).Disjoint
      ((o.rows hierarchy e).filter fun m => o.isBelow m b.uniqueName) := by
    refine (hc.nodup_rows hierarchy d).imp_of_mem fun {a b} ha hb hne m hma hmb => hne ?_
    obtain ⟨hm, hma⟩ := List.mem_filter.1 hma
    rw [← (hbelow a ha m hm).1 hma, (hbelow b hb m hm).1 (List.mem_filter.1 hmb).2]
  refine ⟨hdisjoint, fun a _ => List.filter_sublist, ?_⟩
  -- no member is repeated on either side, so it is enough that they have the same ones
  have hnodup := List.nodup_flatMap.2 ⟨fun a _ => (hc.nodup_rows hierarchy e).filter _, hdisjoint⟩
  refine (List.perm_ext_iff_of_nodup hnodup (hc.nodup_rows hierarchy e)).2 fun m => ?_
  rw [List.mem_flatMap]
  constructor
  · rintro ⟨a, -, hm⟩
    exact (List.mem_filter.1 hm).1
  · intro hm
    obtain ⟨hmh, hh, hd⟩ := hc.mem_rows.1 hm
    obtain ⟨hah, hahh, had⟩ := hc.ancestor_spec hmh (d := d) (by omega)
    have ha : o.ancestor m d ∈ o.rows hierarchy d := hc.mem_rows.2 ⟨hah, hahh.trans hh, had⟩
    exact ⟨_, ha, List.mem_filter.2 ⟨hm, (hbelow _ ha m hm).2 rfl⟩⟩

/-- In an orderly outline descent is one thing. Of two members the catalog gives the one among those of its level below the other just
when the other is above it and climbing to that depth comes to it, and just when the names of the other start its own and are not all of
them; the names are those of the path whose text is the unique name. And of two levels of a hierarchy the members of the upper one divide
those of the lower one: no two have one below them, each has those below it in catalog order, and together they have every one, once. -/
theorem Orderly.descendants_agree (ho : Orderly o) :
    (∀ m a, o.Holds m → o.Holds a →
      (MemberPath.text ⟨m.segments⟩ = m.uniqueName ∧ MemberPath.text ⟨a.segments⟩ = a.uniqueName) ∧
      ∀ l : Level, l.hierarchy = m.hierarchy → l.depth = m.depth → ∃ found, o.catalog.membersOf l (some a) = .ok found ∧
        (m ∈ found ↔ a.depth < m.depth ∧ o.catalog.ancestorAt m a.depth = .ok (some a)) ∧
        (m ∈ found ↔ a.segments <+: m.segments ∧ a.segments ≠ m.segments)) ∧
    (∀ upper lower, o.HasLevel upper → o.HasLevel lower → upper.hierarchy = lower.hierarchy → upper.depth < lower.depth →
      ∃ tops below all, o.catalog.membersOf upper none = .ok tops ∧ (∀ a, o.catalog.membersOf lower (some a) = .ok (below a)) ∧
        o.catalog.membersOf lower none = .ok all ∧
        (∀ m, m ∈ tops ↔ o.Holds m ∧ m.hierarchy = upper.hierarchy ∧ m.depth = upper.depth) ∧
        (∀ m, m ∈ all ↔ o.Holds m ∧ m.hierarchy = lower.hierarchy ∧ m.depth = lower.depth) ∧
        all.Pairwise (fun m n => m.ordinal < n.ordinal) ∧ Divides tops below all) := by
  have hc := ho.consistent
  refine ⟨fun m a hm ha => ⟨⟨(hc.segments_spec hm).2, (hc.segments_spec ha).2⟩, fun l hh hd => ?_⟩, ?_⟩
  · obtain ⟨t, ht⟩ := hc.exists_table? hm
    rw [← hh, ← hd] at ht
    have hfound : m ∈ (o.rows l.hierarchy l.depth).filter (fun n => o.isBelow n a.uniqueName) ↔ o.isBelow m a.uniqueName = true := by
      rw [List.mem_filter, hc.mem_rows]
      exact and_iff_right ⟨hm, hh.symm, hd.symm⟩
    refine ⟨_, membersOf_some ht a, ?_, hfound.trans (ho.isBelow_iff_segments ha hm)⟩
    rw [hfound, hc.isBelow_iff hm ha]
    refine and_congr_right fun hlt => ?_
    rw [hc.ancestorAt_eq hm, if_neg (Nat.not_lt.2 (Nat.le_of_lt hlt)), Except.ok.injEq, Option.some.injEq]
  · intro upper lower hupper hlower hh hlt
    obtain ⟨tu, htu⟩ := hupper.hasTable
    obtain ⟨tl, htl⟩ := hlower.hasTable
    refine ⟨_, _, _, membersOf_none htu, membersOf_some htl, membersOf_none htl, fun m => hc.mem_rows, fun m => hc.mem_rows,
      hc.pairwise_rows _ _, ?_⟩
    rw [hh]
    exact hc.divides_rows lower.hierarchy hlt

/-- A family of the small cube whose name holds a bracket. -/
def sampleFood : Member := ⟨"[Product].[All].[Food [new]]]", "Food [new]", "Product", 1, 1, some "[Product].[All]"⟩

/-- The only department of that family. -/
def sampleSnacks : Member := ⟨"[Product].[All].[Food [new]]].[Snacks]", "Snacks", "Product", 2, 2, some "[Product].[All].[Food [new]]]"⟩

/-- On the small cube a department descends from a family whose name holds a bracket, and the two families divide the departments. -/
theorem sample_descendants_agree :
    (∃ found, sample.catalog.membersOf ⟨"Product", "Department", 2⟩ (some sampleFood) = .ok found ∧ sampleSnacks ∈ found ∧
      sampleFood.segments = ["Product", "All", "Food [new]"] ∧ sampleFood.segments <+: sampleSnacks.segments ∧
      sample.catalog.ancestorAt sampleSnacks sampleFood.depth = .ok (some sampleFood)) ∧
    ∃ tops below all, sample.catalog.membersOf ⟨"Product", "Family", 1⟩ none = .ok tops ∧
      sample.catalog.membersOf ⟨"Product", "Department", 2⟩ none = .ok all ∧ Divides tops below all ∧
      tops.map (fun a => (below a).map (·.name)) = [["Dairy", "Beverages"], ["Snacks"]] := by
  obtain ⟨hfamily, hsnacks, hupper, hlower, hnames, hbelow, hdivided⟩ :
      sample.member? sampleFood.uniqueName = some sampleFood ∧ sample.member? sampleSnacks.uniqueName = some sampleSnacks ∧
      sample.HasLevel ⟨"Product", "Family", 1⟩ ∧ sample.HasLevel ⟨"Product", "Department", 2⟩ ∧
      sampleFood.segments = ["Product", "All", "Food [new]"] ∧
      (sample.catalog.membersOf ⟨"Product", "Department", 2⟩ (some sampleFood)).toOption.any (fun found =>
        decide (sampleSnacks ∈ found)) = true ∧
      (sample.catalog.membersOf ⟨"Product", "Family", 1⟩ none).toOption.any (fun tops => decide (tops.map (fun a =>
        ((sample.catalog.membersOf ⟨"Product", "Department", 2⟩ (some a)).toOption.getD []).map (·.name)) =
          [["Dairy", "Beverages"], ["Snacks"]])) = true := by
    decide +kernel
  obtain ⟨hagree, hdivides⟩ := orderly_sample.descendants_agree
  constructor
  · obtain ⟨-, hlevel⟩ := hagree sampleSnacks sampleFood hsnacks hfamily
    obtain ⟨found, hfound, hclimb, hstart⟩ := hlevel ⟨"Product", "Department", 2⟩ rfl rfl
    rw [hfound] at hbelow
    have hmem := of_decide_eq_true hbelow
    exact ⟨found, hfound, hmem, hnames, (hstart.1 hmem).1, (hclimb.1 hmem).2⟩
  · obtain ⟨tops, below, all, htops, hbelow, hall, -, -, -, hspec⟩ := hdivides _ _ hupper hlower rfl (by decide)
    rw [htops] at hdivided
    refine ⟨tops, below, all, htops, hall, hspec, ?_⟩
    simpa only [hbelow, Except.toOption, Option.getD_some] using of_decide_eq_true hdivided

end Outline

end CubeAxes
