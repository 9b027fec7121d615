import CubeAxes.Proofs.Outline.Descent
import CubeAxes.Proofs.Resolution.Respelling

/-!
# Short names

Where only one member is at the top of a hierarchy, a path may leave it out. The short path refers to the member whose path it shortens, and
to no other, unless the name that is next in that path is the name of the one at the top too (`Outline.Orderly.short_names_resolve`): then it
reads as a path in full. Every other name in an orderly outline reads as it stands, since the paths of the members of a hierarchy all start
with its name and that of a member at the top. So a set may spell each member in either way.
-/

namespace CubeAxes

namespace Outline

variable {o : Outline} {hierarchy : String} {t m : Member} {below : List String}

/-- The only member at the top of a hierarchy. -/
def OnlyTop (o : Outline) (hierarchy : String) (t : Member) : Prop := ∀ m, (o.Holds m ∧ m.hierarchy = hierarchy ∧ m.depth = 0) ↔ m = t

/-- The paths that spell a member: that of its unique name, and the same without the only member at the top, unless the name of that one is
next in the path. -/
inductive Spells (o : Outline) (m : Member) : MemberPath → Prop
  | full {p : MemberPath} : p.text = m.uniqueName → Spells o m p
  | short {t : Member} {below : List String} : o.OnlyTop m.hierarchy t →
      MemberPath.text ⟨m.hierarchy :: t.name :: below⟩ = m.uniqueName → below.head? ≠ some t.name → Spells o m ⟨m.hierarchy :: below⟩

/-- A path is kept, or one that refers to a member is replaced by a path that spells the member. -/
def Renames (o : Outline) (p q : MemberPath) : Prop := p = q ∨ ∃ m, o.catalog.member p.text = .ok (some m) ∧ o.Spells m q

/-! ## The paths of a hierarchy with one member at the top -/

/-- The path of a member starts with the name of its hierarchy and the name of a member at the top of that. -/
theorem Orderly.exists_top (ho : Orderly o) (hm : o.Holds m) :
    ∃ top below, o.Holds top ∧ top.hierarchy = m.hierarchy ∧ top.depth = 0 ∧ m.segments = m.hierarchy :: top.name :: below ∧
      below.length = m.depth := by
  have hc := ho.consistent
  obtain ⟨htop, hh, hd⟩ := hc.ancestor_spec hm (Nat.zero_le m.depth)
  have hpar : (o.ancestor m 0).parent = none := by
    cases hpar : (o.ancestor m 0).parent with
    | none => rfl
    | some p =>
      obtain ⟨pm, -, -, -, hdepth⟩ := hc.above _ p htop hpar
      omega
  have hfirst := ho.segments_ancestor hm (Nat.zero_le m.depth)
  rw [ho.segments_top htop hpar, hh] at hfirst
  refine ⟨o.ancestor m 0, m.segments.drop 2, htop, hh, hd, ?_, ?_⟩
  · rw [← List.take_append_drop 2 m.segments, ← hfirst]
    rfl
  · rw [List.length_drop, ho.length_segments hm, Nat.add_sub_cancel]

/-- Under the only member at the top the path of every member starts with that one's name. -/
theorem OnlyTop.exists_below (ht : o.OnlyTop hierarchy t) (ho : Orderly o) (hm : o.Holds m) (hh : m.hierarchy = hierarchy) :
    ∃ below, m.segments = hierarchy :: t.name :: below ∧ below.length = m.depth := by
  obtain ⟨top, below, htop, hth, htd, hsegments, hlength⟩ := ho.exists_top hm
  obtain rfl := (ht top).1 ⟨htop, hth.trans hh, htd⟩
  exact ⟨below, hh ▸ hsegments, hlength⟩

/-- The only member at the top is the only row of the first level. -/
theorem Consistent.onlyTop_iff (hc : Consistent o) : o.OnlyTop hierarchy t ↔ o.rows hierarchy 0 = [t] := by
  rw [← List.perm_singleton, List.perm_ext_iff_of_nodup (hc.nodup_rows _ _) (List.nodup_singleton t)]
  simp only [hc.mem_rows, List.mem_singleton]
  exact Iff.rfl

/-- The only member at the top is found in the table of the first level. -/
theorem OnlyTop.top?_eq (ht : o.OnlyTop hierarchy t) (hc : Consistent o) : o.top? hierarchy = some t := by
  have hnames := hc.map_uniqueName_rows hierarchy 0
  rw [hc.onlyTop_iff.1 ht, List.map_singleton] at hnames
  obtain ⟨table, htable⟩ := exists_table?_of_mem_names (hnames ▸ List.mem_singleton_self t.uniqueName)
  have hmembers := names_of_table? htable
  rw [← hnames] at hmembers
  obtain ⟨name, visible, members⟩ := table
  obtain rfl : [t.uniqueName] = members := hmembers
  rw [table?] at htable
  simp only [top?, List.head?_eq_getElem?, htable]
  exact ((ht t).2 rfl).1

/-- A path whose second name is not that of the only member at the top is no member's. -/
theorem OnlyTop.member?_short (ht : o.OnlyTop hierarchy t) (ho : Orderly o) (hnext : below.head? ≠ some t.name) :
    o.member? (MemberPath.text ⟨hierarchy :: below⟩) = none := by
  cases hn : o.member? (MemberPath.text ⟨hierarchy :: below⟩) with
  | none => rfl
  | some n =>
    have hheld := ho.consistent.holds hn
    have hpath := Member.segments_eq_of_text (List.cons_ne_nil _ _) (ho.consistent.stored _ n hn).1.symm
    obtain ⟨top, rest, htop, hth, htd, hsegments, -⟩ := ho.exists_top hheld
    obtain ⟨hh, rfl⟩ := List.cons.inj (hpath.symm.trans hsegments)
    obtain rfl := (ht top).1 ⟨htop, hth.trans hh.symm, htd⟩
    exact absurd rfl hnext

/-- A path without the only member at the top is looked up as the path with it. -/
theorem OnlyTop.find?_short (ht : o.OnlyTop hierarchy t) (ho : Orderly o) (hnext : below.head? ≠ some t.name) :
    o.find? (MemberPath.text ⟨hierarchy :: below⟩) = o.member? (MemberPath.text ⟨hierarchy :: t.name :: below⟩) := by
  have hread := MemberPath.ofText_text (p := ⟨hierarchy :: below⟩) (List.cons_ne_nil _ _)
  rw [find?, ht.member?_short ho hnext, fullName?, hread]
  simp only [ht.top?_eq ho.consistent, if_neg hnext, Option.bind_some]

/-- A path that goes on with the name of the only member at the top is not taken for a short one. -/
theorem OnlyTop.find?_repeated (ht : o.OnlyTop hierarchy t) (hc : Consistent o) (hnext : below.head? = some t.name) :
    o.find? (MemberPath.text ⟨hierarchy :: below⟩) = o.member? (MemberPath.text ⟨hierarchy :: below⟩) := by
  have hread := MemberPath.ofText_text (p := ⟨hierarchy :: below⟩) (List.cons_ne_nil _ _)
  rw [find?, fullName?, hread]
  simp only [ht.top?_eq hc, if_pos hnext, Option.bind_none]
  cases o.member? (MemberPath.text ⟨hierarchy :: below⟩) <;> rfl

/-- A path that spells a member refers to it. -/
theorem Spells.member_eq (ho : Orderly o) (hm : o.Holds m) {p : MemberPath} (h : o.Spells m p) :
    o.catalog.member p.text = .ok (some m) := by
  cases h with
  | full htext => exact congrArg Except.ok (htext ▸ hm.find?)
  | short ht htext hnext =>
    refine congrArg Except.ok ?_
    rw [ht.find?_short ho hnext, htext]
    exact hm

/-- Where a path refers to a member, the paths that spell the member are looked up as it is. -/
theorem Orderly.looksUpAlike_renames (ho : Orderly o) : o.catalog.LooksUpAlike o.Renames := by
  rintro p q (rfl | ⟨m, hp, hq⟩)
  · rfl
  · have hlookup : o.catalog.lookup p.text = .ok m := by
      rw [Catalog.lookup, hp]
      rfl
    obtain ⟨u, hu⟩ := exists_member?_of_lookup hlookup
    rw [hlookup, Catalog.lookup, hq.member_eq ho (ho.consistent.holds hu)]
    rfl

/-- In an orderly outline a unique name refers to the member of that name and to no other. Where only one member is at the top of a
hierarchy, so does the path without it, for every member of the hierarchy but those in whose path the next name is that of the one at the
top as well. Hence set expressions that spell the same members, in full or in short, resolve alike: to axes that are the same node for
node, or to the same error. -/
theorem Orderly.short_names_resolve (ho : Orderly o) :
    (∀ m, o.Holds m → ∀ n, o.catalog.member m.uniqueName = .ok (some n) ↔ n = m) ∧
    (∀ hierarchy t, o.OnlyTop hierarchy t → ∀ m, o.Holds m → m.hierarchy = hierarchy →
      ∃ below, MemberPath.text ⟨hierarchy :: t.name :: below⟩ = m.uniqueName ∧ (m = t ↔ below = []) ∧
        ((∀ n, o.catalog.member (MemberPath.text ⟨hierarchy :: below⟩) = .ok (some n) ↔ n = m) ↔ below.head? ≠ some t.name)) ∧
    ∀ e e', e.Respelled o.Renames e' → o.catalog.resolveAxis e = o.catalog.resolveAxis e' := by
  have hc := ho.consistent
  have honly : ∀ {name m}, o.catalog.member name = .ok (some m) → ∀ n, o.catalog.member name = .ok (some n) ↔ n = m := by
    intro name m hm n
    rw [hm, Except.ok.injEq, Option.some.injEq]
    exact eq_comm
  refine ⟨fun m hm => honly (congrArg Except.ok hm.find?), ?_, fun e e' => Catalog.resolveAxis_respelled ho.looksUpAlike_renames⟩
  rintro hierarchy t ht m hm rfl
  obtain ⟨below, hsegments, hlength⟩ := ht.exists_below ho hm rfl
  have htext := (hc.segments_spec hm).2
  rw [hsegments] at htext
  refine ⟨below, htext, ?_, ?_, fun hnext => ?_⟩
  · rw [← ht m, ← List.length_eq_zero_iff, hlength]
    exact ⟨fun h => h.2.2, fun h => ⟨hm, rfl, h⟩⟩
  · intro hrefers hnext
    -- the member found has the shorter path, so it is another one
    have hfound := Except.ok.inj ((hrefers m).2 rfl)
    rw [ht.find?_repeated hc hnext] at hfound
    have hshort := Member.segments_eq_of_text (List.cons_ne_nil _ _) (hc.stored _ m hfound).1.symm
    have hlengths := congrArg List.length (hshort.symm.trans hsegments)
    simp at hlengths
  · exact honly (Spells.member_eq ho hm (.short ht htext hnext))

/-- The member at the top of the products. -/
def sampleProducts : Member := ⟨"[Product].[All]", "All", "Product", 0, 0, none⟩

/-- A set on the small cube that spells one member in short, one in full, and one in short. -/
def sampleSpelled : SetExpr :=
  .call .crossJoin
    [.braced [.reference (.member ⟨["Product", "Food [new]"]⟩), .reference (.children ⟨["Product", "All"]⟩)],
      .braced [.tuple [⟨["Gender", "F"]⟩]]]

/-- The same set with the first two members spelled the other way. -/
def sampleRespelled : SetExpr :=
  .call .crossJoin
    [.braced [.reference (.member ⟨["Product", "All", "Food [new]"]⟩), .reference (.children ⟨["Product"]⟩)],
      .braced [.tuple [⟨["Gender", "F"]⟩]]]

/-- On the small cube a department has its short name for itself, and both spellings of the set resolve to one axis. -/
theorem sample_short_names_resolve :
    (∃ below, MemberPath.text ⟨"Product" :: "All" :: below⟩ = sampleSnacks.uniqueName ∧ below = ["Food [new]", "Snacks"] ∧
      ∀ n, sample.catalog.member (MemberPath.text ⟨"Product" :: below⟩) = .ok (some n) ↔ n = sampleSnacks) ∧
    ∃ axis, sample.catalog.resolveAxis sampleSpelled = .ok axis ∧ sample.catalog.resolveAxis sampleRespelled = .ok axis ∧
      axis.nodes.size = 3 := by
  obtain ⟨hsnacks, hrows, hfood, hproducts, ⟨hpath, hfull, hshort⟩, haxis⟩ :
      sample.member? sampleSnacks.uniqueName = some sampleSnacks ∧ sample.rows "Product" 0 = [sampleProducts] ∧
      sample.catalog.member (MemberPath.text ⟨["Product", "Food [new]"]⟩) = .ok (some sampleFood) ∧
      sample.catalog.member (MemberPath.text ⟨["Product", "All"]⟩) = .ok (some sampleProducts) ∧
      (MemberPath.text ⟨["Product", "All", "Food [new]", "Snacks"]⟩ = sampleSnacks.uniqueName ∧
        MemberPath.text ⟨["Product", "All", "Food [new]"]⟩ = sampleFood.uniqueName ∧
        MemberPath.text ⟨["Product", "All"]⟩ = sampleProducts.uniqueName) ∧
      (sample.catalog.resolveAxis sampleSpelled).toOption.any (fun axis => decide (axis.nodes.size = 3)) = true := by
    decide +kernel
  have hc := orderly_sample.consistent
  have htop : sample.OnlyTop "Product" sampleProducts := hc.onlyTop_iff.2 hrows
  obtain ⟨-, hnames, hsets⟩ := orderly_sample.short_names_resolve
  constructor
  · obtain ⟨below, htext, -, hrefers⟩ := hnames "Product" sampleProducts htop sampleSnacks hsnacks rfl
    have hsegments := congrArg MemberPath.segments (MemberPath.text_injective (htext.trans hpath.symm))
    have hbelow := (List.cons.inj (List.cons.inj hsegments).2).2
    exact ⟨below, htext, hbelow, hrefers.2 (by rw [hbelow]; decide)⟩
  · have hrespelled : sampleSpelled.Respelled sample.Renames sampleRespelled :=
      .call (.cons (.braced (.cons (.reference (.member (Or.inr ⟨sampleFood, hfood, .full hfull⟩)))
        (.cons (.reference (.children (Or.inr ⟨sampleProducts, hproducts, .short htop hshort (by decide)⟩))) .nil)))
        (.cons (.braced (.cons (.tuple (.cons (Or.inl rfl) .nil)) .nil)) .nil))
    obtain ⟨axis, hresolved, hsize⟩ := exists_of_any_toOption haxis
    exact ⟨axis, hresolved, (hsets _ _ hrespelled).symm.trans hresolved, of_decide_eq_true hsize⟩

end Outline

end CubeAxes
