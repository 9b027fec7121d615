import CubeAxes.Proofs.Axis.Membership

/-!
# Complete axes

A member is whole among others when none or all of its children are there (`Outline.Whole`), and an axis is complete when all members on
it are whole among them (`Outline.Complete`). Placing levels always leaves a complete axis. Adding a level drills the deepest members
above it, or climbs from what is below it, and looks neither at siblings nor further down; removing one rolls members up to the next
depth, whether or not their siblings are there. So a mutation of a complete axis leaves a complete one just if what it brings in fits
what stays (`Outline.KeepsWhole`, `Outline.Orderly.complete_iff_of_run`): at the deepest level adding always does
(`Outline.Consistent.complete_of_add`), and above it removing does (`Outline.Consistent.complete_of_remove`).
-/

namespace CubeAxes

namespace Outline

/-- The children of a member, in catalog order. -/
def children (o : Outline) (p : Member) : List Member :=
  (o.rows p.hierarchy (p.depth + 1)).filter fun m => decide (m.parent = some p.uniqueName)

/-- None or all of the children of a member are among some members. -/
def Whole (o : Outline) (ms : List Member) (p : Member) : Prop :=
  (∃ m ∈ o.children p, m ∈ ms) → ∀ m ∈ o.children p, m ∈ ms

instance (o : Outline) (ms : List Member) (p : Member) : Decidable (o.Whole ms p) :=
  inferInstanceAs (Decidable ((∃ m ∈ o.children p, m ∈ ms) → ∀ m ∈ o.children p, m ∈ ms))

/-- None or all of the children of each member on an axis are there. -/
def Complete (o : Outline) (axis : Axis) : Prop := ∀ p ∈ axis.members, o.Whole axis.members p

instance (o : Outline) (axis : Axis) : Decidable (o.Complete axis) :=
  inferInstanceAs (Decidable (∀ p ∈ axis.members, o.Whole axis.members p))

/-- What a mutation brings to an axis fits what stays there: a member that comes with a level has none or all of its children there
already, and a member to which others are rolled up comes to its siblings, or with them, where their parent is there. -/
def KeepsWhole (o : Outline) (axis : Axis) : Mutation → Prop
  | .add l _ => ∃ brought, Edit.brought o.catalog axis l = .ok brought ∧ ∀ p ∈ brought, o.Whole axis.members p
  | .remove l => ∃ raised, Edit.raised o.catalog axis l = .ok raised ∧
      ∀ p ∈ axis.members, (∃ u ∈ raised, u ∈ o.children p) → ∀ m ∈ o.children p, m ∈ axis.members ∨ m ∈ raised
  | .place _ => True

variable {o : Outline}

/-! ## Children -/

/-- The children of a member that is held are the members that are held and have it as their parent. -/
theorem Consistent.mem_children (hc : Consistent o) {p : Member} (hp : o.Holds p) {m : Member} :
    m ∈ o.children p ↔ o.Holds m ∧ m.parent = some p.uniqueName := by
  rw [children, List.mem_filter, decide_eq_true_eq, hc.mem_rows]
  constructor
  · rintro ⟨⟨hm, -, -⟩, hpar⟩
    exact ⟨hm, hpar⟩
  · rintro ⟨hm, hpar⟩
    obtain ⟨q, hq, hqu, hh, hd⟩ := hc.above m p.uniqueName hm hpar
    obtain rfl := hq.eq_of_uniqueName hp hqu
    exact ⟨⟨hm, hh.symm, hd⟩, hpar⟩

/-- The children of a member are of its hierarchy, and one level below it. -/
theorem Consistent.spec_of_mem_children (hc : Consistent o) {p m : Member} (hm : m ∈ o.children p) :
    o.Holds m ∧ m.hierarchy = p.hierarchy ∧ m.depth = p.depth + 1 :=
  hc.mem_rows.1 (List.mem_filter.1 hm).1

/-- Drilling brings in all the children of each selected member one level above. -/
theorem Consistent.mem_expand_of_mem_children (hc : Consistent o) {l : Level} {selected ms : List Member}
    (hs : o.HoldsAll l.hierarchy selected) (h : o.catalog.expand selected l = .ok ms) {p m : Member} (hp : p ∈ selected)
    (hd : l.depth = p.depth + 1) (hm : m ∈ o.children p) : m ∈ ms := by
  have hanchor : anchorDepth? selected l = some p.depth := by
    refine anchorDepth?_eq_some.2 ⟨⟨p, hp, rfl⟩, by omega, ?_⟩
    intro s _ hlt
    omega
  obtain ⟨t, ht⟩ := hasTable_of_expand hanchor h
  obtain ⟨ms', hms', hmem⟩ := hc.exists_expand_of_anchor ht hs hanchor
  obtain rfl := Except.ok.inj (hms'.symm.trans h)
  obtain ⟨hheld, hh⟩ := hs p hp
  obtain ⟨hmh, hmhh, hmd⟩ := hc.spec_of_mem_children hm
  have hpar := ((hc.mem_children hheld).1 hm).2
  refine (hmem m).2 ⟨⟨hmh, hmhh.trans hh, hmd.trans hd.symm⟩, ?_⟩
  rwa [ancestor_of_parent hheld hpar hmd (Nat.le_refl _), ancestor_self]

/-! ## Adding -/

/-- The members that come with a level are of the level. -/
theorem Consistent.spec_of_brought (hc : Consistent o) {axis : Axis} (hax : ∀ m ∈ axis.members, o.Holds m) {l : Level}
    {brought : List Member} (h : Edit.brought o.catalog axis l = .ok brought) :
    ∀ m ∈ brought, m.hierarchy = l.hierarchy ∧ m.depth = l.depth := by
  intro m hm
  by_cases hin : l.hierarchy ∈ axis.hierarchies
  · rw [Edit.brought_of_mem hin] at h
    exact (hc.spec_of_expand (holdsAll_membersOf hax l.hierarchy) h m hm).2
  · rw [Edit.brought_of_not_mem hin] at h
    rw [eq_rows_of_membersOf h] at hm
    exact (hc.mem_rows.1 hm).2

/-- Among the members that come with a level are all the children of each member on the axis that is one level above. -/
theorem Consistent.mem_brought_of_mem_children (hc : Consistent o) {axis : Axis} (hax : ∀ m ∈ axis.members, o.Holds m) {l : Level}
    {brought : List Member} (h : Edit.brought o.catalog axis l = .ok brought) {p m : Member} (hp : p ∈ axis.members)
    (hh : p.hierarchy = l.hierarchy) (hd : l.depth = p.depth + 1) (hm : m ∈ o.children p) : m ∈ brought := by
  rw [Edit.brought_of_mem (Axis.mem_hierarchies.2 ⟨p, hp, hh⟩)] at h
  exact hc.mem_expand_of_mem_children (holdsAll_membersOf hax l.hierarchy) h ((mem_membersOf hax).2 ⟨hp, hh⟩) hd hm

/-- The members on an axis to which a level was added are those that were there and those that come with the level. -/
theorem Consistent.exists_brought_of_add (hc : Consistent o) {axis axis' : Axis} (hax : ∀ m ∈ axis.members, o.Holds m) {l : Level}
    {position : Int} {mode : HierarchizeMode} {keys : SortKeys} (hk : o.Remembers keys)
    (h : ((Mutation.add l position).run o.catalog mode keys axis).result = .ok axis') :
    ∃ brought, Edit.brought o.catalog axis l = .ok brought ∧ ∀ m, m ∈ axis'.members ↔ m ∈ axis.members ∨ m ∈ brought := by
  obtain ⟨brought, hmem, -, ⟨hin, hdrilled⟩ | ⟨hin, hrows⟩⟩ := hc.mem_members_of_add hax hk h
  · exact ⟨brought, (Edit.brought_of_mem hin).trans hdrilled, hmem⟩
  · refine ⟨brought, ?_, hmem⟩
    rw [Edit.brought_of_not_mem hin, hrows, asked_ok]

/-- Adding a level to a complete axis leaves a complete one just if the members that come with it are whole. -/
theorem Consistent.complete_iff_of_add (hc : Consistent o) {axis axis' : Axis} (hax : ∀ m ∈ axis.members, o.Holds m)
    (hcomplete : o.Complete axis) {l : Level} {position : Int} {mode : HierarchizeMode} {keys : SortKeys} (hk : o.Remembers keys)
    (h : ((Mutation.add l position).run o.catalog mode keys axis).result = .ok axis') :
    o.Complete axis' ↔ o.KeepsWhole axis (.add l position) := by
  obtain ⟨brought, hbrought, hmem⟩ := hc.exists_brought_of_add hax hk h
  have hlevel := hc.spec_of_brought hax hbrought
  -- what comes is all at one depth, so a member and a child of it do not both come
  have hapart : ∀ p m, p ∈ brought → m ∈ o.children p → m ∉ brought := by
    intro p m hp hm hin
    have hd := (hc.spec_of_mem_children hm).2.2
    rw [(hlevel m hin).2, (hlevel p hp).2] at hd
    omega
  constructor
  · intro hall
    refine ⟨brought, hbrought, ?_⟩
    rintro p hp ⟨c, hchild, hc'⟩ m hm
    have hin := hall p ((hmem p).2 (Or.inr hp)) ⟨c, hchild, (hmem c).2 (Or.inl hc')⟩ m hm
    exact ((hmem m).1 hin).resolve_right (hapart p m hp hm)
  · rintro ⟨brought', hbrought', hwhole⟩ p hp ⟨c, hchild, hc'⟩ m hm
    obtain rfl := Except.ok.inj (hbrought.symm.trans hbrought')
    rw [hmem] at hp hc' ⊢
    rcases hp with hp | hp
    · rcases hc' with hc' | hc'
      · exact Or.inl (hcomplete p hp ⟨c, hchild, hc'⟩ m hm)
      · obtain ⟨-, hh, hd⟩ := hc.spec_of_mem_children hchild
        obtain ⟨hch, hcd⟩ := hlevel c hc'
        exact Or.inr (hc.mem_brought_of_mem_children hax hbrought hp (hh.symm.trans hch) (hcd.symm.trans hd) hm)
    · have hc' := hc'.resolve_right (hapart p c hp hchild)
      exact Or.inl (hwhole p hp ⟨c, hchild, hc'⟩ m hm)

/-- Adding a level below which nothing of its hierarchy stands, as when drilling down from the deepest one, leaves a complete axis. -/
theorem Consistent.complete_of_add (hc : Consistent o) {axis axis' : Axis} (hax : ∀ m ∈ axis.members, o.Holds m)
    (hcomplete : o.Complete axis) {l : Level} {position : Int} {mode : HierarchizeMode} {keys : SortKeys} (hk : o.Remembers keys)
    (h : ((Mutation.add l position).run o.catalog mode keys axis).result = .ok axis')
    (hle : ∀ m ∈ axis.members, m.hierarchy = l.hierarchy → m.depth ≤ l.depth) : o.Complete axis' := by
  obtain ⟨brought, hbrought, -⟩ := hc.exists_brought_of_add hax hk h
  refine (hc.complete_iff_of_add hax hcomplete hk h).2 ⟨brought, hbrought, ?_⟩
  rintro p hp ⟨c, hchild, hin⟩
  obtain ⟨hh, hd⟩ := hc.spec_of_brought hax hbrought p hp
  obtain ⟨-, hch, hcd⟩ := hc.spec_of_mem_children hchild
  have hbound := hle c hin (hch.trans hh)
  omega

/-! ## Removing -/

/-- A member to which others of a level are rolled up stands above the level, at the deepest depth of what stays of the hierarchy. -/
theorem Consistent.spec_of_raisedTo (hc : Consistent o) {axis : Axis} (hax : ∀ m ∈ axis.members, o.Holds m) {l : Level} {u : Member}
    (h : o.RaisedTo axis l u) :
    u.hierarchy = l.hierarchy ∧ u.depth < l.depth ∧ (∃ m ∈ axis.members, m.hierarchy = l.hierarchy ∧ m.depth = u.depth) ∧
      ∀ m ∈ axis.members, m.hierarchy = l.hierarchy → m.depth ≠ l.depth → m.depth ≤ u.depth := by
  obtain ⟨above, habove, hlast, r, hr, rfl⟩ := h
  have hasc := Axis.pairwise_depths axis l.hierarchy
  obtain ⟨hin, hlt, hgreatest⟩ := (Edit.depthAbove?_eq_some hasc).1 habove
  obtain ⟨hr, hrd⟩ := List.mem_filter.1 hr
  obtain ⟨hheld, hh⟩ := holdsAll_membersOf hax l.hierarchy r hr
  have hle : above ≤ r.depth := by
    rw [of_decide_eq_true hrd]
    exact Nat.le_of_lt hlt
  obtain ⟨-, hah, had⟩ := hc.ancestor_spec hheld hle
  rw [had]
  refine ⟨hah.trans hh, hlt, ?_, ?_⟩
  · obtain ⟨m, hm, hd⟩ := Axis.mem_depths.1 hin
    obtain ⟨hm, hmh⟩ := Axis.mem_of_mem_membersOf hm
    exact ⟨m, hm, hmh, hd⟩
  · intro m hm hmh hne
    have hdepth : m.depth ∈ axis.depths l.hierarchy := Axis.mem_depths.2 ⟨m, (mem_membersOf hax).2 ⟨hm, hmh⟩, rfl⟩
    have hlast := ((Edit.getLast?_eq_some_iff_greatest hasc).1 hlast).2 m.depth hdepth
    exact hgreatest m.depth hdepth (by omega)

/-- The members on an axis from which a level was removed are those that were there and are not of the level, and those that take their
place. -/
theorem Consistent.mem_members_iff_raised (hc : Consistent o) {axis axis' : Axis} (hax : ∀ m ∈ axis.members, o.Holds m) {l : Level}
    {mode : HierarchizeMode} {keys : SortKeys} (hk : o.Remembers keys)
    (h : ((Mutation.remove l).run o.catalog mode keys axis).result = .ok axis') {raised : List Member}
    (hraised : ∀ u, u ∈ raised ↔ o.RaisedTo axis l u) (m : Member) :
    m ∈ axis'.members ↔ (m ∈ axis.members ∧ ¬(m.hierarchy = l.hierarchy ∧ m.depth = l.depth)) ∨ m ∈ raised := by
  rw [(hc.mem_members_of_remove hax hk h).2 m, Leaves, ← RaisedTo, ← hraised, mem_membersOf hax, ← or_assoc]
  refine or_congr_left ?_
  by_cases hh : m.hierarchy = l.hierarchy <;> simp [hh]

/-- Removing a level from a complete axis leaves a complete one just if the members that take its place come to their siblings or with
them. -/
theorem Consistent.complete_iff_of_remove (hc : Consistent o) {axis axis' : Axis} (hax : ∀ m ∈ axis.members, o.Holds m)
    (hcomplete : o.Complete axis) {l : Level} {mode : HierarchizeMode} {keys : SortKeys} (hk : o.Remembers keys)
    (h : ((Mutation.remove l).run o.catalog mode keys axis).result = .ok axis') :
    o.Complete axis' ↔ o.KeepsWhole axis (.remove l) := by
  obtain ⟨raised, hraised, hrolled⟩ := hc.exists_raised (holdsAll_membersOf hax l.hierarchy)
  have hmem := hc.mem_members_iff_raised hax hk h hrolled
  have hdeepest := fun u hu => hc.spec_of_raisedTo hax ((hrolled u).1 hu)
  constructor
  · intro hall
    refine ⟨raised, hraised, ?_⟩
    rintro p hp ⟨u, hu, hchild⟩ m hm
    obtain ⟨-, hlt, -, -⟩ := hdeepest u hu
    have hd := (hc.spec_of_mem_children hchild).2.2
    have hp' : p ∈ axis'.members := by
      refine (hmem p).2 (Or.inl ⟨hp, ?_⟩)
      rintro ⟨-, hpd⟩
      omega
    have hin := hall p hp' ⟨u, hchild, (hmem u).2 (Or.inr hu)⟩ m hm
    exact ((hmem m).1 hin).imp_left And.left
  · rintro ⟨raised', hraised', hsiblings⟩ p hp ⟨c, hchild, hc'⟩ m hm
    obtain rfl := Except.ok.inj (hraised.symm.trans hraised')
    obtain ⟨-, hch, hcd⟩ := hc.spec_of_mem_children hchild
    obtain ⟨-, hmh, hmd⟩ := hc.spec_of_mem_children hm
    -- siblings stay or go together
    have hstays : ¬(c.hierarchy = l.hierarchy ∧ c.depth = l.depth) → ¬(m.hierarchy = l.hierarchy ∧ m.depth = l.depth) := by
      rw [hch, hcd, hmh, hmd]
      exact id
    rw [hmem] at hp hc' ⊢
    rcases hp with ⟨hp, -⟩ | hp
    · rcases hc' with ⟨hc', hne⟩ | hc'
      · exact Or.inl ⟨hcomplete p hp ⟨c, hchild, hc'⟩ m hm, hstays hne⟩
      · obtain ⟨-, hlt, -, -⟩ := hdeepest c hc'
        refine (hsiblings p hp ⟨c, hc', hchild⟩ m hm).imp_left fun hin => ⟨hin, hstays ?_⟩
        rintro ⟨-, hcl⟩
        omega
    · -- nothing of the hierarchy stays below the members that are rolled up to, so none of their children is there
      obtain ⟨hh, -, -, hbound⟩ := hdeepest p hp
      exfalso
      rcases hc' with ⟨hc', hne⟩ | hc'
      · have hle := hbound c hc' (hch.trans hh) fun hcl => hne ⟨hch.trans hh, hcl⟩
        omega
      · obtain ⟨-, hclt, ⟨n, hn, hnh, hnd⟩, -⟩ := hdeepest c hc'
        have hle := hbound n hn hnh (by omega)
        omega

/-- Removing a level below which something of its hierarchy stands leaves a complete axis: nothing is rolled up. -/
theorem Consistent.complete_of_remove (hc : Consistent o) {axis axis' : Axis} (hax : ∀ m ∈ axis.members, o.Holds m)
    (hcomplete : o.Complete axis) {l : Level} {mode : HierarchizeMode} {keys : SortKeys} (hk : o.Remembers keys)
    (h : ((Mutation.remove l).run o.catalog mode keys axis).result = .ok axis')
    (hlt : ∃ m ∈ axis.members, m.hierarchy = l.hierarchy ∧ l.depth < m.depth) : o.Complete axis' := by
  obtain ⟨raised, hraised, hrolled⟩ := hc.exists_raised (holdsAll_membersOf hax l.hierarchy)
  obtain ⟨m, hm, hmh, hmd⟩ := hlt
  refine (hc.complete_iff_of_remove hax hcomplete hk h).2 ⟨raised, hraised, ?_⟩
  rintro p - ⟨u, hu, -⟩
  obtain ⟨-, hud, -, hbound⟩ := hc.spec_of_raisedTo hax ((hrolled u).1 hu)
  have hle := hbound m hm hmh (by omega)
  omega

/-! ## Placing -/

/-- Placing levels leaves a complete axis: of each hierarchy a depth is there as a whole or not at all. -/
theorem Consistent.complete_of_place (hc : Consistent o) {axis axis' : Axis} (hax : ∀ m ∈ axis.members, o.Holds m)
    {levels : List Level} {mode : HierarchizeMode} {keys : SortKeys} (hk : o.Remembers keys)
    (h : ((Mutation.place levels).run o.catalog mode keys axis).result = .ok axis') : o.Complete axis' := by
  rintro p - ⟨c, hchild, hc'⟩ m hm
  obtain ⟨-, hch, hcd⟩ := hc.spec_of_mem_children hchild
  obtain ⟨hheld, hmh, hmd⟩ := hc.spec_of_mem_children hm
  rw [hc.mem_members_of_place hax hk h] at hc' ⊢
  refine ⟨hheld, ?_⟩
  rw [hmh, hmd, ← hch, ← hcd]
  exact hc'.2

/-! ## All mutations -/

/-- A mutation of a complete axis that succeeds leaves a complete axis just if what it brings in fits what stays there; placing levels
always does. -/
theorem Orderly.complete_iff_of_run (ho : Orderly o) {axis axis' : Axis} (hax : ∀ m ∈ axis.members, o.Holds m)
    (hcomplete : o.Complete axis) {m : Mutation} {mode : HierarchizeMode} {keys : SortKeys} (hk : o.Remembers keys)
    (h : (m.run o.catalog mode keys axis).result = .ok axis') : o.Complete axis' ↔ o.KeepsWhole axis m := by
  have hc := ho.consistent
  cases m with
  | add l position => exact hc.complete_iff_of_add hax hcomplete hk h
  | remove l => exact hc.complete_iff_of_remove hax hcomplete hk h
  | place levels => exact iff_of_true (hc.complete_of_place hax hk h) trivial

/-- A cube of stores in countries, states and cities; two of the countries stand at the top side by side. -/
def sampleStores? : Option Outline :=
  ({} : Outline).addHierarchy "Store" ["Country", "State", "City"] |>.addMembers?
    [("Store", none, "Canada"), ("Store", some "[Store].[Canada]", "Alberta"), ("Store", some "[Store].[Canada]", "Manitoba"),
      ("Store", none, "USA"), ("Store", some "[Store].[USA]", "California"), ("Store", some "[Store].[USA]", "Oregon"),
      ("Store", some "[Store].[USA].[California]", "Fresno"), ("Store", some "[Store].[USA].[California]", "Oakland")]

/-- The cube of stores. -/
def sampleStores : Outline := sampleStores?.getD {}

/-- The cube of stores is orderly. -/
theorem orderly_sampleStores : Orderly sampleStores := by
  have hsome : sampleStores?.isSome = true := by decide +kernel
  obtain ⟨o, ho⟩ := Option.isSome_iff_exists.1 hsome
  rw [sampleStores, ho]
  exact (Orderly.empty.addHierarchy _ rfl).addMembers? ho

/-- States and cities. -/
def sampleStates : Level := ⟨"Store", "State", 1⟩

def sampleCities : Level := ⟨"Store", "City", 2⟩

/-- The axis of the stores of some names. -/
def storeAxis (names : List String) : Except AxisError Axis := Axis.ofSets [names.filterMap sampleStores.member?] false

/-- Where all states are there, removing the cities rolls them up to a state beside its sibling, and the axis stays complete. -/
theorem sampleStores_complete :
    ∃ axis axis', storeAxis ["[Store].[USA]", "[Store].[USA].[California]", "[Store].[USA].[Oregon]",
          "[Store].[USA].[California].[Fresno]", "[Store].[USA].[California].[Oakland]"] = .ok axis ∧
      sampleStores.Complete axis ∧ ((Mutation.remove sampleCities).run sampleStores.catalog .preserve [] axis).result = .ok axis' ∧
      sampleStores.KeepsWhole axis (.remove sampleCities) ∧ sampleStores.Complete axis' := by
  have hruns : (storeAxis ["[Store].[USA]", "[Store].[USA].[California]", "[Store].[USA].[Oregon]",
      "[Store].[USA].[California].[Fresno]", "[Store].[USA].[California].[Oakland]"]).toOption.any (fun axis =>
        decide (∀ m ∈ axis.members, sampleStores.member? m.uniqueName = some m) && decide (sampleStores.Complete axis) &&
        ((Mutation.remove sampleCities).run sampleStores.catalog .preserve [] axis).result.toOption.isSome &&
        (Edit.raised sampleStores.catalog axis sampleCities).toOption.any fun raised => decide (∀ p ∈ axis.members,
          (∃ u ∈ raised, u ∈ sampleStores.children p) → ∀ m ∈ sampleStores.children p, m ∈ axis.members ∨ m ∈ raised)) = true := by
    decide +kernel
  obtain ⟨axis, haxis, hruns⟩ := exists_of_any_toOption hruns
  simp only [Bool.and_eq_true, decide_eq_true_eq] at hruns
  obtain ⟨⟨⟨hheld, hcomplete⟩, hsome⟩, hraised⟩ := hruns
  obtain ⟨raised, hraised, hsiblings⟩ := exists_of_any_toOption hraised
  have hkeeps : sampleStores.KeepsWhole axis (.remove sampleCities) := ⟨raised, hraised, of_decide_eq_true hsiblings⟩
  cases hrun : ((Mutation.remove sampleCities).run sampleStores.catalog .preserve [] axis).result with
  | error e =>
    rw [hrun] at hsome
    nomatch hsome
  | ok axis' =>
    exact ⟨axis, axis', haxis, hcomplete, hrun, hkeeps,
      (orderly_sampleStores.complete_iff_of_run hheld hcomplete (remembers_nil _) hrun).2 hkeeps⟩

/-- Names of stores, and a mutation of their axis: states are added above a city, states are added between a country and a city, and
cities are rolled up to states of which only another country has some. -/
def sampleLosses : List (List String × Mutation) :=
  [(["[Store].[USA].[California].[Fresno]"], .add sampleStates (-1)),
    (["[Store].[USA]", "[Store].[USA].[California].[Fresno]"], .add sampleStates (-1)),
    (["[Store].[Canada]", "[Store].[Canada].[Alberta]", "[Store].[Canada].[Manitoba]", "[Store].[USA]",
      "[Store].[USA].[California].[Fresno]"], .remove sampleCities)]

/-- Each of these axes is complete, and the mutation succeeds and leaves an axis that is not. -/
theorem sampleStores_not_complete :
    Orderly sampleStores ∧ ∀ c ∈ sampleLosses, ∃ axis axis', storeAxis c.1 = .ok axis ∧ (∀ m ∈ axis.members, sampleStores.Holds m) ∧
      sampleStores.Complete axis ∧ (c.2.run sampleStores.catalog .preserve [] axis).result = .ok axis' ∧
      ¬sampleStores.Complete axis' := by
  have hlosses : ∀ c ∈ sampleLosses, (storeAxis c.1).toOption.any (fun axis =>
      decide (∀ m ∈ axis.members, sampleStores.member? m.uniqueName = some m) && decide (sampleStores.Complete axis) &&
      (c.2.run sampleStores.catalog .preserve [] axis).result.toOption.any fun axis' => decide (¬sampleStores.Complete axis')) = true := by
    decide +kernel
  refine ⟨orderly_sampleStores, ?_⟩
  intro c hc
  obtain ⟨axis, haxis, hloss⟩ := exists_of_any_toOption (hlosses c hc)
  simp only [Bool.and_eq_true, decide_eq_true_eq] at hloss
  obtain ⟨⟨hheld, hcomplete⟩, hloss⟩ := hloss
  obtain ⟨axis', haxis', hnot⟩ := exists_of_any_toOption hloss
  exact ⟨axis, axis', haxis, hheld, hcomplete, haxis', of_decide_eq_true hnot⟩

end Outline

end CubeAxes
