import CubeAxes.SortKeys
import CubeAxes.Proofs.Outline.Editing

/-!
# Chains of parents

Three loops follow parents and count no steps: whether a member lies below a name, which ancestor it has at a depth, and which sort key.
Each goes round until it finds an end (`Ends`). In an outline that edits build they all end, from every member, also from one that the
outline does not store (`Outline.parents_follow_names`): the first step comes to a stored member, and from there on each step goes one
depth up, because a member has one name more than its parent (`Outline.Rooted.above`). So no chain is longer than there are members, and
the loops give what the bounded searches give.
-/

namespace CubeAxes

/-! ## Loops -/

/-- What a round of a loop comes to: it goes round again, or it is done. -/
inductive Round (σ α : Type) where
  | again (s : σ)
  | done (a : α)

/-- The loop that goes round from a state ends with an answer, after as many rounds as it takes. -/
inductive Ends {σ α : Type} (round : σ → Round σ α) : σ → α → Prop
  | done {s : σ} {a : α} : round s = .done a → Ends round s a
  | again {s s' : σ} {a : α} : round s = .again s' → Ends round s' a → Ends round s a

/-- A round of the search for a name among the parents of a member: there is no parent, or it has the name, or its own parent is next. -/
def Outline.descentRound (o : Outline) (ancestor : String) : Option String → Round (Option String) Bool
  | none => .done false
  | some name => if name = ancestor then .done true else .again ((o.member? name).bind (·.parent))

/-- A round of the climb to a depth: the member is there, or its parent is next. -/
def Catalog.climbRound (cat : Catalog) (depth : Nat) (m : Member) : Round Member (Except AxisError Member) :=
  if m.depth ≤ depth then .done (.ok m)
  else
    match cat.parentOf m with
    | .ok p => .again p
    | .error e => .done (.error e)

/-- A round of the climb for a sort key, with the members met so far, the last of them first: the last one is at the top, or its parent's
key is remembered, or the parent is met next. The climb gives the key that it starts from and the members that it met. -/
def SortKeys.climbRound (cat : Catalog) (keys : SortKeys) :
    Member × List Member → Round (Member × List Member) (Except AxisError (List Nat × List Member))
  | (m, below) =>
    if m.parent = none then .done (.ok ([], m :: below))
    else
      match cat.parentOf m with
      | .error e => .done (.error e)
      | .ok p =>
        match keys.lookup p.uniqueName with
        | some key => .done (.ok (key, m :: below))
        | none => .again (p, m :: below)

/-- The way down from a key: each member has the key of the one before it and its own ordinal, and is remembered with it. -/
def SortKeys.descend (keys : SortKeys) (key : List Nat) : List Member → List Nat × SortKeys
  | [] => (key, keys)
  | m :: below => descend ((m.uniqueName, key ++ [m.ordinal]) :: keys) (key ++ [m.ordinal]) below

/-! ## Catalogs whose chains of parents end -/

variable {cat : Catalog}

/-- Following parents from a member finds at most so many. -/
def Catalog.Bounds (cat : Catalog) : Nat → Member → Prop
  | 0, m => ∀ p, cat.parentOf m ≠ .ok p
  | n + 1, m => ∀ p, cat.parentOf m = .ok p → cat.Bounds n p

/-- The climb to a depth ends, with what climbing one step more than there are parents gives. -/
theorem Catalog.Bounds.ends_climb {n : Nat} {m : Member} (h : cat.Bounds n m) (depth : Nat) :
    Ends (cat.climbRound depth) m (cat.climb depth (n + 1) m) := by
  induction n generalizing m with
  | zero =>
    rw [climb]
    refine .done ?_
    rw [climbRound]
    split
    · rfl
    · cases hp : cat.parentOf m with
      | ok p => exact absurd hp (h p)
      | error e => rfl
  | succ n ih =>
    rw [climb]
    by_cases hd : m.depth ≤ depth
    · rw [if_pos hd]
      exact .done (if_pos hd)
    · rw [if_neg hd]
      cases hp : cat.parentOf m with
      | ok p => exact .again (by rw [climbRound, if_neg hd, hp]) (ih (h p hp))
      | error e => exact .done (by rw [climbRound, if_neg hd, hp]; rfl)

/-- What a climb for a sort key is good for: the way down from it gives the key, and the keys remembered afterwards. -/
def SortKeys.descended (keys : SortKeys) (climbed : Except AxisError (List Nat × List Member)) : Except AxisError (List Nat × SortKeys) :=
  climbed.map fun (key, met) => descend keys key met

/-- The key of a member that is not remembered: its ordinal at the top, and below the top its ordinal after its parent's key. -/
theorem SortKeys.keyUpTo_succ {keys : SortKeys} {m : Member} (hnew : keys.lookup m.uniqueName = none) (n : Nat) :
    keyUpTo cat keys (n + 1) m =
      if m.parent = none then .ok ([m.ordinal], (m.uniqueName, [m.ordinal]) :: keys)
      else cat.parentOf m >>= fun p =>
        (keyUpTo cat keys n p).map fun (above, keys') => (above ++ [m.ordinal], (m.uniqueName, above ++ [m.ordinal]) :: keys') := by
  rw [keyUpTo, hnew]
  cases m.parent with
  | none => rfl
  | some u =>
    cases cat.parentOf m with
    | error e => rfl
    | ok p =>
      simp only [ok_bind, if_neg (Option.some_ne_none u)]
      cases keyUpTo cat keys n p <;> rfl

/-- A key that is remembered is given as it is. -/
theorem SortKeys.keyUpTo_of_lookup {keys : SortKeys} {m : Member} {key : List Nat} (h : keys.lookup m.uniqueName = some key) (n : Nat) :
    keyUpTo cat keys n m = .ok (key, keys) := by
  cases n <;> rw [keyUpTo, h]

/-- The climb for the sort key of a member that is not remembered ends, and the way down from it gives the key. -/
theorem Catalog.Bounds.ends_key {n : Nat} {m : Member} (h : cat.Bounds n m) {keys : SortKeys}
    (hnew : keys.lookup m.uniqueName = none) (below : List Member) :
    ∃ climbed, Ends (SortKeys.climbRound cat keys) (m, below) climbed ∧
      SortKeys.descended keys climbed = (SortKeys.keyUpTo cat keys (n + 1) m).map fun (key, keys') => SortKeys.descend keys' key below := by
  induction n generalizing m below with
  | zero =>
    rw [SortKeys.keyUpTo_succ hnew]
    by_cases htop : m.parent = none
    · exact ⟨_, .done (if_pos htop), by rw [if_pos htop]; rfl⟩
    · cases hp : cat.parentOf m with
      | ok p => exact absurd hp (h p)
      | error e => exact ⟨.error e, .done (by rw [SortKeys.climbRound, if_neg htop, hp]), by rw [if_neg htop]; rfl⟩
  | succ n ih =>
    rw [SortKeys.keyUpTo_succ hnew]
    by_cases htop : m.parent = none
    · exact ⟨_, .done (if_pos htop), by rw [if_pos htop]; rfl⟩
    · rw [if_neg htop]
      cases hp : cat.parentOf m with
      | error e => exact ⟨.error e, .done (by rw [SortKeys.climbRound, if_neg htop, hp]), rfl⟩
      | ok p =>
        cases hl : keys.lookup p.uniqueName with
        | some key =>
          refine ⟨.ok (key, m :: below), .done (by rw [SortKeys.climbRound, if_neg htop, hp]; simp only [hl]), ?_⟩
          rw [ok_bind, SortKeys.keyUpTo_of_lookup hl]
          rfl
        | none =>
          obtain ⟨climbed, hends, hkey⟩ := ih (h p hp) hl (m :: below)
          refine ⟨climbed, .again (by rw [SortKeys.climbRound, if_neg htop, hp]; simp only [hl]) hends, ?_⟩
          rw [hkey, ok_bind]
          cases SortKeys.keyUpTo cat keys (n + 1) p <;> rfl

namespace Outline

variable {o : Outline}

/-! ## Outlines that edits build -/

/-- The parent of a stored member is stored, one level above. -/
theorem Rooted.parentOf_eq_ok (h : o.Rooted) {m p : Member} (hm : o.Holds m) (hp : o.catalog.parentOf m = .ok p) :
    o.Holds p ∧ m.depth = p.depth + 1 := by
  cases hpar : m.parent with
  | none =>
    rw [Catalog.parentOf, hpar] at hp
    cases hp
  | some u =>
    obtain ⟨pm, hpm, rfl, hd, -⟩ := h.above hm hpar
    rw [Catalog.parentOf, hpar] at hp
    obtain rfl := Except.ok.inj (hpm.lookup.symm.trans hp)
    exact ⟨hpm, hd⟩

/-- A stored member has at most as many parents above it as it is deep. -/
theorem Rooted.bounds_of_holds (h : o.Rooted) {n : Nat} {m : Member} (hm : o.Holds m) (hn : m.depth ≤ n) : o.catalog.Bounds n m := by
  induction n generalizing m with
  | zero =>
    intro p hp
    have := (h.parentOf_eq_ok hm hp).2
    omega
  | succ n ih =>
    intro p hp
    obtain ⟨hheld, hd⟩ := h.parentOf_eq_ok hm hp
    exact ih hheld (by omega)

/-- No member, stored or not, has more parents above it than there are members: the first of them is stored. -/
theorem Rooted.bounds (h : o.Rooted) (m : Member) : o.catalog.Bounds o.members.size m := by
  have hfirst : ∀ p, o.catalog.parentOf m = .ok p → o.Holds p := by
    intro p hp
    cases hpar : m.parent with
    | none =>
      rw [Catalog.parentOf, hpar] at hp
      cases hp
    | some u =>
      rw [Catalog.parentOf, hpar] at hp
      obtain ⟨v, hv⟩ := exists_member?_of_lookup hp
      exact h.holds hv
  cases hn : o.members.size with
  | zero =>
    intro p hp
    have := h.height p (hfirst p hp)
    omega
  | succ n =>
    intro p hp
    have := h.height p (hfirst p hp)
    exact h.bounds_of_holds (hfirst p hp) (by omega)

/-- The search among the parents ends, with what searching through as many of them as there can be gives. -/
theorem Rooted.ends_descent (h : o.Rooted) (ancestor : String) {n : Nat} {link : Option String}
    (hlink : ∀ p pm, link = some p → o.member? p = some pm → pm.depth < n) :
    Ends (o.descentRound ancestor) link (o.reaches ancestor n link) := by
  induction n generalizing link with
  | zero =>
    cases link with
    | none => exact .done rfl
    | some p =>
      have hnone : o.member? p = none := by
        cases hp : o.member? p with
        | none => rfl
        | some pm => exact absurd (hlink p pm rfl hp) (Nat.not_lt_zero _)
      rw [reaches]
      by_cases he : p = ancestor
      · rw [beq_iff_eq.2 he]
        exact .done (if_pos he)
      · rw [beq_eq_false_iff_ne.2 he]
        refine .again (if_neg he) ?_
        rw [hnone]
        exact .done rfl
  | succ n ih =>
    cases link with
    | none => exact .done rfl
    | some p =>
      rw [reaches]
      by_cases he : p = ancestor
      · rw [beq_iff_eq.2 he]
        exact .done (if_pos he)
      · rw [beq_eq_false_iff_ne.2 he, Bool.false_or]
        refine .again (if_neg he) (ih ?_)
        intro q qm hq hqm
        obtain ⟨pm, hpm, hpar⟩ := Option.bind_eq_some_iff.1 hq
        obtain ⟨qm', hqm', rfl, hd, -⟩ := h.above (h.holds hpm) hpar
        obtain rfl := Option.some.inj (hqm'.symm.trans hqm)
        have := hlink p pm rfl hpm
        omega

/-- A member is stored under the text of a path of two names more than it is deep, the last of them its own, and its parent is the stored
member of the path without that name. -/
theorem Rooted.follows_names (h : o.Rooted) {u : String} {m : Member} (hu : o.member? u = some m) :
    m.uniqueName = u ∧ ∃ above, MemberPath.text ⟨above ++ [m.name]⟩ = u ∧ above.length = m.depth + 1 ∧
      (m.parent = none ↔ m.depth = 0) ∧
      ∀ p, m.parent = some p → p = MemberPath.text ⟨above⟩ ∧ ∃ pm, o.member? p = some pm ∧ m.depth = pm.depth + 1 := by
  have hm := h.holds hu
  obtain rfl := h.key u m hu
  obtain ⟨htext, hlength⟩ := h.named m hm
  cases hpar : m.parent with
  | none =>
    obtain ⟨hd, hsegments⟩ := h.top hm hpar
    rw [hsegments] at htext
    exact ⟨rfl, [m.hierarchy], htext, by rw [hd]; rfl, iff_of_true rfl hd, fun p hp => nomatch hp⟩
  | some p =>
    obtain ⟨pm, hpm, rfl, hd, hsegments⟩ := h.above hm hpar
    rw [hsegments] at htext
    obtain ⟨hptext, hplength⟩ := h.named pm hpm
    refine ⟨rfl, pm.segments, htext, by omega, iff_of_false (Option.some_ne_none _) (by omega), fun p hp => ?_⟩
    obtain rfl := Option.some.inj hp
    exact ⟨hptext.symm, pm, hpm, hd⟩

/-- The climb for the sort key of a member that is not remembered ends, and the way down from it gives the key. -/
theorem Rooted.ends_key (h : o.Rooted) {keys : SortKeys} {m : Member} (hnew : keys.lookup m.uniqueName = none) :
    ∃ climbed, Ends (SortKeys.climbRound o.catalog keys) (m, []) climbed ∧
      SortKeys.key o.catalog keys m = SortKeys.descended keys climbed := by
  obtain ⟨climbed, hends, hkey⟩ := (h.bounds m).ends_key hnew []
  refine ⟨climbed, hends, ?_⟩
  change SortKeys.keyUpTo o.catalog keys (o.members.size + 1) m = _
  rw [hkey]
  cases SortKeys.keyUpTo o.catalog keys (o.members.size + 1) m <;> rfl

/-- Whatever edits build an outline, repeated names and hierarchies and parents of other hierarchies among them, chains of parents follow
the names. A member is stored under its unique name, the text of a path of two names more than it is deep, the last of them its own; it has
no parent just when it is at the top, and otherwise its parent is the stored member of the path without that name, one level above. Adding
a member that fails leaves the outline as it was. And from every member, stored or not, the three loops that follow parents end: the
search for a name among the parents, the climb to a depth and the climb for a sort key, whatever keys are remembered. -/
theorem parents_follow_names (es : List OutlineEdit) :
    let o := ({} : Outline).editAll es
    (∀ u m, o.member? u = some m → m.uniqueName = u ∧ ∃ above, MemberPath.text ⟨above ++ [m.name]⟩ = u ∧ above.length = m.depth + 1 ∧
      (m.parent = none ↔ m.depth = 0) ∧
      ∀ p, m.parent = some p → p = MemberPath.text ⟨above⟩ ∧ ∃ pm, o.member? p = some pm ∧ m.depth = pm.depth + 1) ∧
    (∀ hierarchy parent name e o', (addMemberInPlace hierarchy parent name).run.run o = (.error e, o') → o' = o) ∧
    (∀ m ancestor, Ends (o.descentRound ancestor) m.parent (o.isBelow m ancestor)) ∧
    (∀ m depth, ∃ climbed, Ends (o.catalog.climbRound depth) m climbed ∧
      o.catalog.ancestorAt m depth = if m.depth < depth then .ok none else climbed.map some) ∧
    (∀ (keys : SortKeys) (m : Member), match keys.lookup m.uniqueName with
      | some key => SortKeys.key o.catalog keys m = .ok (key, keys)
      | none => ∃ climbed, Ends (SortKeys.climbRound o.catalog keys) (m, []) climbed ∧
          SortKeys.key o.catalog keys m = SortKeys.descended keys climbed) := by
  intro o
  have h : o.Rooted := rooted_editAll es
  refine ⟨fun u m => h.follows_names, fun hierarchy parent name e o' hrun => ?_, fun m ancestor => ?_, fun m depth => ?_,
    fun keys m => ?_⟩
  · rw [run_addMemberInPlace] at hrun
    split at hrun
    · nomatch hrun
    · exact (Prod.mk.inj hrun).2.symm
  · exact h.ends_descent ancestor fun p pm _ hpm => h.height pm (h.holds hpm)
  · refine ⟨o.catalog.climb depth o.catalog.height m, (h.bounds m).ends_climb depth, ?_⟩
    rw [Catalog.ancestorAt]
    split
    · rfl
    · cases o.catalog.climb depth o.catalog.height m <;> rfl
  · cases hl : keys.lookup m.uniqueName with
    | some key => exact SortKeys.keyUpTo_of_lookup hl _
    | none => exact h.ends_key hl

/-- Edits in no order: a hierarchy and a member come twice, members stand below one of another hierarchy, and two edits fail. -/
def sampleEdits : List OutlineEdit :=
  [.addHierarchy "A" ["Top", "Low"], .addHierarchy "A" [], .addHierarchy "B" ["Top", "Middle", "Low"], .addMember "A" none "a",
    .addMember "A" none "a", .addMember "B" (some "[A].[a]") "x]", .addMember "A" (some "[A].[a].[x]]]") "z",
    .setLevelVisible "C" "Top" false, .addMember "B" (some "[A].[a].[x]]]") "y"]

/-- The outline after those edits. -/
def sampleEdited : Outline := ({} : Outline).editAll sampleEdits

/-- A member that no outline stores, below one that those edits store. -/
def sampleStranger : Member := ⟨"[C]", "C", "C", 7, 3, some "[A].[a].[x]]].[y]"⟩

/-- After those edits a member of one hierarchy has its parents in another, and from the stranger the loops end. -/
theorem sampleEdits_parents_follow_names :
    (∃ m above pm, sampleEdited.member? "[A].[a].[x]]].[y]" = some m ∧ m.hierarchy = "B" ∧ m.depth = 2 ∧
      MemberPath.text ⟨above ++ ["y"]⟩ = m.uniqueName ∧ m.parent = some (MemberPath.text ⟨above⟩) ∧
      sampleEdited.member? "[A].[a].[x]]]" = some pm ∧ pm.depth = 1) ∧
    Ends (sampleEdited.descentRound "[A].[a]") sampleStranger.parent true ∧
    (∃ a, Ends (sampleEdited.catalog.climbRound 0) sampleStranger (.ok a) ∧ a.ordinal = 1) ∧
    ∃ climbed, Ends (SortKeys.climbRound sampleEdited.catalog []) (sampleStranger, []) climbed ∧
      (SortKeys.descended [] climbed).toOption.map (·.1) = some [1, 0, 0, 3] := by
  obtain ⟨hstored, hbelow, hfound, hkey⟩ :
      (sampleEdited.member? "[A].[a].[x]]].[y]").any (fun m =>
        decide (m.hierarchy = "B" ∧ m.depth = 2 ∧ m.name = "y" ∧ m.parent = some "[A].[a].[x]]]")) = true ∧
      sampleEdited.isBelow sampleStranger "[A].[a]" = true ∧
      (sampleEdited.catalog.ancestorAt sampleStranger 0).toOption.any (fun found =>
        found.any fun a => decide (a.ordinal = 1)) = true ∧
      (SortKeys.key sampleEdited.catalog [] sampleStranger).toOption.map (·.1) = some [1, 0, 0, 3] := by
    decide +kernel
  have h := parents_follow_names sampleEdits
  rw [← sampleEdited] at h
  obtain ⟨hnames, -, hsearch, hancestor, hclimbs⟩ := h
  refine ⟨?_, hbelow ▸ hsearch sampleStranger "[A].[a]", ?_, ?_⟩
  · obtain ⟨m, hm, hspec⟩ := (Option.any_eq_true _ _).1 hstored
    obtain ⟨hh, hd, hname, hpar⟩ := of_decide_eq_true hspec
    obtain ⟨hkey, above, htext, -, -, hparent⟩ := hnames _ m hm
    obtain ⟨hp, pm, hpm, hdepth⟩ := hparent _ hpar
    rw [hname, ← hkey] at htext
    exact ⟨m, above, pm, hm, hh, hd, htext, hp ▸ hpar, hpm, by omega⟩
  · obtain ⟨climbed, hends, hclimbed⟩ := hancestor sampleStranger 0
    rw [if_neg (Nat.not_lt_zero _)] at hclimbed
    obtain ⟨found, hfound, hspec⟩ := exists_of_any_toOption hfound
    rw [hclimbed] at hfound
    cases climbed with
    | error e => nomatch hfound
    | ok a =>
      obtain rfl := Except.ok.inj hfound
      exact ⟨a, hends, of_decide_eq_true hspec⟩
  · obtain ⟨climbed, hends, hclimbed⟩ := hclimbs [] sampleStranger
    exact ⟨climbed, hends, hclimbed ▸ hkey⟩

end Outline

end CubeAxes
