import CubeAxes.Proofs.Grammar.Writing
import CubeAxes.Proofs.Resolution.Sound

/-!
# Reading the text of a set back

The text of a sound set spells a set expression that resolves to a set with the same text, the same members in the same places, and
tuples if the set had some (`Outline.Sound.rereads`). The set itself need not come back: a union of many branches is read as unions
of two nested to the left, and a union of one branch as the branch.
-/

namespace CubeAxes

/-- Members of one hierarchy mix no hierarchies. -/
theorem mixture?_eq_none {ms : List Member} {hierarchy : String} (h : ∀ m ∈ ms, m.hierarchy = hierarchy) : mixture? ms = none := by
  cases ms with
  | nil => rfl
  | cons m ms =>
    refine Option.map_eq_none_iff.2 (List.find?_eq_none.2 fun n hn => ?_)
    rw [h m List.mem_cons_self, h n (List.mem_cons_of_mem m hn)]
    simp

/-- The texts of several sets are those of each in turn. -/
theorem TupleSet.texts_eq (render : RenderOptions) (ts : List TupleSet) : texts render ts = ts.map (text render) := by
  induction ts with
  | nil => rfl
  | cons t ts ih => simp [texts, ih]

namespace Outline

variable {o : Outline}

/-! ## Naming members -/

/-- Members that are held are named by paths whose texts are their unique names. -/
theorem Consistent.exists_paths (hc : Consistent o) {ms : List Member} (hms : ∀ m ∈ ms, o.Holds m) :
    ∃ paths : List MemberPath, paths.map (·.text) = ms.map (·.uniqueName) ∧ ∀ p ∈ paths, p.segments ≠ [] := by
  induction ms with
  | nil => exact ⟨[], rfl, fun p hp => absurd hp List.not_mem_nil⟩
  | cons m ms ih =>
    obtain ⟨p, hne, hp⟩ := hc.path m (hms m List.mem_cons_self)
    obtain ⟨ps, hps, hnes⟩ := ih fun n hn => hms n (List.mem_cons_of_mem m hn)
    refine ⟨p :: ps, ?_, List.forall_mem_cons.2 ⟨hne, hnes⟩⟩
    rw [List.map_cons, List.map_cons, hp, hps]

/-- References to members by their unique names name these members, one by one. -/
theorem mapM_referenced_eq {ms : List Member} (hms : ∀ m ∈ ms, o.Holds m) {paths : List MemberPath}
    (hp : paths.map (·.text) = ms.map (·.uniqueName)) :
    (paths.map Reference.member).mapM o.catalog.referenced = .ok (ms.map fun m => [m]) := by
  induction ms generalizing paths with
  | nil =>
    obtain rfl := List.map_eq_nil_iff.1 hp
    rfl
  | cons m ms ih =>
    obtain ⟨p, ps, rfl, hpm, hps⟩ := List.map_eq_cons_iff.1 hp
    have hm : o.catalog.referenced (.member p) = .ok [m] := by
      rw [Catalog.referenced, hpm, (hms m List.mem_cons_self).lookup]
      rfl
    rw [List.map_cons, List.mapM_cons, hm, ih (fun n hn => hms n (List.mem_cons_of_mem m hn)) hps]
    rfl

/-- Members of different hierarchies, none of which is used already, are those of the tuple of their unique names. -/
theorem tupleMembers_eq {ms : List Member} (hms : ∀ m ∈ ms, o.Holds m) (hnodup : (ms.map (·.hierarchy)).Nodup)
    {used : List String} (hused : ∀ m ∈ ms, m.hierarchy ∉ used) {paths : List MemberPath}
    (hp : paths.map (·.text) = ms.map (·.uniqueName)) : o.catalog.tupleMembers used paths = .ok ms := by
  induction ms generalizing used paths with
  | nil =>
    obtain rfl := List.map_eq_nil_iff.1 hp
    rfl
  | cons m ms ih =>
    obtain ⟨p, ps, rfl, hpm, hps⟩ := List.map_eq_cons_iff.1 hp
    obtain ⟨hm, hms'⟩ := List.forall_mem_cons.1 hms
    rw [List.map_cons, List.nodup_cons] at hnodup
    have hused' : ∀ n ∈ ms, n.hierarchy ∉ m.hierarchy :: used := by
      intro n hn hin
      rcases List.mem_cons.1 hin with he | hin
      · exact hnodup.1 (he ▸ List.mem_map_of_mem hn)
      · exact hused n (List.mem_cons_of_mem m hn) hin
    rw [Catalog.tupleMembers, hpm, hm.lookup, ok_bind, if_neg (hused m List.mem_cons_self), ih hms' hnodup.2 hused' hps]
    rfl

/-! ## Reading back -/

/-- A text is read back as a set that has this text again and these members, and that has no tuples if it is said to have none. -/
def Rereads (o : Outline) (render : RenderOptions) (s : String) (ms : List Member) (nothing : Bool) : Prop :=
  ∃ e t, Grammar.Writes s e ∧ e.isHierarchized = false ∧ o.catalog.resolve e = .ok t ∧ t.text render = s ∧
    t.memberSets.flatten = ms ∧ t.selectsNothing = nothing

/-- Distinct members of a hierarchy in braces are read back. -/
theorem Consistent.rereads_members (hc : Consistent o) (render : RenderOptions) {hierarchy : String} {ms : List Member}
    (hms : o.HoldsAll hierarchy ms) (hnodup : (ms.map (·.uniqueName)).Nodup) :
    o.Rereads render ("\x7b" ++ memberList ms ++ "\x7d") ms ms.isEmpty := by
  have hheld : ∀ m ∈ ms, o.Holds m := fun m hm => (hms m hm).1
  obtain ⟨paths, hp, hne⟩ := hc.exists_paths hheld
  have hlist : MemberPath.listText paths = memberList ms := congrArg (String.intercalate ", ") hp
  have hw := Grammar.writes_members hne
  rw [hlist] at hw
  refine ⟨_, .members ms, hw, rfl, ?_, rfl, List.flatten_singleton, rfl⟩
  have htuples : (paths.map fun p => SetElement.reference (.member p)).filterMap SetElement.tuple? = [] := by
    simp [List.filterMap_map, Function.comp_def, SetElement.tuple?]
  have hreferences : (paths.map fun p => SetElement.reference (.member p)).filterMap SetElement.reference? =
      paths.map Reference.member := by
    simp [List.filterMap_map, Function.comp_def, SetElement.reference?]
  have hflat : (ms.map fun m => [m]).flatten = ms := by
    rw [← List.flatMap_def]
    exact List.flatMap_singleton' ms
  rw [Catalog.resolve, Catalog.resolveBraced]
  simp only [htuples, if_true, hreferences, Catalog.resolveMembers, mapM_referenced_eq hheld hp, ok_bind, hflat, distinctMembers,
    distinctOn_of_nodup hnodup, mixture?_eq_none fun m hm => (hms m hm).2]
  rfl

/-- A tuple of members of different hierarchies in braces is read back. -/
theorem Consistent.rereads_tuple (hc : Consistent o) (render : RenderOptions) {ms : List Member} (hms : ∀ m ∈ ms, o.Holds m)
    (hnodup : (ms.map (·.hierarchy)).Nodup) {t : TupleSet}
    (ht : TupleSet.chain .tuple (ms.map fun m => .members [m]) = some t) :
    o.Rereads render (t.text render) ms t.selectsNothing := by
  cases ms with
  | nil => nomatch ht
  | cons m ms =>
    cases ms with
    | nil =>
      obtain rfl := Option.some.inj ht
      have hm : o.HoldsAll m.hierarchy [m] := by
        intro n hn
        obtain rfl := List.mem_singleton.1 hn
        exact ⟨hms n hn, rfl⟩
      exact hc.rereads_members render hm (List.nodup_singleton _)
    | cons n ms =>
      obtain ⟨t', -, rfl⟩ := Option.map_eq_some_iff.1 ht
      obtain ⟨paths, hp, hne⟩ := hc.exists_paths hms
      have hlist : MemberPath.listText paths = memberList (m :: n :: ms) := congrArg (String.intercalate ", ") hp
      have hpaths : paths ≠ [] := by
        rintro rfl
        nomatch hp
      have hflat := TupleSet.flatten_memberSets_of_singles ht
      have hw := Grammar.writes_tuple hpaths hne
      rw [hlist, ← hflat] at hw
      refine ⟨_, _, hw, rfl, ?_, rfl, hflat, rfl⟩
      have htuple : o.catalog.resolveTuple paths = .ok (.join .tuple (.members [m]) t') := by
        rw [Catalog.resolveTuple, tupleMembers_eq hms hnodup (fun _ _ => List.not_mem_nil) hp, ok_bind, ht]
        rfl
      rw [Catalog.resolve, Catalog.resolveBraced]
      simp [SetElement.tuple?, Catalog.resolveTuples, htuple]
      rfl

variable {render : RenderOptions} {s s' : String} {ms ms' : List Member} {nothing nothing' : Bool}

/-- A call that joins two sets with tuples is read back. -/
theorem Rereads.crossJoin (h : o.Rereads render s ms false) (h' : o.Rereads render s' ms' false) :
    o.Rereads render (SetFunction.crossJoin.callText render [s, s']) (ms ++ ms') false := by
  obtain ⟨e, t, hw, -, hr, rfl, rfl, hn⟩ := h
  obtain ⟨e', t', hw', -, hr', rfl, rfl, hn'⟩ := h'
  refine ⟨_, .join .call t t', Grammar.writes_call_pair .crossJoin render hw hw' rfl, rfl, ?_, ?_, ?_, ?_⟩
  · simp only [Catalog.resolve, Catalog.resolveOperands, hr, hr', hn, hn', ok_bind]
    rfl
  · rw [TupleSet.text]
  · rw [TupleSet.memberSets, List.flatten_append]
  · rw [TupleSet.selectsNothing, hn, hn', Bool.or_false]

/-- A call that unites two sets is read back. -/
theorem Rereads.union (h : o.Rereads render s ms nothing) (h' : o.Rereads render s' ms' nothing') :
    o.Rereads render (SetFunction.union.callText render [s, s']) (ms ++ ms') (nothing && nothing') := by
  obtain ⟨e, t, hw, -, hr, rfl, rfl, rfl⟩ := h
  obtain ⟨e', t', hw', -, hr', rfl, rfl, rfl⟩ := h'
  refine ⟨_, .union [t, t'], Grammar.writes_call_pair .union render hw hw' rfl, rfl, ?_, ?_, ?_, ?_⟩
  · simp only [Catalog.resolve, Catalog.resolveAll, hr, hr', ok_bind]
    rfl
  · rw [TupleSet.text, TupleSet.texts_eq]
    rfl
  · simp [TupleSet.memberSets, TupleSet.memberSetsAll]
  · simp [TupleSet.selectsNothing, TupleSet.allSelectNothing]

/-- Calls that unite one set after the other with what is on their left are read back. -/
theorem Rereads.foldl {branches : List TupleSet}
    (hb : ∀ t ∈ branches, o.Rereads render (t.text render) t.memberSets.flatten t.selectsNothing)
    (h : o.Rereads render s ms nothing) :
    o.Rereads render ((branches.map (·.text render)).foldl (fun left right => SetFunction.union.callText render [left, right]) s)
      (ms ++ (branches.flatMap (·.memberSets)).flatten) (nothing && branches.all (·.selectsNothing)) := by
  induction branches generalizing s ms nothing with
  | nil => simpa using h
  | cons t branches ih =>
    obtain ⟨ht, hb'⟩ := List.forall_mem_cons.1 hb
    have hall := ih hb' (h.union ht)
    simp only [List.append_assoc, Bool.and_assoc] at hall
    simpa using hall

/-- A sound set is read back from its text. -/
theorem Sound.rereads (hc : Consistent o) {t : TupleSet} (h : o.Sound t) (render : RenderOptions) :
    o.Rereads render (t.text render) t.memberSets.flatten t.selectsNothing := by
  induction h with
  | @members hierarchy ms hms hnodup =>
    rw [TupleSet.memberSets, List.flatten_singleton, TupleSet.selectsNothing, TupleSet.text]
    exact hc.rereads_members render hms hnodup
  | join _ _ hl hr ihl ihr =>
    rw [hl] at ihl
    rw [hr] at ihr
    rw [TupleSet.memberSets, List.flatten_append, TupleSet.selectsNothing, hl, hr, TupleSet.text]
    exact ihl.crossJoin ihr
  | tuple hms hnodup ht =>
    rw [TupleSet.flatten_memberSets_of_singles ht]
    exact hc.rereads_tuple render hms hnodup ht
  | @union branches _ ih =>
    rw [TupleSet.memberSets, TupleSet.memberSetsAll_eq, TupleSet.selectsNothing, TupleSet.allSelectNothing_eq, TupleSet.text,
      TupleSet.texts_eq]
    cases branches with
    | nil =>
      have hempty : o.HoldsAll "" [] := fun m hm => absurd hm List.not_mem_nil
      have hread := hc.rereads_members render hempty List.nodup_nil
      rw [memberList, List.map_nil, String.intercalate_nil] at hread
      exact hread
    | cons t ts =>
      obtain ⟨ht, hts⟩ := List.forall_mem_cons.1 ih
      have hfold := Rereads.foldl hts ht
      rw [← List.flatten_append] at hfold
      exact hfold

end Outline

end CubeAxes
