import CubeAxes.Proofs.Axis.Rebuilding
import CubeAxes.Proofs.Catalog.Interruption

/-!
# Outages: catalogs that answer nothing

During an outage every question fails for one reason, so only those members can be sorted whose keys are at hand: they are at the
top of their hierarchy, or their keys are remembered. Working out keys brings none to hand that was not before, so whether an axis
can be built anew is settled beforehand by the members that are to stand on it (`Outline.Consistent.rebuilt_of_outage`).
-/

namespace CubeAxes

/-- The catalog all of whose questions fail for a reason. -/
abbrev Catalog.outage (cat : Catalog) (reason : String) : Catalog := cat.interrupted fun _ => some reason

/-- During an outage there is one error that is an interruption. -/
theorem Interruption.eq_of_outage {reason : String} {e : AxisError} (h : Interruption (fun _ => some reason) e) :
    e = .catalog (.unavailable reason) := by
  obtain ⟨_, r, hr, rfl⟩ := h
  rw [Option.some.inj hr]

/-- During an outage no parent is looked up. -/
theorem Catalog.parentOf_outage (cat : Catalog) (reason : String) {m : Member} (h : m.parent ≠ none) :
    (cat.outage reason).parentOf m = .error (.catalog (.unavailable reason)) := by
  rw [parentOf]
  cases hp : m.parent with
  | none => exact absurd hp h
  | some p => rfl

namespace Outline

variable {o : Outline}

/-- The key of a member is at hand when it can be told without asking the catalog. -/
def AtHand (keys : SortKeys) (m : Member) : Prop := m.parent = none ∨ (keys.lookup m.uniqueName).isSome

/-- Keys that were worked out are right, and no others are at hand than were before. -/
def SameAtHand (o : Outline) (keys keys' : SortKeys) : Prop :=
  o.Remembers keys' ∧ ∀ m, o.Holds m → (AtHand keys' m ↔ AtHand keys m)

/-- Remembering the key of a member at the top brings no other key to hand. -/
theorem SameAtHand.cons {keys : SortKeys} (hk : o.Remembers keys) {m : Member} (hm : o.Holds m) (hp : m.parent = none) :
    o.SameAtHand keys ((m.uniqueName, o.ordinals m) :: keys) := by
  refine ⟨hk.cons hm, fun n hn => ?_⟩
  unfold AtHand
  rw [List.lookup_cons]
  by_cases he : n.uniqueName = m.uniqueName
  · obtain rfl := hn.eq_of_uniqueName hm he
    exact iff_of_true (Or.inl hp) (Or.inl hp)
  · rw [beq_eq_false_iff_ne.2 he]

/-- During an outage a member whose key is at hand has it, and other members have none. -/
theorem Consistent.key_of_outage (hc : Consistent o) (reason : String) {m : Member} (hm : o.Holds m) {keys : SortKeys}
    (hk : o.Remembers keys) :
    (AtHand keys m ∧ ∃ keys', SortKeys.key (o.catalog.outage reason) keys m = .ok (o.ordinals m, keys') ∧
        o.SameAtHand keys keys') ∨
      (¬AtHand keys m ∧ SortKeys.key (o.catalog.outage reason) keys m = .error (.catalog (.unavailable reason))) := by
  have hheight : (o.catalog.outage reason).height = o.members.size + 1 := rfl
  rw [SortKeys.key, hheight, SortKeys.keyUpTo.eq_def]
  unfold AtHand
  cases hl : keys.lookup m.uniqueName with
  | some key =>
    obtain rfl := hk m key hm hl
    exact Or.inl ⟨Or.inr rfl, keys, by simp only [hl], hk, fun _ _ => Iff.rfl⟩
  | none =>
    cases hp : m.parent with
    | none =>
      have hkeys := SameAtHand.cons hk hm hp
      rw [ordinals_top (hc.top m hm hp)] at hkeys ⊢
      exact Or.inl ⟨Or.inl rfl, _, by simp only [hl, hp], hkeys⟩
    | some p =>
      have hparent := o.catalog.parentOf_outage reason (hp ▸ Option.some_ne_none p : m.parent ≠ none)
      exact Or.inr ⟨by simp, by simp only [hl, hp, hparent, error_bind]⟩

/-- During an outage members have keys when those of all of them are at hand. -/
theorem Consistent.keyed_of_outage (hc : Consistent o) (reason : String) {ms : List Member} (hms : ∀ m ∈ ms, o.Holds m)
    {keys : SortKeys} (hk : o.Remembers keys) :
    ((∀ m ∈ ms, AtHand keys m) ∧ ∃ keys', SortKeys.keyed (o.catalog.outage reason) keys ms =
        (.ok (ms.map fun m => (o.ordinals m, m)), keys') ∧ o.SameAtHand keys keys') ∨
      ((∃ m ∈ ms, ¬AtHand keys m) ∧ ∃ keys', SortKeys.keyed (o.catalog.outage reason) keys ms =
        (.error (.catalog (.unavailable reason)), keys')) := by
  induction ms generalizing keys with
  | nil => exact Or.inl ⟨fun m hm => absurd hm List.not_mem_nil, keys, rfl, hk, fun _ _ => Iff.rfl⟩
  | cons m ms ih =>
    obtain ⟨hm, hms'⟩ := List.forall_mem_cons.1 hms
    rw [SortKeys.keyed]
    rcases hc.key_of_outage reason hm hk with ⟨hhand, keys', hkey, hk', hsame⟩ | ⟨hhand, hkey⟩
    · rcases ih hms' hk' with ⟨hall, keys'', hrest, hk'', hsame'⟩ | ⟨⟨n, hn, hnot⟩, keys'', hrest⟩
      · refine Or.inl ⟨List.forall_mem_cons.2 ⟨hhand, fun n hn => (hsame n (hms' n hn)).1 (hall n hn)⟩, keys'', ?_, hk'',
          fun n hn => (hsame' n hn).trans (hsame n hn)⟩
        simp only [hkey, hrest]
        rfl
      · refine Or.inr ⟨⟨n, List.mem_cons_of_mem m hn, fun h => hnot ((hsame n (hms' n hn)).2 h)⟩, keys'', ?_⟩
        simp only [hkey, hrest]
        rfl
    · refine Or.inr ⟨⟨m, List.mem_cons_self, hhand⟩, keys, ?_⟩
      simp only [hkey]

/-- During an outage members are put in order when the keys of all of them are at hand. -/
theorem Consistent.sort_of_outage (hc : Consistent o) (reason : String) {ms : List Member} (hms : ∀ m ∈ ms, o.Holds m)
    {keys : SortKeys} (hk : o.Remembers keys) :
    ((∀ m ∈ ms, AtHand keys m) ∧ ∃ keys', keys.sort (o.catalog.outage reason) ms = (.ok (sortBy o.orderLe ms), keys') ∧
        o.SameAtHand keys keys') ∨
      ((∃ m ∈ ms, ¬AtHand keys m) ∧ ∃ keys', keys.sort (o.catalog.outage reason) ms =
        (.error (.catalog (.unavailable reason)), keys')) := by
  rcases hc.keyed_of_outage reason hms hk with ⟨hall, keys', hkeyed, hk'⟩ | ⟨hnot, keys', hkeyed⟩
  · refine Or.inl ⟨hall, keys', ?_, hk'⟩
    have hmap := map_sortBy o.orderLe (fun a b => SortKeys.keyLe a.1 b.1) (fun m => (o.ordinals m, m)) (fun _ _ => rfl) ms
    simp only [SortKeys.sort, hkeyed, Except.map, ← hmap, List.map_map]
    rw [Prod.mk.injEq, Except.ok.injEq]
    exact ⟨List.map_id _, rfl⟩
  · refine Or.inr ⟨hnot, keys', ?_⟩
    simp only [SortKeys.sort, hkeyed]
    rfl

/-- During an outage the members of every selection are put in order when the keys of all of them are at hand. -/
theorem Consistent.sortedSets_of_outage (hc : Consistent o) (reason : String) {ss : List Selection} (hss : ∀ s ∈ ss, o.Sorts s)
    {keys : SortKeys} (hk : o.Remembers keys) :
    ((∀ s ∈ ss, ∀ m ∈ s.members, AtHand keys m) ∧
        (sortedSets (o.catalog.outage reason) keys ss).1 = .ok (ss.map fun s => o.arranged s.members)) ∨
      ((∃ s ∈ ss, ∃ m ∈ s.members, ¬AtHand keys m) ∧
        (sortedSets (o.catalog.outage reason) keys ss).1 = .error (.catalog (.unavailable reason))) := by
  induction ss generalizing keys with
  | nil => exact Or.inl ⟨fun s hs => absurd hs List.not_mem_nil, rfl⟩
  | cons s ss ih =>
    obtain ⟨hs, hss'⟩ := List.forall_mem_cons.1 hss
    have hheld : ∀ m ∈ s.members, o.Holds m := fun m hm => (hs m hm).1
    have hdistinct : ∀ m, m ∈ distinctMembers s.members ↔ m ∈ s.members := fun m => mem_distinctMembers hheld
    rw [sortedSets]
    rcases hc.sort_of_outage reason (fun m hm => hheld m ((hdistinct m).1 hm)) hk with
      ⟨hall, keys', hsort, hk', hsame⟩ | ⟨⟨m, hm, hnot⟩, keys', hsort⟩
    · have hhere : ∀ m ∈ s.members, AtHand keys m := fun m hm => hall m ((hdistinct m).2 hm)
      rcases ih hss' hk' with ⟨hrest, heq⟩ | ⟨⟨t, ht, m, hm, hnot⟩, heq⟩
      · refine Or.inl ⟨List.forall_mem_cons.2 ⟨hhere, fun t ht m hm => ?_⟩, ?_⟩
        · exact (hsame m (hss' t ht m hm).1).1 (hrest t ht m hm)
        · simp only [hsort, heq]
          rfl
      · refine Or.inr ⟨⟨t, List.mem_cons_of_mem s ht, m, hm, fun h => hnot ((hsame m (hss' t ht m hm).1).2 h)⟩, ?_⟩
        simp only [hsort, heq]
        rfl
    · refine Or.inr ⟨⟨s, List.mem_cons_self, m, (hdistinct m).1 hm, hnot⟩, ?_⟩
      simp only [hsort]

/-- During an outage an axis is built anew when the keys of all its members are at hand, and otherwise not. -/
theorem Consistent.rebuilt_of_outage (hc : Consistent o) (reason : String) {ss : List Selection} (hss : ∀ s ∈ ss, o.Sorts s)
    {keys : SortKeys} (hk : o.Remembers keys) (hierarchize : Bool) :
    ((∀ s ∈ ss, ∀ m ∈ s.members, AtHand keys m) ∧ (rebuilt (o.catalog.outage reason) keys hierarchize ss).1 =
        Axis.ofSets (ss.map fun s => o.arranged s.members) hierarchize) ∨
      ((∃ s ∈ ss, ∃ m ∈ s.members, ¬AtHand keys m) ∧
        (rebuilt (o.catalog.outage reason) keys hierarchize ss).1 = .error (.catalog (.unavailable reason))) := by
  simp only [rebuilt]
  rcases hc.sortedSets_of_outage reason hss hk with ⟨hall, heq⟩ | ⟨hnot, heq⟩
  · refine Or.inl ⟨hall, ?_⟩
    rw [heq]
    rfl
  · refine Or.inr ⟨hnot, ?_⟩
    rw [heq]
    rfl

end Outline

end CubeAxes
