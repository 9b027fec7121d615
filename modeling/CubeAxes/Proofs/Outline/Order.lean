import Mathlib.Data.List.Nodup
import CubeAxes.Drill
import CubeAxes.SortKeys
import CubeAxes.Proofs.Outline.Ancestors

/-!
# Hierarchical order

Of two members of a hierarchy one precedes the other when the other lies below it, or when, where their ancestors part, its own
comes first in the catalog (`Outline.Precedes`). Members are put in this order by comparing lists of ordinals; the statements
here say that this is the same (`Consistent.keyLe_of_precedes`, `Consistent.precedes_of_keyLe`), and that remembered keys never
change what a sort gives (`Consistent.sort_eq`). So the order of a set of members depends on the set alone (`Consistent.arranged_congr`).
-/

namespace CubeAxes

namespace SortKeys

/-- Two keys each of which is at most the other are the same. -/
theorem keyLe_antisymm {k l : List Nat} (hkl : keyLe k l) (hlk : keyLe l k) : k = l := by
  induction k generalizing l with
  | nil =>
    cases l with
    | nil => rfl
    | cons n ns => nomatch hlk
  | cons m ms ih =>
    cases l with
    | nil => nomatch hkl
    | cons n ns =>
      rw [keyLe] at hkl hlk
      by_cases h : m = n
      · subst h
        rw [if_pos rfl] at hkl hlk
        rw [ih hkl hlk]
      · rw [if_neg h, decide_eq_true_eq] at hkl
        rw [if_neg (Ne.symm h), decide_eq_true_eq] at hlk
        omega

/-- A key is at most another when it starts it, or when it is smaller at the first place where they differ. -/
theorem keyLe_iff {k l : List Nat} :
    keyLe k l = true ↔ k <+: l ∨ ∃ i m n, k[i]? = some m ∧ l[i]? = some n ∧ m < n ∧ k.take i = l.take i := by
  induction k generalizing l with
  | nil => simp [keyLe]
  | cons a as ih =>
    cases l with
    | nil => simp [keyLe]
    | cons b bs =>
      rw [keyLe]
      by_cases h : a = b
      · subst h
        rw [if_pos rfl, ih, List.cons_prefix_cons]
        constructor
        · rintro (hp | ⟨i, m, n, hm, hn, hlt, ht⟩)
          · exact Or.inl ⟨rfl, hp⟩
          · exact Or.inr ⟨i + 1, m, n, hm, hn, hlt, by rw [List.take_succ_cons, List.take_succ_cons, ht]⟩
        · rintro (⟨-, hp⟩ | ⟨i, m, n, hm, hn, hlt, ht⟩)
          · exact Or.inl hp
          · cases i with
            | zero =>
              obtain rfl := Option.some.inj hm
              obtain rfl := Option.some.inj hn
              omega
            | succ i =>
              rw [List.take_succ_cons, List.take_succ_cons] at ht
              exact Or.inr ⟨i, m, n, hm, hn, hlt, (List.cons.inj ht).2⟩
      · rw [if_neg h, decide_eq_true_eq]
        constructor
        · exact fun hlt => Or.inr ⟨0, a, b, rfl, rfl, hlt, rfl⟩
        · rintro (hp | ⟨i, m, n, hm, hn, hlt, ht⟩)
          · exact absurd (List.cons_prefix_cons.1 hp).1 h
          · cases i with
            | zero =>
              obtain rfl := Option.some.inj hm
              obtain rfl := Option.some.inj hn
              exact hlt
            | succ i =>
              rw [List.take_succ_cons, List.take_succ_cons] at ht
              exact absurd (List.cons.inj ht).1 h

end SortKeys

namespace Outline

variable {o : Outline}

/-! ## The key of a member -/

/-- The ordinals from the top of the hierarchy down to a member. -/
def ordinals (o : Outline) (m : Member) : List Nat := (List.range (m.depth + 1)).map fun d => (o.ancestor m d).ordinal

/-- The ordinals of a member in their places. -/
theorem getElem?_ordinals {m : Member} {d : Nat} (h : d ≤ m.depth) : (o.ordinals m)[d]? = some (o.ancestor m d).ordinal := by
  rw [ordinals, List.getElem?_map, List.getElem?_range (Nat.lt_succ_of_le h)]
  rfl

/-- There are as many ordinals as levels down to the member. -/
@[simp] theorem length_ordinals (m : Member) : (o.ordinals m).length = m.depth + 1 := by
  rw [ordinals, List.length_map, List.length_range]

/-- The key of a member at the top is its ordinal. -/
theorem ordinals_top {m : Member} (hd : m.depth = 0) : o.ordinals m = [m.ordinal] := by
  have h : o.ancestor m 0 = m := by rw [← hd, ancestor_self]
  rw [ordinals, hd, List.range_one, List.map_singleton, h]

/-- The key of a member is that of its parent and its own ordinal. -/
theorem ordinals_below {p m : Member} (hp : o.Holds p) (hpar : m.parent = some p.uniqueName) (hd : m.depth = p.depth + 1) :
    o.ordinals m = o.ordinals p ++ [m.ordinal] := by
  have hself : o.ancestor m (p.depth + 1) = m := by rw [← hd, ancestor_self]
  rw [ordinals, ordinals, hd, List.range_succ, List.map_append, List.map_singleton, hself]
  congr 1
  refine List.map_congr_left fun d hdp => ?_
  rw [ancestor_of_parent hp hpar hd (Nat.lt_succ_iff.1 (List.mem_range.1 hdp))]

/-- Members of a hierarchy with one key are one. -/
theorem Consistent.eq_of_ordinals (hc : Consistent o) {m n : Member} (hm : o.Holds m) (hn : o.Holds n)
    (hh : m.hierarchy = n.hierarchy) (h : o.ordinals m = o.ordinals n) : m = n := by
  have hd : m.depth = n.depth := by
    have := congrArg List.length h
    simpa using this
  have ho : (o.ordinals m)[m.depth]? = (o.ordinals n)[n.depth]? := by rw [h, hd]
  rw [getElem?_ordinals (Nat.le_refl _), getElem?_ordinals (Nat.le_refl _), ancestor_self, ancestor_self] at ho
  exact hc.eq_of_ordinal hm hn hh hd (Option.some.inj ho)

/-! ## The order -/

/-- A member precedes another when the other lies below it, or when their ancestors part below one parent, or at the top, and its
own comes first there. -/
def Precedes (o : Outline) (a b : Member) : Prop :=
  (a.depth < b.depth ∧ o.ancestor b a.depth = a) ∨
    ∃ d, d ≤ a.depth ∧ d ≤ b.depth ∧ (o.ancestor a d).parent = (o.ancestor b d).parent ∧
      (o.ancestor a d).ordinal < (o.ancestor b d).ordinal

/-- Members that are all held and of one hierarchy. -/
def HoldsAll (o : Outline) (hierarchy : String) (ms : List Member) : Prop := ∀ m ∈ ms, o.Holds m ∧ m.hierarchy = hierarchy

/-- The rows of a level are held and of its hierarchy. -/
theorem Consistent.holdsAll_rows (hc : Consistent o) (hierarchy : String) (depth : Nat) :
    o.HoldsAll hierarchy (o.rows hierarchy depth) := by
  intro m hm
  obtain ⟨hheld, hh, -⟩ := hc.mem_rows.1 hm
  exact ⟨hheld, hh⟩

/-- The parent of an ancestor is the ancestor one level above. -/
theorem Consistent.parent_ancestor (hc : Consistent o) {m : Member} (hm : o.Holds m) {d : Nat} (hd : d < m.depth) :
    (o.ancestor m (d + 1)).parent = some (o.ancestor m d).uniqueName := by
  have hx := hc.holds_ancestor hm (Nat.succ_le_of_lt hd)
  have hxd := hc.depth_ancestor hm (Nat.succ_le_of_lt hd)
  rw [← hc.ancestor_ancestor hm (Nat.le_succ d) hd]
  generalize o.ancestor m (d + 1) = x at hx hxd
  cases hpar : x.parent with
  | none =>
    have := hc.top x hx hpar
    omega
  | some u =>
    obtain ⟨p, hp, rfl, -, hpd⟩ := hc.above x u hx hpar
    obtain rfl : d = p.depth := by omega
    rw [ancestor_of_parent hp hpar hpd (Nat.le_refl _), ancestor_self]

/-- The ancestor at the top has no parent. -/
theorem Consistent.parent_ancestor_zero (hc : Consistent o) {m : Member} (hm : o.Holds m) : (o.ancestor m 0).parent = none := by
  cases hpar : (o.ancestor m 0).parent with
  | none => rfl
  | some u =>
    obtain ⟨p, -, -, -, hpd⟩ := hc.above _ u (hc.holds_ancestor hm (Nat.zero_le _)) hpar
    rw [hc.depth_ancestor hm (Nat.zero_le _)] at hpd
    omega

/-- Ancestors under one parent, or at the top of one hierarchy, have the same ancestors above them. -/
theorem Consistent.ancestor_eq_of_parent_eq (hc : Consistent o) {a b : Member} (ha : o.Holds a) (hb : o.Holds b) {d : Nat}
    (hda : d ≤ a.depth) (hdb : d ≤ b.depth) (h : (o.ancestor a d).parent = (o.ancestor b d).parent) {e : Nat} (he : e < d) :
    o.ancestor a e = o.ancestor b e := by
  obtain ⟨d, rfl⟩ : ∃ d', d = d' + 1 := ⟨d - 1, by omega⟩
  rw [hc.parent_ancestor ha hda, hc.parent_ancestor hb hdb] at h
  have heq : o.ancestor a d = o.ancestor b d :=
    (hc.holds_ancestor ha (Nat.le_of_lt hda)).eq_of_uniqueName (hc.holds_ancestor hb (Nat.le_of_lt hdb)) (Option.some.inj h)
  rw [← hc.ancestor_ancestor ha (Nat.le_of_lt_succ he) (Nat.le_of_lt hda), heq,
    hc.ancestor_ancestor hb (Nat.le_of_lt_succ he) (Nat.le_of_lt hdb)]

/-- Keys that agree down to a depth come from one ancestor there. -/
theorem Consistent.ancestor_eq_of_ordinals (hc : Consistent o) {a b : Member} (ha : o.Holds a) (hb : o.Holds b)
    (hh : a.hierarchy = b.hierarchy) {d : Nat} (hda : d ≤ a.depth) (hdb : d ≤ b.depth)
    (h : (o.ordinals a)[d]? = (o.ordinals b)[d]?) : o.ancestor a d = o.ancestor b d := by
  rw [getElem?_ordinals hda, getElem?_ordinals hdb] at h
  refine hc.eq_of_ordinal (hc.holds_ancestor ha hda) (hc.holds_ancestor hb hdb) ?_ ?_ (Option.some.inj h)
  · rw [hc.hierarchy_ancestor ha hda, hc.hierarchy_ancestor hb hdb, hh]
  · rw [hc.depth_ancestor ha hda, hc.depth_ancestor hb hdb]

/-- The key of a member starts those of the members of which it is the ancestor. -/
theorem Consistent.prefix_ordinals_iff (hc : Consistent o) {a b : Member} (ha : o.Holds a) (hb : o.Holds b)
    (hh : a.hierarchy = b.hierarchy) :
    o.ordinals a <+: o.ordinals b ↔ a.depth ≤ b.depth ∧ o.ancestor b a.depth = a := by
  constructor
  · rintro ⟨t, ht⟩
    have hle : a.depth ≤ b.depth := by
      have := congrArg List.length ht
      rw [List.length_append, length_ordinals, length_ordinals] at this
      omega
    have hanc : o.ancestor a a.depth = o.ancestor b a.depth := by
      refine hc.ancestor_eq_of_ordinals ha hb hh (Nat.le_refl _) hle ?_
      rw [← ht, List.getElem?_append_left (by rw [length_ordinals]; omega)]
    rw [ancestor_self] at hanc
    exact ⟨hle, hanc.symm⟩
  · rintro ⟨hle, hanc⟩
    rw [List.prefix_iff_eq_take, length_ordinals]
    refine List.ext_getElem? fun i => ?_
    rw [List.getElem?_take]
    split
    · next hi =>
      have hi' : i ≤ a.depth := by omega
      rw [getElem?_ordinals hi', getElem?_ordinals (by omega), ← hc.ancestor_ancestor hb hi' hle, hanc]
    · next hi => exact List.getElem?_eq_none (by rw [length_ordinals]; omega)

/-- Of a member and one that it precedes the keys are in order. -/
theorem Consistent.keyLe_of_precedes (hc : Consistent o) {a b : Member} (ha : o.Holds a) (hb : o.Holds b)
    (h : o.Precedes a b) : SortKeys.keyLe (o.ordinals a) (o.ordinals b) = true := by
  rw [SortKeys.keyLe_iff]
  rcases h with ⟨hlt, hanc⟩ | ⟨d, hda, hdb, hpar, hord⟩
  · -- the key of a member starts the keys below it
    have hh : a.hierarchy = b.hierarchy := by
      rw [← hanc, hc.hierarchy_ancestor hb (Nat.le_of_lt hlt)]
    exact Or.inl ((hc.prefix_ordinals_iff ha hb hh).2 ⟨Nat.le_of_lt hlt, hanc⟩)
  · -- above the place where the ancestors part they are the same
    refine Or.inr ⟨d, _, _, getElem?_ordinals hda, getElem?_ordinals hdb, hord, ?_⟩
    refine List.ext_getElem? fun i => ?_
    rw [List.getElem?_take, List.getElem?_take]
    split
    · next hi =>
      rw [getElem?_ordinals (by omega), getElem?_ordinals (by omega), hc.ancestor_eq_of_parent_eq ha hb hda hdb hpar hi]
    · rfl

/-- Of two members of a hierarchy whose keys are in order the first precedes the other or is the other. -/
theorem Consistent.precedes_of_keyLe (hc : Consistent o) {a b : Member} (ha : o.Holds a) (hb : o.Holds b)
    (hh : a.hierarchy = b.hierarchy) (h : SortKeys.keyLe (o.ordinals a) (o.ordinals b) = true) (hne : a ≠ b) :
    o.Precedes a b := by
  rcases SortKeys.keyLe_iff.1 h with hprefix | ⟨i, m, n, hm, hn, hlt, ht⟩
  · obtain ⟨hle, hanc⟩ := (hc.prefix_ordinals_iff ha hb hh).1 hprefix
    refine Or.inl ⟨Nat.lt_of_le_of_ne hle fun hd => hne ?_, hanc⟩
    rw [← hanc, hd, ancestor_self]
  · have hia : i ≤ a.depth := by
      have := (List.getElem?_eq_some_iff.1 hm).1
      rw [length_ordinals] at this
      omega
    have hib : i ≤ b.depth := by
      have := (List.getElem?_eq_some_iff.1 hn).1
      rw [length_ordinals] at this
      omega
    rw [getElem?_ordinals hia] at hm
    rw [getElem?_ordinals hib] at hn
    obtain rfl := Option.some.inj hm
    obtain rfl := Option.some.inj hn
    refine Or.inr ⟨i, hia, hib, ?_, hlt⟩
    cases i with
    | zero => rw [hc.parent_ancestor_zero ha, hc.parent_ancestor_zero hb]
    | succ i =>
      have hi : (o.ordinals a)[i]? = (o.ordinals b)[i]? := by
        have := congrArg (·[i]?) ht
        simpa [List.getElem?_take] using this
      rw [hc.parent_ancestor ha hia, hc.parent_ancestor hb hib,
        hc.ancestor_eq_of_ordinals ha hb hh (Nat.le_of_lt hia) (Nat.le_of_lt hib) hi]

/-- No member precedes itself. -/
theorem not_precedes_self (a : Member) : ¬o.Precedes a a := by
  rintro (⟨hlt, -⟩ | ⟨d, -, -, -, hord⟩)
  · omega
  · omega

/-- Of two members of which one precedes the other, the other does not precede it. -/
theorem Consistent.precedes_asymm (hc : Consistent o) {a b : Member} (ha : o.Holds a) (hb : o.Holds b)
    (hh : a.hierarchy = b.hierarchy) (h : o.Precedes a b) : ¬o.Precedes b a := by
  intro h'
  have heq := SortKeys.keyLe_antisymm (hc.keyLe_of_precedes ha hb h) (hc.keyLe_of_precedes hb ha h')
  obtain rfl := hc.eq_of_ordinals ha hb hh heq
  exact not_precedes_self a h

/-- A member does not lie below one that it precedes. -/
theorem Consistent.isBelow_of_precedes (hc : Consistent o) {a b : Member} (ha : o.Holds a) (hb : o.Holds b)
    (hh : a.hierarchy = b.hierarchy) (h : o.Precedes a b) : o.isBelow a b.uniqueName = false := by
  rw [← Bool.not_eq_true]
  intro hbelow
  obtain ⟨hlt, hanc⟩ := (hc.isBelow_iff ha hb).1 hbelow
  exact hc.precedes_asymm ha hb hh h (Or.inl ⟨hlt, hanc⟩)

/-- Members under one parent are at one depth. -/
theorem Consistent.depth_eq_of_parent_eq (hc : Consistent o) {a b : Member} (ha : o.Holds a) (hb : o.Holds b)
    (hpar : a.parent = b.parent) : a.depth = b.depth := by
  cases hp : a.parent with
  | none => rw [hc.top a ha hp, hc.top b hb (hpar ▸ hp)]
  | some u =>
    obtain ⟨p, hpm, hpu, -, hpa⟩ := hc.above a u ha hp
    obtain ⟨q, hqm, hqu, -, hqb⟩ := hc.above b u hb (hpar ▸ hp)
    obtain rfl := hpm.eq_of_uniqueName hqm (hpu.trans hqu.symm)
    exact hpa.trans hqb.symm

/-- Of two members under one parent the one that precedes the other comes first in the catalog. -/
theorem Consistent.ordinal_lt_of_precedes (hc : Consistent o) {a b : Member} (ha : o.Holds a) (hb : o.Holds b)
    (h : o.Precedes a b) (hpar : a.parent = b.parent) : a.ordinal < b.ordinal := by
  have hdepth := hc.depth_eq_of_parent_eq ha hb hpar
  rcases h with ⟨hlt, -⟩ | ⟨d, hda, hdb, -, hord⟩
  · omega
  · have hself : (o.ancestor a a.depth).parent = (o.ancestor b a.depth).parent := by
      rw [ancestor_self, hdepth, ancestor_self]
      exact hpar
    rcases Nat.lt_or_eq_of_le hda with hlt | rfl
    · rw [hc.ancestor_eq_of_parent_eq ha hb (Nat.le_refl _) (Nat.le_of_eq hdepth) hself hlt] at hord
      exact absurd hord (Nat.lt_irrefl _)
    · rw [ancestor_self, hdepth, ancestor_self] at hord
      exact hord

/-! ## Sorting with remembered keys -/

/-- Whether a member's key is at most another's. -/
def orderLe (o : Outline) (a b : Member) : Bool := SortKeys.keyLe (o.ordinals a) (o.ordinals b)

/-- Keys remembered under the names of members that are held are the keys of these members. -/
def Remembers (o : Outline) (keys : SortKeys) : Prop := ∀ m key, o.Holds m → keys.lookup m.uniqueName = some key → key = o.ordinals m

/-- To begin with nothing is remembered. -/
theorem remembers_nil (o : Outline) : o.Remembers [] := by
  intro m key _ h
  nomatch h

/-- Remembering the key of one more member keeps what is remembered right. -/
theorem Remembers.cons {keys : SortKeys} (h : o.Remembers keys) {m : Member} (hm : o.Holds m) :
    o.Remembers ((m.uniqueName, o.ordinals m) :: keys) := by
  intro n key hn hl
  rw [List.lookup_cons] at hl
  split at hl
  · next he =>
    obtain rfl := hn.eq_of_uniqueName hm (by simpa using he)
    exact (Option.some.inj hl).symm
  · exact h n key hn hl

/-- Working out the key of a member gives its ordinals, whatever is remembered, and remembers nothing wrong. -/
theorem Consistent.keyUpTo_eq (hc : Consistent o) {m : Member} (hm : o.Holds m) {keys : SortKeys} (hk : o.Remembers keys)
    {n : Nat} (hn : m.depth ≤ n) :
    ∃ keys', SortKeys.keyUpTo o.catalog keys n m = .ok (o.ordinals m, keys') ∧ o.Remembers keys' := by
  induction m, hm using hc.induction generalizing n keys with
  | top m hm hpar hz =>
    rw [SortKeys.keyUpTo.eq_def]
    cases hl : keys.lookup m.uniqueName with
    | some key =>
      obtain rfl := hk m key hm hl
      refine ⟨keys, ?_, hk⟩
      simp only [hl]
    | none =>
      simp only [hl, hpar]
      rw [ordinals_top hz]
      exact ⟨_, rfl, ordinals_top hz ▸ hk.cons hm⟩
  | below p m hp hm hpar _ hdepth ih =>
    rw [SortKeys.keyUpTo.eq_def]
    cases hl : keys.lookup m.uniqueName with
    | some key =>
      obtain rfl := hk m key hm hl
      refine ⟨keys, ?_, hk⟩
      simp only [hl]
    | none =>
      obtain ⟨n, rfl⟩ : ∃ n', n = n' + 1 := ⟨n - 1, by omega⟩
      obtain ⟨keys', hkey, hk'⟩ := ih hk (Nat.le_of_succ_le_succ (hdepth ▸ hn))
      simp only [hl, hpar, hp.parentOf hpar, ok_bind, hkey]
      rw [← ordinals_below hp hpar hdepth]
      exact ⟨_, rfl, hk'.cons hm⟩

/-- Members that are held all have keys. -/
theorem Consistent.keyed_eq (hc : Consistent o) {ms : List Member} (hms : ∀ m ∈ ms, o.Holds m) {keys : SortKeys}
    (hk : o.Remembers keys) :
    ∃ keys', SortKeys.keyed o.catalog keys ms = (.ok (ms.map fun m => (o.ordinals m, m)), keys') ∧ o.Remembers keys' := by
  induction ms generalizing keys with
  | nil => exact ⟨keys, rfl, hk⟩
  | cons m ms ih =>
    have hm := hms m List.mem_cons_self
    obtain ⟨keys', hkey, hk'⟩ := hc.keyUpTo_eq hm hk (Nat.le_succ_of_le (Nat.le_of_lt (hc.height m hm)))
    obtain ⟨keys'', hrest, hk''⟩ := ih (fun n hn => hms n (List.mem_cons_of_mem m hn)) hk'
    refine ⟨keys'', ?_, hk''⟩
    have hkey' : SortKeys.key o.catalog keys m = .ok (o.ordinals m, keys') := hkey
    simp only [SortKeys.keyed, hkey', hrest]
    rfl

/-- Sorting members that are held puts them in order, whatever is remembered, and remembers nothing wrong. -/
theorem Consistent.sort_eq (hc : Consistent o) {ms : List Member} (hms : ∀ m ∈ ms, o.Holds m) {keys : SortKeys}
    (hk : o.Remembers keys) :
    ∃ keys', keys.sort o.catalog ms = (.ok (sortBy o.orderLe ms), keys') ∧ o.Remembers keys' := by
  obtain ⟨keys', hkeyed, hk'⟩ := hc.keyed_eq hms hk
  refine ⟨keys', ?_, hk'⟩
  have hmap := map_sortBy o.orderLe (fun a b => SortKeys.keyLe a.1 b.1) (fun m => (o.ordinals m, m)) (fun _ _ => rfl) ms
  simp only [SortKeys.sort, hkeyed, Except.map, ← hmap, List.map_map]
  rw [Prod.mk.injEq, Except.ok.injEq]
  exact ⟨List.map_id _, rfl⟩

/-! ## Members put in order -/

/-- Members in hierarchical order, none of them twice. -/
def arranged (o : Outline) (ms : List Member) : List Member := sortBy o.orderLe (distinctMembers ms)

/-- The order of keys, as a total order of members. -/
theorem orderLe_total (o : Outline) (a b : Member) : o.orderLe a b || o.orderLe b a := SortKeys.keyLe_total _ _

theorem orderLe_trans (o : Outline) (a b c : Member) (hab : o.orderLe a b) (hbc : o.orderLe b c) : o.orderLe a c :=
  SortKeys.keyLe_trans hab hbc

/-- In the order of keys no two members of a hierarchy each precede the other. -/
theorem Consistent.orderLe_antisymm (hc : Consistent o) {a b : Member} (ha : o.Holds a) (hb : o.Holds b)
    (hh : a.hierarchy = b.hierarchy) (hab : o.orderLe a b) (hba : o.orderLe b a) : a = b :=
  hc.eq_of_ordinals ha hb hh (SortKeys.keyLe_antisymm hab hba)

/-- Distinct members are not repeated. -/
theorem nodup_distinctMembers (ms : List Member) : (distinctMembers ms).Nodup :=
  List.Nodup.of_map _ (nodup_map_distinctOn Member.uniqueName ms)

/-- Of members that are held, those that are distinct are all of them. -/
theorem mem_distinctMembers {ms : List Member} (hms : ∀ m ∈ ms, o.Holds m) {m : Member} : m ∈ distinctMembers ms ↔ m ∈ ms :=
  mem_distinctOn_iff fun a ha b hb h => (hms a ha).eq_of_uniqueName (hms b hb) h

/-- Putting members in order keeps them. -/
theorem mem_arranged {ms : List Member} (hms : ∀ m ∈ ms, o.Holds m) {m : Member} : m ∈ o.arranged ms ↔ m ∈ ms := by
  rw [arranged, mem_sortBy, mem_distinctMembers hms]

/-- No unique name stands twice in members put in order. -/
theorem nodup_map_arranged (o : Outline) (ms : List Member) : ((o.arranged ms).map (·.uniqueName)).Nodup :=
  ((sortBy_perm _ _).map _).nodup_iff.2 (nodup_map_distinctOn Member.uniqueName ms)

/-- Members put in order are of the hierarchy of which they were. -/
theorem HoldsAll.arranged {hierarchy : String} {ms : List Member} (h : o.HoldsAll hierarchy ms) :
    o.HoldsAll hierarchy (o.arranged ms) := fun m hm => h m ((mem_arranged fun n hn => (h n hn).1).1 hm)

/-- Members of a hierarchy put in order stand in hierarchical order. -/
theorem Consistent.pairwise_arranged (hc : Consistent o) {hierarchy : String} {ms : List Member}
    (h : o.HoldsAll hierarchy ms) : (o.arranged ms).Pairwise o.Precedes := by
  have hne : (o.arranged ms).Pairwise (· ≠ ·) := List.Nodup.of_map _ (nodup_map_arranged o ms)
  have hle := (sortBy_pairwise o.orderLe_trans o.orderLe_total (distinctMembers ms)).and hne
  refine hle.imp_of_mem fun {a b} ha hb hab => ?_
  obtain ⟨hha, hah⟩ := h.arranged a ha
  obtain ⟨hhb, hbh⟩ := h.arranged b hb
  exact hc.precedes_of_keyLe hha hhb (hah.trans hbh.symm) hab.1 hab.2

/-- Members in hierarchical order are put in order already. -/
theorem Consistent.arranged_of_pairwise (hc : Consistent o) {ms : List Member} (hms : ∀ m ∈ ms, o.Holds m)
    (h : ms.Pairwise o.Precedes) : o.arranged ms = ms := by
  have hnodup : (ms.map (·.uniqueName)).Nodup := by
    refine List.pairwise_map.2 (h.imp_of_mem fun {a b} ha hb hab e => ?_)
    obtain rfl := (hms a ha).eq_of_uniqueName (hms b hb) e
    exact not_precedes_self a hab
  rw [arranged, distinctMembers, distinctOn_of_nodup hnodup]
  exact sortBy_of_pairwise (h.imp_of_mem fun ha hb hab => hc.keyLe_of_precedes (hms _ ha) (hms _ hb) hab)

/-- Two lists of the same members of a hierarchy are put in the same order. -/
theorem Consistent.arranged_congr (hc : Consistent o) {hierarchy : String} {ms ns : List Member}
    (h : o.HoldsAll hierarchy ms) (hmem : ∀ m, m ∈ ms ↔ m ∈ ns) : o.arranged ms = o.arranged ns := by
  have hms : ∀ m ∈ ms, o.Holds m := fun m hm => (h m hm).1
  have hns : ∀ m ∈ ns, o.Holds m := fun m hm => hms m ((hmem m).2 hm)
  have hperm : (distinctMembers ms).Perm (distinctMembers ns) := by
    rw [List.perm_ext_iff_of_nodup (nodup_distinctMembers ms) (nodup_distinctMembers ns)]
    intro m
    rw [mem_distinctMembers hms, mem_distinctMembers hns, hmem]
  refine sortBy_eq_of_perm o.orderLe_trans o.orderLe_total ?_ hperm
  intro a ha b hb hab hba
  obtain ⟨hha, hah⟩ := h a ((mem_distinctMembers hms).1 ha)
  obtain ⟨hhb, hbh⟩ := h b ((mem_distinctMembers hms).1 hb)
  exact hc.orderLe_antisymm hha hhb (hah.trans hbh.symm) hab hba

end Outline

end CubeAxes
