import CubeAxes.Ancestry
import CubeAxes.Sorted

/-!
# Sort keys: putting parents before children and siblings in catalog order

The key of a member is the list of ordinals from the top of its hierarchy down to the member, and keys are compared as lists, so
a parent's key, which starts its children's, is less than theirs. Keys that were worked out are remembered by unique name, and a
member whose name is remembered has the remembered key. They are remembered only when the climb to the top succeeded, and what is
remembered stays so when a later member fails.
-/

namespace CubeAxes

/-- The keys that are remembered, the latest first. -/
abbrev SortKeys : Type := List (String × List Nat)

namespace SortKeys

/-- The key of a member, and the keys remembered afterwards, with at most so many steps up. -/
def keyUpTo (cat : Catalog) (keys : SortKeys) : Nat → Member → Except AxisError (List Nat × SortKeys)
  | bound, m =>
    match keys.lookup m.uniqueName, m.parent with
    | some key, _ => .ok (key, keys)
    | none, none => .ok ([m.ordinal], (m.uniqueName, [m.ordinal]) :: keys)
    | none, some _ =>
      match bound with
      | 0 => .error (Catalog.noParent m)
      | n + 1 => do
        let (above, keys) ← keyUpTo cat keys n (← cat.parentOf m)
        let key := above ++ [m.ordinal]
        return (key, (m.uniqueName, key) :: keys)

/-- The key of a member, and the keys remembered afterwards. -/
def key (cat : Catalog) (keys : SortKeys) (m : Member) : Except AxisError (List Nat × SortKeys) :=
  keyUpTo cat keys cat.height m

/-- Members with their keys, and the keys remembered afterwards, also when a member has none. -/
def keyed (cat : Catalog) (keys : SortKeys) : List Member → Except AxisError (List (List Nat × Member)) × SortKeys
  | [] => (.ok [], keys)
  | m :: ms =>
    match key cat keys m with
    | .error e => (.error e, keys)
    | .ok (key, keys) =>
      let (rest, keys) := keyed cat keys ms
      (rest.map ((key, m) :: ·), keys)

/-- Whether a key is at most another: at the first difference the smaller ordinal decides, and a key that starts another comes
before it. -/
def keyLe : List Nat → List Nat → Bool
  | [], _ => true
  | _ :: _, [] => false
  | m :: ms, n :: ns => if m = n then keyLe ms ns else decide (m < n)

/-- Of two keys one is at most the other. -/
theorem keyLe_total (k l : List Nat) : keyLe k l || keyLe l k := by
  induction k generalizing l with
  | nil => rfl
  | cons m ms ih =>
    cases l with
    | nil => rfl
    | cons n ns =>
      by_cases h : m = n
      · simpa [keyLe, h] using ih ns
      · simp only [keyLe, if_neg h, if_neg (Ne.symm h), Bool.or_eq_true, decide_eq_true_eq]
        omega

/-- The order of keys is transitive. -/
theorem keyLe_trans {k l n : List Nat} (hkl : keyLe k l) (hln : keyLe l n) : keyLe k n := by
  induction k generalizing l n with
  | nil => rfl
  | cons a as ih =>
    match l, n, hkl, hln with
    | b :: bs, c :: cs, hkl, hln =>
      rw [keyLe] at hkl hln ⊢
      by_cases hab : a = b
      · subst hab
        by_cases hac : a = c
        · simp only [hac, reduceIte] at hkl hln ⊢
          exact ih hkl hln
        · simpa [hac] using hln
      · have hlt : a < b := by simpa [hab] using hkl
        by_cases hbc : b = c
        · subst hbc
          simpa [hab] using hlt
        · have hlt' : b < c := by simpa [hbc] using hln
          have hac : a ≠ c := by omega
          simp only [hac, reduceIte, decide_eq_true_eq]
          omega

/-- Members sorted by their keys, equal keys as they were, and the keys remembered afterwards. -/
def sort (cat : Catalog) (keys : SortKeys) (ms : List Member) : Except AxisError (List Member) × SortKeys :=
  let (keyed, keys) := keyed cat keys ms
  (keyed.map fun kms => (sortBy (fun a b => keyLe a.1 b.1) kms).map (·.2), keys)

end SortKeys

end CubeAxes
