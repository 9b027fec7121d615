import CubeAxes.Resolution.Stepwise
import CubeAxes.Proofs.Answers
import CubeAxes.Proofs.Axis.Laying

/-!
# Resolving step by step comes to resolving and laying

Resolving a set straight into an arena gives what resolving all of it first and laying it afterwards gives, with the same error where it
fails (`Catalog.resolveInto_eq`, `Catalog.resolveAxis_eq`). What is asked of an arena that is not finished yet makes no difference: a set
that was laid stands at its number in whatever arena it was laid (`Arena.selectsNothing_lay`).
-/

namespace CubeAxes

namespace Arena

/-- Joining the nodes of sets that were laid one after the other comes to laying the join of the sets. -/
theorem chain_layAll (form : JoinForm) (nodes : Arena) (ts : List TupleSet) :
    (nodes.layAll ts).1.chain form (nodes.layAll ts).2 = (TupleSet.chain form ts).map nodes.lay := by
  induction ts generalizing nodes with
  | nil => rfl
  | cons t ts ih =>
    cases ts with
    | nil => rfl
    | cons u us =>
      have hjoin : (nodes.layAll (t :: u :: us)).1.chain form (nodes.layAll (t :: u :: us)).2 =
          (((nodes.lay t).1.layAll (u :: us)).1.chain form ((nodes.lay t).1.layAll (u :: us)).2).map fun laid =>
            laid.1.add (.join form (nodes.lay t).2 laid.2) := rfl
      have hchain : TupleSet.chain form (t :: u :: us) = (TupleSet.chain form (u :: us)).map (.join form t) := rfl
      rw [hjoin, ih, hchain, Option.map_map, Option.map_map]
      refine congrArg (fun f => Option.map f _) (funext fun t' => ?_)
      rw [Function.comp_apply, Function.comp_apply, lay]

/-- A set that was laid selects nothing at its number when it selects nothing. -/
theorem selectsNothing_lay (nodes : Arena) (t : TupleSet) : (nodes.lay t).1.selectsNothing (nodes.lay t).2 = t.selectsNothing := by
  rw [selectsNothing_eq, (lay_spec nodes t).2.2]

end Arena

namespace Catalog

variable {cat : Catalog}

/-- The members of a tuple are laid as they are looked up. -/
theorem tupleMembersInto_eq (nodes : Arena) (used : List String) (paths : List MemberPath) :
    cat.tupleMembersInto nodes used paths = (cat.tupleMembers used paths).map fun ms => nodes.layAll (ms.map fun m => .members [m]) := by
  induction paths generalizing nodes used with
  | nil => rfl
  | cons p ps ih =>
    rw [tupleMembersInto, tupleMembers]
    cases cat.lookup p.text with
    | error e => rfl
    | ok m =>
      simp only [ok_bind]
      split
      · rfl
      · rw [ih]
        cases cat.tupleMembers (m.hierarchy :: used) ps <;> rfl

/-- A tuple is laid as it is resolved. -/
theorem resolveTupleInto_eq (nodes : Arena) (paths : List MemberPath) :
    cat.resolveTupleInto nodes paths = (cat.resolveTuple paths).map nodes.lay := by
  rw [resolveTupleInto, resolveTuple, tupleMembersInto_eq]
  cases cat.tupleMembers [] paths with
  | error e => rfl
  | ok ms =>
    have hchain := Arena.chain_layAll .tuple nodes (ms.map fun m => .members [m])
    simp only [ok_bind, Except.map]
    rw [hchain]
    cases TupleSet.chain .tuple (ms.map fun m => .members [m]) <;> rfl

/-- Tuples are laid as they are resolved. -/
theorem resolveTuplesInto_eq (nodes : Arena) (tuples : List (List MemberPath)) :
    cat.resolveTuplesInto nodes tuples = (tuples.mapM cat.resolveTuple).map nodes.layAll := by
  induction tuples generalizing nodes with
  | nil => rfl
  | cons paths tuples ih =>
    rw [resolveTuplesInto, List.mapM_cons, resolveTupleInto_eq]
    cases cat.resolveTuple paths with
    | error e => rfl
    | ok t =>
      simp only [ok_bind, Except.map, ih]
      cases tuples.mapM cat.resolveTuple <;> rfl

/-- What stands in braces is laid as it is resolved. -/
theorem resolveBracedInto_eq (nodes : Arena) (elements : List SetElement) :
    cat.resolveBracedInto nodes elements = (cat.resolveBraced elements).map nodes.lay := by
  rw [resolveBracedInto, resolveBraced]
  simp only
  split
  · rw [resolveMembers]
    cases (elements.filterMap SetElement.reference?).mapM cat.referenced with
    | error e => rfl
    | ok mss =>
      simp only [ok_bind]
      cases mixture? (distinctMembers mss.flatten) <;> rfl
  · split
    · rw [resolveTuplesInto_eq, resolveTuples]
      cases (elements.filterMap SetElement.tuple?).mapM cat.resolveTuple with
      | error e => rfl
      | ok ts =>
        rcases ts with _ | ⟨t, _ | ⟨u, ts⟩⟩ <;> rfl
    · rfl

mutual

/-- A set is laid as it is resolved. -/
theorem resolveInto_eq (nodes : Arena) : (e : SetExpr) → cat.resolveInto nodes e = (cat.resolve e).map nodes.lay
  | .reference r => by
    rw [resolveInto, resolve]
    cases cat.referenced r <;> rfl
  | .braced elements => by rw [resolveInto, resolve, resolveBracedInto_eq]
  | .call .hierarchize args => by rw [resolveInto, resolve, resolveOnlyInto_eq nodes args]
  | .call .crossJoin args => by
    rw [resolveInto, resolve, resolveOperandsInto_eq nodes args]
    cases cat.resolveOperands 1 args with
    | error e => rfl
    | ok ts =>
      have hchain := Arena.chain_layAll .call nodes ts
      simp only [ok_bind, Except.map]
      rw [hchain]
      cases TupleSet.chain .call ts <;> rfl
  | .call .union args => by
    rw [resolveInto, resolve, resolveAllInto_eq nodes args]
    cases cat.resolveAll args with
    | error e => rfl
    | ok ts => rfl

/-- The only one of several sets is laid as it is resolved. -/
theorem resolveOnlyInto_eq (nodes : Arena) : (args : List SetExpr) → cat.resolveOnlyInto nodes args = (cat.resolveOnly args).map nodes.lay
  | [] => rfl
  | [arg] => by rw [resolveOnlyInto, resolveOnly, resolveInto_eq nodes arg]
  | _ :: _ :: _ => rfl

/-- The operands of a join are laid as they are resolved, and an operand is refused that selects nothing. -/
theorem resolveOperandsInto_eq (nodes : Arena) : (args : List SetExpr) → {position : Nat} →
    cat.resolveOperandsInto nodes position args = (cat.resolveOperands position args).map nodes.layAll
  | [], _ => rfl
  | arg :: args, position => by
    rw [resolveOperandsInto, resolveOperands, resolveInto_eq nodes arg]
    cases cat.resolve arg with
    | error e => rfl
    | ok t =>
      simp only [ok_bind, Except.map, Arena.selectsNothing_lay, resolveOperandsInto_eq _ args]
      split
      · rfl
      · cases cat.resolveOperands (position + 1) args <;> rfl

/-- Several sets are laid as they are resolved. -/
theorem resolveAllInto_eq (nodes : Arena) : (args : List SetExpr) →
    cat.resolveAllInto nodes args = (cat.resolveAll args).map nodes.layAll
  | [] => rfl
  | arg :: args => by
    rw [resolveAllInto, resolveAll, resolveInto_eq nodes arg]
    cases cat.resolve arg with
    | error e => rfl
    | ok t =>
      simp only [ok_bind, Except.map, resolveAllInto_eq _ args]
      cases cat.resolveAll args <;> rfl

end

/-- The axis on which a set is put has the nodes that resolving it step by step adds to none. -/
theorem resolveAxis_eq (e : SetExpr) :
    cat.resolveAxis e = (cat.resolveInto #[] e).map fun (nodes, root) => { nodes, root := some root, hierarchize := e.isHierarchized } := by
  rw [resolveAxis, resolveInto_eq]
  cases cat.resolve e <;> rfl

/-- So its nodes and its root are those. -/
theorem exists_resolveInto {e : SetExpr} {axis : Axis} (h : cat.resolveAxis e = .ok axis) :
    ∃ root, cat.resolveInto #[] e = .ok (axis.nodes, root) ∧ axis.root = some root := by
  rw [resolveAxis_eq] at h
  cases hinto : cat.resolveInto #[] e with
  | error _ =>
    rw [hinto] at h
    nomatch h
  | ok laid =>
    rw [hinto] at h
    obtain rfl := Except.ok.inj h
    exact ⟨laid.2, rfl, rfl⟩

end Catalog

end CubeAxes
