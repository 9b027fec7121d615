import CubeAxes.Resolution
import CubeAxes.Proofs.Answers

/-!
# Other spellings of a set

A set expression asks the catalog for members only by the texts of the paths in its references. So expressions that differ in these paths
alone, each path being looked up like the one in its place, resolve alike (`Catalog.resolveAxis_respelled`): to axes that are the same node
for node, or to the same error.
-/

namespace CubeAxes

/-! ## Expressions that are written alike -/

/-- References of one kind to related paths. -/
inductive Reference.Respelled (R : MemberPath → MemberPath → Prop) : Reference → Reference → Prop
  | member {p q : MemberPath} : R p q → Respelled R (.member p) (.member q)
  | children {p q : MemberPath} : R p q → Respelled R (.children p) (.children q)

/-- References of one kind to related paths, or tuples of related paths. -/
inductive SetElement.Respelled (R : MemberPath → MemberPath → Prop) : SetElement → SetElement → Prop
  | reference {r s : Reference} : r.Respelled R s → Respelled R (.reference r) (.reference s)
  | tuple {ps qs : List MemberPath} : List.Forall₂ R ps qs → Respelled R (.tuple ps) (.tuple qs)

/-- Set expressions that are written alike, but for related paths in their references. -/
inductive SetExpr.Respelled (R : MemberPath → MemberPath → Prop) : SetExpr → SetExpr → Prop
  | reference {r s : Reference} : r.Respelled R s → Respelled R (.reference r) (.reference s)
  | braced {es es' : List SetElement} : List.Forall₂ (SetElement.Respelled R) es es' → Respelled R (.braced es) (.braced es')
  | call {f : SetFunction} {args args' : List SetExpr} :
      List.Forall₂ (Respelled R) args args' → Respelled R (.call f args) (.call f args')

variable {R : MemberPath → MemberPath → Prop}

/-- Expressions that are written alike have their tuples in the same places. -/
theorem SetElement.respelled_tuples {es es' : List SetElement} (h : List.Forall₂ (SetElement.Respelled R) es es') :
    List.Forall₂ (List.Forall₂ R) (es.filterMap SetElement.tuple?) (es'.filterMap SetElement.tuple?) := by
  refine List.rel_filterMap (fun {e e'} he => ?_) h
  cases he with
  | reference _ => exact .none
  | tuple hps => exact .some hps

/-- Expressions that are written alike have their references in the same places. -/
theorem SetElement.respelled_references {es es' : List SetElement} (h : List.Forall₂ (SetElement.Respelled R) es es') :
    List.Forall₂ (Reference.Respelled R) (es.filterMap SetElement.reference?) (es'.filterMap SetElement.reference?) := by
  refine List.rel_filterMap (fun {e e'} he => ?_) h
  cases he with
  | reference hr => exact .some hr
  | tuple _ => exact .none

/-- Expressions that are written alike are both hierarchized at the outside or both not. -/
theorem SetExpr.Respelled.isHierarchized_eq {e e' : SetExpr} (h : e.Respelled R e') : e.isHierarchized = e'.isHierarchized := by
  cases h with
  | reference _ => rfl
  | braced _ => rfl
  | @call f _ _ _ => cases f <;> rfl

/-! ## What they resolve to -/

namespace Catalog

/-- Related paths are looked up alike: to the same member, or with the same error. -/
def LooksUpAlike (cat : Catalog) (R : MemberPath → MemberPath → Prop) : Prop := ∀ p q, R p q → cat.lookup p.text = cat.lookup q.text

variable {cat : Catalog}

/-- References to paths that are looked up alike name the same members. -/
theorem referenced_respelled (hR : cat.LooksUpAlike R) {r s : Reference} (h : r.Respelled R s) : cat.referenced r = cat.referenced s := by
  cases h with
  | member hpq => rw [referenced, referenced, hR _ _ hpq]
  | children hpq => rw [referenced, referenced, hR _ _ hpq]

/-- Tuples of paths that are looked up alike hold the same members. -/
theorem tupleMembers_respelled (hR : cat.LooksUpAlike R) {ps qs : List MemberPath} (h : List.Forall₂ R ps qs) (used : List String) :
    cat.tupleMembers used ps = cat.tupleMembers used qs := by
  induction h generalizing used with
  | nil => rfl
  | cons hpq _ ih => simp only [tupleMembers, hR _ _ hpq, ih]

/-- Sets in braces whose paths are looked up alike resolve alike. -/
theorem resolveBraced_respelled (hR : cat.LooksUpAlike R) {es es' : List SetElement} (h : List.Forall₂ (SetElement.Respelled R) es es') :
    cat.resolveBraced es = cat.resolveBraced es' := by
  have htuples := SetElement.respelled_tuples h
  have hmembers : cat.resolveMembers (es.filterMap SetElement.reference?) = cat.resolveMembers (es'.filterMap SetElement.reference?) := by
    rw [resolveMembers, resolveMembers,
      mapM_congr_of_forall₂ ((SetElement.respelled_references h).imp fun _ _ => referenced_respelled hR)]
  have htupled : cat.resolveTuples (es.filterMap SetElement.tuple?) = cat.resolveTuples (es'.filterMap SetElement.tuple?) := by
    have hone : ∀ ps qs, List.Forall₂ R ps qs → cat.resolveTuple ps = cat.resolveTuple qs := fun ps qs hpq => by
      rw [resolveTuple, resolveTuple, tupleMembers_respelled hR hpq]
    rw [resolveTuples, resolveTuples, mapM_congr_of_forall₂ (htuples.imp hone)]
  have hnil : es.filterMap SetElement.tuple? = [] ↔ es'.filterMap SetElement.tuple? = [] := by
    rw [← List.length_eq_zero_iff, ← List.length_eq_zero_iff, htuples.length_eq]
  simp only [resolveBraced, hmembers, htupled, hnil, htuples.length_eq, h.length_eq]

mutual

/-- Expressions whose paths are looked up alike resolve alike. -/
theorem resolve_respelled (hR : cat.LooksUpAlike R) : (e : SetExpr) → {e' : SetExpr} →
    e.Respelled R e' → cat.resolve e = cat.resolve e'
  | .reference r, _, .reference h => by rw [resolve, resolve, referenced_respelled hR h]
  | .braced es, _, .braced h => by rw [resolve, resolve, resolveBraced_respelled hR h]
  | .call .hierarchize args, _, .call h => by rw [resolve, resolve, resolveOnly_respelled hR args h]
  | .call .crossJoin args, _, .call h => by rw [resolve, resolve, resolveOperands_respelled hR args h]
  | .call .union args, _, .call h => by rw [resolve, resolve, resolveAll_respelled hR args h]

/-- Single arguments whose paths are looked up alike resolve alike, and other numbers of arguments are refused alike. -/
theorem resolveOnly_respelled (hR : cat.LooksUpAlike R) : (args : List SetExpr) → {args' : List SetExpr} →
    List.Forall₂ (SetExpr.Respelled R) args args' → cat.resolveOnly args = cat.resolveOnly args'
  | [], _, .nil => rfl
  | [arg], _, .cons h .nil => by rw [resolveOnly, resolveOnly, resolve_respelled hR arg h]
  | _ :: _ :: _, _, .cons _ (.cons _ hs) => by
    simp only [resolveOnly, List.length_cons, hs.length_eq]

/-- Operands whose paths are looked up alike resolve alike. -/
theorem resolveOperands_respelled (hR : cat.LooksUpAlike R) : (args : List SetExpr) → {args' : List SetExpr} →
    List.Forall₂ (SetExpr.Respelled R) args args' → ∀ position, cat.resolveOperands position args = cat.resolveOperands position args'
  | [], _, .nil, _ => rfl
  | arg :: args, _, .cons h hs, position => by
    rw [resolveOperands, resolveOperands, resolve_respelled hR arg h, resolveOperands_respelled hR args hs]

/-- Branches whose paths are looked up alike resolve alike. -/
theorem resolveAll_respelled (hR : cat.LooksUpAlike R) : (args : List SetExpr) → {args' : List SetExpr} →
    List.Forall₂ (SetExpr.Respelled R) args args' → cat.resolveAll args = cat.resolveAll args'
  | [], _, .nil => rfl
  | arg :: args, _, .cons h hs => by rw [resolveAll, resolveAll, resolve_respelled hR arg h, resolveAll_respelled hR args hs]

end

/-- Expressions whose paths are looked up alike resolve to the same axis or fail alike. -/
theorem resolveAxis_respelled (hR : cat.LooksUpAlike R) {e e' : SetExpr} (h : e.Respelled R e') :
    cat.resolveAxis e = cat.resolveAxis e' := by
  rw [resolveAxis, resolveAxis, resolve_respelled hR e h, h.isHierarchized_eq]

end Catalog

end CubeAxes
