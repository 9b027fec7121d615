import CubeAxes.Placement
import CubeAxes.Resolution
import CubeAxes.Proofs.Answers

/-!
# Interrupted catalogs

An interrupted catalog can bring what is done with it to an end, and nothing else: whatever asks it answers as it would over the catalog
behind it, or passes an interruption on (`FailStop`). This is kept by every way in which answers are put together, and so it holds of
mutations (`Mutation.failStop_run`) and of resolving sets (`Catalog.failStop_resolveAxis`). What succeeds over an interrupted catalog
succeeds in the same way over the one behind it (`FailStop.eq_ok`).
-/

namespace CubeAxes

/-- The errors by which an interruption is passed on. -/
def Interruption (down : CatalogCall → Option String) (e : AxisError) : Prop :=
  ∃ call reason, down call = some reason ∧ e = .catalog (.unavailable reason)

/-- What comes of something over an interrupted catalog, beside what comes of it over the catalog itself: the same or an
interruption. -/
def FailStop {α : Type} (down : CatalogCall → Option String) (x y : Except AxisError α) : Prop :=
  x = y ∨ ∃ e, Interruption down e ∧ x = .error e

/-- The same where something is handed on beside the answer, which counts only if the answer does. -/
def FailStopWith {α σ : Type} (down : CatalogCall → Option String) (x y : Except AxisError α × σ) : Prop :=
  x = y ∨ ∃ e, Interruption down e ∧ x.1 = .error e

variable {down : CatalogCall → Option String} {α β σ : Type}

/-! ## Putting answers together -/

namespace FailStop

theorem refl (x : Except AxisError α) : FailStop down x x := Or.inl rfl

/-- What is done with the answer of a question that may be interrupted, and may be interrupted itself. -/
theorem bind {x y : Except AxisError α} {f g : α → Except AxisError β} (h : FailStop down x y)
    (hfg : ∀ a, FailStop down (f a) (g a)) : FailStop down (x >>= f) (y >>= g) := by
  rcases h with rfl | ⟨e, he, rfl⟩
  · cases x with
    | error e => exact refl (.error e)
    | ok a => exact hfg a
  · exact Or.inr ⟨e, he, rfl⟩

/-- What is made of an answer. -/
theorem map {x y : Except AxisError α} (h : FailStop down x y) (f : α → β) : FailStop down (x.map f) (y.map f) :=
  h.bind fun a => refl (.ok (f a))

/-- Several questions one after the other. -/
theorem mapM {f g : α → Except AxisError β} (h : ∀ a, FailStop down (f a) (g a)) (l : List α) :
    FailStop down (l.mapM f) (l.mapM g) := by
  induction l with
  | nil => exact refl _
  | cons a l ih =>
    rw [List.mapM_cons, List.mapM_cons]
    exact (h a).bind fun b => ih.bind fun bs => refl _

/-- Questions each of which depends on the answers before it. -/
theorem foldlM {f g : β → α → Except AxisError β} (h : ∀ b a, FailStop down (f b a) (g b a)) (b : β) (l : List α) :
    FailStop down (l.foldlM f b) (l.foldlM g b) := by
  induction l generalizing b with
  | nil => exact refl _
  | cons a l ih =>
    rw [List.foldlM_cons, List.foldlM_cons]
    exact (h b a).bind ih

/-- Errors that are put into other words, an interruption excepted. -/
theorem mapError {x y : Except AxisError α} (h : FailStop down x y) {f : AxisError → AxisError}
    (hf : ∀ e, Interruption down e → f e = e) : FailStop down (x.mapError f) (y.mapError f) := by
  rcases h with rfl | ⟨e, he, rfl⟩
  · exact refl _
  · exact Or.inr ⟨e, he, congrArg Except.error (hf e he)⟩

/-- An answer that comes through is the one that the catalog itself leads to. -/
theorem eq_ok {x y : Except AxisError α} (h : FailStop down x y) {a : α} (hx : x = .ok a) : y = .ok a := by
  rcases h with rfl | ⟨e, -, he⟩
  · exact hx
  · rw [he] at hx
    nomatch hx

/-- An error, where the catalog itself leads to an answer, is an interruption. -/
theorem interruption {x y : Except AxisError α} (h : FailStop down x y) {e : AxisError} {a : α} (hx : x = .error e)
    (hy : y = .ok a) : Interruption down e := by
  rcases h with heq | ⟨e', he', heq⟩
  · nomatch hx.symm.trans (heq.trans hy)
  · rwa [Except.error.inj (hx.symm.trans heq)]

end FailStop

theorem FailStopWith.refl (x : Except AxisError α × σ) : FailStopWith down x x := Or.inl rfl

theorem FailStopWith.fst {x y : Except AxisError α × σ} (h : FailStopWith down x y) : FailStop down x.1 y.1 := by
  rcases h with rfl | h
  · exact FailStop.refl _
  · exact Or.inr h

/-! ## Questions to the catalog -/

/-- A question that is answered unless it is interrupted. -/
theorem FailStop.of_call (call : CatalogCall) {x y : Except CatalogError α}
    (h : x = match down call with | some reason => .error (.unavailable reason) | none => y) :
    FailStop down (asked x) (asked y) := by
  cases hd : down call with
  | some reason =>
    rw [h, hd]
    exact Or.inr ⟨_, ⟨call, reason, hd, rfl⟩, rfl⟩
  | none =>
    rw [h, hd]
    exact refl _

namespace Catalog

variable (down) (cat : Catalog)

theorem failStop_levelsOf (hierarchy : String) :
    FailStop down (asked ((cat.interrupted down).levelsOf hierarchy)) (asked (cat.levelsOf hierarchy)) :=
  FailStop.of_call (.levelsOf hierarchy) rfl

theorem failStop_membersOf (level : Level) (ancestor : Option Member) :
    FailStop down (asked ((cat.interrupted down).membersOf level ancestor)) (asked (cat.membersOf level ancestor)) :=
  FailStop.of_call (.membersOf level ancestor) rfl

theorem failStop_member (name : String) :
    FailStop down (asked ((cat.interrupted down).member name)) (asked (cat.member name)) :=
  FailStop.of_call (.member name) rfl

theorem failStop_lookup (name : String) : FailStop down ((cat.interrupted down).lookup name) (cat.lookup name) :=
  (cat.failStop_member down name).bind fun _ => FailStop.refl _

/-! ## Ancestors and drilling -/

theorem failStop_parentOf (m : Member) : FailStop down ((cat.interrupted down).parentOf m) (cat.parentOf m) := by
  rw [parentOf, parentOf]
  split
  · exact FailStop.refl _
  · exact cat.failStop_lookup down _

theorem failStop_climb (depth n : Nat) (m : Member) :
    FailStop down ((cat.interrupted down).climb depth n m) (cat.climb depth n m) := by
  induction n generalizing m with
  | zero => exact FailStop.refl _
  | succ n ih =>
    rw [climb, climb]
    split
    · exact FailStop.refl _
    · exact (cat.failStop_parentOf down m).bind ih

theorem failStop_ancestorAt (m : Member) (depth : Nat) :
    FailStop down ((cat.interrupted down).ancestorAt m depth) (cat.ancestorAt m depth) := by
  rw [ancestorAt, ancestorAt]
  split
  · exact FailStop.refl _
  · exact (cat.failStop_climb down depth cat.height m).bind fun _ => FailStop.refl _

theorem failStop_descendants (level : Level) (anchors : List Member) :
    FailStop down ((cat.interrupted down).descendants level anchors) (cat.descendants level anchors) :=
  (FailStop.mapM (fun a => cat.failStop_membersOf down level (some a)) anchors).bind fun _ => FailStop.refl _

theorem failStop_ancestors (depth : Nat) (ms : List Member) :
    FailStop down ((cat.interrupted down).ancestors depth ms) (cat.ancestors depth ms) :=
  (FailStop.mapM (fun m => cat.failStop_ancestorAt down m depth) ms).bind fun _ => FailStop.refl _

theorem failStop_expand (selected : List Member) (level : Level) :
    FailStop down ((cat.interrupted down).expand selected level) (cat.expand selected level) := by
  rw [expand, expand]
  split
  · exact (cat.failStop_descendants down level _).bind fun _ => FailStop.refl _
  · exact (cat.failStop_ancestors down level.depth selected).bind fun _ => FailStop.refl _

end Catalog

theorem Axis.failStop_visibleLevelsOf (down : CatalogCall → Option String) (cat : Catalog) (axis : Axis) (hierarchy : String) :
    FailStop down (axis.visibleLevelsOf (cat.interrupted down) hierarchy) (axis.visibleLevelsOf cat hierarchy) := by
  rw [visibleLevelsOf, visibleLevelsOf]
  split
  · exact FailStop.refl _
  · exact (cat.failStop_levelsOf down hierarchy).bind fun _ => FailStop.refl _

/-! ## Editing selections -/

namespace Edit

variable (down) (cat : Catalog) (axis : Axis)

theorem failStop_adding (level : Level) (position : Int) :
    FailStop down (adding (cat.interrupted down) axis level position) (adding cat axis level position) := by
  unfold adding
  dsimp only
  split
  · exact FailStop.refl _
  · split
    · exact (cat.failStop_expand down _ level).bind fun _ => FailStop.refl _
    · exact (cat.failStop_membersOf down level none).bind fun _ => FailStop.refl _

theorem failStop_rolledUp (depths : List Nat) (depth : Nat) (removed : List Member) :
    FailStop down (rolledUp (cat.interrupted down) depths depth removed) (rolledUp cat depths depth removed) := by
  unfold rolledUp
  split
  · split
    · exact cat.failStop_ancestors down _ removed
    · exact FailStop.refl _
  · exact FailStop.refl _

theorem failStop_removing (level : Level) :
    FailStop down (removing (cat.interrupted down) axis level) (removing cat axis level) := by
  unfold removing
  refine FailStop.bind ((axis.failStop_visibleLevelsOf down cat level.hierarchy).mapError ?_) fun visible => ?_
  · rintro _ ⟨_, _, -, rfl⟩
    rfl
  · split
    · exact (failStop_rolledUp down cat _ level.depth _).bind fun _ => FailStop.refl _
    · exact FailStop.refl _

theorem failStop_filled (levels : List Level) : FailStop down (filled (cat.interrupted down) levels) (filled cat levels) := by
  cases levels with
  | nil => exact FailStop.refl _
  | cons first deeper =>
    exact (cat.failStop_membersOf down first none).bind
      (FailStop.foldlM (fun ms level => (cat.failStop_expand down ms level).bind fun _ => FailStop.refl _) · deeper)

theorem failStop_placing (levels : List Level) : FailStop down (placing (cat.interrupted down) levels) (placing cat levels) :=
  (FailStop.mapM (fun h => (failStop_filled down cat (levelsIn h levels)).bind fun _ => FailStop.refl _) _).bind
    fun _ => FailStop.refl _

end Edit

theorem Mutation.failStop_edit (down : CatalogCall → Option String) (cat : Catalog) (axis : Axis) (m : Mutation) :
    FailStop down (m.edit (cat.interrupted down) axis) (m.edit cat axis) := by
  cases m with
  | add level position => exact Edit.failStop_adding down cat axis level position
  | remove level => exact Edit.failStop_removing down cat axis level
  | place levels => exact Edit.failStop_placing down cat levels

/-! ## Sorting and rebuilding -/

namespace SortKeys

variable (down) (cat : Catalog)

theorem failStop_keyUpTo (keys : SortKeys) (bound : Nat) (m : Member) :
    FailStop down (keyUpTo (cat.interrupted down) keys bound m) (keyUpTo cat keys bound m) := by
  induction bound generalizing m with
  | zero =>
    rw [keyUpTo.eq_def, keyUpTo.eq_def]
    split
    exact FailStop.refl _
  | succ n ih =>
    rw [keyUpTo.eq_def, keyUpTo.eq_def]
    dsimp only
    split
    · exact FailStop.refl _
    · exact FailStop.refl _
    · exact (cat.failStop_parentOf down m).bind fun p => (ih p).bind fun _ => FailStop.refl _

theorem failStop_keyed (keys : SortKeys) (ms : List Member) :
    FailStopWith down (keyed (cat.interrupted down) keys ms) (keyed cat keys ms) := by
  induction ms generalizing keys with
  | nil => exact FailStopWith.refl _
  | cons m ms ih =>
    have hkey : FailStop down (key (cat.interrupted down) keys m) (key cat keys m) := failStop_keyUpTo down cat keys _ m
    rw [keyed, keyed]
    rcases hkey with heq | ⟨e, he, heq⟩
    · rw [heq]
      split
      · exact FailStopWith.refl _
      · next key keys' _ =>
        rcases ih keys' with hrest | ⟨e, he, hrest⟩
        · rw [hrest]
          exact FailStopWith.refl _
        · refine Or.inr ⟨e, he, ?_⟩
          simp only [hrest]
          rfl
    · rw [heq]
      exact Or.inr ⟨e, he, rfl⟩

theorem failStop_sort (keys : SortKeys) (ms : List Member) :
    FailStopWith down (keys.sort (cat.interrupted down) ms) (keys.sort cat ms) := by
  simp only [sort]
  rcases failStop_keyed down cat keys ms with h | ⟨e, he, h⟩
  · rw [h]
    exact FailStopWith.refl _
  · refine Or.inr ⟨e, he, ?_⟩
    simp only [h]
    rfl

end SortKeys

theorem failStop_sortedSets (down : CatalogCall → Option String) (cat : Catalog) (keys : SortKeys) (ss : List Selection) :
    FailStopWith down (sortedSets (cat.interrupted down) keys ss) (sortedSets cat keys ss) := by
  induction ss generalizing keys with
  | nil => exact FailStopWith.refl _
  | cons s ss ih =>
    rw [sortedSets, sortedSets]
    rcases SortKeys.failStop_sort down cat keys (distinctMembers s.members) with heq | ⟨e, he, heq⟩
    · rw [heq]
      split
      · exact FailStopWith.refl _
      · next ms keys' _ =>
        rcases ih keys' with hrest | ⟨e, he, hrest⟩
        · rw [hrest]
          exact FailStopWith.refl _
        · refine Or.inr ⟨e, he, ?_⟩
          simp only [hrest]
          rfl
    · refine Or.inr ⟨e, he, ?_⟩
      split
      · next e' keys' hsort =>
        rw [hsort] at heq
        exact congrArg Except.error (Except.error.inj heq)
      · next ms keys' hsort =>
        rw [hsort] at heq
        nomatch heq

theorem failStop_rebuilt (down : CatalogCall → Option String) (cat : Catalog) (keys : SortKeys) (hierarchize : Bool)
    (ss : List Selection) :
    FailStopWith down (rebuilt (cat.interrupted down) keys hierarchize ss) (rebuilt cat keys hierarchize ss) := by
  simp only [rebuilt]
  rcases failStop_sortedSets down cat keys ss with h | ⟨e, he, h⟩
  · rw [h]
    exact FailStopWith.refl _
  · refine Or.inr ⟨e, he, ?_⟩
    simp only [h]
    rfl

/-- What comes of a mutation over an interrupted catalog is what comes of it over the catalog itself, or an interruption. -/
theorem Mutation.failStop_run (down : CatalogCall → Option String) (cat : Catalog) (m : Mutation) (mode : HierarchizeMode)
    (keys : SortKeys) (axis : Axis) :
    FailStop down (m.run (cat.interrupted down) mode keys axis).result (m.run cat mode keys axis).result := by
  unfold run
  rcases m.failStop_edit down cat axis with heq | ⟨e, he, heq⟩
  · rw [heq]
    split
    · exact FailStop.refl _
    · exact (failStop_rebuilt down cat keys _ _).fst
  · rw [heq]
    exact Or.inr ⟨e, he, rfl⟩

/-! ## Reading -/

namespace Catalog

variable (down) (cat : Catalog)

theorem failStop_referenced (r : Reference) : FailStop down ((cat.interrupted down).referenced r) (cat.referenced r) := by
  cases r with
  | member p => exact (cat.failStop_lookup down p.text).bind fun _ => FailStop.refl _
  | children p =>
    refine (cat.failStop_lookup down p.text).bind fun parent => ?_
    refine (cat.failStop_levelsOf down parent.hierarchy).bind fun levels => ?_
    split
    · exact cat.failStop_membersOf down _ (some parent)
    · exact FailStop.refl _

theorem failStop_tupleMembers (used : List String) (paths : List MemberPath) :
    FailStop down ((cat.interrupted down).tupleMembers used paths) (cat.tupleMembers used paths) := by
  induction paths generalizing used with
  | nil => exact FailStop.refl _
  | cons p ps ih =>
    refine (cat.failStop_lookup down p.text).bind fun m => ?_
    split
    · exact FailStop.refl _
    · exact (ih (m.hierarchy :: used)).bind fun _ => FailStop.refl _

theorem failStop_resolveBraced (elements : List SetElement) :
    FailStop down ((cat.interrupted down).resolveBraced elements) (cat.resolveBraced elements) := by
  have htuple (paths : List MemberPath) :
      FailStop down ((cat.interrupted down).resolveTuple paths) (cat.resolveTuple paths) :=
    (cat.failStop_tupleMembers down [] paths).bind fun _ => FailStop.refl _
  simp only [resolveBraced]
  split
  · exact (FailStop.mapM (cat.failStop_referenced down) _).bind fun _ => FailStop.refl _
  · split
    · exact (FailStop.mapM htuple _).bind fun _ => FailStop.refl _
    · exact FailStop.refl _

mutual

theorem failStop_resolve : (e : SetExpr) → FailStop down ((cat.interrupted down).resolve e) (cat.resolve e)
  | .reference r => by
    rw [resolve, resolve]
    exact (cat.failStop_referenced down r).bind fun _ => FailStop.refl _
  | .braced elements => by
    rw [resolve, resolve]
    exact cat.failStop_resolveBraced down elements
  | .call .hierarchize args => by
    rw [resolve, resolve]
    exact failStop_resolveOnly args
  | .call .crossJoin args => by
    rw [resolve, resolve]
    exact (failStop_resolveOperands 1 args).bind fun _ => FailStop.refl _
  | .call .union args => by
    rw [resolve, resolve]
    exact (failStop_resolveAll args).bind fun _ => FailStop.refl _

theorem failStop_resolveOnly : (args : List SetExpr) →
    FailStop down ((cat.interrupted down).resolveOnly args) (cat.resolveOnly args)
  | [] => FailStop.refl _
  | [arg] => failStop_resolve arg
  | _ :: _ :: _ => FailStop.refl _

theorem failStop_resolveOperands (position : Nat) : (args : List SetExpr) →
    FailStop down ((cat.interrupted down).resolveOperands position args) (cat.resolveOperands position args)
  | [] => FailStop.refl _
  | arg :: args => by
    rw [resolveOperands, resolveOperands]
    refine (failStop_resolve arg).bind fun t => ?_
    split
    · exact FailStop.refl _
    · exact (failStop_resolveOperands (position + 1) args).bind fun _ => FailStop.refl _

theorem failStop_resolveAll : (args : List SetExpr) →
    FailStop down ((cat.interrupted down).resolveAll args) (cat.resolveAll args)
  | [] => FailStop.refl _
  | arg :: args => by
    rw [resolveAll, resolveAll]
    exact (failStop_resolve arg).bind fun t => (failStop_resolveAll args).bind fun _ => FailStop.refl _

end

/-- What a set resolves to over an interrupted catalog. -/
theorem failStop_resolveAxis (set : SetExpr) :
    FailStop down ((cat.interrupted down).resolveAxis set) (cat.resolveAxis set) :=
  (cat.failStop_resolve down set).bind fun _ => FailStop.refl _

end Catalog

end CubeAxes
