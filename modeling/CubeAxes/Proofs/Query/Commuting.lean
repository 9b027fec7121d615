import CubeAxes.Proofs.Query.Rereading

/-!
# Changes of different axes

A change reads the axis that it is about and nothing else of the query, so neither of two changes of different axes sees the other:
each comes to what it comes to alone, and the query afterwards is the same in either order, also where an axis comes to be
(`Query.query_ask_ask`). So the order of many changes counts on each axis alone (`Query.changeAll_eq_of_filter_eq`).
-/

namespace CubeAxes

/-- What comes of the mutation that is asked for, told from the axis alone; one that the query does not use counts as empty. -/
def Request.outcome (cat : Catalog) (r : Request) (axis? : Option Axis) : Except AxisError Axis :=
  (r.mutation.run cat r.options.hierarchize [] (axis?.getD {})).result

namespace Query

variable (cat : Catalog)

/-- What comes of a change that is asked for. -/
def ask (q : Query) (r : Request) : Change := q.change cat r.options r.axis r.mutation

/-- The query with what came of a mutation in the place of an axis; an error leaves it as it is. -/
def settle (q : Query) (name : AxisName) : Except AxisError Axis → Query
  | .ok axis => q.replaceAxis name axis
  | .error _ => q

/-- What comes of several changes that are made one after the other, each under the name of its axis. -/
def answers (q : Query) : List Request → List (AxisName × Option AxisError)
  | [] => []
  | r :: rs => (r.axis, (q.ask cat r).failure) :: answers (q.ask cat r).query rs

/-- The first of several changes is made before the others. -/
theorem changeAll_cons (q : Query) (r : Request) (rs : List Request) :
    q.changeAll cat (r :: rs) = (q.ask cat r).query.changeAll cat rs := rfl

/-! ## One change -/

/-- The query after a change is settled by the axis that it is about. -/
theorem query_ask (q : Query) (r : Request) : (q.ask cat r).query = q.settle r.axis (r.outcome cat (q.axes r.axis)) := by
  unfold ask change Request.outcome
  cases hr : (r.mutation.run cat r.options.hierarchize [] ((q.axes r.axis).getD {})).result with
  | error e => simp only [hr, settle]
  | ok axis => simp only [hr, settle]

/-- A change of queries that have the same axis in its place comes to the same. -/
theorem failure_ask_congr {q q' : Query} {r : Request} (h : q.axes r.axis = q'.axes r.axis) :
    (q.ask cat r).failure = (q'.ask cat r).failure := by
  unfold ask change
  cases hr : (r.mutation.run cat r.options.hierarchize [] ((q'.axes r.axis).getD {})).result with
  | error e => simp only [h, hr]
  | ok axis => simp only [h, hr]

/-- Another axis is what it was. -/
theorem axes_settle_of_ne (q : Query) {name name' : AxisName} (h : name' ≠ name) (x : Except AxisError Axis) :
    (q.settle name x).axes name' = q.axes name' := by
  cases x with
  | error e => rfl
  | ok axis => exact if_neg h

/-- Two axes of different names are put in their places in either order: the text is written from the axes that stand then. -/
theorem replaceAxis_comm (q : Query) {name name' : AxisName} (h : name ≠ name') (axis axis' : Axis) :
    (q.replaceAxis name axis).replaceAxis name' axis' = (q.replaceAxis name' axis').replaceAxis name axis := by
  have haxes : (fun a => if a = name' then some axis' else if a = name then some axis else q.axes a) =
      fun a => if a = name then some axis else if a = name' then some axis' else q.axes a := by
    funext a
    split
    · next ha =>
      subst ha
      rw [if_neg (Ne.symm h)]
    · rfl
  change refreshed { q with axes := fun a => if a = name' then some axis' else if a = name then some axis else q.axes a, text := _ } =
    refreshed { q with axes := fun a => if a = name then some axis else if a = name' then some axis' else q.axes a, text := _ }
  rw [haxes]
  rfl

/-- What came of two mutations is put in the places of two axes in either order. -/
theorem settle_comm (q : Query) {name name' : AxisName} (h : name ≠ name') (x y : Except AxisError Axis) :
    (q.settle name x).settle name' y = (q.settle name' y).settle name x := by
  cases x with
  | error e => rfl
  | ok axis =>
    cases y with
    | error e => rfl
    | ok axis' => exact q.replaceAxis_comm h axis axis'

/-! ## Two changes -/

/-- A change of another axis does not change what a change comes to. -/
theorem failure_ask_ask (q : Query) {r s : Request} (h : r.axis ≠ s.axis) :
    ((q.ask cat r).query.ask cat s).failure = (q.ask cat s).failure := by
  refine failure_ask_congr cat ?_
  rw [query_ask]
  exact q.axes_settle_of_ne h.symm _

/-- After two changes of different axes the query is the same in either order. -/
theorem query_ask_ask (q : Query) {r s : Request} (h : r.axis ≠ s.axis) :
    ((q.ask cat r).query.ask cat s).query = ((q.ask cat s).query.ask cat r).query := by
  rw [query_ask cat (q.ask cat r).query, query_ask cat (q.ask cat s).query, query_ask cat q, query_ask cat q,
    axes_settle_of_ne q h.symm, axes_settle_of_ne q h, q.settle_comm h]

/-! ## Many changes -/

/-- A change that is asked for after changes of other axes could be asked for before them: the query afterwards is the same, and so
is what comes of the changes of each axis. -/
theorem changeAll_append_cons (q : Query) {before : List Request} {r : Request} (h : ∀ s ∈ before, s.axis ≠ r.axis)
    (after : List Request) :
    q.changeAll cat (before ++ r :: after) = q.changeAll cat (r :: (before ++ after)) ∧
      ∀ name, (q.answers cat (before ++ r :: after)).filter (·.1 = name) =
        (q.answers cat (r :: (before ++ after))).filter (·.1 = name) := by
  induction before generalizing q with
  | nil => exact ⟨rfl, fun name => rfl⟩
  | cons s before ih =>
    obtain ⟨hs, hbefore⟩ := List.forall_mem_cons.1 h
    obtain ⟨hquery, hanswers⟩ := ih (q.ask cat s).query hbefore
    constructor
    · rw [List.cons_append, changeAll_cons, hquery, changeAll_cons, query_ask_ask cat q hs]
      rfl
    · intro name
      -- both changes come to the same in either order, and at most one of them is of the axis in question
      have hswap : ((q.ask cat s).query.ask cat r).failure = (q.ask cat r).failure := failure_ask_ask cat q hs
      have hswap' : ((q.ask cat r).query.ask cat s).failure = (q.ask cat s).failure := failure_ask_ask cat q hs.symm
      have hhanded := hanswers name
      simp only [answers] at hhanded
      simp only [List.cons_append, answers]
      rw [List.filter_cons, hhanded, List.filter_cons, List.filter_cons, List.filter_cons, hswap, hswap', query_ask_ask cat q hs]
      by_cases hr : r.axis = name
      · have hother : s.axis ≠ name := fun hsn => hs (hsn.trans hr.symm)
        simp only [hr, hother, decide_true, decide_false, if_true, Bool.false_eq_true, if_false]
      · simp only [hr, decide_false, Bool.false_eq_true, if_false]

/-- Where two lists of changes ask for the same on each axis in the same order, the first of the one list stands in the other behind
changes of other axes only, and without it they still do. -/
theorem exists_of_filter_cons_eq {r : Request} {rs rs' : List Request}
    (h : ∀ name, (r :: rs).filter (·.axis = name) = rs'.filter (·.axis = name)) :
    ∃ before after, rs' = before ++ r :: after ∧ (∀ s ∈ before, s.axis ≠ r.axis) ∧
      ∀ name, rs.filter (·.axis = name) = (before ++ after).filter (·.axis = name) := by
  have hfirst := h r.axis
  rw [List.filter_cons, if_pos (decide_eq_true rfl)] at hfirst
  obtain ⟨before, after, rfl, hbefore, -, -⟩ := List.filter_eq_cons_iff.1 hfirst.symm
  have hne : ∀ s ∈ before, s.axis ≠ r.axis := fun s hs heq => hbefore s hs (decide_eq_true heq)
  refine ⟨before, after, rfl, hne, fun name => ?_⟩
  have hname := h name
  rw [List.filter_append, List.filter_cons, List.filter_cons] at hname
  rw [List.filter_append]
  by_cases hr : r.axis = name
  · have hnil : before.filter (·.axis = name) = [] :=
      List.filter_eq_nil_iff.2 fun s hs heq => hne s hs ((of_decide_eq_true heq).trans hr.symm)
    rw [if_pos (decide_eq_true hr), if_pos (decide_eq_true hr), hnil] at hname
    rw [hnil]
    exact (List.cons.inj hname).2
  · rwa [if_neg fun heq => hr (of_decide_eq_true heq), if_neg fun heq => hr (of_decide_eq_true heq)] at hname

/-- Two lists of changes that ask for the same on each axis, each in the same order, lead to the same query, and what comes of the
changes of each axis is the same. -/
theorem changeAll_eq_of_filter_eq (q : Query) {rs rs' : List Request}
    (h : ∀ name, rs.filter (·.axis = name) = rs'.filter (·.axis = name)) :
    q.changeAll cat rs = q.changeAll cat rs' ∧
      ∀ name, (q.answers cat rs).filter (·.1 = name) = (q.answers cat rs').filter (·.1 = name) := by
  induction rs generalizing q rs' with
  | nil =>
    have hnil : rs' = [] := List.eq_nil_iff_forall_not_mem.2 fun r hr => by
      have hmem : r ∈ rs'.filter (·.axis = r.axis) := List.mem_filter.2 ⟨hr, decide_eq_true rfl⟩
      rw [← h] at hmem
      exact absurd hmem List.not_mem_nil
    subst hnil
    exact ⟨rfl, fun name => rfl⟩
  | cons r rs ih =>
    -- the first change is brought to the front of the other list, and the rest is done on the query that it leaves
    obtain ⟨before, after, rfl, hne, hrest⟩ := exists_of_filter_cons_eq h
    obtain ⟨hquery, hanswers⟩ := changeAll_append_cons cat q hne after
    obtain ⟨hquery', hanswers'⟩ := ih (q.ask cat r).query hrest
    refine ⟨?_, fun name => ?_⟩
    · rw [hquery, changeAll_cons, hquery', changeAll_cons]
    · rw [hanswers]
      simp only [answers]
      rw [List.filter_cons, List.filter_cons, hanswers']

/-- Changes of different axes commute: of two of them, each comes to what it comes to without the other, and the query afterwards is
the same in either order, with all its axes and its text. So many changes lead to the same query, and come to the same, as any others
that ask for the same on each axis in the same order. -/
theorem changes_commute (q : Query) :
    (∀ r s : Request, r.axis ≠ s.axis →
      ((q.ask cat s).query.ask cat r).failure = (q.ask cat r).failure ∧
      ((q.ask cat r).query.ask cat s).failure = (q.ask cat s).failure ∧
      ((q.ask cat r).query.ask cat s).query = ((q.ask cat s).query.ask cat r).query) ∧
    ∀ rs rs' : List Request, (∀ name, rs.filter (·.axis = name) = rs'.filter (·.axis = name)) →
      q.changeAll cat rs = q.changeAll cat rs' ∧
      ∀ name, (q.answers cat rs).filter (·.1 = name) = (q.answers cat rs').filter (·.1 = name) :=
  ⟨fun _ _ h => ⟨q.failure_ask_ask cat h.symm, q.failure_ask_ask cat h, q.query_ask_ask cat h⟩,
    fun _ _ h => q.changeAll_eq_of_filter_eq cat h⟩

end Query

namespace Outline

/-- The changes of `sampleRequests` with those of the columns around those of the rows. -/
def sampleInterleaved : List Request :=
  [⟨.columns, .place [], {}⟩, ⟨.rows, .add ⟨"Product", "Department", 2⟩ (-1), {}⟩, ⟨.rows, .remove ⟨"Gender", "Gender", 1⟩, {}⟩,
    ⟨.columns, .place sampleLevels, { hierarchize := .always }⟩]

/-- On the small cube the rows are added to and the columns come to be in either order, and all changes, of which one fails, lead to
the same query in either way of going through them. -/
theorem sample_changes_commute :
    ∃ q, (Query.ofText sample.catalog {} sampleText).1 = .ok q ∧ q.axes .columns = none ∧
      (q.answers sample.catalog sampleRequests).map (·.2.isSome) = [false, true, false, false] ∧
      (∀ r ∈ sampleRequests, ∀ s ∈ sampleRequests, r.axis ≠ s.axis →
        ((q.ask sample.catalog r).query.ask sample.catalog s).query = ((q.ask sample.catalog s).query.ask sample.catalog r).query) ∧
      q.changeAll sample.catalog sampleRequests = q.changeAll sample.catalog sampleInterleaved := by
  have hread : (Query.ofText sample.catalog {} sampleText).1.toOption.any (fun q => (q.axes .columns).isNone &&
      (q.answers sample.catalog sampleRequests).map (·.2.isSome) == [false, true, false, false]) = true := by decide +kernel
  obtain ⟨q, hq, hcheck⟩ := exists_of_any_toOption hread
  obtain ⟨hcolumns, hanswers⟩ := Bool.and_eq_true_iff.1 hcheck
  have horder : ∀ name, sampleRequests.filter (·.axis = name) = sampleInterleaved.filter (·.axis = name) := by
    intro name
    cases name <;> rfl
  obtain ⟨hpair, hall⟩ := q.changes_commute sample.catalog
  exact ⟨q, hq, Option.isNone_iff_eq_none.1 hcolumns, eq_of_beq hanswers, fun r _ s _ h => (hpair r s h).2.2,
    (hall sampleRequests sampleInterleaved horder).1⟩

end Outline

end CubeAxes
