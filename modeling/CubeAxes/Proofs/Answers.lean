import Mathlib.Data.List.Forall2
import CubeAxes.AxisError

/-!
# Answers that can be errors

Questions and mutations are chained in `Except`: the first error ends the chain. The statements here take a chain apart, so that
what a function answers is told from what the functions that it calls answer.
-/

namespace CubeAxes

variable {ε α β : Type}

/-- What follows an answer is done with it. -/
@[simp] theorem ok_bind (a : α) (f : α → Except ε β) : (Except.ok a >>= f) = f a := rfl

/-- Nothing follows an error. -/
@[simp] theorem error_bind (e : ε) (f : α → Except ε β) : (Except.error e >>= f) = .error e := rfl

/-- A chain of two answers when the first does, and the second does with that answer. -/
theorem bind_eq_ok {x : Except ε α} {f : α → Except ε β} {b : β} (h : x >>= f = .ok b) : ∃ a, x = .ok a ∧ f a = .ok b := by
  cases x with
  | error e => nomatch h
  | ok a => exact ⟨a, rfl, h⟩

/-- An answer of which something is checked is no error. -/
theorem exists_of_any_toOption {x : Except ε α} {p : α → Bool} (h : x.toOption.any p = true) : ∃ a, x = .ok a ∧ p a = true := by
  cases x with
  | error e => nomatch h
  | ok a => exact ⟨a, rfl, h⟩

/-- Where each of several questions is answered, all of them are, in their order. -/
theorem mapM_eq_ok {f : α → Except ε β} {g : α → β} {l : List α} (h : ∀ a ∈ l, f a = .ok (g a)) : l.mapM f = .ok (l.map g) := by
  induction l with
  | nil => rfl
  | cons a l ih =>
    rw [List.mapM_cons, h a List.mem_cons_self, ih fun b hb => h b (List.mem_cons_of_mem a hb)]
    rfl

/-- Where each of several questions has an answer that is as it should be and that is seen as `see` says, all of them are answered
so, in their order. -/
theorem exists_mapM_eq_ok {γ : Type} {f : α → Except ε β} {see : β → γ} {g : α → γ} {P : β → Prop} {l : List α}
    (h : ∀ a ∈ l, ∃ b, f a = .ok b ∧ see b = g a ∧ P b) : ∃ bs, l.mapM f = .ok bs ∧ bs.map see = l.map g ∧ ∀ b ∈ bs, P b := by
  induction l with
  | nil => exact ⟨[], rfl, rfl, fun b hb => absurd hb List.not_mem_nil⟩
  | cons a l ih =>
    obtain ⟨b, hb, hsee, hp⟩ := h a List.mem_cons_self
    obtain ⟨bs, hbs, hsees, hps⟩ := ih fun c hc => h c (List.mem_cons_of_mem a hc)
    refine ⟨b :: bs, ?_, by rw [List.map_cons, List.map_cons, hsee, hsees], List.forall_mem_cons.2 ⟨hp, hps⟩⟩
    rw [List.mapM_cons, hb, hbs]
    rfl

/-- Questions that have the answers of others, each of the one in its place, have all of them the answers of all those. -/
theorem mapM_congr_of_forall₂ {γ : Type} {f : α → Except ε β} {g : γ → Except ε β} {l : List α} {l' : List γ}
    (h : List.Forall₂ (fun a b => f a = g b) l l') : l.mapM f = l'.mapM g := by
  induction h with
  | nil => rfl
  | cons hab _ ih => rw [List.mapM_cons, List.mapM_cons, hab, ih]

/-- Where several questions are answered, each answer is that of the question in its place. -/
theorem forall₂_of_mapM_eq_ok {f : α → Except ε β} {l : List α} {bs : List β} (h : l.mapM f = .ok bs) :
    List.Forall₂ (fun a b => f a = .ok b) l bs := by
  induction l generalizing bs with
  | nil =>
    obtain rfl := Except.ok.inj h
    exact List.Forall₂.nil
  | cons a l ih =>
    rw [List.mapM_cons] at h
    obtain ⟨b, hb, h⟩ := bind_eq_ok h
    obtain ⟨bs', hbs, h⟩ := bind_eq_ok h
    obtain rfl := Except.ok.inj h
    exact List.Forall₂.cons hb (ih hbs)

/-- What several questions answered, each of them answered. -/
theorem forall_of_mapM_eq_ok {f : α → Except ε β} {l : List α} {bs : List β} (h : l.mapM f = .ok bs) :
    ∀ b ∈ bs, ∃ a ∈ l, f a = .ok b := by
  intro b hb
  obtain ⟨i, hi, rfl⟩ := List.getElem_of_mem hb
  have hall := List.forall₂_iff_get.1 (forall₂_of_mapM_eq_ok h)
  have hi' : i < l.length := hall.1 ▸ hi
  exact ⟨l[i], List.getElem_mem hi', hall.2 i hi' hi⟩

/-- Where several questions are answered, each of them is. -/
theorem exists_of_mapM_eq_ok {f : α → Except ε β} {l : List α} {bs : List β} (h : l.mapM f = .ok bs) :
    ∀ a ∈ l, ∃ b ∈ bs, f a = .ok b := by
  intro a ha
  obtain ⟨i, hi, rfl⟩ := List.getElem_of_mem ha
  have hall := List.forall₂_iff_get.1 (forall₂_of_mapM_eq_ok h)
  have hi' : i < bs.length := hall.1 ▸ hi
  exact ⟨bs[i], List.getElem_mem hi', hall.2 i hi hi'⟩

/-- Where several questions are not all answered, one of them has the error. -/
theorem exists_of_mapM_eq_error {f : α → Except ε β} {l : List α} {e : ε} (h : l.mapM f = .error e) : ∃ a ∈ l, f a = .error e := by
  induction l with
  | nil => nomatch h
  | cons a l ih =>
    rw [List.mapM_cons] at h
    cases hb : f a with
    | error e' =>
      rw [hb] at h
      obtain rfl := Except.error.inj h
      exact ⟨a, List.mem_cons_self, hb⟩
    | ok b =>
      cases hbs : l.mapM f with
      | error e' =>
        rw [hb, hbs] at h
        obtain rfl := Except.error.inj h
        obtain ⟨c, hc, hf⟩ := ih hbs
        exact ⟨c, List.mem_cons_of_mem a hc, hf⟩
      | ok bs =>
        rw [hb, hbs] at h
        nomatch h

/-- What each of several steps keeps, all of them keep. -/
theorem of_foldlM_eq_ok {f : β → α → Except ε β} {P : β → Prop} {l : List α}
    (step : ∀ a ∈ l, ∀ b b', P b → f b a = .ok b' → P b') {b b' : β} (h : l.foldlM f b = .ok b') (hb : P b) : P b' := by
  induction l generalizing b with
  | nil =>
    obtain rfl := Except.ok.inj h
    exact hb
  | cons a l ih =>
    rw [List.foldlM_cons] at h
    obtain ⟨next, hnext, h⟩ := bind_eq_ok h
    exact ih (fun c hc => step c (List.mem_cons_of_mem a hc)) h (step a List.mem_cons_self b next hb hnext)

/-- An answer of the catalog is passed on as it is. -/
@[simp] theorem asked_ok (a : α) : asked (.ok a) = .ok a := rfl

/-- What was asked was answered. -/
theorem of_asked_eq_ok {answer : Except CatalogError α} {a : α} (h : asked answer = .ok a) : answer = .ok a := by
  cases answer with
  | error e => nomatch h
  | ok b => exact congrArg Except.ok (Except.ok.inj h)

end CubeAxes
