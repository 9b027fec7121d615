import CubeAxes.Proofs.Grammar.Derivations

/-!
# What the parser gives is derived

The tokens that a parser takes are derived as what it gives, one statement for each rule of the grammar. A parser that is bounded
takes what one without a bound would, so the bounds do not show. At the end this is said of whole texts, of those that describe a
set (`SetExpr.isSet_of_ofText`) and of those that describe a statement (`SelectStatement.isStatement_of_ofText`).
-/

namespace CubeAxes

namespace Grammar

/-- A path can be gone on with. -/
theorem IsPath.snoc {ts : List Token} {ns : List String} (h : IsPath ts ns) (n : String) :
    IsPath (ts ++ [.dot, .name n]) (ns ++ [n]) := by
  induction h with
  | one m => exact .cons m (.one n)
  | cons m _ ih => exact .cons m ih

end Grammar

namespace Parser

open Grammar

variable {α β : Type}

/-- A parser that goes on after another answers when the first does, and it does on what that leaves. -/
theorem exists_of_bind_eq_ok {p : Parser α} {f : α → Parser β} {ts us : List Token} {b : β} (h : (p >>= f) ts = .ok b us) :
    ∃ a mid, p ts = .ok a mid ∧ f a mid = .ok b us := by
  change EStateM.bind p f ts = .ok b us at h
  unfold EStateM.bind at h
  split at h
  · next a mid hp => exact ⟨a, mid, hp, h⟩
  · nomatch h

/-- Looking at the next token takes nothing. -/
theorem of_next_bind_eq_ok {f : Option Token → Parser β} {ts us : List Token} {b : β} (h : (next >>= f) ts = .ok b us) :
    f ts.head? ts = .ok b us := h

/-- A token that was asked for was there. -/
theorem of_token_eq_ok {t : Token} {ts us : List Token} (h : token t ts = .ok () us) : ts = t :: us := by
  obtain ⟨found, mid, hn, h⟩ := exists_of_bind_eq_ok h
  obtain ⟨rfl, rfl⟩ := EStateM.Result.ok.inj hn
  split at h
  · next he =>
    obtain ⟨rest, rfl⟩ := List.head?_eq_some_iff.1 he
    obtain ⟨-, rfl⟩ := EStateM.Result.ok.inj h
    rfl
  · nomatch h

/-- The rest of a reference, together with the path before it, is derived as the reference that comes of it. -/
theorem exists_isReference_of_segmentsFrom {ns : List String} {ts us : List Token} {r : Reference}
    (h : segmentsFrom ns ts = .ok r us) {front : List Token} (hf : IsPath front ns) :
    ∃ taken, front ++ ts = taken ++ us ∧ IsReference taken r := by
  fun_induction segmentsFrom ns ts generalizing front with
  | case1 ns n ts ih =>
    obtain ⟨taken, heq, hr⟩ := ih h (hf.snoc n)
    rw [List.append_assoc] at heq
    exact ⟨taken, heq, hr⟩
  | case2 ns t ts _ ht =>
    obtain ⟨rfl, rfl⟩ := EStateM.Result.ok.inj h
    refine ⟨front ++ [.dot, t], ?_, .children hf (isKeyword_iff.2 ht)⟩
    rw [List.append_assoc]
    rfl
  | case3 => nomatch h
  | case4 => nomatch h
  | case5 ns ts _ _ _ =>
    obtain ⟨rfl, rfl⟩ := EStateM.Result.ok.inj h
    exact ⟨front, rfl, .member hf⟩

/-- What is taken as a reference is derived as it. -/
theorem exists_isReference {ts us : List Token} {r : Reference} (h : reference ts = .ok r us) :
    ∃ taken, ts = taken ++ us ∧ IsReference taken r := by
  cases ts with
  | nil => nomatch h
  | cons t ts =>
    cases t with
    | name n => exact exists_isReference_of_segmentsFrom h (.one n)
    | _ => nomatch h

/-- What is taken as a member is derived as it. -/
theorem exists_isMember {ts us : List Token} {p : MemberPath} (h : member ts = .ok p us) :
    ∃ taken, ts = taken ++ us ∧ IsMember taken p := by
  obtain ⟨r, mid, hr, h⟩ := exists_of_bind_eq_ok h
  cases r with
  | member p' =>
    obtain ⟨rfl, rfl⟩ := EStateM.Result.ok.inj h
    exact exists_isReference hr
  | children p' => nomatch h

/-- What is taken as items is derived as them, when what is taken as an item is. -/
theorem exists_separated_of_itemsUpTo {item : Parser α} {R : List Token → α → Prop}
    (hitem : ∀ ts a us, item ts = .ok a us → ∃ taken, ts = taken ++ us ∧ R taken a) {n : Nat} {ts us : List Token} {as : List α}
    (h : itemsUpTo item n ts = .ok as us) : ∃ taken, ts = taken ++ us ∧ Separated R taken as := by
  induction n generalizing ts as with
  | zero =>
    obtain ⟨a, mid, ha, h⟩ := exists_of_bind_eq_ok h
    obtain ⟨rfl, rfl⟩ := EStateM.Result.ok.inj h
    obtain ⟨taken, rfl, hr⟩ := hitem _ _ _ ha
    exact ⟨taken, rfl, .one hr⟩
  | succ n ih =>
    obtain ⟨a, mid, ha, hmore⟩ := exists_of_bind_eq_ok h
    obtain ⟨taken, heq, hr⟩ := hitem _ _ _ ha
    obtain ⟨found, mid', hn, hmore⟩ := exists_of_bind_eq_ok hmore
    obtain ⟨rfl, rfl⟩ := EStateM.Result.ok.inj hn
    split at hmore
    · next he =>
      obtain ⟨rest, rfl⟩ := List.head?_eq_some_iff.1 he
      obtain ⟨⟨⟩, mid', hadv, hmore⟩ := exists_of_bind_eq_ok hmore
      obtain ⟨-, rfl⟩ := EStateM.Result.ok.inj hadv
      obtain ⟨as', mid', has, hmore⟩ := exists_of_bind_eq_ok hmore
      obtain ⟨rfl, rfl⟩ := EStateM.Result.ok.inj hmore
      obtain ⟨taken', heq', hs⟩ := ih has
      rw [List.tail_cons] at heq'
      refine ⟨taken ++ .comma :: taken', ?_, .cons hr hs⟩
      rw [heq, heq', List.append_assoc]
      rfl
    · obtain ⟨rfl, rfl⟩ := EStateM.Result.ok.inj hmore
      exact ⟨taken, heq, .one hr⟩

/-- What is taken as a tuple is derived as it. -/
theorem exists_isTuple {ts us : List Token} {paths : List MemberPath} (h : tuple ts = .ok paths us) :
    ∃ taken, ts = taken ++ us ∧ IsTuple taken paths := by
  obtain ⟨⟨⟩, mid, hleft, h⟩ := exists_of_bind_eq_ok h
  obtain ⟨paths', mid', hitems, h⟩ := exists_of_bind_eq_ok h
  obtain ⟨⟨⟩, mid'', hright, h⟩ := exists_of_bind_eq_ok h
  obtain ⟨rfl, rfl⟩ := EStateM.Result.ok.inj h
  obtain ⟨taken, heq, hs⟩ := exists_separated_of_itemsUpTo (fun _ _ _ => exists_isMember) hitems
  refine ⟨.leftParen :: (taken ++ [.rightParen]), ?_, .mk hs⟩
  rw [of_token_eq_ok hleft, heq, of_token_eq_ok hright, List.cons_append, List.append_assoc]
  rfl

/-- What is taken as a slicer is derived as it. -/
theorem exists_isSlicer {ts us : List Token} {s : Slicer} (h : slicer ts = .ok s us) :
    ∃ taken, ts = taken ++ us ∧ IsSlicer taken s := by
  obtain ⟨found, mid, hn, h⟩ := exists_of_bind_eq_ok h
  obtain ⟨rfl, rfl⟩ := EStateM.Result.ok.inj hn
  split at h
  · obtain ⟨paths, mid', hp, h⟩ := exists_of_bind_eq_ok h
    obtain ⟨rfl, rfl⟩ := EStateM.Result.ok.inj h
    obtain ⟨taken, rfl, ht⟩ := exists_isTuple hp
    exact ⟨taken, rfl, .tuple ht⟩
  · obtain ⟨p, mid', hp, h⟩ := exists_of_bind_eq_ok h
    obtain ⟨rfl, rfl⟩ := EStateM.Result.ok.inj h
    obtain ⟨taken, rfl, hm⟩ := exists_isMember hp
    exact ⟨taken, rfl, .member hm⟩

/-! ## Sets -/

/-- What is taken as an element is derived as it. -/
theorem exists_isElement {ts us : List Token} {e : SetElement} (h : element ts = .ok e us) :
    ∃ taken, ts = taken ++ us ∧ IsElement taken e := by
  obtain ⟨found, mid, hn, h⟩ := exists_of_bind_eq_ok h
  obtain ⟨rfl, rfl⟩ := EStateM.Result.ok.inj hn
  split at h
  · obtain ⟨paths, mid', hp, h⟩ := exists_of_bind_eq_ok h
    obtain ⟨rfl, rfl⟩ := EStateM.Result.ok.inj h
    obtain ⟨taken, rfl, ht⟩ := exists_isTuple hp
    exact ⟨taken, rfl, .tuple ht⟩
  · obtain ⟨r, mid', hread, h⟩ := exists_of_bind_eq_ok h
    obtain ⟨rfl, rfl⟩ := EStateM.Result.ok.inj h
    obtain ⟨taken, rfl, hr⟩ := exists_isReference hread
    exact ⟨taken, rfl, .reference hr⟩

/-- What is taken as a set in braces is derived as it. -/
theorem exists_isSet_of_braced {ts us : List Token} {s : SetExpr} (h : braced ts = .ok s us) :
    ∃ taken, ts = taken ++ us ∧ IsSet taken s := by
  obtain ⟨⟨⟩, mid, hleft, h⟩ := exists_of_bind_eq_ok h
  rw [of_token_eq_ok hleft]
  obtain ⟨found, mid', hn, h⟩ := exists_of_bind_eq_ok h
  obtain ⟨rfl, rfl⟩ := EStateM.Result.ok.inj hn
  split at h
  · next he =>
    obtain ⟨rest, rfl⟩ := List.head?_eq_some_iff.1 he
    obtain ⟨⟨⟩, mid', hadv, h⟩ := exists_of_bind_eq_ok h
    obtain ⟨-, rfl⟩ := EStateM.Result.ok.inj hadv
    obtain ⟨rfl, rfl⟩ := EStateM.Result.ok.inj h
    exact ⟨[.leftBrace, .rightBrace], rfl, .empty⟩
  · obtain ⟨elements, mid', hitems, h⟩ := exists_of_bind_eq_ok h
    obtain ⟨⟨⟩, mid'', hright, h⟩ := exists_of_bind_eq_ok h
    obtain ⟨rfl, rfl⟩ := EStateM.Result.ok.inj h
    obtain ⟨taken, heq, hs⟩ := exists_separated_of_itemsUpTo (fun _ _ _ => exists_isElement) hitems
    refine ⟨.leftBrace :: (taken ++ [.rightBrace]), ?_, .braced hs⟩
    rw [heq, of_token_eq_ok hright, List.cons_append, List.append_assoc]
    rfl

/-- What is taken as a function of sets is derived as it, when what is taken as an argument is derived. -/
theorem exists_isSet_of_call {argument : Parser SetExpr}
    (hargument : ∀ ts a us, argument ts = .ok a us → ∃ taken, ts = taken ++ us ∧ IsSet taken a) {w : String} {ts us : List Token}
    {s : SetExpr} (h : call argument w (.word w :: ts) = .ok s us) : ∃ taken, .word w :: ts = taken ++ us ∧ IsSet taken s := by
  unfold call at h
  cases hf : SetFunction.ofName? w with
  | none =>
    rw [hf] at h
    nomatch h
  | some f =>
    rw [hf] at h
    obtain ⟨⟨⟩, ts₁, hadv, h⟩ := exists_of_bind_eq_ok h
    obtain ⟨-, rfl⟩ := EStateM.Result.ok.inj hadv
    obtain ⟨⟨⟩, ts₂, hleft, h⟩ := exists_of_bind_eq_ok h
    obtain ⟨args, ts₃, hitems, h⟩ := exists_of_bind_eq_ok h
    obtain ⟨⟨⟩, ts₄, hright, h⟩ := exists_of_bind_eq_ok h
    split at h
    · next htakes =>
      obtain ⟨rfl, rfl⟩ := EStateM.Result.ok.inj h
      obtain ⟨taken, heq, hs⟩ := exists_separated_of_itemsUpTo hargument hitems
      have hword : IsKeyword (.word w) f.name := SetFunction.ofName?_eq_some_iff.1 hf
      refine ⟨.word w :: .leftParen :: (taken ++ [.rightParen]), ?_, .call (isFunction_iff.2 ⟨rfl, htakes⟩) hword hs⟩
      rw [List.tail_cons] at hleft
      rw [of_token_eq_ok hleft, heq, of_token_eq_ok hright, List.cons_append, List.cons_append, List.append_assoc]
      rfl
    · nomatch h

/-- What is taken as a set, functions nesting up to a bound, is derived as it. -/
theorem exists_isSet_of_setUpTo {n : Nat} {ts us : List Token} {s : SetExpr} (h : setUpTo n ts = .ok s us) :
    ∃ taken, ts = taken ++ us ∧ IsSet taken s := by
  induction n generalizing ts us s with
  | zero => nomatch h
  | succ n ih =>
    cases ts with
    | nil => nomatch h
    | cons t ts =>
      cases t with
      | word w => exact exists_isSet_of_call (fun _ _ _ => ih) h
      | leftBrace => exact exists_isSet_of_braced h
      | name n =>
        obtain ⟨r, mid, hread, h⟩ := exists_of_bind_eq_ok (p := reference) h
        obtain ⟨rfl, rfl⟩ := EStateM.Result.ok.inj h
        obtain ⟨taken, heq, hr⟩ := exists_isReference hread
        exact ⟨taken, heq, .reference hr⟩
      | _ => nomatch h

/-- What is taken as a set is derived as it. -/
theorem exists_isSet {ts us : List Token} {s : SetExpr} (h : set ts = .ok s us) : ∃ taken, ts = taken ++ us ∧ IsSet taken s :=
  exists_isSet_of_setUpTo h

/-- Where nothing may be left nothing is. -/
theorem of_atEnd_eq_ok {ts us : List Token} (h : atEnd ts = .ok () us) : ts = [] := by
  cases ts with
  | nil => rfl
  | cons t ts => nomatch h

/-- All the tokens of a whole set are derived as it. -/
theorem isSet_of_wholeSet {ts us : List Token} {s : SetExpr} (h : wholeSet ts = .ok s us) : IsSet ts s := by
  cases ts with
  | nil => nomatch h
  | cons t ts =>
    obtain ⟨s', mid, hread, h⟩ := exists_of_bind_eq_ok (p := set) h
    obtain ⟨⟨⟩, mid', hend, h⟩ := exists_of_bind_eq_ok h
    obtain ⟨rfl, rfl⟩ := EStateM.Result.ok.inj h
    obtain ⟨taken, heq, hs⟩ := exists_isSet hread
    rw [heq, of_atEnd_eq_ok hend, List.append_nil]
    exact hs

/-! ## Statements -/

/-- Looking for a keyword takes nothing, and tells whether it is next. -/
theorem of_atKeyword_eq_ok {text : String} {found : Bool} {ts us : List Token} (h : atKeyword text ts = .ok found us) :
    us = ts ∧ (found = true → ∃ t rest, ts = t :: rest ∧ IsKeyword t text) := by
  obtain ⟨t?, mid, hn, h⟩ := exists_of_bind_eq_ok h
  obtain ⟨rfl, rfl⟩ := EStateM.Result.ok.inj hn
  obtain ⟨rfl, rfl⟩ := EStateM.Result.ok.inj h
  refine ⟨rfl, fun hk => ?_⟩
  obtain ⟨t, ht, hk⟩ := (Option.any_eq_true _ _).1 hk
  obtain ⟨rest, rfl⟩ := List.head?_eq_some_iff.1 ht
  exact ⟨t, rest, rfl, isKeyword_iff.2 hk⟩

/-- A keyword that was asked for was there, in some case. -/
theorem exists_of_keyword_eq_ok {text : String} {ts us : List Token} (h : keyword text ts = .ok () us) :
    ∃ t, ts = t :: us ∧ IsKeyword t text := by
  obtain ⟨found, mid, hat, hrest⟩ := exists_of_bind_eq_ok h
  obtain ⟨rfl, hk⟩ := of_atKeyword_eq_ok hat
  split at hrest
  · next hfound =>
    obtain ⟨t, rest, rfl, hkeyword⟩ := hk hfound
    obtain ⟨-, rfl⟩ := EStateM.Result.ok.inj hrest
    exact ⟨t, rfl, hkeyword⟩
  · nomatch hrest

/-- What is taken as an ordinal in parentheses, after the word for it, is derived as its axis. -/
theorem exists_isAxis_of_ordinal {t : Token} (ht : IsKeyword t "AXIS") {ts us : List Token} {a : AxisName}
    (h : ordinal ts = .ok a us) : ∃ taken, t :: ts = taken ++ us ∧ IsAxis taken a := by
  obtain ⟨⟨⟩, mid, hleft, h⟩ := exists_of_bind_eq_ok h
  rw [of_token_eq_ok hleft]
  cases mid with
  | nil => nomatch h
  | cons t' mid =>
    cases t' with
    | number n =>
      obtain ⟨⟨⟩, mid', hadv, h⟩ := exists_of_bind_eq_ok (of_next_bind_eq_ok h)
      obtain ⟨-, rfl⟩ := EStateM.Result.ok.inj hadv
      obtain ⟨⟨⟩, mid'', hright, h⟩ := exists_of_bind_eq_ok h
      rw [List.tail_cons] at hright
      rw [of_token_eq_ok hright]
      cases ha : AxisName.ofOrdinal? n with
      | none =>
        rw [ha] at h
        nomatch h
      | some a' =>
        rw [ha] at h
        obtain ⟨rfl, rfl⟩ := EStateM.Result.ok.inj h
        exact ⟨[t, .leftParen, .number n, .rightParen], rfl, .ordinal (isNamed_iff.2 ⟨rfl, ha⟩) ht⟩
    | _ => nomatch h

/-- What is taken as an axis is derived as it. -/
theorem exists_isAxis {ts us : List Token} {a : AxisName} (h : axis ts = .ok a us) :
    ∃ taken, ts = taken ++ us ∧ IsAxis taken a := by
  cases ts with
  | nil => nomatch h
  | cons t ts =>
    cases t with
    | word w =>
      obtain ⟨⟨⟩, mid, hadv, h⟩ := exists_of_bind_eq_ok (of_next_bind_eq_ok h)
      obtain ⟨-, rfl⟩ := EStateM.Result.ok.inj hadv
      split at h
      · next hw => exact exists_isAxis_of_ordinal (.mk (sameWord_iff.1 hw)) h
      · cases ha : AxisName.ofName? w with
        | none =>
          rw [ha] at h
          nomatch h
        | some a' =>
          rw [ha] at h
          obtain ⟨rfl, rfl⟩ := EStateM.Result.ok.inj h
          obtain ⟨n, hn⟩ := exists_isNamed a'
          exact ⟨[.word w], rfl, .name hn (AxisName.ofName?_eq_some_iff.1 ha)⟩
    | _ => nomatch h

/-- What is taken as a clause is derived as it, and its axis is not used already. -/
theorem exists_isClause {used : List AxisName} {ts us : List Token} {c : AxisClause} (h : clause used ts = .ok c us) :
    c.axis ∉ used ∧ ∃ taken, ts = taken ++ us ∧ IsClause taken c := by
  obtain ⟨s, mid, hset, h⟩ := exists_of_bind_eq_ok h
  obtain ⟨⟨⟩, mid', hon, h⟩ := exists_of_bind_eq_ok h
  obtain ⟨a, mid'', haxis, h⟩ := exists_of_bind_eq_ok h
  split at h
  · nomatch h
  · next hused =>
    obtain ⟨rfl, rfl⟩ := EStateM.Result.ok.inj h
    obtain ⟨taken, rfl, hs⟩ := exists_isSet hset
    obtain ⟨t, rfl, ht⟩ := exists_of_keyword_eq_ok hon
    obtain ⟨taken', rfl, ha⟩ := exists_isAxis haxis
    exact ⟨hused, taken ++ t :: taken', by rw [List.append_assoc, List.cons_append], .mk hs ht ha⟩

/-- What is taken as clauses is derived as them. No axis has two of them, and none is used already. -/
theorem exists_separated_of_clausesUpTo {n : Nat} {used : List AxisName} {ts us : List Token} {cs : List AxisClause}
    (h : clausesUpTo n used ts = .ok cs us) :
    (cs.map (·.axis)).Nodup ∧ (∀ c ∈ cs, c.axis ∉ used) ∧ ∃ taken, ts = taken ++ us ∧ Separated IsClause taken cs := by
  have hone : ∀ c : AxisClause, ([c].map (·.axis)).Nodup := fun c => by simp
  induction n generalizing used ts cs with
  | zero =>
    obtain ⟨c, mid, hc, h⟩ := exists_of_bind_eq_ok h
    obtain ⟨rfl, rfl⟩ := EStateM.Result.ok.inj h
    obtain ⟨hused, taken, rfl, hclause⟩ := exists_isClause hc
    exact ⟨hone c, List.forall_mem_singleton.2 hused, taken, rfl, .one hclause⟩
  | succ n ih =>
    obtain ⟨c, mid, hc, h⟩ := exists_of_bind_eq_ok h
    obtain ⟨hused, taken, heq, hclause⟩ := exists_isClause hc
    obtain ⟨found, mid', hn, h⟩ := exists_of_bind_eq_ok h
    obtain ⟨rfl, rfl⟩ := EStateM.Result.ok.inj hn
    split at h
    · next he =>
      obtain ⟨rest, rfl⟩ := List.head?_eq_some_iff.1 he
      obtain ⟨⟨⟩, mid', hadv, h⟩ := exists_of_bind_eq_ok h
      obtain ⟨-, rfl⟩ := EStateM.Result.ok.inj hadv
      obtain ⟨cs', mid', hcs, h⟩ := exists_of_bind_eq_ok h
      obtain ⟨rfl, rfl⟩ := EStateM.Result.ok.inj h
      obtain ⟨hnodup, hfree, taken', heq', hs⟩ := ih hcs
      rw [List.tail_cons] at heq'
      have hnew : c.axis ∉ cs'.map (·.axis) := by
        intro hin
        obtain ⟨d, hd, hda⟩ := List.mem_map.1 hin
        exact hfree d hd (hda ▸ List.mem_cons_self)
      refine ⟨List.nodup_cons.2 ⟨hnew, hnodup⟩, ?_, taken ++ .comma :: taken', ?_, .cons hclause hs⟩
      · exact List.forall_mem_cons.2 ⟨hused, fun d hd hin => hfree d hd (List.mem_cons_of_mem _ hin)⟩
      · rw [heq, heq', List.append_assoc, List.cons_append]
    · obtain ⟨rfl, rfl⟩ := EStateM.Result.ok.inj h
      exact ⟨hone c, List.forall_mem_singleton.2 hused, taken, heq, .one hclause⟩

/-- What is taken as the name of a cube is that name. -/
theorem of_cubeName_eq_ok {ts us : List Token} {cube : String} (h : cubeName ts = .ok cube us) : ts = .name cube :: us := by
  cases ts with
  | nil => nomatch h
  | cons t ts =>
    cases t with
    | name n =>
      obtain ⟨⟨⟩, mid, hadv, h⟩ := exists_of_bind_eq_ok (of_next_bind_eq_ok h)
      obtain ⟨-, rfl⟩ := EStateM.Result.ok.inj hadv
      obtain ⟨rfl, rfl⟩ := EStateM.Result.ok.inj h
      rfl
    | _ => nomatch h

/-- What is taken as a restriction is derived as it. -/
theorem exists_isRestriction_of_slicer? {ts us : List Token} {s : Option Slicer} (h : slicer? ts = .ok s us) :
    ∃ taken, ts = taken ++ us ∧ IsRestriction taken s := by
  obtain ⟨found, mid, hat, hrest⟩ := exists_of_bind_eq_ok h
  obtain ⟨rfl, hk⟩ := of_atKeyword_eq_ok hat
  split at hrest
  · next hfound =>
    obtain ⟨t, rest, rfl, hkeyword⟩ := hk hfound
    obtain ⟨⟨⟩, mid', hadv, hrest⟩ := exists_of_bind_eq_ok hrest
    obtain ⟨-, rfl⟩ := EStateM.Result.ok.inj hadv
    obtain ⟨s', mid', hread, hrest⟩ := exists_of_bind_eq_ok hrest
    obtain ⟨rfl, rfl⟩ := EStateM.Result.ok.inj hrest
    obtain ⟨taken, heq, hs⟩ := exists_isSlicer hread
    rw [List.tail_cons] at heq
    exact ⟨t :: taken, by rw [heq, List.cons_append], .some hkeyword hs⟩
  · obtain ⟨rfl, rfl⟩ := EStateM.Result.ok.inj hrest
    exact ⟨[], rfl, .none⟩

/-- All the tokens of a whole statement are derived as it. -/
theorem isStatement_of_wholeStatement {ts us : List Token} {s : SelectStatement} (h : wholeStatement ts = .ok s us) :
    IsStatement ts s := by
  obtain ⟨⟨⟩, ts₁, hselect, h⟩ := exists_of_bind_eq_ok h
  obtain ⟨cs, ts₂, hclauses, h⟩ := exists_of_bind_eq_ok h
  obtain ⟨⟨⟩, ts₃, hfrom, h⟩ := exists_of_bind_eq_ok h
  obtain ⟨cube, ts₄, hcube, h⟩ := exists_of_bind_eq_ok h
  obtain ⟨slicer, ts₅, hslicer, h⟩ := exists_of_bind_eq_ok h
  obtain ⟨⟨⟩, ts₆, hend, h⟩ := exists_of_bind_eq_ok h
  obtain ⟨rfl, rfl⟩ := EStateM.Result.ok.inj h
  obtain ⟨t, rfl, ht⟩ := exists_of_keyword_eq_ok hselect
  obtain ⟨hnodup, -, taken, rfl, hcs⟩ := exists_separated_of_clausesUpTo hclauses
  obtain ⟨t', rfl, ht'⟩ := exists_of_keyword_eq_ok hfrom
  obtain rfl := of_cubeName_eq_ok hcube
  obtain ⟨taken', rfl, hrestriction⟩ := exists_isRestriction_of_slicer? hslicer
  rw [of_atEnd_eq_ok hend, List.append_nil]
  exact .mk ht hcs hnodup ht' hrestriction

end Parser

/-- The tokens of a text that describes a set are derived as this set. -/
theorem SetExpr.isSet_of_ofText {text : String} {s : SetExpr} (h : ofText text = .ok s) : Grammar.IsSet (Token.ofText text) s := by
  unfold ofText at h
  split at h
  · next hw =>
    obtain rfl := Except.ok.inj h
    exact Parser.isSet_of_wholeSet hw
  · nomatch h

/-- The tokens of a text that describes a statement are derived as this statement. -/
theorem SelectStatement.isStatement_of_ofText {text : String} {s : SelectStatement} (h : ofText text = .ok s) :
    Grammar.IsStatement (Token.ofText text) s := by
  unfold ofText at h
  split at h
  · next hw =>
    obtain rfl := Except.ok.inj h
    exact Parser.isStatement_of_wholeStatement hw
  · nomatch h

/-- A statement has clauses, and its slicer, if it has one, is derived from some tokens. -/
theorem Grammar.IsStatement.spec {ts : List Token} {s : SelectStatement} (h : IsStatement ts s) :
    s.clauses ≠ [] ∧ ∀ slicer, s.slicer = some slicer → ∃ taken, IsSlicer taken slicer := by
  cases h with
  | mk _ hcs _ _ hrestriction =>
    refine ⟨hcs.ne_nil, ?_⟩
    rintro slicer rfl
    cases hrestriction with
    | some _ hs => exact ⟨_, hs⟩

end CubeAxes
