import Mathlib.Data.List.Forall2
import CubeAxes.Statement

/-!
# The words of the grammar

Keywords, functions and axes are words in any case. The grammar has tables of its own for them: a function has a name and takes so
many sets, an axis has a name and an ordinal. What the parser looks up is what these tables say (`Grammar.isKeyword_iff`,
`Grammar.isFunction_iff`, `Grammar.isNamed_iff`), and under the names that they say (`SetFunction.ofName?_eq_some_iff`,
`AxisName.ofName?_eq_some_iff`).
-/

namespace CubeAxes

namespace Grammar

/-- Two characters that are one, but for the case of an ASCII letter. -/
inductive SameLetter : Char → Char → Prop
  | same (c : Char) : SameLetter c c
  | capital {c d : Char} : 'A' ≤ c → c ≤ 'Z' → d.toNat = c.toNat + 32 → SameLetter c d
  | small {c d : Char} : 'A' ≤ d → d ≤ 'Z' → c.toNat = d.toNat + 32 → SameLetter c d

/-- A word that is a given text, in any case. -/
inductive IsKeyword : Token → String → Prop
  | mk {word text : String} : List.Forall₂ SameLetter word.toList text.toList → IsKeyword (.word word) text

/-- Functions, with the name of each and a number of sets that it takes. -/
inductive IsFunction : SetFunction → String → Nat → Prop
  | crossJoin {n : Nat} : 2 ≤ n → IsFunction .crossJoin "CrossJoin" n
  | union {n : Nat} : 2 ≤ n → IsFunction .union "Union" n
  | hierarchize : IsFunction .hierarchize "Hierarchize" 1

/-- Axes, with the name of each and its ordinal. -/
inductive IsNamed : AxisName → String → Nat → Prop
  | columns : IsNamed .columns "COLUMNS" 0
  | rows : IsNamed .rows "ROWS" 1
  | pages : IsNamed .pages "PAGES" 2
  | chapters : IsNamed .chapters "CHAPTERS" 3
  | sections : IsNamed .sections "SECTIONS" 4

/-! ## Letters and words -/

/-- The letters from `a` to `z` are 32 above their capitals. -/
theorem toNat_toUpper (c : Char) : c.toUpper.toNat = if 97 ≤ c.toNat ∧ c.toNat ≤ 122 then c.toNat - 32 else c.toNat := by
  unfold Char.toUpper
  by_cases h : 'a'.val ≤ c.val ∧ c.val ≤ 'z'.val
  · have hsmall : 97 ≤ c.toNat ∧ c.toNat ≤ 122 := h
    have hdown : ('A'.val - 'a'.val).toNat = 2 ^ 32 - 32 := by decide
    have hval : c.val.toNat = c.toNat := rfl
    rw [dif_pos h, if_pos hsmall, Char.toNat, UInt32.toNat_add, hdown, hval]
    omega
  · have hother : ¬(97 ≤ c.toNat ∧ c.toNat ≤ 122) := h
    rw [dif_neg h, if_neg hother]

/-- Two characters have the same capital just when they are one but for their case. -/
theorem toUpper_eq_toUpper_iff {c d : Char} : c.toUpper = d.toUpper ↔ SameLetter c d := by
  have hcapital : ∀ e : Char, ('A' ≤ e ↔ 65 ≤ e.toNat) ∧ (e ≤ 'Z' ↔ e.toNat ≤ 90) := fun e => ⟨Iff.rfl, Iff.rfl⟩
  rw [← Char.toNat_inj, toNat_toUpper, toNat_toUpper]
  constructor
  · intro h
    by_cases hsame : c.toNat = d.toNat
    · rw [Char.toNat_inj.1 hsame]
      exact .same d
    · -- only one of the two is a small letter, since their numbers differ
      split at h <;> split at h
      · omega
      · exact .small ((hcapital d).1.2 (by omega)) ((hcapital d).2.2 (by omega)) (by omega)
      · exact .capital ((hcapital c).1.2 (by omega)) ((hcapital c).2.2 (by omega)) (by omega)
      · omega
  · intro h
    cases h with
    | same => rfl
    | capital hA hZ hd =>
      rw [(hcapital c).1] at hA
      rw [(hcapital c).2] at hZ
      rw [if_neg (by omega), if_pos (by omega)]
      omega
    | small hA hZ hc =>
      rw [(hcapital d).1] at hA
      rw [(hcapital d).2] at hZ
      rw [if_pos (by omega), if_neg (by omega)]
      omega

/-- Two words are compared letter by letter. -/
theorem sameWord_iff {a b : String} : sameWord a b = true ↔ List.Forall₂ SameLetter a.toList b.toList := by
  rw [sameWord, decide_eq_true_iff, ← List.forall₂_eq_eq_eq, List.forall₂_map_left_iff, List.forall₂_map_right_iff]
  simp only [toUpper_eq_toUpper_iff]

/-- A token is a keyword just when the parser takes it for one. -/
theorem isKeyword_iff {t : Token} {text : String} : IsKeyword t text ↔ t.isKeyword text = true := by
  constructor
  · rintro ⟨h⟩
    exact sameWord_iff.2 h
  · intro h
    cases t with
    | word w => exact .mk (sameWord_iff.1 h)
    | _ => nomatch h

instance (t : Token) (text : String) : Decidable (IsKeyword t text) := decidable_of_iff _ isKeyword_iff.symm

/-- A keyword is a word. -/
theorem IsKeyword.exists_eq {t : Token} {text : String} (h : IsKeyword t text) : ∃ w, t = .word w ∧ sameWord w text = true := by
  obtain ⟨hw⟩ := h
  exact ⟨_, rfl, sameWord_iff.2 hw⟩

/-! ## Functions and axes -/

/-- Two words that are both a third are the same. -/
theorem sameWord_of_sameWord {a b w : String} (ha : sameWord w a = true) (hb : sameWord w b = true) : sameWord a b = true :=
  decide_eq_true ((of_decide_eq_true ha).symm.trans (of_decide_eq_true hb))

theorem sameWord_comm (a b : String) : sameWord a b = sameWord b a := decide_eq_decide.2 eq_comm

/-- Of things whose names differ the one that has a given name, in any case, is found. -/
theorem find?_sameWord_iff {α : Type} {as : List α} {name : α → String}
    (hname : ∀ a ∈ as, ∀ b ∈ as, sameWord (name a) (name b) = true → a = b) {w : String} {a : α} :
    as.find? (fun b => sameWord (name b) w) = some a ↔ a ∈ as ∧ IsKeyword (.word w) (name a) := by
  have hfound : ∀ b, as.find? (fun b => sameWord (name b) w) = some b → b ∈ as ∧ sameWord w (name b) = true := by
    intro b hb
    have hw := List.find?_some (p := fun b => sameWord (name b) w) hb
    exact ⟨List.mem_of_find?_eq_some hb, sameWord_comm w (name b) ▸ hw⟩
  rw [isKeyword_iff]
  constructor
  · exact hfound a
  · rintro ⟨ha, hw⟩
    have hsome : (as.find? fun b => sameWord (name b) w).isSome = true :=
      List.find?_isSome.2 ⟨a, ha, sameWord_comm w (name a) ▸ hw⟩
    obtain ⟨b, hb⟩ := Option.isSome_iff_exists.1 hsome
    obtain ⟨hbmem, hbw⟩ := hfound b hb
    rw [hb, hname a ha b hbmem (sameWord_of_sameWord hw hbw)]

/-- The table of functions is that of the parser. -/
theorem isFunction_iff {f : SetFunction} {name : String} {n : Nat} :
    IsFunction f name n ↔ name = f.name ∧ f.takes n = true := by
  constructor
  · intro h
    cases h with
    | crossJoin hn => exact ⟨rfl, decide_eq_true hn⟩
    | union hn => exact ⟨rfl, decide_eq_true hn⟩
    | hierarchize => exact ⟨rfl, rfl⟩
  · rintro ⟨rfl, hn⟩
    cases f with
    | crossJoin => exact .crossJoin (of_decide_eq_true hn)
    | union => exact .union (of_decide_eq_true hn)
    | hierarchize =>
      obtain rfl := eq_of_beq hn
      exact .hierarchize

/-- The table of axes is that of the parser. -/
theorem isNamed_iff {a : AxisName} {name : String} {n : Nat} :
    IsNamed a name n ↔ name = a.text ∧ AxisName.ofOrdinal? n = some a := by
  constructor
  · intro h
    cases h <;> exact ⟨rfl, rfl⟩
  · rintro ⟨rfl, hn⟩
    rcases n with _ | _ | _ | _ | _ | n
    · obtain rfl := Option.some.inj hn
      exact .columns
    · obtain rfl := Option.some.inj hn
      exact .rows
    · obtain rfl := Option.some.inj hn
      exact .pages
    · obtain rfl := Option.some.inj hn
      exact .chapters
    · obtain rfl := Option.some.inj hn
      exact .sections
    · obtain ⟨hlt, -⟩ := List.getElem?_eq_some_iff.1 hn
      exact absurd hlt (Nat.not_lt.2 (Nat.le_add_left 5 n))

/-- Every axis has an ordinal. -/
theorem exists_isNamed (a : AxisName) : ∃ n, IsNamed a a.text n := by
  cases a with
  | columns => exact ⟨0, .columns⟩
  | rows => exact ⟨1, .rows⟩
  | pages => exact ⟨2, .pages⟩
  | chapters => exact ⟨3, .chapters⟩
  | sections => exact ⟨4, .sections⟩

end Grammar

open Grammar

/-- A word is looked up as a function just when it is the name of this function. -/
theorem SetFunction.ofName?_eq_some_iff {w : String} {f : SetFunction} : ofName? w = some f ↔ IsKeyword (.word w) f.name := by
  have hname : ∀ f ∈ [crossJoin, union, hierarchize], ∀ g ∈ [crossJoin, union, hierarchize],
      sameWord f.name g.name = true → f = g := by decide
  have hmem : f ∈ [crossJoin, union, hierarchize] := by cases f <;> decide
  exact (find?_sameWord_iff hname).trans (and_iff_right hmem)

/-- A word is looked up as an axis just when it is the name of this axis. -/
theorem AxisName.ofName?_eq_some_iff {w : String} {a : AxisName} : ofName? w = some a ↔ IsKeyword (.word w) a.text := by
  have hname : ∀ a ∈ all, ∀ b ∈ all, sameWord a.text b.text = true → a = b := by decide
  have hmem : a ∈ all := by cases a <;> decide
  exact (find?_sameWord_iff hname).trans (and_iff_right hmem)

/-- The name of an axis is not the word that is followed by an ordinal. -/
theorem AxisName.sameWord_eq_false_of_isKeyword {w : String} {a : AxisName} (h : IsKeyword (.word w) a.text) :
    sameWord w "AXIS" = false := by
  cases hw : sameWord w "AXIS" with
  | false => rfl
  | true =>
    have hsame := sameWord_of_sameWord (isKeyword_iff.1 h) hw
    cases a <;> nomatch hsame

end CubeAxes
