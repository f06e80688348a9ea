import Mathlib.Data.List.Forall2
import ModelData.Dat.Layout
import ModelData.Proofs.Json.Numbers

/-!
What can be told from two texts. Two numbers may be written as texts that start alike, so whole
texts are told apart part by part: each part is followed by what does not go on with a number.
-/

namespace ModelData.Dat

open Json (EndsNumber)

/-- From the two texts, alone or with more behind them, it can be told whether a fact holds: they
are the same if it does, and start the same text only if it does. -/
structure Tells (fact : Prop) (p q : List Char) : Prop where
  same : fact → p = q
  only : ∀ s t, EndsNumber s → EndsNumber t → p ++ s = q ++ t → fact

/-- What starts a text that does not go on with a number, whatever follows. -/
def Delimits (text : List Char) : Prop :=
  ∀ rest, EndsNumber (text ++ rest)

section Tells

variable {P Q : Prop} {p q p' q' : List Char}

theorem endsNumber_nil : EndsNumber [] := by
  simp [EndsNumber]

theorem Tells.eq_iff (h : Tells P p q) : p = q ↔ P := by
  refine ⟨fun heq => ?_, h.same⟩
  exact h.only [] [] endsNumber_nil endsNumber_nil (congrArg (· ++ []) heq)

theorem Tells.of_eq (hfact : P) (heq : p = q) : Tells P p q :=
  ⟨fun _ => heq, fun _ _ _ _ _ => hfact⟩

theorem Tells.congr (h : Tells P p q) (hiff : P ↔ Q) : Tells Q p q :=
  ⟨fun hQ => h.same (hiff.2 hQ), fun s t hs ht heq => hiff.1 (h.only s t hs ht heq)⟩

theorem Tells.symm (h : Tells P p q) : Tells P q p :=
  ⟨fun hfact => (h.same hfact).symm, fun s t hs ht heq => h.only t s ht hs heq.symm⟩

theorem Tells.after (start : List Char) (h : Tells P p q) : Tells P (start ++ p) (start ++ q) where
  same hfact := congrArg (start ++ ·) (h.same hfact)
  only s t hs ht heq := by
    rw [List.append_assoc, List.append_assoc] at heq
    exact h.only s t hs ht (List.append_cancel_left heq)

/-- Two facts can be told from two texts, one behind the other. -/
theorem Tells.append (h : Tells P p q) (h' : Tells Q p' q') (hp : Delimits p') (hq : Delimits q') :
    Tells (P ∧ Q) (p ++ p') (q ++ q') where
  same hfacts := by rw [h.same hfacts.1, h'.same hfacts.2]
  only s t hs ht heq := by
    rw [List.append_assoc, List.append_assoc] at heq
    have hfirst : P := h.only _ _ (hp s) (hq t) heq
    rw [h.same hfirst] at heq
    exact ⟨hfirst, h'.only s t hs ht (List.append_cancel_left heq)⟩

end Tells

section Lists

variable {α : Type} {R : α → α → Prop} {text : α → List Char} {xs ys : List α}
variable {separator closing : List Char}

theorem delimits_more (hseparator : Delimits separator) (hclosing : Delimits closing)
    (parts : List (List Char)) : Delimits (parts.flatMap (separator ++ ·) ++ closing) := by
  cases parts with
  | nil => exact hclosing
  | cons part parts =>
    intro rest
    rw [List.flatMap_cons, List.append_assoc, List.append_assoc, List.append_assoc]
    exact hseparator _

/-- What holds of the parts can be told from what is behind the first of them. -/
theorem Tells.more (hseparator : Delimits separator) (hclosing : Delimits closing)
    (h : List.Forall₂ (fun x y => Tells (R x y) (text x) (text y)) xs ys) :
    Tells (List.Forall₂ R xs ys) ((xs.map text).flatMap (separator ++ ·) ++ closing)
      ((ys.map text).flatMap (separator ++ ·) ++ closing) := by
  induction h with
  | nil => exact .of_eq .nil rfl
  | @cons x y xs ys hxy _ ih =>
    simp only [List.map_cons, List.flatMap_cons, List.append_assoc]
    refine (hxy.append ih ?_ ?_).after separator |>.congr List.forall₂_cons.symm
    · exact delimits_more hseparator hclosing _
    · exact delimits_more hseparator hclosing _

theorem Tells.intercalate (hseparator : Delimits separator) (hclosing : Delimits closing)
    (h : List.Forall₂ (fun x y => Tells (R x y) (text x) (text y)) xs ys) :
    Tells (List.Forall₂ R xs ys) (separator.intercalate (xs.map text) ++ closing)
      (separator.intercalate (ys.map text) ++ closing) := by
  cases h with
  | nil => exact .of_eq .nil rfl
  | cons hxy hrest =>
    simp only [List.map_cons, intercalate_cons_eq_flatMap, List.append_assoc]
    refine (hxy.append (Tells.more hseparator hclosing hrest) ?_ ?_).congr List.forall₂_cons.symm
    · exact delimits_more hseparator hclosing _
    · exact delimits_more hseparator hclosing _

theorem delimits_of_head {c : Char} {rest : List Char}
    (hc : c.isDigit = false ∧ c ≠ '.' ∧ c ≠ 'e' ∧ c ≠ 'E') : Delimits (c :: rest) := by
  intro more d hd
  obtain rfl : c = d := by simpa using hd
  exact hc

/-- In every layout the children of a collection are told apart by what stands between them. -/
theorem exists_wrap (layout : Layout) (opening : List Char) (hclosing : Delimits closing) :
    ∃ start indent separator finish, Delimits separator ∧ Delimits finish ∧
      ∀ parts, parts ≠ [] → layout.wrap opening closing parts =
        start ++ (separator.intercalate (parts.map (indent ++ ·)) ++ finish) := by
  have hcomma : Delimits [','] := delimits_of_head (by decide)
  cases layout with
  | compact | broken =>
    refine ⟨opening, [], [','], closing, hcomma, hclosing, fun parts hparts => ?_⟩
    cases parts with
    | nil => exact absurd rfl hparts
    | cons part parts => simp [Layout.wrap]
  | pretty width level =>
    refine ⟨opening ++ ['\n'], Layout.spaces (width * (level + 1)), [',', '\n'],
      '\n' :: Layout.spaces (width * level) ++ closing, delimits_of_head (by decide),
      delimits_of_head (by decide), fun parts hparts => ?_⟩
    cases parts with
    | nil => exact absurd rfl hparts
    | cons part parts => simp [Layout.wrap]

/-- What holds of the children can be told from the text of a collection, in any layout. -/
theorem Tells.wrap (layout : Layout) (opening : List Char) (hclosing : Delimits closing)
    (h : List.Forall₂ (fun x y => Tells (R x y) (text x) (text y)) xs ys) :
    Tells (List.Forall₂ R xs ys) (layout.wrap opening closing (xs.map text))
      (layout.wrap opening closing (ys.map text)) := by
  obtain ⟨start, indent, separator, finish, hseparator, hfinish, hwrap⟩ :=
    exists_wrap layout opening hclosing
  have hindented : List.Forall₂
      (fun x y => Tells (R x y) (indent ++ text x) (indent ++ text y)) xs ys :=
    h.imp fun _ _ htold => htold.after indent
  cases h with
  | nil => exact .of_eq .nil rfl
  | cons =>
    rw [hwrap _ (by simp), hwrap _ (by simp), List.map_map, List.map_map]
    exact (Tells.intercalate hseparator hfinish hindented).after start

end Lists

end ModelData.Dat
