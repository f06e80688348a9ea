import ModelData.Proofs.Dat.Reading
import ModelData.Proofs.Value.Traverse

/-!
The body of a data file is read back from its text in any layout, so two documents with the same
statements hold the same elements, up to normal forms.
-/

namespace ModelData

namespace Dat

open Identifier (isName isStart isPart head_of_isName)

/-- The elements of a text of statements in any layout. -/
def readBody? (text : List Char) : Option (List Named) :=
  readStatements ((joined text).length + 1) (joined text)

theorem newline_not_mem_joined (text : List Char) : '\n' ∉ joined text := by
  fun_induction joined text with
  | case1 => simp
  | case2 rest ih => exact ih
  | case3 c rest hc ih => simp [Ne.symm hc, ih]

theorem joined_compact {e : Element} (h : e.Everywhere KeepsLines) (rest : List Char) :
    joined (write .compact e ++ rest) = write .compact e ++ joined rest := by
  refine joined_line ?_ rest
  have hjoined := joined_write 0 0 h []
  rw [List.append_nil, joined_nil, List.append_nil] at hjoined
  rw [← hjoined]
  exact newline_not_mem_joined _

theorem joined_topLayout (d : Document) (choice : Value) {e : Element}
    (h : e.Everywhere KeepsLines) (rest : List Char) :
    joined (write (topLayout d choice) e ++ rest) = write .compact e ++ joined rest := by
  unfold topLayout
  split
  · exact joined_write _ _ h rest
  · exact joined_compact h rest

/-- A body that is written holds one statement for each element. -/
theorem body_eq {d : Document} {choice : Value} {text : List Char}
    (h : body d choice = .ok text) :
    text = (d.elements.map fun n =>
      statement n.name.chars (write (topLayout d choice) n.element)).flatten := by
  unfold body at h
  dsimp only at h
  cases hmap : (d.elements.mapM fun n => do
      return statement n.name.chars (← render (topLayout d choice) n.element) :
      Except Misfit (List (List Char))) with
  | error m =>
    rw [hmap] at h
    cases h
  | ok statements =>
    rw [hmap] at h
    cases h
    refine congrArg List.flatten (eq_map_of_mapM hmap fun n _ text htext => ?_)
    unfold render at htext
    split at htext <;> cases htext
    rfl

/-- A statement on one line, without the blank line behind it. -/
def statementLine (n : Named) : List Char :=
  n.name.chars ++ ([' ', '=', ' '] ++ (write .compact n.element ++ [';']))

/-- Documents of elements whose names and bare texts are identifiers throughout. -/
structure Readable (d : Document) : Prop where
  names : ∀ n ∈ d.elements, IsWord n.name
  legible : ∀ n ∈ d.elements, n.element.Everywhere Legible

theorem head_statements {d : Document} {choice : Value} {ns : List Named}
    (hnames : ∀ n ∈ ns, IsWord n.name) :
    (ns.map fun n =>
      statement n.name.chars (write (topLayout d choice) n.element)).flatten.head? ≠ some ' ' := by
  cases ns with
  | nil => simp
  | cons n ns =>
    obtain ⟨s, hs, hname⟩ := hnames n (by simp)
    obtain ⟨c, tail, hchars, hc⟩ := head_of_isName hname
    have hspace : c ≠ ' ' := fun heq => by simp [heq, isStart] at hc
    have hfirst : n.name.chars = c :: tail := by rw [hs]; exact hchars
    simpa [statement, hfirst] using hspace

theorem joined_statement {d : Document} {choice : Value} {n : Named} (hname : IsWord n.name)
    (hlegible : n.element.Everywhere Legible) {rest : List Char} (hrest : rest.head? ≠ some ' ') :
    joined (statement n.name.chars (write (topLayout d choice) n.element) ++ rest) =
      statementLine n ++ joined rest := by
  obtain ⟨s, hs, hname⟩ := hname
  have hstays : '\n' ∉ n.name.chars := by
    rw [hs]
    exact (staysOnLine_of_isName hname).1
  have hshape : statement n.name.chars (write (topLayout d choice) n.element) ++ rest =
      n.name.chars ++ ([' ', '=', ' '] ++ (write (topLayout d choice) n.element ++
        ([';'] ++ '\n' :: (Layout.spaces 0 ++ '\n' :: (Layout.spaces 0 ++ rest))))) := by
    simp [statement, Layout.spaces]
  rw [hshape, joined_line hstays, joined_line (by decide),
    joined_topLayout d choice (hlegible.mono fun _ h => h.keepsLines), joined_line (by decide),
    joined_break 0 (by simp), joined_break 0 hrest]
  simp only [statementLine, List.append_assoc]

theorem joined_body {d : Document} (h : Readable d) {choice : Value} {text : List Char}
    (htext : body d choice = .ok text) :
    joined text = (d.elements.map statementLine).flatten := by
  obtain ⟨hnames, hlegible⟩ := h
  rw [body_eq htext]
  generalize d.elements = ns at hnames hlegible
  induction ns with
  | nil => exact joined_nil
  | cons n ns ih =>
    have hrest := ih (fun m hm => hnames m (List.mem_cons_of_mem n hm))
      fun m hm => hlegible m (List.mem_cons_of_mem n hm)
    have hhead := @head_statements d choice ns fun m hm => hnames m (List.mem_cons_of_mem n hm)
    simp only [List.map_cons, List.flatten_cons]
    rw [joined_statement (hnames n (by simp)) (hlegible n (by simp)) hhead, hrest]

theorem readNamed_statement {n : Named} (hname : IsWord n.name)
    (hlegible : n.element.Everywhere Legible) (more : List Char) :
    readNamed (fun text => elementOf? (read (text.length + 1) text)) [' ', '=', ' ']
        (statementLine n ++ more) = some (n.norm, [';'] ++ more) := by
  obtain ⟨s, hs, hname⟩ := hname
  obtain ⟨name, e⟩ := n
  obtain rfl : name = .text s := hs
  have helement : read ((write .compact e ++ ([';'] ++ more)).length + 1)
      (write .compact e ++ ([';'] ++ more)) = some (.element e.norm, [';'] ++ more) := by
    refine read_write hlegible ?_ (by simp [Ends])
    simp only [List.length_append]
    omega
  have hshape : statementLine ⟨.text s, e⟩ ++ more =
      s.toList ++ ([' ', '=', ' '] ++ (write .compact e ++ ([';'] ++ more))) := by
    simp [statementLine, Value.chars]
  rw [hshape]
  refine readNamed_word hname ⟨' ', _, rfl, by decide⟩ ?_
  rw [helement]
  rfl

theorem statementLine_ne_nil (n : Named) : statementLine n ≠ [] := by
  simp [statementLine]

theorem readStatements_lines {ns : List Named} (hnames : ∀ n ∈ ns, IsWord n.name)
    (hlegible : ∀ n ∈ ns, n.element.Everywhere Legible) {steps : Nat}
    (hsteps : (ns.map statementLine).flatten.length < steps) :
    readStatements steps (ns.map statementLine).flatten = some (ns.map Binding.norm) := by
  induction ns generalizing steps with
  | nil =>
    cases steps with
    | zero => simp at hsteps
    | succ steps => rfl
  | cons n ns ih =>
    obtain ⟨steps, rfl⟩ : ∃ m, steps = m + 1 := Nat.exists_eq_add_one_of_ne_zero (by omega)
    have hpos := List.length_pos_iff.2 (statementLine_ne_nil n)
    rw [List.map_cons, List.flatten_cons] at hsteps ⊢
    rw [List.length_append] at hsteps
    have hrest := ih (fun m hm => hnames m (List.mem_cons_of_mem n hm))
      (fun m hm => hlegible m (List.mem_cons_of_mem n hm)) (by omega : _ < steps)
    have hstatement := readNamed_statement (hnames n List.mem_cons_self)
      (hlegible n List.mem_cons_self) (ns.map statementLine).flatten
    obtain ⟨c, tail, hline⟩ := List.exists_cons_of_ne_nil (statementLine_ne_nil n)
    rw [hline, List.cons_append] at hstatement ⊢
    rw [readStatements]
    · rw [hstatement]
      simp only [Option.bind_eq_bind, Option.bind_some, after?_append, hrest]
      rfl
    · simp

/-- A readable document is read back from its body, in any layout, up to normal forms. -/
theorem readBody?_body {d : Document} (h : Readable d) {choice : Value} {text : List Char}
    (htext : body d choice = .ok text) :
    readBody? text = some (d.elements.map Binding.norm) := by
  rw [readBody?, joined_body h htext]
  exact readStatements_lines h.names h.legible (Nat.lt_succ_self _)

/-- Readable documents with the same body hold the same elements under the same names, up to
normal forms, whatever their settings and layouts. -/
theorem elements_of_body_eq {d₁ d₂ : Document} (h₁ : Readable d₁) (h₂ : Readable d₂)
    {choice₁ choice₂ : Value} {text : List Char} (htext₁ : body d₁ choice₁ = .ok text)
    (htext₂ : body d₂ choice₂ = .ok text) :
    d₁.elements.map (fun n => (n.name, n.element.norm)) =
      d₂.elements.map fun n => (n.name, n.element.norm) := by
  have hread : some (d₁.elements.map Binding.norm) = some (d₂.elements.map Binding.norm) := by
    rw [← readBody?_body h₁ htext₁, readBody?_body h₂ htext₂]
  have hpairs (ns : List Named) : (ns.map Binding.norm).map (fun n => (n.name, n.element)) =
      ns.map fun n => (n.name, n.element.norm) := by
    rw [List.map_map]
    refine List.map_congr_left fun n _ => ?_
    obtain ⟨name, e⟩ := n
    rfl
  rw [← hpairs, ← hpairs, Option.some.inj hread]

/-- A set of one member and a bare text, in a document with a width of its own. -/
def gate (m : Member) (indentWidth : Nat) : Document where
  elements := [⟨.text "gate", .set [m, .scalar (.text "open")]⟩]
  config := { Config.standard with indentWidth }

theorem legible_gateSet {m : Member} (h : m.word? = none) :
    Legible (.set [m, .scalar (.text "open")]) := by
  refine ⟨rfl, by simp [Element.keys, Element.keys?], fun s hs => ?_⟩
  have hwords : (Element.set [m, .scalar (.text "open")]).words = ["open"] := by
    simp only [Element.words, List.filterMap_cons, h]
    rfl
  rw [hwords] at hs
  obtain rfl := List.mem_singleton.1 hs
  decide

theorem elements_of_gate :
    body (gate (.scalar (.int 1)) 4) (.flag false) = .ok "gate = {1,open};\n\n".toList ∧
      body (gate (.element (.scalar (.flag true))) 2) (.flag false) =
        .ok "gate = {1,open};\n\n".toList ∧
      (gate (.scalar (.int 1)) 4).elements.map (fun n => (n.name, n.element.norm)) =
        (gate (.element (.scalar (.flag true))) 2).elements.map
          fun n => (n.name, n.element.norm) := by
  have hname : IsWord (.text "gate") := ⟨"gate", rfl, by decide⟩
  have hraw : Readable (gate (.scalar (.int 1)) 4) := by
    refine ⟨by simpa [gate] using hname, ?_⟩
    simpa [gate] using Element.Everywhere.leaf (legible_gateSet rfl) rfl
  have hboxed : Readable (gate (.element (.scalar (.flag true))) 2) := by
    refine ⟨by simpa [gate] using hname, ?_⟩
    have hset : (Element.set [.element (.scalar (.flag true)), .scalar (.text "open")]).Everywhere
        Legible := by
      refine .intro (legible_gateSet rfl) fun d hd => ?_
      obtain rfl := List.mem_singleton.1 hd
      exact .leaf ⟨rfl, by simp [Element.keys, Element.keys?], by simp [Element.words]⟩ rfl
    simpa [gate] using hset
  have htext₁ : body (gate (.scalar (.int 1)) 4) (.flag false) =
      .ok "gate = {1,open};\n\n".toList := rfl
  have htext₂ : body (gate (.element (.scalar (.flag true))) 2) (.flag false) =
      .ok "gate = {1,open};\n\n".toList := rfl
  exact ⟨htext₁, htext₂, elements_of_body_eq hraw hboxed htext₁ htext₂⟩

end Dat

end ModelData
