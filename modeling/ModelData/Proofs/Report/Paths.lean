import ModelData.Proofs.Identifier.Grammar
import ModelData.Proofs.Report.Listing
import ModelData.Proofs.Report.Repeats

/-!
Paths tell nodes apart. A step to a child stands in brackets that do not occur between them, and
the brackets are the same for all children of a node, so of two different steps neither begins the
other. In a document whose names and keys are identifiers, none given twice, each node therefore
has a path of its own, and a report has one path for every array that is wrong in some way.
-/

namespace ModelData

/-- The keys are identifiers, and none is given twice. -/
structure Element.KeyedApart (e : Element) : Prop where
  identifiers : ∀ key ∈ e.keys, Identifier.isValid key = true
  distinct : e.keys.Nodup

/-- A document whose names are identifiers, none given twice, and so are the keys of each array. -/
structure Document.NamedApart (d : Document) : Prop where
  identifiers : ∀ n ∈ d.elements, Identifier.isValid n.name = true
  distinctNames : (d.elements.map (·.name)).Nodup
  keys : ∀ n ∈ d.elements, n.element.Everywhere Element.KeyedApart

theorem Element.keyedApart_of_keyless {e : Element} (h : e.keys = []) : e.KeyedApart :=
  ⟨by simp [h], by simp [h]⟩

namespace Identifier

theorem exists_text_of_isValid {v : Value} (h : isValid v = true) : ∃ s, v = .text s := by
  cases v with
  | text s => exact ⟨s, rfl⟩
  | _ => cases h

/-- What an identifier is made of; a line break may end it. -/
theorem isPart_of_mem_isValid {s : String} (h : isValid (.text s) = true) {c : Char}
    (hc : c ∈ s.toList) : isPart c = true ∨ c = '\n' := by
  have hgrammar := isValid_text_iff.1 h
  rcases withoutFinalBreak_cases s.toList with hsame | hbreak
  · exact .inl (isPart_iff.2 (hgrammar.parts c (hsame ▸ hc)))
  · rw [hbreak, List.mem_append, List.mem_singleton] at hc
    exact hc.imp_left fun hc => isPart_iff.2 (hgrammar.parts c hc)

theorem not_mem_of_isValid {s : String} (h : isValid (.text s) = true) {c : Char}
    (hpart : isPart c = false) (hbreak : c ≠ '\n') : c ∉ s.toList := by
  intro hc
  rcases isPart_of_mem_isValid h hc with hc | hc
  · rw [hpart] at hc
    cases hc
  · exact hbreak hc

end Identifier

namespace Document

variable {d : Document}

theorem NamedApart.names (h : d.NamedApart) : ∀ n ∈ d.elements, ∃ s, n.name = .text s :=
  fun n hn => Identifier.exists_text_of_isValid (h.identifiers n hn)

theorem NamedApart.keyed (h : d.NamedApart) :
    ∀ n ∈ d.elements, n.element.Everywhere Element.KeyedByTexts :=
  fun n hn => (h.keys n hn).mono fun _ he key hkey =>
    Identifier.exists_text_of_isValid (he.identifiers key hkey)

end Document

namespace Report

section Brackets

variable {opening closing : Char} {body other : List Char}

/-- A text in brackets. -/
def enclosed (opening closing : Char) (body : List Char) : List Char :=
  opening :: body ++ [closing]

/-- The brackets that steps begin with. -/
def opens (c : Char) : Bool :=
  c = '[' || c = '<' || c = '\x7b'

/-- A text in brackets ends where the bracket that closes it first stands. -/
theorem eq_of_enclosed (hbody : closing ∉ body) (hother : closing ∉ other)
    (h : enclosed opening closing body <+: enclosed opening closing other) : body = other := by
  obtain ⟨more, hmore⟩ := h
  simp only [enclosed, List.cons_append, List.append_assoc, List.cons.injEq, true_and] at hmore
  have hends : ∀ rest : List Char, ∀ c ∈ (closing :: rest).head?, (c != closing) = false := by
    simp
  have hkept {xs : List Char} (hxs : closing ∉ xs) : ∀ c ∈ xs, (c != closing) = true :=
    fun c hc => bne_iff_ne.2 fun heq => hxs (heq ▸ hc)
  have hspan := congrArg (List.span (· != closing)) hmore
  rw [span_append (hkept hbody) (hends _), span_append (hkept hother) (hends _)] at hspan
  exact (Prod.mk.inj hspan).1

end Brackets

section Steps

variable {e : Element} {path : List Char}

/-- How the children of a node are reached. -/
structure Steps (e : Element) (opening closing : Char) (bodies : List (List Char)) : Prop where
  opens : opens opening = true
  closed : ∀ body ∈ bodies, closing ∉ body
  distinct : bodies.Nodup
  paths : ∀ path, (places path e).map (·.1) =
    bodies.map fun body => path ++ enclosed opening closing body

theorem pairwise_positions {α : Type} (xs : List α) :
    xs.zipIdx.Pairwise fun x y => Digits.ofNat x.2 ≠ Digits.ofNat y.2 := by
  have hnumbers : (xs.zipIdx.map (·.2)).Nodup := by
    rw [List.zipIdx_map_snd]
    exact List.nodup_range'
  exact (List.pairwise_map.1 hnumbers).imp fun hne heq => hne (Digits.ofNat_injective heq)

theorem not_mem_position {c : Char} (h : c.isDigit = false) (n : Nat) : c ∉ Digits.ofNat n := by
  intro hc
  rw [Digits.isDigit_of_mem_ofNat hc] at h
  cases h

theorem steps_tuple (items : List Element) :
    Steps (.tuple items) '<' '>' (items.zipIdx.map fun x => Digits.ofNat x.2) where
  opens := rfl
  closed := by
    simp only [List.forall_mem_map]
    exact fun _ _ => not_mem_position rfl _
  distinct := List.pairwise_map.2 (pairwise_positions items)
  paths path := by
    simp only [places, List.map_map]
    rfl

theorem steps_set (members : List Member) :
    Steps (.set members) '\x7b' '\x7d'
      (members.zipIdx.filterMap fun x => x.1.element?.map fun _ => Digits.ofNat x.2) where
  opens := rfl
  closed := by
    intro body hbody
    obtain ⟨x, -, hx⟩ := List.mem_filterMap.1 hbody
    obtain ⟨_, -, rfl⟩ := Option.map_eq_some_iff.1 hx
    exact not_mem_position rfl _
  distinct := by
    refine (pairwise_positions members).filterMap _ fun x y hne body hbody other hother => ?_
    obtain ⟨_, -, rfl⟩ := Option.map_eq_some_iff.1 hbody
    obtain ⟨_, -, rfl⟩ := Option.map_eq_some_iff.1 hother
    exact hne
  paths path := by
    simp only [places, List.map_filterMap, Option.map_map]
    refine List.filterMap_congr fun x _ => ?_
    rfl

theorem steps_array {entries : List Named} (h : (Element.array entries).KeyedApart) :
    Steps (.array entries) '[' ']' (entries.map fun n => n.name.chars) where
  opens := rfl
  closed := by
    simp only [List.forall_mem_map]
    intro n hn
    have hvalid := h.identifiers n.name (List.mem_map_of_mem hn)
    obtain ⟨s, hs⟩ := Identifier.exists_text_of_isValid hvalid
    rw [hs] at hvalid ⊢
    exact Identifier.not_mem_of_isValid hvalid rfl (by decide)
  distinct := by
    have hkeys := List.pairwise_map.1 (show (entries.map (·.name)).Nodup from h.distinct)
    refine List.pairwise_map.2 (hkeys.imp_of_mem fun {n m} hn hm hne heq => hne ?_)
    obtain ⟨s, hs⟩ := Identifier.exists_text_of_isValid (h.identifiers _ (List.mem_map_of_mem hn))
    obtain ⟨t, ht⟩ := Identifier.exists_text_of_isValid (h.identifiers _ (List.mem_map_of_mem hm))
    rw [hs, ht] at heq ⊢
    rw [String.toList_inj.1 heq]
  paths path := by
    simp only [places, List.map_map]
    rfl

theorem exists_steps (h : e.KeyedApart) :
    ∃ opening closing bodies, Steps e opening closing bodies := by
  cases e with
  | set members => exact ⟨_, _, _, steps_set members⟩
  | tuple items => exact ⟨_, _, _, steps_tuple items⟩
  | array entries => exact ⟨_, _, _, steps_array h⟩
  | _ => exact ⟨'[', ']', [], rfl, by simp, by simp, fun _ => rfl⟩

/-- A child lies behind a bracket from its parent. -/
theorem exists_step (h : e.KeyedApart) {place : List Char × Element}
    (hplace : place ∈ places path e) :
    ∃ c more, opens c = true ∧ place.1 = path ++ c :: more := by
  obtain ⟨opening, closing, bodies, hsteps⟩ := exists_steps h
  have hmem := List.mem_map_of_mem (f := (·.1)) hplace
  rw [hsteps.paths] at hmem
  obtain ⟨body, -, hbody⟩ := List.mem_map.1 hmem
  exact ⟨opening, body ++ [closing], hsteps.opens, hbody.symm⟩

/-- No path begins with the paths of two children. -/
theorem pairwise_places (h : e.KeyedApart) (path : List Char) :
    (places path e).Pairwise fun p q => ∀ longer, p.1 <+: longer → ¬ q.1 <+: longer := by
  obtain ⟨opening, closing, bodies, hsteps⟩ := exists_steps h
  have hpaths : ((places path e).map (·.1)).Pairwise
      fun p q => ∀ longer, p <+: longer → ¬ q <+: longer := by
    rw [hsteps.paths, List.pairwise_map]
    refine List.Pairwise.imp_of_mem (fun {body other} hbody hother hne longer hp hq => hne ?_)
      hsteps.distinct
    have hclosed := hsteps.closed body hbody
    have hclosedOther := hsteps.closed other hother
    rcases List.prefix_or_prefix_of_prefix hp hq with hprefix | hprefix
    · exact eq_of_enclosed hclosed hclosedOther ((List.prefix_append_right_inj _).1 hprefix)
    · exact (eq_of_enclosed hclosedOther hclosed
        ((List.prefix_append_right_inj _).1 hprefix)).symm
  exact List.pairwise_map.1 hpaths

end Steps

section Nodes

variable {e : Element} {path : List Char}

/-- All paths in a node go on from its own, if at all, with a bracket. -/
theorem path_of_mem_visits (h : e.Everywhere Element.KeyedApart) {p : List Char × Element}
    (hp : p ∈ visits path e) :
    ∃ more : List Char, p.1 = path ++ more ∧ ∀ c ∈ more.head?, opens c = true := by
  induction h generalizing path with
  | @intro e here _ ih =>
    rw [visits_eq, List.mem_cons, List.mem_flatMap] at hp
    rcases hp with rfl | ⟨place, hplace, hp⟩
    · exact ⟨[], (List.append_nil _).symm, by simp⟩
    · obtain ⟨more, hmore, -⟩ := ih place.2 (mem_children_of_mem_places hplace) hp
      obtain ⟨c, step, hopens, hstep⟩ := exists_step here hplace
      refine ⟨c :: step ++ more, by rw [hmore, hstep, List.append_assoc], ?_⟩
      simpa using hopens

theorem prefix_of_mem_visits (h : e.Everywhere Element.KeyedApart) {p : List Char}
    (hp : p ∈ (visits path e).map (·.1)) : path <+: p := by
  obtain ⟨q, hq, rfl⟩ := List.mem_map.1 hp
  obtain ⟨more, hmore, -⟩ := path_of_mem_visits h hq
  exact ⟨more, hmore.symm⟩

/-- No two nodes in an element have one path. -/
theorem nodup_visits (h : e.Everywhere Element.KeyedApart) (path : List Char) :
    ((visits path e).map (·.1)).Nodup := by
  induction h generalizing path with
  | @intro e here inside ih =>
    have hinside {p : List Char × Element} (hp : p ∈ places path e) :=
      inside p.2 (mem_children_of_mem_places hp)
    rw [visits_eq, List.map_cons, List.nodup_cons, List.map_flatMap]
    constructor
    · intro hmem
      obtain ⟨place, hplace, hpath⟩ := List.mem_flatMap.1 hmem
      obtain ⟨c, more, -, hstep⟩ := exists_step here hplace
      have hlength := (prefix_of_mem_visits (hinside hplace) hpath).length_le
      simp [hstep] at hlength
    · refine List.nodup_flatMap.2 ⟨fun place hplace =>
        ih place.2 (mem_children_of_mem_places hplace) place.1, ?_⟩
      refine List.Pairwise.imp_of_mem (fun hp hq hapart => ?_) (pairwise_places here path)
      exact List.disjoint_left.2 fun longer hlonger hother => hapart longer
        (prefix_of_mem_visits (hinside hp) hlonger) (prefix_of_mem_visits (hinside hq) hother)

/-- The name that a path starts with. -/
def root (path : List Char) : List Char :=
  path.takeWhile fun c => !opens c

theorem root_of_mem_visits {s : String} (hname : Identifier.isValid (.text s) = true)
    (h : e.Everywhere Element.KeyedApart) {p : List Char × Element}
    (hp : p ∈ visits s.toList e) : root p.1 = s.toList := by
  obtain ⟨more, hmore, hopens⟩ := path_of_mem_visits h hp
  have hletters : ∀ c ∈ s.toList, (!opens c) = true := by
    intro c hc
    rcases Identifier.isPart_of_mem_isValid hname hc with hpart | rfl
    · rw [Bool.not_eq_true', ← Bool.not_eq_true]
      intro hopen
      simp only [opens, Bool.or_eq_true, decide_eq_true_eq] at hopen
      rcases hopen with (rfl | rfl) | rfl <;> simp [Identifier.isPart] at hpart
    · rfl
  rw [root, hmore, List.takeWhile_append_of_pos hletters]
  cases more with
  | nil => simp
  | cons c more =>
    rw [List.takeWhile_cons_of_neg (by simp [hopens c rfl]), List.append_nil]

/-- No two nodes in a document have one path. -/
theorem nodup_visited {d : Document} (h : d.NamedApart) : ((visited d).map (·.1)).Nodup := by
  rw [visited, List.map_flatMap]
  refine List.nodup_flatMap.2 ⟨fun n hn => nodup_visits (h.keys n hn) _, ?_⟩
  have hnames := List.pairwise_map.1 h.distinctNames
  refine List.Pairwise.imp_of_mem (fun {n m} hn hm hne => ?_) hnames
  obtain ⟨s, hs⟩ := h.names n hn
  obtain ⟨t, ht⟩ := h.names m hm
  have hroot {n : Named} (hn : n ∈ d.elements) {s : String} (hs : n.name = .text s) :
      ∀ p ∈ (visits n.name.chars n.element).map (·.1), root p = s.toList := by
    have hvalid := h.identifiers n hn
    rw [hs] at hvalid ⊢
    exact List.forall_mem_map.2 fun p hp => root_of_mem_visits hvalid (h.keys n hn) hp
  refine List.disjoint_left.2 fun p hp hq => hne ?_
  rw [hs, ht, String.toList_inj.1 ((hroot hn hs p hp).symm.trans (hroot hm ht p hq))]

end Nodes

section Listed

variable {d : Document} {r : Report}

instance decidableMixesKinds : (e : Element) → Decidable e.MixesKinds
  | .array _ => decidable_of_iff _ mixesKinds_array_iff.symm
  | .scalar _ | .float _ | .set _ | .tuple _ | .custom _ _ => .isFalse fun ⟨_, h, _⟩ => by cases h

instance decidableMixesLengths : (e : Element) → Decidable e.MixesLengths
  | .array _ => decidable_of_iff _ mixesLengths_array_iff.symm
  | .scalar _ | .float _ | .set _ | .tuple _ | .custom _ _ => .isFalse fun ⟨_, h, _⟩ => by cases h

/-- The paths of the nodes of a sort, one for each of them. -/
def pathsOf (d : Document) (bad : Element → Prop) [DecidablePred bad] : List String :=
  ((visited d).filter fun p => bad p.2).map fun p => String.ofList p.1

/-- Where paths tell nodes apart, a listing of paths without repetition has one for each node. -/
theorem perm_pathsOf {bad : Element → Prop} [DecidablePred bad] {listed : List String}
    (hpaths : ((visited d).map (·.1)).Nodup) (hlisted : listed.Nodup)
    (hmem : ∀ s, s ∈ listed ↔ ∃ p ∈ visited d, bad p.2 ∧ s = String.ofList p.1) :
    listed.Perm (pathsOf d bad) := by
  have hnodup : (pathsOf d bad).Nodup := by
    have htexts := hpaths.map fun _ _ heq => String.ofList_injective heq
    rw [List.map_map] at htexts
    exact htexts.sublist (List.filter_sublist.map _)
  refine (List.perm_ext_iff_of_nodup hlisted hnodup).2 fun s => ?_
  simp only [hmem, pathsOf, List.mem_map, List.mem_filter, decide_eq_true_eq, and_assoc]
  exact exists_congr fun p => and_congr_right fun _ => and_congr_right fun _ => eq_comm

theorem mixedKinds_perm (hpaths : ((visited d).map (·.1)).Nodup) (h : r.Describes d) :
    r.mixedKinds.Perm (pathsOf d Element.MixesKinds) :=
  perm_pathsOf hpaths (h.mixedKinds ▸ nodup_paths _) fun _ => mem_mixedKinds_iff h

theorem unequalTuples_perm (hpaths : ((visited d).map (·.1)).Nodup) (h : r.Describes d) :
    r.unequalTuples.Perm (pathsOf d Element.MixesLengths) :=
  perm_pathsOf hpaths (h.unequalTuples ▸ nodup_paths _) fun _ => mem_unequalTuples_iff h

theorem map_visited (d : Document) :
    (visited d).map (·.2) = d.elements.flatMap fun n => n.element.nodes := by
  rw [visited, List.map_flatMap]
  exact List.flatMap_congr fun n _ => map_visits n.name.chars n.element

end Listed

/-- Every node is visited once, and no two nodes are given the same path. Unless the lines cannot
be searched there is a report, and its listings of arrays with children of two kinds and of arrays
with tuples of two lengths have one path for each such array. -/
theorem paths_tell_nodes {d : Document} (h : d.NamedApart) :
    (visited d).map (·.2) = d.elements.flatMap (fun n => n.element.nodes) ∧
    ((visited d).map (·.1)).Nodup ∧
    (∀ m, closingLines 0 d.headerLines = .error m → ofDocument d = .error m) ∧
    ∀ lines, closingLines 0 d.headerLines = .ok lines → ∃ r, ofDocument d = .ok r ∧
      r.mixedKinds.Perm (pathsOf d Element.MixesKinds) ∧
      r.unequalTuples.Perm (pathsOf d Element.MixesLengths) := by
  have hpaths := nodup_visited h
  obtain ⟨hfails, hmade⟩ := report_of_lines h.names h.keyed
  refine ⟨map_visited d, hpaths, hfails, fun lines hlines => ?_⟩
  obtain ⟨r, hr⟩ := hmade lines hlines
  have hdescribes := describes_of_ofDocument hr
  exact ⟨r, hr, mixedKinds_perm hpaths hdescribes, unequalTuples_perm hpaths hdescribes⟩

/-- An array with children of two kinds. -/
def motley : Element :=
  .array [⟨.text "x", .scalar (.int 1)⟩, ⟨.text "x1", .tuple []⟩]

/-- Three such arrays, two of them under one name and the third under a name that goes on from
it. -/
def neighbours : Document where
  elements := [⟨.text "a", .tuple [motley, motley]⟩, ⟨.text "a1", motley⟩]

theorem neighbours_namedApart : neighbours.NamedApart where
  identifiers := by simp only [neighbours, List.forall_mem_cons]; decide
  distinctNames := by simp [neighbours]
  keys := by
    have hleaf {e : Element} (hkeys : e.keys = []) (hchildren : e.children = []) :
        e.Everywhere Element.KeyedApart :=
      .leaf (Element.keyedApart_of_keyless hkeys) hchildren
    have hmotley : motley.Everywhere Element.KeyedApart := by
      refine .intro ⟨?_, ?_⟩ ?_
      · change ∀ key ∈ [Value.text "x", .text "x1"], Identifier.isValid key = true
        simp only [List.forall_mem_cons]
        decide
      · change [Value.text "x", .text "x1"].Nodup
        simp
      · change ∀ e ∈ [Element.scalar (.int 1), .tuple []], e.Everywhere Element.KeyedApart
        simp only [List.forall_mem_cons]
        exact ⟨hleaf rfl rfl, hleaf rfl rfl, by simp⟩
    have hpair : (Element.tuple [motley, motley]).Everywhere Element.KeyedApart := by
      refine .intro (Element.keyedApart_of_keyless rfl) ?_
      change ∀ e ∈ [motley, motley], e.Everywhere Element.KeyedApart
      simp [hmotley]
    simp only [neighbours, List.forall_mem_cons]
    exact ⟨hpair, hmotley, by simp⟩

theorem visits_motley (path : List Char) :
    visits path motley = [(path, motley),
      (path ++ keyStep (.text "x"), .scalar (.int 1)),
      (path ++ keyStep (.text "x1"), .tuple [])] := by
  rw [visits_eq]
  simp [motley, places, visits_leaf _ (show (Element.scalar _).children = [] from rfl),
    visits_leaf _ (show (Element.tuple []).children = [] from rfl)]

theorem paths_tell_nodes_neighbours :
    neighbours.NamedApart ∧ ((visited neighbours).map (·.1)).Nodup ∧
      ∃ r, ofDocument neighbours = .ok r ∧ r.mixedKinds.Perm ["a<0>", "a<1>", "a1"] := by
  obtain ⟨-, hpaths, -, hmade⟩ := paths_tell_nodes neighbours_namedApart
  obtain ⟨r, hr, hmixed, -⟩ := hmade [] rfl
  refine ⟨neighbours_namedApart, hpaths, r, hr, ?_⟩
  have hplaces : places ['a'] (.tuple [motley, motley]) =
      [("a<0>".toList, motley), ("a<1>".toList, motley)] := by
    simp only [places, List.zipIdx_cons, List.zipIdx_nil, List.map_cons, List.map_nil]
    rfl
  have hvisited : visited neighbours = (['a'], .tuple [motley, motley]) ::
      (visits "a<0>".toList motley ++ visits "a<1>".toList motley
        ++ visits "a1".toList motley) := by
    simp [visited, neighbours, Value.chars, visits_eq ['a'], hplaces]
  have hlisted : pathsOf neighbours Element.MixesKinds = ["a<0>", "a<1>", "a1"] := by
    rw [pathsOf, hvisited, visits_motley, visits_motley, visits_motley]
    decide
  exact hlisted ▸ hmixed

end Report

end ModelData
