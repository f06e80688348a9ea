import Mathlib.Tactic.Choose
import ModelData.Example
import ModelData.Proofs.Element.Sets
import ModelData.Proofs.Identifier.Arrays

/-!
The example document for any products. Each of them that differs from those before it has one
identifier, which stands in the set of identifiers and names the tuple of its costs, so there is
nothing to report on the document, and its size depends on the number of those products alone.
-/

namespace ModelData

/-- A product with a text for its label and finite costs. -/
structure Article where
  label : String
  productionCost : Binary64.Finite
  transportCost : Binary64.Finite

def Article.toProduct (a : Article) : Product :=
  ⟨.text a.label, .float (.finite a.productionCost), .float (.finite a.transportCost)⟩

/-- A tuple of three floats. -/
def Element.IsTriple (e : Element) : Prop :=
  ∃ x y z, e = .tuple [.float x, .float y, .float z]

namespace Product

open Binary64

section Costs

/-- A product with a number of magnitude one at most is not too large. -/
theorem exists_product (x y : Finite) (hy : y.magnitude ≤ one) :
    ∃ z : Finite, (Binary64.finite x).product? (.finite y) = some (.finite z) := by
  have hle : x.magnitude * y.magnitude * one ≤ units x.rank * (one * one) := by
    rw [Nat.mul_assoc]
    exact Nat.mul_le_mul_left _ (Nat.mul_le_mul_right _ hy)
  obtain ⟨z, hz, -⟩ := exists_ofRatio (Nat.mul_pos unit_pos unit_pos) x.rank_lt hle
    (x.negative != y.negative)
  exact ⟨z, by rw [product?, hz]⟩

theorem exists_quarter : ∃ x : Finite, quarter = .finite x ∧ x.magnitude ≤ one := by
  obtain ⟨x, hx, hrank⟩ := @exists_ofRatio (1023 * binade) 1 4 (by decide) (by decide)
    (by decide +kernel) false
  have hone : units (1023 * binade) = one := by decide +kernel
  exact ⟨x, hx, hone ▸ units_strictMono.monotone hrank⟩

theorem exists_recycled (x : Finite) :
    ∃ y : Finite, recycled (.float (.finite x)) = .float (.finite y) := by
  obtain ⟨q, hq, hle⟩ := exists_quarter
  obtain ⟨y, hy⟩ := exists_product x q hle
  exact ⟨y, by rw [recycled, hq, hy, Option.getD_some]⟩

/-- The costs of an article are three floats. -/
theorem exists_costs (a : Article) :
    ∃ parts : List Element, Element.IsTriple (.tuple parts) ∧
      costs a.toProduct.toValue = .ok (.list (parts.map .element)) := by
  obtain ⟨y, hy⟩ := exists_recycled a.productionCost
  refine ⟨[.float a.productionCost, .float y, .float a.transportCost], ⟨_, _, _, rfl⟩, ?_⟩
  rw [Article.toProduct, toValue, costs, hy]
  simp only [Element.makeFloat, ok_bind]
  rfl

end Costs

end Product

namespace Report

section Sizes

variable {members : List Member} {entries : List Named} {words : List String}

theorem memberNodes_words : memberNodes (words.map fun s => .scalar (.text s)) = words.length := by
  induction words with
  | nil => rfl
  | cons s words ih => simp [memberNodes, ih]

theorem memberHeights_words :
    memberHeights (words.map fun s => .scalar (.text s)) = if 1 ≤ words.length then 1 else 0 := by
  induction words with
  | nil => rfl
  | cons s words ih =>
    simp only [List.map_cons, memberHeights, ih, List.length_cons]
    split <;> simp

theorem entryNodes_triples (h : ∀ n ∈ entries, n.element.IsTriple) :
    entryNodes entries = 4 * entries.length := by
  induction entries with
  | nil => rfl
  | cons n entries ih =>
    obtain ⟨name, e⟩ := n
    obtain ⟨x, y, z, rfl⟩ : e.IsTriple := h _ List.mem_cons_self
    rw [entryNodes, ih fun m hm => h m (List.mem_cons_of_mem _ hm), List.length_cons]
    simp only [nodes, itemNodes]
    omega

theorem entryHeights_triples (h : ∀ n ∈ entries, n.element.IsTriple) :
    entryHeights entries = if 1 ≤ entries.length then 2 else 0 := by
  induction entries with
  | nil => rfl
  | cons n entries ih =>
    obtain ⟨name, e⟩ := n
    obtain ⟨x, y, z, rfl⟩ : e.IsTriple := h _ List.mem_cons_self
    rw [entryHeights, ih fun m hm => h m (List.mem_cons_of_mem _ hm), List.length_cons]
    simp only [height, itemHeights]
    split <;> simp

end Sizes

end Report

/-- What the example document holds for the identifiers and the costs that it lists. -/
def Document.listing (pretty : Value) (step : Binary64.Finite) (words : List String)
    (entries : List Named) : Document where
  elements := [⟨.text "dataTitle", .scalar (.text "test name")⟩,
    ⟨.text "timeHorizon", .scalar (.int 4)⟩, ⟨.text "stepLength", .float step⟩,
    ⟨.text "dataItemIDs", .set (words.map fun s => .scalar (.text s))⟩,
    ⟨.text "myData", .array entries⟩]
  headerLines := [.text "Example production planning data"]
  pretty

/-- Tuples of costs behind identifiers that differ. -/
structure Listed (words : List String) (entries : List Named) : Prop where
  names : entries.map (·.name) = words.map .text
  nodup : words.Nodup
  isName : ∀ s ∈ words, Identifier.isName s.toList = true
  triples : ∀ n ∈ entries, n.element.IsTriple

namespace Listed

variable {words : List String} {entries : List Named} {pretty : Value} {step : Binary64.Finite}

/-- Numbered entries have such identifiers, and what they hold depends on the objects. -/
theorem exists_of_numbered {stem : String} {width : Nat} {objects : List Value}
    {content : Value → Element} (h : Identifier.Numbered stem width objects content entries)
    (htriples : ∀ o ∈ distinct Value.form objects, (content o).IsTriple) :
    ∃ words, Listed words entries := by
  obtain ⟨words, hwords⟩ := Report.exists_texts (List.forall_mem_map.2 h.texts)
  have hnodup : (words.map Value.text).Nodup := hwords ▸ h.distinctNames
  refine ⟨words, hwords, List.Nodup.of_map Value.text hnodup, fun s hs => ?_,
    h.forall_element_iff.2 htriples⟩
  have hname : Value.text s ∈ entries.map (·.name) := hwords ▸ List.mem_map_of_mem hs
  obtain ⟨n, hn, heq⟩ := List.mem_map.1 hname
  obtain ⟨t, ht, hvalid⟩ := h.names n hn
  cases heq.symm.trans ht
  exact hvalid

theorem length_eq (h : Listed words entries) : entries.length = words.length := by
  rw [← List.length_map (·.name), h.names, List.length_map]

theorem orderly (h : Listed words entries) : Orderly entries where
  identifiers n hn := by
    have hname : n.name ∈ words.map Value.text := h.names ▸ List.mem_map_of_mem hn
    obtain ⟨s, hs, heq⟩ := List.mem_map.1 hname
    exact heq ▸ Identifier.isValid_of_isName (h.isName s hs)
  distinctKeys := by
    rw [h.names]
    exact h.nodup.map fun s t heq => Value.text.inj heq
  oneKind n hn m hm := by
    obtain ⟨_, _, _, hn⟩ := h.triples n hn
    obtain ⟨_, _, _, hm⟩ := h.triples m hm
    rw [hn, hm]
    rfl
  oneLength _ n hn m hm := by
    obtain ⟨_, _, _, hn⟩ := h.triples n hn
    obtain ⟨_, _, _, hm⟩ := h.triples m hm
    rw [hn, hm]
    rfl

/-- What holds of the array of costs and of everything that is no array holds everywhere. -/
theorem everywhere (h : Listed words entries) {p : Element → Prop}
    (hother : ∀ e : Element, e.keys? = none → p e) (harray : p (.array entries)) :
    ∀ n ∈ (Document.listing pretty step words entries).elements, n.element.Everywhere p := by
  have hleaf (e : Element) (hkeys : e.keys? = none) (hchildren : e.children = []) :
      e.Everywhere p := .leaf (hother e hkeys) hchildren
  have hmembers : (Element.set (words.map fun s => .scalar (.text s))).children = [] := by
    simp [Element.children, Member.element?]
  have hentries : (Element.array entries).Everywhere p := by
    refine .intro harray (List.forall_mem_map.2 fun n hn => ?_)
    obtain ⟨x, y, z, htriple⟩ := h.triples n hn
    rw [htriple]
    refine .intro (hother _ rfl) fun e he => ?_
    change e ∈ [_, _, _] at he
    simp only [List.mem_cons, List.not_mem_nil, or_false] at he
    rcases he with rfl | rfl | rfl <;> exact hleaf _ rfl rfl
  simp only [Document.listing, List.forall_mem_cons]
  exact ⟨hleaf _ rfl rfl, hleaf _ rfl rfl, hleaf _ rfl rfl, hleaf _ rfl hmembers, hentries,
    by simp⟩

theorem textual (h : Listed words entries) :
    (Document.listing pretty step words entries).Textual where
  names := by simp [Document.listing]
  keys := by
    refine h.everywhere (fun e hkeys => ?_) fun name hname => ?_
    · simp [Element.KeyedByTexts, Element.keys, hkeys]
    · change name ∈ entries.map (·.name) at hname
      rw [h.names] at hname
      obtain ⟨s, -, heq⟩ := List.mem_map.1 hname
      exact ⟨s, heq.symm⟩
  lines := by simp [Document.listing]

theorem tidy (h : Listed words entries) :
    (Document.listing pretty step words entries).Tidy where
  identifiers := by
    simp only [Document.listing, List.forall_mem_cons]
    decide
  distinctNames := by simp [Document.listing]
  orderly := by
    refine h.everywhere (fun e hkeys entries' he => ?_) fun entries' he => ?_
    · rw [he] at hkeys
      cases hkeys
    · cases he
      exact h.orderly
  unclosed := by
    intro s hs
    obtain rfl : s = "Example production planning data" := by
      simpa [Document.listing] using hs
    decide

theorem nodes_eq (h : Listed words entries) :
    Report.entryNodes (Document.listing pretty step words entries).elements =
      5 + 5 * words.length := by
  simp only [Document.listing, Report.entryNodes, Report.nodes, Report.memberNodes_words,
    Report.entryNodes_triples h.triples, h.length_eq]
  omega

theorem height_eq (h : Listed words entries) :
    Report.entryHeights (Document.listing pretty step words entries).elements =
      if 1 ≤ words.length then 3 else 1 := by
  simp only [Document.listing, Report.entryHeights, Report.height, Report.memberHeights_words,
    Report.entryHeights_triples h.triples, h.length_eq]
  split <;> rfl

/-- Nothing is wrong with the document, and the report says how large it is. -/
theorem exists_report (h : Listed words entries) :
    ∃ r, Report.ofDocument (Document.listing pretty step words entries) = .ok r ∧
      r.isClean = true ∧ r.nodeCount = 5 + 5 * words.length ∧
      r.maxDepth = if 1 ≤ words.length then 3 else 1 := by
  obtain ⟨r, hr⟩ := Report.exists_report h.textual
  have hdescribes := Report.describes_of_ofDocument hr
  exact ⟨r, hr, (Report.isClean_iff_tidy h.textual hdescribes).2 h.tidy,
    hdescribes.nodeCount.trans h.nodes_eq, hdescribes.maxDepth.trans h.height_eq⟩

end Listed

namespace Document

open Identifier

theorem exists_stepLength : ∃ x : Binary64.Finite, stepLength = .float (.finite x) := by
  obtain ⟨x, hx, -⟩ := @Binary64.exists_ofRatio (1027 * Binary64.binade) 15 1 (by decide)
    (by decide) (by decide +kernel) false
  exact ⟨x, by rw [stepLength, hx]⟩

/-- What the example document is made of once the articles have their identifiers. -/
theorem ofProducts_eq {products : List Product} {pretty : Value} {step : Binary64.Finite}
    {ids : List (Value × Value)} {words : List String} {entries : List Named} {calls : List Value}
    (hstep : stepLength = .float (.finite step))
    (hids : enumerate (.list (products.map Product.toValue)) (.text "di") (.int (4 : Nat)) =
      .ok ids)
    (hset : Element.makeSet (.list (ids.map (·.2))) =
      .ok (.set (words.map fun s => .scalar (.text s))))
    (harray : Assembly.tupleArray (.text "myData") (.table ids) Product.costs =
      ⟨calls, .ok ⟨.text "myData", .array entries⟩⟩) :
    ofProducts products pretty = .ok (listing pretty step words entries) := by
  have hwidth : (Config.standard.idPadding : Int) = (4 : Nat) := rfl
  simp only [ofProducts, Element.makeScalar, Element.makeFloat, hstep, ok_bind, Document.add,
    hwidth, hids, hset, harray]
  rfl

/-- Objects that can be looked up are enumerated with counters that do not run out. -/
theorem exists_enumerated {objects : List Value} (hashable : ∀ o ∈ objects, o.unhashable? = none) :
    ∃ ids, enumerate (.list objects) (.text "di") (.int (4 : Nat)) = .ok ids ∧
      Collapsed (fun _ index => .text (numbered "di" 4 index)) objects ids := by
  have hgenerator : ∀ o ∈ objects, ∀ index, counters (.text "di") (.int (4 : Nat)) o index =
      .ok (.text (numbered "di" 4 index)) := by
    intro o _ index
    rw [counters, counterOf_int (by decide)]
    rfl
  have hitems : (Value.list objects).items = .ok objects := rfl
  obtain ⟨ids, hids, hcollapsed⟩ := exists_assign hitems hgenerator hashable
  exact ⟨ids, by rw [enumerate, hids], hcollapsed⟩

/-- The identifiers and the costs of articles: one for each article that differs from those
before it. -/
theorem exists_listed (articles : List Article) :
    let objects := (articles.map Article.toProduct).map Product.toValue
    ∃ ids words entries calls, enumerate (.list objects) (.text "di") (.int (4 : Nat)) = .ok ids ∧
      ids.map (·.2) = words.map .text ∧
      Assembly.tupleArray (.text "myData") (.table ids) Product.costs =
        ⟨calls, .ok ⟨.text "myData", .array entries⟩⟩ ∧
      Listed words entries ∧ words.length = (distinct Value.form objects).length := by
  intro objects
  have hobjects : ∀ o ∈ objects, ∃ a : Article, o = a.toProduct.toValue := by
    simp only [objects, List.map_map, List.forall_mem_map]
    exact fun a _ => ⟨a, rfl⟩
  have hashable : ∀ o ∈ objects, o.unhashable? = none := by
    intro o ho
    obtain ⟨a, rfl⟩ := hobjects o ho
    rfl
  have hcosts : ∀ o ∈ objects, ∃ parts : List Element, Element.IsTriple (.tuple parts) ∧
      Product.costs o = .ok (.list (parts.map .element)) := by
    intro o ho
    obtain ⟨a, rfl⟩ := hobjects o ho
    exact Product.exists_costs a
  choose! parts htriple hparts using hcosts
  obtain ⟨ids, hids, hcollapsed⟩ := exists_enumerated hashable
  have hmem : ∀ e ∈ ids, e.1 ∈ objects := fun e he =>
    mem_of_mem_distinct (hcollapsed.keys ▸ List.mem_map_of_mem he)
  have harray := Assembly.tupleArray_eq parts (.text "myData") fun e he =>
    ⟨_, hparts e.1 (hmem e he), rfl⟩
  have hnumbered : Numbered "di" 4 objects (fun o => .tuple (parts o))
      (ids.map fun e => ⟨e.2, .tuple (parts e.1)⟩) :=
    hcollapsed.numbered (.inr (by decide)) (by decide)
  obtain ⟨words, hlisted⟩ := Listed.exists_of_numbered hnumbered
    fun o ho => htriple o (mem_of_mem_distinct ho)
  have hnames : ids.map (·.2) = words.map Value.text := by
    rw [← hlisted.names, List.map_map]
    rfl
  have hlength : (ids.map (·.2)).length = (ids.map (·.1)).length := by
    rw [List.length_map, List.length_map]
  rw [hnames, hcollapsed.keys, List.length_map] at hlength
  exact ⟨ids, words, _, _, hids, hnames, harray, hlisted, hlength⟩

/-- The example document is consistent for any articles, equal ones among them. -/
theorem ofProducts_consistent (articles : List Article) (pretty : Value) :
    let products := articles.map Article.toProduct
    let n := (distinct Value.form (products.map Product.toValue)).length
    ∃ d ids entries r, ofProducts products pretty = .ok d ∧
      d.get? (.text "dataItemIDs") = some ⟨.text "dataItemIDs", .set ids⟩ ∧
      d.get? (.text "myData") = some ⟨.text "myData", .array entries⟩ ∧
      ids.map Member.toValue = entries.map (·.name) ∧ ids.length = n ∧
      (∀ entry ∈ entries, entry.element.IsTriple) ∧
      Report.ofDocument d = .ok r ∧ r.isClean = true ∧ r.nodeCount = 5 + 5 * n ∧
      r.maxDepth = if 1 ≤ n then 3 else 1 := by
  intro products n
  obtain ⟨ids, words, entries, calls, hids, hwords, harray, hlisted, hlength⟩ :=
    exists_listed articles
  obtain ⟨step, hstep⟩ := exists_stepLength
  have hset : Element.makeSet (.list (ids.map (·.2))) =
      .ok (.set (words.map fun s => .scalar (.text s))) := by
    rw [hwords, makeSet_texts hlisted.nodup]
  obtain ⟨r, hr, hclean, hnodes, hheight⟩ := @Listed.exists_report _ _ pretty step hlisted
  have hn : words.length = n := hlength
  rw [hn] at hnodes hheight
  refine ⟨listing pretty step words entries, words.map fun s => .scalar (.text s), entries, r,
    ofProducts_eq hstep hids hset harray, rfl, rfl, ?_, by rw [List.length_map, hn],
    hlisted.triples, hr, hclean, hnodes, hheight⟩
  rw [hlisted.names, List.map_map]
  rfl

end Document

end ModelData
