import ModelData.Proofs.Record.Rebuilding

/-!
Documents and their records. What is read for the record of a sound document is the document
with the texts in its elements changed as the format changes them. Lines of the header and
settings stand so little indented that a mild change leaves them alone.
-/

namespace ModelData

/-- A document of sound elements with texts for names and for the lines of its header. -/
structure Document.Sound (d : Document) : Prop where
  elements : ∀ n ∈ d.elements, n.element.Everywhere ModelData.Sound
  names : ∀ n ∈ d.elements, ∃ s, n.name = .text s
  lines : ∀ line ∈ d.headerLines, ∃ s, line = .text s
  pretty : ∃ b, d.pretty = .flag b

/-- A change of nothing but texts that stand far in. -/
structure Mild (change : Nat → List Char → List Char) : Prop where
  keys : KeepsKeys change
  near : ∀ indent < Yaml.lineWidth, ∀ text, change indent text = text

namespace Document

def record (d : Document) : Value :=
  .table [(.text "elements", .list (Binding.records d.elements)),
    (.text "prefix_text", .list d.headerLines), (.text "pretty_printing", d.pretty),
    (.text "config", d.config.toValue)]

def reread (change : Nat → List Char → List Char) (d : Document) : Document :=
  { d with elements := Binding.rereads change 2 d.elements }

theorem ofDocument_known {d : Document}
    (h : ∀ n ∈ d.elements, n.element.Everywhere (·.isForeign = false)) :
    Record.ofDocument d = .ok d.record := by
  have helements : Record.ofEntries d.elements = .ok (Binding.records d.elements) :=
    ofEntries_eq h
  rw [Record.ofDocument, helements]
  rfl

theorem ofDocument_eq {d : Document} (h : d.Sound) : Record.ofDocument d = .ok d.record :=
  ofDocument_known fun n hn => (h.elements n hn).mono fun _ h => h.known

section Settings

theorem keys_toEntries (c : Config) : c.toEntries.map (·.1) = Config.keys.map .text :=
  rfl

theorem keyed_toEntries (c : Config) : Keyed c.toEntries := by
  refine ⟨fun e he => ?_, by simp [Config.toEntries]⟩
  have hall : ∀ s ∈ Config.keys, isKey s = true := by decide
  have hkey := List.mem_map_of_mem (f := (·.1)) he
  rw [keys_toEntries] at hkey
  obtain ⟨s, hs, heq⟩ := List.mem_map.1 hkey
  exact ⟨s, heq.symm, hall s hs⟩

theorem gathered_config {p : Value → Prop} (hp : Value.Gathered p) (c : Config) : p c.toValue := by
  refine hp.table (by simp [Config.toEntries]) (keyed_toEntries c) fun e he => ?_
  simp only [Config.toEntries, List.mem_cons, List.not_mem_nil, or_false] at he
  rcases he with rfl | rfl | rfl | rfl | rfl | rfl | rfl <;>
    first | exact hp.int _ | exact hp.text _

theorem storable_config (c : Config) : Storable c.toValue :=
  gathered_config Storable.gathered c

variable {change : Nat → List Char → List Char} {sorts : Bool}

theorem rereadEntries_toEntries (hchange : Mild change) {indent : Nat}
    (hindent : indent + 2 < Yaml.lineWidth) (c : Config) :
    Value.rereadEntries change sorts indent c.toEntries = c.toEntries := by
  have htext (s : String) : (Value.text s).reread change sorts (indent + 2) = .text s := by
    rw [Value.reread, hchange.near _ hindent, String.ofList_toList]
  simp only [Config.toEntries, Value.rereadEntries, innerIndent, htext]
  rfl

theorem ofKnown_congr {entries entries' : List (Value × Value)}
    (h : ∀ name, Table.field? name entries' = Table.field? name entries) :
    Config.ofKnown entries' = Config.ofKnown entries := by
  simp only [Config.ofKnown, Config.count, Config.words, h]

theorem count_eq {entries : List (Value × Value)} {key : String} {n default : Nat}
    (h : Table.field? key entries = some (.int n)) :
    Config.count entries key default = .ok n := by
  have hn : ¬ (n : Int) < 0 := by omega
  simp only [Config.count, h, if_neg hn, Int.toNat_natCast]

theorem words_eq {entries : List (Value × Value)} {key s default : String}
    (h : Table.field? key entries = some (.text s)) :
    Config.words entries key default = .ok s := by
  simp only [Config.words, h]

theorem ofKnown_toEntries (c : Config) : Config.ofKnown c.toEntries = .ok c := by
  have hwidth := @count_eq c.toEntries "indent_width" c.indentWidth Config.standard.indentWidth rfl
  have hlevel := @count_eq c.toEntries "indent_level" c.indentLevel Config.standard.indentLevel rfl
  have hpadding := @count_eq c.toEntries "id_padding" c.idPadding Config.standard.idPadding rfl
  have htitle :=
    @words_eq c.toEntries "banner_title" c.bannerTitle Config.standard.bannerTitle rfl
  have hformat :=
    @words_eq c.toEntries "timestamp_format" c.timestampFormat Config.standard.timestampFormat rfl
  have hprefix := @words_eq c.toEntries "temp_prefix" c.tempPrefix Config.standard.tempPrefix rfl
  have hsuffix := @words_eq c.toEntries "temp_suffix" c.tempSuffix Config.standard.tempSuffix rfl
  simp only [Config.ofKnown, hwidth, hlevel, hpadding, htitle, hformat, hprefix, hsuffix, ok_bind,
    c.title_open, dif_pos]

/-- Settings are read from a table that holds them all, in whatever order. -/
theorem ofValue_perm {entries : List (Value × Value)} (c : Config)
    (hperm : entries.Perm c.toEntries) : Config.ofValue (.table entries) = .ok c := by
  have hunknown : (entries.map (·.1)).filter (fun key => !Config.isKnown key) = [] := by
    refine List.filter_eq_nil_iff.2 fun key hkey => ?_
    obtain ⟨e, he, rfl⟩ := List.mem_map.1 hkey
    have hknown : ∀ k ∈ Config.keys.map Value.text, Config.isKnown k = true := by
      intro k hk
      obtain ⟨s, hs, rfl⟩ := List.mem_map.1 hk
      simpa [Config.isKnown] using hs
    have hkey := List.mem_map_of_mem (f := (·.1)) (hperm.mem_iff.1 he)
    rw [keys_toEntries] at hkey
    rw [hknown e.1 hkey]
    decide
  rw [Config.ofValue]
  simp only [hunknown, List.isEmpty_nil, if_true]
  rw [ofKnown_congr (Table.field?_perm (keyed_toEntries c).worded hperm), ofKnown_toEntries]

/-- Settings that stand near the margin are read as they were. -/
theorem config_reread (hchange : Mild change) {indent : Nat}
    (hindent : indent + 2 < Yaml.lineWidth) (c : Config) :
    Config.ofValue (c.toValue.reread change sorts indent) = .ok c := by
  rw [Config.toValue, Value.reread, rereadEntries_toEntries hchange hindent]
  exact ofValue_perm c (Table.ordered_perm sorts c.toEntries)

end Settings

section Storing

def recordKeys : List String :=
  ["elements", "prefix_text", "pretty_printing", "config"]

theorem keyed_record (elements lines pretty config : Value) :
    Keyed [(.text "elements", elements), (.text "prefix_text", lines),
      (.text "pretty_printing", pretty), (.text "config", config)] := by
  refine ⟨fun e he => ?_, by simp⟩
  have hall : ∀ s ∈ recordKeys, isKey s = true := by decide
  have hkey := List.mem_map_of_mem (f := (·.1)) he
  obtain ⟨s, hs, heq⟩ := List.mem_map.1 (show e.1 ∈ recordKeys.map Value.text from hkey)
  exact ⟨s, heq.symm, hall s hs⟩

/-- The record of a document has a property that its names, lines and flag have. -/
theorem gathered_record {p : Value → Prop} (hp : Value.Gathered p) {d : Document}
    (hnames : ∀ n ∈ d.elements, p n.name)
    (helements : ∀ n ∈ d.elements,
      n.element.Everywhere fun e => e.isForeign = false ∧ ∀ name ∈ e.keys, p name)
    (hlines : ∀ line ∈ d.headerLines, p line) (hpretty : p d.pretty) : p d.record := by
  have hentries : p (.list (Binding.records d.elements)) := by
    refine hp.list fun v hv => ?_
    rw [Binding.records_eq_map] at hv
    obtain ⟨n, hn, rfl⟩ := List.mem_map.1 hv
    exact hp.named (hnames n hn) (hp.record (helements n hn))
  refine hp.table (by simp) (keyed_record _ _ _ _) ?_
  simp only [List.forall_mem_cons]
  exact ⟨hentries, hp.list hlines, hpretty, gathered_config hp d.config, by simp⟩

theorem storable_record {d : Document} (h : d.Sound) : Storable d.record := by
  have htexts {name : Value} (hname : ∃ s, name = .text s) : Storable name := by
    obtain ⟨s, rfl⟩ := hname
    exact .text s
  refine gathered_record Storable.gathered (fun n hn => htexts (h.names n hn))
    (fun n hn => (h.elements n hn).mono fun e he => ?_)
    (fun line hline => htexts (h.lines line hline)) ?_
  · exact ⟨he.known, fun name hname => htexts (he.names name hname)⟩
  · obtain ⟨b, hb⟩ := h.pretty
    exact hb ▸ .flag b

end Storing

section Reading

variable {change : Nat → List Char → List Char} {sorts : Bool}

theorem toNamed_reread (hchange : KeepsKeys change) {n : Named} (hname : ∃ s, n.name = .text s)
    (helement : n.element.Everywhere ModelData.Sound) (indent : Nat) :
    Record.toNamed (n.record.reread change sorts indent) = .ok (n.reread change indent) := by
  obtain ⟨s, hs⟩ := hname
  obtain ⟨name, e⟩ := n
  obtain rfl : name = .text s := hs
  refine namedWith_reread ?_
  rw [rereadBehind_record]
  exact readElement_reread hchange helement (Nat.le_succ _)

theorem lines_reread (hchange : Mild change) {d : Document} (h : d.Sound) :
    (Value.list d.headerLines).rereadBehind change sorts 0 = .list d.headerLines := by
  rw [rereadBehind_list]
  congr 1
  refine (List.map_congr_left fun line hline => ?_).trans (List.map_id _)
  obtain ⟨s, rfl⟩ := h.lines line hline
  rw [Value.reread, hchange.near _ (by decide), String.ofList_toList]
  rfl

/-- A record with all parts of a document is read as these parts. -/
theorem toDocument_table {entries : List (Value × Value)} {items headerLines : List Value}
    {pretty settings : Value} {elements : List Named} {config : Config}
    (helements : Table.field? "elements" entries = some (.list items))
    (hlines : Table.field? "prefix_text" entries = some (.list headerLines))
    (hpretty : Table.field? "pretty_printing" entries = some pretty)
    (hsettings : Table.field? "config" entries = some settings)
    (hnamed : items.mapM Record.toNamed = .ok elements)
    (hconfig : Config.ofValue settings = .ok config) :
    Record.toDocument (.table entries) = .ok { elements, headerLines, pretty, config } := by
  simp only [Record.toDocument, helements, hlines, hpretty, hsettings, hconfig,
    Option.getD_some, Document.linesOf, Value.items, Except.mapError, ok_bind, hnamed]
  rfl

/-- The record of a sound document is read as the document, with the texts in its elements
changed as the format changes them. -/
theorem toDocument_reread (hchange : Mild change) {d : Document} (h : d.Sound) :
    Record.toDocument (d.record.reread change sorts 0) = .ok (d.reread change) := by
  have hkeyed := keyed_record (.list (Binding.records d.elements)) (.list d.headerLines) d.pretty
    d.config.toValue
  have hfield (name : String) := @field?_reread change sorts _ hkeyed.worded 0 name
  have hpretty : d.pretty.rereadBehind change sorts 0 = d.pretty := by
    obtain ⟨b, hb⟩ := h.pretty
    rw [hb]
    rfl
  have hconfig : Config.ofValue (d.config.toValue.rereadBehind change sorts 0) = .ok d.config :=
    config_reread hchange (show 2 + 2 < Yaml.lineWidth by decide) d.config
  have hnamed : ((Binding.records d.elements).map (Value.reread change sorts 2)).mapM
      Record.toNamed = .ok (Binding.rereads change 2 d.elements) := by
    rw [Binding.records_eq_map, List.map_map, List.mapM_map, Binding.rereads_eq_map]
    exact mapM_eq_map fun n hn =>
      toNamed_reread hchange.keys (h.names n hn) (h.elements n hn) 2
  have helements := hfield "elements"
  have hlines := hfield "prefix_text"
  have hflag := hfield "pretty_printing"
  have hsettings := hfield "config"
  simp only [Table.field?, Table.get?, Table.form_text_inj, String.reduceEq, if_true, if_false,
    Option.map_some] at helements hlines hflag hsettings
  rw [rereadBehind_list] at helements
  rw [lines_reread hchange h] at hlines
  rw [hpretty] at hflag
  rw [record, Value.reread]
  exact toDocument_table helements hlines hflag hsettings hnamed hconfig

end Reading

end Document

end ModelData
