import ModelData.Proofs.Number.Digits
import ModelData.Proofs.Value.Traverse
import ModelData.Yaml.Reader

/-!
Reading goes on. Every step goes on to an end of what was left of the text, and either finds it
malformed or meets nothing else that is wrong but a code that names no character: an escape with
eight digits, behind a backslash, whose number lies beyond the last character. Here it is seen of
scalars and of the marks in front of nodes.
-/

namespace ModelData.Yaml

/-- An escape in a text for a code beyond the last character, and what is wrong with it. -/
inductive LargeCode (text : List Char) : Misfit → Prop where
  | noCharacter {digits : List Char} {code : Nat} (holds : '\\' :: 'U' :: digits <:+: text)
      (length : digits.length = 8) (reads : Digits.read? 16 digits = some code)
      (beyond : 0x110000 ≤ code) (small : code < 0x80000000) : LargeCode text .noCharacter
  | tooLarge {digits : List Char} {code : Nat} (holds : '\\' :: 'U' :: digits <:+: text)
      (length : digits.length = 8) (reads : Digits.read? 16 digits = some code)
      (large : 0x80000000 ≤ code) : LargeCode text .codeTooLarge

theorem LargeCode.backslash_mem {text : List Char} {m : Misfit} (h : LargeCode text m) :
    '\\' ∈ text := by
  cases h with
  | noCharacter holds => exact holds.subset List.mem_cons_self
  | tooLarge holds => exact holds.subset List.mem_cons_self

/-- A step that finds the text malformed at worst. -/
inductive NoMisfit {α : Type} : Except Fault α → Prop where
  | ok (a : α) : NoMisfit (.ok a)
  | malformed : NoMisfit (.error .malformed)

/-- A step that goes on to a place in a text, unless the text is malformed there or holds a large
code. -/
inductive ReadsOn {α : Type} (text : List Char) (place : α → Cursor) : Except Fault α → Prop where
  | ok {a : α} (onward : (place a).rest <:+ text) : ReadsOn text place (.ok a)
  | malformed : ReadsOn text place (.error .malformed)
  | large {m : Misfit} (code : LargeCode text m) : ReadsOn text place (.error (.misfit m))

section Steps

variable {α β : Type} {text : List Char} {place : α → Cursor} {place' : β → Cursor}
  {r : Except Fault α} {k : α → Except Fault β}

theorem NoMisfit.bind (hr : NoMisfit r) (hk : ∀ a, NoMisfit (k a)) : NoMisfit (r >>= k) := by
  cases hr with
  | ok a => exact hk a
  | malformed => exact .malformed

theorem NoMisfit.bind_readsOn (hr : NoMisfit r) (hk : ∀ a, ReadsOn text place' (k a)) :
    ReadsOn text place' (r >>= k) := by
  cases hr with
  | ok a => exact hk a
  | malformed => exact .malformed

theorem ReadsOn.bind (hr : ReadsOn text place r)
    (hk : ∀ a, (place a).rest <:+ text → ReadsOn text place' (k a)) :
    ReadsOn text place' (r >>= k) := by
  cases hr with
  | ok onward => exact hk _ onward
  | malformed => exact .malformed
  | large code => exact .large code

theorem ReadsOn.bind_pair {r : Except Fault (α × Cursor)} {k : α × Cursor → Except Fault β}
    (hr : ReadsOn text Prod.snd r)
    (hk : ∀ a after, after.rest <:+ text → ReadsOn text place' (k (a, after))) :
    ReadsOn text place' (r >>= k) :=
  hr.bind fun a => hk a.1 a.2

theorem ReadsOn.map_pair {r : Except Fault (α × Cursor)} (hr : ReadsOn text Prod.snd r)
    {change : α × Cursor → β × Cursor} (hchange : ∀ a, (change a).2 = a.2) :
    ReadsOn text Prod.snd (r.map change) := by
  cases hr with
  | ok onward => exact .ok ((hchange _).symm ▸ onward)
  | malformed => exact .malformed
  | large code => exact .large code

end Steps

/-! Places. -/

section Places

variable {text : List Char} {c : Cursor}

theorem forward_suffix (h : c.rest <:+ text) (n : Nat) : (c.forward n).rest <:+ text :=
  (List.drop_suffix n c.rest).trans h

theorem pastMark_suffix (h : c.rest <:+ text) (n : Nat) : (c.pastMark n).rest <:+ text :=
  forward_suffix h n

theorem skipSpaces_suffix (h : c.rest <:+ text) : c.skipSpaces.rest <:+ text :=
  (List.drop_suffix _ c.rest).trans h

theorem skipFrom_suffix (inComment : Bool) (rest : List Char) (column line : Nat) (fresh : Bool) :
    (Cursor.skipFrom inComment rest column line fresh).rest <:+ rest := by
  induction rest generalizing inComment column line fresh with
  | nil => exact List.suffix_rfl
  | cons c rest ih =>
    rw [Cursor.skipFrom]
    split_ifs
    · exact (ih ..).trans (List.suffix_cons c rest)
    · exact (ih ..).trans (List.suffix_cons c rest)
    · exact (ih ..).trans (List.suffix_cons c rest)
    · exact List.suffix_rfl

theorem skip_suffix (h : c.rest <:+ text) : c.skip.rest <:+ text :=
  (skipFrom_suffix ..).trans h

theorem readBreaks_suffix (isSpace : Char → Bool) (rest : List Char) (column line : Nat) :
    (readBreaks isSpace rest column line).2.rest <:+ rest := by
  induction rest generalizing column line with
  | nil => exact List.suffix_rfl
  | cons c rest ih =>
    rw [readBreaks]
    split_ifs
    · exact List.suffix_rfl
    · exact (ih ..).trans (List.suffix_cons c rest)
    · exact (ih ..).trans (List.suffix_cons c rest)
    · exact List.suffix_rfl

theorem takeGap_suffix (h : c.rest <:+ text) : (takeGap c).2.rest <:+ text := by
  have hskip : c.skipSpaces.rest <:+ text := skipSpaces_suffix h
  rw [takeGap]
  split
  · split_ifs
    · exact (readBreaks_suffix ..).trans hskip
    · exact hskip
  · exact hskip

theorem readPlain_suffix (inFlow : Bool) (least steps : Nat) (h : c.rest <:+ text) :
    (readPlain inFlow least steps c).2.rest <:+ text := by
  induction steps generalizing c with
  | zero => exact h
  | succ steps ih =>
    have hgap (n : Nat) := takeGap_suffix (forward_suffix h n)
    rw [readPlain]
    split
    · exact h
    · simp only
      split_ifs
      · exact h
      · exact hgap _
      · exact ih (hgap _)
      · exact ih (hgap _)

end Places

/-! Scalars. -/

section Scalars

variable {text : List Char} {c : Cursor}

theorem readQuotedGap_readsOn (h : c.rest <:+ text) :
    ReadsOn text Prod.snd (readQuotedGap c) := by
  have hafter (n : Nat) := forward_suffix h n
  rw [readQuotedGap]
  split
  · simp only
    split_ifs
    · exact .malformed
    · exact .ok ((readBreaks_suffix ..).trans (hafter _))
    · exact .ok (hafter _)
  · exact .malformed

theorem readSingle_readsOn (steps : Nat) (h : c.rest <:+ text) :
    ReadsOn text Prod.snd (readSingle steps c) := by
  induction steps generalizing c with
  | zero => exact .malformed
  | succ steps ih =>
    rw [readSingle]
    split
    · exact .malformed
    · exact (ih (forward_suffix h 2)).bind fun _ hlast => .ok hlast
    · exact .ok (forward_suffix h 1)
    · split_ifs
      · refine (readQuotedGap_readsOn h).bind fun _ hnext => ?_
        exact (ih hnext).bind fun _ hlast => .ok hlast
      · exact (ih (forward_suffix h 1)).bind fun _ hlast => .ok hlast

theorem eq_of_codeLength {e : Char} {places : Nat} (h : codeLength? e = some places)
    (hplaces : 4 < places) : e = 'U' ∧ places = 8 := by
  unfold codeLength? at h
  split at h
  · cases h
    omega
  · cases h
    omega
  · cases h
    exact ⟨rfl, rfl⟩
  · cases h

/-- With up to four digits a code stands for a character, or for none that there could be. -/
theorem places_of_large {digits : List Char} {code places : Nat}
    (hread : Digits.read? 16 digits = some code) (hlength : digits.length ≤ places)
    (hcode : 0x110000 ≤ code) : 4 < places := by
  by_contra hplaces
  have hlt : code < 16 ^ 4 := Nat.lt_of_lt_of_le (Digits.read?_lt hread)
    (Nat.pow_le_pow_right (by decide) (Nat.le_trans hlength (Nat.not_lt.1 hplaces)))
  omega

/-- A code is too large only in an escape with eight digits. -/
theorem codeChar_readsOn {e : Char} {rest : List Char} {places : Nat}
    (hplaces : codeLength? e = some places) (h : '\\' :: e :: rest <:+ text)
    (hc : c.rest <:+ text) : ReadsOn text (fun _ => c) (codeChar places rest) := by
  have hlarge {code : Nat} (hlength : (rest.take places).length = places)
      (hread : Digits.read? 16 (rest.take places) = some code) (hcode : 0x110000 ≤ code) :
      '\\' :: 'U' :: rest.take places <:+: text ∧ places = 8 := by
    have hfour := places_of_large hread (Nat.le_of_eq hlength) hcode
    obtain ⟨rfl, rfl⟩ := eq_of_codeLength hplaces hfour
    have hstart : '\\' :: 'U' :: rest.take 8 <+: '\\' :: 'U' :: rest := by
      simpa using List.take_prefix 8 rest
    exact ⟨hstart.isInfix.trans h.isInfix, rfl⟩
  simp only [codeChar]
  split_ifs with hshort
  · exact .malformed
  · have hlength : (rest.take places).length = places :=
      Nat.le_antisymm (List.length_take_le ..) (Nat.not_lt.1 hshort)
    split
    · exact .malformed
    · next code hread =>
      split_ifs with hvalid htoo hbeyond
      · exact .ok hc
      · obtain ⟨hholds, height⟩ := hlarge hlength hread (Nat.le_trans (by decide) htoo)
        exact .large (.tooLarge hholds (hlength.trans height) hread htoo)
      · obtain ⟨hholds, height⟩ := hlarge hlength hread hbeyond
        exact .large (.noCharacter hholds (hlength.trans height) hread hbeyond (by omega))
      · exact .malformed

theorem readDouble_readsOn (steps : Nat) (h : c.rest <:+ text) :
    ReadsOn text Prod.snd (readDouble steps c) := by
  induction steps generalizing c with
  | zero => exact .malformed
  | succ steps ih =>
    rw [readDouble]
    split
    · exact .malformed
    · exact .ok (forward_suffix h 1)
    · exact .malformed
    · next e rest hrest =>
      split
      · exact (ih (forward_suffix h 2)).bind fun _ hlast => .ok hlast
      · next places hnone hplaces =>
        refine (codeChar_readsOn hplaces (hrest ▸ h) h).bind fun _ _ => ?_
        exact (ih (forward_suffix h _)).bind fun _ hlast => .ok hlast
      · split_ifs
        · simp only
          split_ifs
          · exact .malformed
          · have hbreaks := readBreaks_suffix (fun d => d = ' ' || d = '\t') (e :: rest)
              (c.column + 1) c.line
            have hrest' : e :: rest <:+ text := (List.suffix_cons '\\' _).trans (hrest ▸ h)
            exact (ih (c := { (readBreaks _ _ _ _).2 with fresh := false })
              (hbreaks.trans hrest')).bind fun _ hlast => .ok hlast
        · exact .malformed
    · split_ifs
      · refine (readQuotedGap_readsOn h).bind fun _ hnext => ?_
        exact (ih hnext).bind fun _ hlast => .ok hlast
      · exact (ih (forward_suffix h 1)).bind fun _ hlast => .ok hlast

theorem readScalar_readsOn (steps : Nat) (inFlow : Bool) (least : Nat) (h : c.rest <:+ text) :
    ReadsOn text Prod.snd (readScalar steps inFlow least c) := by
  rw [readScalar]
  split
  · exact (readSingle_readsOn steps (forward_suffix h 1)).bind fun _ hafter => .ok hafter
  · exact (readDouble_readsOn steps (forward_suffix h 1)).bind fun _ hafter => .ok hafter
  · split_ifs
    · exact .ok (readPlain_suffix inFlow least steps h)
    · exact .malformed

theorem flatMap_splitLines (cs : List Char) :
    (splitLines cs).flatMap (fun l => l.1 ++ l.2.toList) = cs := by
  induction cs with
  | nil => rfl
  | cons c rest ih =>
    rw [splitLines]
    split_ifs
    · simp [ih]
    · split
      · next hnone =>
        rw [hnone] at ih
        simp [← ih]
      · next line ending lines hlines =>
        rw [hlines] at ih
        simp [← ih]

theorem flatMap_drop_suffix {α : Type} (lines : List α) (n : Nat) (chars : α → List Char) :
    (lines.drop n).flatMap chars <:+ lines.flatMap chars := by
  conv => rhs; rw [← List.take_append_drop n lines, List.flatMap_append]
  exact List.suffix_append ..

/-- Behind a block of lines stand the lines that are not taken. -/
theorem readBlockScalar_readsOn (folds : Bool) (least : Nat) (h : c.rest <:+ text) :
    ReadsOn text Prod.snd (readBlockScalar folds least c) := by
  rw [readBlockScalar]
  simp only
  split
  · exact .malformed
  · split_ifs
    · exact .malformed
    · refine .ok (List.IsSuffix.trans ?_ h)
      refine (flatMap_drop_suffix ..).trans ?_
      rw [flatMap_splitLines]
      exact (List.drop_suffix ..).trans ((List.drop_suffix ..).trans
        ((List.dropWhile_suffix _).trans (List.drop_suffix ..)))

end Scalars

/-! Marks in front of nodes. -/

section Marked

variable {text : List Char} {c : Cursor}

theorem takeTagName_noMisfit (cs : List Char) : NoMisfit (takeTagName cs) := by
  simp only [takeTagName]
  split_ifs
  · exact .malformed
  · exact .ok _

theorem readTagBehind_noMisfit (cs : List Char) : NoMisfit (readTagBehind cs) := by
  rw [readTagBehind.eq_def]
  split
  · refine (takeTagName_noMisfit _).bind fun _ => ?_
    simp only
    split
    · exact .ok _
    · exact .malformed
  · exact (takeTagName_noMisfit _).bind fun _ => .ok _
  · split_ifs
    · exact .ok _
    · exact .malformed
    · exact (takeTagName_noMisfit _).bind fun _ => .ok _

theorem readTag_readsOn (h : c.rest <:+ text) : ReadsOn text Prod.snd (readTag c) := by
  rw [readTag]
  split
  · refine (readTagBehind_noMisfit _).bind_readsOn fun _ => ?_
    simp only
    split_ifs
    · exact .ok (skipSpaces_suffix (forward_suffix h _))
    · exact .malformed
  · exact .ok h

theorem readAnchorName_readsOn (h : c.rest <:+ text) :
    ReadsOn text Prod.snd (readAnchorName c) := by
  simp only [readAnchorName]
  split_ifs
  · exact .malformed
  · exact .ok (forward_suffix h _)

theorem readAnchor_readsOn (h : c.rest <:+ text) : ReadsOn text Prod.snd (readAnchor c) := by
  rw [readAnchor]
  split
  · exact (readAnchorName_readsOn h).bind fun _ hafter => .ok (skipSpaces_suffix hafter)
  · exact .ok h

theorem readMarks_readsOn (h : c.rest <:+ text) : ReadsOn text Prod.snd (readMarks c) := by
  refine (readTag_readsOn h).bind_pair fun tag _ htag => ?_
  refine (readAnchor_readsOn htag).bind_pair fun anchor _ hanchor => ?_
  simp only
  split_ifs
  · exact .ok hanchor
  · exact (readTag_readsOn hanchor).bind fun _ hafter => .ok hafter

theorem readAlias_readsOn (h : c.rest <:+ text) : ReadsOn text Prod.snd (readAlias c) :=
  (readAnchorName_readsOn h).bind fun _ hafter => .ok hafter

theorem joinMarks_noMisfit (outer inner : Marks) : NoMisfit (Node.joinMarks outer inner) := by
  rw [Node.joinMarks]
  split_ifs
  · exact .malformed
  · exact .ok _

theorem mark_noMisfit (outer : Marks) (n : Node) : NoMisfit (n.mark outer) := by
  rw [Node.mark.eq_def]
  split_ifs
  · exact .ok _
  · cases n with
    | «alias» name => exact .malformed
    | _ => exact (joinMarks_noMisfit ..).bind fun _ => .ok _

/-- Marks that were read in front of a node are put on it. -/
theorem marked_readsOn (marks : Marks) (n : Node) (h : c.rest <:+ text) :
    ReadsOn text Prod.snd (n.mark marks >>= fun n => .ok (n, c)) :=
  (mark_noMisfit marks n).bind_readsOn fun _ => .ok h

end Marked

end ModelData.Yaml
