import Mathlib.Data.List.Forall2
import Mathlib.Data.List.TakeWhile
import SelectiveSync.Format.Toml.Reader
import SelectiveSync.Format.Toml.Writer
import SelectiveSync.Proofs.Toml.Text

/-! # Rows are read as the lines they were written for

A row is what is written on a line of its own: a key with its value, or a header.

* `isRow_field`, `isRow_header`: rows whose keys need no quotes, and whose values are texts or empty
  lists, are read as the pair or header that they were written for.
* `lines?_document`: blocks of such rows are read as their lines, one after another. -/
namespace SelectiveSync.Toml
set_option autoImplicit false

/-! ## Keys -/

/-- A key that is written without quotes. -/
def IsBareKey (k : String) : Prop :=
  k ≠ "" ∧ k.toList.all isBare = true

instance (k : String) : Decidable (IsBareKey k) :=
  inferInstanceAs (Decidable (_ ∧ _))

theorem key_eq_self {k : String} (h : IsBareKey k) : key k = k :=
  if_pos h

/-- Nothing that has a meaning of its own is a character of a bare key. -/
theorem ne_of_isBare {c d : Char} (h : isBare c = true) (hd : isBare d = false) : c ≠ d := by
  rintro rfl
  rw [h] at hd
  cases hd

theorem IsBareKey.begins {k : String} (h : IsBareKey k) :
    ∃ c t, k.toList = c :: t ∧ isBare c = true := by
  cases hk : k.toList with
  | nil => exact absurd (String.toList_eq_nil_iff.1 hk) h.1
  | cons c t => exact ⟨c, t, rfl, List.all_eq_true.1 h.2 c (hk ▸ List.mem_cons_self)⟩

theorem skipGaps_of_isBare {c : Char} (h : isBare c = true) (s : List Char) :
    skipGaps (c :: s) = c :: s := by
  refine List.dropWhile_cons_of_neg ?_
  simp [isGap, ne_of_isBare h (d := ' ') (by decide), ne_of_isBare h (d := '\t') (by decide)]

theorem simpleKey?_append {k : String} (h : IsBareKey k) {rest : List Char}
    (hrest : rest.takeWhile isBare = []) : simpleKey? (k.toList ++ rest) = some (k, rest) := by
  obtain ⟨c, t, hk, hc⟩ := h.begins
  have htake : (k.toList ++ rest).takeWhile isBare = k.toList := by
    rw [List.takeWhile_append_of_pos (List.all_eq_true.1 h.2), hrest, List.append_nil]
  rw [simpleKey?, htake]
  · have hnil : k.toList ≠ [] := by simp [hk]
    rw [if_neg hnil, String.ofList_toList, List.drop_left]
  · intro u hu
    rw [hk] at hu
    exact ne_of_isBare hc (by decide) (List.cons.inj hu).1
  · intro u hu
    rw [hk] at hu
    exact ne_of_isBare hc (by decide) (List.cons.inj hu).1

theorem headerText_singleton {k : String} (h : IsBareKey k) : headerText [k] = k := by
  rw [headerText, List.map_singleton, String.intercalate_singleton, key_eq_self h]

theorem headerText_cons {k : String} (h : IsBareKey k) {path : List String} (hpath : path ≠ []) :
    (headerText (k :: path)).toList = k.toList ++ '.' :: (headerText path).toList := by
  obtain ⟨k', path, rfl⟩ := List.exists_cons_of_ne_nil hpath
  simp [headerText, key_eq_self h]

/-- A dotted key is read up to what cannot continue it. -/
theorem key?_headerText {path : List String} (hne : path ≠ []) (h : ∀ k ∈ path, IsBareKey k)
    {fuel : Nat} (hfuel : path.length ≤ fuel) {rest : List Char}
    (hrest : rest.takeWhile isBare = []) (hdot : (skipGaps rest).head? ≠ some '.') :
    key? fuel ((headerText path).toList ++ rest) = some (path, skipGaps rest) := by
  induction path generalizing fuel with
  | nil => exact absurd rfl hne
  | cons k path ih =>
    obtain ⟨hk, hpath⟩ := List.forall_mem_cons.1 h
    obtain ⟨fuel, rfl⟩ : ∃ n, fuel = n + 1 := ⟨fuel - 1, by simp at hfuel; omega⟩
    have hgaps (u : List Char) : skipGaps (k.toList ++ u) = k.toList ++ u := by
      obtain ⟨c, t, hkc, hc⟩ := hk.begins
      rw [hkc]
      exact skipGaps_of_isBare hc _
    by_cases hnil : path = []
    · subst hnil
      rw [headerText_singleton hk, key?, hgaps, simpleKey?_append hk hrest]
      simp only [Option.bind_eq_bind, Option.bind_some]
      split
      · next u hu => simp [hu] at hdot
      · rfl
    · have hmore : key? fuel ((headerText path).toList ++ rest) = some (path, skipGaps rest) :=
        ih hnil hpath (by simp at hfuel; omega)
      rw [headerText_cons hk hnil, List.append_assoc, List.cons_append, key?, hgaps,
        simpleKey?_append hk rfl]
      simp only [Option.bind_eq_bind, Option.bind_some]
      rw [skipGaps, List.dropWhile_cons_of_neg (by decide)]
      simp only [hmore]
      rfl

theorem keyPath?_headerText {path : List String} {k : String} (h : ∀ k' ∈ path ++ [k], IsBareKey k')
    (hlength : path.length < depthLimit) {rest : List Char} (hrest : rest.takeWhile isBare = [])
    (hdot : (skipGaps rest).head? ≠ some '.') :
    keyPath? ((headerText (path ++ [k])).toList ++ rest) = some (path, k, skipGaps rest) := by
  have hfuel : (path ++ [k]).length ≤ depthLimit := by
    rw [List.length_append, List.length_singleton]
    exact hlength
  rw [keyPath?, key?_headerText (by simp) h hfuel hrest hdot]
  simp

/-- The key of a pair is read up to the sign behind it. -/
theorem keyPath?_key {k : String} (h : IsBareKey k) (rest : List Char) :
    keyPath? (k.toList ++ ' ' :: '=' :: rest) = some ([], k, '=' :: rest) := by
  have hbare : ∀ k' ∈ [] ++ [k], IsBareKey k' := by simpa using h
  have hend : (' ' :: '=' :: rest).takeWhile isBare = [] := rfl
  have hread := keyPath?_headerText hbare (by decide) hend (fun h => by cases h)
  rwa [List.nil_append, headerText_singleton h] at hread

/-! ## Values -/

/-- A value that stands on its key's line and is no record or list of records. -/
inductive IsLeaf : Value → Prop
  | text (s : String) : IsLeaf (.text s)
  | nothing : IsLeaf (.list [])

theorem quoted_begins (s : String) :
    ∃ c t, (quoted s).toList = c :: t ∧ (c = '"' ∨ c = '\'') := by
  rw [quoted, String.toList_ofList]
  cases style s.toList with
  | basic => exact ⟨_, _, rfl, Or.inl rfl⟩
  | literal => exact ⟨_, _, rfl, Or.inr rfl⟩
  | multiBasic =>
    rw [written, opening]
    split
    · exact ⟨_, _, rfl, Or.inl rfl⟩
    · exact ⟨_, _, rfl, Or.inl rfl⟩
  | multiLiteral =>
    rw [written, opening]
    split
    · exact ⟨_, _, rfl, Or.inr rfl⟩
    · exact ⟨_, _, rfl, Or.inr rfl⟩

theorem skipGaps_inlined {v : Value} (h : IsLeaf v) (rest : List Char) :
    skipGaps ((inlined true v).toList ++ rest) = (inlined true v).toList ++ rest := by
  cases h with
  | text s =>
    obtain ⟨c, t, hs, hc⟩ := quoted_begins s
    rw [inlined, hs]
    rcases hc with rfl | rfl <;> rfl
  | nothing => rfl

theorem value_inlined {v : Value} (h : IsLeaf v) {depth fuel : Nat} (hdepth : 0 < depth)
    (hfuel : 2 ≤ fuel) {rest : List Char} (hd : rest.head? ≠ some '"')
    (hq : rest.head? ≠ some '\'') :
    value depth fuel ((inlined true v).toList ++ rest) = some (v, rest) := by
  obtain ⟨depth, rfl⟩ : ∃ n, depth = n + 1 := ⟨depth - 1, by omega⟩
  obtain ⟨fuel, rfl⟩ : ∃ n, fuel = n + 2 := ⟨fuel - 2, by omega⟩
  cases h with
  | text s =>
    obtain ⟨c, t, hs, hc⟩ := quoted_begins s
    have hread := text?_quoted s hd hq
    rw [inlined]
    rw [hs, List.cons_append] at hread ⊢
    rcases hc with rfl | rfl <;> simp [value, hread]
  | nothing => rfl

/-! ## Rows -/

/-- A row that begins like a key or a header and is read as the line, whatever follows it. -/
structure IsRow (row : String) (l : Line) : Prop where
  begins : ∃ c t, row.toList = c :: t ∧ (isBare c = true ∨ c = '[')
  read : ∀ rest, line? (row.toList ++ '\n' :: rest) = some (l, '\n' :: rest)

theorem isRow_field {k : String} (hk : IsBareKey k) {v : Value} (hv : IsLeaf v) :
    IsRow (key k ++ " = " ++ inlined true v) (.pair ⟨[], k, v⟩) := by
  obtain ⟨c, t, hkc, hc⟩ := hk.begins
  have hrow (rest : List Char) : (key k ++ " = " ++ inlined true v).toList ++ rest =
      k.toList ++ ' ' :: '=' :: ' ' :: ((inlined true v).toList ++ rest) := by
    simp [key_eq_self hk]
  refine ⟨⟨c, t ++ ' ' :: '=' :: ' ' :: (inlined true v).toList, ?_, Or.inl hc⟩, fun rest => ?_⟩
  · rw [← List.append_nil (String.toList _), hrow, hkc, List.append_nil, List.cons_append]
  · have hvalue : value depthLimit ((' ' :: ((inlined true v).toList ++ '\n' :: rest)).length + 1)
        ((inlined true v).toList ++ '\n' :: rest) = some (v, '\n' :: rest) :=
      value_inlined hv (by decide) (by simp) (by simp) (by simp)
    have hgaps : skipGaps (' ' :: ((inlined true v).toList ++ '\n' :: rest)) =
        (inlined true v).toList ++ '\n' :: rest := skipGaps_inlined hv _
    rw [hrow, line?, keyPath?_key hk]
    · show (value _ _ (skipGaps _)).bind _ = _
      rw [hgaps, hvalue]
      rfl
    · intro u hu
      rw [hkc] at hu
      exact ne_of_isBare hc (by decide) (List.cons.inj hu).1
    · intro u hu
      rw [hkc] at hu
      exact ne_of_isBare hc (by decide) (List.cons.inj hu).1

theorem isRow_header {path : List String} {k : String} (h : ∀ k' ∈ path ++ [k], IsBareKey k')
    (hlength : path.length < depthLimit) :
    IsRow ("[[" ++ headerText (path ++ [k]) ++ "]]") (.header ⟨path, k, true⟩) := by
  have hrow (rest : List Char) : ("[[" ++ headerText (path ++ [k]) ++ "]]").toList ++ rest =
      '[' :: '[' :: ((headerText (path ++ [k])).toList ++ ']' :: ']' :: rest) := by
    simp
  refine ⟨⟨'[', _, by rw [← List.append_nil (String.toList _), hrow], Or.inr rfl⟩, fun rest => ?_⟩
  rw [hrow, line?, header?, keyPath?_headerText h hlength rfl (fun h => by cases h)]
  rfl

/-! ## Blocks of rows -/

/-- A text of rows, empty ones between them, that are read as some lines. -/
inductive Written : List Char → List Line → Prop
  | nil : Written [] []
  | gap {s : List Char} {ls : List Line} : Written s ls → Written ('\n' :: s) ls
  | row {row : String} {l : Line} {s : List Char} {ls : List Line} :
      IsRow row l → Written s ls → Written (row.toList ++ '\n' :: s) (l :: ls)

theorem skipVoid_of_begins {c : Char} (h : isBare c = true ∨ c = '[') (s : List Char) :
    skipVoid false (c :: s) = c :: s := by
  have hne (d : Char) (hd : isBare d = false) (hbracket : d ≠ '[') : c ≠ d := by
    rcases h with h | rfl
    · exact ne_of_isBare h hd
    · exact hbracket.symm
  simp [skipVoid, isGap, hne ' ' (by decide) (by decide), hne '\t' (by decide) (by decide),
    hne '\n' (by decide) (by decide), hne '\r' (by decide) (by decide),
    hne '#' (by decide) (by decide)]

/-- One step of fuel for each character is enough, since every row ends in a line end. -/
theorem lines?_written {s : List Char} {ls : List Line} (h : Written s ls) {fuel : Nat}
    (hfuel : s.length < fuel) : lines? fuel s = some ls := by
  obtain ⟨fuel, rfl⟩ : ∃ n, fuel = n + 1 := ⟨fuel - 1, by omega⟩
  induction h generalizing fuel with
  | nil => rfl
  | gap _ ih =>
    rw [List.length_cons] at hfuel
    exact ih fuel (by omega)
  | @row row l s ls hrow _ ih =>
    obtain ⟨c, t, hc, hbegins⟩ := hrow.begins
    have hread := hrow.read s
    have hend : lineEnd? ('\n' :: s) = some s := rfl
    rw [hc, List.cons_append] at hread hfuel ⊢
    rw [List.length_cons, List.length_append, List.length_cons] at hfuel
    obtain ⟨fuel, rfl⟩ : ∃ n, fuel = n + 1 := ⟨fuel - 1, by omega⟩
    rw [lines?, skipVoid_of_begins hbegins]
    simp only [hread, hend, ih fuel (by omega), Option.bind_eq_bind, Option.bind_some]
    rfl

theorem withoutMark_written {s : List Char} {ls : List Line} (h : Written s ls) :
    withoutMark s = s := by
  cases h with
  | nil => rfl
  | gap _ => rfl
  | row hrow _ =>
    obtain ⟨c, t, hc, hbegins⟩ := hrow.begins
    have hmark : c ≠ '\ufeff' := by
      rintro rfl
      revert hbegins
      decide
    rw [hc, List.cons_append, withoutMark]
    exact fun _ h => hmark (List.cons.inj h).1

theorem Written.append {s t : List Char} {ls ms : List Line} (hs : Written s ls)
    (ht : Written t ms) : Written (s ++ t) (ls ++ ms) := by
  induction hs with
  | nil => exact ht
  | gap _ ih => exact .gap ih
  | row hrow _ ih =>
    rw [List.append_assoc]
    exact .row hrow ih

theorem written_rows {rows : List String} {ls : List Line} (h : List.Forall₂ IsRow rows ls) :
    Written (String.join (rows.map (· ++ "\n"))).toList ls := by
  induction h with
  | nil => exact .nil
  | @cons row l rows ls hrow _ ih =>
    rw [List.map_cons, String.join_cons, String.toList_append, String.toList_append,
      List.append_assoc]
    exact .row hrow ih

/-- Blocks of rows are read as the lines of the first block, then those of the second, and so on. -/
theorem written_document {blocks : List (List String)} {ls : List (List Line)}
    (h : List.Forall₂ (List.Forall₂ IsRow) blocks ls) :
    Written (document blocks).toList ls.flatten := by
  induction h with
  | nil => exact .nil
  | @cons block l blocks ls hblock hblocks ih =>
    rw [List.flatten_cons]
    by_cases hnil : blocks = []
    · subst hnil
      cases hblocks
      rw [document, List.map_singleton, String.intercalate_singleton, List.flatten_nil,
        List.append_nil]
      exact written_rows hblock
    · rw [document, List.map_cons, String.intercalate_cons_of_ne_nil (by simpa using hnil),
        String.toList_append, String.toList_append, List.append_assoc]
      exact (written_rows hblock).append (.gap ih)

theorem lines?_document {blocks : List (List String)} {ls : List (List Line)}
    (h : List.Forall₂ (List.Forall₂ IsRow) blocks ls) :
    lines? ((document blocks).length + 1) (withoutMark (document blocks).toList) =
      some ls.flatten := by
  have hwritten := written_document h
  rw [withoutMark_written hwritten]
  exact lines?_written hwritten (by rw [String.length_toList]; omega)

end SelectiveSync.Toml
