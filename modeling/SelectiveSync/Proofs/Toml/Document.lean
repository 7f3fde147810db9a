import SelectiveSync.Proofs.Toml.Section

/-! # Documents are read as they were written

The sections of a tabular record, added one after another, make up its table again: a section of a
list adds an element, and the sections that follow belong to that element until the next.

* `foldlM_elements`: what the sections of a list add to a table.
* `Tabular.isDefined`: the lines of a tabular record define that record.
* `read_pretty`: a tabular record is read as it was written. -/
namespace SelectiveSync.Toml
set_option autoImplicit false

/-! ## The table of a document -/

theorem sections_append_pairs (ps : List Pair) (ls : List Line) :
    sections (ps.map .pair ++ ls) = (ps ++ (sections ls).1, (sections ls).2) := by
  induction ps with
  | nil => rfl
  | cons p ps ih => rw [List.map_cons, List.cons_append, sections, ih, List.cons_append]

theorem sections_lines (ss : List Section) : sections (ss.flatMap Section.lines) = ([], ss) := by
  induction ss with
  | nil => rfl
  | cons s ss ih =>
    rw [List.flatMap_cons, Section.lines, List.cons_append, sections, sections_append_pairs, ih,
      List.append_nil]

theorem fields_append (es fs : Entries) :
    Item.fields (es ++ fs) = Item.fields es ++ Item.fields fs := by
  induction es with
  | nil => rfl
  | cons e es ih => rw [List.cons_append, Item.fields, Item.fields, ih, List.cons_append]

theorem fields_values (fields : List (String × Value)) :
    Item.fields (fields.map fun f => (f.1, .value f.2)) = fields := by
  induction fields with
  | nil => rfl
  | cons f fields ih => rw [List.map_cons, Item.fields, ih, Item.toValue]

namespace Entries

theorem lookup_of_not_mem {es : Entries} {k : String} (h : k ∉ es.map (·.1)) :
    es.lookup k = none := by
  refine List.lookup_eq_none_iff.2 fun e he => bne_iff_ne.2 ?_
  rintro rfl
  exact h (List.mem_map_of_mem he)

section
variable {es : Entries} {k : String} (h : k ∉ es.map (·.1))

include h

theorem lookup_concat (i : Item) : (es ++ [(k, i)]).lookup k = some i := by
  rw [List.lookup_append, lookup_of_not_mem h, Option.none_or, List.lookup_cons_self]

theorem set_of_not_mem (i : Item) : set k i es = es ++ [(k, i)] := by
  induction es with
  | nil => rfl
  | cons e es ih =>
    have hne : e.1 ≠ k := fun he => h (by simp [he])
    rw [set, if_neg hne, ih fun hk => h (by simp [hk]), List.cons_append]

theorem set_concat (i j : Item) : set k j (es ++ [(k, i)]) = es ++ [(k, j)] := by
  induction es with
  | nil => simp [set]
  | cons e es ih =>
    have hne : e.1 ≠ k := fun he => h (by simp [he])
    rw [List.cons_append, set, if_neg hne, ih fun hk => h (by simp [hk]), List.cons_append]

end

/-- The entries with a list of tables under a key behind them, which is not there before its first
table. -/
def withTables (es : Entries) (k : String) : List Entries → Entries
  | [] => es
  | ts => es ++ [(k, .tables ts)]

theorem withTables_of_ne_nil (es : Entries) (k : String) {ts : List Entries} (hts : ts ≠ []) :
    withTables es k ts = es ++ [(k, .tables ts)] := by
  cases ts with
  | nil => exact absurd rfl hts
  | cons t ts => rfl

section
variable {es : Entries} {k : String} (h : k ∉ es.map (·.1)) (ts : List Entries)

include h

/-- A section of a list of tables adds one to the list. -/
theorem addSection_element (ps : List Pair) :
    addSection (withTables es k ts) ⟨⟨[], k, true⟩, ps⟩ =
      (insertAll [] ps).map fun t => withTables es k (ts ++ [t]) := by
  cases ts with
  | nil =>
    simp only [addSection, within, withTables, lookup_of_not_mem h, set_of_not_mem h,
      List.nil_append]
  | cons t ts =>
    simp only [addSection, within, withTables, lookup_concat h, set_concat h, List.cons_append]

/-- A section under a list of tables belongs to the last of them. -/
theorem addSection_under (t : Entries) (s : Section) :
    addSection (withTables es k (ts ++ [t])) (s.under k) =
      (addSection t s).map fun t => withTables es k (ts ++ [t]) := by
  simp only [withTables_of_ne_nil es k (List.concat_ne_nil _ ts), addSection, Section.under, within,
    lookup_concat h, set_concat h, List.getLast?_concat, Option.getD_some, List.dropLast_concat]

theorem foldlM_addSection_under (t : Entries) (ss : List Section) :
    (ss.map (Section.under k)).foldlM addSection (withTables es k (ts ++ [t])) =
      (ss.foldlM addSection t).map fun t => withTables es k (ts ++ [t]) := by
  induction ss generalizing t with
  | nil => rfl
  | cons s ss ih =>
    rw [List.map_cons, List.foldlM_cons, List.foldlM_cons, addSection_under h]
    cases addSection t s with
    | none => rfl
    | some t => exact ih t

end

theorem insertAll_pairs {es : Entries} {fields : List (String × Value)}
    (h : (es.map (·.1) ++ fields.map (·.1)).Nodup) :
    insertAll es (fields.map fun f => ⟨[], f.1, f.2⟩) =
      some (es ++ fields.map fun f => (f.1, .value f.2)) := by
  induction fields generalizing es with
  | nil => simp [insertAll]
  | cons f fields ih =>
    have hf : f.1 ∉ es.map (·.1) := by
      intro hmem
      exact (List.nodup_append'.1 h).2.2 hmem (by simp)
    have hinsert : insert es ⟨[], f.1, f.2⟩ = some (es ++ [(f.1, .value f.2)]) := by
      simp [insert, within, lookup_of_not_mem hf]
    have hrest := @ih (es ++ [(f.1, .value f.2)]) (by simpa using h)
    rw [insertAll] at hrest ⊢
    rw [List.map_cons, List.foldlM_cons, hinsert]
    simpa using hrest

end Entries

/-- The table that the lines of a record define. -/
def table? (fields : List (String × Value)) : Option Entries := do
  let es ← Entries.insertAll [] (plainPairs fields)
  (Section.ofFields fields).foldlM Entries.addSection es

/-- The record is the table that its lines define. -/
def IsDefined (fields : List (String × Value)) : Prop :=
  ∃ es, table? fields = some es ∧ Item.fields es = fields

section
variable {es : Entries} {k : String} (h : k ∉ es.map (·.1))

include h

theorem foldlM_element (ts : List Entries) (fields : List (String × Value)) :
    (⟨⟨[], k, true⟩, plainPairs fields⟩ :: (Section.ofFields fields).map (Section.under k)).foldlM
      Entries.addSection (Entries.withTables es k ts) =
        (table? fields).map fun t => Entries.withTables es k (ts ++ [t]) := by
  rw [List.foldlM_cons, Entries.addSection_element h, table?]
  cases Entries.insertAll [] (plainPairs fields) with
  | none => rfl
  | some t => exact Entries.foldlM_addSection_under h ts t _

theorem foldlM_elements {items : List (List (String × Value))}
    (hitems : ∀ fields ∈ items, IsDefined fields) (ts : List Entries) :
    ∃ us, (Section.ofItems k (items.map .record)).foldlM Entries.addSection
        (Entries.withTables es k ts) = some (Entries.withTables es k (ts ++ us)) ∧
      Item.records us = items.map .record := by
  induction items generalizing ts with
  | nil => exact ⟨[], by simp [Section.ofItems], rfl⟩
  | cons fields items ih =>
    obtain ⟨⟨t, ht, hfields⟩, hrest⟩ := List.forall_mem_cons.1 hitems
    obtain ⟨us, hus, hrecords⟩ := ih hrest (ts ++ [t])
    refine ⟨t :: us, ?_, by rw [Item.records, hfields, hrecords, List.map_cons]⟩
    rw [List.map_cons, Section.ofItems, List.foldlM_append, foldlM_element h, ht]
    simpa using hus

end

theorem foldlM_lists {lists : List (String × List (List (String × Value)))}
    (hne : ∀ f ∈ lists, f.2 ≠ []) (hlists : ∀ f ∈ lists, ∀ fields ∈ f.2, IsDefined fields)
    {es : Entries} (h : (es.map (·.1) ++ lists.map (·.1)).Nodup) :
    ∃ fs, (Section.ofFields (lists.map listField)).foldlM Entries.addSection es = some fs ∧
      Item.fields fs = Item.fields es ++ lists.map listField := by
  induction lists generalizing es with
  | nil => exact ⟨es, rfl, by simp⟩
  | cons f lists ih =>
    obtain ⟨hf, hne⟩ := List.forall_mem_cons.1 hne
    obtain ⟨hitems, hlists⟩ := List.forall_mem_cons.1 hlists
    have hk : f.1 ∉ es.map (·.1) := fun hmem => (List.nodup_append'.1 h).2.2 hmem (by simp)
    obtain ⟨ts, hts, hrecords⟩ := foldlM_elements hk hitems []
    have hsome : ts ≠ [] := by
      rintro rfl
      exact hf (List.map_eq_nil_iff.1 hrecords.symm)
    rw [List.nil_append, Entries.withTables_of_ne_nil es f.1 hsome] at hts
    obtain ⟨fs, hfs, hfields⟩ := @ih hne hlists (es ++ [(f.1, .tables ts)]) (by simpa using h)
    refine ⟨fs, ?_, ?_⟩
    · rw [List.map_cons, Section.ofFields, List.foldlM_append, ofValue_listField hf]
      exact (congrArg (· >>= _) hts).trans hfs
    · rw [hfields, fields_append]
      simp [Item.fields, Item.toValue, hrecords, listField]

theorem Tabular.isDefined {n : Nat} {fields : List (String × Value)} (h : Tabular n fields) :
    IsDefined fields := by
  induction h with
  | @intro n leaves lists _ hnodup hleaf hlists _ ih =>
    have hkeys : (leaves.map (·.1) ++ lists.map (·.1)).Nodup := by
      simpa [listField, Function.comp_def] using hnodup
    have hpairs : Entries.insertAll [] (plainPairs (leaves ++ lists.map listField)) =
        some (leaves.map fun f => (f.1, .value f.2)) := by
      rw [plainPairs, filter_isPlain hleaf hlists,
        Entries.insertAll_pairs (by simpa using (List.nodup_append'.1 hkeys).1), List.nil_append]
    have hsections : Section.ofFields (leaves ++ lists.map listField) =
        Section.ofFields (lists.map listField) := by
      have hnone : leaves.flatMap (fun f => Section.ofValue f.1 f.2) = [] :=
        List.flatMap_eq_nil_iff.2 fun f hf => (hleaf f hf).ofValue_eq f.1
      rw [Section.ofFields_eq, Section.ofFields_eq, List.flatMap_append, hnone, List.nil_append]
    have hstart : ((leaves.map fun f => (f.1, Item.value f.2)).map (·.1) ++
        lists.map (·.1)).Nodup := by
      simpa [Function.comp_def] using hkeys
    obtain ⟨es, hes, hfields⟩ := foldlM_lists hlists ih hstart
    refine ⟨es, ?_, by rw [hfields, fields_values]⟩
    rw [table?, hpairs, hsections]
    exact hes

/-! ## Reading what was written -/

theorem Tabular.ofLines {n : Nat} {fields : List (String × Value)} (h : Tabular n fields) :
    ofLines ((plainPairs fields).map .pair ++ (Section.ofFields fields).flatMap Section.lines) =
      some (.record fields) := by
  obtain ⟨es, hes, hfields⟩ := h.isDefined
  have hsections : sections ((plainPairs fields).map .pair ++
      (Section.ofFields fields).flatMap Section.lines) =
        (plainPairs fields, Section.ofFields fields) := by
    rw [sections_append_pairs, sections_lines, List.append_nil]
  have hofLines : Toml.ofLines ((plainPairs fields).map .pair ++
      (Section.ofFields fields).flatMap Section.lines) =
        (table? fields).map fun es => .record (Item.fields es) := by
    rw [Toml.ofLines, hsections, table?]
    cases Entries.insertAll [] (plainPairs fields) with
    | none => rfl
    | some es =>
      cases hfold : (Section.ofFields fields).foldlM Entries.addSection es <;> simp [hfold]
  rw [hofLines, hes, Option.map_some, hfields]

theorem isRow_block {rows : List String} {ls : List Line} (h : List.Forall₂ IsRow rows ls) :
    ∃ lss, List.Forall₂ (List.Forall₂ IsRow) (block rows) lss ∧ lss.flatten = ls := by
  cases h with
  | nil => exact ⟨[], .nil, rfl⟩
  | cons hrow hrows => exact ⟨[_], .cons (.cons hrow hrows) .nil, by simp⟩

theorem Tabular.lines? {n : Nat} {fields : List (String × Value)} (h : Tabular n fields)
    (hn : n ≤ depthLimit + 1) {s : String}
    (hs : s = document (block (plainLines true fields) ++ fieldTables true [] fields)) :
    lines? (s.length + 1) (withoutMark s.toList) =
      some ((plainPairs fields).map .pair ++
        (Section.ofFields fields).flatMap Section.lines) := by
  have hroot : ∀ k ∈ ([] : List String), IsBareKey k := by simp
  have htables := isRow_fieldTables h hroot (by simpa using hn)
  obtain ⟨lss, hblock, hflat⟩ := isRow_block (isRow_plainLines h)
  rw [hs, lines?_document (List.rel_append hblock htables), ← hflat, List.flatMap]
  exact congrArg some List.flatten_append

/-- A record of texts and lists of such records is read as it was written. -/
theorem read_pretty {n : Nat} {fields : List (String × Value)} (h : Tabular n fields)
    (hn : n ≤ depthLimit + 1) :
    ∃ s, pretty (.record fields) = some s ∧ read s = some (.record fields) := by
  refine ⟨document (block (plainLines true fields) ++ fieldTables true [] fields), ?_, ?_⟩
  · rw [pretty, write, h.keyed?]
    exact if_pos h.isWritable
  · rw [read, h.lines? hn rfl, Option.bind_some, h.ofLines]

end SelectiveSync.Toml
