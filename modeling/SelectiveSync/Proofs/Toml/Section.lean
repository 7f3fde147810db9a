import Mathlib.Data.List.Nodup
import SelectiveSync.Proofs.Toml.Line

/-! # Sections of texts and lists of records

`Tabular` records consist of texts, empty lists and lists of such records again. `Section.ofFields`
gives the sections in which the lists of a record are written, one for each element.

* `Tabular.keyed?`, `Tabular.isWritable`: a tabular record can be written.
* `isRow_plainLines`: the rows of its texts and empty lists are read as their pairs.
* `isRow_fieldTables`: the blocks of its lists are read as their sections, under whatever header the
  record stands. -/
namespace SelectiveSync.Toml
set_option autoImplicit false

/-- A field that holds a list of records, given by their fields. -/
def listField (f : String × List (List (String × Value))) : String × Value :=
  (f.1, .list (f.2.map .record))

/-- Fields with names that need no quotes, no two the same. Texts and empty lists come first, and
behind them lists of records with such fields again. There are fewer than `n` such lists around each
other. -/
inductive Tabular : Nat → List (String × Value) → Prop
  | intro {n : Nat} {leaves : List (String × Value)}
      {lists : List (String × List (List (String × Value)))}
      (bare : ∀ f ∈ leaves ++ lists.map listField, IsBareKey f.1)
      (nodup : ((leaves ++ lists.map listField).map (·.1)).Nodup)
      (leaf : ∀ f ∈ leaves, IsLeaf f.2)
      (inhabited : ∀ f ∈ lists, f.2 ≠ [])
      (tabular : ∀ f ∈ lists, ∀ fields ∈ f.2, Tabular n fields) :
      Tabular (n + 1) (leaves ++ lists.map listField)

theorem Tabular.pos {n : Nat} {fields : List (String × Value)} (h : Tabular n fields) : 0 < n := by
  cases h
  exact Nat.succ_pos _

theorem Tabular.ofLeaves {leaves : List (String × Value)} (bare : ∀ f ∈ leaves, IsBareKey f.1)
    (nodup : (leaves.map (·.1)).Nodup) (leaf : ∀ f ∈ leaves, IsLeaf f.2) : Tabular 1 leaves := by
  have h : Tabular 1 (leaves ++ [].map listField) :=
    .intro (by simpa using bare) (by simpa using nodup) leaf (by simp) (by simp)
  simpa using h

/-- A list of records behind the leaves, empty or not. -/
theorem Tabular.concat {n : Nat} {leaves : List (String × Value)} {k : String}
    {items : List (List (String × Value))} (bare : ∀ f ∈ leaves, IsBareKey f.1) (hk : IsBareKey k)
    (nodup : (leaves.map (·.1) ++ [k]).Nodup) (leaf : ∀ f ∈ leaves, IsLeaf f.2)
    (tabular : ∀ fields ∈ items, Tabular n fields) :
    Tabular (n + 1) (leaves ++ [(k, .list (items.map .record))]) := by
  have bare' : ∀ f ∈ leaves ++ [(k, Value.list (items.map .record))], IsBareKey f.1 :=
    List.forall_mem_append.2 ⟨bare, by simpa using hk⟩
  by_cases hitems : items = []
  · subst hitems
    have h : Tabular (n + 1) ((leaves ++ [(k, .list [])]) ++ [].map listField) :=
      .intro (by simpa using bare') (by simpa using nodup)
        (List.forall_mem_append.2 ⟨leaf, by simpa using IsLeaf.nothing⟩) (by simp) (by simp)
    simpa using h
  · have h : Tabular (n + 1) (leaves ++ [(k, items)].map listField) :=
      .intro bare' (by simpa [listField] using nodup) leaf (by simpa using hitems)
        (by simpa using tabular)
    exact h

/-! ## Sections -/

/-- The pairs of the plain fields of a record. -/
def plainPairs (fields : List (String × Value)) : List Pair :=
  (fields.filter fun f => isPlain f.2).map fun f => ⟨[], f.1, f.2⟩

namespace Section

/-- The section of a table as a section of what has the table under a key. -/
def under (k : String) (s : Section) : Section :=
  ⟨{ s.header with path := k :: s.header.path }, s.pairs⟩

/-- The section of a table as a section of what has the table on a path. -/
def beneath (path : List String) (s : Section) : Section :=
  ⟨{ s.header with path := path ++ s.header.path }, s.pairs⟩

/-- The header and the pairs under it. -/
def lines (s : Section) : List Line :=
  .header s.header :: s.pairs.map .pair

theorem beneath_under (path : List String) (k : String) (s : Section) :
    (s.under k).beneath path = s.beneath (path ++ [k]) := by
  simp [beneath, under]

mutual

/-- The sections of a value under a key: one for each record of a list, and those of the record. -/
def ofValue (k : String) : Value → List Section
  | .list items => if isPlain (.list items) then [] else ofItems k items
  | _ => []

def ofItems (k : String) : List Value → List Section
  | [] => []
  | .record fields :: rest =>
    ⟨⟨[], k, true⟩, plainPairs fields⟩ :: (ofFields fields).map (under k) ++ ofItems k rest
  | _ :: rest => ofItems k rest

def ofFields : List (String × Value) → List Section
  | [] => []
  | (k, v) :: rest => ofValue k v ++ ofFields rest

end

end Section

/-! ## Leaves and lists -/

theorem IsLeaf.isPlain {v : Value} (h : IsLeaf v) : isPlain v = true := by
  cases h <;> rfl

theorem IsLeaf.keyed? {v : Value} (h : IsLeaf v) : v.keyed? = some v := by
  cases h <;> rfl

theorem IsLeaf.isWritable {v : Value} (h : IsLeaf v) : isWritable v = true := by
  cases h <;> rfl

theorem IsLeaf.tables_eq {v : Value} (h : IsLeaf v) (path : List String) :
    tables true path v = [] := by
  cases h <;> rfl

theorem IsLeaf.ofValue_eq {v : Value} (h : IsLeaf v) (k : String) : Section.ofValue k v = [] := by
  cases h <;> rfl

section
variable {f : String × List (List (String × Value))} (h : f.2 ≠ [])

include h

theorem isPlain_listField : isPlain (listField f).2 = false := by
  simp [listField, isPlain, isRecord, h]

theorem tables_listField (path : List String) :
    tables true path (listField f).2 = elements true path (f.2.map .record) :=
  if_neg (Bool.eq_false_iff.1 (isPlain_listField h))

theorem ofValue_listField (k : String) :
    Section.ofValue k (listField f).2 = Section.ofItems k (f.2.map .record) :=
  if_neg (Bool.eq_false_iff.1 (isPlain_listField h))

end

section
variable {leaves : List (String × Value)} {lists : List (String × List (List (String × Value)))}

theorem forall_fields {P : Value → Prop} (hleaves : ∀ f ∈ leaves, P f.2)
    (hlists : ∀ f ∈ lists, P (.list (f.2.map .record))) :
    ∀ f ∈ leaves ++ lists.map listField, P f.2 :=
  List.forall_mem_append.2 ⟨hleaves, List.forall_mem_map.2 hlists⟩

theorem filter_isPlain (hleaf : ∀ f ∈ leaves, IsLeaf f.2) (hlists : ∀ f ∈ lists, f.2 ≠ []) :
    (leaves ++ lists.map listField).filter (fun f => isPlain f.2) = leaves := by
  have hleaves : leaves.filter (fun f => isPlain f.2) = leaves :=
    List.filter_eq_self.2 fun f hf => (hleaf f hf).isPlain
  have hnone : (lists.map listField).filter (fun f => isPlain f.2) = [] := by
    refine List.filter_eq_nil_iff.2 (List.forall_mem_map.2 fun f hf => ?_)
    rw [isPlain_listField (hlists f hf)]
    decide
  rw [List.filter_append, hleaves, hnone, List.append_nil]

end

/-! ## What can be written -/

theorem keyedItems?_eq_self {items : List Value} (h : ∀ v ∈ items, v.keyed? = some v) :
    Value.keyedItems? items = some items := by
  induction items with
  | nil => rfl
  | cons v rest ih =>
    obtain ⟨hv, hrest⟩ := List.forall_mem_cons.1 h
    rw [Value.keyedItems?, hv, ih hrest]
    rfl

theorem keyedFields?_eq_self {fields : List (String × Value)}
    (h : ∀ f ∈ fields, f.2.keyed? = some f.2) : Value.keyedFields? fields = some fields := by
  induction fields with
  | nil => rfl
  | cons f rest ih =>
    obtain ⟨hf, hrest⟩ := List.forall_mem_cons.1 h
    rw [Value.keyedFields?, hf, ih hrest]
    rfl

theorem areWritable_eq (items : List Value) : areWritable items = items.all isWritable := by
  induction items with
  | nil => rfl
  | cons v rest ih => rw [areWritable, List.all_cons, ih]

theorem haveWritable_eq (fields : List (String × Value)) :
    haveWritable fields = fields.all fun f => isWritable f.2 := by
  induction fields with
  | nil => rfl
  | cons f rest ih => rw [haveWritable, List.all_cons, ih]

theorem Tabular.keyed? {n : Nat} {fields : List (String × Value)} (h : Tabular n fields) :
    (Value.record fields).keyed? = some (.record fields) := by
  induction h with
  | intro _ _ hleaf _ _ ih =>
    refine congrArg (Option.map Value.record) (keyedFields?_eq_self
      (forall_fields (P := fun v => v.keyed? = some v) ?_ ?_))
    · exact fun f hf => (hleaf f hf).keyed?
    · intro f hf
      exact congrArg (Option.map Value.list)
        (keyedItems?_eq_self (List.forall_mem_map.2 (ih f hf)))

theorem Tabular.isWritable {n : Nat} {fields : List (String × Value)} (h : Tabular n fields) :
    isWritable (.record fields) = true := by
  induction h with
  | intro _ _ hleaf _ _ ih =>
    rw [Toml.isWritable, haveWritable_eq]
    refine List.all_eq_true.2 (forall_fields (P := fun v => Toml.isWritable v = true) ?_ ?_)
    · exact fun f hf => (hleaf f hf).isWritable
    · intro f hf
      rw [Toml.isWritable, areWritable_eq]
      exact List.all_eq_true.2 (List.forall_mem_map.2 (ih f hf))

/-! ## The rows of a document -/

theorem isRow_plainLines {n : Nat} {fields : List (String × Value)} (h : Tabular n fields) :
    List.Forall₂ IsRow (plainLines true fields) ((plainPairs fields).map .pair) := by
  cases h with
  | @intro n leaves lists hbare _ hleaf hlists _ =>
    rw [plainLines, plainPairs, filter_isPlain hleaf hlists, List.map_map,
      List.forall₂_map_left_iff, List.forall₂_map_right_iff, List.forall₂_same]
    exact fun f hf => isRow_field (hbare f (List.mem_append_left _ hf)) (hleaf f hf)

theorem fieldTables_eq (path : List String) (fields : List (String × Value)) :
    fieldTables true path fields = fields.flatMap fun f => tables true (path ++ [f.1]) f.2 := by
  induction fields with
  | nil => rfl
  | cons f rest ih => rw [fieldTables, List.flatMap_cons, ih]

theorem Section.ofFields_eq (fields : List (String × Value)) :
    ofFields fields = fields.flatMap fun f => ofValue f.1 f.2 := by
  induction fields with
  | nil => rfl
  | cons f rest ih => rw [ofFields, List.flatMap_cons, ih]

theorem elements_eq (path : List String) (items : List (List (String × Value))) :
    elements true path (items.map .record) = items.flatMap fun fields =>
      (("[[" ++ headerText path ++ "]]") :: plainLines true fields)
        :: fieldTables true path fields := by
  induction items with
  | nil => rfl
  | cons fields rest ih => rw [List.map_cons, elements, List.flatMap_cons, ih]

theorem Section.ofItems_eq (k : String) (items : List (List (String × Value))) :
    ofItems k (items.map .record) = items.flatMap fun fields =>
      ⟨⟨[], k, true⟩, plainPairs fields⟩ :: (ofFields fields).map (under k) := by
  induction items with
  | nil => rfl
  | cons fields rest ih => rw [List.map_cons, ofItems, List.flatMap_cons, ih]

theorem forall₂_flatMap {α β γ : Type} {R : β → γ → Prop} {f : α → List β} {g : α → List γ}
    {l : List α} (h : ∀ a ∈ l, List.Forall₂ R (f a) (g a)) :
    List.Forall₂ R (l.flatMap f) (l.flatMap g) := by
  induction l with
  | nil => exact .nil
  | cons a l ih =>
    obtain ⟨ha, hl⟩ := List.forall_mem_cons.1 h
    exact List.rel_append ha (ih hl)

theorem isRow_fieldTables {n : Nat} {fields : List (String × Value)} (h : Tabular n fields)
    {path : List String} (hpath : ∀ k ∈ path, IsBareKey k)
    (hlength : path.length + n ≤ depthLimit + 1) :
    List.Forall₂ (List.Forall₂ IsRow) (fieldTables true path fields)
      ((Section.ofFields fields).map fun s => (s.beneath path).lines) := by
  induction h generalizing path with
  | @intro n leaves lists hbare _ hleaf hlists htab ih =>
    rw [fieldTables_eq, Section.ofFields_eq, List.map_flatMap]
    refine forall₂_flatMap (List.forall_mem_append.2
      ⟨fun f hf => ?_, List.forall_mem_map.2 fun f hf => ?_⟩)
    · -- a plain value has no header, and no section either
      rw [(hleaf f hf).tables_eq, (hleaf f hf).ofValue_eq]
      exact .nil
    · have hk : IsBareKey f.1 := hbare _ (List.mem_append_right _ (List.mem_map_of_mem hf))
      have hpath' : ∀ k ∈ path ++ [f.1], IsBareKey k :=
        List.forall_mem_append.2 ⟨hpath, by simpa using hk⟩
      rw [tables_listField (hlists f hf), ofValue_listField (hlists f hf), elements_eq,
        Section.ofItems_eq, List.map_flatMap]
      refine forall₂_flatMap fun fields hfields => ?_
      have hinner := htab f hf fields hfields
      have hpos := hinner.pos
      have htables := ih f hf fields hfields hpath' (by simp; omega)
      refine .cons (.cons ?_ (isRow_plainLines hinner)) ?_
      · rw [Section.beneath, List.append_nil]
        exact isRow_header hpath' (by omega)
      · simpa only [List.map_map, Function.comp_def, Section.beneath_under, listField] using htables

end SelectiveSync.Toml
