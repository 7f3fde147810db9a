import SelectiveSync.Proofs.Registry.Invariant
import SelectiveSync.Proofs.Toml.Document
import SelectiveSync.Proofs.Tree.Rebuilding

/-! # The stored form of a registry

* `read_toToml`: the text under which a registry is stored is read as the registry's value.
* `storedOfValue?_toValue`: the value is taken apart into what is stored of each target.
* `ofStored_stored`: what is stored of each target is put together to the target again, and targets
  in order stay in order.
* `stored_form_reads_back`: a registry is what is read from the text that it is stored under. -/
namespace SelectiveSync
set_option autoImplicit false

/-! ## Trees -/

theorem PathTree.ofMarks_marks_of_wellFormed {t : PathTree} (h : t.top.WellFormed) :
    ofMarks t.marks = .ok t := by
  have hreads : List.Forall₂ Reads t.marks t.ledger := by
    rw [marks_eq_ledger h, List.forall₂_map_left_iff, List.forall₂_same]
    exact fun e _ => ⟨TreePath.parse_text e.1, rfl⟩
  rw [ofMarks_eq_ok hreads (consistent_ledger h), segments_ledger h,
    Forest.markAll_marks h .empty (by simp [Forest.names]), Forest.append]

theorem Target.ofStored_stored {t : Target} (h : t.tree.top.WellFormed) :
    ofStored t.stored = .ok t := by
  rw [ofStored, stored, PathTree.ofMarks_marks_of_wellFormed h]

/-! ## Values that are written -/

/-- The fields under which a mark is stored. -/
def Mark.fields (m : Mark) : List (String × Value) :=
  [("location", .text m.location), ("state", .text m.decision.text)]

/-- The fields under which a target is stored. -/
def StoredTarget.fields (t : StoredTarget) : List (String × Value) :=
  [("source", .text t.source), ("root", .text t.root)] ++
    [("paths", .list ((t.marks.map Mark.fields).map .record))]

/-- The fields under which a registry is stored. -/
def Registry.fields (r : Registry) : List (String × Value) :=
  [("version", .text r.version)] ++
    [("targets", .list ((r.targets.map fun t => t.stored.fields).map .record))]

theorem StoredTarget.toValue_eq (t : StoredTarget) : t.toValue = .record t.fields := by
  rw [fields, List.map_map]
  rfl

theorem Registry.toValue_eq (r : Registry) : r.toValue = .record r.fields := by
  have htargets : r.targets.map Target.toValue =
      (r.targets.map fun t => t.stored.fields).map .record := by
    rw [List.map_map]
    exact List.map_congr_left fun t _ => t.stored.toValue_eq
  rw [toValue, htargets]
  rfl

theorem Mark.tabular_fields (m : Mark) : Toml.Tabular 1 m.fields := by
  have hbare : ∀ k ∈ ["location", "state"], Toml.IsBareKey k := by decide
  have hnodup : ["location", "state"].Nodup := by decide
  exact .ofLeaves (List.forall_mem_map.1 hbare) hnodup (by simp [fields, Toml.IsLeaf.text])

theorem StoredTarget.tabular_fields (t : StoredTarget) : Toml.Tabular 2 t.fields := by
  have hbare : ∀ k ∈ ["source", "root"], Toml.IsBareKey k := by decide
  have hnodup : ["source", "root", "paths"].Nodup := by decide
  exact .concat (List.forall_mem_map.1 hbare) (by decide) hnodup (by simp [Toml.IsLeaf.text])
    (List.forall_mem_map.2 fun m _ => m.tabular_fields)

theorem Registry.tabular_fields (r : Registry) : Toml.Tabular 3 r.fields := by
  have hbare : ∀ k ∈ ["version"], Toml.IsBareKey k := by decide
  have hnodup : ["version", "targets"].Nodup := by decide
  exact .concat (List.forall_mem_map.1 hbare) (by decide) hnodup (by simp [Toml.IsLeaf.text])
    (List.forall_mem_map.2 fun t _ => t.stored.tabular_fields)

/-- The text under which a registry is stored is read as the registry's value. -/
theorem Registry.read_toToml (r : Registry) : Toml.read r.toToml = some r.toValue := by
  obtain ⟨s, hpretty, hread⟩ := Toml.read_pretty r.tabular_fields (by decide)
  rw [toToml, toValue_eq, hpretty, Option.getD_some, hread]

/-! ## Values that are taken apart -/

theorem listOf?_map_eq_some {α β : Type} {f : Value → Option β} {g : α → Value} {h : α → β}
    (hf : ∀ a, f (g a) = some (h a)) (l : List α) :
    (Value.list (l.map g)).listOf? f = some (l.map h) := by
  have hfun : f ∘ g = fun a => pure (h a) := funext hf
  show (l.map g).mapM f = _
  rw [List.mapM_map, hfun]
  exact List.mapM_pure

theorem Mark.ofValue?_toValue (d : Dialect) (m : Mark) : ofValue? d m.toValue = some m := by
  have hfields : m.toValue.record? d ["location", "state"] = some m.fields := rfl
  have hstate : field? m.fields "state" (fun s => (s.alternative? d).bind Decision.ofText?) =
      some m.decision := Decision.ofText?_text m.decision
  rw [ofValue?, hfields]
  show (field? m.fields "state" _).bind _ = _
  rw [hstate]
  rfl

theorem StoredTarget.ofValue?_toValue (d : Dialect) (t : StoredTarget) :
    ofValue? d t.toValue = some t := by
  have hfields : t.toValue.record? d ["source", "root", "paths"] =
      some [("source", .text t.source), ("root", .text t.root),
        ("paths", .list (t.marks.map Mark.toValue))] := rfl
  have hmarks : (Value.list (t.marks.map Mark.toValue)).listOf? (Mark.ofValue? d) =
      some t.marks :=
    (listOf?_map_eq_some (Mark.ofValue?_toValue d) t.marks).trans (by rw [List.map_id'])
  rw [ofValue?, hfields]
  show ((Value.list (t.marks.map Mark.toValue)).listOf? (Mark.ofValue? d)).bind _ = _
  rw [hmarks]
  rfl

namespace Registry

theorem storedOfValue?_toValue (r : Registry) :
    storedOfValue? r.toValue = some (r.version, r.targets.map Target.stored) := by
  have hfields : r.toValue.record? Toml.dialect ["version", "targets"] =
      some [("version", .text r.version), ("targets", .list (r.targets.map Target.toValue))] := rfl
  have htargets : (Value.list (r.targets.map Target.toValue)).listOf?
      (StoredTarget.ofValue? Toml.dialect) = some (r.targets.map Target.stored) :=
    listOf?_map_eq_some (fun t : Target => t.stored.ofValue?_toValue Toml.dialect) r.targets
  rw [storedOfValue?, hfields]
  show ((Value.list (r.targets.map Target.toValue)).listOf?
    (StoredTarget.ofValue? Toml.dialect)).bind _ = _
  rw [htargets]
  rfl

theorem mapM_ofStored_stored {ts : List Target} (h : ∀ t ∈ ts, t.tree.top.WellFormed) :
    (ts.map Target.stored).mapM Target.ofStored = .ok ts := by
  induction ts with
  | nil => rfl
  | cons t ts ih =>
    obtain ⟨ht, hts⟩ := List.forall_mem_cons.1 h
    rw [List.map_cons, List.mapM_cons, Target.ofStored_stored ht, ih hts]
    rfl

theorem ofStored_stored {r : Registry} (hs : r.Sorted) (hw : r.WellFormed) :
    ofStored r.version (r.targets.map Target.stored) = .ok r := by
  have horder : r.targets.mergeSort inOrder = r.targets :=
    List.mergeSort_of_pairwise (hs.imp fun h => bne_iff_ne.2 h)
  rw [ofStored, mapM_ofStored_stored hw, Except.map, horder]

/-- A registry is read again from the text under which it is stored. -/
theorem ofToml_toToml {r : Registry} (hs : r.Sorted) (hw : r.WellFormed) :
    ofToml r.toToml = .ok r := by
  rw [ofToml, read_toToml, Option.bind_some, storedOfValue?_toValue]
  simp only [ofStored_stored hs hw]

/-- Whatever edits a registry begun empty or read from a text has been through, it is what is read
from the text under which it is stored: with the same version and the same targets in their order,
each with its source, its root and its tree. What was read once and is stored again has the same
bytes however often it is read and stored. -/
theorem stored_form_reads_back (edits : List Edit) :
    ofToml (after {} edits).toToml = .ok (after {} edits) ∧
      ∀ s r, ofToml s = .ok r →
        ofToml (r.after edits).toToml = .ok (r.after edits) ∧
          (ofToml r.toToml).map toToml = .ok r.toToml := by
  refine ⟨ofToml_toToml (sorted_empty.after edits) (wellFormed_empty.after edits), fun s r h => ?_⟩
  have hs := sorted_ofToml h
  have hw := wellFormed_ofToml h
  refine ⟨ofToml_toToml (hs.after edits) (hw.after edits), ?_⟩
  rw [ofToml_toToml hs hw]
  rfl

/-- A stored registry with a text over two lines and a mark. -/
def handWritten : String :=
  "version='2'\n[[targets]]\nroot='/m'\nsource=\"\"\"\na \\\"\nb\"\"\"\n" ++
    "[[targets.paths]]\nlocation='Music/Jazz/'\nstate='evicted'\n"

theorem stored_form_reads_back_sample :
    let tree : PathTree := ⟨.node "Music" .undecided (.node "Jazz" .evicted .empty .empty) .empty⟩
    let r : Registry := ⟨"2", [⟨"a \"\nb", "/m", tree⟩]⟩
    let edits : List Edit :=
      [.decide .included "/m/Photos", .setSource "/m/" "c\\d", .add "h:" "/n"]
    ofToml handWritten = .ok r ∧ ofToml (r.after edits).toToml = .ok (r.after edits) ∧
      (ofToml r.toToml).map toToml = .ok r.toToml := by
  intro tree r edits
  have hread : (Toml.read handWritten).bind storedOfValue? =
      some ("2", [⟨"a \"\nb", "/m", [⟨"Music/Jazz/", .evicted⟩]⟩]) := by cbv
  have hmarks : PathTree.ofMarks [⟨"Music/Jazz/", .evicted⟩] = .ok tree := by decide +kernel
  have hstored : ofStored "2" [⟨"a \"\nb", "/m", [⟨"Music/Jazz/", .evicted⟩]⟩] = .ok r := by
    rw [ofStored, List.mapM_cons, Target.ofStored, hmarks]
    simp [Except.map, r]
  have h : ofToml handWritten = .ok r := by
    rw [ofToml, hread]
    simp [hstored]
  obtain ⟨-, hloaded⟩ := stored_form_reads_back edits
  exact ⟨h, hloaded handWritten r h⟩

end Registry
end SelectiveSync
