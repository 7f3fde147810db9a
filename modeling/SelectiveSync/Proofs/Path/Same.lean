import SelectiveSync.Proofs.Path.Normal
import SelectiveSync.Proofs.Path.Order
import SelectiveSync.Proofs.Storage.Names

/-! # Written paths that are the same

Two written paths are the same when they have the same parts. What they are reduced to is then told
by these parts alone, but for one thing that no part shows: whether the path begins with one slash or
with two.

* `parts_append_text`: the parts of a path with names put behind it.
* `names_ofText`: the names of a normalized path, read from the parts of the written one.
* `relative_ofText_iff`: whether it is relative, read from its first part.
* `ofText_eq_or_twins`: paths that are the same are reduced to one normalized path or to `Twins`. -/
namespace SelectiveSync
set_option autoImplicit false

namespace WrittenPath

theorem same_iff {a b : String} : same a b = true ↔ parts a = parts b :=
  beq_iff_eq

theorem same_self (a : String) : same a a = true :=
  same_iff.2 rfl

theorem eq_of_orderPart {a b : Part} (h : a.order b = .eq) : a = b := by
  rw [Part.order_eq, compareLex_eq_eq] at h
  have hrank : a.rank = b.rank := compare_eq_iff_eq.1 h.1
  have hname : a.nameOrEmpty = b.nameOrEmpty := compare_eq_iff_eq.1 h.2
  cases a <;> cases b <;> simp_all [Part.rank, Part.nameOrEmpty]

/-- The order tells two paths apart just when they are not the same. -/
theorem order_eq_eq_iff {a b : String} : order a b = .eq ↔ same a b = true := by
  rw [same_iff, order_eq_compareLex]
  constructor
  · intro h
    generalize parts a = as at h ⊢
    generalize parts b = bs at h ⊢
    induction as generalizing bs with
    | nil =>
      cases bs with
      | nil => rfl
      | cons b bs => cases h
    | cons a as ih =>
      cases bs with
      | nil => cases h
      | cons b bs =>
        rw [List.compareLex_cons_cons, Ordering.then_eq_eq] at h
        rw [eq_of_orderPart h.1, ih bs h.2]
  · intro h
    rw [h]
    exact Std.ReflCmp.compare_self

/-! ## Parts between slashes -/

/-- The parts of a path behind its head, read from all that stands between its slashes. -/
theorem filterMap_pieces (path : String) :
    (Text.pieces '/' path).filterMap Part.ofPiece? =
      (stretches path).filterMap Part.ofPiece? := by
  by_cases habs : isAbsolute path = true
  · obtain ⟨rest, hrest⟩ := Text.startsWith_slash_iff.1 habs
    rw [hrest, stretches_slash, Text.pieces_slash]
    rfl
  by_cases hhere : startsHere path = true
  · rw [stretches, head, if_neg habs, if_pos hhere]
    rw [startsHere] at hhere
    split at hhere
    · next hone =>
      have hpath : path = "." := String.toList_inj.1 hone
      rw [hpath]
      rfl
    · next rest hmore =>
      have hpath : path = "." ++ String.singleton '/' ++ String.ofList rest :=
        String.toList_inj.1 (by simp [hmore])
      have hdrop : String.ofList (path.toList.drop ".".length) = "/" ++ String.ofList rest :=
        String.toList_inj.1 (by simp [hmore, show ".".length = 1 from rfl])
      rw [hdrop, Text.pieces_slash, hpath, Text.pieces_append]
      rfl
    · cases hhere
  · rw [stretches, head, if_neg habs, if_neg hhere]
    exact congrArg _ (congrArg _ String.ofList_toList.symm)

/-! ## Names behind a path -/

theorem parts_eq_pieces (path : String) :
    parts path = headParts path ++ (Text.pieces '/' path).filterMap Part.ofPiece? := by
  rw [filterMap_pieces, parts]

theorem filterMap_names {names : List String} (h : ∀ n ∈ names, IsName n) :
    names.filterMap Part.ofPiece? = names.map Part.name := by
  rw [← List.filterMap_eq_map]
  refine List.filterMap_congr fun n hn => ?_
  obtain ⟨hempty, -, -, hdot, hup⟩ := (isName_iff n).1 (h n hn)
  simp [Part.ofPiece?, hempty, hdot, hup]

theorem parts_text (p : TreePath) : parts p.text = p.segments.map Part.name := by
  have hhere : startsHere p.text = false := by
    refine Bool.eq_false_iff.2 fun h => ?_
    have hhead := head?_pieces_of_startsHere h
    rw [p.pieces_text] at hhead
    exact ((isName_iff ".").1 (p.names "." (List.mem_of_mem_head? hhead))).2.2.2.1 rfl
  rw [parts_eq_pieces, headParts, show isAbsolute p.text = false from p.startsWith_text, hhere,
    p.pieces_text, filterMap_names p.names]
  rfl

end WrittenPath

namespace NormalPath

open WrittenPath (Part)

/-! ## Names -/

/-- The names after a part of a written path was read. -/
def readPart (names : List String) : Part → List String
  | .root | .here => names
  | .up => resolve names [".."]
  | .name n => resolve names (parts n)

theorem resolve_parts_joined (names : List String) {ps : List String} (hne : ps ≠ []) :
    resolve names (parts (Text.joined '/' ps)) =
      ps.foldl (fun names p => resolve names (parts p)) names := by
  induction ps generalizing names with
  | nil => exact absurd rfl hne
  | cons p ps ih =>
    cases ps with
    | nil => rw [Text.joined, String.intercalate_singleton, List.foldl_cons, List.foldl_nil]
    | cons q ps =>
      have hparts : parts (Text.joined '/' (p :: q :: ps)) =
          parts p ++ parts (Text.joined '/' (q :: ps)) := by
        rw [Text.joined, String.intercalate_cons_cons, parts, Text.swap_append, Text.swap_append]
        exact Text.pieces_append '/' _ _
      rw [hparts, resolve_append, List.foldl_cons]
      exact ih _ (by simp)

/-- A piece that is no part leaves the names as they are, and any other is read as its part. -/
theorem foldl_pieces (names ps : List String) :
    ps.foldl (fun names p => resolve names (parts p)) names =
      (ps.filterMap Part.ofPiece?).foldl readPart names := by
  induction ps generalizing names with
  | nil => rfl
  | cons p ps ih =>
    rw [List.foldl_cons, ih]
    by_cases hvoid : p = "" ∨ p = "."
    · have hnone : Part.ofPiece? p = none := by
        rw [Part.ofPiece?, if_pos hvoid]
      have hkeep : resolve names (parts p) = names := by
        rcases hvoid with rfl | rfl <;> rfl
      rw [List.filterMap_cons_none hnone, hkeep]
    by_cases hup : p = ".."
    · subst hup
      rfl
    · have hname : Part.ofPiece? p = some (.name p) := by
        rw [Part.ofPiece?, if_neg hvoid, if_neg hup]
      rw [List.filterMap_cons_some hname, List.foldl_cons]
      rfl

/-- The names of a normalized path are read from the parts of the written one. -/
theorem names_ofText (s : String) : (ofText s).names = (WrittenPath.parts s).foldl readPart [] := by
  have hhead : (WrittenPath.headParts s).foldl readPart [] = [] := by
    rw [WrittenPath.headParts]
    split
    · rfl
    · split <;> rfl
  calc
    (ofText s).names = resolve [] (parts (Text.joined '/' (Text.pieces '/' s))) := by
      rw [Text.joined_pieces, ofText]
    _ = ((Text.pieces '/' s).filterMap Part.ofPiece?).foldl readPart [] := by
      rw [resolve_parts_joined [] (Text.pieces_ne_nil '/' s), foldl_pieces]
    _ = (WrittenPath.parts s).foldl readPart [] := by
      rw [WrittenPath.filterMap_pieces, WrittenPath.parts, List.foldl_append, hhead]

/-! ## Where a path starts -/

/-- A part with which a path starts at the root: the root, or a name that begins with a backslash. -/
def Rooted : Option Part → Prop
  | some .root => True
  | some (.name n) => n.toList.head? = some '\\'
  | _ => False

theorem relative_ofChars_iff (l : List Char) :
    Anchor.ofChars l = .relative ↔ l.head? ≠ some '/' := by
  unfold Anchor.ofChars
  split
  · simp
  · simp
  · simp
  · next hnone =>
    refine iff_of_true rfl fun hhead => ?_
    obtain ⟨l', hl'⟩ := List.head?_eq_some_iff.1 hhead
    exact hnone l' hl'

/-- A path that begins with no slash and with no lone dot has its first piece as its first part. -/
theorem head?_parts {s : String} (habs : WrittenPath.isAbsolute s = false)
    (hhere : WrittenPath.startsHere s = false) :
    s = "" ∧ WrittenPath.parts s = [] ∨
      s.toList.head? = some '.' ∧ (WrittenPath.parts s).head? = some .up ∨
      ∃ n, (WrittenPath.parts s).head? = some (.name n) ∧ s.toList.head? = n.toList.head? := by
  have hparts : WrittenPath.parts s = (Text.pieces '/' s).filterMap Part.ofPiece? := by
    rw [WrittenPath.filterMap_pieces, WrittenPath.parts, WrittenPath.headParts, habs, hhere,
      if_neg Bool.false_ne_true, if_neg Bool.false_ne_true, List.nil_append]
  obtain ⟨p, ps, hpieces⟩ := List.exists_cons_of_ne_nil (Text.pieces_ne_nil '/' s)
  have hs : s = Text.joined '/' (p :: ps) := by
    rw [← hpieces, Text.joined_pieces]
  rw [hparts, hpieces]
  by_cases hempty : p = ""
  · subst hempty
    cases ps with
    | nil => exact Or.inl ⟨hs, rfl⟩
    | cons q ps =>
      rw [Text.joined, String.intercalate_cons_cons] at hs
      rw [hs, WrittenPath.isAbsolute, Text.startsWith] at habs
      simp at habs
  by_cases hdot : p = "."
  · subst hdot
    cases ps with
    | nil =>
      rw [Text.joined, String.intercalate_singleton] at hs
      rw [hs] at hhere
      cases hhere
    | cons q ps =>
      rw [Text.joined, String.intercalate_cons_cons] at hs
      rw [hs, WrittenPath.startsHere] at hhere
      simp at hhere
  obtain ⟨rest, hrest⟩ := Text.joined_cons '/' p ps
  have hhead : s.toList.head? = p.toList.head? := by
    rw [hs, hrest, String.toList_append]
    exact List.head?_append_of_ne_nil _ fun hnil => hempty (String.toList_eq_nil_iff.1 hnil)
  by_cases hup : p = ".."
  · subst hup
    exact Or.inr (Or.inl ⟨hhead, rfl⟩)
  · have hname : Part.ofPiece? p = some (.name p) := by
      rw [Part.ofPiece?, if_neg (not_or.2 ⟨hempty, hdot⟩), if_neg hup]
    rw [List.filterMap_cons_some hname]
    exact Or.inr (Or.inr ⟨p, rfl, hhead⟩)

/-- Whether a path is relative is read from its first part. -/
theorem relative_ofText_iff (s : String) :
    (ofText s).anchor = .relative ↔ ¬ Rooted (WrittenPath.parts s).head? := by
  have hchars : (ofText s).anchor = .relative ↔
      s.toList.head? ≠ some '/' ∧ s.toList.head? ≠ some '\\' := by
    rw [ofText, relative_ofChars_iff, Text.swap, String.toList_ofList, List.head?_map]
    cases s.toList.head? with
    | none => simp
    | some c => by_cases hc : c = '\\' <;> simp [hc]
  rw [hchars]
  cases habs : WrittenPath.isAbsolute s with
  | true =>
    have hroot : (WrittenPath.parts s).head? = some .root := by
      rw [WrittenPath.parts, WrittenPath.headParts, habs]
      rfl
    rw [WrittenPath.isAbsolute, Text.startsWith, beq_iff_eq] at habs
    rw [hroot, habs]
    exact iff_of_false (fun h => h.1 rfl) fun h => h trivial
  | false =>
    have hslash : s.toList.head? ≠ some '/' := by
      rwa [WrittenPath.isAbsolute, Text.startsWith, beq_eq_false_iff_ne] at habs
    cases hhere : WrittenPath.startsHere s with
    | true =>
      have hdot : (WrittenPath.parts s).head? = some .here := by
        rw [WrittenPath.parts, WrittenPath.headParts, habs, hhere]
        rfl
      have hchar : s.toList.head? = some '.' := by
        rw [WrittenPath.startsHere] at hhere
        split at hhere
        · next h => rw [h]; rfl
        · next h => rw [h]; rfl
        · cases hhere
      rw [hdot, hchar]
      exact iff_of_true (by decide) id
    | false =>
      rcases head?_parts habs hhere with ⟨rfl, hnil⟩ | ⟨hchar, hup⟩ | ⟨n, hn, hchar⟩
      · rw [hnil]
        exact iff_of_true (by decide) id
      · rw [hup, hchar]
        exact iff_of_true (by decide) id
      · rw [hn, Rooted, ← hchar]
        exact and_iff_right hslash

/-! ## Twins -/

/-- Two paths that differ only in that one of them names a network share. -/
structure Twins (p q : NormalPath) : Prop where
  names : p.names = q.names
  anchors : p.anchor = .absolute ∧ q.anchor = .network ∨ p.anchor = .network ∧ q.anchor = .absolute

/-- Written paths that are the same are reduced to one normalized path or to twins. -/
theorem ofText_eq_or_twins {a b : String} (h : WrittenPath.same a b = true) :
    ofText a = ofText b ∨ (ofText a).Twins (ofText b) := by
  rw [WrittenPath.same_iff] at h
  have hnames : (ofText a).names = (ofText b).names := by
    rw [names_ofText, names_ofText, h]
  have hrelative : (ofText a).anchor = .relative ↔ (ofText b).anchor = .relative := by
    rw [relative_ofText_iff, relative_ofText_iff, h]
  by_cases heq : (ofText a).anchor = (ofText b).anchor
  · have hsame (p q : NormalPath) (hn : p.names = q.names) (ha : p.anchor = q.anchor) : p = q := by
      cases p
      cases q
      cases hn
      cases ha
      rfl
    exact Or.inl (hsame _ _ hnames heq)
  · refine Or.inr ⟨hnames, ?_⟩
    generalize (ofText a).anchor = x at *
    generalize (ofText b).anchor = y at *
    cases x <;> cases y <;> simp_all

end NormalPath
end SelectiveSync
