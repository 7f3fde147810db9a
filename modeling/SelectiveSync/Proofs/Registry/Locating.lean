import SelectiveSync.Proofs.Path.Within
import SelectiveSync.Proofs.Registry.Invariant
import SelectiveSync.Transfer.Plan

/-! # Where paths are located

Roots that lie apart have no path in common, so that a path is located in one target at most.

* `covers_at_most_one`: no path is covered by two roots that lie apart.
* `locate_eq_none` and `locate_eq_some`: where a path is located and along which way, given roots
  that are absolute.
* `locate_exact`: what `locate` answers in a registry begun empty, and what a decision does there.
* `locate_append`: a path of names put behind a root is located there again, unless there is a
  backslash in it. -/
namespace SelectiveSync
set_option autoImplicit false

namespace Registry

/-! ## One root for a path -/

theorem covers_at_most_one {r : Registry} (h : r.Separate) (path : String) :
    (r.targets.filter (covers path)).length ≤ 1 := by
  have hpair := h.filter (covers path)
  cases hl : r.targets.filter (covers path) with
  | nil => simp
  | cons t rest =>
    cases rest with
    | nil => simp
    | cons u rest =>
      have hmem (v : Target) (hv : v ∈ r.targets.filter (covers path)) :
          (NormalPath.ofText path).within (NormalPath.ofText v.root) = true :=
        (List.mem_filter.1 hv).2
      rw [hl] at hpair hmem
      obtain ⟨htu, hut⟩ := (List.pairwise_cons.1 hpair).1 u (by simp)
      exfalso
      rcases NormalPath.within_or_within (hmem t (by simp)) (hmem u (by simp)) with hw | hw
      · rw [hw] at htu
        cases htu
      · rw [hw] at hut
        cases hut

theorem find?_covers {r : Registry} (h : r.Separate) {path : String} {t : Target}
    (ht : t ∈ r.targets) (hc : covers path t = true) : r.targets.find? (covers path) = some t := by
  have hmem : t ∈ r.targets.filter (covers path) := List.mem_filter.2 ⟨ht, hc⟩
  have hle := covers_at_most_one h path
  rw [← List.head?_filter]
  cases hl : r.targets.filter (covers path) with
  | nil => simp [hl] at hmem
  | cons u rest =>
    rw [hl, List.length_cons] at hle
    have hrest : rest = [] := List.length_eq_zero_iff.1 (by omega)
    rw [hl, hrest, List.mem_singleton] at hmem
    rw [hmem]
    rfl

/-- The order of the targets does not matter. -/
theorem locate_perm {r s : Registry} (h : r.Separate) (hp : s.targets.Perm r.targets)
    (path : String) : s.locate path = r.locate path := by
  have hfind : s.targets.find? (covers path) = r.targets.find? (covers path) := by
    cases hs : s.targets.find? (covers path) with
    | none =>
      refine (List.find?_eq_none.2 fun t ht => ?_).symm
      exact List.find?_eq_none.1 hs t (hp.mem_iff.2 ht)
    | some t =>
      have ht := hp.mem_iff.1 (List.mem_of_find?_eq_some hs)
      exact (find?_covers h ht (List.find?_some hs)).symm
  rw [locate, locate, hfind]

/-! ## The way from a root -/

theorem anchor_of_isAbsolute {root : String} (h : WrittenPath.isAbsolute root = true) :
    (NormalPath.ofText root).anchor ≠ .relative := by
  rw [WrittenPath.isAbsolute, Text.startsWith, beq_iff_eq] at h
  cases hl : root.toList with
  | nil => simp [hl] at h
  | cons c l =>
    rw [hl, List.head?_cons, Option.some.injEq] at h
    subst h
    have hswap : (Text.swap '\\' '/' root).toList =
        '/' :: l.map fun c => if c = '\\' then '/' else c := by
      rw [Text.swap, String.toList_ofList, hl]
      rfl
    rw [NormalPath.ofText, hswap]
    show Anchor.ofChars _ ≠ _
    unfold Anchor.ofChars
    split <;> simp_all

section
variable {root path : String} (ha : WrittenPath.isAbsolute root = true)
include ha

theorem relative_eq_none (hc : (NormalPath.ofText path).within (NormalPath.ofText root) = true) :
    relative root path = .ok none ↔ NormalPath.ofText path = NormalPath.ofText root := by
  have hempty := NormalPath.relativeTo?_eq_empty (NormalPath.canonical_ofText path)
    (NormalPath.canonical_ofText root) (anchor_of_isAbsolute ha)
  rw [← hempty, relative]
  rw [NormalPath.within, Option.isSome_iff_exists] at hc
  obtain ⟨rest, hrest⟩ := hc
  rw [hrest]
  by_cases hr : rest = ""
  · simp [hr]
  · simp only [hr, if_false]
    cases TreePath.parse rest <;> simp [hr]

theorem relative_eq_some {p : TreePath} :
    relative root path = .ok (some p) ↔ '\\' ∉ p.text.toList ∧
      (NormalPath.ofText root).join p.text = NormalPath.ofText path := by
  have htext := NormalPath.relativeTo?_eq_text (q := p) (NormalPath.canonical_ofText path)
    (NormalPath.canonical_ofText root) (anchor_of_isAbsolute ha)
  rw [← htext, relative]
  cases hrest : (NormalPath.ofText path).relativeTo? (NormalPath.ofText root) with
  | none => simp
  | some rest =>
    by_cases hr : rest = ""
    · simp [hr, Ne.symm p.text_ne_empty]
    · simp only [hr, if_false]
      cases hq : TreePath.parse rest with
      | error fault =>
        refine iff_of_false (by simp) fun hp => ?_
        rw [Option.some.inj hp, TreePath.parse_text] at hq
        cases hq
      | ok q =>
        rw [NormalPath.eq_text_of_parse (NormalPath.canonical_ofText path) hrest hq]
        simp [TreePath.text_inj]

end

/-! ## What is located -/

section
variable {r : Registry} {path : String} {t : Target}

theorem locate_of_mem (h : r.Separate) (ht : t ∈ r.targets) (hc : covers path t = true) :
    r.locate path = (relative t.root path).map (t, ·) := by
  rw [locate, find?_covers h ht hc]

theorem relative_ne_unknown {root q : String} :
    relative root path ≠ .error (.unknownTarget q) := by
  rw [relative]
  split
  · simp
  · split
    · simp
    · split <;> simp

theorem locate_eq_unknown {q : String} :
    r.locate path = .error (.unknownTarget q) ↔
      q = path ∧ ∀ t ∈ r.targets, covers path t = false := by
  rw [locate]
  split
  · next hf =>
    have hnone : ∀ t ∈ r.targets, covers path t = false := fun t ht => by
      simpa using List.find?_eq_none.1 hf t ht
    rw [Except.error.injEq, Error.unknownTarget.injEq, eq_comm]
    exact ⟨fun hq => ⟨hq, hnone⟩, fun hq => hq.1⟩
  · next u hf =>
    constructor
    · intro h
      cases hrel : relative u.root path with
      | ok rel =>
        rw [hrel] at h
        cases h
      | error e =>
        rw [hrel] at h
        cases h
        exact absurd hrel relative_ne_unknown
    · rintro ⟨-, hall⟩
      have hc := List.find?_some hf
      rw [hall u (List.mem_of_find?_eq_some hf)] at hc
      cases hc

variable (h : r.Separate) (ha : ∀ u ∈ r.targets, WrittenPath.isAbsolute u.root = true)
include h ha

theorem locate_eq_none :
    r.locate path = .ok (t, none) ↔
      t ∈ r.targets ∧ NormalPath.ofText path = NormalPath.ofText t.root := by
  constructor
  · intro hl
    obtain ⟨hf, hrel⟩ := find?_of_locate hl
    have ht := List.mem_of_find?_eq_some hf
    have hc : covers path t = true := List.find?_some hf
    exact ⟨ht, (relative_eq_none (ha t ht) hc).1 hrel⟩
  · rintro ⟨ht, heq⟩
    have hc : covers path t = true := by
      rw [covers, heq]
      exact NormalPath.within_self _
    rw [locate_of_mem h ht hc, (relative_eq_none (ha t ht) hc).2 heq]
    rfl

theorem locate_eq_some {p : TreePath} :
    r.locate path = .ok (t, some p) ↔ t ∈ r.targets ∧ '\\' ∉ p.text.toList ∧
      (NormalPath.ofText t.root).join p.text = NormalPath.ofText path := by
  constructor
  · intro hl
    obtain ⟨hf, hrel⟩ := find?_of_locate hl
    have ht := List.mem_of_find?_eq_some hf
    exact ⟨ht, (relative_eq_some (ha t ht)).1 hrel⟩
  · rintro ⟨ht, hjoin⟩
    have hway := (NormalPath.relativeTo?_eq_text (NormalPath.canonical_ofText path)
      (NormalPath.canonical_ofText t.root) (anchor_of_isAbsolute (ha t ht))).2 hjoin
    have hc : covers path t = true := by
      rw [covers, NormalPath.within, hway]
      rfl
    rw [locate_of_mem h ht hc, (relative_eq_some (ha t ht)).2 hjoin]
    rfl

end

/-- What `locate` answers on a path, and what a decision on the path does. -/
structure LocatesExactly (r : Registry) (path : String) : Prop where
  /-- No two roots cover the path. -/
  unique : (r.targets.filter (covers path)).length ≤ 1
  order : ∀ s : Registry, s.targets.Perm r.targets → s.locate path = r.locate path
  unknown : ∀ q, r.locate path = .error (.unknownTarget q) ↔
    q = path ∧ ∀ t ∈ r.targets, covers path t = false
  root : ∀ t, r.locate path = .ok (t, none) ↔
    t ∈ r.targets ∧ NormalPath.ofText path = NormalPath.ofText t.root
  /-- The way from the root is the one path of names that leads to the path. -/
  inside : ∀ t p, r.locate path = .ok (t, some p) ↔ t ∈ r.targets ∧ '\\' ∉ p.text.toList ∧
    (NormalPath.ofText t.root).join p.text = NormalPath.ofText path
  /-- A decision is made at that way in the tree of that target, and all else stays. -/
  decide : ∀ t p, r.locate path = .ok (t, some p) →
    ∃ left right, r.targets = left ++ t :: right ∧ ∀ d, r.decide d path =
      (t.tree.decide d p).map fun tree =>
        (p, { r with targets := left ++ { t with tree } :: right })
  /-- No decision is made on the root itself or where nothing is located. -/
  refuse : ∀ d, (∀ t, r.locate path = .ok (t, none) → r.decide d path = .error (.targetRoot path)) ∧
    ∀ e, r.locate path = .error e → r.decide d path = .error e

/-- What is said of the roots that edits add holds of all roots after the edits. -/
theorem root_after {P : String → Prop} {edits : List Edit}
    (h : ∀ source root, Edit.add source root ∈ edits → P root) :
    ∀ t ∈ (after {} edits).targets, P t.root :=
  after_induction (P := fun r => ∀ t ∈ r.targets, P t.root) (by simp) fun e he r s hr hs =>
    forall_makes (P := fun t => P t.root) hs hr (fun source root heq => h source root (heq ▸ he))
      (fun _ _ ht => ht) fun _ _ _ _ ht _ => ht

/-- In a registry begun empty to which absolute roots only were added, a path is located in the one
target whose root covers it, along the one way that leads to it, and a decision on the path is made
there and nowhere else. -/
theorem locate_exact (edits : List Edit)
    (h : ∀ source root, Edit.add source root ∈ edits → WrittenPath.isAbsolute root = true)
    (path : String) : (after {} edits).LocatesExactly path := by
  have hs : (after {} edits).Separate := separate_empty.after edits
  have ha := root_after h
  exact {
    unique := covers_at_most_one hs path
    order := fun s hp => locate_perm hs hp path
    unknown := fun q => locate_eq_unknown
    root := fun t => locate_eq_none hs ha
    inside := fun t p => locate_eq_some hs ha
    decide := fun t p => decide_of_locate
    refuse := fun d => ⟨fun t ht => by rw [decide, editAt, ht],
      fun e he => by rw [decide, editAt, he]⟩ }

theorem locate_exact_sample :
    let edits : List Edit := [.add "h:/m/" "/srv/../data//m/", .add "h:/x/" "/data/m/x",
      .decide .included "/data/m/a/b"]
    (∀ source root, Edit.add source root ∈ edits → WrittenPath.isAbsolute root = true) ∧
      (after {} edits).LocatesExactly "/data/m/./a/" := by
  intro edits
  have h : ∀ source root, Edit.add source root ∈ edits → WrittenPath.isAbsolute root = true := by
    intro source root hmem
    simp only [edits, List.mem_cons, Edit.add.injEq, reduceCtorEq, List.not_mem_nil,
      or_false] at hmem
    rcases hmem with ⟨-, rfl⟩ | ⟨-, rfl⟩ <;> decide
  exact ⟨h, locate_exact edits h "/data/m/./a/"⟩

/-! ## Back from a root and a way -/

/-- A path of names put behind a root that is written in normal form. -/
theorem append_eq_stem {root : String} (ha : WrittenPath.isAbsolute root = true)
    (hn : (NormalPath.ofText root).text = root) (p : TreePath) :
    WrittenPath.append root p.text = (NormalPath.ofText root).stem ++ p.text := by
  have hroot : root ≠ "" := by
    rintro rfl
    cases ha
  rw [WrittenPath.append, WrittenPath.isAbsolute, p.startsWith_text, NormalPath.stem, hn]
  by_cases hends : Text.endsWith '/' root = true
  · simp [hends]
  · simp [hends, hroot]

theorem join_eq_append {root : String} (ha : WrittenPath.isAbsolute root = true)
    (hn : (NormalPath.ofText root).text = root) (p : TreePath) :
    (NormalPath.ofText root).join p.text = NormalPath.ofText (WrittenPath.append root p.text) := by
  rw [NormalPath.join_eq (NormalPath.canonical_ofText root) fun _ => anchor_of_isAbsolute ha,
    append_eq_stem ha hn]

/-- In a registry begun empty to which only absolute roots in normal form were added, a path of
names put behind a root is located in that target and along that path, just when there is no
backslash in it. A decision on it is then the one made in the target itself, at the path where a
summon puts what it fetches. -/
theorem locate_append (edits : List Edit)
    (h : ∀ source root, Edit.add source root ∈ edits →
      WrittenPath.isAbsolute root = true ∧ (NormalPath.ofText root).text = root)
    (t : Target) (ht : t ∈ (after {} edits).targets) (p : TreePath) :
    ((after {} edits).locate (WrittenPath.append t.root p.text) = .ok (t, some p) ↔
        '\\' ∉ p.text.toList) ∧
      ('\\' ∉ p.text.toList → ∃ left right, (after {} edits).targets = left ++ t :: right ∧
        ∀ d, (after {} edits).decide d (WrittenPath.append t.root p.text) =
          (t.edit (PathTree.decide d · p)).map fun u =>
            (p, { after {} edits with targets := left ++ u :: right })) ∧
      ∀ settings options rootIsDir,
        (TransferPlan.of settings t (.summon p) options rootIsDir).map TransferPlan.destination =
          .ok (WrittenPath.append t.root p.text ++ "/") := by
  have hs : (after {} edits).Separate := separate_empty.after edits
  have hroots := root_after h
  have hlocate : (after {} edits).locate (WrittenPath.append t.root p.text) = .ok (t, some p) ↔
      '\\' ∉ p.text.toList := by
    rw [locate_eq_some hs fun u hu => (hroots u hu).1,
      join_eq_append (hroots t ht).1 (hroots t ht).2]
    simp [ht]
  refine ⟨hlocate, fun hb => ?_, fun _ _ _ => rfl⟩
  obtain ⟨left, right, hts, hdecide⟩ := decide_of_locate (hlocate.2 hb)
  refine ⟨left, right, hts, fun d => ?_⟩
  rw [hdecide, Target.edit]
  cases t.tree.decide d p <;> rfl

theorem locate_append_sample :
    let edits : List Edit := [.add "h:/m/" "/data"]
    let t : Target := ⟨"h:/m/", "/data", {}⟩
    (∀ source root, Edit.add source root ∈ edits →
        WrittenPath.isAbsolute root = true ∧ (NormalPath.ofText root).text = root) ∧
      t ∈ (after {} edits).targets ∧ '\\' ∉ Sample.jazz.text.toList ∧
      WrittenPath.append t.root Sample.jazz.text = "/data/Music/Jazz" ∧
      (after {} edits).locate (WrittenPath.append t.root Sample.jazz.text) =
        .ok (t, some Sample.jazz) := by
  intro edits t
  have h : ∀ source root, Edit.add source root ∈ edits →
      WrittenPath.isAbsolute root = true ∧ (NormalPath.ofText root).text = root := by
    intro source root hmem
    simp only [edits, List.mem_singleton, Edit.add.injEq] at hmem
    obtain ⟨-, rfl⟩ := hmem
    decide
  have ht : t ∈ (after {} edits).targets := by decide
  have hb : '\\' ∉ Sample.jazz.text.toList := by decide
  exact ⟨h, ht, hb, by decide, (locate_append edits h t ht Sample.jazz).1.2 hb⟩

/-- A name with a backslash in it, put behind a root, is located as two names. -/
theorem backslash_leads_inside :
    let p : TreePath := ⟨["a\\b"], by simp, by decide⟩
    let q : TreePath := ⟨["a", "b"], by simp, by decide⟩
    let t : Target := ⟨"h:/m/", "/data", {}⟩
    let r := after {} [.add "h:/m/" "/data"]
    TreePath.parse "a\\b" = .ok p ∧ (NormalPath.ofText "/data").text = "/data" ∧ t ∈ r.targets ∧
      r.locate (WrittenPath.append t.root p.text) = .ok (t, some q) ∧
      r.locate (WrittenPath.append t.root p.text) ≠ .ok (t, some p) := by
  intro p q t r
  have hs : r.Separate := separate_empty.after _
  have ha : ∀ u ∈ r.targets, WrittenPath.isAbsolute u.root = true := by decide
  have hlocate : r.locate (WrittenPath.append t.root p.text) = .ok (t, some q) :=
    (locate_eq_some hs ha).2 (by decide)
  refine ⟨p.parse_text, by decide, by decide, hlocate, ?_⟩
  rw [hlocate]
  decide

end Registry
end SelectiveSync
