import SelectiveSync.Proofs.Tree.Rebuilding

/-! # Which stored decisions are taken in

Stored decisions are taken in one by one, each checked against the tree made of those before it.
Together the checks come to a condition on the list that does not mention its order.

* `Mark.Consistent`: all locations are paths, no two the same one, each is included or evicted, and
  nothing is listed beneath an inclusion.
* `perm_foldlM_addMark`: a run that succeeds puts what it was given on the ledger of the tree, and
  nothing else.
* `ofMarks_iff_consistent`: consistent lists are taken in whole and all others refused. -/
namespace SelectiveSync
set_option autoImplicit false

namespace Mark

/-- Stored decisions that do not contradict each other. -/
structure Consistent (ms : List Mark) : Prop where
  parses : ∀ m ∈ ms, ∃ p, TreePath.parse m.location = .ok p
  decided : ∀ m ∈ ms, m.decision ≠ .undecided
  distinct : (ms.map fun m => TreePath.parse m.location).Nodup
  beneath : ∀ m ∈ ms, ∀ m' ∈ ms, ∀ p q, m.decision = .included →
    TreePath.parse m.location = .ok p → TreePath.parse m'.location = .ok q → ¬ p.IsAncestorOf q

theorem Consistent.perm {ms ms' : List Mark} (h : Consistent ms) (hp : ms.Perm ms') :
    Consistent ms' where
  parses := fun m hm => h.parses m (hp.mem_iff.2 hm)
  decided := fun m hm => h.decided m (hp.mem_iff.2 hm)
  distinct := (hp.map _).nodup_iff.1 h.distinct
  beneath := fun m hm m' hm' => h.beneath m (hp.mem_iff.2 hm) m' (hp.mem_iff.2 hm')

/-- The decision with its location written as paths are, without a slash at the end. -/
def plain (m : Mark) : Mark :=
  ⟨TreePath.withoutTrailingSlash m.location, m.decision⟩

end Mark

namespace PathTree
open Mark

/-! ## Stored decisions and the entries they read as -/

theorem Reads.plain_eq {m : Mark} {e : TreePath × Decision} (h : Reads m e) :
    m.plain = ⟨e.1.text, e.2⟩ := by
  rw [plain, TreePath.text_of_parse h.1, h.2]

theorem exists_reads {ms : List Mark} (h : ∀ m ∈ ms, ∃ p, TreePath.parse m.location = .ok p) :
    ∃ M : Ledger, List.Forall₂ Reads ms M := by
  induction ms with
  | nil => exact ⟨[], .nil⟩
  | cons m ms ih =>
    obtain ⟨p, hp⟩ := h m (by simp)
    obtain ⟨M, hM⟩ := ih fun m' hm' => h m' (List.mem_cons_of_mem m hm')
    exact ⟨(p, m.decision) :: M, .cons ⟨hp, rfl⟩ hM⟩

section
variable {ms : List Mark} {M : Ledger}

theorem mem_iff_of_reads (h : List.Forall₂ Reads ms M) (p : TreePath) (d : Decision) :
    (p, d) ∈ M ↔ ∃ m ∈ ms, TreePath.parse m.location = .ok p ∧ m.decision = d := by
  induction h with
  | nil => simp
  | @cons m e ms M hm _ ih =>
    have hown : (p, d) = e ↔ TreePath.parse m.location = .ok p ∧ m.decision = d := by
      rw [hm.1, hm.2, Except.ok.injEq, Prod.ext_iff]
      exact and_congr eq_comm eq_comm
    simp only [List.mem_cons, exists_eq_or_imp, ih, hown]

theorem map_plain_of_reads (h : List.Forall₂ Reads ms M) :
    ms.map plain = M.map fun e => ⟨e.1.text, e.2⟩ := by
  induction h with
  | nil => rfl
  | cons hm _ ih => rw [List.map_cons, List.map_cons, hm.plain_eq, ih]

theorem map_parse_of_reads (h : List.Forall₂ Reads ms M) :
    (ms.map fun m => TreePath.parse m.location) = (M.map (·.1)).map .ok := by
  induction h with
  | nil => rfl
  | cons hm _ ih => rw [List.map_cons, List.map_cons, List.map_cons, hm.1, ih]

/-- Whether stored decisions contradict each other can be seen on the entries they read as. -/
theorem consistent_iff_of_reads (h : List.Forall₂ Reads ms M) :
    Consistent ms ↔ M.Consistent := by
  have hmem := mem_iff_of_reads h
  have hdistinct : (ms.map fun m => TreePath.parse m.location).Nodup ↔ (M.map (·.1)).Nodup := by
    rw [map_parse_of_reads h]
    exact List.nodup_map_iff fun _ _ => Except.ok.inj
  constructor
  · intro hc
    refine ⟨⟨hdistinct.1 hc.distinct, ?_⟩, ?_⟩
    · rintro ⟨p, d⟩ he
      obtain ⟨m, hm, -, rfl⟩ := (hmem p d).1 he
      exact hc.decided m hm
    · rintro ⟨p, d⟩ he rfl ⟨q, c⟩ he'
      obtain ⟨m, hm, hp, hd⟩ := (hmem p _).1 he
      obtain ⟨m', hm', hq, -⟩ := (hmem q c).1 he'
      exact hc.beneath m hm m' hm' p q hd hp hq
  · intro hc
    have hparses : ∀ m ∈ ms, ∃ p, TreePath.parse m.location = .ok p := by
      intro m hm
      have hp : TreePath.parse m.location ∈ ms.map fun m => TreePath.parse m.location :=
        List.mem_map_of_mem hm
      rw [map_parse_of_reads h] at hp
      obtain ⟨p, -, hp⟩ := List.mem_map.1 hp
      exact ⟨p, hp.symm⟩
    refine ⟨hparses, fun m hm => ?_, hdistinct.2 hc.nodup, ?_⟩
    · obtain ⟨p, hp⟩ := hparses m hm
      exact hc.decided _ ((hmem p m.decision).2 ⟨m, hm, hp, rfl⟩)
    · intro m hm m' hm' p q hd hp hq
      exact hc.beneath _ ((hmem p .included).2 ⟨m, hm, hp, hd⟩) rfl _
        ((hmem q m'.decision).2 ⟨m', hm', hq, rfl⟩)

end

/-! ## Runs -/

/-- What a run that succeeds has taken in is what it was given. -/
theorem perm_foldlM_addMark {ms : List Mark} {t u : PathTree} (ht : t.top.WellFormed)
    (h : ms.foldlM addMark t = .ok u) :
    ∃ M : Ledger, List.Forall₂ Reads ms M ∧ u.ledger.Perm (t.ledger ++ M) := by
  induction ms generalizing t with
  | nil =>
    cases h
    exact ⟨[], .nil, by rw [List.append_nil]⟩
  | cons m rest ih =>
    obtain ⟨v, hv, hrest⟩ := foldlM_addMark_cons.1 h
    have hwell := wellFormed_addMark ht hv
    obtain ⟨p, hp, hd, -, hfree, -, rfl⟩ := addMark_eq_ok.1 hv
    obtain ⟨M, hM, hperm⟩ := ih hwell hrest
    have hstep := perm_mark ht hwell hd hfree rfl
    refine ⟨(p, m.decision) :: M, .cons ⟨hp, rfl⟩ hM, hperm.trans ?_⟩
    exact (hstep.append_right M).trans List.perm_middle.symm

theorem perm_ofMarks {ms : List Mark} {t : PathTree} (h : ofMarks ms = .ok t) :
    t.top.WellFormed ∧ ∃ M : Ledger, List.Forall₂ Reads ms M ∧ t.ledger.Perm M := by
  have ht : t.top.WellFormed := wellFormed_foldlM (t := {}) trivial h
  exact ⟨ht, perm_foldlM_addMark (t := {}) trivial h⟩

theorem consistent_of_ofMarks {ms : List Mark} {t : PathTree} (h : ofMarks ms = .ok t) :
    Consistent ms := by
  obtain ⟨ht, M, hM, hperm⟩ := perm_ofMarks h
  exact (consistent_iff_of_reads hM).2 ((consistent_ledger ht).perm hperm)

theorem exists_ofMarks_iff (ms : List Mark) : (∃ t, ofMarks ms = .ok t) ↔ Consistent ms := by
  constructor
  · rintro ⟨t, ht⟩
    exact consistent_of_ofMarks ht
  · intro h
    obtain ⟨M, hM⟩ := exists_reads h.parses
    exact ⟨_, ofMarks_eq_ok hM ((consistent_iff_of_reads hM).1 h)⟩

/-- A list of stored decisions makes a tree if and only if it is consistent, and is refused as
corrupt otherwise, so that its order has no part in it. The marks of the tree are the stored
decisions with their locations written as paths, each as often as it was listed. -/
theorem ofMarks_iff_consistent (ms : List Mark) :
    ((∃ t, ofMarks ms = .ok t) ↔ Consistent ms) ∧
      (¬ Consistent ms → ∃ fault, ofMarks ms = .error fault) ∧
      (∀ ms', ms.Perm ms' → ((∃ t, ofMarks ms = .ok t) ↔ ∃ t, ofMarks ms' = .ok t)) ∧
      ∀ t, ofMarks ms = .ok t → t.marks.Perm (ms.map plain) := by
  refine ⟨exists_ofMarks_iff ms, fun h => ?_, fun ms' hp => ?_, fun t ht => ?_⟩
  · cases hres : ofMarks ms with
    | error fault => exact ⟨fault, rfl⟩
    | ok t => exact absurd (consistent_of_ofMarks hres) h
  · rw [exists_ofMarks_iff, exists_ofMarks_iff]
    exact ⟨fun h => h.perm hp, fun h => h.perm hp.symm⟩
  · obtain ⟨hwell, M, hM, hperm⟩ := perm_ofMarks ht
    rw [marks_eq_ledger hwell, map_plain_of_reads hM]
    exact hperm.map _

theorem ofMarks_iff_consistent_sample :
    ∃ t, ofMarks [⟨"Music/Jazz/", .included⟩, ⟨"Music", .evicted⟩] = .ok t ∧
      t.marks.Perm [⟨"Music/Jazz", .included⟩, ⟨"Music", .evicted⟩] := by
  have h : ofMarks [⟨"Music/Jazz/", .included⟩, ⟨"Music", .evicted⟩] =
      .ok ⟨.node "Music" .evicted (.node "Jazz" .included .empty .empty) .empty⟩ := by
    decide +kernel
  obtain ⟨-, -, -, hmarks⟩ :=
    ofMarks_iff_consistent [⟨"Music/Jazz/", .included⟩, ⟨"Music", .evicted⟩]
  exact ⟨_, h, hmarks _ h⟩

end PathTree
end SelectiveSync
