import SelectiveSync.Proofs.Rule.FirstMatch
import SelectiveSync.Proofs.Rule.Validity
import SelectiveSync.Proofs.Tree.Ledger

/-! # Directives mean what the tree says

* `Forest.Takes`: the entries that the inclusions of a forest ask for.
* `passesAlong_iff`: the directives for an entered directory let through what is asked for in it and
  nothing else.
* `transfers_iff_included`: the directives for a whole tree, read by an entry's path in the order in
  which a transfer descends. -/
namespace SelectiveSync
set_option autoImplicit false

namespace Forest
open Directive

/-! ## What inclusions ask for -/

/-- The entry is beneath an inclusion, or it is a directory that is included or on the way to an
inclusion. -/
def Takes (f : Forest) (kind : Kind) (path : List String) : Prop :=
  match kind with
  | .directory => ∃ q, f.decisionAt q = .included ∧ (q <+: path ∨ path <+: q)
  | .file => ∃ q, f.decisionAt q = .included ∧ q <+: path ∧ q ≠ path

theorem reaches_iff {f : Forest} (h : f.WellFormed) :
    f.reaches = true ↔ ∃ q, f.decisionAt q = .included := by
  induction f with
  | empty => simp [reaches]
  | node n d below beside ihb ihs =>
    simp only [reaches, Bool.or_eq_true, decide_eq_true_eq, ihb h.fits.below, ihs h.beside]
    constructor
    · rintro ((hd | ⟨q, hq⟩) | ⟨q, hq⟩)
      · exact ⟨[n], by simp [decisionAt_node, hd]⟩
      · have hq0 : q ≠ [] := ne_nil_of_decided (f := below) (by simp [hq])
        exact ⟨n :: q, by simp [decisionAt_node, hq0, hq]⟩
      · cases q with
        | nil => cases hq
        | cons s q =>
          have hs : n ≠ s := by
            rintro rfl
            rw [decisionAt_of_not_mem h.fresh] at hq
            cases hq
          exact ⟨s :: q, by simp [decisionAt_node, hs, hq]⟩
    · rintro ⟨q, hq⟩
      cases q with
      | nil => cases hq
      | cons s q =>
        rw [decisionAt_node] at hq
        split at hq
        · split at hq
          · exact Or.inl (Or.inl hq)
          · exact Or.inl (Or.inr ⟨q, hq⟩)
        · exact Or.inr ⟨s :: q, hq⟩

theorem exists_included_cons (f : Forest) (s : String) (P : List String → Prop) :
    (∃ q, f.decisionAt (s :: q) = .included ∧ P q) ↔
      f.decisionAt [s] = .included ∧ P [] ∨ ∃ q, (f.belowAt [s]).decisionAt q = .included ∧ P q := by
  constructor
  · rintro ⟨q, hq, hP⟩
    by_cases hq0 : q = []
    · subst hq0
      exact Or.inl ⟨hq, hP⟩
    · rw [decisionAt_cons s q hq0] at hq
      exact Or.inr ⟨q, hq, hP⟩
  · rintro (⟨hs, hP⟩ | ⟨q, hq, hP⟩)
    · exact ⟨[], hs, hP⟩
    · have hq0 : q ≠ [] := ne_nil_of_decided (f := f.belowAt [s]) (by simp [hq])
      exact ⟨q, by rwa [decisionAt_cons s q hq0], hP⟩

/-- Only inclusions at a sibling or beneath it bear on what is there. -/
theorem takes_eq (f : Forest) (kind : Kind) (s : String) (q : List String) :
    f.Takes kind (s :: q) ↔
      match kind with
      | .directory => ∃ r, f.decisionAt (s :: r) = .included ∧ (r <+: q ∨ q <+: r)
      | .file => ∃ r, f.decisionAt (s :: r) = .included ∧ r <+: q ∧ r ≠ q := by
  have hcons {P : List String → Prop} (hP : ∀ l, P l → l = [] ∨ ∃ r, l = s :: r) :
      (∃ l, f.decisionAt l = .included ∧ P l) ↔ ∃ r, f.decisionAt (s :: r) = .included ∧ P (s :: r) := by
    constructor
    · rintro ⟨l, hl, h⟩
      rcases hP l h with rfl | ⟨r, rfl⟩
      · cases hl
      · exact ⟨r, hl, h⟩
    · rintro ⟨r, hr, h⟩
      exact ⟨s :: r, hr, h⟩
  -- a path on the way here is empty, and nothing is decided there, or begins with the sibling
  have hpre (l : List String) (h : l <+: s :: q) : l = [] ∨ ∃ r, l = s :: r := by
    cases l with
    | nil => exact Or.inl rfl
    | cons u r => exact Or.inr ⟨r, by rw [(List.cons_prefix_cons.1 h).1]⟩
  cases kind with
  | directory =>
    rw [Takes, hcons]
    · simp [List.cons_prefix_cons]
    · rintro l (h | ⟨r, rfl⟩)
      · exact hpre l h
      · exact Or.inr ⟨q ++ r, rfl⟩
  | file =>
    rw [Takes, hcons]
    · simp [List.cons_prefix_cons]
    · exact fun l h => hpre l h.1

theorem takes_singleton {f : Forest} (h : f.WellFormed) (kind : Kind) (s : String) :
    f.Takes kind [s] ↔
      kind = .directory ∧ (f.decisionAt [s] = .included ∨ (f.belowAt [s]).reaches) := by
  rw [takes_eq, reaches_iff (h.belowAt [s])]
  cases kind with
  | directory =>
    have hall := exists_included_cons f s fun _ => True
    simpa using hall
  | file => simp +contextual

theorem takes_cons {f : Forest} (kind : Kind) (s : String) {q : List String} (hq : q ≠ []) :
    f.Takes kind (s :: q) ↔ f.decisionAt [s] = .included ∨ (f.belowAt [s]).Takes kind q := by
  rw [takes_eq]
  cases kind with
  | directory =>
    rw [exists_included_cons]
    simp [Takes]
  | file =>
    have hall := exists_included_cons f s fun r => r <+: q ∧ r ≠ q
    simpa [Takes, Ne.symm hq] using hall

theorem Takes.reaches {f : Forest} (h : f.WellFormed) {kind : Kind} {path : List String}
    (ht : f.Takes kind path) : f.reaches = true := by
  rw [reaches_iff h]
  cases kind with
  | directory =>
    obtain ⟨q, hq, -⟩ := ht
    exact ⟨q, hq⟩
  | file =>
    obtain ⟨q, hq, -⟩ := ht
    exact ⟨q, hq⟩

/-! ## What the directives let through -/

/-- All directories on the way from `base` along `path`, and what the path leads to, are let
through. -/
def PassesAlong (rules : List Directive) (kind : Kind) (base path : List String) : Prop :=
  (∀ q, q ≠ [] → q <+: path → q ≠ path → Passes rules .directory (base ++ q)) ∧
    Passes rules kind (base ++ path)

theorem passesAlong_singleton (rules : List Directive) (kind : Kind) (base : List String)
    (s : String) : PassesAlong rules kind base [s] ↔ Passes rules kind (base ++ [s]) := by
  refine ⟨fun h => h.2, fun h => ⟨fun q hq0 hq hne => ?_, h⟩⟩
  have hlen : q.length ≠ 1 := fun hlen => hne (hq.eq_of_length (by simpa using hlen))
  have hle := hq.length_le
  have hpos := List.length_pos_iff.2 hq0
  simp only [List.length_singleton] at hle
  omega

theorem passesAlong_cons (rules : List Directive) (kind : Kind) (base : List String) (s : String)
    {q : List String} (hne : q ≠ []) :
    PassesAlong rules kind base (s :: q) ↔
      Passes rules .directory (base ++ [s]) ∧ PassesAlong rules kind (base ++ [s]) q := by
  have hstep (r : List String) : base ++ [s] ++ r = base ++ s :: r := by simp
  simp only [PassesAlong, hstep]
  constructor
  · rintro ⟨hway, hlast⟩
    refine ⟨hway [s] (by simp) (by simp [List.cons_prefix_cons]) (by simpa using hne.symm),
      fun r _ hr hrq => ?_, hlast⟩
    exact hway (s :: r) (by simp) (List.cons_prefix_cons.2 ⟨rfl, hr⟩) (by simpa using hrq)
  · rintro ⟨hfirst, hway, hlast⟩
    refine ⟨fun r hr0 hr hrq => ?_, hlast⟩
    cases r with
    | nil => exact absurd rfl hr0
    | cons u r =>
      obtain ⟨rfl, hrest⟩ := List.cons_prefix_cons.1 hr
      by_cases hnil : r = []
      · rw [hnil]
        exact hfirst
      · exact hway r hnil hrest fun h => hrq (by rw [h])

/-- Further down, only what is below the sibling on the way counts, and nothing if that sibling is
included. -/
theorem passesAlong_closed {f : Forest} (h : f.WellFormed) {base q : List String} {s : String}
    (hbase : ∀ u ∈ base, IsName u) (hq : ∀ u ∈ s :: q, IsName u) (hne : q ≠ []) (kind : Kind) :
    PassesAlong (closed base f) kind (base ++ [s]) q ↔
      (f.decisionAt [s] ≠ .included → (f.belowAt [s]).reaches →
        PassesAlong (closed (base ++ [s]) (f.belowAt [s])) kind (base ++ [s]) q) := by
  have hstep (r : List String) : base ++ [s] ++ r = base ++ s :: r := by simp
  have hpass (r : List String) (hr0 : r ≠ []) (hr : r <+: q) (k : Kind) :=
    passes_closed_beneath h hbase (fun u hu => hq u (List.cons_subset_cons s hr.subset hu)) hr0 k
  simp only [PassesAlong, hstep]
  constructor
  · rintro ⟨hway, hlast⟩ hd hb
    refine ⟨fun r hr0 hr hrq => ?_, ?_⟩
    · exact (hpass r hr0 hr .directory).1 (hway r hr0 hr hrq) hd hb
    · exact (hpass q hne List.prefix_rfl kind).1 hlast hd hb
  · intro hall
    refine ⟨fun r hr0 hr hrq => ?_, ?_⟩
    · exact (hpass r hr0 hr .directory).2 fun hd hb => (hall hd hb).1 r hr0 hr hrq
    · exact (hpass q hne List.prefix_rfl kind).2 fun hd hb => (hall hd hb).2

/-- The directives for an entered directory let through what the inclusions in it ask for and
nothing else. -/
theorem passesAlong_iff {f : Forest} (h : f.WellFormed) {base path : List String}
    (hbase : ∀ u ∈ base, IsName u) (hpath : ∀ u ∈ path, IsName u) (hne : path ≠ []) (kind : Kind) :
    PassesAlong (closed base f) kind base path ↔ f.Takes kind path := by
  induction path generalizing f base with
  | nil => exact absurd rfl hne
  | cons s q ih =>
    have hs : IsName s := hpath s (by simp)
    by_cases hq : q = []
    · subst hq
      rw [passesAlong_singleton, passes_closed_at h hbase hs, takes_singleton h]
    · -- past the sibling the question is the same one about the forest below it
      have hbelow := h.belowAt [s]
      have hone : ∀ u ∈ [s], IsName u := by simpa using hs
      have hrest := ih hbelow (isName_append hbase hone)
        (fun u hu => hpath u (List.mem_cons_of_mem s hu)) hq
      have hreaches : (f.belowAt [s]).Takes kind q → (f.belowAt [s]).reaches = true :=
        Takes.reaches hbelow
      rw [passesAlong_cons _ _ _ _ hq, passes_closed_at h hbase hs,
        passesAlong_closed h hbase hpath hq, hrest, takes_cons _ _ hq]
      tauto

end Forest

namespace PathTree
open Directive Forest

theorem transfers_iff_passesAlong (rules : List Directive) (kind : Kind) (p : TreePath) :
    Transfers rules kind p ↔ PassesAlong rules kind [] p.segments := by
  constructor
  · rintro ⟨hway, hlast⟩
    refine ⟨fun q hq0 hq hne => ?_, hlast⟩
    exact hway ⟨q, hq0, fun s hs => p.names s (hq.subset hs)⟩
      (TreePath.mem_parents.2 (TreePath.isAncestorOf_iff.2 ⟨hq, hne⟩))
  · rintro ⟨hway, hlast⟩
    refine ⟨fun q hq => ?_, hlast⟩
    have hanc := TreePath.mem_parents.1 hq
    exact hway q.segments q.ne_nil hanc.2 fun h => hanc.ne (TreePath.ext h)

/-- Read with everything else at the root left out, the directives for a tree transfer what its
inclusions ask for. -/
theorem transfers_iff_takes {t : PathTree} (h : t.top.WellFormed) (kind : Kind) (p : TreePath) :
    Transfers (t.top.rules "" ++ [ambient]) kind p ↔ t.top.Takes kind p.segments := by
  have hclosed : t.top.rules "" ++ [ambient] = closed [] t.top := rfl
  rw [transfers_iff_passesAlong, hclosed]
  exact passesAlong_iff h (by simp) p.names p.ne_nil kind

theorem exists_included_iff {t : PathTree} (h : t.top.WellFormed) (P : List String → Prop) :
    (∃ q, t.top.decisionAt q = .included ∧ P q) ↔
      ∃ q : TreePath, ⟨q.text, .included⟩ ∈ t.marks ∧ P q.segments := by
  have hmem (q : TreePath) : ⟨q.text, .included⟩ ∈ t.marks ↔ t.decisionAt q = .included := by
    rw [marks_eq_ledger h, List.mem_map]
    constructor
    · rintro ⟨⟨r, d⟩, hr, heq⟩
      rw [Mark.mk.injEq, TreePath.text_inj] at heq
      obtain ⟨rfl, rfl⟩ := heq
      exact ((mem_ledger h).1 hr).2
    · intro hq
      exact ⟨(q, .included), (mem_ledger h).2 ⟨by simp, hq⟩, rfl⟩
  constructor
  · rintro ⟨q, hq, hP⟩
    obtain ⟨p, rfl⟩ := h.exists_path (l := q) (by simp [hq])
    exact ⟨p, (hmem p).2 hq, hP⟩
  · rintro ⟨q, hq, hP⟩
    exact ⟨q.segments, (hmem q).1 hq, hP⟩

/-- Read with everything else at the root left out, the directives for a tree that operations made
transfer just what the tree says: the directories that are included, beneath an inclusion or on the
way to one, and the files beneath an inclusion. -/
theorem transfers_iff_included (t : PathTree) (h : t.Reachable) :
    ∃ rules, t.directives = .ok rules ∧ ∀ p : TreePath,
      (Transfers (rules ++ [ambient]) .directory p ↔
        ∃ q : TreePath, ⟨q.text, .included⟩ ∈ t.marks ∧
          (q = p ∨ q.IsAncestorOf p ∨ p.IsAncestorOf q)) ∧
      (Transfers (rules ++ [ambient]) .file p ↔
        ∃ q : TreePath, ⟨q.text, .included⟩ ∈ t.marks ∧ q.IsAncestorOf p) := by
  have ht := h.wellFormed
  refine ⟨_, directives_eq_ok ht, fun p => ?_⟩
  have hpasses (kind : Kind) : PassesAlong (closed [] t.top) kind [] p.segments ↔
      t.top.Takes kind p.segments := passesAlong_iff ht (by simp) p.names p.ne_nil kind
  have hclosed : t.top.rules "" ++ [ambient] = closed [] t.top := rfl
  rw [transfers_iff_passesAlong, transfers_iff_passesAlong, hclosed, hpasses, hpasses, Takes, Takes,
    exists_included_iff ht fun q => q <+: p.segments ∨ p.segments <+: q,
    exists_included_iff ht fun q => q <+: p.segments ∧ q ≠ p.segments]
  have hrelated (q : TreePath) : q.segments <+: p.segments ∨ p.segments <+: q.segments ↔
      q = p ∨ q.IsAncestorOf p ∨ p.IsAncestorOf q := by
    rw [TreePath.isPrefix_iff, TreePath.isPrefix_iff, @eq_comm _ p q]
    tauto
  simp only [hrelated, TreePath.isAncestorOf_iff, and_self]

theorem transfers_iff_included_sample :
    Sample.tree.Reachable ∧ ∃ rules, Sample.tree.directives = .ok rules ∧
      Transfers (rules ++ [ambient]) .directory Sample.music ∧
      ¬ Transfers (rules ++ [ambient]) .file Sample.jazz ∧
      ¬ Transfers (rules ++ [ambient]) .directory Sample.photos := by
  have hmarks : Sample.tree.marks =
      [⟨"Music", .evicted⟩, ⟨Sample.jazz.text, .included⟩, ⟨"Photos", .evicted⟩] := by decide
  have honly (q : TreePath) (hq : ⟨q.text, .included⟩ ∈ Sample.tree.marks) : q = Sample.jazz := by
    simpa [hmarks, TreePath.text_inj] using hq
  obtain ⟨rules, hrules, hall⟩ := transfers_iff_included Sample.tree Sample.reachable
  refine ⟨Sample.reachable, rules, hrules, ?_, fun h => ?_, fun h => ?_⟩
  · exact (hall Sample.music).1.2 ⟨Sample.jazz, by simp [hmarks], by decide⟩
  · obtain ⟨q, hq, hanc⟩ := (hall Sample.jazz).2.1 h
    rw [honly q hq] at hanc
    exact absurd hanc (by decide)
  · obtain ⟨q, hq, hrelated⟩ := (hall Sample.photos).1.1 h
    rw [honly q hq] at hrelated
    exact absurd hrelated (by decide)

end PathTree
end SelectiveSync
