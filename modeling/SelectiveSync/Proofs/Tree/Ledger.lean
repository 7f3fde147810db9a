import SelectiveSync.Proofs.Tree.Listing
import SelectiveSync.Proofs.Tree.Reachable

/-! # Trees refine flat lists of decisions

A `Ledger` is a finite map from paths to decisions kept as a list. It rules and changes by looking
through its entries, without any tree.

* `PathTree.ledger` reads the ledger off the marks of a tree, `mem_ledger` says what it holds.
* `perm_settle` and `perm_remove`: changes of a tree are changes of its ledger, up to order.
* `decide_refines_ledger`: a tree and its ledger rule alike, grant the same requests, refuse the
  others for the same reason and stay in step. -/
namespace SelectiveSync
set_option autoImplicit false

/-- Decisions on paths, at most one on each, as a list. -/
abbrev Ledger := List (TreePath × Decision)

namespace Ledger

/-- Each path is decided on once, and as included or evicted. -/
structure IsMap (M : Ledger) : Prop where
  nodup : (M.map (·.1)).Nodup
  decided : ∀ e ∈ M, e.2 ≠ .undecided

def decisionOn (M : Ledger) (p : TreePath) : Option Decision :=
  (M.find? fun e => e.1 = p).map (·.2)

/-- The shortest path on the way to `p` with an inclusion, or else the longest with an eviction. -/
def ruling (M : Ledger) (p : TreePath) : Ruling :=
  match p.way.find? fun q => M.decisionOn q = some .included with
  | some q => .included q
  | none =>
    match p.way.reverse.find? fun q => M.decisionOn q = some .evicted with
    | some q => .evicted q
    | none => .ambient

/-- The inclusions strictly beneath a path. -/
def includedBeneath (M : Ledger) (p : TreePath) : List TreePath :=
  (M.filter fun e => e.2 = .included ∧ p.IsAncestorOf e.1).map (·.1)

/-- A decision on a path in place of all those on it and beneath it. -/
def settle (M : Ledger) (d : Decision) (p : TreePath) : Ledger :=
  (p, d) :: M.filter fun e => e.1 ≠ p ∧ ¬ p.IsAncestorOf e.1

/-- Without the decision on a path. -/
def remove (M : Ledger) (p : TreePath) : Ledger :=
  M.filter fun e => e.1 ≠ p

def markIncluded (M : Ledger) (p : TreePath) : Except Error Ledger :=
  match p.way.find? fun q => M.decisionOn q = some .included with
  | some outer => .error (.alreadyIncluded p outer)
  | none => .ok (M.settle .included p)

def markEvicted (M : Ledger) (p : TreePath) : Except Error Ledger :=
  match M.includedBeneath p with
  | first :: rest => .error (.includedBeneath p (rest.length + 1) first.text)
  | [] =>
    match p.parents.reverse.find? fun q => M.decisionOn q = some .included with
    | some outer => .error (.insideIncluded p outer)
    | none =>
      if M.decisionOn p = some .included then .ok (M.settle .evicted p)
      else
        match p.way.reverse.find? fun q => M.decisionOn q = some .evicted with
        | some nearest => .error (.alreadyEvicted p nearest)
        | none => .ok (M.settle .evicted p)

def unmark (M : Ledger) (p : TreePath) : Except Error Ledger :=
  match M.decisionOn p with
  | none => .error (.notMarked p)
  | some _ => .ok (M.remove p)

/-- The change that leaves a path with the decision `d`. -/
def decide (d : Decision) : Ledger → TreePath → Except Error Ledger :=
  match d with
  | .included => markIncluded
  | .evicted => markEvicted
  | .undecided => unmark

end Ledger

namespace PathTree

/-- The marks of a tree with their locations read as paths. -/
def ledger (t : PathTree) : Ledger :=
  t.marks.filterMap fun m => (TreePath.parse m.location).toOption.map fun p => (p, m.decision)

/-- A request ends alike: with the same refusal, or with the tree's ledger and a ledger of the same
entries. -/
def EndsAlike : Except Error PathTree → Except Error Ledger → Prop
  | .ok u, .ok M => u.ledger.Perm M
  | .error e, .error e' => e = e'
  | _, _ => False

/-! ## The ledger of a tree -/

/-- Reading the locations that a list of marks is written with gives the list back. -/
theorem filterMap_parse (l : List (List String × Decision))
    (h : ∀ m ∈ l, m.1 ≠ [] ∧ ∀ s ∈ m.1, IsName s) :
    ((l.map fun m => (⟨Text.joined '/' m.1, m.2⟩ : Mark)).filterMap fun m =>
      (TreePath.parse m.location).toOption.map fun p => (p, m.decision)).map
        (fun e => (e.1.segments, e.2)) = l := by
  induction l with
  | nil => rfl
  | cons m l ih =>
    obtain ⟨q, d⟩ := m
    obtain ⟨hne, hn⟩ := h (q, d) (by simp)
    have hparse : (TreePath.parse (Text.joined '/' q)).toOption = some ⟨q, hne, hn⟩ := by
      rw [show TreePath.parse (Text.joined '/' q) = .ok ⟨q, hne, hn⟩ from
        TreePath.parse_text ⟨q, hne, hn⟩]
      rfl
    rw [List.map_cons, List.filterMap_cons]
    simp only [hparse, Option.map_some, List.map_cons]
    rw [ih fun m hm => h m (List.mem_cons_of_mem _ hm)]

theorem segments_ledger {t : PathTree} (h : t.top.WellFormed) :
    t.ledger.map (fun e => (e.1.segments, e.2)) = t.top.marks :=
  filterMap_parse t.top.marks fun _ hm => Forest.names_of_mem_marks h hm

theorem marks_eq_ledger {t : PathTree} (h : t.top.WellFormed) :
    t.marks = t.ledger.map fun e => ⟨e.1.text, e.2⟩ := by
  rw [marks, ← segments_ledger h, List.map_map]
  rfl

theorem mem_ledger {t : PathTree} (h : t.top.WellFormed) {p : TreePath} {d : Decision} :
    (p, d) ∈ t.ledger ↔ d ≠ .undecided ∧ t.decisionAt p = d := by
  rw [decisionAt, ← Forest.mem_marks h, ← segments_ledger h, List.mem_map]
  constructor
  · intro hm
    exact ⟨(p, d), hm, rfl⟩
  · rintro ⟨⟨q, c⟩, hm, heq⟩
    simp only [Prod.mk.injEq] at heq
    obtain ⟨hq, rfl⟩ := heq
    rw [← TreePath.ext hq]
    exact hm

theorem isMap_ledger {t : PathTree} (h : t.top.WellFormed) : t.ledger.IsMap where
  nodup := by
    have hn := Forest.nodup_marks h
    rw [← segments_ledger h, List.map_map] at hn
    refine List.Nodup.of_map TreePath.segments ?_
    rw [List.map_map]
    exact hn
  decided := fun e he => ((mem_ledger h).1 he).1

theorem decisionOn_ledger {t : PathTree} (h : t.top.WellFormed) (p : TreePath) (d : Decision) :
    t.ledger.decisionOn p = some d ↔ d ≠ .undecided ∧ t.decisionAt p = d := by
  rw [← mem_ledger h, Ledger.decisionOn]
  constructor
  · intro hd
    obtain ⟨⟨q, c⟩, he, rfl⟩ := Option.map_eq_some_iff.1 hd
    have hq : q = p := by simpa using List.find?_some he
    rw [← hq]
    exact List.mem_of_find?_eq_some he
  · intro hm
    cases he : t.ledger.find? fun e => e.1 = p with
    | none =>
      have := List.find?_eq_none.1 he (p, d) hm
      simp at this
    | some e =>
      obtain ⟨q, c⟩ := e
      have hq : q = p := by simpa using List.find?_some he
      have hc := (mem_ledger h).1 (List.mem_of_find?_eq_some he)
      rw [hq] at hc
      rw [Option.map_some, ← hc.2, ← ((mem_ledger h).1 hm).2]

theorem ruling_eq_ledger {t : PathTree} (h : t.top.WellFormed) (p : TreePath) :
    t.ruling p = t.ledger.ruling p := by
  have hfind (d : Decision) (hd : d ≠ .undecided) :
      (fun q => Decidable.decide (t.ledger.decisionOn q = some d)) =
        fun q => Decidable.decide (t.decisionAt q = d) := by
    funext q
    simp [decisionOn_ledger h, hd]
  rw [Ledger.ruling, hfind .included (by simp), hfind .evicted (by simp)]
  exact ruling_eq t p

/-! ## Changes -/

theorem perm_ledger {u : PathTree} (hu : u.top.WellFormed) {M : Ledger} (hM : M.Nodup)
    (h : ∀ q c, (q, c) ∈ M ↔ c ≠ .undecided ∧ u.decisionAt q = c) : u.ledger.Perm M := by
  rw [List.perm_ext_iff_of_nodup (isMap_ledger hu).nodup.of_map hM]
  rintro ⟨q, c⟩
  rw [mem_ledger hu, h]

theorem perm_settle {t u : PathTree} (ht : t.top.WellFormed) (hu : u.top.WellFormed)
    {d : Decision} (hd : d ≠ .undecided) {p : TreePath}
    (h : u.top = t.top.settle d p.segments) : u.ledger.Perm (t.ledger.settle d p) := by
  refine perm_ledger hu ?_ fun q c => ?_
  · refine List.nodup_cons.2 ⟨fun hm => ?_, (isMap_ledger ht).nodup.of_map.filter _⟩
    have := (List.mem_filter.1 hm).2
    simp at this
  · have hdec : u.decisionAt q =
        if q = p then d else if p.IsAncestorOf q then .undecided else t.decisionAt q := by
      rw [← decisionAt_settle, ← h]
    rw [hdec, Ledger.settle, List.mem_cons, List.mem_filter, mem_ledger ht, Prod.mk.injEq]
    by_cases hq : q = p
    · subst hq
      simp only [true_and, ne_eq, not_true_eq_false, false_and, decide_false, Bool.false_eq_true,
        and_false, or_false, if_true]
      constructor
      · rintro rfl
        exact ⟨hd, rfl⟩
      · rintro ⟨-, rfl⟩
        rfl
    · by_cases hanc : p.IsAncestorOf q
      · simp [hq, hanc, eq_comm]
      · simp [hq, hanc]

theorem perm_remove {t u : PathTree} (ht : t.top.WellFormed) (hu : u.top.WellFormed) {p : TreePath}
    (h : u.top = t.top.clear p.segments) : u.ledger.Perm (t.ledger.remove p) := by
  refine perm_ledger hu ((isMap_ledger ht).nodup.of_map.filter _) fun q c => ?_
  have hdec : u.decisionAt q = if q = p then .undecided else t.decisionAt q := by
    rw [← decisionAt_clear t p q ht, ← h]
  rw [hdec, Ledger.remove, List.mem_filter, mem_ledger ht]
  by_cases hq : q = p
  · simp [hq, eq_comm]
  · simp [hq]

/-! ## Requests -/

theorem includedBeneath_eq {t : PathTree} (h : t.top.WellFormed) (p : TreePath) :
    t.includedBeneath p = (t.ledger.includedBeneath p).map TreePath.text := by
  have hbelow : t.includedBeneath p =
      ((t.belowAt p).included p.segments).map (Text.joined '/') := by
    rw [includedBeneath, belowAt_eq]
    cases t.get? p <;> rfl
  have hmarks := Forest.marks_beneath h p.segments p.ne_nil
  rw [← segments_ledger h, List.filter_map] at hmarks
  rw [hbelow, belowAt, Forest.included_eq (h.belowAt p.segments)]
  have hmap : ((t.top.belowAt p.segments).marks.filter fun m => m.2 = .included).map
      (fun m => p.segments ++ m.1) =
      (((t.top.belowAt p.segments).marks.map fun m => (p.segments ++ m.1, m.2)).filter
        fun m => m.2 = .included).map (·.1) := by
    rw [List.filter_map, List.map_map]
    rfl
  rw [hmap, ← hmarks, List.filter_map, List.filter_filter, List.map_map, List.map_map,
    Ledger.includedBeneath, List.map_map]
  have hfun : (fun e : TreePath × Decision => ((fun m : List String × Decision =>
        Decidable.decide (m.2 = .included)) ∘ fun e : TreePath × Decision => (e.1.segments, e.2)) e &&
      ((fun m : List String × Decision => Decidable.decide (p.segments <+: m.1 ∧ p.segments ≠ m.1)) ∘
        fun e : TreePath × Decision => (e.1.segments, e.2)) e) =
      fun e => Decidable.decide (e.2 = .included ∧ p.IsAncestorOf e.1) := by
    funext e
    simp only [Function.comp_apply, ← TreePath.isAncestorOf_iff]
    rw [Bool.decide_and]
  rw [hfun]
  rfl

theorem markIncluded_refines {t : PathTree} (h : t.top.WellFormed) (p : TreePath) :
    EndsAlike (t.markIncluded p) (t.ledger.markIncluded p) := by
  have hruling := ruling_eq_ledger h p
  rw [Ledger.ruling] at hruling
  rw [Ledger.markIncluded]
  cases hinc : p.way.find? fun q => t.ledger.decisionOn q = some .included with
  | some q =>
    rw [hinc] at hruling
    rw [markIncluded, hruling]
    rfl
  | none =>
    rw [hinc] at hruling
    have hok : t.markIncluded p = .ok ⟨t.top.settle .included p.segments⟩ := by
      refine markIncluded_eq_ok.2 ⟨fun q hq => ?_, rfl⟩
      rw [hruling] at hq
      simp only at hq
      split at hq <;> cases hq
    rw [hok]
    exact perm_settle h (wellFormed_decide (d := .included) h hok) (by simp) rfl

theorem markEvicted_refines {t : PathTree} (h : t.top.WellFormed) (p : TreePath) :
    EndsAlike (t.markEvicted p) (t.ledger.markEvicted p) := by
  have hruling := ruling_eq_ledger h p
  have hbeneath := includedBeneath_eq h p
  have hsettle (hok : t.markEvicted p = .ok ⟨t.top.settle .evicted p.segments⟩) :
      EndsAlike (t.markEvicted p) (.ok (t.ledger.settle .evicted p)) := by
    rw [hok]
    exact perm_settle h (wellFormed_decide (d := .evicted) h hok) (by simp) rfl
  rw [Ledger.ruling, TreePath.way_eq, List.find?_append] at hruling
  rw [Ledger.markEvicted]
  cases hb : t.ledger.includedBeneath p with
  | cons first rest =>
    rw [hb] at hbeneath
    rw [markEvicted, hbeneath]
    simp [EndsAlike]
  | nil =>
    rw [hb] at hbeneath
    simp only
    cases hanc : p.parents.reverse.find? fun q => t.ledger.decisionOn q = some .included with
    | some outer =>
      have hne : outer ≠ p := by
        have hmem := List.mem_reverse.1 (List.mem_of_find?_eq_some hanc)
        exact (TreePath.mem_parents.1 hmem).ne
      rw [hanc] at hruling
      rw [markEvicted, hbeneath, hruling]
      simp [EndsAlike, hne]
    | none =>
      rw [hanc, Option.none_or, List.find?_singleton] at hruling
      simp only
      by_cases hp : t.ledger.decisionOn p = some .included
      · rw [if_pos hp]
        simp only [hp, decide_true, if_true] at hruling
        refine hsettle ?_
        rw [markEvicted, hbeneath, hruling]
        simp
      · rw [if_neg hp]
        simp only [hp, decide_false, Bool.false_eq_true, if_false, ← TreePath.way_eq] at hruling
        cases hev : p.way.reverse.find? fun q => t.ledger.decisionOn q = some .evicted with
        | some nearest =>
          rw [hev] at hruling
          rw [markEvicted, hbeneath, hruling]
          simp [EndsAlike]
        | none =>
          rw [hev] at hruling
          refine hsettle ?_
          rw [markEvicted, hbeneath, hruling]
          simp

theorem unmark_refines {t : PathTree} (h : t.top.WellFormed) (p : TreePath) :
    EndsAlike (t.unmark p) (t.ledger.unmark p) := by
  have hon := decisionOn_ledger h p
  rw [Ledger.unmark]
  by_cases hp : t.decisionAt p = .undecided
  · have hnone : t.ledger.decisionOn p = none := by
      cases hd : t.ledger.decisionOn p with
      | none => rfl
      | some d => exact absurd (((hon d).1 hd).2.symm.trans hp) ((hon d).1 hd).1
    have herror : t.unmark p = .error (.notMarked p) := by
      rw [decisionAt_eq] at hp
      rw [unmark]
      cases hn : t.get? p with
      | none => rfl
      | some n =>
        rw [hn] at hp
        exact if_pos hp
    rw [hnone, herror]
    rfl
  · have hok : t.unmark p = .ok ⟨t.top.clear p.segments⟩ := unmark_eq_ok.2 ⟨hp, rfl⟩
    rw [(hon (t.decisionAt p)).2 ⟨hp, rfl⟩, hok]
    exact perm_remove h (wellFormed_decide (d := .undecided) h hok) rfl

/-- The marks of a tree are a map from paths to decisions. The tree rules on each path as that map
does, and each request on a path is granted or refused as by the map, with the same reason, and
leaves the tree with the marks that the map then has. -/
theorem decide_refines_ledger (t : PathTree) (h : t.Reachable) :
    t.ledger.IsMap ∧ t.marks = (t.ledger.map fun e => ⟨e.1.text, e.2⟩) ∧
      ∀ p, t.ruling p = t.ledger.ruling p ∧
        ∀ d, EndsAlike (t.decide d p) (t.ledger.decide d p) := by
  have ht := h.wellFormed
  refine ⟨isMap_ledger ht, marks_eq_ledger ht, fun p => ⟨ruling_eq_ledger ht p, fun d => ?_⟩⟩
  cases d with
  | included => exact markIncluded_refines ht p
  | evicted => exact markEvicted_refines ht p
  | undecided => exact unmark_refines ht p

theorem decide_refines_ledger_sample :
    Sample.tree.Reachable ∧
      Sample.tree.ruling Sample.jazz = .included Sample.jazz ∧
      EndsAlike (Sample.tree.decide .evicted Sample.music)
        (.error (.includedBeneath Sample.music 1 "Music/Jazz")) := by
  obtain ⟨-, -, hall⟩ := decide_refines_ledger Sample.tree Sample.reachable
  have hledger : Sample.tree.ledger =
      [(Sample.music, .evicted), (Sample.jazz, .included), (Sample.photos, .evicted)] := by
    decide +kernel
  rw [hledger] at hall
  refine ⟨Sample.reachable, (hall Sample.jazz).1.trans (by decide), ?_⟩
  exact (hall Sample.music).2 .evicted

end PathTree
end SelectiveSync
