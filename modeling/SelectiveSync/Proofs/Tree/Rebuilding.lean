import SelectiveSync.Proofs.Tree.Ledger

/-! # Trees put together again from their marks

Marking the listed paths one after another builds the forest from the left: the nodes made so far
are those that come before the next mark, and each new node becomes the last of its row.

* `markAll_marks`: the marks of a forest, made in their order, add that forest to the row.
* `ofMarks_eq_ok`: stored decisions that do not contradict each other are all taken in.
* `ofMarks_marks`: the marks of a tree give the same tree again. -/
namespace SelectiveSync
set_option autoImplicit false

namespace Forest

/-- Two rows of siblings one after the other. -/
def append : Forest → Forest → Forest
  | empty, g => g
  | node n d below beside, g => node n d below (beside.append g)

/-- All the decisions of a list made in its order. -/
def markAll (ms : List (List String × Decision)) (f : Forest) : Forest :=
  ms.foldl (fun f m => f.mark m.2 m.1) f

/-! ## Rows -/

theorem append_assoc (f g h : Forest) : (f.append g).append h = f.append (g.append h) := by
  induction f with
  | empty => rfl
  | node n d below beside _ ih => rw [append, append, append, ih]

theorem append_empty (f : Forest) : f.append .empty = f := by
  induction f with
  | empty => rfl
  | node n d below beside _ ih => rw [append, ih]

theorem names_append (f g : Forest) : (f.append g).names = f.names ++ g.names := by
  induction f with
  | empty => rfl
  | node n d below beside _ ih => rw [append, names, names, ih, List.cons_append]

section
variable (g : Decision → Forest → Decision × Forest)

theorem update_of_not_mem {s : String} {f : Forest} (h : s ∉ f.names) :
    f.update s g = f.append (node s (g .undecided .empty).1 (g .undecided .empty).2 .empty) := by
  induction f with
  | empty => rfl
  | node n d below beside _ ih =>
    have hn : n ≠ s := fun hn => h (by simp [names, hn])
    rw [update, if_neg hn, ih fun hs => h (by simp [names, hs]), append]

theorem update_last {s : String} {f : Forest} (h : s ∉ f.names) (d : Decision) (below : Forest) :
    (f.append (node s d below .empty)).update s g =
      f.append (node s (g d below).1 (g d below).2 .empty) := by
  induction f with
  | empty => simp [append, update]
  | node n c below' beside _ ih =>
    have hn : n ≠ s := fun hn => h (by simp [names, hn])
    rw [append, update, if_neg hn, ih fun hs => h (by simp [names, hs]), append]

end

/-! ## Marking a row from the left -/

theorem mark_beneath_last (c : Decision) {q : List String} (hq : q ≠ []) {f : Forest} {n : String}
    (h : n ∉ f.names) (d : Decision) (below : Forest) :
    (f.append (node n d below .empty)).mark c (n :: q) =
      f.append (node n d (below.mark c q) .empty) := by
  rw [mark, edit_cons _ _ _ hq, update_last _ h]

theorem mark_beneath_missing (c : Decision) {q : List String} (hq : q ≠ []) {f : Forest}
    {n : String} (h : n ∉ f.names) :
    f.mark c (n :: q) = f.append (node n .undecided (Forest.empty.mark c q) .empty) := by
  rw [mark, edit_cons _ _ _ hq, update_of_not_mem _ h]

theorem markAll_append (ms ms' : List (List String × Decision)) (f : Forest) :
    markAll (ms ++ ms') f = markAll ms' (markAll ms f) := by
  simp [markAll]

theorem markAll_cons (m : List String × Decision) (ms : List (List String × Decision))
    (f : Forest) : markAll (m :: ms) f = markAll ms (f.mark m.2 m.1) := rfl

theorem markAll_beneath_last (ms : List (List String × Decision)) (hms : ∀ m ∈ ms, m.1 ≠ [])
    {f : Forest} {n : String} (h : n ∉ f.names) (d : Decision) (below : Forest) :
    markAll (ms.map (beneath n)) (f.append (node n d below .empty)) =
      f.append (node n d (markAll ms below) .empty) := by
  induction ms generalizing below with
  | nil => rfl
  | cons m ms ih =>
    have hm := hms m (by simp)
    rw [List.map_cons, markAll_cons, beneath, mark_beneath_last _ hm h, markAll_cons]
    exact ih (fun m' hm' => hms m' (List.mem_cons_of_mem _ hm')) _

/-- The first of some marks beneath a missing sibling makes it, as the last one of its row. -/
theorem markAll_beneath_missing (ms : List (List String × Decision)) (hne : ms ≠ [])
    (hms : ∀ m ∈ ms, m.1 ≠ []) {f : Forest} {n : String} (h : n ∉ f.names) :
    markAll (ms.map (beneath n)) f = f.append (node n .undecided (markAll ms .empty) .empty) := by
  cases ms with
  | nil => exact absurd rfl hne
  | cons m ms =>
    have hm := hms m (by simp)
    rw [List.map_cons, markAll_cons, beneath, mark_beneath_missing _ hm h, markAll_cons]
    exact markAll_beneath_last ms (fun m' hm' => hms m' (List.mem_cons_of_mem _ hm')) h _ _

/-- Making the marks of a forest in their order adds it to a row. -/
theorem markAll_marks {g : Forest} (hg : g.WellFormed) (f : Forest)
    (h : ∀ s ∈ g.names, s ∉ f.names) : markAll g.marks f = f.append g := by
  induction g generalizing f with
  | empty => exact (append_empty f).symm
  | node n d below beside ihb ihs =>
    have hn : n ∉ f.names := h n (by simp [names])
    have hne : ∀ m ∈ below.marks, m.1 ≠ [] :=
      fun m hm => (names_of_mem_marks hg.fits.below hm).1
    have hbelow : markAll below.marks .empty = below := ihb hg.fits.below .empty (by simp [names])
    have hnode : markAll ((if d = .undecided then [] else [([n], d)]) ++
        below.marks.map (beneath n)) f = f.append (node n d below .empty) := by
      rw [markAll_append]
      by_cases hd : d = .undecided
      · have hm : below.marks ≠ [] := fun hm =>
          hg.fits.undecided hd ((marks_eq_nil hg.fits.below).1 hm)
        rw [if_pos hd, hd, show markAll [] f = f from rfl, markAll_beneath_missing _ hm hne hn,
          hbelow]
      · have hown : markAll [([n], d)] f = f.append (node n d .empty .empty) :=
          update_of_not_mem _ hn
        rw [if_neg hd, hown, markAll_beneath_last _ hne hn, hbelow]
    rw [marks_node, markAll_append, hnode, ihs hg.beside, append_assoc]
    · rfl
    · intro s hs
      have hsn : s ≠ n := by
        rintro rfl
        exact hg.fresh hs
      have hsf := h s (by simp [names, hs])
      simp [names_append, names, hsn, hsf]

end Forest

/-! ## Decisions that do not contradict each other -/

namespace Ledger

/-- A ledger in which nothing is decided beneath an inclusion. -/
structure Consistent (M : Ledger) : Prop extends M.IsMap where
  beneath : ∀ e ∈ M, e.2 = .included → ∀ e' ∈ M, ¬ e.1.IsAncestorOf e'.1

theorem Consistent.perm {M N : Ledger} (h : M.Consistent) (hp : M.Perm N) : N.Consistent where
  nodup := (hp.map _).nodup_iff.1 h.nodup
  decided := fun e he => h.decided e (hp.mem_iff.2 he)
  beneath := fun e he hi e' he' => h.beneath e (hp.mem_iff.2 he) hi e' (hp.mem_iff.2 he')

end Ledger

namespace PathTree

theorem consistent_ledger {t : PathTree} (h : t.top.WellFormed) : t.ledger.Consistent where
  toIsMap := isMap_ledger h
  beneath := by
    rintro ⟨p, d⟩ he rfl ⟨q, c⟩ he' hanc
    have hp := ((mem_ledger h).1 he).2
    have hq := (mem_ledger h).1 he'
    have hne : p.segments ≠ q.segments := fun hs => hanc.ne (TreePath.ext hs)
    exact hq.1 (hq.2.symm.trans (h.decisionAt_beneath hp hanc.2 hne))

/-- A stored decision whose location reads as the path of an entry. -/
def Reads (m : Mark) (e : TreePath × Decision) : Prop :=
  TreePath.parse m.location = .ok e.1 ∧ m.decision = e.2

theorem perm_mark {t u : PathTree} (ht : t.top.WellFormed) (hu : u.top.WellFormed) {p : TreePath}
    {d : Decision} (hd : d ≠ .undecided) (hp : t.decisionAt p = .undecided)
    (h : u.top = t.top.mark d p.segments) : u.ledger.Perm ((p, d) :: t.ledger) := by
  refine perm_ledger hu ?_ fun q c => ?_
  · refine List.nodup_cons.2 ⟨fun hm => ?_, (isMap_ledger ht).nodup.of_map⟩
    exact hd (((mem_ledger ht).1 hm).2.symm.trans hp)
  · have hdec : u.decisionAt q = if q = p then d else t.decisionAt q := by
      rw [← decisionAt_mark, ← h]
    rw [List.mem_cons, mem_ledger ht, hdec, Prod.mk.injEq]
    by_cases hq : q = p
    · subst hq
      rw [if_pos rfl, hp]
      constructor
      · rintro (⟨-, rfl⟩ | ⟨hc, rfl⟩)
        · exact ⟨hd, rfl⟩
        · exact absurd rfl hc
      · rintro ⟨-, rfl⟩
        exact Or.inl ⟨rfl, rfl⟩
    · simp [hq]

/-- A stored decision that contradicts none of those taken in is taken in. -/
theorem addMark_eq_mark {t : PathTree} (h : t.top.WellFormed) {m : Mark} {p : TreePath}
    {d : Decision} (hm : Reads m (p, d)) {rest : Ledger}
    (hc : Ledger.Consistent (t.ledger ++ (p, d) :: rest)) :
    t.decisionAt p = .undecided ∧ t.addMark m = .ok ⟨t.top.mark d p.segments⟩ := by
  have hmem : (p, d) ∈ t.ledger ++ (p, d) :: rest := by simp
  have hp : t.decisionAt p = .undecided := by
    by_contra hp
    have hold : p ∈ t.ledger.map (·.1) :=
      List.mem_map.2 ⟨(p, t.decisionAt p), (mem_ledger h).2 ⟨hp, rfl⟩, rfl⟩
    have hn := hc.nodup
    rw [List.map_append, List.map_cons] at hn
    exact (List.nodup_append'.1 hn).2.2 hold (by simp)
  refine ⟨hp, addMark_eq_ok.2 ⟨p, hm.1, ?_, fun q hq => ?_, hp, fun hi => ?_, by rw [hm.2]⟩⟩
  · rw [hm.2]
    exact hc.decided _ hmem
  · -- an inclusion that rules the path would be an entry above it
    obtain ⟨hinc, hpre⟩ := decisionAt_of_ruling_included hq
    rcases TreePath.isPrefix_iff.1 hpre with rfl | hanc
    · rw [hp] at hinc
      cases hinc
    · have hq := List.mem_append_left ((p, d) :: rest) ((mem_ledger h).2 ⟨by simp, hinc⟩)
      exact hc.beneath _ hq rfl _ hmem hanc
  · -- whatever is below the path leads to an entry beneath it
    by_contra hb
    obtain ⟨r, hr⟩ := (h.belowAt p.segments).exists_decided hb
    have hr0 : r ≠ [] := Forest.ne_nil_of_decided hr
    rw [← Forest.decisionAt_append p.segments r p.ne_nil hr0] at hr
    obtain ⟨q, hq⟩ := h.exists_path hr
    rw [← hq] at hr
    have hmem' := List.mem_append_left ((p, d) :: rest) ((mem_ledger h (p := q)).2 ⟨hr, rfl⟩)
    refine hc.beneath _ hmem (hm.2.symm.trans hi) _ hmem' (TreePath.isAncestorOf_iff.2 ⟨?_, ?_⟩)
    · rw [hq]
      exact List.prefix_append _ _
    · rw [hq]
      intro heq
      exact hr0 (by simpa using heq)

theorem foldlM_addMark_eq_ok {ms : List Mark} {M : Ledger} (hM : List.Forall₂ Reads ms M)
    {t : PathTree} (h : t.top.WellFormed) (hc : Ledger.Consistent (t.ledger ++ M)) :
    ms.foldlM addMark t =
      .ok ⟨Forest.markAll (M.map fun e => (e.1.segments, e.2)) t.top⟩ := by
  induction hM generalizing t with
  | nil => rfl
  | @cons m e ms M hm hrest ih =>
    obtain ⟨p, d⟩ := e
    obtain ⟨hp, hadd⟩ := addMark_eq_mark h hm hc
    have hu := wellFormed_addMark h hadd
    have hperm := perm_mark h hu (hc.decided (p, d) (by simp)) hp rfl
    refine foldlM_addMark_cons.2 ⟨_, hadd, ih hu (hc.perm ?_)⟩
    exact List.perm_middle.trans (hperm.symm.append_right M)

/-- Stored decisions that do not contradict each other make a tree. -/
theorem ofMarks_eq_ok {ms : List Mark} {M : Ledger} (hM : List.Forall₂ Reads ms M)
    (hc : M.Consistent) :
    ofMarks ms = .ok ⟨Forest.markAll (M.map fun e => (e.1.segments, e.2)) .empty⟩ :=
  foldlM_addMark_eq_ok (t := {}) hM trivial hc

/-- A tree is what its marks, read back, are put together to: with the same nodes and decisions and
with the siblings in the same order. -/
theorem ofMarks_marks (t : PathTree) (h : t.Reachable) : ofMarks t.marks = .ok t := by
  have ht := h.wellFormed
  have hreads : List.Forall₂ Reads t.marks t.ledger := by
    rw [marks_eq_ledger ht, List.forall₂_map_left_iff, List.forall₂_same]
    exact fun e _ => ⟨TreePath.parse_text e.1, rfl⟩
  rw [ofMarks_eq_ok hreads (consistent_ledger ht), segments_ledger ht,
    Forest.markAll_marks ht .empty (by simp [Forest.names]), Forest.append]

theorem ofMarks_marks_sample :
    Sample.tree.Reachable ∧
      ofMarks [⟨"Music", .evicted⟩, ⟨"Music/Jazz", .included⟩, ⟨"Photos", .evicted⟩] =
        .ok Sample.tree := by
  have hmarks : Sample.tree.marks =
      [⟨"Music", .evicted⟩, ⟨"Music/Jazz", .included⟩, ⟨"Photos", .evicted⟩] := by decide
  rw [← hmarks]
  exact ⟨Sample.reachable, ofMarks_marks Sample.tree Sample.reachable⟩

end PathTree
end SelectiveSync
