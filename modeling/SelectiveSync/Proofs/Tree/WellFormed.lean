import SelectiveSync.Proofs.Tree.Lookup
import SelectiveSync.Proofs.Tree.Path

/-! # Well-formed forests

What every forest made by the operations looks like: names are usable and no two siblings share one,
nothing is below an inclusion, and every placeholder leads somewhere, so that all leaves carry a
decision.

* `WellFormed.edit` and `WellFormed.clear`: the two ways to change a forest keep this.
* `decisionAt_clear`: taking a decision away shows at its own path only.
* `WellFormed.exists_decided`: a row of siblings holds a decision somewhere, and `exists_node_iff`:
  the nodes are those that lead to one. -/
namespace SelectiveSync
set_option autoImplicit false

namespace Forest

/-- Names are usable, siblings have different names, inclusions have nothing below them and
undecided nodes have something below them. -/
def WellFormed : Forest → Prop
  | empty => True
  | node n d below beside =>
    IsName n ∧ n ∉ beside.names ∧ (d = .included → below = .empty) ∧
      (d = .undecided → below ≠ .empty) ∧ below.WellFormed ∧ beside.WellFormed

/-- Well-formedness can be checked. -/
def decideWellFormed : (f : Forest) → Decidable f.WellFormed
  | empty => isTrue trivial
  | node n d below beside =>
    have := decideWellFormed below
    have := decideWellFormed beside
    inferInstanceAs (Decidable (IsName n ∧ n ∉ beside.names ∧ (d = .included → below = .empty) ∧
      (d = .undecided → below ≠ .empty) ∧ below.WellFormed ∧ beside.WellFormed))

instance : DecidablePred WellFormed := decideWellFormed

/-- What can stand at a node of a well-formed forest. -/
structure Fits (d : Decision) (below : Forest) : Prop where
  included : d = .included → below = .empty
  undecided : d = .undecided → below ≠ .empty
  below : below.WellFormed

theorem Fits.leaf {d : Decision} (h : d ≠ .undecided) : Fits d .empty :=
  ⟨fun _ => rfl, fun hd => absurd hd h, trivial⟩

namespace WellFormed

/-! ## Parts of a well-formed forest -/

section
variable {n : String} {d : Decision} {below others : Forest}

theorem isName (h : (node n d below others).WellFormed) : IsName n := h.1

theorem fresh (h : (node n d below others).WellFormed) : n ∉ others.names := h.2.1

theorem fits (h : (node n d below others).WellFormed) : Fits d below :=
  ⟨h.2.2.1, h.2.2.2.1, h.2.2.2.2.1⟩

theorem beside (h : (node n d below others).WellFormed) : others.WellFormed := h.2.2.2.2.2

theorem node (hn : IsName n) (hfresh : n ∉ others.names) (hfits : Fits d below)
    (hbeside : others.WellFormed) : (Forest.node n d below others).WellFormed :=
  ⟨hn, hfresh, hfits.included, hfits.undecided, hfits.below, hbeside⟩

end

theorem find {s : String} {f : Forest} {n : Node} (h : f.WellFormed) (hf : f.find? s = some n) :
    IsName s ∧ Fits n.decision n.below := by
  induction f with
  | empty => cases hf
  | node m d below beside _ ih =>
    rw [find?] at hf
    split at hf
    · next hm =>
      cases hf
      exact ⟨hm ▸ h.isName, h.fits⟩
    · exact ih h.beside hf

theorem get {p : List String} {f : Forest} {n : Node} (h : f.WellFormed)
    (hp : f.get? p = some n) : (∀ s ∈ p, IsName s) ∧ Fits n.decision n.below := by
  induction p generalizing f with
  | nil => cases hp
  | cons s p ih =>
    cases p with
    | nil =>
      have hn := h.find hp
      exact ⟨by simpa using hn.1, hn.2⟩
    | cons t rest =>
      rw [get?] at hp
      obtain ⟨m, hm, hrest⟩ := Option.bind_eq_some_iff.1 hp
      have hs := h.find hm
      have ht := ih hs.2.below hrest
      refine ⟨fun u hu => ?_, ht.2⟩
      rcases List.mem_cons.1 hu with rfl | hu
      · exact hs.1
      · exact ht.1 u hu

/-- A node and what is below it make a row of one. -/
theorem alone {n : String} {d : Decision} {below others : Forest}
    (h : (Forest.node n d below others).WellFormed) :
    (Forest.node n d below .empty).WellFormed :=
  .node h.isName (by simp [names]) h.fits trivial

theorem names_of_decided {p : List String} {f : Forest} (h : f.WellFormed)
    (hp : f.decisionAt p ≠ .undecided) : ∀ s ∈ p, IsName s := by
  rw [decisionAt] at hp
  cases hn : f.get? p with
  | none =>
    rw [hn] at hp
    exact absurd rfl hp
  | some n => exact (h.get hn).1

/-- What is decided is decided on a path. -/
theorem exists_path {f : Forest} (h : f.WellFormed) {l : List String}
    (hl : f.decisionAt l ≠ .undecided) : ∃ p : TreePath, p.segments = l :=
  ⟨⟨l, ne_nil_of_decided hl, h.names_of_decided hl⟩, rfl⟩

theorem belowAt {f : Forest} (h : f.WellFormed) (p : List String) : (f.belowAt p).WellFormed := by
  rw [Forest.belowAt]
  cases hp : f.get? p with
  | none => trivial
  | some n => exact (h.get hp).2.below

theorem belowAt_eq_empty {f : Forest} (h : f.WellFormed) {p : List String}
    (hp : f.decisionAt p = .included) : f.belowAt p = .empty := by
  rw [Forest.belowAt]
  rw [decisionAt] at hp
  cases hn : f.get? p with
  | none => rfl
  | some n =>
    rw [hn] at hp
    exact (h.get hn).2.included hp

/-- Nothing is decided beneath an inclusion. -/
theorem decisionAt_beneath {f : Forest} (h : f.WellFormed) {p q : List String}
    (hp : f.decisionAt p = .included) (hpq : p <+: q) (hne : p ≠ q) :
    f.decisionAt q = .undecided := by
  obtain ⟨r, rfl⟩ := hpq
  have hr : r ≠ [] := by
    rintro rfl
    exact hne (List.append_nil p).symm
  have hp0 : p ≠ [] := ne_nil_of_decided (f := f) (by simp [hp])
  rw [decisionAt_append p r hp0 hr, h.belowAt_eq_empty hp, decisionAt_empty]

/-- Every row of siblings leads to a decision. -/
theorem exists_decided {f : Forest} (h : f.WellFormed) (hne : f ≠ .empty) :
    ∃ p, f.decisionAt p ≠ .undecided := by
  induction f with
  | empty => exact absurd rfl hne
  | node n d below beside ih _ =>
    by_cases hd : d = .undecided
    · obtain ⟨p, hp⟩ := ih h.fits.below (h.fits.undecided hd)
      have hp0 : p ≠ [] := ne_nil_of_decided hp
      refine ⟨n :: p, ?_⟩
      rw [decisionAt_node, if_pos rfl, if_neg hp0]
      exact hp
    · refine ⟨[n], ?_⟩
      rw [decisionAt_node, if_pos rfl, if_pos rfl]
      exact hd

/-! ## Changing a node -/

theorem update {s : String} {g : Decision → Forest → Decision × Forest} {f : Forest}
    (h : f.WellFormed) (hs : IsName s)
    (hg : Fits (g (f.decisionAt [s]) (f.belowAt [s])).1 (g (f.decisionAt [s]) (f.belowAt [s])).2) :
    (f.update s g).WellFormed := by
  induction f with
  | empty => exact .node hs (by simp [names]) hg trivial
  | node n d below beside _ ih =>
    by_cases hn : n = s
    · simp only [decisionAt, Forest.belowAt, get?, find?, hn, if_true] at hg
      rw [Forest.update, if_pos hn]
      exact .node h.isName h.fresh hg h.beside
    · simp only [decisionAt, Forest.belowAt, get?, find?, hn, if_false] at hg ih
      rw [Forest.update, if_neg hn]
      refine .node h.isName ?_ h.fits (ih h.beside hg)
      have hfresh := h.fresh
      rw [mem_names_update]
      tauto

/-- A change at a path with no inclusion above it keeps a forest well-formed if what it makes can
stand at a node. -/
theorem edit {g : Decision → Forest → Decision × Forest} {p : List String} (hp : p ≠ [])
    {f : Forest} (h : f.WellFormed) (hnames : ∀ s ∈ p, IsName s)
    (habove : ∀ q, q <+: p → q ≠ p → f.decisionAt q ≠ .included)
    (hg : Fits (g (f.decisionAt p) (f.belowAt p)).1 (g (f.decisionAt p) (f.belowAt p)).2) :
    (Forest.edit g p f).WellFormed := by
  induction p generalizing f with
  | nil => exact absurd rfl hp
  | cons s p ih =>
    have hs := hnames s (by simp)
    cases p with
    | nil => exact h.update hs hg
    | cons t rest =>
      rw [edit_cons g s _ (by simp)]
      rw [decisionAt_cons s (t :: rest) (by simp), belowAt_cons s (t :: rest) (by simp)] at hg
      refine h.update hs ⟨fun hd => ?_, fun _ => edit_ne_empty g _ (by simp) _, ?_⟩
      · exact absurd hd (habove [s] (by simp [List.cons_prefix_cons]) (by simp))
      · refine ih (by simp) (h.belowAt [s]) (fun u hu => hnames u (List.mem_cons_of_mem _ hu))
          (fun q hq hne => ?_) hg
        by_cases hq0 : q = []
        · rw [hq0]
          simp
        · rw [← decisionAt_cons s q hq0]
          exact habove (s :: q) (List.cons_prefix_cons.2 ⟨rfl, hq⟩) (by simpa using hne)

theorem settle {d : Decision} {p : List String} (hp : p ≠ []) {f : Forest} (h : f.WellFormed)
    (hnames : ∀ s ∈ p, IsName s) (habove : ∀ q, q <+: p → q ≠ p → f.decisionAt q ≠ .included)
    (hd : d ≠ .undecided) : (f.settle d p).WellFormed :=
  h.edit hp hnames habove (Fits.leaf hd)

theorem mark {d : Decision} {p : List String} (hp : p ≠ []) {f : Forest} (h : f.WellFormed)
    (hnames : ∀ s ∈ p, IsName s) (habove : ∀ q, q <+: p → q ≠ p → f.decisionAt q ≠ .included)
    (hd : d ≠ .undecided) (hbelow : d = .included → f.belowAt p = .empty) :
    (f.mark d p).WellFormed :=
  h.edit hp hnames habove ⟨hbelow, fun hu => absurd hu hd, h.belowAt p⟩

end WellFormed

/-! ## Nodes and decisions -/

/-- The nodes of a well-formed forest are those at and above a decision. -/
theorem exists_node_iff {f : Forest} (h : f.WellFormed) (p : List String) :
    (∃ n, f.get? p = some n) ↔ p ≠ [] ∧ ∃ q, p <+: q ∧ f.decisionAt q ≠ .undecided := by
  constructor
  · rintro ⟨n, hn⟩
    have hp : p ≠ [] := by
      rintro rfl
      cases hn
    refine ⟨hp, ?_⟩
    by_cases hd : n.decision = .undecided
    · have hfits := (h.get hn).2
      obtain ⟨r, hr⟩ := hfits.below.exists_decided (hfits.undecided hd)
      refine ⟨p ++ r, List.prefix_append p r, ?_⟩
      rw [decisionAt_append p r hp (ne_nil_of_decided hr), belowAt, hn]
      exact hr
    · refine ⟨p, List.prefix_rfl, ?_⟩
      rw [decisionAt, hn]
      exact hd
  · rintro ⟨hp, q, ⟨r, rfl⟩, hq⟩
    cases hn : f.get? p with
    | some n => exact ⟨n, rfl⟩
    | none =>
      refine absurd ?_ hq
      by_cases hr : r = []
      · rw [hr, List.append_nil, decisionAt, hn]
        rfl
      · rw [decisionAt_append p r hp hr, belowAt, hn]
        exact decisionAt_empty r

theorem map_decision_get? {f g : Forest} (hf : f.WellFormed) (hg : g.WellFormed)
    (h : ∀ p, f.decisionAt p = g.decisionAt p) (p : List String) :
    (f.get? p).map Node.decision = (g.get? p).map Node.decision := by
  have hnode : (∃ n, f.get? p = some n) ↔ ∃ n, g.get? p = some n := by
    rw [exists_node_iff hf, exists_node_iff hg]
    simp only [h]
  have hp := h p
  rw [decisionAt, decisionAt] at hp
  cases hn : f.get? p with
  | none =>
    cases hm : g.get? p with
    | none => rfl
    | some m =>
      obtain ⟨n, hn'⟩ := hnode.2 ⟨m, hm⟩
      rw [hn] at hn'
      cases hn'
  | some n =>
    obtain ⟨m, hm⟩ := hnode.1 ⟨n, hn⟩
    rw [hn, hm] at hp
    rw [hm]
    exact congrArg some hp

/-! ## Taking a decision away -/

theorem names_useful_subset {n : String} {d : Decision} {below beside : Forest} {s : String}
    (h : s ∈ (useful n d below beside).names) : s = n ∨ s ∈ beside.names := by
  rw [useful] at h
  split at h
  · exact Or.inr h
  · simpa [names] using h

theorem names_clear_subset {p : List String} {f : Forest} {s : String}
    (h : s ∈ (clear p f).names) : s ∈ f.names := by
  fun_induction clear p f with
  | case1 => exact h
  | case2 => exact h
  | case3 n d below beside =>
    have := names_useful_subset h
    simpa [names] using this
  | case4 n d below beside t more _ =>
    have := names_useful_subset h
    simpa [names] using this
  | case5 s' rest n d below beside hn ih =>
    simp only [names, List.mem_cons] at h ⊢
    tauto

theorem WellFormed.useful {n : String} {d : Decision} {below beside : Forest} (hn : IsName n)
    (hfresh : n ∉ beside.names) (hinc : d = .included → below = .empty) (hbelow : below.WellFormed)
    (hbeside : beside.WellFormed) : (Forest.useful n d below beside).WellFormed := by
  rw [Forest.useful]
  split
  · exact hbeside
  · next h => exact .node hn hfresh ⟨hinc, fun hd hb => h ⟨hd, hb⟩, hbelow⟩ hbeside

theorem clear_empty (p : List String) : clear p .empty = .empty := by
  rw [clear]

theorem WellFormed.clear {f : Forest} (h : f.WellFormed) (p : List String) :
    (Forest.clear p f).WellFormed := by
  fun_induction Forest.clear p f with
  | case1 => exact h
  | case2 => exact h
  | case3 n d below beside =>
    exact .useful h.isName h.fresh (by simp) h.fits.below h.beside
  | case4 n d below beside t more ih =>
    refine .useful h.isName h.fresh (fun hd => ?_) (ih h.fits.below) h.beside
    rw [h.fits.included hd, clear_empty]
  | case5 s rest n d below beside hn ih =>
    exact .node h.isName (fun hm => h.fresh (names_clear_subset hm)) h.fits (ih h.beside)

theorem decisionAt_useful {n : String} {d : Decision} {below beside : Forest}
    (hfresh : n ∉ beside.names) (p : List String) :
    (useful n d below beside).decisionAt p = (node n d below beside).decisionAt p := by
  rw [useful]
  split
  · next h =>
    obtain ⟨rfl, rfl⟩ := h
    cases p with
    | nil => rfl
    | cons s rest =>
      rw [decisionAt_node]
      by_cases hn : n = s
      · subst hn
        rw [if_pos rfl, decisionAt_of_not_mem hfresh]
        split <;> simp
      · rw [if_neg hn]
  · rfl

/-- Taking the decision at a path away changes nothing else. -/
theorem decisionAt_clear {f : Forest} (h : f.WellFormed) (p q : List String) :
    (clear p f).decisionAt q = if q = p then .undecided else f.decisionAt q := by
  fun_induction clear p f generalizing q with
  | case1 p => simp
  | case2 f hf =>
    split
    · next hq => rw [hq, decisionAt_nil]
    · rfl
  | case3 n d below beside =>
    rw [decisionAt_useful h.fresh]
    cases q with
    | nil => simp
    | cons s r =>
      rw [decisionAt_node, decisionAt_node]
      by_cases hn : n = s
      · subst hn
        by_cases hr : r = [] <;> simp [hr]
      · simp [hn, Ne.symm hn]
  | case4 n d below beside t more ih =>
    rw [decisionAt_useful h.fresh]
    cases q with
    | nil => simp
    | cons s r =>
      rw [decisionAt_node, decisionAt_node]
      by_cases hn : n = s
      · subst hn
        by_cases hr : r = []
        · simp [hr]
        · simp [hr, ih h.fits.below]
      · simp [hn, Ne.symm hn]
  | case5 s rest n d below beside hn ih =>
    cases q with
    | nil => simp
    | cons t r =>
      rw [decisionAt_node, decisionAt_node, ih h.beside]
      by_cases hnt : n = t
      · subst hnt
        simp [hn]
      · simp [hnt]

end Forest
end SelectiveSync
