import SelectiveSync.Proofs.Rule.Meaning

/-! # Which directives are listed

A directory of a target is entered if it is the root or on the way to an inclusion, and only what is
in an entered directory is written about: directories that are included or entered are let in, of an
entered one everything else is left out, and an eviction that is on no way is left out by itself.

* `Directive.names`: the path of a directive, name by name.
* `Forest.Entered` and `Forest.Lists`: that rule. `mem_rules`: the directives listed are those that
  it asks for.
* `PathTree.OnWay` and `PathTree.mem_rules_iff`: the same of the paths of a tree. -/
namespace SelectiveSync
set_option autoImplicit false

theorem pieces_joined_names {p : List String} (hp : p ≠ []) (h : ∀ s ∈ p, IsName s) :
    Text.pieces '/' (Text.joined '/' p) = p :=
  Text.pieces_joined '/' p hp fun s hs => (h s hs).no_slash

/-- The names on the way that a directive's path spells out. -/
def Directive.names (e : Directive) : List String :=
  Text.pieces '/' e.path

theorem Directive.names_joined (polarity : Polarity) (scope : Scope) {p : List String} (hp : p ≠ [])
    (h : ∀ s ∈ p, IsName s) :
    Directive.names ⟨polarity, scope, Text.joined '/' p⟩ = p :=
  pieces_joined_names hp h

namespace Forest

theorem names_of_mem_rules {f : Forest} (h : f.WellFormed) {base : List String}
    (hbase : ∀ s ∈ base, IsName s) {e : Directive} (he : e ∈ f.rules (Text.joined '/' base)) :
    ∃ s ∈ f.names, ∃ r, e.names = base ++ s :: r := by
  obtain ⟨s, hs, r, hr, hpath⟩ := path_of_mem_rules h hbase he
  refine ⟨s, hs, r, ?_⟩
  rw [Directive.names, hpath]
  exact pieces_joined_names (by simp) (isName_append hbase hr)

theorem names_of_mem_block {n : String} {d : Decision} {below beside : Forest}
    (h : (node n d below beside).WellFormed) {base : List String} (hbase : ∀ s ∈ base, IsName s)
    {e : Directive} (he : e ∈ block (base ++ [n]) d below) : ∃ r, e.names = base ++ n :: r := by
  have hrow : e ∈ (node n d below .empty).rules (Text.joined '/' base) := by
    rw [rules_node hbase]
    exact List.mem_append_left _ he
  obtain ⟨s, hs, r, hnames⟩ := names_of_mem_rules h.alone hbase hrow
  rw [names, names, List.mem_singleton] at hs
  exact ⟨r, by rw [hnames, hs]⟩

/-! ## The rule -/

/-- The directory at a path is the one that the forest is in or is on the way to an inclusion. -/
def Entered (f : Forest) (p : List String) : Prop :=
  p = [] ∨ (f.belowAt p).reaches

/-- What asks for a directive of some kind about a node with these parts. -/
def Calls (d : Decision) (below : Forest) (polarity : Polarity) (scope : Scope) : Prop :=
  match scope with
  | .directory => polarity = .included ∧ (d = .included ∨ below.reaches)
  | .contents => polarity = .excluded ∧ below.reaches
  | .exact => polarity = .excluded ∧ d = .evicted ∧ ¬ below.reaches

/-- A directive of some kind is asked for at a path. -/
def Lists (f : Forest) (polarity : Polarity) (scope : Scope) (p : List String) : Prop :=
  f.Entered p.dropLast ∧ Calls (f.decisionAt p) (f.belowAt p) polarity scope

theorem not_calls_missing (polarity : Polarity) (scope : Scope) :
    ¬ Calls .undecided .empty polarity scope := by
  cases scope <;> simp [Calls, reaches]

theorem belowAt_of_not_mem {s : String} {f : Forest} (h : s ∉ f.names) (p : List String) :
    f.belowAt (s :: p) = .empty := by
  rw [belowAt, get?_of_not_mem h]
  rfl

theorem not_lists_of_not_mem {s : String} {f : Forest} (h : s ∉ f.names) (polarity : Polarity)
    (scope : Scope) (p : List String) : ¬ f.Lists polarity scope (s :: p) := by
  rintro ⟨-, hcalls⟩
  rw [decisionAt_of_not_mem h, belowAt_of_not_mem h] at hcalls
  exact not_calls_missing polarity scope hcalls

theorem reaches_of_belowAt {f : Forest} (h : f.WellFormed) {p : List String} (hp : p ≠ [])
    (hr : (f.belowAt p).reaches) : f.reaches := by
  obtain ⟨q, hq⟩ := (reaches_iff (h.belowAt p)).1 hr
  have hq0 : q ≠ [] := ne_nil_of_decided (f := f.belowAt p) (by simp [hq])
  rw [reaches_iff h]
  exact ⟨p ++ q, by rw [decisionAt_append p q hp hq0, hq]⟩

section
variable {n : String} {d : Decision} {below beside : Forest}

theorem lists_first (polarity : Polarity) (scope : Scope) :
    (node n d below beside).Lists polarity scope [n] ↔ Calls d below polarity scope := by
  rw [Lists, decisionAt_node, belowAt_node]
  simp [Entered]

theorem lists_below (h : below.WellFormed) (polarity : Polarity) (scope : Scope) {p : List String}
    (hp : p ≠ []) :
    (node n d below beside).Lists polarity scope (n :: p) ↔
      below.reaches ∧ below.Lists polarity scope p := by
  have hentered : (node n d below beside).Entered (n :: p).dropLast ↔
      below.reaches ∧ below.Entered p.dropLast := by
    rw [List.dropLast_cons_of_ne_nil hp, Entered, Entered, belowAt_node, if_pos rfl]
    by_cases hlast : p.dropLast = []
    · simp [hlast]
    · have hup := reaches_of_belowAt h hlast
      simp only [hlast, if_false, reduceCtorEq, false_or]
      tauto
  rw [Lists, Lists, hentered, decisionAt_node, belowAt_node, if_pos rfl, if_pos rfl, if_neg hp,
    if_neg hp]
  tauto

theorem lists_beside {s : String} (hn : n ≠ s) (polarity : Polarity) (scope : Scope)
    (p : List String) :
    (node n d below beside).Lists polarity scope (s :: p) ↔
      beside.Lists polarity scope (s :: p) := by
  have hentered : (node n d below beside).Entered (s :: p).dropLast ↔
      beside.Entered (s :: p).dropLast := by
    cases p with
    | nil => simp [Entered]
    | cons t p => rw [List.dropLast_cons_of_ne_nil (by simp), Entered, Entered, belowAt_node,
        if_neg hn]
  rw [Lists, Lists, hentered, decisionAt_node, belowAt_node, if_neg hn, if_neg hn]

/-! ## What is listed -/

theorem mem_block_iff {path : List String} (h : Fits d below) {e : Directive} :
    e ∈ block path d below ↔
      e.path = Text.joined '/' path ∧ Calls d below e.polarity e.scope ∨
        below.reaches ∧ e ∈ below.rules (Text.joined '/' path) := by
  obtain ⟨polarity, scope, text⟩ := e
  rw [block]
  by_cases hd : d = .included
  · have hnone : below.reaches = false := by rw [h.included hd, reaches]
    cases scope <;> simp [hd, hnone, Calls, and_comm]
  · by_cases hr : below.reaches
    · cases scope <;> simp [hd, hr, closed, Calls] <;> tauto
    · by_cases he : d = .evicted
      · cases scope <;> simp [hr, he, Calls, and_comm]
      · cases scope <;> simp [hd, hr, he, Calls]

end

/-- The directives listed for a row of siblings are those that the rule asks for. -/
theorem mem_rules {f : Forest} (h : f.WellFormed) {base : List String}
    (hbase : ∀ s ∈ base, IsName s) {e : Directive} :
    e ∈ f.rules (Text.joined '/' base) ↔
      ∃ p, p ≠ [] ∧ e.path = Text.joined '/' (base ++ p) ∧ f.Lists e.polarity e.scope p := by
  induction f generalizing base with
  | empty =>
    constructor
    · intro he
      cases he
    · rintro ⟨p, -, -, -, hcalls⟩
      rw [decisionAt_empty, belowAt_empty] at hcalls
      exact absurd hcalls (not_calls_missing _ _)
  | node n d below beside ihb ihs =>
    have hpath : ∀ s ∈ base ++ [n], IsName s := isName_append hbase (by simpa using h.isName)
    have hstep (p : List String) : base ++ [n] ++ p = base ++ n :: p := by simp
    rw [rules_node hbase, List.mem_append, mem_block_iff h.fits, ihb h.fits.below hpath,
      ihs h.beside hbase]
    constructor
    · rintro ((⟨hown, hcalls⟩ | ⟨hr, p, hp, heq, hlists⟩) | ⟨p, hp, heq, hlists⟩)
      · exact ⟨[n], by simp, hown, (lists_first _ _).2 hcalls⟩
      · exact ⟨n :: p, by simp, by rw [heq, hstep], (lists_below h.fits.below _ _ hp).2 ⟨hr, hlists⟩⟩
      · obtain ⟨s, p, rfl⟩ := List.exists_cons_of_ne_nil hp
        have hn : n ≠ s := by
          rintro rfl
          exact not_lists_of_not_mem h.fresh _ _ p hlists
        exact ⟨s :: p, by simp, heq, (lists_beside hn _ _ p).2 hlists⟩
    · rintro ⟨p, hp, heq, hlists⟩
      obtain ⟨s, p, rfl⟩ := List.exists_cons_of_ne_nil hp
      by_cases hn : n = s
      · subst hn
        by_cases hp : p = []
        · subst hp
          exact Or.inl (Or.inl ⟨heq, (lists_first _ _).1 hlists⟩)
        · obtain ⟨hr, hlists⟩ := (lists_below h.fits.below _ _ hp).1 hlists
          exact Or.inl (Or.inr ⟨hr, p, hp, by rw [heq, hstep], hlists⟩)
      · exact Or.inr ⟨s :: p, by simp, heq, (lists_beside hn _ _ p).1 hlists⟩

end Forest

namespace PathTree
open Forest

/-- Something included lies strictly beneath the path. -/
def OnWay (t : PathTree) (p : TreePath) : Prop :=
  ∃ q, p.IsAncestorOf q ∧ t.decisionAt q = .included

/-- The path is at the top, or the directory that it is in is on the way to an inclusion. -/
def InEntered (t : PathTree) (p : TreePath) : Prop :=
  ∀ q, p.parent? = some q → t.OnWay q

section
variable {t : PathTree} (h : t.top.WellFormed)
include h

theorem reaches_belowAt_iff (p : TreePath) : (t.belowAt p).reaches = true ↔ t.OnWay p := by
  rw [belowAt, reaches_iff (h.belowAt p.segments)]
  constructor
  · rintro ⟨r, hr⟩
    have hr0 : r ≠ [] := ne_nil_of_decided (f := t.top.belowAt p.segments) (by simp [hr])
    rw [← decisionAt_append p.segments r p.ne_nil hr0] at hr
    obtain ⟨q, hq⟩ := h.exists_path (l := p.segments ++ r) (by simp [hr])
    refine ⟨q, ?_, by rw [PathTree.decisionAt, hq, hr]⟩
    rw [TreePath.isAncestorOf_iff, hq]
    refine ⟨List.prefix_append _ _, fun heq => hr0 ?_⟩
    simpa using heq
  · rintro ⟨q, hanc, hq⟩
    obtain ⟨⟨r, hr⟩, hne⟩ := TreePath.isAncestorOf_iff.1 hanc
    have hr0 : r ≠ [] := by
      rintro rfl
      exact hne (by simpa using hr)
    refine ⟨r, ?_⟩
    rw [← decisionAt_append p.segments r p.ne_nil hr0, hr]
    exact hq

theorem entered_dropLast_iff (p : TreePath) :
    t.top.Entered p.segments.dropLast ↔ t.InEntered p := by
  rw [Entered, InEntered]
  cases hparent : p.parent? with
  | none =>
    rw [TreePath.parent?_eq_none] at hparent
    simp [hparent]
  | some q =>
    have hlast := TreePath.parent?_eq_some.1 hparent
    rw [hlast, ← show t.belowAt q = t.top.belowAt q.segments from rfl, reaches_belowAt_iff h]
    simp [q.ne_nil]

/-- Every directive is about a path. -/
theorem path_of_mem {e : Directive} (he : e ∈ t.top.rules "") : ∃ p : TreePath, e.path = p.text := by
  obtain ⟨s, -, r, hr, hpath⟩ := path_of_mem_rules h (List.forall_mem_nil IsName) he
  exact ⟨⟨s :: r, by simp, hr⟩, hpath⟩

theorem mem_rules_iff (polarity : Polarity) (scope : Scope) (p : TreePath) :
    ⟨polarity, scope, p.text⟩ ∈ t.top.rules "" ↔
      t.InEntered p ∧ Calls (t.decisionAt p) (t.belowAt p) polarity scope := by
  rw [← entered_dropLast_iff h]
  have hmem := mem_rules h (List.forall_mem_nil IsName) (e := ⟨polarity, scope, p.text⟩)
  rw [show Text.joined '/' [] = "" from rfl] at hmem
  rw [hmem]
  constructor
  · rintro ⟨q, hq, heq, hlists⟩
    have hnames : ∀ s ∈ q, IsName s := by
      by_contra hnot
      have hmissing : t.top.get? q = none := by
        cases hn : t.top.get? q with
        | none => rfl
        | some n => exact absurd (h.get hn).1 hnot
      have hcalls := hlists.2
      rw [Forest.decisionAt, Forest.belowAt, hmissing] at hcalls
      exact not_calls_missing _ _ hcalls
    have hpq : p.segments = q := by
      rw [← joined_inj p.names hnames]
      exact heq
    subst hpq
    exact hlists
  · intro hlists
    exact ⟨p.segments, p.ne_nil, rfl, hlists⟩

/-- Every directive is about a path in an entered directory that asks for it. -/
theorem exists_of_mem {e : Directive} (he : e ∈ t.top.rules "") :
    ∃ polarity scope, ∃ p : TreePath, e = ⟨polarity, scope, p.text⟩ ∧ t.InEntered p ∧
      Calls (t.decisionAt p) (t.belowAt p) polarity scope := by
  obtain ⟨polarity, scope, path⟩ := e
  obtain ⟨p, rfl : path = p.text⟩ := path_of_mem h he
  exact ⟨polarity, scope, p, rfl, (mem_rules_iff h polarity scope p).1 he⟩

end

end PathTree
end SelectiveSync
