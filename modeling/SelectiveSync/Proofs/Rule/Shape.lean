import SelectiveSync.Proofs.Rule.Membership

/-! # The shape of a list of directives

* `Directive.MayPrecede`: what is said of any two directives of a list, and `Directive.Paired`: what
  follows each directive about the contents of a directory. `pairwise_rules` and `paired_rules`: the
  lists for a row of siblings have both properties.
* `PathTree.Shape` says how the list for a whole tree looks, and `shape_directives` that the lists
  for all trees that operations make look like this. -/
namespace SelectiveSync
set_option autoImplicit false

namespace Directive

/-- The directives are different, and the second is not about something strictly beneath what the
first is about. -/
def MayPrecede (a b : Directive) : Prop :=
  a ≠ b ∧ (a.names <+: b.names → a.names = b.names)

/-- Right after everything else in a directory is left out, the directory itself is let in. -/
def Paired (rules : List Directive) : Prop :=
  ∀ (i : Nat) (e : Directive), rules[i]? = some e → e.scope = .contents →
    rules[i + 1]? = some ⟨.included, .directory, e.path⟩

theorem Paired.append {a b : List Directive} (ha : Paired a) (hb : Paired b) : Paired (a ++ b) := by
  intro i e he hs
  by_cases hi : i < a.length
  · rw [List.getElem?_append_left hi] at he
    have hnext := ha i e he hs
    have hi' : i + 1 < a.length := (List.getElem?_eq_some_iff.1 hnext).1
    rw [List.getElem?_append_left hi', hnext]
  · have hi : a.length ≤ i := by omega
    rw [List.getElem?_append_right hi] at he
    rw [List.getElem?_append_right (by omega), ← hb _ e he hs]
    congr 1
    omega

theorem paired_singleton {e : Directive} (h : e.scope ≠ .contents) : Paired [e] := by
  intro i a ha hs
  have ha := List.mem_singleton.1 (List.mem_of_getElem? ha)
  rw [ha] at hs
  exact absurd hs h

theorem paired_pair (path : String) :
    Paired [⟨.excluded, .contents, path⟩, ⟨.included, .directory, path⟩] := by
  intro i e he hs
  match i with
  | 0 =>
    cases he
    rfl
  | 1 =>
    cases he
    cases hs
  | i + 2 => cases he

end Directive

namespace Forest
open Directive

/-! ## One block -/

theorem closed_append (path : List String) (below : Forest) (e : Directive) :
    closed path below ++ [e] = below.rules (Text.joined '/' path) ++
      [⟨.excluded, .contents, Text.joined '/' path⟩, e] := by
  rw [closed, List.append_assoc]
  rfl

theorem paired_block {path : List String} {d : Decision} {below : Forest}
    (h : Paired (below.rules (Text.joined '/' path))) : Paired (block path d below) := by
  rw [block]
  split
  · exact paired_singleton (by simp)
  · split
    · rw [closed_append]
      exact h.append (paired_pair _)
    · split
      · exact paired_singleton (by simp)
      · intro i e he
        cases he

/-- The two directives that close an entered directory are about that directory. -/
theorem names_of_mem_pair {path : List String} (hne : path ≠ []) (hpath : ∀ s ∈ path, IsName s)
    {e : Directive} (he : e ∈ [⟨.excluded, .contents, Text.joined '/' path⟩,
      (⟨.included, .directory, Text.joined '/' path⟩ : Directive)]) : e.names = path := by
  rcases List.mem_pair.1 he with rfl | rfl
  · exact names_joined _ _ hne hpath
  · exact names_joined _ _ hne hpath

theorem pairwise_block {path : List String} {d : Decision} {below : Forest} (hne : path ≠ [])
    (hpath : ∀ s ∈ path, IsName s) (hbelow : below.WellFormed)
    (h : (below.rules (Text.joined '/' path)).Pairwise MayPrecede) :
    (block path d below).Pairwise MayPrecede := by
  rw [block]
  split
  · exact List.pairwise_singleton _ _
  · split
    · -- what is in the directory has longer paths than the two directives that close it
      rw [closed_append, List.pairwise_append]
      refine ⟨h, ?_, ?_⟩
      · rw [List.pairwise_pair]
        refine ⟨by simp, fun _ => ?_⟩
        rw [names_joined _ _ hne hpath, names_joined _ _ hne hpath]
      · intro a ha b hb
        obtain ⟨s, -, r, ha⟩ := names_of_mem_rules hbelow hpath ha
        have hb : b.names = path := names_of_mem_pair hne hpath hb
        have hlonger : ¬ a.names <+: b.names := by
          intro hpre
          have hlen := hpre.length_le
          rw [ha, hb, List.length_append, List.length_cons] at hlen
          omega
        refine ⟨?_, fun hpre => absurd hpre hlonger⟩
        rintro rfl
        exact hlonger List.prefix_rfl
    · split
      · exact List.pairwise_singleton _ _
      · exact List.Pairwise.nil

/-! ## A row of siblings -/

theorem paired_rules {f : Forest} (h : f.WellFormed) {base : List String}
    (hbase : ∀ s ∈ base, IsName s) : Paired (f.rules (Text.joined '/' base)) := by
  induction f generalizing base with
  | empty =>
    intro i e he
    cases he
  | node n d below beside ihb ihs =>
    have hpath : ∀ s ∈ base ++ [n], IsName s := isName_append hbase (by simpa using h.isName)
    rw [rules_node hbase]
    exact (paired_block (ihb h.fits.below hpath)).append (ihs h.beside hbase)

theorem pairwise_rules {f : Forest} (h : f.WellFormed) {base : List String}
    (hbase : ∀ s ∈ base, IsName s) : (f.rules (Text.joined '/' base)).Pairwise MayPrecede := by
  induction f generalizing base with
  | empty => exact List.Pairwise.nil
  | node n d below beside ihb ihs =>
    have hpath : ∀ s ∈ base ++ [n], IsName s := isName_append hbase (by simpa using h.isName)
    rw [rules_node hbase, List.pairwise_append]
    refine ⟨pairwise_block (by simp) hpath h.fits.below (ihb h.fits.below hpath),
      ihs h.beside hbase, ?_⟩
    -- directives about different siblings have paths that part at the sibling
    intro a ha b hb
    obtain ⟨r, ha⟩ := names_of_mem_block h hbase ha
    obtain ⟨s, hs, q, hb⟩ := names_of_mem_rules h.beside hbase hb
    have hnot : ¬ a.names <+: b.names := by
      intro hpre
      rw [ha, hb, List.prefix_append_right_inj, List.cons_prefix_cons] at hpre
      exact h.fresh (hpre.1 ▸ hs)
    refine ⟨?_, fun hpre => absurd hpre hnot⟩
    rintro rfl
    exact hnot List.prefix_rfl

end Forest

namespace PathTree
open Directive

/-! ## A whole tree -/

/-- How the list of directives for a tree looks. -/
structure Shape (t : PathTree) (rules : List Directive) : Prop where
  paths : ∀ e ∈ rules, ∃ p : TreePath, e.path = p.text
  nodup : rules.Nodup
  deeperFirst : ∀ (i j : Nat) (a b : Directive) (p q : TreePath), rules[i]? = some a →
    rules[j]? = some b → a.path = p.text → b.path = q.text → q.IsAncestorOf p → i < j
  polarity : ∀ e ∈ rules, e.polarity = match e.scope with
    | .directory => .included
    | .contents => .excluded
    | .exact => .excluded
  contents : ∀ (i : Nat) (e : Directive), rules[i]? = some e → e.scope = .contents →
    rules[i + 1]? = some ⟨.included, .directory, e.path⟩
  directory : ∀ (i : Nat) (p : TreePath), rules[i]? = some ⟨.included, .directory, p.text⟩ →
    (∀ j, j + 1 = i → rules[j]? ≠ some ⟨.excluded, .contents, p.text⟩) →
    t.decisionAt p = .included
  parents : ∀ (i : Nat) (e : Directive) (p q : TreePath), rules[i]? = some e → e.path = p.text →
    p.parent? = some q → ∃ j k, i < j ∧ i < k ∧
      rules[j]? = some ⟨.excluded, .contents, q.text⟩ ∧
      rules[k]? = some ⟨.included, .directory, q.text⟩
  evictions : ∀ p : TreePath, ⟨.excluded, .exact, p.text⟩ ∈ rules ↔
    t.decisionAt p = .evicted ∧ ¬ t.OnWay p ∧ ∀ q, p.parent? = some q → t.OnWay q

section
variable {t : PathTree} (h : t.top.WellFormed)
include h

theorem paired_top : Paired (t.top.rules "") :=
  Forest.paired_rules h (List.forall_mem_nil IsName)

theorem pairwise_top : (t.top.rules "").Pairwise MayPrecede :=
  Forest.pairwise_rules h (List.forall_mem_nil IsName)

theorem nodup_top : (t.top.rules "").Nodup :=
  (pairwise_top h).imp fun hab => hab.1

theorem lt_of_isAncestorOf {i j : Nat} {a b : Directive} {p q : TreePath}
    (hi : (t.top.rules "")[i]? = some a) (hj : (t.top.rules "")[j]? = some b)
    (ha : a.path = p.text) (hb : b.path = q.text) (hanc : q.IsAncestorOf p) : i < j := by
  obtain ⟨hi', rfl⟩ := List.getElem?_eq_some_iff.1 hi
  obtain ⟨hj', rfl⟩ := List.getElem?_eq_some_iff.1 hj
  obtain ⟨hpre, hne⟩ := TreePath.isAncestorOf_iff.1 hanc
  by_contra hle
  rcases Nat.lt_or_eq_of_le (Nat.le_of_not_lt hle) with hlt | rfl
  · have hmay := List.pairwise_iff_getElem.1 (pairwise_top h) j i hj' hi' hlt
    have hnames := hmay.2
    rw [Directive.names, Directive.names, ha, hb, TreePath.pieces_text,
      TreePath.pieces_text] at hnames
    exact hne (hnames hpre)
  · rw [ha, TreePath.text_inj] at hb
    exact hne (by rw [hb])

omit h in
/-- A directory on the way to an inclusion is itself in an entered directory. -/
theorem OnWay.inEntered {p : TreePath} (hp : t.OnWay p) : t.InEntered p := by
  obtain ⟨q, hanc, hq⟩ := hp
  intro r hr
  exact ⟨q, (TreePath.isAncestorOf_of_parent? hr).trans hanc, hq⟩

omit h in
/-- All directories around a path in an entered directory are on the way to an inclusion. -/
theorem InEntered.onWay {p r : TreePath} (hp : t.InEntered p) (hr : r.IsAncestorOf p) :
    t.OnWay r := by
  cases hparent : p.parent? with
  | none =>
    have hlen := congrArg List.length (TreePath.parent?_eq_none.1 hparent)
    have hlt := hr.1
    have hpos := r.segments_length_pos
    rw [List.length_dropLast, List.length_nil] at hlen
    omega
  | some q =>
    obtain ⟨s, hqs, hs⟩ := hp q hparent
    have hlast := TreePath.parent?_eq_some.1 hparent
    have hpre : r.segments <+: q.segments := by
      have hlt := hr.1
      refine List.prefix_of_prefix_length_le hr.2 (hlast ▸ List.dropLast_prefix _) ?_
      rw [← hlast, List.length_dropLast]
      omega
    rcases TreePath.isPrefix_iff.1 hpre with rfl | hrq
    · exact ⟨s, hqs, hs⟩
    · exact ⟨s, hrq.trans hqs, hs⟩

theorem mem_of_onWay {p : TreePath} (hp : t.OnWay p) :
    ⟨.excluded, .contents, p.text⟩ ∈ t.top.rules "" ∧
      ⟨.included, .directory, p.text⟩ ∈ t.top.rules "" := by
  have hr := (reaches_belowAt_iff h p).2 hp
  rw [mem_rules_iff h, mem_rules_iff h]
  exact ⟨⟨hp.inEntered, rfl, hr⟩, hp.inEntered, rfl, Or.inr hr⟩

theorem shape_rules : t.Shape (t.top.rules "") where
  paths := fun e he => path_of_mem h he
  nodup := nodup_top h
  deeperFirst := fun i j a b p q => lt_of_isAncestorOf h
  polarity := by
    intro e he
    obtain ⟨polarity, scope, p, rfl, -, hcalls⟩ := exists_of_mem h he
    cases scope with
    | directory => exact hcalls.1
    | contents => exact hcalls.1
    | exact => exact hcalls.1
  contents := paired_top h
  directory := by
    intro i p hi halone
    obtain ⟨hin, -, hd | hr⟩ := (mem_rules_iff h _ _ p).1 (List.mem_of_getElem? hi)
    · exact hd
    · -- an entered directory has both directives, one after the other, and each only once
      have hway := (reaches_belowAt_iff h p).1 hr
      obtain ⟨j, hj⟩ := List.getElem?_of_mem (mem_of_onWay h hway).1
      have hnext := paired_top h j _ hj rfl
      have hlt := (List.getElem?_eq_some_iff.1 hi).1
      have heq : i = j + 1 := (List.getElem?_inj hlt (nodup_top h)).1 (hi.trans hnext.symm)
      exact absurd hj (halone j heq.symm)
  parents := by
    intro i e p q hi hpath hparent
    obtain ⟨polarity, scope, path⟩ := e
    obtain rfl : path = p.text := hpath
    obtain ⟨hin, -⟩ := (mem_rules_iff h polarity scope p).1 (List.mem_of_getElem? hi)
    have hway := hin q hparent
    have hanc := TreePath.isAncestorOf_of_parent? hparent
    obtain ⟨hcontents, hdirectory⟩ := mem_of_onWay h hway
    obtain ⟨j, hj⟩ := List.getElem?_of_mem hcontents
    obtain ⟨k, hk⟩ := List.getElem?_of_mem hdirectory
    exact ⟨j, k, lt_of_isAncestorOf h hi hj rfl rfl hanc, lt_of_isAncestorOf h hi hk rfl rfl hanc,
      hj, hk⟩
  evictions := by
    intro p
    rw [mem_rules_iff h, ← reaches_belowAt_iff h, InEntered, Forest.Calls]
    simp only [true_and, Bool.not_eq_true]
    tauto

end

/-- The directives for a tree that operations made: each stands there once; what is about something
deeper comes before what is about a directory around it; directories are let in, contents and single
entries are left out; a directory whose other contents are left out is let in right after, and any
other directory that is let in is included; what is about something in a directory is followed by
both directives about that directory; and single entries are left out just for evictions that are on
no way to an inclusion and stand at the top or in a directory that is on such a way. -/
theorem shape_directives (t : PathTree) (h : t.Reachable) :
    ∃ rules, t.directives = .ok rules ∧ t.Shape rules :=
  ⟨_, directives_eq_ok h.wellFormed, shape_rules h.wellFormed⟩

theorem shape_directives_sample :
    Sample.tree.Reachable ∧ Sample.tree.Shape [⟨.included, .directory, "Music/Jazz"⟩,
      ⟨.excluded, .contents, "Music"⟩, ⟨.included, .directory, "Music"⟩,
      ⟨.excluded, .exact, "Photos"⟩] := by
  obtain ⟨rules, hrules, hshape⟩ := shape_directives Sample.tree Sample.reachable
  have hlist : Sample.tree.directives = .ok [⟨.included, .directory, "Music/Jazz"⟩,
      ⟨.excluded, .contents, "Music"⟩, ⟨.included, .directory, "Music"⟩,
      ⟨.excluded, .exact, "Photos"⟩] := by
    decide +kernel
  rw [hlist] at hrules
  cases hrules
  exact ⟨Sample.reachable, hshape⟩

end PathTree
end SelectiveSync
