import SelectiveSync.Proofs.Rule.Shape

/-! # Evictions that are refused because of what is let in

An eviction is refused while something beneath its path is included, and a directory with something
included beneath it is passed through by the directives. The two are found by different walks through
the tree.

* `Directive.lone`: the includes of a list that follow no exclusion of the same directory's contents.
* `lone_rules`: those of the list for a row of siblings are the outermost inclusions, in their order.
* `refused_iff_passed_through`: evictions and directives agree on which directories are passed
  through and on what is included beneath them. -/
namespace SelectiveSync
set_option autoImplicit false

namespace Directive

/-- The directives that let a directory in, less those right after an exclusion of its contents, in
a list that goes on after `last`. -/
def lone (last : Option Directive) : List Directive → List Directive
  | [] => []
  | e :: rest =>
    if e.polarity = .included ∧ e.scope = .directory ∧
        last ≠ some ⟨.excluded, .contents, e.path⟩ then
      e :: lone (some e) rest
    else lone (some e) rest

theorem lone_append (last : Option Directive) (a b : List Directive) :
    lone last (a ++ b) = lone last a ++ lone (a.getLast?.or last) b := by
  induction a generalizing last with
  | nil => rfl
  | cons e a ih =>
    have hlast : (e :: a).getLast?.or last = a.getLast?.or (some e) := by
      rw [List.getLast?_cons]
      cases a.getLast? <;> rfl
    rw [List.cons_append, lone, lone, ih, hlast]
    split
    · rfl
    · rfl

theorem Paired.scope_getLast? {rules : List Directive} (h : Paired rules) {e : Directive}
    (he : rules.getLast? = some e) : e.scope ≠ .contents := by
  intro hs
  rw [List.getLast?_eq_getElem?] at he
  have hnext := h _ e he hs
  have hlt := (List.getElem?_eq_some_iff.1 he).1
  have hlt' := (List.getElem?_eq_some_iff.1 hnext).1
  omega

/-- What the directive is about lies strictly beneath the path. -/
def IsBeneath (p : TreePath) (e : Directive) : Prop :=
  p.segments <+: e.names ∧ p.segments ≠ e.names

instance (p : TreePath) (e : Directive) : Decidable (e.IsBeneath p) :=
  inferInstanceAs (Decidable (_ ∧ _))

theorem isBeneath_text (polarity : Polarity) (scope : Scope) (p q : TreePath) :
    IsBeneath p ⟨polarity, scope, q.text⟩ ↔ p.IsAncestorOf q := by
  rw [IsBeneath, names, TreePath.pieces_text, TreePath.isAncestorOf_iff]

end Directive

namespace Forest
open Directive

/-! ## Rows of siblings -/

theorem included_eq_nil {f : Forest} (h : f.reaches = false) (base : List String) :
    f.included base = [] := by
  induction f generalizing base with
  | empty => rfl
  | node n d below beside ihb ihs =>
    simp only [reaches, Bool.or_eq_false_iff, decide_eq_false_iff_not] at h
    rw [included, if_neg h.1.1, ihb h.1.2, ihs h.2, List.nil_append]

section
variable {last : Option Directive} (hlast : ∀ e, last = some e → e.scope ≠ .contents)
include hlast

theorem lone_block {path : List String} {d : Decision} {below : Forest}
    (hbelow : lone last (below.rules (Text.joined '/' path)) =
      (below.included path).map fun q => ⟨.included, .directory, Text.joined '/' q⟩) :
    lone last (block path d below) =
      (if d = .included then [path] else below.included path).map fun q =>
        ⟨.included, .directory, Text.joined '/' q⟩ := by
  have hfirst : last ≠ some ⟨.excluded, .contents, Text.joined '/' path⟩ :=
    fun heq => hlast _ heq rfl
  rw [block]
  by_cases hd : d = .included
  · simp [hd, lone, hfirst]
  · rw [if_neg hd, if_neg hd]
    by_cases hr : below.reaches
    · rw [if_pos hr, closed_append, lone_append, hbelow]
      simp [lone]
    · rw [if_neg hr, included_eq_nil (by simpa using hr)]
      by_cases he : d = .evicted
      · simp [he, lone]
      · simp [he, lone]

/-- Whatever is let in by itself is one of the outermost inclusions, and these come in the same
order. -/
theorem lone_rules {f : Forest} (h : f.WellFormed) {base : List String}
    (hbase : ∀ s ∈ base, IsName s) :
    lone last (f.rules (Text.joined '/' base)) =
      (f.included base).map fun q => ⟨.included, .directory, Text.joined '/' q⟩ := by
  induction f generalizing base last with
  | empty => rfl
  | node n d below beside ihb ihs =>
    have hpath : ∀ s ∈ base ++ [n], IsName s := isName_append hbase (by simpa using h.isName)
    have hpaired : Paired (block (base ++ [n]) d below) :=
      paired_block (paired_rules h.fits.below hpath)
    have hnext : ∀ e, (block (base ++ [n]) d below).getLast?.or last = some e →
        e.scope ≠ .contents := by
      intro e he
      rcases Option.or_eq_some_iff.1 he with he | ⟨-, he⟩
      · exact hpaired.scope_getLast? he
      · exact hlast e he
    rw [rules_node hbase, lone_append, lone_block hlast (ihb hlast h.fits.below hpath),
      ihs hnext h.beside hbase, included, List.map_append]

end

end Forest

namespace PathTree
open Directive

section
variable {t : PathTree} (h : t.top.WellFormed)
include h

/-! ## Whole trees -/

theorem lone_top :
    lone none (t.top.rules "") =
      (t.ledger.filter fun e => e.2 = .included).map fun e =>
        ⟨.included, .directory, e.1.text⟩ := by
  have hstart : ∀ e, (none : Option Directive) = some e → e.scope ≠ .contents := by simp
  have hrow := Forest.lone_rules hstart h (List.forall_mem_nil IsName)
  rw [Forest.included_eq h, ← segments_ledger h, List.filter_map, List.map_map, List.map_map] at hrow
  exact hrow

theorem lone_beneath (p : TreePath) :
    (lone none (t.top.rules "")).filter (fun e => e.IsBeneath p) =
      (t.ledger.includedBeneath p).map fun q => ⟨.included, .directory, q.text⟩ := by
  have hbeneath : (fun e : Directive => Decidable.decide (e.IsBeneath p)) ∘
      (fun e : TreePath × Decision => (⟨.included, .directory, e.1.text⟩ : Directive)) =
      fun e => Decidable.decide (p.IsAncestorOf e.1) := by
    funext e
    simp only [Function.comp_apply, isBeneath_text]
  rw [lone_top h, List.filter_map, hbeneath, List.filter_filter, Ledger.includedBeneath,
    List.map_map]
  simp only [← Bool.decide_and, and_comm]
  rfl

theorem includedBeneath_eq_nil_iff (p : TreePath) : t.includedBeneath p = [] ↔ ¬ t.OnWay p := by
  rw [includedBeneath_eq h, List.map_eq_nil_iff, Ledger.includedBeneath, List.map_eq_nil_iff,
    List.filter_eq_nil_iff]
  constructor
  · rintro hnone ⟨q, hanc, hq⟩
    exact hnone (q, .included) ((mem_ledger h).2 ⟨by simp, hq⟩) (by simp [hanc])
  · rintro hoff ⟨q, d⟩ hmem hd
    simp only [decide_eq_true_eq] at hd
    obtain ⟨rfl, hanc⟩ := hd
    exact hoff ⟨q, hanc, ((mem_ledger h).1 hmem).2⟩

theorem contents_mem_iff (p : TreePath) :
    ⟨.excluded, .contents, p.text⟩ ∈ t.top.rules "" ↔ t.OnWay p := by
  refine ⟨fun hmem => ?_, fun hp => (mem_of_onWay h hp).1⟩
  exact (reaches_belowAt_iff h p).1 ((mem_rules_iff h _ _ p).1 hmem).2.2

end

theorem markEvicted_eq_includedBeneath {t : PathTree} {p q : TreePath} {count : Nat}
    {first : String} :
    t.markEvicted p = .error (.includedBeneath q count first) ↔
      q = p ∧ ∃ rest, t.includedBeneath p = first :: rest ∧ count = rest.length + 1 := by
  rw [markEvicted]
  cases t.includedBeneath p with
  | cons a rest =>
    simp only [Except.error.injEq, Error.includedBeneath.injEq, List.cons.injEq]
    constructor
    · rintro ⟨rfl, rfl, rfl⟩
      exact ⟨rfl, rest, ⟨rfl, rfl⟩, rfl⟩
    · rintro ⟨rfl, others, ⟨rfl, rfl⟩, rfl⟩
      exact ⟨rfl, rfl, rfl⟩
  | nil =>
    simp only [reduceCtorEq, false_and, exists_false, and_false, iff_false]
    cases t.ruling p with
    | included outer => by_cases ho : outer = p <;> simp [ho]
    | evicted outer => simp
    | ambient => simp

/-- For trees that operations made: the eviction of a path is refused because of what is included
beneath it just when the directives leave out the other contents of the directory at the path. The
refusal then counts the directives that let in something beneath the path and do not follow an
exclusion of the same directory's contents, and it names what the first of them lets in. -/
theorem refused_iff_passed_through (t : PathTree) (h : t.Reachable) (p : TreePath) :
    ∃ rules, t.directives = .ok rules ∧
      ((∃ q count first, t.markEvicted p = .error (.includedBeneath q count first)) ↔
        ⟨.excluded, .contents, p.text⟩ ∈ rules) ∧
      ∀ q count first, t.markEvicted p = .error (.includedBeneath q count first) →
        q = p ∧ count = ((lone none rules).filter fun e => e.IsBeneath p).length ∧
          ((lone none rules).filter fun e => e.IsBeneath p).head? =
            some ⟨.included, .directory, first⟩ := by
  have ht := h.wellFormed
  refine ⟨_, directives_eq_ok ht, ?_, fun q count first hrefused => ?_⟩
  · rw [contents_mem_iff ht, ← not_iff_not, ← includedBeneath_eq_nil_iff ht]
    simp only [markEvicted_eq_includedBeneath]
    constructor
    · intro hnone
      by_contra hne
      obtain ⟨first, rest, hlist⟩ := List.exists_cons_of_ne_nil hne
      exact hnone ⟨p, _, first, rfl, rest, hlist, rfl⟩
    · rintro hnil ⟨q, count, first, -, rest, hlist, -⟩
      rw [hnil] at hlist
      cases hlist
  · obtain ⟨rfl, rest, hlist, rfl⟩ := markEvicted_eq_includedBeneath.1 hrefused
    rw [includedBeneath_eq ht] at hlist
    obtain ⟨r, others, hsplit, rfl, rfl⟩ := List.map_eq_cons_iff.1 hlist
    rw [lone_beneath ht, hsplit]
    simp

theorem refused_iff_passed_through_sample :
    Sample.tree.Reachable ∧
      Sample.tree.markEvicted Sample.music =
        .error (.includedBeneath Sample.music 1 "Music/Jazz") ∧
      ⟨.excluded, .contents, "Music"⟩ ∈ Sample.rules ∧
      ((lone none Sample.rules).filter fun e => e.IsBeneath Sample.music).length = 1 := by
  obtain ⟨rules, hrules, hiff, hall⟩ :=
    refused_iff_passed_through Sample.tree Sample.reachable Sample.music
  rw [Sample.directives_tree] at hrules
  cases hrules
  have hrefused : Sample.tree.markEvicted Sample.music =
      .error (.includedBeneath Sample.music 1 "Music/Jazz") := by
    decide +kernel
  exact ⟨Sample.reachable, hrefused, hiff.1 ⟨_, _, _, hrefused⟩, (hall _ _ _ hrefused).2.1.symm⟩

end PathTree
end SelectiveSync
