import Mathlib.Logic.Relation
import Mathlib.Tactic.Tauto
import SelectiveSync.Rule.Synthesis

/-! # When a tree is found corrupt

A tree put together elsewhere may have names that no file can have, siblings that share one, and
nodes below inclusions.

* `Node.Faulty`: something is wrong with the nodes right below a node. `Node.Holds` and
  `Node.Exposes`: the nodes of a tree, and those of them at which directives are made.
* `checkBelow_eq_ok_iff` and `validate_eq_ok_iff`: what the two checks ask of a row of siblings.
* `directives_corrupt_iff`: the directives for a node are refused just when an exposed node is
  faulty, and how this compares with the check of the whole tree. -/
namespace SelectiveSync
set_option autoImplicit false

theorem bind_eq_ok_iff {ε : Type} {x y : Except ε Unit} :
    (x >>= fun _ => y) = .ok () ↔ x = .ok () ∧ y = .ok () := by
  cases x with
  | error e => simp [bind, Except.bind]
  | ok u => simp [bind, Except.bind]

namespace Forest

/-- The siblings, each with what is below it. -/
def toNodes : Forest → List Node
  | empty => []
  | node n d below beside => ⟨n, d, below⟩ :: beside.toNodes

theorem names_eq_map (f : Forest) : f.names = f.toNodes.map Node.name := by
  induction f with
  | empty => rfl
  | node n d below beside _ ih => rw [names, toNodes, List.map_cons, ih]

end Forest

namespace Node

def children (n : Node) : List Node :=
  n.below.toNodes

/-- A node right below has a name that no file can have, or two of them have the same name. -/
def Faulty (n : Node) : Prop :=
  (∃ c ∈ n.children, ¬ IsName c.name) ∨ ¬ (n.children.map Node.name).Nodup

/-- The second node is the first or somewhere below it. -/
def Holds : Node → Node → Prop :=
  Relation.ReflTransGen fun n c => c ∈ n.children

/-- The second node is the first or somewhere below it, and neither included nor below an inclusion,
the first node counted. -/
def Exposes (n m : Node) : Prop :=
  n.decision ≠ .included ∧
    Relation.ReflTransGen (fun n c => c ∈ n.children ∧ c.decision ≠ .included) n m

/-- No exposed node is faulty. -/
def Sound (n : Node) : Prop :=
  ∀ m, n.Exposes m → ¬ m.Faulty

/-- No node at all is faulty. -/
def Clean (n : Node) : Prop :=
  ∀ m, n.Holds m → ¬ m.Faulty

/-! ## One step down -/

theorem holds_iff {n m : Node} : n.Holds m ↔ n = m ∨ ∃ c ∈ n.children, c.Holds m :=
  Relation.ReflTransGen.cases_head_iff

theorem exposes_iff {n m : Node} :
    n.Exposes m ↔ n.decision ≠ .included ∧ (n = m ∨ ∃ c ∈ n.children, c.Exposes m) := by
  rw [Exposes, Relation.ReflTransGen.cases_head_iff]
  simp only [Exposes, and_assoc]

theorem clean_iff (n : Node) : n.Clean ↔ ¬ n.Faulty ∧ ∀ c ∈ n.children, c.Clean := by
  constructor
  · intro h
    refine ⟨h n (holds_iff.2 (Or.inl rfl)), fun c hc m hm => ?_⟩
    exact h m (holds_iff.2 (Or.inr ⟨c, hc, hm⟩))
  · rintro ⟨hown, hbelow⟩ m hm
    rcases holds_iff.1 hm with rfl | ⟨c, hc, hm⟩
    · exact hown
    · exact hbelow c hc m hm

theorem sound_iff (n : Node) :
    n.Sound ↔ (n.decision ≠ .included → ¬ n.Faulty ∧ ∀ c ∈ n.children, c.Sound) := by
  constructor
  · intro h hd
    refine ⟨h n (exposes_iff.2 ⟨hd, Or.inl rfl⟩), fun c hc m hm => ?_⟩
    exact h m (exposes_iff.2 ⟨hd, Or.inr ⟨c, hc, hm⟩⟩)
  · intro h m hm
    obtain ⟨hd, hm⟩ := exposes_iff.1 hm
    rcases hm with rfl | ⟨c, hc, hm⟩
    · exact (h hd).1
    · exact (h hd).2 c hc m hm

/-! ## Exposed nodes and all nodes -/

theorem Exposes.holds {n m : Node} (h : n.Exposes m) : n.Holds m :=
  Relation.ReflTransGen.mono (fun _ _ hc => hc.1) n m h.2

theorem Clean.sound {n : Node} (h : n.Clean) : n.Sound :=
  fun m hm => h m hm.holds

/-- Where nothing is below inclusions, whatever is not included itself is exposed. -/
theorem exposes_of_holds {n m : Node}
    (hleaf : ∀ c, n.Holds c → c.decision = .included → c.children = []) (h : n.Holds m)
    (hm : m.decision ≠ .included) : n.Exposes m := by
  induction h using Relation.ReflTransGen.head_induction_on with
  | refl => exact exposes_iff.2 ⟨hm, Or.inl rfl⟩
  | @head a c hc _ ih =>
    have hbelow : c.Exposes m := ih fun b hb => hleaf b (holds_iff.2 (Or.inr ⟨c, hc, hb⟩))
    refine exposes_iff.2 ⟨fun hd => ?_, Or.inr ⟨c, hc, hbelow⟩⟩
    rw [hleaf a (holds_iff.2 (Or.inl rfl)) hd] at hc
    cases hc

theorem clean_iff_sound {n : Node}
    (hleaf : ∀ m, n.Holds m → m.decision = .included → m.children = []) :
    n.Clean ↔ n.Sound := by
  refine ⟨Clean.sound, fun h m hm => ?_⟩
  by_cases hd : m.decision = .included
  · have hnone := hleaf m hm hd
    simp [Faulty, hnone]
  · exact h m (exposes_of_holds hleaf hm hd)

end Node

namespace Forest

/-! ## Checks of a row -/

/-- The names of a row are usable, and each is a new one to those before it, `seen` included. -/
def Named (seen : List String) (f : Forest) : Prop :=
  (∀ s ∈ f.names, IsName s) ∧ f.names.Nodup ∧ ∀ s ∈ f.names, s ∉ seen

theorem named_empty (seen : List String) : Forest.empty.Named seen := by
  simp [Named, names]

theorem named_node {n : String} {d : Decision} {below beside : Forest} {seen : List String} :
    (node n d below beside).Named seen ↔ IsName n ∧ n ∉ seen ∧ beside.Named (n :: seen) := by
  have hnew : (∀ s ∈ beside.names, s ∉ n :: seen) ↔
      n ∉ beside.names ∧ ∀ s ∈ beside.names, s ∉ seen := by
    constructor
    · intro h
      exact ⟨fun hn => h n hn (by simp), fun s hs hseen => h s hs (List.mem_cons_of_mem n hseen)⟩
    · rintro ⟨hn, h⟩ s hs hmem
      rcases List.mem_cons.1 hmem with rfl | hseen
      · exact hn hs
      · exact h s hs hseen
  simp only [Named, names, List.forall_mem_cons, List.nodup_cons, hnew]
  tauto

theorem named_iff_not_faulty (n : Node) : n.below.Named [] ↔ ¬ n.Faulty := by
  simp [Named, Node.Faulty, Node.children, names_eq_map]

theorem checkRow_eq_ok_iff {f : Forest} {base : String} {seen : List String} :
    f.checkRow base seen = .ok () ↔ f.Named seen := by
  induction f generalizing seen with
  | empty => exact iff_of_true rfl (named_empty seen)
  | node n d below beside _ ih =>
    rw [checkRow, named_node, IsName]
    cases hn : nameFault? n with
    | some fault => simp
    | none =>
      by_cases hseen : n ∈ seen
      · simp [hseen]
      · simp [hseen, ih]

theorem checkBelow_eq_ok_iff {f : Forest} {base : String} :
    f.checkBelow base = .ok () ↔ ∀ c ∈ f.toNodes, c.Sound := by
  induction f generalizing base with
  | empty => simp [checkBelow, toNodes]
  | node n d below beside ihb ihs =>
    rw [checkBelow, toNodes, List.forall_mem_cons, Node.sound_iff, ← named_iff_not_faulty]
    by_cases hd : d = .included
    · simp [hd, ihs]
    · rw [if_neg hd, bind_eq_ok_iff, bind_eq_ok_iff, checkRow_eq_ok_iff, ihb, ihs]
      simp [hd, Node.children, and_assoc]

theorem check_eq_ok_iff {n : Node} {base : String} (hd : n.decision ≠ .included) :
    n.below.check base = .ok () ↔ n.Sound := by
  rw [check, bind_eq_ok_iff, checkRow_eq_ok_iff, checkBelow_eq_ok_iff, named_iff_not_faulty,
    Node.sound_iff]
  simp [hd, Node.children]

theorem validate_eq_ok_iff {f : Forest} {base : String} {seen : List String} :
    f.validate base seen = .ok () ↔ f.Named seen ∧ ∀ c ∈ f.toNodes, c.Clean := by
  induction f generalizing base seen with
  | empty => simp [validate, toNodes, named_empty]
  | node n d below beside ihb ihs =>
    rw [validate, named_node, IsName, toNodes, List.forall_mem_cons, Node.clean_iff,
      ← named_iff_not_faulty]
    cases hn : nameFault? n with
    | some fault => simp
    | none =>
      by_cases hseen : n ∈ seen
      · simp [hseen]
      · simp only [hseen, if_false, bind_eq_ok_iff, ihb, ihs, Node.children]
        tauto

end Forest

namespace Node

/-! ## Directives for a node -/

theorem directives_of_sound {n : Node} (path : String) (h : n.Sound) :
    n.directives path = .ok (n.rules path) := by
  rw [directives]
  by_cases hd : n.decision = .included
  · rw [if_pos hd]
  · rw [if_neg hd, (Forest.check_eq_ok_iff hd).2 h]

theorem directives_of_not_sound {n : Node} (path : String) (h : ¬ n.Sound) :
    ∃ fault, n.directives path = .error (.corrupt fault) := by
  have hd : n.decision ≠ .included := fun hd => h ((sound_iff n).2 fun hne => absurd hd hne)
  rw [directives, if_neg hd]
  cases hcheck : n.below.check path with
  | error fault => exact ⟨fault, rfl⟩
  | ok u => exact absurd ((Forest.check_eq_ok_iff hd).1 hcheck) h

theorem not_sound_iff (n : Node) : ¬ n.Sound ↔ ∃ m, n.Exposes m ∧ m.Faulty := by
  simp [Sound]

/-- The names, inclusions and siblings of a tree may be anything. Its directives are refused, with
the corruption as the reason, just when some node that is neither included nor below an inclusion has
a node right below it with a name that no file can have or two with the same name, and in all other
cases they are given. If nothing is below inclusions, the check of all names refuses the same trees,
and in any case there are directives for every tree that passes it. -/
theorem directives_corrupt_iff (n : Node) (path : String) :
    ((∃ fault, n.directives path = .error (.corrupt fault)) ↔ ∃ m, n.Exposes m ∧ m.Faulty) ∧
      ((∃ rules, n.directives path = .ok rules) ↔ ¬ ∃ m, n.Exposes m ∧ m.Faulty) ∧
      ((∀ m, n.Holds m → m.decision = .included → m.children = []) →
        ((∃ e, n.directives path = .error e) ↔ ∃ fault, n.below.validate path [] = .error fault)) ∧
      (n.below.validate path [] = .ok () → ∃ rules, n.directives path = .ok rules) := by
  have hvalid : n.below.validate path [] = .ok () ↔ n.Clean := by
    rw [Forest.validate_eq_ok_iff, Forest.named_iff_not_faulty, clean_iff]
    rfl
  rw [← not_sound_iff, not_not]
  by_cases h : n.Sound
  · have hok := directives_of_sound path h
    refine ⟨by simp [hok, h], by simp [hok, h], fun hleaf => ?_, fun _ => ⟨_, hok⟩⟩
    rw [hok, hvalid.2 ((clean_iff_sound hleaf).2 h)]
    simp
  · obtain ⟨fault, herror⟩ := directives_of_not_sound path h
    refine ⟨by simp [herror, h], by simp [herror, h], fun hleaf => ?_, fun hv => ?_⟩
    · refine iff_of_true ⟨_, herror⟩ ?_
      cases hv : n.below.validate path [] with
      | error fault => exact ⟨fault, rfl⟩
      | ok u => exact absurd ((clean_iff_sound hleaf).1 (hvalid.1 hv)) h
    · exact absurd (hvalid.1 hv).sound h

theorem directives_corrupt_iff_sample :
    let hidden : Node :=
      ⟨"A", .undecided, .node "B" .included (.node "x/y" .evicted .empty .empty) .empty⟩
    let shown : Node :=
      ⟨"A", .undecided, .node "B" .included .empty (.node "B" .evicted .empty .empty)⟩
    (∃ rules, hidden.directives "A" = .ok rules) ∧
      hidden.below.validate "A" [] = .error (.badChild "x/y" "A/B" .slash) ∧
      (∃ fault, shown.directives "A" = .error (.corrupt fault)) ∧
      ∃ fault, shown.below.validate "A" [] = .error fault := by
  intro hidden shown
  obtain ⟨-, hgiven, -⟩ := directives_corrupt_iff hidden "A"
  obtain ⟨hrefused, -, hboth, -⟩ := directives_corrupt_iff shown "A"
  have hsound : ¬ ∃ m, hidden.Exposes m ∧ m.Faulty := by
    rintro ⟨m, hm, hfaulty⟩
    obtain ⟨-, rfl | ⟨c, hc, hm⟩⟩ := exposes_iff.1 hm
    · exact (Forest.named_iff_not_faulty hidden).1 ⟨by decide, by decide, by decide⟩ hfaulty
    · obtain rfl : c = ⟨"B", .included, .node "x/y" .evicted .empty .empty⟩ := by
        simpa [hidden, children, Forest.toNodes] using hc
      exact (exposes_iff.1 hm).1 rfl
  have hfaulty : shown.Faulty := by
    simp [Faulty, shown, children, Forest.toNodes]
  have hleaf : ∀ m, shown.Holds m → m.decision = .included → m.children = [] := by
    intro m hm
    rcases holds_iff.1 hm with rfl | ⟨c, hc, hm⟩
    · simp [shown]
    · have hc : c = ⟨"B", .included, .empty⟩ ∨ c = ⟨"B", .evicted, .empty⟩ := by
        simpa [shown, children, Forest.toNodes] using hc
      have hnone : c.children = [] := by
        rcases hc with rfl | rfl
        · rfl
        · rfl
      rw [holds_iff, hnone] at hm
      rcases hm with rfl | ⟨b, hb, -⟩
      · exact fun _ => hnone
      · cases hb
  obtain ⟨fault, herror⟩ := hrefused.2 ⟨shown, exposes_iff.2 ⟨by simp [shown], Or.inl rfl⟩, hfaulty⟩
  exact ⟨hgiven.2 hsound, rfl, ⟨fault, herror⟩, (hboth hleaf).1 ⟨_, herror⟩⟩

end Node
end SelectiveSync
