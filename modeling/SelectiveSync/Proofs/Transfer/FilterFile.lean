import SelectiveSync.Proofs.Rule.FirstMatch
import SelectiveSync.Proofs.Rule.Glob
import SelectiveSync.Proofs.Rule.Validity
import SelectiveSync.Proofs.System.Run
import SelectiveSync.Proofs.Text.Lines
import SelectiveSync.Transfer.Run

/-! # The file that carries a filter

A plan writes the lines of its filter to a file with a line end behind each. The program that reads
the file line by line finds the lines of the plan, as long as no name has a line end in it.

* `line_end_mem_anchored`: the line of a directive has a line end in it just when its path has, and
  `line_end_not_mem_directives`: where no mark has one, no directive has one.
* `run_writeFilter`: wherever a file can be made for the filter, it is made and holds the text of
  the filter.
* `filter_lines`: what is read from the file, for every tree that operations make. -/
namespace SelectiveSync
set_option autoImplicit false

/-! ## Line ends in directives -/

namespace Directive

theorem line_end_mem_escaped (path : String) :
    '\n' ∈ (escaped path).toList ↔ '\n' ∈ path.toList := by
  have hescape (c : Char) : '\n' ∈ Glob.escape c ↔ '\n' = c := by
    rw [Glob.escape]
    split <;> simp
  rw [Glob.toList_escaped, List.mem_flatMap]
  simp only [hescape]
  simp

theorem line_end_mem_anchored (d : Directive) :
    '\n' ∈ d.anchored.toList ↔ '\n' ∈ d.path.toList := by
  have hsign : '\n' ∉ d.polarity.sign.toList := by
    cases d.polarity <;> decide
  have hending : '\n' ∉ d.scope.ending.toList := by
    cases d.scope <;> decide
  rw [anchored]
  split
  · simp [text, pattern, hsign, hending]
  · split
    · simp [hsign, hending, line_end_mem_escaped]
    · simp [hsign, hending]

end Directive

namespace PathTree

theorem line_end_not_mem_directives {t : PathTree} (h : t.top.WellFormed)
    (hmarks : ∀ m ∈ t.marks, '\n' ∉ m.location.toList) {rules : List Directive}
    (hrules : t.directives = .ok rules) : ∀ d ∈ rules ++ [Directive.ambient], '\n' ∉ d.path.toList := by
  rw [directives_eq_ok h, Except.ok.injEq] at hrules
  subst hrules
  intro d hd
  rcases List.mem_append.1 hd with hd | hd
  · have hroot : d ∈ t.top.rules (Text.joined '/' []) := hd
    obtain ⟨m, hm, r, -, hpre, heq⟩ := Forest.mark_of_mem_rules h (by simp) hroot
    have hmark := hmarks ⟨Text.joined '/' m.1, m.2⟩ (List.mem_map_of_mem hm)
    rw [heq, List.nil_append]
    exact fun hn => hmark ((Text.joined_prefix hpre).subset hn)
  · rw [List.mem_singleton.1 hd]
    decide

end PathTree

/-! ## Plans and their files -/

namespace Sample

/-- A world with nothing but a directory for files that are soon gone. -/
def world : World where
  files := ⟨[(["tmp"], .directory)]⟩

theorem answer_world (programs : Executables) (self : Nat) :
    (world.answer programs self .newFilter).1 = .ok "/tmp/offsync-000000.filter" := rfl

/-- A tree with one inclusion, of a name with a line end in it. -/
def cutTree : PathTree :=
  ({} : PathTree).attempt .included ⟨["a\nb"], by simp, by decide⟩

theorem reachable_cutTree : cutTree.Reachable :=
  .attempt _ _ _ .empty

end Sample

namespace TransferPlan

/-- A push or a revert is given the filter of the target. -/
theorem rules_of (settings : Settings) {t : Target} {direction : Direction}
    (hdirection : direction = .push ∨ direction = .revert) (o : TransferOptions) (rootIsDir : Bool)
    {directives : List Directive} (h : t.filterRules = .ok directives) :
    ∃ plan, of settings t direction o rootIsDir = .ok plan ∧
      plan.rules = some (directives.map Directive.anchored) := by
  have hrules : rulesOf t = .ok (directives.map Directive.anchored) := by
    rw [rulesOf, h]
    rfl
  rcases hdirection with rfl | rfl
  · rw [of, hrules]
    exact ⟨_, rfl, rfl⟩
  · rw [of, hrules]
    exact ⟨_, rfl, rfl⟩

theorem run_writeFilter {programs : Executables} {self : Nat} {w : World} {file : String}
    (hfile : (w.answer programs self .newFilter).1 = .ok file) {plan : TransferPlan}
    {rules : List String} (hrules : plan.rules = some rules) :
    ∃ w', w.run programs self plan.writeFilter.run = (.ok (some file), w') ∧
      w'.files.read w'.cwd file = .ok (filterText rules).toUTF8 := by
  obtain ⟨files, hnew, hempty⟩ := World.answer_newFilter hfile
  obtain ⟨files', hwrite, hread⟩ := World.answer_append programs self (w := { w with files })
    hempty (filterText rules).toUTF8
  refine ⟨{ w with files := files' }, ?_, by simpa using hread⟩
  -- the file is made, its name is taken from the answer, and the text is written to its end
  rw [writeFilter, hrules]
  simp only
  refine (World.run_bind_ok (World.run_ask hnew) _).trans ?_
  refine (World.run_bind_ok (World.run_check_ok Error.system file { w with files }) _).trans ?_
  refine (World.run_bind_ok (World.run_ask hwrite) _).trans ?_
  rfl

/-! ## Lines of the file -/

theorem lines_filterText (directives : List Directive) :
    Text.lines (filterText (directives.map Directive.anchored)) =
      directives.flatMap fun d => Text.pieces '\n' d.anchored := by
  rw [filterText, Text.lines_join, List.flatMap_map]

theorem lines_filterText_eq_iff (directives : List Directive) :
    Text.lines (filterText (directives.map Directive.anchored)) =
        directives.map Directive.anchored ↔
      ∀ d ∈ directives, '\n' ∉ d.path.toList := by
  rw [filterText, Text.lines_join_eq_iff]
  simp only [List.forall_mem_map, Directive.line_end_mem_anchored]

/-- A push and a revert of a target are given the directives of its filter, in their order, and
wherever a file can be made for them, it can be read afterwards. Line by line it holds what stands
between the line ends of one directive after the other, and these are the lines of the plan just
when no directive is about a path with a line end in it, as is the case if no mark has one. -/
theorem filter_lines (settings : Settings) (t : Target) (h : t.tree.Reachable)
    (direction : Direction) (hdirection : direction = .push ∨ direction = .revert)
    (o : TransferOptions) (rootIsDir : Bool) :
    ∃ (directives : List Directive) (plan : TransferPlan) (content : String),
      t.filterRules = .ok directives ∧ of settings t direction o rootIsDir = .ok plan ∧
      plan.rules = some (directives.map Directive.anchored) ∧
      (∀ (programs : Executables) (self : Nat) (w : World) (file : String),
        (w.answer programs self .newFilter).1 = .ok file →
        ∃ w', w.run programs self plan.writeFilter.run = (.ok (some file), w') ∧
          w'.files.read w'.cwd file = .ok content.toUTF8) ∧
      Text.lines content = directives.flatMap (fun d => Text.pieces '\n' d.anchored) ∧
      (Text.lines content = directives.map Directive.anchored ↔
        ∀ d ∈ directives, '\n' ∉ d.path.toList) ∧
      ((∀ m ∈ t.tree.marks, '\n' ∉ m.location.toList) →
        Text.lines content = directives.map Directive.anchored) := by
  have hrules := PathTree.directives_eq_ok h.wellFormed
  have hfilter : t.filterRules = .ok (t.tree.top.rules "" ++ [Directive.ambient]) := by
    rw [Target.filterRules, Target.directives, hrules]
    rfl
  obtain ⟨plan, hplan, hgiven⟩ := rules_of settings hdirection o rootIsDir hfilter
  refine ⟨_, plan, _, hfilter, hplan, hgiven, fun programs self w file hfile => ?_,
    lines_filterText _, lines_filterText_eq_iff _, fun hmarks => ?_⟩
  · exact run_writeFilter hfile hgiven
  · rw [lines_filterText_eq_iff]
    exact PathTree.line_end_not_mem_directives h.wellFormed hmarks hrules

theorem filter_lines_sample :
    Sample.tree.Reachable ∧ ∃ plan content,
      of {} ⟨"host:/media", "/media", Sample.tree⟩ .revert {} true = .ok plan ∧
      (∃ w', Sample.world.run (fun _ _ _ w => (.ok none, w)) 1 plan.writeFilter.run =
          (.ok (some "/tmp/offsync-000000.filter"), w') ∧
        w'.files.read w'.cwd "/tmp/offsync-000000.filter" = .ok (String.toUTF8 content)) ∧
      Text.lines content = ["+ /Music/Jazz/", "- /Music/*", "+ /Music/", "- /Photos", "- /*"] := by
  obtain ⟨directives, plan, content, hfilter, hplan, -, hread, -, -, hlines⟩ :=
    filter_lines {} ⟨"host:/media", "/media", Sample.tree⟩ Sample.reachable .revert (Or.inr rfl) {}
      true
  have hmarks : ∀ m ∈ Sample.tree.marks, '\n' ∉ m.location.toList := by decide
  have hdirectives : .ok directives = (.ok [⟨.included, .directory, "Music/Jazz"⟩,
      ⟨.excluded, .contents, "Music"⟩, ⟨.included, .directory, "Music"⟩,
      ⟨.excluded, .exact, "Photos"⟩, .ambient] :
      Except Error (List Directive)) := hfilter.symm.trans (by decide)
  refine ⟨Sample.reachable, plan, content, hplan, hread _ 1 _ _ (Sample.answer_world _ 1), ?_⟩
  rw [hlines hmarks, Except.ok.inj hdirectives]
  decide

/-- A line end in the name of something included cuts its line in two. -/
theorem line_end_cuts_line :
    Sample.cutTree.Reachable ∧ ∃ plan,
      of {} ⟨"host:/media", "/media", Sample.cutTree⟩ .push {} true = .ok plan ∧
      plan.rules = some ["+ /a\nb/", "- /*"] ∧
      ∃ content, (∃ w', Sample.world.run (fun _ _ _ w => (.ok none, w)) 1 plan.writeFilter.run =
          (.ok (some "/tmp/offsync-000000.filter"), w') ∧
        w'.files.read w'.cwd "/tmp/offsync-000000.filter" = .ok (String.toUTF8 content)) ∧
      Text.lines content = ["+ /a", "b/", "- /*"] ∧
      Text.lines content ≠ ["+ /a\nb/", "- /*"] := by
  have hfilter : (⟨"host:/media", "/media", Sample.cutTree⟩ : Target).filterRules =
      .ok [⟨.included, .directory, "a\nb"⟩, .ambient] := by
    decide
  obtain ⟨plan, hplan, hgiven⟩ := rules_of {} (Or.inl rfl) {} true hfilter
  have hrules : plan.rules = some ["+ /a\nb/", "- /*"] := hgiven.trans (by decide)
  have hcut : Text.lines (filterText ["+ /a\nb/", "- /*"]) = ["+ /a", "b/", "- /*"] := by
    rw [filterText, Text.lines_join]
    decide
  refine ⟨Sample.reachable_cutTree, plan, hplan, hrules, _,
    run_writeFilter (Sample.answer_world _ 1) hrules, hcut, ?_⟩
  rw [hcut]
  decide

end TransferPlan
end SelectiveSync
