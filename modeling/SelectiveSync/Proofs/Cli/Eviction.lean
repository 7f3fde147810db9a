import SelectiveSync.Cli.Bookkeeping
import SelectiveSync.Proofs.Registry.Eviction
import SelectiveSync.Proofs.Registry.Persistence

/-! # Local copies that are deleted

An exclusion resolves its path, stores the eviction and then deletes what is at the path.

* `run_edit` and `calls_excludeResolved`: nothing is deleted before the eviction is stored.
* `location_of_resolve`: what is at the resolved path is what the path led to.
* `exclude_clears`: a directory whose eviction is granted is deleted.
* `exclude_removes_excluded`: what is deleted, the stored registry excludes. -/
namespace SelectiveSync
set_option autoImplicit false

open Registry Storage

namespace Cli

section
variable {programs : Executables} {self : Nat} {s : Session} {w w' : World} {k l t : Location}
  {d : Decision} {path : String}

/-! ## The stored decision -/

/-- What a decision makes of a registry, with what is told of it. -/
def decided (d : Decision) (path : String) (r : Registry) : Except Failure (String × Registry) :=
  ((r.decide d path).map fun found =>
    ((Edit.decide d path).subject r, found.2)).mapError Failure.operation

theorem quiet_decision (d : Decision) (path : String) (r : Registry) :
    (ofTask ((Edit.decide d path).perform r)).run.Quiet (decided d path r) := by
  have hdecided : decided d path r = (((Edit.decide d path).apply r).map fun s =>
      ((Edit.decide d path).subject r, s)).mapError Failure.operation := by
    rw [decided, Edit.apply]
    cases r.decide d path <;> rfl
  rw [hdecided]
  exact (Edit.quiet_perform _ r).bind .done

variable (programs) in
/-- A decision on the stored registry is made and stored, or refused. What is refused takes nothing
away, and as long as nobody holds the lock it is refused for the registry's own reason. -/
theorem run_edit (d : Decision) (path : String)
    (hsite : Sited w.files w.cwd (NormalPath.ofText s.config.targetsFile) self k l t)
    (hclear : ∀ x ∈ w.locks, x.location ≠ k ∧ x.location ≠ t) {r : Registry}
    (hstored : stored (NormalPath.ofText s.config.targetsFile).text (w.content k) = .ok r) :
    ∃ (out : Except Failure String) (tr : Trail) (w' : World),
      w.run programs self (s.edit (.decide d path)).run = (out, w') ∧
      tr.Alone w w' self k l t ∧
      (∀ e, out = .error e → (∀ m x, w.files.get? m = some x → w'.files.get? m = some x) ∧
        (w.allows l .exclusive = true → ∃ cause, r.decide d path = .error cause)) ∧
      ∀ a, out = .ok a → ∃ p r', r.decide d path = .ok (p, r') ∧
        stored (NormalPath.ofText s.config.targetsFile).text (w'.content k) = .ok r' := by
  obtain ⟨out, tr, w', hrun, hupdated, halone⟩ :=
    run_update Failure.operation (quiet_decision d path) hsite hclear
  refine ⟨out, tr, w', hrun, halone, ?_⟩
  have hmade : changed Failure.operation (NormalPath.ofText s.config.targetsFile).text
      (decided d path) (w.content k) = decided d path r := by
    rw [changed, hstored]
    rfl
  have houtcome := (hupdated.outcome halone).2
  rw [hmade, decided] at houtcome
  rcases houtcome with ⟨e, rfl, -, hwhy⟩ | ⟨a, r', rfl, hchanged, x, hx⟩
  · refine ⟨fun _ _ => ⟨fun m x hx => hupdated.kept halone hx, fun hallows => ?_⟩,
      fun _ h => by cases h⟩
    have hfail := hwhy hallows
    cases hdecide : r.decide d path with
    | error cause => exact ⟨cause, rfl⟩
    | ok found =>
      rw [hdecide] at hfail
      cases hfail
  · refine ⟨fun _ h => (by cases h), fun _ _ => ?_⟩
    cases hdecide : r.decide d path with
    | error cause =>
      rw [hdecide] at hchanged
      cases hchanged
    | ok found =>
      rw [hdecide] at hchanged
      cases hchanged
      obtain ⟨hs, hw⟩ := sorted_stored hstored
      have happly : (Edit.decide d path).apply r = .ok found.2 := by
        rw [Edit.apply, hdecide]
        rfl
      have hmakes := Edit.makes_of_apply happly
      refine ⟨found.1, found.2, rfl, ?_⟩
      rw [World.content_of_file hx, stored_bytes,
        ofToml_toToml (sorted_makes hs hmakes) (wellFormed_makes hw hmakes)]

/-! ## What is asked on the way -/

theorem calls_edit (hsite : Sited w.files w.cwd (NormalPath.ofText s.config.targetsFile) self k l t)
    (hclear : ∀ x ∈ w.locks, x.location ≠ k ∧ x.location ≠ t) {c : Call}
    (h : w.Calls programs self (s.edit (.decide d path)).run w' c) : c.removes = false := by
  have hfollows : Follows (NormalPath.ofText s.config.targetsFile).text self (fun _ _ => True)
      (Updated Failure.operation (NormalPath.ofText s.config.targetsFile).text _) {}
      (s.edit (.decide d path)).run :=
    follows_update Trail.idle_start (quiet_decision d path) fun _ _ _ _ => trivial
  exact hfollows.not_removes (NormalPath.canonical_ofText _) hsite (Trail.alone_start hclear).fits h

theorem calls_tellDone {message : String} {c : Call}
    (h : w.Calls programs self (tellDone message).run w' c) : c.removes = false := by
  obtain ⟨-, rfl⟩ := World.calls_ask h
  rfl

/-- What is deleted is at the path, in the world in which the deletion began but for the log. -/
theorem calls_deleteLocal {p : String} {c : Call}
    (h : w.Calls programs self (deleteLocal p).run w' c) (hc : c.removes = true) :
    w'.files = w.files ∧ w'.cwd = w.cwd ∧ (c = .removeFile p ∨ c = .removeTree p) := by
  rcases World.calls_andThen h with hlog | ⟨⟨⟩, w₁, hlog, h⟩
  · obtain ⟨-, rfl⟩ := World.calls_ask hlog
    cases hc
  have hfiles : w₁.files = w.files ∧ w₁.cwd = w.cwd := by
    cases hlog
    exact ⟨rfl, rfl⟩
  rcases World.calls_andThen h with hkind | ⟨kind, w₂, hkind, h⟩
  · obtain ⟨-, rfl⟩ := World.calls_ask hkind
    cases hc
  have hsame : w₂ = w₁ := by
    have hkeep : (w₁.answer programs self (.kind p)).2 = w₁ := World.answer_kind_keeps p w₁
    exact (congrArg Prod.snd hkind).symm.trans hkeep
  subst hsame
  have hremove {c₀ : Call} {result : c₀.Reply → Except Fault Unit} (h : w₂.Calls programs self
      (Task.ask c₀ >>= fun r => ofFault (Task.check id (result r))).run w' c) :
      w' = w₂ ∧ c = c₀ := by
    rcases World.calls_andThen h with hask | ⟨r, w₃, -, h⟩
    · exact World.calls_ask hask
    · cases h
  cases kind with
  | none => cases h
  | some kind =>
    cases kind with
    | directory =>
      obtain ⟨rfl, rfl⟩ := hremove h
      exact ⟨hfiles.1, hfiles.2, Or.inr rfl⟩
    | file =>
      obtain ⟨rfl, rfl⟩ := hremove h
      exact ⟨hfiles.1, hfiles.2, Or.inl rfl⟩

/-! ## The resolved path -/

variable (programs self) in
theorem run_resolve (path : String) (w : World) :
    w.run programs self (resolve path).run =
      (((w.run programs self (resolvedPath path).run).1.map fun p =>
        (NormalPath.ofText p).text).mapError fun cause => .operation (.file cause), w) :=
  World.run_mapError (run_canonicalize path w)

/-- A path that was resolved is in normal form. -/
theorem ofText_resolve {p : String} (h : (w.run programs self (resolve path).run).1 = .ok p) :
    (NormalPath.ofText p).text = p := by
  rw [run_resolve, mapError_eq_ok] at h
  cases hraw : (w.run programs self (resolvedPath path).run).1 with
  | error cause =>
    rw [hraw] at h
    cases h
  | ok raw =>
    rw [hraw] at h
    cases h
    rw [NormalPath.ofText_text (NormalPath.canonical_ofText raw)]

/-- What is found at a resolved path that an eviction is granted for is what the path led to, if the
path led anywhere and there was no backslash on the way. -/
theorem location_of_resolve {p : String}
    (h : (w.run programs self (resolve path).run).1 = .ok p) (hways : w.files.SameWays w'.files)
    {r r' : Registry} {rel : TreePath} (hdecide : r.decide d p = .ok (rel, r')) {b o : Location}
    {y x : Entry} (hb : w.files.entry w.cwd (WrittenPath.append w.cwd.text path) = .ok (b, y))
    (hback : '\\' ∉ b.text.toList) (hplace : w'.files.locate w'.cwd false p = .ok (.found o x)) :
    o = b ∧ o.text = p := by
  have hp : (NormalPath.ofText b.text).text = p := by
    rw [run_resolve, run_resolvedPath_of_entry hb] at h
    exact Except.ok.inj h
  have hne : b ≠ [] := by
    rintro rfl
    obtain ⟨t, -, -, -, -, hrel⟩ := exists_of_decide hdecide
    have hroot : (Location.path []).text = (NormalPath.ofText p).text := by
      rw [← hp]
      decide +kernel
    have hnil : (Location.path []).relativeTo? (NormalPath.ofText t.root) = some rel.text := by
      rw [NormalPath.relativeTo?, hroot]
      exact hrel
    exact Location.ne_nil_of_relativeTo? hnil rfl
  have hdirect : w'.files.Direct b :=
    (FileSystem.direct_of_entry (Location.isAbsolute_append _ _) hb).sameWays hways
  obtain ⟨htext, hlocation⟩ := location_of_text hdirect hne hback
  have hbp : b.text = p := htext.symm.trans hp
  rw [← hbp] at hplace
  have ho : o = b := hlocation hplace
  exact ⟨ho, ho ▸ hbp⟩

/-! ## Deletions -/

/-- The part of an exclusion that comes after its path was resolved. -/
def excludeResolved (s : Session) (evict : Bool) (p : String) : CommandTask Unit := do
  let q ← s.edit (.decide .evicted p)
  tellDone ("Excluded " ++ q ++ ".")
  if evict then
    deleteLocal p
    tellDone ("Deleted local copy " ++ p ++ ".")

theorem exclude_eq (s : Session) (path : String) (evict : Bool) :
    exclude s path evict = resolve path >>= excludeResolved s evict := rfl

/-- What is removed once a path was resolved is at the path, and the eviction is stored by then. -/
theorem calls_excludeResolved
    (hsite : Sited w.files w.cwd (NormalPath.ofText s.config.targetsFile) self k l t)
    (hclear : ∀ x ∈ w.locks, x.location ≠ k ∧ x.location ≠ t) {r : Registry}
    (hstored : stored (NormalPath.ofText s.config.targetsFile).text (w.content k) = .ok r)
    {evict : Bool} {p : String} {c : Call}
    (h : w.Calls programs self (excludeResolved s evict p).run w' c) (hc : c.removes = true) :
    evict = true ∧ (c = .removeFile p ∨ c = .removeTree p) ∧ w.files.SameWays w'.files ∧
      ∃ rel r', r.decide .evicted p = .ok (rel, r') ∧
        stored (NormalPath.ofText s.config.targetsFile).text (w'.content k) = .ok r' := by
  rcases World.calls_andThen h with h | ⟨q, w₁, hq, h⟩
  · rw [calls_edit hsite hclear h] at hc
    cases hc
  obtain ⟨out, tr, w₂, hrun, halone, -, hdone⟩ :=
    run_edit programs .evicted p hsite hclear hstored
  rw [hq] at hrun
  cases hrun
  obtain ⟨rel, r', hdecide, hnow⟩ := hdone q rfl
  rcases World.calls_andThen h with h | ⟨⟨⟩, w₂, htell, h⟩
  · rw [calls_tellDone h] at hc
    cases hc
  cases evict with
  | false => cases h
  | true =>
    rcases World.calls_andThen h with h | ⟨⟨⟩, w₃, -, h⟩
    · obtain ⟨hfiles, -, hpath⟩ := calls_deleteLocal h hc
      have hsame : w'.files = w₁.files := by
        cases htell
        exact hfiles
      refine ⟨rfl, hpath, hsame ▸ halone.ways, rel, r', hdecide, ?_⟩
      rw [← hnow, World.content_congr]
      rw [hsame]
    · rw [calls_tellDone h] at hc
      cases hc

variable (programs self) in
/-- A directory is deleted with all that is in it. -/
theorem run_deleteLocal {p : String} {o : Location}
    (h : w.files.locate w.cwd false p = .ok (.found o .directory)) :
    ∃ w', w.run programs self (deleteLocal p).run = (.ok (), w') ∧
      w'.files = w.files.eraseTree o := by
  have hentry : w.files.entry w.cwd p = .ok (o, .directory) := by
    refine FileSystem.entry_eq_ok.2 (FileSystem.locate_follow h fun l target hlink => ?_)
    cases hlink
  let v : World := { w with log := w.log ++
    [⟨.debug, "offsync::commands::mark", "deleting evicted local copy", [("path", p)]⟩] }
  have hkind : v.answer programs self (.kind p) = (some .directory, v) := by
    have hv : v.files.entry v.cwd p = .ok (o, .directory) := hentry
    rw [World.answer, hv]
  have hremove : v.answer programs self (.removeTree p) =
      (.ok (), { v with files := w.files.eraseTree o }) := by
    have hv : v.files.removeTree v.cwd p = .ok (w.files.eraseTree o) := by
      rw [FileSystem.removeTree, show v.files.locate v.cwd false p = _ from h]
    rw [World.answer, hv]
    rfl
  refine ⟨{ v with files := w.files.eraseTree o }, ?_, rfl⟩
  refine (World.run_bind_ok (show _ = ((.ok () : Except Failure Unit), v) from rfl) _).trans ?_
  refine (World.run_bind_ok (World.run_ask hkind) _).trans ?_
  exact World.run_bind_ok (World.run_ask hremove) _

/-- An eviction that is granted while nobody holds the lock is stored, and the directory that the
resolved path leads to is deleted, unless the registry's own file is in it. -/
theorem exclude_clears
    (hsite : Sited w.files w.cwd (NormalPath.ofText s.config.targetsFile) self k l t)
    (hclear : ∀ x ∈ w.locks, x.location ≠ k ∧ x.location ≠ t)
    (hfree : w.allows l .exclusive = true) {r r' : Registry} {rel : TreePath}
    (hstored : stored (NormalPath.ofText s.config.targetsFile).text (w.content k) = .ok r)
    {p : String} (hp : w.run programs self (resolve path).run = (.ok p, w))
    (hdecide : r.decide .evicted p = .ok (rel, r')) {o : Location}
    (hplace : w.files.locate w.cwd false p = .ok (.found o .directory)) (hk : ¬ o <+: k) :
    ∃ w', w.run programs self (exclude s path true).run = (.ok (), w') ∧
      stored (NormalPath.ofText s.config.targetsFile).text (w'.content k) = .ok r' ∧
      ∀ m, o <+: m → m ≠ [] → w'.files.get? m = none := by
  obtain ⟨out, tr, w₁, hedit, halone, hfail, hdone⟩ :=
    run_edit programs .evicted p hsite hclear hstored
  cases out with
  | error cause =>
    obtain ⟨e, he⟩ := (hfail cause rfl).2 hfree
    rw [hdecide] at he
    cases he
  | ok q =>
    obtain ⟨rel', s', hsame, hnow⟩ := hdone q rfl
    rw [hdecide] at hsame
    cases hsame
    have hplace₁ : w₁.files.locate w₁.cwd false p = .ok (.found o .directory) := by
      rw [halone.cwd]
      exact FileSystem.locate_kept halone.ways hplace
    let message (text : String) (v : World) : World := { v with out := v.out ++ text }
    have htell (text : String) (v : World) : v.run programs self (tellDone text).run =
        (.ok (), message ("OK " ++ text ++ "\n") v) := rfl
    have htold : (message ("OK " ++ ("Excluded " ++ q ++ ".") ++ "\n") w₁).files.locate
        w₁.cwd false p = .ok (.found o .directory) := hplace₁
    obtain ⟨w₂, hdelete, hfiles⟩ := run_deleteLocal programs self htold
    have hget (m : Location) :
        w₂.files.get? m = if m ≠ [] ∧ o <+: m then none else w₁.files.get? m := by
      rw [hfiles]
      exact FileSystem.get?_eraseTree w₁.files o m
    refine ⟨message ("OK " ++ ("Deleted local copy " ++ p ++ ".") ++ "\n") w₂, ?_, ?_, ?_⟩
    · rw [exclude_eq]
      refine (World.run_bind_ok hp _).trans ?_
      refine (World.run_bind_ok hedit _).trans ?_
      refine (World.run_bind_ok (htell _ _) _).trans ?_
      refine (World.run_bind_ok hdelete _).trans ?_
      exact htell _ _
    · rw [← hnow, World.content_congr]
      refine (hget k).trans (if_neg fun hand => hk hand.2)
    · exact fun m hom hm => (hget m).trans (if_pos ⟨hm, hom⟩)

variable (programs self s path) in
/-- What is removed when a path is excluded is at the resolved path or beneath, and the eviction is
stored by then. The stored registry excludes it as long as the resolved path is the path of the
location that it leads to, as it is if the path led anywhere and there was no backslash on the way. An
eviction that is refused takes nothing away. -/
theorem exclude_removes_excluded (evict : Bool) {edits : List Edit}
    (hsite : Sited w.files w.cwd (NormalPath.ofText s.config.targetsFile) self k l t)
    (hclear : ∀ x ∈ w.locks, x.location ≠ k ∧ x.location ≠ t)
    (hstored : stored (NormalPath.ofText s.config.targetsFile).text (w.content k) =
      .ok (after {} edits)) :
    (∀ w₁ c, w.Calls programs self (exclude s path evict).run w₁ c → c.removes = true →
      evict = true ∧ ∃ p rel r,
        (w.run programs self (resolve path).run).1 = .ok p ∧
        (after {} edits).decide .evicted p = .ok (rel, r) ∧
        stored (NormalPath.ofText s.config.targetsFile).text (w₁.content k) = .ok r ∧
        ∀ m, w₁.TakesAway programs self c m →
          ∃ o x, w₁.files.locate w₁.cwd false p = .ok (.found o x) ∧ o <+: m ∧
            (o.text = p → (∀ n ∈ m, IsName n) → r.Excludes rel m) ∧
            ∀ b y, w.files.entry w.cwd (WrittenPath.append w.cwd.text path) = .ok (b, y) →
              '\\' ∉ b.text.toList → o = b ∧ o.text = p) ∧
    ((∀ p rel r, (w.run programs self (resolve path).run).1 = .ok p →
        (after {} edits).decide .evicted p ≠ .ok (rel, r)) →
      ∀ m e, w.files.get? m = some e →
        (w.run programs self (exclude s path evict).run).2.files.get? m = some e) := by
  have hresolve := run_resolve programs self path w
  rw [exclude_eq]
  constructor
  · intro w₁ c hcalls hc
    rcases World.calls_andThen hcalls with hcalls | ⟨p, w₂, hp, hcalls⟩
    · have hlooks := World.asked_of_calls (asks_canonicalize path) (World.calls_mapError hcalls)
      cases hlooks <;> cases hc
    have hpath : (w.run programs self (resolve path).run).1 = .ok p := congrArg Prod.fst hp
    have hw₂ : w₂ = w := by
      rw [hresolve] at hp
      exact (congrArg Prod.snd hp).symm
    rw [hw₂] at hcalls
    obtain ⟨hevict, hremoval, hways, rel, r, hdecide, hnow⟩ :=
      calls_excludeResolved hsite hclear hstored hcalls hc
    refine ⟨hevict, p, rel, r, hpath, hdecide, hnow, fun m htakes => ?_⟩
    obtain ⟨o, x, hplace, hom⟩ := World.removed_beneath hremoval htakes
    refine ⟨o, x, hplace, hom, fun ho hnames => ?_, fun b y hb hback => ?_⟩
    · exact excludes_of_decide (separate_empty.after edits) (wellFormed_empty.after edits) hdecide
        (ho.trans (ofText_resolve hpath).symm) hom hnames
    · exact location_of_resolve hpath hways hdecide hb hback hplace
  · intro hrefused m e hm
    cases hres : (w.run programs self (resolve path).run).1 with
    | error cause =>
      have hrun : w.run programs self (resolve path).run = (.error cause, w) := by
        rw [← hres, hresolve]
      rw [World.run_bind_error hrun]
      exact hm
    | ok p =>
      have hrun : w.run programs self (resolve path).run = (.ok p, w) := by
        rw [← hres, hresolve]
      obtain ⟨out, tr, w', hedit, -, hfail, hdone⟩ :=
        run_edit programs .evicted p hsite hclear hstored
      cases out with
      | error cause =>
        rw [World.run_bind_ok hrun, excludeResolved, World.run_bind_error hedit]
        exact (hfail cause rfl).1 m e hm
      | ok q =>
        obtain ⟨rel, r, hdecide, -⟩ := hdone q rfl
        exact absurd hdecide (hrefused p rel r hres)

end
end Cli

namespace Sample

/-- Two targets, and an inclusion in the second. -/
def linkedEdits : List Edit :=
  [.add "h:/m/" "/m", .add "h:/o/" "/o", .decide .included "/o/b"]

/-- The first target holds a link to the second. -/
def linked : World where
  files := ⟨[(["m"], .directory), (["m", "a"], .link "/o"), (["m", "c"], .directory),
    (["o"], .directory), (["o", "b"], .directory),
    (["targets.toml"], .file (after {} linkedEdits).bytes false)]⟩

def linkedSession : Cli.Session :=
  ⟨⟨"/"⟩, 0⟩

theorem targetsFile_linked : NormalPath.ofText linkedSession.config.targetsFile =
    NormalPath.ofText "/targets.toml" := by decide +kernel

theorem get?_linked : linked.files.get? ["targets.toml"] =
    some (.file (after {} linkedEdits).bytes false) := by
  simp [FileSystem.get?, linked, List.lookup]

theorem sited_linked : Sited linked.files linked.cwd
    (NormalPath.ofText linkedSession.config.targetsFile) 1 ["targets.toml"] ["targets.toml.lock"]
      [".targets.toml." ++ toString 1 ++ ".tmp"] := by
  have hnone {name : String} (h : linked.files.entries.lookup [name] = none) :
      linked.files.HoldsFile [name] := by
    intro e he
    rw [FileSystem.get?, if_neg (by simp), h] at he
    cases he
  have hnew : ".targets.toml." ++ toString 1 ++ ".tmp" = ".targets.toml.1.tmp" := by decide +kernel
  rw [targetsFile_linked]
  refine sited [] List.mem_cons_self ?_ (hnone ?_) (hnone ?_)
  · intro e he
    rw [get?_linked] at he
    cases he
    exact ⟨_, _, rfl⟩
  · simp [linked, List.lookup]
  · rw [hnew]
    simp [linked, List.lookup]

theorem stored_linked :
    stored (NormalPath.ofText linkedSession.config.targetsFile).text
      (linked.content ["targets.toml"]) = .ok (after {} linkedEdits) := by
  rw [World.content_of_file get?_linked, stored_bytes,
    ofToml_toToml (sorted_empty.after _) (wellFormed_empty.after _)]

theorem walk_linked (follow : Bool) :
    linked.files.walk follow 40 [] ["m", "c"] = .ok (.found ["m", "c"] .directory) ∧
      linked.files.walk follow 40 [] ["m"] = .ok (.found ["m"] .directory) ∧
      linked.files.walk follow 40 [] ["m", "a\\b"] = .ok (.vacant ["m"] "a\\b") ∧
      linked.files.walk follow 40 [] ["m", "a", "b"] = .ok (.found ["o", "b"] .directory) := by
  have hshort : ∀ n ∈ ["m", "c", "a", "b", "o", "a\\b"], ¬ 255 < n.utf8ByteSize := by decide
  simp only [List.forall_mem_cons] at hshort
  obtain ⟨hm, hc, ha, hb, ho, hab, -⟩ := hshort
  have hparts : FileSystem.parts "/o" = ["o"] := by decide +kernel
  have habs : Text.startsWith '/' "/o" = true := by decide
  refine ⟨?_, ?_, ?_, ?_⟩
  all_goals
    simp [FileSystem.walk, FileSystem.walkToLink, FileSystem.get?, linked, List.lookup, hm, hc, ha,
      hb, ho, hab, hparts, habs]

theorem locate_linked (follow : Bool) (path : String) {ps : List String} {place : Place}
    (hparts : FileSystem.parts path = ps) (habs : Text.startsWith '/' path = true)
    (hpath : '\x00' ∉ path.toList ∧ path ≠ "" ∧ path.utf8ByteSize < 4096)
    (hwalk : linked.files.walk follow 40 [] ps = .ok place) :
    linked.files.locate linked.cwd follow path = .ok place := by
  refine FileSystem.locate_eq_ok.2 ⟨hpath.1, hpath.2.1, hpath.2.2, ?_⟩
  rw [if_pos habs, hparts]
  exact hwalk

theorem resolve_linked (path : String) {l : Location} {ps : List String}
    (habs : WrittenPath.isAbsolute path = true) (hparts : FileSystem.parts path = ps)
    (hpath : '\x00' ∉ path.toList ∧ path ≠ "" ∧ path.utf8ByteSize < 4096)
    (hwalk : linked.files.walk true 40 [] ps = .ok (.found l .directory))
    (hp : (NormalPath.ofText l.text).text = path) :
    linked.files.entry linked.cwd (WrittenPath.append linked.cwd.text path) =
        .ok (l, .directory) ∧
      linked.run idle 1 (Cli.resolve path).run = (.ok path, linked) := by
  have hfull : WrittenPath.append linked.cwd.text path = path := if_pos habs
  have hentry : linked.files.entry linked.cwd (WrittenPath.append linked.cwd.text path) =
      .ok (l, .directory) := by
    rw [hfull]
    exact FileSystem.entry_eq_ok.2 (locate_linked true path hparts habs hpath hwalk)
  refine ⟨hentry, ?_⟩
  rw [Cli.run_resolve, run_resolvedPath_of_entry hentry]
  show (Except.ok (NormalPath.ofText l.text).text, linked) = _
  rw [hp]

end Sample

namespace Cli
open Sample

/-- The directory of a target is deleted, and nothing is excluded when the target itself is asked
for. -/
theorem exclude_removes_excluded_sample :
    (∃ w r, linked.run idle 1 (exclude linkedSession "/m/c" true).run = (.ok (), w) ∧
      stored "/targets.toml" (w.content ["targets.toml"]) = .ok r ∧
      w.files.get? ["m", "c"] = none) ∧
    (∀ w c, linked.Calls idle 1 (exclude linkedSession "/m/c" true).run w c → c.removes = true →
      ∃ rel r, stored "/targets.toml" (w.content ["targets.toml"]) = .ok r ∧
        ∀ m, w.TakesAway idle 1 c m → (∀ n ∈ m, IsName n) → r.Excludes rel m) ∧
    ∀ m e, linked.files.get? m = some e →
      (linked.run idle 1 (exclude linkedSession "/m" true).run).2.files.get? m = some e := by
  have htext : (NormalPath.ofText linkedSession.config.targetsFile).text = "/targets.toml" := by
    decide +kernel
  obtain ⟨hentry, hresolve⟩ := resolve_linked "/m/c" (by decide) (by decide +kernel) (by decide)
    (walk_linked true).1 (by decide +kernel)
  refine ⟨?_, ?_, ?_⟩
  · have hplace := locate_linked false "/m/c" (by decide +kernel) (by decide) (by decide)
      (walk_linked false).1
    cases hdecide : (after {} linkedEdits).decide .evicted "/m/c" with
    | error cause =>
      have hok : ((after {} linkedEdits).decide .evicted "/m/c").isOk = true := by decide +kernel
      rw [hdecide] at hok
      cases hok
    | ok found =>
      obtain ⟨w, hrun, hnow, hgone⟩ := exclude_clears sited_linked (List.forall_mem_nil _) rfl
        stored_linked hresolve hdecide hplace (by decide)
      rw [htext] at hnow
      exact ⟨w, found.2, hrun, hnow, hgone _ List.prefix_rfl (by simp)⟩
  · intro w c hcalls hc
    obtain ⟨hremoves, -⟩ := exclude_removes_excluded idle 1 linkedSession "/m/c" true sited_linked
      (List.forall_mem_nil _) stored_linked
    obtain ⟨-, p, rel, r, -, -, hnow, htaken⟩ := hremoves w c hcalls hc
    rw [htext] at hnow
    refine ⟨rel, r, hnow, fun m hm hnames => ?_⟩
    obtain ⟨o, x, -, -, hexcludes, hplace⟩ := htaken m hm
    exact hexcludes (hplace _ _ hentry (by decide)).2 hnames
  · obtain ⟨-, hresolve'⟩ := resolve_linked "/m" (by decide) (by decide +kernel) (by decide)
      (walk_linked true).2.1 (by decide +kernel)
    obtain ⟨-, hkeeps⟩ := exclude_removes_excluded idle 1 linkedSession "/m" true sited_linked
      (List.forall_mem_nil _) stored_linked
    refine hkeeps fun p rel r hp hdecide => ?_
    rw [hresolve'] at hp
    cases hp
    have hnot : ((after {} linkedEdits).decide .evicted "/m").isOk = false := by decide +kernel
    rw [hdecide] at hnot
    cases hnot

/-- A missing name with a backslash in it resolves to a path through a link. What is deleted there
lies in another target, where it is included. -/
theorem exclude_removes_included :
    stored "/targets.toml" (linked.content ["targets.toml"]) = .ok (after {} linkedEdits) ∧
      ∃ w r, linked.run idle 1 (exclude linkedSession "/m/a\\b" true).run = (.ok (), w) ∧
        stored "/targets.toml" (w.content ["targets.toml"]) = .ok r ∧
        linked.files.get? ["o", "b"] = some .directory ∧ w.files.get? ["o", "b"] = none ∧
        ∀ p, ¬ r.Excludes p ["o", "b"] := by
  have htext : (NormalPath.ofText linkedSession.config.targetsFile).text = "/targets.toml" := by
    decide +kernel
  have hfull : WrittenPath.append linked.cwd.text "/m/a\\b" = "/m/a\\b" := by decide +kernel
  have hresolve : linked.run idle 1 (Cli.resolve "/m/a\\b").run = (.ok "/m/a/b", linked) := by
    have hmissing : linked.files.entry linked.cwd (WrittenPath.append linked.cwd.text "/m/a\\b") =
        .error .noEntry := by
      rw [hfull, FileSystem.entry, locate_linked true "/m/a\\b" (by decide +kernel) (by decide)
        (by decide) (walk_linked true).2.2.1]
    have habove : linked.files.entry linked.cwd "/m" = .ok (["m"], .directory) := by
      rw [FileSystem.entry, locate_linked true "/m" (by decide +kernel) (by decide) (by decide)
        (walk_linked true).2.1]
    have hparent : WrittenPath.parent? (WrittenPath.append linked.cwd.text "/m/a\\b") =
        some "/m" := by decide +kernel
    have hname : WrittenPath.fileName? (WrittenPath.append linked.cwd.text "/m/a\\b") =
        some "a\\b" := by decide +kernel
    have hp : (NormalPath.ofText (WrittenPath.append (Location.text ["m"]) "a\\b")).text =
        "/m/a/b" := by decide +kernel
    rw [run_resolve, run_resolvedPath_of_missing hmissing hparent hname habove, ← hp]
    rfl
  have hdecide : ((after {} linkedEdits).decide .evicted "/m/a/b").map (·.2) =
      .ok (after {} (linkedEdits ++ [.decide .evicted "/m/a/b"])) := by decide +kernel
  cases hfound : (after {} linkedEdits).decide .evicted "/m/a/b" with
  | error cause =>
    rw [hfound] at hdecide
    cases hdecide
  | ok found =>
    obtain ⟨rel, r⟩ := found
    rw [hfound] at hdecide
    have hr : r = after {} (linkedEdits ++ [.decide .evicted "/m/a/b"]) := Except.ok.inj hdecide
    have hplace := locate_linked false "/m/a/b" (by decide +kernel) (by decide) (by decide)
      (walk_linked false).2.2.2
    obtain ⟨w, hrun, hnow, hgone⟩ := exclude_clears sited_linked (List.forall_mem_nil _) rfl
      stored_linked hresolve hfound hplace (by decide)
    rw [htext] at hnow
    refine ⟨htext ▸ stored_linked, w, r, hrun, hnow, ?_, hgone _ List.prefix_rfl (by simp), ?_⟩
    · simp [FileSystem.get?, linked, List.lookup]
    · rintro p ⟨t, ht, -, q, hq, -, hruling, -⟩
      let b : TreePath := ⟨["b"], by decide, by decide⟩
      have hrules : ∀ t ∈ r.targets,
          (Location.path ["o", "b"]).relativeTo? (NormalPath.ofText t.root) = none ∨
            (Location.path ["o", "b"]).relativeTo? (NormalPath.ofText t.root) = some b.text ∧
              t.tree.ruling b = .included b := by
        rw [hr]
        decide +kernel
      rcases hrules t ht with hnone | ⟨hsome, hincluded⟩
      · rw [hnone] at hq
        cases hq
      · rw [hsome, Option.some_inj, TreePath.text_inj] at hq
        rw [← hq, hincluded] at hruling
        cases hruling

end Cli
end SelectiveSync
