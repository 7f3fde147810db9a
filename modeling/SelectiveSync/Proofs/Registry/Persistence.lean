import SelectiveSync.Config.Dir
import SelectiveSync.Proofs.Registry.Access
import SelectiveSync.Proofs.Registry.RoundTrip
import SelectiveSync.Proofs.Storage.Directories
import SelectiveSync.Proofs.Storage.Moves

/-! # Registries that outlast the process

* `update_all_or_nothing`: an update stores what its edits make of the stored registry, or leaves
  the file as it is.
* `saved_is_loaded`: what was saved is what is loaded and what an update is handed. -/
namespace SelectiveSync
set_option autoImplicit false

open Storage

/-! ## Edits within an update -/

namespace Edit

/-- Some edits, one after the other: what each was about, and the registry after them, unless one of
them fails. -/
def applyAll : List Edit → Registry → Except Error (List String × Registry)
  | [], r => .ok ([], r)
  | e :: es, r =>
    match e.apply r with
    | .error cause => .error cause
    | .ok s => (applyAll es s).map fun (subjects, last) => (e.subject r :: subjects, last)

/-- Makes some edits, one after the other. -/
def performAll : List Edit → Registry → Task Error (List String × Registry)
  | [], r => return ([], r)
  | e :: es, r => do
    let (subject, s) ← e.perform r
    let (subjects, last) ← performAll es s
    return (subject :: subjects, last)

theorem quiet_logs {ε : Type} (events : List Event) :
    (events.forM Task.log : Task ε Unit).run.Quiet (.ok ()) := by
  induction events with
  | nil => exact .done
  | cons e events ih => exact .log e ih

theorem quiet_perform (e : Edit) (r : Registry) :
    (e.perform r).run.Quiet ((e.apply r).map fun s => (e.subject r, s)) := by
  rw [perform]
  cases e.apply r with
  | error cause => exact .done
  | ok s => exact (quiet_logs (e.events r)).bind .done

theorem quiet_performAll (es : List Edit) (r : Registry) :
    (performAll es r).run.Quiet (applyAll es r) := by
  induction es generalizing r with
  | nil => exact .done
  | cons e es ih =>
    have hperform := quiet_perform e r
    rw [performAll, applyAll]
    cases happly : e.apply r with
    | error cause =>
      rw [happly] at hperform
      exact hperform.bind .done
    | ok s =>
      rw [happly] at hperform
      dsimp only
      refine hperform.bind ((ih s).bind ?_)
      cases applyAll es s <;> exact .done

/-- Edits that all succeed lead where edits lead. -/
theorem after_of_applyAll {es : List Edit} {r s : Registry} {subjects : List String}
    (h : applyAll es r = .ok (subjects, s)) : s = r.after es := by
  induction es generalizing r subjects with
  | nil =>
    cases h
    rfl
  | cons e es ih =>
    rw [applyAll] at h
    split at h
    · cases h
    · next s' happly =>
      cases hall : applyAll es s' with
      | error cause =>
        rw [hall] at h
        cases h
      | ok made =>
        rw [hall] at h
        cases h
        have hnext : r.attempt e = s' := by rw [Registry.attempt, happly]
        rw [ih hall, Registry.after, Registry.after, List.foldl_cons, hnext]

end Edit

namespace Sample

/-- A world with nothing in it. -/
def empty : World where
  files := ⟨[]⟩

theorem get?_empty {l : Location} (hl : l ≠ []) : empty.files.get? l = none := by
  rw [FileSystem.get?, if_neg hl]
  rfl

theorem sited_empty {process : Nat} (hprocess : process ∈ [1, 2]) :
    Sited empty.files empty.cwd (NormalPath.ofText "/targets.toml") process ["targets.toml"]
      ["targets.toml.lock"] [".targets.toml." ++ toString process ++ ".tmp"] := by
  have hnone {l : Location} (hl : l ≠ []) : empty.files.HoldsFile l := by
    intro e he
    rw [get?_empty hl] at he
    cases he
  exact sited empty.cwd hprocess (hnone (by simp)) (hnone (by simp)) (hnone (by simp))

theorem makeParent_empty : empty.run idle 1
    (makeParent (NormalPath.ofText "/targets.toml").text).run = (.ok (), empty) :=
  run_makeParent_sited (NormalPath.canonical_ofText _) (sited_empty List.mem_cons_self)

end Sample

namespace Registry

theorem sorted_stored {path : String} {content : Option ByteArray} {r : Registry}
    (h : stored path content = .ok r) : r.Sorted ∧ r.WellFormed := by
  cases content with
  | none =>
    cases h
    exact ⟨sorted_empty, wellFormed_empty⟩
  | some bytes =>
    rw [stored] at h
    cases htext : textOf path bytes with
    | error e =>
      rw [htext] at h
      cases h
    | ok text =>
      rw [htext] at h
      exact ⟨sorted_ofToml h, wellFormed_ofToml h⟩

/-- What edits make of a stored registry can be stored again. -/
theorem kept_of_applyAll {path : String} {content : Option ByteArray} {edits : List Edit}
    {subjects : List String} {s : Registry}
    (h : (stored path content).bind (Edit.applyAll edits) = .ok (subjects, s)) :
    s.Sorted ∧ s.WellFormed := by
  cases hstored : stored path content with
  | error e =>
    rw [hstored] at h
    cases h
  | ok r =>
    rw [hstored] at h
    obtain ⟨hs, hw⟩ := sorted_stored hstored
    rw [Edit.after_of_applyAll h]
    exact ⟨hs.after edits, hw.after edits⟩

theorem mapError_eq_ok {δ ε α : Type} {f : δ → ε} {r : Except δ α} {a : α} :
    r.mapError f = .ok a ↔ r = .ok a := by
  cases r <;> simp [Except.mapError]

theorem mapError_eq_error {δ ε α : Type} {f : δ → ε} {r : Except δ α} {e : ε} :
    r.mapError f = .error e ↔ ∃ d, r = .error d ∧ f d = e := by
  cases r <;> simp [Except.mapError]

section
variable {programs : Executables} {self : Nat} {path : String} {w w₀ : World} {k l t : Location}

theorem grown_of_makeParent {name : String} {r : Except FileError Unit}
    (hparent : w.run programs self (makeParent name).run = (r, w₀)) : w.Grown w₀ := by
  have hrun : w.Grown (w.run programs self (makeParent name).run).2 := run_makeParent_grown name w
  rwa [hparent] at hrun

/-! ## Updates -/

/-- An update begins by making the directory of the file. -/
theorem run_update_eq {ε α : Type} (lift : Error → ε) (change : Registry → Task ε (α × Registry))
    (hparent : w.run programs self (makeParent (NormalPath.ofText path).text).run = (.ok (), w₀))
    (hsite : Sited w₀.files w₀.cwd (NormalPath.ofText path) self k l t) :
    w.run programs self (update lift path change).run =
      w₀.run programs self (update lift path change).run := by
  have hagain : w₀.run programs self (makeParent (NormalPath.ofText path).text).run = (.ok (), w₀) :=
    run_makeParent_sited (NormalPath.canonical_ofText path) hsite
  have hacquire : w.run programs self (LockedFile.acquire (NormalPath.ofText path)).run =
      w₀.run programs self (LockedFile.acquire (NormalPath.ofText path)).run :=
    World.run_bind_congr (hparent.trans hagain.symm) _
  exact World.run_bind_congr (World.run_mapError_congr hacquire _) _

/-- Nobody else holds the lock if it is free for one alone. -/
theorem allows_of_exclusive {w : World} {l : Location} (h : w.allows l .exclusive = true)
    (kind : LockKind) : w.allows l kind = true := by
  cases kind with
  | exclusive => exact h
  | shared =>
    simp only [World.allows, List.all_eq_true] at h ⊢
    intro x hx
    rw [Bool.or_eq_true]
    exact Or.inl (h x hx)

/-- An update that runs by itself where the directory of its file is there. -/
theorem run_update {ε α : Type} (lift : Error → ε) {change : Registry → Task ε (α × Registry)}
    {made : Registry → Except ε (α × Registry)} (hquiet : ∀ r, (change r).run.Quiet (made r))
    (hsite : Sited w.files w.cwd (NormalPath.ofText path) self k l t)
    (hclear : ∀ x ∈ w.locks, x.location ≠ k ∧ x.location ≠ t) :
    ∃ r tr w', w.run programs self (update lift path change).run = (r, w') ∧
      Updated lift (NormalPath.ofText path).text made r tr ∧ tr.Alone w w' self k l t := by
  have hfollows : Follows (NormalPath.ofText path).text self (fun _ _ => True)
      (Updated lift (NormalPath.ofText path).text made) {} (update lift path change).run :=
    follows_update Trail.idle_start hquiet fun _ _ _ _ => trivial
  exact hfollows.run_alone programs (NormalPath.canonical_ofText path) hsite hclear

theorem changed_mapError {ε α : Type} (lift : Error → ε) (name : String)
    (made : Registry → Except Error (α × Registry)) (content : Option ByteArray) :
    changed lift name (fun s => (made s).mapError lift) content =
      ((stored name content).bind made).mapError lift := by
  rw [changed]
  cases stored name content <;> rfl

/-- What an update by itself comes to: with the lock free, what the change makes of the stored
registry; without it, nothing. -/
theorem Updated.outcome {ε α : Type} {lift : Error → ε} {name : String}
    {made : Registry → Except ε (α × Registry)} {r : Except ε α} {tr : Trail} {w' : World}
    (h : Updated lift name made r tr) (halone : tr.Alone w w' self k l t) :
    w'.locks = w.locks ∧
      ((∃ e, r = .error e ∧ w'.files.get? k = w.files.get? k ∧
          (w.allows l .exclusive = true → changed lift name made (w.content k) = .error e)) ∨
        ∃ a s, r = .ok a ∧ changed lift name made (w.content k) = .ok (a, s) ∧
          ∃ x, w'.files.get? k = some (.file s.bytes x)) := by
  obtain ⟨hfree, -, hcases⟩ := h
  have hlocks := halone.locks
  rw [hfree] at hlocks
  refine ⟨hlocks, ?_⟩
  rcases hcases with ⟨rfl, hrefused, hfresh⟩ | ⟨content, hseen, hmade⟩
  · refine Or.inl ⟨_, rfl, (halone.still hfresh).1, fun hallows => ?_⟩
    obtain ⟨kind, hkind⟩ := halone.refused hrefused
    rw [allows_of_exclusive hallows kind] at hkind
    cases hkind
  · rw [halone.seen content hseen] at hmade
    rcases hmade with ⟨e, he, rfl, hfresh⟩ | ⟨a, s, hs, rfl, hcommitted⟩
    · exact Or.inl ⟨e, rfl, (halone.still hfresh).1, fun _ => he⟩
    · refine Or.inr ⟨a, s, rfl, hs, World.content_eq_some.1 ?_⟩
      rw [halone.content, hcommitted, Option.some_or]

/-- An update that fails takes nothing away. -/
theorem Updated.kept {ε α : Type} {lift : Error → ε} {name : String}
    {made : Registry → Except ε (α × Registry)} {e : ε} {tr : Trail} {w w' : World} {self : Nat}
    {k l t : Location} (h : Updated lift name made (.error e) tr)
    (halone : tr.Alone w w' self k l t) {m : Location} {x : Entry}
    (hx : w.files.get? m = some x) : w'.files.get? m = some x := by
  obtain ⟨-, hnew, hcases⟩ := h
  have hfresh : tr.committed = none := by
    rcases hcases with ⟨-, -, hfresh⟩ | ⟨_, -, ⟨_, -, -, hfresh⟩ | ⟨_, _, -, hr, -⟩⟩
    · exact hfresh
    · exact hfresh
    · cases hr
  obtain ⟨hk, ht⟩ := halone.still hfresh
  by_cases hmk : m = k
  · rw [hmk, hk, ← hmk, hx]
  by_cases hml : m = l
  · rw [hml] at hx ⊢
    exact halone.lock x hx
  by_cases hmt : m = t
  · rw [hmt, ht hnew, ← hmt, hx]
  · rw [halone.beside m hmk hml hmt, hx]

/-- An update whose change is a row of edits stores all that they make of the stored registry or
leaves the file as it is. It fails with the reason why the stored text cannot be read, or for which
the first of the edits that cannot be made is refused; and if it succeeds, the file reads as the
registry that the edits make of what was stored before, or of an empty one if there was no file. -/
theorem update_all_or_nothing {ε : Type} (lift : Error → ε) (edits : List Edit)
    (hparent : w.run programs self (makeParent (NormalPath.ofText path).text).run = (.ok (), w₀))
    (hsite : Sited w₀.files w₀.cwd (NormalPath.ofText path) self k l t)
    (hclear : ∀ x ∈ w.locks, x.location ≠ k ∧ x.location ≠ t) :
    let name := (NormalPath.ofText path).text
    let asked := (stored name (w.content k)).bind (Edit.applyAll edits)
    ∃ r w', w.run programs self
        (update lift path fun s => (Edit.performAll edits s).mapError lift).run = (r, w') ∧
      w'.locks = w.locks ∧
      (w.allows l .exclusive = true → r = (asked.map (·.1)).mapError lift) ∧
      (∀ e, r = .error e → w'.files.get? k = w.files.get? k) ∧
      ∀ subjects, r = .ok subjects → ∃ s, asked = .ok (subjects, s) ∧
        (∃ x, w'.files.get? k = some (.file s.toToml.toUTF8 x)) ∧
        stored name (w'.content k) = .ok s := by
  intro name asked
  have hgrown := grown_of_makeParent hparent
  have hclear' : ∀ x ∈ w₀.locks, x.location ≠ k ∧ x.location ≠ t := by
    rw [hgrown.locks]
    exact hclear
  have hfile := hgrown.get? hsite.file.holdsFile
  have hcontent : w₀.content k = w.content k := World.content_congr hfile
  have hquiet (s : Registry) : ((Edit.performAll edits s).mapError lift).run.Quiet
      ((Edit.applyAll edits s).mapError lift) := (Edit.quiet_performAll edits s).bind .done
  obtain ⟨r, tr, w', hrun, hupdated, halone⟩ :=
    run_update lift hquiet hsite hclear'
  obtain ⟨hlocks, houtcome⟩ := hupdated.outcome halone
  rw [hcontent, hfile, changed_mapError] at houtcome
  refine ⟨r, w', (run_update_eq lift _ hparent hsite).trans hrun, hlocks.trans hgrown.locks, ?_⟩
  have hallows : w₀.allows l .exclusive = w.allows l .exclusive := by
    rw [World.allows, World.allows, hgrown.locks]
  rw [hallows] at houtcome
  rcases houtcome with ⟨e, rfl, hsame, hwhy⟩ | ⟨a, s, rfl, hmade, x, hx⟩
  · refine ⟨fun h => ?_, fun _ _ => hsame, fun _ h => by cases h⟩
    obtain ⟨cause, hcause, rfl⟩ := mapError_eq_error.1 (hwhy h)
    rw [show asked = .error cause from hcause]
    rfl
  · have hasked : asked = .ok (a, s) := mapError_eq_ok.1 hmade
    refine ⟨fun _ => by rw [hasked]; rfl, fun _ h => (by cases h), fun subjects h => ?_⟩
    cases h
    obtain ⟨hs, hw⟩ := kept_of_applyAll hasked
    refine ⟨s, hasked, ⟨x, hx⟩, ?_⟩
    rw [World.content_of_file hx, stored_bytes, ofToml_toToml hs hw]

end

/-- An update that fails at its third edit leaves no file behind, and one that does not leaves the
registry that its edits make. -/
theorem update_all_or_nothing_sample :
    let edits : List Edit := [.add "h:/m/" "/m", .decide .included "/m/a"]
    let update (edits : List Edit) : Task Error (List String) :=
      update id "/targets.toml" fun s => (Edit.performAll edits s).mapError id
    (∃ w e, Sample.empty.run Sample.idle 1 (update (edits ++ [.decide .evicted "/m/a/b"])).run =
        (.error e, w) ∧ w.files.get? ["targets.toml"] = none) ∧
      ∃ w s, Sample.empty.run Sample.idle 1 (update edits).run = (.ok ["/m", "a"], w) ∧
        Edit.applyAll edits {} = .ok (["/m", "a"], s) ∧
        stored "/targets.toml" (w.content ["targets.toml"]) = .ok s := by
  intro edits update
  have htext : (NormalPath.ofText "/targets.toml").text = "/targets.toml" := by decide +kernel
  constructor
  · obtain ⟨r, w, hrun, -, hfree, hfail, -⟩ := update_all_or_nothing id
      (edits ++ [.decide .evicted "/m/a/b"]) Sample.makeParent_empty
      (Sample.sited_empty List.mem_cons_self) (List.forall_mem_nil _)
    have hasked : ∃ e, Edit.applyAll (edits ++ [.decide .evicted "/m/a/b"]) {} = .error e := by
      have hnot : (Edit.applyAll (edits ++ [.decide .evicted "/m/a/b"]) {}).isOk = false := by
        decide +kernel
      cases hall : Edit.applyAll (edits ++ [.decide .evicted "/m/a/b"]) {} with
      | error e => exact ⟨e, rfl⟩
      | ok made =>
        rw [hall] at hnot
        cases hnot
    obtain ⟨e, he⟩ := hasked
    have hr : r = .error e :=
      (hfree rfl).trans (congrArg (fun x => (Except.map (·.1) x).mapError id) he)
    exact ⟨w, e, hr ▸ hrun, hfail e hr⟩
  · obtain ⟨r, w, hrun, -, hfree, -, hdone⟩ :=
      update_all_or_nothing id edits Sample.makeParent_empty
        (Sample.sited_empty List.mem_cons_self) (List.forall_mem_nil _)
    have hasked : (Edit.applyAll edits {}).map (·.1) = .ok ["/m", "a"] := by decide +kernel
    have hr : r = .ok ["/m", "a"] :=
      (hfree rfl).trans (congrArg (Except.mapError id) hasked)
    obtain ⟨s, hs, -, hstored⟩ := hdone _ hr
    rw [htext] at hstored
    exact ⟨w, s, hr ▸ hrun, hs, hstored⟩

/-! ## Savings and loadings -/

section
variable {programs : Executables} {self : Nat} {path : String} {s : Registry} {w w₀ w₁ : World}
  {k l t : Location}

/-- A saving that runs by itself, from the world in which the directory of its file was made. -/
theorem run_save
    (hparent : w.run programs self (makeParent (NormalPath.ofText path).text).run = (.ok (), w₀))
    (hsite : Sited w₀.files w₀.cwd (NormalPath.ofText path) self k l t) (hlocks : w.locks = []) :
    ∃ (log : List Event) (tr : Trail) (w₁ : World),
      w.run programs self (s.save path).run = (.ok (), w₁) ∧
      tr.Alone { w₀ with log } w₁ self k l t ∧ tr.hold = .free ∧ tr.committed = some s.bytes := by
  have hpath := NormalPath.canonical_ofText path
  have hnone : w₀.locks = [] := (grown_of_makeParent hparent).locks.trans hlocks
  obtain ⟨log, hwarn⟩ : ∃ log, w.run programs self s.warnOfSources = ((), { w with log }) :=
    World.run_quiet s.quiet_warnOfSources w
  -- the warnings only lengthen the log, so the directory is made as it is without them
  have hparent' : World.run programs self (makeParent (NormalPath.ofText path).text).run
      { w with log } = (.ok (), { w₀ with log }) := by
    have hasks := asks_makeParent (NormalPath.ofText path).text
    have hmade := run_makesDirs programs self hasks w w rfl rfl
    rw [hparent] at hmade
    have hw₀ : w₀ = { w with files := w₀.files } := congrArg Prod.snd hmade
    rw [run_makesDirs programs self hasks w { w with log } rfl rfl, hparent, hw₀]
  have hagain : World.run programs self (makeParent (NormalPath.ofText path).text).run
      { w₀ with log } = (.ok (), { w₀ with log }) := run_makeParent_sited hpath hsite
  have hsame : w.run programs self (s.save path).run = World.run programs self
      ((writeAtomic (NormalPath.ofText path) s.bytes).mapError Error.file).run { w₀ with log } := by
    refine (World.run_bind_ok (World.run_lift hwarn) _).trans ?_
    exact World.run_mapError_congr (World.run_bind_congr (hparent'.trans hagain.symm) _) _
  have hfollows : Follows (NormalPath.ofText path).text self (fun _ _ => True)
      (Saved (NormalPath.ofText path).text s) {} _ :=
    follows_saveFile s path Trail.idle_start fun _ => trivial
  obtain ⟨r, tr, w₁, hrun, hsaved, halone⟩ :=
    hfollows.run_alone programs (w := { w₀ with log }) hpath hsite (by simp [hnone])
  obtain ⟨hfree, -, ⟨-, hrefused, -⟩ | ⟨rfl, hcommitted⟩⟩ := hsaved
  · obtain ⟨kind, hkind⟩ := halone.refused hrefused
    cases kind <;> simp [World.allows, hnone] at hkind
  · exact ⟨log, tr, w₁, hsame.trans hrun, halone, hfree, hcommitted⟩

/-- A saving leaves the registry in its file, and no lock. -/
theorem content_after_save
    (hparent : w.run programs self (makeParent (NormalPath.ofText path).text).run = (.ok (), w₀))
    (hsite : Sited w₀.files w₀.cwd (NormalPath.ofText path) self k l t) (hlocks : w.locks = [])
    (hsave : w.run programs self (s.save path).run = (.ok (), w₁)) :
    Sited w₁.files w₁.cwd (NormalPath.ofText path) self k l t ∧ w₁.locks = [] ∧
      w₁.content k = some s.bytes := by
  obtain ⟨log, tr, w', hrun, halone, hfree, hcommitted⟩ :=
    run_save (s := s) hparent hsite hlocks
  rw [hsave] at hrun
  cases hrun
  refine ⟨?_, ?_, ?_⟩
  · rw [halone.cwd]
    exact hsite.sameWays halone.ways
  · rw [halone.locks, hfree]
    exact (grown_of_makeParent hparent).locks.trans hlocks
  · rw [halone.content, hcommitted, Option.some_or]

/-- What is loaded where nobody holds the lock is the registry that the file's content stands
for. -/
theorem run_load (hsite : Sited w.files w.cwd (NormalPath.ofText path) self k l t)
    (hlocks : w.locks = []) {bytes : ByteArray} (hcontent : w.content k = some bytes) :
    (w.run programs self (load path).run).1 =
      stored (NormalPath.ofText path).text (some bytes) := by
  have hfollows : Follows (NormalPath.ofText path).text self (fun _ _ => False)
      (Loaded (NormalPath.ofText path).text) {} (load path).run :=
    follows_load path Trail.idle_start
  obtain ⟨r, tr, w', hrun, ⟨-, hcases⟩, halone⟩ :=
    hfollows.run_alone programs (NormalPath.canonical_ofText path) hsite (by simp [hlocks])
  rw [hrun]
  rcases hcases with ⟨-, hrefused⟩ | ⟨-, hnone⟩ | ⟨b, hr, hseen⟩
  · obtain ⟨kind, hkind⟩ := halone.refused hrefused
    cases kind <;> simp [World.allows, hlocks] at hkind
  · have hcontent' := halone.seen none hnone
    rw [hcontent] at hcontent'
    cases hcontent'
  · have hcontent' := halone.seen _ hseen
    rw [hcontent, Option.some_inj] at hcontent'
    rw [← hcontent']
    exact hr

/-- What was saved is what is loaded, and what an update hands to its change, however the path is
written. So it is with `loadOrDefault` as long as the path leads somewhere as it is written, as one
that is normal does. Otherwise an empty registry is loaded, though the file is there. What holds of
the path holds of the configuration directory whose targets are stored under it. -/
theorem saved_is_loaded (hs : s.Sorted) (hw : s.WellFormed)
    (hparent : w.run programs self (makeParent (NormalPath.ofText path).text).run = (.ok (), w₀))
    (hsite : Sited w₀.files w₀.cwd (NormalPath.ofText path) self k l t) (hlocks : w.locks = [])
    (hsave : w.run programs self (s.save path).run = (.ok (), w₁)) :
    (w₁.run programs self (load path).run).1 = .ok s ∧
      (∀ (ε α : Type) (lift : Error → ε) (change : Registry → Task ε (α × Registry))
        (made : Registry → Except ε (α × Registry)), (∀ r, (change r).run.Quiet (made r)) →
        (w₁.run programs self (update lift path change).run).1 = (made s).map (·.1)) ∧
      (w₁.run programs self (loadOrDefault path).run).1 =
        .ok (if (w₁.files.entry w₁.cwd path).isOk then s else {}) ∧
      ((NormalPath.ofText path).text = path → (w₁.files.entry w₁.cwd path).isOk) ∧
      ∀ d : ConfigDir, d.targetsFile = path →
        w.run programs self (d.saveRegistry s).run = (.ok (), w₁) ∧
        (w₁.run programs self d.loadRegistry.run).1 =
          .ok (if (w₁.files.entry w₁.cwd path).isOk then s else {}) := by
  obtain ⟨hsite₁, hlocks₁, hcontent⟩ := content_after_save hparent hsite hlocks hsave
  have hstored : stored (NormalPath.ofText path).text (some s.bytes) = .ok s := by
    rw [stored_bytes, ofToml_toToml hs hw]
  have hload : (w₁.run programs self (load path).run).1 = .ok s :=
    (run_load hsite₁ hlocks₁ hcontent).trans hstored
  have hdefault : (w₁.run programs self (loadOrDefault path).run).1 =
      .ok (if (w₁.files.entry w₁.cwd path).isOk then s else {}) := by
    rw [loadOrDefault, World.run_exists]
    split
    · exact hload
    · rfl
  refine ⟨hload, fun ε α lift change made hquiet => ?_, hdefault, fun hnormal => ?_, ?_⟩
  · obtain ⟨r, tr, w', hrun, hupdated, halone⟩ :=
      run_update lift hquiet hsite₁ (by simp [hlocks₁])
    have hallows : w₁.allows l .exclusive = true := by simp [World.allows, hlocks₁]
    have hmade : changed lift (NormalPath.ofText path).text made (w₁.content k) = made s := by
      rw [changed, hcontent, hstored]
      rfl
    rw [hrun]
    obtain ⟨-, ⟨e, hr, -, hwhy⟩ | ⟨a, s', hr, hs', -⟩⟩ := hupdated.outcome halone
    · rw [hr, ← hmade, hwhy hallows]
      rfl
    · rw [hr, ← hmade, hs']
      rfl
  · obtain ⟨x, hx⟩ := World.content_eq_some.1 hcontent
    have hentry := hsite₁.file.entry_of_some hx
    rw [hnormal] at hentry
    rw [hentry]
    rfl
  · rintro d rfl
    exact ⟨hsave, hdefault⟩

end

/-- A registry with a target and a mark. -/
def sampleRegistry : Registry :=
  after {} [.add "h:/m/" "/m", .decide .included "/m/a"]

theorem sampleRegistry_kept : sampleRegistry.Sorted ∧ sampleRegistry.WellFormed :=
  ⟨sorted_empty.after _, wellFormed_empty.after _⟩

theorem saved_is_loaded_sample :
    ∃ w₁, Sample.empty.run Sample.idle 1 (sampleRegistry.save "/targets.toml").run = (.ok (), w₁) ∧
      (w₁.run Sample.idle 1 (load "/targets.toml").run).1 = .ok sampleRegistry ∧
      (w₁.run Sample.idle 1 (loadOrDefault "/targets.toml").run).1 = .ok sampleRegistry := by
  obtain ⟨hs, hw⟩ := sampleRegistry_kept
  obtain ⟨log, tr, w₁, hsave, -, -, -⟩ :=
    run_save (s := sampleRegistry) Sample.makeParent_empty
      (Sample.sited_empty List.mem_cons_self) rfl
  obtain ⟨hload, -, hdefault, hnormal, -⟩ :=
    saved_is_loaded hs hw Sample.makeParent_empty (Sample.sited_empty List.mem_cons_self) rfl hsave
  have htext : (NormalPath.ofText "/targets.toml").text = "/targets.toml" := by decide +kernel
  rw [if_pos (hnormal htext)] at hdefault
  exact ⟨w₁, hsave, hload, hdefault⟩

/-- A registry saved under a path that goes through a missing directory and back is not found by
`loadOrDefault`. -/
theorem saved_is_not_found :
    ∃ w₁, Sample.empty.run Sample.idle 1 (sampleRegistry.save "/gone/../targets.toml").run =
        (.ok (), w₁) ∧
      (w₁.run Sample.idle 1 (load "/gone/../targets.toml").run).1 = .ok sampleRegistry ∧
      (w₁.run Sample.idle 1 (loadOrDefault "/gone/../targets.toml").run).1 = .ok {} ∧
      sampleRegistry ≠ {} := by
  obtain ⟨hs, hw⟩ := sampleRegistry_kept
  have hsame : NormalPath.ofText "/gone/../targets.toml" = NormalPath.ofText "/targets.toml" := by
    decide +kernel
  have hparent := Sample.makeParent_empty
  have hsite := Sample.sited_empty (List.mem_cons_self : 1 ∈ [1, 2])
  rw [← hsame] at hparent hsite
  obtain ⟨log, tr, w₁, hsave, halone, -, -⟩ := run_save (s := sampleRegistry) hparent hsite rfl
  have hgone : w₁.files.get? ["gone"] = none := by
    rw [halone.beside _ (by decide) (by decide) (by decide)]
    exact Sample.get?_empty (by simp)
  have hentry : w₁.files.entry w₁.cwd "/gone/../targets.toml" = .error .noEntry := by
    have hparts : FileSystem.parts "/gone/../targets.toml" = ["gone", "..", "targets.toml"] := by
      decide +kernel
    rw [FileSystem.entry, FileSystem.locate, if_neg (by decide), if_neg (by decide),
      if_neg (by decide), if_pos (by decide), hparts, FileSystem.walk]
    have hshort : ¬ 255 < "gone".utf8ByteSize := by decide
    simp [FileSystem.walkToLink, hgone, hshort]
  obtain ⟨hsite₁, hlocks₁, hcontent⟩ := content_after_save hparent hsite rfl hsave
  refine ⟨w₁, hsave, ?_, ?_, by decide +kernel⟩
  · rw [run_load hsite₁ hlocks₁ hcontent, stored_bytes, ofToml_toToml hs hw]
  · rw [loadOrDefault, World.run_exists, hentry]
    rfl

end Registry

end SelectiveSync
