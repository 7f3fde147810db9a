import SelectiveSync.Path.Canonical
import SelectiveSync.Proofs.Storage.Names
import SelectiveSync.Proofs.System.Direct
import SelectiveSync.Proofs.System.Run

/-! # Resolved paths

* `run_canonicalize`: to resolve a path changes nothing, and gives a path in normal form.
* `run_resolvedPath_of_entry`: what is there resolves to the location that its path leads to, and
  `run_resolvedPath_of_missing`: what is not, to its name beneath what is.
* `location_of_text`: the path of a location leads there, if there is no backslash in it. -/
namespace SelectiveSync
set_option autoImplicit false

/-! ## What is asked -/

/-- Calls that only look. -/
inductive Looks : Call → Prop
  | kind (path : String) : Looks (.kind path)
  | workingDir : Looks .workingDir
  | canonical (path : String) : Looks (.canonical path)

theorem answer_looks {programs : Executables} {self : Nat} {c : Call} (hc : Looks c) (w : World) :
    (w.answer programs self c).2 = w := by
  cases hc with
  | kind path => exact World.answer_kind_keeps path w
  | workingDir | canonical => rfl

theorem asks_exists {ε : Type} (path : String) : (Task.exists_ path : Task ε Bool).run.Asks Looks :=
  .call (.kind path) fun _ => .done _

theorem asks_searchAbove {search : String → List String → Task FileError (String × List String)}
    (hsearch : ∀ path missing, (search path missing).run.Asks Looks) (path : String)
    (missing : List String) : (searchAbove search path missing).run.Asks Looks := by
  unfold searchAbove
  split
  · exact hsearch _ _
  · exact .done _

theorem asks_nearestExisting (fuel : Nat) (path : String) (missing : List String) :
    (nearestExisting fuel path missing).run.Asks Looks := by
  induction fuel generalizing path missing with
  | zero => exact .done _
  | succ fuel ih =>
    rw [nearestExisting]
    refine (asks_exists path).andThen fun found => ?_
    split
    · exact .done _
    · exact asks_searchAbove ih path missing

theorem asks_absolutePath (path : String) : (absolutePath path).run.Asks Looks := by
  rw [absolutePath]
  split
  · exact .done _
  · refine .call .workingDir fun r => ?_
    cases r <;> exact .done _

theorem asks_resolvedPath (path : String) : (resolvedPath path).run.Asks Looks := by
  refine (asks_absolutePath path).andThen fun absolute => ?_
  refine (asks_nearestExisting _ absolute []).andThen fun found => ?_
  refine .call (.canonical found.1) fun r => ?_
  cases r <;> exact .done _

theorem asks_canonicalize (path : String) : (canonicalize path).run.Asks Looks :=
  (asks_resolvedPath path).andThen fun _ => .done _

/-! ## What is answered -/

/-- The path of a location. -/
def Location.path (l : Location) : NormalPath :=
  ⟨.absolute, l⟩

theorem Location.text_path (l : Location) : l.path.text = l.text := rfl

theorem Location.isAbsolute_text (l : Location) (s : String) :
    WrittenPath.isAbsolute (l.text ++ s) = true := by
  rw [WrittenPath.isAbsolute, Text.startsWith, text, String.toList_append, String.toList_append]
  rfl

theorem Location.isAbsolute_append (l : Location) (path : String) :
    WrittenPath.isAbsolute (WrittenPath.append l.text path) = true := by
  rw [WrittenPath.append]
  split
  · next h => exact h
  · split
    · exact l.isAbsolute_text path
    · rw [String.append_assoc]
      exact l.isAbsolute_text _

theorem Location.startsWith_text (l : Location) : Text.startsWith '/' l.text = true := by
  have habs := l.isAbsolute_text ""
  rwa [String.append_empty] at habs

/-- The path of a location is normal if there is no backslash in it. -/
theorem Location.canonical_path {l : Location} (hnames : ∀ n ∈ l, FileSystem.IsEntryName n)
    (hback : '\\' ∉ l.text.toList) : l.path.Canonical := by
  intro n hn
  obtain ⟨⟨hempty, hslash⟩, hhere, hup⟩ := hnames n hn
  refine ⟨hempty, hhere, hup, hslash, fun hb => hback ?_⟩
  have hpieces := Text.pieces_joined '/' l (List.ne_nil_of_mem hn) fun s hs => (hnames s hs).1.2
  rw [← hpieces] at hn
  rw [Location.text, String.toList_append]
  exact List.mem_append_right _ (Text.mem_of_mem_piece hn hb)

section
variable {programs : Executables} {self : Nat} {w : World} {path : String} {l : Location} {e : Entry}

/-- To resolve a path changes nothing, and gives a path in normal form. -/
theorem run_canonicalize (path : String) (w : World) :
    w.run programs self (canonicalize path).run =
      ((w.run programs self (resolvedPath path).run).1.map fun p => (NormalPath.ofText p).text,
        w) := by
  have hkeep : (w.run programs self (resolvedPath path).run).2 = w := by
    have hcall (c : Call) (hc : Looks c) (w : World) : w = (w.answer programs self c).2 :=
      (answer_looks hc w).symm
    have hsame : w = (w.run programs self (resolvedPath path).run).2 :=
      World.run_asks (fun _ => rfl) Eq.trans hcall (asks_resolvedPath path) w
    exact hsame.symm
  cases hrun : w.run programs self (resolvedPath path).run with
  | mk r w' =>
    rw [hrun] at hkeep
    subst hkeep
    cases r with
    | ok p => exact World.run_bind_ok hrun _
    | error cause => exact World.run_bind_error hrun _

theorem run_absolutePath (path : String) (w : World) :
    w.run programs self (absolutePath path).run = (.ok (WrittenPath.append w.cwd.text path), w) := by
  rw [absolutePath, WrittenPath.append]
  split
  · rfl
  · next h =>
    have happend : WrittenPath.append w.cwd.text path =
        if w.cwd.text = "" ∨ Text.endsWith '/' w.cwd.text then w.cwd.text ++ path
        else w.cwd.text ++ "/" ++ path := if_neg h
    rw [← happend]
    rfl

/-- What is there resolves to the location that the path leads to. -/
theorem run_resolvedPath_of_entry
    (h : w.files.entry w.cwd (WrittenPath.append w.cwd.text path) = .ok (l, e)) :
    w.run programs self (resolvedPath path).run = (.ok l.text, w) := by
  have hcanonical : w.answer programs self (.canonical (WrittenPath.append w.cwd.text path)) =
      (.ok l.text, w) := by
    rw [World.answer, FileSystem.canonical, h]
    rfl
  refine (World.run_bind_ok (run_absolutePath path w) _).trans ?_
  have hnearest (fuel : Nat) : w.run programs self
      (nearestExisting (fuel + 1) (WrittenPath.append w.cwd.text path) []).run =
        (.ok (WrittenPath.append w.cwd.text path, []), w) := by
    rw [nearestExisting, World.run_exists, h]
    rfl
  refine (World.run_bind_ok (hnearest _) _).trans ?_
  exact World.run_bind_ok (World.run_ask hcanonical) _

/-- What is missing beneath something that is there resolves to its name beneath the location of
that. -/
theorem run_resolvedPath_of_missing {fault : Fault} {above name : String}
    (h : w.files.entry w.cwd (WrittenPath.append w.cwd.text path) = .error fault)
    (hparent : WrittenPath.parent? (WrittenPath.append w.cwd.text path) = some above)
    (hname : WrittenPath.fileName? (WrittenPath.append w.cwd.text path) = some name)
    (habove : w.files.entry w.cwd above = .ok (l, e)) :
    w.run programs self (resolvedPath path).run = (.ok (WrittenPath.append l.text name), w) := by
  obtain ⟨fuel, hfuel⟩ : ∃ fuel,
      (WrittenPath.parts (WrittenPath.append w.cwd.text path)).length = fuel + 1 := by
    rw [WrittenPath.parts, WrittenPath.headParts, if_pos (Location.isAbsolute_append _ _)]
    exact ⟨_, rfl⟩
  have hcanonical : w.answer programs self (.canonical above) = (.ok l.text, w) := by
    rw [World.answer, FileSystem.canonical, habove]
    rfl
  have hhere (more : Nat) : w.run programs self (nearestExisting (more + 1) above [name]).run =
      (.ok (above, [name]), w) := by
    rw [nearestExisting, World.run_exists, habove]
    rfl
  have hnearest : w.run programs self (nearestExisting
      ((WrittenPath.parts (WrittenPath.append w.cwd.text path)).length + 1)
      (WrittenPath.append w.cwd.text path) []).run = (.ok (above, [name]), w) := by
    rw [hfuel, nearestExisting, World.run_exists, h]
    refine Eq.trans ?_ (hhere fuel)
    unfold searchAbove
    rw [hparent, hname]
    rfl
  refine (World.run_bind_ok (run_absolutePath path w) _).trans ?_
  refine (World.run_bind_ok hnearest _).trans ?_
  exact World.run_bind_ok (World.run_ask hcanonical) _

/-- The path of a location with directories only above leads to the location itself, and is in
normal form, if there is no backslash in it. -/
theorem location_of_text {fs : FileSystem} (h : fs.Direct l) (hne : l ≠ [])
    (hback : '\\' ∉ l.text.toList) :
    (NormalPath.ofText l.text).text = l.text ∧ ∀ {cwd : Location} {place : Place},
      fs.locate cwd false l.text = .ok place → place.location = l := by
  have hcanonical : l.path.Canonical := Location.canonical_path h.isEntryName hback
  have hparts := NormalPath.fileSystem_parts_text hcanonical hne
  rw [Location.text_path] at hparts
  refine ⟨by rw [← l.text_path, NormalPath.ofText_text hcanonical], fun hplace => ?_⟩
  exact FileSystem.location_of_direct h l.startsWith_text hparts hne hplace

end

end SelectiveSync
