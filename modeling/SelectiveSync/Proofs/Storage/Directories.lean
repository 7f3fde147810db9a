import SelectiveSync.Proofs.Storage.Names
import SelectiveSync.Proofs.System.Run

/-! # The directory of a file, made if it is missing

* `World.Grown`: the world with more directories and nothing else changed but the log.
* `run_makeParent_grown`: more than that never happens, whether all directories are made or not.
* `run_makesDirs`: worlds with the same files are alike for whoever makes directories.
* `run_makeParent_sited`: nothing happens where the directory is there. -/
namespace SelectiveSync
set_option autoImplicit false

namespace World

/-- The second world has more directories than the first. -/
structure Grown (w w' : World) : Prop where
  cwd : w'.cwd = w.cwd
  locks : w'.locks = w.locks
  kept : ∀ l e, w.files.get? l = some e → w'.files.get? l = some e
  made : ∀ l e, w'.files.get? l = some e → w.files.get? l = some e ∨ e = .directory

theorem Grown.refl (w : World) : w.Grown w :=
  ⟨rfl, rfl, fun _ _ h => h, fun _ _ h => Or.inl h⟩

theorem Grown.trans {u v w : World} (h : u.Grown v) (h' : v.Grown w) : u.Grown w := by
  refine ⟨h'.cwd.trans h.cwd, h'.locks.trans h.locks, fun l e he => h'.kept l e (h.kept l e he),
    fun l e he => ?_⟩
  rcases h'.made l e he with hv | rfl
  · exact h.made l e hv
  · exact Or.inr rfl

/-- Where there is no directory afterwards, there is what was there before. -/
theorem Grown.get?_of_ne {w w' : World} (h : w.Grown w') {l : Location}
    (hnot : w'.files.get? l ≠ some .directory) : w'.files.get? l = w.files.get? l := by
  cases he : w'.files.get? l with
  | some e =>
    rcases h.made l e he with hold | rfl
    · exact hold.symm
    · exact absurd he hnot
  | none =>
    cases hold : w.files.get? l with
    | none => rfl
    | some e =>
      rw [h.kept l e hold] at he
      cases he

theorem Grown.get? {w w' : World} (h : w.Grown w') {l : Location} (hfile : w'.files.HoldsFile l) :
    w'.files.get? l = w.files.get? l := by
  refine h.get?_of_ne fun he => ?_
  obtain ⟨_, _, hdir⟩ := hfile _ he
  cases hdir

theorem grown_makeDir {programs : Executables} {self : Nat} (path : String) (w : World) :
    w.Grown (w.answer programs self (.makeDir path)).2 := by
  rw [answer, FileSystem.makeDir]
  split
  · next dir name hplace =>
    have hvacant : w.files.get? (dir ++ [name]) = none := FileSystem.get?_of_locate hplace
    have hget := FileSystem.get?_insert w.files (l := dir ++ [name]) (by simp) .directory
    refine ⟨rfl, rfl, fun l e he => ?_, fun l e he => ?_⟩
    · show (w.files.insert (dir ++ [name]) .directory).get? l = some e
      rw [hget, if_neg, he]
      rintro rfl
      rw [hvacant] at he
      cases he
    · have he' : (w.files.insert (dir ++ [name]) .directory).get? l = some e := he
      rw [hget] at he'
      split at he'
      · exact Or.inr (Option.some.inj he').symm
      · exact Or.inl he'
  · exact Grown.refl w
  · exact Grown.refl w

end World

namespace Storage

/-- What is asked to make directories. -/
inductive MakesDirs : Call → Prop
  | makeDir (path : String) : MakesDirs (.makeDir path)
  | kind (path : String) : MakesDirs (.kind path)

theorem asks_settleDir (dir : String) (r : Except Fault Unit) :
    (settleDir dir r).run.Asks MakesDirs := by
  cases r with
  | ok => exact .done _
  | error fault =>
    refine .call (.kind dir) fun r => ?_
    show Program.Asks MakesDirs (ExceptT.run (if _ then _ else _))
    split <;> exact .done _

theorem asks_makeDirBelow {above : String → Task Fault Unit}
    (habove : ∀ dir, (above dir).run.Asks MakesDirs) (dir : String) :
    (makeDirBelow above dir).run.Asks MakesDirs := by
  unfold makeDirBelow
  split
  · exact .done _
  · exact (habove _).andThen fun _ => .call (.makeDir dir) fun r => asks_settleDir dir r

theorem asks_makeDirWith {above : String → Task Fault Unit}
    (habove : ∀ dir, (above dir).run.Asks MakesDirs) (dir : String) :
    (makeDirWith above dir).run.Asks MakesDirs := by
  unfold makeDirWith
  split
  · exact .done _
  · have hasked : (Task.ask (.makeDir dir) : Task Fault (Except Fault Unit)).run.Asks MakesDirs :=
      .call (.makeDir dir) fun _ => .done _
    refine hasked.andThen fun r => ?_
    split
    · exact asks_makeDirBelow habove dir
    · exact asks_settleDir dir _

theorem asks_makeDirs (dir : String) : (makeDirs dir).run.Asks MakesDirs := by
  have hfrom (fuel : Nat) : ∀ dir, (makeDirsFrom fuel dir).run.Asks MakesDirs := by
    induction fuel with
    | zero => exact asks_makeDirWith fun _ => .done _
    | succ fuel ih => exact asks_makeDirWith ih
  exact hfrom _ dir

theorem asks_makeParent (path : String) : (makeParent path).run.Asks MakesDirs := by
  unfold makeParent
  split
  · split
    · exact .done _
    · exact (asks_makeDirs _).mapError
  · exact .done _

section
variable {programs : Executables} {self : Nat}

theorem grown_makesDirs {c : Call} (hc : MakesDirs c) (w : World) :
    w.Grown (w.answer programs self c).2 := by
  cases hc with
  | makeDir path => exact World.grown_makeDir path w
  | kind path =>
    rw [World.answer_kind_keeps]
    exact World.Grown.refl w

theorem run_makeParent_grown (path : String) (w : World) :
    w.Grown (w.run programs self (makeParent path).run).2 :=
  World.run_asks World.Grown.refl World.Grown.trans (fun _ hc w => grown_makesDirs hc w)
    (asks_makeParent path) w

variable (programs self) in
theorem answer_makesDirs {c : Call} (hc : MakesDirs c) {w v : World} (hfiles : v.files = w.files)
    (hcwd : v.cwd = w.cwd) :
    v.answer programs self c =
        ((w.answer programs self c).1, { v with files := (w.answer programs self c).2.files }) ∧
      (w.answer programs self c).2.cwd = w.cwd := by
  cases v
  cases hfiles
  cases hcwd
  cases hc with
  | makeDir path =>
    rw [World.answer, World.answer]
    cases w.files.makeDir w.cwd path <;> exact ⟨rfl, rfl⟩
  | kind path =>
    rw [World.answer_kind_keeps, World.answer, World.answer]
    dsimp only
    rcases w.files.entry w.cwd path with fault | ⟨l, _ | _ | _⟩ <;> exact ⟨rfl, rfl⟩

variable (programs self) in
/-- Nothing but files and the working directory matters to whoever makes directories. -/
theorem run_makesDirs {α : Type} {p : Program α} (hp : p.Asks MakesDirs) (w v : World)
    (hfiles : v.files = w.files) (hcwd : v.cwd = w.cwd) :
    v.run programs self p =
      ((w.run programs self p).1, { v with files := (w.run programs self p).2.files }) := by
  induction hp generalizing w v with
  | done a => exact congrArg (a, ·) (by rw [World.run, ← hfiles])
  | call hc _ ih =>
    obtain ⟨hanswer, hkept⟩ := answer_makesDirs programs self hc hfiles hcwd
    rw [World.run, hanswer]
    exact ih _ _ _ rfl (hcwd.trans hkept.symm)

theorem run_makeParent_sited {path : NormalPath} (hpath : path.Canonical) {w : World}
    {process : Nat} {k l t : Location} (h : Sited w.files w.cwd path process k l t) :
    w.run programs self (makeParent path.text).run = (.ok (), w) := by
  unfold makeParent
  split
  · next dir hdir =>
    split
    · rfl
    · next hne =>
      have hparent := h.parent dir hdir hne
      have hmake := hparent.makeDir
        (path.withoutSlashes_parent? hpath (Sited.names_ne h.file) hdir)
      obtain ⟨m, hm⟩ := hparent.entry
      have hwith (above : String → Task Fault Unit) :
          w.run programs self (makeDirWith above dir).run = (.ok (), w) := by
        unfold makeDirWith
        rw [if_neg hne]
        have hasked : w.answer programs self (.makeDir dir) = (.error .exists_, w) := by
          rw [World.answer, hmake]
          rfl
        have hkind : w.answer programs self (.kind dir) = (some .directory, w) := by
          rw [World.answer, hm]
        refine (World.run_bind_ok (World.run_ask hasked) _).trans ?_
        refine (World.run_bind_ok (World.run_ask hkind) _).trans ?_
        rfl
      refine World.run_mapError (r := .ok ()) ?_
      rw [makeDirs]
      cases (WrittenPath.parts dir).length with
      | zero => exact hwith _
      | succ fuel => exact hwith _
  · rfl

end

end Storage

end SelectiveSync
