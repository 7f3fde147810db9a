import SelectiveSync.Config.Dir
import SelectiveSync.Proofs.Path.Canonical
import SelectiveSync.Proofs.Storage.Directories
import SelectiveSync.Proofs.Storage.Moves
import SelectiveSync.Proofs.System.Leads

/-! # What tasks on files lead to

* `World.Remains`: all that was there is there as it was, and `Asks.remains` for programs that at
  most make what is missing.
* `Follows.leads`: a program that keeps to the protocol of a file and runs by itself, whatever of its
  log is left out.
* `asks_loadSettings`: to load the settings at most makes what is missing. -/
namespace SelectiveSync
set_option autoImplicit false

/-! ## Calls that keep what is there -/

/-- The call changes nothing that is there, though it may make what is missing. -/
inductive Call.Gentle : Call → Prop
  | still {c : Call} (h : c.Still) : Gentle c
  | makeDir (path : String) : Gentle (.makeDir path)
  | touch (path : String) : Gentle (.touch path)
  | lock (path : String) (kind : LockKind) : Gentle (.lock path kind)
  | unlock (path : String) (kind : LockKind) : Gentle (.unlock path kind)

namespace World

variable {programs : Executables} {self : Nat} {u v w : World} {c : Call}

/-- All entries that were there are there as they were. -/
structure Remains (w v : World) : Prop where
  cwd : v.cwd = w.cwd
  kept : ∀ l e, w.files.get? l = some e → v.files.get? l = some e

theorem Remains.refl (w : World) : w.Remains w :=
  ⟨rfl, fun _ _ h => h⟩

theorem Remains.trans (h : u.Remains v) (h' : v.Remains w) : u.Remains w :=
  ⟨h'.cwd.trans h.cwd, fun l e he => h'.kept l e (h.kept l e he)⟩

theorem Still.remains (h : w.Still v) : w.Remains v :=
  ⟨h.cwd, fun l e he => by rw [h.files, he]⟩

theorem Grown.remains (h : w.Grown v) : w.Remains v :=
  ⟨h.cwd, h.kept⟩

/-- To open a file without writing to it keeps all that is there. -/
theorem remains_touch (path : String) (w : World) :
    w.Remains (w.answer programs self (.touch path)).2 := by
  rw [answer, FileSystem.openWith]
  have hinsert {l : Location} {e : Entry} (hl : l ≠ [])
      (he : ∀ x, w.files.get? l = some x → x = e) :
      w.Remains { w with files := w.files.insert l e } := by
    refine ⟨rfl, fun m x hx => ?_⟩
    rw [FileSystem.get?_insert w.files hl]
    split
    · next heq => rw [he x (heq ▸ hx)]
    · exact hx
  cases hplace : w.files.locate w.cwd true path with
  | error fault => exact Remains.refl w
  | ok place =>
    have hentry := FileSystem.get?_of_locate hplace
    cases place with
    | vacant dir name =>
      have hnone : w.files.get? (dir ++ [name]) = none := hentry
      refine hinsert (by simp) fun x hx => ?_
      rw [hnone] at hx
      cases hx
    | found l e =>
      have hsome : w.files.get? l = some e := hentry
      cases e with
      | directory => exact Remains.refl w
      | link target => exact Remains.refl w
      | file bytes x =>
        refine hinsert ?_ fun y hy => ?_
        · rintro rfl
          cases hsome
        · rw [hsome] at hy
          exact (Option.some.inj hy).symm

variable (programs self) in
theorem answer_gentle (hc : c.Gentle) (w : World) :
    w.started c = [] ∧ w.Remains (w.answer programs self c).2 := by
  cases hc with
  | still h =>
    obtain ⟨hstart, hstill⟩ := answer_still programs self h w
    exact ⟨hstart, hstill.remains⟩
  | makeDir path => exact ⟨rfl, (grown_makeDir path w).remains⟩
  | touch path => exact ⟨rfl, remains_touch path w⟩
  | lock path kind =>
    refine ⟨rfl, ?_⟩
    rw [answer]
    split
    · split <;> exact ⟨rfl, fun _ _ h => h⟩
    · exact Remains.refl w
  | unlock path kind =>
    refine ⟨rfl, ?_⟩
    rw [answer]
    split <;> exact ⟨rfl, fun _ _ h => h⟩

end World

theorem Call.Gentle.startsNothing {c : Call} (hc : c.Gentle) : c.StartsNothing :=
  fun w => (World.answer_gentle (fun _ _ _ w => (.ok none, w)) 0 hc w).1

namespace Program

variable {programs : Executables} {self : Nat} {α : Type} {p : Program α}

/-- A program that at most makes what is missing keeps all that is there and starts nothing. -/
theorem Asks.remains (hp : p.Asks Call.Gentle) (w : World) :
    p.Leads programs self w fun _ v ss => w.Remains v ∧ ss = [] :=
  Leads.of_asks World.Remains.refl World.Remains.trans
    (fun _ hc w => World.answer_gentle programs self hc w) hp w

theorem Asks.mono {asked asked' : Call → Prop} (hp : p.Asks asked)
    (h : ∀ c, asked c → asked' c) : p.Asks asked' := by
  induction hp with
  | done a => exact .done a
  | call hc _ ih => exact .call (h _ hc) ih

theorem Quiet.asks {a : α} {asked : Call → Prop} (hp : p.Quiet a) (hlog : ∀ e, asked (.log e))
    (hkind : ∀ path, asked (.kind path)) : p.Asks asked := by
  induction hp with
  | done => exact .done a
  | log e _ ih => exact .call (hlog e) fun _ => ih
  | kind path _ ih => exact .call (hkind path) ih

/-- What a quiet program leaves is the world as it was but for the log. -/
theorem Quiet.leads {a : α} (hp : p.Quiet a) {w : World} {post : α → World → List Start → Prop}
    (h : ∀ log, post a { w with log } []) : p.Leads programs self w post := by
  induction hp generalizing w with
  | done => exact leads_done.2 (h w.log)
  | log e _ ih =>
    refine leads_call.2 ?_
    rintro v (rfl | ⟨-, rfl⟩)
    · exact ih h
    · exact ih h
  | kind path _ ih =>
    refine leads_call.2 ?_
    rintro v (rfl | ⟨hlog, -⟩)
    · rw [World.answer_kind_keeps]
      exact ih _ h
    · cases hlog

end Program

namespace Storage

section
variable {path : NormalPath} {programs : Executables} {self : Nat} {k l t : Location}
  {mayCommit : Option ByteArray → ByteArray → Prop} {tr : Trail} {w₀ w : World}

variable (programs) in
/-- A program that keeps to the protocol and runs by itself leads where the protocol says. -/
theorem Follows.leads {α : Type} {post : α → Trail → Prop} {p : Program α}
    (h : Follows path.text self mayCommit post tr p) (hpath : path.Canonical)
    (hsite : Sited w.files w.cwd path self k l t) (halone : tr.Alone w₀ w self k l t) :
    p.Leads programs self w fun a v ss =>
      (∃ tr', post a tr' ∧ tr'.Alone w₀ v self k l t) ∧ ss = [] := by
  induction p generalizing tr w with
  | done a =>
    cases h with
    | done h => exact Program.leads_done.2 ⟨⟨tr, h, halone⟩, rfl⟩
  | call c next ih =>
    have hstart : w.started c = [] := by
      cases h <;> rfl
    obtain ⟨tr', hmove, hrest, -⟩ := h.step programs hpath hsite halone.fits
    refine Program.leads_call.2 ?_
    rw [hstart]
    rintro v (rfl | ⟨hlog, rfl⟩)
    · exact ih _ hrest (hmove.sited hsite) (hmove.alone (hsite.places_differ hpath) halone)
    · cases c with
      | log e =>
        cases h with
        | log _ h => exact ih () h hsite halone
      | _ => cases hlog

end

theorem leads_makeDirs {programs : Executables} {self : Nat} (path : String) (w : World) :
    (makeDirs path).run.Leads programs self w fun _ v ss => w.Remains v ∧ ss = [] := by
  refine ((asks_makeDirs path).mono fun c hc => ?_).remains w
  cases hc with
  | makeDir path => exact .makeDir path
  | kind path => exact .still (.kind path)

/-! ## Tasks that load -/

theorem asks_acquire (path : String) (kind : LockKind) :
    (acquire path kind).run.Asks Call.Gentle := by
  rw [acquire]
  refine .call (.touch _) fun r => ?_
  cases r with
  | error fault => exact .done _
  | ok =>
    refine .call (.lock _ kind) fun granted => ?_
    cases granted with
    | true => exact .done _
    | false => exact .call (.still (.log _)) fun _ => .done _

theorem asks_read (path : String) : (read path).run.Asks Call.Gentle := by
  rw [read]
  refine .call (.still (.read path)) fun r => ?_
  cases r with
  | error fault => exact .done _
  | ok bytes => exact .done _

theorem asks_replace (path : String) (content : ByteArray) :
    (replace path content).run.Asks Call.StartsNothing := by
  rw [replace]
  refine .call (fun _ => rfl) fun process => ?_
  refine .call (c := .create (newPath path process)) (fun _ => rfl) fun created => ?_
  cases created with
  | error fault => exact .done _
  | ok =>
    refine .call (c := .append (newPath path process) content) (fun _ => rfl)
      fun written => ?_
    cases written with
    | error fault => exact .done _
    | ok =>
      refine .call (c := .sync (newPath path process)) (fun _ => rfl) fun synced => ?_
      cases synced with
      | error fault => exact .done _
      | ok =>
        refine .call (c := .rename (newPath path process) path) (fun _ => rfl) fun renamed => ?_
        cases renamed with
        | ok => exact .done _
        | error fault => exact .call (fun _ => rfl) fun _ => .done _

theorem asks_readLocked (path : NormalPath) : (readLocked path).run.Asks Call.Gentle := by
  rw [readLocked]
  refine .call (.still (.kind path.text)) fun kind => ?_
  cases kind with
  | none => exact .done _
  | some kind =>
    refine (asks_acquire path.text .shared).andThen fun _ => ?_
    exact (asks_read path.text).bind fun r => .call (.unlock _ .shared) fun _ => .done _

theorem asks_load {α : Type} (ofValue? : Dialect → Value → Option α) (path : NormalPath) :
    (load ofValue? path).run.Asks Call.Gentle :=
  (asks_readLocked path).andThen fun _ => .done _

end Storage

namespace ConfigDir

theorem asks_firstFile {ε : Type} (paths : List String) :
    (firstFile paths : Task ε _).run.Asks Call.Gentle := by
  induction paths with
  | nil => exact .done _
  | cons path rest ih =>
    refine .call (.still (.kind path)) fun kind => ?_
    show Program.Asks Call.Gentle (ExceptT.run (if _ then _ else _))
    split
    · exact .done _
    · exact ih

theorem asks_loadSettings (d : ConfigDir) : d.loadSettings.run.Asks Call.Gentle := by
  refine (asks_firstFile _).andThen fun file => ?_
  cases file with
  | none => exact .done _
  | some file =>
    refine (Storage.asks_load _ _).mapError.andThen fun settings => ?_
    exact .call (.still (.log _)) fun _ => .done _

end ConfigDir
end SelectiveSync
