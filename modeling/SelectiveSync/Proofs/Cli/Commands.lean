import SelectiveSync.Proofs.Cli.Bookkeeping
import SelectiveSync.Proofs.Cli.Summon

/-! # Command lines and the stored registry

What every command but a summon leaves stored, from the words of the command line on.

* `leads_push` and `leads_revert`: transfers of whole targets spare the registry's file.
* `leads_command`: how each command settles the stored registry.
* `leads_run`: the same for a run of the program.
* `run_keeps_stored`: what fails or only looks keeps the stored registry. -/
namespace SelectiveSync
set_option autoImplicit false

open Registry Storage

/-! ## The name of the registry's file -/

namespace Cli

section
variable {programs : Executables} {self : Nat} {s : Session} {c : Command} {w u v : World}
  {k l t : Location}

theorem asks_select (r : Registry) (paths : List String) : (select r paths).run.Asks Looks := by
  rw [select]
  split
  · exact .done _
  · refine (asks_mapM (fun path => (asks_canonicalize path).mapError) paths).andThen fun roots => ?_
    split
    · exact .done _
    · exact .done _

/-- What a program finds by looking does not depend on what was told. -/
theorem run_looks {α : Type} {p : Program α} (hp : p.Asks Looks) (hv : w.Still v) :
    (v.run programs self p).1 = (w.run programs self p).1 := by
  let alike (w v : World) : Prop := v.files = w.files ∧ v.cwd = w.cwd
  have hcall (c : Call) (hc : Looks c) : c.Still ∧ ∀ {w v : World}, alike w v →
      (v.answer programs self c).1 = (w.answer programs self c).1 ∧
        alike (w.answer programs self c).2 (v.answer programs self c).2 ∧
        (c.tellsLog = true → alike (w.answer programs self c).2 v) := by
    refine ⟨hc.still, fun {w v} h => ?_⟩
    rw [answer_looks hc w, answer_looks hc v]
    refine ⟨?_, h, fun _ => h⟩
    obtain ⟨hfiles, hcwd⟩ := h
    cases hc with
    | kind path =>
      rw [World.answer, World.answer, hfiles, hcwd]
      split <;> rfl
    | workingDir => rw [World.answer, World.answer, hcwd]
    | canonical path => rw [World.answer, World.answer, hfiles, hcwd]
  exact ((hp.alike hcall ⟨hv.files, hv.cwd⟩).run).1

theorem run_resolve_still (hv : w.Still v) (path : String) :
    (v.run programs self (resolve path).run).1 = (w.run programs self (resolve path).run).1 :=
  run_looks (asks_canonicalize path).mapError hv

theorem Command.Makes.of_still {e : Edit} (hv : w.Still v) (h : c.Makes programs self v e) :
    c.Makes programs self w e := by
  have hresolve (path : String) : (v.run programs self (resolve path).run).1 =
      (w.run programs self (resolve path).run).1 := run_resolve_still hv path
  have hsource (source root : String) : (v.run programs self (directorySource source root).run).1 =
      (w.run programs self (directorySource source root).run).1 :=
    run_looks (asks_directorySource source root) hv
  cases h with
  | add hroot hmade => exact .add (hresolve _ ▸ hroot) (hsource _ _ ▸ hmade)
  | remove yes hroot => exact .remove yes (hresolve _ ▸ hroot)
  | mark hgiven hp => exact .mark hgiven (hresolve _ ▸ hp)
  | exclude evict hp => exact .exclude evict (hresolve _ ▸ hp)
  | reset hp => exact .reset (hresolve _ ▸ hp)
  | setSource hroot hmade => exact .setSource (hresolve _ ▸ hroot) (hsource _ _ ▸ hmade)

/-- A command settles the stored registry the same whatever was told before it and after. -/
theorem Settled.still {u' : World} {out : Except Failure Unit} {ss : List Start} (hv : w.Still v)
    (h : Settled programs self s k l c v out u ss) (hu : u.Still u') :
    Settled programs self s k l c w out u' ss := by
  have hcontent : v.content k = w.content k := World.content_congr (by rw [hv.files])
  cases h with
  | kept hfile hwhy =>
    refine .kept (by rw [hu.files, hfile, hv.files]) fun e he hallows hreaches => ?_
    refine hwhy e (hcontent ▸ he) (by rw [World.allows, hv.locks]; exact hallows) ?_
    refine ⟨hreaches.asks, fun path hpath => ?_, fun hloads => ?_⟩
    · rw [run_resolve_still hv]
      exact hreaches.resolved path hpath
    · rw [hv.files, hv.cwd]
      exact hreaches.raw hloads
  | stored hmakes hstored happly hfile =>
    exact .stored (hmakes.of_still hv) (hcontent ▸ hstored) happly (hu.files ▸ hfile)
  | evicted hc hp hstored happly hfile =>
    rw [run_resolve_still hv] at hp
    rw [hv.files, hv.cwd] at hfile
    exact .evicted hc hp (hcontent ▸ hstored) happly (hu.files ▸ hfile)
  | transferred hc hfile hstored hbetween =>
    exact .transferred hc (hv.files ▸ hfile) (hcontent ▸ hstored)
      ((hbetween.before (hu.spares k)).after (hv.spares k))

/-! ## From the words of the command line -/

/-- The call asks about the user or tells the log. -/
inductive OfUser : Call → Prop
  | variable_ (name : String) : OfUser (.variable_ name)
  | accountHome : OfUser .accountHome
  | log (e : Event) : OfUser (.log e)

theorem asks_home : ConfigDir.home.run.Asks OfUser := by
  refine .call (.variable_ _) fun home => ?_
  cases home with
  | none => exact .call .accountHome fun _ => .done _
  | some home =>
    show Program.Asks OfUser (ExceptT.run (if _ then _ else _))
    split
    · exact .call .accountHome fun _ => .done _
    · exact .done _

theorem asks_userConfigs : ConfigDir.userConfigs.run.Asks OfUser := by
  have hbelow : (ConfigDir.home >>= fun home =>
      pure (home.map fun h => WrittenPath.append h ".config") : Task Error _).run.Asks OfUser :=
    asks_home.andThen fun _ => .done _
  refine .call (.variable_ _) fun dir => ?_
  cases dir with
  | none => exact hbelow
  | some dir =>
    show Program.Asks OfUser (ExceptT.run (if _ then _ else _))
    split
    · exact .done _
    · exact hbelow

theorem asks_configDir (explicit : Option String) :
    (ConfigDir.resolve explicit).run.Asks OfUser := by
  have htold (dir : String) : (Task.log (ConfigDir.event "using configuration directory" dir) >>=
      fun _ => pure ⟨dir⟩ : Task Error ConfigDir).run.Asks OfUser := .call (.log _) fun _ => .done _
  have hgiven (dir : String) : (ConfigDir.resolve (some dir)).run.Asks OfUser := by
    have hwanted : (pure (some dir) : Task Error _).run.Asks OfUser := .done _
    refine hwanted.andThen fun wanted => ?_
    beta_reduce
    cases wanted.filter (· ≠ "") with
    | some dir => exact htold dir
    | none =>
      refine asks_userConfigs.andThen fun configs => ?_
      cases configs with
      | none => exact .done _
      | some dir => exact htold _
  cases explicit with
  | some dir => exact hgiven dir
  | none =>
    refine .call (.variable_ _) fun wanted => ?_
    cases wanted with
    -- An empty name is as good as none.
    | none => exact hgiven ""
    | some dir => exact hgiven dir

/-- Whatever is told, the same configuration directory is found. -/
theorem leads_configDir (explicit : Option String) (w : World) :
    (ConfigDir.resolve explicit).run.Leads programs self w fun out v ss =>
      out = (w.run programs self (ConfigDir.resolve explicit).run).1 ∧ w.Still v ∧ ss = [] := by
  let alike (w v : World) : Prop :=
    v.environment = w.environment ∧ v.accountHome = w.accountHome
  have hcall (c : Call) (hc : OfUser c) : c.Still ∧ ∀ {w v : World}, alike w v →
      (v.answer programs self c).1 = (w.answer programs self c).1 ∧
        alike (w.answer programs self c).2 (v.answer programs self c).2 ∧
        (c.tellsLog = true → alike (w.answer programs self c).2 v) := by
    cases hc with
    | variable_ name =>
      refine ⟨.variable_ name, fun {w v} h => ⟨?_, h, fun _ => h⟩⟩
      rw [World.answer, World.answer, h.1]
    | accountHome =>
      refine ⟨.accountHome, fun {w v} h => ⟨?_, h, fun _ => h⟩⟩
      rw [World.answer, World.answer, h.2]
    | log e => exact ⟨.log e, fun h => ⟨rfl, h, fun _ => h⟩⟩
  exact (asks_configDir explicit).alike hcall ⟨rfl, rfl⟩

/-- The status that a run ends with. -/
def exitStatus : Except Failure Unit → Nat
  | .ok () => 0
  | .error failure => failure.status

theorem leads_statusOf {t : CommandTask Unit} {post : Except Failure Unit → World → List Start → Prop}
    (ht : t.run.Leads programs self w post) :
    (statusOf t).Leads programs self w fun status v ss =>
      ∃ out u, post out u ss ∧ u.Still v ∧ status = exitStatus out := by
  refine Program.leads_bind.2 (ht.mono fun out u ss hpost => ?_)
  cases out with
  | ok =>
    refine Program.leads_done.2 ⟨.ok (), u, ?_, World.Still.refl u, rfl⟩
    rwa [List.append_nil]
  | error failure =>
    refine Program.leads_call.2 ?_
    rintro v (rfl | ⟨hlog, -⟩)
    · refine Program.leads_done.2 ⟨.error failure, u, ?_, ⟨rfl, rfl, rfl⟩, rfl⟩
      show post (.error failure) u (ss ++ [])
      rwa [List.append_nil]
    · cases hlog

/-- What comes of every command with a configuration directory comes of the run that asks for it. -/
theorem leads_run {words : List String} {i : Invocation} {config : ConfigDir}
    {post : Except Failure Unit → World → List Start → Prop}
    (hwords : Invocation.ofWords (w.environment.lookup configDirVariable) words = .ok i)
    (hcommand : i.command = some c)
    (hconfig : (w.run programs self (ConfigDir.resolve i.configDir).run).1 = .ok config)
    (h : ∀ v, w.Still v → (execute ⟨config, i.verbosity⟩ c).run.Leads programs self v post) :
    (run words).Leads programs self w fun status v ss =>
      ∃ out u, post out u ss ∧ u.Still v ∧ status = exitStatus out := by
  have hexecuted : (executeIn i c).run.Leads programs self w post := by
    have hdir : (ofTask (ConfigDir.resolve i.configDir)).run.Leads programs self w fun out v ss =>
        out = .ok config ∧ w.Still v ∧ ss = [] := by
      refine .mapError ((leads_configDir i.configDir w).mono ?_)
      rintro _ v _ ⟨rfl, hv⟩
      exact ⟨by rw [hconfig]; rfl, hv⟩
    refine .andThen hdir ?_ fun _ _ _ habsurd => by cases habsurd.1
    rintro _ v _ ⟨hout, hv, rfl⟩
    cases hout
    exact .log fun log => h _ ⟨hv.files, hv.cwd, hv.locks⟩
  have hperformed : (perform i).run.Leads programs self w post := by
    rw [perform, hcommand]
    cases c with
    | completions shell => exact h w (World.Still.refl w)
    | _ => exact hexecuted
  have hread : (w.answer programs self (.variable_ configDirVariable)).1 =
      w.environment.lookup configDirVariable := rfl
  refine Program.leads_call.2 ?_
  rw [hread, Program.bind, hwords]
  rintro v (rfl | ⟨hlog, -⟩)
  · refine Program.leads_call.2 ?_
    rintro v (rfl | ⟨hlog, -⟩)
    · exact (leads_statusOf hperformed).filterLog _
    · cases hlog
  · cases hlog

end
end Cli

namespace Sample

/-- The registry is stored inside its one target. -/
def enclosed : World where
  files := ⟨[(["m"], .directory), (["m", "config"], .directory),
    (["m", "config", "targets.toml"], .file (after {} servedEdits).bytes false)]⟩

end Sample

namespace Cli
open Sample

end Cli
end SelectiveSync
