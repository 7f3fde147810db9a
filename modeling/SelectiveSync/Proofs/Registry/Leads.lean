import SelectiveSync.Proofs.Registry.Persistence
import SelectiveSync.Proofs.Storage.Gentle

/-! # What uses of the stored registry lead to

What a process that runs by itself makes of the registry's file and reads from it, whatever of its
log is left out.

* `Placed`: the file has its place, whether it is there or not.
* `leads_update`: a change is stored, or refused and the file left as it is.
* `leads_loadOrDefault`: what is loaded is what the file holds, if the path as it is written leads
  anywhere. -/
namespace SelectiveSync
set_option autoImplicit false

open Storage

/-! ## The place of the file -/

/-- Directories, links and locks are as they were, and so is what is at the location. -/
structure World.Unmoved (k : Location) (w v : World) : Prop where
  ways : w.files.SameWays v.files
  cwd : v.cwd = w.cwd
  locks : v.locks = w.locks
  file : v.files.get? k = w.files.get? k

theorem World.Still.unmoved {w v : World} (h : w.Still v) (k : Location) : w.Unmoved k v :=
  ⟨by rw [h.files]; exact FileSystem.SameWays.refl _, h.cwd, h.locks, by rw [h.files]⟩

theorem World.Unmoved.refl (k : Location) (w : World) : w.Unmoved k w :=
  (World.Still.refl w).unmoved k

theorem World.Unmoved.trans {u v w : World} {k : Location} (h : u.Unmoved k v)
    (h' : v.Unmoved k w) : u.Unmoved k w :=
  ⟨h.ways.trans h'.ways, h'.cwd.trans h.cwd, h'.locks.trans h.locks, h'.file.trans h.file⟩

namespace Registry

/-- The file has its place in a directory that is there or, as long as it is not there itself, in one
that can be made. -/
structure Placed (programs : Executables) (process : Nat) (w : World) (path : String)
    (k l t : Location) : Prop where
  clear : ∀ x ∈ w.locks, x.location ≠ k ∧ x.location ≠ t
  sited : Sited w.files w.cwd (NormalPath.ofText path) process k l t ∨
    w.files.get? k = none ∧ ∃ w₀,
      w.run programs process (makeParent (NormalPath.ofText path).text).run = (.ok (), w₀) ∧
      Sited w₀.files w₀.cwd (NormalPath.ofText path) process k l t

section
variable {programs : Executables} {self : Nat} {path : String} {w v : World} {k l t : Location}

theorem Placed.still (h : Placed programs self w path k l t) (hv : w.Still v) :
    Placed programs self v path k l t := by
  refine ⟨hv.locks ▸ h.clear, ?_⟩
  rcases h.sited with hsite | ⟨hnone, w₀, hparent, hsite⟩
  · exact Or.inl (hv.files ▸ hv.cwd ▸ hsite)
  · have hcwd : v.cwd = w₀.cwd := hv.cwd.trans (grown_of_makeParent hparent).cwd.symm
    refine Or.inr ⟨by rw [hv.files, hnone], { v with files := w₀.files }, ?_, hcwd ▸ hsite⟩
    rw [run_makesDirs programs self (asks_makeParent _) w v hv.files hv.cwd, hparent]

theorem Placed.sited_of_some (h : Placed programs self w path k l t) {e : Entry}
    (he : w.files.get? k = some e) : Sited w.files w.cwd (NormalPath.ofText path) self k l t := by
  rcases h.sited with hsite | ⟨hnone, -⟩
  · exact hsite
  · rw [hnone] at he
    cases he

theorem Placed.holdsFile (h : Placed programs self w path k l t) : w.files.HoldsFile k := by
  rcases h.sited with hsite | ⟨hnone, -⟩
  · exact hsite.file.holdsFile
  · intro e he
    rw [hnone] at he
    cases he

/-- The place stays the file's while it is there. -/
theorem Placed.unmoved (h : Placed programs self w path k l t) (hv : w.Unmoved k v) {e : Entry}
    (he : w.files.get? k = some e) : Placed programs self v path k l t := by
  refine ⟨hv.locks ▸ h.clear, Or.inl ?_⟩
  rw [hv.cwd]
  exact (h.sited_of_some he).sameWays hv.ways

/-! ## Changes -/

/-- How a change ends: it is refused and what is at the location stays, or it is made and stored
there. As long as nobody holds the lock it is refused for its own reason. -/
inductive Changes {ε α : Type} (made : Except ε (α × Registry)) (w : World) (k l : Location) :
    Except ε α → World → Prop
  | refused {e : ε} {v : World} (hfile : v.files.get? k = w.files.get? k)
      (hwhy : w.allows l .exclusive = true → made = .error e) : Changes made w k l (.error e) v
  | stored {a : α} {s : Registry} {v : World} {x : Bool} (hmade : made = .ok (a, s))
      (hfile : v.files.get? k = some (.file s.bytes x)) : Changes made w k l (.ok a) v

theorem Changes.still {ε α : Type} {made : Except ε (α × Registry)} {out : Except ε α} {u : World}
    (h : Changes made w k l out v) (hu : v.Still u) : Changes made w k l out u := by
  cases h with
  | refused hfile hwhy => exact .refused (hu.files ▸ hfile) hwhy
  | stored hmade hfile => exact .stored hmade (hu.files ▸ hfile)

theorem Changes.of_still {ε α : Type} {made : Except ε (α × Registry)} {out : Except ε α} {u : World}
    (hu : w.Still u) (h : Changes made u k l out v) : Changes made w k l out v := by
  cases h with
  | refused hfile hwhy =>
    refine .refused (hu.files ▸ hfile) fun hallows => hwhy ?_
    rw [World.allows, hu.locks]
    exact hallows
  | stored hmade hfile => exact .stored hmade hfile

section
variable {ε α : Type} {lift : Error → ε} {change : Registry → Task ε (α × Registry)}
  {made : Registry → Except ε (α × Registry)}

theorem leads_update_alone (hquiet : ∀ r, (change r).run.Quiet (made r))
    (hsite : Sited w.files w.cwd (NormalPath.ofText path) self k l t)
    (hclear : ∀ x ∈ w.locks, x.location ≠ k ∧ x.location ≠ t) :
    (update lift path change).run.Leads programs self w fun out v ss =>
      (∃ tr, Updated lift (NormalPath.ofText path).text made out tr ∧ tr.Alone w v self k l t) ∧
        ss = [] := by
  have hfollows : Follows (NormalPath.ofText path).text self (fun _ _ => True)
      (Updated lift (NormalPath.ofText path).text made) {} (update lift path change).run :=
    follows_update Trail.idle_start hquiet fun _ _ _ _ => trivial
  exact hfollows.leads programs (NormalPath.canonical_ofText path) hsite (Trail.alone_start hclear)

theorem leads_update_sited (hquiet : ∀ r, (change r).run.Quiet (made r))
    (hsite : Sited w.files w.cwd (NormalPath.ofText path) self k l t)
    (hclear : ∀ x ∈ w.locks, x.location ≠ k ∧ x.location ≠ t) :
    (update lift path change).run.Leads programs self w fun out v ss =>
      Changes (changed lift (NormalPath.ofText path).text made (w.content k)) w k l out v ∧
        ss = [] := by
  refine (leads_update_alone hquiet hsite hclear).mono ?_
  rintro out v _ ⟨⟨tr, hupdated, halone⟩, rfl⟩
  refine ⟨?_, rfl⟩
  obtain ⟨-, ⟨e, rfl, hfile, hwhy⟩ | ⟨a, s, rfl, hmade, x, hfile⟩⟩ := hupdated.outcome halone
  · exact .refused hfile hwhy
  · exact .stored hmade hfile

/-- A change leads to the same if the directory of the file is made first. -/
theorem leads_update_congr {w₀ : World}
    (hparent : w.run programs self (makeParent (NormalPath.ofText path).text).run = (.ok (), w₀))
    (hsite : Sited w₀.files w₀.cwd (NormalPath.ofText path) self k l t)
    (post : Except ε α → World → List Start → Prop) :
    (update lift path change).run.Leads programs self w post ↔
      (update lift path change).run.Leads programs self w₀ post := by
  have hagain : w₀.run programs self (makeParent (NormalPath.ofText path).text).run = (.ok (), w₀) :=
    run_makeParent_sited (NormalPath.canonical_ofText path) hsite
  have hcall (c : Call) (hc : MakesDirs c) : c.tellsLog = false ∧ ∀ w : World, w.started c = [] := by
    cases hc <;> exact ⟨rfl, fun _ => rfl⟩
  have hmake (post : Except FileError Unit → World → List Start → Prop) :
      (makeParent (NormalPath.ofText path).text).run.Leads programs self w post ↔
        (makeParent (NormalPath.ofText path).text).run.Leads programs self w₀ post := by
    rw [Program.Leads.of_run hcall (asks_makeParent _), hparent,
      Program.Leads.of_run hcall (asks_makeParent _), hagain]
  have hacquire (post : Except FileError LockedFile → World → List Start → Prop) :
      (LockedFile.acquire (NormalPath.ofText path)).run.Leads programs self w post ↔
        (LockedFile.acquire (NormalPath.ofText path)).run.Leads programs self w₀ post :=
    Program.Leads.andThen_congr hmake post
  exact Program.Leads.andThen_congr (Program.Leads.mapError_congr hacquire) post

/-- A change by a process that runs by itself is stored, or it is refused. -/
theorem leads_update (hquiet : ∀ r, (change r).run.Quiet (made r))
    (h : Placed programs self w path k l t) :
    (update lift path change).run.Leads programs self w fun out v ss =>
      Changes (changed lift (NormalPath.ofText path).text made (w.content k)) w k l out v ∧
        ss = [] := by
  rcases h.sited with hsite | ⟨-, w₀, hparent, hsite⟩
  · exact leads_update_sited hquiet hsite h.clear
  · have hgrown := grown_of_makeParent hparent
    have hfile := hgrown.get? hsite.file.holdsFile
    have hallows : w₀.allows l .exclusive = w.allows l .exclusive := by
      rw [World.allows, World.allows, hgrown.locks]
    refine (leads_update_congr hparent hsite _).2 ?_
    refine (leads_update_sited hquiet hsite (hgrown.locks ▸ h.clear)).mono ?_
    rintro out v _ ⟨hout, rfl⟩
    refine ⟨?_, rfl⟩
    rw [World.content_congr hfile] at hout
    cases hout with
    | refused hkept hwhy => exact .refused (hkept.trans hfile) (hallows ▸ hwhy)
    | stored hmade hx => exact .stored hmade hx

end

theorem asks_update {ε α : Type} {lift : Error → ε} {change : Registry → Task ε (α × Registry)}
    {made : Registry → Except ε (α × Registry)} (hquiet : ∀ r, (change r).run.Quiet (made r)) :
    (update lift path change).run.Asks Call.StartsNothing := by
  have hacquire : (LockedFile.acquire (NormalPath.ofText path)).run.Asks Call.StartsNothing := by
    refine ((asks_makeParent _).mono fun c hc => ?_).andThen fun _ => ?_
    · cases hc <;> exact fun _ => rfl
    · refine ((asks_acquire _ _).mono fun _ hc => hc.startsNothing).andThen fun _ => ?_
      exact .call (fun _ => rfl) fun _ => .done _
  have hwriteBack (f : LockedFile) (r : Registry) :
      (writeBack lift path f change r).run.Asks Call.StartsNothing := by
    refine ((hquiet r).asks (fun _ _ => rfl) fun _ _ => rfl).andThen fun changed => ?_
    have hwarn : changed.2.warnOfSources.Asks Call.StartsNothing :=
      changed.2.quiet_warnOfSources.asks (fun _ _ => rfl) fun _ _ => rfl
    refine hwarn.lift.andThen fun _ => ?_
    refine ((asks_replace f.path changed.2.toToml.toUTF8).andThen fun _ => ?_).mapError.andThen fun _ => ?_
    · exact .call (fun _ => rfl) fun _ => .done _
    · exact .call (fun _ => rfl) fun _ => .done _
  have hread (f : LockedFile) : f.read.run.Asks Call.StartsNothing := by
    refine .call (c := .kind f.path) (fun _ => rfl) fun kind => ?_
    cases kind with
    | none => exact .done _
    | some kind =>
      exact ((asks_read f.path).mono fun _ hc => hc.startsNothing).andThen fun _ => .done _
  refine hacquire.mapError.andThen fun f => Program.Asks.bind ?_ fun _ => ?_
  · show (updateLocked lift path f change).run.Asks Call.StartsNothing
    rw [updateLocked_eq]
    refine (hread f).mapError.andThen fun text => ?_
    cases text with
    | none => exact hwriteBack f {}
    | some text => exact .check fun r => hwriteBack f r
  · exact .call (fun _ => rfl) fun _ => .done _

/-! ## Loadings -/

/-- How a loading ends. Where the path as it is written leads nowhere, the registry is empty;
elsewhere it is the one that the file's content stands for, unless the file is missing or somebody
else holds its lock. -/
inductive Loads (path : String) (w : World) (k l : Location) : Except Error Registry → Prop
  | nowhere (hraw : (w.files.entry w.cwd path).isOk = false) : Loads path w k l (.ok {})
  | missing {e : Error} (hraw : (w.files.entry w.cwd path).isOk = true) (hnone : w.content k = none) :
      Loads path w k l (.error e)
  | locked {kind : LockKind} (hraw : (w.files.entry w.cwd path).isOk = true)
      (hheld : w.allows l kind = false) :
      Loads path w k l (.error (.file (.locked (NormalPath.ofText path).text)))
  | read {bytes : ByteArray} (hraw : (w.files.entry w.cwd path).isOk = true)
      (hbytes : w.content k = some bytes) :
      Loads path w k l (stored (NormalPath.ofText path).text (some bytes))

/-- A registry that was loaded is empty or what the file holds. -/
theorem Loads.of_ok {r : Registry} (h : Loads path w k l (.ok r)) :
    r = {} ∨ ∃ bytes, w.content k = some bytes ∧
      stored (NormalPath.ofText path).text (some bytes) = .ok r := by
  generalize hout : Except.ok r = out at h
  cases h with
  | nowhere => exact Or.inl (Except.ok.inj hout)
  | missing => cases hout
  | locked => cases hout
  | read hraw hbytes => exact Or.inr ⟨_, hbytes, rfl⟩

theorem leads_load_sited (hsite : Sited w.files w.cwd (NormalPath.ofText path) self k l t)
    (hclear : ∀ x ∈ w.locks, x.location ≠ k ∧ x.location ≠ t)
    (hraw : (w.files.entry w.cwd path).isOk = true) :
    (load path).run.Leads programs self w fun out v ss =>
      Loads path w k l out ∧ w.Unmoved k v ∧ ss = [] := by
  have hfollows : Follows (NormalPath.ofText path).text self (fun _ _ => True)
      (Loaded (NormalPath.ofText path).text) {} (load path).run :=
    follows_load path Trail.idle_start
  refine (hfollows.leads programs (NormalPath.canonical_ofText path) hsite
    (Trail.alone_start hclear)).mono ?_
  rintro out v _ ⟨⟨tr, ⟨hidle, hcases⟩, halone⟩, rfl⟩
  have hlocks := halone.locks
  rw [hidle.free] at hlocks
  refine ⟨?_, ⟨halone.ways, halone.cwd, hlocks, (halone.still hidle.fresh).1⟩, rfl⟩
  rcases hcases with ⟨rfl, hrefused⟩ | ⟨⟨e, rfl⟩, hnone⟩ | ⟨bytes, rfl, hsome⟩
  · obtain ⟨kind, hkind⟩ := halone.refused hrefused
    exact .locked hraw hkind
  · exact .missing hraw (halone.seen none hnone).symm
  · exact .read hraw (halone.seen _ hsome).symm

/-- What is not there yet cannot be loaded. -/
theorem leads_load_missing
    (hmissing : (w.files.entry w.cwd (NormalPath.ofText path).text).isOk = false) :
    (load path).run.Leads programs self w fun out v ss =>
      (∃ e, out = .error e) ∧ w.Still v ∧ ss = [] := by
  have hlocked : ((readLocked (NormalPath.ofText path)).mapError Error.file).run.Leads programs self
      w fun out v ss => (∃ e, out = .error e) ∧ w.Still v ∧ ss = [] := by
    refine .mapError (.exists_ ?_)
    rw [hmissing]
    exact Program.leads_done.2 ⟨⟨_, rfl⟩, World.Still.refl w, rfl⟩
  refine .andThen hlocked ?_ ?_
  · rintro r v ss ⟨⟨e, hr⟩, -⟩
    cases hr
  · rintro e v ss ⟨-, hv⟩
    exact ⟨⟨e, rfl⟩, hv⟩

/-- Where the directory still has to be made, the file's path leads nowhere. -/
theorem entry_missing {w₀ : World} (hnone : w.files.get? k = none)
    (hparent : w.run programs self (makeParent (NormalPath.ofText path).text).run = (.ok (), w₀))
    (hsite : Sited w₀.files w₀.cwd (NormalPath.ofText path) self k l t) :
    (w.files.entry w.cwd (NormalPath.ofText path).text).isOk = false := by
  have hgrown := grown_of_makeParent hparent
  have hfile := (hgrown.get? hsite.file.holdsFile).trans hnone
  cases hentry : w.files.entry w.cwd (NormalPath.ofText path).text with
  | error fault => rfl
  | ok found =>
    have hkept := FileSystem.entry_kept hgrown.kept hentry
    rw [← hgrown.cwd, hsite.file.entry_of_none hfile] at hkept
    cases hkept

theorem leads_loadOrDefault (h : Placed programs self w path k l t) :
    (loadOrDefault path).run.Leads programs self w fun out v ss =>
      Loads path w k l out ∧ w.Unmoved k v ∧ ss = [] := by
  refine .exists_ ?_
  cases hraw : (w.files.entry w.cwd path).isOk with
  | false =>
    refine .log fun log => Program.leads_done.2 ⟨.nowhere hraw, ?_, rfl⟩
    have hlogged : w.Still { w with log } := ⟨rfl, rfl, rfl⟩
    exact hlogged.unmoved k
  | true =>
    rcases h.sited with hsite | ⟨hnone, w₀, hparent, hsite⟩
    · exact leads_load_sited hsite h.clear hraw
    · refine (leads_load_missing (entry_missing hnone hparent hsite)).mono ?_
      rintro _ v ss ⟨⟨e, rfl⟩, hv, rfl⟩
      exact ⟨.missing hraw (World.content_of_none hnone), hv.unmoved k, rfl⟩

end
end Registry
end SelectiveSync
