import SelectiveSync.Proofs.Cli.Leads

/-! # The program that a summon starts

A summon in its parts: it is granted, its directory is made, and its transfer is made and recorded.

* `Planned`: a summon gets as far as a plan.
* `starts_of_planned`: it then starts the plan's program with the plan's arguments, unless the command
  is only to be shown.
* `planned_of_mem`: nothing is started otherwise. -/
namespace SelectiveSync
set_option autoImplicit false

open Registry Storage

namespace TransferPlan

/-- The command of a plan without a filter is shown, or given once. -/
def Once (plan : TransferPlan) (ss : List Start) : Prop :=
  plan.dryRun = some .shown ∧ ss = [] ∨ plan.dryRun ≠ some .shown ∧
    ∃ st, ss = [st] ∧ st.program = plan.program ∧ st.args = plan.arguments none

theorem Ran.once {programs : Executables} {self : Nat} {plan : TransferPlan}
    {w v : World} {r : Except Error TransferReport} {ss : List Start}
    (h : Ran programs self plan w r v ss) (hrules : plan.rules = none) : plan.Once ss := by
  cases h with
  | unwritten hsome => rw [hrules] at hsome; cases hsome
  | filtered hsome => rw [hrules] at hsome; cases hsome
  | unfiltered _ hexecuted =>
    cases hexecuted with
    | shown hshown => exact Or.inl ⟨hshown, rfl⟩
    | ran hgiven => exact Or.inr ⟨hgiven, _, rfl, rfl, rfl⟩

end TransferPlan

namespace Cli

/-! ## Parts -/

/-- The part of a summon that comes after its directory was made. -/
def summonInto (s : Session) (choices : TransferChoices) (path subject : String) (t : Target)
    (p : TreePath) : CommandTask Unit := do
  let report ← transfer s t (.summon p) (transferOptions s choices)
  if choices.dryRun.isNone && report.executed then
    let _ ← s.edit (.decide .included path)
    tellDone ("Included " ++ subject ++ ".")

/-- The part of a summon that comes after it was granted. -/
def summonGranted (s : Session) (choices : TransferChoices) (path subject : String) (t : Target)
    (p : TreePath) : CommandTask Unit := do
  tellNext ("Summoning " ++ subject ++ " from " ++ t.source)
  if choices.dryRun.isNone then ofFault (makeDirs path)
  summonInto s choices path subject t p

/-- The part of a summon that comes after the registry was loaded. -/
def summonFrom (s : Session) (choices : TransferChoices) (path : String) (r : Registry) :
    CommandTask Unit := do
  let (subject, _) ← ofTask ((Edit.decide .included path).perform r)
  match r.locate path with
  | .error e => throw (.operation e)
  | .ok (_, none) => throw (.operation (.targetRoot path))
  | .ok (t, some p) => summonGranted s choices path subject t p

theorem summon_eq (s : Session) (path : String) (choices : TransferChoices) :
    summon s path choices =
      resolve path >>= fun p => s.registry >>= summonFrom s choices p := rfl

/-- What a summon makes before it transfers: its directory, unless it is a dry run. -/
def prepare (choices : TransferChoices) (path : String) : Task Fault Unit :=
  if choices.dryRun.isNone then makeDirs path else pure ()

theorem summonGranted_eq (s : Session) (choices : TransferChoices) (path subject : String)
    (t : Target) (p : TreePath) : summonGranted s choices path subject t p =
      tellNext ("Summoning " ++ subject ++ " from " ++ t.source) >>= fun _ =>
        ofFault (prepare choices path) >>= fun _ => summonInto s choices path subject t p := by
  rw [summonGranted, prepare]
  split <;> rfl

/-- In the world `w`, where the session has read the registry `r`, the summon of what `p` leads to is
granted, its directory is made where it is to be, and `plan` is its transfer by the settings that are
loaded then. -/
structure Planned (programs : Executables) (process : Nat) (s : Session) (choices : TransferChoices)
    (w : World) (r : Registry) (p : String) (target : Target) (q : TreePath) (settings : Settings)
    (plan : TransferPlan) : Prop where
  granted : (r.decide .included p).isOk = true
  located : r.locate p = .ok (target, some q)
  made : (w.run programs process (prepare choices p).run).1 = .ok ()
  loaded : ((w.run programs process (prepare choices p).run).2.run programs process
    s.config.loadSettings.run).1 = .ok settings
  planned : ∀ rootIsDir,
    TransferPlan.of settings target (.summon q) (transferOptions s choices) rootIsDir = .ok plan

/-- What the summon starts is what is planned in `w`, and nothing without a plan. -/
def StartsPlan (programs : Executables) (process : Nat) (s : Session) (choices : TransferChoices)
    (w : World) (r : Registry) (p : String) (ss : List Start) : Prop :=
  (∃ target q settings plan,
      Planned programs process s choices w r p target q settings plan ∧ plan.Once ss) ∨
    ss = [] ∧ ∀ target q settings plan,
      ¬Planned programs process s choices w r p target q settings plan

section
variable {programs : Executables} {self : Nat} {s : Session} {choices : TransferChoices}
  {path subject p : String} {w u : World} {r : Registry} {target : Target} {q : TreePath}
  {settings : Settings} {plan : TransferPlan}

/-! ## Transfers for one path -/

theorem run_ofTarget {o : TransferOptions}
    (hplan : ∀ rootIsDir, TransferPlan.of settings target (.summon q) o rootIsDir = .ok plan)
    (w : World) :
    w.run programs self (TransferPlan.ofTarget settings target (.summon q) o).run =
      (.ok plan, w) := by
  have hrun : w.run programs self (TransferPlan.ofTarget settings target (.summon q) o).run =
      ((TransferPlan.of settings target (.summon q) o
        ((w.answer programs self (.kind target.root)).1 = some .directory)).mapError id,
        (w.answer programs self (.kind target.root)).2) := rfl
  rw [hrun, hplan, World.answer_kind_keeps]
  rfl

theorem asks_settings (s : Session) : s.config.loadSettings.run.Asks Call.StartsNothing :=
  s.config.asks_loadSettings.mono fun _ hc => hc.startsNothing

variable (programs self) in
/-- A transfer for one path starts nothing where no settings can be loaded, and elsewhere the program
of its plan. -/
theorem starts_transfer (s : Session) (target : Target) (q : TreePath) (o : TransferOptions)
    (w : World) :
    let ss := w.starts programs self (transfer s target (.summon q) o).run
    match (w.run programs self s.config.loadSettings.run).1 with
    | .ok settings => ∃ plan, plan.Once ss ∧
      ∀ rootIsDir, TransferPlan.of settings target (.summon q) o rootIsDir = .ok plan
    | .error _ => ss = [] := by
  have hplans (settings : Settings) :
      (TransferPlan.ofTarget settings target (.summon q) o).run.Asks Call.StartsNothing :=
    (TransferPlan.asks_ofTarget settings target (.summon q) o).mono fun c hc => by
      cases hc <;> exact fun _ => rfl
  intro ss
  have hss : ss = _ := World.starts_mapError_andThen programs self (asks_settings s) Failure.operation _ w
  cases hloaded : (w.run programs self s.config.loadSettings.run).1 with
  | error e => rw [hss, hloaded]
  | ok settings =>
    obtain ⟨plan, hplan⟩ :
        ∃ plan, TransferPlan.of settings target (.summon q) o true = .ok plan := ⟨_, rfl⟩
    let v := (w.run programs self s.config.loadSettings.run).2
    have htold (report : TransferReport) (v : World) :
        v.starts programs self (tellReport s plan report).run = [] :=
      (leads_tellReport s plan report v).run.2.2
    have hrun : ss = v.starts programs self plan.run.run := by
      rw [hss, hloaded]
      refine (World.starts_mapError_andThen programs self (hplans settings) _ _ v).trans ?_
      rw [run_ofTarget fun _ => hplan]
      exact (World.starts_andThen_nil htold _ v).trans (World.starts_mapError _ _ v)
    have hnone : plan.rules = none := by
      simpa [Direction.deletes] using (TransferPlan.dryRun_of hplan).2
    exact ⟨plan, hrun ▸ (TransferPlan.leads_run programs self plan v).run.once hnone,
      fun _ => hplan⟩

theorem starts_summonInto (s : Session) (choices : TransferChoices) (path subject : String)
    (target : Target) (q : TreePath) (w : World) :
    w.starts programs self (summonInto s choices path subject target q).run =
      w.starts programs self
        (transfer s target (.summon q) (transferOptions s choices)).run := by
  refine World.starts_andThen_nil (fun report v => World.starts_eq_nil ?_ v) _ w
  split
  · refine (asks_edit s _).andThen fun _ => ?_
    exact .call (fun _ => rfl) fun _ => .done _
  · exact .done _

/-! ## From the grant to the transfer -/

theorem asks_prepare (choices : TransferChoices) (path : String) :
    (prepare choices path).run.Asks Call.StartsNothing := by
  rw [prepare]
  split
  · refine (asks_makeDirs path).mono fun c hc => ?_
    cases hc <;> exact fun _ => rfl
  · exact .done _

/-- A summon that was granted makes its directory and then its transfer. What was printed and logged
since the registry was read makes no difference. -/
theorem starts_summonGranted (subject : String) (hgranted : (r.decide .included p).isOk = true)
    (hlocated : r.locate p = .ok (target, some q)) (hu : w.hushed = u.hushed) :
    StartsPlan programs self s choices w r p
      (u.starts programs self (summonGranted s choices p subject target q).run) := by
  let message := "Summoning " ++ subject ++ " from " ++ target.source
  let told : World := { u with out := u.out ++ ("=> " ++ message ++ "\n") }
  let prepared := (told.run programs self (prepare choices p).run).2
  have hasks := asks_prepare choices p
  have htold : w.hushed = told.hushed := hu
  obtain ⟨hmade, hprepared⟩ := World.run_hushed programs self hasks htold
  have hnothing : u.starts programs self (tellNext message).run = [] := rfl
  rw [summonGranted_eq, World.starts_andThen, hnothing, List.nil_append]
  have hss := World.starts_mapError_andThen programs self hasks
    (fun fault => Failure.operation (.system fault))
    (fun _ => summonInto s choices p subject target q) told
  rw [starts_summonInto] at hss
  refine hss.symm ▸ ?_
  cases hout : (told.run programs self (prepare choices p).run).1 with
  | error fault =>
    exact Or.inr ⟨rfl, fun _ _ _ _ h => by cases (hmade.trans hout).symm.trans h.made⟩
  | ok =>
    have hmade := hmade.trans hout
    have hloads := (World.run_hushed programs self (asks_settings s) hprepared).1
    have htransfer := starts_transfer programs self s target q (transferOptions s choices) prepared
    cases hloaded : (prepared.run programs self s.config.loadSettings.run).1 with
    | error e =>
      rw [hloaded] at htransfer
      exact Or.inr ⟨htransfer, fun _ _ _ _ h => by
        cases (hloads.trans hloaded).symm.trans h.loaded⟩
    | ok settings =>
      rw [hloaded] at htransfer
      obtain ⟨plan, honce, hplan⟩ := htransfer
      exact Or.inl ⟨target, q, settings, plan,
        ⟨hgranted, hlocated, hmade, hloads.trans hloaded, hplan⟩, honce⟩

theorem Planned.plan_eq {target' : Target} {q' : TreePath} {settings' : Settings}
    {plan' : TransferPlan} (h : Planned programs self s choices w r p target q settings plan)
    (h' : Planned programs self s choices w r p target' q' settings' plan') : plan = plan' := by
  cases h.located.symm.trans h'.located
  cases h.loaded.symm.trans h'.loaded
  exact Except.ok.inj ((h.planned true).symm.trans (h'.planned true))

theorem starts_summonFrom (s : Session) (choices : TransferChoices) (p : String) (r : Registry)
    (w : World) : StartsPlan programs self s choices w r p
      (w.starts programs self (summonFrom s choices p r).run) := by
  have hquiet := Edit.quiet_perform (.decide .included p) r
  obtain ⟨log, hperform⟩ : ∃ log, w.run programs self _ = (_, { w with log }) :=
    World.run_quiet hquiet w
  have hasks : ((Edit.decide .included p).perform r).run.Asks Call.StartsNothing :=
    hquiet.asks (fun _ _ => rfl) fun _ _ => rfl
  have hss : w.starts programs self (summonFrom s choices p r).run = _ :=
    World.starts_mapError_andThen programs self hasks Failure.operation _ w
  rw [hperform] at hss
  cases hdecide : r.decide .included p with
  | error e =>
    rw [Edit.apply, hdecide] at hss
    refine Or.inr ⟨hss, fun _ _ _ _ h => ?_⟩
    cases hdecide ▸ h.granted
  | ok found =>
    rw [Edit.apply, hdecide] at hss
    dsimp only [Except.map, Except.mapError] at hss
    rcases hlocate : r.locate p with e | ⟨target, _ | q⟩
    · rw [hlocate] at hss
      exact Or.inr ⟨hss, fun _ _ _ _ h => by cases hlocate.symm.trans h.located⟩
    · rw [hlocate] at hss
      exact Or.inr ⟨hss, fun _ _ _ _ h => by cases hlocate.symm.trans h.located⟩
    · rw [hlocate] at hss
      refine hss.symm ▸ starts_summonGranted _ (hdecide ▸ rfl) hlocate ?_
      rfl

/-! ## From the command to the transfer -/

theorem starts_summon (s : Session) (path : String) (choices : TransferChoices) (w : World) :
    w.starts programs self (summon s path choices).run =
      match (w.run programs self (resolve path).run).1 with
      | .error _ => []
      | .ok p =>
        match (w.run programs self s.registry.run).1 with
        | .error _ => []
        | .ok r => (w.run programs self s.registry.run).2.starts programs self
          (summonFrom s choices p r).run := by
  have hregistry : s.registry.run.Asks Call.StartsNothing :=
    (asks_registry s).mono fun _ hc => hc.startsNothing
  have hlooks : (resolve path).run.Leads programs self w _ := leads_resolve path w
  obtain ⟨-, hkept, hnothing⟩ := hlooks.run
  rw [summon_eq, World.starts_andThen, hnothing, hkept, List.nil_append]
  cases (w.run programs self (resolve path).run).1 with
  | error e => rfl
  | ok p =>
    dsimp only
    rw [World.starts_andThen, World.starts_eq_nil hregistry, List.nil_append]
    cases (w.run programs self s.registry.run).1 <;> rfl

theorem starts_summon_of (hp : (w.run programs self (resolve path).run).1 = .ok p)
    (hr : w.run programs self s.registry.run = (.ok r, u)) :
    w.starts programs self (summon s path choices).run =
      u.starts programs self (summonFrom s choices p r).run := by
  rw [starts_summon, hp, hr]

/-- The program of a plan is started, unless its command is only to be shown. -/
theorem starts_of_planned (hp : (w.run programs self (resolve path).run).1 = .ok p)
    (hr : w.run programs self s.registry.run = (.ok r, u))
    (h : Planned programs self s choices u r p target q settings plan)
    (hgiven : choices.dryRun ≠ some .shown) :
    ∃ st, w.starts programs self (summon s path choices).run = [st] ∧
      st.program = plan.program ∧ st.args = plan.arguments none := by
  rw [starts_summon_of hp hr]
  rcases starts_summonFrom s choices p r u with ⟨_, _, _, _, hplanned, honce⟩ | ⟨-, hnot⟩
  · rcases h.plan_eq hplanned ▸ honce with ⟨hshown, -⟩ | ⟨-, hcommand⟩
    · exact absurd ((TransferPlan.dryRun_of (h.planned true)).1.symm.trans hshown) hgiven
    · exact hcommand
  · exact absurd h (hnot _ _ _ _)

/-- What is started is the program of a plan. -/
theorem planned_of_mem {st : Start}
    (hst : st ∈ w.starts programs self (summon s path choices).run) :
    ∃ p r u target q settings plan, (w.run programs self (resolve path).run).1 = .ok p ∧
      w.run programs self s.registry.run = (.ok r, u) ∧
      Planned programs self s choices u r p target q settings plan ∧
      st.program = plan.program ∧ st.args = plan.arguments none := by
  rw [starts_summon] at hst
  cases hp : (w.run programs self (resolve path).run).1 with
  | error e =>
    rw [hp] at hst
    cases hst
  | ok p =>
    rw [hp] at hst
    cases hr : (w.run programs self s.registry.run).1 with
    | error e =>
      rw [hr] at hst
      cases hst
    | ok r =>
      rw [hr] at hst
      dsimp only at hst
      rcases starts_summonFrom s choices p r (w.run programs self s.registry.run).2 with
        ⟨target, q, settings, plan, hplanned, ⟨-, hnone⟩ | ⟨-, given, hgiven, hcommand⟩⟩ | ⟨hnone, -⟩
      · rw [hnone] at hst
        cases hst
      · rw [hgiven] at hst
        cases List.mem_singleton.1 hst
        exact ⟨p, r, _, target, q, settings, plan, rfl, Prod.ext hr rfl, hplanned, hcommand⟩
      · rw [hnone] at hst
        cases hst

end

end Cli
end SelectiveSync
