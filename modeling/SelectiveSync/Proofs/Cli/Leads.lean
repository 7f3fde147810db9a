import SelectiveSync.Cli.Transfers
import SelectiveSync.Proofs.Cli.Eviction
import SelectiveSync.Proofs.Registry.Leads
import SelectiveSync.Proofs.Transfer.Command

/-! # What the steps of commands lead to

* `leads_resolve`, `leads_registry` and `leads_edit`: a path is resolved, the stored registry read
  and changed.
* `leads_transfer`: a plan is made and carried out, in a world with nothing taken away. -/
namespace SelectiveSync
set_option autoImplicit false

open Registry Storage

/-! ## Programs that only look -/

theorem Looks.still {c : Call} (hc : Looks c) : c.Still := by
  cases hc with
  | kind path => exact .kind path
  | workingDir => exact .workingDir
  | canonical path => exact .canonical path

/-- A program that only looks ends as its run does and changes nothing. -/
theorem Program.Asks.looks {programs : Executables} {self : Nat} {α : Type} {p : Program α}
    (hp : p.Asks Looks) (w : World) :
    p.Leads programs self w fun out v ss =>
      out = (w.run programs self p).1 ∧ v = w ∧ ss = [] := by
  have hcall (c : Call) (hc : Looks c) : c.tellsLog = false ∧ ∀ w : World, w.started c = [] := by
    cases hc <;> exact ⟨rfl, fun _ => rfl⟩
  have hanswer (c : Call) (hc : Looks c) (w : World) : w = (w.answer programs self c).2 :=
    (answer_looks hc w).symm
  have hsame : w = (w.run programs self p).2 :=
    World.run_asks (fun _ => rfl) Eq.trans hanswer hp w
  exact (Program.Leads.of_run hcall hp).2 ⟨rfl, hsame.symm, rfl⟩

theorem asks_isDir {ε : Type} (path : String) : (Task.isDir path : Task ε Bool).run.Asks Looks :=
  .call (.kind path) fun _ => .done _

/-! ## Plans -/

namespace TransferPlan

theorem asks_ofTarget (settings : Settings) (t : Target) (direction : Direction)
    (o : TransferOptions) : (ofTarget settings t direction o).run.Asks Looks :=
  (asks_isDir t.root).andThen fun _ => .done _

/-- A plan is tried out as was asked for, and has rules just when it may delete. -/
theorem dryRun_of {settings : Settings} {t : Target} {direction : Direction} {o : TransferOptions}
    {rootIsDir : Bool} {plan : TransferPlan} (h : of settings t direction o rootIsDir = .ok plan) :
    plan.dryRun = o.dryRun ∧ plan.rules.isSome = direction.deletes := by
  cases direction with
  | summon p =>
    cases h
    exact ⟨rfl, rfl⟩
  | push | revert =>
    cases hrules : rulesOf t with
    | error e =>
      rw [of, hrules] at h
      cases h
    | ok rules =>
      rw [of, hrules] at h
      cases h
      exact ⟨rfl, rfl⟩

theorem leads_ofTarget {programs : Executables} {self : Nat} (settings : Settings) (t : Target)
    (direction : Direction) (o : TransferOptions) (w : World) :
    (ofTarget settings t direction o).run.Leads programs self w fun out v ss =>
      (∀ plan, out = .ok plan → ∃ rootIsDir, of settings t direction o rootIsDir = .ok plan) ∧
        v = w ∧ ss = [] := by
  refine ((asks_ofTarget settings t direction o).looks w).mono ?_
  rintro _ _ _ ⟨rfl, rfl, rfl⟩
  exact ⟨fun plan hplan => ⟨_, mapError_eq_ok.1 hplan⟩, rfl, rfl⟩

end TransferPlan

namespace Cli

section
variable {programs : Executables} {self : Nat} {w : World} {k l t : Location}

/-! ## Paths and the stored registry -/

theorem leads_resolve (path : String) (w : World) :
    (resolve path).run.Leads programs self w fun out v ss =>
      out = (w.run programs self (resolve path).run).1 ∧ v = w ∧ ss = [] :=
  (asks_canonicalize path).mapError.looks w

theorem leads_registry {s : Session} (h : Placed programs self w s.config.targetsFile k l t) :
    s.registry.run.Leads programs self w fun out v ss =>
      (∃ r, Loads s.config.targetsFile w k l r ∧ out = r.mapError Failure.operation) ∧
        w.Unmoved k v ∧ ss = [] := by
  refine .mapError ((leads_loadOrDefault h).mono ?_)
  rintro r v ss ⟨hr, hv⟩
  exact ⟨⟨r, hr, rfl⟩, hv⟩

theorem asks_registry (s : Session) : s.registry.run.Asks Call.Gentle := by
  refine Program.Asks.mapError (.call (.still (.kind _)) fun kind => ?_)
  cases kind with
  | none => exact .call (.still (.log _)) fun _ => .done _
  | some =>
    refine (asks_readLocked _).mapError.andThen fun content => .check fun r => ?_
    exact .call (.still (.log _)) fun _ => .done _

/-- What an edit makes of the registry that a content stands for. -/
def edited (s : Session) (e : Edit) (content : Option ByteArray) :
    Except Failure (String × Registry) :=
  ((stored (NormalPath.ofText s.config.targetsFile).text content).bind fun r =>
    (e.apply r).map fun r' => (e.subject r, r')).mapError Failure.operation

theorem quiet_edit (e : Edit) (r : Registry) : (ofTask (e.perform r)).run.Quiet
    (((e.apply r).map fun r' => (e.subject r, r')).mapError Failure.operation) :=
  (Edit.quiet_perform e r).bind .done

theorem leads_edit {s : Session} (e : Edit)
    (h : Placed programs self w s.config.targetsFile k l t) :
    (s.edit e).run.Leads programs self w fun out v ss =>
      Changes (edited s e (w.content k)) w k l out v ∧ ss = [] := by
  refine (leads_update (quiet_edit e) h).mono ?_
  rintro out v ss ⟨hchanges, hss⟩
  rw [changed_mapError] at hchanges
  exact ⟨hchanges, hss⟩

/-- Wherever the file is, an edit starts nothing. -/
theorem asks_edit (s : Session) (e : Edit) : (s.edit e).run.Asks Call.StartsNothing :=
  asks_update (quiet_edit e)

/-! ## Transfers -/

/-- How a transfer ends: there is no plan, or a plan is carried out. Nothing was taken away before
that, and after it the user is only told. -/
inductive Transferred (programs : Executables) (process : Nat) (direction : Direction)
    (o : TransferOptions) (w : World) : Except Failure TransferReport → World → List Start → Prop
  | unplanned {e : Failure} {u : World} (hu : w.Remains u) :
      Transferred programs process direction o w (.error e) u []
  | carried {plan : TransferPlan} {u v v' : World} {r : Except Error TransferReport}
      {ss : List Start} (hu : w.Remains u) (hdry : plan.dryRun = o.dryRun)
      (hrules : plan.rules.isSome = direction.deletes)
      (hran : TransferPlan.Ran programs process plan u r v ss) (hv : v.Still v') :
      Transferred programs process direction o w (r.mapError Failure.operation) v' ss

theorem leads_print (text : String) (w : World) :
    (Task.print text : CommandTask Unit).run.Leads programs self w fun out v ss =>
      out = .ok () ∧ w.Still v ∧ ss = [] := by
  refine Program.leads_call.2 ?_
  rintro v (rfl | ⟨hlog, -⟩)
  · exact Program.leads_done.2 ⟨rfl, ⟨rfl, rfl, rfl⟩, rfl⟩
  · cases hlog

theorem leads_prints (lines : List String) (line : String → String) (w : World) :
    (lines.forM fun s => Task.print (line s) : CommandTask Unit).run.Leads programs self w
      fun out v ss => out = .ok () ∧ w.Still v ∧ ss = [] := by
  induction lines generalizing w with
  | nil => exact Program.leads_done.2 ⟨rfl, World.Still.refl w, rfl⟩
  | cons s lines ih =>
    refine .still (.print _) fun _ v hv => (ih v).mono ?_
    rintro _ v' _ ⟨rfl, hv', rfl⟩
    exact ⟨rfl, hv.trans hv', rfl⟩

/-- The part of a transfer that comes after its plan was carried out. -/
def tellReport (s : Session) (plan : TransferPlan) (report : TransferReport) :
    CommandTask TransferReport := do
  unless report.executed do
    Task.print (report.line ++ "\n")
    if 0 < s.verbosity then
      (plan.rules.getD []).forM fun rule => Task.print ("  " ++ rule ++ "\n")
  return report

theorem transfer_eq (s : Session) (target : Target) (direction : Direction) (o : TransferOptions) :
    transfer s target direction o =
      ofTask s.config.loadSettings >>= fun settings =>
        ofTask (TransferPlan.ofTarget settings target direction o) >>= fun plan =>
          ofTask plan.run >>= tellReport s plan := rfl

theorem leads_tellReport (s : Session) (plan : TransferPlan) (report : TransferReport) (w : World) :
    (tellReport s plan report).run.Leads programs self w fun out v ss =>
      out = .ok report ∧ w.Still v ∧ ss = [] := by
  rw [tellReport]
  cases report.executed with
  | true => exact Program.leads_done.2 ⟨rfl, World.Still.refl w, rfl⟩
  | false =>
    refine .still (.print _) fun _ v hv => ?_
    by_cases hverbose : 0 < s.verbosity
    · rw [if_pos hverbose]
      refine .andThen (leads_prints _ _ v) ?_ fun _ _ _ h => by cases h.1
      rintro _ v' _ ⟨-, hv', rfl⟩
      exact Program.leads_done.2 ⟨rfl, hv.trans hv', rfl⟩
    · rw [if_neg hverbose]
      exact Program.leads_done.2 ⟨rfl, hv, rfl⟩

/-- What every plan of a transfer and its absence lead to, the transfer leads to. -/
theorem leads_transfer_of {s : Session} {target : Target} {direction : Direction}
    {o : TransferOptions} {post : Except Failure TransferReport → World → List Start → Prop}
    (hunplanned : ∀ e u, w.Remains u → post (.error e) u [])
    (hcarried : ∀ settings rootIsDir plan u r v ss v',
      TransferPlan.of settings target direction o rootIsDir = .ok plan → w.Remains u →
      TransferPlan.Ran programs self plan u r v ss → v.Still v' →
      post (r.mapError Failure.operation) v' ss) :
    (transfer s target direction o).run.Leads programs self w post := by
  have hsettings : (s.config.loadSettings.mapError Failure.operation).run.Leads programs self w
      fun _ u ss => w.Remains u ∧ ss = [] := .mapError (s.config.asks_loadSettings.remains w)
  rw [transfer_eq]
  refine .andThen hsettings ?_ ?_
  · rintro settings u _ ⟨hu, rfl⟩
    have hplanned : ((TransferPlan.ofTarget settings target direction o).mapError
        Failure.operation).run.Leads programs self u fun out v ss => (∀ plan, out = .ok plan →
          ∃ rootIsDir, TransferPlan.of settings target direction o rootIsDir = .ok plan) ∧
            v = u ∧ ss = [] := by
      refine .mapError ((TransferPlan.leads_ofTarget settings target direction o u).mono ?_)
      rintro out _ _ ⟨hplan, rfl, rfl⟩
      exact ⟨fun plan h => hplan plan (mapError_eq_ok.1 h), rfl, rfl⟩
    refine .andThen hplanned ?_ ?_
    · rintro plan u _ ⟨hplan, rfl, rfl⟩
      obtain ⟨rootIsDir, hplan⟩ := hplan plan rfl
      have hrun : (plan.run.mapError Failure.operation).run.Leads programs self u fun out v ss =>
          ∃ r, TransferPlan.Ran programs self plan u r v ss ∧
            r.mapError Failure.operation = out :=
        .mapError ((TransferPlan.leads_run programs self plan u).mono fun r v ss h => ⟨r, h, rfl⟩)
      refine .andThen hrun ?_ ?_
      · rintro report v ss ⟨r, hran, hr⟩
        refine (leads_tellReport s plan report v).mono ?_
        rintro _ v' _ ⟨rfl, hv, rfl⟩
        rw [List.append_nil]
        exact hr ▸ hcarried settings rootIsDir plan u r v ss v' hplan hu hran hv
      · rintro e v ss ⟨r, hran, hr⟩
        exact hr ▸ hcarried settings rootIsDir plan u r v ss v hplan hu hran (World.Still.refl v)
    · rintro e _ _ ⟨-, rfl, rfl⟩
      exact hunplanned e _ hu
  · rintro e u _ ⟨hu, rfl⟩
    exact hunplanned e u hu

theorem leads_transfer (s : Session) (target : Target) (direction : Direction) (o : TransferOptions)
    (w : World) : (transfer s target direction o).run.Leads programs self w
      (Transferred programs self direction o w) := by
  refine leads_transfer_of (fun _ _ hu => .unplanned hu) ?_
  intro settings rootIsDir plan u r v ss v' hplan hu hran hv
  obtain ⟨hdry, hrules⟩ := TransferPlan.dryRun_of hplan
  exact .carried hu hdry hrules hran hv

end
end Cli
end SelectiveSync
