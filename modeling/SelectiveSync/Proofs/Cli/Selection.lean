import SelectiveSync.Proofs.Cli.Commands
import SelectiveSync.Proofs.Registry.Keys

/-! # Which targets are transferred

Paths name the targets on whose roots they lead, and a push or a revert works through the targets it
selects in the registry's order.

* `World.course`: what a task ends with, leaves and starts, whatever the log takes.
* `chosen_eq_map`, `selected_map`: which targets roots choose, and what is selected of them.
* `Worked`: how targets are worked through, up to the first whose transfer fails.
* `selection_is_exact`: what is transferred for each list of paths. -/
namespace SelectiveSync
set_option autoImplicit false

open Registry

/-! ## Courses -/

theorem Program.filterLog_bind {α β : Type} (f : LogFilter) (p : Program α)
    (next : α → Program β) :
    (p.bind next).filterLog f = (p.filterLog f).bind fun a => (next a).filterLog f := by
  induction p with
  | done a => rfl
  | call c rest ih =>
    cases c with
    | log e =>
      simp only [bind, filterLog, ih]
      split <;> rfl
    | _ => simp only [bind, filterLog, ih]

namespace World

section
variable {ε α β : Type}

/-- How a task ends from a world of whose events the log takes some, the world that it leaves and the
programs that it starts. -/
def course (programs : Executables) (self : Nat) (f : LogFilter) (t : Task ε α) (w : World) :
    Except ε α × World × List Start :=
  let p := t.run.filterLog f
  ((w.run programs self p).1, (w.run programs self p).2, w.starts programs self p)

variable {programs : Executables} {self : Nat} {f : LogFilter} {t : Task ε α} {w u : World}
  {ss : List Start}

theorem course_andThen_ok {a : α} (h : w.course programs self f t = (.ok a, u, ss))
    (next : α → Task ε β) :
    w.course programs self f (t >>= next) =
      ((u.course programs self f (next a)).1, (u.course programs self f (next a)).2.1,
        ss ++ (u.course programs self f (next a)).2.2) := by
  obtain ⟨hout, hu, hss⟩ : _ ∧ _ ∧ _ := by simpa only [course, Prod.mk.injEq] using h
  have hbind : (t >>= next).run.filterLog f =
      (t.run.filterLog f).bind fun r => (ExceptT.bindCont next r).filterLog f :=
    Program.filterLog_bind f t.run (ExceptT.bindCont next)
  simp only [course, hbind, run_bind, starts_bind, hout, hu, hss]
  rfl

/-- What follows a task that succeeds and starts nothing takes the course of both. -/
theorem course_andThen {a : α} (h : w.course programs self f t = (.ok a, u, []))
    (next : α → Task ε β) :
    w.course programs self f (t >>= next) = u.course programs self f (next a) :=
  course_andThen_ok h next

theorem course_andThen_error {e : ε} (h : w.course programs self f t = (.error e, u, ss))
    (next : α → Task ε β) : w.course programs self f (t >>= next) = (.error e, u, ss) := by
  obtain ⟨hout, hu, hss⟩ : _ ∧ _ ∧ _ := by simpa only [course, Prod.mk.injEq] using h
  have hbind : (t >>= next).run.filterLog f =
      (t.run.filterLog f).bind fun r => (ExceptT.bindCont next r).filterLog f :=
    Program.filterLog_bind f t.run (ExceptT.bindCont next)
  simp only [course, hbind, run_bind, starts_bind, hout, hu, hss]
  exact congrArg (fun rest => (Except.error e, u, rest)) (List.append_nil ss)

/-- A task that leads somewhere from a world has such a course. -/
theorem course_of_leads {post : Except ε α → World → List Start → Prop}
    (h : t.run.Leads programs self w post) :
    post (w.course programs self f t).1 (w.course programs self f t).2.1
      (w.course programs self f t).2.2 :=
  (h.filterLog f).run

/-- A task that only looks leaves the world as it is. -/
theorem course_looks (h : t.run.Asks Looks) :
    w.course programs self f t = ((w.run programs self t.run).1, w, []) := by
  have hlooks : t.run.Leads programs self w fun out v ss =>
      out = (w.run programs self t.run).1 ∧ v = w ∧ ss = [] := h.looks w
  obtain ⟨hout, hu, hss⟩ := course_of_leads (f := f) hlooks
  exact Prod.ext hout (Prod.ext hu hss)

end

end World

namespace Cli

/-! ## Choices -/

section
variable {ts : List Target} {roots : List String}

/-- Among targets that no root has twice, the first on a root is the only one. -/
theorem chosen_eq_map (h : ts.Pairwise fun a b => WrittenPath.same a.root b.root = false)
    (roots : List String) :
    chosen ts roots = ts.map fun t => roots.any (WrittenPath.same t.root ·) := by
  induction ts generalizing roots with
  | nil => rfl
  | cons t rest ih =>
    obtain ⟨ht, hrest⟩ := List.pairwise_cons.1 h
    rw [chosen, ih hrest, List.map_cons]
    refine congrArg (_ :: ·) (List.map_congr_left fun u hu => ?_)
    rw [List.any_filter]
    refine List.any_congr rfl fun root => ?_
    -- A root of the first target is none of a later one.
    cases hroot : WrittenPath.same t.root root with
    | false => rw [Bool.not_false, Bool.true_and]
    | true =>
      rw [Bool.not_true, Bool.false_and]
      refine (Bool.eq_false_iff.2 fun hsame => ?_).symm
      have htu := ht u hu
      rw [same_of_same hroot hsame] at htu
      cases htu

theorem selected_map (wanted : Bool) (ts : List Target) (mark : Target → Bool) :
    selected wanted ts (ts.map mark) = ts.filter fun t => mark t == wanted := by
  induction ts with
  | nil => rfl
  | cons t rest ih =>
    rw [List.filter_cons, ← ih]
    cases hmark : mark t == wanted <;> simp [selected, hmark]

theorem selected_true (ts : List Target) (mark : Target → Bool) :
    selected true ts (ts.map mark) = ts.filter mark := by
  rw [selected_map]
  exact List.filter_congr fun t _ => beq_true (mark t)

theorem selected_false (ts : List Target) (mark : Target → Bool) :
    selected false ts (ts.map mark) = ts.filter fun t => !mark t := by
  rw [selected_map]
  exact List.filter_congr fun t _ => beq_false (mark t)

theorem unmatched_eq_nil {r : Registry} :
    unmatched r roots = [] ↔
      ∀ root ∈ roots, ∃ t ∈ r.targets, WrittenPath.same t.root root = true := by
  rw [unmatched, List.filter_eq_nil_iff]
  refine forall₂_congr fun root _ => ?_
  rw [Option.isNone_iff_eq_none, Registry.get?, List.find?_eq_none]
  push Not
  rfl

end

/-! ## Named targets -/

/-- What was found is the root of a target. -/
def isRootOf (t : Target) : Except Failure String → Bool
  | .ok root => WrittenPath.same t.root root
  | .error _ => false

section
variable (programs : Executables) (self : Nat) (w : World)

/-- A path leads to the root of a target. -/
def names (path : String) (t : Target) : Bool :=
  isRootOf t (w.run programs self (resolve path).run).1

/-- Some of the paths leads to the root of a target. -/
def named (paths : List String) (t : Target) : Bool :=
  paths.any (names programs self w · t)

/-- Every path leads to the root of some target. -/
def AllNamed (r : Registry) (paths : List String) : Prop :=
  ∀ path ∈ paths, ∃ t ∈ r.targets, names programs self w path t = true

end

section
variable {ε α β : Type} {g : α → Except ε β} {l : List α}

theorem map_of_mapM {bs : List β} (h : l.mapM g = .ok bs) : l.map g = bs.map .ok := by
  induction l generalizing bs with
  | nil =>
    cases h
    rfl
  | cons a l ih =>
    rw [List.mapM_cons] at h
    cases ha : g a with
    | error e =>
      rw [ha] at h
      cases h
    | ok b =>
      rw [ha] at h
      cases hl : l.mapM g with
      | error e =>
        rw [hl] at h
        cases h
      | ok rest =>
        rw [hl] at h
        cases h
        rw [List.map_cons, ha, ih hl, List.map_cons]

theorem exists_of_mapM {e : ε} (h : l.mapM g = .error e) : ∃ a ∈ l, g a = .error e := by
  induction l with
  | nil => cases h
  | cons a l ih =>
    rw [List.mapM_cons] at h
    cases ha : g a with
    | error e' =>
      rw [ha] at h
      cases h
      exact ⟨a, List.mem_cons_self, ha⟩
    | ok b =>
      rw [ha] at h
      cases hl : l.mapM g with
      | error e' =>
        rw [hl] at h
        cases h
        obtain ⟨a', ha', he⟩ := ih hl
        exact ⟨a', List.mem_cons_of_mem _ ha', he⟩
      | ok rest =>
        rw [hl] at h
        cases h

end

section
variable {programs : Executables} {self : Nat} {w : World}

theorem names_of_resolve {path root : String}
    (h : (w.run programs self (resolve path).run).1 = .ok root) (t : Target) :
    names programs self w path t = WrittenPath.same t.root root := by
  rw [names, h, isRootOf]

variable (programs self w) in
/-- Tasks that only look, one after the other, find what each of them finds. -/
theorem run_mapM {α β : Type} {t : α → CommandTask β} (ht : ∀ a, (t a).run.Asks Looks)
    (l : List α) :
    (w.run programs self (l.mapM t).run).1 =
      l.mapM fun a => (w.run programs self (t a).run).1 := by
  have hloop (l : List α) (found : List β) :
      (w.run programs self (List.mapM.loop t l found).run).1 =
        List.mapM.loop (fun a => (w.run programs self (t a).run).1) l found := by
    induction l generalizing found with
    | nil => rfl
    | cons a l ih =>
      have hkeeps : (w.run programs self (t a).run).2 = w := (((ht a).looks w).run).2.1
      cases ha : (w.run programs self (t a).run).1 with
      | error e =>
        have hrun : w.run programs self (t a).run = (.error e, w) := Prod.ext ha hkeeps
        rw [List.mapM.loop, List.mapM.loop, ha, World.run_bind_error hrun]
        rfl
      | ok b =>
        have hrun : w.run programs self (t a).run = (.ok b, w) := Prod.ext ha hkeeps
        rw [List.mapM.loop, List.mapM.loop, ha, World.run_bind_ok hrun]
        exact ih (b :: found)
  exact hloop l []

section
variable {paths roots : List String}
  (h : (paths.map fun path => (w.run programs self (resolve path).run).1) = roots.map .ok)
include h

theorem named_eq_any (t : Target) :
    named programs self w paths t = roots.any (WrittenPath.same t.root ·) := by
  calc named programs self w paths t
      = (paths.map fun path => (w.run programs self (resolve path).run).1).any (isRootOf t) := by
        rw [List.any_map]
        rfl
    _ = roots.any (WrittenPath.same t.root ·) := by
        rw [h, List.any_map]
        rfl

theorem allNamed_iff {r : Registry} :
    AllNamed programs self w r paths ↔
      ∀ root ∈ roots, ∃ t ∈ r.targets, WrittenPath.same t.root root = true := by
  calc AllNamed programs self w r paths
      ↔ ∀ path ∈ paths, ∃ t ∈ r.targets,
          isRootOf t (w.run programs self (resolve path).run).1 = true := Iff.rfl
    _ ↔ ∀ found ∈ paths.map fun path => (w.run programs self (resolve path).run).1,
          ∃ t ∈ r.targets, isRootOf t found = true := by rw [List.forall_mem_map]
    _ ↔ ∀ root ∈ roots, ∃ t ∈ r.targets, WrittenPath.same t.root root = true := by
        rw [h]
        exact List.forall_mem_map

end

/-- What comes of a selection by paths of which there are some. -/
theorem run_select {r : Registry} {paths : List String}
    (hdistinct : r.targets.Pairwise fun a b => WrittenPath.same a.root b.root = false)
    (hpaths : paths ≠ []) :
    AllNamed programs self w r paths ∧
        (w.run programs self (select r paths).run).1 =
          .ok (r.targets.map (named programs self w paths)) ∨
      ¬AllNamed programs self w r paths ∧
        ∃ e, (w.run programs self (select r paths).run).1 = .error e := by
  have hlooks (path : String) : (resolve path).run.Asks Looks := (asks_canonicalize path).mapError
  have hroots := run_mapM programs self w hlooks paths
  have hkeeps : (w.run programs self (paths.mapM resolve).run).2 = w :=
    (((asks_mapM hlooks paths).looks w).run).2.1
  have hsome : paths.isEmpty = false := by simpa using hpaths
  cases hfound : paths.mapM fun path => (w.run programs self (resolve path).run).1 with
  | error e =>
    have hrun : w.run programs self (paths.mapM resolve).run = (.error e, w) :=
      Prod.ext (hroots.trans hfound) hkeeps
    obtain ⟨path, hpath, he⟩ := exists_of_mapM hfound
    refine Or.inr ⟨fun hall => ?_, e, ?_⟩
    · obtain ⟨t, -, ht⟩ := hall path hpath
      rw [names, he] at ht
      cases ht
    · rw [select, hsome]
      exact congrArg Prod.fst (World.run_bind_error hrun _)
  | ok roots =>
    have hrun : w.run programs self (paths.mapM resolve).run = (.ok roots, w) :=
      Prod.ext (hroots.trans hfound) hkeeps
    have hmap := map_of_mapM hfound
    rw [select, hsome, allNamed_iff hmap, ← unmatched_eq_nil, if_neg Bool.false_ne_true,
      World.run_bind_ok hrun]
    cases hmissing : unmatched r roots with
    | nil =>
      refine Or.inl ⟨rfl, congrArg Except.ok ?_⟩
      rw [chosen_eq_map hdistinct]
      exact List.map_congr_left fun t _ => (named_eq_any hmap t).symm
    | cons root rest => exact Or.inr ⟨List.cons_ne_nil _ _, _, rfl⟩

end

/-! ## Transfers of targets -/

section
variable (programs : Executables) (self : Nat)

/-- What a transfer of a target starts. At most one program is started, the one of a plan for the target
and with the plan's arguments, and the transfer succeeds just if the program ends with status 0. Without
a program a transfer fails, or it was to be shown only. -/
inductive Carried (t : Target) (direction : Direction) (o : TransferOptions) :
    Except Failure TransferReport → List Start → Prop
  | unstarted {e : Failure} : Carried t direction o (.error e) []
  | shown {report : TransferReport} (hshown : o.dryRun = some .shown)
      (hreport : report.executed = false) : Carried t direction o (.ok report) []
  | started {settings : Settings} {rootIsDir : Bool} {plan : TransferPlan} {filter : Option String}
      {st : Start} {out : Except Failure TransferReport}
      (hplan : TransferPlan.of settings t direction o rootIsDir = .ok plan)
      (hprogram : st.program = plan.program) (hargs : st.args = plan.arguments filter)
      (hout : out.isOk = true ↔ (st.outcome programs self).1 = .ok (some 0)) :
      Carried t direction o out [st]

/-- How targets are worked through with the log filtered by `f`: each is transferred, with nothing but
an announcement before, from what the one before it has left, up to the first transfer that fails. -/
inductive Worked (f : LogFilter) (s : Session) (direction : Direction) (o : TransferOptions) :
    World → List Target → Except Failure Unit × World × List Start → Prop
  | finished {w : World} : Worked f s direction o w [] (.ok (), w, [])
  | failed {w v u : World} {t : Target} {rest : List Target} {e : Failure} {ss : List Start}
      (hv : w.Still v) (h : v.course programs self f (transfer s t direction o) = (.error e, u, ss)) :
      Worked f s direction o w (t :: rest) (.error e, u, ss)
  | next {w v u u' : World} {t : Target} {rest : List Target} {report : TransferReport}
      {out : Except Failure Unit} {ss ss' : List Start} (hv : w.Still v)
      (h : v.course programs self f (transfer s t direction o) = (.ok report, u, ss))
      (hrest : Worked f s direction o u rest (out, u', ss')) :
      Worked f s direction o w (t :: rest) (out, u', ss ++ ss')

/-- How a push transfers. -/
def pushOptions (s : Session) (diff : Bool) (choices : TransferChoices) : TransferOptions :=
  let o := transferOptions s choices
  if diff then { o with dryRun := some .tool, verbosity := 1 } else o

/-- What comes of a push of targets, of which there must be some. -/
def Pushed (f : LogFilter) (s : Session) (o : TransferOptions) (w : World) :
    List Target → Except Failure Unit × World × List Start → Prop
  | [], c => c = (.error .nothingSelected, w, [])
  | t :: rest, c => Worked programs self f s .push o w (t :: rest) c

end

section
variable {programs : Executables} {self : Nat} {f : LogFilter} {s : Session}

theorem carried_of_executed {settings : Settings} {t : Target} {direction : Direction}
    {o : TransferOptions} {rootIsDir : Bool} {plan : TransferPlan} {filter : Option String}
    {w v : World} {r : Except Error TransferReport} {ss : List Start}
    (hplan : TransferPlan.of settings t direction o rootIsDir = .ok plan)
    (h : TransferPlan.Executed programs self plan (plan.arguments filter) w r v ss) :
    Carried programs self t direction o (r.mapError Failure.operation) ss := by
  cases h with
  | shown hshown hv => exact .shown ((TransferPlan.dryRun_of hplan).1.symm.trans hshown) rfl
  | @ran u hran hu =>
    refine .started hplan rfl rfl ?_
    have houtcome : Start.outcome programs self ⟨u, plan.program, plan.arguments filter⟩ =
        u.answer programs self (.run plan.program (plan.arguments filter)) := rfl
    rw [houtcome]
    generalize (u.answer programs self (.run plan.program (plan.arguments filter))).1 = reply
    rcases reply with fault | _ | _ | n <;> simp [TransferPlan.reportOf, Except.mapError, Except.isOk,
      Except.toBool]

theorem leads_carried (t : Target) (direction : Direction) (o : TransferOptions) (w : World) :
    (transfer s t direction o).run.Leads programs self w
      fun out _ ss => Carried programs self t direction o out ss := by
  refine leads_transfer_of (fun _ _ _ => .unstarted) ?_
  intro settings rootIsDir plan u r v ss v' hplan _ hran _
  cases hran with
  | unfiltered _ h => exact carried_of_executed hplan h
  | unwritten => exact .unstarted
  | filtered _ _ _ _ h => exact carried_of_executed hplan h

variable (programs self f s) in
theorem carried_transfer (t : Target) (direction : Direction) (o : TransferOptions) (w : World) :
    Carried programs self t direction o
      (w.course programs self f (transfer s t direction o)).1
      (w.course programs self f (transfer s t direction o)).2.2 := by
  have hleads : (transfer s t direction o).run.Leads programs self w
      fun out _ ss => Carried programs self t direction o out ss := leads_carried t direction o w
  have hcourse := World.course_of_leads (f := f) hleads
  exact hcourse

variable (programs self f) in
/-- Before a transfer there is at most an announcement. -/
theorem course_announced (announcement : String) (o : TransferOptions) (t : Target)
    (one : CommandTask Unit) (w : World) :
    ∃ v, w.Still v ∧ v.course programs self f one = w.course programs self f
      (if 0 < o.verbosity then tellNext (announcement ++ " target " ++ t.root) >>= fun _ => one
        else one) := by
  split
  · have htold : (tellNext (announcement ++ " target " ++ t.root)).run.Leads programs self w
        fun out v ss => out = .ok () ∧ w.Still v ∧ ss = [] := leads_print _ w
    obtain ⟨hout, hv, hss⟩ := World.course_of_leads (f := f) htold
    refine ⟨_, hv, ?_⟩
    exact (World.course_andThen (Prod.ext hout (Prod.ext rfl hss)) fun _ => one).symm
  · exact ⟨w, World.Still.refl w, rfl⟩

theorem worked_transferAll (announcement : String) (direction : Direction) (o : TransferOptions)
    (targets : List Target) (w : World) :
    Worked programs self f s direction o w targets
      (w.course programs self f (transferAll s announcement direction o targets)) := by
  induction targets generalizing w with
  | nil => exact .finished
  | cons t rest ih =>
    let one : CommandTask Unit := transfer s t direction o >>= fun _ => pure ()
    obtain ⟨v, hv, hannounced⟩ :=
      course_announced programs self f announcement o t one w
    have hcons : transferAll s announcement direction o (t :: rest) =
        (if 0 < o.verbosity then tellNext (announcement ++ " target " ++ t.root) >>= fun _ => one
          else one) >>= fun _ => transferAll s announcement direction o rest := rfl
    rw [hcons]
    rcases htransfer : v.course programs self f (transfer s t direction o) with ⟨e | report, u, ss⟩
    · have hone : v.course programs self f one = (.error e, u, ss) :=
        World.course_andThen_error htransfer _
      rw [World.course_andThen_error (hannounced.symm.trans hone)]
      exact .failed hv htransfer
    · have hone : v.course programs self f one = (.ok (), u, ss ++ []) :=
        World.course_andThen_ok htransfer _
      rw [World.course_andThen_ok (hannounced.symm.trans hone), List.append_nil]
      exact .next hv htransfer (ih u)

/-- What comes of a push once the registry is loaded and targets are selected. -/
theorem course_push {w u : World} {r : Registry} {paths : List String} {marks : List Bool}
    (hload : w.course programs self f s.registry = (.ok r, u, []))
    (hselect : (u.run programs self (select r paths).run).1 = .ok marks) (invert diff : Bool)
    (choices : TransferChoices) :
    Pushed programs self f s (pushOptions s diff choices) u (selected (!invert) r.targets marks)
      (w.course programs self f (push s paths invert diff choices)) := by
  have hmarks : u.course programs self f (select r paths) = (.ok marks, u, []) := by
    rw [World.course_looks (asks_select r paths), hselect]
  rw [push, World.course_andThen hload, World.course_andThen hmarks]
  cases selected (!invert) r.targets marks with
  | nil => rfl
  | cons t rest => exact worked_transferAll _ _ _ _ u

theorem course_revert {w u : World} {r : Registry} {paths : List String} {marks : List Bool}
    (hload : w.course programs self f s.registry = (.ok r, u, []))
    (hselect : (u.run programs self (select r paths).run).1 = .ok marks)
    {all : Bool} (hasked : paths ≠ [] ∨ all = true) (choices : TransferChoices) :
    Worked programs self f s .revert (transferOptions s choices) u (selected true r.targets marks)
      (w.course programs self f (revert s paths all choices)) := by
  have hmarks : u.course programs self f (select r paths) = (.ok marks, u, []) := by
    rw [World.course_looks (asks_select r paths), hselect]
  have hgoes : (paths.isEmpty && !all) = false := by
    rcases hasked with h | rfl
    · simp [h]
    · simp
  rw [revert, hgoes, if_neg Bool.false_ne_true, World.course_andThen hload,
    World.course_andThen hmarks]
  exact worked_transferAll _ _ _ _ u

/-- If the paths select nothing, a push and a revert fail as the selection does. -/
theorem course_unselected {w u : World} {r : Registry} {paths : List String} {e : Failure}
    (hload : w.course programs self f s.registry = (.ok r, u, []))
    (hselect : (u.run programs self (select r paths).run).1 = .error e) (hpaths : paths ≠ [])
    (invert diff all : Bool) (choices : TransferChoices) :
    w.course programs self f (push s paths invert diff choices) = (.error e, u, []) ∧
      w.course programs self f (revert s paths all choices) = (.error e, u, []) := by
  have hfails : u.course programs self f (select r paths) = (.error e, u, []) := by
    rw [World.course_looks (asks_select r paths), hselect]
  constructor
  · rw [push, World.course_andThen hload, World.course_andThen_error hfails]
  · have hgoes : (paths.isEmpty && !all) = false := by simp [hpaths]
    rw [revert, hgoes, if_neg Bool.false_ne_true, World.course_andThen hload,
      World.course_andThen_error hfails]

theorem worked_of_pushed {o : TransferOptions} {w : World} {targets : List Target}
    {c : Except Failure Unit × World × List Start} (h : Pushed programs self f s o w targets c)
    (hsome : targets ≠ []) : Worked programs self f s .push o w targets c := by
  cases targets with
  | nil => exact absurd rfl hsome
  | cons t rest => exact h

theorem course_registry {w u : World} {r : Registry}
    (hload : w.run programs self (s.registry.run.filterLog f) = (.ok r, u)) :
    w.course programs self f s.registry = (.ok r, u, []) := by
  have hasks : s.registry.run.Asks Call.StartsNothing :=
    (asks_registry s).mono fun _ hc => hc.startsNothing
  have hstarts : w.starts programs self (s.registry.run.filterLog f) = [] :=
    World.course_of_leads (Program.Leads.of_startsNothing hasks)
  simp only [World.course, hload, hstarts]

end

variable (programs : Executables) (self : Nat) (f : LogFilter) (s : Session)

/-- In a registry that is loaded from `w`, of whose targets no two have the same root, paths that all
lead to roots select exactly the targets they lead to for a push or a revert, and exactly the others for
an inverted push, so that the two pushes share out the registry. What is selected is worked through in
the registry's order up to the first transfer that fails, and a push of nothing is an error. If some path
leads to no root, nothing is started. Without paths a push selects all targets, an inverted one none, and
a revert all if that is asked for; else it fails before it looks at anything. A transfer of a target
starts at most the program of a plan for it. -/
theorem selection_is_exact (choices : TransferChoices) {w u : World} {r : Registry}
    (hload : w.run programs self (s.registry.run.filterLog f) = (.ok r, u))
    (hdistinct : r.targets.Pairwise fun a b => WrittenPath.same a.root b.root = false) :
    let pushed paths invert diff := w.course programs self f (push s paths invert diff choices)
    let reverted paths all := w.course programs self f (revert s paths all choices)
    (∀ paths, paths ≠ [] → AllNamed programs self u r paths →
      let these := r.targets.filter (named programs self u paths)
      let others := r.targets.filter fun t => !named programs self u paths t
      these ≠ [] ∧ (these ++ others).Perm r.targets ∧ ∀ diff all,
        Worked programs self f s .push (pushOptions s diff choices) u these
          (pushed paths false diff) ∧
        Pushed programs self f s (pushOptions s diff choices) u others (pushed paths true diff) ∧
        Worked programs self f s .revert (transferOptions s choices) u these
          (reverted paths all)) ∧
    (∀ paths, ¬AllNamed programs self u r paths → ∀ invert diff all, ∃ e,
      pushed paths invert diff = (.error e, u, []) ∧ reverted paths all = (.error e, u, [])) ∧
    (∀ diff,
      Pushed programs self f s (pushOptions s diff choices) u r.targets (pushed [] false diff) ∧
      pushed [] true diff = (.error .nothingSelected, u, []) ∧
      Worked programs self f s .revert (transferOptions s choices) u r.targets (reverted [] true) ∧
      reverted [] false = (.error .nothingNamed, w, [])) ∧
    ∀ t direction o (v : World),
      Carried programs self t direction o
        (v.course programs self f (transfer s t direction o)).1
        (v.course programs self f (transfer s t direction o)).2.2 := by
  intro pushed reverted
  have hloaded := course_registry hload
  refine ⟨fun paths hpaths hall => ?_, fun paths hnot invert diff all => ?_, fun diff => ?_,
    carried_transfer programs self f s⟩
  · obtain ⟨-, hselect⟩ := (run_select hdistinct hpaths).resolve_right fun hnot => hnot.1 hall
    have hsome : r.targets.filter (named programs self u paths) ≠ [] := by
      obtain ⟨path, hpath⟩ := List.exists_mem_of_ne_nil paths hpaths
      obtain ⟨t, ht, hnames⟩ := hall path hpath
      exact List.ne_nil_of_mem (List.mem_filter.2 ⟨ht, List.any_eq_true.2 ⟨path, hpath, hnames⟩⟩)
    refine ⟨hsome, List.filter_append_perm _ _, fun diff all => ⟨?_, ?_, ?_⟩⟩
    · have hpushed := course_push hloaded hselect false diff choices
      rw [Bool.not_false, selected_true] at hpushed
      exact worked_of_pushed hpushed hsome
    · have hpushed := course_push hloaded hselect true diff choices
      rwa [Bool.not_true, selected_false] at hpushed
    · have hasked : paths ≠ [] ∨ all = true := Or.inl hpaths
      have hreverted := course_revert hloaded hselect hasked choices
      rwa [selected_true] at hreverted
  · have hpaths : paths ≠ [] := fun hnil => hnot fun path hpath => by
      rw [hnil] at hpath
      cases hpath
    obtain ⟨-, e, hselect⟩ := (run_select hdistinct hpaths).resolve_left fun hall => hnot hall.1
    exact ⟨e, course_unselected hloaded hselect hpaths invert diff all choices⟩
  · have hselect : (u.run programs self (select r []).run).1 =
        .ok (r.targets.map fun _ => true) := rfl
    refine ⟨?_, ?_, ?_, rfl⟩
    · have hpushed := course_push hloaded hselect false diff choices
      rwa [Bool.not_false, selected_true, List.filter_true] at hpushed
    · have hpushed := course_push hloaded hselect true diff choices
      rwa [Bool.not_true, selected_false, Bool.not_true, List.filter_false] at hpushed
    · have hasked : ([] : List String) ≠ [] ∨ true = true := Or.inr rfl
      have hreverted := course_revert hloaded hselect hasked choices
      rwa [selected_true, List.filter_true] at hreverted

end Cli

namespace Sample

/-- The registry of two targets, loaded under the standard filter of the log. -/
def loaded : World :=
  (linked.run idle 1 (linkedSession.registry.run.filterLog .standard)).2

theorem run_loaded : linked.run idle 1 (linkedSession.registry.run.filterLog .standard) =
    (.ok (after {} linkedEdits), loaded) := by
  have hplaced := placed_root idle (w := linked) rfl get?_linked
    (by simp [linked, List.lookup]) (by simp [linked, List.lookup])
  obtain ⟨⟨out, hloads, hout⟩, -, -⟩ :=
    ((Cli.leads_registry (s := linkedSession) hplaced).filterLog .standard).run
  rw [← Prod.mk.eta (p := linked.run idle 1 (linkedSession.registry.run.filterLog .standard)),
    ← loaded, hout]
  refine congrArg (·, loaded) ?_
  cases hloads with
  | nowhere hraw => exact absurd hraw (by decide +kernel)
  | missing _ hnone =>
    rw [World.content_of_file get?_linked] at hnone
    cases hnone
  | locked _ hheld =>
    have hfree (kind : LockKind) : linked.allows ["targets.toml.lock"] kind = true := by
      cases kind <;> rfl
    rw [hfree] at hheld
    cases hheld
  | read _ hbytes =>
    rw [← hbytes, stored_linked]
    rfl

/-- Where paths lead after that: one and a link to it to the root of a target, and one into a target. -/
theorem resolve_loaded :
    (loaded.run idle 1 (Cli.resolve "/m/a").run).1 = .ok "/o" ∧
      (loaded.run idle 1 (Cli.resolve "/o").run).1 = .ok "/o" ∧
      (loaded.run idle 1 (Cli.resolve "/m/c").run).1 = .ok "/m/c" := by decide +kernel

theorem targets_linked : ∃ m o, (after {} linkedEdits).targets = [m, o] ∧ m.root = "/m" ∧
    o.root = "/o" := by
  have hroots : (after {} linkedEdits).targets.map (·.root) = ["/m", "/o"] := by decide +kernel
  obtain ⟨m, rest, htargets, hm, hrest⟩ := List.map_eq_cons_iff.1 hroots
  obtain ⟨o, rest, rfl, ho, hnil⟩ := List.map_eq_cons_iff.1 hrest
  rw [List.map_eq_nil_iff.1 hnil] at htargets
  exact ⟨m, o, htargets, hm, ho⟩

end Sample

namespace Cli
open Sample

/-- Of two targets one is named twice, by its root and by a link to it: it is pushed, and the other by
the inverted push. A path that leads into a target and to no root selects nothing. -/
theorem selection_is_exact_sample :
    let pushed paths invert :=
      linked.course idle 1 .standard (push linkedSession paths invert false {})
    ∃ m o, (after {} linkedEdits).targets = [m, o] ∧ m.root = "/m" ∧ o.root = "/o" ∧
      Worked idle 1 .standard linkedSession .push ⟨0, none, []⟩ loaded [o]
        (pushed ["/m/a", "/o"] false) ∧
      Worked idle 1 .standard linkedSession .push ⟨0, none, []⟩ loaded [m]
        (pushed ["/m/a", "/o"] true) ∧
      ∃ e, pushed ["/o", "/m/c"] false = (.error e, loaded, []) := by
  intro pushed
  obtain ⟨m, o, htargets, hm, ho⟩ := targets_linked
  obtain ⟨hlink, hroot, hinner⟩ := resolve_loaded
  have hload := run_loaded
  -- Nothing but this is used of the world that the registry was loaded in.
  generalize loaded = u at hlink hroot hinner hload ⊢
  have hdistinct : (after {} linkedEdits).targets.Pairwise fun a b =>
      WrittenPath.same a.root b.root = false := by decide +kernel
  obtain ⟨hnamed, hunnamed, -, -⟩ :=
    selection_is_exact idle 1 .standard linkedSession {} hload hdistinct
  have hnames (t : Target) : named idle 1 u ["/m/a", "/o"] t = WrittenPath.same t.root "/o" := by
    rw [named, List.any_cons, List.any_cons, List.any_nil, names_of_resolve hlink,
      names_of_resolve hroot, Bool.or_false, Bool.or_self]
  have hmo : WrittenPath.same m.root "/o" = false := by rw [hm]; decide +kernel
  have hoo : WrittenPath.same o.root "/o" = true := by rw [ho]; decide +kernel
  have hall : AllNamed idle 1 u (after {} linkedEdits) ["/m/a", "/o"] := by
    rw [AllNamed, List.forall_mem_cons, List.forall_mem_singleton, htargets]
    exact ⟨⟨o, by simp, (names_of_resolve hlink o).trans hoo⟩,
      ⟨o, by simp, (names_of_resolve hroot o).trans hoo⟩⟩
  have hnot : ¬AllNamed idle 1 u (after {} linkedEdits) ["/o", "/m/c"] := by
    intro h
    obtain ⟨t, ht, hinto⟩ := h "/m/c" (by simp)
    rw [names_of_resolve hinner] at hinto
    rw [htargets] at ht
    rcases List.mem_pair.1 ht with rfl | rfl
    · exact absurd hinto (by rw [hm]; decide +kernel)
    · exact absurd hinto (by rw [ho]; decide +kernel)
  obtain ⟨e, hfails, -⟩ := hunnamed ["/o", "/m/c"] hnot false false false
  obtain ⟨-, -, hpushed⟩ := hnamed ["/m/a", "/o"] (List.cons_ne_nil _ _) hall
  obtain ⟨hthese, hothers, -⟩ := hpushed false false
  simp only [htargets, hnames, List.filter_cons, hmo, hoo] at hthese hothers
  exact ⟨m, o, htargets, hm, ho, hthese, hothers, e, hfails⟩

end Cli
end SelectiveSync
