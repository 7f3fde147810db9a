import SelectiveSync.Proofs.Cli.Fetching

/-! # Inclusions that are recorded after their transfer

A summon is granted or refused on what is stored before, transfers, and then includes the path in
what is stored by then.

* `Registry.Refuses`: where there is nothing to summon.
* `leads_summon`: how a summon ends, whatever comes of its transfer.
* `summon_recorded_after_transfer`: the stored registry changes only after a transfer that
  succeeded. -/
namespace SelectiveSync
set_option autoImplicit false

open Registry Storage

/-! ## What is refused -/

namespace Registry

/-- The path lies outside every target, is the root of one, or is at or beneath an included path. -/
inductive Refuses (r : Registry) (path : String) : Prop
  | outside (h : ∀ t ∈ r.targets, covers path t = false)
  | root {t : Target} (h : r.locate path = .ok (t, none))
  | included {t : Target} {p a : TreePath} (h : r.locate path = .ok (t, some p))
      (hwithin : a.segments <+: p.segments) (ha : t.tree.decisionAt a = .included)

theorem Refuses.decide_ne {r : Registry} {path : String} (h : r.Refuses path)
    (found : TreePath × Registry) : r.decide .included path ≠ .ok found := by
  intro hdecide
  rw [decide, editAt] at hdecide
  cases h with
  | outside h =>
    have hnone : r.targets.find? (covers path) = none :=
      List.find?_eq_none.2 fun t ht => by rw [h t ht]; exact Bool.false_ne_true
    rw [locate, hnone] at hdecide
    cases hdecide
  | root h =>
    rw [h] at hdecide
    cases hdecide
  | @included t p a h hwithin ha =>
    obtain ⟨outer, houter⟩ := PathTree.exists_ruling_included ha hwithin
    have hmark : t.edit (PathTree.decide .included · p) = .error (.alreadyIncluded p outer) := by
      rw [Target.edit, PathTree.decide, PathTree.markIncluded, houter]
      rfl
    rw [h] at hdecide
    simp only [hmark] at hdecide
    cases hdecide

theorem refuses_empty (path : String) : ({} : Registry).Refuses path :=
  .outside (List.forall_mem_nil _)

/-- A registry that was loaded and grants something is what the file holds. -/
theorem Loads.of_decide {path p : String} {w : World} {k l : Location} {r : Registry}
    {found : TreePath × Registry} (h : Loads path w k l (.ok r))
    (hdecide : r.decide .included p = .ok found) : ∃ x, w.files.get? k = some x ∧
      stored (NormalPath.ofText path).text (w.content k) = .ok r := by
  rcases h.of_ok with rfl | ⟨bytes, hbytes, hstored⟩
  · exact absurd hdecide ((refuses_empty p).decide_ne found)
  · obtain ⟨x, hfile⟩ := World.content_eq_some.1 hbytes
    exact ⟨_, hfile, hbytes ▸ hstored⟩

end Registry

namespace Cli

/-! ## Transfers for one path -/

/-- How a summon ends that was granted, given the world `w` in which it was. Nothing is started, or
one program; and what is at `k` was not touched before the program was started, nor after it if the
program failed or the summon was a dry run. -/
inductive Fetched (programs : Executables) (process : Nat) (s : Session) (choices : TransferChoices)
    (path : String) (k l t : Location) (w : World) : Except Failure Unit → World → List Start → Prop
  | unstarted {e : Failure} {v : World} (hfile : v.files.get? k = w.files.get? k) :
      Fetched programs process s choices path k l t w (.error e) v []
  | shown {v : World} (hshown : choices.dryRun = some .shown)
      (hfile : v.files.get? k = w.files.get? k) :
      Fetched programs process s choices path k l t w (.ok ()) v []
  | failed {e : Failure} {st : Start} {v : World} (hgiven : choices.dryRun ≠ some .shown)
      (hstart : st.world.files.get? k = w.files.get? k)
      (hfailed : (st.outcome programs process).1 ≠ .ok (some 0))
      (hfile : v.files.get? k = (st.outcome programs process).2.files.get? k) :
      Fetched programs process s choices path k l t w (.error e) v [st]
  | tried {st : Start} {v : World} (htool : choices.dryRun = some .tool)
      (hstart : st.world.files.get? k = w.files.get? k)
      (hdone : (st.outcome programs process).1 = .ok (some 0))
      (hfile : v.files.get? k = (st.outcome programs process).2.files.get? k) :
      Fetched programs process s choices path k l t w (.ok ()) v [st]
  | recorded {out : Except Failure String} {st : Start} {v : World}
      (hgiven : choices.dryRun = none) (hstart : st.world.files.get? k = w.files.get? k)
      (hdone : (st.outcome programs process).1 = .ok (some 0))
      (hchanges : Placed programs process (st.outcome programs process).2 s.config.targetsFile k l t →
        Changes (edited s (.decide .included path) ((st.outcome programs process).2.content k))
          (st.outcome programs process).2 k l out v) :
      Fetched programs process s choices path k l t w (out.map fun _ => ()) v [st]

section
variable {programs : Executables} {self : Nat} {s : Session} {choices : TransferChoices}
  {path subject : String} {w u v : World} {k l t : Location}

/-- How the transfer of a summon ends: there is none, its command is shown, or its program fails or
succeeds. -/
theorem Transferred.of_summon {p : TreePath} {o : TransferOptions}
    {out : Except Failure TransferReport} {ss : List Start}
    (h : Transferred programs self (.summon p) o u out v ss) :
    u.Remains v ∧ ss = [] ∧ ((∃ e, out = .error e) ∨
        o.dryRun = some .shown ∧ ∃ report, out = .ok report ∧ report.executed = false) ∨
      ∃ st, ss = [st] ∧ u.Remains st.world ∧ o.dryRun ≠ some .shown ∧
        (st.outcome programs self).2.Still v ∧
        ((∃ e, out = .error e) ∧ (st.outcome programs self).1 ≠ .ok (some 0) ∨
          (st.outcome programs self).1 = .ok (some 0) ∧
            ∃ report, out = .ok report ∧ report.executed = true) := by
  cases h with
  | unplanned hu => exact Or.inl ⟨hu, rfl, Or.inl ⟨_, rfl⟩⟩
  | @carried plan u' v' _ r _ hu hdry hrules hran hv =>
    rw [← hdry]
    cases hran with
    | unwritten hsome => rw [hsome] at hrules; cases hrules
    | filtered hsome => rw [hsome] at hrules; cases hrules
    | unfiltered hnone hexecuted =>
      cases hexecuted with
      | shown hshown hstill =>
        exact Or.inl ⟨hu.trans (hstill.trans hv).remains, rfl, Or.inr ⟨hshown, _, rfl, rfl⟩⟩
      | @ran u'' hgiven hstill =>
        refine Or.inr ⟨_, rfl, hu.trans hstill.remains, hgiven, hv, ?_⟩
        rw [Start.outcome]
        rcases (u''.answer programs self (.run plan.program (plan.arguments none))).1 with
          fault | _ | _ | n
        · exact Or.inl ⟨⟨_, rfl⟩, by simp⟩
        · exact Or.inl ⟨⟨_, rfl⟩, by simp⟩
        · exact Or.inr ⟨rfl, _, rfl, rfl⟩
        · exact Or.inl ⟨⟨_, rfl⟩, by simp⟩

theorem leads_summonInto (target : Target) (p : TreePath) {e : Entry}
    (he : w.files.get? k = some e) (hu : u.files.get? k = w.files.get? k) :
    (summonInto s choices path subject target p).run.Leads programs self u
      (Fetched programs self s choices path k l t w) := by
  have hkept {v : World} (hv : u.Remains v) : v.files.get? k = w.files.get? k :=
    (hv.kept k e (hu.trans he)).trans he.symm
  refine .andThen (leads_transfer s target (.summon p) (transferOptions s choices) u) ?_ ?_
  · intro report v ss htransferred
    rcases htransferred.of_summon with ⟨hv, rfl, hends⟩ | ⟨st, rfl, hst, hgiven, hv, hends⟩
    · rcases hends with ⟨e, hr⟩ | ⟨hshown, _, hr, hexecuted⟩
      · cases hr
      · cases hr
        rw [hexecuted, Bool.and_false]
        exact Program.leads_done.2 (.shown hshown (hkept hv))
    · rcases hends with ⟨⟨e, hr⟩, -⟩ | ⟨hdone, _, hr, hexecuted⟩
      · cases hr
      · cases hr
        rw [hexecuted, Bool.and_true]
        rcases hdry : choices.dryRun with _ | _ | _
        · have hcontent : v.content k = (st.outcome programs self).2.content k :=
            World.content_congr (by rw [hv.files])
          have hedit : (s.edit (.decide .included path)).run.Leads programs self v fun out v' ss =>
              (Placed programs self (st.outcome programs self).2 s.config.targetsFile k l t →
                Changes (edited s (.decide .included path) (v.content k))
                  (st.outcome programs self).2 k l out v') ∧ ss = [] := by
            by_cases hplaced : Placed programs self (st.outcome programs self).2
              s.config.targetsFile k l t
            · refine (leads_edit _ (hplaced.still hv)).mono ?_
              exact fun out v' ss h => ⟨fun _ => h.1.of_still hv, h.2⟩
            · refine (Program.Leads.of_startsNothing (asks_edit s _)).mono ?_
              exact fun out v' ss h => ⟨fun hp => absurd hp hplaced, h⟩
          rw [hcontent] at hedit
          refine .andThen hedit ?_ ?_
          · rintro a v' _ ⟨hchanges, rfl⟩
            refine (leads_print _ v').mono ?_
            rintro _ v'' _ ⟨rfl, hv'', rfl⟩
            have hrecorded := fun hp => (hchanges hp).still hv''
            exact .recorded hdry (hkept hst) hdone hrecorded
          · rintro e v' _ ⟨hchanges, rfl⟩
            exact .recorded hdry (hkept hst) hdone hchanges
        · exact absurd hdry hgiven
        · exact Program.leads_done.2 (.tried hdry (hkept hst) hdone (by rw [hv.files]))
  · intro e v ss htransferred
    rcases htransferred.of_summon with ⟨hv, rfl, -⟩ | ⟨st, rfl, hst, hgiven, hv, hends⟩
    · exact .unstarted (hkept hv)
    · rcases hends with ⟨-, hfailed⟩ | ⟨-, report, hr, -⟩
      · exact .failed hgiven (hkept hst) hfailed (by rw [hv.files])
      · cases hr

theorem leads_summonGranted (target : Target) (p : TreePath) {e : Entry}
    (he : w.files.get? k = some e) (hu : u.files.get? k = w.files.get? k) :
    (summonGranted s choices path subject target p).run.Leads programs self u
      (Fetched programs self s choices path k l t w) := by
  refine .andThen (leads_print _ u) ?_ fun _ _ _ h => by cases h.1
  rintro _ v _ ⟨-, hv, rfl⟩
  have hvk : v.files.get? k = w.files.get? k := (congrArg (·.get? k) hv.files).trans hu
  by_cases hgiven : choices.dryRun.isNone = true
  · rw [if_pos hgiven]
    have hdirs : (ofFault (makeDirs path)).run.Leads programs self v fun _ v' ss =>
        v.Remains v' ∧ ss = [] := .mapError (leads_makeDirs path v)
    refine .andThen hdirs ?_ ?_
    · rintro _ v' _ ⟨hv', rfl⟩
      exact leads_summonInto target p he ((hv'.kept k e (hvk.trans he)).trans he.symm)
    · rintro cause v' _ ⟨hv', rfl⟩
      exact .unstarted ((hv'.kept k e (hvk.trans he)).trans he.symm)
  · rw [if_neg hgiven]
    exact leads_summonInto target p he hvk

/-! ## Summons -/

/-- How a summon ends. It is refused before anything is done, or it is granted by what is stored. -/
inductive Summoned (programs : Executables) (process : Nat) (s : Session) (choices : TransferChoices)
    (path : String) (k l t : Location) (w : World) : Except Failure Unit → World → List Start → Prop
  | refused {e : Failure} {v : World} (hv : w.Unmoved k v) :
      Summoned programs process s choices path k l t w (.error e) v []
  | granted {p : String} {r : Registry} {found : TreePath × Registry} {out : Except Failure Unit}
      {v : World} {ss : List Start} (hp : (w.run programs process (resolve path).run).1 = .ok p)
      (hstored : stored (NormalPath.ofText s.config.targetsFile).text (w.content k) = .ok r)
      (hdecide : r.decide .included p = .ok found)
      (h : Fetched programs process s choices p k l t w out v ss) :
      Summoned programs process s choices path k l t w out v ss

theorem leads_summon (h : Placed programs self w s.config.targetsFile k l t) :
    (summon s path choices).run.Leads programs self w
      (Summoned programs self s choices path k l t w) := by
  have hstill : w.Unmoved k w := World.Unmoved.refl k w
  rw [summon_eq]
  refine .andThen (leads_resolve path w) ?_ ?_
  · rintro p w _ ⟨hp, rfl, rfl⟩
    refine .andThen (leads_registry h) ?_ ?_
    · rintro r u _ ⟨⟨r', hloads, hr⟩, hu, rfl⟩
      have hr' : r' = .ok r := mapError_eq_ok.1 hr.symm
      subst hr'
      have hdecided : (ofTask ((Edit.decide .included p).perform r)).run.Leads programs self u
          fun out v ss => out = (((Edit.decide .included p).apply r).map fun r' =>
            ((Edit.decide .included p).subject r, r')).mapError Failure.operation ∧
              u.Still v ∧ ss = [] :=
        (quiet_edit _ r).leads fun log => ⟨rfl, ⟨rfl, rfl, rfl⟩, rfl⟩
      refine .andThen hdecided ?_ ?_
      · rintro ⟨subject, r'⟩ v _ ⟨hout, hv, rfl⟩
        have huv := hu.trans (hv.unmoved k)
        cases hdecide : r.decide .included p with
        | error e =>
          rw [Edit.apply, hdecide] at hout
          cases hout
        | ok found =>
          obtain ⟨x, hfile, hstored⟩ := hloads.of_decide hdecide
          rcases hlocate : r.locate p with e | ⟨target, _ | q⟩
          · exact Program.leads_done.2 (.refused huv)
          · exact Program.leads_done.2 (.refused huv)
          · have hgranted : (summonGranted s choices p subject target q).run.Leads programs self v
                (Fetched programs self s choices p k l t w) :=
              leads_summonGranted target q hfile huv.file
            exact hgranted.mono fun _ _ _ hfetched => .granted hp.symm hstored hdecide hfetched
      · rintro e v _ ⟨-, hv, rfl⟩
        exact .refused (hu.trans (hv.unmoved k))
    · rintro e u _ ⟨-, hu, rfl⟩
      exact .refused hu
  · rintro e w _ ⟨-, rfl, rfl⟩
    exact .refused hstill

theorem edited_decide (s : Session) (d : Decision) (path : String) (content : Option ByteArray) :
    (edited s (.decide d path) content).map (·.2) =
      ((stored (NormalPath.ofText s.config.targetsFile).text content).bind fun r =>
        (r.decide d path).map (·.2)).mapError Failure.operation := by
  rw [edited]
  cases stored (NormalPath.ofText s.config.targetsFile).text content with
  | error e => rfl
  | ok r =>
    rw [Except.bind, Except.bind, Edit.apply]
    cases r.decide d path <;> rfl

/-- The inclusion that is recorded in what is stored by then, and the two ways in which it may end. -/
theorem recorded_of_changes {p : String} {out : Except Failure String} {w' : World}
    (h : Changes (edited s (.decide .included p) (v.content k)) v k l out w') :
    let asked := ((stored (NormalPath.ofText s.config.targetsFile).text (v.content k)).bind fun r =>
      (r.decide .included p).map (·.2)).mapError Failure.operation
    (∀ e, out.map (fun _ => ()) = .error e → w'.files.get? k = v.files.get? k ∧
      (v.allows l .exclusive = true → asked = .error e)) ∧
    (out.map (fun _ => ()) = .ok () → ∃ r, asked = .ok r ∧
      ∃ x, w'.files.get? k = some (.file r.bytes x)) := by
  intro asked
  have hasked : (edited s (.decide .included p) (v.content k)).map (·.2) = asked :=
    edited_decide s .included p _
  cases h with
  | refused hfile hwhy =>
    refine ⟨fun e he => ?_, fun hok => by cases hok⟩
    cases he
    refine ⟨hfile, fun hallows => ?_⟩
    rw [← hasked, hwhy hallows]
    rfl
  | @stored _ r _ x hmade hfile =>
    refine ⟨fun _ he => (by cases he), fun _ => ⟨r, ?_, x, hfile⟩⟩
    rw [← hasked, hmade]
    rfl

theorem Fetched.of_nil {out : Except Failure Unit}
    (h : Fetched programs self s choices path k l t w out v []) :
    v.files.get? k = w.files.get? k ∧ (out = .ok () → choices.dryRun = some .shown) := by
  cases h with
  | unstarted hfile => exact ⟨hfile, fun hok => by cases hok⟩
  | shown hshown hfile => exact ⟨hfile, fun _ => hshown⟩

/-- What comes of the program that was started. -/
theorem Fetched.of_mem {out : Except Failure Unit} {ss : List Start} {st : Start}
    (h : Fetched programs self s choices path k l t w out v ss) (hst : st ∈ ss) :
    ss = [st] ∧ choices.dryRun ≠ some .shown ∧ st.world.files.get? k = w.files.get? k ∧
      ((st.outcome programs self).1 ≠ .ok (some 0) ∧ (∃ e, out = .error e) ∧
          v.files.get? k = (st.outcome programs self).2.files.get? k ∨
        (st.outcome programs self).1 = .ok (some 0) ∧ (choices.dryRun = some .tool ∧
            v.files.get? k = (st.outcome programs self).2.files.get? k ∨
          choices.dryRun = none ∧ ∃ o : Except Failure String, out = o.map (fun _ => ()) ∧
            (Placed programs self (st.outcome programs self).2 s.config.targetsFile k l t →
              Changes (edited s (.decide .included path) ((st.outcome programs self).2.content k))
                (st.outcome programs self).2 k l o v))) := by
  cases h with
  | unstarted | shown => cases hst
  | failed hgiven hstart hfailed hfile =>
    cases List.mem_singleton.1 hst
    exact ⟨rfl, hgiven, hstart, Or.inl ⟨hfailed, ⟨_, rfl⟩, hfile⟩⟩
  | tried htool hstart hdone hfile =>
    cases List.mem_singleton.1 hst
    exact ⟨rfl, by simp [htool], hstart, Or.inr ⟨hdone, Or.inl ⟨htool, hfile⟩⟩⟩
  | recorded hreal hstart hdone hchanges =>
    cases List.mem_singleton.1 hst
    exact ⟨rfl, by simp [hreal], hstart, Or.inr ⟨hdone, Or.inr ⟨hreal, _, rfl, hchanges⟩⟩⟩

theorem stored_of_planned (h : Placed programs self w s.config.targetsFile k l t) {p : String}
    {r : Registry} {target : Target} {q : TreePath} {settings : Settings} {plan : TransferPlan}
    (hr : w.run programs self s.registry.run = (.ok r, u))
    (hplanned : Planned programs self s choices u r p target q settings plan) :
    stored (NormalPath.ofText s.config.targetsFile).text (w.content k) = .ok r := by
  obtain ⟨⟨r', hloads, hout⟩, -⟩ := (leads_registry h).run
  rw [hr] at hout
  cases mapError_eq_ok.1 hout.symm
  cases hdecide : r.decide .included p with
  | error e => cases hdecide ▸ hplanned.granted
  | ok found =>
    obtain ⟨-, -, hstored⟩ := hloads.of_decide hdecide
    exact hstored

/-- Nothing is started, and no directory made, for a path that the stored registry refuses. A summon
that has a plan starts its program, with the arguments of the plan, unless the command is only to be
shown, and nothing is started but that. As long as no program was started the stored registry stays as
it is. If the program fails, by whatever cause, or the summon was a dry run, the stored registry stays
as the program left it. If it succeeds, what is stored by then is changed by the inclusion of the path,
or stays if that is refused by now. -/
theorem summon_recorded_after_transfer (s : Session) (path : String) (choices : TransferChoices)
    (h : Placed programs self w s.config.targetsFile k l t) :
    let name := (NormalPath.ofText s.config.targetsFile).text
    let resolved := (w.run programs self (resolve path).run).1
    let out := (w.run programs self (summon s path choices).run).1
    let w' := (w.run programs self (summon s path choices).run).2
    let starts := w.starts programs self (summon s path choices).run
    (∀ p r, resolved = .ok p → stored name (w.content k) = .ok r → r.Refuses p →
      (∃ e, out = .error e) ∧ starts = [] ∧ w.Unmoved k w') ∧
    (∀ p r u target q settings plan, resolved = .ok p →
      w.run programs self s.registry.run = (.ok r, u) →
      Planned programs self s choices u r p target q settings plan →
      choices.dryRun ≠ some .shown →
      ∃ st, starts = [st] ∧ st.program = plan.program ∧ st.args = plan.arguments none) ∧
    (starts = [] → w'.files.get? k = w.files.get? k ∧
      (out = .ok () → choices.dryRun = some .shown)) ∧
    ∀ st ∈ starts, starts = [st] ∧ choices.dryRun ≠ some .shown ∧
      (∃ p r u target q settings plan, resolved = .ok p ∧
        w.run programs self s.registry.run = (.ok r, u) ∧ stored name (w.content k) = .ok r ∧
        Planned programs self s choices u r p target q settings plan ∧
        st.program = plan.program ∧ st.args = plan.arguments none) ∧
      st.world.files.get? k = w.files.get? k ∧
      let ending := (st.outcome programs self).1
      let v := (st.outcome programs self).2
      (choices.dryRun = some .tool ∨ ending ≠ .ok (some 0) →
        w'.files.get? k = v.files.get? k) ∧
      (ending ≠ .ok (some 0) → ∃ e, out = .error e) ∧
      (choices.dryRun = none → ending = .ok (some 0) →
        Placed programs self v s.config.targetsFile k l t → ∃ p, resolved = .ok p ∧
          let asked := ((stored name (v.content k)).bind fun r =>
            (r.decide .included p).map (·.2)).mapError Failure.operation
          (∀ e, out = .error e → w'.files.get? k = v.files.get? k ∧
            (v.allows l .exclusive = true → asked = .error e)) ∧
          (out = .ok () → ∃ r, asked = .ok r ∧
            ∃ x, w'.files.get? k = some (.file r.bytes x))) := by
  intro name resolved out w' starts
  have hsummoned : Summoned programs self s choices path k l t w out w' starts :=
    (leads_summon h).run
  have hcommand (st : Start) (hst : st ∈ starts) : ∃ p r u target q settings plan,
      resolved = .ok p ∧ w.run programs self s.registry.run = (.ok r, u) ∧
        stored name (w.content k) = .ok r ∧
        Planned programs self s choices u r p target q settings plan ∧
        st.program = plan.program ∧ st.args = plan.arguments none := by
    obtain ⟨p, r, u, target, q, settings, plan, hp, hr, hplanned, hgiven⟩ := planned_of_mem hst
    exact ⟨p, r, u, target, q, settings, plan, hp, hr, stored_of_planned h hr hplanned, hplanned,
      hgiven⟩
  have hstarts (p : String) (r : Registry) (u : World) (target : Target) (q : TreePath)
      (settings : Settings) (plan : TransferPlan) (hp : resolved = .ok p)
      (hr : w.run programs self s.registry.run = (.ok r, u))
      (hplanned : Planned programs self s choices u r p target q settings plan)
      (hgiven : choices.dryRun ≠ some .shown) :
      ∃ st, starts = [st] ∧ st.program = plan.program ∧ st.args = plan.arguments none :=
    starts_of_planned hp hr hplanned hgiven
  generalize out = out, w' = w', starts = starts at hsummoned hcommand hstarts ⊢
  refine ⟨?_, hstarts, ?_⟩
  · intro p r hp hr hrefuses
    cases hsummoned with
    | refused hv => exact ⟨⟨_, rfl⟩, rfl, hv⟩
    | granted hp' hr' hdecide =>
      cases hp.symm.trans hp'
      cases hr.symm.trans hr'
      exact absurd hdecide (hrefuses.decide_ne _)
  cases hsummoned with
  | refused hv => exact ⟨fun _ => ⟨hv.file, fun h => by cases h⟩, fun _ h => by cases h⟩
  | @granted p _ _ _ _ _ hp _ _ hfetched =>
    refine ⟨fun hnone => (hnone ▸ hfetched).of_nil, fun st hst => ?_⟩
    obtain ⟨hone, hgiven, hstart, hends⟩ := hfetched.of_mem hst
    refine ⟨hone, hgiven, hcommand st hst, hstart, ?_⟩
    intro ending v
    rcases hends with ⟨hfailed, herror, hfile⟩ | ⟨hdone, ⟨htool, hfile⟩ | ⟨hreal, o, rfl, hchanges⟩⟩
    · exact ⟨fun _ => hfile, fun _ => herror, fun _ hdone => absurd hdone hfailed⟩
    · exact ⟨fun _ => hfile, fun hfailed => absurd hdone hfailed,
        fun hreal => by cases htool.symm.trans hreal⟩
    · refine ⟨fun hwhy => ?_, fun hfailed => absurd hdone hfailed, fun _ _ hplaced =>
        ⟨p, hp, recorded_of_changes (hchanges hplaced)⟩⟩
      rcases hwhy with htool | hfailed
      · cases hreal.symm.trans htool
      · exact absurd hdone hfailed

end
end Cli

namespace Sample

/-- One target, with nothing decided in it. -/
def servedEdits : List Edit :=
  [.add "h:/m/" "/m"]

/-- The target is there, and so is a program to transfer with. -/
def served : World where
  files := ⟨[(["m"], .directory), (["m", "c"], .directory), (["bin"], .directory),
    (["bin", "rsync"], .file .empty true),
    (["targets.toml"], .file (after {} servedEdits).bytes false)]⟩
  searchPath := ["/bin"]

/-- All programs succeed, and leave everything as it was at first. -/
def fetching : Executables := fun _ _ _ _ => (.ok (some 0), served)

theorem get?_served : served.files.get? ["targets.toml"] =
    some (.file (after {} servedEdits).bytes false) := by
  simp [FileSystem.get?, served, List.lookup]

/-- A registry's file at the root, with nothing beside it and no locks. -/
theorem placed_root (programs : Executables) {w : World} {bytes : ByteArray} {x : Bool}
    (hlocks : w.locks = []) (hfile : w.files.get? ["targets.toml"] = some (.file bytes x))
    (hlock : w.files.entries.lookup ["targets.toml.lock"] = none)
    (hnew : w.files.entries.lookup [".targets.toml.1.tmp"] = none) :
    Placed programs 1 w linkedSession.config.targetsFile ["targets.toml"] ["targets.toml.lock"]
      [".targets.toml." ++ toString 1 ++ ".tmp"] := by
  have hnone {name : String} (h : w.files.entries.lookup [name] = none) :
      w.files.HoldsFile [name] := by
    intro e he
    rw [FileSystem.get?, if_neg (by simp), h] at he
    cases he
  have hname : ".targets.toml." ++ toString 1 ++ ".tmp" = ".targets.toml.1.tmp" := by decide +kernel
  refine ⟨fun y hy => ?_, Or.inl ?_⟩
  · rw [hlocks] at hy
    cases hy
  rw [targetsFile_linked]
  refine sited w.cwd List.mem_cons_self ?_ (hnone hlock) (hnone (hname ▸ hnew))
  intro e he
  rw [hfile] at he
  cases he
  exact ⟨_, _, rfl⟩

theorem placed_served : Placed fetching 1 served linkedSession.config.targetsFile ["targets.toml"]
    ["targets.toml.lock"] [".targets.toml." ++ toString 1 ++ ".tmp"] :=
  placed_root fetching rfl get?_served (by simp [served, List.lookup])
    (by simp [served, List.lookup])

theorem stored_served :
    stored (NormalPath.ofText linkedSession.config.targetsFile).text
      (served.content ["targets.toml"]) = .ok (after {} servedEdits) := by
  rw [World.content_of_file get?_served, stored_bytes,
    ofToml_toToml (sorted_empty.after _) (wellFormed_empty.after _)]

theorem outcome_fetching (st : Start) (h : (st.outcome fetching 1).1 = .ok (some 0)) :
    (st.outcome fetching 1).2 = served := by
  rw [Start.outcome, World.answer] at h ⊢
  split at h
  · cases h
  · next hargs =>
    rw [if_neg hargs]
    split at h
    · cases h
    · rfl

/-- The target's registry is read, and the world after that. -/
def opened : World :=
  (served.run fetching 1 linkedSession.registry.run).2

theorem run_opened : served.run fetching 1 linkedSession.registry.run =
    (.ok (after {} servedEdits), opened) := by
  obtain ⟨⟨r, hloads, hr⟩, -⟩ := (Cli.leads_registry placed_served).run
  have hraw : (served.files.entry served.cwd linkedSession.config.targetsFile).isOk = true := by
    decide +kernel
  rw [← Prod.mk.eta (p := served.run fetching 1 linkedSession.registry.run), ← opened, hr]
  refine congrArg (·, opened) ?_
  cases hloads with
  | nowhere h =>
    rw [hraw] at h
    cases h
  | missing _ hnone =>
    rw [World.content_of_file get?_served] at hnone
    cases hnone
  | @locked kind _ hheld => cases kind <;> cases hheld
  | read _ hbytes =>
    rw [← hbytes, stored_served]
    rfl

/-- The program is started for a directory of the target. -/
theorem starts_served :
    ∃ st ∈ served.starts fetching 1 (Cli.summon linkedSession "/m/c" {}).run,
      (st.outcome fetching 1).1 = .ok (some 0) := by
  have hresolve : (served.run fetching 1 (Cli.resolve "/m/c").run).1 = .ok "/m/c" := by
    decide +kernel
  have hstarted : ((opened.starts fetching 1
      (Cli.summonFrom linkedSession {} "/m/c" (after {} servedEdits)).run).any fun st =>
        (st.outcome fetching 1).1 = .ok (some 0)) = true := by decide +kernel
  obtain ⟨st, hst, hends⟩ := List.any_eq_true.1 hstarted
  refine ⟨st, ?_, of_decide_eq_true hends⟩
  rw [Cli.starts_summon_of hresolve run_opened]
  exact hst

/-- A plan to fetch a directory of the target. -/
theorem planned_served : ∃ q, Cli.Planned fetching 1 linkedSession {} opened
    (after {} servedEdits) "/m/c" ⟨"h:/m/", "/m", {}⟩ q {}
    ⟨"rsync", ["-raHEAXS", "--protect-args", "--progress"], none, ["--ignore-existing"], "h:/m/c/",
      "/m/c/", none⟩ := by
  let q : TreePath := ⟨["c"], by decide, by decide⟩
  have hgranted : ((after {} servedEdits).decide .included "/m/c").isOk = true := by decide +kernel
  have hlocated : (after {} servedEdits).locate "/m/c" = .ok (⟨"h:/m/", "/m", {}⟩, some q) := by
    decide +kernel
  have hmade : (opened.run fetching 1 (Cli.prepare {} "/m/c").run).1 = .ok () := by decide +kernel
  have hloaded : ((opened.run fetching 1 (Cli.prepare {} "/m/c").run).2.run fetching 1
      linkedSession.config.loadSettings.run).1 = .ok {} := by decide +kernel
  have hplanned (rootIsDir : Bool) : TransferPlan.of {} ⟨"h:/m/", "/m", {}⟩ (.summon q)
      (Cli.transferOptions linkedSession {}) rootIsDir =
        .ok ⟨"rsync", ["-raHEAXS", "--protect-args", "--progress"], none, ["--ignore-existing"],
          "h:/m/c/", "/m/c/", none⟩ := by
    cases rootIsDir <;> decide +kernel
  exact ⟨q, hgranted, hlocated, hmade, hloaded, hplanned⟩

end Sample

namespace Cli
open Sample

/-- A directory of the target is fetched, and included once the program has succeeded; nothing is done
for the target itself. -/
theorem summon_recorded_after_transfer_sample :
    (∃ st, served.starts fetching 1 (summon linkedSession "/m/c" {}).run = [st] ∧
      st.program = "rsync" ∧ st.args = ["-raHEAXS", "--protect-args", "--progress",
        "--ignore-existing", "h:/m/c/", "/m/c/"]) ∧
    (∃ w, served.run fetching 1 (summon linkedSession "/m/c" {}).run = (.ok (), w) ∧
      ∃ x, w.files.get? ["targets.toml"] =
        some (.file (after {} (servedEdits ++ [.decide .included "/m/c"])).bytes x)) ∧
    (∃ w e, served.run fetching 1 (summon linkedSession "/m" {}).run = (.error e, w) ∧
      w.files.get? ["targets.toml"] = some (.file (after {} servedEdits).bytes false)) ∧
    served.starts fetching 1 (summon linkedSession "/m" {}).run = [] := by
  obtain ⟨-, hcommand, -, hstarts⟩ :=
    summon_recorded_after_transfer linkedSession "/m/c" {} placed_served
  have hresolve : (served.run fetching 1 (resolve "/m/c").run).1 = .ok "/m/c" := by decide +kernel
  refine ⟨?_, ?_, ?_⟩
  · obtain ⟨q, hplanned⟩ := planned_served
    exact hcommand _ _ _ _ _ _ _ hresolve run_opened hplanned (by decide)
  · obtain ⟨st, hst, hends⟩ := starts_served
    obtain ⟨-, -, -, -, -, -, hrecorded⟩ := hstarts st hst
    rw [outcome_fetching st hends] at hrecorded
    obtain ⟨p, hp, hfail, hdone⟩ := hrecorded rfl hends placed_served
    cases hresolve.symm.trans hp
    have hasked : ((Except.ok (after {} servedEdits)).bind fun r : Registry =>
        (r.decide .included "/m/c").map (·.2)).mapError Failure.operation =
          .ok (after {} (servedEdits ++ [.decide .included "/m/c"])) := by decide +kernel
    rw [stored_served, hasked] at hfail hdone
    cases hrun : served.run fetching 1 (summon linkedSession "/m/c" {}).run with
    | mk out w =>
      rw [hrun] at hfail hdone
      cases out with
      | error e => cases (hfail e rfl).2 rfl
      | ok =>
        obtain ⟨r, hr, hfile⟩ := hdone rfl
        cases hr
        exact ⟨w, rfl, hfile⟩
  · obtain ⟨hrefused, -⟩ := summon_recorded_after_transfer linkedSession "/m" {} placed_served
    have hresolve : (served.run fetching 1 (resolve "/m").run).1 = .ok "/m" := by decide +kernel
    have hroot : (after {} servedEdits).locate "/m" = .ok (⟨"h:/m/", "/m", {}⟩, none) := by
      decide +kernel
    obtain ⟨⟨e, he⟩, hnone, hunmoved⟩ := hrefused _ _ hresolve stored_served (.root hroot)
    exact ⟨⟨_, e, by rw [← he], hunmoved.file.trans get?_served⟩, hnone⟩

end Cli
end SelectiveSync
