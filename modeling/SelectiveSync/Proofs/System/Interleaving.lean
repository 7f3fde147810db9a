import Mathlib.Logic.Function.Basic
import SelectiveSync.Proofs.System.Run

/-! # Processes that take turns

Several processes run their programs in one world, one call at a time and in any order. A process may
be stopped for good before any of its calls; the system then takes back the locks that it holds.

* `Program.Reaches`: some calls of a program, and how far it gets with them.
* `Processes.Step`: one call of one process, or the stop of one.
* `Processes.Runs`: any number of steps, with what happened in them.
* `runs_of_reaches`: a process may make some calls while the others wait. -/
namespace SelectiveSync
set_option autoImplicit false

/-! ## Part of a run -/

/-- By some calls, which are all answered at once, process `self` gets from a program in a world to
what is left of the program and to the world then. -/
inductive Program.Reaches {α : Type} (programs : Executables) (self : Nat) :
    Program α → World → List Call → Program α → World → Prop
  | here {p : Program α} {w : World} : Reaches programs self p w [] p w
  | call {c : Call} {next : c.Reply → Program α} {w w' : World} {cs : List Call} {p' : Program α}
      (h : Reaches programs self (next (w.answer programs self c).1) (w.answer programs self c).2
        cs p' w') :
      Reaches programs self (.call c next) w (c :: cs) p' w'

namespace Program

section
variable {α β : Type} {programs : Executables} {self : Nat} {p p' p'' : Program α}
  {w w' w'' : World} {cs cs' : List Call}

theorem Reaches.trans (h : p.Reaches programs self w cs p' w')
    (hlater : p'.Reaches programs self w' cs' p'' w'') :
    p.Reaches programs self w (cs ++ cs') p'' w'' := by
  induction h with
  | here => exact hlater
  | call _ ih => exact .call (ih hlater)

theorem Reaches.bind (h : p.Reaches programs self w cs p' w') (next : α → Program β) :
    (p.bind next).Reaches programs self w cs (p'.bind next) w' := by
  induction h with
  | here => exact .here
  | call _ ih => exact .call ih

/-- What is left ends as the whole does. -/
theorem Reaches.run (h : p.Reaches programs self w cs p' w') :
    w'.run programs self p' = w.run programs self p := by
  induction h with
  | here => rfl
  | call _ ih => exact ih

theorem Reaches.asked {asked : Call → Prop} (h : p.Reaches programs self w cs p' w')
    (hp : p.Asks asked) : ∀ c ∈ cs, asked c := by
  induction h with
  | here => exact List.forall_mem_nil _
  | call _ ih =>
    cases hp with
    | call hc hnext => exact List.forall_mem_cons.2 ⟨hc, ih (hnext _)⟩

theorem reaches_call {c : Call} {next : c.Reply → Program α} {r : c.Reply}
    (h : w.answer programs self c = (r, w')) :
    (call c next).Reaches programs self w [c] (next r) w' := by
  have hfirst : (call c next).Reaches programs self w [c] (next (w.answer programs self c).1)
      (w.answer programs self c).2 := .call .here
  rw [h] at hfirst
  exact hfirst

/-- A program that runs to its end reaches it. -/
theorem reaches_of_run {a : α} (h : w.run programs self p = (a, w')) :
    ∃ cs, p.Reaches programs self w cs (.done a) w' := by
  induction p generalizing w with
  | done b =>
    cases h
    exact ⟨[], .here⟩
  | call c next ih =>
    obtain ⟨cs, hrest⟩ := ih _ h
    exact ⟨c :: cs, .call hrest⟩

variable {ε : Type} {t : Task ε α} {c : Call} {rest : c.Reply → Program (Except ε α)}

theorem Reaches.andThen {a : α} (h : t.run.Reaches programs self w cs (.done (.ok a)) w')
    (next : α → Task ε β) : (t >>= next).run.Reaches programs self w cs (next a).run w' :=
  h.bind (ExceptT.bindCont next)

/-- A task that has got to a call, with another task to follow it. -/
theorem Reaches.andThen_call (h : t.run.Reaches programs self w cs (.call c rest) w')
    (next : α → Task ε β) : (t >>= next).run.Reaches programs self w cs
      (.call c fun r => (rest r).bind (ExceptT.bindCont next)) w' :=
  h.bind (ExceptT.bindCont next)

theorem Reaches.mapError_call {δ : Type} (h : t.run.Reaches programs self w cs (.call c rest) w')
    (f : ε → δ) : (t.mapError f).run.Reaches programs self w cs
      (.call c fun r => (rest r).bind fun out => .done (out.mapError f)) w' :=
  h.bind fun out => .done (out.mapError f)

theorem reaches_ask {next : c.Reply → Task ε α} {r : c.Reply}
    (h : w.answer programs self c = (r, w')) :
    (Task.ask c >>= next).run.Reaches programs self w [c] (next r).run w' :=
  reaches_call h

end

end Program

/-! ## Turns -/

/-- The world that processes share, and what each of them has still to do. -/
structure Processes (α : Type) where
  world : World
  program : Nat → Option (Program α)

inductive Happening where
  | call (process : Nat) (c : Call)
  | stop (process : Nat)

namespace Processes

variable {α : Type}

inductive Step (programs : Executables) : Processes α → Happening → Processes α → Prop
  | call {s : Processes α} {i : Nat} {c : Call} {next : c.Reply → Program α}
      (h : s.program i = some (.call c next)) :
      Step programs s (.call i c)
        ⟨(s.world.answer programs i c).2,
          Function.update s.program i (some (next (s.world.answer programs i c).1))⟩
  | stop {s : Processes α} {i : Nat} {p : Program α} (h : s.program i = some p) :
      Step programs s (.stop i)
        ⟨{ s.world with locks := s.world.locks.filter fun x => x.owner ≠ i },
          Function.update s.program i none⟩

inductive Runs (programs : Executables) (s : Processes α) : List Happening → Processes α → Prop
  | start : Runs programs s [] s
  | step {trace : List Happening} {s' s'' : Processes α} {e : Happening}
      (h : Runs programs s trace s') (hstep : Step programs s' e s'') :
      Runs programs s (trace ++ [e]) s''

variable {programs : Executables} {s s' s'' : Processes α}

theorem Runs.trans {trace later : List Happening} (h : Runs programs s trace s')
    (hlater : Runs programs s' later s'') : Runs programs s (trace ++ later) s'' := by
  induction hlater with
  | start =>
    rw [List.append_nil]
    exact h
  | step _ hstep ih =>
    rw [← List.append_assoc]
    exact .step ih hstep

/-- A process may make some calls while the others wait. -/
theorem runs_of_reaches {i : Nat} {p p' : Program α} {w w' : World} {cs : List Call}
    (hreaches : p.Reaches programs i w cs p' w') {program : Nat → Option (Program α)}
    (hp : program i = some p) : Runs programs ⟨w, program⟩ (cs.map (.call i))
      ⟨w', Function.update program i (some p')⟩ := by
  induction hreaches generalizing program with
  | here =>
    rw [← hp, Function.update_eq_self]
    exact .start
  | @call c next w _ _ _ _ ih =>
    have hfirst : Runs programs ⟨w, program⟩ ([] ++ [.call i c]) _ := .step .start (.call hp)
    have hrest := ih (Function.update_self i _ program)
    rw [Function.update_idem] at hrest
    exact hfirst.trans hrest

end Processes

end SelectiveSync
