import SelectiveSync.Cli.Log
import SelectiveSync.Proofs.System.Run

/-! # Where programs lead

`Program.Leads` follows a program from a world call by call: how it ends, what world it leaves and
which programs it starts on the way. Events may be left out of the log at will, so that what is shown
of a program holds of it under every filter of the log.

* `leads_bind`: a program in two parts, and `Leads.andThen` and its neighbours for tasks.
* `Leads.of_asks` and `Leads.of_run`: programs whose calls are all of one kind.
* `Leads.still`: calls that keep files and locks.
* `Leads.run`: the run itself ends so, and `Leads.filterLog`: so does the filtered program.
* `run_hushed`: what was printed and logged matters to no program that starts none. -/
namespace SelectiveSync
set_option autoImplicit false

/-! ## Started programs -/

/-- A program that was started, and the world in which it was. -/
structure Start where
  world : World
  program : String
  args : List String

/-- What comes of a started program: how it ends, and the world after it. -/
def Start.outcome (programs : Executables) (process : Nat) (s : Start) :
    Except Fault (Option Nat) × World :=
  s.world.answer programs process (.run s.program s.args)

/-- The call tells the log something. -/
def Call.tellsLog : Call → Bool
  | .log _ => true
  | _ => false

namespace World

/-- The program that a call starts, if it starts one. -/
def started (w : World) : Call → List Start
  | .run program args => [⟨w, program, args⟩]
  | _ => []

/-- The programs that are started in the course of a run, the first of them first. -/
def starts {α : Type} (programs : Executables) (self : Nat) : Program α → World → List Start
  | .done _, _ => []
  | .call c next, w =>
    w.started c ++ starts programs self (next (w.answer programs self c).1)
      (w.answer programs self c).2

variable {programs : Executables} {self : Nat}

theorem starts_bind {α β : Type} (p : Program α) (next : α → Program β) (w : World) :
    w.starts programs self (p.bind next) = w.starts programs self p ++
      (w.run programs self p).2.starts programs self (next (w.run programs self p).1) := by
  induction p generalizing w with
  | done a => rfl
  | call c rest ih => simp only [Program.bind, starts, ih, List.append_assoc, run]

section
variable {ε α β : Type}

/-- What follows a task that succeeds is started after what the task starts. -/
theorem starts_andThen (t : Task ε α) (next : α → Task ε β) (w : World) :
    w.starts programs self (t >>= next).run = w.starts programs self t.run ++
      match (w.run programs self t.run).1 with
      | .ok a => (w.run programs self t.run).2.starts programs self (next a).run
      | .error _ => [] := by
  have hbind : w.starts programs self (t.run.bind (ExceptT.bindCont next)) = _ :=
    starts_bind t.run (ExceptT.bindCont next) w
  refine hbind.trans (congrArg _ ?_)
  cases (w.run programs self t.run).1 <;> rfl

/-- What starts nothing after a task leaves what the task starts. -/
theorem starts_andThen_nil {next : α → Task ε β}
    (h : ∀ a (v : World), v.starts programs self (next a).run = []) (t : Task ε α) (w : World) :
    w.starts programs self (t >>= next).run = w.starts programs self t.run := by
  rw [starts_andThen]
  cases (w.run programs self t.run).1 with
  | ok a => exact (congrArg _ (h a _)).trans (List.append_nil _)
  | error e => exact List.append_nil _

theorem starts_mapError {δ : Type} (f : ε → δ) (t : Task ε α) (w : World) :
    w.starts programs self (t.mapError f).run = w.starts programs self t.run :=
  (starts_bind t.run (fun r => Program.done (r.mapError f)) w).trans (List.append_nil _)

end

end World

/-- The call starts no program. -/
def Call.StartsNothing (c : Call) : Prop :=
  ∀ w : World, w.started c = []

namespace Program

/-- From the world `w` the program ends as `post` says of its result, of the world that it leaves
and of what it has started, whatever it tells the log is kept or left out. -/
def Leads {α : Type} (programs : Executables) (self : Nat) :
    Program α → World → (α → World → List Start → Prop) → Prop
  | .done a, w, post => post a w []
  | .call c next, w, post =>
    ∀ v, v = (w.answer programs self c).2 ∨ c.tellsLog = true ∧ v = w →
      Leads programs self (next (w.answer programs self c).1) v
        fun a v' ss => post a v' (w.started c ++ ss)

variable {programs : Executables} {self : Nat}

theorem leads_done {α : Type} {a : α} {w : World} {post : α → World → List Start → Prop} :
    (done a).Leads programs self w post ↔ post a w [] :=
  Iff.rfl

theorem leads_call {α : Type} {c : Call} {next : c.Reply → Program α} {w : World}
    {post : α → World → List Start → Prop} :
    (call c next).Leads programs self w post ↔
      ∀ v, v = (w.answer programs self c).2 ∨ c.tellsLog = true ∧ v = w →
        (next (w.answer programs self c).1).Leads programs self v
          fun a v' ss => post a v' (w.started c ++ ss) :=
  Iff.rfl

-- A statement about where a program leads is never to be worked out by running the program.
attribute [irreducible] Leads

theorem leads_bind {α β : Type} {p : Program α} {next : α → Program β} {w : World}
    {post : β → World → List Start → Prop} :
    (p.bind next).Leads programs self w post ↔
      p.Leads programs self w fun a v ss =>
        (next a).Leads programs self v fun b v' ss' => post b v' (ss ++ ss') := by
  induction p generalizing w post with
  | done a => simp only [bind, leads_done, List.nil_append]
  | call c rest ih => simp only [bind, leads_call, ih, List.append_assoc]

namespace Leads

section
variable {α : Type} {p : Program α} {w : World} {mid post : α → World → List Start → Prop}

theorem mono (hp : p.Leads programs self w mid) (h : ∀ a v ss, mid a v ss → post a v ss) :
    p.Leads programs self w post := by
  induction p generalizing w mid post with
  | done a => exact leads_done.2 (h a w [] (leads_done.1 hp))
  | call c next ih =>
    exact leads_call.2 fun v hv => ih _ (leads_call.1 hp v hv) fun a v' ss => h a v' _

theorem and {post' : α → World → List Start → Prop} (h : p.Leads programs self w post)
    (h' : p.Leads programs self w post') :
    p.Leads programs self w fun a v ss => post a v ss ∧ post' a v ss := by
  induction p generalizing w post post' with
  | done a => exact leads_done.2 ⟨leads_done.1 h, leads_done.1 h'⟩
  | call c next ih => exact leads_call.2 fun v hv => ih _ (leads_call.1 h v hv) (leads_call.1 h' v hv)

/-- The run itself ends so. -/
theorem run (h : p.Leads programs self w post) :
    post (w.run programs self p).1 (w.run programs self p).2 (w.starts programs self p) := by
  induction p generalizing w post with
  | done a => exact leads_done.1 h
  | call c next ih => exact ih _ (leads_call.1 h _ (Or.inl rfl))

theorem filterLog (h : p.Leads programs self w post) (f : LogFilter) :
    (p.filterLog f).Leads programs self w post := by
  induction p generalizing w post with
  | done a => exact h
  | call c next ih =>
    cases c with
    | log e =>
      rw [Program.filterLog]
      split
      · exact leads_call.2 fun v hv => ih () (leads_call.1 h v hv)
      · exact ih () (leads_call.1 h w (Or.inr ⟨rfl, rfl⟩))
    | _ => exact leads_call.2 fun v hv => ih _ (leads_call.1 h v hv)

/-! ## Programs whose calls are of one kind -/

variable {asked : Call → Prop}

theorem of_asks {keeps : World → World → Prop} (hrefl : ∀ w, keeps w w)
    (htrans : ∀ {u v w}, keeps u v → keeps v w → keeps u w)
    (hcall : ∀ c, asked c → ∀ w : World, w.started c = [] ∧ keeps w (w.answer programs self c).2)
    (hp : p.Asks asked) (w : World) :
    p.Leads programs self w fun _ v ss => keeps w v ∧ ss = [] := by
  induction hp generalizing w with
  | done a => exact leads_done.2 ⟨hrefl w, rfl⟩
  | @call c hc next _ ih =>
    refine leads_call.2 fun v hv => ?_
    obtain ⟨hstart, hkeeps⟩ := hcall c hc w
    have hwv : keeps w v := by
      rcases hv with rfl | ⟨-, rfl⟩
      · exact hkeeps
      · exact hrefl _
    refine (ih _ v).mono ?_
    rintro _ v' _ ⟨hv', rfl⟩
    exact ⟨htrans hwv hv', by rw [hstart]; rfl⟩

/-- A program that tells the log nothing and starts nothing leads where its run does. -/
theorem of_run (hcall : ∀ c, asked c → c.tellsLog = false ∧ ∀ w : World, w.started c = [])
    (hp : p.Asks asked) :
    p.Leads programs self w post ↔
      post (w.run programs self p).1 (w.run programs self p).2 [] := by
  induction hp generalizing w post with
  | done a => exact leads_done
  | @call c hc next _ ih =>
    obtain ⟨hlog, hstart⟩ := hcall c hc
    simp only [leads_call, hlog, hstart, Bool.false_eq_true, false_and, or_false, forall_eq, ih]
    exact Iff.rfl

/-- A program that asks for no program to be started starts none. -/
theorem of_startsNothing (hp : p.Asks Call.StartsNothing) :
    p.Leads programs self w fun _ _ ss => ss = [] :=
  have hall : p.Leads programs self w fun _ v ss => (fun _ _ : World => True) w v ∧ ss = [] :=
    of_asks (fun _ => trivial) (fun _ _ => trivial) (fun _ hc w => ⟨hc w, trivial⟩) hp w
  hall.mono fun _ _ _ h => h.2

end

/-! ## Tasks -/

section
variable {ε α β : Type} {t : Task ε α} {next : α → Task ε β} {w : World}
  {mid : Except ε α → World → List Start → Prop} {post : Except ε β → World → List Start → Prop}

theorem andThen (ht : t.run.Leads programs self w mid)
    (hok : ∀ a v ss, mid (.ok a) v ss →
      (next a).run.Leads programs self v fun b v' ss' => post b v' (ss ++ ss'))
    (herror : ∀ e v ss, mid (.error e) v ss → post (.error e) v ss) :
    (t >>= next).run.Leads programs self w post := by
  refine leads_bind.2 (ht.mono fun r v ss hr => ?_)
  cases r with
  | ok a => exact hok a v ss hr
  | error e =>
    refine leads_done.2 ?_
    rw [List.append_nil]
    exact herror e v ss hr

theorem mapError {δ : Type} {f : ε → δ} {post : Except δ α → World → List Start → Prop}
    (ht : t.run.Leads programs self w fun r v ss => post (r.mapError f) v ss) :
    (t.mapError f).run.Leads programs self w post := by
  refine leads_bind.2 (ht.mono fun r v ss hr => leads_done.2 ?_)
  rwa [List.append_nil]

/-- Two worlds from which a task leads to the same are alike for whatever follows it. -/
theorem andThen_congr {w' : World}
    (h : ∀ post, t.run.Leads programs self w post ↔ t.run.Leads programs self w' post)
    (post : Except ε β → World → List Start → Prop) :
    (t >>= next).run.Leads programs self w post ↔ (t >>= next).run.Leads programs self w' post :=
  leads_bind.trans ((h _).trans leads_bind.symm)

theorem mapError_congr {δ : Type} {f : ε → δ} {w' : World}
    (h : ∀ post, t.run.Leads programs self w post ↔ t.run.Leads programs self w' post)
    (post : Except δ α → World → List Start → Prop) :
    (t.mapError f).run.Leads programs self w post ↔
      (t.mapError f).run.Leads programs self w' post :=
  leads_bind.trans ((h _).trans leads_bind.symm)

theorem finally_ {after : Program Unit} {post : Except ε α → World → List Start → Prop}
    (ht : t.run.Leads programs self w mid)
    (hafter : ∀ r v ss, mid r v ss →
      after.Leads programs self v fun _ v' ss' => post r v' (ss ++ ss')) :
    (t.finally_ after).run.Leads programs self w post := by
  refine leads_bind.2 (ht.mono fun r v ss hr => leads_bind.2 ((hafter r v ss hr).mono ?_))
  intro _ v' ss' h
  refine leads_done.2 ?_
  rwa [List.append_nil]

theorem ask {c : Call} {next : c.Reply → Task ε β} (hc : c.tellsLog = false)
    (h : (next (w.answer programs self c).1).run.Leads programs self (w.answer programs self c).2
      fun b v ss => post b v (w.started c ++ ss)) :
    (Task.ask c >>= next).run.Leads programs self w post := by
  refine leads_call.2 ?_
  rintro v (rfl | ⟨hlog, -⟩)
  · exact h
  · rw [hc] at hlog
    cases hlog

theorem exists_ {path : String} {next : Bool → Task ε β}
    (h : (next (w.files.entry w.cwd path).isOk).run.Leads programs self w post) :
    (Task.exists_ path >>= next).run.Leads programs self w post := by
  refine leads_call.2 ?_
  rintro v (rfl | ⟨hlog, -⟩)
  · rw [World.answer_kind_keeps]
    rw [← World.answer_kind_isSome] at h
    exact h
  · cases hlog

theorem log {e : Event} {next : Unit → Task ε β}
    (h : ∀ log, (next ()).run.Leads programs self { w with log } post) :
    (Task.log e >>= next).run.Leads programs self w post := by
  refine leads_call.2 ?_
  rintro v (rfl | ⟨-, rfl⟩)
  · exact h _
  · exact h _

theorem check {δ : Type} {f : δ → ε} {r : Except δ α}
    (hok : ∀ a, r = .ok a → (next a).run.Leads programs self w post)
    (herror : ∀ e, r = .error e → post (.error (f e)) w []) :
    (Task.check f r >>= next).run.Leads programs self w post := by
  cases r with
  | ok a => exact hok a rfl
  | error e => exact leads_done.2 (herror e rfl)

end

end Leads
end Program

/-! ## Calls that keep files and locks -/

/-- The call looks at the world, talks with the user or tells the log something. -/
inductive Call.Still : Call → Prop
  | kind (path : String) : Still (.kind path)
  | workingDir : Still .workingDir
  | canonical (path : String) : Still (.canonical path)
  | read (path : String) : Still (.read path)
  | sync (path : String) : Still (.sync path)
  | processId : Still .processId
  | variable_ (name : String) : Still (.variable_ name)
  | accountHome : Still .accountHome
  | print (text : String) : Still (.print text)
  | warn (text : String) : Still (.warn text)
  | log (e : Event) : Still (.log e)
  | key : Still .key

namespace World

variable {programs : Executables} {self : Nat} {u v w : World} {c : Call}

/-- Files and locks are as they were. -/
structure Still (w v : World) : Prop where
  files : v.files = w.files
  cwd : v.cwd = w.cwd
  locks : v.locks = w.locks

theorem Still.refl (w : World) : w.Still w :=
  ⟨rfl, rfl, rfl⟩

theorem Still.trans (h : u.Still v) (h' : v.Still w) : u.Still w :=
  ⟨h'.files.trans h.files, h'.cwd.trans h.cwd, h'.locks.trans h.locks⟩

variable (programs self) in
theorem answer_still (hc : c.Still) (w : World) :
    w.started c = [] ∧ w.Still (w.answer programs self c).2 := by
  cases hc with
  | kind path => exact ⟨rfl, by rw [answer_kind_keeps]; exact Still.refl w⟩
  | key =>
    refine ⟨rfl, ?_⟩
    rw [answer]
    split <;> exact ⟨rfl, rfl, rfl⟩
  | workingDir | canonical | read | sync | processId | variable_ | accountHome | print | warn | log =>
    exact ⟨rfl, rfl, rfl, rfl⟩

end World

/-- Whatever a call that keeps files and locks is answered, the task goes on in such a world. -/
theorem Program.Leads.still {programs : Executables} {self : Nat} {ε α : Type} {w : World} {c : Call}
    (hc : c.Still) {next : c.Reply → Task ε α} {post : Except ε α → World → List Start → Prop}
    (h : ∀ r v, w.Still v → (next r).run.Leads programs self v post) :
    (Task.ask c >>= next).run.Leads programs self w post := by
  obtain ⟨hstart, hstill⟩ := World.answer_still programs self hc w
  refine leads_call.2 ?_
  rw [hstart]
  rintro v (rfl | ⟨-, rfl⟩)
  · exact h _ _ hstill
  · exact h _ _ (World.Still.refl v)

/-- In two worlds that are alike for all that a program asks, it ends alike. -/
theorem Program.Asks.alike {programs : Executables} {self : Nat} {α : Type} {p : Program α}
    {asked : Call → Prop} {alike : World → World → Prop} (hp : p.Asks asked)
    (hcall : ∀ c, asked c → c.Still ∧ ∀ {w v : World}, alike w v →
      (v.answer programs self c).1 = (w.answer programs self c).1 ∧
        alike (w.answer programs self c).2 (v.answer programs self c).2 ∧
        (c.tellsLog = true → alike (w.answer programs self c).2 v))
    {w v : World} (h : alike w v) :
    p.Leads programs self v fun out u ss =>
      out = (w.run programs self p).1 ∧ v.Still u ∧ ss = [] := by
  induction hp generalizing w v with
  | done a => exact leads_done.2 ⟨rfl, World.Still.refl v, rfl⟩
  | @call c hc next _ ih =>
    obtain ⟨hcstill, hanswer⟩ := hcall c hc
    obtain ⟨hreply, halike, hlog⟩ := hanswer h
    obtain ⟨hstart, hstill⟩ := World.answer_still programs self hcstill v
    refine leads_call.2 ?_
    rw [hstart, hreply]
    rintro v' (rfl | ⟨htells, rfl⟩)
    · refine (ih _ halike).mono ?_
      rintro out u _ ⟨hout, hu, rfl⟩
      exact ⟨hout, hstill.trans hu, rfl⟩
    · exact ih _ (hlog htells)

namespace World

variable {programs : Executables} {self : Nat} {ε α β : Type}

theorem starts_eq_nil {p : Program α} (hp : p.Asks Call.StartsNothing) (w : World) :
    w.starts programs self p = [] :=
  (Program.Leads.of_startsNothing hp).run

variable (programs self) in
/-- After a task that starts nothing, and whose failures are told in other words, all is started by
what follows. -/
theorem starts_mapError_andThen {δ : Type} {t : Task ε α} (ht : t.run.Asks Call.StartsNothing)
    (f : ε → δ) (next : α → Task δ β) (w : World) :
    w.starts programs self (t.mapError f >>= next).run =
      match (w.run programs self t.run).1 with
      | .ok a => (w.run programs self t.run).2.starts programs self (next a).run
      | .error _ => [] := by
  rw [starts_andThen, starts_mapError, starts_eq_nil ht, List.nil_append, run_mapError rfl]
  cases (w.run programs self t.run).1 <;> rfl

end World

/-- A program that only looks and tells keeps files and locks and starts nothing. -/
theorem Program.Asks.still {programs : Executables} {self : Nat} {α : Type} {p : Program α}
    (hp : p.Asks Call.Still) (w : World) :
    p.Leads programs self w fun _ v ss => w.Still v ∧ ss = [] :=
  Program.Leads.of_asks World.Still.refl World.Still.trans
    (fun _ hc w => World.answer_still programs self hc w) hp w

/-! ## What was printed and logged -/

namespace World

variable {programs : Executables} {self : Nat}

/-- The world without what was printed and logged. -/
def hushed (w : World) : World :=
  { w with out := "", err := "", log := [] }

@[simp] theorem hushed_files (w : World) : w.hushed.files = w.files := rfl
@[simp] theorem hushed_cwd (w : World) : w.hushed.cwd = w.cwd := rfl
@[simp] theorem hushed_keys (w : World) : w.hushed.keys = w.keys := rfl
@[simp] theorem filterPath_hushed (w : World) : w.hushed.filterPath = w.filterPath := rfl

@[simp] theorem allows_hushed (w : World) (l : Location) (kind : LockKind) :
    w.hushed.allows l kind = w.allows l kind := by
  cases kind <;> rfl

variable (programs self) in
/-- What was printed and logged matters to no call that starts no program. -/
theorem answer_hushed {c : Call} (hc : c.StartsNothing) (w : World) :
    (w.hushed.answer programs self c).1 = (w.answer programs self c).1 ∧
      (w.hushed.answer programs self c).2.hushed = (w.answer programs self c).2.hushed := by
  have hchange (changed : Except Fault FileSystem) :
      (w.hushed.change changed).1 = (w.change changed).1 ∧
        (w.hushed.change changed).2.hushed = (w.change changed).2.hushed := by
    cases changed <;> exact ⟨rfl, rfl⟩
  cases c with
  | run program args => exact absurd (hc w) (List.cons_ne_nil _ _)
  | makeDir | touch | create | append | removeFile | removeTree => exact hchange _
  | workingDir | canonical | read | sync | processId | variable_ | accountHome | print | warn | log =>
    exact ⟨rfl, rfl⟩
  | kind path =>
    simp only [answer, hushed_files, hushed_cwd]
    rcases w.files.entry w.cwd path with fault | ⟨l, _ | _ | _⟩ <;> exact ⟨rfl, rfl⟩
  | rename source target =>
    simp only [answer, rename, hushed_files, hushed_cwd]
    rcases w.files.rename w.cwd source target with fault | files <;> exact ⟨rfl, rfl⟩
  | lock path kind =>
    simp only [answer, hushed_files, hushed_cwd, allows_hushed]
    rcases w.files.entry w.cwd path with fault | ⟨l, e⟩
    · exact ⟨rfl, rfl⟩
    · dsimp only
      cases w.allows l kind <;> exact ⟨rfl, rfl⟩
  | unlock path kind =>
    refine ⟨rfl, ?_⟩
    simp only [answer, hushed_files, hushed_cwd]
    rcases w.files.entry w.cwd path with fault | ⟨l, e⟩ <;> rfl
  | newFilter =>
    simp only [answer, hushed_files, hushed_cwd, filterPath_hushed]
    rcases w.files.makeFile w.cwd w.filterPath with fault | files <;> exact ⟨rfl, rfl⟩
  | key =>
    simp only [answer, hushed_keys]
    rcases w.keys with _ | _ | ⟨k, rest⟩ <;> exact ⟨rfl, rfl⟩

variable (programs self) in
/-- Two worlds that differ in nothing else are alike for a program that starts none. -/
theorem run_hushed {α : Type} {p : Program α} (hp : p.Asks Call.StartsNothing) {u v : World}
    (h : u.hushed = v.hushed) :
    (u.run programs self p).1 = (v.run programs self p).1 ∧
      (u.run programs self p).2.hushed = (v.run programs self p).2.hushed := by
  induction hp generalizing u v with
  | done a => exact ⟨rfl, h⟩
  | @call c hc next _ ih =>
    obtain ⟨hu, hu'⟩ := answer_hushed programs self hc u
    obtain ⟨hv, hv'⟩ := answer_hushed programs self hc v
    rw [h] at hu hu'
    have hrest := ih (u.answer programs self c).1 (hu'.symm.trans hv')
    rw [hu.symm.trans hv] at hrest
    simp only [run, hu.symm.trans hv]
    exact hrest

end World
end SelectiveSync
