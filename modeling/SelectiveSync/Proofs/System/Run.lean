import SelectiveSync.Proofs.System.Places
import SelectiveSync.System.World

/-! # Runs of tasks in a world

* `run_bind_ok` and `run_bind_error`: a task goes on in the world that the one before it left, or
  ends with that one's failure.
* `answer_newFilter` and `answer_append`: a file made for directives is empty, and what is written
  to the end of a file is read after what was in it.
* `touch_at` and its neighbours: what calls on a path that leads to a file do at its location.
* `Program.Quiet`: a program that changes nothing but the log, and `run_quiet`.
* `Program.Asks`: what a program may ask, and `run_asks`: what it keeps of the world.
* `World.Calls`: which calls are made in the course of a run, and in which worlds. -/
namespace SelectiveSync
set_option autoImplicit false

/-- The call removes files. -/
def Call.removes : Call → Bool
  | .removeFile _ | .removeTree _ => true
  | _ => false

/-- The program changes nothing but the log and ends with `a`, whatever paths lead to. -/
inductive Program.Quiet {α : Type} (a : α) : Program α → Prop
  | done : Quiet a (.done a)
  | log (e : Event) {next : Unit → Program α} (h : Quiet a (next ())) :
      Quiet a (.call (.log e) next)
  | kind (path : String) {next : Option Kind → Program α} (h : ∀ r, Quiet a (next r)) :
      Quiet a (.call (.kind path) next)

/-- All that the program asks, whatever it is answered, is as `asked` says. -/
inductive Program.Asks {α : Type} (asked : Call → Prop) : Program α → Prop
  | done (a : α) : Asks asked (.done a)
  | call {c : Call} (hc : asked c) {next : c.Reply → Program α} (h : ∀ r, Asks asked (next r)) :
      Asks asked (.call c next)

theorem Program.Asks.bind {α β : Type} {asked : Call → Prop} {p : Program α}
    {next : α → Program β} (hp : p.Asks asked) (hnext : ∀ a, (next a).Asks asked) :
    (p.bind next).Asks asked := by
  induction hp with
  | done a => exact hnext a
  | call hc _ ih => exact .call hc ih

theorem Program.Asks.andThen {ε α β : Type} {asked : Call → Prop} {t : Task ε α}
    {next : α → Task ε β} (ht : t.run.Asks asked) (hnext : ∀ a, (next a).run.Asks asked) :
    (t >>= next).run.Asks asked := by
  refine ht.bind fun r => ?_
  cases r with
  | ok a => exact hnext a
  | error e => exact .done _

theorem Program.Asks.mapError {δ ε α : Type} {asked : Call → Prop} {t : Task δ α} {f : δ → ε}
    (ht : t.run.Asks asked) : (t.mapError f).run.Asks asked :=
  ht.bind fun _ => .done _

theorem Program.Asks.lift {ε α : Type} {asked : Call → Prop} {p : Program α} (hp : p.Asks asked) :
    (ExceptT.lift p : Task ε α).run.Asks asked :=
  hp.bind fun _ => .done _

theorem Program.Asks.check {δ ε α β : Type} {asked : Call → Prop} {f : δ → ε} {r : Except δ α}
    {next : α → Task ε β} (hnext : ∀ a, (next a).run.Asks asked) :
    (Task.check f r >>= next).run.Asks asked := by
  cases r with
  | ok a => exact hnext a
  | error e => exact .done _

theorem Program.Quiet.bind {α β : Type} {a : α} {b : β} {p : Program α} {next : α → Program β}
    (hp : p.Quiet a) (hnext : (next a).Quiet b) : (p.bind next).Quiet b := by
  induction hp with
  | done => exact hnext
  | log e _ ih => exact .log e ih
  | kind path _ ih => exact .kind path ih

namespace World

variable {programs : Executables} {self : Nat}

/-! ## One task after another -/

theorem run_bind {α β : Type} (p : Program α) (next : α → Program β) (w : World) :
    w.run programs self (p.bind next) =
      (w.run programs self p).2.run programs self (next (w.run programs self p).1) := by
  induction p generalizing w with
  | done a => rfl
  | call c rest ih =>
    rw [Program.bind, run, run]
    exact ih _ _

section
variable {ε α β : Type} {t : Task ε α} {w w' : World}

theorem run_bind_ok {a : α} (h : w.run programs self t.run = (.ok a, w')) (next : α → Task ε β) :
    w.run programs self (t >>= next).run = w'.run programs self (next a).run := by
  have hbind : w.run programs self (t.run.bind (ExceptT.bindCont next)) = _ :=
    run_bind t.run (ExceptT.bindCont next) w
  rw [h] at hbind
  exact hbind

/-- Two worlds from which a task comes to the same end are alike for whatever follows it. -/
theorem run_bind_congr (h : w.run programs self t.run = w'.run programs self t.run)
    (next : α → Task ε β) :
    w.run programs self (t >>= next).run = w'.run programs self (t >>= next).run := by
  have hbind (v : World) : v.run programs self (t.run.bind (ExceptT.bindCont next)) = _ :=
    run_bind t.run (ExceptT.bindCont next) v
  exact (hbind w).trans (h ▸ (hbind w').symm)

theorem run_bind_error {e : ε} (h : w.run programs self t.run = (.error e, w'))
    (next : α → Task ε β) : w.run programs self (t >>= next).run = (.error e, w') := by
  have hbind : w.run programs self (t.run.bind (ExceptT.bindCont next)) = _ :=
    run_bind t.run (ExceptT.bindCont next) w
  rw [h] at hbind
  exact hbind

end

theorem run_ask {ε : Type} {c : Call} {r : c.Reply} {w w' : World}
    (h : w.answer programs self c = (r, w')) :
    w.run programs self (Task.ask c : Task ε c.Reply).run = (.ok r, w') := by
  have hrun : w.run programs self (Task.ask c : Task ε c.Reply).run =
      (.ok (w.answer programs self c).1, (w.answer programs self c).2) := rfl
  rw [hrun, h]

theorem run_check_ok {δ ε α : Type} (f : δ → ε) (a : α) (w : World) :
    w.run programs self (Task.check f (.ok a)).run = (.ok a, w) := rfl

theorem run_mapError {δ ε α : Type} {f : δ → ε} {t : Task δ α} {w w' : World} {r : Except δ α}
    (h : w.run programs self t.run = (r, w')) :
    w.run programs self (t.mapError f).run = (r.mapError f, w') := by
  have hbind : w.run programs self (t.mapError f).run = _ :=
    run_bind t.run (fun r => Program.done (r.mapError f)) w
  rw [h] at hbind
  exact hbind

theorem run_mapError_congr {δ ε α : Type} {t : Task δ α} {w w' : World}
    (h : w.run programs self t.run = w'.run programs self t.run) (f : δ → ε) :
    w.run programs self (t.mapError f).run = w'.run programs self (t.mapError f).run :=
  (run_mapError rfl).trans (h ▸ (run_mapError rfl).symm)

theorem run_lift {ε α : Type} {p : Program α} {a : α} {w w' : World}
    (h : w.run programs self p = (a, w')) :
    w.run programs self (ExceptT.lift p : Task ε α).run = (.ok a, w') := by
  have hbind : w.run programs self (ExceptT.lift p : Task ε α).run = _ :=
    run_bind p (fun a => Program.done (Except.ok a : Except ε α)) w
  rw [h] at hbind
  exact hbind

/-- To ask what a path leads to changes nothing. -/
theorem answer_kind_keeps (path : String) (w : World) :
    (w.answer programs self (.kind path)).2 = w := by
  rw [answer]
  split <;> rfl

/-- What a path leads to is there just when the path leads to an entry. -/
theorem answer_kind_isSome (path : String) (w : World) :
    (w.answer programs self (.kind path)).1.isSome = (w.files.entry w.cwd path).isOk := by
  rw [answer]
  split <;> next h => rw [h]; rfl

theorem run_exists {ε α : Type} (path : String) (next : Bool → Task ε α) (w : World) :
    w.run programs self (Task.exists_ path >>= next).run =
      w.run programs self (next (w.files.entry w.cwd path).isOk).run := by
  have hrun : w.run programs self (Task.exists_ path >>= next).run =
      World.run programs self (next (w.answer programs self (.kind path)).1.isSome).run
        (w.answer programs self (.kind path)).2 := rfl
  rw [hrun, answer_kind_isSome, answer_kind_keeps]

/-- A quiet program ends the same way in every world and changes only the log. -/
theorem run_quiet {α : Type} {p : Program α} {a : α} (h : p.Quiet a) (w : World) :
    ∃ log, w.run programs self p = (a, { w with log }) := by
  induction h generalizing w with
  | done => exact ⟨w.log, rfl⟩
  | log e _ ih => exact ih { w with log := w.log ++ [e] }
  | @kind path next _ ih =>
    have hkeep : (w.answer programs self (.kind path)).2 = w := answer_kind_keeps path w
    obtain ⟨log, hrun⟩ := ih (w.answer programs self (.kind path)).1 w
    refine ⟨log, ?_⟩
    rw [run]
    simp only [hkeep, hrun]

/-- What every call keeps of a world, a whole program keeps. -/
theorem run_asks {α : Type} {asked : Call → Prop} {keeps : World → World → Prop}
    (hrefl : ∀ w, keeps w w) (htrans : ∀ {u v w}, keeps u v → keeps v w → keeps u w)
    (hcall : ∀ c, asked c → ∀ w, keeps w (w.answer programs self c).2) {p : Program α}
    (h : p.Asks asked) (w : World) : keeps w (w.run programs self p).2 := by
  induction h generalizing w with
  | done a => exact hrefl w
  | call hc _ ih => exact htrans (hcall _ hc w) (ih _ _)

/-! ## Calls in the course of a run -/

/-- In the course of the program the call `c` is made in the world `w'`. -/
inductive Calls {α : Type} (programs : Executables) (self : Nat) :
    World → Program α → World → Call → Prop
  | here {w : World} {c : Call} {next : c.Reply → Program α} :
      Calls programs self w (.call c next) w c
  | later {w w' : World} {c c' : Call} {next : c.Reply → Program α}
      (h : Calls programs self (w.answer programs self c).2
        (next (w.answer programs self c).1) w' c') :
      Calls programs self w (.call c next) w' c'

section
variable {w w' : World} {c : Call}

theorem calls_bind {α β : Type} {p : Program α} {next : α → Program β}
    (h : w.Calls programs self (p.bind next) w' c) :
    w.Calls programs self p w' c ∨
      (w.run programs self p).2.Calls programs self (next (w.run programs self p).1) w' c := by
  induction p generalizing w with
  | done a => exact Or.inr h
  | call c₀ rest ih =>
    cases h with
    | here => exact Or.inl .here
    | later h => exact (ih _ h).imp_left .later

variable {ε α β : Type} {t : Task ε α}

theorem calls_andThen {next : α → Task ε β} (h : w.Calls programs self (t >>= next).run w' c) :
    w.Calls programs self t.run w' c ∨
      ∃ a w₁, w.run programs self t.run = (.ok a, w₁) ∧
        w₁.Calls programs self (next a).run w' c := by
  refine (calls_bind h).imp_right fun hrest => ?_
  have hrest : (w.run programs self t.run).2.Calls programs self
      (ExceptT.bindCont next (w.run programs self t.run).1) w' c := hrest
  cases hrun : w.run programs self t.run with
  | mk r w₁ =>
    rw [hrun] at hrest
    cases r with
    | ok a => exact ⟨a, w₁, rfl, hrest⟩
    | error e => cases hrest

theorem calls_mapError {δ : Type} {f : ε → δ}
    (h : w.Calls programs self (t.mapError f).run w' c) : w.Calls programs self t.run w' c := by
  rcases calls_bind h with h | h
  · exact h
  · cases h

theorem calls_ask {c₀ : Call}
    (h : w.Calls programs self (Task.ask c₀ : Task ε c₀.Reply).run w' c) : w' = w ∧ c = c₀ := by
  cases h with
  | here => exact ⟨rfl, rfl⟩
  | later h => cases h

theorem asked_of_calls {p : Program α} {asked : Call → Prop} (hp : p.Asks asked)
    (h : w.Calls programs self p w' c) : asked c := by
  induction h with
  | here =>
    cases hp with
    | call hc _ => exact hc
  | later _ ih =>
    cases hp with
    | call _ hnext => exact ih (hnext _)

end

/-! ## Files -/

theorem answer_newFilter {w : World} {file : String}
    (h : (w.answer programs self .newFilter).1 = .ok file) :
    ∃ files : FileSystem, w.answer programs self .newFilter = (.ok file, { w with files }) ∧
      files.read w.cwd file = .ok .empty := by
  cases hmake : w.files.makeFile w.cwd w.filterPath with
  | error fault =>
    rw [answer, hmake] at h
    cases h
  | ok files =>
    have hanswer : w.answer programs self .newFilter = (.ok w.filterPath, { w with files }) := by
      rw [answer, hmake]
    rw [hanswer, Except.ok.injEq] at h
    subst h
    exact ⟨files, hanswer, FileSystem.read_makeFile hmake⟩

theorem answer_append (programs : Executables) (self : Nat) {w : World} {path : String}
    {old : ByteArray} (h : w.files.read w.cwd path = .ok old) (bytes : ByteArray) :
    ∃ files : FileSystem, w.answer programs self (.append path bytes) = (.ok (), { w with files }) ∧
      files.read w.cwd path = .ok (old ++ bytes) := by
  obtain ⟨l, files, hopen, hread⟩ := FileSystem.openWith_of_read h (· ++ bytes)
  refine ⟨files, ?_, hread⟩
  rw [answer, hopen]
  rfl

/-! ## Calls on paths that lead to files -/

section
variable {w : World} {path : String} {l : Location}

theorem kind_at (h : w.files.LeadsTo w.cwd path l) :
    w.answer programs self (.kind path) = ((w.files.get? l).map fun _ => Kind.file, w) := by
  rw [answer]
  cases he : w.files.get? l with
  | none => rw [h.entry_of_none he, Option.map_none]
  | some e =>
    obtain ⟨bytes, x, rfl⟩ := h.holdsFile e he
    rw [h.entry_of_some he, Option.map_some]

theorem read_at (h : w.files.LeadsTo w.cwd path l) {bytes : ByteArray} {x : Bool}
    (he : w.files.get? l = some (.file bytes x)) :
    w.answer programs self (.read path) = (.ok bytes, w) := by
  rw [answer, h.read_of_some he]

/-- A file that is opened for writing keeps its place, and so do all others. -/
theorem change_at (h : w.files.LeadsTo w.cwd path l) (bytes : ByteArray) (x : Bool) :
    w.files.SameWays (w.files.insert l (.file bytes x)) ∧
      ∀ m, (w.files.insert l (.file bytes x)).get? m =
        if m = l then some (.file bytes x) else w.files.get? m :=
  ⟨FileSystem.sameWays_insert h.ne_nil h.holdsFile bytes x,
    FileSystem.get?_insert w.files h.ne_nil _⟩

theorem touch_at (h : w.files.LeadsTo w.cwd path l) :
    ∃ files, w.answer programs self (.touch path) = (.ok (), { w with files }) ∧
      w.files.SameWays files ∧
      ∀ m, files.get? m =
        if m = l then some ((w.files.get? l).getD (.file .empty false)) else w.files.get? m := by
  rw [answer]
  cases he : w.files.get? l with
  | none =>
    rw [h.openWith_of_none he]
    exact ⟨_, rfl, change_at h .empty false⟩
  | some e =>
    obtain ⟨bytes, x, rfl⟩ := h.holdsFile e he
    rw [h.openWith_of_some he]
    exact ⟨_, rfl, change_at h bytes x⟩

/-- To touch a file that is there changes nothing. -/
theorem touch_there (h : w.files.LeadsTo w.cwd path l) {e : Entry} (he : w.files.get? l = some e) :
    w.answer programs self (.touch path) = (.ok (), w) := by
  obtain ⟨bytes, x, rfl⟩ := h.holdsFile e he
  have hsame : w.files.insert l (.file (id bytes) x) = w.files :=
    FileSystem.insert_of_get? h.ne_nil he
  rw [answer, h.openWith_of_some he, hsame]
  rfl

theorem create_at (h : w.files.LeadsTo w.cwd path l) :
    ∃ files x, w.answer programs self (.create path) = (.ok (), { w with files }) ∧
      w.files.SameWays files ∧
      ∀ m, files.get? m = if m = l then some (.file .empty x) else w.files.get? m := by
  obtain ⟨x, hopen⟩ := h.openWith_eq fun _ => .empty
  rw [answer, hopen]
  exact ⟨_, x, rfl, change_at h .empty x⟩

theorem append_at (h : w.files.LeadsTo w.cwd path l) {bytes : ByteArray} {x : Bool}
    (he : w.files.get? l = some (.file bytes x)) (more : ByteArray) :
    ∃ files, w.answer programs self (.append path more) = (.ok (), { w with files }) ∧
      w.files.SameWays files ∧
      ∀ m, files.get? m = if m = l then some (.file (bytes ++ more) x) else w.files.get? m := by
  rw [answer, h.openWith_of_some he]
  exact ⟨_, rfl, change_at h (bytes ++ more) x⟩

theorem rename_at (h : w.files.LeadsTo w.cwd path l) {target : String} {k : Location}
    (hk : w.files.LeadsTo w.cwd target k) (hne : l ≠ k) {bytes : ByteArray} {x : Bool}
    (he : w.files.get? l = some (.file bytes x)) :
    ∃ files, w.answer programs self (.rename path target) =
        (.ok (), { w with files, locks := movedLocks w.locks l k }) ∧
      w.files.SameWays files ∧
      ∀ m, files.get? m =
        if m = k then some (.file bytes x) else if m = l then none else w.files.get? m := by
  have herase := FileSystem.sameWays_erase h.ne_nil h.holdsFile
  have hold := herase.holdsFile hk.holdsFile
  refine ⟨(w.files.erase l).insert k (.file bytes x), ?_,
    herase.trans (FileSystem.sameWays_insert hk.ne_nil hold bytes x), fun m => ?_⟩
  · obtain ⟨place, hplace, hl, -⟩ := h.locate_eq false
    obtain ⟨place', hplace', hk', -⟩ := hk.locate_eq false
    rw [answer, World.rename, h.rename hk hne he, hplace, hplace']
    simp only [hl, hk', if_neg hne]
  · rw [FileSystem.get?_insert _ hk.ne_nil, FileSystem.get?_erase _ h.ne_nil]

theorem lock_at (h : w.files.LeadsTo w.cwd path l) {e : Entry} (he : w.files.get? l = some e)
    (kind : LockKind) :
    w.answer programs self (.lock path kind) =
      if w.allows l kind then (true, { w with locks := ⟨l, kind, self⟩ :: w.locks })
      else (false, w) := by
  rw [answer, h.entry_of_some he]

theorem unlock_at (h : w.files.LeadsTo w.cwd path l) {e : Entry} (he : w.files.get? l = some e)
    (kind : LockKind) :
    w.answer programs self (.unlock path kind) =
      ((), { w with locks := w.locks.erase ⟨l, kind, self⟩ }) := by
  rw [answer, h.entry_of_some he]

end

/-! ## Removals -/

variable {w : World} {c : Call}

/-- The call takes away what is at the location. -/
def TakesAway (programs : Executables) (self : Nat) (w : World) (c : Call) (l : Location) : Prop :=
  ∃ e, w.files.get? l = some e ∧ (w.answer programs self c).2.files.get? l ≠ some e

/-- What a removal takes away is at the location that its path leads to, or beneath. -/
theorem removed_beneath {p : String} (hc : c = .removeFile p ∨ c = .removeTree p) {l : Location}
    (htakes : w.TakesAway programs self c l) :
    ∃ o x, w.files.locate w.cwd false p = .ok (.found o x) ∧ o <+: l := by
  obtain ⟨e, he, hgone⟩ := htakes
  have hresult : ∃ r : Except Fault FileSystem, (w.answer programs self c).2 = (w.change r).2 ∧
      ∀ files, r = .ok files →
        w.files.removeFile w.cwd p = .ok files ∨ w.files.removeTree w.cwd p = .ok files := by
    rcases hc with rfl | rfl
    · exact ⟨_, rfl, fun _ => Or.inl⟩
    · exact ⟨_, rfl, fun _ => Or.inr⟩
  obtain ⟨r, hanswer, hr⟩ := hresult
  rw [hanswer] at hgone
  cases r with
  | error fault => exact absurd he hgone
  | ok files =>
    obtain ⟨o, x, hplace, hkept⟩ := FileSystem.kept_of_remove (hr files rfl)
    refine ⟨o, x, hplace, Decidable.byContradiction fun hnot => hgone ?_⟩
    exact (hkept l hnot).trans he

end World

/-- Programs that do nothing. -/
def Sample.idle : Executables := fun _ _ _ w => (.ok none, w)

end SelectiveSync
