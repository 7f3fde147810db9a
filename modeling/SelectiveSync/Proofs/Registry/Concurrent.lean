import SelectiveSync.Proofs.Registry.Persistence
import SelectiveSync.Proofs.System.Interleaving

/-! # Many processes on one registry

Processes load, save and update one registry, taking turns call by call, and any of them may stop
for good at any call. What the file holds is at all times what it would hold had the accesses that
replaced it been made one after the other, in the order in which they did so.

* `Access`: one use of the registry's file by a process, and what it makes of the file's content.
* `content_serial`: accesses made one after the other.
* `Agrees`: what a run with turns has in common with one without. `agrees_step` keeps it.
* `runs_waiting`: an update begins while another one holds the lock, and comes after it.
* `concurrent_accesses_serialize`: the run as a whole. -/
namespace SelectiveSync.Registry
set_option autoImplicit false

open Storage

/-! ## Accesses -/

/-- A change of the registry that changes nothing else but the log. -/
structure Change (ε α : Type) where
  task : Registry → Task ε (α × Registry)
  made : Registry → Except ε (α × Registry)
  quiet : ∀ r, (task r).run.Quiet (made r)

/-- One use of the registry's file. -/
inductive Access (ε α : Type) where
  | update (lift : Error → ε) (change : Change ε α)
  | save (r : Registry)
  | load

/-- How an access ended. -/
inductive Outcome (ε α : Type) where
  | updated (r : Except ε α)
  | saved (r : Except Error Unit)
  | loaded (r : Except Error Registry)

namespace Access

variable {ε α : Type}

def program (path : String) : Access ε α → Program (Outcome ε α)
  | update lift change => (Registry.update lift path change.task).run.bind fun r => .done (.updated r)
  | save r => (r.save path).run.bind fun r => .done (.saved r)
  | load => (Registry.load path).run.bind fun r => .done (.loaded r)

/-- What the file holds after the access, given what it held before. -/
def effect (name : String) : Access ε α → Option ByteArray → Option ByteArray
  | update lift change, content =>
    match changed lift name change.made content with
    | .ok (_, s) => some s.bytes
    | .error _ => content
  | save r, _ => some r.bytes
  | load, content => content

/-- What the access may put in place of a content. -/
def Commits (name : String) : Access ε α → Option ByteArray → ByteArray → Prop
  | update lift change, content, bytes =>
    ∃ a s, changed lift name change.made content = .ok (a, s) ∧ bytes = s.bytes
  | save r, _, bytes => bytes = r.bytes
  | load, _, _ => False

/-- What a process that made the access has seen and done. -/
def Ends (name : String) : Access ε α → Outcome ε α → Trail → Prop
  | update lift change, .updated r, tr => Updated lift name change.made r tr
  | save s, .saved r, tr => Saved name s r tr
  | load, .loaded r, tr => Loaded name r tr
  | _, _, _ => False

theorem effect_of_commits {name : String} {a : Access ε α} {content : Option ByteArray}
    {bytes : ByteArray} (h : a.Commits name content bytes) : a.effect name content = some bytes := by
  cases a with
  | update lift change =>
    obtain ⟨b, s, hs, rfl⟩ := h
    rw [effect, hs]
  | save r => rw [effect, h]
  | load => cases h

theorem follows (a : Access ε α) (path : String) (self : Nat) :
    Follows (NormalPath.ofText path).text self (a.Commits (NormalPath.ofText path).text)
      (a.Ends (NormalPath.ofText path).text) {} (a.program path) := by
  cases a with
  | update lift change =>
    have h : Follows (NormalPath.ofText path).text self
        (Commits (NormalPath.ofText path).text (.update lift change))
        (Updated lift (NormalPath.ofText path).text change.made) {}
        (Registry.update lift path change.task).run :=
      follows_update Trail.idle_start change.quiet fun _ a s hs => ⟨a, s, hs, rfl⟩
    rw [program]
    exact h.bind fun r tr hr => Follows.done hr
  | save s =>
    have h : Follows (NormalPath.ofText path).text self
        (Commits (NormalPath.ofText path).text (.save s : Access ε α))
        (Saved (NormalPath.ofText path).text s) {} (s.save path).run :=
      follows_save s path Trail.idle_start fun _ => rfl
    rw [program]
    exact h.bind fun r tr hr => Follows.done hr
  | load =>
    have h : Follows (NormalPath.ofText path).text self
        (Commits (NormalPath.ofText path).text (.load : Access ε α))
        (Loaded (NormalPath.ofText path).text) {} (Registry.load path).run :=
      follows_load path Trail.idle_start
    rw [program]
    exact h.bind fun r tr hr => Follows.done hr

end Access

/-! ## One access after the other -/

section
variable {ε α : Type} (programs : Executables) (path : String)
  (accesses : Nat → Option (Access ε α))

/-- The world after some processes made their accesses, one after the other. -/
def serial (order : List Nat) (w : World) : World :=
  order.foldl (fun w i =>
    match accesses i with
    | some a => (w.run programs i (a.program path)).2
    | none => w) w

/-- What the file holds after some processes made their accesses, one after the other. -/
def replay (order : List Nat) (content : Option ByteArray) : Option ByteArray :=
  order.foldl (fun content i =>
    match accesses i with
    | some a => a.effect (NormalPath.ofText path).text content
    | none => content) content

end

section
variable {ε α : Type} {programs : Executables} {path : String} {self : Nat} {w : World}
  {k l t : Location}

variable (programs) in
/-- An access that runs by itself, while nobody holds the lock, does to the file what it is for. -/
theorem run_access (a : Access ε α)
    (hsite : Sited w.files w.cwd (NormalPath.ofText path) self k l t) (hlocks : w.locks = []) :
    ∃ (r : Outcome ε α) (tr : Trail) (w' : World),
      w.run programs self (a.program path) = (r, w') ∧ tr.Alone w w' self k l t ∧
      w'.locks = [] ∧ w'.content k = a.effect (NormalPath.ofText path).text (w.content k) := by
  obtain ⟨r, tr, w', hrun, hends, halone⟩ := (a.follows path self).run_alone programs
    (NormalPath.canonical_ofText path) hsite (by simp [hlocks])
  have hallows (kind : LockKind) : w.allows l kind = true := by
    cases kind <;> simp [World.allows, hlocks]
  have hgranted : tr.refused ≠ true := by
    intro hrefused
    obtain ⟨kind, hkind⟩ := halone.refused hrefused
    rw [hallows kind] at hkind
    cases hkind
  refine ⟨r, tr, w', hrun, halone, ?_⟩
  have hcontent := halone.content
  have hheld := halone.locks
  rw [hlocks, List.append_nil] at hheld
  cases a with
  | update lift change =>
    cases r with
    | saved | loaded => cases hends
    | updated r =>
      obtain ⟨hback, ⟨e, -, hsame, hwhy⟩ | ⟨b, s, -, hmade, x, hx⟩⟩ := Updated.outcome hends halone
      · refine ⟨hback.trans hlocks, (World.content_congr hsame).trans ?_⟩
        rw [Access.effect, hwhy (hallows .exclusive)]
      · refine ⟨hback.trans hlocks, (World.content_of_file hx).trans ?_⟩
        rw [Access.effect, hmade]
  | save s =>
    cases r with
    | updated | loaded => cases hends
    | saved r =>
      obtain ⟨hfree, -, ⟨-, hrefused, -⟩ | ⟨-, hcommitted⟩⟩ := hends
      · exact absurd hrefused hgranted
      · rw [hfree] at hheld
        rw [hcommitted, Option.some_or] at hcontent
        exact ⟨hheld, hcontent⟩
  | load =>
    cases r with
    | updated | saved => cases hends
    | loaded r =>
      obtain ⟨hidle, -⟩ := hends
      rw [hidle.free] at hheld
      rw [hidle.fresh, Option.none_or] at hcontent
      exact ⟨hheld, hcontent⟩

end

/-- What accesses leave one after the other is what their effects make one after the other. -/
theorem content_serial {ε α : Type} {programs : Executables} {path : String} {w : World}
    {accesses : Nat → Option (Access ε α)} {k l : Location} {t : Nat → Location}
    (hsite : ∀ i a, accesses i = some a →
      Sited w.files w.cwd (NormalPath.ofText path) i k l (t i))
    (hlocks : w.locks = []) (order : List Nat) :
    (serial programs path accesses order w).content k =
      replay path accesses order (w.content k) := by
  induction order generalizing w with
  | nil => rfl
  | cons i order ih =>
    rw [serial, replay, List.foldl_cons, List.foldl_cons]
    cases ha : accesses i with
    | none => exact ih hsite hlocks
    | some a =>
      obtain ⟨r, tr, w', hrun, halone, hfree, hcontent⟩ :=
        run_access programs a (hsite i a ha) hlocks
      have hsite' : ∀ j b, accesses j = some b →
          Sited w'.files w'.cwd (NormalPath.ofText path) j k l (t j) := by
        intro j b hb
        rw [halone.cwd]
        exact (hsite j b hb).sameWays halone.ways
      simp only [hrun, ← hcontent]
      exact ih hsite' hfree

/-! ## Taking turns -/

/-- The process that puts something in place of the file. -/
def putter (name : String) : Happening → Option Nat
  | .call i c => if putsInPlace name c then some i else none
  | .stop _ => none

/-- The processes that put something in place of the file, the first one first. -/
def putters (name : String) (trace : List Happening) : List Nat :=
  trace.filterMap (putter name)

theorem putters_append (name : String) (trace later : List Happening) :
    putters name (trace ++ later) = putters name trace ++ putters name later :=
  List.filterMap_append

/-- Calls that put nothing in place. -/
theorem putters_calls {name : String} (i : Nat) {cs : List Call}
    (h : ∀ c ∈ cs, putsInPlace name c = false) : putters name (cs.map (.call i)) = [] := by
  rw [putters, List.filterMap_eq_nil_iff, List.forall_mem_map]
  intro c hc
  rw [putter, h c hc]
  rfl

section
variable {ε α : Type} {programs : Executables} {path : String} {w : World}
  {accesses : Nat → Option (Access ε α)} {k l : Location} {t : Nat → Location}

theorem replay_concat {before : List Nat} {i : Nat} {a : Access ε α} (ha : accesses i = some a)
    (content : Option ByteArray) :
    replay path accesses (before ++ [i]) content =
      a.effect (NormalPath.ofText path).text (replay path accesses before content) := by
  rw [replay, List.foldl_concat, ha]
  rfl

variable (path accesses k l t) in
/-- What a process has yet to do is what the protocol has it do after what it did and saw; and it saw
the file as it was after some of those who put something in place. -/
def Knows (content : Option ByteArray) (order : List Nat) (w : World) (i : Nat)
    (p : Program (Outcome ε α)) : Prop :=
  ∃ a tr, accesses i = some a ∧
    Follows (NormalPath.ofText path).text i (a.Commits (NormalPath.ofText path).text)
      (a.Ends (NormalPath.ofText path).text) tr p ∧
    tr.Fits w i k l (t i) ∧
    (∀ c ∈ tr.seen, ∃ before, before <+: order ∧ c = replay path accesses before content) ∧
    (tr.committed.isSome ↔ i ∈ order)

variable (path accesses k l t) in
/-- The processes have come to where those in `order`, one after the other, would have brought the
file that was there at first. -/
structure Agrees (w : World) (order : List Nat) (s : Processes (Outcome ε α)) : Prop where
  ways : w.files.SameWays s.world.files
  cwd : s.world.cwd = w.cwd
  once : order.Nodup
  made : ∀ before i, before ++ [i] <+: order → ∃ a bytes, accesses i = some a ∧
    a.Commits (NormalPath.ofText path).text (replay path accesses before (w.content k)) bytes
  content : s.world.content k = replay path accesses order (w.content k)
  known : ∀ i p, s.program i = some p →
    Knows path accesses k l t (w.content k) order s.world i p

variable {order order' : List Nat} {s : Processes (Outcome ε α)}

theorem Agrees.sited (h : Agrees path accesses k l t w order s)
    (hsite : ∀ i a, accesses i = some a →
      Sited w.files w.cwd (NormalPath.ofText path) i k l (t i)) (i : Nat) (a : Access ε α)
    (ha : accesses i = some a) :
    Sited s.world.files s.world.cwd (NormalPath.ofText path) i k l (t i) := by
  rw [h.cwd]
  exact (hsite i a ha).sameWays h.ways

/-- What a call does to the file is known from whether it is one that puts something in place. -/
theorem content_of_moves {mayCommit : Option ByteArray → ByteArray → Prop} {i : Nat} {u : Location}
    {tr tr' : Trail} {w w' : World} {puts : Bool}
    (h : Moves mayCommit i k l u (tr, w) (tr', w')) (hne : k ≠ l ∧ k ≠ u ∧ l ≠ u)
    (hfits : tr.Fits w i k l u) (hfresh : puts = true → tr.committed = none)
    (hputs : tr'.committed.isSome = (tr.committed.isSome || puts)) :
    (puts = false ∧ w'.content k = w.content k) ∨
      (puts = true ∧ ∃ bytes, mayCommit (w.content k) bytes ∧ w'.content k = some bytes) := by
  rcases h.content hne with ⟨hsame, hcontent⟩ | ⟨content, bytes, hhold, hnone, hmay, hsome, hcontent⟩
  · refine Or.inl ⟨?_, hcontent⟩
    cases puts with
    | false => rfl
    | true =>
      rw [hsame, hfresh rfl] at hputs
      cases hputs
  · refine Or.inr ⟨?_, bytes, ?_, hcontent⟩
    · rw [hsome, hnone] at hputs
      exact hputs.symm
    · rw [(hfits.held content hhold).1]
      exact hmay

variable (order') in
/-- After a call everybody knows as much as before, and who made it knows what came of it. -/
theorem knows_after_call (hsite : ∀ i a, accesses i = some a →
      Sited w.files w.cwd (NormalPath.ofText path) i k l (t i))
    (h : Agrees path accesses k l t w order s) {i : Nat} {a : Access ε α} {tr tr' : Trail}
    {w' : World} {p' : Program (Outcome ε α)} (ha : accesses i = some a)
    (hfits : tr.Fits s.world i k l (t i))
    (hseen : ∀ c ∈ tr.seen, ∃ before, before <+: order ∧
      c = replay path accesses before (w.content k))
    (hmove : Moves (a.Commits (NormalPath.ofText path).text) i k l (t i) (tr, s.world) (tr', w'))
    (hrest : Follows (NormalPath.ofText path).text i (a.Commits (NormalPath.ofText path).text)
      (a.Ends (NormalPath.ofText path).text) tr' p')
    (hlater : order <+: order') (hothers : ∀ j, j ≠ i → (j ∈ order' ↔ j ∈ order))
    (hmine : tr'.committed.isSome ↔ i ∈ order') (j : Nat) (p : Program (Outcome ε α))
    (hp : Function.update s.program i (some p') j = some p) :
    Knows path accesses k l t (w.content k) order' w' j p := by
  have hpath := NormalPath.canonical_ofText path
  have hmover := h.sited hsite i a ha
  have hplaces := hmover.places_differ hpath
  have hkeep {seen : List (Option ByteArray)} (hseen : ∀ c ∈ seen, ∃ before, before <+: order ∧
      c = replay path accesses before (w.content k)) (c : Option ByteArray) (hc : c ∈ seen) :
      ∃ before, before <+: order' ∧ c = replay path accesses before (w.content k) := by
    obtain ⟨before, hbefore, hc⟩ := hseen c hc
    exact ⟨before, hbefore.trans hlater, hc⟩
  by_cases hj : j = i
  · subst hj
    rw [Function.update_self, Option.some_inj] at hp
    subst hp
    refine ⟨a, tr', ha, hrest, hmove.fits hplaces hfits, ?_, hmine⟩
    rcases hmove.seen with hsame | ⟨-, hmore⟩
    · rw [hsame]
      exact hkeep hseen
    · rw [hmore, List.forall_mem_cons]
      exact ⟨⟨order, hlater, h.content⟩, hkeep hseen⟩
  · rw [Function.update_of_ne hj] at hp
    obtain ⟨b, trail, hb, hfollows, hknown, hseen', hcommitted⟩ := h.known j p hp
    have hother := h.sited hsite j b hb
    obtain ⟨-, hku, hlu⟩ := hother.places_differ hpath
    have htu := hmover.new_differ hpath hother.new (Ne.symm hj)
    refine ⟨b, trail, hb, hfollows, ?_, hkeep hseen', hcommitted.trans (hothers j hj).symm⟩
    exact hmove.fits_other hplaces hku hlu htu (Ne.symm hj) hfits hknown

theorem agrees_call (hsite : ∀ i a, accesses i = some a →
      Sited w.files w.cwd (NormalPath.ofText path) i k l (t i))
    (h : Agrees path accesses k l t w order s) {i : Nat} {c : Call}
    {next : c.Reply → Program (Outcome ε α)} (hp : s.program i = some (.call c next)) :
    Agrees path accesses k l t w
      (order ++ (putter (NormalPath.ofText path).text (.call i c)).toList)
      ⟨(s.world.answer programs i c).2,
        Function.update s.program i (some (next (s.world.answer programs i c).1))⟩ := by
  have hpath := NormalPath.canonical_ofText path
  obtain ⟨a, tr, ha, hfollows, hfits, hseen, hmine⟩ := h.known i _ hp
  have hmover := h.sited hsite i a ha
  obtain ⟨tr', hmove, hrest, hputs⟩ := hfollows.step programs hpath hmover hfits
  have hways := h.ways.trans hmove.ways.1
  have hcwd := hmove.ways.2.trans h.cwd
  have hknown (later : List Nat) := knows_after_call later hsite h ha hfits hseen hmove hrest
  rcases content_of_moves hmove (hmover.places_differ hpath) hfits hfollows.fresh hputs with
    ⟨hput, hcontent⟩ | ⟨hput, bytes, hmay, hcontent⟩
  · have hnone : putter (NormalPath.ofText path).text (.call i c) = none := by
      rw [putter, hput]
      rfl
    rw [hput, Bool.or_false] at hputs
    rw [hnone, Option.toList_none, List.append_nil]
    refine ⟨hways, hcwd, h.once, h.made, hcontent.trans h.content, ?_⟩
    exact hknown order List.prefix_rfl (fun _ _ => Iff.rfl) (hputs ▸ hmine)
  · have hsome : putter (NormalPath.ofText path).text (.call i c) = some i := by
      rw [putter, hput]
      rfl
    have hnew : i ∉ order := by
      rw [← hmine, hfollows.fresh hput]
      exact Bool.false_ne_true
    rw [h.content] at hmay
    rw [hsome, Option.toList_some]
    refine ⟨hways, hcwd, ?_, fun before j hbefore => ?_, ?_, ?_⟩
    · exact List.nodup_append.2 ⟨h.once, List.nodup_singleton i, by
        rintro x hx y hy rfl
        exact hnew (List.mem_singleton.1 hy ▸ hx)⟩
    · rcases List.prefix_concat_iff.1 hbefore with hwhole | hbefore
      · obtain ⟨rfl, hj⟩ := List.append_inj' hwhole rfl
        cases hj
        exact ⟨a, bytes, ha, hmay⟩
      · exact h.made before j hbefore
    · rw [replay_concat ha, Access.effect_of_commits hmay]
      exact hcontent
    · refine hknown _ (List.prefix_append _ _) (fun j hj => ?_) ?_
      · rw [List.mem_append, List.mem_singleton]
        exact or_iff_left hj
      · rw [hputs, hput, Bool.or_true]
        exact iff_of_true rfl (by simp)

/-- The stop of a process takes nothing from what the others know. -/
theorem fits_after_stop {i j : Nat} {u : Location} {tr : Trail} (hne : j ≠ i)
    (h : tr.Fits w j k l u) :
    tr.Fits { w with locks := w.locks.filter fun x => x.owner ≠ i } j k l u := by
  refine ⟨fun x hx => h.clear x (List.mem_of_mem_filter hx), h.touched, fun c hc => ?_, h.new⟩
  obtain ⟨hcontent, hmem, honly⟩ := h.held c hc
  refine ⟨hcontent, ?_, fun x hx => honly x (List.mem_of_mem_filter hx)⟩
  exact List.mem_filter.2 ⟨hmem, decide_eq_true hne⟩

theorem agrees_stop (h : Agrees path accesses k l t w order s) (i : Nat) :
    Agrees path accesses k l t w order
      ⟨{ s.world with locks := s.world.locks.filter fun x => x.owner ≠ i },
        Function.update s.program i none⟩ := by
  refine ⟨h.ways, h.cwd, h.once, h.made, h.content, fun j p hp => ?_⟩
  have hp : Function.update s.program i none j = some p := hp
  by_cases hj : j = i
  · subst hj
    rw [Function.update_self] at hp
    cases hp
  · rw [Function.update_of_ne hj] at hp
    obtain ⟨a, tr, ha, hfollows, hfits, hseen, hcommitted⟩ := h.known j p hp
    exact ⟨a, tr, ha, hfollows, fits_after_stop hj hfits, hseen, hcommitted⟩

theorem agrees_step (hsite : ∀ i a, accesses i = some a →
      Sited w.files w.cwd (NormalPath.ofText path) i k l (t i))
    (h : Agrees path accesses k l t w order s) {e : Happening} {s' : Processes (Outcome ε α)}
    (hstep : Processes.Step programs s e s') :
    Agrees path accesses k l t w (order ++ (putter (NormalPath.ofText path).text e).toList) s' := by
  cases hstep with
  | call hp => exact agrees_call hsite h hp
  | @stop i p hp =>
    have hnone : putter (NormalPath.ofText path).text (.stop i) = none := rfl
    rw [hnone, Option.toList_none, List.append_nil]
    exact agrees_stop h i

theorem agrees_start (hlocks : w.locks = []) :
    Agrees path accesses k l t w [] ⟨w, fun i => (accesses i).map (Access.program path)⟩ := by
  refine ⟨FileSystem.SameWays.refl _, rfl, List.nodup_nil, fun before i hbefore => ?_, rfl,
    fun i p hp => ?_⟩
  · have hnil := List.prefix_nil.1 hbefore
    simp at hnil
  · obtain ⟨a, ha, rfl⟩ := Option.map_eq_some_iff.1 hp
    have halone : ({} : Trail).Alone w w i k l (t i) := Trail.alone_start (by simp [hlocks])
    exact ⟨a, {}, ha, a.follows path i, halone.fits, by simp, by simp⟩

theorem agrees_runs (hsite : ∀ i a, accesses i = some a →
      Sited w.files w.cwd (NormalPath.ofText path) i k l (t i)) (hlocks : w.locks = [])
    {trace : List Happening} (hruns : Processes.Runs programs
      ⟨w, fun i => (accesses i).map (Access.program path)⟩ trace s) :
    Agrees path accesses k l t w (putters (NormalPath.ofText path).text trace) s := by
  induction hruns with
  | start => exact agrees_start hlocks
  | @step trace s' s'' e _ hstep ih =>
    have hlast : [e].filterMap (putter (NormalPath.ofText path).text) =
        (putter (NormalPath.ofText path).text e).toList := by
      cases he : putter (NormalPath.ofText path).text e <;> simp [he]
    rw [putters_append, putters, putters, hlast]
    exact agrees_step hsite ih hstep

end

/-! ## An update that waits for another -/

/-- Whoever asks for a lock has only touched its file before. -/
theorem reaches_acquire (programs : Executables) (self : Nat) (name : String) (kind : LockKind) :
    ∃ next, ∀ w : World, w.answer programs self (.touch (lockPath name)) = (.ok (), w) →
      (Storage.acquire name kind).run.Reaches programs self w [.touch (lockPath name)]
        (.call (.lock (lockPath name) kind) next) w := by
  let tell (granted : Bool) : FileTask Unit := do
    unless granted do
      Task.log (Storage.event .warn "lock acquisition timed out"
        [("path", name), ("kind", lockName kind)])
      throw (.locked name)
  exact ⟨fun granted => (tell granted).run, fun w h => Program.reaches_ask h⟩

/-- An update gets to where it asks for the lock without a change of the world, if the lock has a file.
What is left of it there is the same from every such world. -/
theorem reaches_lock {ε α : Type} (programs : Executables) (lift : Error → ε) (change : Change ε α)
    (path : String) (self : Nat) (k l t : Location) :
    let name := (NormalPath.ofText path).text
    ∃ next : Bool → Program (Outcome ε α), ∀ (w : World) (e : Entry),
      Sited w.files w.cwd (NormalPath.ofText path) self k l t → w.files.get? l = some e →
      ∃ cs, (Access.program path (.update lift change)).Reaches programs self w cs
          (.call (.lock (lockPath name) .exclusive) next) w ∧
        .touch (lockPath name) ∈ cs ∧ ∀ c ∈ cs, putsInPlace name c = false := by
  intro name
  obtain ⟨next, hacquire⟩ := reaches_acquire programs self name .exclusive
  let held (_ : Unit) : FileTask LockedFile := do
    Task.log (Storage.event .trace "holding exclusive lock" [("path", name)])
    return ⟨name⟩
  let locked (f : LockedFile) : Task ε α :=
    (updateLocked lift path f change.task).finally_ f.release
  let after (granted : Bool) : Program (Outcome ε α) :=
    ((((next granted).bind (ExceptT.bindCont held)).bind fun out =>
      .done (out.mapError (lift ∘ Error.file))).bind (ExceptT.bindCont locked)).bind fun r =>
        .done (.updated r)
  refine ⟨after, ?_⟩
  intro w e hsite hlock
  have hparent : w.run programs self (makeParent name).run = (.ok (), w) :=
    run_makeParent_sited (NormalPath.canonical_ofText path) hsite
  obtain ⟨cs, hmade⟩ := Program.reaches_of_run hparent
  have hasks := (hacquire w (World.touch_there hsite.lock hlock)).andThen_call held
  have hacquired : (LockedFile.acquire (NormalPath.ofText path)).run.Reaches programs self w
      (cs ++ [.touch (lockPath name)]) _ w :=
    (hmade.andThen fun _ => Storage.acquire name .exclusive >>= held).trans hasks
  have hupdate := (hacquired.mapError_call (lift ∘ Error.file)).andThen_call locked
  have hwhole := hupdate.bind fun r => .done (.updated r : Outcome ε α)
  refine ⟨_, hwhole, List.mem_append_right _ (List.mem_singleton_self _), fun c hc => ?_⟩
  rcases List.mem_append.1 hc with hc | hc
  · cases hmade.asked (asks_makeParent name) c hc <;> rfl
  · rw [List.mem_singleton.1 hc]
    rfl

/-- An update gets to hold the lock, if nobody does and the lock has a file. -/
theorem reaches_taken {ε α : Type} (programs : Executables) (lift : Error → ε) (change : Change ε α)
    {path : String} {self : Nat} {w : World} {k l t : Location} {e : Entry}
    (hsite : Sited w.files w.cwd (NormalPath.ofText path) self k l t) (hlocks : w.locks = [])
    (hlock : w.files.get? l = some e) :
    let name := (NormalPath.ofText path).text
    ∃ (cs : List Call) (rest : Program (Outcome ε α)),
      (Access.program path (.update lift change)).Reaches programs self w cs rest
        { w with locks := [⟨l, .exclusive, self⟩] } ∧
      .lock (lockPath name) .exclusive ∈ cs ∧ ∀ c ∈ cs, putsInPlace name c = false := by
  intro name
  obtain ⟨next, hreach⟩ := reaches_lock programs lift change path self k l t
  obtain ⟨cs, hasks, -, hputs⟩ := hreach w e hsite hlock
  have hallows : w.allows l .exclusive = true := by simp [World.allows, hlocks]
  have htake : w.answer programs self (.lock (lockPath name) .exclusive) =
      (true, { w with locks := [⟨l, .exclusive, self⟩] }) := by
    rw [World.lock_at hsite.lock hlock, if_pos hallows, hlocks]
  refine ⟨_, _, hasks.trans (Program.reaches_call htake),
    List.mem_append_right _ (List.mem_singleton_self _), List.forall_mem_append.2 ⟨hputs, ?_⟩⟩
  exact List.forall_mem_singleton.2 rfl

/-- An update by itself that is given the lock and whose change succeeds. -/
theorem run_update_of_changed {ε α : Type} (programs : Executables) (lift : Error → ε)
    (change : Change ε α) {path : String} {self : Nat} {w : World} {k l t : Location} {a : α}
    {s : Registry}
    (hsite : Sited w.files w.cwd (NormalPath.ofText path) self k l t) (hlocks : w.locks = [])
    (hmade : changed lift (NormalPath.ofText path).text change.made (w.content k) = .ok (a, s)) :
    ∃ w', w.run programs self (Access.program path (.update lift change)) =
        (.updated (.ok a), w') ∧
      w.files.SameWays w'.files ∧ w'.cwd = w.cwd ∧ w'.locks = [] ∧
      (∀ e, w.files.get? l = some e → w'.files.get? l = some e) ∧
      w'.content k = some s.bytes := by
  obtain ⟨r, tr, w', hrun, hends, halone⟩ :=
    ((Access.update lift change).follows path self).run_alone programs
      (NormalPath.canonical_ofText path) hsite (by simp [hlocks])
  cases r with
  | saved | loaded => cases hends
  | updated r =>
    obtain ⟨hback, ⟨e, -, -, hwhy⟩ | ⟨b, s', rfl, hmade', x, hx⟩⟩ := Updated.outcome hends halone
    · have hallows : w.allows l .exclusive = true := by simp [World.allows, hlocks]
      have hfails := hwhy hallows
      rw [hmade] at hfails
      cases hfails
    · rw [hmade] at hmade'
      cases hmade'
      exact ⟨w', hrun, halone.ways, halone.cwd, hback.trans hlocks, halone.lock,
        World.content_of_file hx⟩

/-- An update may take the lock, and another one get to where it asks for it, before both go on to
their ends. The second then works on what the first has left. -/
theorem runs_waiting {ε α : Type} (programs : Executables) {lift : Error → ε} {c₁ c₂ : Change ε α}
    {path : String} {i j : Nat} {w : World} {k l t₁ t₂ : Location} {e : Entry} {a₁ a₂ : α}
    {s₁ s₂ : Registry} {program : Nat → Option (Program (Outcome ε α))} (hne : j ≠ i)
    (hsite₁ : Sited w.files w.cwd (NormalPath.ofText path) i k l t₁)
    (hsite₂ : Sited w.files w.cwd (NormalPath.ofText path) j k l t₂)
    (hlocks : w.locks = []) (hlock : w.files.get? l = some e)
    (hmade₁ : changed lift (NormalPath.ofText path).text c₁.made (w.content k) = .ok (a₁, s₁))
    (hmade₂ : changed lift (NormalPath.ofText path).text c₂.made (some s₁.bytes) = .ok (a₂, s₂))
    (hi : program i = some (Access.program path (.update lift c₁)))
    (hj : program j = some (Access.program path (.update lift c₂))) :
    let name := (NormalPath.ofText path).text
    ∃ (held rest : List Happening) (s : Processes (Outcome ε α)),
      Processes.Runs programs ⟨w, program⟩ (held ++ rest) s ∧
      [.call i (.lock (lockPath name) .exclusive), .call j (.touch (lockPath name))].Sublist held ∧
      putters name held = [] ∧
      s.program i = some (.done (.updated (.ok a₁))) ∧
      s.program j = some (.done (.updated (.ok a₂))) ∧
      s.world.content k = some s₂.bytes := by
  intro name
  -- what each of them comes to, the second after the first
  obtain ⟨w₁, hrun₁, hways, hcwd, hfree, hleft, hcontent₁⟩ :=
    run_update_of_changed programs lift c₁ hsite₁ hlocks hmade₁
  have hsite₂' : Sited w₁.files w₁.cwd (NormalPath.ofText path) j k l t₂ := by
    rw [hcwd]
    exact hsite₂.sameWays hways
  rw [← hcontent₁] at hmade₂
  obtain ⟨w₂, hrun₂, -, -, -, -, hcontent₂⟩ :=
    run_update_of_changed programs lift c₂ hsite₂' hfree hmade₂
  -- the first takes the lock, the second gets to where it asks for it
  obtain ⟨cs₁, p₁, htaken, htakes, hputs₁⟩ := reaches_taken programs lift c₁ hsite₁ hlocks hlock
  obtain ⟨next₂, hreach₂⟩ := reaches_lock programs lift c₂ path j k l t₂
  obtain ⟨cs₂, hasks₂, htouches, hputs₂⟩ :=
    hreach₂ { w with locks := [⟨l, .exclusive, i⟩] } e hsite₂ hlock
  -- the rest of each
  obtain ⟨cs₃, hends₁⟩ := Program.reaches_of_run (htaken.run.trans hrun₁)
  obtain ⟨_, hwaits, -, -⟩ := hreach₂ w₁ e hsite₂' (hleft e hlock)
  obtain ⟨cs₄, hends₂⟩ := Program.reaches_of_run (hwaits.run.trans hrun₂)
  have hasked := (Processes.runs_of_reaches htaken hi).trans
    (Processes.runs_of_reaches hasks₂ ((Function.update_of_ne hne _ program).trans hj))
  have hended := hasked.trans (Processes.Runs.trans
    (Processes.runs_of_reaches hends₁
      ((Function.update_of_ne hne.symm _ _).trans (Function.update_self i _ _)))
    (Processes.runs_of_reaches hends₂
      ((Function.update_of_ne hne _ _).trans (Function.update_self j _ _))))
  refine ⟨_, _, _, hended, ?_, ?_, ?_, Function.update_self j _ _, hcontent₂⟩
  · exact List.Sublist.append (List.singleton_sublist.2 (List.mem_map_of_mem htakes))
      (List.singleton_sublist.2 (List.mem_map_of_mem htouches))
  · rw [putters_append, putters_calls i hputs₁, putters_calls j hputs₂, List.append_nil]
  · exact (Function.update_of_ne hne.symm _ _).trans (Function.update_self i _ _)

/-! ## Runs -/

section
variable {ε α : Type} {programs : Executables} {path : String} {w : World}
  {accesses : Nat → Option (Access ε α)} {k l : Location} {t : Nat → Location}
  {order : List Nat} {s : Processes (Outcome ε α)}

/-- What the file holds came from a registry, unless it is what it held at first. -/
theorem content_of_agrees (h : Agrees path accesses k l t w order s) (hne : order ≠ []) :
    ∃ r : Registry, s.world.content k = some r.bytes := by
  obtain ⟨before, i, rfl⟩ := (List.eq_nil_or_concat order).resolve_left hne
  rw [List.concat_eq_append] at h
  obtain ⟨a, bytes, ha, hmay⟩ := h.made before i List.prefix_rfl
  rw [h.content, replay_concat ha, Access.effect_of_commits hmay]
  cases a with
  | update lift change =>
    obtain ⟨b, r, -, rfl⟩ := hmay
    exact ⟨r, rfl⟩
  | save r => exact ⟨r, congrArg some hmay⟩
  | load => cases hmay

/-- A process at its end. -/
theorem ends_of_agrees (h : Agrees path accesses k l t w order s) {i : Nat} {o : Outcome ε α}
    (ho : s.program i = some (.done o)) :
    ∃ a tr, accesses i = some a ∧ a.Ends (NormalPath.ofText path).text o tr ∧
      (∀ c ∈ tr.seen, ∃ before, before <+: order ∧
        c = replay path accesses before (w.content k)) ∧
      (tr.committed.isSome ↔ i ∈ order) := by
  obtain ⟨a, tr, ha, hfollows, -, hseen, hmine⟩ := h.known i _ ho
  cases hfollows with
  | done hends => exact ⟨a, tr, ha, hends, hseen, hmine⟩

/-- An update or a saving succeeds just when it put something in place of the file. -/
theorem mem_of_ends (h : Agrees path accesses k l t w order s) {i : Nat} :
    (∀ r, s.program i = some (.done (.updated r)) → (i ∈ order ↔ r.isOk)) ∧
      ∀ r, s.program i = some (.done (.saved r)) → (i ∈ order ↔ r.isOk) := by
  constructor
  · intro r hr
    obtain ⟨a, tr, -, hends, -, hmine⟩ := ends_of_agrees h hr
    rw [← hmine]
    cases a with
    | save | load => cases hends
    | update lift change =>
      obtain ⟨-, -, ⟨rfl, -, hnone⟩ | ⟨c, -, ⟨e, -, rfl, hnone⟩ | ⟨b, made, -, rfl, hsome⟩⟩⟩ := hends
      · rw [hnone]
        rfl
      · rw [hnone]
        rfl
      · rw [hsome]
        rfl
  · intro r hr
    obtain ⟨a, tr, -, hends, -, hmine⟩ := ends_of_agrees h hr
    rw [← hmine]
    cases a with
    | update | load => cases hends
    | save made =>
      obtain ⟨-, -, ⟨rfl, -, hnone⟩ | ⟨rfl, hsome⟩⟩ := hends
      · rw [hnone]
        rfl
      · rw [hsome]
        rfl

/-- What was loaded is what the file stood for after some of those who put something in place. -/
theorem stored_of_loaded (h : Agrees path accesses k l t w order s) {i : Nat} {r : Registry}
    (hr : s.program i = some (.done (.loaded (.ok r)))) :
    ∃ before bytes, before <+: order ∧ replay path accesses before (w.content k) = some bytes ∧
      stored (NormalPath.ofText path).text (some bytes) = .ok r := by
  obtain ⟨a, tr, -, hends, hseen, -⟩ := ends_of_agrees h hr
  cases a with
  | update | save => cases hends
  | load =>
    obtain ⟨-, ⟨hnot, -⟩ | ⟨⟨e, hnot⟩, -⟩ | ⟨bytes, hstored, hmem⟩⟩ := hends
    · cases hnot
    · cases hnot
    · obtain ⟨before, hbefore, hcontent⟩ := hseen _ hmem
      exact ⟨before, bytes, hbefore, hcontent.symm, hstored.symm⟩

/-- Processes update, save and load one registry's file, each at its own pace, and any of them may
stop for good between two calls. Whenever one looks, the file is not there or holds the whole of a
text that was put in its place, and it holds what it would hold had those who put something in place
been the only ones, one running to its end before the next begins. Each of these works on what the
one before it has left; and who was told that its update or saving succeeded is one of them. What is
loaded is the registry that the file stood for at some such point. -/
theorem concurrent_accesses_serialize
    (hsite : ∀ i a, accesses i = some a →
      Sited w.files w.cwd (NormalPath.ofText path) i k l (t i))
    (hlocks : w.locks = []) {trace : List Happening}
    (hruns : Processes.Runs programs ⟨w, fun i => (accesses i).map (Access.program path)⟩ trace s) :
    let name := (NormalPath.ofText path).text
    let order := putters name trace
    let after (before : List Nat) := (serial programs path accesses before w).content k
    s.world.content k = after order ∧
      (w.files.HoldsFile k → s.world.files.HoldsFile k) ∧
      (order ≠ [] → ∃ r : Registry, s.world.content k = some r.bytes) ∧
      order.Nodup ∧
      (∀ before i, before ++ [i] <+: order → ∃ a bytes, accesses i = some a ∧
        a.Commits name (after before) bytes ∧ after (before ++ [i]) = some bytes) ∧
      (∀ i r, s.program i = some (.done (.updated r)) → (i ∈ order ↔ r.isOk)) ∧
      (∀ i r, s.program i = some (.done (.saved r)) → (i ∈ order ↔ r.isOk)) ∧
      ∀ i r, s.program i = some (.done (.loaded (.ok r))) → ∃ before bytes, before <+: order ∧
        after before = some bytes ∧ stored name (some bytes) = .ok r := by
  intro name order after
  have hagrees : Agrees path accesses k l t w order s := agrees_runs hsite hlocks hruns
  have hafter (before : List Nat) : after before = replay path accesses before (w.content k) :=
    content_serial hsite hlocks before
  refine ⟨(hafter order).symm ▸ hagrees.content, ?_, content_of_agrees hagrees, hagrees.once, ?_,
    fun i => (mem_of_ends hagrees).1, fun i => (mem_of_ends hagrees).2, ?_⟩
  · exact hagrees.ways.holdsFile
  · intro before i hbefore
    obtain ⟨a, bytes, ha, hmay⟩ := hagrees.made before i hbefore
    refine ⟨a, bytes, ha, (hafter before).symm ▸ hmay, ?_⟩
    rw [hafter, replay_concat ha]
    exact Access.effect_of_commits hmay
  · intro i r hr
    obtain ⟨before, bytes, hbefore, hcontent, hstored⟩ := stored_of_loaded hagrees hr
    exact ⟨before, bytes, hbefore, (hafter before).trans hcontent, hstored⟩

end

/-! ## Two processes that each add a target -/

/-- Makes some edits, one after the other. -/
def Change.ofEdits (edits : List Edit) : Change Error (List String) where
  task := Edit.performAll edits
  made := Edit.applyAll edits
  quiet := Edit.quiet_performAll edits

def additions : Nat → Option (Access Error (List String))
  | 1 => some (.update id (.ofEdits [.add "h:/m/" "/m"]))
  | 2 => some (.update id (.ofEdits [.add "h:/n/" "/n"]))
  | _ => none

/-- A world with a lock that nobody holds, and no registry yet. -/
def unlocked : World where
  files := ⟨[(["targets.toml.lock"], .file .empty false)]⟩

theorem get?_unlocked : unlocked.files.get? ["targets.toml.lock"] = some (.file .empty false) := by
  simp [FileSystem.get?, unlocked]

theorem sited_unlocked (i : Nat) (a : Access Error (List String)) (ha : additions i = some a) :
    Sited unlocked.files unlocked.cwd (NormalPath.ofText "/targets.toml") i ["targets.toml"]
      ["targets.toml.lock"] [".targets.toml." ++ toString i ++ ".tmp"] := by
  have hi : i ∈ [1, 2] := by
    unfold additions at ha
    split at ha
    · simp
    · simp
    · cases ha
  have hfile {m : Location} (hm : m ≠ []) : unlocked.files.HoldsFile m := by
    intro e he
    rw [FileSystem.get?, if_neg hm, unlocked, FileSystem.lookup_cons] at he
    split at he
    · cases he
      exact ⟨_, _, rfl⟩
    · cases he
  exact Sample.sited unlocked.cwd hi (hfile (by simp)) (hfile (by simp)) (hfile (by simp))

/-- Of two processes that each add a target, the second begins while the first holds the lock, and has
its turn after it. Both succeed, and both targets are in the file. -/
theorem concurrent_accesses_serialize_sample :
    let name := (NormalPath.ofText "/targets.toml").text
    let both := after {} [.add "h:/m/" "/m", .add "h:/n/" "/n"]
    ∃ (held rest : List Happening) (s : Processes (Outcome Error (List String))),
      Processes.Runs Sample.idle
        ⟨unlocked, fun i => (additions i).map (Access.program "/targets.toml")⟩ (held ++ rest) s ∧
      [.call 1 (.lock (lockPath name) .exclusive), .call 2 (.touch (lockPath name))].Sublist held ∧
      putters name held = [] ∧ (∀ i ∈ [1, 2], i ∈ putters name rest) ∧
      s.world.content ["targets.toml"] = some both.bytes ∧
      (serial Sample.idle "/targets.toml" additions (putters name (held ++ rest)) unlocked).content
        ["targets.toml"] = some both.bytes := by
  intro name both
  let one := after {} [.add "h:/m/" "/m"]
  obtain ⟨hs, hw⟩ : one.Sorted ∧ one.WellFormed :=
    ⟨sorted_empty.after _, wellFormed_empty.after _⟩
  have hnone : unlocked.content ["targets.toml"] = none :=
    World.content_of_none (by simp [FileSystem.get?, unlocked, List.lookup])
  have hfirst : changed id name (Change.ofEdits [.add "h:/m/" "/m"]).made none =
      .ok (["/m"], one) := by
    have hadd : Edit.applyAll [.add "h:/m/" "/m"] {} = .ok (["/m"], one) := by decide +kernel
    exact hadd
  have hsecond : changed id name (Change.ofEdits [.add "h:/n/" "/n"]).made (some one.bytes) =
      .ok (["/n"], both) := by
    have hadd : Edit.applyAll [.add "h:/n/" "/n"] one = .ok (["/n"], both) := by decide +kernel
    rw [changed, stored_bytes, ofToml_toToml hs hw]
    exact hadd
  rw [← hnone] at hfirst
  let start (i : Nat) : Option (Program (Outcome Error (List String))) :=
    (additions i).map (Access.program "/targets.toml")
  have hstart₁ : start 1 = some (Access.program "/targets.toml"
      (.update id (.ofEdits [.add "h:/m/" "/m"]))) := rfl
  have hstart₂ : start 2 = some (Access.program "/targets.toml"
      (.update id (.ofEdits [.add "h:/n/" "/n"]))) := rfl
  have hne : (2 : Nat) ≠ 1 := by decide
  have hsite₁ := sited_unlocked 1 _ rfl
  have hsite₂ := sited_unlocked 2 _ rfl
  obtain ⟨held, rest, s, hruns, hturns, hheld, hended₁, hended₂, hcontent⟩ :=
    runs_waiting Sample.idle hne hsite₁ hsite₂ rfl get?_unlocked hfirst hsecond hstart₁ hstart₂
  obtain ⟨hserial, -, -, -, -, hsucceeded, -⟩ :=
    concurrent_accesses_serialize sited_unlocked rfl hruns
  have hputs : ∀ i ∈ [1, 2], i ∈ putters name (held ++ rest) := by
    intro i hi
    rcases List.mem_pair.1 hi with rfl | rfl
    · exact (hsucceeded 1 _ hended₁).2 rfl
    · exact (hsucceeded 2 _ hended₂).2 rfl
  have hrest : putters name (held ++ rest) = putters name rest := by
    rw [putters_append, hheld, List.nil_append]
  exact ⟨held, rest, s, hruns, hturns, hheld, hrest ▸ hputs, hcontent, hserial.symm.trans hcontent⟩

end SelectiveSync.Registry
