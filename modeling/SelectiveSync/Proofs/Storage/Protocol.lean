import SelectiveSync.Proofs.System.Run
import SelectiveSync.Storage.File

/-! # The protocol of a shared file

All processes that use a file keep to one protocol, which this module says call by call: what a
process may ask, and what answers it has to reckon with, given what it did and saw so far.

* `Trail`: what a process has done to a file and seen of it.
* `Follows`: a program keeps to the protocol from a trail on, and what it ends with.
* `follows_withLock`, `follows_replace` and their neighbours: the tasks on files keep to it.

Nothing here speaks of files and locks as they are in a world. That the answers are those of every
world, alone or among other processes, is left to the modules that build on this one. -/
namespace SelectiveSync.Storage
set_option autoImplicit false

/-! ## What a process did and saw -/

/-- The lock that a process holds on a file, and beside the exclusive one what the file holds, since
nobody else may put anything in its place. -/
inductive Hold where
  | free
  | shared
  | exclusive (content : Option ByteArray)

namespace Hold

def kind? : Hold → Option LockKind
  | free => none
  | shared => some .shared
  | exclusive _ => some .exclusive

end Hold

structure Trail where
  /-- The lock has a file. -/
  touched : Bool := false
  hold : Hold := .free
  /-- The lock was asked for and not given. -/
  refused : Bool := false
  /-- What the file held whenever the process looked, the last time first. -/
  seen : List (Option ByteArray) := []
  /-- What the process's own file for new content holds, once that was made. -/
  new : Option ByteArray := none
  /-- What the process put in place of the file. -/
  committed : Option ByteArray := none

namespace Trail

def touch (tr : Trail) : Trail := { tr with touched := true }

def refuse (tr : Trail) : Trail := { tr with refused := true }

def see (tr : Trail) (content : Option ByteArray) : Trail :=
  { tr with seen := content :: tr.seen }

/-- Who takes the lock for itself alone knows what the file holds. -/
def take (tr : Trail) (content : Option ByteArray) : LockKind → Trail
  | .shared => { tr with hold := .shared }
  | .exclusive => { tr with hold := .exclusive content, seen := content :: tr.seen }

def free (tr : Trail) : Trail := { tr with hold := .free }

def write (tr : Trail) (bytes : ByteArray) : Trail := { tr with new := some bytes }

def commit (tr : Trail) (bytes : ByteArray) : Trail :=
  { tr with hold := .exclusive (some bytes), new := none, committed := some bytes }

/-- The file may hold this, as far as the process can tell. -/
def Allows (tr : Trail) (content : Option ByteArray) : Prop :=
  ∀ c, tr.hold = .exclusive c → content = c

/-- The process holds no lock and has put nothing in place of the file. -/
structure Idle (tr : Trail) : Prop where
  free : tr.hold = .free
  unwritten : tr.new = none
  fresh : tr.committed = none

/-- The process holds the lock for itself alone, knows what the file holds, and has put nothing in
its place yet. -/
structure Owns (tr : Trail) (content : Option ByteArray) : Prop where
  touched : tr.touched = true
  hold : tr.hold = .exclusive content
  seen : content ∈ tr.seen
  unwritten : tr.new = none
  fresh : tr.committed = none

theorem idle_start : ({} : Trail).Idle :=
  ⟨rfl, rfl, rfl⟩

theorem Idle.see {tr : Trail} (h : tr.Idle) (content : Option ByteArray) : (tr.see content).Idle :=
  ⟨h.free, h.unwritten, h.fresh⟩

theorem Idle.owns {tr : Trail} (h : tr.Idle) (content : Option ByteArray) :
    (tr.touch.take content .exclusive).Owns content :=
  ⟨rfl, rfl, List.mem_cons_self, h.unwritten, h.fresh⟩

theorem Owns.see {tr : Trail} {content : Option ByteArray} (h : tr.Owns content) :
    (tr.see content).Owns content :=
  ⟨h.touched, h.hold, List.mem_cons_self, h.unwritten, h.fresh⟩

end Trail

/-- The answer to whoever reads the file. -/
def readReply : Option ByteArray → Except Fault ByteArray
  | some bytes => .ok bytes
  | none => .error .noEntry

/-- Whether a call puts something in place of the file. -/
def putsInPlace (path : String) : Call → Bool
  | .rename _ target => target = path
  | _ => false

/-! ## The protocol -/

/-- The program of process `self` keeps to the protocol of the file and ends as `post` says. What it
puts in place of the file is what `mayCommit` allows, given what the file held. -/
inductive Follows {α : Type} (path : String) (self : Nat)
    (mayCommit : Option ByteArray → ByteArray → Prop) (post : α → Trail → Prop) :
    Trail → Program α → Prop
  | done {tr : Trail} {a : α} (h : post a tr) : Follows path self mayCommit post tr (.done a)
  | log {tr : Trail} (e : Event) {next : Unit → Program α}
      (h : Follows path self mayCommit post tr (next ())) :
      Follows path self mayCommit post tr (.call (.log e) next)
  | processId {tr : Trail} {next : Nat → Program α}
      (h : Follows path self mayCommit post tr (next self)) :
      Follows path self mayCommit post tr (.call .processId next)
  | kind {tr : Trail} (other : String) {next : Option Kind → Program α}
      (h : ∀ r, Follows path self mayCommit post tr (next r)) :
      Follows path self mayCommit post tr (.call (.kind other) next)
  /-- The directory of the file is there. -/
  | makeParent {tr : Trail} {dir : String} (hdir : WrittenPath.parent? path = some dir)
      (hne : dir ≠ "") {next : Except Fault Unit → Program α}
      (h : Follows path self mayCommit post tr (next (.error .exists_))) :
      Follows path self mayCommit post tr (.call (.makeDir dir) next)
  | kindOfParent {tr : Trail} {dir : String} (hdir : WrittenPath.parent? path = some dir)
      (hne : dir ≠ "") {next : Option Kind → Program α}
      (h : Follows path self mayCommit post tr (next (some .directory))) :
      Follows path self mayCommit post tr (.call (.kind dir) next)
  | look {tr : Trail} (hfresh : tr.committed = none) {next : Option Kind → Program α}
      (h : ∀ content, tr.Allows content →
        Follows path self mayCommit post (tr.see content) (next (content.map fun _ => .file))) :
      Follows path self mayCommit post tr (.call (.kind path) next)
  | read {tr : Trail} (hfresh : tr.committed = none) {next : Except Fault ByteArray → Program α}
      (h : ∀ content, tr.Allows content →
        Follows path self mayCommit post (tr.see content) (next (readReply content))) :
      Follows path self mayCommit post tr (.call (.read path) next)
  | touch {tr : Trail} {next : Except Fault Unit → Program α}
      (h : Follows path self mayCommit post tr.touch (next (.ok ()))) :
      Follows path self mayCommit post tr (.call (.touch (lockPath path)) next)
  | lock {tr : Trail} (kind : LockKind) (htouched : tr.touched = true) (hfree : tr.hold = .free)
      (hfresh : tr.committed = none) {next : Bool → Program α}
      (hrefuse : Follows path self mayCommit post tr.refuse (next false))
      (htake : ∀ content, Follows path self mayCommit post (tr.take content kind) (next true)) :
      Follows path self mayCommit post tr (.call (.lock (lockPath path) kind) next)
  | unlock {tr : Trail} {kind : LockKind} (htouched : tr.touched = true)
      (hhold : tr.hold.kind? = some kind) {next : Unit → Program α}
      (h : Follows path self mayCommit post tr.free (next ())) :
      Follows path self mayCommit post tr (.call (.unlock (lockPath path) kind) next)
  | create {tr : Trail} {next : Except Fault Unit → Program α}
      (h : Follows path self mayCommit post (tr.write .empty) (next (.ok ()))) :
      Follows path self mayCommit post tr (.call (.create (newPath path self)) next)
  | append {tr : Trail} {old : ByteArray} (hnew : tr.new = some old) (more : ByteArray)
      {next : Except Fault Unit → Program α}
      (h : Follows path self mayCommit post (tr.write (old ++ more)) (next (.ok ()))) :
      Follows path self mayCommit post tr (.call (.append (newPath path self) more) next)
  | sync {tr : Trail} (other : String) {next : Except Fault Unit → Program α}
      (h : Follows path self mayCommit post tr (next (.ok ()))) :
      Follows path self mayCommit post tr (.call (.sync other) next)
  | rename {tr : Trail} {content : Option ByteArray} {bytes : ByteArray}
      (hhold : tr.hold = .exclusive content) (hnew : tr.new = some bytes)
      (hfresh : tr.committed = none) (hmay : mayCommit content bytes)
      {next : Except Fault Unit → Program α}
      (h : Follows path self mayCommit post (tr.commit bytes) (next (.ok ()))) :
      Follows path self mayCommit post tr (.call (.rename (newPath path self) path) next)

namespace Follows

variable {path : String} {self : Nat} {mayCommit : Option ByteArray → ByteArray → Prop}
  {tr : Trail}

theorem bind {α β : Type} {mid : α → Trail → Prop} {post : β → Trail → Prop} {p : Program α}
    {next : α → Program β} (hp : Follows path self mayCommit mid tr p)
    (hnext : ∀ a tr', mid a tr' → Follows path self mayCommit post tr' (next a)) :
    Follows path self mayCommit post tr (p.bind next) := by
  induction hp with
  | done h => exact hnext _ _ h
  | log e _ ih => exact .log e ih
  | processId _ ih => exact .processId ih
  | kind other _ ih => exact .kind other ih
  | makeParent hdir hne _ ih => exact .makeParent hdir hne ih
  | kindOfParent hdir hne _ ih => exact .kindOfParent hdir hne ih
  | look hfresh _ ih => exact .look hfresh ih
  | read hfresh _ ih => exact .read hfresh ih
  | touch _ ih => exact .touch ih
  | lock kind htouched hfree hfresh _ _ ihrefuse ihtake =>
    exact .lock kind htouched hfree hfresh ihrefuse ihtake
  | unlock htouched hhold _ ih => exact .unlock htouched hhold ih
  | create _ ih => exact .create ih
  | append hnew more _ ih => exact .append hnew more ih
  | sync other _ ih => exact .sync other ih
  | rename hhold hnew hfresh hmay _ ih => exact .rename hhold hnew hfresh hmay ih

/-- Nobody puts something in place of the file twice. -/
theorem fresh {α : Type} {post : α → Trail → Prop} {c : Call} {next : c.Reply → Program α}
    (h : Follows path self mayCommit post tr (.call c next)) (hputs : putsInPlace path c = true) :
    tr.committed = none := by
  cases h with
  | rename _ _ hfresh => exact hfresh
  | _ => cases hputs

theorem mono {α : Type} {mid post : α → Trail → Prop} {p : Program α}
    (hp : Follows path self mayCommit mid tr p) (h : ∀ a tr', mid a tr' → post a tr') :
    Follows path self mayCommit post tr p := by
  have hbind := bind hp fun a tr' hmid => .done (h a tr' hmid)
  rwa [Program.bind_done] at hbind

/-- Programs that change nothing but the log keep to every protocol. -/
theorem of_quiet {α : Type} {post : α → Trail → Prop} {p : Program α} {a : α} (hp : p.Quiet a)
    (h : post a tr) : Follows path self mayCommit post tr p := by
  induction hp with
  | done => exact .done h
  | log e _ ih => exact .log e ih
  | kind other _ ih => exact .kind other ih

/-! ## Tasks -/

section
variable {ε α β : Type}

theorem mapError {δ : Type} {f : δ → ε} {mid : Except δ α → Trail → Prop}
    {post : Except ε α → Trail → Prop} {t : Task δ α}
    (ht : Follows path self mayCommit mid tr t.run)
    (h : ∀ r tr', mid r tr' → post (r.mapError f) tr') :
    Follows path self mayCommit post tr (t.mapError f).run :=
  bind ht fun r tr' hr => .done (h r tr' hr)

theorem andThen {mid : Except ε α → Trail → Prop} {post : Except ε β → Trail → Prop} {t : Task ε α}
    {next : α → Task ε β} (ht : Follows path self mayCommit mid tr t.run)
    (hok : ∀ a tr', mid (.ok a) tr' → Follows path self mayCommit post tr' (next a).run)
    (herror : ∀ e tr', mid (.error e) tr' → post (.error e) tr') :
    Follows path self mayCommit post tr (t >>= next).run := by
  refine bind ht fun r tr' hr => ?_
  cases r with
  | ok a => exact hok a tr' hr
  | error e => exact .done (herror e tr' hr)

theorem check {δ : Type} {f : δ → ε} {post : Except ε β → Trail → Prop} {r : Except δ α}
    {next : α → Task ε β}
    (hok : ∀ a, r = .ok a → Follows path self mayCommit post tr (next a).run)
    (herror : ∀ e, r = .error e → post (.error (f e)) tr) :
    Follows path self mayCommit post tr (Task.check f r >>= next).run := by
  cases r with
  | ok a => exact hok a rfl
  | error e => exact .done (herror e rfl)

theorem lift {post : Except ε β → Trail → Prop} {p : Program α} {a : α} {next : α → Task ε β}
    (hp : p.Quiet a) (h : Follows path self mayCommit post tr (next a).run) :
    Follows path self mayCommit post tr ((ExceptT.lift p : Task ε α) >>= next).run := by
  have hlift : Follows path self mayCommit (fun r tr' => r = .ok a ∧ tr' = tr) tr
      (ExceptT.lift p : Task ε α).run := by
    have hquiet : Follows path self mayCommit (fun b tr' => b = a ∧ tr' = tr) tr p :=
      of_quiet hp ⟨rfl, rfl⟩
    refine hquiet.bind ?_
    rintro _ _ ⟨rfl, rfl⟩
    exact .done ⟨rfl, rfl⟩
  refine andThen hlift ?_ ?_
  · rintro _ _ ⟨hr, rfl⟩
    cases hr
    exact h
  · rintro _ _ ⟨hr, -⟩
    cases hr

theorem finally_ {mid post : Except ε α → Trail → Prop} {t : Task ε α} {after : Program Unit}
    (ht : Follows path self mayCommit mid tr t.run)
    (hafter : ∀ r tr', mid r tr' →
      Follows path self mayCommit (fun _ tr'' => post r tr'') tr' after) :
    Follows path self mayCommit post tr (t.finally_ after).run :=
  bind ht fun r tr' hr => bind (hafter r tr' hr) fun _ _ h => .done h

end

end Follows

/-! ## Tasks on the file -/

section
variable {path : String} {self : Nat} {mayCommit : Option ByteArray → ByteArray → Prop}
  {tr : Trail}

theorem follows_makeDirWith {dir : String} (hdir : WrittenPath.parent? path = some dir)
    (hne : dir ≠ "") (above : String → Task Fault Unit) :
    Follows path self mayCommit (fun r tr' => r = .ok () ∧ tr' = tr) tr
      (makeDirWith above dir).run := by
  unfold makeDirWith
  rw [if_neg hne]
  refine Follows.makeParent hdir hne ?_
  refine Follows.kindOfParent hdir hne ?_
  exact Follows.done ⟨rfl, rfl⟩

/-- Directories that are there are made no more, whatever is above them. -/
theorem follows_makeDirs {dir : String} (hdir : WrittenPath.parent? path = some dir)
    (hne : dir ≠ "") :
    Follows path self mayCommit (fun r tr' => r = .ok () ∧ tr' = tr) tr (makeDirs dir).run := by
  rw [makeDirs]
  cases (WrittenPath.parts dir).length with
  | zero => exact follows_makeDirWith hdir hne _
  | succ fuel => exact follows_makeDirWith hdir hne _

theorem follows_makeParent :
    Follows path self mayCommit (fun r tr' => r = .ok () ∧ tr' = tr) tr (makeParent path).run := by
  unfold makeParent
  split
  · next dir hdir =>
    split
    · exact Follows.done ⟨rfl, rfl⟩
    · next hne =>
      refine Follows.mapError (follows_makeDirs hdir hne) ?_
      rintro r tr' ⟨rfl, rfl⟩
      exact ⟨rfl, rfl⟩
  · exact Follows.done ⟨rfl, rfl⟩

theorem follows_acquire (kind : LockKind) (hfree : tr.hold = .free) (hfresh : tr.committed = none) :
    Follows path self mayCommit
      (fun r tr' => (r = .error (.locked path) ∧ tr' = tr.touch.refuse) ∨
        ∃ content, r = .ok () ∧ tr' = tr.touch.take content kind)
      tr (acquire path kind).run := by
  have htouched : tr.touch.touched = true := rfl
  have hfree' : tr.touch.hold = .free := hfree
  refine Follows.touch ?_
  refine Follows.lock kind htouched hfree' hfresh ?_ fun content => ?_
  · refine Follows.log _ ?_
    exact Follows.done (Or.inl ⟨rfl, rfl⟩)
  · exact Follows.done (Or.inr ⟨content, rfl, rfl⟩)

theorem follows_release {kind : LockKind} (htouched : tr.touched = true)
    (hhold : tr.hold.kind? = some kind) :
    Follows path self mayCommit (fun _ tr' => tr' = tr.free) tr (release path kind) :=
  .unlock htouched hhold (.done rfl)

/-- A task done while the lock is held, for every content that the file may have then. -/
theorem follows_withLock {α : Type} {kind : LockKind} {post : Except FileError α → Trail → Prop}
    {task : FileTask α} (hfree : tr.hold = .free) (hfresh : tr.committed = none)
    (hrefuse : post (.error (.locked path)) tr.touch.refuse)
    (htask : ∀ content, Follows path self mayCommit
      (fun r tr' => tr'.touched = true ∧ tr'.hold.kind? = some kind ∧ post r tr'.free)
      (tr.touch.take content kind) task.run) :
    Follows path self mayCommit post tr (withLock path kind task).run := by
  rw [withLock]
  refine (follows_acquire kind hfree hfresh).andThen ?_ ?_
  · rintro ⟨⟩ tr' (⟨hr, -⟩ | ⟨content, -, rfl⟩)
    · cases hr
    · refine (htask content).finally_ fun r tr' h => ?_
      obtain ⟨htouched, hhold, hpost⟩ := h
      refine Follows.bind (follows_release htouched hhold) fun _ _ hfree => ?_
      exact .done (hfree ▸ hpost)
  · rintro e tr' (⟨hr, rfl⟩ | ⟨content, hr, -⟩)
    · cases hr
      exact hrefuse
    · cases hr

theorem follows_replace {content : Option ByteArray} {bytes : ByteArray}
    (hhold : tr.hold = .exclusive content) (hfresh : tr.committed = none)
    (hmay : mayCommit content bytes) :
    Follows path self mayCommit (fun r tr' => r = .ok () ∧ tr' = tr.commit bytes) tr
      (replace path bytes).run := by
  have hwhole : ByteArray.empty ++ bytes = bytes := ByteArray.empty_append
  have hnew : (tr.write .empty).new = some .empty := rfl
  have hfull : ((tr.write .empty).write (.empty ++ bytes)).new = some bytes := by
    rw [hwhole]
    rfl
  have hheld : ((tr.write .empty).write (.empty ++ bytes)).hold = .exclusive content := hhold
  refine Follows.processId ?_
  refine Follows.create ?_
  refine Follows.append hnew bytes ?_
  refine Follows.sync _ ?_
  refine Follows.rename hheld hfull hfresh hmay ?_
  exact Follows.done ⟨rfl, rfl⟩

/-- The text that reading finds. -/
def textRead (path : String) : Option ByteArray → Except FileError String
  | none => .error (.system path .noEntry)
  | some bytes => textOf path bytes

theorem follows_text {post : Except FileError String → Trail → Prop} (hfresh : tr.committed = none)
    (h : ∀ content, tr.Allows content → post (textRead path content) (tr.see content)) :
    Follows path self mayCommit post tr (read path).run := by
  refine Follows.read hfresh fun content hcontent => ?_
  have hpost := h content hcontent
  cases content with
  | none => exact Follows.done hpost
  | some bytes =>
    have hid : (textOf path bytes).mapError id = textOf path bytes := by
      cases textOf path bytes <;> rfl
    rw [textRead, ← hid] at hpost
    exact Follows.done hpost

/-! ## Whole files -/

theorem follows_writeAtomic (path : NormalPath) {bytes : ByteArray} (htr : tr.Idle)
    (hmay : ∀ content, mayCommit content bytes) :
    Follows path.text self mayCommit
      (fun r tr' => tr'.hold = .free ∧ tr'.new = none ∧
        (r = .error (.locked path.text) ∧ tr'.refused = true ∧ tr'.committed = none ∨
          r = .ok () ∧ tr'.committed = some bytes))
      tr (writeAtomic path bytes).run := by
  refine follows_makeParent.andThen ?_ ?_
  · rintro ⟨⟩ tr' ⟨-, rfl⟩
    have hlocked : Follows path.text self mayCommit
        (fun r tr'' => tr''.hold = .free ∧ tr''.new = none ∧
          (r = .error (.locked path.text) ∧ tr''.refused = true ∧ tr''.committed = none ∨
            r = .ok () ∧ tr''.committed = some bytes))
        tr' (withLock path.text .exclusive (replace path.text bytes)).run := by
      refine follows_withLock htr.free htr.fresh ?_ fun content => ?_
      · exact ⟨htr.free, htr.unwritten, Or.inl ⟨rfl, rfl, htr.fresh⟩⟩
      · refine Follows.mono (follows_replace rfl htr.fresh (hmay content)) ?_
        rintro r tr'' ⟨rfl, rfl⟩
        exact ⟨rfl, rfl, rfl, rfl, Or.inr ⟨rfl, rfl⟩⟩
    refine hlocked.andThen ?_ ?_
    · intro _ tr'' hpost
      exact Follows.log _ (Follows.done hpost)
    · rintro e tr'' ⟨hfree, hnew, ⟨hr, hrefused⟩ | ⟨hr, -⟩⟩
      · cases hr
        exact ⟨hfree, hnew, Or.inl ⟨rfl, hrefused⟩⟩
      · cases hr
  · rintro e tr' ⟨hr, -⟩
    cases hr

/-- A reading ends with the text of a content that the file had when the process looked, or fails
because there was no file or because the lock was not given. -/
theorem follows_readLocked (path : NormalPath) (htr : tr.Idle) :
    Follows path.text self mayCommit
      (fun r tr' => tr'.Idle ∧
        (r = .error (.locked path.text) ∧ tr'.refused = true ∨
          (∃ e, r = .error e) ∧ none ∈ tr'.seen ∨
          ∃ bytes, r = textOf path.text bytes ∧ some bytes ∈ tr'.seen))
      tr (readLocked path).run := by
  refine Follows.look htr.fresh fun content _ => ?_
  cases content with
  | none =>
    exact Follows.done ⟨htr.see none, Or.inr (Or.inl ⟨⟨_, rfl⟩, List.mem_cons_self⟩)⟩
  | some bytes =>
    have htr' := htr.see (some bytes)
    refine follows_withLock htr'.free htr'.fresh ?_ fun content => ?_
    · exact ⟨⟨htr.free, htr.unwritten, htr.fresh⟩, Or.inl ⟨rfl, rfl⟩⟩
    · refine follows_text htr.fresh fun content _ => ?_
      refine ⟨rfl, rfl, ⟨rfl, htr.unwritten, htr.fresh⟩, Or.inr ?_⟩
      cases content with
      | none => exact Or.inl ⟨⟨_, rfl⟩, List.mem_cons_self⟩
      | some bytes => exact Or.inr ⟨bytes, rfl, List.mem_cons_self⟩

/-! ## Files whose lock is held -/

theorem follows_acquireLocked (path : NormalPath) (htr : tr.Idle) :
    Follows path.text self mayCommit
      (fun r tr' => (r = .error (.locked path.text) ∧ tr'.Idle ∧ tr'.refused = true) ∨
        ∃ content, r = .ok ⟨path.text⟩ ∧ tr'.Owns content)
      tr (LockedFile.acquire path).run := by
  refine follows_makeParent.andThen ?_ ?_
  · rintro ⟨⟩ tr' ⟨-, rfl⟩
    refine (follows_acquire .exclusive htr.free htr.fresh).andThen ?_ ?_
    · rintro ⟨⟩ tr' (⟨hr, -⟩ | ⟨content, -, rfl⟩)
      · cases hr
      · exact Follows.log _ (Follows.done (Or.inr ⟨content, rfl, htr.owns content⟩))
    · rintro e tr' (⟨hr, rfl⟩ | ⟨content, hr, -⟩)
      · cases hr
        exact Or.inl ⟨rfl, ⟨htr.free, htr.unwritten, htr.fresh⟩, rfl⟩
      · cases hr
  · rintro e tr' ⟨hr, -⟩
    cases hr

/-- The text that a content stands for, if there is any. -/
def textAt (path : String) : Option ByteArray → Except FileError (Option String)
  | none => .ok none
  | some bytes => (textOf path bytes).map some

theorem follows_readOwned {content : Option ByteArray} (htr : tr.Owns content) :
    Follows path self mayCommit (fun r tr' => r = textAt path content ∧ tr'.Owns content) tr
      (LockedFile.read ⟨path⟩).run := by
  refine Follows.look htr.fresh fun c hc => ?_
  obtain rfl := hc content htr.hold
  cases c with
  | none => exact Follows.done ⟨rfl, htr.see⟩
  | some bytes =>
    have hread : Follows path self mayCommit
        (fun r tr' => r = textOf path bytes ∧ tr'.Owns (some bytes)) (tr.see (some bytes))
        (Storage.read path).run := by
      refine follows_text htr.fresh fun c hc => ?_
      obtain rfl := hc _ htr.see.hold
      exact ⟨rfl, htr.see.see⟩
    refine hread.andThen ?_ ?_
    · rintro s tr' ⟨hs, howns⟩
      exact Follows.done ⟨by rw [textAt, ← hs]; rfl, howns⟩
    · rintro e tr' ⟨he, howns⟩
      exact ⟨by rw [textAt, ← he]; rfl, howns⟩

theorem follows_writeOwned {content : Option ByteArray} {bytes : ByteArray} (htr : tr.Owns content)
    (hmay : mayCommit content bytes) :
    Follows path self mayCommit (fun r tr' => r = .ok () ∧ tr' = tr.commit bytes) tr
      (LockedFile.write ⟨path⟩ bytes).run := by
  refine (follows_replace htr.hold htr.fresh hmay).andThen ?_ ?_
  · rintro ⟨⟩ tr' ⟨-, rfl⟩
    exact Follows.log _ (Follows.done ⟨rfl, rfl⟩)
  · rintro e tr' ⟨hr, -⟩
    cases hr

end

end SelectiveSync.Storage
