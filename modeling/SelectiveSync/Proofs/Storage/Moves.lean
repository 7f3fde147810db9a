import Mathlib.Logic.Relation
import SelectiveSync.Proofs.Storage.Names
import SelectiveSync.Proofs.Storage.Protocol

/-! # What keeping to the protocol does to a world

* `Moves` says all that one call of the protocol does: to the files, to the locks, and to what the
  process knows. `Follows.step` is the only place that opens the calls.
* `Moves.lock`, `Moves.beside`, `Moves.clear` and `Moves.content`: what a move keeps, and what of the
  file it may change.
* `Trail.Fits`: the world is as the process knows it. `Moves.fits` and `Moves.fits_other`: it stays
  so, whoever makes the next move.
* `Follows.run`: a program that keeps to the protocol and runs by itself ends as the protocol says.
* `Trail.Alone`: what such a run leaves of the world it began in. -/
namespace SelectiveSync
set_option autoImplicit false

open FileSystem

/-- The content of the file at a location, if there is one. -/
def World.content (w : World) (k : Location) : Option ByteArray :=
  match w.files.get? k with
  | some (.file bytes _) => some bytes
  | _ => none

namespace World

variable {w w' : World} {k l t : Location}

theorem content_of_file {bytes : ByteArray} {x : Bool} (h : w.files.get? k = some (.file bytes x)) :
    w.content k = some bytes := by
  rw [content, h]

theorem content_of_none (h : w.files.get? k = none) : w.content k = none := by
  rw [content, h]

theorem content_eq_some {bytes : ByteArray} :
    w.content k = some bytes ↔ ∃ x, w.files.get? k = some (.file bytes x) := by
  rw [content]
  split
  · next b x he =>
    simp [he]
  · next hnot =>
    refine iff_of_false (by simp) ?_
    rintro ⟨x, he⟩
    exact hnot bytes x he

theorem content_congr (h : w'.files.get? k = w.files.get? k) : w'.content k = w.content k := by
  rw [content, content, h]

theorem kind_content {programs : Executables} {self : Nat} {path : String}
    (h : w.files.LeadsTo w.cwd path k) :
    w.answer programs self (.kind path) = ((w.content k).map fun _ => Kind.file, w) := by
  rw [kind_at h]
  cases he : w.files.get? k with
  | none => rw [content_of_none he, Option.map_none, Option.map_none]
  | some e =>
    obtain ⟨bytes, x, rfl⟩ := h.holdsFile e he
    rw [content_of_file he, Option.map_some, Option.map_some]

theorem read_content {programs : Executables} {self : Nat} {path : String}
    (h : w.files.LeadsTo w.cwd path k) :
    w.answer programs self (.read path) = (Storage.readReply (w.content k), w) := by
  cases he : w.files.get? k with
  | none => rw [content_of_none he, answer, FileSystem.read, h.entry_of_none he, Storage.readReply]
  | some e =>
    obtain ⟨bytes, x, rfl⟩ := h.holdsFile e he
    rw [content_of_file he, read_at h he, Storage.readReply]

/-- Locks on other files stay where they are. -/
theorem movedLocks_of_clear {locks : List Lock}
    (h : ∀ x ∈ locks, x.location ≠ k ∧ x.location ≠ t) : movedLocks locks t k = locks := by
  have hkeep : locks.filter (fun x => x.location ≠ k) = locks :=
    List.filter_eq_self.2 fun x hx => decide_eq_true (h x hx).1
  rw [movedLocks, hkeep]
  exact (List.map_congr_left fun x hx => if_neg (h x hx).2).trans (List.map_id _)

end World

namespace Storage

/-! ## Moves -/

/-- What one call of the protocol does, of the process whose own file is at `t`. -/
inductive Moves (mayCommit : Option ByteArray → ByteArray → Prop) (self : Nat) (k l t : Location) :
    Trail × World → Trail × World → Prop
  | idle {tr : Trail} {w : World} (log : List Event) :
      Moves mayCommit self k l t (tr, w) (tr, { w with log })
  | look {tr : Trail} {w : World} (hfresh : tr.committed = none) :
      Moves mayCommit self k l t (tr, w) (tr.see (w.content k), w)
  | touch {tr : Trail} {w : World} {files : FileSystem} (hways : w.files.SameWays files)
      (hget : ∀ m, files.get? m =
        if m = l then some ((w.files.get? l).getD (.file .empty false)) else w.files.get? m) :
      Moves mayCommit self k l t (tr, w) (tr.touch, { w with files })
  | refuse {tr : Trail} {w : World} {kind : LockKind} (hnot : w.allows l kind = false)
      (hfree : tr.hold = .free) : Moves mayCommit self k l t (tr, w) (tr.refuse, w)
  | take {tr : Trail} {w : World} {kind : LockKind} (hallows : w.allows l kind = true)
      (hfree : tr.hold = .free) (hfresh : tr.committed = none) :
      Moves mayCommit self k l t (tr, w)
        (tr.take (w.content k) kind, { w with locks := ⟨l, kind, self⟩ :: w.locks })
  | free {tr : Trail} {w : World} {kind : LockKind} (hhold : tr.hold.kind? = some kind) :
      Moves mayCommit self k l t (tr, w)
        (tr.free, { w with locks := w.locks.erase ⟨l, kind, self⟩ })
  | write {tr : Trail} {w : World} (bytes : ByteArray) {files : FileSystem} {x : Bool}
      (hways : w.files.SameWays files)
      (hget : ∀ m, files.get? m = if m = t then some (.file bytes x) else w.files.get? m) :
      Moves mayCommit self k l t (tr, w) (tr.write bytes, { w with files })
  | commit {tr : Trail} {w : World} {content : Option ByteArray} {bytes : ByteArray}
      (hhold : tr.hold = .exclusive content) (hfresh : tr.committed = none)
      (hmay : mayCommit content bytes) {files : FileSystem} {x : Bool}
      (hways : w.files.SameWays files)
      (hget : ∀ m, files.get? m =
        if m = k then some (.file bytes x) else if m = t then none else w.files.get? m) :
      Moves mayCommit self k l t (tr, w)
        (tr.commit bytes, { w with files, locks := World.movedLocks w.locks t k })

/-- The world is as the process knows it. -/
structure Trail.Fits (tr : Trail) (w : World) (process : Nat) (k l t : Location) : Prop where
  clear : ∀ x ∈ w.locks, x.location ≠ k ∧ x.location ≠ t
  touched : tr.touched = true → ∃ e, w.files.get? l = some e
  held : ∀ content, tr.hold = .exclusive content → w.content k = content ∧
    ⟨l, .exclusive, process⟩ ∈ w.locks ∧
      ∀ x ∈ w.locks, x.location = l → x = ⟨l, .exclusive, process⟩
  new : ∀ bytes, tr.new = some bytes → ∃ x, w.files.get? t = some (.file bytes x)

section
variable {path : NormalPath} {programs : Executables} {self : Nat} {k l t : Location}
  {mayCommit : Option ByteArray → ByteArray → Prop} {tr tr' : Trail} {w w' : World}

theorem allows_content (hfits : tr.Fits w self k l t) : tr.Allows (w.content k) :=
  fun c hc => (hfits.held c hc).1

variable (programs) in
/-- A call of the protocol is answered as the protocol says, and puts something in place of the file
just when it is the call that does so. -/
theorem Follows.step {α : Type} {post : α → Trail → Prop} {c : Call} {next : c.Reply → Program α}
    (h : Follows path.text self mayCommit post tr (.call c next)) (hpath : path.Canonical)
    (hsite : Sited w.files w.cwd path self k l t) (hfits : tr.Fits w self k l t) :
    ∃ tr', Moves mayCommit self k l t (tr, w) (tr', (w.answer programs self c).2) ∧
      Follows path.text self mayCommit post tr' (next (w.answer programs self c).1) ∧
      tr'.committed.isSome = (tr.committed.isSome || putsInPlace path.text c) := by
  obtain ⟨hkl, hkt, hlt⟩ := hsite.places_differ hpath
  have hsame : tr.committed.isSome = (tr.committed.isSome || false) := (Bool.or_false _).symm
  cases h with
  | log e h => exact ⟨tr, .idle _, h, hsame⟩
  | processId h => exact ⟨tr, .idle w.log, h, hsame⟩
  | kind other h =>
    refine ⟨tr, ?_, h _, hsame⟩
    rw [World.answer_kind_keeps]
    exact .idle w.log
  | makeParent hdir hne h =>
    have hmake := (hsite.parent _ hdir hne).makeDir
      (path.withoutSlashes_parent? hpath (Sited.names_ne hsite.file) hdir)
    rw [World.answer, hmake]
    exact ⟨tr, .idle w.log, h, hsame⟩
  | kindOfParent hdir hne h =>
    obtain ⟨m, hm⟩ := (hsite.parent _ hdir hne).entry
    rw [World.answer, hm]
    exact ⟨tr, .idle w.log, h, hsame⟩
  | look hfresh h =>
    rw [World.kind_content hsite.file]
    exact ⟨_, .look hfresh, h _ (allows_content hfits), hsame⟩
  | read hfresh h =>
    rw [World.read_content hsite.file]
    exact ⟨_, .look hfresh, h _ (allows_content hfits), hsame⟩
  | touch h =>
    obtain ⟨files, hanswer, hways, hget⟩ := World.touch_at hsite.lock
    rw [hanswer]
    exact ⟨tr.touch, .touch hways hget, h, hsame⟩
  | lock kind htouched hfree hfresh hrefuse htake =>
    obtain ⟨e, he⟩ := hfits.touched htouched
    rw [World.lock_at hsite.lock he]
    cases hallows : w.allows l kind with
    | false => exact ⟨tr.refuse, .refuse hallows hfree, hrefuse, hsame⟩
    | true =>
      refine ⟨_, .take hallows hfree hfresh, htake _, ?_⟩
      cases kind <;> exact hsame
  | unlock htouched hhold h =>
    obtain ⟨e, he⟩ := hfits.touched htouched
    rw [World.unlock_at hsite.lock he]
    exact ⟨tr.free, .free hhold, h, hsame⟩
  | create h =>
    obtain ⟨files, x, hanswer, hways, hget⟩ := World.create_at hsite.new
    rw [hanswer]
    exact ⟨tr.write .empty, .write .empty hways hget, h, hsame⟩
  | append hnew more h =>
    obtain ⟨x, hold⟩ := hfits.new _ hnew
    obtain ⟨files, hanswer, hways, hget⟩ := World.append_at hsite.new hold more
    rw [hanswer]
    exact ⟨_, .write _ hways hget, h, hsame⟩
  | sync other h => exact ⟨tr, .idle w.log, h, hsame⟩
  | rename hhold hnew hfresh hmay h =>
    obtain ⟨x, hold⟩ := hfits.new _ hnew
    obtain ⟨files, hanswer, hways, hget⟩ :=
      World.rename_at hsite.new hsite.file hkt.symm hold
    rw [hanswer]
    exact ⟨_, .commit hhold hfresh hmay hways hget, h, by simp [putsInPlace, Trail.commit]⟩

/-! ## Moves and what processes know -/

theorem Moves.ways (h : Moves mayCommit self k l t (tr, w) (tr', w')) :
    w.files.SameWays w'.files ∧ w'.cwd = w.cwd := by
  cases h with
  | touch hways | write _ hways | commit _ _ _ hways => exact ⟨hways, rfl⟩
  | idle | look | refuse | take | free => exact ⟨SameWays.refl _, rfl⟩

theorem Moves.sited (h : Moves mayCommit self k l t (tr, w) (tr', w')) {process : Nat}
    {u : Location} (hsite : Sited w.files w.cwd path process k l u) :
    Sited w'.files w'.cwd path process k l u := by
  obtain ⟨hways, hcwd⟩ := h.ways
  rw [hcwd]
  exact hsite.sameWays hways

/-- Who holds the lock for itself alone leaves no lock for others. -/
theorem not_allows_of_exclusive {process : Nat} (h : ⟨l, .exclusive, process⟩ ∈ w.locks)
    (kind : LockKind) : w.allows l kind = false := by
  cases kind with
  | exclusive =>
    rw [World.allows, List.all_eq_false]
    exact ⟨_, h, by simp⟩
  | shared =>
    rw [World.allows, List.all_eq_false]
    exact ⟨_, h, by simp⟩

theorem location_ne_of_allows (h : w.allows l .exclusive = true) {x : Lock} (hx : x ∈ w.locks) :
    x.location ≠ l := by
  rw [World.allows, List.all_eq_true] at h
  exact of_decide_eq_true (h x hx)

/-- What is there for the lock stays. -/
theorem Moves.lock (h : Moves mayCommit self k l t (tr, w) (tr', w'))
    (hne : k ≠ l ∧ k ≠ t ∧ l ≠ t) {e : Entry} (he : w.files.get? l = some e) :
    w'.files.get? l = some e := by
  obtain ⟨hkl, -, hlt⟩ := hne
  cases h with
  | idle | look | refuse | take | free => exact he
  | touch hways hget => rw [hget, if_pos rfl, he, Option.getD_some]
  | write bytes hways hget => rw [hget, if_neg hlt, he]
  | commit hhold hfresh hmay hways hget => rw [hget, if_neg hkl.symm, if_neg hlt, he]

/-- Nothing changes but the file, its lock and the process's own file. -/
theorem Moves.beside (h : Moves mayCommit self k l t (tr, w) (tr', w')) {m : Location}
    (hmk : m ≠ k) (hml : m ≠ l) (hmt : m ≠ t) : w'.files.get? m = w.files.get? m := by
  cases h with
  | idle | look | refuse | take | free => rfl
  | touch hways hget => rw [hget, if_neg hml]
  | write bytes hways hget => rw [hget, if_neg hmt]
  | commit hhold hfresh hmay hways hget => rw [hget, if_neg hmk, if_neg hmt]

/-- No lock comes to be on the file, nor on what some process has beside it. -/
theorem Moves.clear (h : Moves mayCommit self k l t (tr, w) (tr', w')) {u : Location}
    (hkl : k ≠ l) (hlu : l ≠ u) (hown : ∀ x ∈ w.locks, x.location ≠ k ∧ x.location ≠ t)
    (hclear : ∀ x ∈ w.locks, x.location ≠ k ∧ x.location ≠ u) :
    ∀ x ∈ w'.locks, x.location ≠ k ∧ x.location ≠ u := by
  cases h with
  | idle | look | refuse | touch | write => exact hclear
  | take => exact List.forall_mem_cons.2 ⟨⟨hkl.symm, hlu⟩, hclear⟩
  | free => exact fun x hx => hclear x (List.mem_of_mem_erase hx)
  | commit =>
    rw [World.movedLocks_of_clear hown]
    exact hclear

/-- What the file holds is changed by nothing but a commit. -/
theorem Moves.content (h : Moves mayCommit self k l t (tr, w) (tr', w'))
    (hne : k ≠ l ∧ k ≠ t ∧ l ≠ t) :
    (tr'.committed = tr.committed ∧ w'.content k = w.content k) ∨
      ∃ content bytes, tr.hold = .exclusive content ∧ tr.committed = none ∧
        mayCommit content bytes ∧ tr'.committed = some bytes ∧ w'.content k = some bytes := by
  obtain ⟨hkl, hkt, hlt⟩ := hne
  cases h with
  | idle | look | refuse | free => exact Or.inl ⟨rfl, rfl⟩
  | touch hways hget => exact Or.inl ⟨rfl, World.content_congr ((hget k).trans (if_neg hkl))⟩
  | @take _ _ kind => exact Or.inl ⟨by cases kind <;> rfl, rfl⟩
  | write bytes hways hget =>
    exact Or.inl ⟨rfl, World.content_congr ((hget k).trans (if_neg hkt))⟩
  | commit hhold hfresh hmay hways hget =>
    exact Or.inr ⟨_, _, hhold, hfresh, hmay, rfl,
      World.content_of_file ((hget k).trans (if_pos rfl))⟩

theorem Moves.fits (h : Moves mayCommit self k l t (tr, w) (tr', w'))
    (hne : k ≠ l ∧ k ≠ t ∧ l ≠ t) (hfits : tr.Fits w self k l t) : tr'.Fits w' self k l t := by
  have hclear := h.clear hne.1 hne.2.2 hfits.clear hfits.clear
  have htouched (htr : tr.touched = true) : ∃ e, w'.files.get? l = some e := by
    obtain ⟨e, he⟩ := hfits.touched htr
    exact ⟨e, h.lock hne he⟩
  obtain ⟨hkl, hkt, hlt⟩ := hne
  cases h with
  | idle | look | refuse => exact ⟨hclear, htouched, hfits.held, hfits.new⟩
  | touch hways hget =>
    refine ⟨hclear, fun _ => ⟨_, (hget l).trans (if_pos rfl)⟩, fun c hc => ?_, fun b hb => ?_⟩
    · obtain ⟨hcontent, hlocks⟩ := hfits.held c hc
      exact ⟨(World.content_congr ((hget k).trans (if_neg hkl))).trans hcontent, hlocks⟩
    · obtain ⟨x, hx⟩ := hfits.new b hb
      exact ⟨x, (hget t).trans ((if_neg hlt.symm).trans hx)⟩
  | @take _ _ kind hallows hfree hfresh =>
    cases kind with
    | shared => exact ⟨hclear, htouched, (fun c hc => by cases hc), hfits.new⟩
    | exclusive =>
      refine ⟨hclear, htouched, fun c hc => ?_, hfits.new⟩
      cases hc
      refine ⟨rfl, List.mem_cons_self, fun x hx hl => ?_⟩
      rcases List.mem_cons.1 hx with rfl | hx
      · rfl
      · exact absurd hl (location_ne_of_allows hallows hx)
  | free => exact ⟨hclear, htouched, (fun c hc => by cases hc), hfits.new⟩
  | write bytes hways hget =>
    refine ⟨hclear, htouched, fun c hc => ?_, fun b hb => ?_⟩
    · obtain ⟨hcontent, hlocks⟩ := hfits.held c hc
      exact ⟨(World.content_congr ((hget k).trans (if_neg hkt))).trans hcontent, hlocks⟩
    · cases hb
      exact ⟨_, (hget t).trans (if_pos rfl)⟩
  | commit hhold hfresh hmay hways hget =>
    refine ⟨hclear, htouched, fun c hc => ?_, fun b hb => by cases hb⟩
    cases hc
    rw [World.movedLocks_of_clear hfits.clear]
    exact ⟨World.content_of_file ((hget k).trans (if_pos rfl)), (hfits.held _ hhold).2⟩

/-- What one process knows stays true while another one moves. -/
theorem Moves.fits_other (h : Moves mayCommit self k l t (tr, w) (tr', w')) {other : Nat}
    {u : Location} {trail : Trail} (hne : k ≠ l ∧ k ≠ t ∧ l ≠ t) (hku : k ≠ u) (hlu : l ≠ u)
    (htu : t ≠ u) (hother : self ≠ other) (hfits : tr.Fits w self k l t)
    (hknown : trail.Fits w other k l u) : trail.Fits w' other k l u := by
  refine ⟨h.clear hne.1 hlu hfits.clear hknown.clear, fun htouched => ?_, fun c hc => ?_,
    fun b hb => ?_⟩
  · obtain ⟨e, he⟩ := hknown.touched htouched
    exact ⟨e, h.lock hne he⟩
  · obtain ⟨hcontent, hmem, honly⟩ := hknown.held c hc
    have hsame : w'.content k = w.content k := by
      rcases h.content hne with ⟨-, hsame⟩ | ⟨_, _, hhold, -⟩
      · exact hsame
      · -- the lock has one holder, and that is the one who puts its content in place
        exact absurd (congrArg Lock.owner (honly _ (hfits.held _ hhold).2.1 rfl)) hother
    refine ⟨hsame.trans hcontent, ?_⟩
    cases h with
    | idle | look | refuse | touch | write => exact ⟨hmem, honly⟩
    | @take _ _ kind hallows =>
      rw [not_allows_of_exclusive hmem kind] at hallows
      cases hallows
    | free =>
      refine ⟨?_, fun x hx => honly x (List.mem_of_mem_erase hx)⟩
      exact (List.mem_erase_of_ne fun heq => hother (congrArg Lock.owner heq).symm).2 hmem
    | commit =>
      rw [World.movedLocks_of_clear hfits.clear]
      exact ⟨hmem, honly⟩
  · obtain ⟨x, hx⟩ := hknown.new b hb
    exact ⟨x, (h.beside hku.symm hlu.symm htu.symm).trans hx⟩

/-- Whoever looks at the file sees what it holds then. -/
theorem Moves.seen (h : Moves mayCommit self k l t (tr, w) (tr', w')) :
    tr'.seen = tr.seen ∨ tr.committed = none ∧ tr'.seen = w.content k :: tr.seen := by
  cases h with
  | idle | touch | refuse | free | write | commit => exact Or.inl rfl
  | look hfresh => exact Or.inr ⟨hfresh, rfl⟩
  | @take _ _ kind _ _ hfresh =>
    cases kind with
    | shared => exact Or.inl rfl
    | exclusive => exact Or.inr ⟨hfresh, rfl⟩

/-- The lock is refused only to a process that does not hold it. -/
theorem Moves.refused (h : Moves mayCommit self k l t (tr, w) (tr', w')) :
    tr'.refused = tr.refused ∨ tr.hold = .free ∧ ∃ kind, w.allows l kind = false := by
  cases h with
  | idle | look | touch | free | write | commit => exact Or.inl rfl
  | @take _ _ kind => exact Or.inl (by cases kind <;> rfl)
  | refuse hnot hfree => exact Or.inr ⟨hfree, _, hnot⟩

/-- Of all locks only the process's own comes and goes. -/
theorem Moves.locks (h : Moves mayCommit self k l t (tr, w) (tr', w'))
    (hclear : ∀ x ∈ w.locks, x.location ≠ k ∧ x.location ≠ t) {rest : List Lock}
    (hlocks : w.locks = (tr.hold.kind?.map fun kind => Lock.mk l kind self).toList ++ rest) :
    w'.locks = (tr'.hold.kind?.map fun kind => Lock.mk l kind self).toList ++ rest := by
  cases h with
  | idle | look | refuse | touch | write => exact hlocks
  | @take _ _ kind _ hfree =>
    rw [hfree] at hlocks
    rw [hlocks]
    cases kind <;> rfl
  | @free _ _ kind hhold =>
    have herase : (Lock.mk l kind self :: rest).erase ⟨l, kind, self⟩ = rest :=
      List.erase_cons_head ..
    rw [hhold] at hlocks
    exact (congrArg (List.erase · _) hlocks).trans herase
  | commit hhold =>
    rw [World.movedLocks_of_clear hclear, hlocks, hhold]
    rfl

/-- Before its commit a process writes to its own file only. -/
theorem Moves.still (h : Moves mayCommit self k l t (tr, w) (tr', w'))
    (hne : k ≠ l ∧ k ≠ t ∧ l ≠ t) (hnone : tr'.committed = none) :
    tr.committed = none ∧ w'.files.get? k = w.files.get? k ∧
      (tr'.new = none → tr.new = none ∧ w'.files.get? t = w.files.get? t) := by
  obtain ⟨hkl, hkt, hlt⟩ := hne
  cases h with
  | idle | look | refuse | free => exact ⟨hnone, rfl, fun hnew => ⟨hnew, rfl⟩⟩
  | touch hways hget =>
    exact ⟨hnone, (hget k).trans (if_neg hkl), fun hnew =>
      ⟨hnew, (hget t).trans (if_neg hlt.symm)⟩⟩
  | @take _ _ kind =>
    cases kind with
    | shared | exclusive => exact ⟨hnone, rfl, fun hnew => ⟨hnew, rfl⟩⟩
  | write bytes hways hget =>
    exact ⟨hnone, (hget k).trans (if_neg hkt), fun hnew => by cases hnew⟩
  | commit => cases hnone

end

/-! ## Runs by themselves -/

/-- What a run has left of the world it began in, while no other process moved. -/
structure Trail.Alone (tr : Trail) (w₀ w : World) (process : Nat) (k l t : Location) : Prop where
  ways : w₀.files.SameWays w.files
  cwd : w.cwd = w₀.cwd
  fits : tr.Fits w process k l t
  content : w.content k = tr.committed.or (w₀.content k)
  seen : ∀ c ∈ tr.seen, c = w₀.content k
  refused : tr.refused = true → ∃ kind, w₀.allows l kind = false
  locks : w.locks = (tr.hold.kind?.map fun kind => Lock.mk l kind process).toList ++ w₀.locks
  lock : ∀ e, w₀.files.get? l = some e → w.files.get? l = some e
  beside : ∀ m, m ≠ k → m ≠ l → m ≠ t → w.files.get? m = w₀.files.get? m
  still : tr.committed = none → w.files.get? k = w₀.files.get? k ∧
    (tr.new = none → w.files.get? t = w₀.files.get? t)

section
variable {path : NormalPath} {programs : Executables} {self : Nat} {k l t : Location}
  {mayCommit : Option ByteArray → ByteArray → Prop} {tr tr' : Trail} {w₀ w w' : World}

theorem Trail.alone_start (hclear : ∀ x ∈ w.locks, x.location ≠ k ∧ x.location ≠ t) :
    ({} : Trail).Alone w w self k l t where
  ways := SameWays.refl _
  cwd := rfl
  fits := ⟨hclear, (fun h => by cases h), (fun _ h => by cases h), (fun _ h => by cases h)⟩
  content := by simp
  seen := by simp
  refused h := by cases h
  locks := rfl
  lock _ he := he
  beside _ _ _ _ := rfl
  still _ := ⟨rfl, fun _ => rfl⟩

theorem Moves.alone (h : Moves mayCommit self k l t (tr, w) (tr', w'))
    (hne : k ≠ l ∧ k ≠ t ∧ l ≠ t) (halone : tr.Alone w₀ w self k l t) :
    tr'.Alone w₀ w' self k l t where
  ways := halone.ways.trans h.ways.1
  cwd := h.ways.2.trans halone.cwd
  fits := h.fits hne halone.fits
  content := by
    rcases h.content hne with ⟨hsame, hcontent⟩ | ⟨c, bytes, -, -, -, hsome, hcontent⟩
    · rw [hcontent, hsame, halone.content]
    · rw [hcontent, hsome, Option.some_or]
  seen := by
    rcases h.seen with hsame | ⟨hfresh, hmore⟩
    · rw [hsame]
      exact halone.seen
    · have hcontent : w.content k = w₀.content k := by
        rw [halone.content, hfresh, Option.none_or]
      rw [hmore]
      exact List.forall_mem_cons.2 ⟨hcontent, halone.seen⟩
  refused := by
    intro htr
    rcases h.refused with hsame | ⟨hfree, kind, hnot⟩
    · exact halone.refused (hsame.symm.trans htr)
    · have hlocks := halone.locks
      rw [hfree] at hlocks
      refine ⟨kind, ?_⟩
      rw [← hnot]
      cases kind <;> rw [World.allows, World.allows, hlocks] <;> rfl
  locks := h.locks halone.fits.clear halone.locks
  lock e he := h.lock hne (halone.lock e he)
  beside m hmk hml hmt := (h.beside hmk hml hmt).trans (halone.beside m hmk hml hmt)
  still := by
    intro hnone
    obtain ⟨hold, hk, ht⟩ := h.still hne hnone
    obtain ⟨hk₀, ht₀⟩ := halone.still hold
    refine ⟨hk.trans hk₀, fun hnew => ?_⟩
    obtain ⟨hunwritten, hsame⟩ := ht hnew
    exact hsame.trans (ht₀ hunwritten)

theorem Follows.run {α : Type} {post : α → Trail → Prop} {p : Program α}
    (h : Follows path.text self mayCommit post tr p) (hpath : path.Canonical)
    (hsite : Sited w.files w.cwd path self k l t) (halone : tr.Alone w₀ w self k l t) :
    ∃ a tr' w', w.run programs self p = (a, w') ∧ post a tr' ∧ tr'.Alone w₀ w' self k l t := by
  induction p generalizing tr w with
  | done a =>
    cases h with
    | done h => exact ⟨a, tr, w, rfl, h, halone⟩
  | call c next ih =>
    obtain ⟨tr', hmove, hrest, -⟩ := h.step programs hpath hsite halone.fits
    exact ih _ hrest (hmove.sited hsite) (hmove.alone (hsite.places_differ hpath) halone)

variable (programs) in
/-- A program that keeps to the protocol, run by itself from its start. -/
theorem Follows.run_alone {α : Type} {post : α → Trail → Prop} {p : Program α}
    (h : Follows path.text self mayCommit post {} p) (hpath : path.Canonical)
    (hsite : Sited w.files w.cwd path self k l t)
    (hclear : ∀ x ∈ w.locks, x.location ≠ k ∧ x.location ≠ t) :
    ∃ a tr w', w.run programs self p = (a, w') ∧ post a tr ∧ tr.Alone w w' self k l t :=
  h.run hpath hsite (Trail.alone_start hclear)

/-- Nothing is removed by the protocol. -/
theorem Follows.not_removes {α : Type} {post : α → Trail → Prop} {p : Program α} {c : Call}
    (h : Follows path.text self mayCommit post tr p) (hpath : path.Canonical)
    (hsite : Sited w.files w.cwd path self k l t) (hfits : tr.Fits w self k l t)
    (hcalls : w.Calls programs self p w' c) : c.removes = false := by
  induction hcalls generalizing tr with
  | here => cases h <;> rfl
  | later _ ih =>
    obtain ⟨tr', hmove, hrest, -⟩ := h.step programs hpath hsite hfits
    exact ih hrest (hmove.sited hsite) (hmove.fits (hsite.places_differ hpath) hfits)

end

end Storage
end SelectiveSync
