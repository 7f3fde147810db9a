import SelectiveSync.Proofs.Storage.Directories
import SelectiveSync.Proofs.Storage.Moves
import SelectiveSync.Proofs.System.Mishaps

/-! # Files replaced as a whole, whatever fails

* `Replaced`: what comes of putting new content in place of a file.
* `endsAmid_replace`: the calls that replace a file come to it, whichever of them fail.
* `endsAmid_replace_unwritten`: a write that fails leaves behind what it has written.
* `replacement_is_atomic`: whatever fails, a file is replaced as a whole or not at all. -/
namespace SelectiveSync
set_option autoImplicit false

open FileSystem Program

/-- The call writes to a file or saves what was written. -/
def Call.writesOut : Call → Bool
  | .append .. | .sync _ => true
  | _ => false

/-- What should have been written or saved was not. -/
def Attempt.Unwritten (a : Attempt) : Prop :=
  a.mishap ≠ none ∧ a.call.writesOut = true

theorem Attempt.not_unwritten {as : List Attempt} (h : ∀ a ∈ as, a.mishap = none) :
    ¬∃ a ∈ as, a.Unwritten := by
  rintro ⟨a, ha, hmishap, -⟩
  exact hmishap (h a ha)

theorem Attempt.exists_unwritten_append (as as' : List Attempt) :
    (∃ a ∈ as ++ as', a.Unwritten) ↔ (∃ a ∈ as, a.Unwritten) ∨ ∃ a ∈ as', a.Unwritten := by
  simp only [List.mem_append, or_and_right, exists_or]

/-! ## Places -/

/-- The path ends in a name and leads to a location that no directory has taken. -/
structure FileSystem.EndsAt (fs : FileSystem) (cwd : Location) (path : String) (k : Location) :
    Prop where
  named : ∃ n, (parts path).getLast? = some n ∧ n ≠ "." ∧ n ≠ ".."
  reached : ∃ place, fs.locate cwd false path = .ok place ∧ place.location = k
  notDirectory : fs.get? k ≠ some .directory

theorem FileSystem.LeadsTo.endsAt {fs : FileSystem} {cwd : Location} {path : String} {k : Location}
    (h : fs.LeadsTo cwd path k) : fs.EndsAt cwd path k := by
  refine ⟨h.named, h.reached, fun he => ?_⟩
  obtain ⟨_, _, hdir⟩ := h.holdsFile _ he
  cases hdir

namespace World

variable {programs : Executables} {self : Nat} {w v u : World} {path target : String}
  {k t : Location}

/-- The files of two worlds differ at one location only, and paths lead to the same in both. -/
structure SameBut (t : Location) (w v : World) : Prop where
  ways : w.files.SameWays v.files
  cwd : v.cwd = w.cwd
  same : ∀ m, m ≠ t → v.files.get? m = w.files.get? m

theorem SameBut.refl (t : Location) (w : World) : w.SameBut t w :=
  ⟨SameWays.refl _, rfl, fun _ _ => rfl⟩

theorem SameBut.trans (h : w.SameBut t v) (h' : v.SameBut t u) : w.SameBut t u :=
  ⟨h.ways.trans h'.ways, h'.cwd.trans h.cwd, fun m hm => (h'.same m hm).trans (h.same m hm)⟩

theorem SameBut.endsAt (h : w.SameBut t v) (hne : k ≠ t) (hk : w.files.EndsAt w.cwd path k) :
    v.files.EndsAt v.cwd path k := by
  obtain ⟨⟨n, hn, hdots⟩, ⟨place, hplace, hl⟩, hnot⟩ := hk
  obtain ⟨place', hplace', hsame, -⟩ := locate_sameWays h.ways hn hdots hplace
  rw [h.cwd]
  exact ⟨⟨n, hn, hdots⟩, ⟨place', hplace', hsame.trans hl⟩, (h.same k hne).symm ▸ hnot⟩

theorem SameBut.leadsTo {l : Location} (h : w.SameBut t v) (hl : w.files.LeadsTo w.cwd path l) :
    v.files.LeadsTo v.cwd path l := by
  rw [h.cwd]
  exact hl.sameWays h.ways

variable (programs self) in
theorem removeFile_at (h : w.files.LeadsTo w.cwd path t) {bytes : ByteArray} {x : Bool}
    (he : w.files.get? t = some (.file bytes x)) :
    ∃ files, w.answer programs self (.removeFile path) = (.ok (), { w with files }) ∧
      w.files.SameWays files ∧ ∀ m, files.get? m = if m = t then none else w.files.get? m := by
  rw [answer, FileSystem.removeFile, h.locate_of_some he]
  exact ⟨_, rfl, sameWays_erase h.ne_nil h.holdsFile, get?_erase w.files h.ne_nil⟩

variable (programs self) in
/-- A file takes the place of whatever was there that is no directory. -/
theorem rename_onto (h : w.files.LeadsTo w.cwd path t) (hk : w.files.EndsAt w.cwd target k)
    {bytes : ByteArray} {x : Bool} (hne : k ≠ t) (he : w.files.get? t = some (.file bytes x)) :
    ∃ files locks, w.answer programs self (.rename path target) =
        (.ok (), { w with files, locks }) ∧
      ∀ m, files.get? m =
        if m = k then some (.file bytes x) else if m = t then none else w.files.get? m := by
  obtain ⟨-, ⟨place, hplace, rfl⟩, hnot⟩ := hk
  have hentry := get?_of_locate hplace
  have hnil : place.location ≠ [] := by
    intro hnil
    rw [hnil] at hnot
    exact hnot rfl
  have hrename : w.files.rename w.cwd path target =
      .ok ((w.files.erase t).insert place.location (.file bytes x)) := by
    rw [FileSystem.rename, h.locate_of_some he, hplace]
    cases place with
    | vacant dir name => rfl
    | found l e =>
      have hl : l ≠ t := hne
      cases e with
      | directory => exact absurd hentry hnot
      | file b y => simp only [if_neg hl]; rfl
      | link target => simp only [if_neg hl]; rfl
  have hanswer : ∃ locks, w.answer programs self (.rename path target) = (.ok (),
      { w with files := (w.files.erase t).insert place.location (.file bytes x), locks }) := by
    rw [answer, World.rename, hrename]
    exact ⟨_, rfl⟩
  obtain ⟨locks, hanswer⟩ := hanswer
  refine ⟨_, locks, hanswer, fun m => ?_⟩
  rw [get?_insert _ hnil, get?_erase _ h.ne_nil]

end World

namespace Storage

section
variable {path : NormalPath} {programs : Executables} {self : Nat} {mishaps : Mishaps} {n : Nat}
  {w w₀ w₁ v v' : World} {k l t : Location}

/-- A path that ends in a name leads to a place without a directory, and the lock of its file and
the new content that a process writes have places beside it, none of them taken by a directory or a
link. -/
structure Situated (fs : FileSystem) (cwd : Location) (path : NormalPath) (process : Nat)
    (k l t : Location) : Prop where
  file : fs.EndsAt cwd path.text k
  lock : fs.LeadsTo cwd (lockPath path.text) l
  new : fs.LeadsTo cwd (newPath path.text process) t

theorem Sited.situated (h : Sited w.files w.cwd path self k l t) :
    Situated w.files w.cwd path self k l t :=
  ⟨h.file.endsAt, h.lock, h.new⟩

theorem Situated.places_differ (h : Situated w.files w.cwd path self k l t)
    (hpath : path.Canonical) : k ≠ l ∧ k ≠ t ∧ l ≠ t := by
  obtain ⟨⟨n, hn, hdots⟩, ⟨place, hplace, hk⟩, -⟩ := h.file
  have hne : path.names ≠ [] := by
    intro hnil
    rw [NormalPath.text, hnil] at hn
    refine hdots.1 (Option.some.inj (hn.symm.trans ?_))
    cases path.anchor <;> decide
  obtain ⟨-, -, -, hlast⟩ := locate_sameWays (SameWays.refl _) hn hdots hplace
  rw [NormalPath.fileSystem_parts_text hpath hne, List.getLast?_eq_some_getLast hne] at hn
  obtain ⟨hl, ht⟩ := getLast?_beside hpath hne h.lock h.new
  exact differ_of_names (hk ▸ hlast.trans hn.symm) hl ht

/-! ## Replacements -/

/-- What comes of putting new content in place of the file at `k`, by way of a file at `t`: how it
ends, what world it leaves and what became of its calls. Among other files, only those at some
places of its own are changed. -/
structure Replaced (free : Prop) (own : List Location) (k t : Location) (new : ByteArray)
    (w : World) (r : Except FileError Unit) (v : World) (as : List Attempt) : Prop where
  /-- It succeeds just if it may begin and nothing goes wrong. -/
  succeeds : r = .ok () ↔ free ∧ ∀ a ∈ as, a.mishap = none
  stored : r = .ok () → v.content k = some new ∧ v.files.get? t = none
  kept : ∀ e, r = .error e → v.files.get? k = w.files.get? k
  /-- The file is never seen but as it was before or with all of the new content. -/
  whole : ∀ a ∈ as, a.world.files.get? k = w.files.get? k ∨ a.world.content k = some new
  /-- The file for the new content is left behind just if a write or saving it goes wrong. -/
  left : w.files.get? t = none → (v.files.get? t ≠ none ↔ ∃ a ∈ as, a.Unwritten)
  beside : ∀ m, m ≠ k → m ∉ own → v.files.get? m = w.files.get? m

section
variable {free free' : Prop} {own own' : List Location} {new : ByteArray}
  {r : Except FileError Unit} {e : FileError} {as as' : List Attempt}

theorem Replaced.of_error (hkt : k ≠ t) (hv : w.SameBut t v) (has : ∀ a ∈ as, w.SameBut t a.world)
    (hfails : ∃ a ∈ as, a.mishap ≠ none)
    (hleft : w.files.get? t = none → (v.files.get? t ≠ none ↔ ∃ a ∈ as, a.Unwritten)) :
    Replaced free [t] k t new w (.error e) v as := by
  obtain ⟨a, ha, hmishap⟩ := hfails
  exact ⟨iff_of_false (fun h => by (cases h)) fun h => hmishap (h.2 a ha), fun h => by (cases h),
    fun _ _ => hv.same k hkt, fun a ha => Or.inl ((has a ha).same k hkt), hleft,
    fun m _ hm => hv.same m fun h => hm (h ▸ List.mem_singleton_self t)⟩

theorem Replaced.of_ok (hkt : k ≠ t) (hfree : free) {x : Bool}
    (hk : v.files.get? k = some (.file new x)) (ht : v.files.get? t = none)
    (hbeside : ∀ m, m ≠ k → m ≠ t → v.files.get? m = w.files.get? m)
    (has : ∀ a ∈ as, a.mishap = none ∧ w.SameBut t a.world) :
    Replaced free [t] k t new w (.ok ()) v as := by
  refine ⟨iff_of_true rfl ⟨hfree, fun a ha => (has a ha).1⟩,
    fun _ => ⟨World.content_of_file hk, ht⟩, fun _ h => by (cases h),
    fun a ha => Or.inl ((has a ha).2.same k hkt), fun _ => ?_,
    fun m hm hnot => hbeside m hm fun h => hnot (h ▸ List.mem_singleton_self t)⟩
  exact iff_of_false (fun h => h ht) (Attempt.not_unwritten fun a ha => (has a ha).1)

/-- What comes after calls with which nothing goes wrong. -/
theorem Replaced.after (h : Replaced free own k t new w₁ r v as) (hfree : free ↔ free')
    (hk : w₁.files.get? k = w.files.get? k) (ht : w₁.files.get? t = w.files.get? t)
    (hbeside : ∀ m, m ≠ k → m ∉ own' → w₁.files.get? m = w.files.get? m) (hown : own ⊆ own')
    (has' : ∀ a ∈ as', a.mishap = none ∧ a.world.files.get? k = w.files.get? k) :
    Replaced free' own' k t new w r v (as' ++ as) := by
  refine ⟨?_, h.stored, fun e he => (h.kept e he).trans hk, fun a ha => ?_, fun hvacant => ?_,
    fun m hm hnot => (h.beside m hm fun hmem => hnot (hown hmem)).trans (hbeside m hm hnot)⟩
  · rw [h.succeeds, hfree, List.forall_mem_append]
    exact and_congr_right fun _ => (and_iff_right fun a ha => (has' a ha).1).symm
  · rcases List.mem_append.1 ha with ha | ha
    · exact Or.inl (has' a ha).2
    · exact (h.whole a ha).imp_left fun hsame => hsame.trans hk
  · have hcalm := Attempt.not_unwritten fun a ha => (has' a ha).1
    rw [h.left (ht.trans hvacant), Attempt.exists_unwritten_append, or_iff_right hcalm]

/-- What comes before calls that neither fail nor change files. -/
theorem Replaced.before (h : Replaced free own k t new w r v as) (hfiles : v'.files = v.files)
    (has' : ∀ a ∈ as', a.mishap = none ∧ a.world.files = v.files) :
    Replaced free own k t new w r v' (as ++ as') := by
  have hcontent : v'.content k = v.content k := World.content_congr (by rw [hfiles])
  refine ⟨?_, fun hr => ?_, fun e he => ?_, fun a ha => ?_, fun hvacant => ?_,
    fun m hm hnot => ?_⟩
  · rw [h.succeeds, List.forall_mem_append]
    exact and_congr_right fun _ => (and_iff_left fun a ha => (has' a ha).1).symm
  · rw [hcontent, hfiles]
    exact h.stored hr
  · rw [hfiles, h.kept e he]
  · rcases List.mem_append.1 ha with ha | ha
    · exact h.whole a ha
    · rw [(has' a ha).2, World.content_congr (w := v) (by rw [(has' a ha).2])]
      cases r with
      | ok => exact Or.inr (h.stored rfl).1
      | error e => exact Or.inl (h.kept e rfl)
  · have hcalm := Attempt.not_unwritten fun a ha => (has' a ha).1
    rw [hfiles, h.left hvacant, Attempt.exists_unwritten_append, or_iff_left hcalm]
  · rw [hfiles, h.beside m hm hnot]

end

/-! ## The calls of a replacement -/

theorem endsAmid_replace (hpath : path.Canonical)
    (hsite : Situated w.files w.cwd path self k l t) (bytes : ByteArray) :
    (replace path.text bytes).run.EndsAmid programs self mishaps n w
      (Replaced True [t] k t bytes w) := by
  obtain ⟨-, hkt, -⟩ := hsite.places_differ hpath
  have hw := World.SameBut.refl t w
  obtain ⟨files₁, x, hcreate, hways₁, hget₁⟩ := @World.create_at programs self w _ t hsite.new
  refine EndsAmid.safe rfl rfl ?_
  -- Each call has failed or the replacement goes on: first, a file for the new content is opened.
  refine EndsAmid.fallible (fun _ => rfl) hcreate (fun m _ => ?_) fun _ => ?_
  · refine endsAmid_done.2 (Replaced.of_error hkt hw ?_ ?_ fun hvacant => ?_)
    · simp [hw]
    · simp
    · simp [hvacant, Attempt.Unwritten, Call.writesOut]
  have hw₁ : w.SameBut t { w with files := files₁ } :=
    ⟨hways₁, rfl, fun m hm => (hget₁ m).trans (if_neg hm)⟩
  have hempty : files₁.get? t = some (.file .empty x) := (hget₁ t).trans (if_pos rfl)
  have hwrite (part : ByteArray) :=
    @World.append_at programs self _ _ t (hw₁.leadsTo hsite.new) _ x hempty part
  obtain ⟨files₂, happend, hways₂, hget₂⟩ := hwrite bytes
  refine EndsAmid.fallible (fun _ => rfl) happend (fun m _ => ?_) fun _ => ?_
  · -- Nobody removes what was written before the write failed.
    obtain ⟨files, hpart, hways, hget⟩ := hwrite (bytes.extract 0 m.written)
    rw [hpart]
    refine endsAmid_done.2 (Replaced.of_error hkt
      (hw₁.trans ⟨hways, rfl, fun m hm => (hget m).trans (if_neg hm)⟩) ?_ ?_ fun _ => ?_)
    · simp [hw, hw₁]
    · simp
    · simp [hget, Attempt.Unwritten, Call.writesOut]
  have hw₂ : w.SameBut t { w with files := files₂ } :=
    hw₁.trans ⟨hways₂, rfl, fun m hm => (hget₂ m).trans (if_neg hm)⟩
  have hfull : files₂.get? t = some (.file bytes x) := by
    rw [hget₂ t, if_pos rfl, ByteArray.empty_append]
  refine EndsAmid.fallible (fun _ => rfl) rfl (fun m _ => ?_) fun _ => ?_
  · refine endsAmid_done.2 (Replaced.of_error hkt hw₂ ?_ ?_ fun _ => ?_)
    · simp [hw, hw₁, hw₂]
    · simp
    · simp [hfull, Attempt.Unwritten, Call.writesOut]
  -- Only where the file cannot be given its name it is removed.
  obtain ⟨files₃, locks, hrename, hget₃⟩ := World.rename_onto programs self
    (hw₂.leadsTo hsite.new) (hw₂.endsAt hkt hsite.file) hkt hfull
  refine EndsAmid.fallible (fun _ => rfl) hrename (fun m _ => ?_) fun _ => ?_
  · obtain ⟨files, hremove, hways, hget⟩ :=
      World.removeFile_at programs self (hw₂.leadsTo hsite.new) hfull
    refine EndsAmid.safe rfl hremove ?_
    refine endsAmid_done.2 (Replaced.of_error hkt
      (hw₂.trans ⟨hways, rfl, fun m hm => (hget m).trans (if_neg hm)⟩) ?_ ?_ fun _ => ?_)
    · simp [hw, hw₁, hw₂]
    · simp
    · simp [hget, Attempt.Unwritten, Call.writesOut]
  · refine endsAmid_done.2 (Replaced.of_ok hkt trivial ((hget₃ k).trans (if_pos rfl)) ?_ ?_ ?_)
    · exact (hget₃ t).trans ((if_neg hkt.symm).trans (if_pos rfl))
    · intro m hmk hmt
      exact (hget₃ m).trans ((if_neg hmk).trans ((if_neg hmt).trans (hw₂.same m hmt)))
    · simp [hw, hw₁, hw₂]

theorem endsAmid_writeLocked (hpath : path.Canonical)
    (hsite : Situated w.files w.cwd path self k l t) (bytes : ByteArray) :
    (LockedFile.write ⟨path.text⟩ bytes).run.EndsAmid programs self mishaps n w
      (Replaced True [t] k t bytes w) := by
  refine (endsAmid_replace hpath hsite bytes).andThen ?_ fun _ _ _ h => h
  intro _ v as h
  refine EndsAmid.safe rfl rfl (endsAmid_done.2 (h.before rfl ?_))
  simp

/-! ## Under a lock -/

/-- What comes of taking the lock of a file. -/
structure Acquired (free : Prop) (l : Location) (w : World) (r : Except FileError Unit) (v : World)
    (as : List Attempt) : Prop where
  succeeds : r = .ok () ↔ free ∧ ∀ a ∈ as, a.mishap = none
  same : w.SameBut l v
  calls : ∀ a ∈ as, w.SameBut l a.world ∧ a.call.writesOut = false

theorem endsAmid_acquire {name : String} (hlock : w.files.LeadsTo w.cwd (lockPath name) l)
    (kind : LockKind) :
    (acquire name kind).run.EndsAmid programs self mishaps n w
      (Acquired (w.allows l kind = true) l w) := by
  have hw := World.SameBut.refl l w
  obtain ⟨files, htouch, hways, hget⟩ := @World.touch_at programs self w _ l hlock
  have hv : w.SameBut l { w with files } :=
    ⟨hways, rfl, fun m hm => (hget m).trans (if_neg hm)⟩
  refine EndsAmid.fallible (fun _ => rfl) htouch (fun m _ => ?_) fun _ => ?_
  · refine endsAmid_done.2 ⟨by simp, hw, ?_⟩
    simp [hw, Call.writesOut]
  have hasked := @World.lock_at programs self _ _ l (hv.leadsTo hlock) _
    ((hget l).trans (if_pos rfl)) kind
  have hallows : World.allows { w with files } l kind = w.allows l kind := by
    cases kind <;> rfl
  rw [hallows] at hasked
  cases hfree : w.allows l kind with
  | true =>
    rw [hfree, if_pos rfl] at hasked
    refine EndsAmid.safe rfl hasked (endsAmid_done.2 ⟨by simp, ⟨hways, rfl, hv.same⟩, ?_⟩)
    simp [hw, hv, Call.writesOut]
  | false =>
    rw [hfree, if_neg Bool.false_ne_true] at hasked
    refine EndsAmid.safe rfl hasked (EndsAmid.safe rfl rfl ?_)
    refine endsAmid_done.2 ⟨by simp, ⟨hways, rfl, hv.same⟩, ?_⟩
    simp [hw, hv, Call.writesOut]

theorem Acquired.replaced_of_error {free : Prop} {e : FileError} {as : List Attempt}
    (h : Acquired free l w (.error e) v as) (hkl : k ≠ l) (hlt : l ≠ t) (new : ByteArray) :
    Replaced free [l, t] k t new w (.error e) v as := by
  refine ⟨h.succeeds, fun he => by (cases he), fun _ _ => h.same.same k hkl,
    fun a ha => Or.inl ((h.calls a ha).1.same k hkl), fun hvacant => ?_,
    fun m _ hm => h.same.same m fun heq => hm (heq ▸ List.mem_cons_self)⟩
  refine iff_of_false (fun hleft => hleft ((h.same.same t hlt.symm).trans hvacant)) ?_
  rintro ⟨a, ha, -, hwrites⟩
  rw [(h.calls a ha).2] at hwrites
  cases hwrites

variable (programs self) in
theorem answer_unlock (name : String) (kind : LockKind) (w : World) :
    ∃ v, w.answer programs self (.unlock name kind) = ((), v) ∧ v.files = w.files := by
  rw [World.answer]
  split
  · exact ⟨_, rfl, rfl⟩
  · exact ⟨_, rfl, rfl⟩

theorem endsAmid_replaceLocked (hpath : path.Canonical)
    (hsite : Situated w.files w.cwd path self k l t) (bytes : ByteArray) :
    (withLock path.text .exclusive (replace path.text bytes)).run.EndsAmid programs self mishaps n w
      (Replaced (w.allows l .exclusive = true) [l, t] k t bytes w) := by
  obtain ⟨hkl, hkt, hlt⟩ := hsite.places_differ hpath
  rw [withLock]
  refine (endsAmid_acquire hsite.lock .exclusive).andThen ?_ fun e v as h =>
    h.replaced_of_error hkl hlt _
  intro _ v as h
  obtain ⟨hfree, hnone⟩ := h.succeeds.1 rfl
  have hsite' : Situated v.files v.cwd path self k l t :=
    ⟨h.same.endsAt hkl hsite.file, h.same.leadsTo hsite.lock, h.same.leadsTo hsite.new⟩
  refine (endsAmid_replace hpath hsite' bytes).finally_ fun r u as' h' => ?_
  obtain ⟨u', hunlock, hfiles⟩ := answer_unlock programs self (lockPath path.text) .exclusive u
  refine EndsAmid.safe rfl hunlock (endsAmid_done.2 ?_)
  refine (h'.before hfiles ?_).after (iff_of_true trivial hfree) (h.same.same k hkl)
    (h.same.same t hlt.symm) (fun m _ hm => h.same.same m ?_) (by simp)
    fun a ha => ⟨hnone a ha, (h.calls a ha).1.same k hkl⟩
  · simp
  · exact fun heq => hm (heq ▸ List.mem_cons_self)

/-! ## With the directory of the file -/

theorem endsAmid_makeParent (name : String) (w : World) :
    (makeParent name).run.EndsAmid programs self mishaps n w fun r v as =>
      w.run programs self (makeParent name).run = (r, v) ∧ w.Grown v ∧
        ∀ a ∈ as, a.mishap = none ∧ w.Grown a.world ∧ a.world.Grown v := by
  refine EndsAmid.of_asks World.Grown.refl World.Grown.trans (fun c hc => ⟨?_, fun w => ?_⟩)
    (asks_makeParent name)
  · cases hc <;> rfl
  · exact grown_makesDirs hc w

theorem endsAmid_writeAtomic (hpath : path.Canonical)
    (hparent : w.run programs self (makeParent path.text).run = (.ok (), w₀))
    (hsite : Situated w₀.files w₀.cwd path self k l t) (bytes : ByteArray) :
    (writeAtomic path bytes).run.EndsAmid programs self mishaps n w
      (Replaced (w₀.allows l .exclusive = true) [l, t] k t bytes w₀) := by
  refine (endsAmid_makeParent path.text w).andThen ?_ ?_
  · rintro _ v as ⟨hrun, -, has⟩
    cases hrun.symm.trans hparent
    refine ((endsAmid_replaceLocked hpath hsite bytes).andThen ?_ fun _ _ _ h => h).mono ?_
    · intro _ v as' h
      refine EndsAmid.safe rfl rfl (endsAmid_done.2 (h.before rfl ?_))
      simp
    · intro r v as' h
      refine h.after Iff.rfl rfl rfl (fun _ _ _ => rfl) (List.Subset.refl _) fun a ha => ?_
      obtain ⟨hnone, -, hgrown⟩ := has a ha
      exact ⟨hnone, (hgrown.get?_of_ne hsite.file.notDirectory).symm⟩
  · rintro e v as ⟨hrun, -⟩
    cases hrun.symm.trans hparent

/-- Where the directory of the file cannot be made nothing is written. -/
theorem endsAmid_writeAtomic_homeless {e : FileError}
    (hparent : w.run programs self (makeParent path.text).run = (.error e, w₁))
    (bytes : ByteArray) :
    (writeAtomic path bytes).run.EndsAmid programs self mishaps n w fun r v as =>
      r = .error e ∧ v = w₁ ∧ w.Grown v ∧ ∀ a ∈ as, w.Grown a.world := by
  refine (endsAmid_makeParent path.text w).andThen ?_ ?_
  · rintro _ v as ⟨hrun, -⟩
    cases hrun.symm.trans hparent
  · rintro e' v as ⟨hrun, hgrown, has⟩
    cases hrun.symm.trans hparent
    exact ⟨rfl, rfl, hgrown, fun a ha => (has a ha).2.1⟩

/-- A write that fails leaves behind what it has written. -/
theorem endsAmid_replace_unwritten {name : String}
    (hnew : w.files.LeadsTo w.cwd (newPath name self) t) (bytes : ByteArray) {m : Mishap}
    (hopens : mishaps.of (n + 1) (.create (newPath name self)) w = none)
    (hfails : ∀ v, mishaps.of (n + 2) (.append (newPath name self) bytes) v = some m) :
    (replace name bytes).run.EndsAmid programs self mishaps n w fun r v _ =>
      r = .error (.system (newPath name self) m.fault) ∧
        v.content t = some (bytes.extract 0 m.written) := by
  obtain ⟨files₁, x, hcreate, hways₁, hget₁⟩ := @World.create_at programs self w _ t hnew
  have hnew₁ : files₁.LeadsTo w.cwd (newPath name self) t := hnew.sameWays hways₁
  have hwrite (part : ByteArray) := @World.append_at programs self { w with files := files₁ } _ t
    hnew₁ _ x ((hget₁ t).trans (if_pos rfl)) part
  obtain ⟨_, happend, -⟩ := hwrite bytes
  refine EndsAmid.safe rfl rfl ?_
  refine EndsAmid.fallible (fun _ => rfl) hcreate (fun m' hm' => ?_) fun _ => ?_
  · cases hopens.symm.trans hm'
  refine EndsAmid.fallible (fun _ => rfl) happend (fun m' hm' => ?_) fun hm' => ?_
  · cases (hfails _).symm.trans hm'
    obtain ⟨files₂, hpart, -, hget⟩ := hwrite (bytes.extract 0 m.written)
    have hwritten : files₂.get? t = some (.file (bytes.extract 0 m.written) x) := by
      rw [hget t, if_pos rfl, ByteArray.empty_append]
    rw [hpart]
    exact endsAmid_done.2 ⟨rfl, World.content_of_file hwritten⟩
  · cases (hfails _).symm.trans hm'

end

end Storage

/-! ## A file at the root -/

namespace Sample

/-- A world with one file, at the root. -/
def oldTargets : World where
  files := ⟨[(["targets.toml"], .file "old".toUTF8 false)]⟩

/-- There is no space for anything that is written. -/
def diskFull : Mishaps := fun _ c _ =>
  match c with
  | .append .. => some ⟨.noSpace, 0⟩
  | _ => none

theorem sited_oldTargets : Storage.Sited oldTargets.files oldTargets.cwd
    (NormalPath.ofText "/targets.toml") 1
    ["targets.toml"] ["targets.toml.lock"] [".targets.toml.1.tmp"] := by
  refine sited oldTargets.cwd List.mem_cons_self ?_ ?_ ?_ <;> intro e he
  · cases he
    exact ⟨_, _, rfl⟩
  · cases he
  · cases he

end Sample

namespace Storage

/-! ## Whatever fails -/

/-- A file is replaced as a whole or not at all, whichever calls that open, write, save or rename
files fail. Success means that it holds just the new content, failure that it is as it was, and at
no call on the way it holds anything else. A file for the new content that was not there before is
left beside it just if a write, or saving what was written, went wrong; whatever else fails leaves
none. -/
theorem replacement_is_atomic {path : NormalPath} {programs : Executables} {self : Nat}
    {w w₀ : World} {k l t : Location} (hpath : path.Canonical)
    (hparent : w.run programs self (makeParent path.text).run = (.ok (), w₀))
    (hsite : Situated w₀.files w₀.cwd path self k l t) (mishaps : Mishaps) (n : Nat)
    (bytes : ByteArray) :
    let atomic := (writeAtomic path bytes).run
    let locked := (LockedFile.write ⟨path.text⟩ bytes).run
    (w₀.files.get? k = w.files.get? k ∧ w₀.files.get? t = w.files.get? t) ∧
      Replaced (w₀.allows l .exclusive = true) [l, t] k t bytes w₀
        (w.runAmid programs self mishaps n atomic).1 (w.runAmid programs self mishaps n atomic).2
        (w.attempts programs self mishaps n atomic) ∧
      Replaced True [t] k t bytes w₀
        (w₀.runAmid programs self mishaps n locked).1 (w₀.runAmid programs self mishaps n locked).2
        (w₀.attempts programs self mishaps n locked) ∧
      ∀ (u u' : World) (e : FileError),
        u.run programs self (makeParent path.text).run = (.error e, u') →
          u.runAmid programs self mishaps n atomic = (.error e, u') ∧ u.Grown u' := by
  intro atomic locked
  have hgrown : w.Grown w₀ := by
    have hrun : w.Grown (w.run programs self (makeParent path.text).run).2 :=
      run_makeParent_grown path.text w
    rwa [hparent] at hrun
  refine ⟨⟨hgrown.get?_of_ne hsite.file.notDirectory, hgrown.get? hsite.new.holdsFile⟩,
    (endsAmid_writeAtomic hpath hparent hsite bytes).runAmid,
    (endsAmid_writeLocked hpath hsite bytes).runAmid, fun u u' e hfails => ?_⟩
  have hends : atomic.EndsAmid programs self mishaps n u _ :=
    endsAmid_writeAtomic_homeless hfails bytes
  obtain ⟨hr, hv, hu, -⟩ := hends.runAmid
  exact ⟨Prod.ext hr hv, hv ▸ hu⟩

/-- Where nothing goes wrong the new content is stored, and no other file is left. -/
theorem replacement_is_atomic_sample :
    ∃ v, Sample.oldTargets.runAmid Sample.idle 1 Mishaps.none_ 0
        (writeAtomic (NormalPath.ofText "/targets.toml") "new".toUTF8).run = (.ok (), v) ∧
      v.content ["targets.toml"] = some "new".toUTF8 ∧
      v.files.get? [".targets.toml.1.tmp"] = none := by
  have hpath := NormalPath.canonical_ofText "/targets.toml"
  have hsite := Sample.sited_oldTargets
  have hparent : Sample.oldTargets.run Sample.idle 1
      (makeParent (NormalPath.ofText "/targets.toml").text).run = (.ok (), Sample.oldTargets) :=
    run_makeParent_sited hpath hsite
  obtain ⟨-, hreplaced, -⟩ := replacement_is_atomic hpath hparent hsite.situated
    Mishaps.none_ 0 "new".toUTF8
  have hfree : Sample.oldTargets.allows ["targets.toml.lock"] .exclusive = true := rfl
  have hdone := hreplaced.succeeds.2 ⟨hfree, World.attempts_none _ _ _⟩
  have hstored := hreplaced.stored hdone
  generalize Sample.oldTargets.runAmid Sample.idle 1 Mishaps.none_ 0
    (writeAtomic (NormalPath.ofText "/targets.toml") "new".toUTF8).run = ended at hdone hstored ⊢
  exact ⟨ended.2, Prod.ext hdone rfl, hstored⟩

/-- A disk that is full leaves a file beside the one that should have been replaced. -/
theorem failed_write_leaves_file :
    ∃ e v, Sample.oldTargets.runAmid Sample.idle 1 Sample.diskFull 0
        (LockedFile.write ⟨"/targets.toml"⟩ "new".toUTF8).run = (.error e, v) ∧
      Sample.oldTargets.files.get? [".targets.toml.1.tmp"] = none ∧
      v.files.get? [".targets.toml.1.tmp"] ≠ none := by
  have htext : (NormalPath.ofText "/targets.toml").text = "/targets.toml" := by decide +kernel
  have hnew := Sample.sited_oldTargets.new
  rw [htext] at hnew
  have hopens :
      Sample.diskFull.of 1 (.create (newPath "/targets.toml" 1)) Sample.oldTargets = none := rfl
  have hfails (v : World) :
      Sample.diskFull.of 2 (.append (newPath "/targets.toml" 1) "new".toUTF8) v =
        some ⟨.noSpace, 0⟩ := rfl
  have hreplace :
      (replace "/targets.toml" "new".toUTF8).run.EndsAmid Sample.idle 1 Sample.diskFull 0 _ _ :=
    endsAmid_replace_unwritten hnew "new".toUTF8 hopens hfails
  have hwrite : (LockedFile.write ⟨"/targets.toml"⟩ "new".toUTF8).run.EndsAmid
      Sample.idle 1 Sample.diskFull 0 Sample.oldTargets fun r v _ =>
        r = .error (.system (newPath "/targets.toml" 1) .noSpace) ∧
        v.content [".targets.toml.1.tmp"] = some ("new".toUTF8.extract 0 0) := by
    refine hreplace.andThen ?_ fun _ _ _ h => h
    rintro _ _ _ ⟨hr, -⟩
    cases hr
  obtain ⟨hr, hleft⟩ := hwrite.runAmid
  generalize Sample.oldTargets.runAmid Sample.idle 1 Sample.diskFull 0
    (LockedFile.write ⟨"/targets.toml"⟩ "new".toUTF8).run = ended at hr hleft ⊢
  obtain ⟨x, hx⟩ := World.content_eq_some.1 hleft
  refine ⟨_, ended.2, Prod.ext hr rfl, rfl, ?_⟩
  rw [hx]
  exact Option.some_ne_none _

end Storage
end SelectiveSync
