import SelectiveSync.Proofs.System.Walks

/-! # Files read after they were written

A path that leads to a file, or to a name that its directory does not hold, leads to the same place
after a file was put there, since all that is passed on the way is directories and links.

* `get?_insert`: an entry put at a location is there, and all others are what they were.
* `locate_insert`: the walk along a path ends at the file that was put where it ended before.
* `read_openWith`: what was written through a path is what is read through it. -/
namespace SelectiveSync
set_option autoImplicit false

/-- What is at a place. -/
def Place.entry? : Place → Option Entry
  | .found _ e => some e
  | .vacant .. => none

namespace FileSystem

/-! ## Entries -/

theorem lookup_cons (k l : Location) (e : Entry) (es : List (Location × Entry)) :
    ((l, e) :: es).lookup k = if k = l then some e else es.lookup k := by
  rw [List.lookup_cons]
  by_cases hk : k = l
  · rw [if_pos hk, beq_iff_eq.2 hk]
  · rw [if_neg hk, beq_eq_false_iff_ne.2 hk]

theorem lookup_put (l k : Location) (e : Entry) (es : List (Location × Entry)) :
    (put l e es).lookup k = if k = l then some e else es.lookup k := by
  induction es with
  | nil => exact lookup_cons k l e []
  | cons x es ih =>
    obtain ⟨m, y⟩ := x
    rw [put]
    by_cases hm : m = l
    · rw [if_pos hm, lookup_cons, lookup_cons, hm]
      by_cases hk : k = l
      · rw [if_pos hk, if_pos hk]
      · rw [if_neg hk, if_neg hk, if_neg hk]
    · rw [if_neg hm, lookup_cons, lookup_cons, ih]
      by_cases hk : k = m
      · have hkl : k ≠ l := fun h => hm (hk.symm.trans h)
        rw [if_pos hk, if_neg hkl, if_pos hk]
      · rw [if_neg hk, if_neg hk]

theorem put_of_lookup {l : Location} {e : Entry} {es : List (Location × Entry)}
    (h : es.lookup l = some e) : put l e es = es := by
  induction es with
  | nil => cases h
  | cons x es ih =>
    obtain ⟨m, y⟩ := x
    rw [lookup_cons] at h
    rw [put]
    by_cases hm : m = l
    · rw [if_pos hm.symm, Option.some_inj] at h
      rw [if_pos hm, h]
    · rw [if_neg (Ne.symm hm)] at h
      rw [if_neg hm, ih h]

/-- To put something where it is already changes nothing. -/
theorem insert_of_get? {fs : FileSystem} {l : Location} {e : Entry} (hl : l ≠ [])
    (h : fs.get? l = some e) : fs.insert l e = fs := by
  rw [get?, if_neg hl] at h
  rw [insert, put_of_lookup h]

theorem get?_insert (fs : FileSystem) {l : Location} (hl : l ≠ []) (e : Entry) (k : Location) :
    (fs.insert l e).get? k = if k = l then some e else fs.get? k := by
  rw [get?, get?, insert, lookup_put]
  by_cases hk : k = []
  · subst hk
    rw [if_pos rfl, if_neg (Ne.symm hl), if_pos rfl]
  · rw [if_neg hk, if_neg hk]

/-- The location holds nothing, or a file. -/
def HoldsFile (fs : FileSystem) (l : Location) : Prop :=
  ∀ e, fs.get? l = some e → ∃ bytes x, e = .file bytes x

/-! ## Walks -/

/-- A walk that reached its place finds the entry put there. -/
def Stop.put (l : Location) (e : Entry) : Stop → Stop
  | .at_ _ => .at_ (.found l e)
  | .link dir ps => .link dir ps

section
variable {fs : FileSystem} {follow : Bool} {dir l : Location} {ps : List String}

theorem walkToLink_insert (hl : l ≠ []) (hfile : fs.HoldsFile l) (bytes : ByteArray) (x : Bool)
    {stop : Stop} (h : fs.walkToLink follow dir ps = .ok stop)
    (hstop : ∀ place, stop = .at_ place → place.location = l) :
    (fs.insert l (.file bytes x)).walkToLink follow dir ps = .ok (stop.put l (.file bytes x)) := by
  have hput : (fs.insert l (.file bytes x)).get? l = some (.file bytes x) := by
    rw [get?_insert fs hl, if_pos rfl]
  -- what is passed on the way is a directory or a link, so that nothing was put there
  have hkeep {k : Location} {e : Entry} (he : fs.get? k = some e)
      (hnot : ∀ b y, e ≠ .file b y) : (fs.insert l (.file bytes x)).get? k = some e := by
    have hne : k ≠ l := by
      rintro rfl
      obtain ⟨b, y, heq⟩ := hfile e he
      exact hnot b y heq
    rw [get?_insert fs hl, if_neg hne, he]
  obtain ⟨dir', ps', halong, hhalts⟩ := walkToLink_eq_ok.1 h
  refine walkToLink_eq_ok.2 ⟨dir', ps', halong.kept fun k hk => hkeep hk (by simp), ?_⟩
  cases hhalts with
  | here he =>
    have hdir : dir' = l := hstop _ rfl
    subst hdir
    exact .here hput
  | @name p hp hdir hlink =>
    have hat : dir' ++ [p] = l := (location_placeAt fs dir' p).symm.trans (hstop _ rfl)
    rw [Stop.put, ← placeAt_eq_found.2 ⟨hat, hput⟩]
    exact .name hp (by simp [hat, hput]) (by simp [hat, hput])
  | link hp he hgoes => exact .link hp (hkeep he (by simp)) hgoes

theorem walk_insert (hl : l ≠ []) (hfile : fs.HoldsFile l) (bytes : ByteArray) (x : Bool)
    (links : Nat) {place : Place} (h : fs.walk follow links dir ps = .ok place)
    (hplace : place.location = l) :
    (fs.insert l (.file bytes x)).walk follow links dir ps = .ok (.found l (.file bytes x)) := by
  rw [walk_eq_ok] at h ⊢
  induction h with
  | ends hstop =>
    exact .ends (walkToLink_insert hl hfile bytes x hstop fun q hq => by cases hq; exact hplace)
  | past hstop _ ih =>
    exact .past (walkToLink_insert hl hfile bytes x hstop fun q hq => by cases hq) ih

/-! ## Places -/

theorem get?_placeAt (fs : FileSystem) (dir : Location) (name : String) :
    fs.get? (fs.placeAt dir name).location = Place.entry? (fs.placeAt dir name) := by
  rw [location_placeAt, placeAt]
  split
  · next he => exact he
  · next he => exact he

/-- A walk that reaches its place tells truly what is there. -/
theorem get?_of_walkToLink {place : Place} (h : fs.walkToLink follow dir ps = .ok (.at_ place)) :
    fs.get? place.location = place.entry? := by
  obtain ⟨dir', ps', -, hhalts⟩ := walkToLink_eq_ok.1 h
  cases hhalts with
  | here he => exact he
  | name => exact get?_placeAt fs dir' _

theorem get?_of_walk {links : Nat} {place : Place}
    (h : fs.walk follow links dir ps = .ok place) : fs.get? place.location = place.entry? := by
  induction walk_eq_ok.1 h with
  | ends hstop => exact get?_of_walkToLink hstop
  | past _ hmore ih => exact ih (walk_eq_ok.2 hmore)

theorem locate_eq_ok {cwd : Location} {path : String} {place : Place} :
    fs.locate cwd follow path = .ok place ↔
      '\x00' ∉ path.toList ∧ path ≠ "" ∧ path.utf8ByteSize < 4096 ∧
        fs.walk follow linkLimit (if Text.startsWith '/' path then [] else cwd) (parts path) =
          .ok place := by
  rw [locate]
  by_cases hnul : '\x00' ∈ path.toList
  · simp [hnul]
  rw [if_neg hnul]
  by_cases hempty : path = ""
  · simp [hempty]
  rw [if_neg hempty]
  by_cases hlong : 4096 ≤ path.utf8ByteSize
  · simp [hlong, Nat.not_lt_of_le hlong]
  · rw [if_neg hlong]
    simp only [hnul, hempty, Nat.lt_of_not_le hlong, not_false_eq_true, ne_eq, true_and]

/-- A path leads where the walk along it goes. -/
theorem locate_of_walk {fs' : FileSystem} {follow' : Bool} {cwd : Location} {path : String}
    {place place' : Place} (h : fs.locate cwd follow path = .ok place)
    (hwalk : ∀ dir, fs.walk follow linkLimit dir (parts path) = .ok place →
      fs'.walk follow' linkLimit dir (parts path) = .ok place') :
    fs'.locate cwd follow' path = .ok place' := by
  obtain ⟨hnul, hempty, hlong, hplace⟩ := locate_eq_ok.1 h
  exact locate_eq_ok.2 ⟨hnul, hempty, hlong, hwalk _ hplace⟩

/-- A path that leads to a place tells truly what is there. -/
theorem get?_of_locate {cwd : Location} {path : String} {place : Place}
    (h : fs.locate cwd follow path = .ok place) : fs.get? place.location = place.entry? :=
  get?_of_walk (locate_eq_ok.1 h).2.2.2

theorem entry_eq_ok {cwd : Location} {path : String} {e : Entry} :
    fs.entry cwd path = .ok (l, e) ↔ fs.locate cwd true path = .ok (.found l e) := by
  rw [entry]
  split <;> simp_all

theorem locate_insert {cwd : Location} {path : String} {place : Place}
    (h : fs.locate cwd follow path = .ok place)
    (hfile : ∀ e, place.entry? = some e → ∃ bytes x, e = .file bytes x) (bytes : ByteArray)
    (x : Bool) :
    (fs.insert place.location (.file bytes x)).locate cwd follow path =
      .ok (.found place.location (.file bytes x)) := by
  have hentry := get?_of_locate h
  have hl : place.location ≠ [] := by
    intro hroot
    rw [hroot, get?, if_pos rfl] at hentry
    obtain ⟨b, y, heq⟩ := hfile _ hentry.symm
    cases heq
  have hholds : fs.HoldsFile place.location := by
    rw [HoldsFile, hentry]
    exact hfile
  exact locate_of_walk h fun _ hwalk => walk_insert hl hholds bytes x linkLimit hwalk rfl

end

/-! ## Writing and reading -/

/-- What a path leads to after it was opened for writing is what was made of its bytes, or of none
if there were none. -/
theorem read_openWith {fs fs' : FileSystem} {cwd l : Location} {change : ByteArray → ByteArray}
    {path : String} (h : fs.openWith cwd change path = .ok (l, fs')) :
    fs'.read cwd path = .ok (change ((fs.read cwd path).toOption.getD .empty)) := by
  have hread {place : Place} {k : Location} {bytes : ByteArray} {x : Bool}
      (hplace : fs.locate cwd true path = .ok place) (hk : place.location = k)
      (hfile : ∀ e, place.entry? = some e → ∃ bytes x, e = .file bytes x) :
      (fs.insert k (.file bytes x)).read cwd path = .ok bytes := by
    rw [read, entry_eq_ok.2 (hk ▸ locate_insert hplace hfile bytes x)]
  rw [openWith] at h
  cases hplace : fs.locate cwd true path with
  | error fault =>
    rw [hplace] at h
    cases h
  | ok place =>
    rw [hplace] at h
    cases place with
    | vacant dir name =>
      cases h
      have hold : (fs.read cwd path).toOption.getD .empty = .empty := by
        rw [read, entry, hplace]
        rfl
      rw [hold]
      exact hread hplace rfl (by simp [Place.entry?])
    | found k e =>
      cases e with
      | directory => cases h
      | link target => cases h
      | file bytes y =>
        cases h
        have hold : (fs.read cwd path).toOption.getD .empty = bytes := by
          rw [read, entry, hplace]
          rfl
        rw [hold]
        refine hread hplace rfl fun e he => ?_
        cases he
        exact ⟨bytes, y, rfl⟩

/-- A file that can be read can be opened for writing. -/
theorem openWith_of_read {fs : FileSystem} {cwd : Location} {path : String} {bytes : ByteArray}
    (h : fs.read cwd path = .ok bytes) (change : ByteArray → ByteArray) :
    ∃ l fs', fs.openWith cwd change path = .ok (l, fs') ∧ fs'.read cwd path = .ok (change bytes) := by
  have hplace : ∃ l x, fs.locate cwd true path = .ok (.found l (.file bytes x)) := by
    rw [read] at h
    split at h
    · next hentry =>
      cases h
      exact ⟨_, _, entry_eq_ok.1 hentry⟩
    · cases h
    · cases h
  obtain ⟨l, x, hplace⟩ := hplace
  have hopen : fs.openWith cwd change path = .ok (l, fs.insert l (.file (change bytes) x)) := by
    rw [openWith, hplace]
  refine ⟨l, _, hopen, ?_⟩
  rw [read_openWith hopen, h]
  rfl

end FileSystem
end SelectiveSync
