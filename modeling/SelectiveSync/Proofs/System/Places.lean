import SelectiveSync.Proofs.System.FileSystem

/-! # Where paths lead while files change

Files come and go beside each other all the time. As long as directories and links stay, a path that
leads to a file, or to where one could be made, goes on leading there.

* `SameWays`: two file systems with the same directories and links.
* `LeadsInto`: a path leads to a directory.
* `LeadsTo`: a path leads to a location that holds a file or nothing; `LeadsTo.sameWays` carries it
  over to every file system with the same ways.
* `LeadsTo.entry_of_some`, `LeadsTo.openWith` and `LeadsTo.rename`: what calls on such paths do, said
  by locations. -/
namespace SelectiveSync
set_option autoImplicit false

namespace FileSystem

/-! ## File systems with the same ways -/

/-- Both have the same directories and links, at the same locations. -/
def SameWays (fs fs' : FileSystem) : Prop :=
  ∀ l e, (∀ bytes x, e ≠ .file bytes x) → (fs.get? l = some e ↔ fs'.get? l = some e)

theorem SameWays.refl (fs : FileSystem) : fs.SameWays fs :=
  fun _ _ _ => Iff.rfl

theorem SameWays.symm {fs fs' : FileSystem} (h : fs.SameWays fs') : fs'.SameWays fs :=
  fun l e he => (h l e he).symm

theorem SameWays.trans {fs fs' fs'' : FileSystem} (h : fs.SameWays fs') (h' : fs'.SameWays fs'') :
    fs.SameWays fs'' :=
  fun l e he => (h l e he).trans (h' l e he)

theorem SameWays.holdsFile {fs fs' : FileSystem} (h : fs.SameWays fs') {l : Location}
    (hfile : fs.HoldsFile l) : fs'.HoldsFile l := by
  intro e he
  cases e with
  | file bytes x => exact ⟨bytes, x, rfl⟩
  | directory =>
    obtain ⟨_, _, heq⟩ := hfile _ ((h l _ (by simp)).2 he)
    cases heq
  | link target =>
    obtain ⟨_, _, heq⟩ := hfile _ ((h l _ (by simp)).2 he)
    cases heq

theorem lookup_filter (keep : Location → Bool) (k : Location) (es : List (Location × Entry)) :
    (es.filter fun (m, _) => keep m).lookup k = if keep k then es.lookup k else none := by
  induction es with
  | nil => simp
  | cons x es ih =>
    obtain ⟨m, e⟩ := x
    rw [List.filter_cons, lookup_cons]
    by_cases hk : k = m
    · subst hk
      by_cases hkeep : keep k = true
      · rw [if_pos hkeep, lookup_cons, if_pos rfl, if_pos rfl, if_pos hkeep]
      · rw [if_neg hkeep, ih, if_neg hkeep, if_neg hkeep]
    · rw [if_neg hk, ← ih]
      by_cases hkeep : keep m = true
      · rw [if_pos hkeep, lookup_cons, if_neg hk]
      · rw [if_neg hkeep]

theorem get?_erase (fs : FileSystem) {l : Location} (hl : l ≠ []) (k : Location) :
    (fs.erase l).get? k = if k = l then none else fs.get? k := by
  have hlookup : (fs.erase l).entries.lookup k = if k = l then none else fs.entries.lookup k := by
    have hfilter := lookup_filter (· ≠ l) k fs.entries
    rw [erase, hfilter]
    by_cases hk : k = l <;> simp [hk]
  rw [get?, get?, hlookup]
  by_cases hk : k = []
  · subst hk
    rw [if_pos rfl, if_neg (Ne.symm hl), if_pos rfl]
  · rw [if_neg hk, if_neg hk]

theorem get?_erase_of_ne (fs : FileSystem) {l k : Location} (h : k ≠ l) :
    (fs.erase l).get? k = fs.get? k := by
  have hlookup := lookup_filter (· ≠ l) k fs.entries
  rw [get?, get?, erase, hlookup]
  simp [h]

theorem get?_eraseTree (fs : FileSystem) (l k : Location) :
    (fs.eraseTree l).get? k = if k ≠ [] ∧ l <+: k then none else fs.get? k := by
  have hlookup := lookup_filter (fun m => !l.isPrefixOf m) k fs.entries
  rw [get?, get?, eraseTree, hlookup]
  by_cases hk : k = []
  · rw [if_pos hk, if_pos hk, if_neg fun h => h.1 hk]
  · rw [if_neg hk, if_neg hk]
    by_cases hl : l <+: k
    · have hgone : ¬ (!l.isPrefixOf k) = true := by simp [hl]
      rw [if_neg hgone, if_pos ⟨hk, hl⟩]
    · have hkeep : (!l.isPrefixOf k) = true := by
        rw [Bool.not_eq_true', Bool.eq_false_iff]
        exact mt List.isPrefixOf_iff_prefix.1 hl
      rw [if_pos hkeep, if_neg fun hand => hl hand.2]

/-- A file or directory that is removed goes with all beneath it, and nothing else goes. -/
theorem kept_of_remove {fs fs' : FileSystem} {cwd : Location} {path : String}
    (h : fs.removeFile cwd path = .ok fs' ∨ fs.removeTree cwd path = .ok fs') :
    ∃ l e, fs.locate cwd false path = .ok (.found l e) ∧
      ∀ k, ¬ l <+: k → fs'.get? k = fs.get? k := by
  have herase {l : Location} (k : Location) (hk : ¬ l <+: k) : (fs.erase l).get? k = fs.get? k :=
    get?_erase_of_ne fs fun heq : k = l => hk (heq ▸ List.prefix_rfl)
  rcases h with h | h
  · rw [removeFile] at h
    split at h
    · cases h
    · next hplace =>
      cases h
      exact ⟨_, _, hplace, herase⟩
    · cases h
    · cases h
  · rw [removeTree] at h
    split at h
    · next hplace =>
      cases h
      refine ⟨_, _, hplace, fun k hk => ?_⟩
      rw [get?_eraseTree, if_neg fun hand => hk hand.2]
    · next hplace =>
      cases h
      exact ⟨_, _, hplace, herase⟩
    · cases h
    · cases h
    · cases h

/-- What is at a location stays when something is removed, unless its path leads there or above. -/
theorem get?_of_remove {fs fs' : FileSystem} {cwd k : Location} {p : String} (hk : k ≠ [])
    (h : fs.removeFile cwd p = .ok fs' ∨ fs.removeTree cwd p = .ok fs') :
    fs'.get? k = fs.get? k ∨ fs'.get? k = none ∧
      ∃ o x, fs.locate cwd false p = .ok (.found o x) ∧ o <+: k := by
  have herase {o : Location} {x : Entry} (hplace : fs.locate cwd false p = .ok (.found o x)) :
      (fs.erase o).get? k = fs.get? k ∨ (fs.erase o).get? k = none ∧
        ∃ o x, fs.locate cwd false p = .ok (.found o x) ∧ o <+: k := by
    by_cases hko : k = o
    · subst hko
      exact Or.inr ⟨by rw [get?_erase fs hk, if_pos rfl], _, _, hplace, List.prefix_rfl⟩
    · exact Or.inl (get?_erase_of_ne fs hko)
  rcases h with h | h
  · rw [removeFile] at h
    split at h
    · cases h
    · next hplace =>
      cases h
      exact herase hplace
    · cases h
    · cases h
  · rw [removeTree] at h
    split at h
    · next o hplace =>
      cases h
      rw [get?_eraseTree]
      by_cases hok : o <+: k
      · exact Or.inr ⟨if_pos ⟨hk, hok⟩, _, _, hplace, hok⟩
      · exact Or.inl (if_neg fun hand => hok hand.2)
    · next hplace =>
      cases h
      exact herase hplace
    · cases h
    · cases h
    · cases h

theorem sameWays_insert {fs : FileSystem} {l : Location} (hl : l ≠ []) (h : fs.HoldsFile l)
    (bytes : ByteArray) (x : Bool) : fs.SameWays (fs.insert l (.file bytes x)) := by
  intro k e he
  rw [get?_insert fs hl]
  by_cases hk : k = l
  · subst hk
    rw [if_pos rfl]
    refine iff_of_false (fun hold => ?_) fun hnew => he bytes x (Option.some.inj hnew).symm
    obtain ⟨b, y, rfl⟩ := h e hold
    exact he b y rfl
  · rw [if_neg hk]

theorem sameWays_erase {fs : FileSystem} {l : Location} (hl : l ≠ []) (h : fs.HoldsFile l) :
    fs.SameWays (fs.erase l) := by
  intro k e he
  rw [get?_erase fs hl]
  by_cases hk : k = l
  · subst hk
    rw [if_pos rfl]
    refine iff_of_false (fun hold => ?_) (by simp)
    obtain ⟨b, y, rfl⟩ := h e hold
    exact he b y rfl
  · rw [if_neg hk]

/-! ## Walks in file systems with the same ways -/

section
variable {fs fs' : FileSystem} {dir : Location} {ps : List String} {n : String}

/-- Two walks that end at one location, named `n` there, or come to one link with a way on that ends
in `n`. -/
inductive Alike (n : String) : Stop → Stop → Prop
  | at_ {p q : Place} (h : q.location = p.location) (hn : p.location.getLast? = some n) :
      Alike n (.at_ p) (.at_ q)
  | link (dir : Location) {ps : List String} (hn : ps.getLast? = some n) :
      Alike n (.link dir ps) (.link dir ps)

theorem walkToLink_sameWays (h : fs.SameWays fs') (hn : ps.getLast? = some n)
    (hdots : n ≠ "." ∧ n ≠ "..") {stop : Stop} (hs : fs.walkToLink false dir ps = .ok stop) :
    ∃ stop', fs'.walkToLink false dir ps = .ok stop' ∧ Alike n stop stop' := by
  have hways {l : Location} {e : Entry} (hnot : ∀ b y, e ≠ .file b y) := h l e hnot
  obtain ⟨dir', ps', halong, hhalts⟩ := walkToLink_eq_ok.1 hs
  have hgoes {stop' : Stop} (h' : fs'.Halts false dir' ps' stop') :
      fs'.walkToLink false dir ps = .ok stop' :=
    walkToLink_eq_ok.2 ⟨dir', ps', halong.kept fun l hl => (hways (by simp)).1 hl, h'⟩
  rcases halong.of_getLast? hn hdots with hlast | ⟨rfl, hlast, hget⟩
  · cases hhalts with
    | here he => cases hlast
    | @name p hp hdir hlink =>
      obtain rfl : p = n := Option.some.inj hlast
      refine ⟨_, hgoes (.name hp (mt (hways (by simp)).2 hdir) fun _ _ => rfl), .at_ ?_ ?_⟩
      · rw [location_placeAt, location_placeAt]
      · rw [location_placeAt, List.getLast?_concat]
    | @link p target rest hp he hfollow =>
      refine ⟨_, hgoes (.link hp ((hways (by simp)).1 he) hfollow), .link _ ?_⟩
      have hmore : rest ≠ [] := fun hnil => Bool.false_ne_true (hfollow hnil)
      rw [List.getLast?_cons, List.getLast?_eq_some_getLast hmore, Option.getD_some] at hlast
      rw [List.getLast?_append, List.getLast?_eq_some_getLast hmore, hlast]
      rfl
  · cases hhalts with
    | here he => exact ⟨_, hgoes (.here ((hways (by simp)).1 hget)), .at_ rfl hlast⟩

theorem walk_sameWays (h : fs.SameWays fs') (hn : ps.getLast? = some n)
    (hdots : n ≠ "." ∧ n ≠ "..") {links : Nat} {place : Place}
    (hs : fs.walk false links dir ps = .ok place) :
    ∃ place', fs'.walk false links dir ps = .ok place' ∧ place'.location = place.location ∧
      place.location.getLast? = some n := by
  simp only [walk_eq_ok] at hs ⊢
  induction hs with
  | ends hstop =>
    obtain ⟨stop', hstop', hlike⟩ := walkToLink_sameWays h hn hdots hstop
    cases hlike with
    | at_ hplace hlast => exact ⟨_, .ends hstop', hplace, hlast⟩
  | past hstop _ ih =>
    obtain ⟨stop', hstop', hlike⟩ := walkToLink_sameWays h hn hdots hstop
    cases hlike with
    | link _ hlast =>
      obtain ⟨place', hplace', hsame⟩ := ih hlast
      exact ⟨place', .past hstop' hplace', hsame⟩

theorem locate_sameWays {cwd : Location} {path : String} (h : fs.SameWays fs')
    (hn : (parts path).getLast? = some n) (hdots : n ≠ "." ∧ n ≠ "..") {place : Place}
    (hplace : fs.locate cwd false path = .ok place) :
    ∃ place', fs'.locate cwd false path = .ok place' ∧ place'.location = place.location ∧
      place.location.getLast? = some n := by
  obtain ⟨hnul, hempty, hlong, hwalk⟩ := locate_eq_ok.1 hplace
  obtain ⟨place', hwalk', hsame⟩ := walk_sameWays h hn hdots hwalk
  exact ⟨place', locate_eq_ok.2 ⟨hnul, hempty, hlong, hwalk'⟩, hsame⟩

/-! ## Links at the end -/

/-- A walk that ends at no link goes nowhere else when links at the end are followed. -/
theorem walkToLink_follow {stop : Stop} (hs : fs.walkToLink false dir ps = .ok stop)
    (hlink : ∀ l target, stop ≠ .at_ (.found l (.link target))) :
    fs.walkToLink true dir ps = .ok stop := by
  obtain ⟨dir', ps', halong, hhalts⟩ := walkToLink_eq_ok.1 hs
  refine walkToLink_eq_ok.2 ⟨dir', ps', halong, ?_⟩
  cases hhalts with
  | here he => exact .here he
  | @name p hp hdir =>
    refine .name hp hdir fun target he => absurd ?_ (hlink (dir' ++ [p]) target)
    rw [placeAt_eq_found.2 ⟨rfl, he⟩]
  | link hp he => exact .link hp he fun _ => rfl

theorem walk_follow {links : Nat} {place : Place} (hs : fs.walk false links dir ps = .ok place)
    (hlink : ∀ l target, place ≠ .found l (.link target)) :
    fs.walk true links dir ps = .ok place := by
  rw [walk_eq_ok] at hs ⊢
  induction hs with
  | ends hstop =>
    exact .ends (walkToLink_follow hstop fun l target heq => hlink l target (Stop.at_.inj heq))
  | past hstop _ ih => exact .past (walkToLink_follow hstop (by simp)) ih

theorem locate_follow {cwd : Location} {path : String} {place : Place}
    (h : fs.locate cwd false path = .ok place)
    (hlink : ∀ l target, place ≠ .found l (.link target)) :
    fs.locate cwd true path = .ok place :=
  locate_of_walk h fun _ hwalk => walk_follow hwalk hlink

/-- A file is made where nothing was, and its path leads to it from then on. -/
theorem made_of_makeFile {cwd : Location} {path : String} {fs' : FileSystem}
    (h : fs.makeFile cwd path = .ok fs') :
    ∃ l, l ≠ [] ∧ fs.get? l = none ∧ fs' = fs.insert l (.file .empty false) ∧
      fs'.locate cwd true path = .ok (.found l (.file .empty false)) := by
  rw [makeFile] at h
  split at h
  · next parent name hplace =>
    cases h
    have hmade := locate_insert hplace (by simp [Place.entry?]) .empty false
    exact ⟨parent ++ [name], by simp, get?_of_locate hplace, rfl, locate_follow hmade (by simp)⟩
  · cases h
  · cases h

/-- A file that was made is empty when it is read. -/
theorem read_makeFile {cwd : Location} {path : String} {fs' : FileSystem}
    (h : fs.makeFile cwd path = .ok fs') : fs'.read cwd path = .ok .empty := by
  obtain ⟨l, -, -, -, hmade⟩ := made_of_makeFile h
  rw [read, entry_eq_ok.2 hmade]

/-! ## Walks to what is kept -/

section
variable {P : Entry → Prop} (hdirectory : P .directory) (hlink : ∀ target, P (.link target))
  (hkept : ∀ l e, P e → fs.get? l = some e → fs'.get? l = some e)
include hdirectory hlink hkept

/-- A walk that comes to an entry or to a link goes the same way wherever directories, links and
this entry are kept. -/
theorem walkToLink_kept {follow : Bool} {stop : Stop} (hs : fs.walkToLink follow dir ps = .ok stop)
    (hstop : ∀ place, stop = .at_ place → ∃ l e, place = .found l e ∧ P e) :
    fs'.walkToLink follow dir ps = .ok stop := by
  obtain ⟨dir', ps', halong, hhalts⟩ := walkToLink_eq_ok.1 hs
  refine walkToLink_eq_ok.2 ⟨dir', ps', halong.kept fun l => hkept l _ hdirectory, ?_⟩
  cases hhalts with
  | here he =>
    obtain ⟨l, e, hl, hP⟩ := hstop _ rfl
    cases hl
    exact .here (hkept _ _ hP he)
  | @name p hp hdir hnot =>
    obtain ⟨l, e, hplace, hP⟩ := hstop _ rfl
    obtain ⟨rfl, he⟩ := placeAt_eq_found.1 hplace
    have he' : fs'.get? (dir' ++ [p]) = some e := hkept _ _ hP he
    rw [he] at hdir hnot
    rw [hplace, ← placeAt_eq_found.2 ⟨rfl, he'⟩]
    exact .name hp (by rwa [he']) (by rwa [he'])
  | link hp he hgoes => exact .link hp (hkept _ _ (hlink _) he) hgoes

theorem walk_kept_of {follow : Bool} {links : Nat} {l : Location} {e : Entry} (he : P e)
    (hs : fs.walk follow links dir ps = .ok (.found l e)) :
    fs'.walk follow links dir ps = .ok (.found l e) := by
  rw [walk_eq_ok] at hs ⊢
  induction hs with
  | ends hstop =>
    refine .ends (walkToLink_kept hdirectory hlink hkept hstop fun place hplace => ?_)
    exact ⟨l, e, (Stop.at_.inj hplace).symm, he⟩
  | past hstop _ ih => exact .past (walkToLink_kept hdirectory hlink hkept hstop (by simp)) ih

end

theorem walk_kept (h : fs.SameWays fs') {follow : Bool} {links : Nat} {l : Location}
    (hs : fs.walk follow links dir ps = .ok (.found l .directory)) :
    fs'.walk follow links dir ps = .ok (.found l .directory) :=
  walk_kept_of (P := fun e => ∀ bytes x, e ≠ .file bytes x) (by simp) (by simp)
    (fun l e he hl => (h l e he).1 hl) (by simp) hs

theorem locate_kept (h : fs.SameWays fs') {cwd : Location} {follow : Bool} {path : String}
    {l : Location} (hl : fs.locate cwd follow path = .ok (.found l .directory)) :
    fs'.locate cwd follow path = .ok (.found l .directory) :=
  locate_of_walk hl fun _ => walk_kept h

/-- A path leads to the same entry wherever all entries are kept. -/
theorem entry_kept (hkept : ∀ l e, fs.get? l = some e → fs'.get? l = some e) {cwd : Location}
    {path : String} {l : Location} {e : Entry} (h : fs.entry cwd path = .ok (l, e)) :
    fs'.entry cwd path = .ok (l, e) := by
  rw [entry_eq_ok] at h ⊢
  exact locate_of_walk h fun _ => walk_kept_of (P := fun _ => True) trivial (fun _ => trivial)
    (fun l e _ => hkept l e) trivial

/-- A walk that follows a link at its end goes the same way without following it, or finds the
link. -/
theorem walkToLink_unfollowed {stop : Stop} (hs : fs.walkToLink true dir ps = .ok stop) :
    fs.walkToLink false dir ps = .ok stop ∨
      ∃ l e, fs.walkToLink false dir ps = .ok (.at_ (.found l e)) := by
  obtain ⟨dir', ps', halong, hhalts⟩ := walkToLink_eq_ok.1 hs
  simp only [halong.walkToLink_eq false]
  cases hhalts with
  | here he => exact Or.inl (walkToLink_of_halts (.here he))
  | name hp hdir => exact Or.inl (walkToLink_of_halts (.name hp hdir fun _ _ => rfl))
  | @link p target rest hp he =>
    by_cases hrest : rest = []
    · subst hrest
      have hdir : fs.get? (dir' ++ [p]) ≠ some .directory := by simp [he]
      have hstop := walkToLink_of_halts (.name hp hdir fun _ _ => rfl)
      rw [placeAt_eq_found.2 ⟨rfl, he⟩] at hstop
      exact Or.inr ⟨_, _, hstop⟩
    · exact Or.inl (walkToLink_of_halts (.link hp he fun hnil => absurd hnil hrest))

theorem walk_unfollowed {links : Nat} {l : Location} {e : Entry}
    (hs : fs.walk true links dir ps = .ok (.found l e)) :
    ∃ l' e', fs.walk false links dir ps = .ok (.found l' e') := by
  simp only [walk_eq_ok] at hs ⊢
  induction hs with
  | ends hstop =>
    rcases walkToLink_unfollowed hstop with h | ⟨l', e', h⟩
    · exact ⟨l, e, .ends h⟩
    · exact ⟨l', e', .ends h⟩
  | past hstop _ ih =>
    rcases walkToLink_unfollowed hstop with h | ⟨l', e', h⟩
    · obtain ⟨l', e', h'⟩ := ih
      exact ⟨l', e', .past h h'⟩
    · exact ⟨l', e', .ends h⟩

end

/-! ## Paths to directories -/

/-- The path leads to a directory. -/
def LeadsInto (fs : FileSystem) (cwd : Location) (path : String) : Prop :=
  ∃ l, fs.locate cwd true path = .ok (.found l .directory)

namespace LeadsInto

variable {fs fs' : FileSystem} {cwd : Location} {path : String}

theorem sameWays (h : fs.LeadsInto cwd path) (hways : fs.SameWays fs') : fs'.LeadsInto cwd path := by
  obtain ⟨l, hl⟩ := h
  exact ⟨l, locate_kept hways hl⟩

theorem entry (h : fs.LeadsInto cwd path) : ∃ l, fs.entry cwd path = .ok (l, .directory) := by
  obtain ⟨l, hl⟩ := h
  exact ⟨l, entry_eq_ok.2 hl⟩

/-- A directory that is there is not made once more. -/
theorem makeDir (h : fs.LeadsInto cwd path) (hpath : withoutSlashes path = path) :
    fs.makeDir cwd path = .error .exists_ := by
  obtain ⟨l, hl⟩ := h
  obtain ⟨hnul, hempty, hlong, hwalk⟩ := locate_eq_ok.1 hl
  obtain ⟨l', e', hwalk'⟩ := walk_unfollowed hwalk
  have hlocate : fs.locate cwd false path = .ok (.found l' e') :=
    locate_eq_ok.2 ⟨hnul, hempty, hlong, hwalk'⟩
  rw [FileSystem.makeDir, hpath, hlocate]

end LeadsInto

/-! ## Paths to files -/

/-- The path leads to a location that holds a file or nothing, and ends in a name. -/
structure LeadsTo (fs : FileSystem) (cwd : Location) (path : String) (l : Location) : Prop where
  named : ∃ n, (parts path).getLast? = some n ∧ n ≠ "." ∧ n ≠ ".."
  reached : ∃ place, fs.locate cwd false path = .ok place ∧ place.location = l
  holdsFile : fs.HoldsFile l

namespace LeadsTo

variable {fs fs' : FileSystem} {cwd : Location} {path : String} {l : Location}

theorem sameWays (h : fs.LeadsTo cwd path l) (hways : fs.SameWays fs') : fs'.LeadsTo cwd path l := by
  obtain ⟨⟨n, hn, hdots⟩, ⟨place, hplace, hl⟩, hfile⟩ := h
  obtain ⟨place', hplace', hsame, -⟩ := locate_sameWays hways hn hdots hplace
  exact ⟨⟨n, hn, hdots⟩, ⟨place', hplace', hsame.trans hl⟩, hways.holdsFile hfile⟩

/-- The last part of the path is the name at the location. -/
theorem getLast?_eq (h : fs.LeadsTo cwd path l) : l.getLast? = (parts path).getLast? := by
  obtain ⟨⟨n, hn, hdots⟩, ⟨place, hplace, hl⟩, -⟩ := h
  obtain ⟨-, -, -, hlast⟩ := locate_sameWays (SameWays.refl fs) hn hdots hplace
  rw [← hl, hlast, hn]

theorem ne_nil (h : fs.LeadsTo cwd path l) : l ≠ [] := by
  rintro rfl
  obtain ⟨_, _, heq⟩ := h.holdsFile .directory rfl
  cases heq

theorem locate_eq (h : fs.LeadsTo cwd path l) (follow : Bool) :
    ∃ place, fs.locate cwd follow path = .ok place ∧ place.location = l ∧
      place.entry? = fs.get? l := by
  obtain ⟨place, hplace, rfl⟩ := h.reached
  have hentry := get?_of_locate hplace
  refine ⟨place, ?_, rfl, hentry.symm⟩
  cases follow with
  | false => exact hplace
  | true =>
    refine locate_follow hplace fun k target heq => ?_
    obtain ⟨_, _, hlink⟩ := h.holdsFile (.link target) (by rw [hentry, heq]; rfl)
    cases hlink

theorem locate_of_some (h : fs.LeadsTo cwd path l) {e : Entry} (he : fs.get? l = some e)
    (follow : Bool) : fs.locate cwd follow path = .ok (.found l e) := by
  obtain ⟨place, hplace, hl, hentry⟩ := h.locate_eq follow
  rw [he] at hentry
  cases place with
  | found k x =>
    cases hl
    cases hentry
    exact hplace
  | vacant dir name => cases hentry

theorem locate_of_none (h : fs.LeadsTo cwd path l) (he : fs.get? l = none) (follow : Bool) :
    ∃ dir name, fs.locate cwd follow path = .ok (.vacant dir name) ∧ dir ++ [name] = l := by
  obtain ⟨place, hplace, hl, hentry⟩ := h.locate_eq follow
  rw [he] at hentry
  cases place with
  | found k x => cases hentry
  | vacant dir name => exact ⟨dir, name, hplace, hl⟩

/-! ## Calls -/

theorem entry_of_some (h : fs.LeadsTo cwd path l) {e : Entry} (he : fs.get? l = some e) :
    fs.entry cwd path = .ok (l, e) :=
  entry_eq_ok.2 (h.locate_of_some he true)

theorem entry_of_none (h : fs.LeadsTo cwd path l) (he : fs.get? l = none) :
    fs.entry cwd path = .error .noEntry := by
  obtain ⟨dir, name, hplace, -⟩ := h.locate_of_none he true
  rw [entry, hplace]

theorem read_of_some (h : fs.LeadsTo cwd path l) {bytes : ByteArray} {x : Bool}
    (he : fs.get? l = some (.file bytes x)) : fs.read cwd path = .ok bytes := by
  rw [read, h.entry_of_some he]

theorem openWith_of_some (h : fs.LeadsTo cwd path l) {bytes : ByteArray} {x : Bool}
    (he : fs.get? l = some (.file bytes x)) (change : ByteArray → ByteArray) :
    fs.openWith cwd change path = .ok (l, fs.insert l (.file (change bytes) x)) := by
  rw [openWith, h.locate_of_some he]

theorem openWith_of_none (h : fs.LeadsTo cwd path l) (he : fs.get? l = none)
    (change : ByteArray → ByteArray) :
    fs.openWith cwd change path = .ok (l, fs.insert l (.file (change .empty) false)) := by
  obtain ⟨dir, name, hplace, rfl⟩ := h.locate_of_none he true
  rw [openWith, hplace]

/-- What is written through a path is written at its location. -/
theorem openWith_eq (h : fs.LeadsTo cwd path l) (change : ByteArray → ByteArray) :
    ∃ x, fs.openWith cwd change path =
      .ok (l, fs.insert l (.file (change ((fs.read cwd path).toOption.getD .empty)) x)) := by
  cases he : fs.get? l with
  | none =>
    rw [h.openWith_of_none he, read, h.entry_of_none he]
    exact ⟨false, rfl⟩
  | some e =>
    obtain ⟨bytes, x, rfl⟩ := h.holdsFile e he
    rw [h.openWith_of_some he, h.read_of_some he]
    exact ⟨x, rfl⟩

/-- A file that is given another path leaves its location and takes the other. -/
theorem rename (h : fs.LeadsTo cwd path l) {target : String} {k : Location}
    (hk : fs.LeadsTo cwd target k) (hne : l ≠ k) {e : Entry} (he : fs.get? l = some e) :
    fs.rename cwd path target = .ok ((fs.erase l).insert k e) := by
  obtain ⟨bytes, x, rfl⟩ := h.holdsFile e he
  rw [FileSystem.rename, h.locate_of_some he]
  cases hold : fs.get? k with
  | none =>
    obtain ⟨dir, name, hplace, rfl⟩ := hk.locate_of_none hold false
    rw [hplace]
  | some old =>
    obtain ⟨b, y, rfl⟩ := hk.holdsFile old hold
    rw [hk.locate_of_some hold]
    simp only [Ne.symm hne, if_false]

end LeadsTo

/-! ## Paths through directories only -/

section
variable {fs : FileSystem} {cwd : Location} {path name : String} {names : List String}

theorem along_directories {dir : Location} {ps : List String}
    (hdirs : ∀ init, init <+: names → init ≠ [] → fs.get? (dir ++ init) = some .directory)
    (hnames : ∀ n ∈ names, NamesEntry n) : fs.Along dir (names ++ ps) (dir ++ names) ps := by
  induction names generalizing dir with
  | nil =>
    rw [List.nil_append, List.append_nil]
    exact .refl dir ps
  | cons n names ih =>
    obtain ⟨hn, hrest⟩ := List.forall_mem_cons.1 hnames
    refine .into hn (hdirs [n] (by simp) (by simp)) ?_
    rw [List.append_cons dir n names]
    refine ih (fun init hinit hne => ?_) hrest
    rw [← List.append_cons dir n init]
    exact hdirs (n :: init) (List.cons_prefix_cons.2 ⟨rfl, hinit⟩) (by simp)

theorem walkToLink_directories {dir : Location}
    (hdirs : ∀ init, init <+: names → init ≠ [] → fs.get? (dir ++ init) = some .directory)
    (hnames : ∀ n ∈ names ++ [name], n ≠ "." ∧ n ≠ ".." ∧ n.utf8ByteSize ≤ 255) :
    fs.walkToLink false dir (names ++ [name]) = .ok (.at_ (fs.placeAt (dir ++ names) name)) := by
  have halong : fs.Along dir (names ++ [name]) (dir ++ names) [name] :=
    along_directories hdirs fun n hn => hnames n (List.mem_append_left [name] hn)
  have hlast : NamesEntry name := hnames name (by simp)
  rw [halong.walkToLink_eq]
  by_cases hdir : fs.get? (dir ++ names ++ [name]) = some .directory
  · -- a directory at the end is gone into, and found there
    rw [(Along.into hlast hdir (.refl _ [])).walkToLink_eq, walkToLink, hdir, placeAt, hdir]
  · exact walkToLink_of_halts (.name hlast hdir fun _ _ => rfl)

/-- An absolute path through directories leads where its names say. -/
theorem leadsTo_of_directories (hparts : parts path = names ++ [name])
    (habs : Text.startsWith '/' path = true) (hnul : '\x00' ∉ path.toList)
    (hlong : path.utf8ByteSize < 4096)
    (hdirs : ∀ init, init <+: names → init ≠ [] → fs.get? init = some .directory)
    (hnames : ∀ n ∈ names ++ [name], n ≠ "." ∧ n ≠ ".." ∧ n.utf8ByteSize ≤ 255)
    (hfile : fs.HoldsFile (names ++ [name])) : fs.LeadsTo cwd path (names ++ [name]) := by
  obtain ⟨hdot, hup, -⟩ := hnames name (by simp)
  have hempty : path ≠ "" := by
    rintro rfl
    simp [Text.startsWith] at habs
  have hstop : fs.walkToLink false [] (names ++ [name]) = .ok (.at_ (fs.placeAt names name)) :=
    walkToLink_directories hdirs hnames
  have hwalk : fs.walk false linkLimit [] (names ++ [name]) = .ok (fs.placeAt names name) := by
    rw [walk, hstop]
  refine ⟨⟨name, by rw [hparts, List.getLast?_concat], hdot, hup⟩,
    ⟨fs.placeAt names name, locate_eq_ok.2 ⟨hnul, hempty, hlong, ?_⟩, location_placeAt ..⟩, hfile⟩
  rw [if_pos habs, hparts, hwalk]

end

end FileSystem
end SelectiveSync
