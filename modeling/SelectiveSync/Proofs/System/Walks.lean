import SelectiveSync.System.FileSystem

/-! # Walks, stretch by stretch

A walk goes along dots and directories until it halts: at an entry, at a name that its directory
does not hold, or at a link from which it goes on. What a walk can do is said here once, so that
whatever holds of walks is proved for the stretch, for its end, and for the way from link to link.

* `Along`: a stretch through directories; by `Along.walkToLink_eq` a walk may as well begin at its
  end.
* `Halts`: where a walk goes no further; by `walkToLink_eq_ok` it stops where a stretch halts.
* `Arrives`: the way past links; by `walk_eq_ok` a walk reaches a place just if it arrives there. -/
namespace SelectiveSync.FileSystem
set_option autoImplicit false

/-- The part is looked up in a directory, and does not stay there or go up. -/
def NamesEntry (p : String) : Prop :=
  p ≠ "." ∧ p ≠ ".." ∧ p.utf8ByteSize ≤ 255

/-- The place of a name in a directory. -/
def placeAt (fs : FileSystem) (dir : Location) (name : String) : Place :=
  match fs.get? (dir ++ [name]) with
  | some e => .found (dir ++ [name]) e
  | none => .vacant dir name

theorem location_placeAt (fs : FileSystem) (dir : Location) (name : String) :
    (fs.placeAt dir name).location = dir ++ [name] := by
  rw [placeAt]
  split <;> rfl

theorem placeAt_eq_found {fs : FileSystem} {dir l : Location} {name : String} {e : Entry} :
    fs.placeAt dir name = .found l e ↔ dir ++ [name] = l ∧ fs.get? l = some e := by
  rw [placeAt]
  split
  · next he =>
    rw [Place.found.injEq]
    refine and_congr_right fun hl => ?_
    rw [← hl, he, Option.some.injEq]
  · next he =>
    refine iff_of_false (by simp) ?_
    rintro ⟨rfl, hfound⟩
    rw [he] at hfound
    cases hfound

/-- A walk from one directory, with parts left, comes to another with those left there. -/
inductive Along (fs : FileSystem) : Location → List String → Location → List String → Prop
  | refl (dir : Location) (ps : List String) : Along fs dir ps dir ps
  | dot {dir dir' : Location} {rest ps' : List String} (h : Along fs dir rest dir' ps') :
      Along fs dir ("." :: rest) dir' ps'
  | up {dir dir' : Location} {rest ps' : List String} (h : Along fs dir.dropLast rest dir' ps') :
      Along fs dir (".." :: rest) dir' ps'
  | into {dir dir' : Location} {p : String} {rest ps' : List String} (hp : NamesEntry p)
      (he : fs.get? (dir ++ [p]) = some .directory) (h : Along fs (dir ++ [p]) rest dir' ps') :
      Along fs dir (p :: rest) dir' ps'

/-- A walk with these parts left stops where it is. -/
inductive Halts (fs : FileSystem) (follow : Bool) : Location → List String → Stop → Prop
  | here {dir : Location} {e : Entry} (he : fs.get? dir = some e) :
      Halts fs follow dir [] (.at_ (.found dir e))
  | name {dir : Location} {p : String} (hp : NamesEntry p)
      (hdir : fs.get? (dir ++ [p]) ≠ some .directory)
      (hlink : ∀ target, fs.get? (dir ++ [p]) = some (.link target) → follow = false) :
      Halts fs follow dir [p] (.at_ (fs.placeAt dir p))
  | link {dir : Location} {p target : String} {rest : List String} (hp : NamesEntry p)
      (he : fs.get? (dir ++ [p]) = some (.link target)) (hgoes : rest = [] → follow = true) :
      Halts fs follow dir (p :: rest)
        (.link (if Text.startsWith '/' target then [] else dir) (parts target ++ rest))

/-- A walk that may lead through so many links comes to the place. -/
inductive Arrives (fs : FileSystem) (follow : Bool) (place : Place) :
    Nat → Location → List String → Prop
  | ends {links : Nat} {dir : Location} {ps : List String}
      (h : fs.walkToLink follow dir ps = .ok (.at_ place)) : Arrives fs follow place links dir ps
  | past {links : Nat} {dir dir' : Location} {ps ps' : List String}
      (h : fs.walkToLink follow dir ps = .ok (.link dir' ps'))
      (hmore : Arrives fs follow place links dir' ps') : Arrives fs follow place (links + 1) dir ps

section
variable {fs fs' : FileSystem} {follow : Bool} {dir dir' : Location} {ps ps' qs : List String}

/-! ## Stretches -/

theorem Along.walkToLink_eq (h : fs.Along dir ps dir' ps') (follow : Bool) :
    fs.walkToLink follow dir ps = fs.walkToLink follow dir' ps' := by
  induction h with
  | refl => rfl
  | dot _ ih => rw [walkToLink, if_pos rfl, ih]
  | up _ ih => rw [walkToLink, if_neg (by decide), if_pos rfl, ih]
  | into hp he _ ih =>
    obtain ⟨hdot, hup, hshort⟩ := hp
    rw [walkToLink, if_neg hdot, if_neg hup, if_neg (Nat.not_lt_of_le hshort), he]
    exact ih

/-- Where the same directories are, the same stretch can be gone. -/
theorem Along.kept (h : fs.Along dir ps dir' ps')
    (hkept : ∀ l, fs.get? l = some .directory → fs'.get? l = some .directory) :
    fs'.Along dir ps dir' ps' := by
  induction h with
  | refl dir ps => exact .refl dir ps
  | dot _ ih => exact .dot ih
  | up _ ih => exact .up ih
  | into hp he _ ih => exact .into hp (hkept _ he) ih

/-- A stretch with more parts behind it takes all those before them, or leaves some. -/
theorem Along.of_append (h : fs.Along dir (ps ++ qs) dir' ps') :
    (∃ mid, fs.Along dir ps mid [] ∧ fs.Along mid qs dir' ps') ∨
      ∃ p rest, fs.Along dir ps dir' (p :: rest) ∧ ps' = p :: rest ++ qs := by
  induction ps generalizing dir with
  | nil => exact Or.inl ⟨dir, .refl dir [], h⟩
  | cons p rest ih =>
    -- whichever way the part is taken, it stands before what is left of the others
    have hgoes {next : Location} (h : fs.Along next (rest ++ qs) dir' ps')
        (hpart : ∀ {d : Location} {left : List String}, fs.Along next rest d left →
          fs.Along dir (p :: rest) d left) :
        (∃ mid, fs.Along dir (p :: rest) mid [] ∧ fs.Along mid qs dir' ps') ∨
          ∃ q left, fs.Along dir (p :: rest) dir' (q :: left) ∧ ps' = q :: left ++ qs := by
      rcases ih h with ⟨mid, hmid, hmore⟩ | ⟨q, left, hleft, heq⟩
      · exact Or.inl ⟨mid, hpart hmid, hmore⟩
      · exact Or.inr ⟨q, left, hpart hleft, heq⟩
    cases h with
    | refl => exact Or.inr ⟨p, rest, .refl _ _, rfl⟩
    | dot h => exact hgoes h .dot
    | up h => exact hgoes h .up
    | into hp he h => exact hgoes h (.into hp he)

/-- A stretch by names goes down by those that it takes. -/
theorem Along.of_names (hnames : ∀ n ∈ ps, n ≠ "." ∧ n ≠ "..") (h : fs.Along dir ps dir' ps') :
    ∃ init, ps = init ++ ps' ∧ dir' = dir ++ init := by
  induction h with
  | refl dir ps => exact ⟨[], rfl, (List.append_nil dir).symm⟩
  | dot => exact absurd rfl (hnames "." List.mem_cons_self).1
  | up => exact absurd rfl (hnames ".." List.mem_cons_self).2
  | @into _ _ p _ _ _ _ _ ih =>
    obtain ⟨init, hps, hdir⟩ := ih fun n hn => hnames n (List.mem_cons_of_mem p hn)
    exact ⟨p :: init, by rw [hps, List.cons_append], by rw [hdir, List.append_assoc,
      List.singleton_append]⟩

/-- A way that ends in a name still does so, or the directory of that name is where it led. -/
theorem Along.of_getLast? {n : String} (h : fs.Along dir ps dir' ps') (hn : ps.getLast? = some n)
    (hdots : n ≠ "." ∧ n ≠ "..") :
    ps'.getLast? = some n ∨
      ps' = [] ∧ dir'.getLast? = some n ∧ fs.get? dir' = some .directory := by
  have hlast {p : String} {rest : List String} (hn : (p :: rest).getLast? = some n) :
      rest = [] ∧ p = n ∨ rest.getLast? = some n := by
    cases rest with
    | nil => exact Or.inl ⟨rfl, Option.some.inj hn⟩
    | cons => exact Or.inr hn
  induction h with
  | refl => exact Or.inl hn
  | dot _ ih =>
    rcases hlast hn with ⟨-, rfl⟩ | hrest
    · exact absurd rfl hdots.1
    · exact ih hrest
  | up _ ih =>
    rcases hlast hn with ⟨-, rfl⟩ | hrest
    · exact absurd rfl hdots.2
    · exact ih hrest
  | into _ he h ih =>
    rcases hlast hn with ⟨rfl, rfl⟩ | hrest
    · cases h
      exact Or.inr ⟨rfl, List.getLast?_concat .., he⟩
    · exact ih hrest

/-! ## Stops -/

theorem walkToLink_of_halts {stop : Stop} (h : fs.Halts follow dir ps stop) :
    fs.walkToLink follow dir ps = .ok stop := by
  cases h with
  | here he => rw [walkToLink, he]
  | @name p hp hdir hlink =>
    obtain ⟨hdot, hup, hshort⟩ := hp
    rw [walkToLink, if_neg hdot, if_neg hup, if_neg (Nat.not_lt_of_le hshort), placeAt]
    cases he : fs.get? (dir ++ [p]) with
    | none => rfl
    | some e =>
      cases e with
      | directory => exact absurd he hdir
      | file bytes x => rfl
      | link target => exact if_pos ⟨rfl, by rw [hlink target he]; exact Bool.false_ne_true⟩
  | link hp he hgoes =>
    obtain ⟨hdot, hup, hshort⟩ := hp
    rw [walkToLink, if_neg hdot, if_neg hup, if_neg (Nat.not_lt_of_le hshort), he]
    exact if_neg fun hend => hend.2 (hgoes hend.1)

/-- A walk that stops went along directories to where it halts. -/
theorem along_of_walkToLink {stop : Stop} (h : fs.walkToLink follow dir ps = .ok stop) :
    ∃ dir' ps', fs.Along dir ps dir' ps' ∧ fs.Halts follow dir' ps' stop := by
  -- a last part that is neither a directory nor a link to follow is where the walk ends
  have hend {dir : Location} {p : String} {place : Place} (hp : NamesEntry p)
      (hplace : fs.placeAt dir p = place) (hdir : fs.get? (dir ++ [p]) ≠ some .directory)
      (hlink : ∀ target, fs.get? (dir ++ [p]) = some (.link target) → follow = false) :
      ∃ dir' ps', fs.Along dir [p] dir' ps' ∧ fs.Halts follow dir' ps' (.at_ place) :=
    ⟨dir, [p], .refl dir [p], hplace ▸ .name hp hdir hlink⟩
  fun_induction walkToLink fs follow dir ps with
  | case1 dir e he =>
    cases h
    exact ⟨dir, [], .refl dir [], .here he⟩
  | case2 => cases h
  | case3 dir rest ih =>
    obtain ⟨dir', ps', halong, hhalts⟩ := ih h
    exact ⟨dir', ps', .dot halong, hhalts⟩
  | case4 dir rest _ ih =>
    obtain ⟨dir', ps', halong, hhalts⟩ := ih h
    exact ⟨dir', ps', .up halong, hhalts⟩
  | case5 => cases h
  | case6 dir p hdot hup hlong he =>
    cases h
    exact hend ⟨hdot, hup, Nat.le_of_not_lt hlong⟩ (by rw [placeAt, he]) (by simp [he])
      (by simp [he])
  | case7 => cases h
  | case8 dir p rest hdot hup hlong he ih =>
    obtain ⟨dir', ps', halong, hhalts⟩ := ih h
    exact ⟨dir', ps', .into ⟨hdot, hup, Nat.le_of_not_lt hlong⟩ he halong, hhalts⟩
  | case9 dir p hdot hup hlong bytes x he =>
    cases h
    exact hend ⟨hdot, hup, Nat.le_of_not_lt hlong⟩ (placeAt_eq_found.2 ⟨rfl, he⟩) (by simp [he])
      (by simp [he])
  | case10 => cases h
  | case11 dir p rest hdot hup hlong target he hlast =>
    cases h
    obtain ⟨rfl, hstays⟩ := hlast
    exact hend ⟨hdot, hup, Nat.le_of_not_lt hlong⟩ (placeAt_eq_found.2 ⟨rfl, he⟩) (by simp [he])
      fun _ _ => Bool.eq_false_iff.2 hstays
  | case12 dir p rest hdot hup hlong target he hgoes =>
    cases h
    refine ⟨dir, p :: rest, .refl dir _, .link ⟨hdot, hup, Nat.le_of_not_lt hlong⟩ he ?_⟩
    exact fun hrest => Decidable.not_not.1 fun hstays => hgoes ⟨hrest, hstays⟩

theorem walkToLink_eq_ok {stop : Stop} :
    fs.walkToLink follow dir ps = .ok stop ↔
      ∃ dir' ps', fs.Along dir ps dir' ps' ∧ fs.Halts follow dir' ps' stop := by
  refine ⟨along_of_walkToLink, ?_⟩
  rintro ⟨dir', ps', halong, hhalts⟩
  rw [halong.walkToLink_eq, walkToLink_of_halts hhalts]

/-! ## Ways past links -/

theorem walk_eq_ok {links : Nat} {place : Place} :
    fs.walk follow links dir ps = .ok place ↔ fs.Arrives follow place links dir ps := by
  refine ⟨fun h => ?_, fun h => ?_⟩
  · fun_induction walk fs follow links dir ps with
    | case1 => cases h
    | case2 _ _ _ _ hstop =>
      cases h
      exact .ends hstop
    | case3 => cases h
    | case4 _ _ _ _ hstop _ ih => exact .past hstop (ih h)
  · induction h with
    | ends hstop => rw [walk, hstop]
    | past hstop _ ih =>
      rw [walk, hstop]
      exact ih

end

end SelectiveSync.FileSystem
