import SelectiveSync.Proofs.System.Direct

/-! # Walks and their beginnings

A walk that follows all links goes through every location on its way, so that whatever leads to an
entry leads to entries all along.

* `walk_beginning`: the beginning of a way to an entry leads to an entry.
* `found_of_entry`: where a path leads there is an entry, and no link.
* `walkToLink_names`: a walk by names keeps to them up to the first link.
* `walk_of_direct`: the names of a location lead there, if it has directories only above it. -/
namespace SelectiveSync.FileSystem
set_option autoImplicit false

section
variable {fs : FileSystem} {dir l : Location} {ps qs : List String} {e : Entry}

/-! ## Beginnings -/

/-- A walk comes to an end within its beginning, or to a link with which both go on, or it finds the
beginning's entry on the way. -/
theorem walkToLink_beginning (hdir : fs.Direct dir) (hget : fs.get? dir = some .directory)
    (hps : ∀ p ∈ ps, IsPart p) (hqs : qs ≠ []) {stop : Stop}
    (hs : fs.walkToLink true dir (ps ++ qs) = .ok stop) :
    (∃ l e, fs.walkToLink true dir ps = .ok (.at_ (.found l e))) ∨
      ∃ dir' ps', fs.walkToLink true dir ps = .ok (.link dir' ps') ∧
        stop = .link dir' (ps' ++ qs) := by
  obtain ⟨dir', ps', halong, hhalts⟩ := walkToLink_eq_ok.1 hs
  rcases halong.of_append with ⟨mid, hmid, -⟩ | ⟨p, rest, hrest, rfl⟩
  · obtain ⟨-, hget', -⟩ := hdir.along hget hps hmid
    exact Or.inl ⟨_, _, walkToLink_eq_ok.2 ⟨mid, [], hmid, .here hget'⟩⟩
  · have hmore : rest ++ qs ≠ [] := fun h => hqs (List.append_eq_nil_iff.1 h).2
    generalize hall : p :: rest ++ qs = all at hhalts
    rw [List.cons_append] at hall
    cases hhalts with
    | here => cases hall
    | name => exact absurd (List.cons.inj hall).2 hmore
    | link hp he =>
      cases hall
      have hlink := walkToLink_eq_ok.2 ⟨dir', p :: rest, hrest, .link hp he fun _ => rfl⟩
      exact Or.inr ⟨_, _, hlink, by rw [List.append_assoc]⟩

/-- Whatever leads to an entry leads to one from its beginning on. -/
theorem walk_beginning {links : Nat} (hdir : fs.Direct dir) (hget : fs.get? dir = some .directory)
    (hps : ∀ p ∈ ps, IsPart p) (hs : fs.walk true links dir (ps ++ qs) = .ok (.found l e)) :
    ∃ l' e', fs.walk true links dir ps = .ok (.found l' e') := by
  by_cases hqs : qs = []
  · rw [hqs, List.append_nil] at hs
    exact ⟨l, e, hs⟩
  simp only [walk_eq_ok] at hs ⊢
  generalize hall : ps ++ qs = all at hs
  induction hs generalizing ps with
  | ends hstop =>
    subst hall
    rcases walkToLink_beginning hdir hget hps hqs hstop with ⟨l', e', hat⟩ | ⟨_, _, -, habsurd⟩
    · exact ⟨l', e', .ends hat⟩
    · cases habsurd
  | past hstop _ ih =>
    subst hall
    rcases walkToLink_beginning hdir hget hps hqs hstop with
      ⟨l', e', hat⟩ | ⟨dir', ps', hlink, hgoes⟩
    · exact ⟨l', e', .ends hat⟩
    · cases hgoes
      obtain ⟨hdir', hget', hps'⟩ := (direct_of_walkToLink hdir hget hps hlink).2 _ _ rfl
      obtain ⟨l', e', hfound⟩ := ih hdir' hget' hps' rfl
      exact ⟨l', e', .past hlink hfound⟩

/-! ## Entries that are found -/

theorem ne_link_of_walkToLink (hdir : fs.Direct dir) (hget : fs.get? dir = some .directory)
    (hps : ∀ p ∈ ps, IsPart p) (hs : fs.walkToLink true dir ps = .ok (.at_ (.found l e)))
    (target : String) : e ≠ .link target := by
  obtain ⟨dir', ps', halong, hhalts⟩ := walkToLink_eq_ok.1 hs
  obtain ⟨-, hget', -⟩ := hdir.along hget hps halong
  rintro rfl
  generalize hstop : Stop.at_ (.found l (.link target)) = stop at hhalts
  cases hhalts with
  | here he =>
    cases hstop
    rw [hget'] at he
    cases he
  | @name p hp hdir hlink =>
    obtain ⟨rfl, he⟩ := placeAt_eq_found.1 (Stop.at_.inj hstop).symm
    cases hlink target he
  | link => cases hstop

/-- The last stretch of a walk that ends has no link in it. -/
theorem ne_link_of_walk {links : Nat} (hdir : fs.Direct dir) (hget : fs.get? dir = some .directory)
    (hps : ∀ p ∈ ps, IsPart p) (hs : fs.walk true links dir ps = .ok (.found l e))
    (target : String) : e ≠ .link target := by
  rw [walk_eq_ok] at hs
  induction hs with
  | ends hstop => exact ne_link_of_walkToLink hdir hget hps hstop target
  | past hstop _ ih =>
    obtain ⟨hdir', hget', hps'⟩ := (direct_of_walkToLink hdir hget hps hstop).2 _ _ rfl
    exact ih hdir' hget' hps'

/-- An absolute path that leads to an entry leads to a directory or a file, with directories above. -/
theorem found_of_entry {cwd : Location} {path : String}
    (habs : Text.startsWith '/' path = true) (h : fs.entry cwd path = .ok (l, e)) :
    fs.Direct l ∧ fs.get? l = some e ∧ ∀ target, e ≠ .link target := by
  obtain ⟨-, -, -, hwalk⟩ := locate_eq_ok.1 (entry_eq_ok.1 h)
  rw [if_pos habs] at hwalk
  have hparts : ∀ p ∈ parts path, IsPart p := fun p hp => isPart_of_mem hp
  exact ⟨direct_of_entry habs h, get?_of_walk hwalk,
    ne_link_of_walk (direct_nil fs) rfl hparts hwalk⟩

/-! ## Ways by name -/

/-- A walk by names stops where the names lead, or at a link on the way. -/
theorem walkToLink_names {names : List String} (hnames : ∀ n ∈ names, n ≠ "." ∧ n ≠ "..")
    {stop : Stop} (hs : fs.walkToLink true dir names = .ok stop) :
    (∃ place, stop = .at_ place ∧ place.location = dir ++ names) ∨
      ∃ init target, init <+: names ∧ fs.get? (dir ++ init) = some (.link target) := by
  obtain ⟨dir', ps', halong, hhalts⟩ := walkToLink_eq_ok.1 hs
  obtain ⟨init, rfl, rfl⟩ := halong.of_names hnames
  cases hhalts with
  | here he => exact Or.inl ⟨_, rfl, by rw [List.append_nil, Place.location]⟩
  | name => exact Or.inl ⟨_, rfl, by rw [location_placeAt, List.append_assoc]⟩
  | @link p target rest hp he =>
    rw [List.append_assoc] at he
    exact Or.inr ⟨init ++ [p], target, ⟨rest, by simp⟩, he⟩

/-- With directories only above a location its names lead there. -/
theorem walk_of_direct (h : fs.Direct l) (hne : l ≠ []) (he : fs.get? l = some e)
    (hlink : ∀ target, e ≠ .link target) (links : Nat) :
    fs.walk true links [] l = .ok (.found l e) := by
  obtain ⟨names, name, rfl⟩ := (List.eq_nil_or_concat l).resolve_left hne
  rw [List.concat_eq_append] at h he ⊢
  have hstop := h.walkToLink_eq
  rw [placeAt, he] at hstop
  refine walk_eq_ok.2 (.ends (walkToLink_follow hstop fun l target heq => ?_))
  cases heq
  exact hlink target rfl

end

end SelectiveSync.FileSystem
