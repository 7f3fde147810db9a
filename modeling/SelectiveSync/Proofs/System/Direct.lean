import SelectiveSync.Proofs.System.Places
import SelectiveSync.Proofs.Text.Lines

/-! # Locations as walks find them

A walk goes from directory to directory, so that above the location where it ends there is no link.

* `Direct`: a location with directories only above it.
* `direct_of_walk` and `direct_of_entry`: whatever a path leads to is at such a location.
* `location_of_direct`: a path of its names leads to the location itself. -/
namespace SelectiveSync.FileSystem
set_option autoImplicit false

/-! ## Directories above -/

/-- A part of a path. -/
def IsPart (p : String) : Prop :=
  p ≠ "" ∧ '/' ∉ p.toList

/-- A name that an entry may have, but for its length. -/
def IsEntryName (n : String) : Prop :=
  IsPart n ∧ n ≠ "." ∧ n ≠ ".."

/-- A part by which a walk goes on to an entry. -/
def IsStep (n : String) : Prop :=
  IsPart n ∧ n ≠ "." ∧ n ≠ ".." ∧ n.utf8ByteSize ≤ 255

/-- All above the location are directories. -/
structure Direct (fs : FileSystem) (l : Location) : Prop where
  directories : ∀ init, init <+: l → init ≠ l → init ≠ [] → fs.get? init = some .directory
  names : ∀ n ∈ l, IsStep n

section
variable {fs fs' : FileSystem} {dir l : Location} {ps : List String} {n : String}

theorem direct_nil (fs : FileSystem) : fs.Direct [] :=
  ⟨fun _ hinit hne => absurd (List.prefix_nil.1 hinit) hne, by simp⟩

theorem Direct.isEntryName (h : fs.Direct l) : ∀ n ∈ l, IsEntryName n := fun n hn => by
  obtain ⟨hpart, hdot, hup, -⟩ := h.names n hn
  exact ⟨hpart, hdot, hup⟩

theorem Direct.sameWays (h : fs.Direct l) (hways : fs.SameWays fs') : fs'.Direct l :=
  ⟨fun init hinit hne hnil => (hways _ _ (by simp)).1 (h.directories init hinit hne hnil), h.names⟩

theorem Direct.concat (h : fs.Direct dir) (hdir : fs.get? dir = some .directory) (hn : IsStep n) :
    fs.Direct (dir ++ [n]) := by
  refine ⟨fun init hinit hne hnil => ?_, fun m hm => ?_⟩
  · rcases List.prefix_concat_iff.1 hinit with rfl | hinit
    · exact absurd rfl hne
    · by_cases heq : init = dir
      · rw [heq, hdir]
      · exact h.directories init hinit heq hnil
  · rcases List.mem_append.1 hm with hm | hm
    · exact h.names m hm
    · exact List.mem_singleton.1 hm ▸ hn

theorem Direct.dropLast (h : fs.Direct dir) :
    fs.Direct dir.dropLast ∧ fs.get? dir.dropLast = some .directory := by
  have hpre := List.dropLast_prefix dir
  refine ⟨⟨fun init hinit hne hnil => ?_, fun n hn => h.names n (hpre.subset hn)⟩, ?_⟩
  · refine h.directories init (hinit.trans hpre) (fun heq => ?_) hnil
    rw [heq] at hinit
    exact hne (heq.trans (hinit.eq_of_length_le hpre.length_le))
  · by_cases hnil : dir.dropLast = []
    · rw [hnil]
      rfl
    · refine h.directories _ hpre (fun heq => ?_) hnil
      have hlength := congrArg List.length heq
      have hpos := List.length_pos_iff.2 fun h0 : dir = [] => hnil (by rw [h0]; rfl)
      rw [List.length_dropLast] at hlength
      omega

/-! ## Where walks end -/

theorem isPart_of_mem {path p : String} (h : p ∈ parts path) : IsPart p := by
  rw [parts, List.mem_append] at h
  rcases h with h | h
  · obtain ⟨hmem, hne⟩ := List.mem_filter.1 h
    exact ⟨of_decide_eq_true hne, Text.not_mem_of_mem_pieces hmem⟩
  · split at h
    · rw [List.mem_singleton.1 h, IsPart]
      decide
    · cases h

/-- A stretch leads from a directory with directories only above to another. -/
theorem Direct.along {dir' : Location} {ps' : List String} (hdir : fs.Direct dir)
    (hget : fs.get? dir = some .directory) (hps : ∀ p ∈ ps, IsPart p)
    (h : fs.Along dir ps dir' ps') :
    fs.Direct dir' ∧ fs.get? dir' = some .directory ∧ ∀ p ∈ ps', IsPart p := by
  induction h with
  | refl => exact ⟨hdir, hget, hps⟩
  | dot _ ih => exact ih hdir hget (List.forall_mem_cons.1 hps).2
  | up _ ih => exact ih hdir.dropLast.1 hdir.dropLast.2 (List.forall_mem_cons.1 hps).2
  | into hp he _ ih =>
    obtain ⟨hpart, hrest⟩ := List.forall_mem_cons.1 hps
    exact ih (hdir.concat hget ⟨hpart, hp⟩) he hrest

/-- Where a walk stops there are directories only above. -/
theorem direct_of_walkToLink {follow : Bool} {stop : Stop} (hdir : fs.Direct dir)
    (hget : fs.get? dir = some .directory) (hps : ∀ p ∈ ps, IsPart p)
    (hs : fs.walkToLink follow dir ps = .ok stop) :
    (∀ place, stop = .at_ place → fs.Direct place.location) ∧
      ∀ dir' ps', stop = .link dir' ps' → fs.Direct dir' ∧ fs.get? dir' = some .directory ∧
        ∀ p ∈ ps', IsPart p := by
  obtain ⟨dir', ps', halong, hhalts⟩ := walkToLink_eq_ok.1 hs
  obtain ⟨hdir', hget', hps'⟩ := hdir.along hget hps halong
  cases hhalts with
  | here he => exact ⟨fun place hplace => by cases hplace; exact hdir', by simp⟩
  | @name p hp =>
    refine ⟨fun place hplace => ?_, by simp⟩
    cases hplace
    rw [location_placeAt]
    exact hdir'.concat hget' ⟨hps' p (by simp), hp⟩
  | @link p target rest hp he =>
    refine ⟨by simp, fun dir'' ps'' hlink => ?_⟩
    cases hlink
    have hparts : ∀ q ∈ parts target ++ rest, IsPart q := fun q hq =>
      (List.mem_append.1 hq).elim isPart_of_mem fun hq => hps' q (List.mem_cons_of_mem p hq)
    split
    · exact ⟨direct_nil fs, rfl, hparts⟩
    · exact ⟨hdir', hget', hparts⟩

theorem direct_of_walk {follow : Bool} {links : Nat} {place : Place} (hdir : fs.Direct dir)
    (hget : fs.get? dir = some .directory) (hps : ∀ p ∈ ps, IsPart p)
    (hs : fs.walk follow links dir ps = .ok place) : fs.Direct place.location := by
  rw [walk_eq_ok] at hs
  induction hs with
  | ends hstop => exact (direct_of_walkToLink hdir hget hps hstop).1 _ rfl
  | past hstop _ ih =>
    obtain ⟨hdir', hget', hps'⟩ := (direct_of_walkToLink hdir hget hps hstop).2 _ _ rfl
    exact ih hdir' hget' hps'

/-- What an absolute path leads to is at a location with directories only above. -/
theorem direct_of_entry {cwd : Location} {path : String} {e : Entry}
    (habs : Text.startsWith '/' path = true) (h : fs.entry cwd path = .ok (l, e)) :
    fs.Direct l := by
  obtain ⟨-, -, -, hwalk⟩ := locate_eq_ok.1 (entry_eq_ok.1 h)
  rw [if_pos habs] at hwalk
  exact direct_of_walk (direct_nil fs) rfl (fun p hp => isPart_of_mem hp) hwalk

/-- A walk by the names of such a location comes to its end without a link. -/
theorem Direct.walkToLink_eq {names : List String} {name : String}
    (h : fs.Direct (names ++ [name])) :
    fs.walkToLink false [] (names ++ [name]) = .ok (.at_ (fs.placeAt names name)) := by
  refine walkToLink_directories (fun init hinit hnil => ?_) fun n hn => ?_
  · refine h.directories init (hinit.trans (List.prefix_append _ _)) (fun heq => ?_) hnil
    have hlength := hinit.length_le
    rw [heq, List.length_append, List.length_singleton] at hlength
    omega
  · obtain ⟨-, hdot, hup, hlong⟩ := h.names n hn
    exact ⟨hdot, hup, hlong⟩

/-- A path of the names of such a location leads there. -/
theorem location_of_direct (h : fs.Direct l) {cwd : Location} {path : String} {place : Place}
    (habs : Text.startsWith '/' path = true) (hparts : parts path = l) (hne : l ≠ [])
    (hplace : fs.locate cwd false path = .ok place) : place.location = l := by
  obtain ⟨names, name, rfl⟩ := (List.eq_nil_or_concat l).resolve_left hne
  rw [List.concat_eq_append] at h hparts ⊢
  obtain ⟨-, -, -, hwalk⟩ := locate_eq_ok.1 hplace
  rw [if_pos habs, hparts, walk, h.walkToLink_eq] at hwalk
  cases hwalk
  exact location_placeAt fs names name

end

end SelectiveSync.FileSystem
