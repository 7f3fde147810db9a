import SelectiveSync.Proofs.Path.Canonical
import SelectiveSync.Proofs.System.Ways

/-! # What canonical paths name

A path is resolved at the nearest entry above it, and what is missing there is put behind the location of
that entry. The last step takes backslashes for slashes, so that the result names something else where
there are some among the names.

* `Ascends`: the way up from a path to the nearest entry, and `run_nearestExisting` for every search.
* `Location.Addressable.eq_of_entry`: names on which there is no link lead to their own location.
* `canonicalize_text`: which normal paths are their own canonical form.
* `canonicalize_resolves`: what a canonical path is made of, what it leads to, and when it is canonical
  again.
* `canonicalize_renames`: a file with a backslash in its name is taken for another. -/
namespace SelectiveSync
set_option autoImplicit false

open FileSystem

/-! ## Going up -/

namespace WrittenPath

section
variable {path parent name : String}

theorem splitLast?_of_absolute (habs : isAbsolute path = true) {before : String} {part : Part}
    (h : splitLast? path = some (before, part)) :
    isAbsolute before = true ∧ ∃ piece ∈ stretches path, Part.ofPiece? piece = some part := by
  unfold splitLast? at h
  split at h
  · next last above hlast =>
    obtain ⟨part', hpart, heq⟩ := Option.map_eq_some_iff.1 h
    cases heq
    refine ⟨?_, last, ?_, hpart⟩
    · rw [head, if_pos habs, isAbsolute, Text.startsWith, String.toList_append]
      rfl
    · have hmem : last ∈ trimmed (stretches path) := by
        rw [← List.mem_reverse, hlast]
        exact List.mem_cons_self
      rw [trimmed, List.mem_reverse] at hmem
      exact List.mem_reverse.1 ((List.dropWhile_sublist _).subset hmem)
  · have hnot : startsHere path = false := by
      rw [startsHere]
      rw [isAbsolute, Text.startsWith, beq_iff_eq] at habs
      split <;> simp_all
    rw [hnot] at h
    cases h

/-- What stands above an absolute path is absolute too. -/
theorem isAbsolute_parent? (habs : isAbsolute path = true) (h : parent? path = some parent) :
    isAbsolute parent = true := by
  obtain ⟨⟨before, part⟩, hsplit, rfl⟩ := Option.map_eq_some_iff.1 h
  exact (splitLast?_of_absolute habs hsplit).1

/-- The last name of an absolute path is one that an entry may have. -/
theorem isEntryName_of_fileName? (habs : isAbsolute path = true) (h : fileName? path = some name) :
    IsEntryName name := by
  unfold fileName? at h
  split at h
  · next hsplit =>
    cases h
    obtain ⟨-, piece, hpiece, hpart⟩ := splitLast?_of_absolute habs hsplit
    rw [Part.ofPiece?] at hpart
    split at hpart
    · cases hpart
    next hvoid =>
    rw [not_or] at hvoid
    split at hpart
    · cases hpart
    next hup =>
    cases hpart
    exact ⟨⟨hvoid.1, Text.not_mem_of_mem_pieces hpiece⟩, hvoid.2, hup⟩
  · cases h

end

end WrittenPath

/-! ## Texts of locations -/

namespace Location

section
variable {l m : Location} {n : String}

theorem text_concat (hl : l ≠ []) (n : String) : Location.text (l ++ [n]) = l.text ++ "/" ++ n := by
  rw [text, text, joined_append_singleton hl]
  simp only [String.append_assoc]

theorem not_endsWith_text (hne : l ≠ []) (hnames : ∀ n ∈ l, IsEntryName n) :
    Text.endsWith '/' l.text = false := by
  refine Bool.eq_false_iff.2 fun hends => ?_
  obtain ⟨start, hstart⟩ := Text.endsWith_slash_iff.1 hends
  have hpieces : Text.pieces '/' l.text = "" :: l := by
    rw [text, Text.pieces_slash,
      Text.pieces_joined '/' l hne fun n hn => (hnames n hn).1.2]
  have hlast : (Text.pieces '/' l.text).getLast? = some "" := by
    rw [hstart, ← String.append_empty (s := start ++ "/"),
      show "/" = String.singleton '/' from rfl, Text.pieces_append, List.getLast?_append]
    rfl
  rw [hpieces, List.getLast?_cons_of_ne_nil hne] at hlast
  exact (hnames "" (List.mem_of_getLast? hlast)).1.1 rfl

/-- A name put behind the path of a location makes the path of the location beneath. -/
theorem append_text (hnames : ∀ n ∈ l, IsEntryName n) (hn : IsEntryName n) :
    WrittenPath.append l.text n = Location.text (l ++ [n]) := by
  have hrelative : ¬WrittenPath.isAbsolute n = true := fun habs => by
    rw [WrittenPath.isAbsolute, Text.startsWith, beq_iff_eq] at habs
    exact hn.1.2 (List.mem_of_mem_head? habs)
  rw [WrittenPath.append, if_neg hrelative]
  by_cases hne : l = []
  · rw [hne, if_pos (by decide)]
    rfl
  · have hopen : ¬(l.text = "" ∨ Text.endsWith '/' l.text = true) := by
      rw [not_endsWith_text hne hnames, text]
      rintro (hempty | habsurd)
      · have hhead := congrArg String.toList hempty
        rw [String.toList_append] at hhead
        cases hhead
      · cases habsurd
    rw [if_neg hopen, text_concat hne]

theorem foldl_append_text (hl : ∀ n ∈ l, IsEntryName n) (hm : ∀ n ∈ m, IsEntryName n) :
    m.foldl WrittenPath.append l.text = Location.text (l ++ m) := by
  induction m generalizing l with
  | nil => rw [List.append_nil, List.foldl_nil]
  | cons n m ih =>
    obtain ⟨hn, hm⟩ := List.forall_mem_cons.1 hm
    have hnext : ∀ k ∈ l ++ [n], IsEntryName k :=
      List.forall_mem_append.2 ⟨hl, List.forall_mem_singleton.2 hn⟩
    rw [List.foldl_cons, append_text hl hn, ih hnext hm, List.append_assoc, List.singleton_append]

/-- What a path of a location is reduced to is that path, just if there is no backslash in it. -/
theorem ofText_text_iff (hnames : ∀ n ∈ l, IsEntryName n) :
    (NormalPath.ofText l.text).text = l.text ↔ '\\' ∉ l.text.toList := by
  constructor
  · intro h
    rw [← h]
    exact NormalPath.no_backslash_text (NormalPath.canonical_ofText _)
  · intro hback
    rw [← l.text_path, NormalPath.ofText_text (canonical_path hnames hback)]

theorem anchor_ofText (l : Location) : (NormalPath.ofText l.text).anchor ≠ .relative := by
  obtain ⟨rest, hrest⟩ : ∃ rest, (Text.swap '\\' '/' l.text).toList = '/' :: rest := by
    rw [Text.swap, String.toList_ofList, text, String.toList_append]
    exact ⟨_, rfl⟩
  rw [NormalPath.ofText, hrest]
  show Anchor.ofChars ('/' :: rest) ≠ .relative
  unfold Anchor.ofChars
  split <;> simp_all

theorem text_prefix (h : l <+: m) : ∃ rest, m.text = l.text ++ rest := by
  obtain ⟨rest, hrest⟩ := Text.joined_prefix (c := '/') h
  refine ⟨String.ofList rest, String.toList_inj.1 ?_⟩
  simp only [text, String.toList_append, ← hrest, String.toList_ofList, List.append_assoc]

end

end Location

/-! ## Entries by name -/

/-- The path of a location is normal, and one that can be asked for. -/
structure Location.Addressable (l : Location) : Prop where
  plain : ∀ n ∈ l, IsPlain n
  nul : '\x00' ∉ l.text.toList
  short : l.text.utf8ByteSize < 4096

namespace Location.Addressable

variable {fs : FileSystem} {cwd l names init : Location} {e : Entry}

theorem beginning (h : names.Addressable) (hinit : init <+: names) : init.Addressable := by
  obtain ⟨rest, hrest⟩ := text_prefix hinit
  have hnul := h.nul
  have hshort := h.short
  rw [hrest, String.toList_append, List.mem_append, not_or] at hnul
  rw [hrest, String.utf8ByteSize_append] at hshort
  exact ⟨fun n hn => h.plain n (hinit.subset hn), hnul.1, by omega⟩

theorem isPart (h : names.Addressable) : ∀ n ∈ names, IsPart n := fun n hn =>
  ⟨(h.plain n hn).ne_empty, (h.plain n hn).no_slash⟩

theorem ne_dots (h : names.Addressable) : ∀ n ∈ names, n ≠ "." ∧ n ≠ ".." := fun n hn =>
  ⟨(h.plain n hn).not_here, (h.plain n hn).not_up⟩

/-- Where the path of a location leads is found by its names. -/
theorem entry_iff (h : names.Addressable) :
    fs.entry cwd names.text = .ok (l, e) ↔ fs.walk true linkLimit [] names = .ok (.found l e) := by
  have hempty : names.text ≠ "" := fun hempty => by
    have hchars := congrArg String.toList hempty
    rw [Location.text, String.toList_append] at hchars
    cases hchars
  have hparts : fs.walk true linkLimit [] (FileSystem.parts names.text) =
      fs.walk true linkLimit [] names := by
    by_cases hne : names = []
    · have hroot : FileSystem.parts (Location.text []) = ["."] := by decide +kernel
      have hhere : fs.walkToLink true [] ["."] = fs.walkToLink true [] [] :=
        (Along.dot (.refl [] [])).walkToLink_eq true
      rw [hne, hroot, walk, walk, hhere]
    · have hcanonical : names.path.Canonical := h.plain
      have hnames := NormalPath.fileSystem_parts_text hcanonical hne
      rw [Location.text_path] at hnames
      rw [hnames, Location.path]
  rw [entry_eq_ok, locate_eq_ok, if_pos (startsWith_text names), hparts]
  exact ⟨fun h => h.2.2.2, fun hwalk => ⟨h.nul, hempty, h.short, hwalk⟩⟩

/-- What leads to an entry leads to entries all along. -/
theorem entry_beginning (h : names.Addressable) (hinit : init <+: names)
    (he : fs.entry cwd names.text = .ok (l, e)) : (fs.entry cwd init.text).isOk = true := by
  obtain ⟨rest, rfl⟩ := hinit
  have hbegin := h.beginning (List.prefix_append init rest)
  obtain ⟨l', e', hfound⟩ :=
    walk_beginning (direct_nil fs) rfl hbegin.isPart (h.entry_iff.1 he)
  rw [hbegin.entry_iff.2 hfound]
  rfl

/-- Names that lead to an entry past no link lead to their own location. -/
theorem eq_of_entry (h : names.Addressable)
    (hlinks : ∀ init target, init <+: names → fs.get? init ≠ some (.link target))
    (he : fs.entry cwd names.text = .ok (l, e)) : l = names := by
  have hnone {stop : Stop} (hs : fs.walkToLink true [] names = .ok stop) :
      ∃ place, stop = .at_ place ∧ place.location = names := by
    rcases walkToLink_names h.ne_dots hs with hat | ⟨init, target, hinit, hlink⟩
    · exact hat
    · exact absurd hlink (hlinks init target hinit)
  cases walk_eq_ok.1 (h.entry_iff.1 he) with
  | ends hstop =>
    obtain ⟨place, hplace, hl⟩ := hnone hstop
    cases hplace
    exact hl
  | past hstop =>
    obtain ⟨place, hplace, -⟩ := hnone hstop
    cases hplace

/-- The path of a location with directories only above leads there. -/
theorem entry_of_direct (h : l.Addressable) (hdirect : fs.Direct l) (he : fs.get? l = some e)
    (hlink : ∀ target, e ≠ .link target) : fs.entry cwd l.text = .ok (l, e) := by
  refine h.entry_iff.2 ?_
  by_cases hne : l = []
  · subst hne
    cases he
    exact walk_eq_ok.2 (.ends rfl)
  · exact walk_of_direct hdirect hne he hlink linkLimit

end Location.Addressable

/-! ## The nearest entry above -/

/-- Going up from a path by names that lead back down, none of the paths but perhaps the last leads
anywhere. -/
inductive Ascends (fs : FileSystem) (cwd : Location) : String → String → List String → Prop
  | here (path : String) : Ascends fs cwd path path []
  | above {path parent name existing : String} {missing : List String}
      (hmissing : (fs.entry cwd path).isOk = false)
      (hparent : WrittenPath.parent? path = some parent)
      (hname : WrittenPath.fileName? path = some name)
      (h : Ascends fs cwd parent existing missing) :
      Ascends fs cwd path existing (missing ++ [name])

theorem Ascends.names {fs : FileSystem} {cwd : Location} {path existing : String}
    {missing : List String} (h : Ascends fs cwd path existing missing)
    (habs : WrittenPath.isAbsolute path = true) :
    WrittenPath.isAbsolute existing = true ∧ ∀ n ∈ missing, IsEntryName n := by
  induction h with
  | here path => exact ⟨habs, by simp⟩
  | above hmissing hparent hname h ih =>
    obtain ⟨hexisting, hnames⟩ := ih (WrittenPath.isAbsolute_parent? habs hparent)
    have hlast := WrittenPath.isEntryName_of_fileName? habs hname
    exact ⟨hexisting, List.forall_mem_append.2 ⟨hnames, List.forall_mem_singleton.2 hlast⟩⟩

section
variable {programs : Executables} {self : Nat} {w : World}

variable (programs self w) in
/-- A search for the nearest entry above goes up so. -/
theorem run_nearestExisting (fuel : Nat) (path : String) (missing : List String) :
    ∃ existing names, w.run programs self (nearestExisting fuel path missing).run =
        (.ok (existing, names ++ missing), w) ∧
      Ascends w.files w.cwd path existing names := by
  induction fuel generalizing path missing with
  | zero => exact ⟨path, [], rfl, .here path⟩
  | succ fuel ih =>
    rw [nearestExisting, World.run_exists]
    cases hfound : (w.files.entry w.cwd path).isOk with
    | true => exact ⟨path, [], rfl, .here path⟩
    | false =>
      rw [if_neg Bool.false_ne_true]
      unfold searchAbove
      split
      · next parent name hparent hname =>
        obtain ⟨existing, names, hrun, hascends⟩ := ih parent (name :: missing)
        refine ⟨existing, names ++ [name], ?_, .above hfound hparent hname hascends⟩
        rw [hrun, List.append_assoc, List.singleton_append]
      · exact ⟨path, [], rfl, .here path⟩

/-- A path that is resolved is resolved at the nearest entry above it. -/
theorem run_resolvedPath {path r : String}
    (h : (w.run programs self (resolvedPath path).run).1 = .ok r) :
    ∃ existing names l e, Ascends w.files w.cwd (WrittenPath.append w.cwd.text path) existing names ∧
      w.files.entry w.cwd existing = .ok (l, e) ∧ w.files.Direct l ∧ w.files.get? l = some e ∧
      (∀ target, e ≠ .link target) ∧ (∀ n ∈ names, IsEntryName n) ∧
      r = Location.text (l ++ names) := by
  obtain ⟨existing, names, hnearest, hascends⟩ := run_nearestExisting programs self w
    ((WrittenPath.parts (WrittenPath.append w.cwd.text path)).length + 1)
    (WrittenPath.append w.cwd.text path) []
  obtain ⟨habs, hnames⟩ := hascends.names (Location.isAbsolute_append _ _)
  rw [List.append_nil] at hnearest
  have hrun : (w.run programs self (resolvedPath path).run).1 =
      (w.run programs self (Task.check (FileError.system existing)
        (w.files.canonical w.cwd existing) >>= fun resolved =>
          pure (names.foldl WrittenPath.append resolved)).run).1 := by
    rw [resolvedPath, World.run_bind_ok (run_absolutePath path w), World.run_bind_ok hnearest]
    rfl
  rw [hrun, FileSystem.canonical] at h
  cases hentry : w.files.entry w.cwd existing with
  | error fault =>
    rw [hentry] at h
    cases h
  | ok found =>
    obtain ⟨l, e⟩ := found
    rw [hentry] at h
    cases h
    obtain ⟨hdirect, hget, hlink⟩ := found_of_entry habs hentry
    exact ⟨existing, names, l, e, hascends, hentry, hdirect, hget, hlink, hnames,
      Location.foldl_append_text hdirect.isEntryName hnames⟩

end

/-! ## Paths that are their own canonical form -/

theorem trimmed_plain {ps : List String} (h : ∀ s ∈ ps, IsPlain s) : WrittenPath.trimmed ps = ps := by
  rcases List.eq_nil_or_concat ps with rfl | ⟨init, last, rfl⟩
  · rfl
  · rw [List.concat_eq_append] at h ⊢
    exact NormalPath.trimmed_concat (h last (by simp)) init

theorem splitLast?_location {init : Location} {n : String} (h : ∀ k ∈ init ++ [n], IsPlain k) :
    WrittenPath.splitLast? (Location.text (init ++ [n])) = some (init.text, .name n) := by
  have hcanonical : (Location.path (init ++ [n])).Canonical := h
  have hinit : ∀ k ∈ init, IsPlain k := fun k hk => h k (List.mem_append_left _ hk)
  have hsplit := NormalPath.splitLast?_text hcanonical (by simp [Location.path])
  rw [NormalPath.head_text hcanonical (by simp [Location.path])] at hsplit
  simpa [Location.path, NormalPath.voids, trimmed_plain hinit, Location.text, NormalPath.text,
    Anchor.text] using hsplit

section
variable {programs : Executables} {self : Nat} {w : World} {names : Location}

variable (programs self w) in
/-- From the path of a location the search always gets to an entry, the root at the latest. -/
theorem run_nearestExisting_text (h : names.Addressable) (missing : List String) {fuel : Nat}
    (hfuel : names.length < fuel) :
    ∃ init rest, names = init ++ rest ∧ (w.files.entry w.cwd (Location.text init)).isOk = true ∧
      w.run programs self (nearestExisting fuel names.text missing).run =
        (.ok (Location.text init, rest ++ missing), w) := by
  induction fuel generalizing names missing with
  | zero => omega
  | succ fuel ih =>
    rw [nearestExisting, World.run_exists]
    cases hfound : (w.files.entry w.cwd names.text).isOk with
    | true => exact ⟨names, [], (List.append_nil names).symm, hfound, rfl⟩
    | false =>
      rw [if_neg Bool.false_ne_true]
      rcases List.eq_nil_or_concat names with rfl | ⟨init, n, rfl⟩
      · have hroot : w.files.entry w.cwd (Location.text []) = .ok ([], .directory) :=
          h.entry_iff.2 (walk_eq_ok.2 (.ends rfl))
        rw [hroot] at hfound
        cases hfound
      · rw [List.concat_eq_append] at h hfuel ⊢
        rw [List.length_append, List.length_singleton] at hfuel
        have hsplit := splitLast?_location h.plain
        obtain ⟨above, rest, hinit, hentry, hrun⟩ :=
          ih (h.beginning (List.prefix_append init [n])) (n :: missing) (by omega)
        refine ⟨above, rest ++ [n], by rw [hinit, List.append_assoc], hentry, ?_⟩
        unfold searchAbove WrittenPath.parent? WrittenPath.fileName?
        rw [hsplit, List.append_assoc, List.singleton_append]
        exact hrun

theorem Location.Addressable.isEntryName (h : names.Addressable) : ∀ n ∈ names, IsEntryName n :=
  fun n hn => ⟨h.isPart n hn, (h.ne_dots n hn).1, (h.ne_dots n hn).2⟩

theorem Location.Addressable.no_backslash (h : names.Addressable) : '\\' ∉ names.text.toList := by
  have hcanonical : names.path.Canonical := h.plain
  have hback := NormalPath.no_backslash_text hcanonical
  rwa [Location.text_path] at hback

theorem length_le_parts (h : names.Addressable) :
    names.length ≤ (WrittenPath.parts names.text).length := by
  by_cases hne : names = []
  · rw [hne]
    exact Nat.zero_le _
  have hcanonical : names.path.Canonical := h.plain
  have hstretches := NormalPath.stretches_text hcanonical hne
  have hvoids : NormalPath.voids names.path.anchor ++ names.path.names = names := rfl
  rw [Location.text_path, hvoids] at hstretches
  have hnames : names.filterMap WrittenPath.Part.ofPiece? = names.map .name := by
    rw [← List.filterMap_eq_map]
    exact List.filterMap_congr fun n hn => NormalPath.ofPiece?_plain (h.plain n hn)
  rw [WrittenPath.parts, hstretches, hnames, List.length_append, List.length_map]
  omega

variable (programs self) in
/-- A normal path on which no link leads anywhere is its own canonical form. -/
theorem canonicalize_text (h : names.Addressable)
    (hlinks : ∀ init target, init <+: names → w.files.get? init = some (.link target) →
      (w.files.entry w.cwd (Location.text init)).isOk = false) :
    (w.run programs self (canonicalize names.text).run).1 = .ok names.text := by
  have habs : WrittenPath.append w.cwd.text names.text = names.text := by
    rw [WrittenPath.append, WrittenPath.isAbsolute,
      if_pos (Location.startsWith_text names)]
  have hfuel : names.length < (WrittenPath.parts names.text).length + 1 := by
    have hlength := length_le_parts h
    omega
  obtain ⟨init, rest, hnames, hfound, hnearest⟩ :=
    run_nearestExisting_text programs self w h [] hfuel
  have hbegin : init <+: names := ⟨rest, hnames.symm⟩
  cases hentry : w.files.entry w.cwd (Location.text init) with
  | error fault =>
    rw [hentry] at hfound
    cases hfound
  | ok found =>
    obtain ⟨l, e⟩ := found
    have hl : l = init := by
      refine (h.beginning hbegin).eq_of_entry (fun before target hbefore hlink => ?_) hentry
      have hnowhere := hlinks before target (hbefore.trans hbegin) hlink
      rw [(h.beginning hbegin).entry_beginning hbefore hentry] at hnowhere
      cases hnowhere
    have hinit := (h.beginning hbegin).isEntryName
    have hrest : ∀ n ∈ rest, IsEntryName n := fun n hn =>
      h.isEntryName n (hnames ▸ List.mem_append_right init hn)
    have hresolved : (w.run programs self (resolvedPath names.text).run).1 =
        .ok (rest.foldl WrittenPath.append (Location.text init)) := by
      have habsolute : w.run programs self (absolutePath names.text).run = (.ok names.text, w) := by
        rw [run_absolutePath, habs]
      rw [List.append_nil] at hnearest
      have hcanonical : w.answer programs self (.canonical (Location.text init)) =
          (.ok (Location.text init), w) := by
        rw [World.answer, FileSystem.canonical, hentry, hl]
        rfl
      rw [resolvedPath, World.run_bind_ok habsolute, World.run_bind_ok hnearest]
      exact congrArg Prod.fst (World.run_bind_ok (World.run_ask hcanonical) _)
    rw [run_canonicalize, hresolved, Location.foldl_append_text hinit hrest, ← hnames]
    exact congrArg Except.ok ((Location.ofText_text_iff h.isEntryName).2 h.no_backslash)

end

/-! ## What canonical paths name -/

section
variable {fs : FileSystem} {cwd l : Location} {names : List String} {n : String}

/-- Beneath a location, no link on the way down by some names leads anywhere. -/
def NoWayThrough (fs : FileSystem) (cwd l : Location) (names : List String) : Prop :=
  ∀ init target, l <+: init → init ≠ l → init <+: l ++ names →
    fs.get? init = some (.link target) → (fs.entry cwd (Location.text init)).isOk = false

theorem noWayThrough_nil (fs : FileSystem) (cwd l : Location) : NoWayThrough fs cwd l [] := by
  intro init target hl hne hinit
  rw [List.append_nil] at hinit
  exact absurd (hinit.eq_of_length_le hl.length_le) hne

/-- There is no link above a location that a walk has come to. -/
theorem ne_link_above {e : Entry} (hdirect : fs.Direct l) (he : fs.get? l = some e)
    (hlink : ∀ target, e ≠ .link target) {init : Location} (hinit : init <+: l) (target : String) :
    fs.get? init ≠ some (.link target) := by
  intro h
  by_cases hl : init = l
  · rw [hl, he] at h
    exact hlink target (Option.some.inj h)
  by_cases hnil : init = []
  · rw [hnil] at h
    cases h
  · rw [hdirect.directories init hinit hl hnil] at h
    cases h

/-- Where nothing has the first name, no link further down is come to. -/
theorem noWayThrough_of_vacant {e : Entry} (hdirect : fs.Direct l) (he : fs.get? l = some e)
    (hlink : ∀ target, e ≠ .link target) (hnone : fs.get? (l ++ [n]) = none) {rest : List String}
    (haddress : Location.Addressable (l ++ n :: rest)) : NoWayThrough fs cwd l (n :: rest) := by
  intro init target hl hne hinit _
  refine Bool.eq_false_iff.2 fun hok => ?_
  have hfirst : l ++ [n] <+: init := by
    obtain ⟨more, rfl⟩ := hl
    cases more with
    | nil => exact absurd (List.append_nil l) hne
    | cons m more =>
      obtain ⟨rfl, -⟩ := List.cons_prefix_cons.1 ((List.prefix_append_right_inj l).1 hinit)
      exact ⟨more, by simp⟩
  cases hentry : fs.entry cwd (Location.text init) with
  | error fault =>
    rw [hentry] at hok
    cases hok
  | ok found =>
    have hbegin := (haddress.beginning hinit).entry_beginning hfirst hentry
    cases hn : fs.entry cwd (Location.text (l ++ [n])) with
    | error fault =>
      rw [hn] at hbegin
      cases hbegin
    | ok place =>
      have hthere := (haddress.beginning (hfirst.trans hinit)).eq_of_entry
        (fun before target hbefore h => ?_) hn
      · obtain ⟨-, hget, -⟩ := found_of_entry (Location.startsWith_text _) hn
        rw [hthere, hnone] at hget
        cases hget
      · rcases List.prefix_concat_iff.1 hbefore with rfl | hbefore
        · rw [hnone] at h
          cases h
        · exact ne_link_above hdirect he hlink hbefore target h

end

/-- A canonical path is absolute and has plain names only. It is put together from the location that the
nearest entry above the given path is at and from the names of what is missing there, and it is the path
made of these just if there is no backslash among them. If so, and if it can be asked for, it leads to
the very entry that the given path leads to, should there be one, and past no link; and it is its own
canonical form, unless some link leads on beneath the nearest entry, as there can be none if nothing was
missing or if nothing at all has the first missing name. -/
theorem canonicalize_resolves (programs : Executables) (self : Nat) (w : World) (path : String)
    {q : String} (h : (w.run programs self (canonicalize path).run).1 = .ok q) :
    (∃ p : NormalPath, p.Canonical ∧ p.anchor ≠ .relative ∧ q = p.text) ∧
    ∃ existing names l e,
      Ascends w.files w.cwd (WrittenPath.append w.cwd.text path) existing names ∧
      w.files.entry w.cwd existing = .ok (l, e) ∧
      w.files.Direct l ∧ w.files.get? l = some e ∧ (∀ target, e ≠ .link target) ∧
      (q = Location.text (l ++ names) ↔ '\\' ∉ (Location.text (l ++ names)).toList) ∧
      (q = Location.text (l ++ names) → '\x00' ∉ q.toList → q.utf8ByteSize < 4096 →
        (names = [] → w.files.entry w.cwd q = .ok (l, e)) ∧
        (names = [] ∨ (∃ n rest, names = n :: rest ∧ w.files.get? (l ++ [n]) = none) ∨
            NoWayThrough w.files w.cwd l names →
          (w.run programs self (canonicalize q).run).1 = .ok q)) := by
  rw [run_canonicalize] at h
  cases hresolved : (w.run programs self (resolvedPath path).run).1 with
  | error cause =>
    rw [hresolved] at h
    cases h
  | ok r =>
    rw [hresolved] at h
    have hq : (NormalPath.ofText r).text = q := Except.ok.inj h
    subst hq
    obtain ⟨existing, names, l, e, hascends, hentry, hdirect, hget, hlink, hnames, rfl⟩ :=
      run_resolvedPath hresolved
    have hall : ∀ n ∈ l ++ names, IsEntryName n :=
      List.forall_mem_append.2 ⟨hdirect.isEntryName, hnames⟩
    have hiff := Location.ofText_text_iff hall
    refine ⟨⟨_, NormalPath.canonical_ofText _, Location.anchor_ofText _, rfl⟩, existing, names, l, e,
      hascends, hentry, hdirect, hget, hlink, hiff, fun heq hnul hshort => ?_⟩
    rw [heq] at hnul hshort ⊢
    have hplain : (Location.path (l ++ names)).Canonical :=
      Location.canonical_path hall (hiff.1 heq)
    have haddress : Location.Addressable (l ++ names) := ⟨hplain, hnul, hshort⟩
    refine ⟨fun hnil => ?_, fun hwhy => ?_⟩
    · rw [hnil, List.append_nil] at haddress ⊢
      exact haddress.entry_of_direct hdirect hget hlink
    have hway : NoWayThrough w.files w.cwd l names := by
      rcases hwhy with rfl | ⟨n, rest, rfl, hnone⟩ | hway
      · exact noWayThrough_nil _ _ l
      · exact noWayThrough_of_vacant hdirect hget hlink hnone haddress
      · exact hway
    refine canonicalize_text programs self haddress fun init target hinit htarget => ?_
    -- A link on the way can only be beneath the nearest entry.
    rcases List.prefix_or_prefix_of_prefix hinit (List.prefix_append l names) with hbefore | hafter
    · exact absurd htarget (ne_link_above hdirect hget hlink hbefore target)
    · refine hway init target hafter (fun heq => ?_) hinit htarget
      exact ne_link_above hdirect hget hlink (heq ▸ List.prefix_rfl) target htarget

namespace Sample

/-- All programs end well and change nothing. -/
def quiet : Executables := fun _ _ _ w => (.ok (some 0), w)

/-- Two links, one to a directory and one to a file, and a file with a backslash in its name beside the
directories that the name would mean if the backslash were a slash. -/
def crossed : World where
  files := ⟨[(["m"], .directory), (["m", "a"], .link "/o"), (["o"], .directory),
    (["o", "b"], .file .empty false), (["l"], .link "o/b"), (["x\\y"], .file .empty false),
    (["x"], .directory), (["x", "y"], .directory)]⟩

end Sample

open Sample

/-- Through a link to an existing file, and to one that is missing two levels beneath a directory. -/
theorem canonicalize_resolves_sample :
    ((crossed.run quiet 1 (canonicalize "/m/a/b").run).1 = .ok "/o/b" ∧
      crossed.files.entry [] "/o/b" = .ok (["o", "b"], .file .empty false)) ∧
    (crossed.run quiet 1 (canonicalize "/m/a/c/d").run).1 = .ok "/o/c/d" ∧
      (crossed.run quiet 1 (canonicalize "/o/c/d").run).1 = .ok "/o/c/d" := by
  have hthere : (crossed.run quiet 1 (canonicalize "/m/a/b").run).1 = .ok "/o/b" := rfl
  have hmissing : (crossed.run quiet 1 (canonicalize "/m/a/c/d").run).1 = .ok "/o/c/d" := rfl
  refine ⟨⟨hthere, ?_⟩, hmissing, ?_⟩
  · obtain ⟨-, existing, names, l, e, hascends, hentry, -, -, -, -, hsame⟩ :=
      canonicalize_resolves quiet 1 crossed "/m/a/b" hthere
    have habs : WrittenPath.append crossed.cwd.text "/m/a/b" = "/m/a/b" := by decide +kernel
    rw [habs] at hascends
    cases hascends with
    | here =>
      cases hentry
      exact (hsame rfl (by decide) (by decide)).1 rfl
    | above hnone => exact absurd hnone (by decide +kernel)
  · obtain ⟨-, existing, names, l, e, hascends, hentry, -, -, -, -, hsame⟩ :=
      canonicalize_resolves quiet 1 crossed "/m/a/c/d" hmissing
    have habs : WrittenPath.append crossed.cwd.text "/m/a/c/d" = "/m/a/c/d" := by decide +kernel
    have hparents : WrittenPath.parent? "/m/a/c/d" = some "/m/a/c" ∧
        WrittenPath.parent? "/m/a/c" = some "/m/a" := by decide +kernel
    have hnames : WrittenPath.fileName? "/m/a/c/d" = some "d" ∧
        WrittenPath.fileName? "/m/a/c" = some "c" := by decide +kernel
    rw [habs] at hascends
    cases hascends with
    | here => cases hentry
    | above _ hparent hname habove =>
      cases hparents.1.symm.trans hparent
      cases hnames.1.symm.trans hname
      cases habove with
      | here => cases hentry
      | above _ hparent hname habove =>
        cases hparents.2.symm.trans hparent
        cases hnames.2.symm.trans hname
        cases habove with
        | here =>
          cases hentry
          exact (hsame rfl (by decide) (by decide)).2 (Or.inr (Or.inl ⟨"c", ["d"], rfl, rfl⟩))
        | above hnone => exact absurd hnone (by decide +kernel)

/-- A file with a backslash in its name is taken for another that is there. And a link to a file,
which leads nowhere with a slash behind it, is kept: the answer has a canonical form that is not
itself. -/
theorem canonicalize_renames :
    ((crossed.run quiet 1 (canonicalize "x\\y").run).1 = .ok "/x/y" ∧
        crossed.files.entry [] "x\\y" = .ok (["x\\y"], .file .empty false) ∧
        crossed.files.entry [] "/x/y" = .ok (["x", "y"], .directory)) ∧
      (crossed.run quiet 1 (canonicalize "/l/").run).1 = .ok "/l" ∧
        (crossed.run quiet 1 (canonicalize "/l").run).1 = .ok "/o/b" :=
  ⟨⟨rfl, rfl, rfl⟩, rfl, rfl⟩

end SelectiveSync
