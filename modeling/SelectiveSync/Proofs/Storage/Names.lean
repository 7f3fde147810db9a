import Mathlib
import SelectiveSync.Proofs.Path.Normal
import SelectiveSync.Proofs.System.Places
import SelectiveSync.Proofs.Text.Ends
import SelectiveSync.Storage.File

/-! # Names beside a file

The lock of a file and its new content stand beside it under names of their own.

* `Storage.getLast?_beside`: the places beside a file are named by the last parts of their paths.
* `Storage.Sited`: a file, its lock and its new content have places, none of them taken by a
  directory or a link. By `Sited.places_differ` these are three places, and by `Sited.new_differ`
  two processes have their new content at two. -/
namespace SelectiveSync
set_option autoImplicit false

/-! ## Last parts -/

namespace WrittenPath

theorem getLast?_parts_append (base : String) {name : String} (hname : name ≠ "")
    (hslash : '/' ∉ name.toList) : (FileSystem.parts (append base name)).getLast? = some name := by
  have hpieces : ∃ before, Text.pieces '/' (append base name) = before ++ [name] := by
    have hrel : isAbsolute name = false := by
      rw [isAbsolute, Text.startsWith, beq_eq_false_iff_ne]
      exact fun hc => hslash (List.mem_of_mem_head? hc)
    have hone := Text.pieces_eq_singleton hslash
    rw [append, hrel, if_neg (by simp)]
    split
    · next hbase =>
      rcases hbase with rfl | hends
      · exact ⟨[], by rw [String.empty_append, hone]; rfl⟩
      · rw [Text.endsWith, beq_iff_eq] at hends
        have hsplit : base = String.ofList base.toList.dropLast ++ String.singleton '/' := by
          apply String.toList_inj.1
          simp [List.dropLast_append_getLast?, hends]
        exact ⟨_, by rw [hsplit, Text.pieces_append, hone]⟩
    · exact ⟨_, by rw [← hone]; exact Text.pieces_append '/' base name⟩
  obtain ⟨before, hbefore⟩ := hpieces
  rw [FileSystem.parts, hbefore, List.getLast?_concat, if_neg (by simpa using hname),
    List.append_nil, List.filter_append, List.filter_cons_of_pos (by simpa using hname)]
  exact List.getLast?_concat

theorem getLast?_parts_withFileName (path : String) {name : String} (hname : name ≠ "")
    (hslash : '/' ∉ name.toList) :
    (FileSystem.parts (withFileName path name)).getLast? = some name := by
  unfold withFileName
  split
  · exact getLast?_parts_append _ hname hslash
  · exact getLast?_parts_append _ hname hslash

end WrittenPath

namespace Text

theorem pieces_slash (s : String) : pieces '/' ("/" ++ s) = "" :: pieces '/' s :=
  pieces_append '/' "" s

end Text

namespace FileSystem

theorem withoutSlashes_of_not_endsWith {path : String} (h : Text.endsWith '/' path = false) :
    withoutSlashes path = path := by
  unfold withoutSlashes
  rw [Text.trimEnd_of_not_endsWith h]
  split
  · rfl
  · rfl

end FileSystem

namespace WrittenPath

/-- A path that begins with a lone dot has it as its first part. -/
theorem head?_pieces_of_startsHere {path : String} (h : startsHere path = true) :
    (Text.pieces '/' path).head? = some "." := by
  rw [startsHere] at h
  split at h
  · next hone =>
    have hpath : path = "." := String.toList_inj.1 hone
    rw [hpath]
    decide
  · next rest hmore =>
    have hpath : path = "." ++ String.singleton '/' ++ String.ofList rest := by
      apply String.toList_inj.1
      simp [hmore]
    rw [hpath, Text.pieces_append]
    rfl
  · cases h

theorem head_slash (s : String) : head ("/" ++ s) = "/" := by
  rw [head, if_pos]
  rw [isAbsolute, Text.startsWith, String.toList_append]
  rfl

theorem stretches_slash (s : String) : stretches ("/" ++ s) = Text.pieces '/' s := by
  rw [stretches, head_slash, String.toList_append]
  exact congrArg _ String.ofList_toList

end WrittenPath

namespace NormalPath

variable {p : NormalPath}

/-- The empty parts with which the text of a path begins, after its head. -/
def voids : Anchor → List String
  | .network => [""]
  | _ => []

theorem pieces_joined_names (h : p.Canonical) (hne : p.names ≠ []) :
    Text.pieces '/' (Text.joined '/' p.names) = p.names :=
  Text.pieces_joined '/' p.names hne fun s hs => (h s hs).no_slash

theorem head_text (h : p.Canonical) (hne : p.names ≠ []) :
    WrittenPath.head p.text = if p.anchor = .relative then "" else "/" := by
  rw [text]
  cases ha : p.anchor with
  | absolute => exact WrittenPath.head_slash _
  | network =>
    rw [Anchor.text, show "//" = "/" ++ "/" from rfl, String.append_assoc, WrittenPath.head_slash]
    rfl
  | relative =>
    have hpieces := pieces_joined_names h hne
    have hhead := List.head?_eq_some_head hne
    have hfirst := h _ (List.head_mem hne)
    rw [Anchor.text, String.empty_append, if_pos rfl, WrittenPath.head]
    rw [if_neg fun habs => ?_, if_neg fun hhere => ?_]
    · have hdot := WrittenPath.head?_pieces_of_startsHere hhere
      rw [hpieces, hhead] at hdot
      exact hfirst.not_here (Option.some.inj hdot)
    · have hslash := head?_joined_ne h [] (by simp)
      rw [List.append_nil] at hslash
      exact hslash (beq_iff_eq.1 habs)

/-- What stands between the slashes of a path with names. -/
theorem stretches_text (h : p.Canonical) (hne : p.names ≠ []) :
    WrittenPath.stretches p.text = voids p.anchor ++ p.names := by
  have hpieces := pieces_joined_names h hne
  have hhead := head_text h hne
  rw [text] at hhead ⊢
  cases ha : p.anchor with
  | absolute => exact (WrittenPath.stretches_slash _).trans hpieces
  | network =>
    rw [Anchor.text, show "//" = "/" ++ "/" from rfl, String.append_assoc,
      WrittenPath.stretches_slash, Text.pieces_slash, hpieces]
    rfl
  | relative =>
    rw [ha, if_pos rfl] at hhead
    rw [WrittenPath.stretches, hhead, Anchor.text, String.empty_append]
    exact (congrArg _ String.ofList_toList).trans hpieces

theorem fileSystem_parts_text (h : p.Canonical) (hne : p.names ≠ []) :
    FileSystem.parts p.text = p.names := by
  have hpieces : ∃ before, Text.pieces '/' p.text = before ++ p.names ∧ ∀ s ∈ before, s = "" := by
    have hnames := pieces_joined_names h hne
    rw [text]
    cases p.anchor with
    | relative => exact ⟨[], by rw [Anchor.text, String.empty_append, hnames]; rfl, by simp⟩
    | absolute => exact ⟨[""], by rw [Anchor.text, Text.pieces_slash, hnames]; rfl, by simp⟩
    | network =>
      refine ⟨["", ""], ?_, by simp⟩
      rw [Anchor.text, show "//" = "/" ++ "/" from rfl, String.append_assoc, Text.pieces_slash,
        Text.pieces_slash, hnames]
      rfl
  obtain ⟨before, hpieces, hvoid⟩ := hpieces
  have hlast : (before ++ p.names).getLast? ≠ some "" := by
    rw [List.getLast?_append_of_ne_nil _ hne, List.getLast?_eq_some_getLast hne]
    exact fun heq => (h _ (List.getLast_mem hne)).ne_empty (Option.some.inj heq)
  have hfilter : before.filter (· ≠ "") = [] := by
    rw [List.filter_eq_nil_iff]
    exact fun s hs => by simp [hvoid s hs]
  have hkeep : p.names.filter (· ≠ "") = p.names :=
    List.filter_eq_self.2 fun s hs => by simp [(h s hs).ne_empty]
  rw [FileSystem.parts, hpieces, if_neg hlast, List.append_nil, List.filter_append, hfilter, hkeep,
    List.nil_append]

theorem ofPiece?_plain {s : String} (h : IsPlain s) :
    WrittenPath.Part.ofPiece? s = some (.name s) := by
  rw [WrittenPath.Part.ofPiece?, if_neg (not_or.2 ⟨h.ne_empty, h.not_here⟩), if_neg h.not_up]

/-- Nothing is dropped behind a name. -/
theorem trimmed_concat {s : String} (h : IsPlain s) (ps : List String) :
    WrittenPath.trimmed (ps ++ [s]) = ps ++ [s] := by
  rw [WrittenPath.trimmed, List.reverse_append, List.reverse_singleton, List.singleton_append,
    List.dropWhile_cons_of_neg (by simp [ofPiece?_plain h]), List.reverse_cons, List.reverse_reverse]

theorem splitLast?_text (h : p.Canonical) (hne : p.names ≠ []) :
    WrittenPath.splitLast? p.text =
      some (WrittenPath.head p.text ++
          Text.joined '/' (WrittenPath.trimmed (voids p.anchor ++ p.names.dropLast)),
        .name (p.names.getLast hne)) := by
  have hlast := h _ (List.getLast_mem hne)
  have hsplit : voids p.anchor ++ p.names =
      (voids p.anchor ++ p.names.dropLast) ++ [p.names.getLast hne] := by
    rw [List.append_assoc, List.dropLast_append_getLast hne]
  unfold WrittenPath.splitLast?
  rw [stretches_text h hne, hsplit, trimmed_concat hlast, List.reverse_append,
    List.reverse_singleton, List.singleton_append]
  simp only [ofPiece?_plain hlast, Option.map_some, List.reverse_reverse]

theorem fileName?_text (h : p.Canonical) (hne : p.names ≠ []) :
    WrittenPath.fileName? p.text = some (p.names.getLast hne) := by
  unfold WrittenPath.fileName?
  rw [splitLast?_text h hne]

/-- The path above, as it is written, without a slash at its end. -/
theorem withoutSlashes_parent? (h : p.Canonical) (hne : p.names ≠ []) {path : String}
    (hpath : WrittenPath.parent? p.text = some path) :
    FileSystem.withoutSlashes path = path := by
  unfold WrittenPath.parent? at hpath
  rw [splitLast?_text h hne, head_text h hne, Option.map_some,
    Option.some_inj] at hpath
  subst hpath
  dsimp only
  by_cases hd : p.names.dropLast = []
  · rw [hd]
    cases p.anchor <;> decide
  · obtain ⟨init, last, hsplit⟩ := List.eq_nil_or_concat p.names.dropLast |>.resolve_left hd
    have hlast := h last (List.mem_of_mem_dropLast (by rw [hsplit]; simp))
    have htrim : WrittenPath.trimmed (voids p.anchor ++ p.names.dropLast) =
        voids p.anchor ++ p.names.dropLast := by
      rw [hsplit, List.concat_eq_append, ← List.append_assoc, trimmed_concat hlast]
    have hq : Canonical ⟨p.anchor, p.names.dropLast⟩ :=
      fun s hs => h s (List.mem_of_mem_dropLast hs)
    have htext : (if p.anchor = .relative then "" else "/") ++
        Text.joined '/' (voids p.anchor ++ p.names.dropLast) =
          text ⟨p.anchor, p.names.dropLast⟩ := by
      rw [text]
      cases p.anchor with
      | relative => rfl
      | absolute => rfl
      | network =>
        obtain ⟨s, ss, hs⟩ := List.exists_cons_of_ne_nil hd
        rw [hs, voids, List.singleton_append, Text.joined, String.intercalate_cons_cons]
        simp [Anchor.text, Text.joined, ← String.append_assoc]
    rw [htrim, htext]
    refine FileSystem.withoutSlashes_of_not_endsWith ?_
    rw [Bool.eq_false_iff]
    exact fun hend => hd ((endsWith_text hq).1 hend).1

end NormalPath

/-! ## Places of their own -/

namespace Storage

open FileSystem

/-- The name of a file, and the names that stand beside it. -/
theorem names_differ (name : String) (process : Nat) :
    name ≠ name ++ ".lock" ∧ name ≠ "." ++ name ++ "." ++ toString process ++ ".tmp" ∧
      name ++ ".lock" ≠ "." ++ name ++ "." ++ toString process ++ ".tmp" := by
  refine ⟨fun h => ?_, fun h => ?_, fun h => ?_⟩
  · have hlength := congrArg String.length h
    simp at hlength
  · have hlength := congrArg String.length h
    simp only [String.length_append] at hlength
    have hdot : ".".length = 1 := rfl
    omega
  · have hlast := congrArg (fun s : String => s.toList.getLast?) h
    have hk : ".lock".toList.getLast? = some 'k' := rfl
    have hp : ".tmp".toList.getLast? = some 'p' := rfl
    simp only [String.toList_append, List.getLast?_append, hk, hp, Option.some_or] at hlast
    exact absurd hlast (by decide)

theorem newName_inj (name : String) {m n : Nat}
    (h : "." ++ name ++ "." ++ toString m ++ ".tmp" = "." ++ name ++ "." ++ toString n ++ ".tmp") :
    m = n :=
  Nat.repr_inj.1 ((String.append_right_inj _).1 ((String.append_left_inj _).1 h))

theorem differ_of_names {k l t : Location} {name : String} {process : Nat}
    (hk : k.getLast? = some name) (hl : l.getLast? = some (name ++ ".lock"))
    (ht : t.getLast? = some ("." ++ name ++ "." ++ toString process ++ ".tmp")) :
    k ≠ l ∧ k ≠ t ∧ l ≠ t := by
  obtain ⟨hkl, hkt, hlt⟩ := names_differ name process
  refine ⟨?_, ?_, ?_⟩ <;> rintro rfl
  · exact hkl (Option.some.inj (hk.symm.trans hl))
  · exact hkt (Option.some.inj (hk.symm.trans ht))
  · exact hlt (Option.some.inj (hl.symm.trans ht))

/-- The names of the places beside a file. -/
theorem getLast?_beside {fs : FileSystem} {cwd l t : Location} {path : NormalPath} {process : Nat}
    (hpath : path.Canonical) (hne : path.names ≠ []) (hlock : fs.LeadsTo cwd (lockPath path.text) l)
    (hnew : fs.LeadsTo cwd (newPath path.text process) t) :
    l.getLast? = some (path.names.getLast hne ++ ".lock") ∧
      t.getLast? =
        some ("." ++ path.names.getLast hne ++ "." ++ toString process ++ ".tmp") := by
  have hname := hpath _ (List.getLast_mem hne)
  have hfile := NormalPath.fileName?_text hpath hne
  constructor
  · rw [hlock.getLast?_eq, lockPath, hfile]
    refine WrittenPath.getLast?_parts_withFileName _ ?_ ?_
    · intro hempty
      simpa using congrArg String.length hempty
    · rw [String.toList_append, List.mem_append]
      exact not_or.2 ⟨hname.no_slash, by decide⟩
  · rw [hnew.getLast?_eq, newPath, hfile]
    refine WrittenPath.getLast?_parts_withFileName _ ?_ ?_
    · intro hempty
      simpa using congrArg String.length hempty
    · have hdigits : '/' ∉ (toString process).toList := by
        rw [Nat.toString_eq_repr, Nat.repr, String.toList_ofList]
        exact fun hc => absurd (Nat.isDigit_of_mem_toDigits (by decide) (by decide) hc) (by decide)
      simp only [String.toList_append, List.mem_append, not_or]
      exact ⟨⟨⟨⟨by decide, hname.no_slash⟩, by decide⟩, hdigits⟩, by decide⟩

/-- The file, its lock and the new content that a process writes have places in a directory that is
there, none of them taken by a directory or a link. -/
structure Sited (fs : FileSystem) (cwd : Location) (path : NormalPath) (process : Nat)
    (k l t : Location) : Prop where
  parent : ∀ dir, WrittenPath.parent? path.text = some dir → dir ≠ "" → fs.LeadsInto cwd dir
  file : fs.LeadsTo cwd path.text k
  lock : fs.LeadsTo cwd (lockPath path.text) l
  new : fs.LeadsTo cwd (newPath path.text process) t

namespace Sited

variable {path : NormalPath} {fs fs' : FileSystem} {cwd k l t : Location} {process : Nat}

theorem sameWays (h : Sited fs cwd path process k l t) (hways : fs.SameWays fs') :
    Sited fs' cwd path process k l t :=
  ⟨fun dir hdir hne => (h.parent dir hdir hne).sameWays hways, h.file.sameWays hways,
    h.lock.sameWays hways, h.new.sameWays hways⟩

/-- What leads to a file has a name. -/
theorem names_ne (h : fs.LeadsTo cwd path.text k) : path.names ≠ [] := by
  intro hnil
  obtain ⟨n, hn, hdot, -⟩ := h.named
  rw [NormalPath.text, hnil] at hn
  refine hdot (Option.some.inj (hn.symm.trans ?_))
  cases path.anchor <;> decide

/-- The names at the three places. -/
theorem getLast? (h : Sited fs cwd path process k l t) (hpath : path.Canonical) :
    ∃ name, k.getLast? = some name ∧ l.getLast? = some (name ++ ".lock") ∧
      t.getLast? = some ("." ++ name ++ "." ++ toString process ++ ".tmp") := by
  have hne := names_ne h.file
  refine ⟨path.names.getLast hne, ?_, getLast?_beside hpath hne h.lock h.new⟩
  rw [h.file.getLast?_eq, NormalPath.fileSystem_parts_text hpath hne,
    List.getLast?_eq_some_getLast hne]

theorem places_differ (h : Sited fs cwd path process k l t) (hpath : path.Canonical) :
    k ≠ l ∧ k ≠ t ∧ l ≠ t := by
  obtain ⟨name, hk, hl, ht⟩ := h.getLast? hpath
  exact differ_of_names hk hl ht

/-- Two processes write the new content of a file at different places. -/
theorem new_differ (h : Sited fs cwd path process k l t) (hpath : path.Canonical) {other : Nat}
    {u : Location} (hu : fs.LeadsTo cwd (newPath path.text other) u) (hne : process ≠ other) :
    t ≠ u := by
  obtain ⟨name, hk, -, ht⟩ := h.getLast? hpath
  obtain ⟨name', hk', -, hu⟩ := (Sited.mk h.parent h.file h.lock hu).getLast? hpath
  cases hk.symm.trans hk'
  rintro rfl
  exact hne (newName_inj name (Option.some.inj (ht.symm.trans hu)))

end Sited

end Storage

/-! ## A file at the root -/

namespace Sample
open FileSystem

theorem leadsTo_root {fs : FileSystem} (cwd : Location) {path name : String}
    (hparts : parts path = [name]) (habs : Text.startsWith '/' path = true)
    (hnul : '\x00' ∉ path.toList)
    (hname : name ≠ "." ∧ name ≠ ".." ∧ name.utf8ByteSize ≤ 255 ∧ path.utf8ByteSize < 4096)
    (hfile : fs.HoldsFile [name]) : fs.LeadsTo cwd path [name] := by
  obtain ⟨hdot, hup, hshort, hlong⟩ := hname
  have hdirs : ∀ init, init <+: [] → init ≠ [] → fs.get? init = some .directory :=
    fun init hinit hne => absurd (List.prefix_nil.1 hinit) hne
  have hparts' : parts path = [] ++ [name] := hparts
  refine leadsTo_of_directories hparts' habs hnul hlong hdirs ?_ hfile
  simpa using ⟨hdot, hup, hshort⟩

/-- A registry's file at the root, used by two processes. -/
theorem sited {fs : FileSystem} (cwd : Location) {process : Nat} (hprocess : process ∈ [1, 2])
    (hfile : fs.HoldsFile ["targets.toml"]) (hlock : fs.HoldsFile ["targets.toml.lock"])
    (hnew : fs.HoldsFile [".targets.toml." ++ toString process ++ ".tmp"]) :
    Storage.Sited fs cwd (NormalPath.ofText "/targets.toml") process ["targets.toml"]
      ["targets.toml.lock"] [".targets.toml." ++ toString process ++ ".tmp"] := by
  have htext : (NormalPath.ofText "/targets.toml").text = "/targets.toml" := by decide +kernel
  refine ⟨fun dir hdir _ => ?_, ?_, ?_, ?_⟩
  · have hroot : WrittenPath.parent? "/targets.toml" = some "/" := by decide +kernel
    rw [htext, hroot] at hdir
    cases hdir
    have hparts : parts "/" = ["."] := by decide +kernel
    refine ⟨[], locate_eq_ok.2 ⟨by decide, by decide, by decide, ?_⟩⟩
    rw [hparts]
    rfl
  · rw [htext]
    exact leadsTo_root cwd (by decide +kernel) (by decide) (by decide) (by decide) hfile
  · have hlock' : Storage.lockPath "/targets.toml" = "/targets.toml.lock" := by decide +kernel
    rw [htext, hlock']
    exact leadsTo_root cwd (by decide +kernel) (by decide) (by decide) (by decide) hlock
  · rw [htext]
    fin_cases hprocess
    · have hnew' : Storage.newPath "/targets.toml" 1 = "/.targets.toml.1.tmp" := by decide +kernel
      rw [hnew']
      exact leadsTo_root cwd (by decide +kernel) (by decide) (by decide) (by decide) hnew
    · have hnew' : Storage.newPath "/targets.toml" 2 = "/.targets.toml.2.tmp" := by decide +kernel
      rw [hnew']
      exact leadsTo_root cwd (by decide +kernel) (by decide) (by decide) (by decide) hnew

end Sample
end SelectiveSync
