import SelectiveSync.Proofs.Path.Containment
import SelectiveSync.Proofs.Text.Ends
import SelectiveSync.Proofs.Tree.Ancestry

/-! # Enclosing paths and file names

A path is its enclosing path with its file name behind it. Both are found where the text has its last
slash, and that slash is the enclosing path if nothing stands before it. In a network share with one
name the last slash is the second of the two at the start: the one before it is left over, which is
the root and no share any more.

* `parent?_concat`: one step up takes the last name away.
* `chain_enclosing`: steps up lead to the paths with fewer names, one name at a time.
* `parent?_cut`, `fileName?_cut`: both are what the text is cut into.
* `parent_and_name`: all of this in one, and which paths are made again by joining the two. -/
namespace SelectiveSync
set_option autoImplicit false

/-! ## Texts cut at the last slash -/

/-- The text before the last slash, slashes at the end apart, or that slash if nothing stands before
it. -/
def enclosingText? (s : String) : Option String :=
  match Text.cutLast? '/' (Text.trimEnd '/' s) with
  | none => none
  | some (before, name) =>
    if before ≠ "" then some before else if name ≠ "" then some "/" else none

/-- The text behind the last slash, slashes at the end apart, unless it is empty. -/
def nameText? (s : String) : Option String :=
  let trimmed := Text.trimEnd '/' s
  let name := match Text.cutLast? '/' trimmed with
    | none => trimmed
    | some (_, behind) => behind
  if name = "" then none else some name

namespace NormalPath

/-! ## Paths with fewer names -/

/-- The network share without names. -/
def share : NormalPath := ⟨.network, []⟩

/-- The path is a network share with one name. -/
def IsTopShare (p : NormalPath) : Prop :=
  p.anchor = .network ∧ p.names.length = 1

instance (p : NormalPath) : Decidable p.IsTopShare :=
  inferInstanceAs (Decidable (_ ∧ _))

/-- The root in the place of the share without names, and any other path as it is. -/
def grounded (p : NormalPath) : NormalPath :=
  if p = share then root else p

/-- The paths that start where a path starts and have its first names, but not all of its names, those
with the most names first. The empty path is left out. -/
def enclosing (p : NormalPath) : List NormalPath :=
  ((List.range p.names.length).map fun i => ⟨p.anchor, p.names.take i⟩).reverse.filter (· ≠ nowhere)

theorem ne_of_names {p q : NormalPath} (hp : p.names ≠ []) (hq : q.names = []) : p ≠ q := by
  intro h
  rw [h] at hp
  exact hp hq

theorem grounded_eq_self_iff {p : NormalPath} : p.grounded = p ↔ p ≠ share := by
  rw [grounded]
  split
  · next hshare =>
    rw [hshare]
    decide
  · next hne => exact iff_of_true rfl hne

theorem mem_enclosing {p q : NormalPath} :
    q ∈ p.enclosing ↔ q ≠ nowhere ∧ q ≠ p ∧ ∃ rest, p.GoesOn q rest := by
  simp only [enclosing, List.mem_filter, List.mem_reverse, List.mem_map, List.mem_range,
    decide_eq_true_eq]
  constructor
  · rintro ⟨⟨i, hi, rfl⟩, hne⟩
    refine ⟨hne, ?_, _, rfl, p.names.drop i, (List.take_append_drop i p.names).symm, rfl⟩
    intro heq
    have hlen := congrArg (fun q => q.names.length) heq
    simp only [List.length_take] at hlen
    omega
  · rintro ⟨hne, hself, _, hanchor, l, hnames, -⟩
    refine ⟨⟨q.names.length, ?_, ?_⟩, hne⟩
    · have hl : l ≠ [] := by
        rintro rfl
        rw [List.append_nil] at hnames
        apply hself
        cases p
        cases q
        simp_all
      have hpos := List.length_pos_iff.2 hl
      rw [hnames, List.length_append]
      omega
    · rw [hanchor, hnames, List.take_left]

section
variable (a : Anchor) (l : List String) (name : String)

/-! ## Steps up -/

theorem parent?_concat :
    parent? ⟨a, l ++ [name]⟩ =
      if (⟨a, l⟩ : NormalPath) = nowhere then none else some (grounded ⟨a, l⟩) := by
  cases l with
  | nil => cases a <;> rfl
  | cons first rest =>
    have hnames : (⟨a, first :: rest⟩ : NormalPath).names ≠ [] := by simp
    rw [if_neg (ne_of_names hnames rfl), grounded_eq_self_iff.2 (ne_of_names hnames rfl)]
    cases rest with
    | nil => rfl
    | cons second more =>
      have hdrop : (first :: second :: more ++ [name]).dropLast = first :: second :: more :=
        List.dropLast_concat
      simpa [parent?] using hdrop

theorem parent?_eq_none_iff {p : NormalPath} :
    p.parent? = none ↔ p.names = [] ∨ p.anchor = .relative ∧ ∃ name, p.names = [name] := by
  obtain ⟨a, names⟩ := p
  rcases List.eq_nil_or_concat' names with rfl | ⟨l, name, rfl⟩
  · simp [parent?]
  · rw [parent?_concat]
    cases l <;> simp [nowhere]

theorem enclosing_concat :
    enclosing ⟨a, l ++ [name]⟩ =
      if (⟨a, l⟩ : NormalPath) = nowhere then [] else ⟨a, l⟩ :: enclosing ⟨a, l⟩ := by
  have hfewer : (List.range l.length).map (fun i => (⟨a, (l ++ [name]).take i⟩ : NormalPath)) =
      (List.range l.length).map fun i => ⟨a, l.take i⟩ := by
    apply List.map_congr_left
    intro i hi
    rw [List.take_append_of_le_length (List.mem_range.1 hi).le]
  have hall : enclosing ⟨a, l ++ [name]⟩ =
      (⟨a, l⟩ :: ((List.range l.length).map fun i => (⟨a, l.take i⟩ : NormalPath)).reverse).filter
        (· ≠ nowhere) := by
    simp only [enclosing, List.length_append, List.length_singleton, List.range_succ,
      List.map_append, hfewer, List.map_singleton, List.take_left, List.reverse_append,
      List.reverse_singleton, List.singleton_append]
  rw [hall]
  split
  · next hnowhere =>
    obtain ⟨rfl, rfl⟩ := NormalPath.mk.inj hnowhere
    rfl
  · next hne => rw [List.filter_cons_of_pos (by simpa using hne), enclosing]

/-- The induction is on the names from the last one on, as steps up take them away. -/
theorem chain_enclosing (p : NormalPath) : Chain parent? p (p.enclosing.map grounded) := by
  obtain ⟨a, names⟩ := p
  induction names using List.reverseRecOn with
  | nil => exact .stop rfl
  | append_singleton l name ih =>
    have hstep := parent?_concat a l name
    rw [enclosing_concat]
    split at hstep
    · next hnowhere =>
      rw [if_pos hnowhere]
      exact .stop hstep
    · next hne =>
      rw [if_neg hne, List.map_cons]
      refine .step hstep ?_
      cases l with
      | nil =>
        have htop : (grounded ⟨a, []⟩).parent? = none := by cases a <;> rfl
        exact .stop htop
      | cons first rest =>
        rw [grounded_eq_self_iff.2 (ne_of_names (by simp) rfl)]
        exact ih

theorem map_grounded_enclosing (p : NormalPath) :
    p.enclosing.map grounded = p.enclosing ↔ (p.anchor = .network → p.names = []) := by
  have hkept : p.enclosing.map grounded = p.enclosing ↔ ∀ q ∈ p.enclosing, q ≠ share := by
    calc p.enclosing.map grounded = p.enclosing
      _ ↔ p.enclosing.map grounded = p.enclosing.map id := by rw [List.map_id]
      _ ↔ ∀ q ∈ p.enclosing, q.grounded = q := List.map_inj_left
      _ ↔ ∀ q ∈ p.enclosing, q ≠ share := by simp only [grounded_eq_self_iff]
  rw [hkept]
  constructor
  · intro h hanchor
    by_contra hnames
    refine h share (mem_enclosing.2 ⟨by decide, ?_, _, hanchor, p.names, rfl, rfl⟩) rfl
    intro hp
    exact hnames (by rw [← hp]; rfl)
  · intro h q hq hshare
    obtain ⟨-, hself, -, hanchor, l, hnames, -⟩ := mem_enclosing.1 hq
    subst hshare
    have hnil := h hanchor
    apply hself
    cases p
    simp_all [share]

end

/-! ## A path taken apart -/

/-- The path has `d` around it and `name` as its file name, and what the two make when joined. -/
structure TakenApart (p d : NormalPath) (name : String) : Prop where
  canonical : CanonicalText d.text
  names : p.names = d.names ++ [name]
  fileName : p.fileName? = some name
  within : p.within d = true
  anchor : d.anchor = p.anchor ↔ ¬ p.IsTopShare
  join : d.join name = p ↔ ¬ p.IsTopShare
  top : p.IsTopShare → d = root

section
variable {a : Anchor} {l : List String} {name : String}

theorem Canonical.concat (h : Canonical ⟨a, l ++ [name]⟩) : Canonical ⟨a, l⟩ ∧ IsPlain name := by
  constructor
  · intro s hs
    exact h s (List.mem_append_left _ hs)
  · exact h name (by simp)

theorem join_name (p : NormalPath) (h : IsPlain name) :
    p.join name = ⟨p.anchor, p.names ++ [name]⟩ := by
  have hjoin := join_names p (l := [name]) (by simpa using h)
  rw [Text.joined, String.intercalate_singleton] at hjoin
  exact hjoin

theorem isTopShare_concat :
    IsTopShare ⟨a, l ++ [name]⟩ ↔ (⟨a, l⟩ : NormalPath) = share := by
  simp [IsTopShare, share]

/-- The slash behind the root is misread for a share, so that the share lies within the root. -/
theorem takenApart_share (hp : Canonical ⟨.network, [name]⟩) :
    TakenApart ⟨.network, [name]⟩ root name where
  canonical := ⟨"/", by decide, [], by simp, rfl⟩
  names := rfl
  fileName := rfl
  within := by
    have hway := (relativeTo?_of_misread hp (Or.inr ⟨rfl, rfl⟩)).2
      ((text_eq_slash_iff hp).2 (Or.inr ⟨rfl, rfl⟩))
    rw [NormalPath.within, hway]
    rfl
  anchor := by simp [IsTopShare, root]
  join := by
    rw [join_name root (hp name (by simp))]
    simp [IsTopShare, root]
  top := fun _ => rfl

theorem takenApart_concat (hp : Canonical ⟨a, l ++ [name]⟩)
    (hnowhere : (⟨a, l⟩ : NormalPath) ≠ nowhere) (hshare : (⟨a, l⟩ : NormalPath) ≠ share) :
    TakenApart ⟨a, l ++ [name]⟩ ⟨a, l⟩ name where
  canonical := canonicalText_text hp.concat.1
  names := rfl
  fileName := List.getLast?_concat
  within := by
    have hm : ¬ (⟨a, l ++ [name]⟩ : NormalPath).Misread ⟨a, l⟩ := by
      rintro (⟨h, -⟩ | ⟨h, hnetwork⟩)
      · exact hnowhere h
      · cases h
        cases hnetwork
    have hway := (relativeTo?_eq_some_iff hp hp.concat.1 hm).2 ⟨rfl, [name], rfl, rfl⟩
    rw [NormalPath.within, hway]
    rfl
  anchor := iff_of_true rfl (isTopShare_concat.not.2 hshare)
  join := iff_of_true (join_name ⟨a, l⟩ hp.concat.2) (isTopShare_concat.not.2 hshare)
  top := fun h => absurd (isTopShare_concat.1 h) hshare

end

theorem exists_takenApart {p d : NormalPath} (hp : p.Canonical) (h : p.parent? = some d) :
    ∃ name, p.TakenApart d name := by
  obtain ⟨a, names⟩ := p
  rcases List.eq_nil_or_concat' names with rfl | ⟨l, name, rfl⟩
  · cases h
  rw [parent?_concat] at h
  split at h
  · cases h
  · next hnowhere =>
    refine ⟨name, ?_⟩
    obtain rfl := Option.some.inj h
    by_cases hshare : (⟨a, l⟩ : NormalPath) = share
    · obtain ⟨rfl, rfl⟩ := NormalPath.mk.inj hshare
      exact takenApart_share hp
    · rw [grounded_eq_self_iff.2 hshare]
      exact takenApart_concat hp hnowhere hshare

/-! ## What the text is cut into -/

theorem eq_nowhere_of_text {p : NormalPath} (hp : p.Canonical) (h : p.text = "") : p = nowhere := by
  rw [← ofText_text hp, h]
  rfl

theorem trimEnd_text {p : NormalPath} (hp : p.Canonical) (hne : p.names ≠ []) :
    Text.trimEnd '/' p.text = p.text := by
  apply Text.trimEnd_of_not_endsWith
  rw [Bool.eq_false_iff]
  intro hends
  exact hne ((endsWith_text hp).1 hends).1

section
variable {a : Anchor} {l : List String} {name : String}

/-- What stands before the last slash is the text of the path around, except where that is the root:
the slash is then the root itself, or the second one of a share. -/
theorem exists_before (hp : Canonical ⟨a, l ++ [name]⟩) (hne : (⟨a, l⟩ : NormalPath) ≠ nowhere) :
    ∃ before, text ⟨a, l ++ [name]⟩ = before ++ "/" ++ name ∧
      (if before ≠ "" then before else "/") = (grounded ⟨a, l⟩).text := by
  have hjoined : Text.joined '/' [name] = name := String.intercalate_singleton
  cases l with
  | nil =>
    rw [List.nil_append, text, hjoined]
    cases a with
    | relative => exact absurd rfl hne
    | absolute => exact ⟨"", rfl, by decide⟩
    | network => exact ⟨"/", rfl, by decide⟩
  | cons first rest =>
    have hbase := hp.concat.1
    have hnames : (⟨a, first :: rest⟩ : NormalPath).names ≠ [] := by simp
    have hbefore : (⟨a, first :: rest⟩ : NormalPath).text ≠ "" := fun hempty =>
      hne (eq_nowhere_of_text hbase hempty)
    refine ⟨text ⟨a, first :: rest⟩, ?_, ?_⟩
    · rw [text_append hbase (fun hnil => absurd hnil hnames) (by simp), stem_of_names hbase hnames,
        hjoined]
    · rw [if_pos hbefore, grounded_eq_self_iff.2 (ne_of_names hnames rfl)]

theorem cutLast?_text (hp : Canonical ⟨a, l ++ [name]⟩) :
    (⟨a, l⟩ : NormalPath) = nowhere ∧ text ⟨a, l ++ [name]⟩ = name ∧
        Text.cutLast? '/' (text ⟨a, l ++ [name]⟩) = none ∨
      (⟨a, l⟩ : NormalPath) ≠ nowhere ∧ ∃ before,
        Text.cutLast? '/' (text ⟨a, l ++ [name]⟩) = some (before, name) ∧
          (if before ≠ "" then before else "/") = (grounded ⟨a, l⟩).text := by
  have hslash := hp.concat.2.no_slash
  by_cases hne : (⟨a, l⟩ : NormalPath) = nowhere
  · obtain ⟨rfl, rfl⟩ := NormalPath.mk.inj hne
    have htext : text ⟨.relative, [] ++ [name]⟩ = name := by simp [text, Anchor.text, Text.joined]
    refine Or.inl ⟨hne, htext, ?_⟩
    rw [htext]
    exact Text.cutLast?_of_not_mem hslash
  · obtain ⟨before, htext, hgrounded⟩ := exists_before hp hne
    refine Or.inr ⟨hne, before, ?_, hgrounded⟩
    rw [htext]
    exact Text.cutLast?_append before hslash

end

theorem parent?_cut {p : NormalPath} (hp : p.Canonical) :
    p.parent?.map text = enclosingText? p.text := by
  obtain ⟨a, names⟩ := p
  rcases List.eq_nil_or_concat' names with rfl | ⟨l, name, rfl⟩
  · cases a <;> decide
  have hname := hp.concat.2.ne_empty
  rw [enclosingText?, trimEnd_text hp (by simp), parent?_concat]
  rcases cutLast?_text hp with ⟨hnowhere, -, hcut⟩ | ⟨hne, before, hcut, hgrounded⟩
  · rw [hcut, if_pos hnowhere]
    rfl
  · rw [hcut, if_neg hne, Option.map_some, ← hgrounded]
    by_cases hbefore : before ≠ "" <;> simp [hbefore, hname]

theorem fileName?_cut {p : NormalPath} (hp : p.Canonical) : p.fileName? = nameText? p.text := by
  obtain ⟨a, names⟩ := p
  rcases List.eq_nil_or_concat' names with rfl | ⟨l, name, rfl⟩
  · cases a <;> decide
  have hname := hp.concat.2.ne_empty
  have hlast : fileName? ⟨a, l ++ [name]⟩ = some name := List.getLast?_concat
  rw [nameText?, trimEnd_text hp (by simp), hlast]
  rcases cutLast?_text hp with ⟨-, htext, hcut⟩ | ⟨-, before, hcut, -⟩
  · rw [htext] at hcut ⊢
    simp [hcut, hname]
  · simp [hcut, hname]

/-- A path with a path around it lies within that, and its names are the names of that and its file
name. The two start at the same place, and joining the file name makes the path again, just when the
path is no network share with one name; around such a share the root is found. Nothing is found around
a path without names and around a relative path with one. Steps up lead to the paths with fewer names,
one name at a time, with the root in the place of the share without names. All this is what the text is
cut into at its last slash. -/
theorem parent_and_name {p : NormalPath} (hp : p.Reachable) :
    (∀ d, p.parent? = some d → ∃ name, p.TakenApart d name) ∧
      (p.parent? = none ↔ p.names = [] ∨ p.anchor = .relative ∧ ∃ name, p.names = [name]) ∧
      (∀ above, Chain parent? p above ↔ above = p.enclosing.map grounded) ∧
      (p.enclosing.map grounded = p.enclosing ↔ (p.anchor = .network → p.names = [])) ∧
      p.parent?.map text = enclosingText? p.text ∧ p.fileName? = nameText? p.text := by
  have hp := hp.canonical
  refine ⟨?_, parent?_eq_none_iff, p.chain_enclosing.iff_eq, p.map_grounded_enclosing,
    parent?_cut hp, fileName?_cut hp⟩
  intro d hd
  exact exists_takenApart hp hd

theorem parent_and_name_sample :
    let p := ofText "/srv/./media\\live"
    let d := ofText "/srv/media"
    p.Reachable ∧ p.parent? = some d ∧ p.fileName? = some "live" ∧ d.join "live" = p ∧
      p.within d = true ∧ Chain parent? p [d, ofText "/srv", ofText "/"] := by
  intro p d
  have hp : p.Reachable := .ofText _
  have hd : p.parent? = some d := by decide
  obtain ⟨happart, -, hchain, -⟩ := parent_and_name hp
  obtain ⟨name, hname⟩ := happart d hd
  have hlive : name = "live" := by
    have hlast : p.fileName? = some "live" := by decide
    exact Option.some.inj (hname.fileName.symm.trans hlast)
  subst hlive
  exact ⟨hp, hd, hname.fileName, hname.join.2 (by decide), hname.within, (hchain _).2 (by decide)⟩

/-- What is found around the share `//a` is the root, which starts elsewhere and leads to `/a`. -/
theorem share_is_lost :
    (ofText "//a").Reachable ∧ (ofText "//a").parent? = some root ∧
      (ofText "//a").fileName? = some "a" ∧ root.anchor ≠ (ofText "//a").anchor ∧
      root.join "a" ≠ ofText "//a" ∧
      ¬ Chain parent? (ofText "//a") (ofText "//a").enclosing := by
  refine ⟨.ofText _, by decide, by decide, by decide, by decide, ?_⟩
  rw [Chain.iff_eq (chain_enclosing _)]
  decide

end NormalPath
end SelectiveSync
