import SelectiveSync.Proofs.Path.Reachable
import SelectiveSync.Proofs.Path.Within

/-! # Containment by names

A path goes on from another one if it starts where that one starts and has its names first.
`relativeTo?` compares texts instead, with a slash put behind the base. The slash is misread in two
cases only: behind the empty path, where it looks like the root, and behind the root, where it looks
like one half of a network share.

* `relativeTo?_eq_some_iff`: elsewhere the ways found are those by which a path goes on.
* `relativeTo?_of_misread`: in these cases they are what follows a slash.
* `within_antisymm`, `within_trans`: containment orders paths in all cases.
* `relativeTo?_by_names`: all of this in one, with the way back by joining. -/
namespace SelectiveSync
set_option autoImplicit false

namespace NormalPath

def nowhere : NormalPath := ⟨.relative, []⟩

def root : NormalPath := ⟨.absolute, []⟩

/-- The path starts where `base` starts and has its names first, and `rest` joins the others. -/
def GoesOn (p base : NormalPath) (rest : String) : Prop :=
  p.anchor = base.anchor ∧ ∃ l, p.names = base.names ++ l ∧ rest = Text.joined '/' l

/-- The slash put behind the base is taken for one that the path begins with. -/
def Misread (p base : NormalPath) : Prop :=
  base = nowhere ∧ p ≠ nowhere ∨ base = root ∧ p.anchor = .network

instance (p base : NormalPath) : Decidable (p.Misread base) :=
  inferInstanceAs (Decidable (_ ∨ _))

/-! ## Texts that begin with slashes -/

theorem network_text_append (s : String) : Anchor.network.text ++ s = "/" ++ ("/" ++ s) := by
  rw [← String.append_assoc]
  rfl

section
variable {p base : NormalPath} {rest : String}

theorem joined_ne_slash (hp : p.Canonical) : Text.joined '/' p.names ≠ "/" ++ rest := by
  intro h
  have hhead := head?_joined_ne hp [] (by simp)
  rw [List.append_nil, h] at hhead
  simp at hhead

theorem text_eq_slash_iff (hp : p.Canonical) :
    p.text = "/" ++ rest ↔
      p.anchor = .absolute ∧ rest = Text.joined '/' p.names ∨
        p.anchor = .network ∧ rest = "/" ++ Text.joined '/' p.names := by
  rw [text]
  cases p.anchor with
  | relative => simp [Anchor.text, joined_ne_slash hp]
  | absolute => simp [Anchor.text, eq_comm]
  | network =>
    rw [network_text_append]
    simp [eq_comm]

theorem exists_slash (hp : p.Canonical) (ha : p.anchor ≠ .relative) :
    ∃ rest, p.text = "/" ++ rest := by
  cases hanchor : p.anchor with
  | relative => exact absurd hanchor ha
  | absolute => exact ⟨_, (text_eq_slash_iff hp).2 (Or.inl ⟨hanchor, rfl⟩)⟩
  | network => exact ⟨_, (text_eq_slash_iff hp).2 (Or.inr ⟨hanchor, rfl⟩)⟩

/-! ## Ways along names -/

theorem goesOn_of_rooted (hp : p.Canonical) (hbase : base.Canonical) (hne : base.names = [])
    (ha : base.anchor ≠ .relative) (hm : ¬ p.Misread base) (h : p.text = base.stem ++ rest) :
    p.GoesOn base rest := by
  rw [stem_of_rooted hbase hne ha] at h
  cases hanchor : base.anchor with
  | relative => exact absurd hanchor ha
  | absolute =>
    have hroot : base = root := by rw [root, ← hanchor, ← hne]
    rw [hanchor] at h
    rcases (text_eq_slash_iff hp).1 h with ⟨hpa, hrest⟩ | ⟨hpa, -⟩
    · exact ⟨hpa.trans hanchor.symm, p.names, by rw [hne, List.nil_append], hrest⟩
    · exact absurd (Or.inr ⟨hroot, hpa⟩) hm
  | network =>
    rw [hanchor, network_text_append] at h
    rcases (text_eq_slash_iff hp).1 h with ⟨-, hrest⟩ | ⟨hpa, hrest⟩
    · exact absurd hrest.symm (joined_ne_slash hp)
    · exact ⟨hpa.trans hanchor.symm, p.names, by rw [hne, List.nil_append],
        (String.append_right_inj "/").1 hrest⟩

theorem goesOn_of_names (hp : p.Canonical) (hbase : base.Canonical) (hne : base.names ≠ [])
    (h : p.text = base.stem ++ rest) : p.GoesOn base rest := by
  rw [stem_of_names hbase hne, String.append_assoc] at h
  have hanchor : p.anchor = base.anchor := by
    rw [← ofChars_text_append hp [] (by simp), List.append_nil, h, String.toList_append]
    exact ofChars_text_append hbase _ fun hn => absurd hn hne
  rw [text, text, hanchor, String.append_assoc, String.append_right_inj] at h
  have hpieces : Text.pieces '/' (Text.joined '/' p.names) = base.names ++ Text.pieces '/' rest := by
    rw [h, ← String.append_assoc]
    refine (Text.pieces_append '/' _ rest).trans ?_
    rw [Text.pieces_joined '/' base.names hne fun s hs => (hbase s hs).no_slash]
  have hpne : p.names ≠ [] := by
    intro hnil
    have hone : [""] = base.names ++ Text.pieces '/' rest := by
      rw [← hpieces, hnil]
      rfl
    have hlen := congrArg List.length hone
    have hbase_pos := List.length_pos_iff.2 hne
    have hrest_pos := List.length_pos_iff.2 (Text.pieces_ne_nil '/' rest)
    rw [List.length_append, List.length_singleton] at hlen
    omega
  rw [Text.pieces_joined '/' p.names hpne fun s hs => (hp s hs).no_slash] at hpieces
  exact ⟨hanchor, _, hpieces, (Text.joined_pieces '/' rest).symm⟩

/-- Only from itself is the way to the empty path not misread. -/
theorem rooted_of_not_misread (hm : ¬ p.Misread base) (hne : p ≠ base) :
    base.names = [] → base.anchor ≠ .relative := by
  intro hnames ha
  have hbare : base = nowhere := by rw [nowhere, ← ha, ← hnames]
  exact hm (Or.inl ⟨hbare, fun hpn => hne (hpn.trans hbare.symm)⟩)

/-- The names behind a path, joined to it, lead on. -/
theorem join_names (p : NormalPath) {l : List String} (hl : ∀ s ∈ l, IsPlain s) :
    p.join (Text.joined '/' l) = ⟨p.anchor, p.names ++ l⟩ := by
  by_cases hne : l = []
  · rw [hne, List.append_nil]
    exact if_pos (Or.inl rfl)
  have hpieces := Text.pieces_joined '/' l hne fun s hs => (hl s hs).no_slash
  have hseg : ¬ (Text.joined '/' l = "" ∨ Text.joined '/' l = ".") := by
    rintro (h | h)
    · rw [h] at hpieces
      exact (hl "" (by rw [← hpieces]; decide)).ne_empty rfl
    · rw [h] at hpieces
      exact (hl "." (by rw [← hpieces]; decide)).not_here rfl
  rw [join, if_neg hseg]
  by_cases hnames : p.names = []
  · rw [if_pos hnames, hnames, List.nil_append]
    exact ofText_text (p := ⟨p.anchor, l⟩) hl
  · have hback : '\\' ∉ (Text.joined '/' l).toList := by
      intro h
      rcases Text.mem_joined h with hc | ⟨s, hs, hc⟩
      · exact absurd hc (by decide)
      · exact (hl s hs).no_backslash hc
    rw [if_neg hnames, parts, Text.swap_of_not_mem hback, hpieces, resolve_plain hl]

theorem relativeTo?_eq_some_iff (hp : p.Canonical) (hbase : base.Canonical)
    (hm : ¬ p.Misread base) : p.relativeTo? base = some rest ↔ p.GoesOn base rest := by
  rw [relativeTo?_eq_some]
  constructor
  · intro h
    split at h
    · next heq =>
      obtain rfl := (text_inj hp hbase).1 heq
      exact ⟨rfl, [], (List.append_nil p.names).symm, h⟩
    · next hne =>
      have hpne : p ≠ base := fun heq => hne (by rw [heq])
      by_cases hnames : base.names = []
      · exact goesOn_of_rooted hp hbase hnames (rooted_of_not_misread hm hpne hnames) hm h
      · exact goesOn_of_names hp hbase hnames h
  · rintro ⟨hanchor, l, hnames, rfl⟩
    have hpl : p = ⟨base.anchor, base.names ++ l⟩ := by rw [← hanchor, ← hnames]
    by_cases hl : l = []
    · subst hl
      rw [List.append_nil] at hpl
      rw [if_pos (by rw [hpl])]
      rfl
    · have hne : p ≠ base := by
        rintro rfl
        exact hl (List.append_right_eq_self.1 hnames.symm)
      rw [if_neg fun heq => hne ((text_inj hp hbase).1 heq), hpl]
      exact text_append hbase (rooted_of_not_misread hm hne) hl

theorem relativeTo?_of_misread (hp : p.Canonical) (hm : p.Misread base) :
    p.relativeTo? base = some rest ↔ p.text = "/" ++ rest := by
  have hstem : base.stem = "/" := by
    rcases hm with ⟨rfl, -⟩ | ⟨rfl, -⟩ <;> decide
  have hne : p ≠ base := by
    rcases hm with ⟨rfl, hpn⟩ | ⟨rfl, hpa⟩
    · exact hpn
    · rintro rfl
      cases hpa
  have hbase : base.Canonical := by
    rcases hm with ⟨rfl, -⟩ | ⟨rfl, -⟩ <;> exact List.forall_mem_nil IsPlain
  rw [relativeTo?_eq_some, if_neg fun heq => hne ((text_inj hp hbase).1 heq), hstem]

/-- Where the slash is misread, the ways found are not those by which a path goes on. -/
theorem not_goesOn_of_misread (hp : p.Canonical) (hm : p.Misread base) :
    ¬ ∀ rest, p.relativeTo? base = some rest ↔ p.GoesOn base rest := by
  intro h
  have hslash (rest : String) : p.text = "/" ++ rest ↔ p.GoesOn base rest := by
    rw [← relativeTo?_of_misread hp hm, h]
  by_cases ha : p.anchor = .relative
  · -- the base is the empty path, from which any relative path goes on
    rcases hm with ⟨rfl, -⟩ | ⟨-, hnetwork⟩
    · have htext := (hslash _).2 ⟨ha, p.names, rfl, rfl⟩
      exact (text_eq_slash_iff hp).not.2 (by simp [ha]) htext
    · rw [ha] at hnetwork
      cases hnetwork
  · -- the path begins with a slash but starts elsewhere than the base
    obtain ⟨rest, hrest⟩ := exists_slash hp ha
    have hsame : p.anchor = base.anchor := ((hslash rest).1 hrest).1
    rcases hm with ⟨rfl, -⟩ | ⟨rfl, hnetwork⟩
    · exact ha hsame
    · rw [hnetwork] at hsame
      cases hsame

theorem GoesOn.join_eq (hp : p.Canonical) (h : p.GoesOn base rest) : base.join rest = p := by
  obtain ⟨hanchor, l, hnames, rfl⟩ := h
  have hl : ∀ s ∈ l, IsPlain s := fun s hs => hp s (by rw [hnames]; exact List.mem_append_right _ hs)
  rw [join_names base hl, ← hanchor, ← hnames]

theorem relativeTo?_join (hp : p.Canonical) {r : NormalPath} (hr : r.Canonical)
    (ha : r.anchor = .relative) :
    (p.join r.text).relativeTo? p = some r.text ↔ p ≠ nowhere ∨ r = nowhere := by
  have htext : r.text = Text.joined '/' r.names := by
    rw [text, ha]
    exact String.empty_append
  have hq : (⟨p.anchor, p.names ++ r.names⟩ : NormalPath).Canonical := fun s hs =>
    (List.mem_append.1 hs).elim (hp s) (hr s)
  rw [htext, join_names p hr]
  by_cases hpn : p = nowhere
  · subst hpn
    have hself : (⟨nowhere.anchor, nowhere.names ++ r.names⟩ : NormalPath) = r := by
      rw [nowhere, List.nil_append, ← ha]
    rw [hself]
    by_cases hrn : r = nowhere
    · subst hrn
      exact iff_of_true (by decide) (Or.inr rfl)
    · refine iff_of_false (fun h => ?_) (by simp [hrn])
      rw [relativeTo?_of_misread hr (Or.inl ⟨rfl, hrn⟩), htext] at h
      have hlen := congrArg String.length h
      rw [String.length_append, show "/".length = 1 from rfl] at hlen
      omega
  · have hm : ¬ (⟨p.anchor, p.names ++ r.names⟩ : NormalPath).Misread p := by
      rintro (⟨h, -⟩ | ⟨hroot, hnet⟩)
      · exact hpn h
      · rw [hroot] at hnet
        cases hnet
    refine iff_of_true ((relativeTo?_eq_some_iff hq hp hm).2 ?_) (Or.inl hpn)
    exact ⟨rfl, r.names, rfl, rfl⟩

/-! ## Order -/

theorem text_prefix_stem (p : NormalPath) : p.text.toList <+: p.stem.toList := by
  rcases p.stem_eq with h | h
  · rw [h]
  · rw [h, String.toList_append]
    exact List.prefix_append _ _

theorem text_prefix_of_within (h : p.within base = true) : base.text.toList <+: p.text.toList := by
  rcases within_iff.1 h with heq | hstem
  · rw [heq]
  · exact base.text_prefix_stem.trans hstem

theorem within_antisymm (hp : p.Canonical) (hbase : base.Canonical) (h : p.within base = true)
    (h' : base.within p = true) : p = base := by
  have hle := text_prefix_of_within h
  have hge := text_prefix_of_within h'
  refine (text_inj hp hbase).1 (String.toList_inj.1 ?_)
  exact hge.eq_of_length (le_antisymm hge.length_le hle.length_le)

theorem within_trans {q : NormalPath} (h : p.within base = true) (h' : base.within q = true) :
    p.within q = true := by
  rcases within_iff.1 h' with heq | hstem
  · have hstems : base.stem = q.stem := by rw [stem, stem, heq]
    rwa [within_iff, heq, hstems, ← within_iff] at h
  · exact within_iff.2 (Or.inr (hstem.trans (text_prefix_of_within h)))

end

/-- What `relativeTo?` finds are the ways by which a path goes on from another, and they lead to it
when joined, just when the slash behind the base is not misread; where it is, all that follows the
path's first slash is found. Containment is an order in any case. A relative path joined to another is
the way found to where that leads, unless it has names and the other path is the empty one. -/
theorem relativeTo?_by_names {p base : NormalPath} (hp : p.Reachable) (hbase : base.Reachable) :
    ((∀ rest, p.relativeTo? base = some rest ↔ p.GoesOn base rest) ↔ ¬ p.Misread base) ∧
      (¬ p.Misread base → ∀ rest, p.relativeTo? base = some rest → base.join rest = p) ∧
      (p.Misread base → ∀ rest, p.relativeTo? base = some rest ↔ p.text = "/" ++ rest) ∧
      p.within p = true ∧
      (p.within base = true → base.within p = true → p = base) ∧
      (∀ q : NormalPath, p.within base = true → base.within q = true → p.within q = true) ∧
      ∀ r : NormalPath, r.Reachable → r.anchor = .relative →
        ((p.join r.text).relativeTo? p = some r.text ↔ p ≠ nowhere ∨ r = nowhere) := by
  have hp := hp.canonical
  have hbase := hbase.canonical
  refine ⟨⟨fun h hm => not_goesOn_of_misread hp hm h,
      fun hm rest => relativeTo?_eq_some_iff hp hbase hm⟩,
    fun hm rest h => ?_, fun hm rest => relativeTo?_of_misread hp hm, p.within_self,
    within_antisymm hp hbase, fun q => within_trans, fun r hr => relativeTo?_join hp hr.canonical⟩
  exact ((relativeTo?_eq_some_iff hp hbase hm).1 h).join_eq hp

theorem relativeTo?_by_names_sample :
    let p := ofText "\\srv/./media//live/2019"
    let base := ofText "/srv/media/"
    p.Reachable ∧ base.Reachable ∧ ¬ p.Misread base ∧ p.relativeTo? base = some "live/2019" ∧
      base.join "live/2019" = p := by
  intro p base
  have hp : p.Reachable := .ofText _
  have hbase : base.Reachable := .ofText _
  have hm : ¬ p.Misread base := by decide
  have hgoes : p.GoesOn base "live/2019" := ⟨by decide, ["live", "2019"], by decide, by decide⟩
  obtain ⟨hexact, hjoin, -⟩ := relativeTo?_by_names hp hbase
  have hway := (hexact.2 hm "live/2019").2 hgoes
  exact ⟨hp, hbase, hm, hway, hjoin hm _ hway⟩

/-- Three ways that are misread: `a` goes on from the empty path and is not found there, and `/a` and
`//a` are found where they do not go on. -/
theorem ways_are_misread :
    (ofText "a").GoesOn (ofText "") "a" ∧ (ofText "a").relativeTo? (ofText "") = none ∧
      (ofText "/a").anchor ≠ (ofText "").anchor ∧
      (ofText "/a").relativeTo? (ofText "") = some "a" ∧ (ofText "").join "a" ≠ ofText "/a" ∧
      (ofText "//a").anchor ≠ (ofText "/").anchor ∧
      (ofText "//a").relativeTo? (ofText "/") = some "/a" :=
  ⟨⟨by decide, ["a"], by decide, by decide⟩, by decide⟩

end NormalPath
end SelectiveSync
