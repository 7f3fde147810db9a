import Mathlib.Data.List.Infix
import SelectiveSync.Path.Normal
import SelectiveSync.Proofs.Text.Lines
import SelectiveSync.Proofs.Tree.Path

/-! # Normalized paths and their texts

* `canonical_ofText`: the names of a normalized path are not empty, hold no slash of either kind and
  are not made of dots only.
* `ofText_text`: such a path is what its text is reduced to, so that paths and their texts say the
  same.
* `text_append`: a path continued by names is written as its stem and these names.
* `join_eq`: to join a segment is to read on behind the stem. -/
namespace SelectiveSync
set_option autoImplicit false

/-! ## Characters of a text -/

namespace Text

theorem mem_joined {c x : Char} {ps : List String} (h : x ∈ (joined c ps).toList) :
    x = c ∨ ∃ p ∈ ps, x ∈ p.toList := by
  induction ps with
  | nil => simp [joined] at h
  | cons p ps ih =>
    cases ps with
    | nil => exact Or.inr ⟨p, by simp, by simpa [joined] using h⟩
    | cons q ps =>
      rw [joined, String.intercalate_cons_cons, String.toList_append, String.toList_append,
        List.mem_append, List.mem_append] at h
      rcases h with (h | h) | h
      · exact Or.inr ⟨p, by simp, h⟩
      · exact Or.inl (by simpa using h)
      · rcases ih h with hc | ⟨r, hr, hx⟩
        · exact Or.inl hc
        · exact Or.inr ⟨r, List.mem_cons_of_mem _ hr, hx⟩

theorem mem_of_mem_piece {c x : Char} {s piece : String} (h : piece ∈ pieces c s)
    (hx : x ∈ piece.toList) : x ∈ s.toList := by
  obtain ⟨before, after, hsplit⟩ := List.append_of_mem h
  rw [← joined_pieces c s, hsplit]
  cases before with
  | nil =>
    cases after with
    | nil => simpa [joined] using hx
    | cons q after => simp [joined, String.intercalate_cons_cons, hx]
  | cons p before =>
    rw [joined, String.intercalate_append_of_ne_nil (by simp) (by simp), String.toList_append]
    refine List.mem_append_right _ ?_
    cases after with
    | nil => simpa using hx
    | cons q after => simp [String.intercalate_cons_cons, hx]

theorem joined_cons (c : Char) (p : String) (ps : List String) :
    ∃ rest, joined c (p :: ps) = p ++ rest := by
  cases ps with
  | nil => exact ⟨"", by simp [joined]⟩
  | cons q ps =>
    exact ⟨String.singleton c ++ joined c (q :: ps),
      by rw [joined, String.intercalate_cons_cons, String.append_assoc, joined]⟩

theorem swap_of_not_mem {a b : Char} {s : String} (h : a ∉ s.toList) : swap a b s = s := by
  have hmap : (s.toList.map fun c => if c = a then b else c) = s.toList.map id :=
    List.map_congr_left fun c hc => if_neg (by rintro rfl; exact h hc)
  rw [swap, hmap, List.map_id, String.ofList_toList]

theorem swap_append (a b : Char) (s t : String) : swap a b (s ++ t) = swap a b s ++ swap a b t := by
  rw [swap, String.toList_append, List.map_append, String.ofList_append]
  rfl

theorem not_mem_swap {a b : Char} (hab : a ≠ b) (s : String) : a ∉ (swap a b s).toList := by
  rw [swap, String.toList_ofList]
  intro h
  obtain ⟨c, -, hc⟩ := List.mem_map.1 h
  split at hc
  · exact hab hc.symm
  · next hne => exact hne hc

theorem dropStart?_eq_some {start s rest : String} :
    dropStart? start s = some rest ↔ s = start ++ rest := by
  rw [dropStart?, Option.map_eq_some_iff]
  constructor
  · rintro ⟨l, hl, rfl⟩
    apply String.toList_inj.1
    rw [String.toList_append, String.toList_ofList]
    exact (List.isPrefixOf?_eq_some_iff_append_eq.1 hl).symm
  · rintro rfl
    exact ⟨rest.toList, List.isPrefixOf?_eq_some_iff_append_eq.2 (by simp), by simp⟩

end Text

/-! ## Names of normalized paths -/

/-- A name as a normalized path has them. -/
structure IsPlain (s : String) : Prop where
  ne_empty : s ≠ ""
  not_here : s ≠ "."
  not_up : s ≠ ".."
  no_slash : '/' ∉ s.toList
  no_backslash : '\\' ∉ s.toList

theorem IsName.isPlain {s : String} (h : IsName s) (hb : '\\' ∉ s.toList) : IsPlain s := by
  obtain ⟨hempty, hslash, -, hhere, hup⟩ := (isName_iff s).1 h
  exact ⟨hempty, hhere, hup, hslash, hb⟩

namespace NormalPath

/-- All names are plain, as they are in every path that a text is reduced to. -/
def Canonical (p : NormalPath) : Prop :=
  ∀ s ∈ p.names, IsPlain s

theorem resolve_append (names ps qs : List String) :
    resolve names (ps ++ qs) = resolve (resolve names ps) qs :=
  List.foldl_append

theorem push_empty (names : List String) : push names "" = names :=
  if_pos (Or.inl rfl)

theorem resolve_empty_cons (names ps : List String) :
    resolve names ("" :: ps) = resolve names ps := by
  rw [resolve, List.foldl_cons, push_empty]
  rfl

/-- Plain names are only added. -/
theorem resolve_plain {names ps : List String} (h : ∀ s ∈ ps, IsPlain s) :
    resolve names ps = names ++ ps := by
  induction ps generalizing names with
  | nil => exact (List.append_nil names).symm
  | cons s ps ih =>
    have hs := h s (by simp)
    have hpush : push names s = names ++ [s] := by
      rw [push, if_neg (not_or.2 ⟨hs.ne_empty, hs.not_here⟩), if_neg hs.not_up]
    rw [resolve, List.foldl_cons, hpush]
    exact (ih fun t ht => h t (List.mem_cons_of_mem _ ht)).trans (by simp)

theorem plain_push {names : List String} {part : String} (h : ∀ s ∈ names, IsPlain s)
    (hslash : '/' ∉ part.toList) (hback : '\\' ∉ part.toList) :
    ∀ s ∈ push names part, IsPlain s := by
  rw [push]
  split
  · exact h
  · next hne =>
    rw [not_or] at hne
    split
    · exact fun s hs => h s (List.dropLast_subset _ hs)
    · next hup =>
      intro s hs
      rcases List.mem_append.1 hs with hs | hs
      · exact h s hs
      · rw [List.mem_singleton.1 hs]
        exact ⟨hne.1, hne.2, hup, hslash, hback⟩

theorem plain_resolve {names ps : List String} (h : ∀ s ∈ names, IsPlain s)
    (hps : ∀ s ∈ ps, '/' ∉ s.toList ∧ '\\' ∉ s.toList) : ∀ s ∈ resolve names ps, IsPlain s := by
  induction ps generalizing names with
  | nil => exact h
  | cons part ps ih =>
    have hpart := hps part (by simp)
    exact ih (plain_push h hpart.1 hpart.2) fun s hs => hps s (List.mem_cons_of_mem _ hs)

theorem plain_parts {s part : String} (h : part ∈ parts s) :
    '/' ∉ part.toList ∧ '\\' ∉ part.toList :=
  ⟨Text.not_mem_of_mem_pieces h,
    fun hb => Text.not_mem_swap (by decide) s (Text.mem_of_mem_piece h hb)⟩

theorem canonical_ofText (s : String) : (ofText s).Canonical := by
  intro t ht
  simp only [ofText] at ht
  exact plain_resolve (by simp) (fun _ => plain_parts) t ht

/-! ## Reading a text back -/

theorem no_backslash_text {p : NormalPath} (h : p.Canonical) : '\\' ∉ p.text.toList := by
  rw [text, String.toList_append, List.mem_append]
  rintro (hanchor | hnames)
  · cases hp : p.anchor <;> simp [hp, Anchor.text] at hanchor
  · rcases Text.mem_joined hnames with hc | ⟨s, hs, hc⟩
    · exact absurd hc (by decide)
    · exact (h s hs).no_backslash hc

theorem parts_text {p : NormalPath} (h : p.Canonical) : parts p.text = Text.pieces '/' p.text := by
  rw [parts, Text.swap_of_not_mem (no_backslash_text h)]

/-- Names joined by slashes begin with no slash. -/
theorem head?_joined_ne {names : List String} (h : ∀ s ∈ names, IsPlain s) (rest : List Char)
    (hrest : names = [] → rest.head? ≠ some '/') :
    ((Text.joined '/' names).toList ++ rest).head? ≠ some '/' := by
  cases names with
  | nil => simpa [Text.joined] using hrest rfl
  | cons s names =>
    have hs := h s (by simp)
    obtain ⟨more, hmore⟩ := Text.joined_cons '/' s names
    rw [hmore, String.toList_append, List.append_assoc]
    cases hl : s.toList with
    | nil => exact absurd (String.toList_eq_nil_iff.1 hl) hs.ne_empty
    | cons c l =>
      have hc : c ≠ '/' := fun hc => hs.no_slash (by rw [hl, hc]; simp)
      simpa using hc

/-- Where a path starts is seen from its text and from nothing that follows it, unless the path has
no names and a slash follows. -/
theorem ofChars_text_append {p : NormalPath} (h : p.Canonical) (rest : List Char)
    (hrest : p.names = [] → rest.head? ≠ some '/') :
    Anchor.ofChars (p.text.toList ++ rest) = p.anchor := by
  have hhead := head?_joined_ne h rest hrest
  rw [text, String.toList_append, List.append_assoc]
  generalize (Text.joined '/' p.names).toList ++ rest = l at hhead
  cases p.anchor with
  | relative =>
    cases l with
    | nil => rfl
    | cons c l =>
      have hc : c ≠ '/' := by simpa using hhead
      simp [Anchor.text, Anchor.ofChars, hc]
  | absolute =>
    cases l with
    | nil => rfl
    | cons c l =>
      have hc : c ≠ '/' := by simpa using hhead
      simp [Anchor.text, Anchor.ofChars, hc]
  | network =>
    cases l with
    | nil => rfl
    | cons c l =>
      have hc : c ≠ '/' := by simpa using hhead
      simp [Anchor.text, Anchor.ofChars, hc]

/-- The slashes that a text begins with name nothing. -/
theorem resolve_anchor (names : List String) (a : Anchor) (s : String) :
    resolve names (Text.pieces '/' (a.text ++ s)) = resolve names (Text.pieces '/' s) := by
  have hslash (s : String) :
      resolve names (Text.pieces '/' ("/" ++ s)) = resolve names (Text.pieces '/' s) := by
    have hpieces : Text.pieces '/' ("/" ++ s) = "" :: Text.pieces '/' s :=
      Text.pieces_append '/' "" s
    rw [hpieces, resolve_empty_cons]
  cases a with
  | relative => rw [Anchor.text, String.empty_append]
  | absolute => exact hslash s
  | network =>
    rw [Anchor.text, show "//" = "/" ++ "/" from rfl, String.append_assoc, hslash, hslash]

theorem resolve_joined {names : List String} (h : ∀ s ∈ names, IsPlain s) :
    resolve [] (Text.pieces '/' (Text.joined '/' names)) = names := by
  by_cases hne : names = []
  · subst hne
    rfl
  · rw [Text.pieces_joined '/' names hne fun s hs => (h s hs).no_slash, resolve_plain h,
      List.nil_append]

theorem resolve_text {p : NormalPath} (h : p.Canonical) :
    resolve [] (Text.pieces '/' p.text) = p.names := by
  rw [text, resolve_anchor, resolve_joined h]

/-- A path is what its text is reduced to. -/
theorem ofText_text {p : NormalPath} (h : p.Canonical) : ofText p.text = p := by
  have hanchor : Anchor.ofChars (p.text.toList ++ []) = p.anchor :=
    ofChars_text_append h [] (by simp)
  rw [List.append_nil] at hanchor
  rw [ofText, parts_text h, resolve_text h, Text.swap_of_not_mem (no_backslash_text h), hanchor]

theorem text_inj {p q : NormalPath} (hp : p.Canonical) (hq : q.Canonical) :
    p.text = q.text ↔ p = q := by
  constructor
  · intro h
    rw [← ofText_text hp, ← ofText_text hq, h]
  · rintro rfl
    rfl

/-! ## Going on from a path -/

theorem endsWith_text {p : NormalPath} (h : p.Canonical) :
    Text.endsWith '/' p.text = true ↔ p.names = [] ∧ p.anchor ≠ .relative := by
  by_cases hne : p.names = []
  · simp only [hne, true_and, text, Text.joined, String.intercalate_nil, String.append_empty]
    cases p.anchor <;> decide
  · refine iff_of_false ?_ fun hn => hne hn.1
    have hlast := h _ (List.getLast_mem hne)
    obtain ⟨start, hstart⟩ : ∃ start, p.text = start ++ p.names.getLast hne := by
      rw [text]
      nth_rewrite 1 [← List.dropLast_append_getLast hne]
      by_cases hd : p.names.dropLast = []
      · exact ⟨p.anchor.text,
          by rw [hd, List.nil_append, Text.joined, String.intercalate_singleton]⟩
      · exact ⟨p.anchor.text ++ (Text.joined '/' p.names.dropLast ++ "/"),
          by simp only [joined_append_singleton hd, String.append_assoc]⟩
    have hchars : (p.names.getLast hne).toList ≠ [] := fun hl =>
      hlast.ne_empty (String.toList_eq_nil_iff.1 hl)
    rw [Text.endsWith, hstart, String.toList_append, List.getLast?_append_of_ne_nil _ hchars,
      beq_iff_eq]
    exact fun hc => hlast.no_slash (List.mem_of_getLast? hc)

theorem stem_of_names {p : NormalPath} (h : p.Canonical) (hne : p.names ≠ []) :
    p.stem = p.text ++ "/" :=
  if_neg fun hend => hne ((endsWith_text h).1 hend).1

theorem stem_of_rooted {p : NormalPath} (h : p.Canonical) (hne : p.names = [])
    (ha : p.anchor ≠ .relative) : p.stem = p.anchor.text := by
  rw [stem, if_pos ((endsWith_text h).2 ⟨hne, ha⟩), text, hne]
  exact String.append_empty

/-- A path continued by names is written as its stem and these names. -/
theorem text_append {p : NormalPath} (h : p.Canonical) (ha : p.names = [] → p.anchor ≠ .relative)
    {l : List String} (hl : l ≠ []) :
    (⟨p.anchor, p.names ++ l⟩ : NormalPath).text = p.stem ++ Text.joined '/' l := by
  by_cases hne : p.names = []
  · rw [stem_of_rooted h hne (ha hne), text, hne, List.nil_append]
  · rw [stem_of_names h hne, text, text, Text.joined, String.intercalate_append_of_ne_nil hne hl]
    simp only [String.append_assoc]
    rfl

/-- What is read on behind a path with names continues its names. -/
theorem ofText_stem_append {p : NormalPath} (h : p.Canonical) (hne : p.names ≠ [])
    (segment : String) :
    ofText (p.stem ++ segment) = ⟨p.anchor, resolve p.names (parts segment)⟩ := by
  have hswap : Text.swap '\\' '/' (p.stem ++ segment) =
      p.text ++ String.singleton '/' ++ Text.swap '\\' '/' segment := by
    rw [stem_of_names h hne, Text.swap_append, Text.swap_append,
      Text.swap_of_not_mem (no_backslash_text h)]
    rfl
  have hanchor : Anchor.ofChars (p.text ++ String.singleton '/' ++
      Text.swap '\\' '/' segment).toList = p.anchor := by
    rw [String.append_assoc, String.toList_append]
    exact ofChars_text_append h _ fun hn => absurd hn hne
  rw [ofText, hswap, hanchor, parts, hswap, Text.pieces_append, resolve_append, resolve_text h]
  rfl

/-- To join a segment to a path, unless it is the empty one, is to read on behind it. -/
theorem join_eq {p : NormalPath} (h : p.Canonical) (ha : p.names = [] → p.anchor ≠ .relative)
    (segment : String) : p.join segment = ofText (p.stem ++ segment) := by
  rw [join]
  by_cases hne : p.names = []
  · have hstem := stem_of_rooted h hne (ha hne)
    rw [if_pos hne, hstem]
    by_cases hseg : segment = "" ∨ segment = "."
    · have hp : p = ⟨p.anchor, []⟩ := by rw [← hne]
      rw [if_pos hseg, hp]
      rcases hseg with rfl | rfl <;> cases p.anchor <;> decide
    · rw [if_neg hseg]
  · rw [if_neg hne, ofText_stem_append h hne]
    by_cases hseg : segment = "" ∨ segment = "."
    · have hparts : resolve p.names (parts segment) = p.names := by
        rcases hseg with rfl | rfl <;> rfl
      rw [if_pos hseg, hparts]
    · rw [if_neg hseg]

end NormalPath
end SelectiveSync
