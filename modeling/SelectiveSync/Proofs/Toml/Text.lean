import SelectiveSync.Format.Toml.Text

/-! # Texts are read as they were quoted

Whatever the characters of a text are, `quoted` writes it in a form from which `text?` takes the
text again. What follows is left over, as long as it begins with no further quote.

* `basic_basicBody`, `literal_append`: the two forms on one line.
* `multiBasic_multiBasicBody`, `multiLiteral_append`: the two forms over several lines. Nowhere
  inside does the reader meet three quotes in a row, so the first three are the closing ones, and
  those right before them belong to the text.
* `text?_quoted`: all forms, each where it is chosen. -/
namespace SelectiveSync.Toml
set_option autoImplicit false

/-- What a reader gives, with one more character at the front of the text. -/
def before (c : Char) (read : Option (List Char × List Char)) : Option (List Char × List Char) :=
  read.map fun r => (c :: r.1, r.2)

/-! ## Characters as they are -/

theorem isShown_eq {c : Char} (h : c ≠ '\n') : isShown c = !isControl c := by
  by_cases ht : c = '\t'
  · subst ht
    decide
  · have ht' : (c != '\t') = true := bne_iff_ne.2 ht
    have hn' : (c != '\n') = true := bne_iff_ne.2 h
    rw [Bool.eq_iff_iff]
    simp only [isShown, isControl, ht, ht', hn', decide_false, Bool.false_or, Bool.and_true,
      Bool.not_or, Bool.and_eq_true, Bool.not_eq_true', decide_eq_true_eq, decide_eq_false_iff_not]
    omega

/-! ## Numbers of characters -/

theorem hexDigit?_digitChar : ∀ d < 16, hexDigit? (Nat.digitChar d).toUpper = some d := by
  decide

/-- Four hexadecimal digits are read as the number that they were written for. -/
theorem numbered?_hexFour {c : Char} (h : c.toNat < 65536) :
    numbered? (hexFour c.toNat) = some c := by
  have hdigit (n : Nat) : hexDigit? (Nat.digitChar (n % 16)).toUpper = some (n % 16) :=
    hexDigit?_digitChar _ (Nat.mod_lt n (by decide))
  have hsum : ((c.toNat / 4096 % 16 * 16 + c.toNat / 256 % 16) * 16 + c.toNat / 16 % 16) * 16
      + c.toNat % 16 = c.toNat := by omega
  have hvalid : c.toNat.isValidChar := c.valid
  simp [numbered?, hexFour, hdigit, hsum, hvalid]

/-! ## Between double quotes on one line -/

/-- The forms in which a character may stand between double quotes. -/
inductive CharForm : Char → List Char → Prop
  | letter {c e : Char} : escape? e = some c → CharForm c ['\\', e]
  | number {c : Char} : c.toNat < 65536 → CharForm c ('\\' :: 'u' :: hexFour c.toNat)
  | plain {c : Char} : isShown c = true → c ≠ '\\' → c ≠ '"' → CharForm c [c]

theorem charForm_escaped {c : Char} (hq : c ≠ '"') (hn : c ≠ '\n') : CharForm c (escaped c) := by
  unfold escaped
  split
  · exact .letter rfl
  · exact .letter rfl
  · exact .letter rfl
  · exact .letter rfl
  · exact .letter rfl
  · next hb =>
    split
    · next hc =>
      refine .number ?_
      simp only [isControl, Bool.or_eq_true, Bool.and_eq_true, decide_eq_true_eq] at hc
      omega
    · next hc => exact .plain (by simpa [isShown_eq hn] using hc) hb hq

theorem CharForm.begins {c : Char} {w : List Char} (h : CharForm c w) :
    ∃ d v, w = d :: v ∧ isShown d = true ∧ d ≠ '"' := by
  cases h with
  | letter _ => exact ⟨_, _, rfl, by decide, by decide⟩
  | number _ => exact ⟨_, _, rfl, by decide, by decide⟩
  | plain hs _ hq => exact ⟨_, _, rfl, hs, hq⟩

theorem basic_charForm {c : Char} {w : List Char} (h : CharForm c w) (s : List Char) :
    basic (w ++ s) = before c (basic s) := by
  cases h with
  | letter h =>
    unfold escape? at h
    split at h <;> cases h <;> cases hs : basic s <;> simp [basic, escape?, before, hs]
  | number h =>
    have hn := numbered?_hexFour h
    simp only [hexFour, List.map_cons, List.map_nil] at hn ⊢
    cases hs : basic s <;> simp [basic, before, hn, hs]
  | plain hs hb hq => cases h : basic s <;> simp [basic, before, hs, hb, h]

theorem charForm_basicBody (c : Char) : CharForm c (basicBody [c]) := by
  rw [basicBody, List.flatMap_singleton]
  split
  · next hq =>
    subst hq
    exact .letter rfl
  · next hq =>
    split
    · next hn =>
      subst hn
      exact .letter rfl
    · next hn => exact charForm_escaped hq hn

theorem basicBody_cons (c : Char) (s : List Char) :
    basicBody (c :: s) = basicBody [c] ++ basicBody s := by
  simp only [basicBody, List.flatMap_cons, List.flatMap_nil, List.append_nil]

theorem basic_basicBody (s rest : List Char) :
    basic (basicBody s ++ '"' :: rest) = some (s, rest) := by
  induction s with
  | nil => rfl
  | cons c s ih =>
    rw [basicBody_cons, List.append_assoc, basic_charForm (charForm_basicBody c), ih]
    rfl

/-! ## Between single quotes on one line -/

theorem literal_append {s : List Char} (h : ∀ c ∈ s, isShown c = true ∧ c ≠ '\'')
    (rest : List Char) : literal (s ++ '\'' :: rest) = some (s, rest) := by
  induction s with
  | nil => rfl
  | cons c s ih =>
    obtain ⟨hc, hs⟩ := List.forall_mem_cons.1 h
    rw [List.cons_append, literal, if_neg hc.2, if_pos hc.1, ih hs]
    rfl

/-! ## Quotes in a row -/

/-- A text that does not begin with three quotes, followed by three, is closed there just when it
consists of quotes only, which then belong to it. -/
theorem closing?_append {q : Char} {s rest : List Char} (hs : ¬ [q, q, q] <+: s)
    (hrest : rest.head? ≠ some q) :
    closing? q (s ++ q :: q :: q :: rest) = if s.all (· = q) then some (s, rest) else none := by
  -- the row of quotes that the reader counts ends with the three, since none follows them
  have hrun : rest.takeWhile (· = q) = [] := by
    cases rest with
    | nil => rfl
    | cons c rest => exact List.takeWhile_cons_of_neg (by simpa using hrest)
  match s with
  | [] => simp [closing?, hrun]
  | [a] => by_cases ha : a = q <;> simp [closing?, hrun, ha]
  | [a, b] => by_cases ha : a = q <;> by_cases hb : b = q <;> simp [closing?, hrun, ha, hb]
  | a :: b :: c :: s =>
    have hs : ¬ (a = q ∧ b = q ∧ c = q) := by
      rintro ⟨rfl, rfl, rfl⟩
      exact hs ⟨s, rfl⟩
    by_cases ha : a = q <;> by_cases hb : b = q <;> simp_all [closing?]

theorem closing?_of_ne {q c : Char} (h : c ≠ q) (s : List Char) : closing? q (c :: s) = none := by
  simp [closing?, h]

theorem not_prefix_of_hasTriple {q : Char} {s : List Char} (h : hasTriple q s = false) :
    ¬ [q, q, q] <+: s := by
  rintro ⟨t, rfl⟩
  simp [hasTriple] at h

theorem hasTriple_of_cons {q c : Char} {s : List Char} (h : hasTriple q (c :: s) = false) :
    hasTriple q s = false := by
  match s with
  | [] => rfl
  | [_] => rfl
  | _ :: _ :: _ => exact (Bool.or_eq_false_iff.1 h).2

/-! ## Between three single quotes -/

theorem ne_of_isShown {c : Char} (h : isShown c = true) : c ≠ '\n' ∧ c ≠ '\r' := by
  constructor
  · rintro rfl
    cases h
  · rintro rfl
    cases h

theorem multiLiteral_append {s : List Char} (hs : ∀ c ∈ s, isShown c = true ∨ c = '\n')
    (hq : hasTriple '\'' s = false) {rest : List Char} (hrest : rest.head? ≠ some '\'') :
    multiLiteral (s ++ '\'' :: '\'' :: '\'' :: rest) = some (s, rest) := by
  induction s with
  | nil =>
    have hclose := closing?_append (not_prefix_of_hasTriple hq) hrest
    rw [List.nil_append] at hclose ⊢
    rw [multiLiteral, hclose]
    rfl
  | cons c s ih =>
    obtain ⟨hc, htail⟩ := List.forall_mem_cons.1 hs
    have hcr : c ≠ '\r' := by
      rcases hc with hc | rfl
      · exact (ne_of_isShown hc).2
      · decide
    have hclose := closing?_append (not_prefix_of_hasTriple hq) hrest
    rw [List.cons_append] at hclose ⊢
    rw [multiLiteral, hclose]
    split
    · next heq =>
      split at heq
      · exact heq.symm
      · cases heq
    · rw [if_neg (fun h => hcr h.1), if_pos hc, ih htail (hasTriple_of_cons hq)]
      rfl

/-! ## Between three double quotes -/

/-- The reader at a character that begins no escape. -/
theorem multiBasic_cons {c : Char} (hb : c ≠ '\\') (hr : c ≠ '\r') (s : List Char) :
    multiBasic false (c :: s) =
      match closing? '"' (c :: s) with
      | some closed => some closed
      | none => if isShown c = true ∨ c = '\n' then before c (multiBasic false s) else none := by
  rw [multiBasic]
  · cases closing? '"' (c :: s) <;> cases multiBasic false s <;> simp [hb, hr, before]
  · exact fun _ _ _ _ _ h => absurd h hb
  · exact fun _ _ _ _ _ _ _ _ _ h => absurd h hb
  · exact fun _ _ h => absurd h hb

/-- The forms over several lines, where a newline may stand as it is. -/
inductive MultiForm : Char → List Char → Prop
  | newline : MultiForm '\n' ['\n']
  | char {c : Char} {w : List Char} : CharForm c w → MultiForm c w

theorem MultiForm.begins {c : Char} {w : List Char} (h : MultiForm c w) :
    ∃ d v, w = d :: v ∧ d ≠ '"' := by
  cases h with
  | newline => exact ⟨_, _, rfl, by decide⟩
  | char h =>
    obtain ⟨d, v, hw, -, hd⟩ := h.begins
    exact ⟨d, v, hw, hd⟩

theorem multiBasic_charForm {c : Char} {w : List Char} (h : CharForm c w) (s : List Char) :
    multiBasic false (w ++ s) = before c (multiBasic false s) := by
  cases h with
  | letter h =>
    unfold escape? at h
    split at h <;> cases h <;> cases hs : multiBasic false s <;>
      simp [multiBasic, escape?, newline?, isGap, before, hs]
  | number h =>
    have hn := numbered?_hexFour h
    simp only [hexFour, List.map_cons, List.map_nil] at hn ⊢
    cases hs : multiBasic false s <;> simp [multiBasic, before, hn, hs]
  | plain hs hb hq =>
    rw [List.singleton_append, multiBasic_cons hb (ne_of_isShown hs).2, closing?_of_ne hq]
    exact if_pos (Or.inl hs)

theorem multiBasic_multiForm {c : Char} {w : List Char} (h : MultiForm c w) (s : List Char) :
    multiBasic false (w ++ s) = before c (multiBasic false s) := by
  cases h with
  | newline =>
    rw [List.singleton_append, multiBasic_cons (by decide) (by decide), closing?_of_ne (by decide)]
    rfl
  | char h => exact multiBasic_charForm h s

/-- The first two quotes of a row stand as they are; all else has a form of its own, after which a
row begins anew. -/
theorem multiBasicBody_cons (quotes : Nat) (c : Char) (s : List Char) :
    (c = '"' ∧ quotes ≠ 2 ∧
        multiBasicBody quotes (c :: s) = '"' :: multiBasicBody (quotes + 1) s) ∨
      ∃ w, MultiForm c w ∧ multiBasicBody quotes (c :: s) = w ++ multiBasicBody 0 s := by
  rw [multiBasicBody]
  split
  · next hc =>
    subst hc
    split
    · exact Or.inr ⟨_, .char (.letter rfl), rfl⟩
    · next htwo => exact Or.inl ⟨rfl, htwo, rfl⟩
  · next hq =>
    split
    · next hn =>
      subst hn
      exact Or.inr ⟨_, .newline, rfl⟩
    · next hn => exact Or.inr ⟨_, .char (charForm_escaped hq hn), rfl⟩

/-- A quote that stands as it is is at most the second in its row. -/
theorem of_multiBasicBody_eq_quote {quotes : Nat} {s t : List Char}
    (h : multiBasicBody quotes s = '"' :: t) :
    quotes ≠ 2 ∧ ∃ s', t = multiBasicBody (quotes + 1) s' := by
  cases s with
  | nil => cases h
  | cons c s =>
    rcases multiBasicBody_cons quotes c s with ⟨-, htwo, hbody⟩ | ⟨w, hw, hbody⟩
    · rw [hbody] at h
      exact ⟨htwo, s, (List.cons.inj h).2.symm⟩
    · obtain ⟨d, v, rfl, hd⟩ := hw.begins
      rw [hbody] at h
      exact absurd (List.cons.inj h).1 hd

theorem not_prefix_multiBasicBody {quotes : Nat} (h : quotes ≤ 2) (s : List Char) :
    ¬ ['"', '"', '"'] <+: multiBasicBody quotes s := by
  rintro ⟨t, ht⟩
  obtain ⟨h₀, s₁, h₁⟩ := of_multiBasicBody_eq_quote ht.symm
  obtain ⟨h₁, s₂, h₂⟩ := of_multiBasicBody_eq_quote h₁.symm
  obtain ⟨h₂, -⟩ := of_multiBasicBody_eq_quote h₂.symm
  omega

/-- What is written as quotes only was quotes only. -/
theorem multiBasicBody_eq_self {quotes : Nat} {s : List Char}
    (h : (multiBasicBody quotes s).all (· = '"') = true) : multiBasicBody quotes s = s := by
  induction s generalizing quotes with
  | nil => rfl
  | cons c s ih =>
    rcases multiBasicBody_cons quotes c s with ⟨rfl, -, hbody⟩ | ⟨w, hw, hbody⟩
    · rw [hbody] at h ⊢
      rw [ih (by simpa using h)]
    · obtain ⟨d, v, rfl, hd⟩ := hw.begins
      rw [hbody] at h
      simp [hd] at h

/-- The induction is on the text, with the quotes before it left open; as long as the third of a row
is escaped, the closing quotes are found right behind the text. -/
theorem multiBasic_multiBasicBody {quotes : Nat} (h : quotes ≤ 2) (s : List Char)
    {rest : List Char} (hrest : rest.head? ≠ some '"') :
    multiBasic false (multiBasicBody quotes s ++ '"' :: '"' :: '"' :: rest) = some (s, rest) := by
  induction s generalizing quotes with
  | nil =>
    have hclose := closing?_append (not_prefix_multiBasicBody h []) hrest
    rw [multiBasicBody, List.nil_append] at hclose ⊢
    rw [multiBasic_cons (by decide) (by decide), hclose]
    rfl
  | cons c s ih =>
    rcases multiBasicBody_cons quotes c s with ⟨rfl, htwo, hbody⟩ | ⟨w, hw, hbody⟩
    · have hclose := closing?_append (not_prefix_multiBasicBody h ('"' :: s)) hrest
      have hself := @multiBasicBody_eq_self quotes ('"' :: s)
      rw [hbody] at hclose hself ⊢
      rw [List.cons_append] at hclose ⊢
      rw [multiBasic_cons (by decide) (by decide), hclose, ih (by omega)]
      by_cases hall : ('"' :: multiBasicBody (quotes + 1) s).all (· = '"') = true
      · rw [if_pos hall, hself hall]
      · rw [if_neg hall]
        rfl
    · rw [hbody, List.append_assoc, multiBasic_multiForm hw, ih (by decide)]
      rfl

/-! ## Texts with their quotes -/

theorem not_prefix_pair {q : Char} {s rest : List Char} (hs : s.head? ≠ some q)
    (hrest : rest.head? ≠ some q) : ¬ [q, q] <+: s ++ q :: rest := by
  rintro ⟨t, ht⟩
  cases s with
  | nil =>
    obtain ⟨-, rfl⟩ := List.cons.inj ht
    simp at hrest
  | cons c s => exact hs (congrArg some (List.cons.inj ht).1.symm)

theorem text?_basic (s : List Char) {rest : List Char} (hrest : rest.head? ≠ some '"') :
    text? (written s .basic ++ rest) = some (s, rest) := by
  have hbegins : (basicBody s).head? ≠ some '"' := by
    cases s with
    | nil => decide
    | cons c s =>
      obtain ⟨d, v, hw, -, hd⟩ := (charForm_basicBody c).begins
      rw [basicBody_cons, hw]
      simpa using hd
  rw [written, List.append_assoc, List.cons_append, List.singleton_append, text?]
  · exact basic_basicBody s rest
  · exact fun t ht => not_prefix_pair hbegins hrest ⟨t, ht.symm⟩

theorem text?_literal {s : List Char} (hs : ∀ c ∈ s, isShown c = true ∧ c ≠ '\'')
    {rest : List Char} (hrest : rest.head? ≠ some '\'') :
    text? (written s .literal ++ rest) = some (s, rest) := by
  have hbegins : s.head? ≠ some '\'' := fun h => (hs _ (List.mem_of_head? h)).2 rfl
  rw [written, List.append_assoc, List.cons_append, List.singleton_append, text?]
  · exact literal_append hs rest
  · exact fun t ht => not_prefix_pair hbegins hrest ⟨t, ht.symm⟩

theorem newline?_of_isShown {c : Char} (h : isShown c = true) (s : List Char) :
    newline? (c :: s) = none := by
  obtain ⟨hn, hr⟩ := ne_of_isShown h
  simp [newline?, hn, hr]

/-- What is on a line of its own follows the opening, and so does what begins with no newline. -/
theorem afterOpening_opening {q : Char} {s t : List Char} (h : '\n' ∉ s → newline? t = none) :
    ∃ u, opening [q, q, q] s ++ t = q :: q :: q :: u ∧ afterOpening u = t := by
  by_cases hs : '\n' ∈ s
  · exact ⟨'\n' :: t, by simp [opening, hs], rfl⟩
  · exact ⟨t, by simp [opening, hs], by rw [afterOpening, h hs]; rfl⟩

theorem text?_multiBasic (s : List Char) {rest : List Char} (hrest : rest.head? ≠ some '"') :
    text? (written s .multiBasic ++ rest) = some (s, rest) := by
  have hopen : '\n' ∉ s → newline? (multiBasicBody 0 s ++ '"' :: '"' :: '"' :: rest) = none := by
    intro hs
    cases s with
    | nil => rfl
    | cons c s =>
      rcases multiBasicBody_cons 0 c s with ⟨-, -, hbody⟩ | ⟨w, hw, hbody⟩
      · rw [hbody]
        exact newline?_of_isShown (by decide) _
      · cases hw with
        | newline => exact absurd List.mem_cons_self hs
        | char hw =>
          obtain ⟨d, v, rfl, hd, -⟩ := hw.begins
          rw [hbody]
          exact newline?_of_isShown hd _
  obtain ⟨u, hu, hafter⟩ := afterOpening_opening (q := '"') hopen
  have hwritten : written s .multiBasic ++ rest = '"' :: '"' :: '"' :: u := by
    rw [← hu, written, List.append_assoc, List.append_assoc]
    rfl
  rw [hwritten, text?, hafter, multiBasic_multiBasicBody (by decide) s hrest]

theorem text?_multiLiteral {s : List Char} (hs : ∀ c ∈ s, isShown c = true ∨ c = '\n')
    (hq : hasTriple '\'' s = false) {rest : List Char} (hrest : rest.head? ≠ some '\'') :
    text? (written s .multiLiteral ++ rest) = some (s, rest) := by
  have hopen : '\n' ∉ s → newline? (s ++ '\'' :: '\'' :: '\'' :: rest) = none := by
    intro hn
    cases s with
    | nil => rfl
    | cons c s =>
      rcases hs c List.mem_cons_self with hc | rfl
      · exact newline?_of_isShown hc _
      · exact absurd List.mem_cons_self hn
  obtain ⟨u, hu, hafter⟩ := afterOpening_opening (q := '\'') hopen
  have hwritten : written s .multiLiteral ++ rest = '\'' :: '\'' :: '\'' :: u := by
    rw [← hu, written, List.append_assoc, List.append_assoc]
    rfl
  rw [hwritten, text?, hafter, multiLiteral_append hs hq hrest]

/-! ## The chosen form -/

/-- The text has this form: the forms without escapes are for some texts only. -/
def Style.Fits (s : List Char) : Style → Prop
  | .basic => True
  | .literal => ∀ c ∈ s, isShown c = true ∧ c ≠ '\''
  | .multiBasic => True
  | .multiLiteral => (∀ c ∈ s, isShown c = true ∨ c = '\n') ∧ hasTriple '\'' s = false

theorem isShown_of_any {s : List Char} (h : (!s.any isControl) = true) :
    ∀ c ∈ s, isShown c = true ∨ c = '\n' := by
  intro c hc
  by_cases hn : c = '\n'
  · exact Or.inr hn
  · rw [isShown_eq hn]
    simp only [Bool.not_eq_true', List.any_eq_false] at h
    simp [h c hc]

theorem fits_style (s : List Char) : (style s).Fits s := by
  rw [style]
  split
  · trivial
  split
  · next h =>
    simp only [Bool.and_eq_true, Bool.not_eq_true', List.contains_eq_mem,
      decide_eq_false_iff_not] at h
    obtain ⟨⟨hcontrol, hn⟩, hq⟩ := h
    intro c hc
    have hcn : c ≠ '\n' := fun h => hn (h ▸ hc)
    have hshown := isShown_of_any (by rw [hcontrol]; rfl) c hc
    exact ⟨hshown.resolve_right hcn, fun h => hq (h ▸ hc)⟩
  split
  · trivial
  split
  · next h =>
    rw [Bool.and_eq_true, Bool.not_eq_true' (hasTriple _ _)] at h
    exact ⟨isShown_of_any h.1, h.2⟩
  split
  · trivial
  · trivial

example : style ['a', '\\'] = .literal := by decide

/-- A text is read as it was quoted, whatever it consists of. -/
theorem text?_quoted (s : String) {rest : List Char} (hd : rest.head? ≠ some '"')
    (hq : rest.head? ≠ some '\'') :
    text? ((quoted s).toList ++ rest) = some (s.toList, rest) := by
  have hfits := fits_style s.toList
  rw [quoted, String.toList_ofList]
  cases hstyle : style s.toList with
  | basic => exact text?_basic _ hd
  | literal => exact text?_literal (by rwa [hstyle] at hfits) hq
  | multiBasic => exact text?_multiBasic _ hd
  | multiLiteral =>
    rw [hstyle] at hfits
    exact text?_multiLiteral hfits.1 hfits.2 hq

end SelectiveSync.Toml
