import SelectiveSync.Proofs.Path.Normal

/-! # Paths reached by joining and going up

* `Reachable`: the paths that texts are reduced to, and those reached from them by joins and by going
  up. `Reachable.canonical`: their names are plain.
* `CanonicalText`: how such a path is written.
* `Resolves`: the parts of a text read one after the other onto a stack of names.
* `reachable_canonical`: reachable paths are written canonically and are what their texts are reduced
  to; a text is reduced to what its slashes in front and its parts on the stack make. -/
namespace SelectiveSync
set_option autoImplicit false

/-! ## Slashes in front -/

/-- Where a path starts that is written with so many slashes in front. -/
def Anchor.ofSlashes : Nat → Anchor
  | 0 => relative
  | 2 => network
  | _ => absolute

theorem Anchor.ofChars_eq (l : List Char) :
    ofChars l = ofSlashes (l.takeWhile (· == '/')).length := by
  have hne {c : Char} {l rest : List Char} (h : ∀ tail, l = '/' :: tail → False)
      (hl : l = c :: rest) : c ≠ '/' := fun hc => h rest (by rw [hl, hc])
  unfold ofChars
  split
  · rfl
  · next rest hrest =>
    cases rest with
    | nil => rfl
    | cons c rest => simp [hne (fun tail h => hrest tail h) rfl, ofSlashes]
  · next rest hmore hrest =>
    cases rest with
    | nil => rfl
    | cons c rest => simp [hne (fun tail h => hrest tail h) rfl, ofSlashes]
  · next hl =>
    cases l with
    | nil => rfl
    | cons c l => simp [hne (fun tail h => hl tail h) rfl, ofSlashes]

namespace NormalPath

/-- The number of slashes that a text begins with, backslashes counted in. -/
def slashes (s : String) : Nat :=
  ((Text.swap '\\' '/' s).toList.takeWhile (· == '/')).length

/-! ## Parts on a stack -/

/-- The parts `ps`, read from the left onto the stack `names`, leave the stack `result`: empty parts
and `.` change nothing, `..` takes the topmost name away if there is one, and any other part is put
on top. -/
inductive Resolves : List String → List String → List String → Prop
  | done (names : List String) : Resolves names [] names
  | void {names ps result : List String} {part : String} (hpart : part = "" ∨ part = ".")
      (h : Resolves names ps result) : Resolves names (part :: ps) result
  | bottom {ps result : List String} (h : Resolves [] ps result) : Resolves [] (".." :: ps) result
  | up {names ps result : List String} (name : String) (h : Resolves names ps result) :
      Resolves (names ++ [name]) (".." :: ps) result
  | name {names ps result : List String} {part : String} (hvoid : ¬ (part = "" ∨ part = "."))
      (hup : part ≠ "..") (h : Resolves (names ++ [part]) ps result) :
      Resolves names (part :: ps) result

theorem push_up (names : List String) : push names ".." = names.dropLast := by
  rw [push, if_neg (by decide), if_pos rfl]

theorem resolves_iff {names ps result : List String} :
    Resolves names ps result ↔ resolve names ps = result := by
  constructor
  · intro h
    induction h with
    | done names => rfl
    | void hpart _ ih => rw [resolve, List.foldl_cons, push, if_pos hpart, ← ih, resolve]
    | bottom _ ih => rw [resolve, List.foldl_cons, push_up, ← ih, resolve, List.dropLast_nil]
    | up name _ ih => rw [resolve, List.foldl_cons, push_up, ← ih, resolve, List.dropLast_concat]
    | name hvoid hup _ ih =>
      rw [resolve, List.foldl_cons, push, if_neg hvoid, if_neg hup, ← ih, resolve]
  · intro h
    induction ps generalizing names with
    | nil => exact h ▸ .done names
    | cons part ps ih =>
      rw [resolve, List.foldl_cons] at h
      by_cases hvoid : part = "" ∨ part = "."
      · rw [push, if_pos hvoid] at h
        exact .void hvoid (ih h)
      by_cases hup : part = ".."
      · subst hup
        rw [push_up] at h
        rcases List.eq_nil_or_concat names with rfl | ⟨below, top, rfl⟩
        · exact .bottom (ih h)
        · rw [List.concat_eq_append, List.dropLast_concat] at h
          rw [List.concat_eq_append]
          exact .up top (ih h)
      · rw [push, if_neg hvoid, if_neg hup] at h
        exact .name hvoid hup (ih h)

/-! ## Reachable paths -/

/-- The paths that texts are reduced to, and those reached from them by joining segments and by going
up to the enclosing path. -/
inductive Reachable : NormalPath → Prop
  | ofText (s : String) : Reachable (ofText s)
  | join {p : NormalPath} (h : Reachable p) (segment : String) : Reachable (p.join segment)
  | parent {p q : NormalPath} (h : Reachable p) (hq : p.parent? = some q) : Reachable q

theorem canonical_join {p : NormalPath} (h : p.Canonical) (segment : String) :
    (p.join segment).Canonical := by
  rw [join]
  split
  · exact h
  split
  · exact canonical_ofText _
  · exact plain_resolve h fun _ => plain_parts

theorem canonical_parent {p q : NormalPath} (h : p.Canonical) (hq : p.parent? = some q) :
    q.Canonical := by
  rw [parent?] at hq
  split at hq
  · cases hq
  · split at hq
    · cases hq
    · cases hq
      exact List.forall_mem_nil IsPlain
  · cases hq
    exact fun s hs => h s (List.dropLast_subset _ hs)

theorem Reachable.canonical {p : NormalPath} (h : p.Reachable) : p.Canonical := by
  induction h with
  | ofText s => exact canonical_ofText s
  | join _ segment ih => exact canonical_join ih segment
  | parent _ hq ih => exact canonical_parent ih hq

/-! ## Canonical texts -/

/-- The text is one of the three ways to start and then plain names with one slash between each
two. -/
def CanonicalText (s : String) : Prop :=
  ∃ start ∈ ["", "/", "//"], ∃ names, (∀ n ∈ names, IsPlain n) ∧ s = start ++ Text.joined '/' names

theorem canonicalText_text {p : NormalPath} (h : p.Canonical) : CanonicalText p.text := by
  refine ⟨p.anchor.text, ?_, p.names, h, rfl⟩
  cases p.anchor <;> decide

theorem ofText_eq (s : String) : ofText s = ⟨Anchor.ofSlashes (slashes s), resolve [] (parts s)⟩ := by
  rw [ofText, Anchor.ofChars_eq, slashes]

/-- Whatever joins and ways up lead to it, a path is written canonically, and reduced from what it is
written as. What any text is reduced to starts where its slashes in front say and goes on with the
names that its parts leave on the stack, and nothing else of the text counts. -/
theorem reachable_canonical {p : NormalPath} (h : p.Reachable) :
    CanonicalText p.text ∧ ofText p.text = p ∧
      (∀ s, ∃ names, Resolves [] (parts s) names ∧
        (ofText s).text = (Anchor.ofSlashes (slashes s)).text ++ Text.joined '/' names) ∧
      ∀ s t, (ofText s).text = (ofText t).text ↔
        Anchor.ofSlashes (slashes s) = Anchor.ofSlashes (slashes t) ∧
          ∀ names, Resolves [] (parts s) names ↔ Resolves [] (parts t) names := by
  refine ⟨canonicalText_text h.canonical, ofText_text h.canonical, fun s => ?_, fun s t => ?_⟩
  · exact ⟨_, resolves_iff.2 rfl, by rw [ofText_eq, text]⟩
  · have hstack : (∀ names, Resolves [] (parts s) names ↔ Resolves [] (parts t) names) ↔
        resolve [] (parts s) = resolve [] (parts t) := by
      simp only [resolves_iff]
      exact eq_iff_eq_cancel_right
    rw [text_inj (canonical_ofText s) (canonical_ofText t), ofText_eq, ofText_eq,
      NormalPath.mk.injEq, hstack]

theorem reachable_canonical_sample :
    let p : NormalPath := ⟨.network, ["share", "y"]⟩
    p.Reachable ∧ CanonicalText "//share/y" ∧ ofText "//share/y" = p := by
  intro p
  have h : p.Reachable := .parent (.join (.ofText "\\\\srv/..//share/./x") "..//y\\z") (by decide)
  obtain ⟨hcanonical, hback, -⟩ := reachable_canonical h
  exact ⟨h, hcanonical, hback⟩

end NormalPath
end SelectiveSync
