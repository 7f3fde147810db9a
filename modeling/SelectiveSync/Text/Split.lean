/-! # Text cut at a separator

`pieces` cuts a text at every occurrence of a character and `joined` puts pieces together again. The
two are inverse wherever no piece holds the separator. -/
namespace SelectiveSync.Text
set_option autoImplicit false

/-- The stretches between the separators, empty ones included: one more than the separators. -/
def pieces (c : Char) (s : String) : List String :=
  (s.toList.splitOn c).map String.ofList

/-- The pieces with one separator between each two. -/
def joined (c : Char) (ps : List String) : String :=
  (String.singleton c).intercalate ps

/-- What follows `start` in a text that begins with it. -/
def dropStart? (start s : String) : Option String :=
  (start.toList.isPrefixOf? s.toList).map String.ofList

/-- The text without the characters `c` at its end. -/
def trimEnd (c : Char) (s : String) : String :=
  String.ofList (s.toList.reverse.dropWhile (· == c)).reverse

/-- The text with every `a` replaced by `b`. -/
def swap (a b : Char) (s : String) : String :=
  String.ofList (s.toList.map fun c => if c = a then b else c)

def endsWith (c : Char) (s : String) : Bool :=
  s.toList.getLast? == some c

def startsWith (c : Char) (s : String) : Bool :=
  s.toList.head? == some c

/-! ## Cutting and joining -/

theorem toList_joined (c : Char) (ps : List String) :
    (joined c ps).toList = [c].intercalate (ps.map String.toList) := by
  simp [joined, String.toList_intercalate]

/-- A joined text begins with what its first pieces joined make. -/
theorem joined_prefix {c : Char} {ps qs : List String} (h : ps <+: qs) :
    (joined c ps).toList <+: (joined c qs).toList := by
  obtain ⟨rs, rfl⟩ := h
  by_cases hp : ps = []
  · subst hp
    exact List.nil_prefix
  by_cases hr : rs = []
  · exact ⟨[], by simp [hr]⟩
  · rw [joined, joined, String.intercalate_append_of_ne_nil hp hr, String.toList_append,
      String.toList_append, List.append_assoc]
    exact List.prefix_append _ _

theorem joined_pieces (c : Char) (s : String) : joined c (pieces c s) = s := by
  apply String.toList_inj.1
  rw [toList_joined, pieces, List.map_map]
  have : (String.toList ∘ String.ofList) = id := by
    funext l; simp
  rw [this, List.map_id, List.intercalate_splitOn]

theorem pieces_joined (c : Char) (ps : List String) (hne : ps ≠ [])
    (h : ∀ p ∈ ps, c ∉ p.toList) : pieces c (joined c ps) = ps := by
  rw [pieces, toList_joined, List.splitOn_intercalate]
  · rw [List.map_map]
    have : (String.ofList ∘ String.toList) = id := by
      funext l; simp
    rw [this, List.map_id]
  · intro l hl
    obtain ⟨p, hp, rfl⟩ := List.mem_map.1 hl
    exact h p hp
  · simpa using hne

theorem pieces_ne_nil (c : Char) (s : String) : pieces c s ≠ [] := by
  simp [pieces, List.splitOn_ne_nil]

end SelectiveSync.Text
