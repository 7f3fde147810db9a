import SelectiveSync.Text.Split

/-! # Rows written as lines

A list of rows is written with a line end behind each row and read back line by line.

* `pieces_append`: a separator between two texts cuts between their pieces.
* `lines_join`: what is read back of rows are the lines of the first row, then those of the second,
  and so on.
* `lines_join_eq_iff`: these are the rows again just when no row has a line end in it. -/
namespace SelectiveSync.Text
set_option autoImplicit false

/-- The lines of a text. A line end at the end of the text ends the last line and begins no other. -/
def lines (s : String) : List String :=
  if (pieces '\n' s).getLast? = some "" then (pieces '\n' s).dropLast else pieces '\n' s

theorem pieces_append (c : Char) (a b : String) :
    pieces c (a ++ String.singleton c ++ b) = pieces c a ++ pieces c b := by
  have happ : (a ++ String.singleton c ++ b).toList = a.toList ++ c :: b.toList := by simp
  rw [pieces, happ, List.splitOn_append_cons_self, List.map_append]
  rfl

theorem pieces_eq_singleton {c : Char} {s : String} (h : c ∉ s.toList) : pieces c s = [s] := by
  have hjoined : joined c [s] = s := String.intercalate_singleton
  rw [← hjoined]
  exact (pieces_joined c [s] (by simp) (by simpa using h)).trans (by rw [hjoined])

theorem not_mem_of_mem_splitOn {c : Char} {cs piece : List Char} (h : piece ∈ cs.splitOn c) :
    c ∉ piece := by
  induction cs generalizing piece with
  | nil => simp_all
  | cons d rest ih =>
    rw [List.splitOn_cons_eq_if_modifyHead] at h
    split at h
    · rcases List.mem_cons.1 h with rfl | h
      · simp
      · exact ih h
    · next hd =>
      obtain ⟨first, more, hrest⟩ := List.exists_cons_of_ne_nil (List.splitOn_ne_nil c rest)
      rw [hrest, List.modifyHead_cons] at h
      rcases List.mem_cons.1 h with rfl | h
      · have hfirst : c ∉ first := ih (hrest ▸ List.mem_cons_self)
        exact fun hc => (List.mem_cons.1 hc).elim (fun heq => hd (beq_iff_eq.2 heq.symm)) hfirst
      · exact ih (hrest ▸ List.mem_cons_of_mem _ h)

theorem not_mem_of_mem_pieces {c : Char} {s piece : String} (h : piece ∈ pieces c s) :
    c ∉ piece.toList := by
  obtain ⟨l, hl, rfl⟩ := List.mem_map.1 h
  rw [String.toList_ofList]
  exact not_mem_of_mem_splitOn hl

/-! ## Rows -/

theorem pieces_join (rows : List String) :
    pieces '\n' (String.join (rows.map (· ++ "\n"))) = rows.flatMap (pieces '\n') ++ [""] := by
  induction rows with
  | nil => rfl
  | cons r rest ih =>
    rw [List.map_cons, String.join_cons, List.flatMap_cons, List.append_assoc, ← ih]
    exact pieces_append '\n' r _

theorem lines_join (rows : List String) :
    lines (String.join (rows.map (· ++ "\n"))) = rows.flatMap (pieces '\n') := by
  rw [lines, pieces_join, List.getLast?_concat, if_pos rfl, List.dropLast_concat]

example : lines "one\n\ntwo" = ["one", "", "two"] := by decide

theorem lines_join_eq_iff (rows : List String) :
    lines (String.join (rows.map (· ++ "\n"))) = rows ↔ ∀ r ∈ rows, '\n' ∉ r.toList := by
  rw [lines_join]
  constructor
  · intro h r hr
    rw [← h] at hr
    obtain ⟨_, -, hpiece⟩ := List.mem_flatMap.1 hr
    exact not_mem_of_mem_pieces hpiece
  · intro h
    induction rows with
    | nil => rfl
    | cons r rest ih =>
      rw [List.flatMap_cons, pieces_eq_singleton (h r (by simp)),
        ih fun u hu => h u (List.mem_cons_of_mem r hu), List.singleton_append]

end SelectiveSync.Text
