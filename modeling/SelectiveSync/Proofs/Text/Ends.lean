import Mathlib.Data.List.TakeDrop
import Mathlib.Data.List.TakeWhile
import SelectiveSync.Text.Split

/-! # Ends of texts

* `trimEnd_append`, `trimEnd_of_not_endsWith`: what is taken off the end of a text.
* `cutLast?`: a text cut at the last place where a character stands. -/
namespace SelectiveSync.Text
set_option autoImplicit false

/-! ## Characters taken off the end -/

theorem trimEnd_of_not_endsWith {c : Char} {s : String} (h : endsWith c s = false) :
    trimEnd c s = s := by
  rw [endsWith, beq_eq_false_iff_ne, List.getLast?_eq_head?_reverse] at h
  rw [trimEnd]
  cases hr : s.toList.reverse with
  | nil => rw [List.dropWhile_nil, ← hr, List.reverse_reverse, String.ofList_toList]
  | cons x rest =>
    have hx : ¬ (x == c) = true := by
      rw [hr] at h
      simpa using h
    have hkeep : (x :: rest).dropWhile (· == c) = x :: rest := by
      rw [List.dropWhile_cons, if_neg hx]
    rw [hkeep, ← hr, List.reverse_reverse, String.ofList_toList]

/-! ## The last place of a character -/

/-- What stands before the last `c` in a text, and what stands behind it. -/
def cutLast? (c : Char) (s : String) : Option (String × String) :=
  match s.toList.reverse.span (· ≠ c) with
  | (_, []) => none
  | (behind, _ :: before) => some (String.ofList before.reverse, String.ofList behind.reverse)

theorem cutLast?_of_not_mem {c : Char} {s : String} (h : c ∉ s.toList) : cutLast? c s = none := by
  have hnone : s.toList.reverse.dropWhile (· ≠ c) = [] := by
    apply List.dropWhile_eq_nil_iff.2
    intro d hd
    have hd : d ∈ s.toList := List.mem_reverse.1 hd
    simpa using fun hc : d = c => h (hc ▸ hd)
  rw [cutLast?, List.span_eq_takeWhile_dropWhile, hnone]

theorem cutLast?_append {c : Char} (before : String) {behind : String} (h : c ∉ behind.toList) :
    cutLast? c (before ++ String.singleton c ++ behind) = some (before, behind) := by
  have hrev : (before ++ String.singleton c ++ behind).toList.reverse =
      behind.toList.reverse ++ c :: before.toList.reverse := by
    simp
  have hpass : ∀ d ∈ behind.toList.reverse, decide (d ≠ c) = true := by
    intro d hd
    have hd : d ∈ behind.toList := List.mem_reverse.1 hd
    simpa using fun hc : d = c => h (hc ▸ hd)
  rw [cutLast?, List.span_eq_takeWhile_dropWhile, hrev, List.takeWhile_append_of_pos hpass,
    List.dropWhile_append_of_pos hpass]
  simp

end SelectiveSync.Text
