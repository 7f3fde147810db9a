import SelectiveSync.Proofs.Cli.Leads

/-! # What transfers leave alone

A transfer makes a file for its filter and removes it. Apart from what its program does, nothing else
that was there before goes or changes.

* `World.Spares` and `SparedBetween`: what is at a location stays, except while programs run.
* `World.spares_newFilter` and `World.spares_removeFile`: the file of the filter is made and removed.
* `Transferred.spared`: a transfer spares every location with another name than its filter's. -/
namespace SelectiveSync
set_option autoImplicit false

/-! ## One location -/

/-- Whatever is at the location stays there as it is. -/
def World.Spares (k : Location) (w v : World) : Prop :=
  ∀ e, w.files.get? k = some e → v.files.get? k = some e

/-- Whatever is at the location stays there as it is until the first program is started, from where
each has ended to where the next is started, and from where the last has ended. -/
def SparedBetween (programs : Executables) (process : Nat) (k : Location) :
    World → List Start → World → Prop
  | w, [], v => w.Spares k v
  | w, st :: ss, v =>
    w.Spares k st.world ∧ SparedBetween programs process k (st.outcome programs process).2 ss v

section
variable {programs : Executables} {self : Nat} {k : Location} {u v w : World} {ss ss' : List Start}

theorem World.Spares.trans (h : u.Spares k v) (h' : v.Spares k w) : u.Spares k w :=
  fun e he => h' e (h e he)

theorem World.Remains.spares (h : w.Remains v) (k : Location) : w.Spares k v :=
  h.kept k

theorem World.Still.spares (h : w.Still v) (k : Location) : w.Spares k v :=
  h.remains.spares k

theorem SparedBetween.after (h : u.Spares k v) (h' : SparedBetween programs self k v ss w) :
    SparedBetween programs self k u ss w := by
  cases ss with
  | nil => exact h.trans h'
  | cons st ss => exact ⟨h.trans h'.1, h'.2⟩

theorem SparedBetween.append (h : SparedBetween programs self k u ss v)
    (h' : SparedBetween programs self k v ss' w) :
    SparedBetween programs self k u (ss ++ ss') w := by
  induction ss generalizing u with
  | nil => exact h'.after h
  | cons st ss ih => exact ⟨h.1, ih h.2⟩

theorem SparedBetween.before (h : SparedBetween programs self k u ss v) (hv : v.Spares k w) :
    SparedBetween programs self k u ss w := by
  have hend : SparedBetween programs self k v [] w := hv
  rw [← List.append_nil ss]
  exact h.append hend

end

/-! ## The file of a filter -/

/-- A file that was just made is the one that is opened by its path. -/
theorem FileSystem.openWith_makeFile {fs fs' : FileSystem} {cwd : Location} {path : String}
    (h : fs.makeFile cwd path = .ok fs') (change : ByteArray → ByteArray) :
    ∃ l, l ≠ [] ∧ fs.get? l = none ∧ fs' = fs.insert l (.file .empty false) ∧
      fs'.openWith cwd change path = .ok (l, fs'.insert l (.file (change .empty) false)) := by
  obtain ⟨l, hne, hnone, hfiles, hmade⟩ := made_of_makeFile h
  exact ⟨l, hne, hnone, hfiles, by rw [openWith, hmade]⟩

theorem Text.not_mem_pushn {c d : Char} (hne : c ≠ d) {s : String} (h : c ∉ s.toList) (n : Nat) :
    c ∉ (s.pushn d n).toList := by
  rw [String.pushn_eq_repeat_push]
  induction n with
  | zero => exact h
  | succ n ih =>
    rw [Nat.repeat, String.toList_push, List.mem_append, List.mem_singleton]
    exact not_or.2 ⟨ih, hne⟩

namespace World

section
variable {programs : Executables} {self : Nat} {k : Location} {w w₁ w₂ : World} {file : String}

/-- The file of a filter has a name that begins as the program's does. -/
theorem filterPath_name (w : World) :
    ∃ n, (FileSystem.parts w.filterPath).getLast? = some n ∧ n.toList.head? = some 'o' := by
  obtain ⟨n, hn⟩ : ∃ n : Nat, w.filterPath = "/tmp/offsync-" ++
      "".pushn '0' (6 - (toString n).length) ++ toString n ++ ".filter" := ⟨_, rfl⟩
  have hdigits : '/' ∉ (toString n).toList := by
    rw [Nat.toString_eq_repr, Nat.repr, String.toList_ofList]
    exact fun hc => absurd (Nat.isDigit_of_mem_toDigits (by decide) (by decide) hc) (by decide)
  have hzeros : '/' ∉ ("".pushn '0' (6 - (toString n).length)).toList :=
    Text.not_mem_pushn (by decide) (by decide) _
  generalize toString n = digits at hn hdigits hzeros
  generalize "".pushn '0' (6 - digits.length) = zeros at hn hzeros
  have hhead : ("offsync-" ++ zeros ++ digits ++ ".filter").toList.head? = some 'o' := by
    simp [String.toList_append]
  have hfull : w.filterPath =
      WrittenPath.append "/tmp" ("offsync-" ++ zeros ++ digits ++ ".filter") := by
    rw [hn, WrittenPath.append, if_neg, if_neg (by decide)]
    · simp only [← String.append_assoc]
      rfl
    · rw [WrittenPath.isAbsolute, Text.startsWith, hhead]
      decide
  refine ⟨_, ?_, hhead⟩
  rw [hfull]
  refine WrittenPath.getLast?_parts_append _ ?_ ?_
  · intro hempty
    simpa using congrArg String.length hempty
  · simp only [String.toList_append, List.mem_append, not_or]
    exact ⟨⟨⟨by decide, hzeros⟩, hdigits⟩, by decide⟩

/-- What is there before the file of a filter is made and written stays. -/
theorem spares_newFilter (hnew : w.answer programs self .newFilter = (.ok file, w₁))
    {bytes : ByteArray} (hwrite : w₁.answer programs self (.append file bytes) = (.ok (), w₂)) :
    file = w.filterPath ∧ w.Spares k w₂ := by
  rw [answer] at hnew
  split at hnew
  · next files hmake =>
    cases hnew
    obtain ⟨l, hne, hnone, hfiles, hopen⟩ := FileSystem.openWith_makeFile hmake (· ++ bytes)
    rw [answer, hopen] at hwrite
    cases hwrite
    refine ⟨rfl, fun e he => ?_⟩
    have hkl : k ≠ l := fun heq => by rw [heq, hnone] at he; cases he
    show (files.insert l _).get? k = some e
    rw [hfiles, FileSystem.get?_insert _ hne, if_neg hkl, FileSystem.get?_insert _ hne, if_neg hkl,
      he]
  · cases hnew

/-- A file that is removed is one of the name that its path ends in. -/
theorem spares_removeFile {path n : String} (hn : (FileSystem.parts path).getLast? = some n)
    (hdots : n ≠ "." ∧ n ≠ "..") (hk : k.getLast? ≠ some n) (w : World) :
    w.Spares k (w.answer programs self (.removeFile path)).2 := by
  rw [answer, FileSystem.removeFile]
  split
  · exact fun _ he => he
  · next l x _ hplace =>
    obtain ⟨-, -, -, hlast⟩ := FileSystem.locate_sameWays (.refl _) hn hdots hplace
    have hl : l.getLast? = some n := hlast
    have hne : l ≠ [] := by
      rintro rfl
      cases hl
    intro e he
    show (w.files.erase l).get? k = some e
    rw [FileSystem.get?_erase _ hne, if_neg fun heq : k = l =>
      hk ((congrArg List.getLast? heq).trans hl), he]
  · exact fun _ he => he
  · exact fun _ he => he

end
end World

/-! ## Transfers -/

namespace TransferPlan

section
variable {programs : Executables} {self : Nat} {plan : TransferPlan} {k : Location} {w v : World}
  {r : Except Error TransferReport} {ss : List Start}

theorem Executed.spared {args : List String} (h : Executed programs self plan args w r v ss) :
    SparedBetween programs self k w ss v := by
  cases h with
  | shown _ hv => exact hv.spares k
  | ran _ hu => exact ⟨hu.spares k, fun _ he => he⟩

/-- Apart from what its program does, a plan that is carried out spares every location whose name
does not begin as that of its filter. -/
theorem Ran.spared (hk : ∀ n, k.getLast? = some n → n.toList.head? ≠ some 'o')
    (h : Ran programs self plan w r v ss) : SparedBetween programs self k w ss v := by
  cases h with
  | unfiltered _ h => exact h.spared
  | unwritten _ hnew =>
    rw [World.answer] at hnew
    split at hnew
    · cases hnew
    · cases hnew
      exact fun _ he => he
  | @filtered _ _ _ _ v' _ _ _ hnew hwrite _ h =>
    obtain ⟨rfl, hspares⟩ := World.spares_newFilter (k := k) hnew hwrite
    obtain ⟨n, hn, hhead⟩ := w.filterPath_name
    have hdots : n ≠ "." ∧ n ≠ ".." := by
      refine ⟨?_, ?_⟩ <;> rintro rfl <;> exact absurd hhead (by decide)
    have hremoved : v'.Spares k (v'.answer programs self (.removeFile w.filterPath)).2 :=
      World.spares_removeFile hn hdots (fun heq => hk n heq hhead) v'
    exact (h.spared.before hremoved).after hspares

end
end TransferPlan

namespace Cli

theorem Transferred.spared {programs : Executables} {self : Nat} {direction : Direction}
    {o : TransferOptions} {w v : World} {out : Except Failure TransferReport} {ss : List Start}
    {k : Location} (hk : ∀ n, k.getLast? = some n → n.toList.head? ≠ some 'o')
    (h : Transferred programs self direction o w out v ss) : SparedBetween programs self k w ss v := by
  cases h with
  | unplanned hu => exact hu.spares k
  | carried hu _ _ hran hv => exact ((hran.spared hk).before (hv.spares k)).after (hu.spares k)

end Cli
end SelectiveSync
