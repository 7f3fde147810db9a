import SelectiveSync.Proofs.System.Run
import SelectiveSync.System.Mishap

/-! # Runs in which calls fail

`Program.EndsAmid` follows a program from a world call by call, whatever goes wrong with the calls
that may fail: how it ends, what world it leaves and what became of each call.

* `endsAmid_bind`, `EndsAmid.andThen` and their neighbours: programs and tasks in two parts.
* `EndsAmid.of_asks`: calls that never fail.
* `EndsAmid.runAmid`: the run itself ends so. -/
namespace SelectiveSync
set_option autoImplicit false

/-- A call in the course of a run: in which world it was made, and what went wrong with it. -/
structure Attempt where
  call : Call
  world : World
  mishap : Option Mishap

namespace World

/-- The calls of a run amid mishaps, the first of them first. -/
def attempts {α : Type} (programs : Executables) (self : Nat) (mishaps : Mishaps) :
    Nat → Program α → World → List Attempt
  | _, .done _, _ => []
  | n, .call c next, w =>
    ⟨c, w, mishaps.of n c w⟩ ::
      attempts programs self mishaps (n + 1)
        (next (w.answerAmid programs self (mishaps.of n c w) c).1)
        (w.answerAmid programs self (mishaps.of n c w) c).2

variable {programs : Executables} {self : Nat}

theorem answerAmid_none (c : Call) (w : World) :
    w.answerAmid programs self none c = w.answer programs self c := by
  cases c <;> rfl

theorem attempts_none {α : Type} (n : Nat) (p : Program α) (w : World) :
    ∀ a ∈ w.attempts programs self Mishaps.none_ n p, a.mishap = none := by
  induction p generalizing n w with
  | done a => exact List.forall_mem_nil _
  | call c next ih =>
    refine List.forall_mem_cons.2 ⟨?_, ih _ _ _⟩
    show Mishaps.none_.of n c w = none
    rw [Mishaps.of]
    split <;> rfl

end World

namespace Program

/-- From the world `w`, where `n` calls were made before, the program ends as `post` says of its
result, of the world that it leaves and of its calls. -/
def EndsAmid {α : Type} (programs : Executables) (self : Nat) (mishaps : Mishaps) :
    Program α → Nat → World → (α → World → List Attempt → Prop) → Prop
  | .done a, _, w, post => post a w []
  | .call c next, n, w, post =>
    EndsAmid programs self mishaps (next (w.answerAmid programs self (mishaps.of n c w) c).1)
      (n + 1) (w.answerAmid programs self (mishaps.of n c w) c).2
      fun a v as => post a v (⟨c, w, mishaps.of n c w⟩ :: as)

variable {programs : Executables} {self : Nat} {mishaps : Mishaps}

theorem endsAmid_done {α : Type} {a : α} {n : Nat} {w : World}
    {post : α → World → List Attempt → Prop} :
    (done a).EndsAmid programs self mishaps n w post ↔ post a w [] :=
  Iff.rfl

theorem endsAmid_call {α : Type} {c : Call} {next : c.Reply → Program α} {n : Nat} {w : World}
    {post : α → World → List Attempt → Prop} :
    (call c next).EndsAmid programs self mishaps n w post ↔
      (next (w.answerAmid programs self (mishaps.of n c w) c).1).EndsAmid programs self mishaps
        (n + 1) (w.answerAmid programs self (mishaps.of n c w) c).2
        fun a v as => post a v (⟨c, w, mishaps.of n c w⟩ :: as) :=
  Iff.rfl

-- A statement about how a program ends is never to be worked out by running the program.
attribute [irreducible] EndsAmid

theorem endsAmid_bind {α β : Type} {p : Program α} {next : α → Program β} {n : Nat} {w : World}
    {post : β → World → List Attempt → Prop} :
    (p.bind next).EndsAmid programs self mishaps n w post ↔
      p.EndsAmid programs self mishaps n w fun a v as =>
        (next a).EndsAmid programs self mishaps (n + as.length) v
          fun b v' as' => post b v' (as ++ as') := by
  induction p generalizing n w post with
  | done a => simp only [bind, endsAmid_done, List.nil_append, List.length_nil, Nat.add_zero]
  | call c rest ih =>
    simp only [bind, endsAmid_call, ih, List.cons_append, List.length_cons]
    have hcount (as : List Attempt) : n + 1 + as.length = n + (as.length + 1) := by omega
    simp only [hcount]

namespace EndsAmid

section
variable {α : Type} {p : Program α} {n : Nat} {w : World}
  {mid post : α → World → List Attempt → Prop}

theorem mono (hp : p.EndsAmid programs self mishaps n w mid)
    (h : ∀ a v as, mid a v as → post a v as) : p.EndsAmid programs self mishaps n w post := by
  induction p generalizing n w mid post with
  | done a => exact endsAmid_done.2 (h a w [] (endsAmid_done.1 hp))
  | call c next ih =>
    exact endsAmid_call.2 (ih _ (endsAmid_call.1 hp) fun a v as => h a v _)

/-- The run itself ends so. -/
theorem runAmid (h : p.EndsAmid programs self mishaps n w post) :
    post (w.runAmid programs self mishaps n p).1 (w.runAmid programs self mishaps n p).2
      (w.attempts programs self mishaps n p) := by
  induction p generalizing n w post with
  | done a => exact endsAmid_done.1 h
  | call c next ih => exact ih _ (endsAmid_call.1 h)

/-- Something goes wrong with the next call, or nothing does. -/
theorem fallible {c : Call} {next : c.Reply → Program α} {r : c.Reply} {v : World}
    {failed : Mishap → c.Reply} {after : Mishap → World}
    (hfailed : ∀ m, w.answerAmid programs self (some m) c = (failed m, after m))
    (hanswer : w.answer programs self c = (r, v))
    (hfails : ∀ m, mishaps.of n c w = some m →
      (next (failed m)).EndsAmid programs self mishaps (n + 1) (after m)
        fun a v' as => post a v' (⟨c, w, some m⟩ :: as))
    (hdone : mishaps.of n c w = none → (next r).EndsAmid programs self mishaps (n + 1) v
      fun a v' as => post a v' (⟨c, w, none⟩ :: as)) :
    (Program.call c next).EndsAmid programs self mishaps n w post := by
  refine endsAmid_call.2 ?_
  cases hm : mishaps.of n c w with
  | some m =>
    rw [hfailed m]
    exact hfails m hm
  | none =>
    rw [World.answerAmid_none, hanswer]
    exact hdone hm

/-- The next call never fails. -/
theorem safe {c : Call} (hc : c.mayFail = false) {next : c.Reply → Program α} {r : c.Reply}
    {v : World} (hanswer : w.answer programs self c = (r, v))
    (h : (next r).EndsAmid programs self mishaps (n + 1) v
      fun a v' as => post a v' (⟨c, w, none⟩ :: as)) :
    (Program.call c next).EndsAmid programs self mishaps n w post := by
  have hnone : mishaps.of n c w = none := by
    rw [Mishaps.of, if_neg (Bool.eq_false_iff.1 hc)]
  refine endsAmid_call.2 ?_
  rw [hnone, World.answerAmid_none, hanswer]
  exact h

/-- A program whose calls never fail ends as it does where nothing goes wrong. What each of its
calls keeps of the world holds between the world it began in, those in which its calls are made and
the last one. -/
theorem of_asks {asked : Call → Prop} {keeps : World → World → Prop} (hrefl : ∀ w, keeps w w)
    (htrans : ∀ {u v w}, keeps u v → keeps v w → keeps u w)
    (hcall : ∀ c, asked c → c.mayFail = false ∧ ∀ w, keeps w (w.answer programs self c).2)
    (hp : p.Asks asked) :
    p.EndsAmid programs self mishaps n w fun a v as =>
      w.run programs self p = (a, v) ∧ keeps w v ∧
        ∀ x ∈ as, x.mishap = none ∧ keeps w x.world ∧ keeps x.world v := by
  induction hp generalizing n w with
  | done a => exact endsAmid_done.2 ⟨rfl, hrefl w, List.forall_mem_nil _⟩
  | @call c hc next _ ih =>
    obtain ⟨hsafe, hkeeps⟩ := hcall c hc
    refine safe hsafe rfl ((ih _).mono ?_)
    rintro a v as ⟨hrun, hv, has⟩
    have hwv : keeps w v := htrans (hkeeps w) hv
    refine ⟨hrun, hwv, List.forall_mem_cons.2 ⟨⟨rfl, hrefl w, hwv⟩, fun x hx => ?_⟩⟩
    obtain ⟨hnone, hwx, hxv⟩ := has x hx
    exact ⟨hnone, htrans (hkeeps w) hwx, hxv⟩

end

/-! ## Tasks -/

section
variable {ε α β : Type} {t : Task ε α} {next : α → Task ε β} {n : Nat} {w : World}
  {mid : Except ε α → World → List Attempt → Prop} {post : Except ε β → World → List Attempt → Prop}

theorem andThen (ht : t.run.EndsAmid programs self mishaps n w mid)
    (hok : ∀ a v as, mid (.ok a) v as →
      (next a).run.EndsAmid programs self mishaps (n + as.length) v
        fun b v' as' => post b v' (as ++ as'))
    (herror : ∀ e v as, mid (.error e) v as → post (.error e) v as) :
    (t >>= next).run.EndsAmid programs self mishaps n w post := by
  refine endsAmid_bind.2 (ht.mono fun r v as hr => ?_)
  cases r with
  | ok a => exact hok a v as hr
  | error e =>
    refine endsAmid_done.2 ?_
    rw [List.append_nil]
    exact herror e v as hr

theorem finally_ {after : Program Unit} {post : Except ε α → World → List Attempt → Prop}
    (ht : t.run.EndsAmid programs self mishaps n w mid)
    (hafter : ∀ r v as, mid r v as →
      after.EndsAmid programs self mishaps (n + as.length) v
        fun _ v' as' => post r v' (as ++ as')) :
    (t.finally_ after).run.EndsAmid programs self mishaps n w post := by
  refine endsAmid_bind.2 (ht.mono fun r v as hr => endsAmid_bind.2 ((hafter r v as hr).mono ?_))
  intro _ v' as' h
  refine endsAmid_done.2 ?_
  rwa [List.append_nil]

end

end EndsAmid

end Program
end SelectiveSync
