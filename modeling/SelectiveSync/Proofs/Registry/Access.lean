import SelectiveSync.Proofs.Storage.Protocol
import SelectiveSync.Registry.File

/-! # Uses of the registry's file keep to its protocol

* `Registry.stored`: the registry that the content of a file stands for, and `Registry.changed` what
  a change makes of it.
* `follows_load`, `follows_save` and `follows_update`: what each use of the file ends with, given
  what the file held when the process looked, and what it puts in place. -/
namespace SelectiveSync.Registry
set_option autoImplicit false

open Storage

/-! ## Contents and registries -/

/-- The registry that a content stands for; no file stands for an empty one. -/
def stored (path : String) : Option ByteArray → Except Error Registry
  | none => .ok {}
  | some bytes => ((textOf path bytes).mapError Error.file).bind ofToml

/-- What a change makes of the registry that a content stands for. -/
def changed {ε α : Type} (lift : Error → ε) (path : String)
    (change : Registry → Except ε (α × Registry)) (content : Option ByteArray) :
    Except ε (α × Registry) :=
  ((stored path content).mapError lift).bind change

/-- The bytes under which the registry is stored. -/
def bytes (r : Registry) : ByteArray :=
  r.toToml.toUTF8

theorem stored_bytes (path : String) (r : Registry) : stored path (some r.bytes) = ofToml r.toToml := by
  have hutf8 : String.fromUTF8? r.toToml.toUTF8 = some r.toToml := dif_pos r.toToml.isValidUTF8
  have htext : textOf path r.bytes = .ok r.toToml := by
    rw [textOf, bytes, hutf8]
  rw [stored, htext]
  rfl

/-! ## Warnings -/

theorem quiet_forM {β : Type} {l : List β} {f : β → Program Unit} (h : ∀ b, (f b).Quiet ()) :
    (l.forM f).Quiet () := by
  induction l with
  | nil => exact .done
  | cons b l ih => exact (h b).bind ih

theorem quiet_warnOfSources (r : Registry) : r.warnOfSources.Quiet () := by
  refine quiet_forM fun t => .kind t.root fun kind => ?_
  show Program.Quiet () (if _ then _ else _)
  split
  · exact .log _ .done
  · exact .done

/-! ## Uses of the file -/

section
variable {self : Nat} {mayCommit : Option ByteArray → ByteArray → Prop} {tr : Trail}

/-- A loading ends with the registry of a content that the file had, or fails because there was no
file or because the lock was not given. -/
def Loaded (path : String) (r : Except Error Registry) (tr : Trail) : Prop :=
  tr.Idle ∧
    (r = .error (.file (.locked path)) ∧ tr.refused = true ∨
      (∃ e, r = .error e) ∧ none ∈ tr.seen ∨
      ∃ bytes, r = stored path (some bytes) ∧ some bytes ∈ tr.seen)

/-- A saving puts the registry in place of the file, or fails because the lock was not given. -/
def Saved (path : String) (s : Registry) (r : Except Error Unit) (tr : Trail) : Prop :=
  tr.hold = .free ∧ tr.new = none ∧
    (r = .error (.file (.locked path)) ∧ tr.refused = true ∧ tr.committed = none ∨
      r = .ok () ∧ tr.committed = some s.bytes)

/-- An update puts in place what the change makes of a content that the file had, or nothing if the
change fails or the lock was not given. -/
def Updated {ε α : Type} (lift : Error → ε) (path : String)
    (change : Registry → Except ε (α × Registry)) (r : Except ε α) (tr : Trail) : Prop :=
  tr.hold = .free ∧ tr.new = none ∧
    (r = .error (lift (.file (.locked path))) ∧ tr.refused = true ∧ tr.committed = none ∨
      ∃ content ∈ tr.seen,
        (∃ e, changed lift path change content = .error e ∧ r = .error e ∧ tr.committed = none) ∨
        ∃ a s, changed lift path change content = .ok (a, s) ∧ r = .ok a ∧
          tr.committed = some s.bytes)

theorem follows_load (path : String) (htr : tr.Idle) :
    Follows (NormalPath.ofText path).text self mayCommit (Loaded (NormalPath.ofText path).text) tr
      (load path).run := by
  have hread : Follows (NormalPath.ofText path).text self mayCommit
      (fun r tr' => tr'.Idle ∧
        (r = .error (.file (.locked (NormalPath.ofText path).text)) ∧ tr'.refused = true ∨
          (∃ e, r = .error e) ∧ none ∈ tr'.seen ∨
          ∃ bytes, r = (textOf (NormalPath.ofText path).text bytes).mapError Error.file ∧
            some bytes ∈ tr'.seen))
      tr ((readLocked (NormalPath.ofText path)).mapError Error.file).run := by
    refine (follows_readLocked (NormalPath.ofText path) htr).mapError ?_
    rintro r tr' ⟨hidle, ⟨rfl, hrefused⟩ | ⟨⟨e, rfl⟩, hnone⟩ | ⟨bytes, rfl, hsome⟩⟩
    · exact ⟨hidle, Or.inl ⟨rfl, hrefused⟩⟩
    · exact ⟨hidle, Or.inr (Or.inl ⟨⟨_, rfl⟩, hnone⟩)⟩
    · exact ⟨hidle, Or.inr (Or.inr ⟨bytes, rfl, hsome⟩)⟩
  refine hread.andThen ?_ ?_
  · rintro text tr' ⟨hidle, ⟨hr, -⟩ | ⟨⟨e, hr⟩, -⟩ | ⟨bytes, hr, hsome⟩⟩
    · cases hr
    · cases hr
    · have hstored : ofToml text = stored (NormalPath.ofText path).text (some bytes) := by
        rw [stored, ← hr]
        rfl
      refine Follows.check (fun s hs => Follows.log _ (Follows.done ?_)) fun e he => ?_
      · exact ⟨hidle, Or.inr (Or.inr ⟨bytes, hs ▸ hstored, hsome⟩)⟩
      · exact ⟨hidle, Or.inr (Or.inr ⟨bytes, he ▸ hstored, hsome⟩)⟩
  · rintro e tr' ⟨hidle, ⟨hr, hrefused⟩ | ⟨-, hnone⟩ | ⟨bytes, hr, hsome⟩⟩
    · cases hr
      exact ⟨hidle, Or.inl ⟨rfl, hrefused⟩⟩
    · exact ⟨hidle, Or.inr (Or.inl ⟨⟨e, rfl⟩, hnone⟩)⟩
    · refine ⟨hidle, Or.inr (Or.inr ⟨bytes, ?_, hsome⟩)⟩
      rw [stored, ← hr]
      rfl

/-- The part of a saving that comes after the warnings. -/
theorem follows_saveFile (s : Registry) (path : String) (htr : tr.Idle)
    (hmay : ∀ content, mayCommit content s.bytes) :
    Follows (NormalPath.ofText path).text self mayCommit (Saved (NormalPath.ofText path).text s) tr
      ((writeAtomic (NormalPath.ofText path) s.bytes).mapError Error.file).run := by
  refine (follows_writeAtomic (NormalPath.ofText path) htr hmay).mapError ?_
  rintro r tr' ⟨hfree, hnew, ⟨rfl, hrefused⟩ | ⟨rfl, hcommitted⟩⟩
  · exact ⟨hfree, hnew, Or.inl ⟨rfl, hrefused⟩⟩
  · exact ⟨hfree, hnew, Or.inr ⟨rfl, hcommitted⟩⟩

theorem follows_save (s : Registry) (path : String) (htr : tr.Idle)
    (hmay : ∀ content, mayCommit content s.bytes) :
    Follows (NormalPath.ofText path).text self mayCommit (Saved (NormalPath.ofText path).text s) tr
      (s.save path).run :=
  Follows.lift s.quiet_warnOfSources (follows_saveFile s path htr hmay)

variable {ε α : Type} {lift : Error → ε} {path : String}
  {change : Registry → Task ε (α × Registry)} {made : Registry → Except ε (α × Registry)}

/-- What happens to a registry that was read: it is changed and put in place of the file. -/
def writeBack (lift : Error → ε) (path : String) (f : LockedFile)
    (change : Registry → Task ε (α × Registry)) (r : Registry) : Task ε α := do
  let (a, r) ← change r
  r.warnOfSources
  (f.write r.bytes).mapError (lift ∘ Error.file)
  Task.log (event .debug "updated registry" [("path", path)])
  return a

theorem updateLocked_eq (f : LockedFile) :
    updateLocked lift path f change = ((f.read).mapError (lift ∘ Error.file) >>= fun text =>
      match text with
      | some text => Task.check lift (ofToml text) >>= writeBack lift path f change
      | none => writeBack lift path f change {}) := by
  refine congrArg (_ >>= ·) (funext fun text => ?_)
  cases text <;> rfl

/-- An update that still holds the lock. -/
def UpdatedLocked (lift : Error → ε) (path : String)
    (made : Registry → Except ε (α × Registry)) (r : Except ε α) (tr : Trail) : Prop :=
  tr.touched = true ∧ tr.hold.kind? = some .exclusive ∧ Updated lift path made r tr.free

theorem Updated.of_error {content : Option ByteArray} {e : ε} {name : String} (htr : tr.Owns content)
    (h : changed lift name made content = .error e) :
    UpdatedLocked lift name made (.error e) tr := by
  refine ⟨htr.touched, by rw [htr.hold]; rfl, rfl, htr.unwritten, Or.inr ⟨content, htr.seen, ?_⟩⟩
  exact Or.inl ⟨e, h, rfl, htr.fresh⟩

theorem follows_writeBack (name : String) {content : Option ByteArray} {r : Registry}
    (htr : tr.Owns content) (hr : stored name content = .ok r)
    (hquiet : ∀ r, (change r).run.Quiet (made r))
    (hmay : ∀ a s, changed lift name made content = .ok (a, s) → mayCommit content s.bytes) :
    Follows name self mayCommit (UpdatedLocked lift name made) tr
      (writeBack lift path ⟨name⟩ change r).run := by
  have hmade : changed lift name made content = made r := by
    rw [changed, hr]
    rfl
  have hchange : Follows name self mayCommit (fun x tr' => x = made r ∧ tr' = tr) tr
      (change r).run := Follows.of_quiet (hquiet r) ⟨rfl, rfl⟩
  refine hchange.andThen ?_ ?_
  · rintro ⟨a, s⟩ tr' ⟨ha, rfl⟩
    rw [← ha] at hmade
    refine Follows.lift s.quiet_warnOfSources ?_
    have hwrite : Follows name self mayCommit
        (fun x tr'' => x = .ok () ∧ tr'' = tr'.commit s.bytes) tr'
        ((LockedFile.write ⟨name⟩ s.bytes).mapError (lift ∘ Error.file)).run := by
      refine (follows_writeOwned htr (hmay a s hmade)).mapError ?_
      rintro x tr'' ⟨rfl, rfl⟩
      exact ⟨rfl, rfl⟩
    refine hwrite.andThen ?_ ?_
    · rintro ⟨⟩ tr'' ⟨-, rfl⟩
      refine Follows.log _ (Follows.done ⟨htr.touched, rfl, rfl, rfl, Or.inr ⟨content, htr.seen, ?_⟩⟩)
      exact Or.inr ⟨a, s, hmade, rfl, rfl⟩
    · rintro e tr'' ⟨hx, -⟩
      cases hx
  · rintro e tr' ⟨he, rfl⟩
    rw [← he] at hmade
    exact Updated.of_error htr hmade

theorem follows_updateLocked (name : String) {content : Option ByteArray} (htr : tr.Owns content)
    (hquiet : ∀ r, (change r).run.Quiet (made r))
    (hmay : ∀ a s, changed lift name made content = .ok (a, s) → mayCommit content s.bytes) :
    Follows name self mayCommit (UpdatedLocked lift name made) tr
      (updateLocked lift path ⟨name⟩ change).run := by
  have hread : Follows name self mayCommit
      (fun x tr' => x = (textAt name content).mapError (lift ∘ Error.file) ∧ tr'.Owns content) tr
      ((LockedFile.read ⟨name⟩).mapError (lift ∘ Error.file)).run := by
    refine (follows_readOwned htr).mapError ?_
    rintro x tr' ⟨rfl, howns⟩
    exact ⟨rfl, howns⟩
  rw [updateLocked_eq]
  refine hread.andThen ?_ ?_
  · rintro text tr' ⟨hx, howns⟩
    cases content with
    | none =>
      cases hx
      exact follows_writeBack name howns rfl hquiet hmay
    | some bytes =>
      cases htext : textOf name bytes with
      | error e =>
        rw [textAt, htext] at hx
        cases hx
      | ok s =>
        rw [textAt, htext] at hx
        cases hx
        have hstored : stored name (some bytes) = ofToml s := by
          rw [stored, htext]
          rfl
        refine Follows.check (fun r hr => ?_) fun e he => ?_
        · exact follows_writeBack name howns (hstored.trans hr) hquiet hmay
        · refine Updated.of_error howns ?_
          rw [changed, hstored, he]
          rfl
  · rintro e tr' ⟨hx, howns⟩
    refine Updated.of_error howns ?_
    cases content with
    | none => cases hx
    | some bytes =>
      cases htext : textOf name bytes with
      | ok s =>
        rw [textAt, htext] at hx
        cases hx
      | error cause =>
        rw [textAt, htext] at hx
        cases hx
        rw [changed, stored, htext]
        rfl

theorem follows_update (htr : tr.Idle) (hquiet : ∀ r, (change r).run.Quiet (made r))
    (hmay : ∀ content a s, changed lift (NormalPath.ofText path).text made content = .ok (a, s) →
      mayCommit content s.bytes) :
    Follows (NormalPath.ofText path).text self mayCommit
      (Updated lift (NormalPath.ofText path).text made) tr (update lift path change).run := by
  have hacquire : Follows (NormalPath.ofText path).text self mayCommit
      (fun x tr' =>
        (x = .error (lift (.file (.locked (NormalPath.ofText path).text))) ∧ tr'.Idle ∧
          tr'.refused = true) ∨
        ∃ content, x = .ok ⟨(NormalPath.ofText path).text⟩ ∧ tr'.Owns content)
      tr ((LockedFile.acquire (NormalPath.ofText path)).mapError (lift ∘ Error.file)).run := by
    refine (follows_acquireLocked (NormalPath.ofText path) htr).mapError ?_
    rintro x tr' (⟨rfl, hidle, hrefused⟩ | ⟨content, rfl, howns⟩)
    · exact Or.inl ⟨rfl, hidle, hrefused⟩
    · exact Or.inr ⟨content, rfl, howns⟩
  refine hacquire.andThen ?_ ?_
  · rintro f tr' (⟨hx, -⟩ | ⟨content, hx, howns⟩)
    · cases hx
    · cases hx
      refine (follows_updateLocked _ howns hquiet (hmay content)).finally_ ?_
      rintro x tr'' ⟨htouched, hhold, hpost⟩
      refine Follows.mono (follows_release htouched hhold) ?_
      rintro _ _ rfl
      exact hpost
  · rintro e tr' (⟨hx, hidle, hrefused⟩ | ⟨content, hx, -⟩)
    · cases hx
      exact ⟨hidle.free, hidle.unwritten, Or.inl ⟨rfl, hrefused, hidle.fresh⟩⟩
    · cases hx

end

end SelectiveSync.Registry
