import SelectiveSync.Cli.Run
import SelectiveSync.Proofs.Transfer.Spared

/-! # What commands that keep books leave stored

A command makes at most one edit of the stored registry.

* `Command.Makes` and `Command.Reaches`: which edit that is, and which commands get to the stored
  registry at all.
* `Settled`: what a command leaves stored, for what it ends with and the programs it starts.
* `leads_add` and its neighbours: how each command that keeps books settles the stored registry. -/
namespace SelectiveSync
set_option autoImplicit false

open Registry Storage

/-! ## What is deleted -/

namespace FileSystem

variable {fs : FileSystem} {cwd k : Location} {p : String}

/-- The file system after whatever is at a path was deleted. -/
def deleted (fs : FileSystem) (cwd : Location) (p : String) : Except Fault FileSystem :=
  match fs.entry cwd p with
  | .ok (_, .directory) => fs.removeTree cwd p
  | .ok _ => fs.removeFile cwd p
  | .error _ => .ok fs

end FileSystem

namespace Cli

/-! ## Commands and the stored registry -/

namespace Command

/-- The path that a command is about. It is resolved before anything else is done. -/
def about? : Command → Option String
  | add _ dest | remove dest _ | setSource dest _ => some dest
  | mark path _ | summon path _ | exclude path _ | reset path => some path
  | push .. | revert .. | status _ | completions _ => none

/-- The command makes an edit of the stored registry. -/
def edits : Command → Bool
  | add .. | remove .. | exclude .. | reset _ | setSource .. => true
  | mark _ choices | summon _ choices => choices.dryRun.isNone
  | push .. | revert .. | status _ | completions _ => false

/-- The command loads the registry to look at it, before it makes an edit or without one. -/
def loads : Command → Bool
  | remove .. | summon .. | push .. | status _ => true
  | mark _ choices => choices.dryRun.isSome
  | revert targets all _ => !targets.isEmpty || all
  | add .. | exclude .. | reset _ | setSource .. | completions _ => false

/-- The command transfers whole targets. -/
def transfersTargets : Command → Bool
  | push .. | revert .. => true
  | _ => false

/-- The edit that a command makes of the stored registry, for what its path resolves to. -/
inductive Makes (programs : Executables) (process : Nat) (w : World) : Command → Edit → Prop
  | add {source dest root source' : String}
      (hroot : (w.run programs process (resolve dest).run).1 = .ok root)
      (hsource : (w.run programs process (directorySource source root).run).1 = .ok source') :
      Makes programs process w (.add source dest) (.add source' root)
  | remove {dest root : String} (yes : Bool)
      (hroot : (w.run programs process (resolve dest).run).1 = .ok root) :
      Makes programs process w (.remove dest yes) (.remove root)
  | mark {path p : String} {choices : TransferChoices} (hgiven : choices.dryRun = none)
      (hp : (w.run programs process (resolve path).run).1 = .ok p) :
      Makes programs process w (.mark path choices) (.decide .included p)
  | exclude {path p : String} (evict : Bool)
      (hp : (w.run programs process (resolve path).run).1 = .ok p) :
      Makes programs process w (.exclude path evict) (.decide .evicted p)
  | reset {path p : String} (hp : (w.run programs process (resolve path).run).1 = .ok p) :
      Makes programs process w (.reset path) (.decide .undecided p)
  | setSource {dest source root source' : String}
      (hroot : (w.run programs process (resolve dest).run).1 = .ok root)
      (hsource : (w.run programs process (directorySource source root).run).1 = .ok source') :
      Makes programs process w (.setSource dest source) (.setSource root source')

theorem Makes.edits {programs : Executables} {process : Nat} {w : World} {c : Command} {e : Edit}
    (h : c.Makes programs process w e) : c.edits = true := by
  cases h with
  | mark hgiven => rw [Command.edits, hgiven, Option.isNone_none]
  | _ => rfl

/-- The command gets to the stored registry: it asks for it, its path can be resolved, and if the
registry is only loaded, the path of its file leads somewhere as it is written. -/
structure Reaches (programs : Executables) (process : Nat) (w : World) (file : String) (c : Command) :
    Prop where
  asks : c.about?.isSome = true ∨ c.loads = true
  resolved : ∀ path, c.about? = some path →
    ∃ p, (w.run programs process (resolve path).run).1 = .ok p
  raw : c.loads = true → (w.files.entry w.cwd file).isOk = true

end Command

/-- What a command leaves stored. The registry's file is kept, and what cannot be read there is told
by every command that gets to it; or the one edit of the command is stored; or an eviction is stored
and then what its path leads to is deleted, if need be with the file, or cannot be; or programs are
started, and the file is spared except by them. -/
inductive Settled (programs : Executables) (process : Nat) (s : Session) (k l : Location) (c : Command)
    (w : World) : Except Failure Unit → World → List Start → Prop
  | kept {out : Except Failure Unit} {v : World} (hfile : v.files.get? k = w.files.get? k)
      (hwhy : ∀ e, stored (NormalPath.ofText s.config.targetsFile).text (w.content k) = .error e →
        w.allows l .exclusive = true → c.Reaches programs process w s.config.targetsFile →
        out = .error (.operation e)) :
      Settled programs process s k l c w out v []
  | stored {e : Edit} {r r' : Registry} {v : World} {x : Bool}
      (hmakes : c.Makes programs process w e)
      (hstored : stored (NormalPath.ofText s.config.targetsFile).text (w.content k) = .ok r)
      (happly : e.apply r = .ok r') (hfile : v.files.get? k = some (.file r'.bytes x)) :
      Settled programs process s k l c w (.ok ()) v []
  | evicted {path p : String} {r r' : Registry} {out : Except Failure Unit} {v : World}
      (hc : c = .exclude path true)
      (hp : (w.run programs process (resolve path).run).1 = .ok p)
      (hstored : stored (NormalPath.ofText s.config.targetsFile).text (w.content k) = .ok r)
      (happly : (Edit.decide .evicted p).apply r = .ok r')
      (hfile : (∃ x, v.files.get? k = some (.file r'.bytes x)) ∧
          (out = .ok () ∨ ∃ fault, v.files.deleted w.cwd p = .error fault) ∨
        out = .ok () ∧ v.files.get? k = none ∧
          ∃ place, w.files.locate w.cwd false p = .ok place ∧ place.location <+: k) :
      Settled programs process s k l c w out v []
  | transferred {r : Registry} {bytes : ByteArray} {x : Bool} {out : Except Failure Unit} {v : World}
      {ss : List Start} (hc : c.transfersTargets = true) (hfile : w.files.get? k = some (.file bytes x))
      (hstored : stored (NormalPath.ofText s.config.targetsFile).text (w.content k) = .ok r)
      (hbetween : SparedBetween programs process k w ss v) :
      Settled programs process s k l c w out v ss

section
variable {programs : Executables} {self : Nat} {s : Session} {c : Command} {w u v : World}
  {k l t : Location}

/-! ## Paths -/

theorem asks_directorySource (source root : String) :
    (directorySource source root).run.Asks Looks := by
  refine (asks_isDir root).andThen fun isDir => ?_
  show Program.Asks Looks (ExceptT.run (if _ then _ else _))
  split <;> exact .done _

/-- The registry that a command has loaded is the stored one, or empty where the path of the file
leads nowhere as it is written. -/
def Loaded (s : Session) (w : World) (k : Location) (r : Registry) : Prop :=
  (w.files.entry w.cwd s.config.targetsFile).isOk = false ∧ r = {} ∨
    ∃ bytes x, w.files.get? k = some (.file bytes x) ∧
      stored (NormalPath.ofText s.config.targetsFile).text (w.content k) = .ok r

/-- Once the registry is loaded, a command may end in any way that keeps it. -/
theorem Loaded.kept {r : Registry} {out : Except Failure Unit} (h : Loaded s w k r)
    (hloads : c.loads = true) (hv : w.Unmoved k v) :
    Settled programs self s k l c w out v [] := by
  refine .kept hv.file fun e he _ hreaches => ?_
  rcases h with ⟨hraw, -⟩ | ⟨_, _, -, hstored⟩
  · rw [hreaches.raw hloads] at hraw
    cases hraw
  · rw [hstored] at he
    cases he

theorem asks_mapM {α β : Type} {asked : Call → Prop} {f : α → CommandTask β}
    (hf : ∀ a, (f a).run.Asks asked) (l : List α) : (l.mapM f).run.Asks asked := by
  have hloop (l : List α) (done : List β) : (List.mapM.loop f l done).run.Asks asked := by
    induction l generalizing done with
    | nil => exact .done _
    | cons a l ih => exact (hf a).andThen fun b => ih (b :: done)
  exact hloop l []

end
end Cli
end SelectiveSync
